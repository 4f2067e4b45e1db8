import Mathlib.Data.BitVec
import Mathlib.Data.List.GetD
import Mathlib.Logic.Function.Basic

/-! Read and write commands as the controller sees them: the pages a data pointer
names and what a write leaves on storage. Controller pages have 4096 bytes. -/
namespace Shaper.Nvme
variable {β : Type*}

structure Command where
  slba : BitVec 64
  nlb : BitVec 16
  prp1 : BitVec 64
  prp2 : BitVec 64
deriving DecidableEq, Repr

/-- `nvm_cmd_data_ptr` and `nvm_cmd_rw_blks`; the block count is zero-based. -/
def rwCommand (startLba : BitVec 64) (nBlks : BitVec 16) (prp1 prp2 : BitVec 64) : Command :=
  ⟨startLba, nBlks - 1#16, prp1, prp2⟩

def Command.firstByte (blkLog : Nat) (c : Command) : Nat := c.slba.toNat * 2^blkLog

def Command.bytes (blkLog : Nat) (c : Command) : Nat := (c.nlb.toNat + 1) * 2^blkLog

def listPages (load : BitVec 64 → BitVec 64) : Nat → BitVec 64 → Nat → List (BitVec 64)
  | 0, _, _ => []
  | fuel+1, ptr, n =>
    let entry := fun i => load (ptr + BitVec.ofNat 64 (8*i))
    let room := (4096 - ptr.toNat % 4096) / 8
    if n ≤ room then (List.range n).map entry
    else (List.range (room-1)).map entry ++ listPages load fuel (entry (room-1)) (n-(room-1))

def prpPages (load : BitVec 64 → BitVec 64) (prp1 prp2 : BitVec 64) (n : Nat) : List (BitVec 64) :=
  if n ≤ 1 then [prp1] else if n = 2 then [prp1, prp2] else prp1 :: listPages load n prp2 (n-1)

/-- More than two pages, with at most 512 of them in the list: it is one list page. -/
theorem prpPages_list {load : BitVec 64 → BitVec 64} {prp2 : BitVec 64}
    (halign : prp2.toNat % 4096 = 0) {n : Nat} (h2 : 2 ≤ n) (hn : n ≤ 512) (prp1 : BitVec 64) :
    prpPages load prp1 prp2 (n+1) =
      prp1 :: (List.range n).map fun i => load (prp2 + BitVec.ofNat 64 (8*i)) := by
  have hroom : n ≤ (4096 - prp2.toNat % 4096) / 8 := by omega
  rw [prpPages, if_neg (by omega), if_neg (by omega), Nat.add_sub_cancel]
  simp only [listPages, if_pos hroom]

def Command.pages (load : BitVec 64 → BitVec 64) (blkLog : Nat) (c : Command) : List (BitVec 64) :=
  prpPages load c.prp1 c.prp2 ((c.prp1.toNat % 4096 + c.bytes blkLog + 4095) / 4096)

def byteAddr (pages : List (BitVec 64)) (i : Nat) : BitVec 64 :=
  let k := (pages.headD 0).toNat % 4096 + i
  if k < 4096 then pages.headD 0 + BitVec.ofNat 64 i
  else pages.getD (k/4096) 0 + BitVec.ofNat 64 (k%4096)

def Command.write (load : BitVec 64 → BitVec 64) (ram : BitVec 64 → β) (blkLog : Nat) (c : Command)
    (disk : Nat → β) : Nat → β := fun x =>
  if c.firstByte blkLog ≤ x ∧ x < c.firstByte blkLog + c.bytes blkLog then
    ram (byteAddr (c.pages load blkLog) (x - c.firstByte blkLog))
  else disk x

def Command.byteMoves (load : BitVec 64 → BitVec 64) (blkLog : Nat) (c : Command) :
    List (BitVec 64 × Nat) :=
  (List.range (c.bytes blkLog)).map fun i =>
    (byteAddr (c.pages load blkLog) i, c.firstByte blkLog + i)

def Command.read (load : BitVec 64 → BitVec 64) (disk : Nat → β) (blkLog : Nat) (c : Command)
    (ram : BitVec 64 → β) : BitVec 64 → β :=
  (c.byteMoves load blkLog).foldl (fun ram move => Function.update ram move.1 (disk move.2)) ram

def writePages (ram : BitVec 64 → β) (off : Nat) (pages : List (BitVec 64)) (disk : Nat → β) :
    Nat → β := fun x =>
  if off ≤ x ∧ x < off + 4096*pages.length then
    ram (pages.getD ((x-off)/4096) 0 + BitVec.ofNat 64 ((x-off)%4096))
  else disk x

/-- Bytes of distinct pages have distinct addresses, as have those of one page. -/
theorem paged_inj {P : Nat} (hP : P ∣ 2^64) {l : List (BitVec 64)} (hnd : l.Nodup)
    (halign : ∀ a ∈ l, a.toNat % P = 0) {x y : Nat} (hx : x < P*l.length) (hy : y < P*l.length)
    (h : l.getD (x/P) 0 + BitVec.ofNat 64 (x%P) = l.getD (y/P) 0 + BitVec.ofNat 64 (y%P)) :
    x = y := by
  have hpos : 0 < P := Nat.pos_of_dvd_of_pos hP (by decide)
  have hval : ∀ i (hi : i < l.length) r, r < P →
      (l.getD i 0 + BitVec.ofNat 64 r).toNat = P*((l[i]).toNat/P) + r := by
    intro i hi r hr
    have hdvd := Nat.mul_div_cancel' (Nat.dvd_of_mod_eq_zero (halign _ (List.getElem_mem hi)))
    -- an aligned address leaves room for a page
    have hroom : (l[i]).toNat + P ≤ 2^64 := by
      obtain ⟨q, hq⟩ := hP
      have hlt : P*((l[i]).toNat/P) < P*q := by
        rw [hdvd, ← hq]
        exact (l[i]).isLt
      have := Nat.mul_le_mul_left P (Nat.lt_of_mul_lt_mul_left hlt)
      rw [Nat.mul_succ, hdvd, ← hq] at this
      exact this
    rw [List.getD_eq_getElem _ _ hi, BitVec.toNat_add, BitVec.toNat_ofNat, hdvd,
      Nat.mod_eq_of_lt (show r < 2^64 by omega), Nat.mod_eq_of_lt (by omega)]
  have hi := Nat.div_lt_of_lt_mul hx
  have hj := Nat.div_lt_of_lt_mul hy
  have heq := congrArg BitVec.toNat h
  rw [hval _ hi _ (Nat.mod_lt x hpos), hval _ hj _ (Nat.mod_lt y hpos)] at heq
  have hmod : x%P = y%P := by
    have := congrArg (· % P) heq
    simpa [Nat.mul_add_mod] using this
  have hpage : l[x/P] = l[y/P] := by
    have ha := Nat.mul_div_cancel' (Nat.dvd_of_mod_eq_zero (halign _ (List.getElem_mem hi)))
    have hb := Nat.mul_div_cancel' (Nat.dvd_of_mod_eq_zero (halign _ (List.getElem_mem hj)))
    exact BitVec.eq_of_toNat_eq (by omega)
  have hdiv := hnd.getElem_inj_iff.mp hpage
  rw [← Nat.div_add_mod x P, ← Nat.div_add_mod y P, hdiv, hmod]

theorem byteAddr_aligned {pages : List (BitVec 64)} (h : (pages.headD 0).toNat % 4096 = 0)
    (i : Nat) : byteAddr pages i = pages.getD (i/4096) 0 + BitVec.ofNat 64 (i%4096) := by
  simp only [byteAddr, h, Nat.zero_add]
  split
  · rename_i hi
    rw [Nat.div_eq_of_lt hi, Nat.mod_eq_of_lt hi]
    cases pages <;> rfl
  · rfl

/-- A command whose pointer names whole pages writes those pages. -/
theorem Command.write_eq {load : BitVec 64 → BitVec 64} {blkLog : Nat} {c : Command}
    {pages : List (BitVec 64)} (hpages : c.pages load blkLog = pages)
    (hbytes : c.bytes blkLog = 4096*pages.length) (halign : (pages.headD 0).toNat % 4096 = 0)
    (ram : BitVec 64 → β) (disk : Nat → β) :
    c.write load ram blkLog disk = writePages ram (c.firstByte blkLog) pages disk := by
  funext x
  simp only [write, writePages, hpages, hbytes, byteAddr_aligned halign]

theorem writePages_nil (ram : BitVec 64 → β) (off : Nat) (disk : Nat → β) :
    writePages ram off [] disk = disk := by
  funext x
  rw [writePages, if_neg]
  simp only [List.length_nil]
  omega

theorem writePages_append (ram : BitVec 64 → β) (off : Nat) (p q : List (BitVec 64))
    (disk : Nat → β) : writePages ram off (p ++ q) disk =
      writePages ram (off + 4096*p.length) q (writePages ram off p disk) := by
  funext x
  simp only [writePages, List.length_append]
  by_cases hlow : x < off + 4096*p.length
  · have hhigh : ¬ (off + 4096*p.length ≤ x ∧ x < off + 4096*p.length + 4096*q.length) := by omega
    rw [if_neg hhigh]
    by_cases hoff : off ≤ x
    · have hdiv : (x-off)/4096 < p.length := by omega
      rw [if_pos (by omega), if_pos ⟨hoff, hlow⟩, List.getD_append _ _ _ _ hdiv]
    · rw [if_neg (by omega), if_neg (by omega)]
  · by_cases hhigh : x < off + 4096*p.length + 4096*q.length
    · have hdiv : (x-off)/4096 = (x-(off+4096*p.length))/4096 + p.length := by omega
      have hmod : (x-off)%4096 = (x-(off+4096*p.length))%4096 := by omega
      rw [if_pos (by omega), if_pos (by omega), List.getD_append_right _ _ _ _ (by omega), hmod,
        hdiv, Nat.add_sub_cancel]
    · rw [if_neg (by omega), if_neg (by omega), if_neg (by omega)]

theorem writePages_other {ram : BitVec 64 → β} {off : Nat} {pages : List (BitVec 64)} {x : Nat}
    (h : x < off ∨ off + 4096*pages.length ≤ x) (disk : Nat → β) :
    writePages ram off pages disk x = disk x := by
  rw [writePages, if_neg (by omega)]

theorem writePages_at {ram : BitVec 64 → β} {off : Nat} {pages : List (BitVec 64)} {x : Nat}
    (h : off ≤ x ∧ x < off + 4096*pages.length) (disk disk' : Nat → β) :
    writePages ram off pages disk x = writePages ram off pages disk' x := by
  rw [writePages, writePages, if_pos h, if_pos h]

end Shaper.Nvme
