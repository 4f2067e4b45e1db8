import Shaper.Nvme
import Shaper.Request

/-! The data pointers of merged writes: a group of requests on consecutive storage
becomes one command, with its pages in PRP1, PRP2 and a list page of the pool. -/
namespace Shaper.PrpBuild
open Nvme Request Function

/-- What the merge reads of `page_cache_d_t` and of its victim buffer. A page has one to
512 controller pages, and the tables hold addresses of such pages, at most 16 TB of them. -/
structure PageCache where
  pagesPerEntry : Nat
  pageIoaddrs : Nat → BitVec 64
  victimIoaddrs : Nat → BitVec 64
  prps : Bool
  prp2 : Nat → BitVec 64
  nPages : Nat
  nVictims : Nat
  ppe_pos : 0 < pagesPerEntry
  ppe_le : pagesPerEntry ≤ 512
  pages_le : nPages * pagesPerEntry ≤ 2^32
  victims_le : nVictims * pagesPerEntry ≤ 2^32
  page_aligned : ∀ i, (pageIoaddrs i).toNat % 4096 = 0
  victim_aligned : ∀ i, (victimIoaddrs i).toNat % 4096 = 0

def PageCache.pageSize (pc : PageCache) : Nat := 4096 * pc.pagesPerEntry

def VictimPcEntryBit : BitVec 64 := 1#64 <<< 63
def VictimPcEntryMask : BitVec 64 := ~~~VictimPcEntryBit

def PageCache.pageSubpage (pc : PageCache) (pe : BitVec 64) (j : Nat) : BitVec 64 :=
  pc.pageIoaddrs (pe * BitVec.ofNat 64 pc.pagesPerEntry + BitVec.ofNat 64 j).toNat

def PageCache.victimSubpage (pc : PageCache) (pe : BitVec 64) (j : Nat) : BitVec 64 :=
  let v := (pe &&& VictimPcEntryMask).setWidth 32
  pc.victimIoaddrs (v * BitVec.ofNat 32 pc.pagesPerEntry + BitVec.ofNat 32 j).toNat

def PageCache.subpage (pc : PageCache) (pe : BitVec 64) (j : Nat) : BitVec 64 :=
  if pe &&& VictimPcEntryBit ≠ 0#64 then pc.victimSubpage pe j else pc.pageSubpage pe j

theorem PageCache.pageSubpage_aligned (pc : PageCache) (pe : BitVec 64) (j : Nat) :
    (pc.pageSubpage pe j).toNat % 4096 = 0 := pc.page_aligned _

theorem PageCache.subpage_aligned (pc : PageCache) (pe : BitVec 64) (j : Nat) :
    (pc.subpage pe j).toNat % 4096 = 0 := by
  rw [subpage]
  split
  · exact pc.victim_aligned _
  · exact pc.page_aligned _

inductive Entry where
  | page (i : Nat)
  | victim (v : Nat)
deriving DecidableEq

def entryOf (pe : BitVec 64) : Entry := if pe.toNat < 2^63 then .page pe.toNat
    else .victim (pe.toNat - 2^63)

def PageCache.Has (pc : PageCache) : Entry → Prop
  | .page i => i < pc.nPages
  | .victim v => v < pc.nVictims

def PageCache.address (pc : PageCache) : Entry → Nat → BitVec 64
  | .page i, j => pc.pageIoaddrs (i * pc.pagesPerEntry + j)
  | .victim v, j => pc.victimIoaddrs (v * pc.pagesPerEntry + j)

theorem tagged_iff (pe : BitVec 64) : pe &&& VictimPcEntryBit ≠ 0#64 ↔ ¬ pe.toNat < 2^63 := by
  have hbit : VictimPcEntryBit = BitVec.twoPow 64 63 := by decide
  have hmsb : pe.getLsbD 63 = decide (2^63 ≤ pe.toNat) := BitVec.msb_eq_decide pe
  rw [hbit, BitVec.and_twoPow, hmsb, Nat.not_lt]
  by_cases h : 2^63 ≤ pe.toNat
  · simp only [h, decide_true, if_true, iff_true]
    decide
  · simp only [h, decide_false, Bool.false_eq_true, if_false, not_true, ne_eq]

theorem toNat_and_mask {pe : BitVec 64} (h : ¬ pe.toNat < 2^63) :
    (pe &&& VictimPcEntryMask).toNat = pe.toNat - 2^63 := by
  have hmask : VictimPcEntryMask.toNat = 2^63 - 1 := by decide
  have := pe.isLt
  rw [BitVec.toNat_and, hmask, Nat.and_two_pow_sub_one_eq_mod]
  omega

theorem row_lt {i rows n j M : Nat} (hi : i < rows) (hj : j < n) (hM : rows * n ≤ M) :
    i * n + j < M := by
  have := Nat.mul_le_mul_right n hi
  rw [Nat.succ_mul] at this
  omega

theorem PageCache.pageSubpage_eq (pc : PageCache) {pe : BitVec 64} {j : Nat}
    (hpe : pe.toNat < pc.nPages)
    (hj : j < pc.pagesPerEntry) : pc.pageSubpage pe j = pc.address (.page pe.toNat) j := by
  have hlt := row_lt hpe hj pc.pages_le
  have hppe := pc.ppe_le
  rw [pageSubpage, address, BitVec.toNat_add, BitVec.toNat_mul, BitVec.toNat_ofNat,
    BitVec.toNat_ofNat, Nat.mod_eq_of_lt (show pc.pagesPerEntry < 2^64 by omega),
    Nat.mod_eq_of_lt (show j < 2^64 by omega),
    Nat.mod_eq_of_lt (show pe.toNat * pc.pagesPerEntry < 2^64 by omega),
    Nat.mod_eq_of_lt (show pe.toNat * pc.pagesPerEntry + j < 2^64 by omega)]

theorem PageCache.index32 (pc : PageCache) {x : BitVec 32} {rows j : Nat} (hx : x.toNat < rows)
    (hj : j < pc.pagesPerEntry) (hrows : rows * pc.pagesPerEntry ≤ 2^32) :
    (x * BitVec.ofNat 32 pc.pagesPerEntry + BitVec.ofNat 32 j).toNat =
    x.toNat * pc.pagesPerEntry + j := by
  have hlt := row_lt hx hj hrows
  have hppe := pc.ppe_le
  rw [BitVec.toNat_add, BitVec.toNat_mul, BitVec.toNat_ofNat, BitVec.toNat_ofNat,
    Nat.mod_eq_of_lt (show pc.pagesPerEntry < 2^32 by omega),
    Nat.mod_eq_of_lt (show j < 2^32 by omega),
    Nat.mod_eq_of_lt (show x.toNat * pc.pagesPerEntry < 2^32 by omega), Nat.mod_eq_of_lt hlt]

theorem PageCache.le_two_pow {pc : PageCache} {rows i : Nat} (hi : i < rows)
    (hrows : rows * pc.pagesPerEntry ≤ 2^32) : i < 2^32 :=
  hi.trans_le ((Nat.le_mul_of_pos_right _ pc.ppe_pos).trans hrows)

theorem PageCache.victimSubpage_eq (pc : PageCache) {pe : BitVec 64} {j : Nat}
    (htag : ¬ pe.toNat < 2^63) (hpe : pe.toNat - 2^63 < pc.nVictims) (hj : j < pc.pagesPerEntry) :
    pc.victimSubpage pe j = pc.address (.victim (pe.toNat - 2^63)) j := by
  have hv : ((pe &&& VictimPcEntryMask).setWidth 32 : BitVec 32).toNat = pe.toNat - 2^63 := by
    rw [BitVec.toNat_setWidth, toNat_and_mask htag, Nat.mod_eq_of_lt (le_two_pow hpe pc.victims_le)]
  simp only [victimSubpage, address]
  rw [pc.index32 (hv.trans_lt hpe) hj pc.victims_le, hv]

theorem PageCache.pageSubpage_entry (pc : PageCache) {pe : BitVec 64} {j : Nat}
    (htag : pe.toNat < 2^63) (hpe : pc.Has (entryOf pe)) (hj : j < pc.pagesPerEntry) :
    pc.pageSubpage pe j = pc.address (entryOf pe) j := by
  rw [entryOf, if_pos htag] at hpe ⊢
  exact pc.pageSubpage_eq hpe hj

/-- For entries of the tables the index arithmetic does not wrap. -/
theorem PageCache.subpage_eq (pc : PageCache) {pe : BitVec 64} {j : Nat} (hpe : pc.Has (entryOf pe))
    (hj : j < pc.pagesPerEntry) : pc.subpage pe j = pc.address (entryOf pe) j := by
  rw [subpage]
  by_cases htag : pe.toNat < 2^63
  · rw [if_neg fun h => (tagged_iff pe).mp h htag]
    exact pc.pageSubpage_entry htag hpe hj
  · rw [entryOf, if_neg htag] at hpe ⊢
    rw [if_pos ((tagged_iff pe).mpr htag)]
    exact pc.victimSubpage_eq htag hpe hj

/-- The pool that `io_sched_create` maps: `kSchedMaxBatch` list pages, consecutive in
device memory (512 words each), at their own addresses on the bus. -/
structure PrpPool where
  ioaddr : Nat → BitVec 64
  aligned : ∀ slot < kSchedMaxBatch, (ioaddr slot).toNat % 4096 = 0
  inj : ∀ slot < kSchedMaxBatch, ∀ slot' < kSchedMaxBatch, ioaddr slot = ioaddr slot' → slot = slot'

def PageCache.inOrder (j : Nat) (hj : j ≤ 9) : PageCache where
  pagesPerEntry := 2^j
  pageIoaddrs i := BitVec.ofNat 64 (4096*i)
  victimIoaddrs i := BitVec.ofNat 64 (4096*(2^20+i))
  prps := false
  prp2 _ := 0
  nPages := 2^20
  nVictims := 2^20
  ppe_pos := Nat.two_pow_pos j
  ppe_le := Nat.pow_le_pow_right (by decide) hj
  pages_le := Nat.mul_le_mul_left (2^20) (Nat.pow_le_pow_right (by decide) (by omega : j ≤ 12))
  victims_le := Nat.mul_le_mul_left (2^20) (Nat.pow_le_pow_right (by decide) (by omega : j ≤ 12))
  page_aligned i := by rw [BitVec.toNat_ofNat]; omega
  victim_aligned i := by rw [BitVec.toNat_ofNat]; omega

def PageCache.fourK : PageCache := .inOrder 0 (by decide)

def PrpPool.inOrder : PrpPool where
  ioaddr slot := BitVec.ofNat 64 (4096*(2^30+slot))
  aligned slot hs := by
    rw [BitVec.toNat_ofNat]
    omega
  inj slot hs slot' hs' h := by
    have := congrArg BitVec.toNat h
    simp only [BitVec.toNat_ofNat, kSchedMaxBatch] at this hs hs'
    omega

def PrpPool.slotAt (pool : PrpPool) (page : Nat) : Option Nat :=
  (List.range kSchedMaxBatch).find? fun slot => (pool.ioaddr slot).toNat == page

def PrpPool.load (pool : PrpPool) (mem rest : Nat → BitVec 64) (a : BitVec 64) : BitVec 64 :=
  match pool.slotAt (a.toNat/4096*4096) with
  | some slot => mem (512*slot + a.toNat%4096/8)
  | none => rest a.toNat

structure Group where
  offset : BitVec 64
  bytes : BitVec 64
  entries : List (BitVec 64)
deriving DecidableEq

def store (mem : Nat → BitVec 64) (at_ : Nat) : List (BitVec 64) → Nat → BitVec 64
  | [] => mem
  | v :: vs => store (update mem at_ v) (at_+1) vs

section
variable (resolve : BitVec 64 → Nat → BitVec 64) (ppe : Nat)

def entryPages (entries : List (BitVec 64)) : List (BitVec 64) :=
  entries.flatMap fun pe => (List.range ppe).map (resolve pe)

def listEntries (entries : List (BitVec 64)) : List (BitVec 64) :=
  (List.range' 1 (ppe-1)).map (resolve (entries.headD 0)) ++ entryPages resolve ppe entries.tail

end

def buildPrp (pc : PageCache) (resolve : BitVec 64 → Nat → BitVec 64) (pool : Option PrpPool)
    (slot : Nat) (entries : List (BitVec 64)) (mem : Nat → BitVec 64) :
    (Nat → BitVec 64) × BitVec 64 × BitVec 64 :=
  let ppe := pc.pagesPerEntry
  let first := entries.headD 0
  let prp1 := resolve first 0
  let totalSubpages := entries.length * ppe % 2^32
  if totalSubpages ≤ 1 then (mem, prp1, 0)
  else if totalSubpages = 2 then
    (mem, prp1, if 2 ≤ ppe then resolve first 1 else resolve (entries.tail.headD 0) 0)
  else match pool with
    | some p => (store mem (512*slot) (listEntries resolve ppe entries), prp1, p.ioaddr slot)
    | none => (mem, prp1, if pc.prps then pc.prp2 first.toNat else 0)

def poolSlots : Option PrpPool → Nat
  | some _ => kSchedMaxBatch
  | none => 0

def Group.command (blkLog : Nat) (g : Group) (prp1 prp2 : BitVec 64) : Command :=
  let nblks : BitVec 32 := (g.bytes >>> blkLog).setWidth 32
  rwCommand (g.offset >>> blkLog) (nblks.setWidth 16) prp1 prp2

def buildGroups (pc : PageCache) (resolve : BitVec 64 → Nat → BitVec 64) (pool : Option PrpPool)
    (blkLog : Nat) : Nat → List Group → (Nat → BitVec 64) → (Nat → BitVec 64) × List Command
  | _, [], mem => (mem, [])
  | slot, g :: gs, mem =>
    let (mem, prp1, prp2) := buildPrp pc resolve pool slot g.entries mem
    let (mem, cmds) := buildGroups pc resolve pool blkLog (slot+1) gs mem
    (mem, g.command blkLog prp1 prp2 :: cmds)

theorem PrpPool.slotAt_ioaddr (pool : PrpPool) {slot : Nat} (hs : slot < kSchedMaxBatch) :
    pool.slotAt (pool.ioaddr slot).toNat = some slot := by
  rw [slotAt, List.find?_range_eq_some]
  refine ⟨beq_self_eq_true _, List.mem_range.mpr hs, fun j hj => ?_⟩
  have hne : (pool.ioaddr j).toNat ≠ (pool.ioaddr slot).toNat := fun h =>
    Nat.ne_of_lt hj (pool.inj j (hj.trans hs) slot hs (BitVec.eq_of_toNat_eq h))
  simp [hne]

theorem PrpPool.load_slot (pool : PrpPool) {slot i : Nat} (hs : slot < kSchedMaxBatch)
    (hi : i < 512) (mem rest : Nat → BitVec 64) :
    pool.load mem rest (pool.ioaddr slot + BitVec.ofNat 64 (8*i)) = mem (512*slot+i) := by
  have halign := pool.aligned slot hs
  have hlt := (pool.ioaddr slot).isLt
  have haddr :
    (pool.ioaddr slot + BitVec.ofNat 64 (8*i)).toNat = (pool.ioaddr slot).toNat + 8*i := by
    rw [BitVec.toNat_add, BitVec.toNat_ofNat]
    omega
  have hpage : ((pool.ioaddr slot).toNat + 8*i)/4096*4096 = (pool.ioaddr slot).toNat := by omega
  have hword : ((pool.ioaddr slot).toNat + 8*i)%4096/8 = i := by omega
  unfold load
  rw [haddr, hpage, pool.slotAt_ioaddr hs]
  exact congrArg mem (by rw [hword])

theorem store_other (vs : List (BitVec 64)) (mem : Nat → BitVec 64) (at_ : Nat) {a : Nat}
    (ha : a < at_ ∨ at_ + vs.length ≤ a) : store mem at_ vs a = mem a := by
  induction vs generalizing mem at_ with
  | nil => rfl
  | cons v vs ih =>
    rw [List.length_cons] at ha
    rw [store, ih _ _ (by omega), update_of_ne (by omega)]

theorem store_at (vs : List (BitVec 64)) (mem : Nat → BitVec 64) (at_ : Nat) :
    (List.range vs.length).map (fun i => store mem at_ vs (at_+i)) = vs := by
  induction vs generalizing mem at_ with
  | nil => rfl
  | cons v vs ih =>
    rw [List.length_cons, List.range_succ_eq_map, List.map_cons, List.map_map]
    refine congrArg₂ List.cons ?_ ?_
    · rw [Nat.add_zero, store, store_other _ _ _ (by omega), update_self]
    · refine Eq.trans (List.map_congr_left fun i _ => ?_) (ih (update mem at_ v) (at_+1))
      rw [comp_apply, store, Nat.add_right_comm, Nat.add_assoc]

section
variable {resolve : BitVec 64 → Nat → BitVec 64} {ppe : Nat}

theorem length_entryPages (resolve : BitVec 64 → Nat → BitVec 64) (ppe : Nat)
    (entries : List (BitVec 64)) :
    (entryPages resolve ppe entries).length = entries.length * ppe := by
  rw [entryPages, List.length_flatMap]
  simp

theorem entryPages_eq {entries : List (BitVec 64)} (hne : entries ≠ []) (hppe : 0 < ppe) :
    entryPages resolve ppe entries =
      resolve (entries.headD 0) 0 :: listEntries resolve ppe entries := by
  obtain ⟨first, rest, rfl⟩ := List.exists_cons_of_ne_nil hne
  obtain ⟨n, rfl⟩ := Nat.exists_eq_succ_of_ne_zero (Nat.ne_of_gt hppe)
  rw [entryPages, List.flatMap_cons, List.range_eq_range', Nat.succ_eq_add_one, List.range'_succ]
  simp only [listEntries, entryPages, List.range_eq_range', List.headD_cons, List.tail_cons,
    List.map_cons, List.cons_append, Nat.add_sub_cancel, Nat.zero_add, List.range'_succ]

theorem length_listEntries (resolve : BitVec 64 → Nat → BitVec 64) {entries : List (BitVec 64)}
    (hne : entries ≠ []) (hppe : 0 < ppe) :
    (listEntries resolve ppe entries).length = entries.length * ppe - 1 := by
  rw [← length_entryPages resolve, entryPages_eq hne hppe, List.length_cons,
    Nat.add_sub_cancel]

def Listed (mem : Nat → BitVec 64) (slot : Nat) (vs : List (BitVec 64)) : Prop :=
  (List.range vs.length).map (fun i => mem (512*slot+i)) = vs

theorem prpPages_slot {pool : PrpPool} {slot : Nat} {vs : List (BitVec 64)} {mem : Nat → BitVec 64}
    (hs : slot < kSchedMaxBatch) (hl : vs.length ≤ 512) (h2 : 2 ≤ vs.length)
    (hmem : Listed mem slot vs) (rest : Nat → BitVec 64) (prp1 : BitVec 64) :
    prpPages (pool.load mem rest) prp1 (pool.ioaddr slot) (vs.length+1) = prp1 :: vs := by
  rw [prpPages_list (pool.aligned slot hs) h2 hl]
  refine congrArg (List.cons prp1) (Eq.trans ?_ hmem)
  refine List.map_congr_left fun i hi => ?_
  have := List.mem_range.mp hi
  exact pool.load_slot hs (by omega) mem rest

end

theorem listEntries_two {entries : List (BitVec 64)} (h : entries.length * ppe = 2) :
    listEntries resolve ppe entries =
      [if 2 ≤ ppe then resolve (entries.headD 0) 1 else resolve (entries.tail.headD 0) 0] := by
  match entries, ppe, h with
  | [], ppe, h => simp at h
  | [pe], ppe, h =>
    obtain rfl : ppe = 2 := by simpa using h
    rfl
  | [pe, pe'], ppe, h =>
    obtain rfl : ppe = 1 := by simp at h; omega
    rfl
  | _ :: _ :: _ :: _, 0, h => omega
  | pe :: pe' :: pe'' :: rest, ppe+1, h =>
    simp only [List.length_cons, Nat.mul_succ] at h
    omega

section Build
variable {pc : PageCache} {resolve : BitVec 64 → Nat → BitVec 64} {pool : PrpPool} {slot : Nat}
  {entries : List (BitVec 64)}

structure Fits (pc : PageCache) (entries : List (BitVec 64)) : Prop where
  nonempty : entries ≠ []
  total : entries.length * pc.pagesPerEntry ≤ 512

theorem Fits.pos (h : Fits pc entries) : 0 < entries.length * pc.pagesPerEntry :=
  Nat.mul_pos (List.length_pos_iff.mpr h.nonempty) pc.ppe_pos

/-- The pointer that `buildPrp` makes leads to the pages of the group, as long as its slot
keeps the list. -/
theorem pages_buildPrp (h : Fits pc entries) (hs : slot < kSchedMaxBatch)
    (mem mem' rest : Nat → BitVec 64)
    (hkeep : ∀ a, 512*slot ≤ a → a < 512*slot+512 →
      mem' a = (buildPrp pc resolve (some pool) slot entries mem).1 a) :
    let prp := (buildPrp pc resolve (some pool) slot entries mem).2
    prpPages (pool.load mem' rest) prp.1 prp.2 (entries.length * pc.pagesPerEntry) =
      entryPages resolve pc.pagesPerEntry entries := by
  have hpos := h.pos
  have htotal := h.total
  have hmod : entries.length * pc.pagesPerEntry % 2^32 = entries.length * pc.pagesPerEntry :=
    Nat.mod_eq_of_lt (by omega)
  have hlen := length_listEntries resolve h.nonempty pc.ppe_pos
  rw [entryPages_eq h.nonempty pc.ppe_pos]
  simp only [buildPrp, hmod] at hkeep ⊢
  by_cases h1 : entries.length * pc.pagesPerEntry ≤ 1
  · have hnil : listEntries resolve pc.pagesPerEntry entries = [] :=
      List.length_eq_zero_iff.mp (by omega)
    simp only [if_pos h1, hnil, prpPages]
  · by_cases h2 : entries.length * pc.pagesPerEntry = 2
    · simp only [h2, prpPages, listEntries_two h2]
      rfl
    · simp only [if_neg h1, if_neg h2] at hkeep ⊢
      have hn : entries.length * pc.pagesPerEntry =
          (listEntries resolve pc.pagesPerEntry entries).length + 1 := by omega
      rw [hn]
      refine prpPages_slot hs (by omega) (by omega) ?_ rest _
      refine Eq.trans (List.map_congr_left fun i hi => ?_) (store_at _ mem (512*slot))
      have := List.mem_range.mp hi
      exact hkeep _ (by omega) (by omega)

theorem buildPrp_other (h : Fits pc entries) (mem : Nat → BitVec 64) {a : Nat}
    (ha : a < 512*slot ∨ 512*slot+512 ≤ a) :
    (buildPrp pc resolve (some pool) slot entries mem).1 a = mem a := by
  have hlen := length_listEntries resolve h.nonempty pc.ppe_pos
  have htotal := h.total
  simp only [buildPrp]
  split
  · rfl
  · split
    · rfl
    · exact store_other _ _ _ (by omega)

theorem prp1_buildPrp (mem : Nat → BitVec 64) :
    (buildPrp pc resolve (some pool) slot entries mem).2.1 = resolve (entries.headD 0) 0 := by
  simp only [buildPrp]
  split
  · rfl
  · split <;> rfl

end Build

section Groups
variable {pc : PageCache} {resolve : BitVec 64 → Nat → BitVec 64} {pool : PrpPool} {blkLog : Nat}

structure Group.Ok (pc : PageCache) (resolve : BitVec 64 → Nat → BitVec 64) (blkLog : Nat)
    (g : Group) : Prop where
  fits : Fits pc g.entries
  bytes_eq : g.bytes.toNat = g.entries.length * pc.pageSize
  block_le : 9 ≤ blkLog
  block_dvd : 2^blkLog ∣ pc.pageSize
  page_aligned : (resolve (g.entries.headD 0) 0).toNat % 4096 = 0

structure Carries (pc : PageCache) (resolve : BitVec 64 → Nat → BitVec 64) (blkLog : Nat)
    (load : BitVec 64 → BitVec 64) (g : Group) (c : Command) : Prop where
  slba_eq : c.slba = g.offset >>> blkLog
  bytes_eq : c.bytes blkLog = g.entries.length * pc.pageSize
  pages_eq : c.pages load blkLog = entryPages resolve pc.pagesPerEntry g.entries

/-- Whole blocks, at most 2 MB of them, go into the block count. -/
theorem Group.bytes_command {g : Group} {n : Nat} (hbytes : g.bytes.toNat = n) (hpos : 0 < n)
    (hle : n ≤ kSchedMergeTarget) (h9 : 9 ≤ blkLog) (hdvd : 2^blkLog ∣ n) (prp1 prp2 : BitVec 64) :
    (g.command blkLog prp1 prp2).bytes blkLog = n := by
  obtain ⟨q, rfl⟩ := hdvd
  have hblk : 2^9 ≤ 2^blkLog := Nat.pow_le_pow_right (by decide) h9
  have hqpos : 0 < q := Nat.pos_of_mul_pos_left hpos
  have hqle : q ≤ 4096 := by
    have : 2^9 * q ≤ 2^blkLog * q := Nat.mul_le_mul_right q hblk
    simp only [kSchedMergeTarget] at hle
    omega
  have hnblks : (((g.bytes >>> blkLog).setWidth 32).setWidth 16 : BitVec 16).toNat = q := by
    rw [BitVec.toNat_setWidth, BitVec.toNat_setWidth, BitVec.toNat_ushiftRight,
      Nat.shiftRight_eq_div_pow, hbytes, Nat.mul_div_cancel_left _ (Nat.two_pow_pos blkLog)]
    omega
  have hnlb :
    ((((g.bytes >>> blkLog).setWidth 32).setWidth 16 : BitVec 16) - 1#16).toNat = q - 1 := by
    rw [BitVec.toNat_sub_of_le, hnblks]
    · rfl
    · rw [BitVec.le_def, hnblks]
      exact hqpos
  simp only [Group.command, rwCommand, Command.bytes, hnlb]
  rw [Nat.sub_add_cancel hqpos, Nat.mul_comm]

theorem Group.Ok.bytes_command {g : Group} (h : g.Ok pc resolve blkLog) (prp1 prp2 : BitVec 64) :
    (g.command blkLog prp1 prp2).bytes blkLog = g.entries.length * pc.pageSize := by
  have hpos := h.fits.pos
  have htotal := h.fits.total
  have hsize : g.entries.length * pc.pageSize = 4096 * (g.entries.length * pc.pagesPerEntry) :=
    Nat.mul_left_comm _ _ _
  refine Group.bytes_command h.bytes_eq (by omega) ?_ h.block_le
    (Dvd.dvd.mul_left h.block_dvd _) _ _
  rw [hsize, show kSchedMergeTarget = 4096 * 512 from rfl]
  exact Nat.mul_le_mul_left _ htotal

/-- A command built for the group moves its pages, as long as the slot keeps the list. -/
theorem Group.Ok.carries {g : Group} (h : g.Ok pc resolve blkLog) {slot : Nat}
    (hs : slot < kSchedMaxBatch) (mem mem' rest : Nat → BitVec 64)
    (hkeep : ∀ a, 512*slot ≤ a → a < 512*slot+512 →
      mem' a = (buildPrp pc resolve (some pool) slot g.entries mem).1 a) :
    let prp := (buildPrp pc resolve (some pool) slot g.entries mem).2
    Carries pc resolve blkLog (pool.load mem' rest) g (g.command blkLog prp.1 prp.2) := by
  refine ⟨rfl, h.bytes_command _ _, ?_⟩
  have hn :
    (0 + g.entries.length * pc.pageSize + 4095) / 4096 = g.entries.length * pc.pagesPerEntry := by
    rw [PageCache.pageSize, Nat.mul_left_comm]
    omega
  have halign : (buildPrp pc resolve (some pool) slot g.entries mem).2.1.toNat % 4096 = 0 := by
    rw [prp1_buildPrp, h.page_aligned]
  rw [Command.pages, h.bytes_command]
  simp only [Group.command, rwCommand]
  rw [halign, hn]
  exact pages_buildPrp h.fits hs mem mem' rest hkeep

/-- One command for each group, with the first page of the group in PRP1. -/
theorem buildGroups_commands (gs : List Group) (slot : Nat) (mem : Nat → BitVec 64) :
    List.Forall₂ (fun g c => ∃ prp2, c = g.command blkLog (resolve (g.entries.headD 0) 0) prp2) gs
      (buildGroups pc resolve (some pool) blkLog slot gs mem).2 := by
  induction gs generalizing slot mem with
  | nil => exact .nil
  | cons g gs ih =>
    simp only [buildGroups, prp1_buildPrp]
    exact .cons ⟨_, rfl⟩ (ih _ _)

theorem buildGroups_other {gs : List Group} (hg : ∀ g ∈ gs, g.Ok pc resolve blkLog) (slot : Nat)
    (mem : Nat → BitVec 64) {a : Nat} (ha : a < 512*slot) :
    (buildGroups pc resolve (some pool) blkLog slot gs mem).1 a = mem a := by
  induction gs generalizing slot mem with
  | nil => rfl
  | cons g gs ih =>
    simp only [buildGroups]
    rw [ih (fun g' hg' => hg g' (List.mem_cons_of_mem _ hg')) _ _ (by omega),
      buildPrp_other (hg g List.mem_cons_self).fits _ (.inl ha)]

/-- After a chunk is built, every command of it moves its group. -/
theorem buildGroups_carries (pool : PrpPool) {gs : List Group}
    (hg : ∀ g ∈ gs, g.Ok pc resolve blkLog) (slot : Nat)
    (hs : slot + gs.length ≤ kSchedMaxBatch) (mem rest : Nat → BitVec 64) :
    let built := buildGroups pc resolve (some pool) blkLog slot gs mem
    List.Forall₂ (Carries pc resolve blkLog (pool.load built.1 rest)) gs built.2 := by
  induction gs generalizing slot mem with
  | nil => exact .nil
  | cons g gs ih =>
    rw [List.length_cons] at hs
    have hgs : ∀ g' ∈ gs, g'.Ok pc resolve blkLog :=
      fun g' hg' => hg g' (List.mem_cons_of_mem _ hg')
    refine .cons ((hg g List.mem_cons_self).carries (by omega) mem _ rest fun a _ ha => ?_)
      (ih hgs (slot+1) (by omega) _)
    exact buildGroups_other hgs _ _ (by omega)

end Groups

section Writes
variable {pc : PageCache} {pool : PrpPool} {slot : Nat} {entries : List (BitVec 64)}

theorem exists_store (h : Fits pc entries) (pool : PrpPool) (slot : Nat)
    (resolve : BitVec 64 → Nat → BitVec 64) (mem : Nat → BitVec 64) :
    ∃ vs : List (BitVec 64), vs.length ≤ entries.length * pc.pagesPerEntry - 1 ∧
      (buildPrp pc resolve (some pool) slot entries mem).1 = store mem (512*slot) vs := by
  simp only [buildPrp]
  split
  · exact ⟨[], Nat.zero_le _, rfl⟩
  · split
    · exact ⟨[], Nat.zero_le _, rfl⟩
    · exact ⟨_, Nat.le_of_eq (length_listEntries resolve h.nonempty pc.ppe_pos), rfl⟩

theorem entryPages_address (hhas : ∀ pe ∈ entries, pc.Has (entryOf pe)) :
    entryPages pc.subpage pc.pagesPerEntry entries =
      entries.flatMap fun pe => (List.range pc.pagesPerEntry).map (pc.address (entryOf pe)) := by
  rw [entryPages]
  apply List.flatMap_congr
  intro pe hpe
  apply List.map_congr_left
  intro j hj
  exact pc.subpage_eq (hhas pe hpe) (List.mem_range.mp hj)

end Writes

/-- The pointer of a merged group leads to the pages of its requests in order, whatever other
groups put into other slots, and its list stays inside the slot. -/
theorem merged_group_pointer (pc : PageCache) (pool : PrpPool) (slot : Nat)
    (hslot : slot < kSchedMaxBatch)
    (entries : List (BitVec 64)) (hne : entries ≠ [])
    (htotal : entries.length * pc.pagesPerEntry ≤ 512)
    (hhas : ∀ pe ∈ entries, pc.Has (entryOf pe)) (mem mem' rest : Nat → BitVec 64)
    (hkeep : ∀ a, 512*slot ≤ a → a < 512*slot+512 →
      mem' a = (buildPrp pc pc.subpage (some pool) slot entries mem).1 a) :
    let built := buildPrp pc pc.subpage (some pool) slot entries mem
    prpPages (pool.load mem' rest) built.2.1 built.2.2 (entries.length * pc.pagesPerEntry) =
        entries.flatMap (fun pe => (List.range pc.pagesPerEntry).map (pc.address (entryOf pe))) ∧
      ∃ vs : List (BitVec 64), vs.length ≤ entries.length * pc.pagesPerEntry - 1 ∧ vs.length ≤ 512 ∧
        built.1 = store mem (512*slot) vs := by
  have hfits : Fits pc entries := ⟨hne, htotal⟩
  obtain ⟨vs, hlen, hstore⟩ := exists_store hfits pool slot pc.subpage mem
  refine ⟨?_, vs, hlen, by omega, hstore⟩
  rw [← entryPages_address hhas]
  exact pages_buildPrp hfits hslot mem mem' rest hkeep

/-- A page of the cache and an entry of the victim buffer, of two controller pages each. -/
theorem page_and_victim_pointer :
    let pc := PageCache.inOrder 1 (by decide)
    let built := buildPrp pc pc.subpage (some .inOrder) 3 [5#64, VictimPcEntryBit ||| 7#64] fun _ =>
      0
    prpPages (PrpPool.inOrder.load built.1 fun _ => 0) built.2.1 built.2.2 4 =
      [pc.address (.page 5) 0, pc.address (.page 5) 1, pc.address (.victim 7) 0,
        pc.address (.victim 7) 1] := by
  have hpage : entryOf 5#64 = .page 5 := by decide
  have hvictim : entryOf (VictimPcEntryBit ||| 7#64) = .victim 7 := by decide
  have hhas : ∀ pe ∈ [5#64, VictimPcEntryBit ||| 7#64],
    (PageCache.inOrder 1 (by decide)).Has (entryOf pe) := by
    simp [hpage, hvictim, PageCache.Has, PageCache.inOrder]
  have hpages := (merged_group_pointer (PageCache.inOrder 1 (by decide)) .inOrder 3 (by decide)
    [5#64, VictimPcEntryBit ||| 7#64] (by decide) (by decide) hhas (fun _ => 0) _
    (fun _ => 0) fun _ _ _ => rfl).1
  simp only [List.flatMap_cons, List.flatMap_nil, hpage, hvictim] at hpages
  exact hpages

end Shaper.PrpBuild
