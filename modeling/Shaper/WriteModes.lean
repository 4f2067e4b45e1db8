import Mathlib.Algebra.Order.BigOperators.Group.List
import Mathlib.Data.Nat.Factorization.Basic
import Shaper.KeySort
import Shaper.MergeSerial

/-! The other builds of the write kernel: one command per request without a sort, and
batch by batch in shared memory. Both resolve their pages in their own way. -/
namespace Shaper.WriteModes
open Lib.Segments Nvme PrpBuild Merge MergeEffect MergeSerial Request WriteScheduler KeySort

/-- `IO_SCHED_NOSORT` indexes the page table with a 32-bit product as well. -/
def noSortSubpage (pc : PageCache) (pe : BitVec 64) (j : Nat) : BitVec 64 :=
  if pe &&& VictimPcEntryBit ≠ 0#64 then pc.victimSubpage pe j
  else pc.pageIoaddrs (pe.setWidth 32 * BitVec.ofNat 32 pc.pagesPerEntry + BitVec.ofNat 32 j).toNat

def noSortCommand (pc : PageCache) (blkLog : Nat) (byteOff : BitVec 64) (nb : BitVec 8)
    (pe : BitVec 64) : Command :=
  rwCommand (byteOff >>> blkLog) ((ioSchedDecodeNbytes nb >>> blkLog).setWidth 16)
    (noSortSubpage pc pe 0)
    (if 1 < pc.pagesPerEntry then noSortSubpage pc pe 1 else 0)

def noSortBatch (pc : PageCache) (blkLog : Nat) (s : Scratch) (reqs : List IoRequest) : List Call :=
  let s := drain s reqs
  (List.range reqs.length).map fun i =>
    ⟨s.mem, [noSortCommand pc blkLog (s.buf.keys i) (s.nb i) (s.pc i)]⟩

def growShared (sh : Shared) (batch i : Nat) : Nat → BitVec 64 × Nat → BitVec 64 × Nat
  | 0, s => s
  | fuel+1, (runBytes, runCount) =>
    if i + runCount < batch ∧ runBytes < BitVec.ofNat 64 kSchedMergeTarget then
      let keyNext := sh.keys (i+runCount)
      if keyNext = keyMax then (runBytes, runCount)
      else if ioSchedKeyByteOffset keyNext ≠ ioSchedKeyByteOffset (sh.keys i) + runBytes then
        (runBytes, runCount)
      else
        let nextBytes := sh.batch.size (i+runCount)
        if BitVec.ofNat 64 kSchedMergeTarget < runBytes + nextBytes then (runBytes, runCount)
        else growShared sh batch i fuel (runBytes + nextBytes, runCount+1)
    else (runBytes, runCount)

def sharedGroups (sh : Shared) (batch : Nat) : Nat → Nat → List Group
  | 0, _ => []
  | fuel+1, i =>
    if i < batch ∧ sh.keys i ≠ keyMax then
      let run := growShared sh batch i batch (sh.batch.size i, 1)
      ⟨ioSchedKeyByteOffset (sh.keys i), run.1, (List.range run.2).map fun r =>
        sh.batch.entry (i+r)⟩ ::
        sharedGroups sh batch fuel (i + run.2)
    else []

/-- `IO_SCHED_GLOBAL_SORT=0`: every entry is looked up in the page table. -/
def sharedBatch (pc : PageCache) (pool : Option PrpPool) (blkLog : Nat) (reqs : List IoRequest)
    (mem : Nat → BitVec 64) : Call :=
  let sh := sortShared (loadShared .zero reqs)
  let (mem, cmds) := buildGroups pc pc.pageSubpage pool blkLog 0
    (sharedGroups sh reqs.length reqs.length 0) mem
  ⟨mem, cmds⟩

def Transfers (pc : PageCache) (pool : PrpPool) (rest : Nat → BitVec 64) (blkLog : Nat)
    (reqs : List IoRequest) (calls : List Call) : Prop :=
  (calls.flatMap (Call.pageWrites pool rest blkLog pc.pagesPerEntry)).Perm
    (reqs.map (requestPage pc))

variable {pc : PageCache} {pool : PrpPool} {rest : Nat → BitVec 64} {blkLog : Nat}
  {reqs : List IoRequest}

section Counting

def pageCount (moves : List (Nat × List (BitVec 64))) : Nat := (moves.map fun m => m.2.length).sum

theorem pageCount_flatMap {α : Type*} (f : α → List (Nat × List (BitVec 64))) (l : List α) :
    pageCount (l.flatMap f) = (l.map fun a => pageCount (f a)).sum := by
  induction l with
  | nil => rfl
  | cons a l ih =>
    rw [List.flatMap_cons, pageCount, List.map_append, List.sum_append, List.map_cons,
      List.sum_cons, ← ih]
    rfl

theorem pageCount_requests (pc : PageCache) (reqs : List IoRequest) :
    pageCount (reqs.map (requestPage pc)) = reqs.length * pc.pagesPerEntry := by
  simp [pageCount, requestPage, requestPages, Function.comp_def]

theorem pageCount_command (load : BitVec 64 → BitVec 64) (c : Command) :
    pageCount
    (Command.pageWrites load blkLog pc.pagesPerEntry c) = (c.pages load blkLog).length := by
  have hflat := congrArg List.length (flatten_chunks pc.ppe_pos (c.pages load blkLog))
  rw [List.length_flatten] at hflat
  rw [← hflat, pageCount, Command.pageWrites]
  refine congrArg List.sum (List.ext_getElem (by simp) fun i _ _ => ?_)
  simp only [List.getElem_map, List.getElem_mapIdx]

theorem length_listPages_le (load : BitVec 64 → BitVec 64) (fuel : Nat) (ptr : BitVec 64)
    (n : Nat) : (listPages load fuel ptr n).length ≤ n := by
  induction fuel generalizing ptr n with
  | zero => exact Nat.zero_le _
  | succ fuel ih =>
    simp only [listPages]
    split
    · simp
    · have := ih (load (ptr + BitVec.ofNat 64 (8 * ((4096 - ptr.toNat % 4096) / 8 - 1))))
        (n - ((4096 - ptr.toNat % 4096) / 8 - 1))
      rw [List.length_append, List.length_map, List.length_range]
      omega

/-- A command moves at most as many pages as it has bytes for. -/
theorem length_pages_le {c : Command} {n : Nat} (hn : 0 < n) (hbytes : c.bytes blkLog = 4096 * n)
    (halign : c.prp1.toNat % 4096 = 0) (load : BitVec 64 → BitVec 64) :
    (c.pages load blkLog).length ≤ n := by
  have hcount : (c.prp1.toNat % 4096 + c.bytes blkLog + 4095) / 4096 = n := by omega
  rw [Command.pages, hcount, prpPages]
  have := length_listPages_le load n c.prp2 (n-1)
  split_ifs
  · exact hn
  · simp only [List.length_cons, List.length_nil]
    omega
  · rw [List.length_cons]
    omega

/-- Calls that move too few pages cannot move the requested ones. -/
theorem not_transfers {calls : List Call} (h : pageCount
    (calls.flatMap (Call.pageWrites pool rest blkLog pc.pagesPerEntry)) <
    reqs.length * pc.pagesPerEntry) : ¬ Transfers pc pool rest blkLog reqs calls := by
  intro ht
  have hcount : pageCount (calls.flatMap (Call.pageWrites pool rest blkLog pc.pagesPerEntry)) =
      pageCount (reqs.map (requestPage pc)) := (ht.map _).sum_eq
  rw [pageCount_requests] at hcount
  omega

end Counting

structure Coded (pc : PageCache) (u : Nat) : Prop where
  decode_eq : ioSchedDecodeNbytes (ioSchedEncodeNbytes (BitVec.ofNat 64 pc.pageSize)) =
    BitVec.ofNat 64 (4096*u)
  pos : 0 < u
  le : u ≤ pc.pagesPerEntry
  eq_iff : u = pc.pagesPerEntry ↔ pc.pagesPerEntry ∣ 512
  dvd : ∀ j, 2^j ∣ pc.pageSize → 2^j ∣ 4096*u

theorem exists_coded (pc : PageCache) : ∃ u, Coded pc u := by
  obtain ⟨a, o, hodd, hppe⟩ := Nat.exists_eq_two_pow_mul_odd (Nat.ne_of_gt pc.ppe_pos)
  have hmod := Nat.odd_iff.mp hodd
  have hle := pc.ppe_le
  have hsize : pc.pageSize = 2^(12+a) * o := by
    rw [PageCache.pageSize, hppe, Nat.pow_add, Nat.mul_assoc]
  refine ⟨2^a, ?_, Nat.two_pow_pos a, hppe ▸ Nat.le_mul_of_pos_right _ (by omega), ?_,
    fun j hj => ?_⟩
  · rw [hsize, decode_encode hmod (by rw [← hsize, PageCache.pageSize]; omega), Nat.pow_add]
  · constructor
    · intro h
      refine h ▸ Nat.pow_dvd_pow 2 (show a ≤ 9 from ?_)
      exact (Nat.pow_le_pow_iff_right (by decide : 1 < 2)).mp (h.trans_le hle)
    · intro h
      have ho : o ∣ 2^9 := (Dvd.intro_left _ hppe.symm).trans h
      have hcop : Nat.Coprime o (2^9) := (Nat.coprime_two_right.mpr hodd).pow_right 9
      rw [hppe, Nat.eq_one_of_dvd_coprimes hcop (Nat.dvd_refl o) ho, Nat.mul_one]
  · have hcop : Nat.Coprime (2^j) o := (Nat.coprime_two_left.mpr hodd).pow_left j
    rw [hsize] at hj
    have := hcop.dvd_of_dvd_mul_right hj
    rwa [Nat.pow_add] at this

section NoSort

theorem noSortSubpage_aligned (pc : PageCache) (pe : BitVec 64) (j : Nat) :
    (noSortSubpage pc pe j).toNat % 4096 = 0 := by
  rw [noSortSubpage]
  split
  · exact pc.victim_aligned _
  · exact pc.page_aligned _

theorem noSortSubpage_eq {pe : BitVec 64} {j : Nat} (hpe : pc.Has (entryOf pe))
    (hj : j < pc.pagesPerEntry) : noSortSubpage pc pe j = pc.address (entryOf pe) j := by
  rw [noSortSubpage]
  by_cases htag : pe.toNat < 2^63
  · rw [entryOf, if_pos htag] at hpe ⊢
    rw [if_neg fun h => (tagged_iff pe).mp h htag]
    have hx : (pe.setWidth 32 : BitVec 32).toNat = pe.toNat := by
      rw [BitVec.toNat_setWidth, Nat.mod_eq_of_lt (PageCache.le_two_pow hpe pc.pages_le)]
    rw [pc.index32 (hx.trans_lt hpe) hj pc.pages_le, hx]
    rfl
  · rw [entryOf, if_neg htag] at hpe ⊢
    rw [if_pos ((tagged_iff pe).mpr htag)]
    exact pc.victimSubpage_eq htag hpe hj

theorem noSortCommand_eq (byteOff : BitVec 64) (nb : BitVec 8) (pe : BitVec 64) :
    noSortCommand pc blkLog byteOff nb pe =
    (⟨byteOff, ioSchedDecodeNbytes nb, [pe]⟩ : Group).command blkLog
      (noSortSubpage pc pe 0) (if 1 < pc.pagesPerEntry then noSortSubpage pc pe 1 else 0) := by
  rw [noSortCommand, Group.command]
  simp only [BitVec.setWidth_setWidth_of_le _ (show 16 ≤ 32 by decide)]

theorem noSortBatch_eq (s : Scratch) : noSortBatch pc blkLog s reqs = reqs.map fun r =>
    ⟨s.mem, [noSortCommand pc blkLog r.byteOffset r.nBytesLog2 r.pcEntry]⟩ := by
  refine List.ext_getElem (by simp [noSortBatch]) fun i h _ => ?_
  have hi : i < reqs.length := by simpa [noSortBatch] using h
  simp [noSortBatch, drain, overlay, hi]

theorem bytes_noSort {u : Nat} (hu : Coded pc u) (h9 : 9 ≤ blkLog) (hblk : 2^blkLog ∣ pc.pageSize)
    {r : IoRequest} (hr : Asks pc r) :
    (noSortCommand pc blkLog r.byteOffset r.nBytesLog2 r.pcEntry).bytes blkLog = 4096*u := by
  have hpos := hu.pos
  have hle := hu.le.trans pc.ppe_le
  rw [noSortCommand_eq]
  refine Group.bytes_command ?_ (by omega) (by simp only [kSchedMergeTarget]; omega) h9
    (hu.dvd _ hblk) _ _
  simp only [hr.size_eq, hu.decode_eq, BitVec.toNat_ofNat]
  omega

theorem pages_noSort {u : Nat} (hu : Coded pc u) (h9 : 9 ≤ blkLog) (hblk : 2^blkLog ∣ pc.pageSize)
    {r : IoRequest} (hr : Asks pc r) (load : BitVec 64 → BitVec 64) :
    (noSortCommand pc blkLog r.byteOffset r.nBytesLog2 r.pcEntry).pages load blkLog =
      prpPages load (noSortSubpage pc r.pcEntry 0)
        (if 1 < pc.pagesPerEntry then noSortSubpage pc r.pcEntry 1 else 0) u := by
  rw [Command.pages, bytes_noSort hu h9 hblk hr]
  simp only [noSortCommand, rwCommand, noSortSubpage_aligned]
  rw [show (0 + 4096*u + 4095) / 4096 = u by omega]

theorem firstByte_noSort (hblk : 2^blkLog ∣ pc.pageSize) {r : IoRequest} (hr : Asks pc r) :
    (noSortCommand pc blkLog r.byteOffset r.nBytesLog2 r.pcEntry).firstByte blkLog =
    r.byteOffset.toNat := by
  rw [Command.firstByte, noSortCommand, rwCommand, BitVec.toNat_ushiftRight,
    Nat.shiftRight_eq_div_pow]
  exact Nat.div_mul_cancel (hblk.trans hr.offset_dvd)

theorem noSort_right (h9 : 9 ≤ blkLog) (hblk : 2^blkLog ∣ pc.pageSize) (hppe : pc.pagesPerEntry ≤ 2)
    {r : IoRequest} (hr : Asks pc r) (load : BitVec 64 → BitVec 64) :
    Command.pageWrites load blkLog pc.pagesPerEntry
      (noSortCommand pc blkLog r.byteOffset r.nBytesLog2 r.pcEntry) = [requestPage pc r] := by
  obtain ⟨u, hu⟩ := exists_coded pc
  have hpos := pc.ppe_pos
  have h12 : pc.pagesPerEntry = 1 ∨ pc.pagesPerEntry = 2 := by omega
  have hueq : u = pc.pagesPerEntry := hu.eq_iff.mpr (by rcases h12 with h | h <;> rw [h] <;> decide)
  have hpages : (noSortCommand pc blkLog r.byteOffset r.nBytesLog2 r.pcEntry).pages load blkLog =
      requestPages pc r := by
    rw [pages_noSort hu h9 hblk hr, hueq, requestPages]
    rcases h12 with h | h
    · simp [h, prpPages, noSortSubpage_eq hr.has (show 0 < pc.pagesPerEntry by omega)]
    · simp [h, prpPages, noSortSubpage_eq hr.has (show 0 < pc.pagesPerEntry by omega),
        noSortSubpage_eq hr.has (show 1 < pc.pagesPerEntry by omega), List.range_succ]
  have hlen : (requestPages pc r).length = pc.pagesPerEntry := by simp [requestPages]
  rw [Command.pageWrites, hpages,
    chunks_of_length_le hpos (List.length_pos_iff.mp (by omega)) hlen.le, firstByte_noSort hblk hr]
  simp [requestPage]

theorem load_const (pool : PrpPool) (v : BitVec 64) :
    pool.load (fun _ => v) (fun _ => v) = fun _ => v := by
  funext a
  unfold PrpPool.load
  split <;> rfl

/-- With more, the controller takes the second sub-page for a list of pages. -/
theorem noSort_list (h9 : 9 ≤ blkLog) (hblk : 2^blkLog ∣ pc.pageSize) (hppe : 2 < pc.pagesPerEntry)
    (h512 : pc.pagesPerEntry ∣ 512) {r : IoRequest} (hr : Asks pc r) (v : BitVec 64) :
    Command.pageWrites (fun _ => v) blkLog pc.pagesPerEntry
      (noSortCommand pc blkLog r.byteOffset r.nBytesLog2 r.pcEntry) =
        [(r.byteOffset.toNat,
          noSortSubpage pc r.pcEntry 0 :: List.replicate (pc.pagesPerEntry - 1) v)] := by
  obtain ⟨u, hu⟩ := exists_coded pc
  obtain rfl := hu.eq_iff.mpr h512
  obtain ⟨n, hn⟩ := Nat.exists_eq_succ_of_ne_zero (Nat.ne_of_gt pc.ppe_pos)
  have hle := pc.ppe_le
  have hpages := pages_noSort hu h9 hblk hr fun _ => v
  rw [if_pos (by omega), hn,
    prpPages_list (noSortSubpage_aligned pc r.pcEntry 1) (by omega) (by omega), List.map_const',
    List.length_range] at hpages
  have hchunk := chunks_of_length_le pc.ppe_pos (List.cons_ne_nil _ _)
    (show (noSortSubpage pc r.pcEntry 0 :: List.replicate n v).length ≤ pc.pagesPerEntry by
      rw [List.length_cons, List.length_replicate]; omega)
  rw [Command.pageWrites, hpages, hchunk, firstByte_noSort hblk hr, hn]
  simp

theorem requestPages_aligned {r : IoRequest} {a : BitVec 64} (ha : a ∈ requestPages pc r) :
    a.toNat % 4096 = 0 := by
  obtain ⟨j, -, rfl⟩ := List.mem_map.mp ha
  cases entryOf r.pcEntry with
  | page i => exact pc.page_aligned _
  | victim v => exact pc.victim_aligned _

theorem noSort_moves (s : Scratch) :
    (noSortBatch pc blkLog s reqs).flatMap (Call.pageWrites pool rest blkLog pc.pagesPerEntry) =
      reqs.flatMap fun r => Command.pageWrites (pool.load s.mem rest) blkLog pc.pagesPerEntry
        (noSortCommand pc blkLog r.byteOffset r.nBytesLog2 r.pcEntry) := by
  rw [noSortBatch_eq, List.flatMap_map]
  simp only [Call.pageWrites, List.flatMap_cons, List.flatMap_nil, List.append_nil]

/-- A size that is no power of two comes back as a smaller one. -/
theorem noSort_short (h9 : 9 ≤ blkLog) (hblk : 2^blkLog ∣ pc.pageSize)
    (hreq : ∀ r ∈ reqs, Asks pc r)
    (hne : reqs ≠ []) (h512 : ¬ pc.pagesPerEntry ∣ 512) (s : Scratch) (rest : Nat → BitVec 64) :
    ¬ Transfers pc pool rest blkLog reqs (noSortBatch pc blkLog s reqs) := by
  obtain ⟨u, hu⟩ := exists_coded pc
  have hlt : u < pc.pagesPerEntry := Nat.lt_of_le_of_ne hu.le fun h => h512 (hu.eq_iff.mp h)
  apply not_transfers
  rw [noSort_moves, pageCount_flatMap]
  refine lt_of_le_of_lt (List.sum_le_card_nsmul _ u fun x hx => ?_) ?_
  · obtain ⟨r, hr, rfl⟩ := List.mem_map.mp hx
    rw [pageCount_command]
    exact length_pages_le hu.pos (bytes_noSort hu h9 hblk (hreq r hr))
      (noSortSubpage_aligned pc _ _) _
  · rw [List.length_map, smul_eq_mul]
    exact Nat.mul_lt_mul_of_pos_left hlt (List.length_pos_iff.mpr hne)

/-- The build without a sort moves what is requested, whatever is on the bus, if a page is at
most two controller pages, and in no other case. -/
theorem noSort_iff (h9 : 9 ≤ blkLog) (hblk : 2^blkLog ∣ pc.pageSize)
    (hreq : ∀ r ∈ reqs, Asks pc r) :
    (∀ s rest, Transfers pc pool rest blkLog reqs (noSortBatch pc blkLog s reqs)) ↔
      reqs = [] ∨ pc.pagesPerEntry ≤ 2 := by
  constructor
  · intro h
    by_contra hne
    obtain ⟨hne, hppe⟩ := not_or.mp hne
    obtain ⟨r, hr⟩ := List.exists_mem_of_ne_nil _ hne
    have hmoves := h { Scratch.zero with mem := fun _ => 1#64 } fun _ => 1#64
    by_cases h512 : pc.pagesPerEntry ∣ 512
    · rw [Transfers, noSort_moves, load_const, List.flatMap_congr fun r hr =>
        noSort_list h9 hblk (by omega) h512 (hreq r hr) 1#64, ← List.map_eq_flatMap] at hmoves
      obtain ⟨r', -, hr'⟩ := List.mem_map.mp (hmoves.mem_iff.mp (List.mem_map_of_mem hr))
      have h1 : 1#64 ∈ requestPages pc r' := by
        rw [(Prod.mk.inj hr').2]
        exact List.mem_cons_of_mem _ (List.mem_replicate.mpr ⟨by omega, rfl⟩)
      exact absurd (requestPages_aligned h1) (by decide)
    · exact noSort_short h9 hblk hreq hne h512 _ _ hmoves
  · rintro (rfl | hppe) s rest
    · exact .nil
    · rw [Transfers, noSort_moves, List.flatMap_congr fun r hr =>
        noSort_right h9 hblk hppe (hreq r hr) _, ← List.map_eq_flatMap]

end NoSort

section Shared

theorem growShared_eq {sh : Shared} {batch : Nat} (hkeys : ∀ pos < batch, sh.keys pos ≠ keyMax)
    (i fuel : Nat)
    (s : BitVec 64 × Nat) : growShared sh batch i fuel s = growRun sh.batch batch i fuel s := by
  induction fuel generalizing s with
  | zero => rfl
  | succ fuel ih =>
    rw [growShared, growRun]
    split
    · rename_i hgo
      simp only [if_neg (hkeys _ hgo.1), ih]
      rfl
    · rfl

theorem sharedGroups_eq {sh : Shared} {batch : Nat} (hkeys : ∀ pos < batch, sh.keys pos ≠ keyMax)
    (fuel i : Nat) : sharedGroups sh batch fuel i = (scanGroups sh.batch batch fuel i).1 := by
  induction fuel generalizing i with
  | zero => rfl
  | succ fuel ih =>
    rw [sharedGroups, scanGroups]
    by_cases hi : i < batch
    · rw [if_pos ⟨hi, hkeys i hi⟩, if_pos hi]
      simp only [growShared_eq hkeys, ih]
      rfl
    · rw [if_neg fun h => hi h.1, if_neg hi]

/-- Pages of a power of two: all groups go in one call, and every request gets the pages that
the page table has for its entry. -/
theorem shared_moves (pool : PrpPool) (rest : Nat → BitVec 64) (h9 : 9 ≤ blkLog)
    (hblk : 2^blkLog ∣ pc.pageSize) (hppe : pc.pagesPerEntry ∣ 512)
    (hlen : reqs.length ≤ kSchedMaxBatch) (hreq : ∀ r ∈ reqs, Asks pc r) (mem : Nat → BitVec 64) :
    (Call.pageWrites pool rest blkLog pc.pagesPerEntry
      (sharedBatch pc (some pool) blkLog reqs mem)).Perm (reqs.map (pageOf pc pc.pageSubpage)) := by
  obtain ⟨S, hperm, hlists, hkeys⟩ := (Packs.of_asks hlen hreq).sortShared_lists .zero
  have hS := hperm.length_eq
  have h31 : S.length ≤ 2^31 := hS.trans_le (hlen.trans (by decide))
  have ha := aligned_of_lists hppe h31 hlists fun r hr => hreq r (hperm.mem_iff.mp hr)
  generalize hsh : sortShared (loadShared .zero reqs) = sh at hlists hkeys ha
  have hcount := length_groupsFrom_le pc sh.batch S.length
  have hgroups : sharedGroups sh reqs.length reqs.length 0 = groupsFrom pc sh.batch S.length 0 := by
    obtain ⟨q, hscan, -⟩ :=
      scanGroups_eq ha.toUniform S.length (Nat.zero_le _) fun _ => isStart_zero
    rw [sharedGroups_eq hkeys, ← hS, hscan]
    exact List.take_of_length_le hcount
  have hok := ha.toUniform.groupsFrom_ok pc.pageSubpage_aligned h9 hblk (Nat.zero_le _)
    fun _ => isStart_zero
  have hbuilt := buildGroups_carries pool hok 0 (by omega) mem rest
  refine pageWrites_perm ha hblk hlists hperm ?_
  simp only [sharedBatch, hsh, hgroups]
  exact hbuilt

section Even
variable {b : Batch} {N u : Nat} (hu : u ≤ 512)
  (hsize : ∀ pos < N, b.size pos = BitVec.ofNat 64 (4096*u))
include hu hsize

theorem growRun_even {i r : Nat} (hi : i + r ≤ N) (hr : r*u ≤ 512) (fuel : Nat) :
    ∃ c, growRun b N i fuel (BitVec.ofNat 64 (4096*(r*u)), r) = (BitVec.ofNat 64 (4096*(c*u)), c) ∧
      r ≤ c ∧ i + c ≤ N ∧ c*u ≤ 512 := by
  induction fuel generalizing r with
  | zero => exact ⟨r, rfl, le_rfl, hi, hr⟩
  | succ fuel ih =>
    rw [growRun]
    split
    · rename_i hgo
      split
      · exact ⟨r, rfl, le_rfl, hi, hr⟩
      · have hsum :
          BitVec.ofNat 64 (4096*(r*u)) + b.size (i+r) = BitVec.ofNat 64 (4096*((r+1)*u)) := by
          rw [hsize _ hgo.1, ← BitVec.ofNat_add, ← Nat.mul_add, Nat.succ_mul r u]
        simp only [hsum]
        split
        · exact ⟨r, rfl, le_rfl, hi, hr⟩
        · rename_i hfit
          have hmul : (r+1)*u = r*u + u := Nat.succ_mul r u
          have hle : (r+1)*u ≤ 512 := by
            rw [BitVec.not_lt, BitVec.le_def, BitVec.toNat_ofNat, BitVec.toNat_ofNat,
              kSchedMergeTarget] at hfit
            omega
          obtain ⟨c, hc, hrc, hcN, hcu⟩ := ih (by omega) hle
          exact ⟨c, hc, by omega, hcN, hcu⟩
    · exact ⟨r, rfl, le_rfl, hi, hr⟩

/-- The groups of a scan are such runs, and they do not overlap. -/
theorem scanGroups_even (room p : Nat) :
    (∀ g ∈ (scanGroups b N room p).1, g.bytes.toNat = 4096*(g.entries.length*u) ∧
      0 < g.entries.length ∧ g.entries.length*u ≤ 512) ∧
    ((scanGroups b N room p).1.map fun g => g.entries.length).sum ≤ N - p := by
  induction room generalizing p with
  | zero => exact ⟨fun g hg => absurd hg List.not_mem_nil, Nat.zero_le _⟩
  | succ room ih =>
    rw [scanGroups]
    split
    · rename_i hp
      obtain ⟨c, hrun, hpos, hcN, hcu⟩ :=
        growRun_even hu hsize (r := 1) (i := p) (by omega) (by omega) N
      rw [Nat.one_mul, ← hsize p hp] at hrun
      obtain ⟨hgs, hsum⟩ := ih (p+c)
      simp only [hrun, List.forall_mem_cons, List.map_cons, List.sum_cons, List.length_map,
        List.length_range]
      refine ⟨⟨⟨?_, hpos, hcu⟩, hgs⟩, by omega⟩
      rw [BitVec.toNat_ofNat]
      omega
    · exact ⟨fun g hg => absurd hg List.not_mem_nil, Nat.zero_le _⟩

end Even

/-- A size that is no power of two comes back as a smaller one. -/
theorem shared_short (h9 : 9 ≤ blkLog) (hblk : 2^blkLog ∣ pc.pageSize)
    (hlen : reqs.length ≤ kSchedMaxBatch)
    (hreq : ∀ r ∈ reqs, Asks pc r) (hne : reqs ≠ []) (h512 : ¬ pc.pagesPerEntry ∣ 512)
    (mem : Nat → BitVec 64) :
    ¬ Transfers pc pool rest blkLog reqs [sharedBatch pc (some pool) blkLog reqs mem] := by
  obtain ⟨u, hu⟩ := exists_coded pc
  have hlt : u < pc.pagesPerEntry := Nat.lt_of_le_of_ne hu.le fun h => h512 (hu.eq_iff.mp h)
  obtain ⟨S, hperm, hlists, hkeys⟩ := (Packs.of_asks hlen hreq).sortShared_lists .zero
  have hS := hperm.length_eq
  generalize hsh : sortShared (loadShared .zero reqs) = sh at hlists hkeys
  have hsize : ∀ pos < reqs.length, sh.batch.size pos = BitVec.ofNat 64 (4096*u) := by
    intro pos h
    rw [← hS] at h
    rw [Batch.size, hlists.nb_eq pos h, (hreq _ (hperm.mem_iff.mp (List.getElem_mem h))).size_eq,
      hu.decode_eq]
  obtain ⟨heven, hsum⟩ := scanGroups_even (hu.le.trans pc.ppe_le) hsize reqs.length 0
  rw [← sharedGroups_eq hkeys] at heven hsum
  have hcmds : List.Forall₂
    (fun g c => (c.pages (pool.load (sharedBatch pc (some pool) blkLog reqs mem).mem rest)
      blkLog).length ≤ g.entries.length * u) (sharedGroups sh reqs.length reqs.length 0)
      (sharedBatch pc (some pool) blkLog reqs mem).commands := by
    simp only [sharedBatch, hsh]
    refine ((List.forall₂_and_left _ _).mpr ⟨heven, buildGroups_commands _ 0 mem⟩).imp
      fun g c hgc => ?_
    obtain ⟨⟨hbytes, hpos, hle⟩, prp2, rfl⟩ := hgc
    have hn := Nat.mul_pos hpos hu.pos
    refine length_pages_le hn (Group.bytes_command hbytes (by omega) ?_ h9 ?_ _ _)
      (pc.page_aligned _) _
    · rw [kSchedMergeTarget]
      omega
    · rw [Nat.mul_left_comm]
      exact Dvd.dvd.mul_left (hu.dvd _ hblk) _
  apply not_transfers
  rw [List.flatMap_singleton, Call.pageWrites, pageCount_flatMap]
  simp only [pageCount_command]
  calc _ ≤ ((sharedGroups sh reqs.length reqs.length 0).map fun g => g.entries.length * u).sum :=
        List.Forall₂.sum_le_sum
          (List.forall₂_map_left_iff.mpr (List.forall₂_map_right_iff.mpr hcmds.flip))
    _ = ((sharedGroups sh reqs.length reqs.length 0).map fun g => g.entries.length).sum * u :=
        List.sum_map_mul_right ..
    _ ≤ reqs.length * u := Nat.mul_le_mul_right u hsum
    _ < reqs.length * pc.pagesPerEntry :=
      Nat.mul_lt_mul_of_pos_left hlt (List.length_pos_iff.mpr hne)

def withPast (pc : PageCache) (past : Nat → Nat) : PageCache where
  __ := pc
  pageIoaddrs i := if i < pc.nPages * pc.pagesPerEntry then pc.pageIoaddrs i
    else BitVec.ofNat 64 (4096 * past i)
  page_aligned i := by
    split
    · exact pc.page_aligned i
    · rw [BitVec.toNat_ofNat]
      omega

theorem asks_withPast {past : Nat → Nat} {r : IoRequest} (h : Asks pc r) :
    Asks (withPast pc past) r := by
  refine ⟨h.offset_lt, h.offset_dvd, h.size_eq, ?_⟩
  have := h.has
  cases hr : entryOf r.pcEntry <;> rw [hr] at this <;> exact this

theorem requestPage_withPast {past : Nat → Nat} {r : IoRequest} (h : Asks pc r) :
    requestPage (withPast pc past) r = requestPage pc r := by
  have hhas := h.has
  refine congrArg (Prod.mk _) (List.map_congr_left fun j hj => ?_)
  have hj' : j < pc.pagesPerEntry := List.mem_range.mp hj
  cases hr : entryOf r.pcEntry with
  | page i =>
    rw [hr] at hhas
    exact if_pos (row_lt hhas hj' le_rfl)
  | victim v => rfl

theorem map_withPast {past : Nat → Nat} (hreq : ∀ r ∈ reqs, Asks pc r) :
    reqs.map (requestPage (withPast pc past)) = reqs.map (requestPage pc) :=
  List.map_congr_left fun r hr => requestPage_withPast (hreq r hr)

def Disjoint (pc : PageCache) : Prop :=
  ∀ i < pc.nPages * pc.pagesPerEntry, ∀ k < pc.nVictims * pc.pagesPerEntry,
    pc.pageIoaddrs i ≠ pc.victimIoaddrs k

/-- A victim page is not in the table, and what lies behind it may be something else. -/
theorem pageSubpage_ne_victim (hdisj : Disjoint pc) {k : Nat}
    (hk : k < pc.nVictims * pc.pagesPerEntry) :
    ∃ past, ∀ pe j, (withPast pc past).pageSubpage pe j ≠ pc.victimIoaddrs k := by
  refine ⟨fun _ => if pc.victimIoaddrs k = 0#64 then 1 else 0, fun pe j => ?_⟩
  simp only [PageCache.pageSubpage, withPast]
  split
  · rename_i hlt
    exact hdisj _ hlt k hk
  · split
    · rename_i h0
      rw [h0]
      decide
    · rename_i h0
      exact Ne.symm h0

/-- The batch build moves what is requested, whatever lies behind the page table, if pages
are a power of two and no request names the victim buffer, and in no other case. -/
theorem shared_iff (h9 : 9 ≤ blkLog) (hblk : 2^blkLog ∣ pc.pageSize) (hdisj : Disjoint pc)
    (hlen : reqs.length ≤ kSchedMaxBatch) (hreq : ∀ r ∈ reqs, Asks pc r) :
    (∀ past mem rest, Transfers pc pool rest blkLog reqs
      [sharedBatch (withPast pc past) (some pool) blkLog reqs mem]) ↔
      reqs = [] ∨ pc.pagesPerEntry ∣ 512 ∧ ∀ r ∈ reqs, r.pcEntry &&& VictimPcEntryBit = 0#64 := by
  have hasks : ∀ past, ∀ r ∈ reqs, Asks (withPast pc past) r :=
    fun _ r hr => asks_withPast (hreq r hr)
  have hmoves (h512 : pc.pagesPerEntry ∣ 512) (past : Nat → Nat) (mem rest : Nat → BitVec 64) :=
    shared_moves pool rest h9 (show 2^blkLog ∣ (withPast pc past).pageSize from hblk)
      h512 hlen (hasks past) mem
  constructor
  · intro h
    by_contra hcon
    obtain ⟨hne, hcon⟩ := not_or.mp hcon
    by_cases h512 : pc.pagesPerEntry ∣ 512
    · obtain ⟨r, hr, htag⟩ : ∃ r ∈ reqs, r.pcEntry &&& VictimPcEntryBit ≠ 0#64 := by
        by_contra hno
        exact hcon ⟨h512, fun r hr => by_contra fun ht => hno ⟨r, hr, ht⟩⟩
      have hhas := (hreq r hr).has
      rw [entryOf, if_neg ((tagged_iff _).mp htag)] at hhas
      obtain ⟨past, hpast⟩ := pageSubpage_ne_victim hdisj (row_lt hhas pc.ppe_pos le_rfl)
      have hperm := h past (fun _ => 0) fun _ => 0
      rw [Transfers, List.flatMap_singleton] at hperm
      obtain ⟨r', -, hr'⟩ := List.mem_map.mp (((hperm.symm.trans (hmoves h512 past _ _)).mem_iff).mp
        (List.mem_map_of_mem hr))
      have hfirst := congrArg (fun m => m.2[0]?) hr'
      simp only [pageOf, requestPage, requestPages, List.getElem?_map, withPast,
        List.getElem?_range pc.ppe_pos, Option.map_some, Option.some.injEq, entryOf,
        if_neg ((tagged_iff _).mp htag)] at hfirst
      exact hpast _ _ hfirst
    · have hperm := h (fun _ => 0) (fun _ => 0) fun _ => 0
      rw [Transfers, ← map_withPast hreq] at hperm
      exact shared_short h9 (show 2^blkLog ∣ (withPast pc fun _ => 0).pageSize from hblk) hlen
        (hasks _)
        hne h512 _ hperm
  · rintro (rfl | ⟨h512, huntag⟩) past mem rest
    · exact .nil
    · rw [Transfers, List.flatMap_singleton]
      refine (hmoves h512 past mem rest).trans (.of_eq ?_)
      rw [← map_withPast hreq]
      refine List.map_congr_left fun r hr => pageOf_eq fun j hj => ?_
      refine PageCache.pageSubpage_entry _ ?_ (hasks past r hr).has hj
      exact by_contra fun h => (tagged_iff _).mpr h (huntag r hr)

end Shared

theorem default_moves (pool : PrpPool) (h9 : 9 ≤ blkLog) (hblk : 2^blkLog ∣ pc.pageSize)
    (hppe : pc.pagesPerEntry ∣ 512) (hN : reqs.length ≤ 2^31) (hreq : ∀ r ∈ reqs, Asks pc r)
    (sort : SortVersion) (s : Scratch) (rest : Nat → BitVec 64) :
    ∃ s' calls, writeBatch sort pc (some pool) blkLog s reqs = some (s', calls) ∧
      Transfers pc pool rest blkLog reqs calls := by
  obtain ⟨hperm, hlists⟩ := sortPhase_perm hN sort s
  obtain ⟨s', calls, b, hrun, hb, ha, hcalls⟩ :=
    writeBatch_calls pool sort hppe h9 hblk s hN hperm hreq hlists rest
  refine ⟨s', calls, hrun, ?_⟩
  rw [Transfers, (calls_spec (β := Nat) ha hblk pc.subpage_aligned hcalls).1, map_pageAt hb,
    map_pageOf_subpage fun r hr => hreq r (hperm.mem_iff.mp hr)]
  exact hperm.map _

/-- Which requests each build serves. The default build moves every page that is a power of
two. Without the sort, two controller pages are the most that it moves right, whatever is on
the bus. Batch by batch, the victim buffer is out of reach. -/
theorem modes_transfer_iff (pool : PrpPool) (h9 : 9 ≤ blkLog) (hblk : 2^blkLog ∣ pc.pageSize)
    (hdisj : Disjoint pc) (hN : reqs.length ≤ 2^31) (hreq : ∀ r ∈ reqs, Asks pc r) :
    (pc.pagesPerEntry ∣ 512 → ∀ sort s rest, ∃ s' calls,
      writeBatch sort pc (some pool) blkLog s reqs = some (s', calls) ∧
        Transfers pc pool rest blkLog reqs calls) ∧
    ((∀ s rest, Transfers pc pool rest blkLog reqs (noSortBatch pc blkLog s reqs)) ↔
      reqs = [] ∨ pc.pagesPerEntry ≤ 2) ∧
    (reqs.length ≤ kSchedMaxBatch →
      ((∀ past mem rest, Transfers pc pool rest blkLog reqs
        [sharedBatch (withPast pc past) (some pool) blkLog reqs mem]) ↔
          reqs = [] ∨ pc.pagesPerEntry ∣ 512 ∧
          ∀ r ∈ reqs, r.pcEntry &&& VictimPcEntryBit = 0#64)) :=
  ⟨fun hppe => default_moves pool h9 hblk hppe hN hreq, noSort_iff h9 hblk hreq,
    fun hlen => shared_iff h9 hblk hdisj hlen hreq⟩

theorem fourK_disjoint : Disjoint .fourK := by
  intro i hi k hk h
  have hi' : i < 2^20 := by simpa [PageCache.fourK, PageCache.inOrder] using hi
  have hk' : k < 2^20 := by simpa [PageCache.fourK, PageCache.inOrder] using hk
  have := congrArg BitVec.toNat h
  simp only [PageCache.fourK, PageCache.inOrder, BitVec.toNat_ofNat] at this
  omega

/-- On 4 KB pages the victim entry of the pair is served without the sort, but not batch by
batch. -/
theorem twoRequests_modes :
    (∀ s rest, Transfers .fourK .inOrder rest 9 twoRequests (noSortBatch .fourK 9 s twoRequests)) ∧
    ¬ ∀ past mem rest, Transfers .fourK .inOrder rest 9 twoRequests
      [sharedBatch (withPast .fourK past) (some .inOrder) 9 twoRequests mem] := by
  have hreq : ∀ r ∈ twoRequests, Asks .fourK r := fun r hr => (twoRequests_page r hr).toAsks
  obtain ⟨-, hnoSort, hshared⟩ := modes_transfer_iff .inOrder (show 9 ≤ 9 by decide) (by decide)
    fourK_disjoint (by decide) hreq
  refine ⟨hnoSort.mpr (.inr (by decide)), fun h => ?_⟩
  rcases (hshared (by decide)).mp h with hnil | ⟨-, huntag⟩
  · exact absurd hnil (by decide)
  · exact absurd (huntag _ (List.mem_cons_of_mem _ List.mem_cons_self)) (by decide)

def fourPages : PageCache := .inOrder 2 (by decide)

def cacheRequest : IoRequest := ⟨0#64, 1#64, 1#8, 14#8⟩

def victimRequest : IoRequest := ⟨0#64, VictimPcEntryBit ||| 1#64, 1#8, 14#8⟩

theorem cacheRequest_asks : Asks fourPages cacheRequest :=
  ⟨by decide, by decide, by decide, show (1 : Nat) < 2^20 by decide⟩

theorem victimRequest_asks : Asks fourPages victimRequest :=
  ⟨by decide, by decide, by decide, show (1 : Nat) < 2^20 by decide⟩

/-- Without the sort the controller reads a list of pages from the second sub-page, which is
zero here. Batch by batch, cache page 1 goes out instead of victim page 1. -/
theorem modes_disagree :
    ¬ Transfers fourPages .inOrder (fun _ => 0) 9 [cacheRequest]
      (noSortBatch fourPages 9 .zero [cacheRequest]) ∧
    ¬ Transfers fourPages .inOrder (fun _ => 0) 9 [victimRequest]
      [sharedBatch fourPages (some .inOrder) 9 [victimRequest] fun _ => 0] ∧
    ∀ r ∈ [cacheRequest, victimRequest], ∃ s' calls,
      writeBatch .v2 fourPages (some .inOrder) 9 .zero [r] = some (s', calls) ∧
        Transfers fourPages .inOrder (fun _ => 0) 9 [r] calls := by
  refine ⟨fun h => ?_, fun h => ?_, fun r hr => ?_⟩
  · rw [Transfers, noSort_moves, List.flatMap_singleton] at h
    rw [show Scratch.zero.mem = fun _ => 0 from rfl, load_const,
      noSort_list (by decide) (by decide) (by decide) (by decide) cacheRequest_asks,
      List.map_singleton, List.singleton_perm_singleton] at h
    exact absurd h (by decide)
  · rw [Transfers, List.flatMap_singleton] at h
    have hmoves :=
      h.symm.trans (shared_moves .inOrder (fun _ => 0) (by decide) (by decide) (by decide)
        (by decide) (List.forall_mem_singleton.mpr victimRequest_asks) fun _ => 0)
    rw [List.map_singleton, List.map_singleton, List.singleton_perm_singleton] at hmoves
    exact absurd hmoves (by decide)
  · have hasks : Asks fourPages r := by
      rcases List.mem_pair.mp hr with rfl | rfl
      · exact cacheRequest_asks
      · exact victimRequest_asks
    exact default_moves .inOrder (by decide) (by decide) (by decide)
      (show [r].length ≤ 2^31 by simp)
      (List.forall_mem_singleton.mpr hasks) .v2 .zero fun _ => 0

end Shaper.WriteModes
