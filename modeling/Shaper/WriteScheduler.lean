import Mathlib.Data.Nat.Prime.Basic
import Shaper.MergeEffect
import Shaper.RadixSort

/-! The write kernel on whole batches: drain, sort, merge and submit, and what its
commands leave on storage. -/
namespace Shaper.WriteScheduler
open Lib.BucketSort Lib.Overwrite Lib.Segments Nvme PrpBuild Merge MergeEffect RadixSort Request

variable {β : Type*}

inductive SortVersion where
  | v1
  | v2

def radixSort : SortVersion → Buf → Buf → Nat → Nat → Buf × Buf
  | .v1 => ioSchedRadixSort
  | .v2 => ioSchedRadixSortV2

structure Scratch where
  buf : Buf
  alt : Buf
  nb : Nat → BitVec 8
  pc : Nat → BitVec 64
  starts : Nat → Nat
  mem : Nat → BitVec 64

def overlay {γ : Type*} (old : Nat → γ) (new : List γ) : Nat → γ := fun i => new.getD i (old i)

def drain (s : Scratch) (reqs : List IoRequest) : Scratch :=
  { s with
    buf := ⟨overlay s.buf.keys (reqs.map IoRequest.byteOffset),
      overlay s.buf.vals ((List.range reqs.length).map (BitVec.ofNat 32))⟩
    nb := overlay s.nb (reqs.map IoRequest.nBytesLog2)
    pc := overlay s.pc (reqs.map IoRequest.pcEntry) }

def sortPhase (sort : SortVersion) (s : Scratch) (N : Nat) : Scratch :=
  let (buf, alt) := radixSort sort s.buf s.alt N 6
  { s with buf := buf, alt := alt }

def Scratch.batch (s : Scratch) : Batch := ⟨s.buf.keys, s.buf.vals, s.nb, s.pc⟩

def writeBatch (sort : SortVersion) (pc : PageCache) (pool : Option PrpPool) (blkLog : Nat)
    (s : Scratch) (reqs : List IoRequest) : Option (Scratch × List Call) :=
  let N := reqs.length
  let s := sortPhase sort (drain s reqs) N
  (parallelMerge pc pool blkLog s.batch N s.starts s.mem).map fun (mem, calls) =>
    ({ s with
      starts := (split s.batch N (detect (s.batch.isBoundary N) N s.starts)).1
      mem := mem }, calls)

def writeKernel (sort : SortVersion) (pc : PageCache) (pool : Option PrpPool) (blkLog : Nat) :
    Scratch → List (List IoRequest) → Option (Scratch × List (List Call))
  | s, [] => some (s, [])
  | s, reqs :: rest => do
    let (s, calls) ← writeBatch sort pc pool blkLog s reqs
    let (s, callss) ← writeKernel sort pc pool blkLog s rest
    return (s, calls :: callss)

def execCommands (pool : PrpPool) (rest : Nat → BitVec 64) (blkLog : Nat)
    (runs : List (List Call × (BitVec 64 → β))) : (Nat → β) → Nat → β :=
  applyAll (fun run => applyAll (Call.exec pool rest run.2 blkLog) run.1) runs

def requestPages (pc : PageCache) (r : IoRequest) : List (BitVec 64) :=
  (List.range pc.pagesPerEntry).map (pc.address (entryOf r.pcEntry))

def requestPage (pc : PageCache) (r : IoRequest) : Nat × List (BitVec 64) :=
  (r.byteOffset.toNat, requestPages pc r)

def writeRequest (pc : PageCache) (ram : BitVec 64 → β) (r : IoRequest) : (Nat → β) → Nat → β :=
  writeAt ram (requestPage pc r)

def applyRequests (pc : PageCache) (batches : List (List IoRequest × (BitVec 64 → β))) :
    (Nat → β) → Nat → β :=
  applyAll (fun batch => applyAll (writeRequest pc batch.2) batch.1) batches

structure Asks (pc : PageCache) (r : IoRequest) : Prop where
  offset_lt : r.byteOffset.toNat < 2^55
  offset_dvd : pc.pageSize ∣ r.byteOffset.toNat
  size_eq : r.nBytesLog2 = ioSchedEncodeNbytes (BitVec.ofNat 64 pc.pageSize)
  has : pc.Has (entryOf r.pcEntry)

structure PageRequest (pc : PageCache) (r : IoRequest) : Prop extends Asks pc r where
  digits : r.byteOffset.toNat < 2^48

theorem pairs_radixSort (sort : SortVersion) (buf alt : Buf) (N : Nat) :
    (radixSort sort buf alt N 6).1.pairs N = lsd (fun kv => kv.1.toNat) 256 6 (buf.pairs N) := by
  cases sort with
  | v1 => exact pairs_sort stable_serial rfl buf alt
  | v2 => exact pairs_sort stable_parallel rfl buf alt

structure Lists (b : Batch) (S : List IoRequest) : Prop where
  keys_eq : ∀ pos (h : pos < S.length), b.keys pos = S[pos].byteOffset
  entry_eq : ∀ pos (h : pos < S.length), b.entry pos = S[pos].pcEntry
  nb_eq : ∀ pos (h : pos < S.length), b.nb (b.vals pos).toNat = S[pos].nBytesLog2

structure StableOrder (reqs S : List IoRequest) : Prop where
  perm : S.Perm reqs
  sorted : S.Pairwise fun r r' => r.byteOffset.toNat ≤ r'.byteOffset.toNat
  stable : ∀ k, S.filter (fun r => r.byteOffset.toNat == k) =
    reqs.filter fun r => r.byteOffset.toNat == k

section Sorting
variable {reqs : List IoRequest}

def indexed (reqs : List IoRequest) : List (BitVec 64 × BitVec 32) :=
  reqs.mapIdx fun i r => (r.byteOffset, BitVec.ofNat 32 i)

def pick (reqs : List IoRequest) (kv : BitVec 64 × BitVec 32) : IoRequest :=
  reqs.getD kv.2.toNat ⟨0, 0, 0, 0⟩

theorem pairs_drain (s : Scratch) (reqs : List IoRequest) :
    (drain s reqs).buf.pairs reqs.length = indexed reqs := by
  refine List.ext_getElem (by simp [Buf.pairs, indexed]) fun i hi _ => ?_
  have hi' : i < reqs.length := by simpa [Buf.pairs] using hi
  simp [Buf.pairs, Buf.get, drain, overlay, indexed, hi']

theorem pick_ofNat (hN : reqs.length ≤ 2^31) (key : BitVec 64) {i : Nat} (h : i < reqs.length) :
    pick reqs (key, BitVec.ofNat 32 i) = reqs[i] := by
  rw [pick, BitVec.toNat_ofNat, Nat.mod_eq_of_lt (by omega), List.getD_eq_getElem _ _ h]

theorem overlay_map {γ : Type*} (hN : reqs.length ≤ 2^31) (f : IoRequest → γ) (old : Nat → γ)
    {i : Nat}
    (h : i < reqs.length) : overlay old (reqs.map f) (BitVec.ofNat 32 i).toNat = f reqs[i] := by
  rw [BitVec.toNat_ofNat, Nat.mod_eq_of_lt (by omega), overlay,
    List.getD_eq_getElem _ _ (by rwa [List.length_map]), List.getElem_map]

theorem mem_indexed {kv : BitVec 64 × BitVec 32} (hkv : kv ∈ indexed reqs) :
    ∃ i, ∃ h : i < reqs.length, kv = (reqs[i].byteOffset, BitVec.ofNat 32 i) := by
  obtain ⟨i, h, rfl⟩ := List.mem_mapIdx.mp hkv
  exact ⟨i, h, rfl⟩

theorem map_pick_indexed (hN : reqs.length ≤ 2^31) : (indexed reqs).map (pick reqs) = reqs := by
  refine List.ext_getElem (by simp [indexed]) fun i hi hi' => ?_
  simp only [indexed, List.getElem_map, List.getElem_mapIdx, pick_ofNat hN _ hi']

theorem pairs_sortPhase (sort : SortVersion) (s : Scratch) (reqs : List IoRequest) :
    (sortPhase sort (drain s reqs) reqs.length).buf.pairs reqs.length =
      lsd (fun kv => kv.1.toNat) 256 6 (indexed reqs) := by
  rw [← pairs_drain s reqs]
  exact pairs_radixSort sort _ _ _

theorem sortPhase_vals (hN : reqs.length ≤ 2^31) (sort : SortVersion) (s : Scratch) :
    ((List.range reqs.length).map fun pos =>
      ((sortPhase sort (drain s reqs) reqs.length).batch.vals pos).toNat).Perm
      (List.range reqs.length) := by
  have hperm : (lsd (fun kv => kv.1.toNat) 256 6 (indexed reqs)).Perm (indexed reqs) :=
    lsd_perm (by decide) 6 _
  have hvals : (indexed reqs).map (fun kv => kv.2.toNat) = List.range reqs.length := by
    refine List.ext_getElem (by simp [indexed]) fun i hi hi' => ?_
    have hlt : i < reqs.length := by simpa using hi'
    simp only [indexed, List.getElem_map, List.getElem_mapIdx, BitVec.toNat_ofNat,
      List.getElem_range]
    exact Nat.mod_eq_of_lt (by omega)
  have hmap := hperm.map fun kv => kv.2.toNat
  rwa [hvals, ← pairs_sortPhase sort s, Buf.pairs, List.map_map] at hmap

variable (hN : reqs.length ≤ 2^31) (hoff : ∀ r ∈ reqs, r.byteOffset.toNat < 2^48)
include hN hoff

theorem pick_key {kv : BitVec 64 × BitVec 32} (hkv : kv ∈ indexed reqs) :
    (pick reqs kv).byteOffset = kv.1 ∧ kv.1.toNat % 256^6 = kv.1.toNat := by
  obtain ⟨i, h, rfl⟩ := mem_indexed hkv
  refine ⟨by rw [pick_ofNat hN _ h], Nat.mod_eq_of_lt ?_⟩
  exact (hoff _ (List.getElem_mem h)).trans_eq (by decide)

theorem filter_pick {L : List (BitVec 64 × BitVec 32)} (hL : ∀ kv ∈ L, kv ∈ indexed reqs)
    (k : Nat) : (L.map (pick reqs)).filter (fun r => r.byteOffset.toNat == k) =
      (L.filter fun kv => kv.1.toNat % 256^6 == k).map (pick reqs) := by
  rw [List.filter_map]
  refine congrArg _ (List.filter_congr fun kv hkv => ?_)
  obtain ⟨hk, hmod⟩ := pick_key hN hoff (hL kv hkv)
  rw [Function.comp_apply, hk, hmod]

/-- Sorted pairs stand for the requests in their stable order. -/
theorem stableOrder_lsd :
    StableOrder reqs ((lsd (fun kv => kv.1.toNat) 256 6 (indexed reqs)).map (pick reqs)) := by
  have hperm : (lsd (fun kv => kv.1.toNat) 256 6 (indexed reqs)).Perm (indexed reqs) :=
    lsd_perm (by decide) 6 _
  refine ⟨?_, ?_, fun k => ?_⟩
  · exact (hperm.map _).trans (.of_eq (map_pick_indexed hN))
  · rw [List.pairwise_map]
    refine (lsd_pairwise 6 (indexed reqs)).imp_of_mem fun {kv kv'} hkv hkv' hle => ?_
    obtain ⟨hk, hmod⟩ := pick_key hN hoff (hperm.mem_iff.mp hkv)
    obtain ⟨hk', hmod'⟩ := pick_key hN hoff (hperm.mem_iff.mp hkv')
    rwa [hk, hk', ← hmod, ← hmod']
  · rw [filter_pick hN hoff (fun kv => hperm.mem_iff.mp), lsd_filter (by decide),
      ← filter_pick hN hoff fun _ h => h, map_pick_indexed hN]

omit hoff in
/-- The arrays, read through the sorted index, are those of the picked requests. -/
theorem lists_pick {s : Scratch} {buf : Buf}
    (hbuf : ∀ kv ∈ buf.pairs reqs.length, kv ∈ indexed reqs) :
    Lists ⟨buf.keys, buf.vals, (drain s reqs).nb, (drain s reqs).pc⟩
      ((buf.pairs reqs.length).map (pick reqs)) := by
  have hread : ∀ pos (h : pos < ((buf.pairs reqs.length).map (pick reqs)).length),
      ∃ i, ∃ hi : i < reqs.length, buf.keys pos = reqs[i].byteOffset ∧
      buf.vals pos = BitVec.ofNat 32 i ∧
        ((buf.pairs reqs.length).map (pick reqs))[pos] = reqs[i] := by
    intro pos h
    have hpos : pos < reqs.length := by simpa [Buf.pairs] using h
    obtain ⟨i, hi, hkv⟩ := mem_indexed (hbuf _ (List.mem_map_of_mem (List.mem_range.mpr hpos)))
    obtain ⟨hk, hv⟩ := Prod.mk.inj hkv
    refine ⟨i, hi, hk, hv, ?_⟩
    rw [List.getElem_map, ← pick_ofNat hN (buf.keys pos) hi, ← hv]
    simp [Buf.pairs, Buf.get]
  refine ⟨fun pos h => ?_, fun pos h => ?_, fun pos h => ?_⟩
  all_goals
    obtain ⟨i, hi, hk, hv, hpick⟩ := hread pos h
    rw [hpick]
  · exact hk
  · simp only [Batch.entry, hv]
    exact overlay_map hN _ _ hi
  · simp only [hv]
    exact overlay_map hN _ _ hi

omit hoff in
theorem sortPhase_perm (sort : SortVersion) (s : Scratch) :
    let S := (lsd (fun kv => kv.1.toNat) 256 6 (indexed reqs)).map (pick reqs)
    S.Perm reqs ∧ Lists (sortPhase sort (drain s reqs) reqs.length).batch S := by
  let buf := (sortPhase sort (drain s reqs) reqs.length).buf
  have hperm : (buf.pairs reqs.length).Perm (indexed reqs) :=
    pairs_sortPhase sort s reqs ▸ lsd_perm (by decide) 6 _
  rw [← pairs_sortPhase sort s]
  exact ⟨(hperm.map _).trans (.of_eq (map_pick_indexed hN)),
    lists_pick hN fun kv => hperm.mem_iff.mp⟩

theorem sortPhase_lists (sort : SortVersion) (s : Scratch) :
    ∃ S, StableOrder reqs S ∧ Lists (sortPhase sort (drain s reqs) reqs.length).batch S :=
  ⟨_, stableOrder_lsd hN hoff, (sortPhase_perm hN sort s).2⟩

end Sorting

section Storage
variable {pc : PageCache} {b : Batch} {S reqs : List IoRequest}

theorem uniform_of_lists (hppe : pc.pagesPerEntry ∣ 512) (hN : S.length ≤ 2^31) (hb : Lists b S)
    (hS : ∀ r ∈ S, r.nBytesLog2 = ioSchedEncodeNbytes (BitVec.ofNat 64 pc.pageSize)) :
    Uniform pc b S.length := by
  obtain ⟨j, hj, hpow⟩ := (Nat.dvd_prime_pow Nat.prime_two (m := 9)).mp hppe
  have hsize : pc.pageSize = 2^(12+j) := by
    rw [PageCache.pageSize, hpow, Nat.pow_add]
  have hcode := decode_encode (k := 12+j) (u := 1) rfl
    (by rw [Nat.mul_one]; exact Nat.pow_lt_pow_right (by decide) (by omega))
  refine ⟨hN, hppe, fun pos h => ?_⟩
  rw [Batch.size, hb.nb_eq pos h, hS _ (List.getElem_mem h), hsize]
  rwa [Nat.mul_one] at hcode

theorem aligned_of_lists (hppe : pc.pagesPerEntry ∣ 512) (hN : S.length ≤ 2^31) (hb : Lists b S)
    (hS : ∀ r ∈ S, Asks pc r) : Aligned pc b S.length := by
  refine ⟨uniform_of_lists hppe hN hb fun r hr => (hS r hr).size_eq, fun pos h => ?_,
    fun pos h => ?_⟩
  · rw [hb.keys_eq pos h]
    exact (hS _ (List.getElem_mem h)).offset_lt.trans (by decide)
  · rw [hb.keys_eq pos h]
    exact (hS _ (List.getElem_mem h)).offset_dvd

def pageOf (pc : PageCache) (resolve : BitVec 64 → Nat → BitVec 64) (r : IoRequest) :
    Nat × List (BitVec 64) :=
  (r.byteOffset.toNat, (List.range pc.pagesPerEntry).map (resolve r.pcEntry))

theorem map_pageAt (hb : Lists b S) (resolve : BitVec 64 → Nat → BitVec 64) :
    (List.range S.length).map (pageAt pc resolve b) = S.map (pageOf pc resolve) := by
  refine List.ext_getElem (by simp) fun pos h h' => ?_
  have hpos : pos < S.length := by simpa using h
  rw [List.getElem_map, List.getElem_map, List.getElem_range, pageAt, hb.keys_eq pos hpos,
    hb.entry_eq pos hpos, pageOf]

/-- A call with all groups of the sorted batch moves, for each request, the page it gets. -/
theorem pageWrites_perm {resolve : BitVec 64 → Nat → BitVec 64} {pool : PrpPool}
    {rest : Nat → BitVec 64}
    {blkLog : Nat} (ha : Aligned pc b S.length) (hblk : 2^blkLog ∣ pc.pageSize) (hb : Lists b S)
    (hperm : S.Perm reqs) {call : Call}
    (hcall : Submits pc resolve pool rest blkLog (groupsFrom pc b S.length 0) call) :
    (Call.pageWrites pool rest blkLog pc.pagesPerEntry call).Perm
    (reqs.map (pageOf pc resolve)) := by
  obtain ⟨hseg, hcover⟩ := segments_spec (isStart pc b S.length) (Nat.zero_le S.length)
    fun _ => isStart_zero
  rw [pageWrites_call ha hblk hseg hcall, hcover, Nat.sub_zero, ← List.range_eq_range',
    map_pageAt hb]
  exact hperm.map _

theorem pageOf_eq {resolve : BitVec 64 → Nat → BitVec 64} {r : IoRequest}
    (h : ∀ j < pc.pagesPerEntry, resolve r.pcEntry j = pc.address (entryOf r.pcEntry) j) :
    pageOf pc resolve r = requestPage pc r := by
  rw [pageOf, requestPage, requestPages]
  exact congrArg _ (List.map_congr_left fun j hj => h j (List.mem_range.mp hj))

theorem map_pageOf_subpage (hS : ∀ r ∈ S, Asks pc r) :
    S.map (pageOf pc pc.subpage) = S.map (requestPage pc) :=
  List.map_congr_left fun r hr => pageOf_eq fun _ hj => pc.subpage_eq (hS r hr).has hj

def covers (pc : PageCache) (r : IoRequest) (x : Nat) : Bool :=
  decide (r.byteOffset.toNat ≤ x ∧ x < r.byteOffset.toNat + pc.pageSize)

theorem overwrites_request (pc : PageCache) (ram : BitVec 64 → β) :
    Overwrites (covers pc) (writeRequest pc ram) := by
  have hlen : ∀ r : IoRequest, 4096 * (requestPages pc r).length = pc.pageSize := by
    intro r
    simp [requestPages, PageCache.pageSize]
  refine ⟨fun {r x} hx d => writePages_other ?_ d, fun {r x} hx d d' => writePages_at ?_ d d'⟩
  · have := of_decide_eq_false hx
    simp only [requestPage, hlen]
    omega
  · have := of_decide_eq_true hx
    simpa only [requestPage, hlen] using this

theorem covers_eq {r : IoRequest} (hr : Asks pc r) (x : Nat) :
    covers pc r x = (r.byteOffset.toNat == x / pc.pageSize * pc.pageSize) := by
  obtain ⟨q, hq⟩ := hr.offset_dvd
  have hpos := (pageSize_le pc).1
  have hx := Nat.div_add_mod x pc.pageSize
  have hmod := Nat.mod_lt x hpos
  rw [Nat.mul_comm] at hx
  rw [covers, Bool.eq_iff_iff, decide_eq_true_iff, beq_iff_eq]
  constructor
  · rintro ⟨hle, hlt⟩
    rw [hq] at hle hlt ⊢
    rw [Nat.div_eq_of_lt_le (by rwa [Nat.mul_comm]) (by rwa [Nat.succ_mul, Nat.mul_comm]),
      Nat.mul_comm]
  · intro h
    omega

theorem StableOrder.writes (h : StableOrder reqs S) (hreq : ∀ r ∈ reqs, Asks pc r)
    (ram : BitVec 64 → β) :
    applyAll (writeRequest pc ram) S = applyAll (writeRequest pc ram) reqs := by
  funext disk
  refine (overwrites_request pc ram).applyAll_congr (fun x => ?_) disk
  have hfilter : ∀ l : List IoRequest, (∀ r ∈ l, Asks pc r) →
      (l.filter fun r => covers pc r x) =
        l.filter fun r => r.byteOffset.toNat == x / pc.pageSize * pc.pageSize :=
    fun l hl => List.filter_congr fun r hr => covers_eq (hl r hr) x
  rw [hfilter reqs hreq, hfilter S fun r hr => hreq r (h.perm.mem_iff.mp hr)]
  exact h.stable _

end Storage

section Kernel
variable {pc : PageCache} {pool : PrpPool} {blkLog : Nat}

structure Serves (pc : PageCache) (pool : PrpPool) (rest : Nat → BitVec 64) (blkLog : Nat)
    (batch : List IoRequest × (BitVec 64 → β)) (calls : List Call) : Prop where
  moves : (calls.flatMap (Call.pageWrites pool rest blkLog pc.pagesPerEntry)).Perm
    (batch.1.map (requestPage pc))
  writes : applyAll (Call.exec pool rest batch.2 blkLog) calls =
    applyAll (writeRequest pc batch.2) batch.1

theorem writeBatch_calls (pool : PrpPool) (sort : SortVersion) (hppe : pc.pagesPerEntry ∣ 512)
    (h9 : 9 ≤ blkLog) (hblk : 2^blkLog ∣ pc.pageSize) (s : Scratch) {reqs S : List IoRequest}
    (hN : reqs.length ≤ 2^31) (hperm : S.Perm reqs) (hreq : ∀ r ∈ reqs, Asks pc r)
    (hlists : Lists (sortPhase sort (drain s reqs) reqs.length).batch S) (rest : Nat → BitVec 64) :
    ∃ s' calls b, writeBatch sort pc (some pool) blkLog s reqs = some (s', calls) ∧
      Lists b S ∧ Aligned pc b S.length ∧
      List.Forall₂ (Submits pc pc.subpage pool rest blkLog)
        (chunks kSchedKneeLimit (groupsFrom pc b S.length 0)) calls := by
  have hlen := hperm.length_eq
  have haligned := aligned_of_lists hppe (hlen ▸ hN) hlists fun r hr => hreq r (hperm.mem_iff.mp hr)
  obtain ⟨mem, calls, hrun, hcalls⟩ := parallelMerge_spec pool haligned.toUniform h9 hblk
    (sortPhase sort (drain s reqs) reqs.length).starts
    (sortPhase sort (drain s reqs) reqs.length).mem rest
  rw [hlen] at hrun
  simp only [writeBatch, hrun, Option.map_some]
  exact ⟨_, calls, _, rfl, hlists, haligned, hcalls⟩

/-- A batch: its requests in their stable order, and calls that move the groups of them. -/
theorem writeBatch_merges (pool : PrpPool) (sort : SortVersion) (hppe : pc.pagesPerEntry ∣ 512)
    (h9 : 9 ≤ blkLog) (hblk : 2^blkLog ∣ pc.pageSize) (s : Scratch) {reqs : List IoRequest}
    (hN : reqs.length ≤ 2^31) (hreq : ∀ r ∈ reqs, PageRequest pc r) (rest : Nat → BitVec 64) :
    ∃ s' calls b S, writeBatch sort pc (some pool) blkLog s reqs = some (s', calls) ∧
      StableOrder reqs S ∧ Lists b S ∧ Aligned pc b S.length ∧
      List.Forall₂ (Submits pc pc.subpage pool rest blkLog)
        (chunks kSchedKneeLimit (groupsFrom pc b S.length 0)) calls := by
  obtain ⟨S, hS, hlists⟩ := sortPhase_lists hN (fun r hr => (hreq r hr).digits) sort s
  obtain ⟨s', calls, b, hrun, hb, haligned, hcalls⟩ :=
    writeBatch_calls pool sort hppe h9 hblk s hN hS.perm
    (fun r hr => (hreq r hr).toAsks) hlists rest
  exact ⟨s', calls, b, S, hrun, hS, hb, haligned, hcalls⟩

theorem writeBatch_serves (pool : PrpPool) (sort : SortVersion) (hppe : pc.pagesPerEntry ∣ 512)
    (h9 : 9 ≤ blkLog) (hblk : 2^blkLog ∣ pc.pageSize) (s : Scratch)
    {batch : List IoRequest × (BitVec 64 → β)} (hN : batch.1.length ≤ 2^31)
    (hreq : ∀ r ∈ batch.1, PageRequest pc r) (rest : Nat → BitVec 64) :
    ∃ s' calls, writeBatch sort pc (some pool) blkLog s batch.1 = some (s', calls) ∧
      Serves pc pool rest blkLog batch calls := by
  obtain ⟨s', calls, b, S, hrun, hS, hlists, haligned, hcalls⟩ :=
    writeBatch_merges pool sort hppe h9 hblk s hN hreq rest
  obtain ⟨hmoves, hwrites⟩ := calls_spec (β := β) haligned hblk pc.subpage_aligned hcalls
  have hpages := map_pageOf_subpage fun r hr => (hreq r (hS.perm.mem_iff.mp hr)).toAsks
  rw [map_pageAt hlists, hpages] at hmoves hwrites
  refine ⟨s', calls, hrun, ?_, ?_⟩
  · rw [hmoves]
    exact hS.perm.map _
  · rw [hwrites, applyAll_map]
    exact hS.writes (fun r hr => (hreq r hr).toAsks) batch.2

/-- Every batch is served, whatever the ones before left in the device memory. -/
theorem writeKernel_serves (pool : PrpPool) (sort : SortVersion) (hppe : pc.pagesPerEntry ∣ 512)
    (h9 : 9 ≤ blkLog) (hblk : 2^blkLog ∣ pc.pageSize) (rest : Nat → BitVec 64) (s : Scratch)
    {batches : List (List IoRequest × (BitVec 64 → β))}
    (hreq : ∀ batch ∈ batches, batch.1.length ≤ 2^31 ∧ ∀ r ∈ batch.1, PageRequest pc r) :
    ∃ s' callss, writeKernel sort pc (some pool) blkLog s
    (batches.map Prod.fst) = some (s', callss) ∧
      List.Forall₂ (Serves pc pool rest blkLog) batches callss := by
  induction batches generalizing s with
  | nil => exact ⟨s, [], rfl, .nil⟩
  | cons batch batches ih =>
    obtain ⟨hN, hbatch⟩ := hreq batch List.mem_cons_self
    obtain ⟨s₁, calls, hrun, hserves⟩ := writeBatch_serves pool sort hppe h9 hblk s hN hbatch rest
    obtain ⟨s₂, callss, hrest, hall⟩ := ih s₁ fun x hx => hreq x (List.mem_cons_of_mem _ hx)
    refine ⟨s₂, calls :: callss, ?_, .cons hserves hall⟩
    rw [List.map_cons, writeKernel, hrun]
    simp only [Option.bind_eq_bind, Option.bind_some, hrest]
    rfl

theorem execCommands_eq {rest : Nat → BitVec 64} {batches : List (List IoRequest × (BitVec 64 → β))}
    {callss : List (List Call)} (h : List.Forall₂ (Serves pc pool rest blkLog) batches callss) :
    execCommands pool rest blkLog
    (callss.zip (batches.map Prod.snd)) = applyRequests pc batches := by
  funext disk
  induction h generalizing disk with
  | nil => rfl
  | @cons batch calls batches callss hserves _ ih =>
    change execCommands pool rest blkLog (callss.zip (batches.map Prod.snd))
      (applyAll (Call.exec pool rest batch.2 blkLog) calls disk) = _
    rw [hserves.writes, ih]
    rfl

theorem applyRequests_other {batches : List (List IoRequest × (BitVec 64 → β))} {x : Nat}
    (hx : ∀ batch ∈ batches, ∀ r ∈ batch.1, covers pc r x = false) (disk : Nat → β) :
    applyRequests pc batches disk x = disk x := by
  induction batches generalizing disk with
  | nil => rfl
  | cons batch batches ih =>
    change applyRequests pc batches (applyAll (writeRequest pc batch.2) batch.1 disk) x = _
    rw [ih fun b hb => hx b (List.mem_cons_of_mem _ hb)]
    exact (overwrites_request pc batch.2).applyAll_other (hx batch List.mem_cons_self) disk

/-- The commands of a run of the write kernel leave storage as the requests do one by one in
ring order. Every requested page is moved by exactly one command, and no other byte of
storage changes. -/
theorem writes_as_requested (pool : PrpPool) (sort : SortVersion) (hppe : pc.pagesPerEntry ∣ 512)
    (h9 : 9 ≤ blkLog) (hblk : 2^blkLog ∣ pc.pageSize) (rest : Nat → BitVec 64) (s : Scratch)
    {batches : List (List IoRequest × (BitVec 64 → β))}
    (hreq : ∀ batch ∈ batches, batch.1.length ≤ 2^31 ∧ ∀ r ∈ batch.1, PageRequest pc r) :
    ∃ s' callss, writeKernel sort pc (some pool) blkLog s
    (batches.map Prod.fst) = some (s', callss) ∧
      execCommands pool rest blkLog (callss.zip (batches.map Prod.snd)) = applyRequests pc batches ∧
      List.Forall₂ (fun batch calls =>
        (calls.flatMap (Call.pageWrites pool rest blkLog pc.pagesPerEntry)).Perm
          (batch.1.map (requestPage pc))) batches callss ∧
      ∀ disk x, (∀ batch ∈ batches, ∀ r ∈ batch.1, covers pc r x = false) →
        execCommands pool rest blkLog (callss.zip (batches.map Prod.snd)) disk x = disk x := by
  obtain ⟨s', callss, hrun, hserves⟩ := writeKernel_serves pool sort hppe h9 hblk rest s hreq
  refine ⟨s', callss, hrun, execCommands_eq hserves, hserves.imp fun _ _ h => h.moves, ?_⟩
  intro disk x hx
  rw [execCommands_eq hserves]
  exact applyRequests_other hx disk

end Kernel

def Scratch.zero : Scratch :=
  ⟨⟨fun _ => 0, fun _ => 0⟩, ⟨fun _ => 0, fun _ => 0⟩, fun _ => 0, fun _ => 0, fun _ => 0,
    fun _ => 0⟩

def twoRequests : List IoRequest :=
  [⟨4096#64, 1#64, 1#8, 12#8⟩, ⟨0#64, VictimPcEntryBit ||| 1#64, 1#8, 12#8⟩]

theorem twoRequests_page : ∀ r ∈ twoRequests, PageRequest .fourK r := by
  intro r hr
  simp only [twoRequests, List.mem_cons, List.not_mem_nil, or_false] at hr
  rcases hr with rfl | rfl
  · exact ⟨⟨by decide, by decide, by decide, show (1 : Nat) < 2^20 by decide⟩, by decide⟩
  · exact ⟨⟨by decide, by decide, by decide, show (1 : Nat) < 2^20 by decide⟩, by decide⟩

theorem twoRequests_written : ∃ s' callss,
    writeKernel .v2 .fourK (some .inOrder) 9 .zero [twoRequests] = some (s', callss) ∧
      execCommands .inOrder (fun _ => 0) 9 (callss.zip [BitVec.toNat]) =
        applyRequests .fourK [(twoRequests, BitVec.toNat)] := by
  have hreq : ∀ batch ∈ [(twoRequests, (BitVec.toNat : BitVec 64 → Nat))], batch.1.length ≤ 2^31 ∧
      ∀ r ∈ batch.1, PageRequest .fourK r := by
    intro batch hb
    obtain rfl := List.mem_singleton.mp hb
    exact ⟨by decide, twoRequests_page⟩
  obtain ⟨s', callss, hrun, hexec, -⟩ := writes_as_requested .inOrder .v2 (by decide)
    (show 9 ≤ 9 by decide) (by decide) (fun _ => 0) .zero hreq
  exact ⟨s', callss, hrun, hexec⟩

end Shaper.WriteScheduler
