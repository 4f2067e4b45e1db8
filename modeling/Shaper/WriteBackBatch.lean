import Shaper.WriteBack

/-! The submit phase of one batch: the groups cover the pages of its requests, and the calls of
a chunk have to move the bytes of those pages and no others. -/
namespace Shaper.WriteBack
open Function VictimBuffer Nvme PrpBuild Request Merge MergeEffect MergeScratch WriteScheduler
  ReadScheduler Lib.BucketSort Lib.Segments

variable {β : Type*} {u : Setup} {s : State β}

def groupPages (n : Nat) (g : Group) : List (Nat × BitVec 64) :=
  g.entries.mapIdx fun r pe => (g.offset.toNat + r*n, pe)

section Groups
variable {pc : PageCache} {b : Batch} {N : Nat}

theorem groupPages_group (ha : Aligned pc b N) {seg : Nat × Nat}
    (hs : Segment (isStart pc b N) N seg) : groupPages pc.pageSize (b.group seg.1 (seg.1+seg.2)) =
      (List.range' seg.1 seg.2).map fun pos => ((b.keys pos).toNat, b.entry pos) := by
  rw [groupPages, group_entries]
  refine List.ext_getElem (by simp) fun r hr _ => ?_
  have hr' : r < seg.2 := by simpa using hr
  simp only [List.getElem_mapIdx, List.getElem_map, List.getElem_range', Nat.one_mul,
    ha.key_run hs hr']
  rfl

theorem flatMap_groupPages (ha : Aligned pc b N) :
    (groupsFrom pc b N 0).flatMap (groupPages pc.pageSize) =
    (List.range N).map fun pos => ((b.keys pos).toNat, b.entry pos) := by
  obtain ⟨hseg, hcover⟩ := segments_spec (isStart pc b N) (Nat.zero_le N) fun _ => isStart_zero
  rw [groupsFrom, List.flatMap_map, List.flatMap_congr fun seg hs =>
    groupPages_group ha (hseg seg hs), ← List.map_flatMap, hcover,
    Nat.sub_zero, ← List.range_eq_range']

theorem offset_dvd_group (ha : Aligned pc b N) {g : Group} (hg : g ∈ groupsFrom pc b N 0) :
    pc.pageSize ∣ g.offset.toNat := by
  obtain ⟨seg, hs, rfl⟩ := List.mem_map.mp hg
  have hseg := (segments_spec (isStart pc b N) (Nat.zero_le N) fun _ => isStart_zero).1 seg hs
  have hle := hseg.le
  have hpos := hseg.pos
  exact ha.offset_dvd seg.1 (by omega)

/-- Within its array step 1b does what it does without a bound. -/
theorem splitIn_some {cap : Nat} {s st : (Nat → Nat) × Nat} (hcap : s.2 ≤ cap)
    (h : splitIn cap b N s = some st) : st = split b N s := by
  simp only [splitIn, resplitIn_eq (pieces b) hcap] at h
  rw [split]
  split at h
  · rename_i hzero
    rw [if_pos hzero]
    exact (Option.some.inj h).symm
  · rename_i hne
    rw [if_neg hne]
    split at h
    · exact (Option.some.inj h).symm
    · cases h

end Groups

section Moves
variable {pc : PageCache} {resolve : BitVec 64 → Nat → BitVec 64} {blkLog : Nat}
  {load : BitVec 64 → BitVec 64} {g : Group} {c : Command} {m : BitVec 64 × Nat}

theorem mem_pageMoves {q : Nat} {pe : BitVec 64} :
    m ∈ pageMoves (q, (List.range pc.pagesPerEntry).map (resolve pe)) ↔
    ∃ x < pc.pageSize, m = (byteAt (resolve pe (x/4096)) x, q + x) := by
  have hget : ∀ x < pc.pageSize, ((List.range pc.pagesPerEntry).map (resolve pe)).getD (x/4096) 0 =
      resolve pe (x/4096) := by
    intro x hx
    have hlt : x/4096 < pc.pagesPerEntry := Nat.div_lt_of_lt_mul hx
    rw [List.getD_eq_getElem _ _ (by simpa using hlt), List.getElem_map, List.getElem_range]
  simp only [pageMoves, List.mem_map, List.mem_range, List.length_map, List.length_range]
  constructor
  · rintro ⟨x, hx, rfl⟩
    exact ⟨x, hx, by rw [hget x hx, byteAt]⟩
  · rintro ⟨x, hx, rfl⟩
    exact ⟨x, hx, by rw [hget x hx, byteAt]⟩

theorem mem_byteMoves (hc : Carries pc resolve blkLog load g c) (hne : g.entries ≠ [])
    (hres : ∀ pe j, (resolve pe j).toNat % 4096 = 0) (hoff : 2^blkLog ∣ g.offset.toNat) :
    m ∈ c.byteMoves load blkLog ↔ ∃ page ∈ groupPages pc.pageSize g, ∃ x < pc.pageSize,
      m = (byteAt (resolve page.2 (x/4096)) x, page.1 + x) := by
  obtain ⟨hdvd, hbytes, halign⟩ := carries_whole hc hne hres
  have hfirst : c.firstByte blkLog = g.offset.toNat := by
    rw [Command.firstByte, hc.slba_eq, BitVec.toNat_ushiftRight, Nat.shiftRight_eq_div_pow]
    exact Nat.div_mul_cancel hoff
  have hwrites : Command.pageWrites load blkLog pc.pagesPerEntry c =
      (groupPages pc.pageSize g).map fun page =>
        (page.1, (List.range pc.pagesPerEntry).map (resolve page.2)) := by
    rw [Command.pageWrites, hc.pages_eq, chunks_entryPages pc.ppe_pos, hfirst, groupPages]
    refine List.ext_getElem (by simp) fun r _ _ => ?_
    simp only [List.getElem_mapIdx, List.getElem_map]
    rfl
  rw [byteMoves_eq pc.ppe_pos hdvd hbytes halign, hwrites, List.flatMap_map]
  simp only [List.mem_flatMap, mem_pageMoves]

theorem mem_flatMap_byteMoves (hres : ∀ pe j, (resolve pe j).toNat % 4096 = 0) {gs : List Group}
    {cmds : List Command}
    (h : List.Forall₂ (fun g c => (g.Ok pc resolve blkLog ∧ 2^blkLog ∣ g.offset.toNat) ∧
      Carries pc resolve blkLog load g c) gs cmds) :
    m ∈ cmds.flatMap (Command.byteMoves load blkLog) ↔ ∃ page ∈ gs.flatMap (groupPages pc.pageSize),
      ∃ x < pc.pageSize, m = (byteAt (resolve page.2 (x/4096)) x, page.1 + x) := by
  induction h with
  | nil => simp
  | cons hgc _ ih =>
    obtain ⟨⟨hok, hdvd⟩, hcarry⟩ := hgc
    rw [List.flatMap_cons, List.mem_append, List.flatMap_cons, ih,
      mem_byteMoves hcarry hok.fits.nonempty hres hdvd]
    simp only [List.mem_append, or_and_right, exists_or]

end Moves

theorem mem_calls {gs : List Group} {m : BitVec 64 × Nat}
    (hok : ∀ g ∈ gs, g.Ok u.cache (s.resolve u) u.blkLog)
    (hoff : ∀ g ∈ gs, 2^u.blkLog ∣ g.offset.toNat)
    (hres : ∀ pe j, (s.resolve u pe j).toNat % 4096 = 0) :
    m ∈ (s.calls u gs).flatten ↔ ∃ page ∈ (gs.take (u.chunkLen gs)).flatMap (groupPages u.bytes),
    ∃ x < u.bytes,
      m = (byteAt (s.resolve u page.2 (x/4096)) x, page.1 + x) := by
  have hmem : m ∈ (s.calls u gs).flatten ↔
      m ∈ (s.built u gs).2.flatMap (Command.byteMoves (u.load (s.built u gs).1) u.blkLog) := by
    rw [State.calls, ← List.flatMap_def, ← List.flatMap_assoc, List.flatMap_id',
      flatten_chunks (by decide)]
  rw [hmem]
  cases hpool : u.pool with
  | none =>
    have hzero : u.chunkLen gs = 0 := by
      rw [Setup.chunkLen, hpool]
      simp [poolSlots]
    rw [State.built, hzero]
    simp [buildGroups]
  | some pool =>
    have hlen : 0 + (gs.take (u.chunkLen gs)).length ≤ kSchedMaxBatch := by
      rw [Nat.zero_add, List.length_take, Setup.chunkLen]
      omega
    have hcarries := buildGroups_carries pool (fun g hg => hok g (List.mem_of_mem_take hg)) 0 hlen
      s.scratch.mem u.bus
    have hload : u.load = fun mem => pool.load mem u.bus := by
      funext mem
      rw [Setup.load, hpool]
    rw [State.built, hpool, hload]
    exact mem_flatMap_byteMoves hres ((List.forall₂_and_left _ _).mpr ⟨fun g hg =>
      ⟨hok g (List.mem_of_mem_take hg), hoff g (List.mem_of_mem_take hg)⟩, hcarries⟩)

theorem length_requests (s : State β) : s.requests.length = s.vic.ring.sched.acc := by
  rw [State.requests, List.length_map, List.length_range]

structure PageBatch (u : Setup) (s : State β) : Prop where
  room : s.vic.ring.sched.acc ≤ u.ring.capacity
  size_eq : ∀ r ∈ s.requests, r.nBytesLog2 = ioSchedEncodeNbytes (BitVec.ofNat 64 u.bytes)
  place : ∀ r ∈ s.requests, u.Place r.byteOffset

theorem PageBatch.aligned (h : PageBatch u s) (hpow : u.ppe ∣ 512) :
    Aligned u.cache (s.sorted u).batch s.vic.ring.sched.acc ∧
      ((List.range s.vic.ring.sched.acc).map fun pos =>
        (((s.sorted u).batch.keys pos).toNat, (s.sorted u).batch.entry pos)).Perm
        (s.requests.map fun r => (r.byteOffset.toNat, r.pcEntry)) := by
  have hlen := length_requests s
  have hN : s.requests.length ≤ 2^31 := by
    rw [hlen]
    exact h.room.trans (RingInvariant.capacity_le u.ring)
  obtain ⟨hperm, hlists⟩ := sortPhase_perm hN u.sort s.scratch
  generalize (lsd (fun kv => kv.1.toNat) 256 6 (indexed s.requests)).map (pick s.requests) =
    S at hperm hlists
  rw [hlen] at hlists
  change Lists (s.sorted u).batch S at hlists
  have hlenS : S.length = s.vic.ring.sched.acc := hperm.length_eq.trans hlen
  have huniform : Uniform u.cache (s.sorted u).batch S.length :=
    uniform_of_lists hpow (hperm.length_eq ▸ hN) hlists fun r hr => h.size_eq r (hperm.mem_iff.1 hr)
  rw [hlenS] at huniform
  refine ⟨⟨huniform, fun pos hpos => ?_, fun pos hpos => ?_⟩, ?_⟩
  · rw [hlists.keys_eq pos (hlenS ▸ hpos)]
    exact (h.place _ (hperm.mem_iff.1 (List.getElem_mem _))).lt
  · rw [hlists.keys_eq pos (hlenS ▸ hpos)]
    exact (h.place _ (hperm.mem_iff.1 (List.getElem_mem _))).dvd
  · refine (List.Perm.of_eq ?_).trans (hperm.map fun r => (r.byteOffset.toNat, r.pcEntry))
    refine List.ext_getElem (by simp [hlenS]) fun pos hpos _ => ?_
    have hlt : pos < S.length := by simpa [hlenS] using hpos
    rw [List.getElem_map, List.getElem_range, List.getElem_map, hlists.keys_eq pos hlt,
      hlists.entry_eq pos hlt]

def Whole (u : Setup) (g : Group) : Prop :=
  2^u.blkLog ∣ g.offset.toNat ∧ ∀ resolve : BitVec 64 → Nat → BitVec 64,
    (∀ pe j, (resolve pe j).toNat % 4096 = 0) → g.Ok u.cache resolve u.blkLog

theorem PageBatch.groups (h : PageBatch u s) (hpow : u.ppe ∣ 512) {st : (Nat → Nat) × Nat}
    (hst : s.starts u = some st) :
    ((s.groupsAt u st).flatMap (groupPages u.bytes)).Perm
    (s.requests.map fun r => (r.byteOffset.toNat, r.pcEntry)) ∧
      ∀ g ∈ s.groupsAt u st, Whole u g := by
  obtain ⟨ha, hperm⟩ := h.aligned hpow
  have hcount : (detect ((s.sorted u).batch.isBoundary s.vic.ring.sched.acc) s.vic.ring.sched.acc
      (s.sorted u).starts).2 ≤ u.ring.capacity := by
    rw [detect_snd fun _ hb => (s.sorted u).batch.isBoundary_lt hb]
    exact (List.countP_le_length.trans_eq List.length_range).trans h.room
  have hgroups :
    s.groupsAt u st = groupsFrom u.cache (s.sorted u).batch s.vic.ring.sched.acc 0 := by
    rw [State.groupsAt, splitIn_some hcount hst, ← ha.toUniform.groups_eq (s.sorted u).starts]
    rfl
  rw [hgroups]
  refine ⟨(List.Perm.of_eq (flatMap_groupPages ha)).trans hperm,
    fun g hg => ⟨?_, fun resolve hres => ?_⟩⟩
  · exact u.block_dvd.trans (offset_dvd_group ha hg)
  · exact ha.toUniform.groupsFrom_ok hres u.block_le u.block_dvd (Nat.zero_le _)
      (fun _ => isStart_zero) g hg

end Shaper.WriteBack
