import Shaper.ReadScheduler

/-! The loop that submits the groups of a batch chunk by chunk, with the fields of the PRP
pool that `io_sched_create` leaves in the queue on each of its paths. -/
namespace Shaper.ChunkLoop
open Lib.BucketSort Lib.Segments Request PrpBuild Merge KeySort ReadScheduler

/-- A table pointer of the queue: null, a table of `kSchedMaxBatch` list pages, or an address
at which the queue owns nothing. -/
inductive Table where
  | null
  | pages
  | wild
  deriving DecidableEq

structure PoolFields where
  vaddr : Table
  ioaddr : Table
  nSlots : BitVec 32

/-- What becomes of the PRP pool in `io_sched_create`: whether its memory is allocated and
mapped, whether the copies of its two tables are, and what the queue's memory held before. -/
structure Allocation where
  allocated : Bool
  mapped : Bool
  vaCopied : Bool
  ioCopied : Bool
  leftover : PoolFields

def poolFields (e : Allocation) : PoolFields :=
  if e.allocated then
    if e.mapped then
      ⟨if e.vaCopied then .pages else .null, if e.ioCopied then .pages else .null,
        BitVec.ofNat 32 kSchedMaxBatch⟩
    else ⟨.null, .null, 0#32⟩
  -- this branch only reports the failure and writes no field
  else e.leftover

/-- The pointers of a group are built without an access outside the pool and its tables. A
list page that runs over goes on in the next one, and behind the last one out of the pool. -/
def builds (f : PoolFields) (ppe slot : Nat) (g : Group) : Bool :=
  let totalSubpages := g.entries.length * ppe % 2^32
  if totalSubpages ≤ 2 then true
  else match f.vaddr with
    | .null => true
    | .wild => false
    | .pages => decide (512*slot + ((ppe-1) + (g.entries.length-1)*ppe) ≤ 512*kSchedMaxBatch) &&
        decide (f.ioaddr = .pages)

def kSchedReadSubmitThreads : Nat := 32

def kneeRounds (chunk : Nat) : List (Nat × Nat) :=
  (List.range ((chunk + kSchedKneeLimit - 1) / kSchedKneeLimit)).map fun k =>
    (kSchedKneeLimit*k, min (chunk - kSchedKneeLimit*k) kSchedKneeLimit)

def writeChunk (chunk : Nat) : List Nat :=
  (kneeRounds chunk).flatMap fun s => (List.range s.2).map (s.1 + ·)

def readChunk (chunk : Nat) : List Nat :=
  (kneeRounds chunk).flatMap fun s => (List.range kSchedReadSubmitThreads).flatMap fun tid =>
    ((List.range s.2).filter fun gg => gg % kSchedReadSubmitThreads == tid).map (s.1 + ·)

/-- `while (gpos < n)`, at most so many rounds, where `built` tells of a slot and a group
whether the body gets through; the groups submitted, or `none` when the loop is not over by
then or the body has left its memory. -/
def chunkLoop (slots : Nat) (built : Nat → Nat → Bool) (submitChunk : Nat → List Nat) (n : Nat) :
    Nat → Nat → Option (List Nat)
  | 0, gpos => if gpos < n then none else some []
  | fuel+1, gpos =>
    if gpos < n then
      let chunk := min (min (n - gpos) slots) kSchedMaxBatch
      if (List.range chunk).all fun g => built g (gpos + g) then
        (chunkLoop slots built submitChunk n fuel (gpos + chunk)).map
          ((submitChunk chunk).map (gpos + ·) ++ ·)
      else none
    else some []

def buildsAt (f : PoolFields) (ppe : Nat) (gs : List Group) (slot k : Nat) : Bool :=
  (gs[k]?).all (builds f ppe slot)

def Finishes (f : PoolFields) (ppe : Nat) (submitChunk : Nat → List Nat) (gs : List Group) : Prop :=
  ∃ fuel out, chunkLoop f.nSlots.toNat (buildsAt f ppe gs) submitChunk gs.length fuel 0 = some out ∧
    out.Perm (List.range gs.length)

/-- The loop of the model of the kernels is over when this one is. -/
theorem submit_isSome {pc : PageCache} {resolve : BitVec 64 → Nat → BitVec 64}
    {pool : Option PrpPool}
    {blkLog n fuel gpos : Nat} {gs : List Group} (hgs : gs.length = n - gpos)
    (mem : Nat → BitVec 64)
    (submitChunk : Nat → List Nat) : (submit pc resolve pool blkLog fuel gs mem).isSome =
      (chunkLoop (poolSlots pool) (fun _ _ => true) submitChunk n fuel gpos).isSome := by
  induction fuel generalizing gs gpos mem with
  | zero =>
    rw [submit, chunkLoop]
    by_cases h : gpos < n
    · have hne : gs ≠ [] := List.length_pos_iff.mp (by omega)
      rw [if_pos h, if_neg hne]
      rfl
    · have hnil : gs = [] := List.length_eq_zero_iff.mp (by omega)
      rw [if_neg h, if_pos hnil]
      rfl
  | succ fuel ih =>
    rw [submit, chunkLoop]
    by_cases h : gpos < n
    · have hne : gs ≠ [] := List.length_pos_iff.mp (by omega)
      rw [if_pos h, if_neg hne]
      have hall : ∀ chunk, ((List.range chunk).all fun _ => true) = true := fun _ => by simp
      simp only [hall, if_true, Option.isSome_map, hgs]
      refine ih ?_ _
      rw [List.length_drop, hgs]
      omega
    · have hnil : gs = [] := List.length_eq_zero_iff.mp (by omega)
      rw [if_neg h, if_pos hnil]
      rfl

theorem kneeRounds_cover (chunk : Nat) :
    (kneeRounds chunk).flatMap (fun s => List.range' s.1 s.2) = List.range chunk := by
  have hflat := flatten_chunks (show 0 < kSchedKneeLimit by decide) (List.range chunk)
  rw [← hflat, chunks, List.length_range, kneeRounds, List.flatMap_map, ← List.flatMap_def]
  refine List.flatMap_congr fun k _ => ?_
  refine List.ext_getElem ?_ fun i h₁ h₂ => ?_
  · rw [List.length_range', List.length_take, List.length_drop, List.length_range, Nat.min_comm]
  · rw [List.getElem_range', List.getElem_take, List.getElem_drop, List.getElem_range, Nat.one_mul]

theorem writeChunk_eq (chunk : Nat) : writeChunk chunk = List.range chunk := by
  rw [writeChunk, ← kneeRounds_cover]
  refine List.flatMap_congr fun s _ => ?_
  rw [List.range'_eq_map_range]

theorem readChunk_perm (chunk : Nat) : (readChunk chunk).Perm (List.range chunk) := by
  rw [← writeChunk_eq]
  refine List.Perm.flatMap_left _ fun s _ => ?_
  have hbuckets : ((List.range kSchedReadSubmitThreads).flatMap fun tid =>
      ((List.range s.2).filter fun gg => gg % kSchedReadSubmitThreads == tid).map (s.1 + ·)) =
      (bucketSort (· % kSchedReadSubmitThreads) kSchedReadSubmitThreads (List.range s.2)).map
      (s.1 + ·) := by
    rw [bucketSort, List.map_flatMap]
  rw [hbuckets]
  exact (perm_bucketSort fun gg _ => Nat.mod_lt gg (by decide)).map _

section
variable {slots n : Nat} {built : Nat → Nat → Bool} {submitChunk : Nat → List Nat}

theorem chunkLoop_stuck {gpos : Nat} (h : gpos < n) (fuel : Nat) :
    chunkLoop 0 built submitChunk n fuel gpos = none := by
  induction fuel with
  | zero => exact if_pos h
  | succ fuel ih =>
    rw [chunkLoop, if_pos h]
    simp only [Nat.min_zero, Nat.zero_min, Nat.add_zero, ih]
    rfl

/-- A loop that ends has submitted every group once, whatever the size of its chunks. -/
theorem chunkLoop_perm (hchunk : ∀ chunk, (submitChunk chunk).Perm (List.range chunk))
    {fuel gpos : Nat} {out : List Nat}
    (h : chunkLoop slots built submitChunk n fuel gpos = some out) :
    out.Perm (List.range' gpos (n - gpos)) := by
  induction fuel generalizing gpos out with
  | zero =>
    rw [chunkLoop] at h
    split at h <;> cases h
    rw [show n - gpos = 0 by omega]
    exact List.Perm.nil
  | succ fuel ih =>
    rw [chunkLoop] at h
    split at h
    · generalize hc : min (min (n - gpos) slots) kSchedMaxBatch = chunk at h
      simp only at h
      split at h
      · obtain ⟨rest, hrest, rfl⟩ := Option.map_eq_some_iff.mp h
        have hfirst := (hchunk chunk).map (gpos + ·)
        rw [← List.range'_eq_map_range] at hfirst
        have hsplit : n - gpos = chunk + (n - (gpos + chunk)) := by omega
        rw [hsplit, ← List.range'_append_1]
        exact hfirst.append (ih hrest)
      · cases h
    · cases h
      rw [show n - gpos = 0 by omega]
      exact List.Perm.nil

/-- The slot of a group is its place in its chunk, and all chunks but the last are full. -/
theorem slot_mod {slots gpos g : Nat} (hdvd : slots ∣ gpos) (hg : g < slots) :
    (gpos + g) % slots = g := by
  obtain ⟨q, rfl⟩ := hdvd
  rw [Nat.mul_add_mod, Nat.mod_eq_of_lt hg]

theorem chunkLoop_isSome (submitChunk : Nat → List Nat) (hslots : slots ≠ 0) {fuel gpos : Nat}
    (hfuel : n ≤ gpos + fuel) (hpos : min slots kSchedMaxBatch ∣ gpos ∨ n ≤ gpos) :
    (chunkLoop slots built submitChunk n fuel gpos).isSome = true ↔
      ∀ k, gpos ≤ k → k < n → built (k % min slots kSchedMaxBatch) k = true := by
  induction fuel generalizing gpos with
  | zero =>
    rw [chunkLoop, if_neg (by omega)]
    exact iff_of_true rfl fun k hk hn => absurd hn (by omega)
  | succ fuel ih =>
    by_cases h : gpos < n
    swap
    · rw [chunkLoop, if_neg h]
      exact iff_of_true rfl fun k hk hn => absurd hn (by omega)
    have hdvd := hpos.resolve_right (by omega)
    rw [chunkLoop, if_pos h]
    simp only [Nat.min_assoc (n - gpos)]
    generalize hc : min slots kSchedMaxBatch = c at hdvd ih ⊢
    have hcpos : 0 < c := by
      simp only [kSchedMaxBatch] at hc
      omega
    have hnext : c ∣ gpos + min (n - gpos) c ∨ n ≤ gpos + min (n - gpos) c := by
      rcases Nat.le_total c (n - gpos) with hle | hle
      · rw [Nat.min_eq_right hle]
        exact .inl ((Nat.dvd_add_right hdvd).mpr dvd_rfl)
      · exact .inr (by omega)
    have hrest := @ih (gpos + min (n - gpos) c) (by omega) hnext
    have hslot : ∀ g < min (n - gpos) c, (gpos + g) % c = g := fun g hg =>
      slot_mod hdvd (by omega)
    split
    · rename_i hall
      have hall : ∀ g < min (n - gpos) c, built g (gpos + g) = true := by simpa using hall
      rw [Option.isSome_map, hrest]
      constructor
      · intro hk k hle hlt
        rcases Nat.lt_or_ge k (gpos + min (n - gpos) c) with hin | hout
        · obtain ⟨g, rfl⟩ := Nat.exists_eq_add_of_le hle
          rw [hslot g (by omega)]
          exact hall g (by omega)
        · exact hk k hout hlt
      · exact fun hk k hle hlt => hk k (by omega) hlt
    · rename_i hall
      refine iff_of_false (by simp) fun hk => hall (List.all_eq_true.mpr fun g hg => ?_)
      have hg := List.mem_range.mp hg
      have := hk (gpos + g) (by omega) (by omega)
      rwa [hslot g hg] at this

theorem chunkLoop_mono {fuel gpos : Nat} {out : List Nat}
    (h : chunkLoop slots built submitChunk n fuel gpos = some out) (more : Nat) :
    chunkLoop slots built submitChunk n (fuel + more) gpos = some out := by
  induction fuel generalizing gpos out with
  | zero =>
    rw [chunkLoop] at h
    split at h <;> cases h
    rename_i hge
    cases more with
    | zero => exact if_neg hge
    | succ more => exact if_neg hge
  | succ fuel ih =>
    rw [chunkLoop] at h
    rw [Nat.add_right_comm, chunkLoop]
    split at h
    · rename_i hlt
      rw [if_pos hlt]
      simp only at h ⊢
      split at h
      · rename_i hall
        obtain ⟨rest, hrest, rfl⟩ := Option.map_eq_some_iff.mp h
        rw [if_pos hall, ih hrest]
        rfl
      · cases h
    · rename_i hge
      rw [if_neg hge]
      exact h

end

theorem finishes_iff {f : PoolFields} {ppe : Nat} {submitChunk : Nat → List Nat} {gs : List Group}
    (hchunk : ∀ chunk, (submitChunk chunk).Perm (List.range chunk)) (hn : 0 < gs.length) :
    Finishes f ppe submitChunk gs ↔ f.nSlots ≠ 0#32 ∧
      ∀ k g, gs[k]? = some g → builds f ppe (k % min f.nSlots.toNat kSchedMaxBatch) g = true := by
  by_cases hzero : f.nSlots = 0#32
  · refine iff_of_false ?_ fun h => h.1 hzero
    rintro ⟨fuel, out, hout, -⟩
    rw [show f.nSlots.toNat = 0 from congrArg BitVec.toNat hzero, chunkLoop_stuck hn] at hout
    cases hout
  have hslots : f.nSlots.toNat ≠ 0 := fun h => hzero (BitVec.eq_of_toNat_eq h)
  have hall : (∀ k, 0 ≤ k → k < gs.length →
      buildsAt f ppe gs (k % min f.nSlots.toNat kSchedMaxBatch) k = true) ↔
      ∀ k g, gs[k]? = some g → builds f ppe (k % min f.nSlots.toNat kSchedMaxBatch) g = true := by
    refine forall_congr' fun k => ⟨fun h g hg => ?_, fun h _ hk => ?_⟩
    · obtain ⟨hk, -⟩ := List.getElem?_eq_some_iff.mp hg
      have := h (Nat.zero_le k) hk
      rwa [buildsAt, hg] at this
    · rw [buildsAt, List.getElem?_eq_getElem hk]
      exact h _ (List.getElem?_eq_getElem hk)
  rw [← hall, and_iff_right hzero]
  constructor
  · rintro ⟨fuel, out, hout, -⟩
    refine (chunkLoop_isSome submitChunk hslots (show gs.length ≤ 0 + (fuel + gs.length) by omega)
      (.inl (dvd_zero _))).mp ?_
    rw [chunkLoop_mono hout]
    rfl
  · intro h
    have hsome := (chunkLoop_isSome submitChunk hslots (show gs.length ≤ 0 + gs.length by omega)
      (.inl (dvd_zero _))).mpr h
    obtain ⟨out, hout⟩ := Option.isSome_iff_exists.mp hsome
    have hperm := chunkLoop_perm hchunk hout
    rw [Nat.sub_zero, ← List.range_eq_range'] at hperm
    exact ⟨gs.length, out, hout, hperm⟩

def Small (ppe : Nat) (g : Group) : Prop := g.entries.length * ppe % 2^32 ≤ 2

instance (ppe : Nat) (g : Group) : Decidable (Small ppe g) := inferInstanceAs (Decidable (_ ≤ _))

/-- The list of a group that stands at a place of the pool ends in the pool. -/
def EndsInPool (ppe slot : Nat) (g : Group) : Prop :=
  512*slot + ((ppe-1) + (g.entries.length-1)*ppe) ≤ 512*kSchedMaxBatch

/-- What each outcome of `io_sched_create` asks of the groups of a batch. -/
def Usable (e : Allocation) (ppe : Nat) (gs : List Group) : Prop :=
  match e.allocated, e.mapped with
  | true, true => e.vaCopied = false ∨ ∀ k g, gs[k]? = some g →
      Small ppe g ∨ e.ioCopied = true ∧ EndsInPool ppe (k % kSchedMaxBatch) g
  | true, false => False
  | false, _ => e.leftover.nSlots ≠ 0#32 ∧ (e.leftover.vaddr = .null ∨ ∀ k g, gs[k]? = some g →
      Small ppe g ∨ e.leftover.vaddr = .pages ∧ e.leftover.ioaddr = .pages ∧
        EndsInPool ppe (k % min e.leftover.nSlots.toNat kSchedMaxBatch) g)

theorem builds_iff (f : PoolFields) (ppe slot : Nat) (g : Group) :
    builds f ppe slot g = true ↔ f.vaddr = .null ∨ Small ppe g ∨
      f.vaddr = .pages ∧ f.ioaddr = .pages ∧ EndsInPool ppe slot g := by
  unfold builds Small EndsInPool
  simp only
  split
  · rename_i h
    exact iff_of_true rfl (.inr (.inl h))
  · rename_i h
    split <;> rename_i hv <;>
      simp only [hv, h, reduceCtorEq, false_or, false_and, true_or, true_and, Bool.and_eq_true,
        decide_eq_true_eq, and_comm, Bool.false_eq_true]

theorem usable_iff (e : Allocation) (ppe : Nat) (gs : List Group) :
    ((poolFields e).nSlots ≠ 0#32 ∧ ∀ k g, gs[k]? = some g →
      builds (poolFields e) ppe (k % min (poolFields e).nSlots.toNat kSchedMaxBatch) g = true) ↔
      Usable e ppe gs := by
  simp only [builds_iff]
  unfold poolFields Usable
  cases e.allocated with
  | false =>
    simp only [Bool.false_eq_true, if_false]
    refine and_congr_right fun _ => ?_
    by_cases hv : e.leftover.vaddr = .null
    · simp [hv]
    · simp [hv]
  | true =>
    cases e.mapped with
    | false => simp
    | true =>
      have hslots : (BitVec.ofNat 32 kSchedMaxBatch).toNat = kSchedMaxBatch := by decide
      have hne : BitVec.ofNat 32 kSchedMaxBatch ≠ 0#32 := by decide
      simp only [if_true, hslots, Nat.min_self, ne_eq, hne, not_false_iff, true_and]
      cases e.vaCopied <;> cases e.ioCopied <;> simp

theorem groups_length_pos (b : Batch) {N : Nat} (hN : 0 < N) (starts : Nat → Nat) :
    0 < (groups b N starts).length := by
  have hzero : isGroupStart b N 0 = true := isGroupStart_zero
  rw [groups_eq, List.length_map, (segments_cons hN hzero).1]
  exact Nat.succ_pos _

/-- For a batch with requests in it, the loop of either kernel ends with every group
submitted once just if what `io_sched_create` left in the queue can carry its groups. -/
theorem chunk_loop_finishes_iff (e : Allocation) (ppe : Nat) (starts : Nat → Nat) :
    (∀ (b : Batch) (N : Nat), 0 < N →
      (Finishes (poolFields e) ppe writeChunk (groups b N starts) ↔
        Usable e ppe (groups b N starts))) ∧
    ∀ (sh : Shared) (batch : Nat), 0 < batch → (∀ pos < batch, sh.keys pos ≠ keyMax) →
      (Finishes (poolFields e) ppe readChunk (readGroups sh batch starts) ↔
        Usable e ppe (readGroups sh batch starts)) := by
  constructor
  · intro b N hN
    rw [finishes_iff (fun chunk => List.Perm.of_eq (writeChunk_eq chunk))
      (groups_length_pos b hN starts)]
    exact usable_iff e ppe _
  · intro sh batch hbatch hkeys
    rw [readGroups_groups hkeys,
      finishes_iff readChunk_perm (groups_length_pos sh.batch hbatch starts)]
    exact usable_iff e ppe _

def onePage : Shared := ⟨fun _ => 0#64, fun _ => 12#8, fun _ => 0#64⟩

def untouched : PoolFields := ⟨.null, .null, 0#32⟩

theorem one_page_finishes :
    Finishes (poolFields ⟨true, true, true, true, untouched⟩) 1 writeChunk
        (groups onePage.batch 1 fun _ => 0) ∧
      Finishes (poolFields ⟨true, true, true, true, untouched⟩) 1 readChunk
        (readGroups onePage 1 fun _ => 0) := by
  obtain ⟨hwrite, hread⟩ := chunk_loop_finishes_iff ⟨true, true, true, true, untouched⟩ 1 fun _ => 0
  have hsmall : ∀ g ∈ groups onePage.batch 1 fun _ => 0, Small 1 g := by decide
  have hsmall' : ∀ g ∈ readGroups onePage 1 fun _ => 0, Small 1 g := by decide
  exact ⟨(hwrite _ 1 Nat.one_pos).mpr
      (.inr fun k g hg => .inl (hsmall g (List.mem_of_getElem? hg))),
    (hread _ 1 Nat.one_pos (by decide)).mpr
      (.inr fun k g hg => .inl (hsmall' g (List.mem_of_getElem? hg)))⟩

/-- When the pool cannot be mapped, the loop of either kernel never ends, for one request
already. -/
theorem unmapped_pool_never_ends :
    ¬ Finishes (poolFields ⟨true, false, false, false, untouched⟩) 1 writeChunk
        (groups onePage.batch 1 fun _ => 0) ∧
      ¬ Finishes (poolFields ⟨true, false, false, false, untouched⟩) 1 readChunk
        (readGroups onePage 1 fun _ => 0) := by
  have hkeys : ∀ pos < 1, onePage.keys pos ≠ keyMax := by decide
  have hpos : 0 < (groups onePage.batch 1 fun _ => 0).length := groups_length_pos _ Nat.one_pos _
  rw [readGroups_groups hkeys]
  constructor
  · rintro ⟨fuel, out, hout, -⟩
    cases hout.symm.trans (chunkLoop_stuck hpos fuel)
  · rintro ⟨fuel, out, hout, -⟩
    cases hout.symm.trans (chunkLoop_stuck hpos fuel)

end Shaper.ChunkLoop
