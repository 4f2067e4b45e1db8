import Shaper.ChunkLoop
import Shaper.Lib.Exec
import Shaper.RingRuns

/-! The opcode of a request on its way through a scheduler: it is stored in the ring and
left there by the drain, and the commands get that of the kernel. -/
namespace Shaper.Opcodes
open Lib.Exec Lib.Segments Nvme PrpBuild Merge Request WriteScheduler KeySort ReadScheduler
  ChunkLoop
open RingMachine (Kernel Ring State Reach Act)
open RingInvariant (cell)

def nvmIoWrite : BitVec 8 := 0x01#8

def nvmIoRead : BitVec 8 := 0x02#8

/-- What `sched_write_batch_merged` and `write_data_merged_no_second`, or their read
counterparts, pass to `nvm_cmd_header`. -/
def kernelOpcode : Kernel → BitVec 8
  | .write => nvmIoWrite
  | .read => nvmIoRead

structure Issued where
  opcode : BitVec 8
  command : Command
  requests : List Nat

structure Env where
  sort : SortVersion
  pc : PageCache
  pool : Option PrpPool
  blkLog : Nat
  scratch : Scratch
  shared : Shared

def writeBounds (b : Batch) (N : Nat) (starts : Nat → Nat) : List (Nat × Nat) :=
  let s := split b N (detect (b.isBoundary N) N starts)
  (List.range s.2).map fun i => (s.1 i, endOf s.1 s.2 N i)

def readBounds (sh : Shared) (batch : Nat) (starts : Nat → Nat) : List (Nat × Nat) :=
  let s := readSplit sh batch (detect (readBoundary sh batch) batch starts)
  (List.range s.2).map fun i => (s.1 i, trimEnd sh (s.1 i) (endOf s.1 s.2 batch i))

def members (b : Batch) (g : Nat × Nat) : List Nat :=
  (List.range' g.1 (g.2 - g.1)).map fun pos => (b.vals pos).toNat

def label (opcode : BitVec 8) (out : Option ((Nat → BitVec 64) × List Call))
    (members : List (List Nat)) : List Issued :=
  match out with
  | none => []
  | some (_, calls) => List.zipWith (Issued.mk opcode) (calls.flatMap Call.commands) members

def issued (k : Kernel) (e : Env) (reqs : List IoRequest) : List Issued :=
  let N := reqs.length
  match k with
  | .write =>
    let b := (sortPhase e.sort (drain e.scratch reqs) N).batch
    label (kernelOpcode k) (parallelMerge e.pc e.pool e.blkLog b N e.scratch.starts e.scratch.mem)
      ((writeBounds b N e.scratch.starts).map (members b))
  | .read =>
    let sh := sortShared (loadShared e.shared reqs)
    label (kernelOpcode k)
      (readBatch e.pc e.pool e.blkLog e.shared reqs e.scratch.starts e.scratch.mem)
      ((readBounds sh N e.scratch.starts).map (members sh.batch))

def batchRequests (s : State) : List IoRequest :=
  (List.range s.sched.acc).map fun i =>
    let d := s.sched.buf i
    ⟨d.byteOffset, d.pcEntry, 0#8, d.nBytesLog2⟩

def OwnOpcodes (r : Ring) (e : Env) (s : State) : Prop :=
  ∀ c ∈ issued r.kernel e (batchRequests s), ∀ i ∈ c.requests,
    c.opcode = (s.entries (cell r (s.retired+i))).opcode

section Cover
variable {b : Batch} {sh : Shared} {N : Nat}

theorem writeBounds_eq (b : Batch) (N : Nat) (starts : Nat → Nat) : writeBounds b N starts =
    (segments (isGroupStart b N) N 0).map fun s => (s.1, s.1+s.2) := by
  exact segments_array (fun _ => isGroupStart_zero) (contents_starts b N starts)

/-- The groups take the positions of the batch one after another. -/
theorem writeBounds_members (b : Batch) (N : Nat) (starts : Nat → Nat) :
    ((writeBounds b N starts).map (members b)).flatten =
      (List.range N).map fun pos => (b.vals pos).toNat := by
  have hcover := (segments_spec (isGroupStart b N) (Nat.zero_le N) fun _ => isGroupStart_zero).2
  rw [Nat.sub_zero, ← List.range_eq_range'] at hcover
  rw [← hcover, List.map_flatMap, writeBounds_eq, List.map_map, ← List.flatMap_def]
  refine List.flatMap_congr fun s _ => ?_
  rw [Function.comp_apply, members, Nat.add_sub_cancel_left]

theorem groups_writeBounds (b : Batch) (N : Nat) (starts : Nat → Nat) :
    groups b N starts = (writeBounds b N starts).map fun g => b.group g.1 g.2 := by
  rw [groups, writeBounds, List.map_map]
  rfl

theorem readBounds_eq (hkeys : ∀ pos < N, sh.keys pos ≠ keyMax) (starts : Nat → Nat) :
    readBounds sh N starts = writeBounds sh.batch N starts := by
  have hdetect := contents_detect (fun _ h => sh.batch.isBoundary_lt (N := N) h) starts
  have hstarts := contents_starts sh.batch N starts
  rw [← List.range_eq_range'] at hstarts
  simp only [readBounds, writeBounds, readBoundary_eq hkeys, readSplit_eq hkeys fun i hi =>
    endOf_spec hdetect hi]
  refine List.map_congr_left fun i hi => ?_
  rw [trimEnd_eq hkeys _ (endOf_spec hstarts (List.mem_range.mp hi)).2]

end Cover

section Submit
variable {pc : PageCache} {resolve : BitVec 64 → Nat → BitVec 64} {pool : Option PrpPool}
  {blkLog : Nat}

theorem length_buildGroups (slot : Nat) (gs : List Group) (mem : Nat → BitVec 64) :
    (buildGroups pc resolve pool blkLog slot gs mem).2.length = gs.length := by
  induction gs generalizing slot mem with
  | nil => rfl
  | cons g gs ih => rw [buildGroups, List.length_cons, List.length_cons, ih]

theorem length_submit {fuel : Nat} {gs : List Group} {mem last : Nat → BitVec 64}
    {calls : List Call} (h : submit pc resolve pool blkLog fuel gs mem = some (last, calls)) :
    (calls.flatMap Call.commands).length = gs.length := by
  induction fuel generalizing gs mem calls with
  | zero =>
    rw [submit] at h
    split at h
    · rename_i hnil
      cases h
      rw [hnil]
      rfl
    · cases h
  | succ fuel ih =>
    rw [submit] at h
    split at h
    · rename_i hnil
      cases h
      rw [hnil]
      rfl
    · generalize hc : min (min gs.length (poolSlots pool)) kSchedMaxBatch = chunk at h
      obtain ⟨⟨last', calls'⟩, hrest, heq⟩ := Option.map_eq_some_iff.mp h
      cases heq
      rw [List.flatMap_append, List.length_append, ih hrest, List.flatMap_map, List.flatMap_id',
        flatten_chunks (by decide), length_buildGroups, List.length_take, List.length_drop]
      omega

theorem exists_submit (pool : PrpPool) (gs : List Group) (mem : Nat → BitVec 64) :
    ∃ last calls, submit pc resolve (some pool) blkLog gs.length gs mem = some (last, calls) := by
  have hslots : poolSlots (some pool) ≠ 0 := Nat.succ_ne_zero 511
  have hsome : (submit pc resolve (some pool) blkLog gs.length gs mem).isSome = true := by
    rw [submit_isSome (Nat.sub_zero gs.length).symm mem writeChunk,
      chunkLoop_isSome _ hslots (by omega) (.inl (dvd_zero _))]
    exact fun _ _ _ => rfl
  obtain ⟨⟨last, calls⟩, h⟩ := Option.isSome_iff_exists.mp hsome
  exact ⟨last, calls, h⟩

theorem submit_none {gs : List Group} {mem last : Nat → BitVec 64} {calls : List Call}
    (h : submit pc resolve none blkLog gs.length gs mem = some (last, calls)) :
    calls.flatMap Call.commands = [] := by
  rcases Nat.eq_zero_or_pos gs.length with hgs | hgs
  · exact List.length_eq_zero_iff.mp ((length_submit h).trans hgs)
  · have hsome : (submit pc resolve none blkLog gs.length gs mem).isSome = false := by
      rw [submit_isSome (Nat.sub_zero gs.length).symm mem writeChunk]
      exact congrArg Option.isSome (chunkLoop_stuck hgs gs.length)
    rw [h] at hsome
    cases hsome

variable {opcode : BitVec 8} {gs : List Group} {mem : Nat → BitVec 64} {parts : List (List Nat)}

theorem requests_label (pool : PrpPool) (hlen : gs.length = parts.length) :
    (label opcode (submit pc resolve (some pool) blkLog gs.length gs mem) parts).flatMap
    Issued.requests =
      parts.flatten := by
  obtain ⟨last, calls, hout⟩ : ∃ last calls,
      submit pc resolve (some pool) blkLog gs.length gs mem = some (last, calls) :=
        exists_submit pool gs mem
  have hcmds := (length_submit hout).trans hlen
  rw [hout, label, List.flatMap_def, List.map_zipWith]
  congr 1
  refine List.ext_getElem ?_ fun i _ _ => ?_
  · rw [List.length_zipWith, hcmds, Nat.min_self]
  · rw [List.getElem_zipWith]

theorem label_none : label opcode (submit pc resolve none blkLog gs.length gs mem) parts = [] := by
  cases hout : submit pc resolve none blkLog gs.length gs mem with
  | none => rfl
  | some out =>
    rw [label, submit_none hout]
    rfl

theorem opcode_label {out : Option ((Nat → BitVec 64) × List Call)} {c : Issued}
    (hc : c ∈ label opcode out parts) : c.opcode = opcode := by
  cases out with
  | none => cases hc
  | some out =>
    rw [label, ← List.map_uncurry_zip_eq_zipWith] at hc
    obtain ⟨p, -, rfl⟩ := List.mem_map.mp hc
    rfl

end Submit

def Fits (reqs : List IoRequest) : Kernel → Prop
  | .write => reqs.length ≤ 2^31
  | .read => reqs.length ≤ kSchedMaxBatch ∧ ∀ key ∈ packed reqs, key ≠ keyMax

section Issue
variable {k : Kernel} {e : Env} {reqs : List IoRequest}

theorem issued_perm {pool : PrpPool} (hpool : e.pool = some pool) (hfits : Fits reqs k) :
    ((issued k e reqs).flatMap Issued.requests).Perm (List.range reqs.length) := by
  cases k with
  | write =>
    rw [issued, parallelMerge, hpool, requests_label, writeBounds_members]
    · exact sortPhase_vals hfits e.sort e.scratch
    · rw [groups_writeBounds, List.length_map, List.length_map]
  | read =>
    obtain ⟨hle, hmax⟩ := hfits
    have hkeys :
      ∀ pos < reqs.length, (sortShared (loadShared e.shared reqs)).keys pos ≠ keyMax := by
      intro pos hpos
      exact hmax _
        ((sort_packed hle e.shared).mem_iff.mp (List.mem_map_of_mem (List.mem_range.mpr hpos)))
    rw [issued, readBatch, hpool, readGroups_groups hkeys, readBounds_eq hkeys, requests_label,
      writeBounds_members]
    · have hperm := (batchIndex_perm hle e.shared).map BitVec.toNat
      rw [List.map_map, List.map_map] at hperm
      refine hperm.trans (.of_eq ?_)
      have hid : ∀ i ∈ List.range reqs.length, (BitVec.toNat ∘ BitVec.ofNat 32) i = i := by
        intro i hi
        have hlt : i < 512 := (List.mem_range.mp hi).trans_le hle
        exact Nat.mod_eq_of_lt (by omega)
      rw [List.map_congr_left hid, List.map_id']
    · rw [groups_writeBounds, List.length_map, List.length_map]

theorem issued_none (hpool : e.pool = none) : issued k e reqs = [] := by
  cases k with
  | write =>
    rw [issued, parallelMerge, hpool]
    exact label_none
  | read =>
    rw [issued, readBatch, hpool]
    exact label_none

theorem lt_of_mem_issued (hfits : Fits reqs k) {c : Issued} (hc : c ∈ issued k e reqs) {i : Nat}
    (hi : i ∈ c.requests) : i < reqs.length := by
  cases hpool : e.pool with
  | none =>
    rw [issued_none hpool] at hc
    cases hc
  | some pool =>
    have hmem := List.mem_flatMap.mpr ⟨c, hc, hi⟩
    exact List.mem_range.mp ((issued_perm hpool hfits).mem_iff.mp hmem)

theorem opcode_issued {c : Issued} (hc : c ∈ issued k e reqs) : c.opcode = kernelOpcode k := by
  cases k with
  | write => exact opcode_label hc
  | read => exact opcode_label hc

end Issue

section Ring
variable {r : Ring} {s : State} {e : Env}

theorem length_batchRequests (s : State) : (batchRequests s).length = s.sched.acc := by
  rw [batchRequests, List.length_map, List.length_range]

theorem batch_of_submit (hs : Reach r s) (hsub : s.sched.phase = .submit) :
    RingInvariant.Batch r s := by
  have hok := (RingSchedule.inv_of_reach hs).phase_ok
  rw [hsub] at hok
  exact hok.1.1

theorem fits_of_submit (hs : Reach r s) (hsub : s.sched.phase = .submit) :
    Fits (batchRequests s) r.kernel := by
  have hb := batch_of_submit hs hsub
  have hroom := hb.room
  have hle := RingInvariant.batchRoom_le r
  rw [← length_batchRequests s] at hroom
  cases hk : r.kernel with
  | write => exact hroom.trans hle
  | read =>
    have hroom' : r.batchRoom = kSchedMaxBatch := by rw [Ring.batchRoom, hk]
    refine ⟨hroom.trans_eq hroom', fun key hkey => ?_⟩
    obtain ⟨i, hi, rfl⟩ := List.mem_mapIdx.mp hkey
    rw [length_batchRequests] at hi
    obtain ⟨hpub, hbuf⟩ := hb.got i hi
    have hkeyed := (RingSchedule.inv_of_reach hs).keyed _ hpub.1 i
    simp only [RingMachine.padKey, hk, beq_eq_false_iff_ne] at hkeyed
    simp only [batchRequests, List.getElem_map, List.getElem_range, hbuf]
    exact hkeyed

/-- Until its batch is retired, a request in the ring has the opcode it was enqueued with. -/
theorem stored_opcode (hs : Reach r s) (hsub : s.sched.phase = .submit) {i : Nat}
    (hi : i < s.sched.acc) :
    (s.entries (cell r (s.retired+i))).opcode = (s.calls (s.retired+i)).opcode := by
  have hpub := ((batch_of_submit hs hsub).got i hi).1
  have hentry :=
    (RingDelivery.entry_intact (RingSchedule.inv_of_reach hs).toCallInv hpub
      (Nat.le_add_right _ _)).1
  rw [hentry]

/-- With list pages, every request of the batch is carried out by some command, and that
has the opcode of the kernel. -/
theorem exists_issued (hs : Reach r s) (hsub : s.sched.phase = .submit) (hpool : e.pool ≠ none)
    {i : Nat} (hi : i < s.sched.acc) :
    ∃ c ∈ issued r.kernel e (batchRequests s), i ∈ c.requests ∧
    c.opcode = kernelOpcode r.kernel := by
  obtain ⟨pool, hpool⟩ := Option.ne_none_iff_exists'.mp hpool
  have hperm := issued_perm hpool (fits_of_submit hs hsub)
  rw [length_batchRequests] at hperm
  obtain ⟨c, hc, hmem⟩ := List.mem_flatMap.mp (hperm.mem_iff.mpr (List.mem_range.mpr hi))
  exact ⟨c, hc, hmem, opcode_issued hc⟩

/-- The commands for a batch have the opcodes of their requests just if the callers asked
for nothing but what the kernel does. -/
theorem own_opcodes_iff (hs : Reach r s) (hsub : s.sched.phase = .submit) (e : Env) :
    OwnOpcodes r e s ↔
      e.pool = none ∨
      ∀ i < s.sched.acc, (s.calls (s.retired+i)).opcode = kernelOpcode r.kernel := by
  constructor
  · intro hown
    by_cases hpool : e.pool = none
    · exact .inl hpool
    · refine .inr fun i hi => ?_
      obtain ⟨c, hc, hmem, hop⟩ := exists_issued hs hsub hpool hi
      rw [← stored_opcode hs hsub hi, ← hown c hc i hmem, hop]
  · intro h c hc i hmem
    have hi := lt_of_mem_issued (fits_of_submit hs hsub) hc hmem
    rw [length_batchRequests] at hi
    rcases h with hnone | hall
    · rw [issued_none hnone] at hc
      cases hc
    · rw [opcode_issued hc, stored_opcode hs hsub hi, hall i hi]

end Ring

def writeRing : Ring := ⟨4, Nat.le_add_left 4 27, .write⟩

def plainEnv : Env := ⟨.v2, .fourK, some .inOrder, 9, .zero, .zero⟩

def oneRequest (opcode : BitVec 8) : List Act :=
  .claim .sync 0#64 4096#64 0#64 opcode :: List.replicate 7 (.call 0) ++
    [.sched 0, .sched 0] ++ (List.range kSchedThreads).reverse.map Act.sched ++
    List.replicate (4 + 25) (.sched 0)

def next (s : State) (a : Act) : Option State :=
  (RingMachine.step writeRing s a).filter fun t => RingMachine.unfinished t < 2^31

theorem next_reach (s : State) (a : Act) (t : State) (hs : Reach writeRing s)
    (h : next s a = some t) : Reach writeRing t := by
  obtain ⟨hstep, hfew⟩ := Option.filter_eq_some_iff.mp h
  refine .step hs ?_ hstep (of_decide_eq_true hfew)
  cases a with
  | claim api byteOffset nBytes pcEntry opcode => exact RingMachine.keyed_write rfl byteOffset
  | _ => trivial

def isSubmit : RingMachine.Phase → Bool
  | .submit => true
  | _ => false

def Holds (opcode : BitVec 8) (s : State) : Prop :=
  isSubmit s.sched.phase = true ∧ s.sched.acc = 1 ∧ (s.calls s.retired).opcode = opcode

instance (opcode : BitVec 8) : DecidablePred (Holds opcode) := fun s =>
  inferInstanceAs (Decidable (isSubmit s.sched.phase = true ∧ s.sched.acc = 1 ∧
    (s.calls s.retired).opcode = opcode))

theorem Holds.phase_eq {opcode : BitVec 8} {s : State} (h : Holds opcode s) :
    s.sched.phase = .submit := by
  have hsub := h.1
  cases hp : s.sched.phase with
  | submit => rfl
  | _ => rw [hp] at hsub; cases hsub

theorem write_request_own_opcode :
    ∃ s, Reach writeRing s ∧ s.sched.phase = .submit ∧ s.sched.acc = 1 ∧
    OwnOpcodes writeRing plainEnv s := by
  have hrun : (exec next (oneRequest nvmIoWrite) RingMachine.init).any
      (fun s => decide (Holds nvmIoWrite s)) = true := by
    decide +kernel
  obtain ⟨s, hs, h⟩ := exists_of_exec next_reach _ .refl hrun
  refine ⟨s, hs, h.phase_eq, h.2.1,
    (own_opcodes_iff hs h.phase_eq plainEnv).mpr (.inr fun i hi => ?_)⟩
  obtain rfl : i = 0 := by
    have hacc := h.2.1
    omega
  exact h.2.2

/-- A read on a queue that the write kernel serves is carried out by a write command. -/
theorem read_request_issued_as_write :
    ∃ s, Reach writeRing s ∧ s.sched.phase = .submit ∧ ¬ OwnOpcodes writeRing plainEnv s ∧
      (s.entries (cell writeRing s.retired)).opcode = nvmIoRead ∧
      ∃ c ∈ issued writeRing.kernel plainEnv (batchRequests s), 0 ∈ c.requests ∧
      c.opcode = nvmIoWrite := by
  have hrun : (exec next (oneRequest nvmIoRead) RingMachine.init).any
      (fun s => decide (Holds nvmIoRead s)) = true := by
    decide +kernel
  obtain ⟨s, hs, h⟩ := exists_of_exec next_reach _ .refl hrun
  have hacc : 0 < s.sched.acc := by
    rw [h.2.1]
    exact Nat.one_pos
  have hread : (s.entries (cell writeRing (s.retired+0))).opcode = nvmIoRead :=
    (stored_opcode hs h.phase_eq hacc).trans h.2.2
  have hissued : ∃ c ∈ issued writeRing.kernel plainEnv (batchRequests s), 0 ∈ c.requests ∧
    c.opcode = nvmIoWrite :=
    exists_issued hs h.phase_eq (Option.some_ne_none _) hacc
  refine ⟨s, hs, h.phase_eq, fun hown => ?_, hread, hissued⟩
  obtain ⟨c, hc, hmem, hop⟩ := hissued
  have hsame := hown c hc 0 hmem
  rw [hop, hread] at hsame
  exact absurd hsame (by decide)

end Shaper.Opcodes
