import Mathlib.Algebra.Order.BigOperators.Group.Finset
import Mathlib.Data.Multiset.Bind
import Mathlib.Logic.Relation
import Shaper.ReadScheduler
import Shaper.RingRuns

/-! The two request rings of the page cache with their kernels, the memory of the GPU and
the storage of the device, as one machine. Callers, kernels, other threads and the device
take their steps in any order. All commands of a batch are out together, beside those of the
other kernel, and the device moves their bytes one by one in any order. What the kernels
keep for themselves from batch to batch may be anything. -/
namespace Shaper.RingStorage
open RingMachine (Ring State Act Drained Kernel init unfinished)
open RingInvariant (Inv request)
open RingSchedule RingDelivery RingProgress RingRuns Request PrpBuild Merge MergeEffect
open WriteScheduler ReadScheduler
open Lib.Lists Lib.Segments Relation Function Finset

/-- `evict_queue` and `read_queue` of a cache, and what their kernels work with. -/
structure Setup where
  writes : Ring
  reads : Ring
  writes_kernel : writes.kernel = .write
  reads_kernel : reads.kernel = .read
  sort : SortVersion
  pc : PageCache
  writePool : PrpPool
  readPool : PrpPool
  rest : Nat → BitVec 64
  blkLog : Nat
  ppe_dvd : pc.pagesPerEntry ∣ 512
  block_le : 9 ≤ blkLog
  block_dvd : 2^blkLog ∣ pc.pageSize

/-- A byte that is to be moved: its address in memory and its place on storage. -/
abbrev Move := BitVec 64 × Nat

structure Event (β : Type*) where
  kernel : Kernel
  move : Move
  byte : β

structure Half where
  ring : State
  pending : Multiset Move

structure Sys (β : Type*) where
  w : Half
  r : Half
  disk : Nat → β
  ram : BitVec 64 → β
  log : List (Event β)

def ofDrained (d : Drained) : IoRequest := ⟨d.byteOffset, d.pcEntry, 0#8, d.nBytesLog2⟩

def asked (c : RingMachine.Call) : IoRequest := ofDrained (request c)

def batch (s : State) : Act → Option (List IoRequest)
  | .sched _ =>
    match s.sched.phase with
    | .submit => some ((List.range s.sched.acc).map fun i => ofDrained (s.sched.buf i))
    | _ => none
  | _ => none

def WriteAsked (pc : PageCache) : Act → Prop
  | .claim _ byteOffset nBytes pcEntry _ =>
    PageRequest pc ⟨byteOffset, pcEntry, 0#8, ioSchedEncodeNbytes nBytes⟩
  | _ => True

def ReadAsked (pc : PageCache) : Act → Prop
  | .claim _ byteOffset nBytes pcEntry _ =>
    ReadRequest pc ⟨byteOffset, pcEntry, 0#8, ioSchedEncodeNbytes nBytes⟩
  | _ => True

def callMoves (pool : PrpPool) (rest : Nat → BitVec 64) (blkLog : Nat) (call : Call) : List Move :=
  call.commands.flatMap (Nvme.Command.byteMoves (pool.load call.mem rest) blkLog)

def writeSubmits (u : Setup) (reqs : List IoRequest) (moves : Multiset Move) : Prop :=
  ∃ s s' calls, writeBatch u.sort u.pc (some u.writePool) u.blkLog s reqs = some (s', calls) ∧
    moves = calls.flatMap (callMoves u.writePool u.rest u.blkLog)

def readSubmits (u : Setup) (reqs : List IoRequest) (moves : Multiset Move) : Prop :=
  ∃ old starts mem last calls,
    readBatch u.pc (some u.readPool) u.blkLog old reqs starts mem = some (last, calls) ∧
      moves = calls.flatMap (callMoves u.readPool u.rest u.blkLog)

/-- The kernel goes on when the commands it has submitted are done. Its threads do not see
different values of `shutdown` in one round. -/
inductive Half.Step (r : Ring) (submits : List IoRequest → Multiset Move → Prop) (h : Half)
    (a : Act) : Half → Prop where
  | idle {t : State} : RingMachine.step r h.ring a = some t → unfinished t < 2^31 →
      t.sched.phase ≠ .torn → batch h.ring a = none →
      (∀ pick, a = .sched pick → h.pending = 0) → Step r submits h a ⟨t, h.pending⟩
  | submit {t : State} {reqs : List IoRequest} {moves : Multiset Move} :
      RingMachine.step r h.ring a = some t → unfinished t < 2^31 → batch h.ring a = some reqs →
      h.pending = 0 → submits reqs moves → Step r submits h a ⟨t, moves⟩

section
variable {β : Type*} (u : Setup) (S : Sys β)

def store (m : Move) : Sys β :=
  { S with
    w := ⟨S.w.ring, S.w.pending.erase m⟩
    disk := update S.disk m.2 (S.ram m.1)
    log := S.log ++ [⟨.write, m, S.ram m.1⟩] }

def fetch (m : Move) : Sys β :=
  { S with
    r := ⟨S.r.ring, S.r.pending.erase m⟩
    ram := update S.ram m.1 (S.disk m.2)
    log := S.log ++ [⟨.read, m, S.disk m.2⟩] }

inductive Step : Sys β → Prop where
  | touch (ram : BitVec 64 → β) : Step { S with ram := ram }
  | write {a : Act} {h : Half} : S.w.Step u.writes (writeSubmits u) a h → WriteAsked u.pc a →
      Step { S with w := h }
  | read {a : Act} {h : Half} : S.r.Step u.reads (readSubmits u) a h → ReadAsked u.pc a →
      Step { S with r := h }
  | store {m : Move} : m ∈ S.w.pending → Step (store S m)
  | fetch {m : Move} : m ∈ S.r.pending → Step (fetch S m)

end

def start {β : Type*} (disk : Nat → β) (ram : BitVec 64 → β) : Sys β :=
  ⟨⟨init, 0⟩, ⟨init, 0⟩, disk, ram, []⟩

abbrev Steps {β : Type*} (u : Setup) : Sys β → Sys β → Prop := ReflTransGen (Step u)

section log
variable {β : Type*}

def moved (k : Kernel) (log : List (Event β)) : Multiset Move :=
  (log.filter fun e => e.kernel = k).map Event.move

def play (disk : Nat → β) (e : Event β) : Nat → β :=
  match e.kernel with
  | .write => update disk e.move.2 e.byte
  | .read => disk

def Legal (disk : Nat → β) : List (Event β) → Prop
  | [] => True
  | e :: log => (e.kernel = .read → e.byte = disk e.move.2) ∧ Legal (play disk e) log

theorem moved_append (k : Kernel) (log log' : List (Event β)) :
    moved k (log ++ log') = moved k log+moved k log' := by
  simp only [moved, List.filter_append, List.map_append, Multiset.coe_add]

theorem moved_concat (k : Kernel) (log : List (Event β)) (e : Event β) :
    moved k (log ++ [e]) = if e.kernel = k then moved k log+{e.move} else moved k log := by
  rw [moved_append]
  by_cases he : e.kernel = k
  · simp [moved, he]
  · simp [moved, he]

theorem legal_append (disk : Nat → β) (log log' : List (Event β)) :
    Legal disk (log ++ log') ↔ Legal disk log ∧ Legal (log.foldl play disk) log' := by
  induction log generalizing disk with
  | nil => exact (iff_of_eq (true_and _)).symm
  | cons e log ih => exact (and_congr_right' (ih _)).trans and_assoc.symm

end log

section ring
variable {r : Ring} {s t : State} {a : Act} {reqs : List IoRequest}

theorem batch_none (hs : RingMachine.step r s a = some t) (hn : batch s a = none) :
    t.submitted = s.submitted := by
  obtain ⟨pick, rfl, hb⟩ | ⟨f, -⟩ := step_cases hs
  · cases hp : s.sched.phase with
    | submit =>
      simp only [batch, hp] at hn
      cases hn
    | _ =>
      simp only [RingMachine.schedStep, hp] at hb
      repeat' split at hb
      all_goals
        cases hb
        try rfl
  · exact f.submitted_eq

theorem asked_step (hs : RingMachine.step r s a = some t) {g : Nat} (hg : g < s.claimed) :
    asked (t.calls g) = asked (s.calls g) := congrArg ofDrained (step_request hs hg)

theorem claimed_le (hs : RingMachine.step r s a = some t) : s.claimed ≤ t.claimed := by
  obtain ⟨pick, -, hb⟩ | ⟨f, -⟩ := step_cases hs
  · exact (sched_keeps hb).2.1.ge
  · exact f.claimed_le

theorem claimed_cases (hs : RingMachine.step r s a = some t) {g : Nat} (hg : g < t.claimed) :
    g < s.claimed ∨
    ∃ api byteOffset nBytes pcEntry opcode, a = .claim api byteOffset nBytes pcEntry opcode ∧
    g = s.claimed ∧
      asked (t.calls g) = ⟨byteOffset, pcEntry, 0#8, ioSchedEncodeNbytes nBytes⟩ := by
  cases a with
  | claim api byteOffset nBytes pcEntry opcode =>
    cases hs
    obtain hlt | rfl := Nat.lt_succ_iff_lt_or_eq.mp hg
    · exact .inl hlt
    · refine .inr ⟨_, _, _, _, _, rfl, rfl, ?_⟩
      simp only [RingMachine.claim, Function.update_self, asked, ofDrained, request]
  | call g' =>
    simp only [RingMachine.step] at hs
    split at hs
    · obtain rfl | ⟨_, _, _, _, -, rfl⟩ := RingInvariant.callStep_shape hs
      · exact .inl hg
      · exact .inl hg
    · cases hs
  | shutdown =>
    cases hs
    exact .inl hg
  | sched pick => exact .inl ((sched_keeps hs).2.1 ▸ hg)

theorem batch_some (h : Inv r s) (hs : RingMachine.step r s a = some t)
    (hb : batch s a = some reqs) :
    ∃ n, reqs = (List.range n).map (fun j => asked (s.calls (s.submitted+j))) ∧
    t.submitted = s.submitted+n ∧
      n ≤ r.batchRoom ∧ s.submitted+n ≤ s.claimed ∧ t.calls = s.calls ∧ t.claimed = s.claimed ∧
      t.seqStored = s.seqStored := by
  obtain ⟨pick, rfl⟩ : ∃ pick, a = .sched pick := by
    cases a with
    | sched pick => exact ⟨pick, rfl⟩
    | _ => cases hb
  have hp : s.sched.phase = .submit := by
    simp only [batch] at hb
    split at hb
    · assumption
    · cases hb
  have hphase := h.phase_ok
  rw [hp] at hphase
  obtain ⟨⟨hbatch, hsub⟩, -⟩ := hphase
  simp only [batch, hp] at hb
  obtain rfl := Option.some.inj hb
  simp only [RingMachine.step, RingMachine.schedStep, hp] at hs
  obtain rfl := Option.some.inj hs
  refine ⟨s.sched.acc, List.map_congr_left fun j hj => ?_, ?_, hbatch.room, ?_, rfl, rfl, rfl⟩
  · rw [(hbatch.got j (List.mem_range.mp hj)).2, hsub]
    rfl
  · exact hbatch.log.trans (by rw [hsub])
  · rw [hsub, ← hbatch.log]
    exact drained_le_claimed h

theorem submitted_le_claimed (h : Inv r s) : s.submitted ≤ s.claimed :=
  h.submitted_le.trans (drained_le_claimed h)

end ring

section accounts
variable {pc : PageCache}

def writeMoves (pc : PageCache) (q : IoRequest) : Multiset Move := pageMoves (requestPage pc q)

def readMoves (pc : PageCache) (q : IoRequest) : Multiset Move :=
  (List.range pc.pageSize).map fun k => (bufferByte pc q k, q.byteOffset.toNat+k)

def Covers (pc : PageCache) (x : Nat) (q : IoRequest) : Prop :=
  q.byteOffset.toNat ≤ x ∧ x < q.byteOffset.toNat + pc.pageSize

theorem covers_of_mem {q : IoRequest} {m : Move} (hm : m ∈ writeMoves pc q) : Covers pc m.2 q := by
  obtain ⟨i, hi, rfl⟩ := List.mem_map.mp hm
  have hi := List.mem_range.mp hi
  rw [requestPage, requestPages, List.length_map, List.length_range] at hi
  exact ⟨Nat.le_add_right _ _, Nat.add_lt_add_left hi _⟩

theorem coe_flatMap {α γ : Type*} (f : α → List γ) (l : List α) :
    (l.flatMap f : Multiset γ) = (l.map fun a => (f a : Multiset γ)).sum := by
  rw [← Multiset.coe_bind]
  rfl

end accounts

/-- A ring with its kernel: what is moved and what is still to be moved are the requests of the
batches submitted so far, and all of a request is moved before it is notified. -/
structure Side (r : Ring) (ok : IoRequest → Prop) (moves : IoRequest → Multiset Move) (h : Half)
    (done : Multiset Move) : Prop where
  reach : RingMachine.Reach r h.ring
  asks : ∀ g < h.ring.claimed, ok (asked (h.ring.calls g))
  accounted : done+h.pending = ∑ g ∈ range h.ring.submitted, moves (asked (h.ring.calls g))
  notified : ∃ n ≤ h.ring.submitted, (∀ g, h.ring.seqStored g = true → g < n) ∧
    ∑ g ∈ range n, moves (asked (h.ring.calls g)) ≤ done

section side
variable {r : Ring} {ok : IoRequest → Prop} {moves : IoRequest → Multiset Move} {h : Half}
  {done : Multiset Move} {a : Act} {t : State} {reqs : List IoRequest}

theorem sum_asked (hs : RingMachine.step r h.ring a = some t) {n : Nat} (hn : n ≤ h.ring.claimed) :
    ∑ g ∈ range n, moves (asked (t.calls g)) = ∑ g ∈ range n, moves (asked (h.ring.calls g)) :=
  sum_congr rfl fun g hg => by rw [asked_step hs ((mem_range.mp hg).trans_le hn)]

theorem Side.idle (H : Side r ok moves h done) (hs : RingMachine.step r h.ring a = some t)
    (hu : unfinished t < 2^31) (hk : RingMachine.keyedStep r h.ring a)
    (hb : batch h.ring a = none) (hp : ∀ pick, a = .sched pick → h.pending = 0)
    (hnew : ∀ g < t.claimed, ¬g < h.ring.claimed → ok (asked (t.calls g))) :
    Side r ok moves ⟨t, h.pending⟩ done := by
  have hreach : RingMachine.Reach r t := .step H.reach hk hs hu
  have hle := submitted_le_claimed (inv_of_reach H.reach)
  have hsub := batch_none hs hb
  have haccounted : done+h.pending = ∑ g ∈ range t.submitted, moves (asked (t.calls g)) := by
    rw [H.accounted, hsub, sum_asked hs hle]
  refine ⟨hreach, fun g hg => ?_, haccounted, ?_⟩
  · by_cases hold : g < h.ring.claimed
    · rw [asked_step hs hold]
      exact H.asks g hold
    · exact hnew g hg hold
  · obtain ⟨pick, rfl, -⟩ | ⟨f, -⟩ := step_cases hs
    -- the kernel goes on, so that nothing of what it has submitted is left
    · rw [hp pick rfl, add_zero] at haccounted
      exact ⟨t.submitted, le_rfl, (inv_of_reach hreach).stored_lt, haccounted.ge⟩
    · obtain ⟨n, hn, hlt, hdone⟩ := H.notified
      refine ⟨n, hsub ▸ hn, fun g hg => hlt g (f.seqStored_eq ▸ hg), ?_⟩
      rwa [sum_asked hs (hn.trans hle)]

theorem Side.submit (H : Side r ok moves h done) (hs : RingMachine.step r h.ring a = some t)
    (hu : unfinished t < 2^31) (hb : batch h.ring a = some reqs) (hp : h.pending = 0) :
    Side r ok moves ⟨t, (reqs.map moves).sum⟩ done := by
  have hinv := inv_of_reach H.reach
  obtain ⟨n, rfl, hsub, -, -, hcalls, hclaimed, hstored⟩ := batch_some hinv hs hb
  have haccounted := H.accounted
  rw [hp, add_zero] at haccounted
  refine ⟨.step H.reach ?_ hs hu, ?_, ?_, h.ring.submitted, ?_, ?_, ?_⟩
  · cases a with
    | sched => trivial
    | _ => cases hb
  · simp only [hcalls, hclaimed]
    exact H.asks
  · simp only [hsub, hcalls, haccounted, sum_range_add, List.map_map]
    rfl
  · simp only [hsub]
    exact Nat.le_add_right _ _
  · simp only [hstored]
    exact hinv.stored_lt
  · simp only [hcalls]
    exact haccounted.ge

theorem Side.move (H : Side r ok moves h done) {m : Move} (hm : m ∈ h.pending) :
    Side r ok moves ⟨h.ring, h.pending.erase m⟩ (done+{m}) := by
  refine ⟨H.reach, H.asks, ?_, ?_⟩
  · rw [← H.accounted, add_assoc, Multiset.singleton_add, Multiset.cons_erase hm]
  · obtain ⟨n, hn, hlt, hdone⟩ := H.notified
    exact ⟨n, hn, hlt, hdone.trans (Multiset.le_add_right _ _)⟩

theorem Side.batch_asks (H : Side r ok moves h done)
    (hs : RingMachine.step r h.ring a = some t) (hb : batch h.ring a = some reqs) :
    reqs.length ≤ r.batchRoom ∧ ∀ q ∈ reqs, ok q := by
  obtain ⟨n, rfl, -, hroom, hle, -⟩ := batch_some (inv_of_reach H.reach) hs hb
  refine ⟨by simpa using hroom, fun q hq => ?_⟩
  obtain ⟨j, hj, rfl⟩ := List.mem_map.mp hq
  exact H.asks _ (by have := List.mem_range.mp hj; omega)

end side

variable {β : Type*} {u : Setup} {disk : Nat → β} {S T : Sys β} {a : Act} {t : State}
  {reqs : List IoRequest} {moves : Multiset Move}

structure Holds (u : Setup) (disk : Nat → β) (S : Sys β) : Prop where
  w : Side u.writes (PageRequest u.pc) (writeMoves u.pc) S.w (moved .write S.log)
  r : Side u.reads (ReadRequest u.pc) (readMoves u.pc) S.r (moved .read S.log)
  stored : S.disk = S.log.foldl play disk
  legal : Legal disk S.log

/-- The commands of a write batch, with any memory of the kernel, move its requests. -/
theorem writeBatch_moves (u : Setup) (hroom : reqs.length ≤ 2^31)
    (hreq : ∀ q ∈ reqs, PageRequest u.pc q) (s : Scratch) :
    ∃ s' calls, writeBatch u.sort u.pc (some u.writePool) u.blkLog s reqs = some (s', calls) ∧
      (calls.flatMap (callMoves u.writePool u.rest u.blkLog)).Perm
        (reqs.flatMap fun q => pageMoves (requestPage u.pc q)) := by
  obtain ⟨s', calls, b, L, hrun, hL, hlists, ha, hcalls⟩ := writeBatch_merges u.writePool u.sort
    u.ppe_dvd u.block_le u.block_dvd s hroom hreq u.rest
  refine ⟨s', calls, hrun, ?_⟩
  have hok := ha.toUniform.groupsFrom_ok u.pc.subpage_aligned u.block_le u.block_dvd
    (Nat.zero_le _) fun _ => isStart_zero
  have hpages := (calls_spec (β := Nat) ha u.block_dvd u.pc.subpage_aligned hcalls).1
  rw [map_pageAt hlists, map_pageOf_subpage fun q hq =>
    (hreq q (hL.perm.mem_iff.mp hq)).toAsks] at hpages
  have hchunk : ∀ gs ∈ chunks kSchedKneeLimit (groupsFrom u.pc b L.length 0),
      ∀ g ∈ gs, g.Ok u.pc u.pc.subpage u.blkLog := by
    intro gs hgs g hg
    have hmem := List.mem_flatten.mpr ⟨gs, hgs, hg⟩
    rw [flatten_chunks (by decide)] at hmem
    exact hok g hmem
  have heach : ∀ call ∈ calls, callMoves u.writePool u.rest u.blkLog call =
      (Call.pageWrites u.writePool u.rest u.blkLog u.pc.pagesPerEntry call).flatMap pageMoves := by
    intro call hcall
    obtain ⟨gs, hgs, hsub⟩ :=
      exists_of_forall₂ ((List.forall₂_and_left _ _).mpr ⟨hchunk, hcalls⟩) hcall
    exact byteMoves_call hgs u.pc.subpage_aligned hsub
  rw [List.flatMap_congr heach, ← List.flatMap_assoc, hpages, List.flatMap_map]
  exact hL.perm.flatMap_right _

theorem Holds.writes (h : Holds u disk S) (hs : RingMachine.step u.writes S.w.ring a = some t)
    (hb : batch S.w.ring a = some reqs) :
    (∃ moves, writeSubmits u reqs moves) ∧
      ∀ moves, writeSubmits u reqs moves → moves = (reqs.map (writeMoves u.pc)).sum := by
  obtain ⟨hroom, hreq⟩ := h.w.batch_asks hs hb
  replace hroom := hroom.trans (RingInvariant.batchRoom_le _)
  constructor
  · obtain ⟨s', calls, hrun, -⟩ := writeBatch_moves u hroom hreq .zero
    exact ⟨_, .zero, s', calls, hrun, rfl⟩
  · rintro moves ⟨s, s', calls, hrun, rfl⟩
    obtain ⟨_, _, hrun', hperm⟩ := writeBatch_moves u hroom hreq s
    obtain ⟨rfl, rfl⟩ := Prod.mk.inj (Option.some.inj (hrun.symm.trans hrun'))
    rw [Multiset.coe_eq_coe.mpr hperm, coe_flatMap]
    rfl

theorem Holds.reads (h : Holds u disk S) (hs : RingMachine.step u.reads S.r.ring a = some t)
    (hb : batch S.r.ring a = some reqs) :
    (∃ moves, readSubmits u reqs moves) ∧
      ∀ moves, readSubmits u reqs moves → moves = (reqs.map (readMoves u.pc)).sum := by
  obtain ⟨hroom, hreq⟩ := h.r.batch_asks hs hb
  rw [Ring.batchRoom, u.reads_kernel] at hroom
  have hbatch := readBatch_moves u.readPool u.ppe_dvd u.block_le u.block_dvd hroom hreq
  constructor
  · obtain ⟨last, calls, hrun, -⟩ := hbatch ⟨fun _ => 0, fun _ => 0, fun _ => 0⟩ (fun _ => 0)
      (fun _ => 0) u.rest
    exact ⟨_, _, _, _, last, calls, hrun, rfl⟩
  · rintro moves ⟨old, starts, mem, last, calls, hrun, rfl⟩
    obtain ⟨_, _, hrun', hmem, hperm⟩ := hbatch old starts mem u.rest
    obtain ⟨rfl, rfl⟩ := Prod.mk.inj (Option.some.inj (hrun.symm.trans hrun'))
    have hall : calls.flatMap (callMoves u.readPool u.rest u.blkLog) =
        (calls.flatMap Call.commands).flatMap
          (Nvme.Command.byteMoves (u.readPool.load last u.rest) u.blkLog) := by
      rw [List.flatMap_assoc]
      exact List.flatMap_congr fun call hcall => by rw [callMoves, hmem call hcall]
    rw [hall, Multiset.coe_eq_coe.mpr hperm, requestMoves, coe_flatMap]
    rfl

theorem ReadRequest.even {pc : PageCache} {q : IoRequest} (h : ReadRequest pc q) :
    q.byteOffset.getLsbD 0 = false := by
  have hdvd : 4096 ∣ q.byteOffset.toNat := (Nat.dvd_mul_right 4096 _).trans h.offset_dvd
  rw [BitVec.getLsbD, Nat.testBit_zero, decide_eq_false_iff_not]
  omega

theorem Holds.write (h : Holds u disk S) {w : Half}
    (hstep : S.w.Step u.writes (writeSubmits u) a w) (ha : WriteAsked u.pc a) :
    Holds u disk { S with w := w } := by
  refine ⟨?_, h.r, h.stored, h.legal⟩
  cases hstep with
  | idle hs hu _ hb hp =>
    refine h.w.idle hs hu ?_ hb hp fun g hg hnew => ?_
    · cases a with
      | claim => exact RingMachine.keyed_write u.writes_kernel _
      | _ => trivial
    · obtain hlt | ⟨_, _, _, _, _, rfl, -, he⟩ := claimed_cases hs hg
      · exact absurd hlt hnew
      · exact he ▸ ha
  | submit hs hu hb hp hsub =>
    rw [(h.writes hs hb).2 _ hsub]
    exact h.w.submit hs hu hb hp

theorem Holds.read (h : Holds u disk S) {r : Half}
    (hstep : S.r.Step u.reads (readSubmits u) a r) (ha : ReadAsked u.pc a) :
    Holds u disk { S with r := r } := by
  refine ⟨h.w, ?_, h.stored, h.legal⟩
  cases hstep with
  | idle hs hu _ hb hp =>
    refine h.r.idle hs hu ?_ hb hp fun g hg hnew => ?_
    · cases a with
      | claim => exact RingMachine.keyed_of_even _ (ReadRequest.even ha)
      | _ => trivial
    · obtain hlt | ⟨_, _, _, _, _, rfl, -, he⟩ := claimed_cases hs hg
      · exact absurd hlt hnew
      · exact he ▸ ha
  | submit hs hu hb hp hsub =>
    rw [(h.reads hs hb).2 _ hsub]
    exact h.r.submit hs hu hb hp

theorem Holds.store (h : Holds u disk S) {m : Move} (hm : m ∈ S.w.pending) :
    Holds u disk (store S m) := by
  refine ⟨?_, ?_, ?_, ?_⟩
  · simp only [RingStorage.store, moved_concat]
    exact h.w.move hm
  · simp only [RingStorage.store, moved_concat]
    exact h.r
  · simp only [RingStorage.store, List.foldl_append, ← h.stored]
    rfl
  · exact (legal_append ..).mpr ⟨h.legal, ⟨by simp, trivial⟩⟩

theorem Holds.fetch (h : Holds u disk S) {m : Move} (hm : m ∈ S.r.pending) :
    Holds u disk (fetch S m) := by
  refine ⟨?_, ?_, ?_, ?_⟩
  · simp only [RingStorage.fetch, moved_concat]
    exact h.w
  · simp only [RingStorage.fetch, moved_concat]
    exact h.r.move hm
  · simp only [RingStorage.fetch, List.foldl_append, ← h.stored]
    rfl
  · exact (legal_append ..).mpr ⟨h.legal, ⟨fun _ => by rw [h.stored], trivial⟩⟩

def Kept (S T : Sys β) : Prop :=
  S.w.ring.claimed ≤ T.w.ring.claimed ∧
    ∀ g < S.w.ring.claimed, asked (T.w.ring.calls g) = asked (S.w.ring.calls g)

theorem Step.kept (hstep : Step u S T) : Kept S T := by
  cases hstep with
  | write hw ha =>
    cases hw with
    | idle hs => exact ⟨claimed_le hs, fun g hg => asked_step hs hg⟩
    | submit hs => exact ⟨claimed_le hs, fun g hg => asked_step hs hg⟩
  | _ => exact ⟨le_rfl, fun _ _ => rfl⟩

theorem Holds.step (h : Holds u disk S) (hstep : Step u S T) :
    Holds u disk T ∧ S.log <+: T.log := by
  cases hstep with
  | touch ram => exact ⟨⟨h.w, h.r, h.stored, h.legal⟩, List.prefix_refl _⟩
  | write hw ha => exact ⟨h.write hw ha, List.prefix_refl _⟩
  | read hr ha => exact ⟨h.read hr ha, List.prefix_refl _⟩
  | store hm => exact ⟨h.store hm, List.prefix_append _ _⟩
  | fetch hm => exact ⟨h.fetch hm, List.prefix_append _ _⟩

theorem Holds.steps (h : Holds u disk S) (hsteps : Steps u S T) :
    Holds u disk T ∧ S.log <+: T.log ∧ Kept S T := by
  induction hsteps with
  | refl => exact ⟨h, List.prefix_refl _, le_rfl, fun _ _ => rfl⟩
  | tail _ hstep ih =>
    obtain ⟨hT, hlog, hle, hkeep⟩ := ih
    obtain ⟨hT', hlog'⟩ := hT.step hstep
    obtain ⟨hle', hkeep'⟩ := hstep.kept
    exact ⟨hT', hlog.trans hlog', hle.trans hle', fun g hg =>
      (hkeep' g (hg.trans_le hle)).trans (hkeep g hg)⟩

def Settled (u : Setup) (S T : Sys β) (x : Nat) : Prop :=
  ∀ g < T.w.ring.claimed, Covers u.pc x (asked (T.w.ring.calls g)) → S.w.ring.seqStored g = true

/-- Every byte of the writes to `x` was moved before `S`, so that none is moved after it. -/
theorem Holds.settled (h : Holds u disk S) (hT : Steps u S T) {x : Nat} (hx : Settled u S T x)
    {log : List (Event β)} (hlog : S.log ++ log = T.log) : ∀ m ∈ moved .write log, m.2 ≠ x := by
  obtain ⟨hT, -, hle, hkeep⟩ := h.steps hT
  obtain ⟨n, hn, hlt, hdone⟩ := h.w.notified
  have hleS := submitted_le_claimed (inv_of_reach h.w.reach)
  have hleT := submitted_le_claimed (inv_of_reach hT.w.reach)
  let count := Multiset.countPAddMonoidHom fun m : Move => m.2 = x
  let calls := fun g => count (writeMoves u.pc (asked (T.w.ring.calls g)))
  have hmono : ∀ {s t : Multiset Move}, s ≤ t → count s ≤ count t := Multiset.countP_le_of_le _
  have hall : count (moved .write S.log)+count (moved .write log)+count T.w.pending =
      ∑ g ∈ range T.w.ring.submitted, calls g := by
    rw [← map_add, ← moved_append, hlog, ← map_add, hT.w.accounted, map_sum]
  have hfew : ∑ g ∈ range T.w.ring.submitted, calls g ≤ ∑ g ∈ range n, calls g := by
    refine sum_le_sum_of_ne_zero fun g hg hne => mem_range.mpr (hlt g (hx g ?_ ?_))
    · exact (mem_range.mp hg).trans_le hleT
    · have hpos : 0 < Multiset.countP (fun m : Move => m.2 = x)
          (writeMoves u.pc (asked (T.w.ring.calls g))) := Nat.pos_of_ne_zero hne
      obtain ⟨m, hm, rfl⟩ := Multiset.countP_pos.mp hpos
      exact covers_of_mem hm
  have hmoved : ∑ g ∈ range n, calls g ≤ count (moved .write S.log) := by
    have hcalls : ∑ g ∈ range n, calls g =
        count (∑ g ∈ range n, writeMoves u.pc (asked (S.w.ring.calls g))) := by
      rw [map_sum]
      refine sum_congr rfl fun g hg => ?_
      simp only [calls, hkeep g ((mem_range.mp hg).trans_le (hn.trans hleS))]
    rw [hcalls]
    exact hmono hdone
  have hnone : Multiset.countP (fun m : Move => m.2 = x) (moved .write log) = 0 := by
    have : count (moved .write log) = 0 := by omega
    exact this
  exact Multiset.countP_eq_zero.mp hnone

def fourK : Setup where
  writes := ⟨10, by decide, .write⟩
  reads := ⟨10, by decide, .read⟩
  writes_kernel := rfl
  reads_kernel := rfl
  sort := .v2
  pc := .fourK
  writePool := .inOrder
  readPool := .inOrder
  rest _ := 0
  blkLog := 12
  ppe_dvd := by decide
  block_le := by decide
  block_dvd := by decide

end Shaper.RingStorage
