import Mathlib.Logic.Function.Basic
import Shaper.Lib.Counter
import Shaper.Request

/-! The request ring as a machine: any number of calls of `io_sched_enqueue` and
its wrappers, one scheduler block, and `io_sched_shutdown`, one memory access a
step. A call is named by the position of its `fetch_add` among all of them; that
name is history, the call itself only sees its 32-bit slot. -/
namespace Shaper.RingMachine
open Request Lib.Warp Function

inductive Kernel where
  | write | read
  deriving DecidableEq

structure Ring where
  capacityLog : Nat
  capacityLog_le : capacityLog ≤ 31
  kernel : Kernel

namespace Ring
def capacity (r : Ring) : Nat := 2^r.capacityLog
def capacityMask (r : Ring) : BitVec 32 := BitVec.ofNat 32 r.capacity - 1#32
def index (r : Ring) (slot : BitVec 32) : BitVec 32 := slot &&& r.capacityMask
def batchRoom (r : Ring) : Nat :=
  match r.kernel with
  | .write => r.capacity
  | .read => kSchedMaxBatch
end Ring

/-- How the caller goes on after its enqueue: `io_sched_read`, `io_sched_write`,
`io_sched_access` and the transfer kernel wait on `done_seq`; the submit calls
return the flag for `io_sched_wait`; `io_sched_enqueue_forget` does neither. -/
inductive Api where
  | sync | async | forget
  deriving DecidableEq

inductive CallPc where
  | full | clearFlag | putOffset | putEntry | putOpcode | putSize | publish
  | returned | polled | finished
  deriving DecidableEq

structure Call where
  api : Api
  byteOffset : BitVec 64
  nBytes : BitVec 64
  pcEntry : BitVec 64
  opcode : BitVec 8
  slot : BitVec 32
  pc : CallPc

structure Drained where
  byteOffset : BitVec 64
  pcEntry : BitVec 64
  nBytesLog2 : BitVec 8
  deriving DecidableEq

def drain (e : IoRequest) : Drained := ⟨e.byteOffset, e.pcEntry, e.nBytesLog2⟩

def padKey (k : Kernel) (byteOffset : BitVec 64) (orig : Nat) : Bool :=
  match k with
  | .write => false
  | .read => ioSchedMakeSortKey byteOffset (BitVec.ofNat 32 orig) == BitVec.allOnes 64

/-- The two callers of `io_sched_scan_ready` in the kernels: the exit test, and
the adaptive wait of the write kernel with its current sleep. -/
inductive ScanFor where
  | exit
  | more (ns : Nat)

inductive Phase where
  | top
  | tail
  | probe (roundMax : Nat) (ready : Nat → Option Bool)
  | fetch (avail : Nat) (loaded : Nat → Bool)
  | branch (avail : Nat)
  | flag (seen : Nat → Option Bool)
  | scanTail (why : ScanFor)
  | scan (why : ScanFor) (pending i : Nat)
  | adapt (ns : Nat)
  | submit
  | notify (seqDone flagDone : Nat → Bool)
  | advance
  | exited
  | torn

/-- Shared variables of the block: `sh_base_head`, `sh_accumulated`, the batch
arrays and `sh_drain_ns`. -/
structure Sched where
  phase : Phase
  base : BitVec 32
  acc : Nat
  buf : Nat → Drained
  drainNs : Nat

/-- The fields from `claimed` on are history: steps write them and never read them.
`claimed` and `retired` count the `fetch_add`s on `prod_tail` and the slots that
`cons_head` has passed; `seqStored g` and `flagStored g` say that the two stores
of the notify phase were made for call `g`. -/
structure State where
  entries : BitVec 32 → IoRequest
  doneFlags : BitVec 32 → BitVec 32
  doneSeq : BitVec 32 → BitVec 32
  prodSeq : BitVec 32 → BitVec 32
  prodTail : BitVec 32
  consHead : BitVec 32
  shutdown : BitVec 32
  calls : Nat → Call
  sched : Sched
  claimed : Nat
  retired : Nat
  drained : List Drained
  submitted : Nat
  seqStored : Nat → Bool
  flagStored : Nat → Bool

def State.setPc (s : State) (g : Nat) (pc : CallPc) : State :=
  { s with calls := update s.calls g { s.calls g with pc := pc } }

section
variable (s : State) (g g' : Nat) (pc : CallPc)

theorem setPc_pc_self : ((s.setPc g pc).calls g).pc = pc := by simp [State.setPc]

theorem setPc_calls_of_ne {g g' : Nat} (h : g' ≠ g) : (s.setPc g pc).calls g' = s.calls g' := by
  simp [State.setPc, h]

theorem setPc_calls : (s.setPc g pc).calls g' =
    { s.calls g' with pc := if g' = g then pc else (s.calls g').pc } := by
  by_cases h : g' = g
  · subst h
    simp [State.setPc]
  · simp [State.setPc, h]
end

def State.setPhase (s : State) (p : Phase) : State :=
  { s with sched := { s.sched with phase := p } }

def claim (s : State) (api : Api) (byteOffset nBytes pcEntry : BitVec 64) (opcode : BitVec 8) :
    State :=
  { s with
    prodTail := s.prodTail + 1#32
    calls := update s.calls s.claimed ⟨api, byteOffset, nBytes, pcEntry, opcode, s.prodTail, .full⟩
    claimed := s.claimed + 1 }

def callStep (r : Ring) (s : State) (g : Nat) : Option State :=
  let c := s.calls g
  let idx := r.index c.slot
  match c.pc with
  | .full =>
    if r.capacity ≤ (c.slot - s.consHead).toNat then some s else some (s.setPc g .clearFlag)
  | .clearFlag =>
    some { s.setPc g .putOffset with doneFlags := update s.doneFlags idx 0#32 }
  | .putOffset =>
    some { s.setPc g .putEntry with
      entries := update s.entries idx { s.entries idx with byteOffset := c.byteOffset } }
  | .putEntry =>
    some { s.setPc g .putOpcode with
      entries := update s.entries idx { s.entries idx with pcEntry := c.pcEntry } }
  | .putOpcode =>
    some { s.setPc g .putSize with
      entries := update s.entries idx { s.entries idx with opcode := c.opcode } }
  | .putSize =>
    some { s.setPc g .publish with
      entries := update s.entries idx
        { s.entries idx with nBytesLog2 := ioSchedEncodeNbytes c.nBytes } }
  | .publish =>
    some { s.setPc g .returned with prodSeq := update s.prodSeq idx (c.slot + 1#32) }
  | .returned =>
    match c.api with
    | .sync => if s.doneSeq idx < c.slot + 1#32 then some s else some (s.setPc g .finished)
    | .async => if s.doneFlags idx = 0#32 then some s else some (s.setPc g .polled)
    | .forget => none
  | .polled =>
    some { s.setPc g .finished with doneFlags := update s.doneFlags idx 0#32 }
  | .finished => none

def Sched.slot (b : Sched) (i : Nat) : BitVec 32 :=
  b.base + BitVec.ofNat 32 b.acc + BitVec.ofNat 32 i

def Sched.scanSlot (b : Sched) : ScanFor → Nat → BitVec 32
  | .exit, i => b.base + BitVec.ofNat 32 i
  | .more _, i => b.slot i

def scanMax (r : Ring) (b : Sched) : ScanFor → Nat
  | .exit => r.batchRoom
  | .more _ => r.batchRoom - b.acc

def afterScan (b : Sched) (n : Nat) : ScanFor → Sched
  | .exit => { b with phase := if n = 0 then .exited else .tail }
  | .more ns =>
    if n = 0 then { b with phase := .adapt (ns/2) }
    else { b with
      phase := .tail
      drainNs := if b.drainNs < 8192 then 2*b.drainNs else b.drainNs }

/-- One access of the block. `pick` is the thread (in the notify phase, the request)
that moves where the threads work side by side; a barrier passes when none has
work left. Every thread loads `shutdown` for itself. Threads that disagree meet different
barriers, which CUDA leaves undefined: some return, and a block torn in this way may be
gone at any time, whatever the ring still holds. -/
def schedStep (r : Ring) (s : State) (pick : Nat) : Option State :=
  let b := s.sched
  match b.phase with
  | .top => some { s with sched := { b with base := s.consHead, acc := 0, phase := .tail } }
  | .tail =>
    let pending := (s.prodTail - b.slot 0).toNat
    some (s.setPhase (.probe (min (min pending (r.batchRoom - b.acc)) kSchedThreads) fun _ => none))
  | .probe roundMax ready =>
    if (List.range kSchedThreads).all fun t => (ready t).isSome then
      let lead := leadCount (warpBallots (fun t => decide (ready t = some true)) 4 0)
      let avail := min lead roundMax
      some (s.setPhase (if 0 < avail then .fetch avail fun _ => false else .branch 0))
    else if pick < kSchedThreads ∧ ready pick = none then
      let hit := decide (pick < roundMax) &&
        decide (s.prodSeq (r.index (b.slot pick)) = b.slot pick + 1#32)
      some (s.setPhase (.probe roundMax (update ready pick (some hit))))
    else none
  | .fetch avail loaded =>
    if (List.range avail).all loaded then
      some { s with
        sched := { b with
          acc := b.acc + avail
          phase := if avail = kSchedThreads then .tail else .branch avail }
        drained := s.drained ++ (List.range avail).map fun t => b.buf (b.acc+t) }
    else if pick < avail ∧ loaded pick = false then
      some { s with sched := { b with
        buf := update b.buf (b.acc+pick) (drain (s.entries (r.index (b.slot pick))))
        phase := .fetch avail (update loaded pick true) } }
    else none
  | .branch avail =>
    some (s.setPhase
      (if avail = 0 ∧ b.acc = 0 then .flag fun _ => none
      else if b.acc = 0 then .tail
      else match r.kernel with
        | .write => .adapt b.drainNs
        | .read => .submit))
  | .flag seen =>
    if (List.range kSchedThreads).all fun t => (seen t).isSome then
      some (s.setPhase
        (if (List.range kSchedThreads).all fun t => seen t == some false then .tail
        else if (List.range kSchedThreads).all fun t => seen t == some true then .scanTail .exit
        else .torn))
    else if pick < kSchedThreads ∧ seen pick = none then
      some (s.setPhase (.flag (update seen pick (some (s.shutdown != 0#32)))))
    else none
  | .scanTail why =>
    let pending := (s.prodTail - b.scanSlot why 0).toNat
    some (s.setPhase (.scan why (min pending (scanMax r b why)) 0))
  | .scan why pending i =>
    if i < pending ∧ s.prodSeq (r.index (b.scanSlot why i)) = b.scanSlot why i + 1#32 then
      some (s.setPhase (.scan why pending (i+1)))
    else some { s with sched := afterScan b i why }
  | .adapt ns =>
    if 64 ≤ ns then some (s.setPhase (.scanTail (.more ns)))
    else some { s with sched := { b with
      phase := .submit
      drainNs := if 64 < b.drainNs then b.drainNs/2 else b.drainNs } }
  | .submit =>
    some { s.setPhase (.notify (fun _ => false) fun _ => false) with submitted := s.drained.length }
  | .notify seqDone flagDone =>
    let slot := b.base + BitVec.ofNat 32 pick
    let skip := fun i => padKey r.kernel (b.buf i).byteOffset i
    if (List.range b.acc).all fun i => flagDone i || skip i then some (s.setPhase .advance)
    else if pick < b.acc ∧ skip pick = false ∧ seqDone pick = false then
      some { s.setPhase (.notify (update seqDone pick true) flagDone) with
        doneSeq := update s.doneSeq (r.index slot) (slot + 1#32)
        seqStored := update s.seqStored (s.retired+pick) true }
    else if pick < b.acc ∧ skip pick = false ∧ flagDone pick = false then
      some { s.setPhase (.notify seqDone (update flagDone pick true)) with
        doneFlags := update s.doneFlags (r.index slot) 1#32
        flagStored := update s.flagStored (s.retired+pick) true }
    else none
  | .advance =>
    some { s.setPhase .top with
      consHead := s.consHead + BitVec.ofNat 32 b.acc
      retired := s.retired + b.acc }
  | .exited => none
  | .torn => some (s.setPhase .exited)

inductive Act where
  | claim (api : Api) (byteOffset nBytes pcEntry : BitVec 64) (opcode : BitVec 8)
  | call (g : Nat)
  | shutdown
  | sched (pick : Nat)

def step (r : Ring) (s : State) : Act → Option State
  | .claim api byteOffset nBytes pcEntry opcode =>
    some (claim s api byteOffset nBytes pcEntry opcode)
  | .call g => if g < s.claimed then callStep r s g else none
  | .shutdown => some { s with shutdown := 1#32 }
  | .sched pick => schedStep r s pick

def init : State where
  entries := fun _ => ⟨0, 0, 0, 0⟩
  doneFlags := fun _ => 0
  doneSeq := fun _ => 0
  prodSeq := fun _ => 0
  prodTail := 0
  consHead := 0
  shutdown := 0
  calls := fun _ => ⟨.forget, 0, 0, 0, 0, 0, .full⟩
  sched := ⟨.top, 0, 0, fun _ => ⟨0, 0, 0⟩, 8192⟩
  claimed := 0
  retired := 0
  drained := []
  submitted := 0
  seqStored := fun _ => false
  flagStored := fun _ => false

def CallPc.inEnqueue : CallPc → Bool
  | .returned | .polled | .finished => false
  | _ => true

def unfinished (s : State) : Nat := (List.range s.claimed).countP fun g => (s.calls g).pc.inEnqueue

inductive Run (r : Ring) (ok : State → Act → Prop) (s : State) : State → Prop where
  | refl : Run r ok s s
  | step {t u : State} {a : Act} : Run r ok s t → ok t a → step r t a = some u →
      unfinished u < 2^31 → Run r ok s u

def Ring.keyed (r : Ring) (byteOffset : BitVec 64) : Prop :=
  ∀ orig, padKey r.kernel byteOffset orig = false

theorem keyed_write {r : Ring} (hk : r.kernel = .write) (byteOffset : BitVec 64) :
    r.keyed byteOffset := by
  intro orig
  rw [hk]
  rfl

/-- Every even offset, so every address of a block, has keys of its own. -/
theorem keyed_of_even (r : Ring) {byteOffset : BitVec 64} (h : byteOffset.getLsbD 0 = false) :
    r.keyed byteOffset := by
  intro orig
  unfold padKey
  cases r.kernel with
  | write => rfl
  | read =>
    have hbit : (ioSchedMakeSortKey byteOffset (BitVec.ofNat 32 orig)).getLsbD 9 = false := by
      simpa [ioSchedMakeSortKey, kSortKeyIndexBits, kSortKeyIndexMask] using h
    refine beq_false_of_ne fun he => ?_
    rw [he] at hbit
    simp at hbit

def keyedStep (r : Ring) (_ : State) : Act → Prop
  | .claim _ byteOffset _ _ _ => r.keyed byteOffset
  | _ => True

abbrev Reach (r : Ring) : State → Prop := Run r (keyedStep r) init

theorem Run.trans {r : Ring} {ok : State → Act → Prop} {s t u : State}
    (h : Run r ok s t) (h' : Run r ok t u) : Run r ok s u := by
  induction h' with
  | refl => exact h
  | step _ hok hs hu ih => exact .step ih hok hs hu

end Shaper.RingMachine
