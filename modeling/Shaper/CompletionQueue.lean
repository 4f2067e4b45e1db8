import Shaper.SubmissionQueue

/-! The completion queue of an NVMe queue pair together with its submission queue: any
number of threads, each running `get_cid`, `sq_enqueue`, `cq_poll`, `cq_dequeue` and
`put_cid` for one command, and a device that completes the fetched commands in any
order. One memory access a step; the steps inside `sq_enqueue` and of the loop of
`move_head_cq` over the submission queue are those of the submission queue. -/
namespace Shaper.CompletionQueue
open Function SubmissionQueue

def cidOf (c : Cmd) : BitVec 16 := c.lo.extractLsb' 16 16

/-- `nvm_cpl_t`: the submission queue head, the identifier and the phase tag. The number
`command` of the command that it completes is history. -/
structure Entry where
  cpl : Cpl
  cid : BitVec 16
  phase : Bool
  command : Nat
  deriving DecidableEq

/-- `get_cid`, `sq_enqueue`, `cq_poll`, and `cq_dequeue` with the section under
`head_lock`, of which `sweep` to `moving` are `move_head_cq`. -/
inductive Pc where
  | ticket
  | lock (id : BitVec 16)
  | enqueue | inQueue
  | loadHead
  | scan (head : BitVec 32) (i : Nat)
  | tailAdd | waitPos | takePos | mark
  | look | lockHead
  | loadCur
  | sweep (cur count : BitVec 32)
  | readCpl (cur count : BitVec 32)
  | moving (cur count : BitVec 32)
  | ringHead (cur count : BitVec 32)
  | storeHead (cur count : BitVec 32)
  | unlock
  | loadNew
  | freePos | putCid | finished
  deriving DecidableEq

/-- `call` names the call of `sq_enqueue`; `pos`, `loc` and `head` are what `cq_poll`
returned. The rest up to `pc` is history: how many completions the head had passed when
the thread took its identifier (`since`) and when `cq_poll` last loaded the head
(`base`), the count that `loc` stands for (`got`), and the command whose completion
`cq_poll` found (`answer`). -/
structure Thread where
  cid : BitVec 16
  call : Nat
  pos : BitVec 32
  loc : BitVec 32
  head : BitVec 32
  since : Nat
  base : Nat
  got : Nat
  answer : Nat
  pc : Pc
  deriving DecidableEq

def newThread : Thread := ⟨0#16, 0, 0#32, 0#32, 0#32, 0, 0, 0, 0, .ticket⟩

/-- Locks and marks are LOCKED when true. The fields from `started` on are history:
`log` lists the completions posted, `swept` counts those whose mark `move_head_cq` has
cleared, `rung` and `passed` those that the doorbell has released and `head` has
passed, and `advances` lists the cells that each store to `head` has passed. -/
structure State where
  sq : SubmissionQueue.State
  cidTicket : BitVec 32
  cidLock : BitVec 16 → Bool
  cells : BitVec 32 → Entry
  headMark : BitVec 32 → Bool
  posLock : BitVec 32 → Bool
  headLock : Bool
  head : BitVec 32
  tail : BitVec 32
  db : BitVec 32
  threads : Nat → Thread
  started : Nat
  log : List Entry
  swept : Nat
  rung : Nat
  passed : Nat
  advances : List (List (BitVec 32))

def State.setThread (s : State) (n : Nat) (t : Thread) : State :=
  { s with threads := update s.threads n t }

def searchPhase (r : Queue) (cur : BitVec 32) : Bool := !(cur >>> r.qsLog2).getLsbD 0

def phaseAt (r : Queue) (y : Nat) : Bool := y / r.qs % 2 == 0

def scanThread (r : Queue) (e : Entry) (t : Thread) (head : BitVec 32) (i : Nat) : Thread :=
  let cur := head + BitVec.ofNat 32 i
  if e.cid = t.cid ∧ e.phase = searchPhase r cur then
    { t with
      pos := r.loc cur, loc := cur, head := head, got := t.base + i, answer := e.command
      pc := .tailAdd }
  else if e.phase ≠ searchPhase r cur then { t with pc := .loadHead }
  else { t with pc := .scan head (i+1) }

/-- The last wait of `cq_dequeue`: has the head, which was `old` at the poll and is
`new` now, passed the position `loc`? -/
def hasPassed (new old loc : BitVec 32) : Bool :=
  if old < new then decide (old ≤ loc) && decide (loc < new)
  else if new < old then decide (old ≤ loc) || decide (loc < new)
  else false

def passes (r : Queue) (cur count : BitVec 32) : List (BitVec 32) :=
  (List.range count.toNat).map fun i => r.loc (cur + BitVec.ofNat 32 i)

/-- A step of thread `n`. The call of `sq_enqueue` begins with a step of its own. -/
def threadStep (q r : Queue) (s : State) (n : Nat) : Option State :=
  let t := s.threads n
  match t.pc with
  | .ticket =>
    some { s.setThread n { t with pc := .lock (s.cidTicket.setWidth 16) } with
      cidTicket := s.cidTicket + 1#32 }
  | .lock id =>
    if s.cidLock id then some (s.setThread n { t with pc := .ticket })
    else some { s.setThread n { t with cid := id, since := s.passed, pc := .enqueue } with
      cidLock := update s.cidLock id true }
  | .enqueue => none
  | .inQueue =>
    if (s.sq.calls t.call).pc = .left then some (s.setThread n { t with pc := .loadHead })
    else (callStep q s.sq t.call).map fun sq => { s with sq := sq }
  | .loadHead =>
    some (s.setThread n { t with base := s.passed, pc := .scan s.head 0 })
  | .scan head i =>
    if i < r.qs - 1 then
      some (s.setThread n (scanThread r (s.cells (r.loc (head + BitVec.ofNat 32 i))) t head i))
    else some (s.setThread n { t with pc := .loadHead })
  | .tailAdd => some { s.setThread n { t with pc := .waitPos } with tail := s.tail + 1#32 }
  | .waitPos => if s.posLock t.pos then some s else some (s.setThread n { t with pc := .takePos })
  | .takePos =>
    if s.posLock t.pos then some s
    else some { s.setThread n { t with pc := .mark } with posLock := update s.posLock t.pos true }
  | .mark =>
    some { s.setThread n { t with pc := .look } with headMark := update s.headMark t.pos true }
  | .look =>
    if s.headMark t.pos then some (s.setThread n { t with pc := .lockHead })
    else some (s.setThread n { t with pc := .loadNew })
  | .lockHead =>
    if s.headLock then some (s.setThread n { t with pc := .look })
    else some { s.setThread n { t with pc := .loadCur } with headLock := true }
  | .loadCur => some (s.setThread n { t with pc := .sweep s.head 0#32 })
  | .sweep cur count =>
    let here := r.loc (cur + count)
    if s.headMark here then
      some { s.setThread n { t with pc := .sweep cur (count + 1#32) } with
        headMark := update s.headMark here false
        swept := s.swept + 1 }
    else if count = 0#32 then
      some { s.setThread n { t with pc := .unlock } with
        headMark := update s.headMark here false }
    else
      some { s.setThread n { t with pc := .readCpl cur count } with
        headMark := update s.headMark here false }
  | .readCpl cur count =>
    some { s.setThread n { t with pc := .moving cur count } with
      sq := { s.sq with
        mover := .load (s.cells (r.loc (cur + (count - 1#32)))).cpl
        passed := s.swept } }
  | .moving cur count =>
    if s.sq.mover = .idle then some (s.setThread n { t with pc := .ringHead cur count })
    else (moveStep q s.sq).map fun sq => { s with sq := sq }
  | .ringHead cur count =>
    some { s.setThread n { t with pc := .storeHead cur count } with
      db := r.loc (cur + count)
      rung := s.swept }
  | .storeHead cur count =>
    some { s.setThread n { t with pc := .unlock } with
      head := cur + count
      passed := s.rung
      advances := s.advances ++ [passes r cur count] }
  | .unlock => some { s.setThread n { t with pc := .look } with headLock := false }
  | .loadNew =>
    if hasPassed s.head t.head t.loc then some (s.setThread n { t with pc := .freePos })
    else some s
  | .freePos =>
    some { s.setThread n { t with pc := .putCid } with posLock := update s.posLock t.pos false }
  | .putCid =>
    some { s.setThread n { t with pc := .finished } with
      cidLock := update s.cidLock t.cid false }
  | .finished => none

def start (s : State) : State :=
  { s.setThread s.started newThread with started := s.started + 1 }

def enqueue (s : State) (n : Nat) (cmd : Cmd) : State :=
  { s.setThread n { s.threads n with call := s.sq.claimed, pc := .inQueue } with
    sq := claim s.sq cmd }

def post (q r : Queue) (s : State) (f : Nat) : State :=
  let e : Entry := ⟨report q s.sq.taken.length, cidOf (s.sq.taken.getD f ⟨0, 0⟩),
    phaseAt r s.log.length, f⟩
  { s with
    sq := { s.sq with cpls := s.sq.cpls ++ [e.cpl] }
    cells := update s.cells (BitVec.ofNat 32 (s.log.length % r.qs)) e
    log := s.log ++ [e] }

inductive Step (q r : Queue) (ok : State → Nat → Prop) (s : State) : State → Prop where
  | start : Step q r ok s (start s)
  | thread {n : Nat} {s' : State} (hn : n < s.started) (hok : ok s n)
      (h : threadStep q r s n = some s') : Step q r ok s s'
  | enqueue {n : Nat} {cmd : Cmd} (hn : n < s.started) (hpc : (s.threads n).pc = .enqueue)
      (hcid : cidOf cmd = (s.threads n).cid) : Step q r ok s (enqueue s n cmd)
  | fetch {sq : SubmissionQueue.State} (h : fetch q s.sq = some sq) :
      Step q r ok s { s with sq := sq }
  | post {f : Nat} (hf : f < s.sq.taken.length) (hnew : f ∉ s.log.map Entry.command)
      (hroom : BitVec.ofNat 32 ((s.log.length + 1) % r.qs) ≠ s.db) : Step q r ok s (post q r s f)

def init : State where
  sq := SubmissionQueue.init
  cidTicket := 0#32
  cidLock := fun _ => false
  cells := fun _ => ⟨⟨0#16, 0⟩, 0#16, false, 0⟩
  headMark := fun _ => false
  posLock := fun _ => false
  headLock := false
  head := 0#32
  tail := 0#32
  db := 0#32
  threads := fun _ => newThread
  started := 0
  log := []
  swept := 0
  rung := 0
  passed := 0
  advances := []

inductive Reach (q r : Queue) (ok : State → Nat → Prop) : State → Prop where
  | init : Reach q r ok init
  | step {s s' : State} (hs : Reach q r ok s) (h : Step q r ok s s') : Reach q r ok s'

/-- When `cq_poll` reads the entry `i` places after the head it loaded, the device has not
yet posted the completion that comes two laps later in the same place. -/
def Recent (r : Queue) (s : State) (n : Nat) : Prop :=
  ∀ head i, (s.threads n).pc = .scan head i →
    s.log.length ≤ (s.threads n).base + i + 2 * r.qs

end Shaper.CompletionQueue
