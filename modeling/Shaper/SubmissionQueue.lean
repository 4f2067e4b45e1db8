import Mathlib.Logic.Function.Basic
import Shaper.Lib.Counter

/-! The submission queue of an NVMe queue pair as a machine: any number of calls of
`sq_enqueue`, the updates of the queue's head that `cq_dequeue` makes on the way, and
a device that fetches commands in order up to the doorbell and reports its fetch
pointer in each completion. One memory access a step. A call is named by the position
of its `fetch_add` on `in_ticket`; that name is history. -/
namespace Shaper.SubmissionQueue
open Function

structure Queue where
  qsLog2 : Nat
  qsLog2_pos : 0 < qsLog2
  qsLog2_le : qsLog2 ≤ 16

namespace Queue
def qs (q : Queue) : Nat := 2^q.qsLog2
def qsMinus1 (q : Queue) : BitVec 32 := BitVec.ofNat 32 q.qs - 1#32
def loc (q : Queue) (x : BitVec 32) : BitVec 32 := x &&& q.qsMinus1
end Queue

def getId (x : BitVec 64) (y : Nat) : BitVec 64 := (x >>> y) * 2#64

structure Cmd where
  lo : BitVec 256
  hi : BitVec 256
  deriving DecidableEq

/-- The part of a completion that `move_head_cq` reads. `fetched` is history: how many
commands the device had fetched when it reported. -/
structure Cpl where
  sqhd : BitVec 16
  fetched : Nat
  deriving DecidableEq

/-- The two waits for the ticket, the copy, the mark, the loop over the mark with the
section under `tail_lock`, and the last `fetch_add`. -/
inductive CallPc where
  | spin | acquire | copyLo | copyHi | mark
  | look | lockLoad | lockOr
  | loadTail
  | full (curTail count : BitVec 32)
  | sweep (curTail count : BitVec 32)
  | fence (curTail count : BitVec 32)
  | ring (curTail count : BitVec 32)
  | putTail (curTail count : BitVec 32)
  | unlock
  | leave | left
  deriving DecidableEq

structure Call where
  cmd : Cmd
  ticket : BitVec 32
  pc : CallPc
  deriving DecidableEq

/-- The loop of `move_head_cq` over the submission queue, run under the `head_lock` of
the completion queue: by one thread at a time. -/
inductive Mover where
  | idle
  | load (c : Cpl)
  | bump (c : Cpl) (loc count : BitVec 32)
  deriving DecidableEq

/-- Marks and locks are LOCKED when true. `taken` is what the device has fetched and
`cpls` what it has posted, of which `passed` have been dequeued. The fields from
`claimed` on are history: `swept`, `rung` and `tailed` count the commands whose mark
`move_tail` has cleared, that a doorbell store has opened and that `tail` has passed;
`moved` and `retired` those whose ticket `move_head_cq` has incremented and that `head`
has passed; `leaves` and `moves` split the increments of a ticket by their author, and
`advances` lists the cells that each doorbell store has opened. -/
structure State where
  tickets : BitVec 32 → BitVec 32
  tailMark : BitVec 32 → Bool
  tailLock : Bool
  headLock : BitVec 32
  head : BitVec 32
  tail : BitVec 32
  db : BitVec 32
  inTicket : BitVec 32
  cells : BitVec 32 → Cmd
  calls : Nat → Call
  mover : Mover
  taken : List Cmd
  cpls : List Cpl
  passed : Nat
  claimed : Nat
  swept : Nat
  rung : Nat
  tailed : Nat
  moved : Nat
  retired : Nat
  leaves : BitVec 32 → Nat
  moves : BitVec 32 → Nat
  advances : List (List (BitVec 32))

def repc (calls : Nat → Call) (g : Nat) (pc : CallPc) : Nat → Call :=
  update calls g { calls g with pc := pc }

theorem repc_apply (calls : Nat → Call) (g g' : Nat) (pc : CallPc) : repc calls g pc g' =
    { calls g' with pc := if g' = g then pc else (calls g').pc } := by
  unfold repc
  by_cases h : g' = g
  · subst h
    simp
  · simp [h]

def State.setPc (s : State) (g : Nat) (pc : CallPc) : State :=
  { s with calls := repc s.calls g pc }

def admits (q : Queue) (s : State) (ticket : BitVec 32) : Bool :=
  (s.tickets (q.loc ticket)).setWidth 64 == getId (ticket.setWidth 64) q.qsLog2

def claim (s : State) (cmd : Cmd) : State :=
  { s with
    inTicket := s.inTicket + 1#32
    calls := update s.calls s.claimed ⟨cmd, s.inTicket, .spin⟩
    claimed := s.claimed + 1 }

def opens (q : Queue) (old new : BitVec 32) : List (BitVec 32) :=
  (List.range (q.loc (new - old)).toNat).map fun i => q.loc (old + BitVec.ofNat 32 i)

/-- `sq_enqueue` after the ticket, with `move_tail` from `full` to `fence`. -/
def callStep (q : Queue) (s : State) (g : Nat) : Option State :=
  let c := s.calls g
  let pos := q.loc c.ticket
  match c.pc with
  | .spin => if admits q s c.ticket then some (s.setPc g .acquire) else some s
  | .acquire => if admits q s c.ticket then some (s.setPc g .copyLo) else some s
  | .copyLo =>
    some { s.setPc g .copyHi with
      cells := update s.cells pos { s.cells pos with lo := c.cmd.lo } }
  | .copyHi =>
    some { s.setPc g .mark with
      cells := update s.cells pos { s.cells pos with hi := c.cmd.hi } }
  | .mark => some { s.setPc g .look with tailMark := update s.tailMark pos true }
  | .look => if s.tailMark pos then some (s.setPc g .lockLoad) else some (s.setPc g .leave)
  | .lockLoad => if s.tailLock then some (s.setPc g .look) else some (s.setPc g .lockOr)
  | .lockOr =>
    if s.tailLock then some (s.setPc g .look)
    else some { s.setPc g .loadTail with tailLock := true }
  | .loadTail => some (s.setPc g (.full s.tail 0#32))
  | .full curTail count =>
    if q.loc (curTail + count + 1#32) = q.loc s.head then some (s.setPc g (.fence curTail count))
    else some (s.setPc g (.sweep curTail count))
  | .sweep curTail count =>
    let here := q.loc (curTail + count)
    if s.tailMark here then
      some { s.setPc g (.full curTail (count + 1#32)) with
        tailMark := update s.tailMark here false
        swept := s.swept + 1 }
    else
      some { s.setPc g (.fence curTail count) with tailMark := update s.tailMark here false }
  | .fence curTail count =>
    if count = 0#32 then some { s.setPc g .unlock with headLock := s.headLock + 1#32 }
    else some { s.setPc g (.ring curTail count) with headLock := s.headLock + 1#32 }
  | .ring curTail count =>
    let newDb := q.loc (curTail + count)
    some { s.setPc g (.putTail curTail count) with
      db := newDb
      rung := s.swept
      advances := s.advances ++ [opens q s.db newDb] }
  | .putTail curTail count =>
    some { s.setPc g .unlock with tail := curTail + count, tailed := s.rung }
  | .unlock => some { s.setPc g .look with tailLock := false }
  | .leave =>
    some { s.setPc g .left with
      tickets := update s.tickets pos (s.tickets pos + 1#32)
      leaves := update s.leaves pos (s.leaves pos + 1) }
  | .left => none

def fetchLoc (q : Queue) (s : State) : BitVec 32 := BitVec.ofNat 32 (s.taken.length % q.qs)

def fetch (q : Queue) (s : State) : Option State :=
  if fetchLoc q s = s.db then none
  else some { s with taken := s.taken ++ [s.cells (fetchLoc q s)] }

def report (q : Queue) (fetched : Nat) : Cpl := ⟨BitVec.ofNat 16 (fetched % q.qs), fetched⟩

def post (q : Queue) (s : State) : Option State :=
  if s.cpls.length < s.taken.length then
    some { s with cpls := s.cpls ++ [report q s.taken.length] }
  else none

/-- `move_head_cq` has found the marks of the next `n` completions: the last one of
them tells the new head. -/
def pass (s : State) (n : Nat) : Option State :=
  match s.mover, s.cpls[s.passed + n]? with
  | .idle, some c => some { s with mover := .load c, passed := s.passed + n + 1 }
  | _, _ => none

def moveStep (q : Queue) (s : State) : Option State :=
  match s.mover with
  | .idle => none
  | .load c => some { s with mover := .bump c (q.loc s.head) 0#32 }
  | .bump c loc count =>
    if loc = c.sqhd.setWidth 32 then
      some { s with mover := .idle, head := s.head + count, retired := s.moved }
    else
      some { s with
        mover := .bump c (q.loc (loc + 1#32)) (count + 1#32)
        tickets := update s.tickets loc (s.tickets loc + 1#32)
        moved := s.moved + 1
        moves := update s.moves loc (s.moves loc + 1) }

inductive Step (q : Queue) (s : State) : State → Prop where
  | claim (cmd : Cmd) : Step q s (claim s cmd)
  | call {g : Nat} {s' : State} (hg : g < s.claimed) (h : callStep q s g = some s') : Step q s s'
  | fetch {s' : State} (h : fetch q s = some s') : Step q s s'
  | post {s' : State} (h : post q s = some s') : Step q s s'
  | pass {n : Nat} {s' : State} (h : pass s n = some s') : Step q s s'
  | move {s' : State} (h : moveStep q s = some s') : Step q s s'

def init : State where
  tickets := fun _ => 0#32
  tailMark := fun _ => false
  tailLock := false
  headLock := 0#32
  head := 0#32
  tail := 0#32
  db := 0#32
  inTicket := 0#32
  cells := fun _ => ⟨0, 0⟩
  calls := fun _ => ⟨⟨0, 0⟩, 0#32, .spin⟩
  mover := .idle
  taken := []
  cpls := []
  passed := 0
  claimed := 0
  swept := 0
  rung := 0
  tailed := 0
  moved := 0
  retired := 0
  leaves := fun _ => 0
  moves := fun _ => 0
  advances := []

inductive Reach (q : Queue) (ok : State → Prop) : State → Prop where
  | init : Reach q ok init
  | step {s s' : State} (hs : Reach q ok s) (h : Step q s s') (hok : ok s') : Reach q ok s'

end Shaper.SubmissionQueue
