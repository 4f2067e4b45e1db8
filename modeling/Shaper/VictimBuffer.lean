import Shaper.Lib.Exchange
import Shaper.PrpBuild
import Shaper.RingMachine

/-! The victim paths of `find_slot` in pointer-swap mode, together with the request ring and
the part of the notify phase that frees victim entries: any number of evicting threads and
one scheduler block, one memory access a step. -/
namespace Shaper.VictimBuffer
open Function RingMachine Lib.Exchange PrpBuild

inductive Holder where
  | page (p : Nat)
  | entry (v : Nat)
  deriving DecidableEq

/-- A cache of `nPages` pages with a victim buffer of `2^entriesLog` entries. `queued` says
whether there is an `evict_queue`; the tables are those at the start, with the I/O addresses
sub-page by sub-page. -/
structure Setup where
  ring : Ring
  write : ring.kernel = .write
  queued : Bool
  nPages : Nat
  nPages_lt : nPages < 2^31
  entriesLog : Nat
  entriesLog_le : entriesLog ≤ 31
  ppe : Nat
  prps : Bool
  prp1 : Nat → BitVec 64
  prp2 : Nat → BitVec 64
  vaddr : Holder → BitVec 64
  ioaddr : Holder → Nat → BitVec 64

namespace Setup
variable (u : Setup)

def nEntries : Nat := 2^u.entriesLog
def nEntriesMask : BitVec 32 := BitVec.ofNat 32 u.nEntries - 1#32
def pageSize : BitVec 64 := BitVec.ofNat 64 (4096*u.ppe)

def Has : Holder → Prop
  | .page p => p < u.nPages
  | .entry v => v < u.nEntries

def row (h : Holder) : Nat → BitVec 64
  | 0 => u.vaddr h
  | j+1 => u.ioaddr h j
end Setup

inductive EntryState where
  | free | copying | occupied
  deriving DecidableEq

structure Job where
  page : Nat
  byteOffset : BitVec 64
  entry : Nat

inductive Pc where
  | out
  | locked (p : Nat)
  | ticket (p : Nat) (byteOffset : BitVec 64)
  | cas (j : Job)
  | swap (j : Job) (st : Stage (BitVec 64))
  | prp1 (j : Job)
  | prp2 (j : Job)
  | offset (j : Job)
  | occupy (j : Job)
  | enqueue (j : Job)
  | enqueuing (p g : Nat)
  | fallback (p : Nat) (byteOffset : BitVec 64)
  | blocked (p g : Nat)
  | done (p : Nat)

inductive Note where
  | fresh | cleared | freed
  deriving DecidableEq

/-- The tables of the page cache and of the victim buffer, the ring, and the threads. `lock p`
says that `page_take_lock` is LOCKED. `notes` is the progress of the block's threads in the
victim part of the notify loop, by the number of the call. -/
structure State where
  lock : Nat → Bool
  pageVaddrs : Nat → BitVec 64
  pageIoaddrs : Nat → BitVec 64
  prp1 : Nat → BitVec 64
  prp2 : Nat → BitVec 64
  entryVaddrs : Nat → BitVec 64
  dataIoaddrs : Nat → BitVec 64
  byteOffsets : Nat → BitVec 64
  states : Nat → EntryState
  allocTicket : BitVec 32
  thread : Nat → Pc
  ring : RingMachine.State
  notes : Nat → Note

def init (u : Setup) : State where
  lock _ := false
  pageVaddrs p := u.vaddr (.page p)
  pageIoaddrs k := u.ioaddr (.page (k/u.ppe)) (k%u.ppe)
  prp1 := u.prp1
  prp2 := u.prp2
  entryVaddrs v := u.vaddr (.entry v)
  dataIoaddrs k := u.ioaddr (.entry (k/u.ppe)) (k%u.ppe)
  byteOffsets _ := BitVec.allOnes 64
  states _ := .free
  allocTicket := 0
  thread _ := .out
  ring := RingMachine.init
  notes _ := .fresh

variable {u : Setup}

def State.row (u : Setup) (s : State) : Holder → Nat → BitVec 64
  | .page p, 0 => s.pageVaddrs p
  | .page p, j+1 => s.pageIoaddrs (p*u.ppe+j)
  | .entry v, 0 => s.entryVaddrs v
  | .entry v, j+1 => s.dataIoaddrs (v*u.ppe+j)

def State.setCell (u : Setup) (s : State) (h : Holder) (c : Nat) (x : BitVec 64) : State :=
  match h, c with
  | .page p, 0 => { s with pageVaddrs := update s.pageVaddrs p x }
  | .page p, j+1 => { s with pageIoaddrs := update s.pageIoaddrs (p*u.ppe+j) x }
  | .entry v, 0 => { s with entryVaddrs := update s.entryVaddrs v x }
  | .entry v, j+1 => { s with dataIoaddrs := update s.dataIoaddrs (v*u.ppe+j) x }

def State.move (s : State) (i : Nat) (pc : Pc) : State := { s with thread := update s.thread i pc }

def swapStep (u : Setup) (s : State) (i : Nat) (j : Job) : Stage (BitVec 64) → State
  | .loadA c =>
    if c < u.ppe+1 then s.move i (.swap j (.loadB c (s.row u (.page j.page) c)))
      else s.move i (.prp1 j)
  | .loadB c tmp => s.move i (.swap j (.storeA c tmp (s.row u (.entry j.entry) c)))
  | .storeA c tmp x => (s.setCell u (.page j.page) c x).move i (.swap j (.storeB c tmp))
  | .storeB c tmp => (s.setCell u (.entry j.entry) c tmp).move i (.swap j (.loadA (c+1)))

def nvmIoWrite : BitVec 8 := 1#8

def victimPe (v : Nat) : BitVec 64 := VictimPcEntryBit ||| BitVec.ofNat 64 v

def isVictim (pe : BitVec 64) : Bool := pe &&& VictimPcEntryBit != 0#64

def victimIdx (pe : BitVec 64) : Nat := ((pe &&& VictimPcEntryMask).setWidth 32).toNat

/-- A thread inside `io_sched_enqueue`, or waiting in `io_sched_write`, until its call is
at `last`. -/
def callOr (u : Setup) (s : State) (i p g : Nat) (last : CallPc) : Option State :=
  if (s.ring.calls g).pc = last then some (s.move i (.done p))
  else (RingMachine.step u.ring s.ring (.call g)).map fun ring => { s with ring := ring }

/-- The next access of thread `i` once it evicts. Without `evict_queue` the entry is only filled,
and the fallback is a `write_data` of the page. -/
def threadStep (u : Setup) (s : State) (i : Nat) : Option State :=
  match s.thread i with
  | .out => none
  | .locked _ => none
  | .ticket p byteOffset => some { s with
      allocTicket := s.allocTicket + 1#32
      thread := update s.thread i (.cas ⟨p, byteOffset, (s.allocTicket &&& u.nEntriesMask).toNat⟩) }
  | .cas j =>
    if s.states j.entry = .free then
      some { s with
        states := update s.states j.entry .copying
        thread := update s.thread i (.swap j (.loadA 0)) }
    else some (s.move i (.fallback j.page j.byteOffset))
  | .swap j st => some (swapStep u s i j st)
  | .prp1 j =>
    some { s.move i (.prp2 j) with prp1 := update s.prp1 j.page (s.pageIoaddrs (j.page*u.ppe)) }
  | .prp2 j => some { s.move i (.offset j) with
      prp2 := if 2 ≤ u.ppe ∧ u.prps = true then
      update s.prp2 j.page (s.pageIoaddrs (j.page*u.ppe+1))
        else s.prp2 }
  | .offset j =>
    some { s.move i (.occupy j) with byteOffsets := update s.byteOffsets j.entry j.byteOffset }
  | .occupy j => some { s.move i (if u.queued then .enqueue j else .done j.page) with
      states := update s.states j.entry .occupied }
  | .enqueue j => some { s.move i (.enqueuing j.page s.ring.claimed) with
      ring := claim s.ring .forget j.byteOffset u.pageSize (victimPe j.entry) nvmIoWrite }
  | .enqueuing p g => callOr u s i p g .returned
  | .fallback p byteOffset =>
    if u.queued then some { s.move i (.blocked p s.ring.claimed) with
      ring := claim s.ring .sync byteOffset u.pageSize (BitVec.ofNat 64 p) nvmIoWrite }
    else some (s.move i (.done p))
  | .blocked p g => callOr u s i p g .finished
  | .done p => some { s.move i .out with lock := update s.lock p false }

def notesDone (s : State) : Bool :=
  (List.range s.ring.sched.acc).all fun k =>
    !isVictim (s.ring.sched.buf k).pcEntry || s.notes (s.ring.retired+k) == .freed

def schedStep (u : Setup) (s : State) (pick : Nat) : Option State :=
  (RingMachine.step u.ring s.ring (.sched pick)).bind fun ring =>
    match s.ring.sched.phase, ring.sched.phase with
    | .notify _ _, .advance => if notesDone s then some { s with ring := ring } else none
    | _, _ => some { s with ring := ring }

/-- The victim part of the notify loop for request `pick`, after its flag is stored. The
`reader_counts` are 0, as nothing that counts readers is compiled in. -/
def noteStep (s : State) (pick : Nat) : Option State :=
  match s.ring.sched.phase with
  | .notify _ flagDone =>
    let pe := (s.ring.sched.buf pick).pcEntry
    let g := s.ring.retired + pick
    if pick < s.ring.sched.acc ∧ flagDone pick = true ∧ isVictim pe = true then
      match s.notes g with
      | .fresh => some { s with
          byteOffsets := update s.byteOffsets (victimIdx pe) (BitVec.allOnes 64)
          notes := update s.notes g .cleared }
      | .cleared => some { s with
          states := update s.states (victimIdx pe) .free
          notes := update s.notes g .freed }
      | .freed => none
    else none
  | _ => none

/-- `take` locks the slot that a thread's `page_ticket` gave it, `leave` unlocks it without an
eviction, `evict` finds its page dirty. -/
inductive Act where
  | take (i p : Nat)
  | leave (i : Nat)
  | evict (i : Nat) (byteOffset : BitVec 64)
  | thread (i : Nat)
  | sched (pick : Nat)
  | note (pick : Nat)
  | shutdown

def step (u : Setup) (s : State) : Act → Option State
  | .take i p => match s.thread i with
    | .out => if p < u.nPages ∧ s.lock p = false then
        some { s.move i (.locked p) with lock := update s.lock p true } else none
    | _ => none
  | .leave i => match s.thread i with
    | .locked p => some { s.move i .out with lock := update s.lock p false }
    | _ => none
  | .evict i byteOffset => match s.thread i with
    | .locked p => some (s.move i (.ticket p byteOffset))
    | _ => none
  | .thread i => threadStep u s i
  | .sched pick => schedStep u s pick
  | .note pick => noteStep s pick
  | .shutdown => (RingMachine.step u.ring s.ring .shutdown).map fun ring => { s with ring := ring }

inductive Reach (u : Setup) : State → Prop where
  | init : Reach u (init u)
  | step {s s' : State} {a : Act} : Reach u s → step u s a = some s' → Reach u s'

end Shaper.VictimBuffer
