import Shaper.MergeScratch
import Shaper.VictimTables

/-! Evictions with their data: the victim machine with device memory, storage, and the merge and
submit phase of the write kernel. The kernel reads the address tables cell by cell, builds the
commands of a chunk, and has the device move the bytes of a call in any order; meanwhile the
threads go on. -/
namespace Shaper.WriteBack
open Function VictimBuffer Nvme PrpBuild Request Merge MergeScratch WriteScheduler Lib.Segments

variable {β : Type*}

/-- A cache with an `evict_queue` and a victim buffer, of pages of one to 512 controller pages,
and what the write kernel works with. `translate` gives the bus address of each controller page
behind a virtual address; `bus` is the memory that is not part of the pool. -/
structure Setup extends VictimBuffer.Setup where
  hasQueue : queued = true
  ppe_pos : 0 < ppe
  ppe_le : ppe ≤ 512
  pages_le : nPages * ppe ≤ 2^32
  entries_le : 2^entriesLog * ppe ≤ 2^32
  translate : BitVec 64 → Nat → BitVec 64
  mapped : ∀ h, toSetup.Has h → ∀ k < ppe, translate (vaddr h) k = ioaddr h k
  aligned : ∀ h k, (ioaddr h k).toNat % 4096 = 0
  ioaddr_inj : ∀ h h' k k', toSetup.Has h → toSetup.Has h' → k < ppe → k' < ppe →
    ioaddr h k = ioaddr h' k' → h = h' ∧ k = k'
  sort : SortVersion
  pool : Option PrpPool
  bus : Nat → BitVec 64
  blkLog : Nat
  block_le : 9 ≤ blkLog
  block_dvd : 2^blkLog ∣ 4096 * ppe

namespace Setup
variable (u : Setup)

def bytes : Nat := 4096 * u.ppe

def cache : PageCache where
  pagesPerEntry := u.ppe
  pageIoaddrs k := u.ioaddr (.page (k/u.ppe)) (k%u.ppe)
  victimIoaddrs k := u.ioaddr (.entry (k/u.ppe)) (k%u.ppe)
  prps := u.prps
  prp2 := u.prp2
  nPages := u.nPages
  nVictims := u.nEntries
  ppe_pos := u.ppe_pos
  ppe_le := u.ppe_le
  pages_le := u.pages_le
  victims_le := u.entries_le
  page_aligned _ := u.aligned _ _
  victim_aligned _ := u.aligned _ _

/-- A page of storage: `index * page_size`, on a device of at most `2^63` bytes. -/
structure Place (q : BitVec 64) : Prop where
  lt : q.toNat < 2^63
  dvd : u.bytes ∣ q.toNat

def load (mem : Nat → BitVec 64) : BitVec 64 → BitVec 64 :=
  match u.pool with
  | some pool => pool.load mem u.bus
  | none => fun a => u.bus a.toNat

def chunkLen (gs : List Group) : Nat := min (min gs.length (poolSlots u.pool)) kSchedMaxBatch
end Setup

inductive Cell where
  | page (k : Nat)
  | entry (k : Nat)
  deriving DecidableEq

def cellOf (ppe : Nat) (pe : BitVec 64) (j : Nat) : Cell :=
  if isVictim pe then
    .entry ((pe &&& VictimPcEntryMask).setWidth 32 * BitVec.ofNat 32 ppe + BitVec.ofNat 32 j).toNat
  else .page (pe * BitVec.ofNat 64 ppe + BitVec.ofNat 64 j).toNat

def cellValue (s : VictimBuffer.State) : Cell → BitVec 64
  | .page k => s.pageIoaddrs k
  | .entry k => s.dataIoaddrs k

def byteAt (a : BitVec 64) (x : Nat) : BitVec 64 := a + BitVec.ofNat 64 (x%4096)

inductive Work where
  | idle
  | merging (gs : List Group)
  | calling (todo : List (List (BitVec 64 × Nat))) (gs : List Group)

/-- `seen` are the cells loaded in this phase. `overrun` and `last` are history: whether step 1b
has written behind its array, and for a place on storage the contents that the page had at its
last eviction. -/
structure State (β : Type*) where
  vic : VictimBuffer.State
  ram : BitVec 64 → β
  disk : Nat → β
  scratch : Scratch
  work : Work
  seen : Cell → Option (BitVec 64)
  overrun : Bool
  last : BitVec 64 → Option (Nat → β)

def init (u : Setup) (ram : BitVec 64 → β) (disk : Nat → β) (scratch : Scratch) : State β where
  vic := VictimBuffer.init u.toSetup
  ram := ram
  disk := disk
  scratch := scratch
  work := .idle
  seen _ := none
  overrun := false
  last _ := none

def source : Pc → Option (BitVec 64 × Holder)
  | .ticket p q => some (q, .page p)
  | .cas j => some (j.byteOffset, .page j.page)
  | .swap j _ => some (j.byteOffset, .entry j.entry)
  | .prp1 j => some (j.byteOffset, .entry j.entry)
  | .prp2 j => some (j.byteOffset, .entry j.entry)
  | .offset j => some (j.byteOffset, .entry j.entry)
  | .occupy j => some (j.byteOffset, .entry j.entry)
  | .enqueue j => some (j.byteOffset, .entry j.entry)
  | .fallback p q => some (q, .page p)
  | _ => none

def holderOf (pe : BitVec 64) : Holder := if isVictim pe then .entry (victimIdx pe)
    else .page pe.toNat

/-- The evictions whose write is not completed: those of threads on their way to the ring, and
the requests not yet submitted. -/
def Pending (s : VictimBuffer.State) : Nat ⊕ Nat → BitVec 64 → Holder → Prop
  | .inl i, q, h => source (s.thread i) = some (q, h)
  | .inr g, q, h => s.ring.submitted ≤ g ∧ g < s.ring.claimed ∧ (s.ring.calls g).byteOffset = q ∧
      holderOf (s.ring.calls g).pcEntry = h

namespace State
variable (u : Setup) (s : State β)

def contents (p : Nat) : Nat → β :=
  fun x => s.ram (byteAt (u.translate (s.vic.pageVaddrs p) (x/4096)) x)

def requests : List IoRequest :=
  (List.range s.vic.ring.sched.acc).map fun j =>
    ⟨(s.vic.ring.sched.buf j).byteOffset, (s.vic.ring.sched.buf j).pcEntry, nvmIoWrite,
      (s.vic.ring.sched.buf j).nBytesLog2⟩

def sorted : Scratch := sortPhase u.sort (drain s.scratch s.requests) s.vic.ring.sched.acc

def starts : Option ((Nat → Nat) × Nat) :=
  splitIn u.ring.capacity (s.sorted u).batch s.vic.ring.sched.acc
    (detect ((s.sorted u).batch.isBoundary s.vic.ring.sched.acc) s.vic.ring.sched.acc
      (s.sorted u).starts)

def groupsAt (st : (Nat → Nat) × Nat) : List Group :=
  (List.range st.2).map fun i =>
    (s.sorted u).batch.group (st.1 i) (endOf st.1 st.2 s.vic.ring.sched.acc i)

def resolve (pe : BitVec 64) (j : Nat) : BitVec 64 := (s.seen (cellOf u.ppe pe j)).getD 0#64

def built (gs : List Group) : (Nat → BitVec 64) × List Command :=
  buildGroups u.cache (s.resolve u) u.pool u.blkLog 0 (gs.take (u.chunkLen gs)) s.scratch.mem

def calls (gs : List Group) : List (List (BitVec 64 × Nat)) :=
  (chunks kSchedKneeLimit (s.built u gs).2).map fun cmds =>
    cmds.flatMap (Command.byteMoves (u.load (s.built u gs).1) u.blkLog)
end State

def Plain (s : VictimBuffer.State) : Act → Prop
  | .evict _ _ => False
  | .sched _ => s.ring.sched.phase ≠ .submit
  | _ => True

def Resting (s : VictimBuffer.State) (p : Nat) : Prop := ∀ i, (s.thread i).slot = some p →
    s.thread i = .locked p

inductive Step (u : Setup) (s : State β) : State β → Prop where
  | victim (a : Act) (vic : VictimBuffer.State) : Plain s.vic a →
      VictimBuffer.step u.toSetup s.vic a = some vic → Step u s { s with vic := vic }
  | evict (i p : Nat) (q : BitVec 64) : s.vic.thread i = .locked p → u.Place q →
      (∀ k h, ¬Pending s.vic k q h) → Step u s { s with
        vic := s.vic.move i (.ticket p q)
        last := update s.last q (some (s.contents u p)) }
  | fill (p x : Nat) (b : β) : p < u.nPages → x < u.bytes → Resting s.vic p →
      Step u s
      { s with ram := update s.ram (byteAt (u.translate (s.vic.pageVaddrs p) (x/4096)) x) b }
  | start (st : (Nat → Nat) × Nat) : s.vic.ring.sched.phase = .submit → s.work = .idle →
      s.starts u = some st → Step u s { s with
        scratch := { s.sorted u with starts := st.1 }
        work := .merging (s.groupsAt u st)
        seen := fun _ => none }
  | overrun (disk : Nat → β) : s.vic.ring.sched.phase = .submit → s.work = .idle →
      s.starts u = none → Step u s { s with disk := disk, work := .merging [], overrun := true }
  | look (gs : List Group) (j k : Nat) : s.work = .merging gs → j < s.vic.ring.sched.acc →
      k < u.ppe → Step u s { s with
        seen := update s.seen (cellOf u.ppe (s.vic.ring.sched.buf j).pcEntry k)
          (some (cellValue s.vic (cellOf u.ppe (s.vic.ring.sched.buf j).pcEntry k))) }
  | chunk (gs : List Group) : s.work = .merging gs → gs ≠ [] →
      (∀ g ∈ gs.take (u.chunkLen gs), ∀ pe ∈ g.entries, ∀ k < u.ppe,
        (s.seen (cellOf u.ppe pe k)).isSome = true) →
      Step u s { s with
        scratch := { s.scratch with mem := (s.built u gs).1 }
        work := .calling (s.calls u gs) (gs.drop (u.chunkLen gs)) }
  | move (a : BitVec 64) (x : Nat) (before after : List (BitVec 64 × Nat))
      (todo : List (List (BitVec 64 × Nat))) (gs : List Group) :
      s.work = .calling ((before ++ (a, x) :: after) :: todo) gs →
      Step u s { s with
        disk := update s.disk x (s.ram a)
        work := .calling ((before ++ after) :: todo) gs }
  | callDone (todo : List (List (BitVec 64 × Nat))) (gs : List Group) :
      s.work = .calling ([] :: todo) gs → Step u s { s with work := .calling todo gs }
  | chunkDone (gs : List Group) : s.work = .calling [] gs → Step u s { s with work := .merging gs }
  | submitted (pick : Nat) (vic : VictimBuffer.State) : s.vic.ring.sched.phase = .submit →
      s.work = .merging [] → VictimBuffer.step u.toSetup s.vic (.sched pick) = some vic →
      Step u s { s with vic := vic, work := .idle }

inductive Reach (u : Setup) : State β → Prop where
  | init (ram : BitVec 64 → β) (disk : Nat → β) (scratch : Scratch) :
      Reach u (init u ram disk scratch)
  | step {s s' : State β} : Reach u s → Step u s s' → Reach u s'

variable {u : Setup} {s s' : State β}

theorem Step.vic_eq (h : Step u s s') :
    s'.vic = s.vic ∨ ∃ a, VictimBuffer.step u.toSetup s.vic a = some s'.vic := by
  cases h with
  | victim a vic _ hstep => exact .inr ⟨a, hstep⟩
  | evict i p q hi _ _ =>
    refine .inr ⟨.evict i q, ?_⟩
    simp only [VictimBuffer.step, hi]
  | submitted pick vic _ _ hstep => exact .inr ⟨_, hstep⟩
  | _ => exact .inl rfl

theorem Reach.vic (h : Reach u s) : VictimBuffer.Reach u.toSetup s.vic := by
  induction h with
  | init => exact .init
  | step _ hstep ih =>
    rcases hstep.vic_eq with heq | ⟨a, ha⟩
    · rw [heq]
      exact ih
    · exact ih.step ha

end Shaper.WriteBack
