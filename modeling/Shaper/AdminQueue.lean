import Shaper.Lib.Exec
import Shaper.Lib.PhaseRing

/-! The admin queue pair: `execute_command`, which its callers run one at a time under the
lock of the reference, step by step against a device that fetches the commands in turn
and completes each fetched command once, at any time and in any order. -/
namespace Shaper.AdminQueue
open Function Lib.PhaseRing Lib.Exec

/-- The page that each of the two queues fills. Both sizes pass `nvm_queue_clear`. -/
structure Setup where
  pageSize : Nat
  sizes : 2 ≤ pageSize / 64 ∧ pageSize / 16 ≤ 0x10000

def Setup.sqSize (p : Setup) : Nat := p.pageSize / 64
def Setup.cqSize (p : Setup) : Nat := p.pageSize / 16

theorem Setup.two_le (p : Setup) : 2 ≤ p.sqSize := p.sizes.1

theorem Setup.cq_pos (p : Setup) : 0 < p.cqSize := by
  have := p.sizes.1
  unfold Setup.cqSize
  omega

/-- A command in the queue. `number` counts the commands; it is history. -/
structure Cmd where
  cid : BitVec 16
  number : Nat
  deriving DecidableEq

/-- A completion. `number` is that of the command it completes; it is history. -/
structure Cpl where
  cid : BitVec 16
  phase : Bool
  number : Nat
  deriving DecidableEq

/-- Where `execute_command` stands: about to copy the command into its slot, to ring the
doorbell, to look for a completion, and, with the cell it found, to update the queue
head, to copy the completion and to release its cell. -/
inductive Pc where
  | idle
  | write (slot : Nat)
  | submit
  | wait
  | sqUpdate (cell : Nat)
  | copy (cell : Nat)
  | cqUpdate
  deriving DecidableEq

structure Reuse where
  slot : Nat
  old : Nat
  completed : Bool
  deriving DecidableEq

structure Answer where
  number : Nat
  cpl : Cpl
  deriving DecidableEq

/-- `sq` is the tail of the submission queue and its phase, `cq` the head of the completion
queue and its phase. The fields from `fetchHead` to `cqTail` are the device's. The
fields from `calls` on are history. -/
structure State where
  sq : Cursor
  sqHead : Nat
  sqLast : Nat
  sqDb : Nat
  slots : Nat → Option Cmd
  cq : Cursor
  cqLast : Nat
  cqDb : Nat
  cells : Nat → Cpl
  pc : Pc
  fetchHead : Nat
  outstanding : List Cmd
  cqTail : Cursor
  calls : Nat
  completed : List Nat
  reuses : List Reuse
  answers : List Answer

def init : State where
  sq := ⟨0, true⟩
  sqHead := 0
  sqLast := 0
  sqDb := 0
  slots := fun _ => none
  cq := ⟨0, true⟩
  cqLast := 0
  cqDb := 0
  cells := fun _ => ⟨0#16, false, 0⟩
  pc := .idle
  fetchHead := 0
  outstanding := []
  cqTail := ⟨0, true⟩
  calls := 0
  completed := []
  reuses := []
  answers := []

def sqFull (p : Setup) (s : State) : Bool :=
  (s.sq.index + 0x10000 - s.sqHead) % 0x10000 % p.sqSize == p.sqSize - 1

def defaultCid (p : Setup) (sq : Cursor) : BitVec 16 :=
  BitVec.ofNat 16 (sq.index + if sq.phase then 0 else p.sqSize)

def reuseOf (s : State) (slot : Nat) : List Reuse :=
  match s.slots slot with
  | none => []
  | some old => [⟨slot, old.number, decide (old.number ∈ s.completed)⟩]

/-- A call begins with `nvm_sq_enqueue`; when the queue is full it returns EAGAIN. -/
def call (p : Setup) (s : State) : State :=
  if sqFull p s then s
  else
    { s with
      sq := s.sq.next p.sqSize
      pc := .write s.sq.index
      calls := s.calls + 1
      reuses := s.reuses ++ reuseOf s s.sq.index }

def cqReady (s : State) : Bool := (s.cells s.cq.index).phase == s.cq.phase

def indexNext (size i : Nat) : Nat := if i + 1 = size then 0 else i + 1

def hostStep (p : Setup) (s : State) : Option State :=
  match s.pc with
  | .idle => none
  | .write slot =>
    some { s with
      slots := update s.slots slot (some ⟨defaultCid p s.sq, s.calls - 1⟩)
      pc := .submit }
  | .submit =>
    if s.sqLast ≠ s.sq.index then
      some { s with sqDb := s.sq.index, sqLast := s.sq.index, pc := .wait }
    else some { s with pc := .wait }
  | .wait =>
    if cqReady s then some { s with cq := s.cq.next p.cqSize, pc := .sqUpdate s.cq.index }
    else some s
  | .sqUpdate cell => some { s with sqHead := indexNext p.sqSize s.sqHead, pc := .copy cell }
  | .copy cell =>
    some { s with answers := s.answers ++ [⟨s.calls - 1, s.cells cell⟩], pc := .cqUpdate }
  | .cqUpdate =>
    if s.cqLast ≠ s.cq.index then
      some { s with cqDb := s.cq.index, cqLast := s.cq.index, pc := .idle }
    else some { s with pc := .idle }

def timeOut (s : State) : Option State :=
  if s.pc = .wait ∧ cqReady s = false then some { s with pc := .idle } else none

def fetch (p : Setup) (s : State) : Option State :=
  if s.fetchHead = s.sqDb then none
  else (s.slots s.fetchHead).map fun cmd =>
    { s with
      fetchHead := indexNext p.sqSize s.fetchHead
      outstanding := s.outstanding ++ [cmd] }

def complete (p : Setup) (s : State) (i : Nat) : Option State :=
  if indexNext p.cqSize s.cqTail.index = s.cqDb then none
  else s.outstanding[i]?.map fun cmd =>
    { s with
      cells := update s.cells s.cqTail.index ⟨cmd.cid, s.cqTail.phase, cmd.number⟩
      cqTail := s.cqTail.next p.cqSize
      outstanding := s.outstanding.eraseIdx i
      completed := s.completed ++ [cmd.number] }

inductive Choice where
  | call | host | timeOut | fetch
  | complete (i : Nat)
  deriving DecidableEq

def next (p : Setup) (s : State) : Choice → Option State
  | .call => if s.pc = .idle then some (call p s) else none
  | .host => hostStep p s
  | .timeOut => timeOut s
  | .fetch => fetch p s
  | .complete i => complete p s i

inductive Reach (p : Setup) (ok : State → Prop) : State → Prop where
  | init : Reach p ok init
  | step {s s' : State} (hs : Reach p ok s) (c : Choice) (hok : c = .call → ok s)
      (h : next p s c = some s') : Reach p ok s'

def Quiet (s : State) : Prop := s.sqHead = s.sq.index

def Paired (s : State) : Prop :=
  (∀ a ∈ s.answers, a.cpl.number = a.number) ∧ ∀ r ∈ s.reuses, r.completed = true

/-- How many commands the doorbell has announced, the device has fetched and completed,
and `execute_command` has dequeued and freed. -/
structure Counts where
  rung : Nat
  fetched : Nat
  posted : Nat
  taken : Nat
  freed : Nat

def Placed (p : Setup) (k : Counts) (calls : Nat) (slots : Nat → Option Cmd) : Pc → Prop
  | .idle => k.taken = k.freed ∧ k.rung = calls
  | .write slot =>
    k.taken = k.freed ∧ k.rung = k.freed ∧ calls = k.freed + 1 ∧ slot = k.freed % p.sqSize
  | .submit =>
    k.taken = k.freed ∧ k.rung = k.freed ∧ calls = k.freed + 1 ∧
      ∃ cmd, slots (k.freed % p.sqSize) = some cmd ∧ cmd.number = k.freed
  | .wait => k.taken = k.freed ∧ k.rung = calls ∧ calls = k.freed + 1
  | .sqUpdate cell =>
    k.taken = calls ∧ k.rung = calls ∧ calls = k.freed + 1 ∧ cell = k.freed % p.cqSize
  | .copy cell =>
    k.taken = calls ∧ k.rung = calls ∧ k.freed = calls ∧
      ∃ n, calls = n + 1 ∧ cell = n % p.cqSize
  | .cqUpdate => k.taken = calls ∧ k.rung = calls ∧ k.freed = calls

structure Inv (p : Setup) (s : State) (k : Counts) : Prop where
  sq : s.sq = cursorAt p.sqSize s.calls
  sqHead : s.sqHead = k.freed % p.sqSize
  sqLast : s.sqLast = k.rung % p.sqSize
  sqDb : s.sqDb = k.rung % p.sqSize
  fetchHead : s.fetchHead = k.fetched % p.sqSize
  cq : s.cq = cursorAt p.cqSize k.taken
  cqTail : s.cqTail = cursorAt p.cqSize k.posted
  tagged : Tagged p.cqSize (fun j => (s.cells j).phase) k.posted
  completed : s.completed = List.range k.posted
  taken_le : k.taken ≤ k.posted
  posted_le : k.posted ≤ k.fetched
  fetched_le : k.fetched ≤ k.rung
  rung_le : k.rung ≤ s.calls
  calls_le : s.calls ≤ k.taken + 1
  outstanding : s.outstanding.map Cmd.number = List.range' k.posted (k.fetched - k.posted)
  slots : ∀ slot cmd, s.slots slot = some cmd → cmd.number < s.calls
  announced : k.fetched < k.rung →
    ∃ cmd, s.slots (k.fetched % p.sqSize) = some cmd ∧ cmd.number = k.fetched
  newest : ∀ n, k.posted = n + 1 → (s.cells (n % p.cqSize)).number = n
  place : Placed p k s.calls s.slots s.pc
  paired : Paired s

theorem inv_init (p : Setup) : Inv p init ⟨0, 0, 0, 0, 0⟩ where
  sq := (cursorAt_zero _).symm
  sqHead := (Nat.zero_mod _).symm
  sqLast := (Nat.zero_mod _).symm
  sqDb := (Nat.zero_mod _).symm
  fetchHead := (Nat.zero_mod _).symm
  cq := (cursorAt_zero _).symm
  cqTail := (cursorAt_zero _).symm
  tagged := tagged_init p.cqSize
  completed := rfl
  taken_le := Nat.le_refl _
  posted_le := Nat.le_refl _
  fetched_le := Nat.le_refl _
  rung_le := Nat.le_refl _
  calls_le := Nat.zero_le _
  outstanding := rfl
  slots _ _ h := by cases h
  announced h := absurd h (Nat.lt_irrefl _)
  newest _ h := by cases h
  place := ⟨rfl, rfl⟩
  paired := ⟨fun _ h => absurd h List.not_mem_nil, fun _ h => absurd h List.not_mem_nil⟩

variable {p : Setup} {s s' : State} {k : Counts}

theorem Setup.sq_pos (p : Setup) : 0 < p.sqSize := Nat.lt_of_lt_of_le Nat.two_pos p.two_le

theorem indexNext_mod {size : Nat} (hs : 0 < size) (n : Nat) :
    indexNext size (n % size) = (n+1) % size := next_index hs n

namespace Inv

/-- A quiet queue with no call under way has seen every command through. -/
theorem calls_eq (h : Inv p s k) (hpc : s.pc = .idle) (hq : Quiet s) : s.calls = k.freed := by
  have hplace := h.place
  rw [hpc] at hplace
  obtain ⟨htaken, hrung⟩ := hplace
  have hle := h.calls_le
  have hge := Nat.le_trans h.taken_le (Nat.le_trans h.posted_le h.fetched_le)
  by_contra hne
  have hsucc : s.calls = k.freed + 1 := by omega
  have hmod : k.freed % p.sqSize = s.calls % p.sqSize := by
    have hidx : s.sq.index = s.calls % p.sqSize := congrArg Cursor.index h.sq
    rw [← h.sqHead, ← hidx]
    exact hq
  rw [hsucc] at hmod
  exact mod_succ_ne p.two_le k.freed hmod

theorem call (h : Inv p s k) (hpc : s.pc = .idle) (hq : Quiet s) : Inv p (call p s) k := by
  unfold AdminQueue.call
  split
  · exact h
  · have hcalls := h.calls_eq hpc hq
    have hplace := h.place
    rw [hpc] at hplace
    obtain ⟨htaken, hrung⟩ := hplace
    have hposted := h.taken_le
    have hle : s.calls + 1 ≤ k.taken + 1 := by omega
    exact { h with
      sq := by rw [h.sq]; exact next_cursorAt p.sq_pos s.calls
      rung_le := Nat.le_succ_of_le h.rung_le
      calls_le := hle
      slots := fun slot cmd hx => Nat.lt_succ_of_lt (h.slots slot cmd hx)
      place := by
        refine ⟨htaken, hrung.trans hcalls, congrArg (· + 1) hcalls, ?_⟩
        rw [h.sq, hcalls]
        rfl
      paired := by
        refine ⟨h.paired.1, fun r hr => ?_⟩
        rcases List.mem_append.mp hr with hr | hr
        · exact h.paired.2 r hr
        · unfold reuseOf at hr
          split at hr
          · exact absurd hr List.not_mem_nil
          · rename_i old hold
            rw [List.mem_singleton.mp hr, decide_eq_true_eq, h.completed, List.mem_range]
            have := h.slots _ _ hold
            omega }

theorem write {slot : Nat} (h : Inv p s k) (hpc : s.pc = .write slot) :
    Inv p { s with
      slots := update s.slots slot (some ⟨defaultCid p s.sq, s.calls - 1⟩), pc := .submit } k := by
  have hplace := h.place
  rw [hpc] at hplace
  obtain ⟨htaken, hrung, hcalls, rfl⟩ := hplace
  have hnum : s.calls - 1 = k.freed := by omega
  exact { h with
    slots := fun slot cmd hx => by
      change update s.slots (k.freed % p.sqSize) _ slot = some cmd at hx
      by_cases hs : slot = k.freed % p.sqSize
      · rw [hs, update_self] at hx
        rw [← Option.some.inj hx]
        change s.calls - 1 < s.calls
        omega
      · rw [update_of_ne hs] at hx
        exact h.slots slot cmd hx
    announced := fun hlt => by
      -- nothing is announced that has not been fetched
      have h₁ := h.taken_le
      have h₂ := h.posted_le
      omega
    place := ⟨htaken, hrung, hcalls, _, update_self _ _ _, hnum⟩ }

theorem submit (h : Inv p s k) (hpc : s.pc = .submit) :
    ∃ k', Inv p { s with sqDb := s.sq.index, sqLast := s.sq.index, pc := .wait } k' := by
  have hplace := h.place
  rw [hpc] at hplace
  obtain ⟨htaken, hrung, hcalls, hcmd⟩ := hplace
  have h₁ := h.taken_le
  have h₂ := h.posted_le
  have h₃ := h.fetched_le
  have hidx : s.sq.index = s.calls % p.sqSize := congrArg Cursor.index h.sq
  have hfetched : k.fetched = k.freed := by omega
  exact ⟨{ k with rung := s.calls }, { h with
    sqLast := hidx
    sqDb := hidx
    fetched_le := by change k.fetched ≤ s.calls; omega
    rung_le := Nat.le_refl _
    announced := fun _ => by rw [hfetched]; exact hcmd
    place := ⟨htaken, rfl, hcalls⟩ }⟩

theorem sqLast_ne (h : Inv p s k) (hpc : s.pc = .submit) : s.sqLast ≠ s.sq.index := by
  have hplace := h.place
  rw [hpc] at hplace
  obtain ⟨-, hrung, hcalls, -⟩ := hplace
  have hidx : s.sq.index = s.calls % p.sqSize := congrArg Cursor.index h.sq
  rw [hidx, h.sqLast, hrung, hcalls]
  exact mod_succ_ne p.two_le k.freed

theorem dequeue (h : Inv p s k) (hpc : s.pc = .wait) (hr : cqReady s = true) :
    ∃ k', Inv p { s with cq := s.cq.next p.cqSize, pc := .sqUpdate s.cq.index } k' := by
  have hplace := h.place
  rw [hpc] at hplace
  obtain ⟨htaken, hrung, hcalls⟩ := hplace
  have hne : k.posted ≠ k.taken := by
    intro hx
    have hstale := h.tagged.stale p.cq_pos
    have hready := beq_iff_eq.mp hr
    rw [h.cq, ← hx] at hready
    exact hstale hready
  have h₁ := h.taken_le
  have h₂ := h.posted_le
  have h₃ := h.fetched_le
  have hlt : k.taken < k.posted := Nat.lt_of_le_of_ne h₁ hne.symm
  exact ⟨{ k with taken := k.taken + 1 }, { h with
    cq := by rw [h.cq]; exact next_cursorAt p.cq_pos k.taken
    taken_le := hlt
    calls_le := Nat.le_succ_of_le h.calls_le
    place := by
      refine ⟨?_, hrung, hcalls, ?_⟩
      · change k.taken + 1 = s.calls
        omega
      · rw [h.cq, htaken]
        rfl }⟩

theorem sqUpdate {cell : Nat} (h : Inv p s k) (hpc : s.pc = .sqUpdate cell) :
    ∃ k', Inv p { s with sqHead := indexNext p.sqSize s.sqHead, pc := .copy cell } k' := by
  have hplace := h.place
  rw [hpc] at hplace
  obtain ⟨htaken, hrung, hcalls, hcell⟩ := hplace
  exact ⟨{ k with freed := k.freed + 1 }, { h with
    sqHead := by rw [h.sqHead]; exact indexNext_mod p.sq_pos k.freed
    place := ⟨htaken, hrung, hcalls.symm, k.freed, hcalls, hcell⟩ }⟩

theorem copy {cell : Nat} (h : Inv p s k) (hpc : s.pc = .copy cell) :
    Inv p { s with answers := s.answers ++ [⟨s.calls - 1, s.cells cell⟩], pc := .cqUpdate } k := by
  have hplace := h.place
  rw [hpc] at hplace
  obtain ⟨htaken, hrung, hfreed, n, hcalls, rfl⟩ := hplace
  have h₁ := h.taken_le
  have h₂ := h.posted_le
  have h₃ := h.fetched_le
  have hnew := h.newest n (by omega)
  exact { h with
    place := ⟨htaken, hrung, hfreed⟩
    paired := by
      refine ⟨fun a ha => ?_, h.paired.2⟩
      rcases List.mem_append.mp ha with ha | ha
      · exact h.paired.1 a ha
      · rw [List.mem_singleton.mp ha]
        change (s.cells (n % p.cqSize)).number = s.calls - 1
        omega }

/-- The doorbell of the completion queue concerns the device only. -/
theorem cqUpdate (h : Inv p s k) (hpc : s.pc = .cqUpdate) (db last : Nat) :
    Inv p { s with cqDb := db, cqLast := last, pc := .idle } k := by
  have hplace := h.place
  rw [hpc] at hplace
  obtain ⟨htaken, hrung, hfreed⟩ := hplace
  exact { h with place := ⟨htaken.trans hfreed.symm, hrung⟩ }

theorem hostStep (h : Inv p s k) (hs : hostStep p s = some s') : ∃ k', Inv p s' k' := by
  unfold AdminQueue.hostStep at hs
  cases hpc : s.pc with
  | idle =>
    rw [hpc] at hs
    cases hs
  | write slot =>
    rw [hpc] at hs
    exact ⟨k, Option.some.inj hs ▸ h.write hpc⟩
  | submit =>
    rw [hpc] at hs
    change (if s.sqLast ≠ s.sq.index then _ else _) = _ at hs
    rw [if_pos (h.sqLast_ne hpc)] at hs
    exact Option.some.inj hs ▸ h.submit hpc
  | wait =>
    rw [hpc] at hs
    change (if cqReady s = true then _ else _) = _ at hs
    by_cases hr : cqReady s = true
    · rw [if_pos hr] at hs
      exact Option.some.inj hs ▸ h.dequeue hpc hr
    · rw [if_neg hr] at hs
      exact ⟨k, Option.some.inj hs ▸ h⟩
  | sqUpdate cell =>
    rw [hpc] at hs
    exact Option.some.inj hs ▸ h.sqUpdate hpc
  | copy cell =>
    rw [hpc] at hs
    exact ⟨k, Option.some.inj hs ▸ h.copy hpc⟩
  | cqUpdate =>
    rw [hpc] at hs
    change (if s.cqLast ≠ s.cq.index then _ else _) = _ at hs
    split at hs
    · exact ⟨k, Option.some.inj hs ▸ h.cqUpdate hpc _ _⟩
    · exact ⟨k, Option.some.inj hs ▸ h.cqUpdate hpc s.cqDb s.cqLast⟩

theorem timeOut (h : Inv p s k) (hs : timeOut s = some s') : Inv p s' k := by
  unfold AdminQueue.timeOut at hs
  split at hs
  · rename_i hw
    have hplace := h.place
    rw [hw.1] at hplace
    obtain ⟨htaken, hrung, -⟩ := hplace
    exact Option.some.inj hs ▸ { h with place := ⟨htaken, hrung⟩ }
  · cases hs

theorem fetch (h : Inv p s k) (hs : fetch p s = some s') : ∃ k', Inv p s' k' := by
  unfold AdminQueue.fetch at hs
  split at hs
  · cases hs
  · rename_i hne
    have hlt : k.fetched < k.rung := by
      refine Nat.lt_of_le_of_ne h.fetched_le fun hx => hne ?_
      rw [h.fetchHead, h.sqDb, hx]
    obtain ⟨cmd, hcmd, hnum⟩ := h.announced hlt
    rw [h.fetchHead, hcmd] at hs
    have h₁ := h.posted_le
    have h₂ := h.taken_le
    have h₃ := h.rung_le
    have h₄ := h.calls_le
    have hout : (s.outstanding ++ [cmd]).map Cmd.number =
        List.range' k.posted (k.fetched + 1 - k.posted) := by
      have hlast : k.posted + (k.fetched - k.posted) = k.fetched := by omega
      rw [List.map_append, h.outstanding, List.map_singleton, hnum, Nat.sub_add_comm h₁,
        List.range'_concat, Nat.one_mul, hlast]
    have hs' := Option.some.inj hs
    rw [← hs']
    refine ⟨{ k with fetched := k.fetched + 1 }, { h with
      fetchHead := indexNext_mod p.sq_pos k.fetched
      posted_le := Nat.le_succ_of_le h₁
      fetched_le := hlt
      outstanding := hout
      announced := fun hx => by
        have hx' : k.fetched + 1 < k.rung := hx
        omega }⟩

theorem complete {i : Nat} (h : Inv p s k) (hs : complete p s i = some s') :
    ∃ k', Inv p s' k' := by
  unfold AdminQueue.complete at hs
  split at hs
  · cases hs
  · obtain ⟨cmd, hcmd, hs'⟩ := Option.map_eq_some_iff.mp hs
    rw [← hs']
    have h₁ := h.posted_le
    have h₂ := h.taken_le
    have h₃ := h.rung_le
    have h₄ := h.calls_le
    have h₅ := h.fetched_le
    -- the command is the only one under way
    have hi : i < (s.outstanding.map Cmd.number).length := by
      rw [List.length_map]
      exact (List.getElem?_eq_some_iff.mp hcmd).1
    rw [h.outstanding, List.length_range'] at hi
    have hone : k.fetched - k.posted = 1 := by omega
    have hout := h.outstanding
    rw [hone] at hout
    obtain ⟨cmd', hlist, hnum⟩ := List.map_eq_singleton_iff.mp hout
    have hi0 : i = 0 := by omega
    rw [hi0, hlist] at hcmd
    have hcc : cmd' = cmd := Option.some.inj hcmd
    rw [hcc] at hlist hnum
    have hidx : s.cqTail.index = k.posted % p.cqSize := congrArg Cursor.index h.cqTail
    have hphase : s.cqTail.phase = tag p.cqSize k.posted := congrArg Cursor.phase h.cqTail
    refine ⟨{ k with posted := k.posted + 1 }, { h with
      cqTail := ?_, tagged := ?_, completed := ?_, taken_le := Nat.le_succ_of_le h₂
      posted_le := by change k.posted + 1 ≤ k.fetched; omega
      outstanding := ?_, newest := ?_ }⟩
    · rw [h.cqTail]
      exact next_cursorAt p.cq_pos k.posted
    · have htags : (fun j => (update s.cells s.cqTail.index
          ⟨cmd.cid, s.cqTail.phase, cmd.number⟩ j).phase) =
          update (fun j => (s.cells j).phase) (k.posted % p.cqSize) (tag p.cqSize k.posted) := by
        funext j
        rw [hidx, hphase]
        by_cases hj : j = k.posted % p.cqSize
        · rw [hj, update_self, update_self]
        · rw [update_of_ne hj, update_of_ne hj]
      change Tagged p.cqSize (fun j => (update s.cells s.cqTail.index _ j).phase) (k.posted + 1)
      rw [htags]
      exact h.tagged.post p.cq_pos
    · change s.completed ++ [cmd.number] = List.range (k.posted + 1)
      rw [List.range_succ, h.completed, hnum]
    · have hrest : k.fetched - (k.posted + 1) = 0 := by omega
      change (s.outstanding.eraseIdx i).map Cmd.number =
        List.range' (k.posted + 1) (k.fetched - (k.posted + 1))
      rw [hrest, hi0, hlist]
      rfl
    · intro n hn
      have hn' : k.posted = n := Nat.succ.inj hn
      change (update s.cells s.cqTail.index _ (n % p.cqSize)).number = n
      rw [hidx, hn', update_self]
      exact hnum.trans hn'

end Inv

theorem Reach.inv (h : Reach p Quiet s) : ∃ k, Inv p s k := by
  induction h with
  | init => exact ⟨_, inv_init p⟩
  | step hs c hok h ih =>
    obtain ⟨k, ih⟩ := ih
    cases c with
    | call =>
      change (if _ then _ else _) = _ at h
      split at h
      · rename_i hpc
        exact ⟨k, Option.some.inj h ▸ ih.call hpc (hok rfl)⟩
      · cases h
    | host => exact ih.hostStep h
    | timeOut => exact ⟨k, ih.timeOut h⟩
    | fetch => exact ih.fetch h
    | complete i => exact ih.complete h

/-- When no call is made after one that timed out, each call gets the completion of its
own command, and no slot is taken before the command in it is completed. -/
theorem admin_completions_paired (h : Reach p Quiet s) : Paired s := by
  obtain ⟨k, hinv⟩ := h.inv
  exact hinv.paired

def fourK : Setup := ⟨4096, ⟨Nat.le_of_ble_eq_true rfl, Nat.le_of_ble_eq_true rfl⟩⟩

def submitScript : List Choice := [.call, .host, .host, .fetch]

def callScript (i : Nat) : List Choice :=
  submitScript ++ [.complete i, .host, .host, .host, .host]

def quietNext (p : Setup) (s : State) (c : Choice) : Option State :=
  if c = .call ∧ s.sqHead ≠ s.sq.index then none else next p s c

theorem quietNext_reach (s : State) (c : Choice) (s' : State) (hs : Reach p Quiet s)
    (h : quietNext p s c = some s') : Reach p Quiet s' := by
  unfold quietNext at h
  split at h
  · cases h
  · rename_i hq
    exact hs.step c (fun hc => not_not.mp fun hne => hq ⟨hc, hne⟩) h

theorem two_calls_paired : ∃ s, Reach fourK Quiet s ∧
    s.answers.map (fun a => (a.number, a.cpl.number)) = [(0, 0), (1, 1)] ∧ Paired s := by
  have hrun : (exec (quietNext fourK) (callScript 0 ++ callScript 0) init).any
      (fun s => decide (s.answers.map (fun a => (a.number, a.cpl.number)) = [(0, 0), (1, 1)])) =
      true := by decide +kernel
  obtain ⟨s, hs, hq⟩ := exists_of_exec quietNext_reach _ .init hrun
  exact ⟨s, hs, hq, admin_completions_paired hs⟩

def lateScript : List Choice :=
  submitScript ++ [.timeOut, .complete 0] ++ submitScript ++ [.host, .host, .host, .host]

def heldScript : List Choice :=
  submitScript ++ [.timeOut] ++ (List.replicate 63 (callScript 1)).flatten ++ [.call]

theorem next_reach (s : State) (c : Choice) (s' : State) (hs : Reach p (fun _ => True) s)
    (h : next p s c = some s') : Reach p (fun _ => True) s' :=
  hs.step c (fun _ => trivial) h

/-- After a time-out the second call returns the completion of the first command; and a
slot is taken again while the device still works on the command in it. -/
theorem late_completion_taken_by_next_call :
    (∃ s, Reach fourK (fun _ => True) s ∧ s.answers = [⟨1, ⟨1#16, true, 0⟩⟩] ∧ ¬ Paired s) ∧
      ∃ s, Reach fourK (fun _ => True) s ∧ s.reuses = [⟨0, 0, false⟩] ∧ ¬ Paired s := by
  have hlate : (exec (next fourK) lateScript init).any
      (fun s => decide (s.answers = [⟨1, ⟨1#16, true, 0⟩⟩])) = true := by decide +kernel
  have hheld : (exec (next fourK) heldScript init).any
      (fun s => decide (s.reuses = [⟨0, 0, false⟩])) = true := by decide +kernel
  obtain ⟨s, hs, hq⟩ := exists_of_exec next_reach _ .init hlate
  obtain ⟨s₁, hs₁, hq₁⟩ := exists_of_exec next_reach _ .init hheld
  refine ⟨⟨s, hs, hq, fun hp => ?_⟩, s₁, hs₁, hq₁, fun hp => ?_⟩
  · have hans := hp.1 ⟨1, ⟨1#16, true, 0⟩⟩ (hq ▸ List.mem_singleton_self _)
    cases hans
  · have hreuse := hp.2 ⟨0, 0, false⟩ (hq₁ ▸ List.mem_singleton_self _)
    cases hreuse

end Shaper.AdminQueue
