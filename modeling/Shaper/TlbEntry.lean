import Mathlib.Logic.Function.Basic
import Shaper.Lib.FlagWord
import Shaper.Lib.Ownership

/-! One entry of the TLB: any number of warps in `tlb::acquire` and `tlb::release`
on it, one access to the entry a step. -/
namespace Shaper.TlbEntry
open Function Lib.FlagWord Lib.Ownership

def VALID_ : BitVec 32 := 0x80000000
def CNT_MASK_ : BitVec 32 := 0x3fffffff

structure Entry where
  globalId : Nat
  state : BitVec 32
  page : Option Nat
  deriving DecidableEq

/-- What the master lane of an `acquire` does next. `st` is the word its `fetch_or`
returned. `drop` releases the page of an entry about to be replaced, `fetch` is
`acquire_page_`, `retry` unlocks an entry that is in use for another page. -/
inductive Pc where
  | idle
  | lock
  | check (st : BitVec 32)
  | drop (st : BitVec 32)
  | fetch (st : BitVec 32)
  | setPage (st : BitVec 32) (page : Option Nat)
  | setId (st : BitVec 32)
  | add (st : BitVec 32)
  | retry (st : BitVec 32)
  deriving DecidableEq

structure Call where
  gid : Nat
  count : Nat
  pc : Pc
  deriving DecidableEq

/-- `refs` and `lost` are history: the references acquired and not yet released, and
those whose release came while the entry was locked. -/
structure State where
  entry : Entry
  begun : Nat
  call : Nat → Call
  refs : Nat
  lost : Nat

namespace State
variable (σ : State)
def locked : Bool := σ.entry.state.getLsbD 31
def move (i : Nat) (pc : Pc) : State :=
  { σ with call := update σ.call i { σ.call i with pc := pc } }
def setState (w : BitVec 32) : State := { σ with entry := { σ.entry with state := w } }
def acquired (n : Nat) : State := { σ with refs := σ.refs+n }
def released (n : Nat) : State :=
  { σ with refs := σ.refs-n, lost := if σ.locked then σ.lost+n else σ.lost }
end State

def callStep (σ : State) (i : Nat) (page : Option Nat) : Option State :=
  let c := σ.call i
  match c.pc with
  | .idle => none
  | .lock =>
    let st := σ.entry.state
    some ((σ.setState (st ||| VALID_)).move i (if st &&& VALID_ = 0 then .check st else .lock))
  | .check st =>
    some (σ.move i
      (if σ.entry.page ≠ none ∧ c.gid = σ.entry.globalId then .add st
      else if σ.entry.page = none then .fetch st
      else if st &&& CNT_MASK_ = 0 then .drop st
      else .retry st))
  | .drop st => some (σ.move i (.fetch st))
  | .fetch st => some (σ.move i (.setPage st page))
  | .setPage st page => some ({ σ with entry := { σ.entry with page := page } }.move i (.setId st))
  | .setId st => some ({ σ with entry := { σ.entry with globalId := c.gid } }.move i (.add st))
  | .add st =>
    some (((σ.acquired c.count).setState (st+BitVec.ofNat 32 c.count)).move i .idle)
  | .retry st => some ((σ.setState st).move i .lock)

inductive Act where
  | acquire (gid count : Nat)
  | run (i : Nat) (page : Option Nat)
  | release (count : Nat)

def step (σ : State) : Act → Option State
  | .acquire gid count =>
    if 0 < count ∧ count ≤ 32 then
      some { σ with begun := σ.begun+1, call := update σ.call σ.begun ⟨gid, count, .lock⟩ }
    else none
  | .run i page => callStep σ i page
  | .release count =>
    if 0 < count ∧ count ≤ σ.refs then
      some ((σ.released count).setState (σ.entry.state-BitVec.ofNat 32 count))
    else none

def init : State := ⟨⟨0, 0, none⟩, 0, fun _ => ⟨0, 0, .idle⟩, 0, 0⟩

inductive Reach : State → Prop where
  | init : Reach init
  | step {σ σ' : State} {a : Act} : Reach σ → step σ a = some σ' → σ'.refs+σ'.lost < 2^30 → Reach σ'

variable {σ σ' : State} {i j : Nat} {pc : Pc} {st w : BitVec 32}

def Pc.word : Pc → Option (BitVec 32)
  | .check st | .drop st | .fetch st | .setPage st _ | .setId st | .add st | .retry st => some st
  | .idle | .lock => none

structure Inv (σ : State) : Prop where
  fresh : ∀ i, σ.begun ≤ i → (σ.call i).pc = .idle
  owner : Exclusive (fun _ : Unit => σ.locked = true) (fun i _ => (σ.call i).pc.word.isSome = true)
  small : σ.refs+σ.lost < 2^30
  count : σ.locked = false → low 30 σ.entry.state = σ.refs+σ.lost
  word : ∀ i st, (σ.call i).pc.word = some st → low 30 st = σ.refs+σ.lost ∧ st.getLsbD 31 = false
  left : σ.refs ≤ low 30 σ.entry.state

theorem inv_init : Inv init := by
  constructor <;> simp [init, State.locked, low, Pc.word]
  constructor <;> simp

theorem valid_eq_zero_iff : w &&& VALID_ = 0 ↔ w.getLsbD 31 = false :=
  and_flag_eq_zero_iff (by decide) (by decide)

theorem low_or_valid : low 30 (w ||| VALID_) = low 30 w := low_or (by decide)

theorem locked_or_valid : (w ||| VALID_).getLsbD 31 = true := by
  simp [VALID_]

@[simp] theorem move_pc : ((σ.move i pc).call j).pc = if j = i then pc else (σ.call j).pc := by
  by_cases hj : j = i <;> simp [State.move, hj]

@[simp] theorem move_entry : (σ.move i pc).entry = σ.entry := rfl

section
variable (h : Inv σ)
include h

theorem Inv.quiet (hk : σ'.locked = σ.locked) (hs : low 30 σ'.entry.state = low 30 σ.entry.state)
    (hr : σ'.refs = σ.refs) (hl : σ'.lost = σ.lost)
    (hw : ∀ j, (σ'.call j).pc.word = (σ.call j).pc.word)
    (hf : ∀ j, σ'.begun ≤ j → (σ'.call j).pc = .idle) : Inv σ' where
  fresh := hf
  owner := h.owner.congr (fun _ => by rw [hk]) fun i _ => by rw [hw]
  small := by rw [hr, hl]; exact h.small
  count := by rw [hk, hs, hr, hl]; exact h.count
  word i st hi := by
    rw [hw] at hi
    rw [hr, hl]
    exact h.word i st hi
  left := by rw [hs, hr]; exact h.left

theorem Inv.fresh_move (hpc : (σ.call i).pc ≠ .idle) (hj : σ.begun ≤ j) :
    ((σ.move i pc).call j).pc = .idle := by
  have hji : j ≠ i := fun hji => hpc (hji ▸ h.fresh j hj)
  rw [move_pc, if_neg hji, h.fresh j hj]

theorem Inv.move (e : Entry) (he : e.state = σ.entry.state)
    (hpc : (σ.call i).pc ≠ .idle) (hw : pc.word = (σ.call i).pc.word) :
    Inv ({ σ with entry := e }.move i pc) := by
  refine h.quiet ?_ (congrArg (low 30) he) rfl rfl (fun j => ?_) fun j => h.fresh_move hpc
  · exact congrArg (fun w => w.getLsbD 31) he
  · rw [move_pc]
    split
    · next hj => rw [hw, hj]
    · rfl

theorem Inv.wait (hpc : (σ.call i).pc = .lock) (hl : σ.locked = true) :
    Inv ((σ.setState (σ.entry.state ||| VALID_)).move i .lock) := by
  refine h.quiet (locked_or_valid.trans hl.symm) low_or_valid rfl rfl (fun j => ?_)
    fun j => h.fresh_move (by rw [hpc]; simp)
  rw [move_pc]
  split
  · next hj => rw [hj, hpc]
  · rfl

theorem Inv.lock (hpc : (σ.call i).pc = .lock) (hl : σ.locked = false) :
    Inv ((σ.setState (σ.entry.state ||| VALID_)).move i (.check σ.entry.state)) where
  fresh j := h.fresh_move (by rw [hpc]; simp)
  owner := by
    refine h.owner.take (r := ()) (i := i) (by simp [hl]) (fun _ => ?_) fun j _ => ?_
    · exact ⟨fun _ => .inr rfl, fun _ => locked_or_valid⟩
    · rw [move_pc]
      split
      · next hj => simp [hj, Pc.word]
      · next hj => simp [hj, State.setState]
  small := h.small
  count hno := absurd (show (σ.entry.state ||| VALID_).getLsbD 31 = false from hno)
    (by rw [locked_or_valid]; simp)
  word j st hj := by
    rw [move_pc] at hj
    split at hj
    · obtain rfl := Option.some.inj hj
      exact ⟨h.count hl, hl⟩
    · exact h.word j st hj
  left := by
    rw [move_entry]
    exact h.left.trans_eq low_or_valid.symm

theorem Inv.unlock {n : Nat} (hw : (σ.call i).pc.word = some st) (hpc : pc.word = none)
    (hn : σ.refs+n+σ.lost < 2^30) :
    Inv (((σ.acquired n).setState (st+BitVec.ofNat 32 n)).move i pc) := by
  obtain ⟨hlow, hbit⟩ := h.word i st hw
  have hsum : low 30 (st+BitVec.ofNat 32 n) = low 30 st+n := low_add (by decide) (by omega)
  have hfree : (st+BitVec.ofNat 32 n).getLsbD 31 = false := by
    rw [flag_add (k := 30) (by decide) (by omega) (by decide), hbit]
  have hlast : ∀ j, j ≠ i → (σ.call j).pc.word = none := by
    intro j hj
    by_contra hne
    exact hj (h.owner.unique j i () (Option.isSome_iff_ne_none.mpr hne) (by rw [hw]; rfl))
  have hnone : ∀ j, ((((σ.acquired n).setState (st+BitVec.ofNat 32 n)).move i pc).call j).pc.word =
      none := by
    intro j
    rw [move_pc]
    split
    · exact hpc
    · next hj => exact hlast j hj
  have hi : (σ.call i).pc ≠ .idle := by
    intro hi
    rw [hi] at hw
    cases hw
  refine ⟨fun j => h.fresh_move hi, ?_, hn, fun _ => ?_, fun j st' hj => ?_, ?_⟩
  · refine ⟨fun j _ hj => ?_, fun _ hl => ?_, fun j _ _ hj => ?_⟩
    · rw [hnone] at hj
      cases hj
    · exact absurd (hfree.symm.trans hl) (by simp)
    · rw [hnone] at hj
      cases hj
  · change low 30 (st+BitVec.ofNat 32 n) = σ.refs+n+σ.lost
    omega
  · rw [hnone] at hj
    cases hj
  · change σ.refs+n ≤ low 30 (st+BitVec.ofNat 32 n)
    omega

theorem Inv.acquire (gid count : Nat) : Inv { σ with
    begun := σ.begun+1, call := update σ.call σ.begun ⟨gid, count, .lock⟩ } := by
  refine h.quiet rfl rfl rfl rfl (fun j => ?_) fun j hj => ?_
  · by_cases hj : j = σ.begun
    · subst hj
      simp [h.fresh _ (Nat.le_refl _), Pc.word]
    · simp [hj]
  · have hj : σ.begun < j := hj
    simp [Nat.ne_of_gt hj, h.fresh j hj.le]

theorem Inv.release {n : Nat} (hn : n ≤ σ.refs) :
    Inv ((σ.released n).setState (σ.entry.state-BitVec.ofNat 32 n)) := by
  have hle : n ≤ low 30 σ.entry.state := hn.trans h.left
  have hlow : low 30 (σ.entry.state-BitVec.ofNat 32 n) = low 30 σ.entry.state-n := low_sub hle
  have hbit : (σ.entry.state-BitVec.ofNat 32 n).getLsbD 31 = σ.locked :=
    flag_sub (by decide) hle (by decide)
  have hleft := h.left
  have hsmall := h.small
  refine ⟨h.fresh, h.owner.congr (fun _ => ?_) (fun _ _ => .rfl), ?_, fun hu => ?_,
    fun j st hj => ?_, ?_⟩
  · change (σ.entry.state-BitVec.ofNat 32 n).getLsbD 31 = true ↔ _
    rw [hbit]
  · change σ.refs-n+(if σ.locked then σ.lost+n else σ.lost) < 2^30
    split <;> omega
  · have hu : σ.locked = false := hbit.symm.trans hu
    have hcount := h.count hu
    change low 30 (σ.entry.state-BitVec.ofNat 32 n) =
      σ.refs-n+(if σ.locked then σ.lost+n else σ.lost)
    rw [hlow, hu]
    simp only [Bool.false_eq_true, if_false]
    omega
  · -- a register keeps the references that are being lost
    have hl : σ.locked = true := h.owner.held_of_owns j () (Option.isSome_of_eq_some hj)
    have hreg := h.word j st hj
    refine ⟨?_, hreg.2⟩
    change low 30 st = σ.refs-n+(if σ.locked then σ.lost+n else σ.lost)
    rw [hl, if_pos rfl]
    omega
  · change σ.refs-n ≤ low 30 (σ.entry.state-BitVec.ofNat 32 n)
    omega
end

theorem Inv.callStep (h : Inv σ) {page : Option Nat} (hs : callStep σ i page = some σ')
    (hlt : σ'.refs+σ'.lost < 2^30) : Inv σ' := by
  unfold TlbEntry.callStep at hs
  cases hpc : (σ.call i).pc <;> simp only [hpc] at hs <;> cases hs
  case lock =>
    split
    · next hz => exact h.lock hpc (valid_eq_zero_iff.mp hz)
    · next hz =>
        exact h.wait hpc (by simpa [State.locked] using fun h0 => hz (valid_eq_zero_iff.mpr h0))
  case check st =>
    refine h.move σ.entry rfl (by rw [hpc]; simp) ?_
    rw [hpc]
    (repeat' split) <;> rfl
  case add st => exact h.unlock (by rw [hpc]; rfl) rfl hlt
  case retry st =>
    have h0 : Inv (((σ.acquired 0).setState (st+BitVec.ofNat 32 0)).move i .lock) :=
      h.unlock (by rw [hpc]; rfl) rfl h.small
    rwa [BitVec.add_zero] at h0
  all_goals exact h.move _ rfl (by rw [hpc]; simp) (by rw [hpc]; rfl)

theorem Reach.inv (h : Reach σ) : Inv σ := by
  induction h with
  | init => exact inv_init
  | @step σ σ' a _ hs hlt ih =>
    cases a with
    | acquire gid count =>
      simp only [TlbEntry.step] at hs
      split at hs
      · cases hs
        exact ih.acquire gid count
      · cases hs
    | run i page => exact ih.callStep hs hlt
    | release count =>
      simp only [TlbEntry.step] at hs
      split at hs
      · next hc =>
        cases hs
        exact ih.release hc.2
      · cases hs

theorem mask_eq_zero_iff : st &&& CNT_MASK_ = 0 ↔ low 30 st = 0 := and_mask_eq_zero_iff (by decide)

/-- The count of an unlocked entry is that of its references just when none was
released while the entry was locked. An entry in the way of another page is then
found unused by the call that has it locked just when it has no user. -/
theorem count_right_iff (h : Reach σ) :
    (σ.locked = false → (low 30 σ.entry.state = σ.refs ↔ σ.lost = 0)) ∧
    (σ.lost = 0 → ∀ i st, (σ.call i).pc = .check st → (st &&& CNT_MASK_ = 0 ↔ σ.refs = 0)) := by
  constructor
  · intro hu
    rw [h.inv.count hu]
    omega
  · intro hl i st hpc
    have hw := (h.inv.word i st (by rw [hpc]; rfl)).1
    rw [mask_eq_zero_iff, hw, hl, Nat.add_zero]

def next (σ : State) (a : Act) : State :=
  match step σ a with
  | some σ' => if σ'.refs+σ'.lost < 2^30 then σ' else σ
  | none => σ

theorem Reach.foldl (h : Reach σ) (acts : List Act) : Reach (acts.foldl next σ) := by
  induction acts generalizing σ with
  | nil => exact h
  | cons a acts ih =>
    refine ih ?_
    unfold next
    split
    · next hs =>
      split
      · next hlt => exact .step h hs hlt
      · exact h
    · exact h

def filled : State :=
  (Act.acquire 7 1 :: List.replicate 6 (Act.run 0 (some 1))).foldl next init

theorem filled_count : Reach filled ∧ filled.refs = 1 ∧
    low 30 filled.entry.state = filled.refs := by
  have h : Reach filled := Reach.init.foldl _
  exact ⟨h, by decide +kernel, ((count_right_iff h).1 (by decide +kernel)).mpr (by decide +kernel)⟩

def pinned : State :=
  [.acquire 7 1, .run 1 none, .release 1, .run 1 none, .run 1 none, .release 1].foldl next filled

theorem unused_entry_pinned : ¬∀ σ, Reach σ → σ.locked = false → low 30 σ.entry.state = σ.refs := by
  intro hall
  have h : Reach pinned := (Reach.init.foldl _).foldl _
  have hcount := hall pinned h (by decide +kernel)
  exact absurd hcount (by decide +kernel)

end Shaper.TlbEntry
