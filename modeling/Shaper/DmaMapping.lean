import Mathlib.Logic.Relation
import Shaper.Lib.Exec
import Shaper.Lib.RefCount

/-! The reference-counted descriptor of a DMA mapping under concurrent calls of
`nvm_dma_remap` and `nvm_dma_unmap`. What happens under the descriptor's mutex is one
step; every other access to the descriptor is a step of its own. -/
namespace Shaper.DmaMapping
open Function Lib.RefCount Lib.Exec Relation

inductive Pc where
  | get | create | populate
  | put | test | ctrlPut | free
  | returned
  deriving DecidableEq

structure Call where
  remap : Bool
  handle : Nat
  pc : Pc
  deriving DecidableEq

/-- `count` and `va` are the fields of `struct map`, `va` being whether the pointer is not
NULL. The handles are numbered as they are made. The fields from `releases` on are
history: how often the address range was unmapped and released, how often `remove_map`
has dropped the controller reference and freed the descriptor, and whether a step has
touched the descriptor after that. -/
structure State where
  count : BitVec 32
  va : Bool
  live : Nat → Bool
  handles : Nat
  calls : Nat → Call
  started : Nat
  releases : Nat
  ctrlPuts : Nat
  frees : Nat
  touched : Bool

def init : State where
  count := 1#32
  va := true
  live := fun h => h == 0
  handles := 1
  calls := fun _ => ⟨false, 0, .returned⟩
  started := 0
  releases := 0
  ctrlPuts := 0
  frees := 0
  touched := false

def State.access (s : State) (c : Nat) (pc : Pc) : State :=
  { s with
    calls := update s.calls c { s.calls c with pc := pc }
    touched := s.touched || decide (0 < s.frees) }

/-- `fail` says whether `create_container` refuses or finds no memory. -/
def callStep (s : State) (c : Nat) (fail : Bool) : Option State :=
  match (s.calls c).pc with
  | .get => some { s.access c .create with count := s.count + 1#32 }
  | .create => if fail then some (s.access c .put) else some (s.access c .populate)
  | .populate =>
    some { s.access c .returned with
      live := update s.live s.handles true
      handles := s.handles + 1 }
  | .put =>
    if s.count - 1#32 = 0#32 then
      some { s.access c .test with
        count := s.count - 1#32, va := false, releases := s.releases + 1 }
    else some { s.access c .test with count := s.count - 1#32 }
  | .test => if s.va then some (s.access c .returned) else some (s.access c .ctrlPut)
  | .ctrlPut => some { s.access c .free with ctrlPuts := s.ctrlPuts + 1 }
  | .free => some { s.access c .returned with frees := s.frees + 1 }
  | .returned => none

def begin (s : State) (call : Call) : State :=
  { s with calls := update s.calls s.started call, started := s.started + 1 }

/-- A handle is given to `nvm_dma_unmap` when it is live and no call of `nvm_dma_remap`
still works on it. `ok s c` says when call `c` may take a step in `s`. -/
inductive Step (ok : State → Nat → Prop) (s : State) : State → Prop where
  | remap {h : Nat} (hl : s.live h = true) : Step ok s (begin s ⟨true, h, .get⟩)
  | unmap {h : Nat} (hl : s.live h = true)
      (hfree : ∀ c < s.started, (s.calls c).remap = true → (s.calls c).handle = h →
        (s.calls c).pc = .returned) :
      Step ok s { begin s ⟨false, h, .put⟩ with live := update s.live h false }
  | call {c : Nat} {fail : Bool} {s' : State} (hc : c < s.started) (hok : ok s c)
      (h : callStep s c fail = some s') : Step ok s s'

inductive Reach (ok : State → Nat → Prop) : State → Prop where
  | init : Reach ok init
  | step {s s' : State} (hs : Reach ok s) (h : Step ok s s') : Reach ok s'

/-- The last reference is put only when no other `put_map` stands between its unlock and
its test of `va`, and no more than `2^32` references are ever out. -/
def Orderly (s : State) (c : Nat) : Prop :=
  ((s.calls c).pc = .put → s.count = 1#32 → ∀ c' < s.started, (s.calls c').pc ≠ .test) ∧
    ((s.calls c).pc = .get → s.count ≠ 0#32)

def Pc.refs : Pc → Bool
  | .create | .populate | .put => true
  | _ => false

def refs (s : State) : Nat :=
  tally s.live s.handles + tally (fun c => (s.calls c).pc.refs) s.started

/-- While the address range is there: references are out, and nobody is at `remove_map`. -/
structure Mapped (s : State) : Prop where
  refs_pos : 0 < refs s
  before : ∀ c < s.started, (s.calls c).pc ≠ .ctrlPut ∧ (s.calls c).pc ≠ .free
  counts : s.releases = 0 ∧ s.ctrlPuts = 0 ∧ s.frees = 0

def Removing (ctrlPuts frees : Nat) : Pc → Prop
  | .test | .ctrlPut => ctrlPuts = 0 ∧ frees = 0
  | .free => ctrlPuts = 1 ∧ frees = 0
  | .returned => ctrlPuts = 1 ∧ frees = 1
  | _ => False

/-- Afterwards: one call is left, and it runs `remove_map`. -/
structure Gone (s : State) : Prop where
  refs_eq : refs s = 0
  last : ∃ c < s.started, (∀ c' < s.started, c' ≠ c → (s.calls c').pc = .returned) ∧
    Removing s.ctrlPuts s.frees (s.calls c).pc
  releases_eq : s.releases = 1

structure Inv (s : State) : Prop where
  count_eq : s.count = BitVec.ofNat 32 (refs s)
  refs_le : refs s ≤ 2^32
  live_lt : ∀ h, s.live h = true → h < s.handles
  pinned : ∀ c < s.started, (s.calls c).remap = true → (s.calls c).pc ≠ .returned →
    s.live (s.calls c).handle = true
  unmapping : ∀ c < s.started, (s.calls c).remap = false → (s.calls c).pc ≠ .get ∧
    (s.calls c).pc ≠ .create ∧ (s.calls c).pc ≠ .populate
  untouched : s.touched = false
  phase : if s.va then Mapped s else Gone s

theorem calls_refs (calls : Nat → Call) (c : Nat) (call : Call) :
    (fun i => (update calls c call i).pc.refs) =
      update (fun i => (calls i).pc.refs) c call.pc.refs := by
  funext i
  by_cases hi : i = c
  · rw [hi, update_self, update_self]
  · rw [update_of_ne hi, update_of_ne hi]

section
variable {s s' : State} {c : Nat}

theorem refs_access (pc : Pc) (hc : c < s.started) :
    refs (s.access c pc) + (s.calls c).pc.refs.toNat = refs s + pc.refs.toNat := by
  have h := tally_update (fun i => (s.calls i).pc.refs) pc.refs hc
  unfold refs State.access
  rw [calls_refs]
  dsimp only at h ⊢
  omega

theorem refs_begin (call : Call) : refs (begin s call) = refs s + call.pc.refs.toNat := by
  have hold : tally (update (fun i => (s.calls i).pc.refs) s.started call.pc.refs) s.started =
      tally (fun i => (s.calls i).pc.refs) s.started :=
    tally_congr fun i hi => update_of_ne (Nat.ne_of_lt hi) _ _
  change tally s.live s.handles +
    tally (fun i => (update s.calls s.started call i).pc.refs) (s.started + 1) = _
  rw [calls_refs, tally, update_self, hold, ← Nat.add_assoc]
  rfl

theorem access_calls (pc : Pc) (i : Nat) : (s.access c pc).calls i =
    { s.calls i with pc := if i = c then pc else (s.calls i).pc } := by
  unfold State.access
  by_cases hi : i = c
  · subst hi
    simp
  · simp [hi]

namespace Inv

theorem mapped (h : Inv s) (hr : 0 < refs s) : s.va = true ∧ Mapped s := by
  have hp := h.phase
  cases hva : s.va with
  | true =>
    rw [hva] at hp
    exact ⟨rfl, hp⟩
  | false =>
    rw [hva] at hp
    have hzero : refs s = 0 := Gone.refs_eq hp
    omega

/-- A call that still has to count or uncount a reference finds one out. -/
theorem refs_pos (h : Inv s) (hc : c < s.started)
    (hpc : (s.calls c).pc.refs = true ∨ (s.calls c).remap = true ∧ (s.calls c).pc ≠ .returned) :
    0 < refs s := by
  rcases hpc with hx | ⟨hr, hne⟩
  · exact Nat.add_pos_right _ (tally_pos hc hx)
  · have hl := h.pinned c hc hr hne
    exact Nat.add_pos_left (tally_pos (h.live_lt _ hl) hl) _

theorem stay {count : BitVec 32} {live : Nat → Bool} {handles : Nat} (h : Inv s)
    (hva : s.va = true) (hm : Mapped s) (pc : Pc)
    (hpc : pc ≠ .ctrlPut ∧ pc ≠ .free)
    (hun : (s.calls c).remap = false → pc ≠ .get ∧ pc ≠ .create ∧ pc ≠ .populate)
    (hret : (s.calls c).pc ≠ .returned) (hkeep : ∀ i, s.live i = true → live i = true)
    (hlt : ∀ i, live i = true → i < handles)
    (hcount : count =
      BitVec.ofNat 32
      (refs { s.access c pc with count := count, live := live, handles := handles }))
    (hle : refs { s.access c pc with count := count, live := live, handles := handles } ≤ 2^32)
    (hpos : 0 < refs { s.access c pc with count := count, live := live, handles := handles }) :
    Inv { s.access c pc with count := count, live := live, handles := handles } where
  count_eq := hcount
  refs_le := hle
  live_lt := hlt
  pinned i hi hr hne := by
    change ((s.access c pc).calls i).remap = true at hr
    change ((s.access c pc).calls i).pc ≠ .returned at hne
    change live ((s.access c pc).calls i).handle = true
    rw [access_calls] at hr hne ⊢
    refine hkeep _ (h.pinned i hi hr ?_)
    by_cases he : i = c
    · rw [he]
      exact hret
    · simpa only [if_neg he] using hne
  unmapping i hi hr := by
    change ((s.access c pc).calls i).remap = false at hr
    change ((s.access c pc).calls i).pc ≠ .get ∧ ((s.access c pc).calls i).pc ≠ .create ∧
      ((s.access c pc).calls i).pc ≠ .populate
    rw [access_calls] at hr ⊢
    by_cases he : i = c
    · simp only [he, if_true] at hr ⊢
      exact hun hr
    · simp only [if_neg he]
      exact h.unmapping i hi hr
  untouched := by
    change (s.touched || decide (0 < s.frees)) = false
    rw [h.untouched, hm.counts.2.2]
    rfl
  phase := by
    change if s.va then _ else _
    rw [hva]
    refine ⟨hpos, fun i hi => ?_, hm.counts⟩
    change ((s.access c pc).calls i).pc ≠ .ctrlPut ∧ ((s.access c pc).calls i).pc ≠ .free
    rw [access_calls]
    by_cases he : i = c
    · simpa only [he, if_true] using hpc
    · simpa only [if_neg he] using hm.before i hi

theorem begin_calls (call : Call) {i : Nat} (hi : i < s.started + 1) :
    i = s.started ∧ (begin s call).calls i = call ∨
      i < s.started ∧ (begin s call).calls i = s.calls i := by
  unfold DmaMapping.begin
  rcases Nat.lt_succ_iff_lt_or_eq.mp hi with hlt | rfl
  · exact .inr ⟨hlt, update_of_ne (Nat.ne_of_lt hlt) _ _⟩
  · exact .inl ⟨rfl, update_self _ _ _⟩

theorem beginCall {live : Nat → Bool} {call : Call} (h : Inv s) (hl : s.live call.handle = true)
    (hpc : call.pc ≠ .ctrlPut ∧ call.pc ≠ .free)
    (hun : call.remap = false → call.pc ≠ .get ∧ call.pc ≠ .create ∧ call.pc ≠ .populate)
    (hlive : ∀ i, live i = true → s.live i = true)
    (hpin : ∀ i < s.started + 1, ((begin s call).calls i).remap = true →
      ((begin s call).calls i).pc ≠ .returned → live ((begin s call).calls i).handle = true)
    (hrefs : refs { begin s call with live := live } = refs s) :
    Inv { begin s call with live := live } := by
  have hpos : 0 < refs s := Nat.add_pos_left (tally_pos (h.live_lt _ hl) hl) _
  obtain ⟨hva, hm⟩ := h.mapped hpos
  constructor
  case count_eq =>
    rw [hrefs]
    exact h.count_eq
  case refs_le =>
    rw [hrefs]
    exact h.refs_le
  case live_lt => exact fun i hi => h.live_lt i (hlive i hi)
  case pinned => exact hpin
  case unmapping =>
    intro i hi hr
    change ((begin s call).calls i).remap = false at hr
    change ((begin s call).calls i).pc ≠ .get ∧ ((begin s call).calls i).pc ≠ .create ∧
      ((begin s call).calls i).pc ≠ .populate
    rcases begin_calls call hi with ⟨-, he⟩ | ⟨hlt, he⟩
    · rw [he] at hr ⊢
      exact hun hr
    · rw [he] at hr ⊢
      exact h.unmapping i hlt hr
  case untouched => exact h.untouched
  case phase =>
    change if s.va then _ else _
    rw [hva]
    refine ⟨hrefs ▸ hpos, fun i hi => ?_, hm.counts⟩
    change ((begin s call).calls i).pc ≠ .ctrlPut ∧ ((begin s call).calls i).pc ≠ .free
    rcases begin_calls call hi with ⟨-, he⟩ | ⟨hlt, he⟩
    · rw [he]
      exact hpc
    · rw [he]
      exact hm.before i hlt

theorem remap {k : Nat} (h : Inv s) (hl : s.live k = true) : Inv (begin s ⟨true, k, .get⟩) := by
  refine h.beginCall hl (by simp)
    (fun hr => by cases hr) (fun _ hi => hi) ?_ (refs_begin _)
  intro i hi hr hne
  rcases begin_calls ⟨true, k, .get⟩ hi with ⟨-, he⟩ | ⟨hlt, he⟩
  · rw [he]
    exact hl
  · rw [he] at hr hne ⊢
    exact h.pinned i hlt hr hne

theorem unmap {k : Nat} (h : Inv s) (hl : s.live k = true)
    (hfree : ∀ c < s.started, (s.calls c).remap = true → (s.calls c).handle = k →
      (s.calls c).pc = .returned) :
    Inv { begin s ⟨false, k, .put⟩ with live := update s.live k false } := by
  refine h.beginCall hl (by simp) (fun _ => by simp) ?_ ?_ ?_
  · intro i hi
    by_cases he : i = k
    · rw [he]
      exact hl
    · rwa [update_of_ne he] at hi
  · intro i hi hr hne
    rcases begin_calls ⟨false, k, .put⟩ hi with ⟨-, he⟩ | ⟨hlt, he⟩
    · rw [he] at hr
      cases hr
    · rw [he] at hr hne ⊢
      have hne' : (s.calls i).handle ≠ k := fun hx => hne (hfree i hlt hr hx)
      rw [update_of_ne hne']
      exact h.pinned i hlt hr hne
  · have hb := refs_begin (s := s) ⟨false, k, .put⟩
    have hu := tally_update s.live false (h.live_lt k hl)
    rw [hl] at hu
    unfold refs at hb ⊢
    dsimp only [begin, Pc.refs, Bool.toNat_true, Bool.toNat_false] at hb hu ⊢
    omega

theorem get (h : Inv s) (hc : c < s.started) (hpc : (s.calls c).pc = .get)
    (hroom : s.count ≠ 0#32) : Inv { s.access c .create with count := s.count + 1#32 } := by
  have hremap : (s.calls c).remap = true := by
    cases hr : (s.calls c).remap with
    | true => rfl
    | false => exact absurd hpc (h.unmapping c hc hr).1
  have hpos := h.refs_pos hc (.inr ⟨hremap, by rw [hpc]; simp⟩)
  obtain ⟨hva, hm⟩ := h.mapped hpos
  have hrefs : refs (s.access c .create) = refs s + 1 := by
    have := refs_access .create hc
    rw [hpc] at this
    exact this
  have hlt : refs s < 2^32 := by
    refine Nat.lt_of_le_of_ne h.refs_le fun he => hroom ?_
    rw [h.count_eq, he]
    rfl
  refine h.stay hva hm .create (by simp) (fun hr => ?_) (by rw [hpc]; simp) (fun _ hi => hi)
    h.live_lt ?_ ?_ ?_
  · rw [hremap] at hr
    cases hr
  · change s.count + 1#32 = BitVec.ofNat 32 (refs (s.access c .create))
    rw [hrefs, h.count_eq, BitVec.ofNat_add]
  · change refs (s.access c .create) ≤ 2^32
    omega
  · change 0 < refs (s.access c .create)
    omega

theorem create (h : Inv s) (hc : c < s.started) (hpc : (s.calls c).pc = .create) {pc : Pc}
    (hnext : pc = .put ∨ pc = .populate) : Inv (s.access c pc) := by
  have hremap : (s.calls c).remap = true := by
    cases hr : (s.calls c).remap with
    | true => rfl
    | false => exact absurd hpc (h.unmapping c hc hr).2.1
  have hpos := h.refs_pos hc (.inr ⟨hremap, by rw [hpc]; simp⟩)
  obtain ⟨hva, hm⟩ := h.mapped hpos
  have hrefs : refs (s.access c pc) = refs s := by
    have := refs_access pc hc
    rw [hpc] at this
    rcases hnext with rfl | rfl
    · exact Nat.add_right_cancel this
    · exact Nat.add_right_cancel this
  refine h.stay hva hm pc ?_ (fun hr => ?_) (by rw [hpc]; simp) (fun _ hi => hi)
    h.live_lt ?_ ?_ ?_
  · rcases hnext with rfl | rfl <;> simp
  · rw [hremap] at hr
    cases hr
  · change s.count = BitVec.ofNat 32 (refs (s.access c pc))
    rw [hrefs]
    exact h.count_eq
  · exact hrefs.le.trans h.refs_le
  · exact hpos.trans_eq hrefs.symm

theorem populate (h : Inv s) (hc : c < s.started) (hpc : (s.calls c).pc = .populate) :
    Inv { s.access c .returned with
      live := update s.live s.handles true, handles := s.handles + 1 } := by
  have hpos := h.refs_pos hc (.inl (by rw [hpc]; rfl))
  obtain ⟨hva, hm⟩ := h.mapped hpos
  have hrefs : refs { s.access c .returned with
      live := update s.live s.handles true, handles := s.handles + 1 } = refs s := by
    have ha := refs_access .returned hc
    have hnew : tally (update s.live s.handles true) s.handles = tally s.live s.handles :=
      tally_congr fun i hi => update_of_ne (Nat.ne_of_lt hi) _ _
    change tally (update s.live s.handles true) (s.handles + 1) +
      tally (fun i => ((s.access c .returned).calls i).pc.refs) s.started = refs s
    rw [tally, update_self, hnew, Nat.add_right_comm]
    rw [hpc] at ha
    exact ha
  refine h.stay hva hm .returned (by simp) (fun _ => by simp) (by rw [hpc]; simp) ?_ ?_ ?_ ?_ ?_
  · intro i hi
    by_cases he : i = s.handles
    · rw [he, update_self]
    · rwa [update_of_ne he]
  · intro i hi
    by_cases he : i = s.handles
    · omega
    · rw [update_of_ne he] at hi
      exact (h.live_lt i hi).trans (Nat.lt_succ_self _)
  · exact h.count_eq.trans (by rw [← hrefs])
  · exact hrefs.le.trans h.refs_le
  · exact hpos.trans_eq hrefs.symm

theorem putLast (h : Inv s) (hc : c < s.started) (hpc : (s.calls c).pc = .put)
    (hone : refs s = 1) (hok : ∀ i < s.started, (s.calls i).pc ≠ .test) :
    Inv { s.access c .test with
      count := s.count - 1#32, va := false, releases := s.releases + 1 } := by
  obtain ⟨hva, hm⟩ := h.mapped (by omega)
  have hcall : 0 < tally (fun i => (s.calls i).pc.refs) s.started :=
    tally_pos hc (by rw [hpc]; rfl)
  have hlive : tally s.live s.handles = 0 := by
    unfold refs at hone
    omega
  have hdead (i : Nat) (hi : s.live i = true) : False := by
    have := tally_pos (h.live_lt i hi) hi
    omega
  have hidle (i : Nat) (hi : i < s.started) (hne : i ≠ c) : (s.calls i).pc = .returned := by
    have hnot : (s.calls i).pc.refs ≠ true := fun hx => by
      have := two_le_tally (p := fun i => (s.calls i).pc.refs) hi hc hne hx (by rw [hpc]; rfl)
      unfold refs at hone
      omega
    cases hpi : (s.calls i).pc with
    | get =>
      cases hr : (s.calls i).remap with
      | true => exact (hdead _ (h.pinned i hi hr (by rw [hpi]; simp))).elim
      | false => exact absurd hpi (h.unmapping i hi hr).1
    | create => exact absurd (by rw [hpi]; rfl) hnot
    | populate => exact absurd (by rw [hpi]; rfl) hnot
    | put => exact absurd (by rw [hpi]; rfl) hnot
    | test => exact absurd hpi (hok i hi)
    | ctrlPut => exact absurd hpi (hm.before i hi).1
    | free => exact absurd hpi (hm.before i hi).2
    | returned => rfl
  have hrefs : refs (s.access c .test) = 0 := by
    have := refs_access .test hc
    rw [hpc, hone] at this
    exact Nat.add_right_cancel this
  have hcount : s.count - 1#32 = 0#32 := by
    rw [h.count_eq, hone]
    rfl
  constructor
  case count_eq =>
    change s.count - 1#32 = BitVec.ofNat 32 (refs (s.access c .test))
    rw [hrefs, hcount]
  case refs_le => exact hrefs.le.trans (Nat.zero_le _)
  case live_lt => exact h.live_lt
  case pinned =>
    intro i hi hr hne
    change ((s.access c .test).calls i).remap = true at hr
    change ((s.access c .test).calls i).pc ≠ .returned at hne
    rw [access_calls] at hr hne
    exfalso
    by_cases he : i = c
    · rw [he] at hr
      exact hdead _ (h.pinned c hc hr (by rw [hpc]; simp))
    · simp only [if_neg he] at hne
      exact hne (hidle i hi he)
  case unmapping =>
    intro i hi hr
    change ((s.access c .test).calls i).pc ≠ .get ∧ ((s.access c .test).calls i).pc ≠ .create ∧
      ((s.access c .test).calls i).pc ≠ .populate
    rw [access_calls]
    by_cases he : i = c
    · simp [he]
    · simp [he, hidle i hi he]
  case untouched =>
    change (s.touched || decide (0 < s.frees)) = false
    rw [h.untouched, hm.counts.2.2]
    rfl
  case phase =>
    refine ⟨hrefs, ⟨c, hc, fun i hi hne => ?_, ?_⟩, ?_⟩
    · change ((s.access c .test).calls i).pc = .returned
      rw [access_calls]
      simpa only [if_neg hne] using hidle i hi hne
    · change Removing s.ctrlPuts s.frees ((s.access c .test).calls c).pc
      rw [access_calls]
      simp only [if_true]
      exact hm.counts.2
    · change s.releases + 1 = 1
      rw [hm.counts.1]

theorem put (h : Inv s) (hc : c < s.started) (hpc : (s.calls c).pc = .put)
    (hok : Orderly s c) (hstep : callStep s c false = some s') : Inv s' := by
  have hpos := h.refs_pos hc (.inl (by rw [hpc]; rfl))
  have hle := h.refs_le
  obtain ⟨n, hn⟩ := Nat.exists_eq_add_of_le' hpos
  have hcount : s.count - 1#32 = BitVec.ofNat 32 n := by
    rw [h.count_eq, hn, BitVec.ofNat_add, BitVec.add_sub_cancel]
  have hzero : s.count - 1#32 = 0#32 ↔ n = 0 := by
    rw [hcount, ← BitVec.toNat_inj, BitVec.toNat_ofNat, BitVec.toNat_zero,
      Nat.mod_eq_of_lt (by omega)]
  simp only [callStep, hpc] at hstep
  split at hstep
  case isTrue hx =>
    obtain rfl := Option.some.inj hstep
    have hone : refs s = 1 := by rw [hn, hzero.mp hx]
    exact h.putLast hc hpc hone (hok.1 hpc (by rw [h.count_eq, hone]))
  case isFalse hx =>
    obtain rfl := Option.some.inj hstep
    have hne : n ≠ 0 := fun he => hx (hzero.mpr he)
    obtain ⟨hva, hm⟩ := h.mapped hpos
    have hrefs : refs (s.access c .test) = n := by
      have := refs_access .test hc
      rw [hpc, hn] at this
      exact Nat.add_right_cancel this
    refine h.stay hva hm .test (by simp) (fun _ => by simp) (by rw [hpc]; simp) (fun _ hi => hi)
      h.live_lt ?_ ?_ ?_
    · change s.count - 1#32 = BitVec.ofNat 32 (refs (s.access c .test))
      rw [hrefs, hcount]
    · change refs (s.access c .test) ≤ 2^32
      omega
    · change 0 < refs (s.access c .test)
      omega

theorem remove {ctrlPuts frees : Nat} (h : Inv s) (hva : s.va = false) (hc : c < s.started)
    (hret : (s.calls c).pc ≠ .returned) (hfrees : s.frees = 0) (pc : Pc) (hpc : pc.refs = false)
    (hget : pc ≠ .get)
    (hcounts : Removing ctrlPuts frees pc) :
    Inv { s.access c pc with ctrlPuts := ctrlPuts, frees := frees } := by
  have hg : Gone s := by
    have hp := h.phase
    rwa [hva] at hp
  obtain ⟨i₀, hi₀, hidle, -⟩ := hg.last
  have hlast : i₀ = c := by
    by_contra hne
    exact hret (hidle c hc fun hx => hne hx.symm)
  subst hlast
  have hold : (s.calls i₀).pc.refs = false := by
    refine Bool.eq_false_iff.mpr fun hx => ?_
    have := h.refs_pos hc (.inl hx)
    rw [hg.refs_eq] at this
    omega
  have hrefs : refs (s.access i₀ pc) = 0 := by
    have := refs_access pc hc
    rw [hold, hpc, hg.refs_eq] at this
    exact this
  have hdead (i : Nat) (hi : s.live i = true) : False := by
    have := Nat.add_pos_left (tally_pos (h.live_lt i hi) hi)
      (tally (fun c => (s.calls c).pc.refs) s.started)
    exact absurd hg.refs_eq (Nat.ne_of_gt this)
  have hremap : (s.calls i₀).remap = false := by
    refine Bool.eq_false_iff.mpr fun hx => hdead _ (h.pinned i₀ hc hx hret)
  constructor
  case count_eq =>
    change s.count = BitVec.ofNat 32 (refs (s.access i₀ pc))
    rw [hrefs, h.count_eq, hg.refs_eq]
  case refs_le => exact hrefs.le.trans (Nat.zero_le _)
  case live_lt => exact h.live_lt
  case pinned =>
    intro i hi hr hne
    change ((s.access i₀ pc).calls i).remap = true at hr
    change ((s.access i₀ pc).calls i).pc ≠ .returned at hne
    rw [access_calls] at hr hne
    by_cases he : i = i₀
    · rw [he, hremap] at hr
      cases hr
    · simp only [if_neg he] at hne
      exact absurd (hidle i hi he) hne
  case unmapping =>
    intro i hi hr
    change ((s.access i₀ pc).calls i).pc ≠ .get ∧ ((s.access i₀ pc).calls i).pc ≠ .create ∧
      ((s.access i₀ pc).calls i).pc ≠ .populate
    rw [access_calls]
    by_cases he : i = i₀
    · simp only [he, if_true]
      refine ⟨hget, ?_, ?_⟩
      · rintro rfl
        cases hpc
      · rintro rfl
        cases hpc
    · simp [he, hidle i hi he]
  case untouched =>
    change (s.touched || decide (0 < s.frees)) = false
    rw [h.untouched, hfrees]
    rfl
  case phase =>
    change if s.va then _ else _
    rw [hva]
    refine ⟨hrefs, ⟨i₀, hc, fun i hi hne => ?_, ?_⟩, hg.releases_eq⟩
    · change ((s.access i₀ pc).calls i).pc = .returned
      rw [access_calls]
      simpa only [if_neg hne] using hidle i hi hne
    · have hself : ((s.access i₀ pc).calls i₀).pc = pc := by
        rw [access_calls]
        simp only [if_true]
      change Removing ctrlPuts frees ((s.access i₀ pc).calls i₀).pc
      rw [hself]
      exact hcounts

theorem gone (h : Inv s) (hva : s.va = false) (hc : c < s.started)
    (hret : (s.calls c).pc ≠ .returned) : Removing s.ctrlPuts s.frees (s.calls c).pc := by
  have hp := h.phase
  rw [hva] at hp
  obtain ⟨i, -, hidle, hx⟩ := Gone.last hp
  have hi : i = c := by
    by_contra hne
    exact hret (hidle c hc fun hx => hne hx.symm)
  rwa [hi] at hx

theorem call {fail : Bool} (h : Inv s) (hc : c < s.started) (hok : Orderly s c)
    (hstep : callStep s c fail = some s') : Inv s' := by
  have hmap : (s.calls c).pc = .ctrlPut ∨ (s.calls c).pc = .free → s.va = false := by
    intro hpc
    cases hva : s.va with
    | false => rfl
    | true =>
      have hp := h.phase
      rw [hva] at hp
      have hb := Mapped.before hp c hc
      rcases hpc with hx | hx
      · exact absurd hx hb.1
      · exact absurd hx hb.2
  cases hpc : (s.calls c).pc with
  | get =>
    simp only [callStep, hpc, Option.some.injEq] at hstep
    subst hstep
    exact h.get hc hpc (hok.2 hpc)
  | create =>
    simp only [callStep, hpc] at hstep
    split at hstep
    · exact (Option.some.inj hstep) ▸ h.create hc hpc (.inl rfl)
    · exact (Option.some.inj hstep) ▸ h.create hc hpc (.inr rfl)
  | populate =>
    simp only [callStep, hpc, Option.some.injEq] at hstep
    subst hstep
    exact h.populate hc hpc
  | put =>
    refine h.put hc hpc hok ?_
    simp only [callStep, hpc] at hstep ⊢
    exact hstep
  | test =>
    simp only [callStep, hpc] at hstep
    split at hstep
    case isTrue hva =>
      obtain rfl := Option.some.inj hstep
      have hm : Mapped s := by
        have hp := h.phase
        rwa [hva] at hp
      have hrefs : refs (s.access c .returned) = refs s := by
        have := refs_access .returned hc
        rw [hpc] at this
        exact this
      refine h.stay hva hm .returned (by simp) (fun _ => by simp) (by rw [hpc]; simp)
        (fun _ hi => hi) h.live_lt ?_ ?_ ?_
      · change s.count = BitVec.ofNat 32 (refs (s.access c .returned))
        rw [hrefs]
        exact h.count_eq
      · exact hrefs.le.trans h.refs_le
      · exact hm.refs_pos.trans_eq hrefs.symm
    case isFalse hva =>
      obtain rfl := Option.some.inj hstep
      have hva' := Bool.eq_false_iff.mpr hva
      have hx := h.gone hva' hc (by rw [hpc]; simp)
      rw [hpc] at hx
      exact h.remove hva' hc (by rw [hpc]; simp) hx.2 .ctrlPut rfl (by simp) hx
  | ctrlPut =>
    simp only [callStep, hpc, Option.some.injEq] at hstep
    subst hstep
    have hva := hmap (.inl hpc)
    have hx := h.gone hva hc (by rw [hpc]; simp)
    rw [hpc] at hx
    exact h.remove hva hc (by rw [hpc]; simp) hx.2 .free rfl (by simp) ⟨by rw [hx.1], hx.2⟩
  | free =>
    simp only [callStep, hpc, Option.some.injEq] at hstep
    subst hstep
    have hva := hmap (.inr hpc)
    have hx := h.gone hva hc (by rw [hpc]; simp)
    rw [hpc] at hx
    exact h.remove hva hc (by rw [hpc]; simp) hx.2 .returned rfl (by simp) ⟨hx.1, by rw [hx.2]⟩
  | returned => simp only [callStep, hpc, reduceCtorEq] at hstep

end Inv

theorem inv_init : Inv init where
  count_eq := rfl
  refs_le := by decide
  live_lt h hl := by
    rw [beq_iff_eq.mp hl]
    exact Nat.zero_lt_one
  pinned c hc := absurd hc (Nat.not_lt_zero c)
  unmapping c hc := absurd hc (Nat.not_lt_zero c)
  untouched := rfl
  phase := ⟨by decide, fun c hc => absurd hc (Nat.not_lt_zero c), rfl, rfl, rfl⟩

theorem Reach.inv (h : Reach Orderly s) : Inv s := by
  induction h with
  | init => exact inv_init
  | step _ hstep ih =>
    cases hstep with
    | remap hl => exact ih.remap hl
    | unmap hl hfree => exact ih.unmap hl hfree
    | call hc hok hstep => exact ih.call hc hok hstep
end

/-- While call `c'` stands before its test, call `c` puts the last reference and frees the
descriptor; then `c'` reads it. -/
theorem exists_touched {s : State} {c c' : Nat} (hc : c < s.started) (hc' : c' < s.started)
    (hpc : (s.calls c).pc = .put) (hcount : s.count = 1#32) (hpc' : (s.calls c').pc = .test) :
    ∃ s', ReflTransGen (Step fun _ _ => True) s s' ∧ s'.touched = true := by
  have hne : c' ≠ c := by
    rintro rfl
    rw [hpc] at hpc'
    cases hpc'
  obtain ⟨s₁, h₁, hs₁, hva, hd₁, ho₁⟩ : ∃ s₁, callStep s c false = some s₁ ∧
      s₁.started = s.started ∧ s₁.va = false ∧ (s₁.calls c).pc = .test ∧
        (s₁.calls c').pc = .test := by
    simp only [callStep, hpc, hcount]
    exact ⟨_, if_pos rfl, rfl, rfl, by simp [access_calls], by simp [access_calls, hne, hpc']⟩
  obtain ⟨s₂, h₂, hs₂, hd₂, ho₂⟩ : ∃ s₂, callStep s₁ c false = some s₂ ∧
      s₂.started = s.started ∧ (s₂.calls c).pc = .ctrlPut ∧ (s₂.calls c').pc = .test := by
    simp only [callStep, hd₁, hva]
    exact ⟨_, rfl, hs₁, by simp [access_calls], by simp [access_calls, hne, ho₁]⟩
  obtain ⟨s₃, h₃, hs₃, hd₃, ho₃⟩ : ∃ s₃, callStep s₂ c false = some s₃ ∧
      s₃.started = s.started ∧ (s₃.calls c).pc = .free ∧ (s₃.calls c').pc = .test := by
    simp only [callStep, hd₂]
    exact ⟨_, rfl, hs₂, by simp [access_calls], by simp [access_calls, hne, ho₂]⟩
  obtain ⟨s₄, h₄, hs₄, hfrees, ho₄⟩ : ∃ s₄, callStep s₃ c false = some s₄ ∧
      s₄.started = s.started ∧ 0 < s₄.frees ∧ (s₄.calls c').pc = .test := by
    simp only [callStep, hd₃]
    exact ⟨_, rfl, hs₃, Nat.succ_pos _, by simp [access_calls, hne, ho₃]⟩
  obtain ⟨s₅, h₅, htouched⟩ : ∃ s₅, callStep s₄ c' false = some s₅ ∧ s₅.touched = true := by
    simp only [callStep, ho₄]
    split
    all_goals exact ⟨_, rfl, by simp [State.access, hfrees]⟩
  have hrun₁ := ReflTransGen.single (@Step.call (fun _ _ => True) _ _ _ _ hc trivial h₁)
  have hrun₂ := hrun₁.tail (.call (hs₁ ▸ hc) trivial h₂)
  have hrun₃ := hrun₂.tail (.call (hs₂ ▸ hc) trivial h₃)
  have hrun₄ := hrun₃.tail (.call (hs₃ ▸ hc) trivial h₄)
  exact ⟨s₅, hrun₄.tail (.call (hs₄ ▸ hc') trivial h₅), htouched⟩

/-- Over any run of calls in which the last reference is put in order: the address range
is released at most once and then no handle is left, the controller reference is dropped
and the descriptor freed at most once, no step touches it afterwards, and once every
handle is given up and every call has returned, each of the three has happened. A put of
the last reference out of order, on the other hand, can be followed by an access to the
freed descriptor. -/
theorem mapping_released_once {s : State} (h : Reach Orderly s) :
    (s.releases ≤ 1 ∧ s.ctrlPuts ≤ 1 ∧ s.frees ≤ 1 ∧ s.touched = false ∧
      (s.releases = 1 → ∀ i, s.live i = false) ∧
      ((∀ i, s.live i = false) → (∀ c < s.started, (s.calls c).pc = .returned) →
        s.releases = 1 ∧ s.ctrlPuts = 1 ∧ s.frees = 1)) ∧
    ∀ c < s.started, ∀ c' < s.started, (s.calls c).pc = .put → s.count = 1#32 →
      (s.calls c').pc = .test →
        ∃ s', ReflTransGen (Step fun _ _ => True) s s' ∧ s'.touched = true := by
  have hinv := h.inv
  refine ⟨?_, fun c hc c' hc' hpc hcount hpc' => exists_touched hc hc' hpc hcount hpc'⟩
  have hidle (hl : ∀ i, s.live i = false) (hr : ∀ c < s.started, (s.calls c).pc = .returned) :
      refs s = 0 := by
    unfold refs
    rw [tally_eq_zero fun i _ => hl i, tally_eq_zero fun c hc => by rw [hr c hc]; rfl]
  have hp := hinv.phase
  cases hva : s.va with
  | true =>
    rw [hva] at hp
    have hm : Mapped s := hp
    obtain ⟨h₁, h₂, h₃⟩ := hm.counts
    refine ⟨by omega, by omega, by omega, hinv.untouched, fun hx => by omega, fun hl hr => ?_⟩
    have := hm.refs_pos
    have := hidle hl hr
    omega
  | false =>
    rw [hva] at hp
    have hg : Gone s := hp
    obtain ⟨c, hc, -, hx⟩ := hg.last
    have hle : s.ctrlPuts ≤ 1 ∧ s.frees ≤ 1 := by
      cases hpc : (s.calls c).pc <;> rw [hpc] at hx <;>
        first | exact hx.elim | (obtain ⟨h₁, h₂⟩ := hx; omega)
    refine ⟨hg.releases_eq.le, hle.1, hle.2, hinv.untouched, fun _ i => ?_, fun _ hr => ?_⟩
    · refine Bool.eq_false_iff.mpr fun hi => ?_
      have := Nat.add_pos_left (tally_pos (hinv.live_lt i hi) hi)
        (tally (fun c => (s.calls c).pc.refs) s.started)
      exact absurd hg.refs_eq (Nat.ne_of_gt this)
    · rw [hr c hc] at hx
      exact ⟨hg.releases_eq, hx⟩

inductive Choice where
  | remap (h : Nat)
  | unmap (h : Nat)
  | call (c : Nat)

instance (s : State) (c : Nat) : Decidable (Orderly s c) := inferInstanceAs (Decidable (_ ∧ _))

def choose (ok : State → Nat → Prop) [∀ s c, Decidable (ok s c)] (s : State) :
    Choice → Option State
  | .remap h => if s.live h = true then some (begin s ⟨true, h, .get⟩) else none
  | .unmap h =>
    if s.live h = true ∧ ∀ c < s.started, (s.calls c).remap = true → (s.calls c).handle = h →
        (s.calls c).pc = .returned then
      some { begin s ⟨false, h, .put⟩ with live := update s.live h false }
    else none
  | .call c => if c < s.started ∧ ok s c then callStep s c false else none

theorem choose_reach {ok : State → Nat → Prop} [∀ s c, Decidable (ok s c)] (s : State)
    (c : Choice) (s' : State) (hs : Reach ok s) (h : choose ok s c = some s') : Reach ok s' := by
  refine hs.step ?_
  cases c with
  | remap k =>
    simp only [choose] at h
    split at h
    case isTrue hl => exact (Option.some.inj h) ▸ .remap hl
    case isFalse => cases h
  | unmap k =>
    simp only [choose] at h
    split at h
    case isTrue hl => exact (Option.some.inj h) ▸ .unmap hl.1 hl.2
    case isFalse => cases h
  | call c =>
    simp only [choose] at h
    split at h
    case isTrue hc => exact .call hc.1 hc.2 h
    case isFalse => cases h

theorem two_handles_released_once : ∃ s, Reach Orderly s ∧ s.handles = 2 ∧
    s.releases = 1 ∧ s.ctrlPuts = 1 ∧ s.frees = 1 ∧ s.touched = false := by
  have hend : (exec (choose Orderly) [.remap 0, .call 0, .call 0, .call 0, .unmap 0, .unmap 1,
      .call 2, .call 2, .call 1, .call 1, .call 1, .call 1] init).any (fun s => decide
        (s.handles = 2 ∧ s.live 0 = false ∧ s.live 1 = false ∧
          ∀ c < s.started, (s.calls c).pc = .returned)) = true := by
    decide +kernel
  obtain ⟨s, hs, hh, h₀, h₁, hret⟩ := exists_of_exec choose_reach _ .init hend
  obtain ⟨⟨-, -, -, htouched, -, hall⟩, -⟩ := mapping_released_once hs
  have hdead (i : Nat) : s.live i = false := by
    refine Bool.eq_false_iff.mpr fun hi => ?_
    have hlt := hs.inv.live_lt i hi
    obtain rfl | rfl : i = 0 ∨ i = 1 := by omega
    · rw [h₀] at hi
      cases hi
    · rw [h₁] at hi
      cases hi
  obtain ⟨hr, hc, hf⟩ := hall hdead hret
  exact ⟨s, hs, hh, hr, hc, hf, htouched⟩

/-- Two handles given up at once: both calls see `va` NULL, so that the controller
reference is dropped twice and the descriptor freed twice. -/
theorem two_unmaps_free_twice : ∃ s, Reach (fun _ _ => True) s ∧
    s.ctrlPuts = 2 ∧ s.frees = 2 ∧ s.touched = true := by
  have hend : (exec (choose fun _ _ => True) [.remap 0, .call 0, .call 0, .call 0, .unmap 0,
      .unmap 1, .call 1, .call 2, .call 1, .call 2, .call 1, .call 1, .call 2, .call 2] init).any
        (fun s => decide (s.ctrlPuts = 2 ∧ s.frees = 2 ∧ s.touched = true)) = true := by
    decide +kernel
  exact exists_of_exec choose_reach _ .init hend

end Shaper.DmaMapping
