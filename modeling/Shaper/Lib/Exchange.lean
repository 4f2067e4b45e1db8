import Mathlib.Tactic.TypeStar

/-! Rows of cells that are exchanged in pairs, cell by cell and one access at a time: how far
an exchange has come, and which row a cell belongs to meanwhile. -/
namespace Shaper.Lib.Exchange
variable {H α : Type*}

inductive Stage (α : Type*) where
  | loadA (c : Nat)
  | loadB (c : Nat) (tmp : α)
  | storeA (c : Nat) (tmp x : α)
  | storeB (c : Nat) (tmp : α)

def Stage.cell : Stage α → Nat
  | .loadA c => c
  | .loadB c _ => c
  | .storeA c _ _ => c
  | .storeB c _ => c

def AtCell (n : Nat) (f : H → Nat → α) (a b : H) (ra rb : Nat → α) : Stage α → Prop
  | .loadA c => c < n → f a c = rb c ∧ f b c = ra c
  | .loadB c tmp => c < n ∧ (f a c = rb c ∧ f b c = ra c) ∧ tmp = rb c
  | .storeA c tmp x => c < n ∧ (f a c = rb c ∧ f b c = ra c) ∧ tmp = rb c ∧ x = ra c
  | .storeB c tmp => c < n ∧ (f a c = ra c ∧ f b c = ra c) ∧ tmp = rb c

structure Halfway (n : Nat) (f : H → Nat → α) (a b : H) (ra rb : Nat → α) (st : Stage α) :
    Prop where
  done : ∀ c < n, c < st.cell → f a c = ra c ∧ f b c = rb c
  todo : ∀ c < n, st.cell < c → f a c = rb c ∧ f b c = ra c
  here : AtCell n f a b ra rb st

structure Stored (n : Nat) (f f' : H → Nat → α) (h : H) (c : Nat) (x : α) : Prop where
  new : f' h c = x
  same : ∀ c' < n, c' ≠ c → f' h c' = f h c'
  other : ∀ h', h' ≠ h → ∀ c' < n, f' h' c' = f h' c'

variable {f f' : H → Nat → α} {a b : H} {ra rb : Nat → α} {n c : Nat} {tmp x : α} {st : Stage α}

theorem Halfway.congr (hw : Halfway n f a b ra rb st) (ha : ∀ c < n, f' a c = f a c)
    (hb : ∀ c < n, f' b c = f b c) : Halfway n f' a b ra rb st := by
  refine ⟨fun c hc hlt => ?_, fun c hc hlt => ?_, ?_⟩
  · rw [ha c hc, hb c hc]
    exact hw.done c hc hlt
  · rw [ha c hc, hb c hc]
    exact hw.todo c hc hlt
  · have hhere := hw.here
    cases st with
    | loadA c =>
      intro hc
      rw [ha c hc, hb c hc]
      exact hhere hc
    | loadB c tmp =>
      rw [AtCell, ha c hhere.1, hb c hhere.1]
      exact hhere
    | storeA c tmp x =>
      rw [AtCell, ha c hhere.1, hb c hhere.1]
      exact hhere
    | storeB c tmp =>
      rw [AtCell, ha c hhere.1, hb c hhere.1]
      exact hhere

theorem halfway_start (ha : ∀ c < n, f a c = rb c) (hb : ∀ c < n, f b c = ra c) :
    Halfway n f a b ra rb (.loadA 0) where
  done c _ hc := absurd hc (Nat.not_lt_zero c)
  todo c hc _ := ⟨ha c hc, hb c hc⟩
  here hc := ⟨ha 0 hc, hb 0 hc⟩

theorem Halfway.loadA (hw : Halfway n f a b ra rb (.loadA c)) (hc : c < n) :
    Halfway n f a b ra rb (.loadB c (f a c)) :=
  ⟨hw.done, hw.todo, hc, hw.here hc, (hw.here hc).1⟩

theorem Halfway.loadB (hw : Halfway n f a b ra rb (.loadB c tmp)) :
    Halfway n f a b ra rb (.storeA c tmp (f b c)) :=
  ⟨hw.done, hw.todo, hw.here.1, hw.here.2.1, hw.here.2.2, hw.here.2.1.2⟩

theorem Halfway.storeA (hw : Halfway n f a b ra rb (.storeA c tmp x)) (hab : a ≠ b)
    (hf : Stored n f f' a c x) : Halfway n f' a b ra rb (.storeB c tmp) := by
  have hb := hf.other b hab.symm
  obtain ⟨hc, ⟨-, hbc⟩, htmp, hx⟩ := hw.here
  refine ⟨fun c' hn hlt => ?_, fun c' hn hlt => ?_, hc, ⟨hf.new.trans hx, (hb c hc).trans hbc⟩,
    htmp⟩
  · rw [hf.same c' hn (Nat.ne_of_lt hlt), hb c' hn]
    exact hw.done c' hn hlt
  · rw [hf.same c' hn (Nat.ne_of_gt hlt), hb c' hn]
    exact hw.todo c' hn hlt

theorem Halfway.storeB (hw : Halfway n f a b ra rb (.storeB c tmp)) (hab : a ≠ b)
    (hf : Stored n f f' b c tmp) : Halfway n f' a b ra rb (.loadA (c+1)) := by
  have ha := hf.other a hab
  obtain ⟨hc, ⟨hac, -⟩, htmp⟩ := hw.here
  refine ⟨fun c' hn hlt => ?_, fun c' hn hlt => ?_, fun hn => ?_⟩
  · rcases Nat.lt_or_eq_of_le (Nat.le_of_lt_succ hlt) with hlt | rfl
    · rw [ha c' hn, hf.same c' hn (Nat.ne_of_lt hlt)]
      exact hw.done c' hn hlt
    · exact ⟨(ha c' hn).trans hac, hf.new.trans htmp⟩
  · have hlt : c < c' := Nat.lt_of_succ_lt hlt
    rw [ha c' hn, hf.same c' hn (Nat.ne_of_gt hlt)]
    exact hw.todo c' hn hlt
  · rw [ha (c+1) hn, hf.same (c+1) hn (Nat.succ_ne_self c)]
    exact hw.todo (c+1) hn (Nat.lt_succ_self c)

theorem Halfway.finish (hw : Halfway n f a b ra rb (.loadA c)) (hc : n ≤ c) :
    ∀ c < n, f a c = ra c ∧ f b c = rb c :=
  fun c' h => hw.done c' h (Nat.lt_of_lt_of_le h hc)

/-- Meanwhile a cell of the first row comes from one row or the other. -/
theorem Halfway.either (hw : Halfway n f a b ra rb st) (hc : c < n) :
    f a c = ra c ∨ f a c = rb c := by
  rcases Nat.lt_trichotomy c st.cell with hlt | heq | hgt
  · exact .inl (hw.done c hc hlt).1
  · have hhere := hw.here
    subst heq
    cases st with
    | loadA c => exact .inr (hhere hc).1
    | loadB c tmp => exact .inr hhere.2.1.1
    | storeA c tmp x => exact .inr hhere.2.1.1
    | storeB c tmp => exact .inl hhere.2.1.1
  · exact .inr (hw.todo c hc hgt).1

end Shaper.Lib.Exchange
