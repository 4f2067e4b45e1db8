import Mathlib.Tactic.TypeStar

/-! Runs of a machine on a list of choices. -/
namespace Shaper.Lib.Exec
variable {S C : Type*} {next : S → C → Option S} {P : S → Prop} {s s' : S}

def exec (next : S → C → Option S) : List C → S → Option S
  | [], s => some s
  | c :: cs, s => (next s c).bind (exec next cs)

theorem exec_keeps (hnext : ∀ s c s', P s → next s c = some s' → P s') (cs : List C) (hs : P s)
    (h : exec next cs s = some s') : P s' := by
  induction cs generalizing s with
  | nil => exact (Option.some.inj h) ▸ hs
  | cons c cs ih =>
    obtain ⟨s₁, h₁, h₂⟩ := Option.bind_eq_some_iff.mp h
    exact ih (hnext s c s₁ hs h₁) h₂

/-- A run that a test accepts at its end ends in a state with the property tested. -/
theorem exists_of_exec {q : S → Prop} [DecidablePred q]
    (hnext : ∀ s c s', P s → next s c = some s' → P s') (cs : List C) (hs : P s)
    (h : (exec next cs s).any (fun s => decide (q s)) = true) : ∃ s', P s' ∧ q s' := by
  obtain ⟨s', hs', hq⟩ := (Option.any_eq_true _ _).mp h
  exact ⟨s', exec_keeps hnext cs hs hs', of_decide_eq_true hq⟩

end Shaper.Lib.Exec
