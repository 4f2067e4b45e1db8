import Mathlib.Logic.Function.Basic
import Mathlib.Order.WellFounded
import Mathlib.Logic.Relation
import Mathlib.Data.List.Basic

/-! Ranking rules: a goal is reached when some well-founded rank goes down at every
helpful step and up at none. -/
namespace Shaper.Lib.Rank
variable {σ β : Type*} [Preorder β] [WellFoundedLT β]

/-- Along some finite run, when a helpful step can always be taken. -/
theorem exists_run {R : σ → σ → Prop} {rank : σ → β} {goal inv : σ → Prop}
    (hstep : ∀ s, inv s → ¬ goal s → ∃ t, R s t ∧ inv t ∧ (goal t ∨ rank t < rank s)) {s : σ}
    (h : inv s) : ∃ t, Relation.ReflTransGen R s t ∧ inv t ∧ goal t := by
  induction hb : rank s using WellFoundedLT.induction generalizing s with
  | ind b ih =>
    by_cases hg : goal s
    · exact ⟨s, .refl, h, hg⟩
    · obtain ⟨t, hR, ht, hg | hlt⟩ := hstep s h hg
      · exact ⟨t, .single hR, ht, hg⟩
      · obtain ⟨u, hu, hi, hgu⟩ := ih _ (hb ▸ hlt) ht rfl
        exact ⟨u, .head hR hu, hi, hgu⟩

def todo (n : Nat) (done : Nat → Bool) : Nat := (List.range n).countP fun i => !done i

theorem todo_tick {n i : Nat} {done : Nat → Bool} (hi : i < n) (h : done i = false) :
    todo n (Function.update done i true) < todo n done := by
  induction n with
  | zero => omega
  | succ n ih =>
    unfold todo at *
    rw [List.range_succ, List.countP_append, List.countP_append]
    rcases Nat.lt_succ_iff_lt_or_eq.mp hi with hlt | rfl
    · have hne : n ≠ i := by omega
      simpa [List.countP_cons, Function.update_of_ne hne] using ih hlt
    · have hsame : (List.range i).countP (fun j => !Function.update done i true j) =
          (List.range i).countP fun j => !done j := by
        refine List.countP_congr fun j hj => ?_
        rw [Function.update_of_ne (Nat.ne_of_lt (List.mem_range.mp hj))]
      rw [hsame]
      simp [h]

theorem exists_todo {n : Nat} {done : Nat → Bool} (h : (List.range n).all done = false) :
    ∃ i < n, done i = false := by
  obtain ⟨i, hi, hd⟩ := List.all_eq_false.mp h
  exact ⟨i, List.mem_range.mp hi, by simpa using hd⟩

end Shaper.Lib.Rank
