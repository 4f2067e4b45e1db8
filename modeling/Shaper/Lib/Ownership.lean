import Mathlib.Logic.Function.Basic

/-! Locks seen from outside. Each resource has a flag that says whether it is held
and each agent knows which resources it owns; the two views agree when a resource
is held exactly if it has an owner, and no resource has two. -/
namespace Shaper.Lib.Ownership
variable {R I : Type*} {held held' : R → Prop} {owns owns' : I → R → Prop} {i j : I} {r : R}

structure Exclusive (held : R → Prop) (owns : I → R → Prop) : Prop where
  held_of_owns : ∀ i r, owns i r → held r
  owner : ∀ r, held r → ∃ i, owns i r
  unique : ∀ i j r, owns i r → owns j r → i = j

theorem Exclusive.congr (h : Exclusive held owns) (hh : ∀ r, held' r ↔ held r)
    (ho : ∀ i r, owns' i r ↔ owns i r) : Exclusive held' owns' where
  held_of_owns i r hi := (hh r).mpr (h.held_of_owns i r ((ho i r).mp hi))
  owner r hr := by
    obtain ⟨i, hi⟩ := h.owner r ((hh r).mp hr)
    exact ⟨i, (ho i r).mpr hi⟩
  unique i j r hi hj := h.unique i j r ((ho i r).mp hi) ((ho j r).mp hj)

theorem Exclusive.take (h : Exclusive held owns) (hfree : ¬held r)
    (hh : ∀ x, held' x ↔ held x ∨ x = r) (ho : ∀ j x, owns' j x ↔ owns j x ∨ j = i ∧ x = r) :
    Exclusive held' owns' where
  held_of_owns j x hj := by
    rcases (ho j x).mp hj with hj | ⟨-, hx⟩
    · exact (hh x).mpr (.inl (h.held_of_owns j x hj))
    · exact (hh x).mpr (.inr hx)
  owner x hx := by
    rcases (hh x).mp hx with hx | hx
    · obtain ⟨j, hj⟩ := h.owner x hx
      exact ⟨j, (ho j x).mpr (.inl hj)⟩
    · exact ⟨i, (ho i x).mpr (.inr ⟨rfl, hx⟩)⟩
  unique j l x hj hl := by
    rcases (ho j x).mp hj with hj | ⟨rfl, rfl⟩ <;> rcases (ho l x).mp hl with hl | ⟨rfl, hx⟩
    · exact h.unique j l x hj hl
    · exact absurd (hx ▸ h.held_of_owns j x hj) hfree
    · exact absurd (h.held_of_owns l x hl) hfree
    · rfl

theorem Exclusive.drop (h : Exclusive held owns) (hi : owns i r)
    (hh : ∀ x, held' x ↔ held x ∧ x ≠ r) (ho : ∀ j x, owns' j x ↔ owns j x ∧ ¬(j = i ∧ x = r)) :
    Exclusive held' owns' where
  held_of_owns j x hj := by
    obtain ⟨hj, hne⟩ := (ho j x).mp hj
    refine (hh x).mpr ⟨h.held_of_owns j x hj, ?_⟩
    rintro rfl
    exact hne ⟨h.unique j i x hj hi, rfl⟩
  owner x hx := by
    obtain ⟨hx, hne⟩ := (hh x).mp hx
    obtain ⟨j, hj⟩ := h.owner x hx
    exact ⟨j, (ho j x).mpr ⟨hj, fun he => hne he.2⟩⟩
  unique j l x hj hl := h.unique j l x ((ho j x).mp hj).1 ((ho l x).mp hl).1

theorem Exclusive.pass (h : Exclusive held owns) (hi : owns i r) (hh : ∀ x, held' x ↔ held x)
    (ho : ∀ k x, owns' k x ↔ owns k x ∧ ¬(k = i ∧ x = r) ∨ k = j ∧ x = r) :
    Exclusive held' owns' where
  held_of_owns k x hk := by
    rcases (ho k x).mp hk with ⟨hk, -⟩ | ⟨-, rfl⟩
    · exact (hh x).mpr (h.held_of_owns k x hk)
    · exact (hh x).mpr (h.held_of_owns i x hi)
  owner x hx := by
    by_cases hxr : x = r
    · exact ⟨j, (ho j x).mpr (.inr ⟨rfl, hxr⟩)⟩
    · obtain ⟨k, hk⟩ := h.owner x ((hh x).mp hx)
      exact ⟨k, (ho k x).mpr (.inl ⟨hk, fun he => hxr he.2⟩)⟩
  unique k l x hk hl := by
    have hother : ∀ k, owns k r → ¬(k = i ∧ r = r) → False :=
      fun k hk hne => hne ⟨h.unique k i r hk hi, rfl⟩
    rcases (ho k x).mp hk with ⟨hk, hki⟩ | ⟨rfl, rfl⟩ <;>
      rcases (ho l x).mp hl with ⟨hl, hli⟩ | ⟨rfl, hx⟩
    · exact h.unique k l x hk hl
    · exact (hother k (hx ▸ hk) (hx ▸ hki)).elim
    · exact (hother l hl hli).elim
    · rfl

end Shaper.Lib.Ownership
