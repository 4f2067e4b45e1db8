import Mathlib.Data.List.Basic
import Mathlib.Data.List.Perm.Basic
import Mathlib.Logic.Function.Basic

/-! Operations that overwrite what they touch and leave the rest: the value at a
place depends only on the operations that touch it, in their order. -/
namespace Shaper.Lib.Overwrite
variable {α κ β : Type*} {touches : α → κ → Bool} {f : α → (κ → β) → κ → β}

structure Overwrites (touches : α → κ → Bool) (f : α → (κ → β) → κ → β) : Prop where
  other : ∀ {a x}, touches a x = false → ∀ d, f a d x = d x
  same : ∀ {a x}, touches a x = true → ∀ d d', f a d x = f a d' x

def applyAll (f : α → (κ → β) → κ → β) (l : List α) (d : κ → β) : κ → β :=
  l.foldl (fun d a => f a d) d

theorem applyAll_append (l m : List α) (d : κ → β) :
    applyAll f (l ++ m) d = applyAll f m (applyAll f l d) := List.foldl_append

theorem applyAll_flatMap {γ : Type*} (g : γ → List α) (l : List γ) :
    applyAll f (l.flatMap g) = applyAll (fun a => applyAll f (g a)) l := by
  funext d
  induction l generalizing d with
  | nil => rfl
  | cons a l ih =>
    rw [List.flatMap_cons, applyAll_append, ih]
    rfl

theorem applyAll_map {γ : Type*} (g : γ → α) (l : List γ) :
    applyAll f (l.map g) = applyAll (fun a => f (g a)) l := by
  funext d
  exact List.foldl_map

theorem applyAll_congr_mem {g : α → (κ → β) → κ → β} {l : List α} (h : ∀ a ∈ l, f a = g a) :
    applyAll f l = applyAll g l := by
  funext d
  exact List.foldl_ext _ _ d fun d a ha => congrFun (h a ha) d

theorem Overwrites.applyAll_at (h : Overwrites touches f) (l : List α) {d d' : κ → β} {x : κ}
    (hd : d x = d' x) : applyAll f l d x = applyAll f (l.filter fun a => touches a x) d' x := by
  induction l generalizing d d' with
  | nil => exact hd
  | cons a l ih =>
    cases ha : touches a x with
    | true =>
      rw [List.filter_cons_of_pos (by exact ha)]
      exact ih (h.same ha d d')
    | false =>
      rw [List.filter_cons_of_neg (by simp [ha])]
      exact ih ((h.other ha d).trans hd)

theorem Overwrites.applyAll_other (h : Overwrites touches f) {l : List α} {x : κ}
    (hx : ∀ a ∈ l, touches a x = false) (d : κ → β) : applyAll f l d x = d x := by
  have hnil : (l.filter fun a => touches a x) = [] :=
    List.filter_eq_nil_iff.mpr fun a ha => by simp [hx a ha]
  rw [h.applyAll_at l (rfl : d x = d x), hnil]
  rfl

/-- If all operations that touch a place agree on it, that is what it gets. -/
theorem Overwrites.applyAll_value (h : Overwrites touches f) {l : List α} {x : κ} {v : β}
    (hv : ∀ a ∈ l, touches a x = true → ∀ d, f a d x = v) (hex : ∃ a ∈ l, touches a x = true)
    (d : κ → β) : applyAll f l d x = v := by
  induction l generalizing d with
  | nil =>
    obtain ⟨a, ha, -⟩ := hex
    exact absurd ha List.not_mem_nil
  | cons a l ih =>
    have hrest : ∀ b ∈ l, touches b x = true → ∀ d, f b d x = v :=
      fun b hb => hv b (List.mem_cons_of_mem _ hb)
    change applyAll f l (f a d) x = v
    by_cases hl : ∃ b ∈ l, touches b x = true
    · exact ih hrest hl _
    · have hnone : ∀ b ∈ l, touches b x = false := fun b hb => by
        rw [← Bool.not_eq_true]
        exact fun ht => hl ⟨b, hb, ht⟩
      rw [h.applyAll_other hnone]
      obtain ⟨b, hb, ht⟩ := hex
      rcases List.mem_cons.mp hb with rfl | hb
      · exact hv b List.mem_cons_self ht d
      · exact absurd ht (by rw [hnone b hb]; decide)

theorem overwrites_update {γ : Type*} [DecidableEq κ] (at_ : γ → κ) (val : γ → β) :
    Overwrites (fun a x => decide (at_ a = x)) fun a d => Function.update d (at_ a) (val a) := by
  refine ⟨fun {a x} hx d => ?_, fun {a x} hx d d' => ?_⟩
  · exact Function.update_of_ne (Ne.symm (of_decide_eq_false hx)) _ _
  · obtain rfl := of_decide_eq_true hx
    rw [Function.update_self, Function.update_self]

/-- Reordering that keeps the order at every place changes nothing. -/
theorem Overwrites.applyAll_congr (h : Overwrites touches f) {l m : List α}
    (hlm : ∀ x, (l.filter fun a => touches a x) = m.filter fun a => touches a x) (d : κ → β) :
    applyAll f l d = applyAll f m d := by
  funext x
  rw [h.applyAll_at l (rfl : d x = d x), hlm, ← h.applyAll_at m (rfl : d x = d x)]

theorem Overwrites.applyAll_perm (h : Overwrites touches f) {l m : List α} (hp : l.Perm m)
    (hl : l.Pairwise fun a b => ∀ x, ¬ (touches a x = true ∧ touches b x = true)) (d : κ → β) :
    applyAll f l d = applyAll f m d := by
  refine h.applyAll_congr (fun x => ?_) d
  have hfilter := hp.filter fun a => touches a x
  -- at most one operation of the list touches `x`
  match hx : l.filter fun a => touches a x with
  | [] => rw [hx] at hfilter; exact hfilter.nil_eq
  | [a] => rw [hx] at hfilter; exact (List.perm_singleton.mp hfilter.symm).symm
  | a :: b :: rest =>
    have hpair := hl.filter fun a => touches a x
    rw [hx] at hpair
    have ha : a ∈ l.filter fun a => touches a x := hx ▸ List.mem_cons_self
    have hb : b ∈ l.filter fun a => touches a x := hx ▸ List.mem_cons_of_mem _ List.mem_cons_self
    exact absurd ⟨(List.mem_filter.mp ha).2, (List.mem_filter.mp hb).2⟩
      ((List.pairwise_cons.mp hpair).1 b List.mem_cons_self x)

end Shaper.Lib.Overwrite
