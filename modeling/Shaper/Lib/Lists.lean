import Mathlib.Data.List.Forall2
import Mathlib.Data.List.Nodup

/-! Lists: those whose elements correspond, and those put together from parts. -/
namespace Shaper.Lib.Lists
variable {α β γ δ : Type*}

section related
variable {R : α → γ → Prop} {l : List α} {m : List γ}

theorem flatMap_forall₂ {f : α → List δ} {g : γ → List δ}
    (h : List.Forall₂ (fun a c => g c = f a) l m) : m.flatMap g = l.flatMap f := by
  induction h with
  | nil => rfl
  | cons hac _ ih => rw [List.flatMap_cons, List.flatMap_cons, hac, ih]

theorem exists_of_forall₂ (h : List.Forall₂ R l m) {c : γ} (hc : c ∈ m) : ∃ a, R a c := by
  induction h with
  | nil => exact absurd hc List.not_mem_nil
  | cons hac _ ih =>
    rcases List.mem_cons.mp hc with rfl | hc
    · exact ⟨_, hac⟩
    · exact ih hc

theorem forall_iff_of_forall₂ {P : α → Prop} {Q : γ → Prop}
    (h : List.Forall₂ (fun a c => Q c ↔ P a) l m) : (∀ c ∈ m, Q c) ↔ ∀ a ∈ l, P a := by
  induction h with
  | nil => simp
  | cons hac _ ih => rw [List.forall_mem_cons, List.forall_mem_cons, hac, ih]

theorem forall₂_join {S : α → β → Prop} {T : γ → β → Prop}
    (h : ∀ a b c, R a b → S a c → T b c) {n : List β}
    (hm : List.Forall₂ R l m) (hn : List.Forall₂ S l n) : List.Forall₂ T m n := by
  induction hm generalizing n with
  | nil =>
    cases hn
    exact .nil
  | cons hr _ ih =>
    cases hn with
    | cons hs hn => exact .cons (h _ _ _ hr hs) (ih hn)

end related

theorem flatMap_filter (p : α → Bool) (f : α → List β) (l : List α) :
    (l.filter p).flatMap f = l.flatMap fun a => if p a then f a else [] := by
  induction l with
  | nil => rfl
  | cons a l ih =>
    cases hp : p a with
    | true => simp [List.flatMap_cons, hp, ih]
    | false => simp [List.flatMap_cons, hp, ih]

theorem flatMap_ite (p : α → Bool) (f : α → β) (l : List α) :
    (l.flatMap fun a => if p a then [f a] else []) = (l.filter p).map f := by
  rw [← flatMap_filter p fun a => [f a], List.map_eq_flatMap]

theorem nodup_map_concat {f : α → β} {l : List α} {a : α} (h : (l.map f).Nodup)
    (ha : ∀ b ∈ l, f b ≠ f a) : ((l ++ [a]).map f).Nodup := by
  rw [List.map_append, List.map_singleton, ← List.concat_eq_append]
  exact h.concat (by simpa using ha)

theorem getElem?_blocks {m : Nat} (hm : 0 < m) (f : α → Nat → β) (l : List α) (k : Nat) :
    (l.flatMap fun a => (List.range m).map (f a))[k]? = l[k/m]?.map fun a => f a (k%m) := by
  induction l generalizing k with
  | nil => rfl
  | cons a l ih =>
    have hlen : ((List.range m).map (f a)).length = m := by
      rw [List.length_map, List.length_range]
    rw [List.flatMap_cons]
    rcases Nat.lt_or_ge k m with h | h
    · rw [List.getElem?_append_left (by omega), Nat.div_eq_of_lt h, Nat.mod_eq_of_lt h,
        List.getElem?_cons_zero, List.getElem?_map, List.getElem?_range h]
      rfl
    · rw [List.getElem?_append_right (by omega), hlen, ih, ← Nat.mod_eq_sub_mod h,
        Nat.div_eq_sub_div hm h, List.getElem?_cons_succ]

end Shaper.Lib.Lists
