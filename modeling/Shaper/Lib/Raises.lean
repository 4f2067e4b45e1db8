import Mathlib.Tactic.TypeStar

/-! Computations that raise: what is known of a loop that ran through. -/
namespace Shaper.Lib.Raises
variable {ε α β γ : Type} {x : Except ε α} {f : α → Except ε β} {b : β} {l : List α} {ys : List β}

theorem raises_of_ne_ok (h : ∀ a, x ≠ .ok a) : ∃ e, x = .error e := by
  cases x with
  | error e => exact ⟨e, rfl⟩
  | ok a => exact absurd rfl (h a)

theorem guard_ok {cond : Prop} [Decidable cond] {e : ε} {f : β → Except ε α} {a : α} :
    (if cond then throw e >>= f else x) = .ok a ↔ ¬cond ∧ x = .ok a := by
  by_cases hc : cond
  · rw [if_pos hc]
    exact ⟨fun h => (nomatch h), fun h => absurd hc h.1⟩
  · rw [if_neg hc]
    exact ⟨fun h => ⟨hc, h⟩, fun h => h.2⟩

theorem final_ok {cond : Prop} [Decidable cond] {e : ε} :
    (if cond then Except.ok () else .error e) = .ok () ↔ cond := by
  by_cases hc : cond
  · simp [hc]
  · simp [hc]

theorem bind_eq_ok : (x >>= f) = .ok b ↔ ∃ a, x = .ok a ∧ f a = .ok b := by
  constructor
  · intro h
    cases x with
    | error e => cases h
    | ok a => exact ⟨a, rfl, h⟩
  · rintro ⟨a, rfl, h⟩
    exact h

theorem forM_eq_ok {f : α → Except ε Unit} : l.forM f = .ok () ↔ ∀ a ∈ l, f a = .ok () := by
  induction l with
  | nil => exact ⟨fun _ a ha => absurd ha List.not_mem_nil, fun _ => rfl⟩
  | cons a l ih =>
    rw [List.forall_mem_cons, ← ih]
    change (f a >>= fun _ => l.forM f) = _ ↔ _
    rw [bind_eq_ok]
    exact ⟨fun ⟨_, ha, hl⟩ => ⟨ha, hl⟩, fun ⟨ha, hl⟩ => ⟨(), ha, hl⟩⟩

theorem mapM_cons_eq_ok {a : α} (h : (a :: l).mapM f = .ok ys) :
    ∃ z zs, f a = .ok z ∧ l.mapM f = .ok zs ∧ ys = z :: zs := by
  rw [List.mapM_cons] at h
  obtain ⟨z, hz, h⟩ := bind_eq_ok.mp h
  obtain ⟨zs, hzs, h⟩ := bind_eq_ok.mp h
  exact ⟨z, zs, hz, hzs, (Except.ok.inj h).symm⟩

theorem mapM_ok (h : l.mapM f = .ok ys) : ∀ y ∈ ys, ∃ a ∈ l, f a = .ok y := by
  induction l generalizing ys with
  | nil =>
    obtain rfl : [] = ys := Except.ok.inj h
    simp
  | cons a l ih =>
    obtain ⟨z, zs, hz, hzs, rfl⟩ := mapM_cons_eq_ok h
    intro y hy
    rcases List.mem_cons.mp hy with rfl | hy
    · exact ⟨a, List.mem_cons_self, hz⟩
    · obtain ⟨a', ha', hf⟩ := ih hzs y hy
      exact ⟨a', List.mem_cons_of_mem _ ha', hf⟩

theorem mapM_map {g : β → γ} {k : α → γ} (h : l.mapM f = .ok ys)
    (hg : ∀ a y, f a = .ok y → g y = k a) : ys.map g = l.map k := by
  induction l generalizing ys with
  | nil =>
    obtain rfl : [] = ys := Except.ok.inj h
    rfl
  | cons a l ih =>
    obtain ⟨z, zs, hz, hzs, rfl⟩ := mapM_cons_eq_ok h
    rw [List.map_cons, List.map_cons, ih hzs, hg a z hz]

theorem mapM_eq_map {g : α → β} (h : ∀ a ∈ l, f a = .ok (g a)) : l.mapM f = .ok (l.map g) := by
  induction l with
  | nil => rfl
  | cons a l ih =>
    obtain ⟨ha, hl⟩ := List.forall_mem_cons.mp h
    rw [List.mapM_cons, ha, ih hl]
    rfl

end Shaper.Lib.Raises
