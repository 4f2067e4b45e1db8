import Mathlib.Logic.Function.Basic

/-! Rings whose cells carry a phase tag that flips with every lap: the cursors that go
around them, and how a reader tells from the tags alone which cells are new. -/
namespace Shaper.Lib.PhaseRing
open Function

structure Cursor where
  index : Nat
  phase : Bool
  deriving DecidableEq

def Cursor.next (size : Nat) (c : Cursor) : Cursor :=
  if c.index + 1 = size then ⟨0, !c.phase⟩ else ⟨c.index + 1, c.phase⟩

def tag (size n : Nat) : Bool := n / size % 2 == 0

def cursorAt (size n : Nat) : Cursor := ⟨n % size, tag size n⟩

def Tagged (size : Nat) (tags : Nat → Bool) (posted : Nat) : Prop :=
  ∀ j < size, tags j = if j < posted % size then tag size posted else !tag size posted

variable {size n posted taken : Nat} {tags : Nat → Bool}

theorem succ_wrap (hs : 0 < size) (h : n % size + 1 = size) :
    (n+1) % size = 0 ∧ (n+1) / size = n / size + 1 := by
  have hn : n + 1 = size * (n / size + 1) := by
    have := Nat.div_add_mod n size
    rw [Nat.mul_add]
    omega
  rw [hn]
  exact ⟨Nat.mul_mod_right _ _, Nat.mul_div_cancel_left _ hs⟩

theorem succ_inside (hs : 0 < size) (h : n % size + 1 ≠ size) :
    (n+1) % size = n % size + 1 ∧ (n+1) / size = n / size := by
  have hlt : n % size + 1 < size := by
    have := Nat.mod_lt n hs
    omega
  have hn : n + 1 = size * (n / size) + (n % size + 1) := by
    have := Nat.div_add_mod n size
    omega
  rw [hn]
  refine ⟨?_, ?_⟩
  · rw [Nat.mul_add_mod, Nat.mod_eq_of_lt hlt]
  · rw [Nat.mul_add_div hs, Nat.div_eq_of_lt hlt, Nat.add_zero]

theorem tag_wrap (hs : 0 < size) (h : n % size + 1 = size) : tag size (n+1) = !tag size n := by
  unfold tag
  rw [(succ_wrap hs h).2]
  rcases Nat.mod_two_eq_zero_or_one (n / size) with hx | hx
  · have hn : (n / size + 1) % 2 = 1 := by omega
    rw [hx, hn]
    rfl
  · have hn : (n / size + 1) % 2 = 0 := by omega
    rw [hx, hn]
    rfl

theorem tag_inside (hs : 0 < size) (h : n % size + 1 ≠ size) : tag size (n+1) = tag size n := by
  unfold tag
  rw [(succ_inside hs h).2]

theorem cursorAt_zero (size : Nat) : cursorAt size 0 = ⟨0, true⟩ := by
  unfold cursorAt tag
  rw [Nat.zero_mod, Nat.zero_div]
  rfl

theorem next_cursorAt (hs : 0 < size) (n : Nat) :
    (cursorAt size n).next size = cursorAt size (n+1) := by
  unfold Cursor.next cursorAt
  by_cases h : n % size + 1 = size
  · rw [if_pos h, (succ_wrap hs h).1, tag_wrap hs h]
  · rw [if_neg h, (succ_inside hs h).1, tag_inside hs h]

theorem next_index (hs : 0 < size) (n : Nat) :
    (if n % size + 1 = size then 0 else n % size + 1) = (n+1) % size := by
  by_cases h : n % size + 1 = size
  · rw [if_pos h, (succ_wrap hs h).1]
  · rw [if_neg h, (succ_inside hs h).1]

theorem mod_succ_ne (hs : 2 ≤ size) (n : Nat) : n % size ≠ (n+1) % size := by
  by_cases h : n % size + 1 = size
  · rw [(succ_wrap (by omega) h).1]
    omega
  · rw [(succ_inside (by omega) h).1]
    omega

theorem tagged_init (size : Nat) : Tagged size (fun _ => false) 0 := by
  intro j _
  unfold tag
  rw [Nat.zero_mod, if_neg (Nat.not_lt_zero j), Nat.zero_div]
  rfl

theorem Tagged.post (hs : 0 < size) (h : Tagged size tags posted) :
    Tagged size (update tags (posted % size) (tag size posted)) (posted+1) := by
  intro j hj
  by_cases hw : posted % size + 1 = size
  · -- the lap is over: every cell carries its phase
    rw [(succ_wrap hs hw).1, if_neg (Nat.not_lt_zero j), tag_wrap hs hw, Bool.not_not]
    by_cases hjp : j = posted % size
    · rw [hjp, update_self]
    · rw [update_of_ne hjp, h j hj, if_pos (by omega)]
  · rw [(succ_inside hs hw).1, tag_inside hs hw]
    by_cases hjp : j = posted % size
    · rw [hjp, update_self, if_pos (Nat.lt_succ_self _)]
    · rw [update_of_ne hjp, h j hj]
      by_cases hlt : j < posted % size
      · rw [if_pos hlt, if_pos (by omega)]
      · rw [if_neg hlt, if_neg (by omega)]

/-- None of the cells that the next lap will write is taken for a new one. -/
theorem Tagged.ahead (hs : 0 < size) (h : Tagged size tags posted) (hle : posted ≤ n)
    (hlt : n < posted + size) : tags (n % size) ≠ tag size n := by
  have hr := Nat.mod_lt posted hs
  have hn := Nat.div_add_mod posted size
  rw [h _ (Nat.mod_lt _ hs)]
  by_cases hin : posted % size + (n - posted) < size
  · obtain ⟨hdiv, hmod⟩ : n / size = posted / size ∧ n % size = posted % size + (n - posted) :=
      (Nat.div_mod_unique hs).2 ⟨by omega, hin⟩
    have htag : tag size n = tag size posted := congrArg (fun q => q % 2 == 0) hdiv
    rw [htag, if_neg (by omega)]
    cases tag size posted <;> decide
  · -- the cell is in the lap after, at an index that this lap has written
    have hmul := Nat.mul_add size (posted / size) 1
    obtain ⟨hdiv, hmod⟩ : n / size = posted / size + 1 ∧
      n % size = posted % size + (n - posted) - size :=
      (Nat.div_mod_unique hs).2 ⟨by omega, by omega⟩
    have htag : tag size n = !tag size posted := by
      unfold tag
      rw [hdiv, Nat.add_mod]
      rcases Nat.mod_two_eq_zero_or_one (posted / size) with hx | hx <;> rw [hx] <;> rfl
    rw [htag, if_pos (by omega)]
    cases tag size posted <;> decide

/-- The cell after all that were written is not taken for a new one. -/
theorem Tagged.stale (hs : 0 < size) (h : Tagged size tags posted) :
    tags (posted % size) ≠ tag size posted :=
  h.ahead hs (Nat.le_refl _) (by omega)

theorem Tagged.last (hs : 0 < size) (h : Tagged size tags (n+1)) :
    tags (n % size) = tag size n := by
  rw [h _ (Nat.mod_lt _ hs)]
  by_cases hw : n % size + 1 = size
  · rw [(succ_wrap hs hw).1, if_neg (Nat.not_lt_zero _), tag_wrap hs hw, Bool.not_not]
  · rw [(succ_inside hs hw).1, tag_inside hs hw, if_pos (Nat.lt_succ_self _)]

end Shaper.Lib.PhaseRing
