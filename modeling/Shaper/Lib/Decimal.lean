import Mathlib.Data.List.Basic

/-! Decimal numerals, with leading zeros up to a width: the number can be read back, and the
digits cannot be taken for a separator. -/
namespace Shaper.Lib.Decimal

def padded (w n : Nat) : List Char :=
  List.replicate (w - (Nat.toDigits 10 n).length) '0' ++ Nat.toDigits 10 n

theorem ofDigitChars_zeros (k : Nat) (l : List Char) :
    Nat.ofDigitChars 10 (List.replicate k '0' ++ l) 0 = Nat.ofDigitChars 10 l 0 := by
  induction k with
  | zero => rfl
  | succ k ih => exact ih

theorem padded_inj {w n m : Nat} (h : padded w n = padded w m) : n = m := by
  have := congrArg (fun l => Nat.ofDigitChars 10 l 0) h
  simpa only [padded, ofDigitChars_zeros, Nat.ofDigitChars_ten_toDigits] using this

theorem repr_inj {n m : Nat} (h : n.repr = m.repr) : n = m := by
  have := congrArg (fun s => Nat.ofDigitChars 10 s.toList 0) h
  simpa only [Nat.toList_repr, Nat.ofDigitChars_ten_toDigits] using this

theorem isDigit_padded {w n : Nat} {c : Char} (h : c ∈ padded w n) : c.isDigit = true := by
  rcases List.mem_append.mp h with h | h
  · rw [List.eq_of_mem_replicate h]
    decide
  · exact Nat.isDigit_of_mem_toDigits (by decide) (by decide) h

theorem minus_notMem_repr (n : Nat) : '-' ∉ n.repr.toList := by
  rw [Nat.toList_repr]
  intro h
  exact absurd (Nat.isDigit_of_mem_toDigits (by decide) (by decide) h) (by decide)

theorem intRepr_inj {a b : Int} (h : a.repr = b.repr) : a = b := by
  have hsign : ∀ n m : Nat, (Int.ofNat n).repr ≠ (Int.negSucc m).repr := by
    intro n m hnm
    have hlist : n.repr.toList = '-' :: (m+1).repr.toList := by
      have := congrArg String.toList hnm
      rwa [Int.repr, Int.repr, String.toList_append] at this
    exact minus_notMem_repr n (hlist ▸ List.mem_cons_self)
  match a, b with
  | .ofNat n, .ofNat m => exact congrArg Int.ofNat (repr_inj h)
  | .ofNat n, .negSucc m => exact absurd h (hsign n m)
  | .negSucc n, .ofNat m => exact absurd h.symm (hsign m n)
  | .negSucc n, .negSucc m =>
    have := congrArg String.toList h
    rw [Int.repr, Int.repr, String.toList_append, String.toList_append] at this
    have := repr_inj (String.toList_injective (List.append_cancel_left this))
    rw [Nat.succ.inj this]

theorem split_inj {sep : Char} {a a' b b' : List Char} (ha : sep ∉ a) (ha' : sep ∉ a')
    (h : a ++ sep :: b = a' ++ sep :: b') : a = a' ∧ b = b' := by
  induction a generalizing a' with
  | nil =>
    cases a' with
    | nil => exact ⟨rfl, (List.cons.inj h).2⟩
    | cons x a' =>
      obtain rfl := (List.cons.inj h).1
      exact absurd List.mem_cons_self ha'
  | cons x a ih =>
    cases a' with
    | nil =>
      obtain rfl := (List.cons.inj h).1
      exact absurd List.mem_cons_self ha
    | cons y a' =>
      rw [List.cons_append, List.cons_append, List.cons.injEq] at h
      obtain ⟨rfl, h⟩ := h
      obtain ⟨rfl, rfl⟩ := ih (fun hs => ha (List.mem_cons_of_mem _ hs))
        (fun hs => ha' (List.mem_cons_of_mem _ hs)) h
      exact ⟨rfl, rfl⟩

end Shaper.Lib.Decimal
