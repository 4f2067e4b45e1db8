import Mathlib.Data.BitVec
import Mathlib.Data.Fintype.Card

/-! Reference counts in 32-bit words: each holder has at most one reference, and the
word of a resource is the number of its holders. -/
namespace Shaper.Lib.RefCount
open Function
variable {H R : Type*} [Fintype H] [DecidableEq R]
  {w : R → BitVec 32} {f : H → Option R} {h : H} {r : R}

def holders (f : H → Option R) (r : R) : Finset H := Finset.univ.filter fun h => f h = some r

def Counted (w : R → BitVec 32) (f : H → Option R) : Prop :=
  ∀ r, w r = BitVec.ofNat 32 (holders f r).card

theorem mem_holders : h ∈ holders f r ↔ f h = some r := by simp [holders]

/-- The count of a held resource is not 0 as long as the word has room for all holders. -/
theorem Counted.ne_zero (hc : Counted w f) (hcard : Fintype.card H < 2^32) (hs : f h = some r) :
    w r ≠ 0#32 := by
  have hpos : 0 < (holders f r).card := Finset.card_pos.mpr ⟨h, mem_holders.mpr hs⟩
  have hle : (holders f r).card ≤ Fintype.card H := Finset.card_le_univ _
  rw [hc r, ne_eq, ← BitVec.toNat_inj, BitVec.toNat_ofNat, BitVec.toNat_ofNat]
  omega

section
variable [DecidableEq H]

theorem holders_take (r : R) (hn : f h = none) :
    holders (update f h (some r)) r = insert h (holders f r) := by
  ext i
  rw [Finset.mem_insert, mem_holders, mem_holders]
  by_cases hi : i = h
  · subst hi
    simp
  · simp [hi]

theorem holders_take_of_ne {r' : R} (hn : f h = none) (hr : r' ≠ r) :
    holders (update f h (some r)) r' = holders f r' := by
  ext i
  rw [mem_holders, mem_holders]
  by_cases hi : i = h
  · subst hi
    simp [hn, hr.symm]
  · simp [hi]

theorem Counted.take (hc : Counted w f) (r : R) (hn : f h = none) :
    Counted (update w r (w r+1#32)) (update f h (some r)) := by
  intro r'
  by_cases hr : r' = r
  · subst hr
    have hnot : h ∉ holders f r' := by simp [mem_holders, hn]
    rw [update_self, holders_take r' hn, Finset.card_insert_of_notMem hnot, BitVec.ofNat_add, hc r']
  · rw [update_of_ne hr, holders_take_of_ne hn hr, hc r']

theorem Counted.drop (hc : Counted w f) (hs : f h = some r) :
    Counted (update w r (w r-1#32)) (update f h none) := by
  have hback : update (update f h none) h (some r) = f := by
    rw [update_idem, ← hs, update_eq_self]
  have hn : update f h none h = none := update_self _ _ _
  intro r'
  by_cases hr : r' = r
  · subst hr
    have hnot : h ∉ holders (update f h none) r' := by simp [mem_holders]
    have hcard := holders_take r' hn
    rw [hback] at hcard
    rw [update_self, hc r', hcard, Finset.card_insert_of_notMem hnot, BitVec.ofNat_add,
      BitVec.add_sub_cancel]
  · have hsame := holders_take_of_ne hn hr
    rw [hback] at hsame
    rw [update_of_ne hr, hc r', hsame]
end

def tally (p : Nat → Bool) : Nat → Nat
  | 0 => 0
  | n+1 => tally p n + (p n).toNat

section
variable {p : Nat → Bool} {n i : Nat}

theorem tally_congr {p' : Nat → Bool} (hp : ∀ i < n, p' i = p i) : tally p' n = tally p n := by
  induction n with
  | zero => rfl
  | succ n ih => rw [tally, tally, ih fun i hi => hp i (by omega), hp n (Nat.lt_succ_self n)]

theorem tally_eq_zero (hp : ∀ i < n, p i = false) : tally p n = 0 := by
  induction n with
  | zero => rfl
  | succ n ih => rw [tally, ih fun i hi => hp i (by omega), hp n (Nat.lt_succ_self n)]; rfl

theorem tally_update (p : Nat → Bool) (b : Bool) (hi : i < n) :
    tally (update p i b) n + (p i).toNat = tally p n + b.toNat := by
  induction n with
  | zero => omega
  | succ n ih =>
    rw [tally, tally]
    rcases Nat.lt_succ_iff_lt_or_eq.mp hi with hlt | rfl
    · rw [update_of_ne (by omega)]
      have := ih hlt
      omega
    · rw [update_self, tally_congr fun j hj => update_of_ne (Nat.ne_of_lt hj) _ _]
      omega

theorem toNat_le_tally (hi : i < n) : (p i).toNat ≤ tally p n := by
  have := tally_update p false hi
  simp only [Bool.toNat_false] at this
  omega

theorem tally_pos (hi : i < n) (hp : p i = true) : 0 < tally p n := by
  have := toNat_le_tally (p := p) hi
  rw [hp] at this
  exact this

theorem two_le_tally {j : Nat} (hi : i < n) (hj : j < n) (hij : i ≠ j) (hp : p i = true)
    (hp' : p j = true) : 2 ≤ tally p n := by
  have h := tally_update p false hi
  have h' : (update p i false j).toNat ≤ tally (update p i false) n := toNat_le_tally hj
  rw [update_of_ne hij.symm, hp'] at h'
  rw [hp] at h
  simp only [Bool.toNat_true, Bool.toNat_false] at h h'
  omega
end

end Shaper.Lib.RefCount
