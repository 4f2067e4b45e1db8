import Mathlib.Data.List.Perm.Basic
import Mathlib.Data.List.Nodup
import Mathlib.Data.List.Range
import Mathlib.Data.Nat.Bitwise
import Mathlib.Order.Lattice
import Mathlib.Order.MinMax
import Mathlib.Tactic.Ring
import Mathlib.Tactic.SplitIfs

/-! The bitonic sorting network on `2^m` cells, over any linear order. Above a
threshold or not: cell contents are then truth values, and a bitonic block is one
cyclic interval. -/
namespace Shaper.Lib.Bitonic
variable {α : Type*} [LinearOrder α]

/-- One compare-exchange round: cell `ix` meets cell `ix ^^^ j`, in ascending order if the
lower one has bit `k` clear. The pairs of a round are disjoint. -/
def round (k j : Nat) (f : Nat → α) (ix : Nat) : α :=
  let lo := min ix (ix ^^^ j)
  let hi := max ix (ix ^^^ j)
  let up := lo &&& k == 0
  if decide (f hi < f lo) == up then f (ix ^^^ j) else f ix

def rounds (s : Nat) : Nat → (Nat → α) → Nat → α
  | 0, f => f
  | t+1, f => rounds s t (round (2^s) (2^t) f)

def sort : Nat → (Nat → α) → Nat → α
  | 0, f => f
  | s+1, f => rounds (s+1) (s+1) (sort s f)

theorem xor_low {t i : Nat} (hi : i < 2^t) (q : Nat) :
    (2^t * (2*q) + i) ^^^ 2^t = 2^t * (2*q + 1) + i := by
  apply Nat.eq_of_testBit_eq
  intro b
  rw [Nat.testBit_xor, Nat.testBit_two_pow_mul_add _ hi, Nat.testBit_two_pow_mul_add _ hi,
    Nat.testBit_two_pow]
  rcases Nat.lt_trichotomy b t with hb | rfl | hb
  · rw [if_pos hb, if_pos hb, decide_eq_false (by omega), Bool.xor_false]
  · simp [Nat.testBit_zero]
  · obtain ⟨c, hc⟩ : ∃ c, b - t = c+1 := ⟨b - t - 1, by omega⟩
    rw [if_neg (by omega), if_neg (by omega), decide_eq_false (by omega), Bool.xor_false, hc,
      Nat.testBit_succ, Nat.testBit_succ, show (2*q + 1)/2 = 2*q/2 by omega]

theorem xor_high {t i : Nat} (hi : i < 2^t) (q : Nat) :
    (2^t * (2*q + 1) + i) ^^^ 2^t = 2^t * (2*q) + i := by
  rw [← xor_low hi, Nat.xor_assoc, Nat.xor_self, Nat.xor_zero]

def Up (s t q : Nat) : Prop := q / 2^(s - t) % 2 = 0

instance (s t q : Nat) : Decidable (Up s t q) := inferInstanceAs (Decidable (_ = _))

theorem up_iff {s t i : Nat} (hts : t ≤ s) (hi : i < 2^t) (q : Nat) :
    (2^t * q + i) &&& 2^s = 0 ↔ Up s t q := by
  have hdiv : (2^t * q + i) / 2^s = q / 2^(s-t) := by
    rw [← Nat.add_sub_cancel' hts, Nat.pow_add, ← Nat.div_div_eq_div_mul,
      Nat.mul_add_div (Nat.two_pow_pos t), Nat.div_eq_of_lt hi, Nat.add_zero,
      Nat.add_sub_cancel_left]
  rw [Up, ← hdiv, Nat.and_two_pow, Nat.testBit_eq_decide_div_mod_eq]
  have := Nat.two_pow_pos s
  by_cases h : (2^t * q + i) / 2^s % 2 = 1
  · simp [h]
  · simp [h]; omega

theorem up_child {s t : Nat} (hts : t < s) (q : Nat) :
    (Up s t (2*q) ↔ Up s (t+1) q) ∧ (Up s t (2*q + 1) ↔ Up s (t+1) q) := by
  have he : s - t = (s - (t+1)) + 1 := by omega
  unfold Up
  rw [he, Nat.pow_succ', ← Nat.div_div_eq_div_mul, ← Nat.div_div_eq_div_mul,
    show 2*q/2 = q by omega, show (2*q + 1)/2 = q by omega]
  exact ⟨Iff.rfl, Iff.rfl⟩

theorem exchange_low (up : Bool) (a b : α) :
    (if decide (b < a) == up then b else a) = if up then min a b else max a b := by
  by_cases h : b < a <;> cases up
  · simp [h, h.le]
  · simp [h, h.le]
  · simp [h, not_lt.1 h]
  · simp [h, not_lt.1 h]

theorem exchange_high (up : Bool) (a b : α) :
    (if decide (b < a) == up then a else b) = if up then max a b else min a b := by
  by_cases h : b < a <;> cases up
  · simp [h, h.le]
  · simp [h, h.le]
  · simp [h, not_lt.1 h]
  · simp [h, not_lt.1 h]

section Round
variable {s t i : Nat} (hts : t < s) (hi : i < 2^t) (f : Nat → α) (q : Nat)
include hts hi

/-- A round puts the smaller value of each pair at the end its direction wants. -/
theorem round_low : round (2^s) (2^t) f (2^t * (2*q) + i) =
    if Up s (t+1) q then min (f (2^t * (2*q) + i)) (f (2^t * (2*q + 1) + i))
    else max (f (2^t * (2*q) + i)) (f (2^t * (2*q + 1) + i)) := by
  have hle : 2^t * (2*q) + i ≤ 2^t * (2*q + 1) + i := by rw [Nat.mul_succ]; omega
  have hup := (up_iff hts.le hi (2*q)).trans (up_child hts q).1
  unfold round
  simp only [xor_low hi, Nat.min_eq_left hle, Nat.max_eq_right hle, exchange_low]
  simp only [beq_iff_eq, hup]

theorem round_high : round (2^s) (2^t) f (2^t * (2*q + 1) + i) =
    if Up s (t+1) q then max (f (2^t * (2*q) + i)) (f (2^t * (2*q + 1) + i))
    else min (f (2^t * (2*q) + i)) (f (2^t * (2*q + 1) + i)) := by
  have hle : 2^t * (2*q) + i ≤ 2^t * (2*q + 1) + i := by rw [Nat.mul_succ]; omega
  have hup := (up_iff hts.le hi (2*q)).trans (up_child hts q).1
  unfold round
  simp only [xor_high hi, Nat.min_eq_right hle, Nat.max_eq_left hle, exchange_high]
  simp only [beq_iff_eq, hup]

end Round

def InArc (n a len i : Nat) : Prop := if a ≤ i then i - a < len else i + n - a < len

/-- Folding a ring of `2n` in half: the cells both of whose copies lie in the arc, and those
with at least one, are arcs of the ring of `n`. -/
theorem fold_arc {n a len : Nat} (ha : a < 2*n) (hlen : len ≤ 2*n) :
    ∃ b < n, ∀ i < n,
      ((InArc (2*n) a len i ∧ InArc (2*n) a len (n+i)) ↔ InArc n b (len - n) i) ∧
      ((InArc (2*n) a len i ∨ InArc (2*n) a len (n+i)) ↔ InArc n b (min len n) i) := by
  unfold InArc
  refine ⟨if a < n then a else a - n, ?_, fun i hi => ⟨?_, ?_⟩⟩
  all_goals split_ifs <;> omega

def AtEnd (up : Prop) [Decidable up] (n len i : Nat) : Prop :=
  if up then n - len ≤ i else i < len

/-- Two runs side by side, the first at its upper end and the second at its lower end, are one
arc. -/
theorem join_arc {n k l i : Nat} (hk : k ≤ n) (hl : l ≤ n) (hi : i < n) :
    (InArc (2*n) (n - k) (k + l) i ↔ n - k ≤ i) ∧
    (InArc (2*n) (n - k) (k + l) (n + i) ↔ i < l) := by
  unfold InArc
  refine ⟨?_, ?_⟩
  all_goals split_ifs <;> omega

section Threshold
variable (v : α)

theorem rounds_block {s t : Nat} (hts : t ≤ s) (q : Nat) {a len : Nat} (ha : a < 2^t)
    (hlen : len ≤ 2^t) (f : Nat → α) (h : ∀ i < 2^t, v ≤ f (2^t * q + i) ↔ InArc (2^t) a len i) :
    ∀ i < 2^t, v ≤ rounds s t f (2^t * q + i) ↔ AtEnd (Up s t q) (2^t) len i := by
  induction t generalizing q a len f with
  | zero =>
    intro i hi
    refine (h i hi).trans ?_
    unfold InArc AtEnd
    rw [Nat.pow_zero] at *
    split_ifs <;> omega
  | succ t ih =>
    have hp : 2^(t+1) = 2 * 2^t := Nat.pow_succ'
    rw [hp] at ha hlen h
    obtain ⟨b, hb, hfold⟩ := fold_arc ha hlen
    have hlow (i : Nat) (hi : i < 2^t) : v ≤ f (2^t * (2*q) + i) ↔ InArc (2 * 2^t) a len i := by
      rw [← h i (by omega)]; ring_nf
    have hhigh (i : Nat) (hi : i < 2^t) :
        v ≤ f (2^t * (2*q + 1) + i) ↔ InArc (2 * 2^t) a len (2^t + i) := by
      rw [← h (2^t + i) (by omega)]; ring_nf
    -- the half that gets the minima keeps what both copies have, the other what either has
    have hlow' (i : Nat) (hi : i < 2^t) : v ≤ round (2^s) (2^t) f (2^t * (2*q) + i) ↔
        InArc (2^t) b (if Up s (t+1) q then len - 2^t else min len (2^t)) i := by
      rw [round_low hts hi]
      split_ifs with hup
      · rw [le_min_iff, hlow i hi, hhigh i hi, (hfold i hi).1]
      · rw [le_max_iff, hlow i hi, hhigh i hi, (hfold i hi).2]
    have hhigh' (i : Nat) (hi : i < 2^t) : v ≤ round (2^s) (2^t) f (2^t * (2*q + 1) + i) ↔
        InArc (2^t) b (if Up s (t+1) q then min len (2^t) else len - 2^t) i := by
      rw [round_high hts hi]
      split_ifs with hup
      · rw [le_max_iff, hlow i hi, hhigh i hi, (hfold i hi).2]
      · rw [le_min_iff, hlow i hi, hhigh i hi, (hfold i hi).1]
    intro i hi
    rw [hp] at hi ⊢
    simp only [rounds]
    rcases Nat.lt_or_ge i (2^t) with hit | hit
    · rw [show 2 * 2^t * q + i = 2^t * (2*q) + i by ring,
        ih (by omega) (2*q) hb (by split_ifs <;> omega) _ hlow' i hit]
      simp only [AtEnd, (up_child hts q).1]
      split_ifs <;> omega
    · obtain ⟨i, rfl⟩ : ∃ k, i = 2^t + k := ⟨i - 2^t, by omega⟩
      rw [show 2 * 2^t * q + (2^t + i) = 2^t * (2*q + 1) + i by ring,
        ih (by omega) (2*q + 1) hb (by split_ifs <;> omega) _ hhigh' i (by omega)]
      simp only [AtEnd, (up_child hts q).2]
      split_ifs <;> omega

/-- After stage `s` every block of `2^s` cells is sorted, upwards and downwards in turn. -/
theorem sort_block (s q : Nat) (f : Nat → α) :
    ∃ len ≤ 2^s, ∀ i < 2^s, v ≤ sort s f (2^s * q + i) ↔ AtEnd (Up s s q) (2^s) len i := by
  induction s generalizing q with
  | zero =>
    refine ⟨if v ≤ f q then 1 else 0, by split_ifs <;> decide, fun i hi => ?_⟩
    obtain rfl : i = 0 := by simpa using hi
    unfold AtEnd
    by_cases h : v ≤ f q <;> simp [sort, h]
  | succ s ih =>
    obtain ⟨k, hk, hlow⟩ := ih (2*q)
    obtain ⟨l, hl, hhigh⟩ := ih (2*q + 1)
    have hp : 2^(s+1) = 2 * 2^s := Nat.pow_succ'
    have hpos := Nat.two_pow_pos s
    have heven : Up s s (2*q) := by simp [Up]
    have hodd : ¬ Up s s (2*q + 1) := by simp [Up]
    refine ⟨k + l, by omega, rounds_block v le_rfl q (by omega : 2^s - k < 2^(s+1)) (by omega) _ ?_⟩
    intro i hi
    rw [hp] at hi ⊢
    rcases Nat.lt_or_ge i (2^s) with his | his
    · rw [show 2 * 2^s * q + i = 2^s * (2*q) + i by ring, hlow i his, (join_arc hk hl his).1,
        AtEnd, if_pos heven]
    · obtain ⟨i, rfl⟩ : ∃ j, i = 2^s + j := ⟨i - 2^s, by omega⟩
      have his : i < 2^s := by omega
      rw [show 2 * 2^s * q + (2^s + i) = 2^s * (2*q + 1) + i by ring, hhigh i his,
        (join_arc hk hl his).2, AtEnd, if_neg hodd]

end Threshold

theorem sort_mono (m : Nat) (f : Nat → α) {i j : Nat} (hij : i ≤ j) (hj : j < 2^m) :
    sort m f i ≤ sort m f j := by
  obtain ⟨len, -, h⟩ := sort_block (sort m f i) m 0 f
  have hup : Up m m 0 := by simp [Up]
  simp only [Nat.mul_zero, Nat.zero_add, AtEnd, if_pos hup] at h
  exact (h j hj).2 (((h i (by omega)).1 le_rfl).trans hij)

def comesFrom (k j : Nat) (f : Nat → α) (ix : Nat) : Nat :=
  if decide (f (max ix (ix ^^^ j)) < f (min ix (ix ^^^ j))) == (min ix (ix ^^^ j) &&& k == 0)
  then ix ^^^ j else ix

theorem round_eq (k j : Nat) (f : Nat → α) (ix : Nat) :
    round k j f ix = f (comesFrom k j f ix) := by
  unfold round comesFrom
  exact (apply_ite f _ _ _).symm

theorem comesFrom_comesFrom (k j : Nat) (f : Nat → α) (ix : Nat) :
    comesFrom k j f (comesFrom k j f ix) = ix := by
  have hback : ix ^^^ j ^^^ j = ix := by rw [Nat.xor_assoc, Nat.xor_self, Nat.xor_zero]
  unfold comesFrom
  split_ifs with h h'
  · exact hback
  · rw [hback, max_comm, min_comm] at h'
    exact absurd h h'
  · rfl

theorem round_perm (k : Nat) {j m : Nat} (hj : j < 2^m) (f : Nat → α) :
    ((List.range (2^m)).map (round k j f)).Perm ((List.range (2^m)).map f) := by
  have hlt (ix : Nat) (h : ix < 2^m) : comesFrom k j f ix < 2^m := by
    unfold comesFrom
    split_ifs
    · exact Nat.xor_lt_two_pow h hj
    · exact h
  have hinj : Function.Injective (comesFrom k j f) :=
    Function.LeftInverse.injective (comesFrom_comesFrom k j f)
  have hperm : ((List.range (2^m)).map (comesFrom k j f)).Perm (List.range (2^m)) := by
    refine (List.perm_ext_iff_of_nodup (List.nodup_range.map hinj) List.nodup_range).2 fun ix => ?_
    rw [List.mem_map, List.mem_range]
    constructor
    · rintro ⟨i, hi, rfl⟩
      exact hlt i (List.mem_range.1 hi)
    · intro h
      exact ⟨_, List.mem_range.2 (hlt ix h), comesFrom_comesFrom k j f ix⟩
  rw [show round k j f = f ∘ comesFrom k j f from funext (round_eq k j f), ← List.map_map]
  exact hperm.map f

theorem rounds_congr {f g : Nat → α} {s t m : Nat} (ht : t ≤ m) (h : ∀ ix < 2^m, f ix = g ix) :
    ∀ ix < 2^m, rounds s t f ix = rounds s t g ix := by
  induction t generalizing f g with
  | zero => exact h
  | succ t ih =>
    refine ih (by omega) fun ix hix => ?_
    have hxor : ix ^^^ 2^t < 2^m :=
      Nat.xor_lt_two_pow hix (Nat.pow_lt_pow_right (by decide) (by omega))
    simp only [round]
    rw [h ix hix, h _ hxor, h _ (max_lt hix hxor), h _ (min_lt_of_left_lt hix)]

theorem rounds_perm (s : Nat) {t m : Nat} (ht : t ≤ m) (f : Nat → α) :
    ((List.range (2^m)).map (rounds s t f)).Perm ((List.range (2^m)).map f) := by
  induction t generalizing f with
  | zero => rfl
  | succ t ih =>
    exact (ih (by omega) _).trans (round_perm _ (Nat.pow_lt_pow_right (by decide) ht) f)

theorem sort_perm {s m : Nat} (hs : s ≤ m) (f : Nat → α) :
    ((List.range (2^m)).map (sort s f)).Perm ((List.range (2^m)).map f) := by
  induction s with
  | zero => rfl
  | succ s ih => exact (rounds_perm (s+1) hs _).trans (ih (by omega))

end Shaper.Lib.Bitonic
