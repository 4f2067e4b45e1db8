import Mathlib.Data.BitVec
import Mathlib.Data.List.Basic
import Mathlib.Data.Nat.Bitwise
import Mathlib.Order.Nat
import Mathlib.Tactic.Push

/-! The warp intrinsics of the device: one mask bit per lane. Masks are words,
and every lemma reads them back as the predicate the lanes voted on. -/
namespace Shaper.Lib.Warp
variable {w : Nat}

def ballot (vote : Nat → Bool) : BitVec 32 :=
  (BitVec.ofBoolListLE ((List.range 32).map vote)).setWidth 32

def ffs (m : BitVec w) : Nat :=
  match (List.range w).find? fun i => m.getLsbD i with
  | none => 0
  | some i => i+1

def popc (m : BitVec w) : Nat := (List.range w).countP fun i => m.getLsbD i

theorem getLsbD_ballot (vote : Nat → Bool) (i : Nat) :
    (ballot vote).getLsbD i = (decide (i < 32) && vote i) := by
  rw [ballot, BitVec.getLsbD_setWidth, BitVec.getLsbD_ofBoolListLE, List.getD_eq_getElem?_getD]
  by_cases h : i < 32 <;> simp [h]

theorem ffs_of_least {m : BitVec w} {i : Nat} (hi : i < w) (hm : m.getLsbD i = true)
    (hl : ∀ j < i, m.getLsbD j = false) : ffs m = i+1 := by
  have hf : (List.range w).find? (fun i => m.getLsbD i) = some i := by
    rw [List.find?_range_eq_some]
    refine ⟨hm, List.mem_range.mpr hi, ?_⟩
    intro j hj
    simp [hl j hj]
  simp only [ffs, hf]

theorem popc_ballot (vote : Nat → Bool) : popc (ballot vote) = (List.range 32).countP vote := by
  apply List.countP_congr
  intro i hi
  rw [getLsbD_ballot, decide_eq_true (List.mem_range.mp hi), Bool.true_and]

theorem exists_least (m : BitVec w) (h : m ≠ 0#w) :
    ∃ i, i < w ∧ m.getLsbD i = true ∧ ∀ j < i, m.getLsbD j = false := by
  have he : ∃ i, i < w ∧ m.getLsbD i = true := by
    by_contra hn
    push Not at hn
    apply h
    apply BitVec.eq_of_getLsbD_eq
    intro i hi
    simpa using hn i hi
  refine ⟨Nat.find he, (Nat.find_spec he).1, (Nat.find_spec he).2, ?_⟩
  intro j hj
  have hw : j < w := hj.trans (Nat.find_spec he).1
  have := Nat.find_min he hj
  simpa [hw] using this

theorem mod_of_least {n i : Nat} (hn : n.testBit i = true) (hl : ∀ j < i, n.testBit j = false) :
    n % 2^(i+1) = 2^i := by
  apply Nat.eq_of_testBit_eq
  intro j
  rw [Nat.testBit_mod_two_pow, Nat.testBit_two_pow]
  rcases Nat.lt_trichotomy j i with h | rfl | h
  · simp [hl j h, Nat.ne_of_gt h]
  · simp [hn]
  · have : ¬ j < i+1 := by omega
    simp [this, Nat.ne_of_lt h]

theorem getLsbD_drop_least {m : BitVec w} {i : Nat} (hi : i < w) (hm : m.getLsbD i = true)
    (hl : ∀ j < i, m.getLsbD j = false) (j : Nat) :
    (m &&& (m - 1#w)).getLsbD j = (m.getLsbD j && decide (j ≠ i)) := by
  have hmod := mod_of_least (n := m.toNat) (i := i) hm hl
  have hpos := Nat.two_pow_pos i
  have hsucc : 2^(i+1) = 2^i + 2^i := by rw [Nat.pow_succ]; omega
  obtain ⟨q, hq⟩ : ∃ q, m.toNat = 2^(i+1) * q + 2^i :=
    ⟨m.toNat / 2^(i+1), by rw [← hmod, Nat.div_add_mod]⟩
  have hsub : (m - 1#w).toNat = 2^(i+1) * q + (2^i-1) := by
    have h1 : 1#w ≤ m := by
      rw [BitVec.le_def, BitVec.toNat_ofNat, Nat.mod_eq_of_lt (Nat.one_lt_two_pow (by omega))]
      omega
    rw [BitVec.toNat_sub_of_le h1, BitVec.toNat_ofNat,
      Nat.mod_eq_of_lt (Nat.one_lt_two_pow (by omega))]
    omega
  rw [BitVec.getLsbD_and]
  simp only [BitVec.getLsbD, hsub, hq, Nat.testBit_two_pow_mul_add _ (show 2^i < 2^(i+1) by omega),
    Nat.testBit_two_pow_mul_add _ (show 2^i-1 < 2^(i+1) by omega), Nat.testBit_two_pow,
    Nat.testBit_two_pow_sub_one]
  rcases Nat.lt_trichotomy j i with h | rfl | h
  · simp [show j < i+1 by omega, Nat.ne_of_gt h]
  · simp
  · simp [show ¬ j < i+1 by omega, Nat.ne_of_gt h]

def setBits : Nat → BitVec w → List Nat
  | 0, _ => []
  | fuel+1, m => if m = 0#w then [] else (ffs m - 1) :: setBits fuel (m &&& (m - 1#w))

theorem filter_least {p q : Nat → Bool} {n i : Nat} (hi : i < n) (hp : p i = true)
    (hl : ∀ j < i, p j = false) (hq : ∀ j, q j = (p j && decide (j ≠ i))) :
    (List.range n).filter p = i :: (List.range n).filter q := by
  have hr : List.range n = List.range i ++ i :: List.range' (i+1) (n-(i+1)) := by
    have hn : n = i + (n-(i+1)+1) := by omega
    rw [List.range_eq_range', List.range_eq_range', ← List.range'_succ]
    conv_lhs => rw [hn, ← List.range'_append_1, Nat.zero_add]
  have hlow : ∀ r : Nat → Bool, (∀ j < i, r j = false) → (List.range i).filter r = [] := by
    intro r hr'
    rw [List.filter_eq_nil_iff]
    intro j hj
    simp [hr' j (List.mem_range.mp hj)]
  have hhigh : (List.range' (i+1) (n-(i+1))).filter p = (List.range' (i+1) (n-(i+1))).filter q := by
    apply List.filter_congr
    intro j hj
    rw [List.mem_range'_1] at hj
    simp [hq, show j ≠ i by omega]
  rw [hr, List.filter_append, List.filter_append, hlow p hl,
    hlow q (fun j hj => by simp [hq, hl j hj]), List.filter_cons_of_pos hp,
    List.filter_cons_of_neg (by simp [hq]), hhigh, List.nil_append, List.nil_append]

theorem setBits_eq_filter (fuel : Nat) (m : BitVec w) (h : popc m ≤ fuel) :
    setBits fuel m = (List.range w).filter fun i => m.getLsbD i := by
  induction fuel generalizing m with
  | zero =>
    rw [popc, Nat.le_zero, List.countP_eq_zero] at h
    rw [setBits, eq_comm, List.filter_eq_nil_iff]
    exact h
  | succ fuel ih =>
    by_cases hz : m = 0#w
    · subst hz
      simp [setBits]
    · obtain ⟨i, hi, hm, hl⟩ := exists_least m hz
      have hf : (List.range w).filter (fun i => m.getLsbD i) =
          i :: (List.range w).filter fun i => (m &&& (m - 1#w)).getLsbD i :=
        filter_least hi hm hl (getLsbD_drop_least hi hm hl)
      have hc : popc (m &&& (m - 1#w)) ≤ fuel := by
        rw [popc, List.countP_eq_length_filter, hf, List.length_cons,
          ← List.countP_eq_length_filter] at h
        exact Nat.le_of_succ_le_succ h
      rw [setBits, if_neg hz, ffs_of_least hi hm hl, ih _ hc, Nat.add_sub_cancel, hf]

theorem setBits_ballot (vote : Nat → Bool) :
    setBits 32 (ballot vote) = (List.range 32).filter vote := by
  rw [setBits_eq_filter]
  · apply List.filter_congr
    intro i hi
    rw [getLsbD_ballot, decide_eq_true (List.mem_range.mp hi), Bool.true_and]
  · have := List.countP_le_length (p := fun i => (ballot vote).getLsbD i) (l := List.range 32)
    simpa [popc] using this

def leadCount : List (BitVec 32) → Nat
  | [] => 0
  | m :: ms => if m = 0xFFFFFFFF#32 then 32 + leadCount ms else ffs (~~~m) - 1

theorem ballot_full_iff (vote : Nat → Bool) :
    ballot vote = 0xFFFFFFFF#32 ↔ ∀ lane < 32, vote lane = true := by
  have hones : (0xFFFFFFFF#32 : BitVec 32) = BitVec.allOnes 32 := by decide
  rw [hones]
  constructor
  · intro h lane hl
    have := congrArg (fun m => m.getLsbD lane) h
    simpa only [getLsbD_ballot, BitVec.getLsbD_allOnes, hl, decide_true, Bool.true_and] using this
  · intro h
    apply BitVec.eq_of_getLsbD_eq
    intro i hi
    rw [getLsbD_ballot, BitVec.getLsbD_allOnes, h i hi, Bool.and_true]

theorem ffs_not_ballot (vote : Nat → Bool) (h : ballot vote ≠ 0xFFFFFFFF#32) :
    ∃ i, i < 32 ∧ ffs (~~~ballot vote) = i+1 ∧ vote i = false ∧ ∀ j < i, vote j = true := by
  have hne : ~~~ballot vote ≠ 0#32 := by
    intro hz
    apply h
    rw [← BitVec.not_not (b := ballot vote), hz]
    decide
  obtain ⟨i, hi, hm, hl⟩ := exists_least _ hne
  have hbit : ∀ j < 32, (~~~ballot vote).getLsbD j = !vote j := by
    intro j hj
    simp only [BitVec.getLsbD_not, getLsbD_ballot, hj, decide_true, Bool.true_and]
  refine ⟨i, hi, ffs_of_least hi hm hl, ?_, ?_⟩
  · simpa [hbit i hi] using hm
  · intro j hj
    simpa [hbit j (hj.trans hi)] using hl j hj

def warpBallots (vote : Nat → Bool) (n base : Nat) : List (BitVec 32) :=
  (List.range n).map fun k => ballot fun lane => vote (base+32*k+lane)

theorem warpBallots_succ (vote : Nat → Bool) (n base : Nat) :
    warpBallots vote (n+1) base =
      ballot (fun lane => vote (base+lane)) :: warpBallots vote n (base+32) := by
  rw [warpBallots, List.range_succ_eq_map, List.map_cons, List.map_map]
  simp only [warpBallots, Nat.mul_zero, Nat.add_zero, List.cons.injEq, true_and]
  apply List.map_congr_left
  intro k _
  simp only [Function.comp, Nat.mul_succ]
  congr 1
  funext lane
  congr 1
  omega

/-- Everything before the count voted, and the lane at the count did not. -/
theorem leadCount_spec (vote : Nat → Bool) (n base : Nat) :
    (∀ t < leadCount (warpBallots vote n base), vote (base+t) = true) ∧
      leadCount (warpBallots vote n base) ≤ 32*n ∧
      (leadCount (warpBallots vote n base) < 32*n →
        vote (base + leadCount (warpBallots vote n base)) = false) := by
  induction n generalizing base with
  | zero => simp [warpBallots, leadCount]
  | succ n ih =>
    rw [warpBallots_succ, leadCount]
    split
    · rename_i hfull
      have hall := (ballot_full_iff _).mp hfull
      obtain ⟨hlow, hle, hstop⟩ := ih (base+32)
      refine ⟨?_, by omega, ?_⟩
      · intro t ht
        by_cases h32 : t < 32
        · exact hall t h32
        · have := hlow (t-32) (by omega)
          rwa [show base+32+(t-32) = base+t by omega] at this
      · intro h
        rw [← Nat.add_assoc]
        exact hstop (by omega)
    · rename_i hnot
      obtain ⟨i, hi, hf, hno, hyes⟩ := ffs_not_ballot _ hnot
      rw [hf, Nat.add_sub_cancel]
      exact ⟨hyes, by omega, fun _ => hno⟩

def matchAny (valid : Nat → Bool) (value : Nat → Nat) (lane : Nat) : BitVec 32 :=
  ballot fun u => valid u && value u == value lane

def laneMaskLt (lane : Nat) : BitVec 32 := (1#32 <<< lane) - 1#32

theorem getLsbD_laneMaskLt {lane : Nat} (hl : lane < 32) (i : Nat) :
    (laneMaskLt lane).getLsbD i = decide (i < lane) := by
  have hlt : 2^lane < 2^32 := Nat.pow_lt_pow_right (by omega) hl
  have hpos := Nat.two_pow_pos lane
  have hn : (laneMaskLt lane).toNat = 2^lane - 1 := by
    rw [laneMaskLt, BitVec.toNat_sub_of_le, BitVec.toNat_shiftLeft]
    · rw [BitVec.toNat_ofNat, Nat.one_mod_two_pow (by omega), Nat.one_shiftLeft,
        Nat.mod_eq_of_lt hlt]
    · rw [BitVec.le_def, BitVec.toNat_shiftLeft, BitVec.toNat_ofNat,
        Nat.one_mod_two_pow (by omega), Nat.one_shiftLeft, Nat.mod_eq_of_lt hlt]
      exact hpos
  rw [← BitVec.testBit_toNat, hn, Nat.testBit_two_pow_sub_one]

theorem popc_and_laneMaskLt (vote : Nat → Bool) {lane : Nat} (hl : lane < 32) :
    popc (ballot vote &&& laneMaskLt lane) = (List.range lane).countP vote := by
  obtain ⟨k, hk⟩ := Nat.exists_eq_add_of_le hl.le
  have hhigh : ((List.range k).map (lane + ·)).countP
      (fun i => (ballot vote &&& laneMaskLt lane).getLsbD i) = 0 := by
    refine List.countP_eq_zero.mpr fun i hi => ?_
    obtain ⟨j, -, rfl⟩ := List.mem_map.mp hi
    rw [BitVec.getLsbD_and, getLsbD_laneMaskLt hl]
    simp
  have hrange : List.range 32 = List.range lane ++ (List.range k).map (lane + ·) := by
    rw [hk, List.range_add]
  rw [popc, hrange, List.countP_append, hhigh, Nat.add_zero]
  refine List.countP_congr fun i hi => ?_
  have hi' := List.mem_range.mp hi
  rw [BitVec.getLsbD_and, getLsbD_laneMaskLt hl, getLsbD_ballot, decide_eq_true hi',
    decide_eq_true (hi'.trans hl), Bool.and_true, Bool.true_and]

theorem ffs_ballot {vote : Nat → Bool} {lane : Nat} (hl : lane < 32) (hv : vote lane = true)
    (hno : ∀ j < lane, vote j = false) : ffs (ballot vote) = lane + 1 := by
  refine ffs_of_least hl ?_ fun j hj => ?_
  · rw [getLsbD_ballot, hv, decide_eq_true hl]
    rfl
  · rw [getLsbD_ballot, hno j hj, Bool.and_false]

end Shaper.Lib.Warp
