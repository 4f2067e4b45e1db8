import Mathlib.Data.List.Nodup
import Mathlib.Data.List.Perm.Subperm
import Mathlib.Data.Nat.ModEq
import Mathlib.Data.Nat.Prime.Basic

/-! Maps that shuffle a range of numbers: when a list built from such a map is the whole
range in another order, and two ways to build one on `[0, 2^m)`, an xor with a right
shift and a multiplication by an odd number. -/
namespace Shaper.Lib.Mixing

theorem perm_range {l : List Nat} {n : Nat} (hn : l.Nodup) (hlt : ∀ x ∈ l, x < n)
    (hlen : l.length = n) : l.Perm (List.range n) := by
  refine (List.subperm_of_subset hn fun x hx => ?_).perm_of_length_le ?_
  · exact List.mem_range.mpr (hlt x hx)
  · rw [List.length_range, hlen]

/-- The pairs of `[0, a) × [0, b)`, numbered one by one below `a * b`. -/
theorem perm_grid {a b : Nat} {f : Nat → Nat → Nat} (hlt : ∀ x < a, ∀ y < b, f x y < a * b)
    (hinj : ∀ x < a, ∀ y < b, ∀ x' < a, ∀ y' < b, f x y = f x' y' → x = x' ∧ y = y') :
    ((List.range a).flatMap fun x => (List.range b).map (f x)).Perm (List.range (a * b)) := by
  refine perm_range ?_ ?_ ?_
  · refine List.nodup_flatMap.mpr ⟨fun x hx => ?_, ?_⟩
    · refine (List.nodup_range).map_on fun y hy y' hy' he => ?_
      rw [List.mem_range] at hx hy hy'
      exact (hinj x hx y hy x hx y' hy' he).2
    · refine List.nodup_range.pairwise_of_forall_ne fun x hx x' hx' hne => ?_
      refine List.disjoint_left.mpr fun k hk hk' => ?_
      rw [List.mem_map] at hk hk'
      obtain ⟨y, hy, rfl⟩ := hk
      obtain ⟨y', hy', he⟩ := hk'
      rw [List.mem_range] at hx hx' hy hy'
      exact hne (hinj x' hx' y' hy' x hx y hy he).1.symm
  · intro k hk
    obtain ⟨x, hx, hk⟩ := List.mem_flatMap.mp hk
    obtain ⟨y, hy, rfl⟩ := List.mem_map.mp hk
    exact hlt x (List.mem_range.mp hx) y (List.mem_range.mp hy)
  · simp [List.length_flatMap]

theorem testBit_of_between {n m : Nat} (hle : 2^m ≤ n) (hlt : n < 2^(m+1)) :
    n.testBit m = true := by
  have hdiv : n / 2^m = 1 := Nat.div_eq_of_lt_le (by omega) (by rw [Nat.pow_succ] at hlt; omega)
  rw [Nat.testBit_eq_decide_div_mod_eq, hdiv]
  decide

theorem exists_two_pow {n : Nat} (hn : n ≠ 0) (h : n &&& (n-1) = 0) : ∃ m, n = 2^m := by
  refine ⟨n.log2, ?_⟩
  have hle := Nat.log2_self_le hn
  have hlt := Nat.lt_log2_self (n := n)
  by_contra hne
  -- otherwise the highest bit of `n` is also one of its predecessor
  have hbit := congrArg (Nat.testBit · n.log2) h
  simp only [Nat.testBit_and, Nat.zero_testBit] at hbit
  rw [testBit_of_between hle hlt, testBit_of_between (by omega) (by omega)] at hbit
  cases hbit

variable {w : Nat}

def xorShift (k : Nat) (x : BitVec w) : BitVec w := x ^^^ (x >>> k)

theorem xorShift_injective {k : Nat} (hk : 0 < k) {x y : BitVec w}
    (h : xorShift k x = xorShift k y) : x = y := by
  -- from the highest bit down: each bit differs from the sum by a bit already known
  have hbit : ∀ d i, w ≤ i + d → x.getLsbD i = y.getLsbD i := by
    intro d
    induction d with
    | zero =>
      intro i hi
      rw [BitVec.getLsbD_of_ge x i (by omega), BitVec.getLsbD_of_ge y i (by omega)]
    | succ d ih =>
      intro i hi
      have hsum := congrArg (BitVec.getLsbD · i) h
      simp only [xorShift, BitVec.getLsbD_xor, BitVec.getLsbD_ushiftRight] at hsum
      rw [ih (k + i) (by omega)] at hsum
      exact Bool.xor_left_inj.mp hsum
  exact BitVec.eq_of_getLsbD_eq fun i _ => hbit w i (Nat.le_add_left w i)

theorem xorShift_lt {k m : Nat} {x : BitVec w} (h : x.toNat < 2^m) :
    (xorShift k x).toNat < 2^m := by
  rw [xorShift, BitVec.toNat_xor, BitVec.toNat_ushiftRight]
  refine Nat.xor_lt_two_pow h ?_
  rw [Nat.shiftRight_eq_div_pow]
  exact (Nat.div_le_self _ _).trans_lt h

def affine (c s : BitVec w) (m : Nat) (x : BitVec w) : BitVec w :=
  (x * c + s) &&& (BitVec.ofNat w (2^m) - 1#w)

theorem affine_toNat {c s x : BitVec w} {m : Nat} (hm : m < w) :
    (affine c s m x).toNat = (x.toNat * c.toNat + s.toNat) % 2^m := by
  have hlt : 2^m < 2^w := Nat.pow_lt_pow_right (by omega) hm
  have hpos : 1 ≤ 2^m := Nat.one_le_two_pow
  have hmask : BitVec.ofNat w (2^m) - 1#w = BitVec.ofNat w (2^m - 1) :=
    BitVec.ofNat_sub_ofNat_of_le _ _ (by omega) hpos
  have hdvd : 2^m ∣ 2^w := Nat.pow_dvd_pow 2 (Nat.le_of_lt hm)
  rw [affine, hmask, BitVec.toNat_and, BitVec.toNat_ofNat, Nat.mod_eq_of_lt (by omega),
    Nat.and_two_pow_sub_one_eq_mod, BitVec.toNat_add, BitVec.toNat_mul, Nat.mod_mod_of_dvd _ hdvd,
    Nat.add_mod, Nat.mod_mod_of_dvd _ hdvd, ← Nat.add_mod]

theorem affine_lt {c s x : BitVec w} {m : Nat} (hm : m < w) : (affine c s m x).toNat < 2^m := by
  rw [affine_toNat hm]
  exact Nat.mod_lt _ (Nat.two_pow_pos m)

theorem affine_injective {c s x y : BitVec w} {m : Nat} (hm : m < w) (hc : c.toNat % 2 = 1)
    (hx : x.toNat < 2^m) (hy : y.toNat < 2^m) (h : affine c s m x = affine c s m y) : x = y := by
  have hn : x.toNat * c.toNat + s.toNat ≡ y.toNat * c.toNat + s.toNat [MOD 2^m] := by
    have := congrArg BitVec.toNat h
    rwa [affine_toNat hm, affine_toNat hm] at this
  have hcop : Nat.gcd (2^m) c.toNat = 1 :=
    Nat.Coprime.pow_left m (Nat.coprime_two_left.mpr (Nat.odd_iff.mpr hc))
  have hmod := Nat.ModEq.cancel_right_of_coprime hcop (Nat.ModEq.add_right_cancel' _ hn)
  exact BitVec.eq_of_toNat_eq (Nat.ModEq.eq_of_lt_of_lt hmod hx hy)

end Shaper.Lib.Mixing
