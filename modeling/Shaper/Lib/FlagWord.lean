import Mathlib.Data.Nat.Bitwise

/-! A word shared by a counter and flags: the counter is the low `k` bits, each
flag is one bit above them. Adding to the counter leaves the flags alone as long
as the counter does not overflow, and setting flags leaves the counter alone. -/
namespace Shaper.Lib.FlagWord
variable {w k n j : Nat} {x m : BitVec w}

def low (k : Nat) (x : BitVec w) : Nat := x.toNat % 2^k

theorem low_lt : low k x < 2^k := Nat.mod_lt _ (Nat.two_pow_pos k)

theorem low_or (hm : low k m = 0) : low k (x ||| m) = low k x := by
  unfold low at *
  rw [BitVec.toNat_or, Nat.or_mod_two_pow, hm, Nat.or_zero]

theorem low_xor (hm : low k m = 0) : low k (x ^^^ m) = low k x := by
  unfold low at *
  rw [BitVec.toNat_xor, Nat.xor_mod_two_pow, hm, Nat.xor_zero]

theorem low_and (hm : low k m = 2^k-1) : low k (x &&& m) = low k x := by
  unfold low at *
  rw [BitVec.toNat_and, Nat.and_mod_two_pow, hm, Nat.and_two_pow_sub_one_eq_mod, Nat.mod_mod]

theorem and_mask_eq_zero_iff (hm : m.toNat = 2^k-1) : x &&& m = 0#w ↔ low k x = 0 := by
  rw [← BitVec.toNat_inj, BitVec.toNat_and, hm, Nat.and_two_pow_sub_one_eq_mod]
  simp [low]

theorem and_flag_eq_zero_iff (hm : m = BitVec.twoPow w j) (hj : j < w) :
    x &&& m = 0#w ↔ x.getLsbD j = false := by
  subst hm
  rw [BitVec.and_twoPow]
  cases h : x.getLsbD j
  · simp
  · simp only [if_true, Bool.true_eq_false, iff_false]
    intro h0
    have := congrArg (fun y => BitVec.getLsbD y j) h0
    simp [hj] at this

theorem flag_congr {y : BitVec w} (h : x.toNat/2^k = y.toNat/2^k) (hj : k ≤ j) :
    x.getLsbD j = y.getLsbD j := by
  obtain ⟨i, rfl⟩ := Nat.exists_eq_add_of_le hj
  have hx : x.getLsbD (k+i) = (x.toNat/2^k).testBit i := by
    rw [Nat.testBit_div_two_pow, Nat.add_comm i k]; rfl
  have hy : y.getLsbD (k+i) = (y.toNat/2^k).testBit i := by
    rw [Nat.testBit_div_two_pow, Nat.add_comm i k]; rfl
  rw [hx, hy, h]

theorem sub_ofNat_add (h : n ≤ low k x) : x-BitVec.ofNat w n+BitVec.ofNat w n = x ∧
    (x-BitVec.ofNat w n).toNat = x.toNat-n := by
  have hle : n ≤ x.toNat := Nat.le_trans h (Nat.mod_le _ _)
  have hn : n < 2^w := Nat.lt_of_le_of_lt hle x.isLt
  refine ⟨by rw [BitVec.sub_add_cancel], ?_⟩
  rw [BitVec.toNat_sub_of_le, BitVec.toNat_ofNat, Nat.mod_eq_of_lt hn]
  rw [BitVec.le_def, BitVec.toNat_ofNat, Nat.mod_eq_of_lt hn]
  exact hle

theorem low_sub (h : n ≤ low k x) : low k (x-BitVec.ofNat w n) = low k x-n := by
  have hdiv := Nat.div_add_mod x.toNat (2^k)
  have hlt : low k x < 2^k := low_lt
  rw [low, (sub_ofNat_add h).2]
  unfold low at *
  have hx : x.toNat-n = 2^k*(x.toNat/2^k)+(x.toNat%2^k-n) := by omega
  rw [hx, Nat.mul_add_mod]
  exact Nat.mod_eq_of_lt (by omega)

section
variable (hk : k ≤ w)
include hk

theorem toNat_add_ofNat (h : low k x+n < 2^k) :
    (x+BitVec.ofNat w n).toNat = x.toNat+n := by
  have hw : 2^k ∣ 2^w := Nat.pow_dvd_pow 2 hk
  obtain ⟨c, hc⟩ := hw
  have hdiv := Nat.div_add_mod x.toNat (2^k)
  have hlt : x.toNat/2^k < c := by
    rw [Nat.div_lt_iff_lt_mul (Nat.two_pow_pos k), Nat.mul_comm, ← hc]
    exact x.isLt
  have hmul : 2^k*(x.toNat/2^k)+2^k ≤ 2^k*c := by
    rw [← Nat.mul_succ]
    exact Nat.mul_le_mul_left _ hlt
  unfold low at h
  have hsum : x.toNat+n < 2^w := by omega
  rw [BitVec.toNat_add, BitVec.toNat_ofNat, Nat.add_mod_mod, Nat.mod_eq_of_lt hsum]

theorem low_add (h : low k x+n < 2^k) : low k (x+BitVec.ofNat w n) = low k x+n := by
  rw [low, toNat_add_ofNat hk h, ← Nat.mod_add_mod]
  exact Nat.mod_eq_of_lt h

theorem flag_add (h : low k x+n < 2^k) (hj : k ≤ j) :
    (x+BitVec.ofNat w n).getLsbD j = x.getLsbD j := by
  apply flag_congr (k := k) _ hj
  rw [toNat_add_ofNat hk h]
  have hdiv := Nat.div_add_mod x.toNat (2^k)
  unfold low at h
  rw [← hdiv, Nat.add_assoc, Nat.mul_add_div (Nat.two_pow_pos k),
    Nat.mul_add_div (Nat.two_pow_pos k), Nat.div_eq_of_lt h,
    Nat.div_eq_of_lt (Nat.mod_lt _ (Nat.two_pow_pos k))]

theorem flag_sub (h : n ≤ low k x) (hj : k ≤ j) :
    (x-BitVec.ofNat w n).getLsbD j = x.getLsbD j := by
  have hlow := low_sub h
  have hlt : low k x < 2^k := low_lt
  have hadd := flag_add (x := x-BitVec.ofNat w n) (n := n) hk (by omega) hj
  rw [(sub_ofNat_add h).1] at hadd
  exact hadd.symm
end

end Shaper.Lib.FlagWord
