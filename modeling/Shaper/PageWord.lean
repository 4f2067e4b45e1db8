import Shaper.PageCache

/-! The packed state of a page read as three flags and a count, what each atomic
operation of the cache does to them, and what each test of the code asks. -/
namespace Shaper.PageCache
open Lib.FlagWord
variable {w : BitVec 32} {n : Nat}

def valid (w : BitVec 32) : Bool := w.getLsbD 31
def busy (w : BitVec 32) : Bool := w.getLsbD 30
def dirty (w : BitVec 32) : Bool := w.getLsbD 29
def cnt (w : BitVec 32) : Nat := low 29 w

section
variable (w)
@[simp] theorem valid_or_busy : valid (w ||| BUSY) = valid w := by simp [valid, BUSY]
@[simp] theorem busy_or_busy : busy (w ||| BUSY) = true := by simp [busy, BUSY]
@[simp] theorem dirty_or_busy : dirty (w ||| BUSY) = dirty w := by simp [dirty, BUSY]
@[simp] theorem cnt_or_busy : cnt (w ||| BUSY) = cnt w := low_or (by decide)

@[simp] theorem valid_or_dirty : valid (w ||| DIRTY) = valid w := by simp [valid, DIRTY]
@[simp] theorem busy_or_dirty : busy (w ||| DIRTY) = busy w := by simp [busy, DIRTY]
@[simp] theorem dirty_or_dirty : dirty (w ||| DIRTY) = true := by simp [dirty, DIRTY]
@[simp] theorem cnt_or_dirty : cnt (w ||| DIRTY) = cnt w := low_or (by decide)

@[simp] theorem valid_unbusy : valid (w &&& DISABLE_BUSY_MASK) = valid w := by
  simp [valid, DISABLE_BUSY_MASK]
@[simp] theorem busy_unbusy : busy (w &&& DISABLE_BUSY_MASK) = false := by
  simp [busy, DISABLE_BUSY_MASK]
@[simp] theorem dirty_unbusy : dirty (w &&& DISABLE_BUSY_MASK) = dirty w := by
  simp [dirty, DISABLE_BUSY_MASK]
@[simp] theorem cnt_unbusy : cnt (w &&& DISABLE_BUSY_MASK) = cnt w := low_and (by decide)

@[simp] theorem valid_clear : valid (w &&& CNT_MASK) = false := by simp [valid, CNT_MASK]
@[simp] theorem busy_clear : busy (w &&& CNT_MASK) = false := by simp [busy, CNT_MASK]
@[simp] theorem dirty_clear : dirty (w &&& CNT_MASK) = false := by simp [dirty, CNT_MASK]
@[simp] theorem cnt_clear : cnt (w &&& CNT_MASK) = cnt w := low_and (by decide)

@[simp] theorem valid_xor : valid (w ^^^ DISABLE_BUSY_ENABLE_VALID) = !valid w := by
  simp [valid, DISABLE_BUSY_ENABLE_VALID]
@[simp] theorem busy_xor : busy (w ^^^ DISABLE_BUSY_ENABLE_VALID) = !busy w := by
  simp [busy, DISABLE_BUSY_ENABLE_VALID]
@[simp] theorem dirty_xor : dirty (w ^^^ DISABLE_BUSY_ENABLE_VALID) = dirty w := by
  simp [dirty, DISABLE_BUSY_ENABLE_VALID]
@[simp] theorem cnt_xor : cnt (w ^^^ DISABLE_BUSY_ENABLE_VALID) = cnt w := low_xor (by decide)
end

section
variable (h : cnt w+n < 2^29)
include h
theorem valid_add : valid (w+BitVec.ofNat 32 n) = valid w := flag_add (by decide) h (by decide)
theorem busy_add : busy (w+BitVec.ofNat 32 n) = busy w := flag_add (by decide) h (by decide)
theorem dirty_add : dirty (w+BitVec.ofNat 32 n) = dirty w := flag_add (by decide) h (by decide)
theorem cnt_add : cnt (w+BitVec.ofNat 32 n) = cnt w+n := low_add (by decide) h
end

section
variable (h : n ≤ cnt w)
include h
theorem valid_sub : valid (w-BitVec.ofNat 32 n) = valid w := flag_sub (by decide) h (by decide)
theorem busy_sub : busy (w-BitVec.ofNat 32 n) = busy w := flag_sub (by decide) h (by decide)
theorem dirty_sub : dirty (w-BitVec.ofNat 32 n) = dirty w := flag_sub (by decide) h (by decide)
theorem cnt_sub : cnt (w-BitVec.ofNat 32 n) = cnt w-n := low_sub h
end

theorem and_busy_iff : w &&& BUSY = 0 ↔ busy w = false :=
  and_flag_eq_zero_iff (by decide) (by decide)

theorem and_dirty_iff : w &&& DIRTY = 0 ↔ dirty w = false :=
  and_flag_eq_zero_iff (by decide) (by decide)

theorem and_cnt_iff : w &&& CNT_MASK = 0 ↔ cnt w = 0 := and_mask_eq_zero_iff (by decide)

theorem toNat_st : (st w).toNat = w.toNat/2^30 % 4 := by
  rw [st, BitVec.toNat_and, BitVec.toNat_ushiftRight, Nat.shiftRight_eq_div_pow]
  exact Nat.and_two_pow_sub_one_eq_mod _ 2

theorem valid_eq : valid w = decide (w.toNat/2^31 % 2 = 1) := Nat.testBit_eq_decide_div_mod_eq

theorem busy_eq : busy w = decide (w.toNat/2^30 % 2 = 1) := Nat.testBit_eq_decide_div_mod_eq

theorem st_invalid_iff : st w = NV_NB ↔ valid w = false ∧ busy w = false := by
  have h0 : NV_NB.toNat = 0 := rfl
  rw [← BitVec.toNat_inj, toNat_st, h0, valid_eq, busy_eq, decide_eq_false_iff_not,
    decide_eq_false_iff_not]
  omega

theorem st_valid_iff : st w = V_NB ↔ valid w = true ∧ busy w = false := by
  have h2 : V_NB.toNat = 2 := rfl
  rw [← BitVec.toNat_inj, toNat_st, h2, valid_eq, busy_eq, decide_eq_true_iff,
    decide_eq_false_iff_not]
  omega

/-! What each decision of the code says about the word it read. -/

theorem dispatch_cases (write : Bool) (w : BitVec 32) :
    (dispatch write w = .orBusy ∧ valid w = false ∧ busy w = false) ∨
    (dispatch write w = .hitDirty ∧ valid w = true ∧ busy w = false) ∨
    (dispatch write w = .hitOffset ∧ valid w = true ∧ busy w = false ∧
      (write = true → dirty w = true)) ∨
    dispatch write w = .reload := by
  simp only [dispatch, st_invalid_iff, st_valid_iff, and_dirty_iff]
  cases valid w <;> cases busy w <;> cases dirty w <;> cases write <;> simp

theorem afterOr_cases (w : BitVec 32) :
    (afterOr w = .find .ticket ∧ valid w = false ∧ busy w = false) ∨
    (afterOr w = .unbusy ∧ busy w = false) ∨ (afterOr w = .reload ∧ busy w = true) := by
  simp only [afterOr, st_invalid_iff, and_busy_iff]
  cases valid w <;> cases busy w <;> simp

theorem afterLoad_cases (s : Nat) (prev : Page) (w : BitVec 32) :
    afterLoad s prev w = .orBusy s prev ∨ afterLoad s prev w = .unlock s true :=
  ite_eq_or_eq _ _ _

theorem afterEvictOr_cases (s : Nat) (prev : Page) (w : BitVec 32) :
    (afterEvictOr s prev w = .clear s prev ∧ busy w = false ∧ cnt w = 0 ∧ dirty w = false) ∨
    (afterEvictOr s prev w = .writeBack s prev ∧ busy w = false ∧ cnt w = 0) ∨
    (afterEvictOr s prev w = .unbusy s prev ∧ busy w = false) ∨
    (afterEvictOr s prev w = .unlock s true ∧ busy w = true) := by
  simp only [afterEvictOr, and_busy_iff, and_cnt_iff, and_dirty_iff]
  by_cases hc : cnt w = 0 <;> cases busy w <;> cases dirty w <;> simp [hc]

end Shaper.PageCache
