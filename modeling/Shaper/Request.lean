import Shaper.Lib.Warp

/-! The request record of the scheduler queue and the build constants that more
than one phase of the kernels reads. -/
namespace Shaper.Request
open Lib.Warp

structure IoRequest where
  byteOffset : BitVec 64
  pcEntry : BitVec 64
  opcode : BitVec 8
  nBytesLog2 : BitVec 8
  deriving DecidableEq

def kSchedThreads : Nat := 128
def kSchedMaxBatch : Nat := 512
def kSchedMergeTarget : Nat := 2*1024*1024
def kSchedKneeLimit : Nat := 32

/-- The size code of a request: `__ffsll(n_bytes) - 1`, cut to a byte. -/
def ioSchedEncodeNbytes (nBytes : BitVec 64) : BitVec 8 := BitVec.ofNat 8 (ffs nBytes) - 1#8

def kSortKeyIndexBits : Nat := 9
def kSortKeyIndexMask : BitVec 64 := (1#64 <<< kSortKeyIndexBits) - 1#64

def ioSchedMakeSortKey (byteOffset : BitVec 64) (batchIndex : BitVec 32) : BitVec 64 :=
  byteOffset <<< kSortKeyIndexBits ||| (batchIndex.setWidth 64 &&& kSortKeyIndexMask)

def ioSchedKeyByteOffset (key : BitVec 64) : BitVec 64 := key >>> kSortKeyIndexBits

def ioSchedKeyBatchIndex (key : BitVec 64) : BitVec 32 := (key &&& kSortKeyIndexMask).setWidth 32

def ioSchedDecodeNbytes (nBytesLog2 : BitVec 8) : BitVec 64 := 1#64 <<< nBytesLog2.toNat

theorem toNat_decode {code : BitVec 8} (h : code.toNat < 64) :
    (ioSchedDecodeNbytes code).toNat = 2^code.toNat := by
  rw [ioSchedDecodeNbytes, BitVec.toNat_shiftLeft, BitVec.toNat_ofNat,
    Nat.one_mod_two_pow (by omega), Nat.one_shiftLeft,
    Nat.mod_eq_of_lt (Nat.pow_lt_pow_right (by decide) h)]

/-- What comes back from the code of a size is the lowest bit of it. -/
theorem decode_encode {k u : Nat} (hu : u % 2 = 1) (hlt : 2^k * u < 2^64) :
    ioSchedDecodeNbytes
    (ioSchedEncodeNbytes (BitVec.ofNat 64 (2^k * u))) = BitVec.ofNat 64 (2^k) := by
  have hk : k < 64 := (Nat.pow_lt_pow_iff_right (by decide : 1 < 2)).mp
    ((Nat.le_mul_of_pos_right _ (by omega)).trans_lt hlt)
  have hbit : ∀ j ≤ k, (BitVec.ofNat 64 (2^k * u)).getLsbD j = decide (j = k) := by
    intro j hj
    rw [BitVec.getLsbD_ofNat, decide_eq_true (by omega), Bool.true_and, Nat.testBit_two_pow_mul]
    rcases Nat.lt_or_eq_of_le hj with hj | rfl
    · rw [decide_eq_false (by omega), decide_eq_false (by omega), Bool.false_and]
    · rw [Nat.sub_self, Nat.testBit_zero, hu]
      simp
  have hf : ffs (BitVec.ofNat 64 (2^k * u)) = k+1 :=
    ffs_of_least hk (by rw [hbit k le_rfl]; exact decide_eq_true rfl)
      (fun j hj => by rw [hbit j hj.le]; exact decide_eq_false (Nat.ne_of_lt hj))
  have hc : ioSchedEncodeNbytes (BitVec.ofNat 64 (2^k * u)) = BitVec.ofNat 8 k := by
    rw [ioSchedEncodeNbytes, hf, BitVec.ofNat_add, BitVec.add_sub_cancel]
  rw [hc, ioSchedDecodeNbytes, BitVec.toNat_ofNat, Nat.mod_eq_of_lt (by omega)]
  apply BitVec.eq_of_toNat_eq
  rw [BitVec.toNat_shiftLeft, BitVec.toNat_ofNat, BitVec.toNat_ofNat,
    Nat.one_mod_two_pow (by omega), Nat.one_shiftLeft]

end Shaper.Request
