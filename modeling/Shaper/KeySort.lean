import Shaper.Lib.Bitonic
import Shaper.WriteScheduler

/-! The kernels that sort batch by batch keep it in shared memory: packed keys of
offset and index, padded to 512, in a bitonic network. -/
namespace Shaper.KeySort
open Lib PrpBuild Merge Request WriteScheduler

def keyMax : BitVec 64 := BitVec.allOnes 64

structure Shared where
  keys : Nat → BitVec 64
  nb : Nat → BitVec 8
  pc : Nat → BitVec 64

def packed (reqs : List IoRequest) : List (BitVec 64) :=
  reqs.mapIdx fun slot r => ioSchedMakeSortKey r.byteOffset (BitVec.ofNat 32 slot)

def Shared.zero : Shared := ⟨fun _ => 0, fun _ => 0, fun _ => 0⟩

def loadShared (old : Shared) (reqs : List IoRequest) : Shared where
  keys := overlay (fun _ => keyMax) (packed reqs)
  nb := overlay old.nb (reqs.map IoRequest.nBytesLog2)
  pc := overlay old.pc (reqs.map IoRequest.pcEntry)

@[reducible] def keyOrder : LinearOrder (BitVec 64) :=
  LinearOrder.lift' BitVec.toNat fun _ _ => BitVec.eq_of_toNat_eq

def ioSchedBitonicSort (keys : Nat → BitVec 64) : Nat → BitVec 64 := @Bitonic.sort _ keyOrder 9 keys

def sortShared (sh : Shared) : Shared := { sh with keys := ioSchedBitonicSort sh.keys }

def Shared.batch (sh : Shared) : Batch :=
  ⟨fun pos => ioSchedKeyByteOffset (sh.keys pos), fun pos => ioSchedKeyBatchIndex (sh.keys pos),
    sh.nb, sh.pc⟩

section Keys
variable {off : BitVec 64} {i : Nat} (hoff : off.toNat < 2^55) (hi : i < 512)
include hoff hi

theorem toNat_makeSortKey :
    (ioSchedMakeSortKey off (BitVec.ofNat 32 i)).toNat = 2^9 * off.toNat + i := by
  have hmask : kSortKeyIndexMask.toNat = 2^9 - 1 := by decide
  have hlow : ((BitVec.ofNat 32 i).setWidth 64 &&& kSortKeyIndexMask).toNat = i := by
    rw [BitVec.toNat_and, hmask, Nat.and_two_pow_sub_one_eq_mod, BitVec.toNat_setWidth,
      BitVec.toNat_ofNat]
    omega
  have hhigh : (off <<< kSortKeyIndexBits).toNat = 2^9 * off.toNat := by
    rw [BitVec.toNat_shiftLeft, kSortKeyIndexBits, Nat.shiftLeft_eq]
    omega
  rw [ioSchedMakeSortKey, BitVec.toNat_or, hlow, hhigh, Nat.two_pow_add_eq_or_of_lt hi]

theorem keyByteOffset_make :
    ioSchedKeyByteOffset (ioSchedMakeSortKey off (BitVec.ofNat 32 i)) = off := by
  apply BitVec.eq_of_toNat_eq
  rw [ioSchedKeyByteOffset, BitVec.toNat_ushiftRight, toNat_makeSortKey hoff hi, kSortKeyIndexBits,
    Nat.shiftRight_eq_div_pow]
  omega

omit hoff in
theorem keyBatchIndex_make :
    ioSchedKeyBatchIndex (ioSchedMakeSortKey off (BitVec.ofNat 32 i)) = BitVec.ofNat 32 i := by
  have hmask : kSortKeyIndexMask.toNat = 2^9 - 1 := by decide
  apply BitVec.eq_of_toNat_eq
  rw [ioSchedKeyBatchIndex, BitVec.toNat_setWidth, BitVec.toNat_and, hmask,
    Nat.and_two_pow_sub_one_eq_mod, ioSchedMakeSortKey, BitVec.toNat_or, BitVec.toNat_and, hmask,
    Nat.and_two_pow_sub_one_eq_mod, Nat.or_mod_two_pow, BitVec.toNat_shiftLeft, kSortKeyIndexBits,
    Nat.shiftLeft_eq, Nat.mod_mod_of_dvd _ (Nat.pow_dvd_pow 2 (by decide : 9 ≤ 64)),
    Nat.mul_mod_left, Nat.zero_or, BitVec.toNat_setWidth, BitVec.toNat_ofNat]
  omega

end Keys

structure Packs (reqs : List IoRequest) : Prop where
  le : reqs.length ≤ kSchedMaxBatch
  lt : ∀ r ∈ reqs, r.byteOffset.toNat + 1 < 2^55

variable {reqs : List IoRequest}

theorem Packs.of_asks {pc : PageCache} (hlen : reqs.length ≤ kSchedMaxBatch)
    (hreq : ∀ r ∈ reqs, Asks pc r) : Packs reqs := by
  refine ⟨hlen, fun r hr => ?_⟩
  have hlt := (hreq r hr).offset_lt
  have hdvd : 4096 ∣ r.byteOffset.toNat := (Dvd.intro _ rfl).trans (hreq r hr).offset_dvd
  omega

theorem Packs.mem_packed (h : Packs reqs) {k : BitVec 64} (hk : k ∈ packed reqs) :
    ∃ i, ∃ hi : i < reqs.length, k = ioSchedMakeSortKey reqs[i].byteOffset (BitVec.ofNat 32 i) ∧
      ioSchedKeyByteOffset k = reqs[i].byteOffset ∧ ioSchedKeyBatchIndex k = BitVec.ofNat 32 i ∧
      k.toNat < keyMax.toNat := by
  obtain ⟨i, hi, rfl⟩ := List.mem_mapIdx.mp hk
  have hlt := h.lt _ (List.getElem_mem hi)
  have h512 : i < 512 := hi.trans_le h.le
  refine ⟨i, hi, rfl, keyByteOffset_make (by omega) h512, keyBatchIndex_make h512, ?_⟩
  rw [toNat_makeSortKey (by omega) h512, show keyMax.toNat = 2^64 - 1 by decide]
  omega

theorem length_packed (reqs : List IoRequest) : (packed reqs).length = reqs.length := by
  rw [packed, List.length_mapIdx]

theorem sortShared_keys (sh : Shared) : (sortShared sh).keys = ioSchedBitonicSort sh.keys := by
  rw [sortShared]

theorem bitonic_mono (keys : Nat → BitVec 64) {i j : Nat} (hij : i ≤ j) (hj : j < kSchedMaxBatch) :
    (ioSchedBitonicSort keys i).toNat ≤ (ioSchedBitonicSort keys j).toNat :=
  @Bitonic.sort_mono _ keyOrder 9 keys i j hij hj

theorem bitonic_perm (keys : Nat → BitVec 64) :
    ((List.range kSchedMaxBatch).map (ioSchedBitonicSort keys)).Perm
    ((List.range kSchedMaxBatch).map keys) := by
  have h := @Bitonic.sort_perm _ keyOrder 9 9 le_rfl keys
  rwa [show 2^9 = kSchedMaxBatch from rfl] at h

theorem map_keys (hlen : reqs.length ≤ kSchedMaxBatch) (old : Shared) :
    (List.range kSchedMaxBatch).map (loadShared old reqs).keys =
      packed reqs ++ List.replicate (kSchedMaxBatch - reqs.length) keyMax := by
  refine List.ext_getElem ?_ fun i _ _ => ?_
  · rw [List.length_map, List.length_range, List.length_append, length_packed,
      List.length_replicate, Nat.add_sub_cancel' hlen]
  · rw [List.getElem_map, List.getElem_range]
    change (packed reqs).getD i keyMax = _
    rcases Nat.lt_or_ge i (packed reqs).length with h | h
    · rw [List.getD_eq_getElem _ _ h, List.getElem_append_left h]
    · rw [List.getD_eq_default _ _ h, List.getElem_append_right h, List.getElem_replicate]

/-- No key is larger than padding, so padding goes to the end. -/
theorem sort_packed (hle : reqs.length ≤ kSchedMaxBatch) (old : Shared) :
    ((List.range reqs.length).map (sortShared (loadShared old reqs)).keys).Perm (packed reqs) := by
  rw [sortShared_keys]
  let le := fun a b : BitVec 64 => decide (a.toNat ≤ b.toNat)
  let R := (packed reqs).mergeSort le
  have hR : R.Perm (packed reqs) := List.mergeSort_perm _ _
  have hlen : R.length = reqs.length := hR.length_eq.trans (length_packed reqs)
  have hsortR : R.Pairwise fun a b => a.toNat ≤ b.toNat :=
    (List.pairwise_mergeSort (by simp only [decide_eq_true_iff]; omega)
      (by simp only [Bool.or_eq_true, decide_eq_true_iff]; omega) _).imp of_decide_eq_true
  have hsort :
    ((List.range kSchedMaxBatch).map (ioSchedBitonicSort (loadShared old reqs).keys)).Pairwise
      fun a b => a.toNat ≤ b.toNat := by
    rw [List.pairwise_map]
    refine List.pairwise_lt_range.imp_of_mem fun {i j} _ hj hij => ?_
    exact bitonic_mono _ hij.le (List.mem_range.mp hj)
  have hpad : (R ++ List.replicate (kSchedMaxBatch - reqs.length) keyMax).Pairwise
      fun a b => a.toNat ≤ b.toNat := by
    refine List.pairwise_append.mpr ⟨hsortR, List.pairwise_replicate.mpr (.inr le_rfl),
      fun a ha b hb => ?_⟩
    have hmax : keyMax.toNat = 2^64 - 1 := by decide
    rw [List.eq_of_mem_replicate hb, hmax]
    exact Nat.le_sub_one_of_lt a.isLt
  have hperm :
    ((List.range kSchedMaxBatch).map (ioSchedBitonicSort (loadShared old reqs).keys)).Perm
      (R ++ List.replicate (kSchedMaxBatch - reqs.length) keyMax) := by
    refine (bitonic_perm _).trans ?_
    rw [map_keys hle]
    exact hR.symm.append_right _
  have heq := hperm.eq_of_pairwise
    (fun a b _ _ hab hba => BitVec.eq_of_toNat_eq (Nat.le_antisymm hab hba)) hsort hpad
  have htake := congrArg (List.take reqs.length) heq
  rw [← List.map_take, List.take_range, Nat.min_eq_left hle,
    List.take_append_of_le_length hlen.ge, List.take_of_length_le hlen.le] at htake
  rw [htake]
  exact hR

def pickKey (reqs : List IoRequest) (k : BitVec 64) : IoRequest :=
  reqs.getD (ioSchedKeyBatchIndex k).toNat ⟨0, 0, 0, 0⟩

theorem map_pickKey (hle : reqs.length ≤ kSchedMaxBatch) :
    (packed reqs).map (pickKey reqs) = reqs := by
  refine List.ext_getElem (by simp [length_packed]) fun i hi hi' => ?_
  have h512 : i < 512 := hi'.trans_le hle
  rw [List.getElem_map, pickKey]
  simp only [packed, List.getElem_mapIdx]
  rw [keyBatchIndex_make h512, BitVec.toNat_ofNat, Nat.mod_eq_of_lt (by omega),
    List.getD_eq_getElem _ _ hi']

/-- Phases 1 and 2: the first keys are those of the batch, in some order, and none is padding. -/
theorem Packs.sortShared_lists (h : Packs reqs) (old : Shared) : ∃ S, S.Perm reqs ∧
    Lists (sortShared (loadShared old reqs)).batch S ∧
    ∀ pos < reqs.length, (sortShared (loadShared old reqs)).keys pos ≠ keyMax := by
  have hread : ∀ pos < reqs.length, (sortShared (loadShared old reqs)).keys pos ∈ packed reqs :=
    fun pos hpos =>
    (sort_packed h.le old).mem_iff.mp (List.mem_map_of_mem (List.mem_range.mpr hpos))
  have h31 : reqs.length ≤ 2^31 := h.le.trans (by decide)
  refine ⟨((List.range reqs.length).map (sortShared (loadShared old reqs)).keys).map (pickKey reqs),
    ((sort_packed h.le old).map _).trans (.of_eq (map_pickKey h.le)),
    ⟨fun pos hp => ?_, fun pos hp => ?_, fun pos hp => ?_⟩, fun pos hp hmax => ?_⟩
  case refine_4 =>
    obtain ⟨-, -, -, -, -, hlt⟩ := h.mem_packed (hread pos hp)
    exact Nat.ne_of_lt hlt (congrArg BitVec.toNat hmax)
  all_goals
    have hpos : pos < reqs.length := by simpa using hp
    obtain ⟨i, hi, -, hoff, hidx, -⟩ := h.mem_packed (hread pos hpos)
    have hpick : pickKey reqs ((sortShared (loadShared old reqs)).keys pos) = reqs[i] := by
      have := h.le
      rw [pickKey, hidx, BitVec.toNat_ofNat, Nat.mod_eq_of_lt (by omega),
        List.getD_eq_getElem _ _ hi]
    simp only [List.getElem_map, List.getElem_range, hpick]
  · exact hoff
  · simp only [Batch.entry, Shared.batch, hidx]
    exact overlay_map h31 IoRequest.pcEntry old.pc hi
  · simp only [Shared.batch, hidx]
    exact overlay_map h31 IoRequest.nBytesLog2 old.nb hi

theorem batchIndex_perm (hle : reqs.length ≤ kSchedMaxBatch) (old : Shared) :
    ((List.range reqs.length).map fun pos =>
        ioSchedKeyBatchIndex ((sortShared (loadShared old reqs)).keys pos)).Perm
      ((List.range reqs.length).map (BitVec.ofNat 32)) := by
  have hpack :
    (packed reqs).map ioSchedKeyBatchIndex = (List.range reqs.length).map (BitVec.ofNat 32) := by
    refine List.ext_getElem (by simp [length_packed]) fun i hi hi' => ?_
    have hlen : i < reqs.length := by simpa using hi'
    simp only [packed, List.getElem_map, List.getElem_mapIdx, List.getElem_range]
    exact keyBatchIndex_make (hlen.trans_le hle)
  have hmap := (sort_packed hle old).map ioSchedKeyBatchIndex
  rwa [List.map_map, hpack] at hmap

end Shaper.KeySort
