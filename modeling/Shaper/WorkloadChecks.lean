import Shaper.Lib.Raises
import Shaper.Workload

/-! What the checks of the benchmark say about the numbers of a workload. -/
namespace Shaper.Workload
open Lib.Mixing Lib.Raises

structure Valid (bytes io threads offset : BitVec 64) : Prop where
  io_eq : io.toNat = 4096 ∨ io.toNat = 65536
  bytes_pos : 0 < bytes.toNat
  bytes_mod : bytes.toNat % io.toNat = 0
  threads_pos : 0 < threads.toNat
  threads_le : threads.toNat ≤ 4096
  pages_mod : bytes.toNat / io.toNat % threads.toNat = 0
  offset_mod : offset.toNat % io.toNat = 0
  end_lt : offset.toNat + bytes.toNat < 2^64
  pages_eq : ∃ m, bytes.toNat / io.toNat = 2^m

theorem toNat_eq_zero {x : BitVec 64} (h : x = 0#64) : x.toNat = 0 := by
  rw [h]
  rfl

theorem toNat_pos {x : BitVec 64} (h : ¬ x = 0#64) : 0 < x.toNat :=
  Nat.pos_of_ne_zero fun hx => h (BitVec.eq_of_toNat_eq hx)

theorem exists_two_pow_of_and {x : BitVec 64} (hx : 0 < x.toNat) (h : x &&& (x - 1#64) = 0#64) :
    ∃ m, x.toNat = 2^m := by
  have hsub : (x - 1#64).toNat = x.toNat - 1 := BitVec.toNat_sub_of_le (BitVec.le_def.mpr hx)
  refine exists_two_pow hx.ne' ?_
  have hand := toNat_eq_zero h
  rwa [BitVec.toNat_and, hsub] at hand

theorem valid_of_ok {bytes io threads offset : BitVec 64}
    (h : validateWorkload bytes io threads offset = .ok ()) : Valid bytes io threads offset := by
  unfold validateWorkload at h
  split at h
  case isTrue => cases h
  case isFalse hc =>
    simp only at h
    split at h
    case isTrue => cases h
    case isFalse hp =>
      simp only [not_or, not_not, not_and_or] at hc hp
      obtain ⟨hio, hbytes, hmod, hthreads, hmax, hpages, hoff, hend⟩ := hc
      have hmod' := toNat_eq_zero hmod
      have hpages' := toNat_eq_zero hpages
      have hoff' := toNat_eq_zero hoff
      rw [BitVec.toNat_umod] at hmod' hpages' hoff'
      rw [BitVec.toNat_udiv] at hpages'
      have hbytes' := toNat_pos hbytes
      have hio' : io.toNat = 4096 ∨ io.toNat = 65536 := by
        rcases hio with rfl | rfl
        · exact .inl rfl
        · exact .inr rfl
      have hpos : 0 < (bytes / io).toNat := by
        rw [BitVec.toNat_udiv]
        exact Nat.div_pos (Nat.le_of_dvd hbytes' (Nat.dvd_of_mod_eq_zero hmod')) (by omega)
      obtain ⟨m, hm⟩ := exists_two_pow_of_and hpos hp
      rw [BitVec.toNat_udiv] at hm
      have hb := bytes.isLt
      have hlast : (BitVec.allOnes 64 - bytes).toNat = 2^64 - 1 - bytes.toNat := by
        rw [BitVec.toNat_sub_of_le (BitVec.le_def.mpr (by rw [BitVec.toNat_allOnes]; omega)),
          BitVec.toNat_allOnes]
      have hend' := Nat.le_of_not_lt fun hlt => hend (BitVec.lt_def.mpr hlt)
      have hmax' := Nat.le_of_not_lt fun hlt => hmax (BitVec.lt_def.mpr hlt)
      exact ⟨hio', hbytes', hmod', toNat_pos hthreads, hmax', hpages', hoff', by omega, m, hm⟩

theorem and_pred_two_pow (m : Nat) : 2^m &&& (2^m-1) = 0 := by
  rw [Nat.and_two_pow_sub_one_eq_mod, Nat.mod_self]

theorem and_pred_eq_zero {x : BitVec 64} {m : Nat} (hx : x.toNat = 2^m) :
    x &&& (x - 1#64) = 0#64 := by
  have hpos : 0 < x.toNat := hx ▸ Nat.two_pow_pos m
  have hsub : (x - 1#64).toNat = x.toNat - 1 := BitVec.toNat_sub_of_le (BitVec.le_def.mpr hpos)
  refine BitVec.eq_of_toNat_eq ?_
  rw [BitVec.toNat_and, hsub, hx, and_pred_two_pow]
  rfl

theorem ok_of_valid {bytes io threads offset : BitVec 64} (h : Valid bytes io threads offset) :
    validateWorkload bytes io threads offset = .ok () := by
  have hio : io = 4096#64 ∨ io = 65536#64 := by
    rcases h.io_eq with hio | hio
    · exact .inl (BitVec.eq_of_toNat_eq hio)
    · exact .inr (BitVec.eq_of_toNat_eq hio)
  have hbytes := h.bytes_pos
  have hthreads := h.threads_pos
  have hend := h.end_lt
  have hlast : (BitVec.allOnes 64 - bytes).toNat = 2^64 - 1 - bytes.toNat := by
    rw [BitVec.toNat_sub_of_le (BitVec.le_def.mpr (by rw [BitVec.toNat_allOnes]; omega)),
      BitVec.toNat_allOnes]
  obtain ⟨m, hm⟩ := h.pages_eq
  unfold validateWorkload
  rw [if_neg]
  · have hpages : (bytes/io).toNat = 2^m := by rw [BitVec.toNat_udiv, hm]
    simp only [and_pred_eq_zero hpages, ne_eq, not_true_eq_false, if_false]
  · simp only [not_or, not_not, not_and_or]
    refine ⟨hio, ?_, ?_, ?_, ?_, ?_, ?_, ?_⟩
    · rintro rfl
      exact absurd hbytes (by decide)
    · exact BitVec.eq_of_toNat_eq (by rw [BitVec.toNat_umod, h.bytes_mod]; rfl)
    · rintro rfl
      exact absurd hthreads (by decide)
    · exact fun hlt => absurd (BitVec.lt_def.mp hlt) (Nat.not_lt.mpr h.threads_le)
    · exact BitVec.eq_of_toNat_eq (by rw [BitVec.toNat_umod, BitVec.toNat_udiv, h.pages_mod]; rfl)
    · exact BitVec.eq_of_toNat_eq (by rw [BitVec.toNat_umod, h.offset_mod]; rfl)
    · intro hlt
      have := BitVec.lt_def.mp hlt
      omega

structure Accepted (p : Params) (ns : Namespace) : Prop where
  whole : Valid p.bytes p.io (p.workers.setWidth 64) p.offset
  batch : Valid p.batchBytes p.io (p.workers.setWidth 64) p.offset
  warps : p.transpose = true → 32 ≤ p.workers.toNat → p.workers.toNat % 32 = 0
  tile_mod : p.tile ≠ 0#64 → p.tile < p.batchBytes / p.io / p.workers.setWidth 64 →
    (p.batchBytes / p.io / p.workers.setWidth 64) % p.tile = 0#64
  batch_mod : p.bytes.toNat % p.batchBytes.toNat = 0
  single : p.random = true → p.batchBytes = p.bytes
  blk_le : 2^ns.blkLog ≤ p.io.toNat
  fits : p.offset.toNat / 2^ns.blkLog + p.bytes.toNat / 2^ns.blkLog ≤ ns.size.toNat

theorem workers_toNat (p : Params) : (p.workers.setWidth 64).toNat = p.workers.toNat := by
  have := p.workers.isLt
  rw [BitVec.toNat_setWidth]
  omega

theorem accepted_of_ok {p : Params} {ns : Namespace} (h : check p ns = .ok ()) :
    Accepted p ns := by
  unfold check at h
  obtain ⟨⟨⟩, hwhole, h⟩ := bind_eq_ok.mp h
  obtain ⟨⟨⟩, hbatch, h⟩ := bind_eq_ok.mp h
  obtain ⟨⟨⟩, horder, h⟩ := bind_eq_ok.mp h
  obtain ⟨⟨⟩, htile, h⟩ := bind_eq_ok.mp h
  obtain ⟨⟨⟩, hbatches, h⟩ := bind_eq_ok.mp h
  obtain ⟨hspace, h⟩ := guard_ok.mp h
  have hblk : ¬p.io.toNat < 2^ns.blkLog := by
    intro hlt
    rw [if_pos hlt] at h
    cases h
  simp only [orderCheck, tileCheck, batchCheck, ite_eq_right_iff, reduceCtorEq,
    imp_false] at horder htile hbatches
  simp only [not_or, not_and_or, not_not] at horder htile hbatches hspace
  have hvalid := valid_of_ok hwhole
  have hblk' := Nat.le_of_not_lt hblk
  constructor
  case whole => exact hvalid
  case batch => exact valid_of_ok hbatch
  case warps =>
    intro htr hle
    rcases horder.2 with hne | hlt | hmod
    · exact absurd (beq_iff_eq.mp htr) hne
    · refine absurd (BitVec.le_def.mpr ?_) hlt
      rw [workers_toNat]
      exact hle
    · have := toNat_eq_zero hmod
      rw [BitVec.toNat_umod, workers_toNat] at this
      exact this
  case tile_mod =>
    intro hz hlt
    rcases htile with hz' | ⟨-, hge | hmod⟩
    · exact absurd hz' hz
    · exact absurd hlt hge
    · exact hmod
  case batch_mod =>
    have := toNat_eq_zero hbatches.2.1
    rwa [BitVec.toNat_umod] at this
  case single =>
    intro hr
    rcases hbatches.2.2 with he | ⟨hr', -⟩
    · exact he
    · exact absurd hr hr'
  case blk_le => exact hblk'
  case fits =>
    have hio := hvalid.io_eq
    have hblkNat : (BitVec.ofNat 64 (2^ns.blkLog)).toNat = 2^ns.blkLog := by
      rw [BitVec.toNat_ofNat, Nat.mod_eq_of_lt (by omega)]
    have hle := Nat.le_of_not_lt fun hlt => hspace.1 (BitVec.lt_def.mpr hlt)
    have hle' := Nat.le_of_not_lt fun hlt => hspace.2 (BitVec.lt_def.mpr hlt)
    rw [BitVec.toNat_sub_of_le (BitVec.le_def.mpr hle), BitVec.toNat_udiv, BitVec.toNat_udiv,
      hblkNat] at hle'
    rw [BitVec.toNat_udiv, hblkNat] at hle
    omega

end Shaper.Workload
