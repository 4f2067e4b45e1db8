import Shaper.WorkloadChecks

/-! The addresses of a workload that passes the checks: the three maps are injective on
their ranges, so every page of the transfer is requested once. The checked versions of
the maps fail where a 64-bit sum or product would wrap. -/
namespace Shaper.Workload
open Lib.Mixing

def add64 (x y : BitVec 64) : Option (BitVec 64) :=
  if x.toNat + y.toNat < 2^64 then some (x + y) else none

def mul64 (x y : BitVec 64) : Option (BitVec 64) :=
  if x.toNat * y.toNat < 2^64 then some (x * y) else none

theorem add64_eq {x y : BitVec 64} (h : x.toNat + y.toNat < 2^64) :
    add64 x y = some (x + y) ∧ (x + y).toNat = x.toNat + y.toNat :=
  ⟨if_pos h, BitVec.toNat_add_of_lt h⟩

theorem mul64_eq {x y : BitVec 64} (h : x.toNat * y.toNat < 2^64) :
    mul64 x y = some (x * y) ∧ (x * y).toNat = x.toNat * y.toNat :=
  ⟨if_pos h, BitVec.toNat_mul_of_lt h⟩

def aeWorkerChecked (worker workers : BitVec 64) (transpose : Bool) : Option (BitVec 64) := do
  if transpose ∧ 32#64 ≤ workers then
    let rows ← mul64 (worker % 32#64) (workers / 32#64)
    add64 rows (worker / 32#64)
  else some worker

def aeIndexChecked (worker iteration pages workers tile : BitVec 64) : Option (BitVec 64) := do
  let tile := tileOf tile (pages / workers)
  let row ← mul64 (iteration / tile) workers
  let block ← add64 row worker
  let first ← mul64 block tile
  add64 first (iteration % tile)

/-- The address of an iteration, if nothing but the mixing of `ae_page` wraps. -/
def addressChecked (p : Params) (base : BitVec 64) (tid : BitVec 32) (i : BitVec 64) :
    Option (BitVec 64) := do
  let pages := p.batchBytes / p.io
  let workers := p.workers.setWidth 64
  let worker ← aeWorkerChecked (tid.setWidth 64) workers p.transpose
  let index ← aeIndexChecked ((worker.setWidth 32).setWidth 64) i pages workers p.tile
  let distance ← mul64 (aePage index pages p.seed p.random) p.io
  add64 base distance

section maps

def workerNat (w workers : Nat) (transpose : Bool) : Nat :=
  if transpose ∧ 32 ≤ workers then w % 32 * (workers / 32) + w / 32 else w

variable {w w' W : Nat} {transpose : Bool}

theorem workerNat_lt (hwarps : transpose = true → 32 ≤ W → W % 32 = 0) (hw : w < W) :
    workerNat w W transpose < W := by
  unfold workerNat
  split
  case isTrue hc =>
    have hW := Nat.div_add_mod W 32
    have hmod := hwarps hc.1 hc.2
    have hdiv : w / 32 < W / 32 := by omega
    calc w % 32 * (W / 32) + w / 32
        < w % 32 * (W / 32) + W / 32 := by omega
      _ = (w % 32 + 1) * (W / 32) := by rw [Nat.add_mul, Nat.one_mul]
      _ ≤ 32 * (W / 32) := Nat.mul_le_mul_right _ (Nat.mod_lt w (by omega))
      _ = W := by omega
  case isFalse => exact hw

theorem workerNat_inj (hwarps : transpose = true → 32 ≤ W → W % 32 = 0) (hw : w < W) (hw' : w' < W)
    (h : workerNat w W transpose = workerNat w' W transpose) : w = w' := by
  unfold workerNat at h
  split at h
  case isTrue hc =>
    have hmod := hwarps hc.1 hc.2
    have hpos : 0 < W / 32 := Nat.div_pos hc.2 (by omega)
    have hdiv : w / 32 < W / 32 := by omega
    have hdiv' : w' / 32 < W / 32 := by omega
    have hcol := congrArg (· % (W / 32)) h
    have hrow := congrArg (· / (W / 32)) h
    simp only [Nat.mul_add_mod', Nat.mod_eq_of_lt hdiv, Nat.mod_eq_of_lt hdiv'] at hcol
    simp only [Nat.mul_comm _ (W / 32), Nat.mul_add_div hpos, Nat.div_eq_of_lt hdiv,
      Nat.div_eq_of_lt hdiv', Nat.add_zero] at hrow
    omega
  case isFalse => exact h

def indexNat (w i workers tile : Nat) : Nat := (i / tile * workers + w) * tile + i % tile

variable {i i' C t : Nat}

theorem indexNat_lt (ht : 0 < t) (hdvd : t ∣ C) (hw : w < W) (hi : i < C) :
    indexNat w i W t < W * C := by
  obtain ⟨d, rfl⟩ := hdvd
  have hdiv : i / t < d := Nat.div_lt_of_lt_mul hi
  have hblock : i / t * W + w + 1 ≤ d * W := by
    calc i / t * W + w + 1 ≤ i / t * W + W := by omega
      _ = (i / t + 1) * W := by rw [Nat.add_mul, Nat.one_mul]
      _ ≤ d * W := Nat.mul_le_mul_right _ hdiv
  calc indexNat w i W t < (i / t * W + w) * t + t := Nat.add_lt_add_left (Nat.mod_lt i ht) _
    _ = (i / t * W + w + 1) * t := by rw [Nat.add_mul _ 1, Nat.one_mul]
    _ ≤ d * W * t := Nat.mul_le_mul_right _ hblock
    _ = W * (t * d) := by rw [Nat.mul_comm d W, Nat.mul_assoc, Nat.mul_comm d t]

theorem indexNat_inj (ht : 0 < t) (hw : w < W) (hw' : w' < W)
    (h : indexNat w i W t = indexNat w' i' W t) : w = w' ∧ i = i' := by
  have hW : 0 < W := Nat.zero_lt_of_lt hw
  unfold indexNat at h
  have hmod := congrArg (· % t) h
  have hblock := congrArg (· / t) h
  simp only [Nat.mul_add_mod', Nat.mod_mod] at hmod
  simp only [Nat.mul_comm _ t, Nat.mul_add_div ht, Nat.div_eq_of_lt (Nat.mod_lt _ ht),
    Nat.add_zero] at hblock
  have hcol := congrArg (· % W) hblock
  have hrow := congrArg (· / W) hblock
  simp only [Nat.mul_add_mod', Nat.mod_eq_of_lt hw, Nat.mod_eq_of_lt hw'] at hcol
  simp only [Nat.mul_comm _ W, Nat.mul_add_div hW, Nat.div_eq_of_lt hw, Nat.div_eq_of_lt hw',
    Nat.add_zero] at hrow
  refine ⟨hcol, ?_⟩
  rw [← Nat.div_add_mod i t, ← Nat.div_add_mod i' t, hrow, hmod]

end maps

section words
variable {worker workers iteration pages tile index index' seed : BitVec 64}
  {transpose random : Bool} {m : Nat}

theorem aeWorker_eq (hw : worker.toNat < workers.toNat)
    (hwarps : transpose = true → 32 ≤ workers.toNat → workers.toNat % 32 = 0) :
    aeWorkerChecked worker workers transpose = some (aeWorker worker workers transpose) ∧
      (aeWorker worker workers transpose).toNat =
        workerNat worker.toNat workers.toNat transpose := by
  have hlt := workerNat_lt hwarps hw
  have hmax := workers.isLt
  have hle : 32#64 ≤ workers ↔ 32 ≤ workers.toNat := BitVec.le_def
  have h32 : (32#64).toNat = 32 := rfl
  unfold aeWorkerChecked aeWorker workerNat at *
  simp only [hle] at *
  split at hlt
  case isTrue hc =>
    rw [if_pos hc, if_pos hc, if_pos hc]
    obtain ⟨hmul, hmul'⟩ := mul64_eq (x := worker % 32#64) (y := workers / 32#64) (by
      rw [BitVec.toNat_umod, BitVec.toNat_udiv, h32]
      omega)
    rw [BitVec.toNat_umod, BitVec.toNat_udiv, h32] at hmul'
    obtain ⟨hadd, hadd'⟩ := add64_eq (x := worker % 32#64 * (workers / 32#64))
      (y := worker / 32#64) (by
        rw [hmul', BitVec.toNat_udiv, h32]
        omega)
    rw [hmul', BitVec.toNat_udiv, h32] at hadd'
    rw [hmul]
    exact ⟨hadd, hadd'⟩
  case isFalse hc =>
    rw [if_neg hc, if_neg hc, if_neg hc]
    exact ⟨rfl, rfl⟩

theorem aeIndex_eq (ht : 0 < (tileOf tile (pages / workers)).toNat)
    (hdvd : (tileOf tile (pages / workers)).toNat ∣ pages.toNat / workers.toNat)
    (hw : worker.toNat < workers.toNat) (hi : iteration.toNat < pages.toNat / workers.toNat) :
    aeIndexChecked worker iteration pages workers tile =
        some (aeIndex worker iteration pages workers tile) ∧
      (aeIndex worker iteration pages workers tile).toNat =
        indexNat worker.toNat iteration.toNat workers.toNat
          (tileOf tile (pages / workers)).toNat := by
  have hlt : indexNat worker.toNat iteration.toNat workers.toNat
      (tileOf tile (pages / workers)).toNat < 2^64 :=
    (indexNat_lt ht hdvd hw hi).trans_le ((Nat.mul_div_le _ _).trans (Nat.le_of_lt pages.isLt))
  unfold aeIndexChecked aeIndex
  unfold indexNat at *
  simp only
  generalize tileOf tile (pages / workers) = u at *
  -- every partial result is at most the index
  have hgrow := Nat.le_mul_of_pos_right
    (iteration.toNat / u.toNat * workers.toNat + worker.toNat) ht
  obtain ⟨h₁, h₁'⟩ := mul64_eq (x := iteration / u) (y := workers) (by
    rw [BitVec.toNat_udiv]
    omega)
  rw [BitVec.toNat_udiv] at h₁'
  obtain ⟨h₂, h₂'⟩ := add64_eq (x := iteration / u * workers) (y := worker) (by
    rw [h₁']
    omega)
  rw [h₁'] at h₂'
  obtain ⟨h₃, h₃'⟩ := mul64_eq (x := iteration / u * workers + worker) (y := u) (by
    rw [h₂']
    omega)
  rw [h₂'] at h₃'
  obtain ⟨h₄, h₄'⟩ := add64_eq (x := (iteration / u * workers + worker) * u)
    (y := iteration % u) (by
      rw [h₃', BitVec.toNat_umod]
      omega)
  rw [h₃', BitVec.toNat_umod] at h₄'
  simp only [h₁, h₂, h₃, h₄, bind, Option.bind]
  exact ⟨trivial, h₄'⟩

theorem aePage_random (hp : pages = BitVec.ofNat 64 (2^m)) :
    aePage index pages seed true = xorShift 11 (affine 0xbf58476d1ce4e5b9#64 seed m
      (xorShift 13 (affine 0x9e3779b97f4a7c15#64 seed m (xorShift 7 index)))) := by
  rw [hp]
  rfl

theorem aePage_lt (hm : m < 64) (hp : pages.toNat = 2^m) (hi : index.toNat < 2^m) :
    (aePage index pages seed random).toNat < 2^m := by
  cases random with
  | false => exact hi
  | true =>
    rw [aePage_random (BitVec.eq_of_toNat_eq (by
      rw [hp, BitVec.toNat_ofNat, Nat.mod_eq_of_lt (Nat.pow_lt_pow_right (by omega) hm)]))]
    exact xorShift_lt (affine_lt hm)

theorem aePage_inj (hm : m < 64) (hp : pages.toNat = 2^m) (hi : index.toNat < 2^m)
    (hi' : index'.toNat < 2^m)
    (h : aePage index pages seed random = aePage index' pages seed random) : index = index' := by
  cases random with
  | false => exact h
  | true =>
    have hp' : pages = BitVec.ofNat 64 (2^m) := BitVec.eq_of_toNat_eq (by
      rw [hp, BitVec.toNat_ofNat, Nat.mod_eq_of_lt (Nat.pow_lt_pow_right (by omega) hm)])
    rw [aePage_random hp', aePage_random hp'] at h
    have h₁ := affine_injective hm (by decide) (xorShift_lt (affine_lt hm))
      (xorShift_lt (affine_lt hm)) (xorShift_injective (by decide) h)
    have h₂ := affine_injective hm (by decide) (xorShift_lt hi) (xorShift_lt hi')
      (xorShift_injective (by decide) h₁)
    exact xorShift_injective (by decide) h₂

end words

section launches
variable {p : Params} {ns : Namespace}

def pageOf (p : Params) (tid : BitVec 32) (i : BitVec 64) : BitVec 64 :=
  let pages := p.batchBytes / p.io
  let workers := p.workers.setWidth 64
  let worker := (aeWorker (tid.setWidth 64) workers p.transpose).setWidth 32
  aePage (aeIndex (worker.setWidth 64) i pages workers p.tile) pages p.seed p.random

def batchPages (p : Params) : Nat := p.batchBytes.toNat / p.io.toNat
def perWorker (p : Params) : Nat := batchPages p / p.workers.toNat

theorem perWorker_toNat (p : Params) :
    (p.batchBytes / p.io / p.workers.setWidth 64).toNat = perWorker p := by
  rw [BitVec.toNat_udiv, BitVec.toNat_udiv, workers_toNat]
  rfl

namespace Accepted
variable (h : Accepted p ns)
include h

theorem io_pos : 0 < p.io.toNat := by
  have := h.batch.io_eq
  omega

theorem workers_le : p.workers.toNat ≤ 4096 := by
  have := h.batch.threads_le
  rwa [workers_toNat] at this

theorem batch_eq : batchPages p * p.io.toNat = p.batchBytes.toNat :=
  Nat.div_mul_cancel (Nat.dvd_of_mod_eq_zero h.batch.bytes_mod)

theorem pages_eq : p.workers.toNat * perWorker p = batchPages p := by
  have := h.batch.pages_mod
  rw [workers_toNat] at this
  exact Nat.mul_div_cancel' (Nat.dvd_of_mod_eq_zero this)

theorem perWorker_pos : 0 < perWorker p := by
  have hpos : 0 < batchPages p := by
    have hb := h.batch_eq
    have := h.batch.bytes_pos
    refine Nat.pos_of_ne_zero fun hz => ?_
    rw [hz, Nat.zero_mul] at hb
    omega
  refine Nat.pos_of_ne_zero fun hz => ?_
  have := h.pages_eq
  rw [hz, Nat.mul_zero] at this
  omega

theorem tile_ok : 0 < (tileOf p.tile (p.batchBytes / p.io / p.workers.setWidth 64)).toNat ∧
    (tileOf p.tile (p.batchBytes / p.io / p.workers.setWidth 64)).toNat ∣ perWorker p := by
  have hpos := h.perWorker_pos
  have hc := perWorker_toNat p
  unfold tileOf
  split
  case isTrue => exact ⟨hc ▸ hpos, hc ▸ Nat.dvd_refl _⟩
  case isFalse hn =>
    simp only [not_or] at hn
    refine ⟨toNat_pos hn.1, ?_⟩
    have hle := Nat.le_of_not_lt fun hlt => hn.2 (BitVec.lt_def.mpr hlt)
    rcases Nat.lt_or_eq_of_le hle with hlt | heq
    · have := toNat_eq_zero (h.tile_mod hn.1 (BitVec.lt_def.mpr hlt))
      rw [BitVec.toNat_umod, hc] at this
      exact Nat.dvd_of_mod_eq_zero this
    · rw [heq, hc]

variable {tid tid' : BitVec 32} {i i' : BitVec 64}

theorem worker_ok (ht : tid.toNat < p.workers.toNat) :
    aeWorkerChecked (tid.setWidth 64) (p.workers.setWidth 64) p.transpose =
        some (aeWorker (tid.setWidth 64) (p.workers.setWidth 64) p.transpose) ∧
      (aeWorker (tid.setWidth 64) (p.workers.setWidth 64) p.transpose).toNat =
        workerNat tid.toNat p.workers.toNat p.transpose ∧
      ((aeWorker (tid.setWidth 64) (p.workers.setWidth 64) p.transpose).setWidth 32).setWidth 64 =
        aeWorker (tid.setWidth 64) (p.workers.setWidth 64) p.transpose := by
  have htid : (tid.setWidth 64).toNat = tid.toNat := by
    have := tid.isLt
    rw [BitVec.toNat_setWidth]
    omega
  obtain ⟨hc, hn⟩ := @aeWorker_eq (tid.setWidth 64) (p.workers.setWidth 64) p.transpose
    (by rwa [htid, workers_toNat]) (by rw [workers_toNat]; exact h.warps)
  rw [htid, workers_toNat] at hn
  refine ⟨hc, hn, BitVec.eq_of_toNat_eq ?_⟩
  have := workerNat_lt h.warps ht
  have := p.workers.isLt
  rw [BitVec.toNat_setWidth, BitVec.toNat_setWidth, hn]
  omega

theorem index_ok (ht : tid.toNat < p.workers.toNat) (hi : i.toNat < perWorker p) :
    aeIndexChecked (aeWorker (tid.setWidth 64) (p.workers.setWidth 64) p.transpose) i
        (p.batchBytes / p.io) (p.workers.setWidth 64) p.tile =
      some (aeIndex (aeWorker (tid.setWidth 64) (p.workers.setWidth 64) p.transpose) i
        (p.batchBytes / p.io) (p.workers.setWidth 64) p.tile) ∧
    (aeIndex (aeWorker (tid.setWidth 64) (p.workers.setWidth 64) p.transpose) i
        (p.batchBytes / p.io) (p.workers.setWidth 64) p.tile).toNat =
      indexNat (workerNat tid.toNat p.workers.toNat p.transpose) i.toNat p.workers.toNat
        (tileOf p.tile (p.batchBytes / p.io / p.workers.setWidth 64)).toNat ∧
    indexNat (workerNat tid.toNat p.workers.toNat p.transpose) i.toNat p.workers.toNat
        (tileOf p.tile (p.batchBytes / p.io / p.workers.setWidth 64)).toNat < batchPages p := by
  obtain ⟨hpos, hdvd⟩ := h.tile_ok
  obtain ⟨-, hn, -⟩ := h.worker_ok ht
  have hw := workerNat_lt h.warps ht
  have hdiv : (p.batchBytes / p.io).toNat / (p.workers.setWidth 64).toNat = perWorker p := by
    rw [BitVec.toNat_udiv, workers_toNat]
    rfl
  obtain ⟨hc, he⟩ := @aeIndex_eq (aeWorker (tid.setWidth 64) (p.workers.setWidth 64) p.transpose)
    (p.workers.setWidth 64) i (p.batchBytes / p.io) p.tile
    hpos (by rw [hdiv]; exact hdvd) (by rw [hn, workers_toNat]; exact hw) (by rw [hdiv]; exact hi)
  rw [hn, workers_toNat] at he
  refine ⟨hc, he, ?_⟩
  have := indexNat_lt hpos hdvd hw hi
  rwa [h.pages_eq] at this

theorem pages_two_pow : ∃ m < 64, (p.batchBytes / p.io).toNat = 2^m ∧ batchPages p = 2^m := by
  obtain ⟨m, hm⟩ := h.batch.pages_eq
  have hlt := (p.batchBytes / p.io).isLt
  rw [BitVec.toNat_udiv, hm] at hlt
  refine ⟨m, (Nat.pow_lt_pow_iff_right (by omega)).mp hlt, ?_, hm⟩
  rw [BitVec.toNat_udiv, hm]

/-- The page of an iteration lies in the batch, and nothing wraps on the way to its address. -/
theorem pageOf_ok (ht : tid.toNat < p.workers.toNat) (hi : i.toNat < perWorker p) :
    (pageOf p tid i).toNat < batchPages p ∧
      ∀ base : BitVec 64, base.toNat + p.batchBytes.toNat < 2^64 →
        addressChecked p base tid i = some (address p base tid i) := by
  obtain ⟨hwc, -, hws⟩ := h.worker_ok ht
  obtain ⟨hic, hie, hlt⟩ := h.index_ok ht hi
  obtain ⟨m, hm, hp, hp'⟩ := h.pages_two_pow
  have hpage : (pageOf p tid i).toNat < batchPages p := by
    unfold pageOf
    simp only [hws]
    rw [hp'] at hlt ⊢
    exact aePage_lt hm hp (hie ▸ hlt)
  refine ⟨hpage, fun base hbase => ?_⟩
  have hdist : (pageOf p tid i).toNat * p.io.toNat + p.io.toNat ≤ p.batchBytes.toNat := by
    rw [← h.batch_eq, ← Nat.succ_mul]
    exact Nat.mul_le_mul_right _ hpage
  obtain ⟨hmul, hmul'⟩ := mul64_eq (x := pageOf p tid i) (y := p.io) (by omega)
  obtain ⟨hadd, -⟩ := add64_eq (x := base) (y := pageOf p tid i * p.io) (by rw [hmul']; omega)
  unfold addressChecked address
  unfold pageOf at hmul hadd
  simp only [hws] at hmul hadd ⊢
  simp only [hwc, hws, hic, hmul, hadd, bind, Option.bind]

theorem pageOf_inj (ht : tid.toNat < p.workers.toNat) (hi : i.toNat < perWorker p)
    (ht' : tid'.toNat < p.workers.toNat) (hi' : i'.toNat < perWorker p)
    (he : pageOf p tid i = pageOf p tid' i') : tid = tid' ∧ i = i' := by
  obtain ⟨-, -, hws⟩ := h.worker_ok ht
  obtain ⟨-, -, hws'⟩ := h.worker_ok ht'
  obtain ⟨-, hie, hlt⟩ := h.index_ok ht hi
  obtain ⟨-, hie', hlt'⟩ := h.index_ok ht' hi'
  obtain ⟨m, hm, hp, hp'⟩ := h.pages_two_pow
  unfold pageOf at he
  simp only [hws, hws'] at he
  rw [hp'] at hlt hlt'
  have hindex := congrArg BitVec.toNat (aePage_inj hm hp (hie ▸ hlt) (hie' ▸ hlt') he)
  rw [hie, hie'] at hindex
  obtain ⟨hw, hit⟩ := indexNat_inj h.tile_ok.1 (workerNat_lt h.warps ht)
    (workerNat_lt h.warps ht') hindex
  exact ⟨BitVec.eq_of_toNat_eq (workerNat_inj h.warps ht ht' hw), BitVec.eq_of_toNat_eq hit⟩

/-- A launch as a grid of workers and iterations: the other threads return at once. -/
theorem launch_eq (base : BitVec 64) : launch p base =
    (List.range p.workers.toNat).flatMap fun tid => (List.range (perWorker p)).map fun i =>
      base + pageOf p (BitVec.ofNat 32 tid) (BitVec.ofNat 64 i) * p.io := by
  have hW := h.workers_le
  have hgrid : ∃ r, ((p.workers + 127#32) / 128#32 * 128#32).toNat = p.workers.toNat + r ∧
      p.workers.toNat + r < 2^32 := by
    have h₁ : (p.workers + 127#32).toNat = p.workers.toNat + 127 :=
      BitVec.toNat_add_of_lt (by change p.workers.toNat + 127 < 2^32; omega)
    have h₂ : ((p.workers + 127#32) / 128#32).toNat = (p.workers.toNat + 127) / 128 := by
      rw [BitVec.toNat_udiv, h₁]
      rfl
    have h₃ : ((p.workers + 127#32) / 128#32 * 128#32).toNat =
        (p.workers.toNat + 127) / 128 * 128 := by
      rw [BitVec.toNat_mul_of_lt (by rw [h₂]; change _ * 128 < 2^32; omega), h₂]
      rfl
    exact ⟨(p.workers.toNat + 127) / 128 * 128 - p.workers.toNat, by omega⟩
  obtain ⟨r, hr, hlt⟩ := hgrid
  have hnone : ((List.range r).map (p.workers.toNat + ·)).flatMap
      (fun tid => transfer p base (BitVec.ofNat 32 tid)) = [] := by
    rw [List.flatMap_eq_nil_iff]
    intro tid htid
    obtain ⟨x, hx, rfl⟩ := List.mem_map.mp htid
    have := List.mem_range.mp hx
    refine if_pos (BitVec.le_def.mpr ?_)
    rw [BitVec.toNat_ofNat, Nat.mod_eq_of_lt (by omega)]
    exact Nat.le_add_right _ _
  unfold launch
  rw [hr, List.range_add, List.flatMap_append, hnone, List.append_nil]
  refine List.flatMap_congr fun tid htid => ?_
  have hlt' := List.mem_range.mp htid
  have hrun : ¬ p.workers ≤ BitVec.ofNat 32 tid := by
    rw [BitVec.le_def, BitVec.toNat_ofNat, Nat.mod_eq_of_lt (by omega)]
    omega
  unfold transfer
  rw [if_neg hrun]
  simp only [perWorker_toNat]
  rfl

theorem launch_perm (base : BitVec 64) : (launch p base).Perm
    ((List.range (batchPages p)).map fun k => base + BitVec.ofNat 64 k * p.io) := by
  have htid {t : Nat} (ht : t < p.workers.toNat) : (BitVec.ofNat 32 t).toNat = t := by
    have := p.workers.isLt
    rw [BitVec.toNat_ofNat, Nat.mod_eq_of_lt (by omega)]
  have hiter {i : Nat} (hi : i < perWorker p) : (BitVec.ofNat 64 i).toNat = i := by
    have := (p.batchBytes / p.io / p.workers.setWidth 64).isLt
    rw [perWorker_toNat] at this
    rw [BitVec.toNat_ofNat, Nat.mod_eq_of_lt (by omega)]
  have hgrid : ((List.range p.workers.toNat).flatMap fun t => (List.range (perWorker p)).map
      fun i => (pageOf p (BitVec.ofNat 32 t) (BitVec.ofNat 64 i)).toNat).Perm
        (List.range (batchPages p)) := by
    rw [← h.pages_eq]
    refine perm_grid (fun t ht i hi => ?_) fun t ht i hi t' ht' i' hi' he => ?_
    · rw [h.pages_eq]
      exact (h.pageOf_ok (by rwa [htid ht]) (by rwa [hiter hi])).1
    · obtain ⟨h₁, h₂⟩ := h.pageOf_inj (by rwa [htid ht]) (by rwa [hiter hi]) (by rwa [htid ht'])
        (by rwa [hiter hi']) (BitVec.eq_of_toNat_eq he)
      have h₁' := congrArg BitVec.toNat h₁
      have h₂' := congrArg BitVec.toNat h₂
      rw [htid ht, htid ht'] at h₁'
      rw [hiter hi, hiter hi'] at h₂'
      exact ⟨h₁', h₂'⟩
  have hmap := hgrid.map fun k => base + BitVec.ofNat 64 k * p.io
  rw [List.map_flatMap] at hmap
  simpa only [h.launch_eq, List.map_map, Function.comp_def, BitVec.ofNat_toNat,
    BitVec.setWidth_eq] using hmap

end Accepted

/-- The batch loop with every sum and product outside the mixing of `ae_page` checked. -/
inductive BatchesChecked (p : Params) : BitVec 64 → List (BitVec 64) → Prop where
  | done {batchOffset : BitVec 64} (h : ¬ batchOffset < p.bytes) : BatchesChecked p batchOffset []
  | launch {batchOffset base next : BitVec 64} {rest : List (BitVec 64)} (h : batchOffset < p.bytes)
      (hbase : add64 p.offset batchOffset = some base)
      (hexact : ∀ tid i, tid < p.workers → i.toNat < perWorker p →
        addressChecked p base tid i = some (address p base tid i))
      (hnext : add64 batchOffset p.batchBytes = some next) (hrest : BatchesChecked p next rest) :
      BatchesChecked p batchOffset (launch p base ++ rest)

theorem add64_some {x y z : BitVec 64} (h : add64 x y = some z) : x + y = z := by
  unfold add64 at h
  split at h
  · exact Option.some.inj h
  · cases h

theorem BatchesChecked.batches {b : BitVec 64} {l : List (BitVec 64)} (h : BatchesChecked p b l) :
    Batches p b l := by
  induction h with
  | done h => exact .done h
  | launch h hbase _ hnext _ ih =>
    rw [← add64_some hbase]
    rw [← add64_some hnext] at ih
    exact .launch h ih

namespace Accepted
variable (h : Accepted p ns)
include h

/-- The address of a page counted from a batch, and counted from the start. -/
theorem batch_address (j k : Nat) :
    p.offset + BitVec.ofNat 64 (j * p.batchBytes.toNat) + BitVec.ofNat 64 k * p.io =
      p.offset + BitVec.ofNat 64 (j * batchPages p + k) * p.io := by
  have hio : BitVec.ofNat 64 p.io.toNat = p.io := by
    rw [BitVec.ofNat_toNat, BitVec.setWidth_eq]
  rw [← h.batch_eq, ← Nat.mul_assoc, BitVec.ofNat_mul, hio, BitVec.ofNat_add, BitVec.add_mul,
    BitVec.add_assoc]

theorem batches_from (d j : Nat) (hj : (j + d) * p.batchBytes.toNat = p.bytes.toNat) :
    ∃ l, BatchesChecked p (BitVec.ofNat 64 (j * p.batchBytes.toNat)) l ∧
      l.Perm ((List.range (d * batchPages p)).map fun k =>
        p.offset + BitVec.ofNat 64 (j * batchPages p + k) * p.io) := by
  have hend := h.whole.end_lt
  have hpos := h.batch.bytes_pos
  induction d generalizing j with
  | zero =>
    rw [Nat.add_zero] at hj
    refine ⟨[], .done ?_, by simp⟩
    rw [BitVec.lt_def, BitVec.toNat_ofNat, Nat.mod_eq_of_lt (by omega)]
    omega
  | succ d ih =>
    have hj' : (j + 1 + d) * p.batchBytes.toNat = p.bytes.toNat := by
      rw [← hj, Nat.add_assoc, Nat.add_comm 1 d]
    have hle : j * p.batchBytes.toNat + p.batchBytes.toNat ≤ p.bytes.toNat := by
      rw [← hj', ← Nat.succ_mul]
      exact Nat.mul_le_mul_right _ (by omega)
    have hnat : (BitVec.ofNat 64 (j * p.batchBytes.toNat)).toNat = j * p.batchBytes.toNat := by
      rw [BitVec.toNat_ofNat, Nat.mod_eq_of_lt (by omega)]
    obtain ⟨hbase, hbase'⟩ := add64_eq (x := p.offset)
      (y := BitVec.ofNat 64 (j * p.batchBytes.toNat)) (by rw [hnat]; omega)
    have hnext : add64 (BitVec.ofNat 64 (j * p.batchBytes.toNat)) p.batchBytes =
        some (BitVec.ofNat 64 ((j + 1) * p.batchBytes.toNat)) := by
      rw [(add64_eq (by rw [hnat]; omega)).1, Nat.add_mul, Nat.one_mul, BitVec.ofNat_add,
        BitVec.ofNat_toNat, BitVec.setWidth_eq]
    obtain ⟨rest, hrest, hperm⟩ := ih (j + 1) hj'
    refine ⟨_, .launch ?_ hbase (fun tid i ht hi => ?_) hnext hrest, ?_⟩
    · rw [BitVec.lt_def, hnat]
      omega
    · refine (h.pageOf_ok (BitVec.lt_def.mp ht) hi).2 _ ?_
      rw [hbase', hnat]
      omega
    · have hsplit : (d + 1) * batchPages p = batchPages p + d * batchPages p := by
        rw [Nat.add_mul, Nat.one_mul, Nat.add_comm]
      have hall :=
        (h.launch_perm (p.offset + BitVec.ofNat 64 (j * p.batchBytes.toNat))).append hperm
      simp only [h.batch_address] at hall
      rw [hsplit, List.range_add, List.map_append, List.map_map]
      simpa only [Function.comp_def, Nat.add_mul, Nat.one_mul, Nat.add_assoc] using hall

theorem pages_total : p.bytes.toNat / p.batchBytes.toNat * batchPages p =
    p.bytes.toNat / p.io.toNat := by
  have hb : p.bytes.toNat / p.batchBytes.toNat * batchPages p * p.io.toNat = p.bytes.toNat := by
    rw [Nat.mul_assoc, h.batch_eq, Nat.div_mul_cancel (Nat.dvd_of_mod_eq_zero h.batch_mod)]
  exact (Nat.div_eq_of_eq_mul_left h.io_pos hb.symm).symm

/-- The pages of the transfer lie one after the other from `offset`. -/
theorem page_toNat {k : Nat} (hk : k < p.bytes.toNat / p.io.toNat) :
    (p.offset + BitVec.ofNat 64 k * p.io).toNat = p.offset.toNat + k * p.io.toNat ∧
      k * p.io.toNat + p.io.toNat ≤ p.bytes.toNat := by
  have hend := h.whole.end_lt
  have hle : k * p.io.toNat + p.io.toNat ≤ p.bytes.toNat := by
    rw [← Nat.succ_mul, ← Nat.div_mul_cancel (Nat.dvd_of_mod_eq_zero h.whole.bytes_mod)]
    exact Nat.mul_le_mul_right _ hk
  have hk' : k ≤ k * p.io.toNat := Nat.le_mul_of_pos_right k h.io_pos
  have hnat : (BitVec.ofNat 64 k).toNat = k := by
    rw [BitVec.toNat_ofNat, Nat.mod_eq_of_lt (by omega)]
  have hmul := (mul64_eq (x := BitVec.ofNat 64 k) (y := p.io) (by rw [hnat]; omega)).2
  rw [hnat] at hmul
  have hadd := (add64_eq (x := p.offset) (y := BitVec.ofNat 64 k * p.io) (by rw [hmul]; omega)).2
  rw [hmul] at hadd
  exact ⟨hadd, hle⟩

theorem blk_dvd : 2^ns.blkLog ∣ p.io.toNat := by
  have hle := h.blk_le
  have hpow (e : Nat) (he : p.io.toNat = 2^e) : 2^ns.blkLog ∣ p.io.toNat := by
    rw [he] at hle ⊢
    exact Nat.pow_dvd_pow 2 ((Nat.pow_le_pow_iff_right (by omega)).mp hle)
  rcases h.whole.io_eq with he | he
  · exact hpow 12 he
  · exact hpow 16 he

theorem blocks_fit {k : Nat} (hk : k < p.bytes.toNat / p.io.toNat) :
    ((p.offset + BitVec.ofNat 64 k * p.io) >>> ns.blkLog).toNat + (p.io >>> ns.blkLog).toNat ≤
      ns.size.toNat := by
  obtain ⟨hnat, hle⟩ := h.page_toNat hk
  have hblk : 2^ns.blkLog ∣ p.io.toNat := h.blk_dvd
  have hoff : 2^ns.blkLog ∣ p.offset.toNat := hblk.trans (Nat.dvd_of_mod_eq_zero h.whole.offset_mod)
  have hk' : 2^ns.blkLog ∣ k * p.io.toNat := Dvd.dvd.mul_left hblk k
  rw [BitVec.toNat_ushiftRight, BitVec.toNat_ushiftRight, Nat.shiftRight_eq_div_pow,
    Nat.shiftRight_eq_div_pow, hnat]
  calc (p.offset.toNat + k * p.io.toNat) / 2^ns.blkLog + p.io.toNat / 2^ns.blkLog
      = p.offset.toNat / 2^ns.blkLog + (k * p.io.toNat + p.io.toNat) / 2^ns.blkLog := by
        rw [Nat.add_div_of_dvd_right hoff, Nat.add_div_of_dvd_right hk', Nat.add_assoc]
    _ ≤ p.offset.toNat / 2^ns.blkLog + p.bytes.toNat / 2^ns.blkLog :=
        Nat.add_le_add_left (Nat.div_le_div_right hle) _
    _ ≤ ns.size.toNat := h.fits

end Accepted
end launches

/-- The requests of every workload that passes the checks: the loop of launches ends with
nothing wrapped, it has requested every page of the transfer once and nothing else, and
every request lies inside the namespace. -/
theorem workload_covers (p : Params) (ns : Namespace) (h : check p ns = .ok ()) :
    ∃ issued, Batches p 0#64 issued ∧ BatchesChecked p 0#64 issued ∧
      issued.Perm ((List.range (p.bytes.toNat / p.io.toNat)).map fun k =>
        p.offset + BitVec.ofNat 64 k * p.io) ∧
      (∀ k < p.bytes.toNat / p.io.toNat, (p.offset + BitVec.ofNat 64 k * p.io).toNat =
        p.offset.toNat + k * p.io.toNat) ∧
      ∀ a ∈ issued, (a >>> ns.blkLog).toNat + (p.io >>> ns.blkLog).toNat ≤ ns.size.toNat := by
  have hacc := accepted_of_ok h
  obtain ⟨issued, hrun, hperm⟩ := hacc.batches_from (p.bytes.toNat / p.batchBytes.toNat) 0 (by
    rw [Nat.zero_add, Nat.div_mul_cancel (Nat.dvd_of_mod_eq_zero hacc.batch_mod)])
  rw [Nat.zero_mul] at hrun
  simp only [Nat.zero_mul, Nat.zero_add, hacc.pages_total] at hperm
  refine ⟨issued, hrun.batches, hrun, hperm, fun k hk => (hacc.page_toNat hk).1, fun a ha => ?_⟩
  obtain ⟨k, hk, rfl⟩ := List.mem_map.mp (hperm.mem_iff.mp ha)
  exact hacc.blocks_fit (List.mem_range.mp hk)

def fourPages : Params where
  bytes := 0x4000
  io := 0x1000
  batchBytes := 0x4000
  tile := 1
  offset := 0x1000
  seed := 133
  threads := 2
  order := some .linear
  random := true
  latency := false

theorem four_pages_covered : check fourPages ⟨40, 9⟩ = .ok () ∧
    ∃ issued, Batches fourPages 0#64 issued ∧
      issued.Perm [0x1000#64, 0x2000#64, 0x3000#64, 0x4000#64] := by
  have hok : check fourPages ⟨40, 9⟩ = .ok () := by decide +kernel
  obtain ⟨issued, hrun, -, hperm, -⟩ := workload_covers fourPages ⟨40, 9⟩ hok
  exact ⟨hok, issued, hrun, hperm⟩

end Shaper.Workload
