import Shaper.Lib.BucketSort
import Shaper.Lib.Warp
import Shaper.Request

/-! The two radix sorts of the write kernel: `io_sched_radix_sort`, whose thread 0
scatters, and `io_sched_radix_sort_v2`, whose 128 threads claim their places warp
by warp. Counters are counts here: `N` is at most `2^31`. -/
namespace Shaper.RadixSort
open Lib.BucketSort Lib.Warp Request Function

structure Buf where
  keys : Nat → BitVec 64
  vals : Nat → BitVec 32

def Buf.get (b : Buf) (p : Nat) : BitVec 64 × BitVec 32 := (b.keys p, b.vals p)

def Buf.set (b : Buf) (p : Nat) (key : BitVec 64) (val : BitVec 32) : Buf :=
  ⟨update b.keys p key, update b.vals p val⟩

def digitOf (shift : Nat) (key : BitVec 64) : Nat := ((key >>> shift) &&& 0xFF#64).toNat

def histogram (digit : Nat → Nat) (N : Nat) : Nat → Nat :=
  (List.range N).foldl (fun h i => update h (digit i) (h (digit i) + 1)) fun _ => 0

def prefixSum (hist : Nat → Nat) : Nat → Nat :=
  ((List.range 256).foldl (fun (s, h) d => (s + h d, update h d s)) (0, hist)).2

def serialStep (src : Buf) (digit : Nat → Nat) (s : (Nat → Nat) × Buf) (i : Nat) :
    (Nat → Nat) × Buf :=
  (update s.1 (digit i) (s.1 (digit i) + 1), s.2.set (s.1 (digit i)) (src.keys i) (src.vals i))

def scatterSerial (src : Buf) (digit : Nat → Nat) (N : Nat) (hist : Nat → Nat) (dst : Buf) : Buf :=
  ((List.range N).foldl (serialStep src digit) (hist, dst)).2

def peerMask (valid : Nat → Bool) (digit : Nat → Nat) (w lane : Nat) : BitVec 32 :=
  matchAny (fun u => valid (32*w+u)) (fun u => digit (32*w+u)) lane

/-- A lane of warp `w` in its turn: the first of its peers takes places for all of
them. The second table is `my_pos` by thread. -/
def laneClaim (valid : Nat → Bool) (digit : Nat → Nat) (w : Nat)
    (s : (Nat → Nat) × (Nat → Nat)) (lane : Nat) : (Nat → Nat) × (Nat → Nat) :=
  let peers := peerMask valid digit w lane
  let d := digit (32*w+lane)
  if valid (32*w+lane) = true ∧ popc (peers &&& laneMaskLt lane) = 0 then
    (update s.1 d (s.1 d + popc peers), update s.2 (32*w+lane) (s.1 d))
  else s

def warpClaim (valid : Nat → Bool) (digit : Nat → Nat) (s : (Nat → Nat) × (Nat → Nat)) (w : Nat) :
    (Nat → Nat) × (Nat → Nat) :=
  (List.range 32).foldl (laneClaim valid digit w) s

def claims (valid : Nat → Bool) (digit : Nat → Nat) (hist : Nat → Nat) :
    (Nat → Nat) × (Nat → Nat) :=
  (List.range 4).foldl (warpClaim valid digit) (hist, fun _ => 0)

def target (valid : Nat → Bool) (digit : Nat → Nat) (pos : Nat → Nat) (t : Nat) : Nat :=
  let peers := peerMask valid digit (t/32) (t%32)
  pos (32*(t/32) + (ffs peers - 1)) + popc (peers &&& laneMaskLt (t%32))

def scatterChunk (src : Buf) (digit : Nat → Nat) (N : Nat) (s : (Nat → Nat) × Buf) (chunk : Nat) :
    (Nat → Nat) × Buf :=
  let valid := fun t => decide (chunk + t < N)
  let dig := fun t => if chunk + t < N then digit (chunk+t) else 0
  let c := claims valid dig s.1
  (c.1, (List.range kSchedThreads).foldl
    (fun out t => if chunk + t < N then
        out.set (target valid dig c.2 t) (src.keys (chunk+t)) (src.vals (chunk+t))
      else out)
    s.2)

def scatterParallel (src : Buf) (digit : Nat → Nat) (N : Nat) (hist : Nat → Nat) (dst : Buf) :
    Buf :=
  ((List.range ((N + kSchedThreads - 1) / kSchedThreads)).foldl
    (fun s k => scatterChunk src digit N s (kSchedThreads*k)) (hist, dst)).2

def passes (scatter : Buf → (Nat → Nat) → Nat → (Nat → Nat) → Buf → Buf) (N : Nat) :
    Nat → Buf × Buf → Buf × Buf
  | 0, s => s
  | n+1, s =>
    let (src, alt) := passes scatter N n s
    let digit := fun i => digitOf (8*n) (src.keys i)
    (scatter src digit N (prefixSum (histogram digit N)) alt, src)

def home (nPasses : Nat) (s : Buf × Buf) : Buf × Buf := if nPasses % 2 = 0 then s else (s.2, s.1)

def ioSchedRadixSort (buf alt : Buf) (N nPasses : Nat) : Buf × Buf :=
  home nPasses (passes scatterSerial N nPasses (buf, alt))

def ioSchedRadixSortV2 (buf alt : Buf) (N nPasses : Nat) : Buf × Buf :=
  home nPasses (passes scatterParallel N nPasses (buf, alt))

def Buf.pairs (b : Buf) (N : Nat) : List (BitVec 64 × BitVec 32) := (List.range N).map b.get

theorem digitOf_eq (n : Nat) (key : BitVec 64) : digitOf (8*n) key = key.toNat / 256^n % 256 := by
  rw [digitOf, BitVec.toNat_and, BitVec.toNat_ushiftRight, Nat.shiftRight_eq_div_pow, Nat.pow_mul]
  exact Nat.and_two_pow_sub_one_eq_mod _ 8

theorem digitOf_lt (shift : Nat) (key : BitVec 64) : digitOf shift key < 256 := by
  rw [digitOf, BitVec.toNat_and]
  exact Nat.lt_of_le_of_lt Nat.and_le_right (by decide)

theorem histogram_eq (digit : Nat → Nat) (N d : Nat) : histogram digit N d = before digit N d := by
  induction N with
  | zero => rfl
  | succ n ih =>
    unfold histogram before at *
    rw [List.range_succ, List.foldl_append, List.countP_append, ← ih]
    by_cases h : digit n = d
    · simp [h]
    · simp [h, Ne.symm h]

/-- The running sum, and the table with the sums up to `n` in place. -/
theorem prefixSum_fold (hist : Nat → Nat) (n : Nat) :
    (List.range n).foldl (fun (s, h) d => (s + h d, update h d s)) (0, hist) =
      (((List.range n).map hist).sum,
        fun d => if d < n then ((List.range d).map hist).sum else hist d) := by
  induction n with
  | zero => simp
  | succ n ih =>
    rw [List.range_succ, List.foldl_append, ih]
    refine Prod.ext (by simp) (funext fun d => ?_)
    simp only [List.foldl_cons, List.foldl_nil, update_apply]
    by_cases h : d = n
    · simp [h]
    · simp only [if_neg h, show d < n + 1 ↔ d < n by omega]

theorem prefixSum_histogram (digit : Nat → Nat) (N : Nat) {d : Nat} (hd : d < 256) :
    prefixSum (histogram digit N) d = bucketStart digit N d := by
  rw [prefixSum, prefixSum_fold]
  simp only [if_pos hd, bucketStart]
  rw [List.map_congr_left fun e _ => histogram_eq digit N e]

section Scatter
variable {src : Buf} {digit : Nat → Nat} {N : Nat}

def placed (src : Buf) (digit : Nat → Nat) (N n : Nat) (dst : Buf) : Buf :=
  (List.range n).foldl (fun out i => out.set (place digit N i) (src.keys i) (src.vals i)) dst

theorem placed_succ (n : Nat) (dst : Buf) : placed src digit N (n+1) dst =
    (placed src digit N n dst).set (place digit N n) (src.keys n) (src.vals n) := by
  rw [placed, List.range_succ, List.foldl_append]
  rfl

theorem get_placed (n : Nat) (dst : Buf) :
    (placed src digit N n dst).get = scatter (place digit N) n src.get dst.get := by
  induction n with
  | zero => rfl
  | succ n ih =>
    rw [placed_succ, scatter, List.range_succ, List.foldl_append]
    change _ = update (scatter (place digit N) n src.get dst.get) _ _
    rw [← ih]
    funext p
    by_cases h : p = place digit N n
    · simp [Buf.get, Buf.set, h]
    · simp [Buf.get, Buf.set, h]

theorem before_succ (i d : Nat) :
    before digit (i+1) d = before digit i d + if digit i = d then 1 else 0 := by
  rw [before, List.range_succ, List.countP_append]
  simp [before, List.countP_cons]

def Claimed (digit : Nat → Nat) (N n : Nat) (hist : Nat → Nat) : Prop :=
  ∀ d < 256, hist d = bucketStart digit N d + before digit n d

theorem claimed_prefixSum (digit : Nat → Nat) (N : Nat) :
    Claimed digit N 0 (prefixSum (histogram digit N)) :=
  fun _ hd => prefixSum_histogram digit N hd

theorem scatterSerial_eq (hd : ∀ i < N, digit i < 256) {hist : Nat → Nat}
    (hh : Claimed digit N 0 hist) (dst : Buf) :
    scatterSerial src digit N hist dst = placed src digit N N dst := by
  have h : ∀ n ≤ N, Claimed digit N n ((List.range n).foldl (serialStep src digit) (hist, dst)).1 ∧
      ((List.range n).foldl (serialStep src digit) (hist, dst)).2 = placed src digit N n dst := by
    intro n
    induction n with
    | zero => exact fun _ => ⟨hh, rfl⟩
    | succ n ih =>
      intro hn
      obtain ⟨hclaim, hout⟩ := ih (by omega)
      simp only [List.range_succ, List.foldl_append, List.foldl_cons, List.foldl_nil, serialStep]
      refine ⟨fun d hd' => ?_, ?_⟩
      · rw [before_succ, update_apply]
        by_cases h : digit n = d
        · rw [if_pos h.symm, if_pos h, h, hclaim d hd', Nat.add_assoc]
        · rw [if_neg (Ne.symm h), if_neg h, hclaim d hd', Nat.add_zero]
      · rw [hout, hclaim _ (hd n (by omega)), placed_succ]
        rfl
  exact (h N (le_refl _)).2

/-- The places one warp takes: as many of each digit as it has valid lanes with it, for
the first such lane. -/
theorem laneClaim_fold (valid : Nat → Bool) (digit : Nat → Nat) (w : Nat)
    (hist pos : Nat → Nat) (n : Nat) (hn : n ≤ 32) :
    let vote := fun d u => valid (32*w+u) && digit (32*w+u) == d
    ((List.range n).foldl (laneClaim valid digit w) (hist, pos)) =
      (fun d => hist d + if ∃ u < n, vote d u = true then (List.range 32).countP (vote d) else 0,
        fun t => if ∃ u < n, t = 32*w+u ∧ valid t = true ∧ ∀ j < u, vote (digit t) j = false
          then hist (digit t) else pos t) := by
  intro vote
  induction n with
  | zero => simp
  | succ n ih =>
    rw [List.range_succ, List.foldl_append, ih (by omega), List.foldl_cons, List.foldl_nil]
    have hpeers : peerMask valid digit w n = ballot (vote (digit (32*w+n))) := rfl
    simp only [laneClaim, hpeers, popc_and_laneMaskLt _ (show n < 32 by omega), popc_ballot,
      List.countP_eq_zero, List.mem_range, Bool.not_eq_true]
    by_cases h : valid (32*w+n) = true ∧ ∀ j < n, vote (digit (32*w+n)) j = false
    · have hnone : ¬ ∃ u < n, vote (digit (32*w+n)) u = true := by
        rintro ⟨u, hu, hv⟩
        rw [h.2 u hu] at hv
        exact Bool.false_ne_true hv
      have hself : vote (digit (32*w+n)) n = true := by simp [vote, h.1]
      rw [if_pos h, if_neg hnone]
      refine congrArg₂ Prod.mk (funext fun d => ?_) (funext fun t => ?_)
      · rw [update_apply]
        by_cases hd : d = digit (32*w+n)
        · rw [if_pos hd, hd, if_pos ⟨n, Nat.lt_succ_self n, hself⟩, Nat.add_zero]
        · have hn' : vote d n = false := by simp [vote, Ne.symm hd]
          simp only [if_neg hd, Nat.exists_lt_succ_right, hn', Bool.false_eq_true, or_false]
      · rw [update_apply]
        by_cases ht : t = 32*w+n
        · rw [if_pos ht, if_pos ⟨n, Nat.lt_succ_self n, ht, ht ▸ h.1, ht ▸ h.2⟩, ht, Nat.add_zero]
        · simp only [Nat.exists_lt_succ_right, ht, if_false, false_and, or_false]
    · rw [if_neg h]
      refine congrArg₂ Prod.mk (funext fun d => ?_) (funext fun t => ?_)
      · -- a lane that is not the first of its peers adds no digit
        have hn' : vote d n = true → ∃ u < n, vote d u = true := by
          intro hv
          obtain ⟨hvalid, hdig⟩ := Bool.and_eq_true_iff.mp hv
          by_contra hno
          refine h ⟨hvalid, fun j hj => ?_⟩
          rw [beq_iff_eq.mp hdig]
          exact Bool.eq_false_iff.mpr fun hj' => hno ⟨j, hj, hj'⟩
        simp only [Nat.exists_lt_succ_right, or_iff_left_of_imp hn']
      · have hn' : ¬ (t = 32*w+n ∧ valid t = true ∧ ∀ j < n, vote (digit t) j = false) := by
          rintro ⟨rfl, hv⟩
          exact h hv
        simp only [Nat.exists_lt_succ_right, hn', or_false]

theorem exists_leader {valid : Nat → Bool} (digit : Nat → Nat) {t : Nat} (ht : valid t = true) :
    ∃ l < 32, ffs (peerMask valid digit (t/32) (t%32)) = l+1 ∧
      valid (32*(t/32)+l) = true ∧ digit (32*(t/32)+l) = digit t ∧
      ∀ j < l, (valid (32*(t/32)+j) && digit (32*(t/32)+j) == digit t) = false := by
  have hself : 32*(t/32) + t%32 = t := Nat.div_add_mod t 32
  have hex : ∃ l, (valid (32*(t/32)+l) && digit (32*(t/32)+l) == digit t) = true :=
    ⟨t%32, by simp [hself, ht]⟩
  have hl : Nat.find hex < 32 :=
    Nat.lt_of_le_of_lt (Nat.find_min' hex (by simp [hself, ht])) (Nat.mod_lt t (by decide))
  obtain ⟨hv, hd⟩ := Bool.and_eq_true_iff.mp (Nat.find_spec hex)
  have hmin : ∀ j < Nat.find hex,
      (valid (32*(t/32)+j) && digit (32*(t/32)+j) == digit t) = false :=
    fun j hj => Bool.eq_false_iff.mpr (Nat.find_min hex hj)
  refine ⟨Nat.find hex, hl, ?_, hv, beq_iff_eq.mp hd, hmin⟩
  rw [peerMask, matchAny, hself]
  exact ffs_ballot hl (Nat.find_spec hex) hmin

structure Turns (valid : Nat → Bool) (digit hist : Nat → Nat) (n : Nat)
    (s : (Nat → Nat) × (Nat → Nat)) : Prop where
  hist_eq : ∀ d, s.1 d = hist d + (List.range (32*n)).countP fun u => valid u && digit u == d
  target_eq : ∀ t < 32*n, valid t = true → target valid digit s.2 t =
    hist (digit t) + (List.range t).countP fun u => valid u && digit u == digit t

theorem Turns.warpClaim {valid : Nat → Bool} {digit hist : Nat → Nat} {n : Nat}
    {s : (Nat → Nat) × (Nat → Nat)} (h : Turns valid digit hist n s) :
    Turns valid digit hist (n+1) (warpClaim valid digit s n) := by
  have hsplit : ∀ k (p : Nat → Bool), (List.range (32*n+k)).countP p =
      (List.range (32*n)).countP p + (List.range k).countP fun u => p (32*n+u) := by
    intro k p
    rw [List.range_add, List.countP_append, List.countP_map]
    rfl
  rw [RadixSort.warpClaim, laneClaim_fold valid digit n s.1 s.2 32 (le_refl _)]
  refine ⟨fun d => ?_, fun t ht hv => ?_⟩
  · rw [Nat.mul_succ, hsplit, ← Nat.add_assoc, ← h.hist_eq]
    refine congrArg (s.1 d + ·) ?_
    split
    · rfl
    · rename_i hno
      refine (List.countP_eq_zero.mpr fun u hu hvote => hno ⟨u, List.mem_range.mp hu, hvote⟩).symm
  · obtain ⟨l, hl, hffs, hvl, hdl, hmin⟩ := exists_leader digit hv
    have hdiv := Nat.div_add_mod t 32
    have hmod := Nat.mod_lt t (show 32 > 0 by decide)
    by_cases hold : t < 32*n
    · rw [← h.target_eq t hold hv]
      simp only [target, hffs, Nat.add_sub_cancel]
      rw [if_neg]
      rintro ⟨u, -, he, -⟩
      omega
    · have hw : t/32 = n := by omega
      have ht' : 32*n + t%32 = t := by omega
      rw [hw] at hffs hvl hdl hmin
      have hrank : popc (peerMask valid digit n (t%32) &&& laneMaskLt (t%32)) =
          (List.range (t%32)).countP fun u => valid (32*n+u) && digit (32*n+u) == digit t := by
        rw [peerMask, matchAny, ht', popc_and_laneMaskLt _ hmod]
      simp only [target, hw, hffs, Nat.add_sub_cancel, hrank]
      rw [if_pos ⟨l, hl, rfl, hvl, fun j hj => hdl ▸ hmin j hj⟩, hdl, h.hist_eq, Nat.add_assoc,
        ← hsplit, ht']

theorem turns_claims (valid : Nat → Bool) (digit hist : Nat → Nat) :
    Turns valid digit hist 4 (claims valid digit hist) :=
  have h0 : Turns valid digit hist 0 (hist, fun _ => 0) :=
    ⟨fun _ => rfl, fun t ht => absurd ht (by omega)⟩
  h0.warpClaim.warpClaim.warpClaim.warpClaim

theorem placed_chunk (c k : Nat) (dst : Buf) :
    (List.range k).foldl (fun out t => if c + t < N then
        out.set (place digit N (c+t)) (src.keys (c+t)) (src.vals (c+t)) else out)
      (placed src digit N (min N c) dst) = placed src digit N (min N (c+k)) dst := by
  induction k with
  | zero => rfl
  | succ k ih =>
    rw [List.range_succ, List.foldl_append, ih, List.foldl_cons, List.foldl_nil]
    split
    · rename_i h
      rw [Nat.min_eq_right h.le, Nat.min_eq_right (show c + (k+1) ≤ N by omega), ← Nat.add_assoc,
        placed_succ]
    · rw [Nat.min_eq_left (by omega), Nat.min_eq_left (by omega)]

/-- How many elements with digit `d` the valid ones among the next `k` are. -/
theorem before_chunk (c k d : Nat) (hc : c ≤ N) : before digit (min N (c+k)) d = before digit c d +
    (List.range k).countP fun u =>
      decide (c+u < N) && (if c+u < N then digit (c+u) else 0) == d := by
  induction k with
  | zero => simp [hc]
  | succ k ih =>
    rw [List.range_succ, List.countP_append, ← Nat.add_assoc (before digit c d), ← ih,
      List.countP_singleton]
    by_cases h : c + k < N
    · rw [Nat.min_eq_right h.le, Nat.min_eq_right (show c + (k+1) ≤ N by omega), ← Nat.add_assoc,
        before_succ]
      simp [h]
    · rw [Nat.min_eq_left (by omega), Nat.min_eq_left (by omega)]
      simp [h]

theorem scatterChunk_placed (hd : ∀ i < N, digit i < 256) {c : Nat} {s : (Nat → Nat) × Buf}
    {dst : Buf}
    (hc : c ≤ N) (hclaim : Claimed digit N c s.1) (hout : s.2 = placed src digit N c dst) :
    Claimed digit N (min N (c+128)) (scatterChunk src digit N s c).1 ∧
      (scatterChunk src digit N s c).2 = placed src digit N (min N (c+128)) dst := by
  have hturns := turns_claims (fun t => decide (c + t < N))
    (fun t => if c + t < N then digit (c+t) else 0) s.1
  refine ⟨fun d hd' => ?_, ?_⟩
  · rw [before_chunk c 128 d hc, ← Nat.add_assoc, ← hclaim d hd']
    exact hturns.hist_eq d
  · rw [← placed_chunk, Nat.min_eq_right hc, ← hout]
    refine List.foldl_ext _ _ _ fun out t ht => ?_
    have ht' := List.mem_range.mp ht
    split
    · rename_i hv
      have htarget := hturns.target_eq t ht' (decide_eq_true hv)
      rw [htarget]
      simp only [if_pos hv]
      have hplace : place digit N (c+t) = s.1 (digit (c+t)) + (List.range t).countP fun u =>
          decide (c+u < N) && (if c+u < N then digit (c+u) else 0) == digit (c+t) := by
        rw [hclaim _ (hd _ hv), Nat.add_assoc, ← before_chunk c t _ hc, Nat.min_eq_right hv.le]
        rfl
      rw [hplace]
    · rfl

theorem scatterParallel_eq (hd : ∀ i < N, digit i < 256) {hist : Nat → Nat}
    (hh : Claimed digit N 0 hist) (dst : Buf) :
    scatterParallel src digit N hist dst = placed src digit N N dst := by
  have h : ∀ n, 128*n < N + 128 →
      Claimed digit N (min N (128*n)) ((List.range n).foldl
        (fun s k => scatterChunk src digit N s (kSchedThreads*k)) (hist, dst)).1 ∧
      ((List.range n).foldl (fun s k => scatterChunk src digit N s (kSchedThreads*k)) (hist,
        dst)).2 =
        placed src digit N (min N (128*n)) dst := by
    intro n
    induction n with
    | zero => exact fun _ => by simpa using ⟨hh, rfl⟩
    | succ n ih =>
      intro hn
      have hle : 128*n ≤ N := by omega
      obtain ⟨hclaim, hout⟩ := ih (by omega)
      rw [Nat.min_eq_right hle] at hclaim hout
      rw [List.range_succ, List.foldl_append, List.foldl_cons, List.foldl_nil]
      exact scatterChunk_placed hd hle hclaim hout
  have hrounds : 128 * ((N + kSchedThreads - 1) / kSchedThreads) < N + 128 ∧
      N ≤ 128 * ((N + kSchedThreads - 1) / kSchedThreads) := by
    simp only [kSchedThreads]
    omega
  have := (h _ hrounds.1).2
  rwa [Nat.min_eq_left hrounds.2] at this

end Scatter

section Passes
variable {scatter : Buf → (Nat → Nat) → Nat → (Nat → Nat) → Buf → Buf}

def Stable (scatter : Buf → (Nat → Nat) → Nat → (Nat → Nat) → Buf → Buf) : Prop :=
  ∀ src digit N dst, (∀ i < N, digit i < 256) →
    scatter src digit N (prefixSum (histogram digit N)) dst = placed src digit N N dst

theorem stable_serial : Stable scatterSerial :=
  fun _ _ _ dst hd => scatterSerial_eq hd (claimed_prefixSum _ _) dst

theorem stable_parallel : Stable scatterParallel :=
  fun _ _ _ dst hd => scatterParallel_eq hd (claimed_prefixSum _ _) dst

theorem pairs_placed {src : Buf} {N : Nat} (shift : Nat) (dst : Buf) :
    (placed src (fun i => digitOf shift (src.keys i)) N N dst).pairs N =
      bucketSort (fun kv => digitOf shift kv.1) 256 (src.pairs N) := by
  rw [Buf.pairs, get_placed, scatter_place fun i _ => digitOf_lt _ _, Buf.pairs, map_bucketSort]
  rfl

theorem pairs_passes (hs : Stable scatter) (N n : Nat) (s : Buf × Buf) :
    ((passes scatter N n s).1).pairs N = lsd (fun kv => kv.1.toNat) 256 n (s.1.pairs N) := by
  induction n with
  | zero => rfl
  | succ n ih =>
    rw [passes]
    simp only
    rw [hs _ _ _ _ fun i _ => digitOf_lt _ _, pairs_placed, ih, lsd]
    simp only [digitOf_eq]

/-- Both sorts leave the stable order in the caller's buffers. -/
theorem pairs_sort (hs : Stable scatter) {N n : Nat} (hn : n % 2 = 0) (buf alt : Buf) :
    (home n (passes scatter N n (buf, alt))).1.pairs N =
      lsd (fun kv => kv.1.toNat) 256 n (buf.pairs N) := by
  rw [home, if_pos hn, pairs_passes hs]

theorem passes_beyond (hs : Stable scatter) {N p : Nat} (hp : N ≤ p) (n : Nat) (s : Buf × Buf) :
    (home n (passes scatter N n s)).1.get p = s.1.get p ∧
      (home n (passes scatter N n s)).2.get p = s.2.get p := by
  induction n with
  | zero => exact ⟨rfl, rfl⟩
  | succ n ih =>
    rw [passes]
    simp only
    rw [hs _ _ _ _ fun i _ => digitOf_lt _ _]
    have hkept :=
      scatter_place_beyond (fun i (_ : i < N) => digitOf_lt (8*n) ((passes scatter N n s).1.keys i))
      (passes scatter N n s).1.get (passes scatter N n s).2.get hp
    rw [← get_placed] at hkept
    -- the pointers change places, and so does the buffer that is home
    rcases Nat.mod_two_eq_zero_or_one n with h | h
    · rw [home, if_pos h] at ih
      rw [home, if_neg (by omega)]
      exact ⟨ih.1, hkept.trans ih.2⟩
    · rw [home, if_neg (by omega)] at ih
      rw [home, if_pos (by omega)]
      exact ⟨hkept.trans ih.1, ih.2⟩

/-- Two scatters that move every element to its place make the same sort. -/
theorem passes_eq {scatter' : Buf → (Nat → Nat) → Nat → (Nat → Nat) → Buf → Buf}
    (hs : Stable scatter)
    (hs' : Stable scatter') (N n : Nat) (s : Buf × Buf) :
    passes scatter N n s = passes scatter' N n s := by
  induction n with
  | zero => rfl
  | succ n ih =>
    rw [passes, passes, ih]
    simp only
    rw [hs _ _ _ _ fun i _ => digitOf_lt _ _, hs' _ _ _ _ fun i _ => digitOf_lt _ _]

end Passes

structure StableSorted (key : BitVec 64 × BitVec 32 → Nat)
    (old new : List (BitVec 64 × BitVec 32)) : Prop where
  perm : new.Perm old
  sorted : new.Pairwise fun x y => key x ≤ key y
  stable : ∀ k, new.filter (fun x => key x == k) = old.filter fun x => key x == k

theorem stableSorted_lsd (l : List (BitVec 64 × BitVec 32)) :
    StableSorted (fun kv => kv.1.toNat % 2^48) l (lsd (fun kv => kv.1.toNat) 256 6 l) where
  perm := lsd_perm (by decide) 6 l
  sorted := lsd_pairwise (b := 256) 6 l
  stable k := lsd_filter (b := 256) (by decide) 6 k l

theorem StableSorted.congr {key key' : BitVec 64 × BitVec 32 → Nat}
    {old new : List (BitVec 64 × BitVec 32)}
    (h : StableSorted key old new) (hkey : ∀ x ∈ old, key x = key' x) :
    StableSorted key' old new where
  perm := h.perm
  sorted := by
    refine h.sorted.imp_of_mem fun hx hy hle => ?_
    rwa [← hkey _ (h.perm.mem_iff.mp hx), ← hkey _ (h.perm.mem_iff.mp hy)]
  stable k := by
    have hnew : new.filter (fun x => key' x == k) = new.filter fun x => key x == k :=
      List.filter_congr fun x hx => by rw [hkey x (h.perm.mem_iff.mp hx)]
    have hold : old.filter (fun x => key' x == k) = old.filter fun x => key x == k :=
      List.filter_congr fun x hx => by rw [hkey x hx]
    rw [hnew, hold, h.stable]

/-- The six passes leave the stable order by the low 48 bits in the caller's buffers, by
the whole key where the keys are short, and touch no cell at or beyond `N`. -/
theorem radix_sort_stable (buf alt : Buf) (N : Nat) :
    StableSorted (fun kv => kv.1.toNat % 2^48) (buf.pairs N)
    ((ioSchedRadixSort buf alt N 6).1.pairs N) ∧
      ((∀ i < N, (buf.keys i).toNat < 2^48) →
        StableSorted (fun kv => kv.1.toNat) (buf.pairs N)
        ((ioSchedRadixSort buf alt N 6).1.pairs N)) ∧
      ∀ p ≥ N, (ioSchedRadixSort buf alt N 6).1.get p = buf.get p ∧
        (ioSchedRadixSort buf alt N 6).2.get p = alt.get p := by
  have hlow : StableSorted (fun kv => kv.1.toNat % 2^48) (buf.pairs N)
      ((ioSchedRadixSort buf alt N 6).1.pairs N) := by
    rw [ioSchedRadixSort, pairs_sort stable_serial rfl]
    exact stableSorted_lsd _
  refine ⟨hlow, fun hshort => hlow.congr fun kv hkv => ?_,
    fun p hp => passes_beyond stable_serial hp 6 _⟩
  obtain ⟨i, hi, rfl⟩ := List.mem_map.mp hkv
  exact Nat.mod_eq_of_lt (hshort i (List.mem_range.mp hi))

/-- Two equal keys after a larger one. -/
theorem three_pairs_sorted :
    StableSorted (fun kv => kv.1.toNat) [(7#64, 0#32), (3#64, 1#32), (3#64, 2#32)]
      ((ioSchedRadixSort ⟨fun i => if i = 0 then 7#64 else 3#64, fun i => BitVec.ofNat 32 i⟩
        ⟨fun _ => 0#64, fun _ => 0#32⟩ 3 6).1.pairs 3) :=
  (radix_sort_stable ⟨fun i => if i = 0 then 7#64 else 3#64, fun i => BitVec.ofNat 32 i⟩
    ⟨fun _ => 0#64, fun _ => 0#32⟩ 3).2.1 (by decide)

/-- The warps claim their places so that the result is that of thread 0 alone, whatever
the number of passes. -/
theorem radix_sort_v2_eq (buf alt : Buf) (N nPasses : Nat) :
    ioSchedRadixSortV2 buf alt N nPasses = ioSchedRadixSort buf alt N nPasses := by
  unfold ioSchedRadixSortV2 ioSchedRadixSort
  rw [passes_eq stable_parallel stable_serial]

end Shaper.RadixSort
