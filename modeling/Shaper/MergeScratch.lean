import Shaper.ReadScheduler

/-! The scratch space of the parallel merge: step 1b writes the refined list of starts
behind the list of boundaries, in the same array. -/
namespace Shaper.MergeScratch
open Function Lib.Segments Request PrpBuild Merge KeySort ReadScheduler

/-- `dst[refined++] = v` with `dst = g_starts + n`, when the array has `cap` cells. -/
def pushIn (cap n : Nat) (s : (Nat → Nat) × Nat) (v : Nat) : Option ((Nat → Nat) × Nat) :=
  if n + s.2 < cap then some (pushAt n s v) else none

def copyIn (cap n : Nat) (m : Nat → Nat) (i : Nat) : Option (Nat → Nat) :=
  if i < cap then some (update m i (m (n+i))) else none

def resplitIn (cap : Nat) (parts : Nat → Nat → List Nat) (N : Nat) (s : (Nat → Nat) × Nat) :
    Option ((Nat → Nat) × Nat) := do
  let n := s.2
  let r ← (List.range n).foldlM
    (fun r i => (parts (r.1 i) (endOf r.1 n N i)).foldlM (pushIn cap n) r) (s.1, 0)
  let m ← (List.range r.2).foldlM (copyIn cap n) r.1
  return (m, r.2)

def splitIn (cap : Nat) (b : Batch) (N : Nat) (s : (Nat → Nat) × Nat) :
    Option ((Nat → Nat) × Nat) :=
  let oversized := (List.range s.2).countP fun i =>
    BitVec.ofNat 64 kSchedMergeTarget < b.runBytes (s.1 i) (endOf s.1 s.2 N i)
  if oversized = 0 then some s else resplitIn cap (pieces b) N s

def readSplitIn (sh : Shared) (batch : Nat) (s : (Nat → Nat) × Nat) : Option ((Nat → Nat) × Nat) :=
  let oversized := (List.range s.2).countP fun i => readOversized sh (s.1 i) (endOf s.1 s.2 batch i)
  if oversized = 0 then some s else resplitIn kSchedMaxBatch (readPieces sh) batch s

variable {cap n N : Nat} {s : (Nat → Nat) × Nat}

theorem foldl_pushAt_snd (n : Nat) (s : (Nat → Nat) × Nat) (vs : List Nat) :
    (vs.foldl (pushAt n) s).2 = s.2 + vs.length := by
  induction vs generalizing s with
  | nil => rfl
  | cons v vs ih =>
    rw [List.foldl_cons, ih, List.length_cons]
    change s.2 + 1 + vs.length = _
    omega

theorem foldlM_pushIn (hs : n + s.2 ≤ cap) (vs : List Nat) : vs.foldlM (pushIn cap n) s =
    if n + s.2 + vs.length ≤ cap then some (vs.foldl (pushAt n) s) else none := by
  induction vs generalizing s with
  | nil => exact (if_pos hs).symm
  | cons v vs ih =>
    rw [List.foldlM_cons, pushIn]
    by_cases hlt : n + s.2 < cap
    · rw [if_pos hlt]
      change vs.foldlM (pushIn cap n) (pushAt n s v) = _
      rw [ih (show n + (s.2 + 1) ≤ cap by omega)]
      refine if_congr ?_ rfl rfl
      rw [List.length_cons]
      change n + (s.2 + 1) + vs.length ≤ cap ↔ _
      omega
    · rw [if_neg hlt, if_neg (by rw [List.length_cons]; omega)]
      rfl

theorem foldlM_copyIn {m : Nat → Nat} {r : Nat} (hr : r ≤ cap) :
    (List.range r).foldlM (copyIn cap n) m =
    some ((List.range r).foldl (fun m i => update m i (m (n+i))) m) := by
  induction r with
  | zero => rfl
  | succ r ih =>
    rw [List.range_succ, List.foldlM_append, ih (by omega), List.foldl_append]
    change (copyIn cap n _ r >>= pure) = _
    rw [copyIn, if_pos (by omega)]
    rfl

def written (parts : Nat → Nat → List Nat) (N : Nat) (s : (Nat → Nat) × Nat) (m : Nat) :
    (Nat → Nat) × Nat :=
  (List.range m).foldl (fun r i => (parts (r.1 i) (endOf r.1 s.2 N i)).foldl (pushAt s.2) r) (s.1,
    0)

theorem written_succ (parts : Nat → Nat → List Nat) (m : Nat) : written parts N s (m+1) =
    (parts ((written parts N s m).1 m) (endOf (written parts N s m).1 s.2 N m)).foldl (pushAt s.2)
      (written parts N s m) := by
  rw [written, List.range_succ, List.foldl_append]
  rfl

theorem foldlM_parts (parts : Nat → Nat → List Nat) (hn : s.2 ≤ cap) (m : Nat) :
    (List.range m).foldlM
        (fun r i => (parts (r.1 i) (endOf r.1 s.2 N i)).foldlM (pushIn cap s.2) r) (s.1, 0) =
      if s.2 + (written parts N s m).2 ≤ cap then some (written parts N s m) else none := by
  induction m with
  | zero => exact (if_pos hn).symm
  | succ m ih =>
    rw [List.range_succ, List.foldlM_append, ih, written_succ]
    generalize written parts N s m = r
    rw [foldl_pushAt_snd]
    by_cases hr : s.2 + r.2 ≤ cap
    · rw [if_pos hr]
      change ((parts (r.1 m) (endOf r.1 s.2 N m)).foldlM (pushIn cap s.2) r >>= pure) = _
      rw [bind_pure, foldlM_pushIn hr, Nat.add_assoc]
    · rw [if_neg hr, if_neg (by omega)]
      rfl

/-- Step 1b stays in the array just if the old list and the new one fit in it together. -/
theorem resplitIn_eq (parts : Nat → Nat → List Nat) (hn : s.2 ≤ cap) : resplitIn cap parts N s =
    if s.2 + (resplit parts N s).2 ≤ cap then some (resplit parts N s) else none := by
  have hres : resplit parts N s = ((List.range (written parts N s s.2).2).foldl
    (fun m i => update m i (m (s.2+i))) (written parts N s s.2).1, (written parts N s s.2).2) := rfl
  rw [hres]
  simp only [resplitIn]
  rw [foldlM_parts parts hn]
  generalize written parts N s s.2 = r
  by_cases hr : s.2 + r.2 ≤ cap
  · rw [if_pos hr, if_pos hr]
    change ((List.range r.2).foldlM (copyIn cap s.2) r.1 >>= fun m => pure (m, r.2)) = _
    rw [foldlM_copyIn (by omega)]
    rfl
  · rw [if_neg hr, if_neg hr]
    rfl

def Roomy (b : Batch) (N T cap : Nat) : Prop :=
  (∀ p < N, sinceBoundary b N p < T) ∨
    (List.range N).countP (b.isBoundary N) +
      (List.range N).countP (fun p => sinceBoundary b N p % T == 0) ≤ cap

theorem detect_snd {isBoundary : Nat → Bool} (hlt : ∀ pos, isBoundary pos = true → pos < N)
    (starts : Nat → Nat) : (detect isBoundary N starts).2 = (List.range N).countP isBoundary := by
  have h := congrArg List.length (contents_detect hlt starts)
  rwa [contents, List.length_map, List.length_range, ← List.countP_eq_length_filter] at h

variable {b : Batch} {S T : Nat}

/-- Step 1b finds no run to split just if no position is `T` requests into its run. -/
theorem oversized_eq_zero_iff (h : Sized S T b N) (starts : Nat → Nat) :
    (let s := detect (b.isBoundary N) N starts
     (List.range s.2).countP fun i =>
      BitVec.ofNat 64 kSchedMergeTarget < b.runBytes (s.1 i) (endOf s.1 s.2 N i)) = 0 ↔
      ∀ p < N, sinceBoundary b N p < T := by
  have hdetect := contents_detect (fun _ h => b.isBoundary_lt (N := N) h) starts
  rw [List.range_eq_range'] at hdetect
  have harray := segments_array isBoundary_zero hdetect
  have hseg := (segments_spec (b.isBoundary N) (Nat.zero_le N) isBoundary_zero).1
  generalize detect (b.isBoundary N) N starts = s at harray
  have hcount : ((List.range s.2).countP fun i =>
      BitVec.ofNat 64 kSchedMergeTarget < b.runBytes (s.1 i) (endOf s.1 s.2 N i)) =
      (segments (b.isBoundary N) N 0).countP fun g =>
        BitVec.ofNat 64 kSchedMergeTarget < b.runBytes g.1 (g.1+g.2) := by
    have := congrArg (List.countP fun q : Nat × Nat =>
      BitVec.ofNat 64 kSchedMergeTarget < b.runBytes q.1 q.2) harray
    rwa [List.countP_map, List.countP_map] at this
  simp only [hcount, List.countP_eq_zero, decide_eq_true_eq, BitVec.not_lt]
  constructor
  · intro hall p hp
    have hmem : p ∈ List.range' 0 (N-0) := List.mem_range'_1.mpr ⟨Nat.zero_le p, by omega⟩
    rw [← (segments_spec (b.isBoundary N) (Nat.zero_le N) isBoundary_zero).2] at hmem
    obtain ⟨g, hg, hpg⟩ := List.mem_flatMap.mp hmem
    rw [List.mem_range'_1] at hpg
    have hT := (h.small_iff (hseg g hg)).mp (hall g hg)
    obtain ⟨r, rfl⟩ : ∃ r, p = g.1 + r := ⟨p - g.1, by omega⟩
    rw [sinceBoundary_run (hseg g hg).inner (by omega), sinceBoundary_boundary (hseg g hg).start]
    omega
  · intro hall g hg
    have hpos := (hseg g hg).pos
    have hle := (hseg g hg).le
    have hlast := hall (g.1 + (g.2-1)) (by omega)
    rw [sinceBoundary_run (hseg g hg).inner (by omega),
      sinceBoundary_boundary (hseg g hg).start] at hlast
    exact (h.small_iff (hseg g hg)).mpr (by omega)

theorem split_snd (h : Sized S T b N) (starts : Nat → Nat) :
    (split b N (detect (b.isBoundary N) N starts)).2 =
      (List.range N).countP fun p => sinceBoundary b N p % T == 0 := by
  have hlen := congrArg List.length (contents_starts b N starts)
  rw [contents, List.length_map, List.length_range, ← List.countP_eq_length_filter,
    ← List.range_eq_range'] at hlen
  rw [hlen]
  exact List.countP_congr fun p hp => by rw [h.isGroupStart_eq (List.mem_range.mp hp)]

theorem splitIn_isSome_iff (h : Sized S T b N) (hcap : N ≤ cap) (starts : Nat → Nat) :
    (splitIn cap b N (detect (b.isBoundary N) N starts)).isSome ↔ Roomy b N T cap := by
  have hsnd := detect_snd (fun _ h => b.isBoundary_lt (N := N) h) starts
  have hzero := oversized_eq_zero_iff h starts
  have hsplit := split_snd h starts
  generalize detect (b.isBoundary N) N starts = s at hsnd hzero hsplit
  have hle : s.2 ≤ cap := by
    rw [hsnd]
    exact (List.countP_le_length.trans_eq List.length_range).trans hcap
  simp only [splitIn, split] at hsplit ⊢
  by_cases h0 : (List.range s.2).countP (fun i => decide
      (BitVec.ofNat 64 kSchedMergeTarget < b.runBytes (s.1 i) (endOf s.1 s.2 N i))) = 0
  · rw [if_pos h0]
    exact iff_of_true rfl (.inl (hzero.mp h0))
  · rw [if_neg h0] at hsplit ⊢
    rw [resplitIn_eq _ hle, hsplit, hsnd, Roomy, or_iff_right fun hx => h0 (hzero.mpr hx)]
    split
    · exact iff_of_true rfl ‹_›
    · exact iff_of_false Bool.false_ne_true ‹_›

variable {sh : Shared} {batch : Nat}

/-- Without padding in the batch the read kernel does the same. -/
theorem readSplitIn_eq (hkeys : ∀ pos < batch, sh.keys pos ≠ keyMax) {s : (Nat → Nat) × Nat}
    (hs : ∀ i < s.2, s.1 i < endOf s.1 s.2 batch i ∧ endOf s.1 s.2 batch i ≤ batch)
    (hle : s.2 ≤ kSchedMaxBatch) :
    readSplitIn sh batch s = splitIn kSchedMaxBatch sh.batch batch s := by
  simp only [readSplitIn, splitIn]
  rw [readOversized_count hkeys hs, resplitIn_eq _ hle, resplitIn_eq _ hle,
    resplit_readPieces hkeys hs]

/-- With all requests of one size, step 1b of either kernel stays in its array just if
there is room for the runs and the groups together or no run is longer than 2 MB. -/
theorem scratch_in_bounds_iff {k : Nat} (hk : k ≤ 21) :
    (∀ (cap N : Nat) (b : Batch) (starts : Nat → Nat), cap ≤ 2^31 → N ≤ cap →
      (∀ pos < N, (b.nb (b.vals pos).toNat).toNat = k) →
      ((splitIn cap b N (detect (b.isBoundary N) N starts)).isSome ↔ Roomy b N (2^(21-k)) cap)) ∧
    ∀ (batch : Nat) (sh : Shared) (starts : Nat → Nat), batch ≤ kSchedMaxBatch →
      (∀ pos < batch, sh.keys pos ≠ keyMax) →
      (∀ pos < batch, (sh.nb (ioSchedKeyBatchIndex (sh.keys pos)).toNat).toNat = k) →
      ((readSplitIn sh batch (detect (readBoundary sh batch) batch starts)).isSome ↔
        Roomy sh.batch batch (2^(21-k)) kSchedMaxBatch) := by
  constructor
  · intro cap N b starts hcap hN hcode
    exact splitIn_isSome_iff (Sized.of_code hk (hN.trans hcap) hcode) hN starts
  · intro batch sh starts hbatch hkeys hcode
    have hdetect := contents_detect (fun _ h => sh.batch.isBoundary_lt (N := batch) h) starts
    have hsnd := detect_snd (fun _ h => sh.batch.isBoundary_lt (N := batch) h) starts
    have hle : (detect (sh.batch.isBoundary batch) batch starts).2 ≤ kSchedMaxBatch := by
      rw [hsnd]
      exact (List.countP_le_length.trans_eq List.length_range).trans hbatch
    rw [readBoundary_eq hkeys, readSplitIn_eq hkeys (fun i hi => endOf_spec hdetect hi) hle]
    exact splitIn_isSome_iff (Sized.of_code hk (hbatch.trans (by decide)) hcode) hbatch starts

def consecutive : Batch :=
  ⟨fun i => BitVec.ofNat 64 (2^21*i), fun i => BitVec.ofNat 32 i, fun _ => 21#8, fun _ => 0#64⟩

def consecutiveShared : Shared :=
  ⟨fun i => ioSchedMakeSortKey (BitVec.ofNat 64 (2^21*i)) (BitVec.ofNat 32 i), fun _ => 21#8,
    fun _ => 0#64⟩

instance (b : Batch) (N T cap : Nat) : Decidable (Roomy b N T cap) :=
  inferInstanceAs (Decidable (_ ∨ _))

theorem two_in_four :
    (splitIn 4 consecutive 2 (detect (consecutive.isBoundary 2) 2 fun _ => 0)).isSome ∧
      (readSplitIn consecutiveShared 2
        (detect (readBoundary consecutiveShared 2) 2 fun _ => 0)).isSome := by
  obtain ⟨hwrite, hread⟩ := scratch_in_bounds_iff (Nat.le_refl 21)
  refine ⟨(hwrite 4 2 consecutive _ (by decide) (by decide) (by decide)).mpr (by decide),
    (hread 2 consecutiveShared _ (by decide) (by decide) (by decide)).mpr (by decide)⟩

/-- Two requests of 2 MB fill a ring of two, and the second group goes to the third cell of
the array; 512 of them fill the batch of the read kernel, and the last goes to cell 512. -/
theorem scratch_overrun :
    (splitIn 2 consecutive 2 (detect (consecutive.isBoundary 2) 2 fun _ => 0) = none ∧
      consecutive.keys 0 ≤ consecutive.keys 1) ∧
    readSplitIn consecutiveShared 512
    (detect (readBoundary consecutiveShared 512) 512 fun _ => 0) = none ∧
      ∀ i < 511, consecutiveShared.keys i ≤ consecutiveShared.keys (i+1) := by
  have hwrite :
    (splitIn 2 consecutive 2 (detect (consecutive.isBoundary 2) 2 fun _ => 0)).isNone = true := by
    decide
  have hread : (readSplitIn consecutiveShared 512
      (detect (readBoundary consecutiveShared 512) 512 fun _ => 0)).isNone = true := by
    decide +kernel
  refine ⟨⟨Option.isNone_iff_eq_none.mp hwrite, by decide⟩, Option.isNone_iff_eq_none.mp hread, ?_⟩
  decide +kernel

end Shaper.MergeScratch
