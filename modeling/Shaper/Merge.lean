import Shaper.Lib.Segments
import Shaper.Lib.Warp
import Shaper.PrpBuild

/-! The parallel merge of the write kernel: group starts by ballot, groups over 2 MB
split by stride, and the groups submitted chunk by chunk. -/
namespace Shaper.Merge
open Lib.Segments Lib.Warp Nvme PrpBuild Request Function

structure Batch where
  keys : Nat → BitVec 64
  vals : Nat → BitVec 32
  nb : Nat → BitVec 8
  pc : Nat → BitVec 64

namespace Batch
variable (b : Batch)

def size (pos : Nat) : BitVec 64 := ioSchedDecodeNbytes (b.nb (b.vals pos).toNat)

def entry (pos : Nat) : BitVec 64 := b.pc (b.vals pos).toNat

def isBoundary (N pos : Nat) : Bool :=
  decide (pos < N) && (pos == 0 || b.keys pos != b.keys (pos-1) + b.size (pos-1))

def runBytes (start end_ : Nat) : BitVec 64 :=
  b.keys (end_-1) - b.keys start + b.size (end_-1)

def group (start end_ : Nat) : Group :=
  ⟨b.keys start, b.runBytes start end_, (List.range (end_-start)).map fun r => b.entry (start+r)⟩

end Batch

def push (s : (Nat → Nat) × Nat) (v : Nat) : (Nat → Nat) × Nat := (update s.1 s.2 v, s.2+1)

def detectRound (isBoundary : Nat → Bool) (s : (Nat → Nat) × Nat) (bbase : Nat) :
    (Nat → Nat) × Nat :=
  (List.range 4).foldl (fun s w =>
    (setBits 32 (ballot fun lane => isBoundary (bbase + 32*w + lane))).foldl
      (fun s bit => push s (bbase + 32*w + bit)) s) s

def detect (isBoundary : Nat → Bool) (N : Nat) (starts : Nat → Nat) : (Nat → Nat) × Nat :=
  (List.range ((N + kSchedThreads - 1) / kSchedThreads)).foldl
    (fun s k => detectRound isBoundary s (kSchedThreads*k)) (starts, 0)

def endOf (starts : Nat → Nat) (n N i : Nat) : Nat := if i+1 < n then starts (i+1) else N

def stride (b : Batch) (start : Nat) : Nat :=
  let s := (BitVec.ofNat 64 kSchedMergeTarget / b.size start).setWidth 32
  if s = 0#32 then 1 else s.toNat

def pieces (b : Batch) (start end_ : Nat) : List Nat :=
  if b.runBytes start end_ ≤ BitVec.ofNat 64 kSchedMergeTarget then [start]
  else (List.range ((end_ - start + stride b start - 1) / stride b start)).map
    fun i => start + stride b start * i

/-- `dst[refined++] = v` with `dst = g_starts + n`. -/
def pushAt (n : Nat) (s : (Nat → Nat) × Nat) (v : Nat) : (Nat → Nat) × Nat :=
  (update s.1 (n + s.2) v, s.2+1)

def resplit (parts : Nat → Nat → List Nat) (N : Nat) (s : (Nat → Nat) × Nat) : (Nat → Nat) × Nat :=
  let n := s.2
  let r := (List.range n).foldl
    (fun r i => (parts (r.1 i) (endOf r.1 n N i)).foldl (pushAt n) r) (s.1, 0)
  ((List.range r.2).foldl (fun m i => update m i (m (n+i))) r.1, r.2)

def split (b : Batch) (N : Nat) (s : (Nat → Nat) × Nat) : (Nat → Nat) × Nat :=
  let oversized := (List.range s.2).countP fun i =>
    BitVec.ofNat 64 kSchedMergeTarget < b.runBytes (s.1 i) (endOf s.1 s.2 N i)
  if oversized = 0 then s else resplit (pieces b) N s

def groups (b : Batch) (N : Nat) (starts : Nat → Nat) : List Group :=
  let s := split b N (detect (b.isBoundary N) N starts)
  (List.range s.2).map fun i => b.group (s.1 i) (endOf s.1 s.2 N i)

/-- A call of `sched_batch_merged_rw`: its commands, and the pool words they find. -/
structure Call where
  mem : Nat → BitVec 64
  commands : List Command

/-- Step 2. A chunk is no longer than the pool, so without a pool the loop stays where
it is; the result is then `none`. -/
def submit (pc : PageCache) (resolve : BitVec 64 → Nat → BitVec 64) (pool : Option PrpPool)
    (blkLog : Nat) : Nat → List Group → (Nat → BitVec 64) → Option ((Nat → BitVec 64) × List Call)
  | 0, gs, mem => if gs = [] then some (mem, []) else none
  | fuel+1, gs, mem =>
    if gs = [] then some (mem, [])
    else
      let chunk := min (min gs.length (poolSlots pool)) kSchedMaxBatch
      let (mem, cmds) := buildGroups pc resolve pool blkLog 0 (gs.take chunk) mem
      (submit pc resolve pool blkLog fuel (gs.drop chunk) mem).map fun (last, calls) =>
        (last, (chunks kSchedKneeLimit cmds).map (Call.mk mem) ++ calls)

def parallelMerge (pc : PageCache) (pool : Option PrpPool) (blkLog : Nat) (b : Batch) (N : Nat)
    (starts : Nat → Nat) (mem : Nat → BitVec 64) : Option ((Nat → BitVec 64) × List Call) :=
  let gs := groups b N starts
  submit pc pc.subpage pool blkLog gs.length gs mem

def contents (n : Nat) (s : (Nat → Nat) × Nat) : List Nat := (List.range s.2).map fun i => s.1 (n+i)

theorem contents_pushAt (n : Nat) (s : (Nat → Nat) × Nat) (v : Nat) :
    contents n (pushAt n s v) = contents n s ++ [v] := by
  rw [contents, pushAt, List.range_succ, List.map_append]
  refine congrArg₂ (· ++ ·) (List.map_congr_left fun i hi => ?_) ?_
  · have := List.mem_range.mp hi
    exact update_of_ne (by omega) _ _
  · exact congrArg (fun x => [x]) (update_self _ _ _)

theorem contents_foldl_pushAt (n : Nat) (s : (Nat → Nat) × Nat) (vs : List Nat) :
    contents n (vs.foldl (pushAt n) s) = contents n s ++ vs := by
  induction vs generalizing s with
  | nil => exact (List.append_nil _).symm
  | cons v vs ih =>
    rw [List.foldl_cons, ih, contents_pushAt, List.append_assoc, List.singleton_append]

theorem foldl_pushAt_low {n i : Nat} (hi : i < n) (s : (Nat → Nat) × Nat) (vs : List Nat) :
    (vs.foldl (pushAt n) s).1 i = s.1 i := by
  induction vs generalizing s with
  | nil => rfl
  | cons v vs ih =>
    rw [List.foldl_cons, ih]
    exact update_of_ne (by omega) _ _

theorem push_eq_pushAt : push = pushAt 0 := by
  funext s v
  rw [push, pushAt, Nat.zero_add]

theorem contents_foldl (n m : Nat) (L : Nat → List Nat) (s : (Nat → Nat) × Nat) :
    contents n ((List.range m).foldl (fun s i => (L i).foldl (pushAt n) s) s) =
      contents n s ++ (List.range m).flatMap L := by
  induction m with
  | zero => exact (List.append_nil _).symm
  | succ m ih =>
    rw [List.range_succ, List.foldl_append, List.foldl_cons, List.foldl_nil, contents_foldl_pushAt,
      ih, List.flatMap_append, List.flatMap_singleton, List.append_assoc]

variable {b : Batch} {N : Nat}

section Detect
variable {isBoundary : Nat → Bool}

theorem contents_detectRound (s : (Nat → Nat) × Nat) (bbase : Nat) :
    contents 0 (detectRound isBoundary s bbase) =
      contents 0 s ++ (List.range' bbase 128).filter isBoundary := by
  have hwarp : ∀ w (s : (Nat → Nat) × Nat),
      (setBits 32 (ballot fun lane => isBoundary (bbase + 32*w + lane))).foldl
        (fun s bit => push s (bbase + 32*w + bit)) s =
      ((List.range' (bbase + 32*w) 32).filter isBoundary).foldl (pushAt 0) s := by
    intro w s
    rw [setBits_ballot, filter_range', List.foldl_map, push_eq_pushAt]
  simp only [detectRound, hwarp]
  rw [contents_foldl, flatMap_blocks]

theorem contents_detect (hlt : ∀ pos, isBoundary pos = true → pos < N) (starts : Nat → Nat) :
    contents 0 (detect isBoundary N starts) = (List.range N).filter isBoundary := by
  have hrounds : ∀ m, contents 0 ((List.range m).foldl
      (fun s k => detectRound isBoundary s (kSchedThreads*k)) (starts, 0)) =
      (List.range' 0 (128*m)).filter isBoundary := by
    intro m
    induction m with
    | zero => rfl
    | succ m ih =>
      rw [List.range_succ, List.foldl_append, List.foldl_cons, List.foldl_nil, contents_detectRound,
        ih, ← flatMap_blocks, ← flatMap_blocks, List.range_succ, List.flatMap_append,
        List.flatMap_singleton, Nat.zero_add]
      rfl
  obtain ⟨k, hk⟩ : ∃ k, 128 * ((N + kSchedThreads - 1) / kSchedThreads) = N + k := by
    refine ⟨128 * ((N + kSchedThreads - 1) / kSchedThreads) - N, ?_⟩
    simp only [kSchedThreads]
    omega
  have hnil : (List.range' (0+N) k).filter isBoundary = [] := by
    refine List.filter_eq_nil_iff.mpr fun pos hpos hb => ?_
    rw [List.mem_range'_1] at hpos
    have := hlt pos hb
    omega
  rw [detect, hrounds, hk, ← List.range'_append_1, List.filter_append, hnil, List.append_nil,
    List.range_eq_range']

end Detect

theorem Batch.isBoundary_lt {pos : Nat} (h : b.isBoundary N pos = true) : pos < N := by
  rw [isBoundary, Bool.and_eq_true] at h
  exact of_decide_eq_true h.1

/-- Starts in order are the starts of stretches within the batch. -/
theorem endOf_spec {cut : Nat → Bool} {s : (Nat → Nat) × Nat}
    (h : contents 0 s = (List.range N).filter cut)
    {i : Nat} (hi : i < s.2) : s.1 i < endOf s.1 s.2 N i ∧ endOf s.1 s.2 N i ≤ N := by
  have hsorted : (contents 0 s).Pairwise (· < ·) := h ▸ List.pairwise_lt_range.filter _
  have hlt : ∀ k < s.2, s.1 k < N := by
    intro k hk
    have hmem : s.1 (0+k) ∈ contents 0 s := List.mem_map_of_mem (List.mem_range.mpr hk)
    rw [h, Nat.zero_add] at hmem
    exact List.mem_range.mp (List.mem_filter.mp hmem).1
  rw [contents, List.pairwise_map] at hsorted
  rw [endOf]
  split
  · rename_i hi1
    have := List.pairwise_iff_getElem.mp hsorted i (i+1) (by simpa using hi) (by simpa using hi1)
      (Nat.lt_succ_self i)
    simp only [List.getElem_range, Nat.zero_add] at this
    exact ⟨this, (hlt _ hi1).le⟩
  · exact ⟨hlt i hi, le_rfl⟩

theorem copy_eq (n r : Nat) (m : Nat → Nat) (a : Nat) :
    (List.range r).foldl (fun m i => update m i (m (n+i))) m a = if a < r then m (n+a)
    else m a := by
  induction r generalizing a with
  | zero => rfl
  | succ r ih =>
    rw [List.range_succ, List.foldl_append, List.foldl_cons, List.foldl_nil, update_apply, ih, ih]
    by_cases h : a = r
    · rw [if_pos h, if_neg (by omega), if_pos (by omega), h]
    · simp only [if_neg h, show a < r + 1 ↔ a < r by omega]

theorem endOf_congr {starts starts' : Nat → Nat} {n : Nat} (h : ∀ i < n, starts i = starts' i)
    (i : Nat) : endOf starts n N i = endOf starts' n N i := by
  simp only [endOf]
  split
  · exact h _ ‹_›
  · rfl

/-- What is written behind the list does not change what is read from it. -/
theorem foldl_parts (parts : Nat → Nat → List Nat) (s : (Nat → Nat) × Nat) {m : Nat}
    (hm : m ≤ s.2) :
    (List.range m).foldl (fun r i => (parts (r.1 i) (endOf r.1 s.2 N i)).foldl (pushAt s.2) r)
    (s.1, 0) =
      (List.range m).foldl (fun r i => (parts (s.1 i) (endOf s.1 s.2 N i)).foldl (pushAt s.2) r)
      (s.1, 0) ∧
    ∀ i < s.2, ((List.range m).foldl
      (fun r i => (parts (s.1 i) (endOf s.1 s.2 N i)).foldl (pushAt s.2) r) (s.1, 0)).1 i =
      s.1 i := by
  induction m with
  | zero => exact ⟨rfl, fun _ _ => rfl⟩
  | succ m ih =>
    obtain ⟨heq, hlow⟩ := ih (by omega)
    rw [List.range_succ, List.foldl_append, List.foldl_append, heq]
    simp only [List.foldl_cons, List.foldl_nil]
    refine ⟨by rw [hlow m (by omega), endOf_congr hlow], fun i hi => ?_⟩
    rw [foldl_pushAt_low hi]
    exact hlow i hi

theorem resplit_congr {parts parts' : Nat → Nat → List Nat} {s : (Nat → Nat) × Nat}
    (h : ∀ i < s.2, parts (s.1 i) (endOf s.1 s.2 N i) = parts' (s.1 i) (endOf s.1 s.2 N i)) :
    resplit parts N s = resplit parts' N s := by
  simp only [resplit]
  rw [(foldl_parts parts s (le_refl _)).1, (foldl_parts parts' s (le_refl _)).1]
  rw [List.foldl_ext _ _ (s.1, 0) fun r i hi => by rw [h i (List.mem_range.mp hi)]]

theorem contents_resplit (parts : Nat → Nat → List Nat) (s : (Nat → Nat) × Nat) :
    contents 0 (resplit parts N s) =
      (List.range s.2).flatMap fun i => parts (s.1 i) (endOf s.1 s.2 N i) := by
  simp only [resplit]
  rw [(foldl_parts parts s (le_refl _)).1]
  refine Eq.trans (List.map_congr_left fun i hi => ?_) (contents_foldl s.2 s.2 _ (s.1, 0))
  simp only [Nat.zero_add]
  rw [copy_eq, if_pos (List.mem_range.mp hi)]

theorem contents_split (s : (Nat → Nat) × Nat) :
    contents 0
    (split b N s) = (List.range s.2).flatMap fun i => pieces b (s.1 i) (endOf s.1 s.2 N i) := by
  simp only [split]
  split
  · rename_i h0
    have hone : ∀ i < s.2, pieces b (s.1 i) (endOf s.1 s.2 N i) = [s.1 i] := by
      intro i hi
      have := List.countP_eq_zero.mp h0 i (List.mem_range.mpr hi)
      rw [pieces, if_pos]
      exact BitVec.not_lt.mp (by simpa using this)
    rw [contents, ← List.flatMap_singleton' ((List.range s.2).map _), List.flatMap_map]
    refine List.flatMap_congr fun i hi => ?_
    rw [hone i (List.mem_range.mp hi), Nat.zero_add]
  · exact contents_resplit _ s

theorem isBoundary_zero (h : 0 < N) : b.isBoundary N 0 = true := by
  rw [Batch.isBoundary, decide_eq_true h]
  rfl

theorem segments_array {cut : Nat → Bool} (h0 : 0 < N → cut 0 = true) {s : (Nat → Nat) × Nat}
    (h : contents 0 s = (List.range' 0 N).filter cut) :
    (List.range s.2).map (fun i => (s.1 i, endOf s.1 s.2 N i)) =
      (segments cut N 0).map fun g => (g.1, g.1+g.2) := by
  simp only [contents, Nat.zero_add] at h
  have hspans : segments cut N 0 =
      (List.range s.2).map fun i => (s.1 i, endOf s.1 s.2 N i - s.1 i) := by
    rw [segments, Nat.sub_zero, ← h, spans_map_range]
    rfl
  have hseg := (segments_spec cut (Nat.zero_le N) h0).1
  rw [hspans, List.map_map]
  refine List.map_congr_left fun i hi => ?_
  have hpos := (hseg _ (hspans ▸ List.mem_map_of_mem hi)).pos
  simp only [comp_apply, Prod.mk.injEq, true_and] at hpos ⊢
  omega

section Runs

def sinceBoundary (b : Batch) (N : Nat) : Nat → Nat
  | 0 => 0
  | p+1 => if b.isBoundary N (p+1) then 0 else sinceBoundary b N p + 1

def Batch.span (b : Batch) (a n : Nat) : Nat :=
  ((List.range n).map fun r => (b.size (a+r)).toNat).sum

def runLength (b : Batch) (N a : Nat) : Nat := gap (b.isBoundary N) (a+1) (N-(a+1)) + 1

def groupLength (b : Batch) (N p : Nat) : Nat :=
  let a := p - sinceBoundary b N p
  if b.runBytes a (a + runLength b N a) ≤ BitVec.ofNat 64 kSchedMergeTarget then runLength b N a
  else stride b a

def isGroupStart (b : Batch) (N p : Nat) : Bool := sinceBoundary b N p % groupLength b N p == 0

theorem sinceBoundary_boundary {p : Nat} (h : b.isBoundary N p = true) :
    sinceBoundary b N p = 0 := by
  cases p with
  | zero => rfl
  | succ p =>
    rw [sinceBoundary, h]
    rfl

theorem sinceBoundary_run {a n : Nat} (h : ∀ r, 0 < r → r < n → b.isBoundary N (a+r) = false)
    {r : Nat} (hr : r < n) : sinceBoundary b N (a+r) = sinceBoundary b N a + r := by
  induction r with
  | zero => rfl
  | succ r ih =>
    have hno := h (r+1) (by omega) hr
    rw [← Nat.add_assoc] at hno ⊢
    rw [sinceBoundary, hno, ih (by omega)]
    simp only [Bool.false_eq_true, if_false]
    omega

theorem Batch.span_succ (b : Batch) (a n : Nat) :
    b.span a (n+1) = b.span a n + (b.size (a+n)).toNat := by
  rw [span, List.range_succ, List.map_append, List.sum_append, List.map_singleton,
    List.sum_singleton]
  rfl

theorem keys_run {a n : Nat} (hn : a + n ≤ N)
    (h : ∀ r, 0 < r → r < n → b.isBoundary N (a+r) = false) {r : Nat} (hr : r < n) :
    b.keys (a+r) = b.keys a + BitVec.ofNat 64 (b.span a r) := by
  induction r with
  | zero => exact (BitVec.add_zero _).symm
  | succ r ih =>
    have hno := h (r+1) (by omega) hr
    have hkey : b.keys (a+(r+1)) = b.keys (a+r) + b.size (a+r) := by
      simp only [Batch.isBoundary, decide_eq_true (show a+(r+1) < N by omega), Bool.true_and,
        Bool.or_eq_false_iff, bne_eq_false_iff_eq] at hno
      exact hno.2
    rw [hkey, ih (by omega), b.span_succ, BitVec.ofNat_add, BitVec.ofNat_toNat, BitVec.setWidth_eq,
      ← BitVec.add_assoc]

theorem runBytes_run {a n : Nat} (hn : a + n ≤ N) (h0 : 0 < n)
    (h : ∀ r, 0 < r → r < n → b.isBoundary N (a+r) = false) :
    b.runBytes a (a+n) = BitVec.ofNat 64 (b.span a n) := by
  have hlast : a + n - 1 = a + (n-1) := by omega
  have hspan : b.span a n = b.span a (n-1) + (b.size (a+(n-1))).toNat := by
    rw [← b.span_succ, Nat.sub_add_cancel h0]
  rw [Batch.runBytes, hlast, keys_run hn h (by omega), BitVec.add_comm (b.keys a),
    BitVec.add_sub_cancel, hspan, BitVec.ofNat_add, BitVec.ofNat_toNat, BitVec.setWidth_eq]

theorem stride_pos (b : Batch) (a : Nat) : 0 < stride b a := by
  simp only [stride]
  split
  · exact Nat.one_pos
  · rename_i hne
    exact Nat.pos_of_ne_zero fun h => hne (BitVec.eq_of_toNat_eq h)

/-- In a run every position has the group length of its first. -/
theorem groupLength_run {s : Nat × Nat} (hs : Segment (b.isBoundary N) N s) {r : Nat}
    (hr : r < s.2) : groupLength b N (s.1+r) =
      if b.runBytes s.1 (s.1+s.2) ≤ BitVec.ofNat 64 kSchedMergeTarget then s.2
      else stride b s.1 := by
  simp only [groupLength]
  rw [sinceBoundary_run hs.inner hr, sinceBoundary_boundary hs.start, Nat.zero_add,
    Nat.add_sub_cancel, runLength, hs.gap_eq]

theorem groupLength_pos {s : Nat × Nat} (hs : Segment (b.isBoundary N) N s) {r : Nat}
    (hr : r < s.2) : 0 < groupLength b N (s.1+r) := by
  rw [groupLength_run hs hr]
  split
  · exact hs.pos
  · exact stride_pos b s.1

theorem pieces_eq {s : Nat × Nat} (hs : Segment (b.isBoundary N) N s) :
    pieces b s.1 (s.1+s.2) = (List.range' s.1 s.2).filter (isGroupStart b N) := by
  have h0 := hs.pos
  have hT := groupLength_pos hs h0
  have hlen {r : Nat} (hr : r < s.2) : groupLength b N (s.1+r) = groupLength b N (s.1+0) := by
    rw [groupLength_run hs hr, groupLength_run hs h0]
  have hfilter : (List.range' s.1 s.2).filter (isGroupStart b N) =
      (List.range ((s.2 + groupLength b N (s.1+0) - 1) / groupLength b N (s.1+0))).map
        fun i => s.1 + groupLength b N (s.1+0) * i := by
    have hmult := congrArg (List.map (s.1 + ·)) (filter_mod_range hT s.2)
    rw [List.map_map] at hmult
    rw [filter_range']
    refine Eq.trans (congrArg _ (List.filter_congr fun r hr => ?_)) hmult
    have hr := List.mem_range.mp hr
    rw [isGroupStart, hlen hr, sinceBoundary_run hs.inner hr, sinceBoundary_boundary hs.start,
      Nat.zero_add]
  rw [hfilter, pieces, groupLength_run hs h0, Nat.add_sub_cancel_left]
  split
  · -- a run that is one group
    have hone : (s.2 + s.2 - 1) / s.2 = 1 := Nat.div_eq_of_lt_le (by omega) (by omega)
    rw [hone]
    simp
  · rfl

theorem isGroupStart_boundary {p : Nat} (h : b.isBoundary N p = true) :
    isGroupStart b N p = true := by
  rw [isGroupStart, sinceBoundary_boundary h, Nat.zero_mod]
  rfl

theorem isGroupStart_zero : isGroupStart b N 0 = true := by
  rw [isGroupStart, sinceBoundary, Nat.zero_mod]
  rfl

theorem contents_starts (b : Batch) (N : Nat) (starts : Nat → Nat) :
    contents 0 (split b N (detect (b.isBoundary N) N starts)) =
      (List.range' 0 N).filter (isGroupStart b N) := by
  have hdetect := contents_detect (fun _ h => b.isBoundary_lt (N := N) h) starts
  rw [List.range_eq_range'] at hdetect
  obtain ⟨hseg, hcover⟩ := segments_spec (b.isBoundary N) (Nat.zero_le N) isBoundary_zero
  rw [Nat.sub_zero] at hcover
  have harray := congrArg (List.flatMap fun p : Nat × Nat => pieces b p.1 p.2)
    (segments_array isBoundary_zero hdetect)
  rw [List.flatMap_map, List.flatMap_map] at harray
  rw [contents_split, harray, ← hcover, List.filter_flatMap]
  exact List.flatMap_congr fun g hg => pieces_eq (hseg g hg)

theorem groups_eq (b : Batch) (N : Nat) (starts : Nat → Nat) :
    groups b N starts = (segments (isGroupStart b N) N 0).map fun s => b.group s.1 (s.1+s.2) := by
  have harray := congrArg (List.map fun p : Nat × Nat => b.group p.1 p.2)
    (segments_array (fun _ => isGroupStart_zero) (contents_starts b N starts))
  rw [List.map_map, List.map_map] at harray
  exact harray

theorem not_boundary_inside {s : Nat × Nat} (hs : Segment (isGroupStart b N) N s) {r : Nat}
    (h0 : 0 < r) (hr : r < s.2) : b.isBoundary N (s.1+r) = false := by
  cases hb : b.isBoundary N (s.1+r) with
  | false => rfl
  | true =>
    have hin := hs.inner r h0 hr
    rw [isGroupStart_boundary hb] at hin
    exact absurd hin.symm Bool.false_ne_true

theorem isGroupStart_run {t : Nat × Nat} (ht : Segment (b.isBoundary N) N t) {r : Nat}
    (hr : r < t.2) : isGroupStart b N (t.1+r) = (r % groupLength b N (t.1+0) == 0) := by
  rw [isGroupStart, groupLength_run ht hr, groupLength_run ht ht.pos,
    sinceBoundary_run ht.inner hr, sinceBoundary_boundary ht.start, Nat.zero_add]

/-- The groups are the pieces of the runs, as long as the group length of the run says. -/
theorem group_iff {s : Nat × Nat} : Segment (isGroupStart b N) N s ↔
    ∃ t, Segment (b.isBoundary N) N t ∧ ∃ i, groupLength b N (t.1+0) * i < t.2 ∧
      s = (t.1 + groupLength b N (t.1+0) * i,
        min (groupLength b N (t.1+0)) (t.2 - groupLength b N (t.1+0) * i)) :=
  piece_iff (fun a => groupLength b N (a+0)) isBoundary_zero fun _ ht =>
    ⟨groupLength_pos ht ht.pos, fun _ hr => isGroupStart_run ht hr⟩

theorem mem_groups {g : Group} {starts : Nat → Nat} :
    g ∈ groups b N starts ↔ ∃ s, Segment (isGroupStart b N) N s ∧ b.group s.1 (s.1+s.2) = g := by
  rw [groups_eq, List.mem_map]
  simp only [mem_segments fun _ => isGroupStart_zero]

section
variable {S T : Nat} (hmul : S * T = kSchedMergeTarget)
include hmul

theorem mul_bounds : 0 < S ∧ 0 < T ∧ S ≤ kSchedMergeTarget ∧ T ≤ kSchedMergeTarget := by
  have hS : 0 < S := by
    rcases Nat.eq_zero_or_pos S with rfl | hS
    · rw [Nat.zero_mul] at hmul
      exact absurd hmul (by decide)
    · exact hS
  have hT : 0 < T := by
    rcases Nat.eq_zero_or_pos T with rfl | hT
    · rw [Nat.mul_zero] at hmul
      exact absurd hmul (by decide)
    · exact hT
  exact ⟨hS, hT, hmul ▸ Nat.le_mul_of_pos_right S hT, hmul ▸ Nat.le_mul_of_pos_left T hS⟩

theorem stride_of_mul {a : Nat} (hsize : (b.size a).toNat = S) : stride b a = T := by
  obtain ⟨hS, hT, -, hle⟩ := mul_bounds hmul
  simp only [kSchedMergeTarget] at hle
  have hs : ((BitVec.ofNat 64 kSchedMergeTarget / b.size a).setWidth 32 : BitVec 32).toNat = T := by
    rw [BitVec.toNat_setWidth, BitVec.toNat_udiv, hsize, BitVec.toNat_ofNat,
      Nat.mod_eq_of_lt (show kSchedMergeTarget < 2^64 by decide), ← hmul,
      Nat.mul_div_cancel_left _ hS]
    omega
  have hne : (BitVec.ofNat 64 kSchedMergeTarget / b.size a).setWidth 32 ≠ 0#32 := by
    intro h0
    rw [h0] at hs
    exact absurd hs.symm (Nat.ne_of_gt hT)
  rw [stride]
  simp only [if_neg hne, hs]

end

structure Sized (S T : Nat) (b : Batch) (N : Nat) : Prop where
  le : N ≤ 2^31
  mul : S * T = kSchedMergeTarget
  size_eq : ∀ pos < N, (b.size pos).toNat = S

namespace Sized
variable {S T : Nat}

theorem bounds (h : Sized S T b N) : 0 < S ∧ 0 < T ∧ S ≤ kSchedMergeTarget ∧
    T ≤ kSchedMergeTarget :=
  mul_bounds h.mul

theorem span_eq (h : Sized S T b N) {a n : Nat} (hn : a + n ≤ N) : b.span a n = n * S := by
  induction n with
  | zero => exact (Nat.zero_mul _).symm
  | succ n ih => rw [b.span_succ, ih (by omega), h.size_eq _ (by omega), Nat.succ_mul]

theorem stride_eq (h : Sized S T b N) {a : Nat} (ha : a < N) : stride b a = T :=
  stride_of_mul h.mul (h.size_eq a ha)

theorem toNat_runBytes (h : Sized S T b N) {s : Nat × Nat} (hs : Segment (b.isBoundary N) N s) :
    (b.runBytes s.1 (s.1+s.2)).toNat = s.2 * S := by
  have hle := hs.le
  have hN := h.le
  have hlt : s.2 * S ≤ 2^31 * kSchedMergeTarget := Nat.mul_le_mul (by omega) h.bounds.2.2.1
  rw [runBytes_run hs.le hs.pos hs.inner, h.span_eq hs.le, BitVec.toNat_ofNat, Nat.mod_eq_of_lt]
  simp only [kSchedMergeTarget] at hlt
  omega

/-- A run is one group just if it has no more requests than make 2 MB. -/
theorem small_iff (h : Sized S T b N) {s : Nat × Nat} (hs : Segment (b.isBoundary N) N s) :
    b.runBytes s.1 (s.1+s.2) ≤ BitVec.ofNat 64 kSchedMergeTarget ↔ s.2 ≤ T := by
  rw [BitVec.le_def, h.toNat_runBytes hs, BitVec.toNat_ofNat,
    Nat.mod_eq_of_lt (show kSchedMergeTarget < 2^64 by decide), ← h.mul, Nat.mul_comm S]
  exact Nat.mul_le_mul_right_iff h.bounds.1

theorem isGroupStart_eq (h : Sized S T b N) {p : Nat} (hp : p < N) :
    isGroupStart b N p = (sinceBoundary b N p % T == 0) := by
  obtain ⟨s, hs, hle, hlt⟩ := exists_segment_of_lt (b.isBoundary N) isBoundary_zero hp
  obtain ⟨r, rfl⟩ : ∃ r, p = s.1 + r := ⟨p - s.1, by omega⟩
  have hr : r < s.2 := by omega
  rw [isGroupStart, groupLength_run hs hr, sinceBoundary_run hs.inner hr,
    sinceBoundary_boundary hs.start, Nat.zero_add]
  split
  · rename_i hsmall
    have hT := (h.small_iff hs).mp hsmall
    rw [Nat.mod_eq_of_lt hr, Nat.mod_eq_of_lt (by omega)]
  · rw [h.stride_eq (by have := hs.le; omega)]

theorem of_code {k : Nat} (hk : k ≤ 21) (hN : N ≤ 2^31)
    (hcode : ∀ pos < N, (b.nb (b.vals pos).toNat).toNat = k) : Sized (2^k) (2^(21-k)) b N where
  le := hN
  mul := by
    rw [← Nat.pow_add, Nat.add_sub_cancel' hk]
    rfl
  size_eq pos hpos := by
    have h := hcode pos hpos
    rw [Batch.size, toNat_decode (by omega), h]

end Sized

end Runs

section Uniform
variable {pc : PageCache}

structure Uniform (pc : PageCache) (b : Batch) (N : Nat) : Prop where
  le : N ≤ 2^31
  ppe_dvd : pc.pagesPerEntry ∣ 512
  size_eq : ∀ pos < N, b.size pos = BitVec.ofNat 64 pc.pageSize

def perGroup (pc : PageCache) : Nat := 512 / pc.pagesPerEntry

def isStart (pc : PageCache) (b : Batch) (N p : Nat) : Bool :=
  sinceBoundary b N p % perGroup pc == 0

theorem Uniform.perGroup_mul (h : Uniform pc b N) : pc.pagesPerEntry * perGroup pc = 512 :=
  Nat.mul_div_cancel' h.ppe_dvd

theorem pageSize_le (pc : PageCache) : 0 < pc.pageSize ∧ pc.pageSize ≤ kSchedMergeTarget := by
  have := pc.ppe_pos
  have := pc.ppe_le
  simp only [PageCache.pageSize, kSchedMergeTarget]
  omega

theorem Uniform.pageSize_mul (hu : Uniform pc b N) :
    pc.pageSize * perGroup pc = kSchedMergeTarget := by
  rw [PageCache.pageSize, Nat.mul_assoc, hu.perGroup_mul]
  rfl

theorem Uniform.sized (hu : Uniform pc b N) : Sized pc.pageSize (perGroup pc) b N where
  le := hu.le
  mul := hu.pageSize_mul
  size_eq pos hpos := by
    have hle := (pageSize_le pc).2
    simp only [kSchedMergeTarget] at hle
    rw [hu.size_eq pos hpos, BitVec.toNat_ofNat, Nat.mod_eq_of_lt (by omega)]

theorem Uniform.perGroup_pos (h : Uniform pc b N) : 0 < perGroup pc := h.sized.bounds.2.1

theorem Uniform.keys_run (hu : Uniform pc b N) {a n : Nat} (hn : a + n ≤ N)
    (h : ∀ r, 0 < r → r < n → b.isBoundary N (a+r) = false) {r : Nat} (hr : r < n) :
    b.keys (a+r) = b.keys a + BitVec.ofNat 64 (r * pc.pageSize) := by
  rw [Merge.keys_run hn h hr, hu.sized.span_eq (by omega)]

theorem Uniform.runBytes_run (hu : Uniform pc b N) {a n : Nat} (hn : a + n ≤ N) (h0 : 0 < n)
    (h : ∀ r, 0 < r → r < n → b.isBoundary N (a+r) = false) :
    b.runBytes a (a+n) = BitVec.ofNat 64 (n * pc.pageSize) := by
  rw [Merge.runBytes_run hn h0 h, hu.sized.span_eq hn]

theorem isStart_zero : isStart pc b N 0 = true := by
  rw [isStart, sinceBoundary, Nat.zero_mod]
  rfl

theorem Uniform.contents_starts (hu : Uniform pc b N) (starts : Nat → Nat) :
    contents 0 (split b N (detect (b.isBoundary N) N starts)) =
      (List.range' 0 N).filter (isStart pc b N) := by
  rw [Merge.contents_starts]
  refine List.filter_congr fun p hp => hu.sized.isGroupStart_eq ?_
  have := List.mem_range'_1.mp hp
  omega

def groupsFrom (pc : PageCache) (b : Batch) (N p : Nat) : List Group :=
  (segments (isStart pc b N) N p).map fun s => b.group s.1 (s.1+s.2)

theorem groupsFrom_end {p : Nat} (hp : N ≤ p) : groupsFrom pc b N p = [] := by
  rw [groupsFrom, segments_end hp]
  rfl

theorem length_groupsFrom_le (pc : PageCache) (b : Batch) (N : Nat) :
    (groupsFrom pc b N 0).length ≤ N := by
  rw [groupsFrom, List.length_map]
  exact length_segments_le _ _ _

theorem Uniform.groups_eq (hu : Uniform pc b N) (starts : Nat → Nat) :
    groups b N starts = groupsFrom pc b N 0 := by
  have harray := congrArg (List.map fun p : Nat × Nat => b.group p.1 p.2)
    (segments_array (fun _ => isStart_zero) (hu.contents_starts starts))
  rw [List.map_map, List.map_map] at harray
  exact harray

theorem Uniform.inner (hu : Uniform pc b N) {s : Nat × Nat} (hs : Segment (isStart pc b N) N s) :
    s.2 ≤ perGroup pc ∧ ∀ r, 0 < r → r < s.2 → b.isBoundary N (s.1+r) = false := by
  have hno : ∀ r, 0 < r → r < s.2 → b.isBoundary N (s.1+r) = false := by
    intro r h0 hr
    have hin := hs.inner r h0 hr
    cases hb : b.isBoundary N (s.1+r) with
    | false => rfl
    | true =>
      rw [isStart, sinceBoundary_boundary hb, Nat.zero_mod] at hin
      exact hin
  refine ⟨?_, hno⟩
  by_contra hlt
  have hstart := hs.start
  have hin := hs.inner (perGroup pc) hu.perGroup_pos (by omega)
  rw [isStart, sinceBoundary_run hno (by omega), Nat.add_mod_right] at hin
  rw [isStart, hin] at hstart
  exact Bool.false_ne_true hstart

theorem Uniform.group_ok (hu : Uniform pc b N) {resolve : BitVec 64 → Nat → BitVec 64}
    (hres : ∀ pe j, (resolve pe j).toNat % 4096 = 0) {blkLog : Nat} (h9 : 9 ≤ blkLog)
    (hblk : 2^blkLog ∣ pc.pageSize) {s : Nat × Nat} (hs : Segment (isStart pc b N) N s) :
    (b.group s.1 (s.1+s.2)).Ok pc resolve blkLog := by
  obtain ⟨hlen, hno⟩ := hu.inner hs
  have hN := hu.le
  have hle := hs.le
  have hcount : (b.group s.1 (s.1+s.2)).entries.length = s.2 := by
    simp [Batch.group]
  have htotal : s.2 * pc.pagesPerEntry ≤ 512 := by
    rw [← hu.perGroup_mul, Nat.mul_comm]
    exact Nat.mul_le_mul_left _ hlen
  refine ⟨⟨?_, by rwa [hcount]⟩, ?_, h9, hblk, hres _ _⟩
  · rw [← List.length_pos_iff, hcount]
    exact hs.pos
  · have hlt : s.2 * pc.pageSize ≤ 4096 * 512 := by
      rw [PageCache.pageSize, Nat.mul_left_comm]
      exact Nat.mul_le_mul_left _ htotal
    rw [hcount]
    change (b.runBytes s.1 (s.1+s.2)).toNat = _
    rw [hu.runBytes_run hle hs.pos hno, BitVec.toNat_ofNat, Nat.mod_eq_of_lt (by omega)]

theorem Uniform.groupsFrom_ok (hu : Uniform pc b N) {resolve : BitVec 64 → Nat → BitVec 64}
    (hres : ∀ pe j, (resolve pe j).toNat % 4096 = 0) {blkLog : Nat} (h9 : 9 ≤ blkLog)
    (hblk : 2^blkLog ∣ pc.pageSize) {p : Nat} (hp : p ≤ N)
    (hstart : p < N → isStart pc b N p = true) :
    ∀ g ∈ groupsFrom pc b N p, g.Ok pc resolve blkLog := by
  intro g hg
  obtain ⟨s, hs, rfl⟩ := List.mem_map.mp hg
  exact hu.group_ok hres h9 hblk ((segments_spec _ hp hstart).1 s hs)

end Uniform

section Submit
variable {pc : PageCache} {resolve : BitVec 64 → Nat → BitVec 64} {pool : PrpPool} {blkLog : Nat}

def Submits (pc : PageCache) (resolve : BitVec 64 → Nat → BitVec 64) (pool : PrpPool)
    (rest : Nat → BitVec 64) (blkLog : Nat) (gs : List Group) (call : Call) : Prop :=
  List.Forall₂ (Carries pc resolve blkLog (pool.load call.mem rest)) gs call.commands

/-- With a pool the loop ends, and its calls take the groups 32 at a time. -/
theorem submit_spec {gs : List Group} (hg : ∀ g ∈ gs, g.Ok pc resolve blkLog) {fuel : Nat}
    (hf : gs.length ≤ fuel) (mem rest : Nat → BitVec 64) :
    ∃ last calls, submit pc resolve (some pool) blkLog fuel gs mem = some (last, calls) ∧
      List.Forall₂ (Submits pc resolve pool rest blkLog) (chunks kSchedKneeLimit gs) calls := by
  induction fuel generalizing gs mem with
  | zero =>
    obtain rfl := List.length_eq_zero_iff.mp (Nat.le_zero.mp hf)
    exact ⟨mem, [], rfl, .nil⟩
  | succ fuel ih =>
    rcases eq_or_ne gs [] with rfl | hne
    · exact ⟨mem, [], rfl, .nil⟩
    · have hpos := List.length_pos_iff.mpr hne
      have hchunk : min (min gs.length (poolSlots (some pool))) kSchedMaxBatch =
          min gs.length kSchedMaxBatch := by
        rw [poolSlots, Nat.min_assoc, Nat.min_self]
      have htake : gs.take (min gs.length kSchedMaxBatch) = gs.take kSchedMaxBatch := by
        rw [Nat.min_comm, ← List.take_take, List.take_length]
      have hdrop : gs.drop (min gs.length kSchedMaxBatch) = gs.drop kSchedMaxBatch := by
        rcases Nat.le_total gs.length kSchedMaxBatch with h | h
        · rw [Nat.min_eq_left h, List.drop_length, List.drop_of_length_le h]
        · rw [Nat.min_eq_right h]
      have hbuilt := buildGroups_carries pool (fun g h => hg g (List.mem_of_mem_take h)) 0
        (show 0 + (gs.take kSchedMaxBatch).length ≤ kSchedMaxBatch by
          rw [Nat.zero_add]; exact List.length_take_le _ _) mem rest
      have hrest : ∀ g ∈ gs.drop kSchedMaxBatch, g.Ok pc resolve blkLog :=
        fun g h => hg g (List.mem_of_mem_drop h)
      obtain ⟨last, calls, hrun, hcalls⟩ := ih hrest
        (by rw [List.length_drop, show kSchedMaxBatch = 512 from rfl]; omega)
        (buildGroups pc resolve (some pool) blkLog 0 (gs.take kSchedMaxBatch) mem).1
      rw [submit, if_neg hne]
      simp only [hchunk, htake, hdrop, hrun, Option.map_some]
      refine ⟨_, _, rfl, ?_⟩
      rw [chunks_take_drop (by decide) (show kSchedKneeLimit ∣ kSchedMaxBatch by decide) gs]
      refine List.rel_append ?_ hcalls
      rw [List.forall₂_map_right_iff]
      exact forall₂_chunks hbuilt

/-- The parallel merge ends and moves the groups 32 at a time. -/
theorem parallelMerge_spec (pool : PrpPool) {b : Batch} {N : Nat} (hu : Uniform pc b N)
    (h9 : 9 ≤ blkLog)
    (hblk : 2^blkLog ∣ pc.pageSize) (starts : Nat → Nat) (mem rest : Nat → BitVec 64) :
    ∃ last calls, parallelMerge pc (some pool) blkLog b N starts mem = some (last, calls) ∧
      List.Forall₂ (Submits pc pc.subpage pool rest blkLog)
        (chunks kSchedKneeLimit (groupsFrom pc b N 0)) calls := by
  have hok := hu.groupsFrom_ok pc.subpage_aligned h9 hblk (Nat.zero_le N) fun _ => isStart_zero
  rw [parallelMerge]
  simp only [hu.groups_eq]
  exact submit_spec hok (le_refl _) mem rest

end Submit

end Shaper.Merge
