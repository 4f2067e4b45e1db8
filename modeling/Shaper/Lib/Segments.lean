import Mathlib.Data.List.Basic
import Mathlib.Data.List.Range
import Mathlib.Order.Nat

/-! The positions `0, ..., N-1` cut into segments: the starts as the positions where a
predicate holds, and the segments from one start to the next. And lists cut into
chunks of one length. -/
namespace Shaper.Lib.Segments
variable {cut : Nat → Bool} {N : Nat}

def spans (N : Nat) : List Nat → List (Nat × Nat)
  | [] => []
  | [a] => [(a, N-a)]
  | a :: b :: l => (a, b-a) :: spans N (b :: l)

def segments (cut : Nat → Bool) (N p : Nat) : List (Nat × Nat) :=
  spans N ((List.range' p (N-p)).filter cut)

def gap (cut : Nat → Bool) (p : Nat) : Nat → Nat
  | 0 => 0
  | n+1 => if cut p then 0 else gap cut (p+1) n + 1

theorem gap_spec (cut : Nat → Bool) (p n : Nat) : gap cut p n ≤ n ∧
    (∀ r < gap cut p n, cut (p+r) = false) ∧ (gap cut p n < n → cut (p + gap cut p n) = true) := by
  induction n generalizing p with
  | zero => simp [gap]
  | succ n ih =>
    obtain ⟨hle, hno, hat⟩ := ih (p+1)
    rw [gap]
    cases hp : cut p with
    | true => simp [hp]
    | false =>
      simp only [Bool.false_eq_true, if_false]
      refine ⟨by omega, fun r hr => ?_, fun h => ?_⟩
      · rcases Nat.eq_zero_or_pos r with rfl | hr0
        · exact hp
        · have := hno (r-1) (by omega)
          rwa [show p+1+(r-1) = p+r by omega] at this
      · rw [show p + (gap cut (p+1) n + 1) = p+1 + gap cut (p+1) n by omega]
        exact hat (by omega)

theorem filter_gap {p n m : Nat} (h : ∀ r < n, cut (p+r) = false) :
    (List.range' p (n+m)).filter cut = (List.range' (p+n) m).filter cut := by
  rw [← List.range'_append_1, List.filter_append]
  have hnil : (List.range' p n).filter cut = [] := by
    refine List.filter_eq_nil_iff.mpr fun a ha => ?_
    rw [List.mem_range'_1] at ha
    have := h (a-p) (by omega)
    rw [show p + (a-p) = a by omega] at this
    simp [this]
  rw [hnil, List.nil_append]

theorem segments_cons {p : Nat} (hp : p < N) (hcut : cut p = true) :
    let n := gap cut (p+1) (N-(p+1)) + 1
    segments cut N p = (p, n) :: segments cut N (p+n) ∧ p+n ≤ N ∧
      (p+n < N → cut (p+n) = true) ∧ ∀ r, 0 < r → r < n → cut (p+r) = false := by
  intro n
  obtain ⟨hle, hno, hat⟩ := gap_spec cut (p+1) (N-(p+1))
  have hstarts :
    (List.range' p (N-p)).filter cut = p :: (List.range' (p+n) (N-(p+n))).filter cut := by
    rw [show N-p = (N-(p+1)) + 1 by omega, List.range'_succ, List.filter_cons_of_pos hcut,
      show N-(p+1) = gap cut (p+1) (N-(p+1)) + (N-(p+n)) by omega, filter_gap hno,
      show p + 1 + gap cut (p+1) (N-(p+1)) = p+n by omega]
  have hnext : p+n < N → cut (p+n) = true := by
    intro h
    have := hat (by omega)
    rwa [show p + 1 + gap cut (p+1) (N-(p+1)) = p+n by omega] at this
  refine ⟨?_, by omega, hnext, fun r h0 hr => ?_⟩
  · rw [segments, hstarts, segments]
    by_cases hend : p+n < N
    · rw [show N-(p+n) = (N-(p+n+1)) + 1 by omega, List.range'_succ,
        List.filter_cons_of_pos (hnext hend), spans, Nat.add_sub_cancel_left]
    · rw [show N-(p+n) = 0 by omega, List.range'_zero, List.filter_nil]
      change [(p, N-p)] = [(p, n)]
      rw [show N-p = n by omega]
  · have := hno (r-1) (by omega)
    rwa [show p+1+(r-1) = p+r by omega] at this

theorem segments_end {p : Nat} (hp : N ≤ p) : segments cut N p = [] := by
  rw [segments, show N-p = 0 by omega]
  rfl

structure Segment (cut : Nat → Bool) (N : Nat) (s : Nat × Nat) : Prop where
  pos : 0 < s.2
  le : s.1 + s.2 ≤ N
  start : cut s.1 = true
  inner : ∀ r, 0 < r → r < s.2 → cut (s.1+r) = false
  next : s.1 + s.2 < N → cut (s.1+s.2) = true

theorem segments_spec (cut : Nat → Bool) {p : Nat} (hp : p ≤ N) (hcut : p < N → cut p = true) :
    (∀ s ∈ segments cut N p, Segment cut N s) ∧
      (segments cut N p).flatMap (fun s => List.range' s.1 s.2) = List.range' p (N-p) := by
  induction h : N-p using Nat.strongRecOn generalizing p with
  | ind k ih =>
    rcases Nat.lt_or_ge p N with hlt | hge
    · obtain ⟨hcons, hle, hnext, hinner⟩ := segments_cons hlt (hcut hlt)
      obtain ⟨hall, hcover⟩ := ih _ (by omega) hle hnext rfl
      rw [hcons]
      refine ⟨fun s hs => ?_, ?_⟩
      · rcases List.mem_cons.mp hs with rfl | hs
        · exact ⟨Nat.succ_pos _, hle, hcut hlt, hinner, hnext⟩
        · exact hall s hs
      · rw [List.flatMap_cons, hcover, List.range'_append_1]
        congr 1
        omega
    · rw [segments_end hge, show k = 0 by omega]
      exact ⟨fun s hs => absurd hs List.not_mem_nil, rfl⟩

theorem Segment.gap_eq {s : Nat × Nat} (h : Segment cut N s) :
    gap cut (s.1+1) (N-(s.1+1)) + 1 = s.2 := by
  obtain ⟨hle, hno, hat⟩ := gap_spec cut (s.1+1) (N-(s.1+1))
  generalize gap cut (s.1+1) (N-(s.1+1)) = g at hle hno hat
  have hpos := h.pos
  have hend := h.le
  rcases Nat.lt_trichotomy (g+1) s.2 with hlt | heq | hgt
  · have hcut := hat (by omega)
    have hin := h.inner (g+1) (by omega) hlt
    rw [show s.1 + 1 + g = s.1 + (g+1) by omega, hin] at hcut
    exact absurd hcut Bool.false_ne_true
  · exact heq
  · have hcut := h.next (by omega)
    have hin := hno (s.2-1) (by omega)
    rw [show s.1 + 1 + (s.2-1) = s.1 + s.2 by omega, hcut] at hin
    exact absurd hin.symm Bool.false_ne_true

theorem exists_segment_of_lt (cut : Nat → Bool) (hcut : 0 < N → cut 0 = true) {p : Nat}
    (hp : p < N) : ∃ s, Segment cut N s ∧ s.1 ≤ p ∧ p < s.1 + s.2 := by
  obtain ⟨hseg, hcover⟩ := segments_spec cut (Nat.zero_le N) hcut
  have hmem : p ∈ List.range' 0 (N-0) := List.mem_range'_1.mpr ⟨Nat.zero_le p, by omega⟩
  rw [← hcover] at hmem
  obtain ⟨s, hs, hps⟩ := List.mem_flatMap.mp hmem
  rw [List.mem_range'_1] at hps
  exact ⟨s, hseg s hs, hps⟩

theorem segments_lt {p i : Nat} {s : Nat × Nat} (hi : (segments cut N p)[i]? = some s) : p < N := by
  by_contra h
  rw [segments_end (Nat.not_lt.mp h)] at hi
  exact absurd hi (by simp)

/-- The index of a segment counts the starts before it, and the next begins where it ends. -/
theorem segments_getElem? {p : Nat} (hcut : p < N → cut p = true) {i : Nat} {s : Nat × Nat}
    (hi : (segments cut N p)[i]? = some s) :
    p ≤ s.1 ∧ (List.range' p (s.1 - p)).countP cut = i ∧
      ∀ s', (segments cut N p)[i+1]? = some s' → s.1 + s.2 = s'.1 := by
  induction i generalizing p with
  | zero =>
    have hlt := segments_lt hi
    obtain ⟨hcons, -, hnext, -⟩ := segments_cons hlt (hcut hlt)
    rw [hcons] at hi ⊢
    obtain rfl := Option.some.inj hi
    refine ⟨le_refl _, by simp, fun s' hs' => ?_⟩
    rw [List.getElem?_cons_succ] at hs'
    have hend := segments_lt hs'
    rw [(segments_cons hend (hnext hend)).1] at hs'
    obtain rfl := Option.some.inj hs'
    rfl
  | succ i ih =>
    have hlt := segments_lt hi
    obtain ⟨hcons, hle, hnext, hinner⟩ := segments_cons hlt (hcut hlt)
    rw [hcons, List.getElem?_cons_succ] at hi
    obtain ⟨hps, hcount, hs'⟩ := ih hnext hi
    refine ⟨by omega, ?_, fun s' h' => hs' s' (by rwa [hcons, List.getElem?_cons_succ] at h')⟩
    -- one start in the first segment
    have hone : (List.range' p (gap cut (p+1) (N-(p+1)) + 1)).countP cut = 1 := by
      rw [List.range'_succ, List.countP_cons_of_pos (hcut hlt), List.countP_eq_zero.mpr]
      intro a ha
      rw [List.mem_range'_1] at ha
      have := hinner (a-p) (by omega) (by omega)
      rw [show p + (a-p) = a by omega] at this
      simp [this]
    have hsplit : s.1 - p =
        (gap cut (p+1) (N-(p+1)) + 1) + (s.1 - (p + (gap cut (p+1) (N-(p+1)) + 1))) := by
      omega
    rw [hsplit, ← List.range'_append_1, List.countP_append, hone, hcount, Nat.add_comm]

theorem segments_mono {p : Nat} (hcut : p < N → cut p = true) {i j : Nat} (hij : i ≤ j)
    {s s' : Nat × Nat}
    (hi : (segments cut N p)[i]? = some s) (hj : (segments cut N p)[j]? = some s') :
    s.1 ≤ s'.1 := by
  induction j, hij using Nat.le_induction generalizing s' with
  | base => rw [Option.some.inj (hi.symm.trans hj)]
  | succ j _ ih =>
    have hlen := (List.getElem?_eq_some_iff.mp hj).1
    have hj' := List.getElem?_eq_getElem (show j < (segments cut N p).length by omega)
    have hnext := (segments_getElem? hcut hj').2.2 s' hj
    have := ih hj'
    omega

theorem spans_fst (l : List Nat) : (spans N l).map Prod.fst = l := by
  match l with
  | [] => rfl
  | [_] => rfl
  | a :: b :: l => rw [spans, List.map_cons, spans_fst (b :: l)]

theorem length_segments_le (cut : Nat → Bool) (N p : Nat) : (segments cut N p).length ≤ N - p := by
  rw [segments, ← List.length_map Prod.fst, spans_fst]
  exact (List.length_filter_le _ _).trans_eq List.length_range'

theorem exists_segment {p a : Nat} (ha : p ≤ a) (hN : a < N) (hcut : cut a = true) :
    ∃ i : Nat, ∃ s : Nat × Nat, (segments cut N p)[i]? = some s ∧ s.1 = a := by
  have hmem : a ∈ (segments cut N p).map Prod.fst := by
    rw [segments, spans_fst, List.mem_filter, List.mem_range'_1]
    exact ⟨⟨ha, by omega⟩, hcut⟩
  obtain ⟨s, hs, rfl⟩ := List.mem_map.mp hmem
  obtain ⟨i, hi⟩ := List.mem_iff_getElem?.mp hs
  exact ⟨i, s, hi, rfl⟩

theorem mem_segments (hcut : 0 < N → cut 0 = true) {s : Nat × Nat} :
    s ∈ segments cut N 0 ↔ Segment cut N s := by
  obtain ⟨hall, -⟩ := segments_spec cut (Nat.zero_le N) hcut
  refine ⟨hall s, fun h => ?_⟩
  have hlt : s.1 < N := by
    have := h.pos
    have := h.le
    omega
  obtain ⟨i, s', hi, hfst⟩ := exists_segment (Nat.zero_le s.1) hlt h.start
  have hmem := List.mem_of_getElem? hi
  have hsnd : s'.2 = s.2 := by rw [← (hall s' hmem).gap_eq, ← h.gap_eq, hfst]
  exact Prod.ext hfst hsnd ▸ hmem

/-- Segments that are cut once more, each every so many positions from its start on. -/
theorem piece_iff {fine : Nat → Bool} (len : Nat → Nat) (h0 : 0 < N → cut 0 = true)
    (hfine : ∀ t, Segment cut N t → 0 < len t.1 ∧ ∀ r < t.2, fine (t.1+r) = (r % len t.1 == 0))
    {s : Nat × Nat} : Segment fine N s ↔ ∃ t, Segment cut N t ∧ ∃ i, len t.1 * i < t.2 ∧
      s = (t.1 + len t.1 * i, min (len t.1) (t.2 - len t.1 * i)) := by
  have hat : ∀ t, Segment cut N t → fine t.1 = true := fun t ht => by
    rw [← Nat.add_zero t.1, (hfine t ht).2 0 ht.pos, Nat.zero_mod]
    rfl
  -- behind a segment there is the next one, or nothing
  have hend : ∀ t, Segment cut N t → t.1 + t.2 < N → fine (t.1+t.2) = true := fun t ht hlt => by
    obtain ⟨u, hu, hle, hgt⟩ := exists_segment_of_lt cut h0 hlt
    rcases Nat.lt_or_eq_of_le hle with hlt' | heq
    · have := hu.inner (t.1 + t.2 - u.1) (by omega) (by omega)
      rw [show u.1 + (t.1 + t.2 - u.1) = t.1 + t.2 by omega, ht.next hlt] at this
      cases this
    · exact heq ▸ hat u hu
  constructor
  · intro hs
    have hpos := hs.pos
    have hle := hs.le
    obtain ⟨t, ht, hts, hst⟩ := exists_segment_of_lt cut h0 (show s.1 < N by omega)
    obtain ⟨hk, hf⟩ := hfine t ht
    have htN := ht.le
    have hin : s.1 + s.2 ≤ t.1 + t.2 := by
      by_contra hlt
      have hno := hs.inner (t.1 + t.2 - s.1) (by omega) (by omega)
      rw [show s.1 + (t.1 + t.2 - s.1) = t.1 + t.2 by omega, hend t ht (by omega)] at hno
      cases hno
    refine ⟨t, ht, ?_⟩
    generalize len t.1 = k at hk hf ⊢
    obtain ⟨a, n⟩ := s
    obtain ⟨r, rfl⟩ := Nat.exists_eq_add_of_le hts
    simp only at hpos hle hst hin
    have hr := hs.start
    rw [hf r (by omega), beq_iff_eq] at hr
    obtain ⟨i, rfl⟩ := Nat.dvd_of_mod_eq_zero hr
    have hnk : n ≤ k := by
      by_contra hlt
      have hno := hs.inner k hk (by simp only; omega)
      rw [Nat.add_assoc, hf _ (by omega), Nat.add_mod_right, Nat.mul_mod_right] at hno
      cases hno
    refine ⟨i, by omega, Prod.ext rfl ?_⟩
    simp only
    rcases Nat.lt_or_ge (k*i + n) t.2 with hlt | hge
    · have hnext := hs.next (by simp only; omega)
      rw [Nat.add_assoc, hf _ hlt, beq_iff_eq, Nat.mul_add_mod] at hnext
      have := Nat.le_of_dvd hpos (Nat.dvd_of_mod_eq_zero hnext)
      omega
    · omega
  · rintro ⟨t, ht, i, hi, rfl⟩
    obtain ⟨hk, hf⟩ := hfine t ht
    have htN := ht.le
    have hlast := hend t ht
    generalize len t.1 = k at hk hf hi ⊢
    refine ⟨by simp only; omega, by simp only; omega, ?_, fun r hr0 hr => ?_, fun hlt => ?_⟩
    · simp only
      rw [hf _ hi, Nat.mul_mod_right]
      rfl
    · simp only at hr ⊢
      rw [Nat.add_assoc, hf _ (by omega), Nat.mul_add_mod, Nat.mod_eq_of_lt (by omega)]
      exact beq_eq_false_iff_ne.mpr (by omega)
    · simp only at hlt ⊢
      rcases Nat.lt_or_ge (k*i + k) t.2 with hin | hout
      · rw [Nat.min_eq_left (by omega), Nat.add_assoc, hf _ hin, Nat.add_mod_right,
          Nat.mul_mod_right]
        rfl
      · rw [Nat.min_eq_right (by omega), Nat.add_assoc, Nat.add_sub_cancel' hi.le]
        exact hlast (by omega)

theorem spans_map_range (mem : Nat → Nat) (n : Nat) : spans N ((List.range n).map mem) =
    (List.range n).map fun i => (mem i, (if i+1 < n then mem (i+1) else N) - mem i) := by
  induction n generalizing mem with
  | zero => rfl
  | succ n ih =>
    rw [List.range_succ_eq_map, List.map_cons, List.map_cons, List.map_map, List.map_map]
    cases n with
    | zero => rfl
    | succ n =>
      have hrest := ih (mem ∘ Nat.succ)
      rw [List.range_succ_eq_map, List.map_cons] at hrest ⊢
      rw [spans, hrest]
      refine congrArg₂ List.cons ?_ (List.map_congr_left fun i _ => ?_)
      · rw [if_pos (by omega)]
        rfl
      · simp only [Function.comp_apply, Nat.succ_eq_add_one, Nat.add_lt_add_iff_right]

theorem filter_range' (p : Nat → Bool) (a n : Nat) :
    (List.range' a n).filter p = ((List.range n).filter fun u => p (a+u)).map (a + ·) := by
  rw [List.range'_eq_map_range, List.filter_map]
  rfl

theorem flatMap_blocks (p : Nat → Bool) (a k m : Nat) :
    (List.range m).flatMap (fun w => (List.range' (a+k*w) k).filter p) =
      (List.range' a (k*m)).filter p := by
  induction m with
  | zero => rfl
  | succ m ih =>
    rw [List.range_succ, List.flatMap_append, ih, List.flatMap_singleton, ← List.filter_append,
      List.range'_append_1, Nat.mul_succ]

theorem filter_mod_range {k : Nat} (hk : 0 < k) (n : Nat) :
    (List.range n).filter (fun r => r % k == 0) = (List.range ((n+k-1)/k)).map (k * ·) := by
  induction n with
  | zero =>
    rw [Nat.div_eq_of_lt (by omega)]
    rfl
  | succ n ih =>
    have hn := Nat.div_add_mod n k
    have hr := Nat.mod_lt n hk
    have hdiv : ∀ q x, x < k → (k*q+x)/k = q := by
      intro q x hx
      rw [Nat.mul_add_div hk, Nat.div_eq_of_lt hx, Nat.add_zero]
    have hsucc : (n+1+k-1)/k = n/k + 1 := by
      rw [show n+1+k-1 = k*(n/k+1) + n%k by rw [Nat.mul_succ]; omega, hdiv _ _ hr]
    rw [List.range_succ, List.filter_append, ih, hsucc]
    by_cases h : n % k = 0
    · have hceil : (n+k-1)/k = n/k := by
        rw [show n+k-1 = k*(n/k) + (k-1) by omega, hdiv _ _ (by omega)]
      rw [hceil, List.range_succ, List.map_append, List.filter_cons_of_pos (by simpa using h)]
      simp only [List.filter_nil, List.map_cons, List.map_nil]
      rw [show k*(n/k) = n by omega]
    · have hceil : (n+k-1)/k = n/k + 1 := by
        rw [show n+k-1 = k*(n/k+1) + (n%k-1) by rw [Nat.mul_succ]; omega, hdiv _ _ (by omega)]
      rw [hceil, List.filter_cons_of_neg (by simpa using h), List.filter_nil, List.append_nil]

section Chunks
variable {α : Type*} {k : Nat}

def chunks (k : Nat) (l : List α) : List (List α) :=
  (List.range ((l.length+k-1)/k)).map fun i => (l.drop (k*i)).take k

theorem chunks_nil (hk : 0 < k) : chunks k ([] : List α) = [] := by
  rw [chunks, List.length_nil, Nat.div_eq_of_lt (by omega)]
  rfl

theorem chunks_cons (hk : 0 < k) {l : List α} (hl : l ≠ []) :
    chunks k l = l.take k :: chunks k (l.drop k) := by
  have hlen := List.length_pos_iff.mpr hl
  have hn : (l.length+k-1)/k = ((l.drop k).length+k-1)/k + 1 := by
    rw [List.length_drop, ← Nat.add_div_right _ hk]
    rcases Nat.le_total k l.length with h | h
    · congr 1
      omega
    · have hleft : l.length-k+k-1+k = (k-1) + k*1 := by omega
      have hright : l.length+k-1 = (l.length-1) + k*1 := by omega
      rw [hleft, hright, Nat.add_mul_div_left _ _ hk, Nat.add_mul_div_left _ _ hk,
        Nat.div_eq_of_lt (by omega), Nat.div_eq_of_lt (by omega)]
  rw [chunks, hn, List.range_succ_eq_map, List.map_cons, List.map_map, chunks]
  refine congrArg₂ List.cons rfl (List.map_congr_left fun i _ => ?_)
  rw [List.drop_drop, Function.comp_apply, Nat.succ_eq_add_one, Nat.mul_add, Nat.mul_one,
    Nat.add_comm (k*i)]

theorem chunks_of_length_le (hk : 0 < k) {l : List α} (hne : l ≠ []) (hl : l.length ≤ k) :
    chunks k l = [l] := by
  rw [chunks_cons hk hne, List.take_of_length_le hl, List.drop_of_length_le hl, chunks_nil hk]

theorem chunks_induction (hk : 0 < k) {P : List α → Prop} (hnil : P [])
    (hstep : ∀ l, l ≠ [] → P (l.drop k) → P l) (l : List α) : P l := by
  induction h : l.length using Nat.strongRecOn generalizing l with
  | ind n ih =>
    rcases eq_or_ne l [] with rfl | hne
    · exact hnil
    · have hlen := List.length_pos_iff.mpr hne
      refine hstep l hne (ih _ ?_ _ rfl)
      rw [List.length_drop]
      omega

theorem flatten_chunks (hk : 0 < k) (l : List α) : (chunks k l).flatten = l := by
  induction l using chunks_induction hk with
  | hnil => rw [chunks_nil hk]; rfl
  | hstep l hl ih => rw [chunks_cons hk hl, List.flatten_cons, ih, List.take_append_drop]

theorem chunks_append (hk : 0 < k) {l : List α} (hl : l.length % k = 0) (m : List α) :
    chunks k (l ++ m) = chunks k l ++ chunks k m := by
  induction l using chunks_induction hk with
  | hnil => rw [chunks_nil hk]; rfl
  | hstep l hne ih =>
    have hlen := List.length_pos_iff.mpr hne
    have hle : k ≤ l.length := Nat.le_of_dvd hlen (Nat.dvd_of_mod_eq_zero hl)
    have hmod : (l.drop k).length % k = 0 := by
      rw [List.length_drop, ← Nat.mod_eq_sub_mod hle]
      exact hl
    rw [chunks_cons hk (List.append_ne_nil_of_left_ne_nil hne m), chunks_cons hk hne,
      List.take_append_of_le_length hle, List.drop_append_of_le_length hle, ih hmod,
      List.cons_append]

theorem chunks_take_drop (hk : 0 < k) {m : Nat} (hm : k ∣ m) (l : List α) :
    chunks k l = chunks k (l.take m) ++ chunks k (l.drop m) := by
  rcases Nat.le_total m l.length with h | h
  · rw [← chunks_append hk, List.take_append_drop]
    rw [List.length_take, Nat.min_eq_left h, Nat.mod_eq_zero_of_dvd hm]
  · rw [List.drop_of_length_le h, List.take_of_length_le h, chunks_nil hk, List.append_nil]

theorem chunks_map {β : Type*} (f : α → β) (l : List α) :
    chunks k (l.map f) = (chunks k l).map (List.map f) := by
  rw [chunks, chunks, List.length_map, List.map_map]
  refine List.map_congr_left fun i _ => ?_
  rw [Function.comp_apply, List.map_take, List.map_drop]

theorem forall₂_chunks {β : Type*} {R : α → β → Prop} {l : List α} {m : List β}
    (h : List.Forall₂ R l m) : List.Forall₂ (List.Forall₂ R) (chunks k l) (chunks k m) := by
  rw [chunks, chunks, h.length_eq, List.forall₂_map_left_iff, List.forall₂_map_right_iff,
    List.forall₂_same]
  exact fun i _ => List.forall₂_take _ (List.forall₂_drop _ h)

/-- Related in every chunk: related at any two indices with one quotient. -/
theorem pairwise_chunks (hk : 0 < k) {R : α → α → Prop} {l : List α} :
    (∀ c ∈ chunks k l, c.Pairwise R) ↔
      ∀ i j a b, i < j → i/k = j/k → l[i]? = some a → l[j]? = some b → R a b := by
  have hget : ∀ q r, r < k → ((l.drop (k*q)).take k)[r]? = l[k*q+r]? := by
    intro q r hr
    rw [List.getElem?_take, if_pos hr, List.getElem?_drop]
  constructor
  · intro h i j a b hij hq hi hj
    have hi' := Nat.div_add_mod i k
    have hj' := Nat.div_add_mod j k
    have hil := (List.getElem?_eq_some_iff.mp hi).1
    have hc : (l.drop (k*(i/k))).take k ∈ chunks k l := by
      refine List.mem_map.mpr ⟨i/k, List.mem_range.mpr ?_, rfl⟩
      refine (Nat.lt_div_iff_mul_lt hk).mpr ?_
      rw [Nat.mul_comm]
      omega
    have hir := hget (i/k) (i%k) (Nat.mod_lt i hk)
    have hjr := hget (i/k) (j%k) (Nat.mod_lt j hk)
    rw [hi', hi] at hir
    rw [hq, hj', hj, ← hq] at hjr
    obtain ⟨hil, rfl⟩ := List.getElem?_eq_some_iff.mp hir
    obtain ⟨hjl, rfl⟩ := List.getElem?_eq_some_iff.mp hjr
    exact List.pairwise_iff_getElem.mp (h _ hc) _ _ hil hjl (by rw [hq] at hi'; omega)
  · intro h c hc
    obtain ⟨q, -, rfl⟩ := List.mem_map.mp hc
    rw [List.pairwise_iff_getElem]
    intro i j hi hj hij
    have hik : i < k := hi.trans_le (List.length_take_le _ _)
    have hjk : j < k := hj.trans_le (List.length_take_le _ _)
    refine h (k*q+i) (k*q+j) _ _ (by omega) ?_ ?_ ?_
    · rw [Nat.mul_add_div hk, Nat.mul_add_div hk, Nat.div_eq_of_lt hik, Nat.div_eq_of_lt hjk]
    · rw [← hget q i hik, List.getElem?_eq_getElem hi]
    · rw [← hget q j hjk, List.getElem?_eq_getElem hj]
end Chunks

end Shaper.Lib.Segments
