import Shaper.Lib.Warp
import Shaper.Request

/-! The two ways of the write kernel to collect the ready requests of a ring that stands
still: warp ballots over rounds of 128 slots, and thread 0's scan. -/
namespace Shaper.Drain
open Lib.Warp Request Function

structure Queue where
  capacity : BitVec 32
  capacityMask : BitVec 32
  prodTail : BitVec 32
  prodSeq : BitVec 32 → BitVec 32
  entries : BitVec 32 → IoRequest
  base : BitVec 32

structure Cell where
  key : BitVec 64
  pc : BitVec 64
  nb : BitVec 8
  val : BitVec 32

structure Accumulated where
  count : BitVec 32
  cells : Nat → Cell
  touched : List Nat

namespace Queue
variable (q : Queue)

def ready (slot : BitVec 32) : Bool := q.prodSeq (slot &&& q.capacityMask) == slot + 1#32

def copy (acc : BitVec 32) (s : Accumulated) (i : Nat) : Accumulated :=
  let e := q.entries ((q.base + acc + BitVec.ofNat 32 i) &&& q.capacityMask)
  let at_ := acc + BitVec.ofNat 32 i
  { s with
    cells := update s.cells at_.toNat ⟨e.byteOffset, e.pcEntry, e.nBytesLog2, at_⟩
    touched := at_.toNat :: s.touched }

def collect (s : Accumulated) (is : List Nat) (avail : BitVec 32) : Accumulated :=
  { is.foldl (q.copy s.count) s with count := s.count + avail }

def scanFrom (start : BitVec 32) : Nat → BitVec 32 → BitVec 32
  | 0, i => i
  | left+1, i => if q.ready (start + i) then scanFrom start left (i + 1#32) else i

def ioSchedScanReady (start maxCount : BitVec 32) : BitVec 32 :=
  let pending := q.prodTail - start
  let pending := if maxCount < pending then maxCount else pending
  q.scanFrom start pending.toNat 0#32

def roundMax (acc : BitVec 32) : BitVec 32 :=
  let pending := q.prodTail - (q.base + acc)
  let room := q.capacity - acc
  let avail := if pending < room then pending else room
  if 128#32 < avail then 128#32 else avail

def vote (acc : BitVec 32) (tid : Nat) : Bool :=
  decide (tid < (q.roundMax acc).toNat) && q.ready (q.base + acc + BitVec.ofNat 32 tid)

def roundAvail (acc : BitVec 32) : BitVec 32 :=
  let a := BitVec.ofNat 32 (leadCount (warpBallots (q.vote acc) 4 0))
  if q.roundMax acc < a then q.roundMax acc else a

def parallelRound (s : Accumulated) : Accumulated :=
  let avail := q.roundAvail s.count
  if 0#32 < avail then
    q.collect s ((List.range kSchedThreads).filter (· < avail.toNat)) avail
  else s

def parallelDrain : Nat → Accumulated → Option Accumulated
  | 0, _ => none
  | fuel+1, s =>
    let s' := q.parallelRound s
    if q.roundAvail s.count = 128#32 then parallelDrain fuel s'
    else if 0#32 < q.ioSchedScanReady (q.base + s'.count) (q.capacity - s'.count) then
      parallelDrain fuel s'
    else some s'

def strided (avail : Nat) : List Nat :=
  (List.range kSchedThreads).flatMap fun tid =>
    (List.range ((avail + (kSchedThreads - 1) - tid) / kSchedThreads)).map (tid + kSchedThreads * ·)

def serialDrain : Nat → Accumulated → Option Accumulated
  | 0, _ => none
  | fuel+1, s =>
    let avail := q.ioSchedScanReady (q.base + s.count) (q.capacity - s.count)
    if 0#32 < avail then serialDrain fuel (q.collect s (strided avail.toNat) avail) else some s

end Queue

structure Gap (ok : Nat → Bool) (bound n : Nat) : Prop where
  le : n ≤ bound
  all : ∀ k < n, ok k = true
  stop : n < bound → ok n = false

section Gaps
variable {ok ok' : Nat → Bool} {bound bound' n m : Nat}

theorem Gap.unique (h : Gap ok bound n) (h' : Gap ok bound m) : n = m := by
  rcases Nat.lt_trichotomy n m with hlt | heq | hlt
  · have := h.stop (hlt.trans_le h'.le)
    rw [h'.all n hlt] at this
    cases this
  · exact heq
  · have := h'.stop (hlt.trans_le h.le)
    rw [h.all m hlt] at this
    cases this

theorem exists_gap (ok : Nat → Bool) (bound : Nat) : ∃ n, Gap ok bound n := by
  induction bound with
  | zero =>
    exact ⟨0, le_rfl, fun k hk => absurd hk (Nat.not_lt_zero k),
      fun h => absurd h (Nat.lt_irrefl 0)⟩
  | succ bound ih =>
    obtain ⟨n, h⟩ := ih
    rcases Nat.lt_or_eq_of_le h.le with hlt | rfl
    · exact ⟨n, by omega, h.all, fun _ => h.stop hlt⟩
    · cases hok : ok n with
      | false => exact ⟨n, by omega, h.all, fun _ => hok⟩
      | true =>
        refine ⟨n+1, le_rfl, fun k hk => ?_, fun hlt => absurd hlt (Nat.lt_irrefl _)⟩
        rcases Nat.lt_succ_iff_lt_or_eq.mp hk with hk | rfl
        · exact h.all k hk
        · exact hok

theorem Gap.shift (h : Gap ok bound n) {a : Nat} (ha : a ≤ n) :
    Gap (fun k => ok (a + k)) (bound - a) (n - a) where
  le := Nat.sub_le_sub_right h.le a
  all k hk := h.all (a + k) (by omega)
  stop hlt := by
    rw [Nat.add_sub_cancel' ha]
    exact h.stop (by omega)

theorem Gap.cut (h : Gap ok bound n) (b : Nat) : Gap ok (min bound b) (min n b) where
  le := by have := h.le; omega
  all k hk := h.all k (by omega)
  stop hlt := by
    have := h.le
    rw [Nat.min_eq_left (by omega)]
    exact h.stop (by omega)

end Gaps

namespace Queue
variable {q : Queue} {a n : Nat} {acc : BitVec 32} {s : Accumulated} {cells : Nat → Cell}

def bound (q : Queue) : Nat := min (q.prodTail - q.base).toNat q.capacity.toNat

def readyAt (q : Queue) (k : Nat) : Bool := q.ready (q.base + BitVec.ofNat 32 k)

theorem bound_lt (q : Queue) : q.bound < 2^32 := by
  have := q.capacity.isLt
  unfold bound
  omega

theorem rest_eq (ha : a ≤ q.bound) (hacc : acc = BitVec.ofNat 32 a) :
    min (q.prodTail - (q.base + acc)).toNat (q.capacity - acc).toNat = q.bound - a := by
  have hlt := q.bound_lt
  have hnat : acc.toNat = a := by rw [hacc, BitVec.toNat_ofNat, Nat.mod_eq_of_lt (by omega)]
  unfold bound at ha ⊢
  have hsub : q.prodTail - (q.base + acc) = q.prodTail - q.base - acc := by bv_omega
  have htail : (q.prodTail - q.base - acc).toNat = (q.prodTail - q.base).toNat - acc.toNat :=
    BitVec.toNat_sub_of_le (BitVec.le_def.mpr (by omega))
  have hroom : (q.capacity - acc).toNat = q.capacity.toNat - acc.toNat :=
    BitVec.toNat_sub_of_le (BitVec.le_def.mpr (by omega))
  rw [hsub, htail, hroom, hnat]
  omega

theorem readyAt_add (hacc : acc = BitVec.ofNat 32 a) (k : Nat) :
    q.ready (q.base + acc + BitVec.ofNat 32 k) = q.readyAt (a + k) := by
  rw [readyAt, hacc, BitVec.ofNat_add, BitVec.add_assoc]

theorem scanFrom_gap (start : BitVec 32) (left i : Nat) (hi : i + left < 2^32) :
    ∃ m, q.scanFrom start left (BitVec.ofNat 32 i) = BitVec.ofNat 32 (i + m) ∧
      Gap (fun k => q.ready (start + BitVec.ofNat 32 (i + k))) left m := by
  induction left generalizing i with
  | zero =>
    exact ⟨0, rfl, le_rfl, fun k hk => absurd hk (Nat.not_lt_zero k),
      fun h => absurd h (Nat.lt_irrefl 0)⟩
  | succ left ih =>
    rw [scanFrom]
    split_ifs with hr
    · obtain ⟨m, hm, hgap⟩ := ih (i+1) (by omega)
      refine ⟨m+1, ?_, by have := hgap.le; omega, fun k hk => ?_, fun hlt => ?_⟩
      · rw [← BitVec.ofNat_add, hm]
        congr 1
        omega
      · cases k with
        | zero => exact hr
        | succ k =>
          have := hgap.all k (by omega)
          rwa [Nat.add_right_comm] at this
      · have := hgap.stop (by omega)
        rwa [Nat.add_right_comm] at this
    · refine ⟨0, rfl, Nat.zero_le _, fun k hk => absurd hk (Nat.not_lt_zero k), fun _ => ?_⟩
      simpa using hr

theorem scan_eq (h : Gap q.readyAt q.bound n) (ha : a ≤ n) (hacc : acc = BitVec.ofNat 32 a) :
    (q.ioSchedScanReady (q.base + acc) (q.capacity - acc)).toNat = n - a := by
  have hlt := q.bound_lt
  have hle := h.le
  have hrest := rest_eq (ha.trans h.le) hacc
  unfold ioSchedScanReady
  have hpend : (if q.capacity - acc < q.prodTail - (q.base + acc) then q.capacity - acc
      else q.prodTail - (q.base + acc)).toNat = q.bound - a := by
    rw [← hrest]
    simp only [BitVec.lt_def]
    split_ifs <;> omega
  simp only [hpend]
  obtain ⟨m, hm, hgap⟩ := scanFrom_gap (q := q) (q.base + acc) (q.bound - a) 0 (by omega)
  simp only [Nat.zero_add, readyAt_add hacc] at hm hgap
  rw [hm, hgap.unique (h.shift ha), BitVec.toNat_ofNat, Nat.mod_eq_of_lt (by omega)]

theorem roundAvail_eq (h : Gap q.readyAt q.bound n) (ha : a ≤ n) (hacc : acc = BitVec.ofNat 32 a) :
    (q.roundAvail acc).toNat = min (n - a) 128 := by
  have hrest := rest_eq (ha.trans h.le) hacc
  have hmax : (q.roundMax acc).toNat = min (q.bound - a) 128 := by
    rw [← hrest]
    unfold roundMax
    simp only [BitVec.lt_def]
    split_ifs <;> simp only [BitVec.toNat_ofNat] at * <;> omega
  obtain ⟨hall, hle, hstop⟩ := leadCount_spec (q.vote acc) 4 0
  simp only [Nat.zero_add, vote, readyAt_add hacc, hmax] at hall hle hstop
  have hlead : leadCount (warpBallots (q.vote acc) 4 0) = min (n - a) 128 := by
    refine Gap.unique ⟨?_, fun k hk => ?_, fun hlt => ?_⟩ ((h.shift ha).cut 128)
    · by_contra hgt
      have := hall _ (Nat.lt_of_not_le hgt)
      simp only [Bool.and_eq_true, decide_eq_true_eq] at this
      omega
    · have := hall k hk
      rw [Bool.and_eq_true] at this
      exact this.2
    · have := hstop (by omega)
      rwa [decide_eq_true hlt, Bool.true_and] at this
  unfold roundAvail
  simp only [hlead, BitVec.lt_def, hmax, BitVec.toNat_ofNat]
  have := h.le
  rw [if_neg (by omega), BitVec.toNat_ofNat]
  omega

def cellAt (q : Queue) (c : Nat) : Cell :=
  let e := q.entries ((q.base + BitVec.ofNat 32 c) &&& q.capacityMask)
  ⟨e.byteOffset, e.pcEntry, e.nBytesLog2, BitVec.ofNat 32 c⟩

structure Taken (q : Queue) (cells : Nat → Cell) (a : Nat) (s : Accumulated) : Prop where
  count_eq : s.count = BitVec.ofNat 32 a
  cells_eq : s.cells = fun c => if c < a then q.cellAt c else cells c
  touched_lt : ∀ i ∈ s.touched, i < a

theorem copy_eq (hacc : acc = BitVec.ofNat 32 a) {i : Nat} (hi : a + i < 2^32) (s : Accumulated) :
    q.copy acc s i = { s with
      cells := update s.cells (a + i) (q.cellAt (a + i))
      touched := (a + i) :: s.touched } := by
  subst hacc
  have hat : (BitVec.ofNat 32 a + BitVec.ofNat 32 i).toNat = a + i := by
    rw [← BitVec.ofNat_add, BitVec.toNat_ofNat, Nat.mod_eq_of_lt hi]
  simp only [copy, cellAt, BitVec.ofNat_add, BitVec.add_assoc, hat]

theorem fold_copy (hacc : acc = BitVec.ofNat 32 a) (is : List Nat) (his : ∀ i ∈ is, a + i < 2^32)
    (s : Accumulated) :
    (is.foldl (q.copy acc) s).cells =
    (fun c => if c ∈ is.map (a + ·) then q.cellAt c else s.cells c) ∧
      ∀ i ∈ (is.foldl (q.copy acc) s).touched, i ∈ s.touched ∨ i ∈ is.map (a + ·) := by
  induction is generalizing s with
  | nil => exact ⟨by simp, fun i hi => .inl hi⟩
  | cons i is ih =>
    rw [List.foldl_cons, copy_eq hacc (his i List.mem_cons_self)]
    obtain ⟨hcells, htouched⟩ := ih (fun i hi => his i (List.mem_cons_of_mem _ hi)) { s with
      cells := update s.cells (a + i) (q.cellAt (a + i))
      touched := (a + i) :: s.touched }
    constructor
    · rw [hcells]
      funext c
      simp only [List.map_cons, List.mem_cons, update_apply]
      by_cases hc : c = a + i
      · subst hc
        simp
      · simp [hc]
    · intro c hc
      rw [List.map_cons]
      rcases htouched c hc with h | h
      · rcases List.mem_cons.mp h with rfl | h
        · exact .inr List.mem_cons_self
        · exact .inl h
      · exact .inr (List.mem_cons_of_mem _ h)

theorem Taken.collect (h : Taken q cells a s) {is : List Nat} {avail : BitVec 32}
    (his : ∀ i, i ∈ is ↔ i < avail.toNat) (hlt : a + avail.toNat < 2^32) :
    Taken q cells (a + avail.toNat) (q.collect s is avail) := by
  obtain ⟨hcells, htouched⟩ := fold_copy (q := q) h.count_eq is
    (fun i hi => by have := (his i).mp hi; omega) s
  have hmem (c : Nat) : c ∈ is.map (a + ·) ↔ a ≤ c ∧ c < a + avail.toNat := by
    rw [List.mem_map]
    constructor
    · rintro ⟨i, hi, rfl⟩
      have := (his i).mp hi
      omega
    · intro hc
      exact ⟨c - a, (his _).mpr (by omega), by omega⟩
  refine ⟨?_, ?_, fun i hi => ?_⟩
  · simp only [Queue.collect, h.count_eq, BitVec.ofNat_add, BitVec.ofNat_toNat, BitVec.setWidth_eq]
  · simp only [Queue.collect, hcells, hmem, h.cells_eq]
    funext c
    split_ifs <;> first | rfl | omega
  · rcases htouched i hi with hi | hi
    · have := h.touched_lt i hi
      omega
    · exact ((hmem i).mp hi).2

theorem mem_strided {avail i : Nat} : i ∈ strided avail ↔ i < avail := by
  simp only [strided, List.mem_flatMap, List.mem_range, List.mem_map, kSchedThreads]
  constructor
  · rintro ⟨tid, htid, k, hk, rfl⟩
    omega
  · intro hi
    exact ⟨i % 128, by omega, i / 128, by omega, by omega⟩

theorem serialDrain_eq (h : Gap q.readyAt q.bound n) (hs : Taken q cells a s) (ha : a ≤ n)
    (fuel : Nat) : ∃ s', q.serialDrain (fuel+2) s = some s' ∧ Taken q cells n s' := by
  have hlt := q.bound_lt
  have hle := h.le
  have hstop {s : Accumulated} (hs : Taken q cells n s) (fuel : Nat) :
    q.serialDrain (fuel+1) s = some s := by
    have hscan := scan_eq h le_rfl hs.count_eq
    rw [serialDrain]
    simp only [BitVec.lt_def, hscan, Nat.sub_self, BitVec.toNat_ofNat]
    rfl
  rcases Nat.lt_or_eq_of_le ha with hlt' | rfl
  · have hscan := scan_eq h ha hs.count_eq
    have hnext := hs.collect (fun i => mem_strided) (by rw [hscan]; omega)
    rw [hscan, Nat.add_sub_cancel' ha] at hnext
    refine ⟨_, ?_, hnext⟩
    rw [serialDrain]
    simp only [BitVec.lt_def, hscan]
    rw [if_pos (by rw [BitVec.toNat_ofNat]; omega), hstop hnext]
  · exact ⟨s, hstop hs (fuel+1), hs⟩

/-- The rounds take 128 at a time, and the scan after the last finds no more. -/
theorem parallelDrain_eq (h : Gap q.readyAt q.bound n) (hs : Taken q cells a s) (ha : a ≤ n)
    (fuel : Nat) (hfuel : n - a < fuel) : ∃ s', q.parallelDrain fuel s = some s' ∧
    Taken q cells n s' := by
  have hlt := q.bound_lt
  have hle := h.le
  induction fuel generalizing a s with
  | zero => omega
  | succ fuel ih =>
    have havail := roundAvail_eq h ha hs.count_eq
    have hround : Taken q cells (a + min (n - a) 128) (q.parallelRound s) := by
      unfold parallelRound
      simp only [BitVec.lt_def, BitVec.toNat_ofNat]
      split_ifs with hpos
      · rw [← havail]
        refine hs.collect (fun i => ?_) (by rw [havail]; omega)
        rw [List.mem_filter, List.mem_range, decide_eq_true_eq, kSchedThreads]
        omega
      · rw [havail] at hpos
        rw [show a + min (n - a) 128 = a by omega]
        exact hs
    rw [parallelDrain]
    by_cases hfull : q.roundAvail s.count = 128#32
    · rw [if_pos hfull]
      have : (q.roundAvail s.count).toNat = 128 := by rw [hfull]; rfl
      exact ih hround (by omega) (by omega)
    · have hpart : min (n - a) 128 = n - a := by
        by_contra hne
        refine hfull (BitVec.eq_of_toNat_eq ?_)
        rw [havail, BitVec.toNat_ofNat]
        omega
      rw [hpart, Nat.add_sub_cancel' ha] at hround
      have hscan := scan_eq h le_rfl hround.count_eq
      rw [if_neg hfull, if_neg (by rw [BitVec.lt_def, hscan, BitVec.toNat_ofNat]; omega)]
      exact ⟨_, rfl, hround⟩

end Queue

def start (cells : Nat → Cell) : Accumulated := ⟨0#32, cells, []⟩

/-- Both drains end with the same number of entries and the same arrays, inside them. -/
theorem drains_agree (q : Queue) (cells : Nat → Cell) :
    ∃ fuel s s', q.parallelDrain fuel (start cells) = some s ∧
    q.serialDrain fuel (start cells) = some s' ∧
      s.count = s'.count ∧ s.cells = s'.cells ∧ ∀ i ∈ s.touched ++ s'.touched,
      i < q.capacity.toNat := by
  obtain ⟨n, hgap⟩ := exists_gap q.readyAt q.bound
  have hstart : q.Taken cells 0 (start cells) :=
    ⟨rfl, by simp [start], fun i hi => absurd hi List.not_mem_nil⟩
  obtain ⟨s, hs, htaken⟩ := Queue.parallelDrain_eq hgap hstart (Nat.zero_le n) (n+2) (by omega)
  obtain ⟨s', hs', htaken'⟩ := Queue.serialDrain_eq hgap hstart (Nat.zero_le n) n
  refine ⟨n+2, s, s', hs, hs', ?_, ?_, fun i hi => ?_⟩
  · rw [htaken.count_eq, htaken'.count_eq]
  · rw [htaken.cells_eq, htaken'.cells_eq]
  · have hn : n ≤ q.capacity.toNat := hgap.le.trans (Nat.min_le_right _ _)
    rcases List.mem_append.mp hi with hi | hi
    · exact (htaken.touched_lt i hi).trans_le hn
    · exact (htaken'.touched_lt i hi).trans_le hn

end Shaper.Drain
