import Mathlib.Data.Nat.Nth
import Mathlib.Order.Interval.Finset.Nat
import Shaper.Lib.Warp

/-! `warp_memcpy`: every active lane of a warp copies the elements from its rank on, in steps
of the number of active lanes. The rank is read off a shift of the active mask. -/
namespace Shaper.WarpCopy
open Lib.Warp

abbrev Active (mask : BitVec 32) (lane : Nat) : Prop := mask.getLsbD lane = true

def priorCount (mask : BitVec 32) (lane : Nat) : Nat := popc (mask >>> (32-lane))

def copyLoop (num activeCnt : Nat) : Nat → Nat → Option (List Nat)
  | 0, _ => none
  | fuel+1, i =>
    if i < num then (copyLoop num activeCnt fuel ((i+activeCnt)%2^64)).map (i :: ·) else some []

def warpMemcpy (mask : BitVec 32) (num lane fuel : Nat) : Option (List Nat) :=
  copyLoop num (popc mask) fuel (priorCount mask lane)

def Copies (mask : BitVec 32) (num lane i : Nat) : Prop :=
  ∃ fuel l, warpMemcpy mask num lane fuel = some l ∧ i ∈ l

structure SharedOut (mask : BitVec 32) (num : Nat) : Prop where
  returns : ∀ lane, Active mask lane → ∃ fuel l, warpMemcpy mask num lane fuel = some l
  one : ∀ i < num, ∃! lane, Active mask lane ∧ Copies mask num lane i
  inside : ∀ lane i, Active mask lane → Copies mask num lane i → i < num

def firstLanes (mask : BitVec 32) (lane : Nat) : Nat := Nat.count (Active mask) lane
def lastLanes (mask : BitVec 32) (lane : Nat) : Nat :=
  Nat.count (Active mask) 32 - Nat.count (Active mask) (32-lane)

section Loop
variable {num c i k : Nat} {l l' : List Nat}

def Runs (num c i : Nat) (l : List Nat) : Prop := ∃ fuel, copyLoop num c fuel i = some l

theorem runs_iff : Runs num c i l ↔
    num ≤ i ∧ l = [] ∨ i < num ∧ ∃ l', Runs num c ((i+c)%2^64) l' ∧ l = i :: l' := by
  constructor
  · intro ⟨fuel, h⟩
    cases fuel with
    | zero => cases h
    | succ fuel =>
      rw [copyLoop] at h
      split at h
      · rename_i hi
        obtain ⟨l', hl', rfl⟩ := Option.map_eq_some_iff.mp h
        exact .inr ⟨hi, l', ⟨fuel, hl'⟩, rfl⟩
      · rename_i hi
        exact .inl ⟨Nat.le_of_not_lt hi, (Option.some.inj h).symm⟩
  · rintro (⟨hi, rfl⟩ | ⟨hi, l', ⟨fuel, hl'⟩, rfl⟩)
    · exact ⟨1, by rw [copyLoop, if_neg (Nat.not_lt.mpr hi)]⟩
    · exact ⟨fuel+1, by rw [copyLoop, if_pos hi, hl']; rfl⟩

theorem Runs.unique (h : Runs num c i l) (h' : Runs num c i l') : l = l' := by
  induction l generalizing i l' with
  | nil =>
    obtain ⟨hi, -⟩ | ⟨-, _, -, hl⟩ := runs_iff.mp h
    · obtain ⟨-, hl'⟩ | ⟨hi', -⟩ := runs_iff.mp h'
      · exact hl'.symm
      · omega
    · cases hl
  | cons x l ih =>
    obtain ⟨-, hl⟩ | ⟨hi, m, hm, hl⟩ := runs_iff.mp h
    · cases hl
    · cases hl
      obtain ⟨hi', -⟩ | ⟨-, m', hm', rfl⟩ := runs_iff.mp h'
      · omega
      · rw [ih hm hm']

/-- After an element the loop is at the next one, with less to do. -/
theorem Runs.after (h : Runs num c i l) (hk : k ∈ l) :
    ∃ l', Runs num c ((k+c)%2^64) l' ∧ l'.length < l.length ∧ ∀ x ∈ l', x ∈ l := by
  induction l generalizing i with
  | nil => cases hk
  | cons x l ih =>
    obtain ⟨-, hl⟩ | ⟨-, m, hm, hl⟩ := runs_iff.mp h
    · cases hl
    · cases hl
      rcases List.mem_cons.mp hk with rfl | hk
      · exact ⟨l, hm, Nat.lt_succ_self _, fun x hx => List.mem_cons_of_mem _ hx⟩
      · obtain ⟨l', hl', hlen, hmem⟩ := ih hm hk
        exact ⟨l', hl', Nat.lt_succ_of_lt hlen, fun x hx => List.mem_cons_of_mem _ (hmem x hx)⟩

theorem Runs.start (h : Runs num c i l) (hi : i < num) : i ∈ l := by
  obtain ⟨hi', -⟩ | ⟨-, l', -, rfl⟩ := runs_iff.mp h
  · omega
  · exact List.mem_cons_self

theorem Runs.no_return (h : Runs num c i l) (hk : k ∈ l) : (k+c)%2^64 ≠ i := by
  intro heq
  obtain ⟨l', hl', hlen, -⟩ := h.after hk
  rw [heq] at hl'
  rw [h.unique hl'] at hlen
  exact Nat.lt_irrefl _ hlen

/-- If the index does not wrap, the loop takes every step of the stride below `num`. -/
theorem exists_runs (hc : 0 < c) (hwrap : num + c ≤ 2^64) (i : Nat) :
    ∃ l, Runs num c i l ∧ ∀ k, k ∈ l ↔ k < num ∧ ∃ q, k = i + c*q := by
  by_cases hi : i < num
  · have hnext : (i+c)%2^64 = i+c := Nat.mod_eq_of_lt (by omega)
    obtain ⟨l, hl, hmem⟩ := exists_runs hc hwrap (i+c)
    refine ⟨i :: l, runs_iff.mpr (.inr ⟨hi, l, hnext.symm ▸ hl, rfl⟩), fun k => ?_⟩
    rw [List.mem_cons, hmem]
    constructor
    · rintro (rfl | ⟨hk, q, rfl⟩)
      · exact ⟨hi, 0, by omega⟩
      · exact ⟨hk, q+1, by rw [Nat.mul_succ]; omega⟩
    · intro ⟨hk, q, hq⟩
      cases q with
      | zero => exact .inl (by omega)
      | succ q => exact .inr ⟨hk, q, by rw [hq, Nat.mul_succ]; omega⟩
  · refine ⟨[], runs_iff.mpr (.inl ⟨Nat.le_of_not_lt hi, rfl⟩), fun k => ?_⟩
    constructor
    · intro hk
      cases hk
    · intro ⟨hk, q, hq⟩
      omega
termination_by num - i

end Loop

section Ranks
variable {mask : BitVec 32} {num lane : Nat}

theorem Active.lt (h : Active mask lane) : lane < 32 := BitVec.lt_of_getLsbD h

theorem count_beyond (n : Nat) : Nat.count (Active mask) (32+n) = Nat.count (Active mask) 32 := by
  have hzero : Nat.count (fun k => Active mask (32+k)) n = 0 := by
    rw [Nat.count_iff_forall_not]
    intro k _ hk
    have := hk.lt
    omega
  rw [Nat.count_add, hzero, Nat.add_zero]

theorem popc_eq_count (mask : BitVec 32) : popc mask = Nat.count (Active mask) 32 := by
  apply List.countP_congr
  intro lane _
  simp

theorem priorCount_eq (mask : BitVec 32) (lane : Nat) :
    priorCount mask lane = lastLanes mask lane := by
  have hshift : priorCount mask lane = Nat.count (fun k => Active mask (32-lane+k)) 32 := by
    apply List.countP_congr
    intro k _
    simp
  have hadd := Nat.count_add (p := Active mask) (32-lane) 32
  rw [Nat.add_comm, count_beyond] at hadd
  rw [hshift, lastLanes]
  omega

theorem lastLanes_le (mask : BitVec 32) (lane : Nat) : lastLanes mask lane ≤ popc mask := by
  rw [popc_eq_count, lastLanes]
  omega

theorem lastLanes_mono {lane' : Nat} (h : lane ≤ lane') :
    lastLanes mask lane ≤ lastLanes mask lane' := by
  have := Nat.count_monotone (Active mask) (show 32-lane' ≤ 32-lane by omega)
  rw [lastLanes, lastLanes]
  omega

theorem firstLanes_lt (h : Active mask lane) : firstLanes mask lane < popc mask := by
  rw [popc_eq_count]
  exact Nat.count_strict_mono h h.lt

theorem exists_rank {j : Nat} (hj : j < popc mask) : ∃ lane, Active mask lane ∧
    firstLanes mask lane = j := by
  rw [popc_eq_count] at hj
  have hcard := fun hf => hj.trans_le (Nat.count_le_card hf 32)
  exact ⟨Nat.nth _ j, Nat.nth_mem _ hcard, Nat.count_nth hcard⟩

theorem popc_pos (h : mask ≠ 0#32) : 0 < popc mask := by
  obtain ⟨lane, -, hlane, -⟩ := exists_least mask h
  exact Nat.zero_lt_of_lt (firstLanes_lt hlane)

end Ranks

section Lanes
variable {mask : BitVec 32} {num lane lane' i : Nat}

theorem copies_iff_runs : Copies mask num lane i ↔
    ∃ l, Runs num (popc mask) (lastLanes mask lane) l ∧ i ∈ l := by
  rw [← priorCount_eq]
  constructor
  · intro ⟨fuel, l, hl, hi⟩
    exact ⟨l, ⟨fuel, hl⟩, hi⟩
  · intro ⟨l, ⟨fuel, hl⟩, hi⟩
    exact ⟨fuel, l, hl, hi⟩

theorem copies_iff (hmask : mask ≠ 0#32) (hwrap : num + popc mask ≤ 2^64) :
    Copies mask num lane i ↔ i < num ∧ ∃ q, i = lastLanes mask lane + popc mask * q := by
  obtain ⟨l, hl, hmem⟩ := exists_runs (popc_pos hmask) hwrap (lastLanes mask lane)
  rw [copies_iff_runs, ← hmem]
  constructor
  · intro ⟨l', hl', hi⟩
    rwa [hl.unique hl']
  · intro hi
    exact ⟨l, hl, hi⟩

namespace SharedOut

theorem runs (h : SharedOut mask num) (hl : Active mask lane) :
    ∃ l, Runs num (popc mask) (lastLanes mask lane) l := by
  obtain ⟨fuel, l, hl⟩ := h.returns lane hl
  exact ⟨l, fuel, priorCount_eq mask lane ▸ hl⟩

theorem copies_start (h : SharedOut mask num) (hl : Active mask lane)
    (hs : lastLanes mask lane < num) : Copies mask num lane (lastLanes mask lane) := by
  obtain ⟨l, hrun⟩ := h.runs hl
  exact copies_iff_runs.mpr ⟨l, hrun, hrun.start hs⟩

theorem lane_eq (h : SharedOut mask num) (hl : Active mask lane) (hl' : Active mask lane')
    (hi : i < num) (hc : Copies mask num lane i) (hc' : Copies mask num lane' i) : lane = lane' :=
  (h.one i hi).unique ⟨hl, hc⟩ ⟨hl', hc'⟩

theorem start_inj (h : SharedOut mask num) (hl : Active mask lane) (hl' : Active mask lane')
    (hs : lastLanes mask lane < num) (heq : lastLanes mask lane = lastLanes mask lane') :
    lane = lane' := by
  apply h.lane_eq hl hl' hs (h.copies_start hl hs)
  rw [heq] at hs ⊢
  exact h.copies_start hl' hs

/-- With no lane at the first element there is one at each of the next ones. -/
theorem exists_last_start (h : SharedOut mask num) (hnum : popc mask < num)
    (hzero : ∀ lane, Active mask lane → lastLanes mask lane ≠ 0) (hpos : 0 < popc mask) :
    ∃ lane, Active mask lane ∧ lastLanes mask lane = popc mask := by
  let lanes := (Finset.range 32).filter (Active mask)
  have hcard : (Finset.Icc 1 (popc mask)).card ≤ lanes.card := by
    rw [Nat.card_Icc, ← Nat.count_eq_card_filter_range, ← popc_eq_count]
    omega
  have hmaps : Set.MapsTo (lastLanes mask) lanes (Finset.Icc 1 (popc mask)) := by
    intro lane hl
    have hl := (Finset.mem_filter.mp hl).2
    exact Finset.mem_coe.mpr
      (Finset.mem_Icc.mpr ⟨Nat.pos_of_ne_zero (hzero lane hl), lastLanes_le mask lane⟩)
  have hinj : Set.InjOn (lastLanes mask) lanes := by
    intro lane hl lane' hl' heq
    exact h.start_inj (Finset.mem_filter.mp hl).2 (Finset.mem_filter.mp hl').2
      ((lastLanes_le mask lane).trans_lt hnum) heq
  obtain ⟨lane, hl, heq⟩ := Finset.surjOn_of_injOn_of_card_le _ hmaps hinj hcard
    (Finset.mem_coe.mpr (Finset.mem_Icc.mpr ⟨hpos, Nat.le_refl _⟩))
  exact ⟨lane, (Finset.mem_filter.mp hl).2, heq⟩

/-- The index of no lane wraps: it would come back to an element that is taken. -/
theorem no_wrap (h : SharedOut mask num) (hmask : mask ≠ 0#32) : num + popc mask ≤ 2^64 := by
  by_contra hwrap
  have hpos := popc_pos hmask
  have hle : popc mask ≤ 32 := by
    rw [popc_eq_count]
    exact Nat.count_le _
  have hlast : 2^64 - popc mask < num := by omega
  obtain ⟨lane, ⟨hl, hc⟩, -⟩ := h.one _ hlast
  obtain ⟨l, hrun, hmem⟩ := copies_iff_runs.mp hc
  have hback : (2^64 - popc mask + popc mask) % 2^64 = 0 := by omega
  obtain ⟨l', hrun', hlen, hsub⟩ := hrun.after hmem
  rw [hback] at hrun'
  have hzero : 0 ∈ l' := hrun'.start (by omega)
  have hc0 : Copies mask num lane 0 := copies_iff_runs.mpr ⟨l, hrun, hsub 0 hzero⟩
  by_cases hstart : ∃ lane', Active mask lane' ∧ lastLanes mask lane' = 0
  · obtain ⟨lane', hl', hs⟩ := hstart
    have hc' := h.copies_start hl' (by omega)
    rw [hs] at hc'
    obtain rfl := h.lane_eq hl hl' (by omega) hc0 hc'
    exact hrun.no_return hmem (hback.trans hs.symm)
  · push Not at hstart
    obtain ⟨lane', hl', hs⟩ := h.exists_last_start (by omega) hstart hpos
    have hc' := h.copies_start hl' (by omega)
    rw [hs] at hc'
    have hnext : (0 + popc mask) % 2^64 = popc mask := by omega
    obtain ⟨l'', hrun'', -, hsub'⟩ := hrun'.after hzero
    rw [hnext] at hrun''
    have hc : Copies mask num lane (popc mask) :=
      copies_iff_runs.mpr ⟨l, hrun, hsub _ (hsub' _ (hrun''.start (by omega)))⟩
    obtain rfl := h.lane_eq hl hl' (by omega) hc hc'
    exact hrun.no_return (hsub 0 hzero) (hnext.trans hs.symm)

theorem exists_start (h : SharedOut mask num) (hmask : mask ≠ 0#32) (hi : i < num)
    (hc : i < popc mask) : ∃ lane, Active mask lane ∧ lastLanes mask lane = i := by
  obtain ⟨lane, ⟨hl, hcopy⟩, -⟩ := h.one i hi
  obtain ⟨-, q, hq⟩ := (copies_iff hmask (h.no_wrap hmask)).mp hcopy
  cases q with
  | zero => exact ⟨lane, hl, hq.symm⟩
  | succ q =>
    rw [Nat.mul_succ] at hq
    omega

/-- The lanes start in the order of their ranks, by induction on the rank: a lane that starts
elsewhere takes the element of an earlier one or leaves its own to a later one. -/
theorem starts (h : SharedOut mask num) (hmask : mask ≠ 0#32) (hl : Active mask lane) :
    min (lastLanes mask lane) num = min (firstLanes mask lane) num := by
  induction hr : firstLanes mask lane using Nat.strong_induction_on generalizing lane with
  | _ rank ih =>
    have hlow : ∀ {j}, j < rank → j < num → lastLanes mask lane ≠ j := by
      intro j hj hnum hs
      have hlt := firstLanes_lt hl
      have hcount : j < popc mask := by omega
      obtain ⟨lane', hl', hrank⟩ := exists_rank hcount
      have hs' := ih j hj hl' hrank
      have heq : lastLanes mask lane = lastLanes mask lane' := by omega
      obtain rfl := h.start_inj hl hl' (by omega) heq
      omega
    by_cases hnum : rank < num
    · obtain ⟨lane', hl', hs'⟩ := h.exists_start hmask hnum (hr ▸ firstLanes_lt hl)
      rcases Nat.lt_trichotomy lane lane' with hlt | rfl | hlt
      · have hmono : lastLanes mask lane ≤ lastLanes mask lane' := lastLanes_mono (Nat.le_of_lt hlt)
        by_cases hs : lastLanes mask lane < rank
        · exact absurd rfl (hlow hs (by omega))
        · obtain rfl := h.start_inj hl hl' (by omega) (by omega)
          omega
      · rw [hs']
      · have hrank : firstLanes mask lane' < rank := hr ▸ Nat.count_strict_mono hl' hlt
        have := ih _ hrank hl' rfl
        omega
    · by_cases hs : lastLanes mask lane < num
      · exact absurd rfl (hlow (by omega) hs)
      · omega

end SharedOut

theorem sharedOut (hmask : mask ≠ 0#32) (hwrap : num + popc mask ≤ 2^64)
    (hstart : ∀ lane, Active mask lane →
      min (lastLanes mask lane) num = min (firstLanes mask lane) num) :
    SharedOut mask num where
  returns lane _ := by
    obtain ⟨l, ⟨fuel, hl⟩, -⟩ := exists_runs (popc_pos hmask) hwrap (lastLanes mask lane)
    refine ⟨fuel, l, ?_⟩
    rwa [warpMemcpy, priorCount_eq]
  one i hi := by
    have hmod := Nat.mod_lt i (popc_pos hmask)
    have hle := Nat.mod_le i (popc mask)
    obtain ⟨lane, hl, hrank⟩ := exists_rank hmod
    have hs := hstart lane hl
    refine ⟨lane, ⟨hl, (copies_iff hmask hwrap).mpr ⟨hi, i / popc mask, ?_⟩⟩, ?_⟩
    · have hdiv := Nat.mod_add_div i (popc mask)
      have heq : lastLanes mask lane = i % popc mask := by omega
      rw [heq, hdiv]
    · rintro lane' ⟨hl', hc'⟩
      obtain ⟨-, q, hq⟩ := (copies_iff hmask hwrap).mp hc'
      have hs' := hstart lane' hl'
      have hrank' : firstLanes mask lane' = lastLanes mask lane' := by omega
      have hlt' := firstLanes_lt hl'
      apply Nat.count_injective hl' hl
      change firstLanes mask lane' = firstLanes mask lane
      rw [hrank, hq, Nat.add_mul_mod_self_left, ← hrank', Nat.mod_eq_of_lt hlt']
  inside lane i _ hc := ((copies_iff hmask hwrap).mp hc).1

end Lanes

/-- A warp copies every element once exactly if the mask looks the same from both ends, as far
as the elements reach, and the index does not wrap. -/
theorem warp_copy_covers (mask : BitVec 32) (num : Nat) (hmask : mask ≠ 0#32) :
    SharedOut mask num ↔
      (∀ lane, Active mask lane → min (lastLanes mask lane) num = min (firstLanes mask lane) num) ∧
        num + popc mask ≤ 2^64 := by
  constructor
  · intro h
    exact ⟨fun lane hl => h.starts hmask hl, h.no_wrap hmask⟩
  · intro ⟨hstart, hwrap⟩
    exact sharedOut hmask hwrap hstart

/-- The full warp, with the number of elements that `array_d_t::memcpy` asks for. -/
theorem full_warp_covers : SharedOut 0xFFFFFFFF#32 16 := by
  apply (warp_copy_covers 0xFFFFFFFF#32 16 (by decide)).mpr
  have hall : ∀ lane < 32, Active 0xFFFFFFFF#32 lane →
      min (lastLanes 0xFFFFFFFF#32 lane) 16 = min (firstLanes 0xFFFFFFFF#32 lane) 16 := by decide
  exact ⟨fun lane hl => hall lane hl.lt hl, by decide⟩

/-- With lanes 0 and 1 active both start at element 0, and element 1 of two is left out. -/
theorem two_lanes_leave_one_out :
    (3#32 : BitVec 32) ≠ 0#32 ∧ ¬ ∃ lane, Active 3#32 lane ∧ Copies 3#32 2 lane 1 := by
  refine ⟨by decide, ?_⟩
  intro ⟨lane, hl, hc⟩
  obtain ⟨-, q, hq⟩ := (copies_iff (by decide) (by decide)).mp hc
  have hstart : ∀ lane < 32, Active 3#32 lane → lastLanes 3#32 lane = 0 := by decide
  have hcount : popc (3#32) = 2 := by decide
  rw [hstart lane hl.lt hl, hcount] at hq
  omega

end Shaper.WarpCopy
