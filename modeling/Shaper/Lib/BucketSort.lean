import Mathlib.Data.List.Basic
import Mathlib.Data.List.Perm.Basic
import Mathlib.Data.List.Nodup
import Mathlib.Data.List.Range
import Mathlib.Logic.Function.Basic
import Mathlib.Algebra.Order.Ring.Nat
import Mathlib.Algebra.BigOperators.Group.List.Basic

/-! Distribution by a digit, as lists and as a scatter into memory, and the sort
made of one distribution for each digit, least significant digit first. -/
namespace Shaper.Lib.BucketSort
variable {α β : Type*}

def bucketSort (digit : α → Nat) (buckets : Nat) (l : List α) : List α :=
  (List.range buckets).flatMap fun d => l.filter fun x => digit x == d

/-- A property that fixes the digit is met in one bucket only. -/
theorem filter_bucketSort {digit : α → Nat} {buckets d : Nat} {p : α → Bool} (hd : d < buckets)
    (hp : ∀ x, p x = true → digit x = d) (l : List α) :
    (bucketSort digit buckets l).filter p = l.filter p := by
  have hbucket : ∀ e, (l.filter fun x => digit x == e).filter p =
      if e = d then l.filter p else [] := by
    intro e
    rw [List.filter_filter]
    split
    · rename_i he
      refine List.filter_congr fun x _ => ?_
      cases hx : p x with
      | false => rfl
      | true => simp [hp x hx, he]
    · rename_i he
      refine List.filter_eq_nil_iff.mpr fun x _ => ?_
      simp only [Bool.and_eq_true, beq_iff_eq, not_and]
      intro hx hxe
      exact he (hxe.symm.trans (hp x hx))
  rw [bucketSort, List.filter_flatMap]
  simp only [hbucket]
  induction buckets with
  | zero => omega
  | succ n ih =>
    rw [List.range_succ, List.flatMap_append]
    rcases Nat.lt_succ_iff_lt_or_eq.mp hd with hlt | rfl
    · simp [ih hlt, Nat.ne_of_gt hlt]
    · have hnil : (List.range d).flatMap (fun e => if e = d then l.filter p else []) = [] := by
        refine List.flatMap_eq_nil_iff.mpr fun e he => ?_
        rw [if_neg (Nat.ne_of_lt (List.mem_range.mp he))]
      simp [hnil]

theorem perm_bucketSort {digit : α → Nat} {buckets : Nat} {l : List α}
    (hd : ∀ x ∈ l, digit x < buckets) : (bucketSort digit buckets l).Perm l := by
  classical
  refine List.perm_iff_count.mpr fun a => ?_
  by_cases ha : a ∈ l
  · rw [List.count_eq_length_filter, List.count_eq_length_filter,
      filter_bucketSort (hd a ha) fun x hx => by rw [beq_iff_eq.mp hx]]
  · have hb : a ∉ bucketSort digit buckets l := by
      intro hmem
      obtain ⟨d, -, hx⟩ := List.mem_flatMap.mp hmem
      exact ha (List.mem_filter.mp hx).1
    rw [List.count_eq_zero_of_not_mem ha, List.count_eq_zero_of_not_mem hb]

theorem map_bucketSort (digit : β → Nat) (buckets : Nat) (f : α → β) (l : List α) :
    bucketSort digit buckets (l.map f) = (bucketSort (fun x => digit (f x)) buckets l).map f := by
  simp only [bucketSort, List.map_flatMap, List.filter_map]
  rfl

/-- One more digit: the order by the lower digits becomes the order by all of them. -/
theorem pairwise_bucketSort {key : α → Nat} {m b : Nat} {l : List α}
    (h : l.Pairwise fun x y => key x % m ≤ key y % m) :
    (bucketSort (fun x => key x / m % b) b l).Pairwise
      fun x y => key x % (m*b) ≤ key y % (m*b) := by
  have hle : ∀ x y, key x % m ≤ key y % m → key x / m % b = key y / m % b →
      key x % (m*b) ≤ key y % (m*b) := by
    intro x y hlow hdig
    rw [Nat.mod_mul, Nat.mod_mul, hdig]
    omega
  refine List.pairwise_flatMap.mpr ⟨fun d _ => ?_, ?_⟩
  · refine (h.filter _).imp_of_mem fun hx hy hlow => hle _ _ hlow ?_
    have hx' := beq_iff_eq.mp (List.mem_filter.mp hx).2
    have hy' := beq_iff_eq.mp (List.mem_filter.mp hy).2
    exact hx'.trans hy'.symm
  · refine List.pairwise_lt_range.imp fun {d e} hde x hx y hy => ?_
    have hx' : key x / m % b = d := beq_iff_eq.mp (List.mem_filter.mp hx).2
    have hy' : key y / m % b = e := beq_iff_eq.mp (List.mem_filter.mp hy).2
    rw [Nat.mod_mul, Nat.mod_mul, hx', hy']
    rcases Nat.eq_zero_or_pos m with rfl | hm
    · simp only [Nat.mod_zero, Nat.zero_mul, Nat.div_zero, Nat.zero_mod] at hx' hy' ⊢
      omega
    · have hlow := Nat.mod_lt (key x) hm
      have hstep : m * d + m ≤ m * e := by
        rw [← Nat.mul_succ]
        exact Nat.mul_le_mul_left m hde
      omega

def lsd (key : α → Nat) (b : Nat) : Nat → List α → List α
  | 0, l => l
  | passes+1, l => bucketSort (fun x => key x / b^passes % b) b (lsd key b passes l)

variable {key : α → Nat} {b : Nat}

theorem lsd_perm (hb : 0 < b) (passes : Nat) (l : List α) : (lsd key b passes l).Perm l := by
  induction passes with
  | zero => exact .refl _
  | succ n ih => exact (perm_bucketSort fun x _ => Nat.mod_lt _ hb).trans ih

theorem lsd_pairwise (passes : Nat) (l : List α) :
    (lsd key b passes l).Pairwise fun x y => key x % b^passes ≤ key y % b^passes := by
  induction passes with
  | zero => exact List.pairwise_of_forall fun x y => by simp [Nat.mod_one]
  | succ n ih => exact pairwise_bucketSort ih

theorem lsd_filter (hb : 0 < b) (passes k : Nat) (l : List α) :
    (lsd key b passes l).filter (fun x => key x % b^passes == k) =
      l.filter fun x => key x % b^passes == k := by
  -- any property of the digits below some power of `b` is kept by the lower passes
  have h : ∀ n ≤ passes, (lsd key b n l).filter (fun x => key x % b^passes == k) =
      l.filter fun x => key x % b^passes == k := by
    intro n
    induction n with
    | zero => exact fun _ => rfl
    | succ n ih =>
      intro hn
      rw [lsd, filter_bucketSort (d := k / b^n % b) (Nat.mod_lt _ hb) ?_ _, ih (by omega)]
      intro x hx
      rw [← beq_iff_eq.mp hx]
      obtain ⟨m, rfl⟩ := Nat.exists_eq_add_of_lt hn
      rw [Nat.add_assoc, Nat.pow_add, Nat.mod_mul_right_div_self, Nat.pow_succ',
        Nat.mod_mul_right_mod]
  exact h passes (le_refl _)

section Scatter
variable {digit : Nat → Nat} {buckets n : Nat}

def before (digit : Nat → Nat) (i d : Nat) : Nat := (List.range i).countP fun j => digit j == d

def bucketStart (digit : Nat → Nat) (n d : Nat) : Nat := ((List.range d).map (before digit n)).sum

def place (digit : Nat → Nat) (n i : Nat) : Nat :=
  bucketStart digit n (digit i) + before digit i (digit i)

def scatter (at_ : Nat → Nat) (n : Nat) (x : Nat → β) (mem : Nat → β) : Nat → β :=
  (List.range n).foldl (fun m i => Function.update m (at_ i) (x i)) mem

theorem bucketSort_place {i : Nat} (hi : i < n) (hd : digit i < buckets) :
    (bucketSort digit buckets (List.range n))[place digit n i]? = some i := by
  obtain ⟨rest, hrest⟩ := Nat.exists_eq_add_of_lt hd
  have hlen : ((List.range (digit i)).flatMap fun d =>
      (List.range n).filter fun j => digit j == d).length = bucketStart digit n (digit i) := by
    rw [List.length_flatMap, bucketStart]
    congr 1
    exact List.map_congr_left fun d _ => List.countP_eq_length_filter.symm
  have hbucket : ((List.range n).filter fun j => digit j == digit i)[before digit i (digit i)]? =
      some i := by
    obtain ⟨m, hm⟩ := Nat.exists_eq_add_of_lt hi
    have hsplit : List.range n = List.range i ++ i :: (List.range m).map (i + 1 + ·) := by
      rw [hm, Nat.add_assoc, Nat.add_comm m 1, ← Nat.add_assoc, List.range_add, List.range_succ]
      simp
    rw [hsplit, List.filter_append, before, List.countP_eq_length_filter]
    simp
  rw [bucketSort, hrest, Nat.add_assoc, Nat.add_comm rest 1, ← Nat.add_assoc, List.range_add,
    List.range_succ, List.flatMap_append, List.flatMap_append, List.flatMap_singleton, place,
    ← hlen, List.append_assoc, List.getElem?_append_right (Nat.le_add_right _ _),
    Nat.add_sub_cancel_left, List.getElem?_append_left (List.getElem?_eq_some_iff.mp hbucket).1,
    hbucket]

theorem place_inj (hd : ∀ i < n, digit i < buckets) {i j : Nat} (hi : i < n) (hj : j < n)
    (h : place digit n i = place digit n j) : i = j := by
  have hi' := bucketSort_place hi (hd i hi)
  rw [h, bucketSort_place hj (hd j hj)] at hi'
  exact (Option.some.inj hi').symm

theorem scatter_other {at_ : Nat → Nat} {x mem : Nat → β} {p : Nat} (h : ∀ i < n, at_ i ≠ p) :
    scatter at_ n x mem p = mem p := by
  induction n with
  | zero => rfl
  | succ n ih =>
    rw [scatter, List.range_succ, List.foldl_append, List.foldl_cons, List.foldl_nil,
      Function.update_of_ne (h n (by omega)).symm]
    exact ih fun i hi => h i (by omega)

theorem scatter_at {at_ : Nat → Nat} {x mem : Nat → β} {i : Nat} (hi : i < n)
    (hinj : ∀ j < n, at_ j = at_ i → j = i) : scatter at_ n x mem (at_ i) = x i := by
  induction n with
  | zero => omega
  | succ n ih =>
    rw [scatter, List.range_succ, List.foldl_append, List.foldl_cons, List.foldl_nil]
    by_cases he : n = i
    · rw [he, Function.update_self]
    · rw [Function.update_of_ne fun h => he (hinj n (by omega) h.symm)]
      exact ih (by omega) fun j hj => hinj j (by omega)

theorem scatter_place (hd : ∀ i < n, digit i < buckets) (x mem : Nat → β) :
    (List.range n).map (scatter (place digit n) n x mem) =
      (bucketSort digit buckets (List.range n)).map x := by
  have hperm : (bucketSort digit buckets (List.range n)).Perm (List.range n) :=
    perm_bucketSort fun i hi => hd i (List.mem_range.mp hi)
  have hlen := hperm.length_eq
  rw [List.length_range] at hlen
  refine List.ext_getElem (by simp [hlen]) fun p hp _ => ?_
  rw [List.length_map, List.length_range] at hp
  have hp' : p < (bucketSort digit buckets (List.range n)).length := by omega
  -- the place of the element found at `p` is `p`
  have hi := List.mem_range.mp (hperm.mem_iff.mp (List.getElem_mem hp'))
  obtain ⟨hlt, hget⟩ := List.getElem?_eq_some_iff.mp (bucketSort_place hi (hd _ hi))
  have hplace := (hperm.nodup_iff.mpr List.nodup_range).getElem_inj_iff.mp hget
  rw [List.getElem_map, List.getElem_map, List.getElem_range]
  nth_rewrite 1 [← hplace]
  exact scatter_at hi fun j hj h => place_inj hd hj hi h

theorem scatter_place_beyond (hd : ∀ i < n, digit i < buckets) (x mem : Nat → β) {p : Nat}
    (hp : n ≤ p) : scatter (place digit n) n x mem p = mem p := by
  refine scatter_other fun i hi he => ?_
  obtain ⟨hlt, -⟩ := List.getElem?_eq_some_iff.mp (bucketSort_place hi (hd i hi))
  rw [(perm_bucketSort fun i hi => hd i (List.mem_range.mp hi)).length_eq, List.length_range] at hlt
  omega

end Scatter

end Shaper.Lib.BucketSort
