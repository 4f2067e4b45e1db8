import Mathlib.Algebra.Group.Action.Defs
import Mathlib.Algebra.Order.BigOperators.Group.List
import Mathlib.Data.Finset.Max
import Shaper.ReadScheduler

/-! The 2 MB that a group may cover and the list page that it may fill, for batches with
requests of any sizes: which batches keep to both limits, and which collections of sizes do
so however their requests lie on storage. -/
namespace Shaper.MergeTarget
open Function Lib.Segments Request PrpBuild Merge KeySort ReadScheduler

def listLength (resolve : BitVec 64 → Nat → BitVec 64) (ppe : Nat) (g : Group) : Nat :=
  if g.entries.length * ppe % 2^32 ≤ 2 then 0 else (listEntries resolve ppe g.entries).length

def WithinLimits (resolve : BitVec 64 → Nat → BitVec 64) (ppe : Nat) (gs : List Group) : Prop :=
  ∀ g ∈ gs, g.bytes.toNat ≤ kSchedMergeTarget ∧ listLength resolve ppe g ≤ 512

structure Arranges (b : Batch) (codes : List (BitVec 8)) : Prop where
  perm : ((List.range codes.length).map fun pos => b.nb (b.vals pos).toNat).Perm codes
  sorted : ∀ i j, i < j → j < codes.length → b.keys i ≤ b.keys j

def Valid (codes : List (BitVec 8)) : Prop := ∀ c ∈ codes, 9 ≤ c.toNat ∧ c.toNat ≤ 21

def bytesOf (codes : List (BitVec 8)) : Nat := (codes.map fun c => 2^c.toNat).sum

def Mergeable (ppe : Nat) (codes : List (BitVec 8)) : Prop :=
  (∃ k, (∀ c ∈ codes, c.toNat = k) ∧ min codes.length (2^(21-k)) * ppe ≤ 513) ∨
    bytesOf codes ≤ kSchedMergeTarget ∧ codes.length * ppe ≤ 513

variable {b : Batch} {N : Nat} {codes : List (BitVec 8)} {resolve : BitVec 64 → Nat → BitVec 64}

def Small (b : Batch) (N : Nat) : Prop :=
  N ≤ 2^31 ∧ ∀ pos < N, (b.size pos).toNat ≤ kSchedMergeTarget

theorem span_le (h : Small b N) {a n : Nat} (hn : a + n ≤ N) :
    b.span a n ≤ n * kSchedMergeTarget := by
  induction n with
  | zero => exact Nat.zero_le _
  | succ n ih =>
    have hsize := h.2 (a+n) (by omega)
    have := ih (by omega)
    rw [b.span_succ, Nat.succ_mul]
    omega

theorem span_add (b : Batch) (a n m : Nat) : b.span a (n+m) = b.span a n + b.span (a+n) m := by
  induction m with
  | zero => rfl
  | succ m ih => rw [← Nat.add_assoc, b.span_succ, ih, b.span_succ, Nat.add_assoc, Nat.add_assoc]

theorem span_sub (b : Batch) {a n : Nat} (h : a + n ≤ N) : b.span a n ≤ b.span 0 N := by
  obtain ⟨m, rfl⟩ := Nat.exists_eq_add_of_le h
  rw [span_add, span_add, Nat.zero_add]
  omega

theorem group_bytes (h : Small b N) {s : Nat × Nat} (hs : Segment (isGroupStart b N) N s) :
    (b.group s.1 (s.1+s.2)).bytes.toNat = b.span s.1 s.2 := by
  have hle := hs.le
  have hspan := span_le h hs.le
  have hlt : s.2 * kSchedMergeTarget ≤ 2^31 * kSchedMergeTarget :=
    Nat.mul_le_mul_right _ (by have := h.1; omega)
  simp only [kSchedMergeTarget] at hspan hlt
  change (b.runBytes s.1 (s.1+s.2)).toNat = _
  rw [runBytes_run hs.le hs.pos fun r h0 hr => not_boundary_inside hs h0 hr, BitVec.toNat_ofNat,
    Nat.mod_eq_of_lt (by omega)]

theorem group_length (b : Batch) (a n : Nat) : (b.group a (a+n)).entries.length = n := by
  rw [Batch.group, List.length_map, List.length_range, Nat.add_sub_cancel_left]

theorem listLength_le_iff (b : Batch) {a n ppe : Nat} (hn : 0 < n) (hppe : 0 < ppe)
    (hlt : n * ppe < 2^32) : listLength resolve ppe (b.group a (a+n)) ≤ 512 ↔ n * ppe ≤ 513 := by
  have hne : (b.group a (a+n)).entries ≠ [] := by
    rw [← List.length_pos_iff, group_length]
    exact hn
  unfold listLength
  rw [length_listEntries resolve hne hppe, group_length, Nat.mod_eq_of_lt hlt]
  split <;> omega

section Batches

/-- Every request of the batch has a size from 512 bytes to 2 MB. -/
def ValidSizes (b : Batch) (N : Nat) : Prop :=
  ∀ pos < N, 9 ≤ (b.nb (b.vals pos).toNat).toNat ∧ (b.nb (b.vals pos).toNat).toNat ≤ 21

def Fits (b : Batch) (ppe a n : Nat) : Prop := b.span a n ≤ kSchedMergeTarget ∧ n * ppe ≤ 513

/-- The limits for a run of `n` requests from position `a` on: it is one group if it has at
most 2 MB, and else it is cut every so many requests as the first of them goes into 2 MB. -/
def RunFits (b : Batch) (ppe a n : Nat) : Prop :=
  if b.span a n ≤ kSchedMergeTarget then Fits b ppe a n
  else ∀ i, kSchedMergeTarget / (b.size a).toNat * i < n →
    Fits b ppe (a + kSchedMergeTarget / (b.size a).toNat * i)
      (min (kSchedMergeTarget / (b.size a).toNat) (n - kSchedMergeTarget / (b.size a).toNat * i))

variable (hv : ValidSizes b N)
include hv

theorem ValidSizes.size_eq {pos : Nat} (hpos : pos < N) :
    (b.size pos).toNat = 2^(b.nb (b.vals pos).toNat).toNat := by
  have := (hv pos hpos).2
  exact toNat_decode (by omega)

theorem ValidSizes.le_size {pos : Nat} (hpos : pos < N) : 512 ≤ (b.size pos).toNat := by
  rw [hv.size_eq hpos]
  exact Nat.pow_le_pow_right (show 0 < 2 by decide) (hv pos hpos).1

theorem ValidSizes.mul_div {pos : Nat} (hpos : pos < N) :
    (b.size pos).toNat * (kSchedMergeTarget / (b.size pos).toNat) = kSchedMergeTarget := by
  rw [hv.size_eq hpos]
  exact Nat.mul_div_cancel' (pow_dvd_pow 2 (hv pos hpos).2)

theorem ValidSizes.le_span {a n : Nat} (hn : a + n ≤ N) : n * 512 ≤ b.span a n := by
  induction n with
  | zero => exact Nat.zero_le _
  | succ n ih =>
    rw [b.span_succ, Nat.succ_mul]
    exact Nat.add_le_add (ih (by omega)) (hv.le_size (by omega))

variable (hN : N ≤ 2^31)
include hN

theorem ValidSizes.small : Small b N :=
  ⟨hN, fun pos hpos => hv.size_eq hpos ▸ Nat.pow_le_pow_right (by decide) (hv pos hpos).2⟩

theorem ValidSizes.groupLength_eq {t : Nat × Nat} (ht : Segment (b.isBoundary N) N t) :
    groupLength b N (t.1+0) = if b.span t.1 t.2 ≤ kSchedMergeTarget then t.2
      else kSchedMergeTarget / (b.size t.1).toNat := by
  have hpos := ht.pos
  have hle := ht.le
  have hspan := span_le (hv.small hN) hle
  have hlt : t.2 * kSchedMergeTarget ≤ 2^31 * kSchedMergeTarget :=
    Nat.mul_le_mul_right _ (by omega)
  rw [groupLength_run ht hpos, stride_of_mul (hv.mul_div (by omega)) rfl]
  refine if_congr ?_ rfl rfl
  rw [runBytes_run hle hpos ht.inner, BitVec.le_def, BitVec.toNat_ofNat, BitVec.toNat_ofNat]
  simp only [kSchedMergeTarget] at hspan hlt ⊢
  omega

theorem ValidSizes.groupLength_le {t : Nat × Nat} (ht : Segment (b.isBoundary N) N t) :
    groupLength b N (t.1+0) ≤ 4096 := by
  have hpos := ht.pos
  have hle := ht.le
  rw [hv.groupLength_eq hN ht]
  split
  · rename_i h
    have := (hv.le_span hle).trans h
    simp only [kSchedMergeTarget] at this
    omega
  · exact Nat.div_le_of_le_mul (Nat.le_trans (by decide : kSchedMergeTarget ≤ 512 * 4096)
      (Nat.mul_le_mul_right _ (hv.le_size (by omega))))

/-- A batch keeps to the limits just if each of its runs does. -/
theorem ValidSizes.withinLimits_iff {ppe : Nat} (hppe : 0 < ppe) (h512 : ppe ≤ 512)
    (starts : Nat → Nat) : WithinLimits resolve ppe (groups b N starts) ↔
      ∀ a n, Segment (b.isBoundary N) N (a, n) → RunFits b ppe a n := by
  have hgroup : ∀ s, Segment (isGroupStart b N) N s → s.2 ≤ 4096 →
      ((b.group s.1 (s.1+s.2)).bytes.toNat ≤ kSchedMergeTarget ∧
        listLength resolve ppe (b.group s.1 (s.1+s.2)) ≤ 512 ↔ Fits b ppe s.1 s.2) := by
    intro s hs hle
    have hlt : s.2 * ppe ≤ 4096 * 512 := Nat.mul_le_mul hle h512
    rw [group_bytes (hv.small hN) hs, listLength_le_iff b hs.pos hppe (by omega)]
    rfl
  constructor
  · intro hw a n ht
    have hlen := hv.groupLength_eq hN ht
    have hmax := hv.groupLength_le hN ht
    have hpiece : ∀ i, groupLength b N (a+0) * i < n →
        Fits b ppe (a + groupLength b N (a+0) * i)
          (min (groupLength b N (a+0)) (n - groupLength b N (a+0) * i)) := by
      intro i hi
      have hs := group_iff.mpr ⟨_, ht, i, hi, rfl⟩
      exact (hgroup _ hs ((Nat.min_le_left _ _).trans hmax)).mp (hw _ (mem_groups.mpr ⟨_, hs, rfl⟩))
    simp only at hlen
    rw [hlen] at hpiece
    unfold RunFits
    split
    · rename_i h
      have := hpiece 0 (by rw [Nat.mul_zero]; exact ht.pos)
      rwa [if_pos h, Nat.mul_zero, Nat.add_zero, Nat.sub_zero, Nat.min_self] at this
    · rename_i h
      rwa [if_neg h] at hpiece
  · intro hall g hg
    obtain ⟨s, hs, rfl⟩ := mem_groups.mp hg
    obtain ⟨t, ht, i, hi, rfl⟩ := group_iff.mp hs
    have hlen := hv.groupLength_eq hN ht
    have hrun := hall t.1 t.2 ht
    refine (hgroup _ hs ((Nat.min_le_left _ _).trans (hv.groupLength_le hN ht))).mpr ?_
    rw [hlen] at hi ⊢
    unfold RunFits at hrun
    split at hrun
    · rename_i h
      rw [if_pos h] at hi ⊢
      have h0 : i = 0 := by
        by_contra hne
        have := Nat.le_mul_of_pos_right t.2 (Nat.pos_of_ne_zero hne)
        omega
      rwa [h0, Nat.mul_zero, Nat.add_zero, Nat.sub_zero, Nat.min_self]
    · rename_i h
      rw [if_neg h] at hi ⊢
      exact hrun i hi

end Batches

section Sufficient

theorem Arranges.code_mem (h : Arranges b codes) {pos : Nat} (hpos : pos < codes.length) :
    b.nb (b.vals pos).toNat ∈ codes :=
  h.perm.subset (List.mem_map.mpr ⟨pos, List.mem_range.mpr hpos, rfl⟩)

theorem Arranges.validSizes (h : Arranges b codes) (hv : Valid codes) :
    ValidSizes b codes.length :=
  fun _ hpos => hv _ (h.code_mem hpos)

theorem Arranges.span_eq (h : Arranges b codes) (hv : Valid codes) :
    b.span 0 codes.length = bytesOf codes := by
  have hsum := (h.perm.map fun c : BitVec 8 => 2^c.toNat).sum_eq
  rw [List.map_map] at hsum
  rw [bytesOf, ← hsum, Batch.span]
  refine congrArg List.sum (List.map_congr_left fun pos hpos => ?_)
  rw [Nat.zero_add, (h.validSizes hv).size_eq (List.mem_range.mp hpos)]
  rfl

/-- Such a collection keeps to the limits wherever its requests lie. -/
theorem Arranges.runFits (h : Arranges b codes) (hv : Valid codes) (hlen : codes.length ≤ 2^31)
    {ppe : Nat} (hm : Mergeable ppe codes) {a n : Nat}
    (ht : Segment (b.isBoundary codes.length) codes.length (a, n)) : RunFits b ppe a n := by
  have hpos : 0 < n := ht.pos
  have hle : a + n ≤ codes.length := ht.le
  rcases hm with ⟨k, hk, hlist⟩ | ⟨htotal, hlist⟩
  · have hcode : ∀ pos < codes.length, (b.nb (b.vals pos).toNat).toNat = k := fun pos hpos =>
      hk _ (h.code_mem hpos)
    have hk21 : k ≤ 21 := hcode a (by omega) ▸ (h.validSizes hv a (by omega)).2
    have hsized := Sized.of_code hk21 hlen hcode
    -- any requests that are no more than those of a full group
    have hfits : ∀ a' m, a' + m ≤ codes.length → m ≤ 2^(21-k) → Fits b ppe a' m := by
      intro a' m hm hT
      refine ⟨?_, (Nat.mul_le_mul_right _ (by omega)).trans hlist⟩
      rw [hsized.span_eq hm, ← hsized.mul, Nat.mul_comm]
      exact Nat.mul_le_mul_left _ hT
    have hdiv : kSchedMergeTarget / (b.size a).toNat = 2^(21-k) := by
      rw [hsized.size_eq a (by omega), ← hsized.mul, Nat.mul_div_cancel_left _ hsized.bounds.1]
    unfold RunFits
    split
    · rename_i hsum
      refine hfits a n hle ?_
      rw [hsized.span_eq hle, ← hsized.mul, Nat.mul_comm] at hsum
      exact Nat.le_of_mul_le_mul_left hsum hsized.bounds.1
    · intro i hi
      rw [hdiv] at hi ⊢
      exact hfits _ _ (by omega) (Nat.min_le_left _ _)
  · have hspan := (span_sub b hle).trans_eq (h.span_eq hv) |>.trans htotal
    unfold RunFits
    rw [if_pos hspan]
    exact ⟨hspan, (Nat.mul_le_mul_right _ (by omega)).trans hlist⟩

end Sufficient

section Necessary
variable {l : List (BitVec 8)}

structure Laid (b : Batch) (l : List (BitVec 8)) : Prop where
  keys : ∀ i < l.length, b.keys i = BitVec.ofNat 64 (bytesOf (l.take i))
  codes : ∀ i (h : i < l.length), b.nb (b.vals i).toNat = l[i]

theorem bytesOf_take_succ {i : Nat} (h : i < l.length) :
    bytesOf (l.take (i+1)) = bytesOf (l.take i) + 2^(l[i]).toNat := by
  rw [bytesOf, List.take_succ_eq_append_getElem h, List.map_append, List.sum_append,
    List.map_singleton, List.sum_singleton]
  rfl

theorem bytesOf_le (hv : Valid l) : bytesOf l ≤ l.length * kSchedMergeTarget := by
  refine (List.sum_le_card_nsmul _ kSchedMergeTarget fun x hx => ?_).trans_eq ?_
  · obtain ⟨c, hc, rfl⟩ := List.mem_map.mp hx
    exact Nat.pow_le_pow_right (by decide) (hv c hc).2
  · rw [List.length_map, smul_eq_mul]

theorem le_bytesOf {k : Nat} (h : ∀ c ∈ l, k ≤ c.toNat) : l.length * 2^k ≤ bytesOf l := by
  have hsum := List.card_nsmul_le_sum (l.map fun c => 2^c.toNat) (2^k) fun x hx => by
    obtain ⟨c, hc, rfl⟩ := List.mem_map.mp hx
    exact Nat.pow_le_pow_right (by decide) (h c hc)
  rwa [List.length_map, smul_eq_mul] at hsum

namespace Laid
variable (h : Laid b l) (hv : Valid l)
include h hv

theorem validSizes : ValidSizes b l.length := fun pos hpos => by
  rw [h.codes pos hpos]
  exact hv _ (List.getElem_mem hpos)

theorem size_eq {i : Nat} (hi : i < l.length) : (b.size i).toNat = 2^(l[i]).toNat := by
  rw [(h.validSizes hv).size_eq hi, h.codes i hi]

theorem span_eq {n : Nat} (hn : n ≤ l.length) : b.span 0 n = bytesOf (l.take n) := by
  induction n with
  | zero => rfl
  | succ n ih =>
    rw [b.span_succ, ih (by omega), Nat.zero_add, h.size_eq hv hn, bytesOf_take_succ hn]

theorem run (hne : l ≠ []) : Segment (b.isBoundary l.length) l.length (0, l.length) where
  pos := List.length_pos_iff.mpr hne
  le := (Nat.zero_add _).le
  start := isBoundary_zero (List.length_pos_iff.mpr hne)
  next hlt := absurd hlt (by rw [Nat.zero_add]; exact Nat.lt_irrefl _)
  inner r h0 hr := by
    obtain ⟨q, rfl⟩ : ∃ q, r = q + 1 := ⟨r-1, by omega⟩
    have hq : q < l.length := by omega
    have hsize : b.size q = BitVec.ofNat 64 (2^(l[q]).toNat) := by
      rw [← h.size_eq hv hq, BitVec.ofNat_toNat, BitVec.setWidth_eq]
    have hkey : b.keys (q+1) = b.keys q + b.size q := by
      rw [h.keys _ hr, h.keys _ hq, bytesOf_take_succ hq, BitVec.ofNat_add, hsize]
    rw [Nat.zero_add, Batch.isBoundary, decide_eq_true hr, Nat.add_sub_cancel, hkey,
      bne_self_eq_false]
    rfl

theorem arranges (hlen : l.length ≤ 2^31) (hp : l.Perm codes) : Arranges b codes where
  perm := by
    refine List.Perm.trans (List.Perm.of_eq (List.ext_getElem ?_ fun i h₁ h₂ => ?_)) hp
    · rw [List.length_map, List.length_range, hp.length_eq]
    · rw [List.getElem_map, List.getElem_range, h.codes i h₂]
  sorted i j hij hj := by
    rw [← hp.length_eq] at hj
    have hmono : bytesOf (l.take i) ≤ bytesOf (l.take j) := by
      rw [← h.span_eq hv (by omega), ← h.span_eq hv (by omega)]
      exact span_sub b (by omega)
    have htake : Valid (l.take j) := fun c hc => hv c (List.mem_of_mem_take hc)
    have hle := bytesOf_le htake
    have hlt : (l.take j).length * kSchedMergeTarget ≤ 2^31 * kSchedMergeTarget :=
      Nat.mul_le_mul_right _ ((List.length_take_le' j l).trans hlen)
    simp only [kSchedMergeTarget] at hle hlt
    rw [h.keys i (by omega), h.keys j hj, BitVec.le_def, BitVec.toNat_ofNat, BitVec.toNat_ofNat,
      Nat.mod_eq_of_lt (by omega), Nat.mod_eq_of_lt (by omega)]
    exact hmono

/-- The first group of requests that lie one right behind the other. -/
theorem first_fits (hne : l ≠ []) (hlen : l.length ≤ 2^31) {ppe : Nat} (hppe : 0 < ppe)
    (h512 : ppe ≤ 512) {starts : Nat → Nat}
    (hw : WithinLimits resolve ppe (groups b l.length starts)) :
    Fits b ppe 0 (min (if bytesOf l ≤ kSchedMergeTarget then l.length
      else 2^(21 - (l.head hne).toNat)) l.length) := by
  have hpos := List.length_pos_iff.mpr hne
  have hrun := ((h.validSizes hv).withinLimits_iff hlen hppe h512 starts).mp hw 0 l.length
    (h.run hv hne)
  have hdiv : kSchedMergeTarget / (b.size 0).toNat = 2^(21 - (l.head hne).toNat) := by
    have hle := (hv _ (List.head_mem hne)).2
    rw [h.size_eq hv hpos, List.getElem_zero hpos]
    exact Nat.pow_div hle Nat.two_pos
  unfold RunFits at hrun
  rw [h.span_eq hv (le_refl _), List.take_length] at hrun
  split at hrun
  · rename_i htotal
    rwa [if_pos htotal, Nat.min_self]
  · rename_i htotal
    have := hrun 0 (by rw [Nat.mul_zero]; exact hpos)
    rw [if_neg htotal]
    rwa [hdiv, Nat.mul_zero, Nat.add_zero, Nat.sub_zero] at this

end Laid

/-- The first group is over 2 MB when the smallest request comes first, a larger one
second, and all of them together are over 2 MB. -/
theorem Laid.over_target {c d : BitVec 8} {rest : List (BitVec 8)} (h : Laid b (c :: d :: rest))
    (hv : Valid (c :: d :: rest)) (hlen : (c :: d :: rest).length ≤ 2^31)
    (hmin : ∀ e ∈ c :: d :: rest, c.toNat ≤ e.toNat) (hlt : c.toNat < d.toNat)
    (htotal : kSchedMergeTarget < bytesOf (c :: d :: rest)) {ppe : Nat} (hppe : 0 < ppe)
    (h512 : ppe ≤ 512) (starts : Nat → Nat) :
    ¬ WithinLimits resolve ppe (groups b (c :: d :: rest).length starts) := by
  intro hw
  have hbytes := (h.first_fits hv (List.cons_ne_nil _ _) hlen hppe h512 hw).1
  rw [if_neg (by omega), List.head_cons, h.span_eq hv (Nat.min_le_right _ _)] at hbytes
  have hd := (hv d (List.mem_cons_of_mem _ List.mem_cons_self)).2
  have hmul : 2^c.toNat * 2^(21 - c.toNat) = kSchedMergeTarget := by
    rw [← Nat.pow_add, Nat.add_sub_cancel' (by omega)]
    rfl
  generalize hT : 2^(21 - c.toNat) = T at hbytes hmul
  have hT2 : 2 ≤ T := hT ▸ Nat.le_self_pow (by omega) 2
  rcases Nat.le_total (c :: d :: rest).length T with hle | hge
  · rw [Nat.min_eq_right hle, List.take_length] at hbytes
    omega
  · obtain ⟨m, rfl⟩ := Nat.exists_eq_add_of_le' hT2
    rw [Nat.min_eq_left hge] at hbytes
    simp only [List.length_cons] at hge
    have hrest := le_bytesOf (l := rest.take m) (k := c.toNat) fun e he =>
      hmin e (List.mem_cons_of_mem _ (List.mem_cons_of_mem _ (List.mem_of_mem_take he)))
    rw [List.length_take, Nat.min_eq_left (by omega)] at hrest
    have hcd : 2^c.toNat < 2^d.toNat := Nat.pow_lt_pow_right (by decide) hlt
    have hsum : bytesOf ((c :: d :: rest).take (m+2)) =
        2^c.toNat + (2^d.toNat + bytesOf (rest.take m)) := rfl
    rw [hsum, ← hmul, Nat.mul_add, Nat.mul_comm] at hbytes
    omega

/-- The list of the first group is over a page when it has more requests than that. -/
theorem Laid.over_page {ppe : Nat} (h : Laid b l) (hv : Valid l) (hne : l ≠ [])
    (hlen : l.length ≤ 2^31) (hppe : 0 < ppe) (h512 : ppe ≤ 512)
    (hover : 513 < min (if bytesOf l ≤ kSchedMergeTarget then l.length
      else 2^(21 - (l.head hne).toNat)) l.length * ppe) (starts : Nat → Nat) :
    ¬ WithinLimits resolve ppe (groups b l.length starts) := fun hw =>
  absurd (h.first_fits hv hne hlen hppe h512 hw).2 (Nat.not_le.mpr hover)

/-- A collection that is not of the two kinds breaks a limit in some order, one request
right behind the other. -/
theorem exists_over {ppe : Nat} (hppe : 0 < ppe) (h512 : ppe ≤ 512) (hv : Valid codes)
    (hlen : codes.length ≤ 2^31) (hm : ¬ Mergeable ppe codes) :
    ∃ l, l.Perm codes ∧ ∀ (b : Batch) (resolve : BitVec 64 → Nat → BitVec 64) (starts : Nat → Nat),
      Laid b l → ¬ WithinLimits resolve ppe (groups b l.length starts) := by
  rw [Mergeable, not_or] at hm
  obtain ⟨hone, hall⟩ := hm
  by_cases htotal : bytesOf codes ≤ kSchedMergeTarget
  · -- all in one group, and its list is too long
    have hover : 513 < codes.length * ppe := Nat.not_le.mp fun hx => hall ⟨htotal, hx⟩
    have hne : codes ≠ [] := by
      rintro rfl
      rw [List.length_nil, Nat.zero_mul] at hover
      omega
    refine ⟨codes, List.Perm.refl _, fun b resolve starts h => ?_⟩
    refine h.over_page hv hne hlen hppe h512 ?_ starts
    rwa [if_pos htotal, Nat.min_self]
  · have hne : codes ≠ [] := by
      rintro rfl
      exact htotal (Nat.zero_le _)
    obtain ⟨c, hc, hmin⟩ := Finset.exists_min_image codes.toFinset BitVec.toNat
      (List.toFinset_nonempty_iff codes |>.mpr hne)
    simp only [List.mem_toFinset] at hc hmin
    by_cases hsame : ∀ e ∈ codes, e.toNat = c.toNat
    · -- one size: full groups, and their lists are too long
      have hover : 513 < min codes.length (2^(21 - c.toNat)) * ppe :=
        Nat.not_le.mp fun hx => hone ⟨c.toNat, hsame, hx⟩
      refine ⟨codes, List.Perm.refl _, fun b resolve starts h => ?_⟩
      refine h.over_page hv hne hlen hppe h512 ?_ starts
      rwa [if_neg htotal, hsame _ (List.head_mem hne), Nat.min_comm]
    · -- the smallest first and a larger one second
      obtain ⟨d, hd⟩ := Classical.not_forall.mp hsame
      obtain ⟨hd, hcd⟩ := Classical.not_imp.mp hd
      have hdc : d ≠ c := fun hx => hcd (hx ▸ rfl)
      have hlt : c.toNat < d.toNat := Nat.lt_of_le_of_ne (hmin d hd) (Ne.symm hcd)
      have hperm : (c :: d :: (codes.erase c).erase d).Perm codes :=
        ((List.perm_cons_erase ((List.mem_erase_of_ne hdc).mpr hd)).symm.cons c).trans
          (List.perm_cons_erase hc).symm
      refine ⟨_, hperm, fun b resolve starts h =>
        h.over_target ?_ ?_ ?_ hlt ?_ hppe h512 starts⟩
      · exact fun e he => hv e (hperm.subset he)
      · rwa [hperm.length_eq]
      · exact fun e he => hmin e (hperm.subset he)
      · rw [bytesOf, (hperm.map _).sum_eq]
        exact Nat.not_le.mp htotal

def lay (l : List (BitVec 8)) : Batch :=
  ⟨fun i => BitVec.ofNat 64 (bytesOf (l.take i)), fun i => BitVec.ofNat 32 i, fun i => l.getD i 0#8,
    fun _ => 0#64⟩

theorem lay_laid (hlen : l.length ≤ 2^31) : Laid (lay l) l where
  keys _ _ := rfl
  codes i hi := by
    change l.getD (BitVec.ofNat 32 i).toNat 0#8 = l[i]
    rw [BitVec.toNat_ofNat, Nat.mod_eq_of_lt (by omega), List.getD_eq_getElem _ _ hi]

def layShared (l : List (BitVec 8)) : Shared :=
  ⟨fun i => ioSchedMakeSortKey (BitVec.ofNat 64 (bytesOf (l.take i))) (BitVec.ofNat 32 i),
    fun i => l.getD i 0#8, fun _ => 0#64⟩

theorem layShared_laid (hv : Valid l) (hlen : l.length ≤ kSchedMaxBatch) :
    Laid (layShared l).batch l ∧ ∀ pos < l.length, (layShared l).keys pos ≠ keyMax := by
  have hoff {i : Nat} (hi : i < l.length) :
    (BitVec.ofNat 64 (bytesOf (l.take i))).toNat < 2^31 := by
    have hle := bytesOf_le (l := l.take i) fun c hc => hv c (List.mem_of_mem_take hc)
    have hmul : (l.take i).length * kSchedMergeTarget ≤ 511 * kSchedMergeTarget :=
      Nat.mul_le_mul_right _ (by rw [List.length_take]; simp only [kSchedMaxBatch] at hlen; omega)
    simp only [kSchedMergeTarget] at hle hmul
    rw [BitVec.toNat_ofNat]
    omega
  simp only [kSchedMaxBatch] at hlen
  constructor
  · constructor
    · intro i hi
      exact keyByteOffset_make ((hoff hi).trans (by decide)) (by omega)
    · intro i hi
      change l.getD (ioSchedKeyBatchIndex (ioSchedMakeSortKey _ (BitVec.ofNat 32 i))).toNat 0#8 =
        l[i]
      rw [keyBatchIndex_make (by omega), BitVec.toNat_ofNat,
        Nat.mod_eq_of_lt (by omega), List.getD_eq_getElem _ _ hi]
  · intro pos hpos hmax
    have hkey := congrArg BitVec.toNat hmax
    have hlt := hoff hpos
    change (ioSchedMakeSortKey _ _).toNat = keyMax.toNat at hkey
    rw [toNat_makeSortKey (hlt.trans (by decide)) (by omega),
      show keyMax.toNat = 2^64 - 1 by decide] at hkey
    omega

end Necessary

/-- The groups keep to 2 MB and to one list page for every arrangement of the requests just
if all requests have one size and the list of a full group fits, or all of them together
fit in one group. -/
theorem mergeable_iff (pc : PageCache) (hv : Valid codes) (hlen : codes.length ≤ 2^31) :
    ((∀ b starts, Arranges b codes →
        WithinLimits pc.subpage pc.pagesPerEntry (groups b codes.length starts)) ↔
      Mergeable pc.pagesPerEntry codes) ∧
    (codes.length ≤ kSchedMaxBatch →
      ((∀ sh starts, (∀ pos < codes.length, sh.keys pos ≠ keyMax) → Arranges sh.batch codes →
          WithinLimits pc.pageSubpage pc.pagesPerEntry (readGroups sh codes.length starts)) ↔
        Mergeable pc.pagesPerEntry codes)) := by
  have hwithin : ∀ b starts resolve, Mergeable pc.pagesPerEntry codes → Arranges b codes →
      WithinLimits resolve pc.pagesPerEntry (groups b codes.length starts) :=
    fun b starts resolve hm hb =>
      ((hb.validSizes hv).withinLimits_iff hlen pc.ppe_pos pc.ppe_le starts).mpr fun a n ht =>
        hb.runFits hv hlen hm ht
  refine ⟨⟨fun hall => ?_, fun hm b starts hb => hwithin b starts _ hm hb⟩, fun hbatch =>
    ⟨fun hall => ?_, fun hm sh starts hkeys hb => ?_⟩⟩
  · by_contra hm
    obtain ⟨l, hperm, hover⟩ := exists_over pc.ppe_pos pc.ppe_le hv hlen hm
    have hvl : Valid l := fun c hc => hv c (hperm.subset hc)
    have hlaid := lay_laid (hperm.length_eq.le.trans hlen)
    refine hover (lay l) pc.subpage (fun _ => 0) hlaid ?_
    rw [hperm.length_eq]
    exact hall _ _ (hlaid.arranges hvl (hperm.length_eq.le.trans hlen) hperm)
  · by_contra hm
    obtain ⟨l, hperm, hover⟩ := exists_over pc.ppe_pos pc.ppe_le hv hlen hm
    have hvl : Valid l := fun c hc => hv c (hperm.subset hc)
    obtain ⟨hlaid, hkeys⟩ := layShared_laid hvl (hperm.length_eq.le.trans hbatch)
    refine hover (layShared l).batch pc.pageSubpage (fun _ => 0) hlaid ?_
    rw [hperm.length_eq] at hkeys ⊢
    rw [← readGroups_groups hkeys]
    exact hall _ _ hkeys (hlaid.arranges hvl (hperm.length_eq.le.trans hlen) hperm)
  · rw [readGroups_groups hkeys]
    exact hwithin sh.batch starts _ hm hb

/-- A batch of requests of any sizes keeps every group to 2 MB and its list to one page just
if each run of requests that lie one right behind the other does. -/
theorem merge_limit_iff (pc : PageCache) (starts : Nat → Nat) :
    (∀ (b : Batch) (N : Nat), ValidSizes b N → N ≤ 2^31 →
      (WithinLimits pc.subpage pc.pagesPerEntry (groups b N starts) ↔
        ∀ a n, Segment (b.isBoundary N) N (a, n) → RunFits b pc.pagesPerEntry a n)) ∧
    ∀ (sh : Shared) (batch : Nat), ValidSizes sh.batch batch → batch ≤ kSchedMaxBatch →
      (∀ pos < batch, sh.keys pos ≠ keyMax) →
      (WithinLimits pc.pageSubpage pc.pagesPerEntry (readGroups sh batch starts) ↔
        ∀ a n, Segment (sh.batch.isBoundary batch) batch (a, n) →
          RunFits sh.batch pc.pagesPerEntry a n) := by
  refine ⟨fun b N hv hN => hv.withinLimits_iff hN pc.ppe_pos pc.ppe_le starts,
    fun sh batch hv hbatch hkeys => ?_⟩
  rw [readGroups_groups hkeys]
  exact hv.withinLimits_iff (hbatch.trans (by decide)) pc.ppe_pos pc.ppe_le starts

/-- Requests none of which lies right behind another one. -/
theorem runFits_apart {a n : Nat} (hbound : ∀ p < N, b.isBoundary N p = true)
    (hspan : ∀ a < N, b.span a 1 ≤ kSchedMergeTarget)
    (ht : Segment (b.isBoundary N) N (a, n)) : RunFits b 1 a n := by
  have hpos : 0 < n := ht.pos
  have hle : a + n ≤ N := ht.le
  obtain rfl : n = 1 := by
    by_contra hne
    have hno := ht.inner 1 Nat.one_pos (by simp only; omega)
    rw [hbound _ (by simp only; omega)] at hno
    cases hno
  rw [RunFits, if_pos (hspan a (by omega))]
  exact ⟨hspan a (by omega), by decide⟩

def apart : Shared :=
  ⟨fun i => ioSchedMakeSortKey (BitVec.ofNat 64 (2^30 * i)) (BitVec.ofNat 32 i),
    fun i => if i = 0 then 12#8 else 21#8, fun _ => 0#64⟩

theorem apart_within : WithinLimits PageCache.fourK.subpage 1 (groups apart.batch 3 fun _ => 0) ∧
    WithinLimits PageCache.fourK.pageSubpage 1 (readGroups apart 3 fun _ => 0) := by
  have hv : ValidSizes apart.batch 3 := by
    unfold ValidSizes
    decide
  have hfits : ∀ a n, Segment (apart.batch.isBoundary 3) 3 (a, n) → RunFits apart.batch 1 a n :=
    fun a n => runFits_apart (by decide) (by decide)
  obtain ⟨hwrite, hread⟩ := merge_limit_iff .fourK fun _ => 0
  exact ⟨(hwrite _ 3 hv (by decide)).mpr hfits,
    (hread _ 3 hv (by decide) (by decide)).mpr hfits⟩

/-- A page followed by twice 2 MB is merged into one command in either kernel; and 600
sectors are merged into one command whose list does not fit in a page. -/
theorem mixed_sizes_over_target :
    (Arranges (lay [12#8, 21#8, 21#8]) [12#8, 21#8, 21#8] ∧
      (groups (lay [12#8, 21#8, 21#8]) 3 fun _ => 0).map (·.bytes.toNat) =
        [2*kSchedMergeTarget + 4096]) ∧
    (Arranges (layShared [12#8, 21#8, 21#8]).batch [12#8, 21#8, 21#8] ∧
      (readGroups (layShared [12#8, 21#8, 21#8]) 3 fun _ => 0).map (·.bytes.toNat) =
        [2*kSchedMergeTarget + 4096]) ∧
    Arranges (lay (List.replicate 600 9#8)) (List.replicate 600 9#8) ∧
      ¬ WithinLimits PageCache.fourK.subpage 1
      (groups (lay (List.replicate 600 9#8)) 600 fun _ => 0) := by
  have hv : Valid [12#8, 21#8, 21#8] := by
    unfold Valid
    decide
  have hsectors : Valid (List.replicate 600 9#8) := by
    intro c hc
    rw [List.eq_of_mem_replicate hc]
    decide
  have hlen : (List.replicate 600 9#8).length = 600 := List.length_replicate
  have hbytes : bytesOf (List.replicate 600 9#8) = 600 * 512 := by
    rw [bytesOf, List.map_replicate, List.sum_replicate_nat]
    rfl
  have hle : (List.replicate 600 9#8).length ≤ 2^31 := by
    rw [hlen]
    decide
  have hover : ¬ WithinLimits PageCache.fourK.subpage 1
      (groups (lay (List.replicate 600 9#8)) (List.replicate 600 9#8).length fun _ => 0) := by
    refine (lay_laid hle).over_page hsectors (by decide) hle Nat.one_pos (by decide) ?_ _
    rw [hbytes, hlen]
    decide
  rw [hlen] at hover
  exact ⟨⟨(lay_laid (by decide)).arranges hv (by decide) (List.Perm.refl _), by decide +kernel⟩,
    ⟨(layShared_laid hv (by decide)).1.arranges hv (by decide) (List.Perm.refl _), by
      decide +kernel⟩,
    (lay_laid hle).arranges hsectors hle (List.Perm.refl _), hover⟩

end Shaper.MergeTarget
