import Mathlib.Algebra.Order.BigOperators.Group.Finset
import Shaper.KeySort

/-! `io_sched_bitonic_sort` as its 128 threads run it: between two barriers their reads
and writes of the keys come in any order. -/
namespace Shaper.BitonicSort
open Lib.Bitonic Request KeySort Function

inductive Pc where
  | elem (e : Nat)
  | readIx (e : Nat) (a : BitVec 64)
  | readBoth (e : Nat) (a b : BitVec 64)
  | wroteIx (e : Nat) (a : BitVec 64)

inductive Loop where
  | stage
  | round
  | body
  | done
  deriving DecidableEq

structure State where
  loop : Loop
  k : BitVec 32
  j : BitVec 32
  keys : Nat → BitVec 64
  pc : Nat → Pc

def elemsPerThread (batch : BitVec 32) : Nat := batch.toNat / kSchedThreads

def ixOf (tid e : Nat) : Nat := tid + e * kSchedThreads

def access (batch k j : BitVec 32) (keys : Nat → BitVec 64) (tid : Nat) :
    Pc → Option ((Nat → BitVec 64) × Pc)
  | .elem e =>
    if e < elemsPerThread batch then
      if ixOf tid e < ixOf tid e ^^^ j.toNat then some (keys, .readIx e (keys (ixOf tid e)))
      else some (keys, .elem (e+1))
    else none
  | .readIx e a => some (keys, .readBoth e a (keys (ixOf tid e ^^^ j.toNat)))
  | .readBoth e a b =>
    if decide (b < a) == (ixOf tid e &&& k.toNat == 0) then
      some (update keys (ixOf tid e) b, .wroteIx e a)
    else some (keys, .elem (e+1))
  | .wroteIx e a => some (update keys (ixOf tid e ^^^ j.toNat) a, .elem (e+1))

inductive Step (batch : BitVec 32) : State → State → Prop
  | stage {k j : BitVec 32} {keys : Nat → BitVec 64} {pc : Nat → Pc} : k ≤ batch →
    Step batch ⟨.stage, k, j, keys, pc⟩ ⟨.round, k, k >>> 1, keys, pc⟩
  | finish {k j : BitVec 32} {keys : Nat → BitVec 64} {pc : Nat → Pc} : ¬k ≤ batch →
    Step batch ⟨.stage, k, j, keys, pc⟩ ⟨.done, k, j, keys, pc⟩
  | round {k j : BitVec 32} {keys : Nat → BitVec 64} {pc : Nat → Pc} : 0#32 < j →
    Step batch ⟨.round, k, j, keys, pc⟩ ⟨.body, k, j, keys, fun _ => .elem 0⟩
  | next {k j : BitVec 32} {keys : Nat → BitVec 64} {pc : Nat → Pc} : ¬0#32 < j →
    Step batch ⟨.round, k, j, keys, pc⟩ ⟨.stage, k <<< 1, j, keys, pc⟩
  | access (tid : Nat) {k j : BitVec 32} {keys keys' : Nat → BitVec 64} {pc : Nat → Pc} {p : Pc} :
    tid < kSchedThreads → access batch k j keys tid (pc tid) = some (keys', p) →
    Step batch ⟨.body, k, j, keys, pc⟩ ⟨.body, k, j, keys', update pc tid p⟩
  | barrier {k j : BitVec 32} {keys : Nat → BitVec 64} {pc : Nat → Pc} :
    (∀ tid < kSchedThreads, access batch k j keys tid (pc tid) = none) →
    Step batch ⟨.body, k, j, keys, pc⟩ ⟨.round, k, j >>> 1, keys, pc⟩

def start (keys : Nat → BitVec 64) : State := ⟨.stage, 2#32, 0#32, keys, fun _ => .elem 0⟩

inductive Run (batch : BitVec 32) (keys : Nat → BitVec 64) : Nat → State → Prop
  | start : Run batch keys 0 (start keys)
  | step {n : Nat} {s s' : State} : Run batch keys n s → Step batch s s' → Run batch keys (n+1) s'

structure Sorts (batch : BitVec 32) (keys : Nat → BitVec 64) : Prop where
  ends : ∃ bound, ∀ n s, Run batch keys n s → n ≤ bound
  returns : ∀ n s, Run batch keys n s → (∀ s', ¬Step batch s s') → s.loop = .done
  ascending : ∀ n s, Run batch keys n s → s.loop = .done →
    ∀ i j, i ≤ j → j < batch.toNat → s.keys i ≤ s.keys j
  perm : ∀ n s, Run batch keys n s → s.loop = .done →
    ((List.range batch.toNat).map s.keys).Perm ((List.range batch.toNat).map keys)
  beyond : ∀ n s, Run batch keys n s → ∀ p ≥ batch.toNat, s.keys p = keys p

theorem exists_step (batch : BitVec 32) {s : State} (h : s.loop ≠ .done) :
    ∃ s', Step batch s s' := by
  obtain ⟨loop, k, j, keys, pc⟩ := s
  cases loop with
  | stage =>
    by_cases hk : k ≤ batch
    · exact ⟨_, .stage hk⟩
    · exact ⟨_, .finish hk⟩
  | round =>
    by_cases hj : 0#32 < j
    · exact ⟨_, .round hj⟩
    · exact ⟨_, .next hj⟩
  | body =>
    by_cases hw : ∀ tid < kSchedThreads, access batch k j keys tid (pc tid) = none
    · exact ⟨_, .barrier hw⟩
    · push Not at hw
      obtain ⟨tid, htid, hacc⟩ := hw
      obtain ⟨⟨keys', p⟩, he⟩ := Option.ne_none_iff_exists'.mp hacc
      exact ⟨_, .access tid htid he⟩
  | done => exact absurd rfl h

theorem xor_xor (ix j : Nat) : ix ^^^ j ^^^ j = ix := by
  rw [Nat.xor_assoc, Nat.xor_self, Nat.xor_zero]

def swaps (k j : BitVec 32) (old : Nat → BitVec 64) (lo : Nat) : Bool :=
  decide (old (lo ^^^ j.toNat) < old lo) == (lo &&& k.toNat == 0)

theorem round_pair {k j : BitVec 32} {lo : Nat} (hlo : lo < lo ^^^ j.toNat)
    (old : Nat → BitVec 64) : @Lib.Bitonic.round _ keyOrder k.toNat j.toNat old lo =
        (if swaps k j old lo then old (lo ^^^ j.toNat) else old lo) ∧
      @Lib.Bitonic.round _ keyOrder k.toNat j.toNat old (lo ^^^ j.toNat) =
        if swaps k j old lo then old lo else old (lo ^^^ j.toNat) := by
  unfold Lib.Bitonic.round swaps
  rw [xor_xor, Nat.min_eq_left hlo.le, Nat.max_eq_right hlo.le, Nat.min_eq_right hlo.le,
    Nat.max_eq_left hlo.le]
  exact ⟨rfl, rfl⟩

section Pairs

local instance keyLinearOrder : LinearOrder (BitVec 64) := keyOrder

variable {batch k j : BitVec 32} {old keys keys' : Nat → BitVec 64} {tid lo ix : Nat} {p p' : Pc}

def Pc.no : Pc → Nat
  | .elem e => e
  | .readIx e _ => e
  | .readBoth e _ _ => e
  | .wroteIx e _ => e

def Pc.busy : Pc → Prop
  | .elem _ => False
  | _ => True

def Fresh (j : BitVec 32) (old keys : Nat → BitVec 64) (lo : Nat) : Prop :=
  keys lo = old lo ∧ keys (lo ^^^ j.toNat) = old (lo ^^^ j.toNat)

def Exchanged (k j : BitVec 32) (old keys : Nat → BitVec 64) (lo : Nat) : Prop :=
  keys lo = Lib.Bitonic.round k.toNat j.toNat old lo ∧
    keys (lo ^^^ j.toNat) = Lib.Bitonic.round k.toNat j.toNat old (lo ^^^ j.toNat)

def Current (k j : BitVec 32) (old keys : Nat → BitVec 64) (lo : Nat) : Pc → Prop
  | .elem _ => Fresh j old keys lo
  | .readIx _ a => Fresh j old keys lo ∧ a = old lo
  | .readBoth _ a b => Fresh j old keys lo ∧ a = old lo ∧ b = old (lo ^^^ j.toNat)
  | .wroteIx _ a => keys lo = Lib.Bitonic.round k.toNat j.toNat old lo ∧
      a = Lib.Bitonic.round k.toNat j.toNat old (lo ^^^ j.toNat)

structure Pair (k j : BitVec 32) (old keys : Nat → BitVec 64) (p : Pc) (lo : Nat) : Prop where
  before : lo / kSchedThreads < p.no → Exchanged k j old keys lo
  now : lo / kSchedThreads = p.no → Current k j old keys lo p
  after : p.no < lo / kSchedThreads → Fresh j old keys lo

theorem ixOf_mod (h : tid < kSchedThreads) (e : Nat) : ixOf tid e % kSchedThreads = tid := by
  rw [ixOf, Nat.add_mul_mod_self_right, Nat.mod_eq_of_lt h]

theorem ixOf_div (h : tid < kSchedThreads) (e : Nat) : ixOf tid e / kSchedThreads = e := by
  rw [ixOf, Nat.add_mul_div_right _ _ (by decide), Nat.div_eq_of_lt h, Nat.zero_add]

theorem ixOf_self (lo : Nat) : ixOf (lo % kSchedThreads) (lo / kSchedThreads) = lo := by
  rw [ixOf, Nat.mul_comm]
  exact Nat.mod_add_div lo kSchedThreads

theorem pair_disjoint {j : Nat} (hlo : lo < lo ^^^ j) (hix : ix < ix ^^^ j) (hne : lo ≠ ix) :
    lo ≠ ix ^^^ j ∧ lo ^^^ j ≠ ix ∧ lo ^^^ j ≠ ix ^^^ j := by
  refine ⟨?_, ?_, fun h => hne ?_⟩
  · rintro rfl
    rw [xor_xor] at hlo
    omega
  · rintro rfl
    rw [xor_xor] at hix
    omega
  · rw [← xor_xor lo j, h, xor_xor]

theorem Pair.congr (h : Pair k j old keys p lo) (hlo : keys' lo = keys lo)
    (hhi : keys' (lo ^^^ j.toNat) = keys (lo ^^^ j.toNat)) : Pair k j old keys' p lo where
  before hb := by
    have := h.before hb
    unfold Exchanged at *
    rwa [hlo, hhi]
  now hn := by
    have := h.now hn
    cases p <;> simpa only [Current, Fresh, hlo, hhi] using this
  after ha := by
    have := h.after ha
    unfold Fresh at *
    rwa [hlo, hhi]

theorem Pair.pass (h : Pair k j old keys p lo) (hne : lo / kSchedThreads ≠ p.no)
    (hno : p'.no = p.no ∨ p' = .elem (p.no + 1)) : Pair k j old keys p' lo := by
  have hle : p.no ≤ p'.no ∧ p'.no ≤ p.no + 1 := by
    obtain h | rfl := hno
    · omega
    · exact ⟨Nat.le_succ _, le_rfl⟩
  refine ⟨fun hb => h.before (by omega), fun hn => ?_, fun ha => h.after (by omega)⟩
  obtain h' | rfl := hno
  · omega
  · exact h.after (by change _ = _ + 1 at hn; omega)

theorem Exchanged.pair {e : Nat} (h : Exchanged k j old keys lo) (he : lo / kSchedThreads = e) :
    Pair k j old keys (.elem (e+1)) lo :=
  ⟨fun _ => h, fun hn => absurd hn (by simp only [Pc.no]; omega),
    fun ha => absurd ha (by simp only [Pc.no]; omega)⟩

theorem Current.pair (h : Current k j old keys lo p) (he : lo / kSchedThreads = p.no) :
    Pair k j old keys p lo :=
  ⟨fun hb => absurd hb (by omega), fun _ => h, fun ha => absurd ha (by omega)⟩

/-- A thread that does not wait goes on with its element or to the next. -/
theorem no_of_access (h : access batch k j keys tid p = some (keys', p')) :
    p'.no = p.no ∨ p' = .elem (p.no + 1) := by
  cases p with
  | elem e =>
    simp only [access] at h
    split_ifs at h <;> cases h
    · exact .inl rfl
    · exact .inr rfl
  | readIx e a =>
    cases h
    exact .inl rfl
  | readBoth e a b =>
    simp only [access] at h
    split_ifs at h <;> cases h
    · exact .inl rfl
    · exact .inr rfl
  | wroteIx e a =>
    cases h
    exact .inr rfl

theorem kept_of_access (h : access batch k j keys tid p = some (keys', p')) {c : Nat}
    (hc : c ≠ ixOf tid p.no) (hc' : c ≠ ixOf tid p.no ^^^ j.toNat) : keys' c = keys c := by
  cases p with
  | elem e =>
    simp only [access] at h
    split_ifs at h <;> cases h <;> rfl
  | readIx e a =>
    cases h
    rfl
  | readBoth e a b =>
    simp only [access] at h
    split_ifs at h <;> cases h
    · exact update_of_ne hc _ _
    · rfl
  | wroteIx e a =>
    cases h
    exact update_of_ne hc' _ _

theorem Pair.access (htid : tid < kSchedThreads) (hix : ixOf tid p.no < ixOf tid p.no ^^^ j.toNat)
    (h : Pair k j old keys p (ixOf tid p.no))
    (hacc : access batch k j keys tid p = some (keys', p')) :
    Pair k j old keys' p' (ixOf tid p.no) := by
  have hdiv := ixOf_div htid p.no
  have hnow := h.now hdiv
  cases p with
  | elem e =>
    simp only [BitonicSort.access] at hacc
    split_ifs at hacc with he hlt
    · cases hacc
      exact Current.pair ⟨hnow, hnow.1⟩ hdiv
    · exact absurd hix hlt
  | readIx e a =>
    cases hacc
    exact Current.pair ⟨hnow.1, hnow.2, hnow.1.2⟩ hdiv
  | readBoth e a b =>
    dsimp only [Pc.no] at hix hnow hdiv ⊢
    obtain ⟨hfresh, rfl, rfl⟩ := hnow
    obtain ⟨hrlo, hrhi⟩ := round_pair (k := k) hix old
    simp only [BitonicSort.access] at hacc
    by_cases hs : swaps k j old (ixOf tid e) = true
    · rw [if_pos hs] at hrlo hrhi
      cases (if_pos hs).symm.trans hacc
      exact Current.pair ⟨(update_self ..).trans hrlo.symm, hrhi.symm⟩ hdiv
    · rw [if_neg hs] at hrlo hrhi
      cases (if_neg hs).symm.trans hacc
      exact Exchanged.pair ⟨hfresh.1.trans hrlo.symm, hfresh.2.trans hrhi.symm⟩ hdiv
  | wroteIx e a =>
    dsimp only [Pc.no] at hnow ⊢
    obtain ⟨hlo, rfl⟩ := hnow
    cases hacc
    exact Exchanged.pair ⟨(update_of_ne hix.ne _ _).trans hlo, update_self ..⟩ hdiv

structure Body (batch k j : BitVec 32) (old keys : Nat → BitVec 64) (pc : Nat → Pc) : Prop where
  pairs : ∀ lo < batch.toNat, lo < lo ^^^ j.toNat → Pair k j old keys (pc (lo % kSchedThreads)) lo
  busy : ∀ tid < kSchedThreads, (pc tid).busy → (pc tid).no < elemsPerThread batch ∧
    ixOf tid (pc tid).no < ixOf tid (pc tid).no ^^^ j.toNat

theorem Body.start (batch k j : BitVec 32) (old : Nat → BitVec 64) :
    Body batch k j old old fun _ => .elem 0 where
  pairs _ _ _ := ⟨fun h => absurd h (Nat.not_lt_zero _), fun _ => ⟨rfl, rfl⟩, fun _ => ⟨rfl, rfl⟩⟩
  busy _ _ h := h.elim

theorem busy_of_access (h : access batch k j keys tid p = some (keys', p')) (hb : p.busy →
    p.no < elemsPerThread batch ∧ ixOf tid p.no < ixOf tid p.no ^^^ j.toNat) (hb' : p'.busy) :
    p'.no < elemsPerThread batch ∧ ixOf tid p'.no < ixOf tid p'.no ^^^ j.toNat := by
  cases p with
  | elem e =>
    simp only [access] at h
    split_ifs at h with he hlt <;> cases h
    · exact ⟨he, hlt⟩
    · exact hb'.elim
  | readIx e a =>
    cases h
    exact hb trivial
  | readBoth e a b =>
    simp only [access] at h
    split_ifs at h <;> cases h
    · exact hb trivial
    · exact hb'.elim
  | wroteIx e a =>
    cases h
    exact hb'.elim

/-- A thread whose element has no pair to the right only goes on. -/
theorem eq_of_access (h : access batch k j keys tid p = some (keys', p'))
    (hb : p.busy → ixOf tid p.no < ixOf tid p.no ^^^ j.toNat)
    (hix : ¬ixOf tid p.no < ixOf tid p.no ^^^ j.toNat) : keys' = keys := by
  cases p with
  | elem e =>
    simp only [access] at h
    split_ifs at h <;> cases h <;> rfl
  | readIx e a => exact absurd (hb trivial) hix
  | readBoth e a b => exact absurd (hb trivial) hix
  | wroteIx e a => exact absurd (hb trivial) hix

variable {pc : Nat → Pc}

/-- Whatever thread comes next, the pairs stay as their threads have made them. -/
theorem Body.access (h : Body batch k j old keys pc) (htid : tid < kSchedThreads)
    (hacc : access batch k j keys tid (pc tid) = some (keys', p')) :
    Body batch k j old keys' (update pc tid p') where
  pairs lo hlo hpair := by
    have hp := h.pairs lo hlo hpair
    by_cases hown : lo = ixOf tid (pc tid).no
    · subst hown
      rw [ixOf_mod htid] at hp ⊢
      rw [update_self]
      exact hp.access htid hpair hacc
    · have hkeys : keys' lo = keys lo ∧ keys' (lo ^^^ j.toNat) = keys (lo ^^^ j.toNat) := by
        by_cases hix : ixOf tid (pc tid).no < ixOf tid (pc tid).no ^^^ j.toNat
        · obtain ⟨h1, h2, h3⟩ := pair_disjoint hpair hix hown
          exact ⟨kept_of_access hacc hown h1, kept_of_access hacc h2 h3⟩
        · rw [eq_of_access hacc (fun hb => (h.busy tid htid hb).2) hix]
          exact ⟨rfl, rfl⟩
      have hp' := hp.congr hkeys.1 hkeys.2
      by_cases ht : lo % kSchedThreads = tid
      · subst ht
        rw [update_self]
        refine hp'.pass (fun he => hown ?_) (no_of_access hacc)
        rw [← he, ixOf_self]
      · rwa [update_of_ne ht]
  busy t ht hb := by
    by_cases he : t = tid
    · subst he
      rw [update_self] at hb ⊢
      exact busy_of_access hacc (h.busy t ht) hb
    · rw [update_of_ne he] at hb ⊢
      exact h.busy t ht hb

theorem Body.round (h : Body batch k j old keys pc) (hj : 0 < j.toNat)
    (hdvd : batch.toNat % kSchedThreads = 0)
    (hwait : ∀ tid < kSchedThreads, BitonicSort.access batch k j keys tid (pc tid) = none)
    {ix : Nat} (hix : ix < batch.toNat) : keys ix = Lib.Bitonic.round k.toNat j.toNat old ix := by
  have hdone (lo : Nat) (hlo : lo < batch.toNat) (hlt : lo < lo ^^^ j.toNat) :
    Exchanged k j old keys lo := by
    refine (h.pairs lo hlo hlt).before ?_
    have hw := hwait (lo % kSchedThreads) (Nat.mod_lt _ (by decide))
    cases hp : pc (lo % kSchedThreads) with
    | elem e =>
      rw [hp] at hw
      simp only [BitonicSort.access] at hw
      have he : ¬e < elemsPerThread batch := by
        intro he
        rw [if_pos he] at hw
        split_ifs at hw
      simp only [elemsPerThread, kSchedThreads, Pc.no] at *
      omega
    | readIx e a => rw [hp] at hw; cases hw
    | readBoth e a b =>
      rw [hp] at hw
      simp only [BitonicSort.access] at hw
      split_ifs at hw
    | wroteIx e a => rw [hp] at hw; cases hw
  have hne : ix ^^^ j.toNat ≠ ix := by
    intro he
    have : ix ^^^ (ix ^^^ j.toNat) = 0 := by rw [he, Nat.xor_self]
    rw [← Nat.xor_assoc, Nat.xor_self, Nat.zero_xor] at this
    omega
  rcases Nat.lt_or_gt_of_ne hne with hlt | hlt
  · have := (hdone (ix ^^^ j.toNat) (by omega) (by rw [xor_xor]; exact hlt)).2
    rwa [xor_xor] at this
  · exact (hdone ix hix hlt).1

def weight (batch : BitVec 32) : Pc → Nat
  | .elem e => 4 * (elemsPerThread batch - e)
  | .readIx e _ => 4 * (elemsPerThread batch - e) - 1
  | .readBoth e _ _ => 4 * (elemsPerThread batch - e) - 2
  | .wroteIx e _ => 4 * (elemsPerThread batch - e) - 3

theorem weight_lt_of_access (h : access batch k j keys tid p = some (keys', p'))
    (hb : p.busy → p.no < elemsPerThread batch) : weight batch p' < weight batch p := by
  cases p with
  | elem e =>
    simp only [access] at h
    split_ifs at h <;> cases h <;> simp only [weight] <;> omega
  | readIx e a =>
    have := hb trivial
    cases h
    simp only [weight, Pc.no] at *
    omega
  | readBoth e a b =>
    have := hb trivial
    simp only [access] at h
    split_ifs at h <;> cases h <;> simp only [weight, Pc.no] at * <;> omega
  | wroteIx e a =>
    have := hb trivial
    cases h
    simp only [weight, Pc.no] at *
    omega

def work (batch : BitVec 32) (pc : Nat → Pc) : Nat :=
  ∑ tid ∈ Finset.range kSchedThreads, weight batch (pc tid)

theorem Body.work_lt (h : Body batch k j old keys pc) (htid : tid < kSchedThreads)
    (hacc : BitonicSort.access batch k j keys tid (pc tid) = some (keys', p')) :
    work batch (update pc tid p') < work batch pc := by
  have hlt := weight_lt_of_access hacc fun hb => (h.busy tid htid hb).1
  refine Finset.sum_lt_sum (fun t _ => ?_) ⟨tid, Finset.mem_range.mpr htid, ?_⟩
  · by_cases he : t = tid
    · subst he
      rw [update_self]
      exact hlt.le
    · rw [update_of_ne he]
  · rwa [update_self]

def roundCost (batch : BitVec 32) : Nat := work batch (fun _ => .elem 0) + 3

def stageCost (batch : BitVec 32) (m : Nat) : Nat := m * roundCost batch + 3

inductive Inv (batch : BitVec 32) (m : Nat) (keys₀ : Nat → BitVec 64) : State → Nat → Prop
  | stage {k j : BitVec 32} {keys : Nat → BitVec 64} {pc : Nat → Pc} {a : Nat} : a ≤ m →
    k.toNat = 2^(a+1) → (∀ ix < 2^m, keys ix = sort a keys₀ ix) →
    Inv batch m keys₀ ⟨.stage, k, j, keys, pc⟩ ((m-a) * stageCost batch m + 1)
  | round {k j : BitVec 32} {keys : Nat → BitVec 64} {pc : Nat → Pc} {a t : Nat} : a < m → t ≤ a+1 →
    k.toNat = 2^(a+1) → j.toNat = 2^t / 2 →
    (∀ ix < 2^m, rounds (a+1) t keys ix = sort (a+1) keys₀ ix) →
    Inv batch m keys₀ ⟨.round, k, j, keys, pc⟩
      ((m-(a+1)) * stageCost batch m + t * roundCost batch + 2)
  | body {k j : BitVec 32} {keys old : Nat → BitVec 64} {pc : Nat → Pc} {a t : Nat} :
    a < m → t ≤ a → k.toNat = 2^(a+1) → j.toNat = 2^t →
    (∀ ix < 2^m, rounds (a+1) (t+1) old ix = sort (a+1) keys₀ ix) → Body batch k j old keys pc →
    Inv batch m keys₀ ⟨.body, k, j, keys, pc⟩
      ((m-(a+1)) * stageCost batch m + t * roundCost batch + work batch pc + 3)
  | done {k j : BitVec 32} {keys : Nat → BitVec 64} {pc : Nat → Pc} :
    (∀ ix < 2^m, keys ix = sort m keys₀ ix) → Inv batch m keys₀ ⟨.done, k, j, keys, pc⟩ 0

theorem shiftRight_one {w n : Nat} {x : BitVec w} (h : x.toNat = n) : (x >>> 1).toNat = n / 2 := by
  rw [BitVec.toNat_ushiftRight, h, Nat.shiftRight_eq_div_pow, Nat.pow_one]

theorem half_pos_iff {j : BitVec 32} {t : Nat} (hj : j.toNat = 2^t / 2) : 0#32 < j ↔ t ≠ 0 := by
  rw [BitVec.lt_def, hj, BitVec.toNat_ofNat]
  cases t with
  | zero => decide
  | succ t =>
    have hhalf : 2^(t+1) / 2 = 2^t := by rw [Nat.pow_succ, Nat.mul_div_cancel _ (by decide)]
    rw [hhalf]
    exact iff_of_true (Nat.two_pow_pos t) (Nat.succ_ne_zero t)

variable {m n : Nat} {keys₀ : Nat → BitVec 64} {s s' : State}

theorem Inv.step (hm : batch.toNat = 2^m) (hdvd : batch.toNat % kSchedThreads = 0) (hm' : m ≤ 30)
    (h : Inv batch m keys₀ s n) (hs : Step batch s s') : ∃ n' < n, Inv batch m keys₀ s' n' := by
  cases h with
  | @stage k j keys pc a ha hk hkeys =>
    have hle : k ≤ batch ↔ a+1 ≤ m := by
      rw [BitVec.le_def, hk, hm, Nat.pow_le_pow_iff_right (by decide)]
    cases hs with
    | stage hstage =>
      have ham := hle.mp hstage
      refine ⟨_, ?_, .round ham le_rfl hk (shiftRight_one hk) (rounds_congr ham hkeys)⟩
      have hcost : (a+1) * roundCost batch ≤ m * roundCost batch := Nat.mul_le_mul_right _ ham
      have hleft :
        (m-a) * stageCost batch m = (m-(a+1)) * stageCost batch m + stageCost batch m := by
        rw [← Nat.succ_mul]
        congr 1
        omega
      unfold stageCost at *
      omega
    | finish hlast =>
      obtain rfl : a = m := by rw [hle] at hlast; omega
      exact ⟨0, Nat.succ_pos _, .done hkeys⟩
  | @round k j keys pc a t ha ht hk hj hkeys =>
    cases hs with
    | round hpos =>
      obtain ⟨t, rfl⟩ := Nat.exists_eq_succ_of_ne_zero ((half_pos_iff hj).mp hpos)
      have hj' : j.toNat = 2^t := by rw [hj, Nat.pow_succ, Nat.mul_div_cancel _ (by decide)]
      refine ⟨_, ?_, .body ha (by omega) hk hj' hkeys (Body.start ..)⟩
      rw [Nat.succ_mul]
      unfold roundCost
      omega
    | next hzero =>
      obtain rfl : t = 0 := not_not.mp fun hne => hzero ((half_pos_iff hj).mpr hne)
      refine ⟨(m-(a+1)) * stageCost batch m + 1, ?_, .stage ha ?_ hkeys⟩
      · omega
      · rw [BitVec.toNat_shiftLeft, hk, Nat.shiftLeft_eq, ← Nat.pow_add, Nat.mod_eq_of_lt]
        exact Nat.pow_lt_pow_right (by decide) (by omega)
  | @body k j keys old pc a t ha ht hk hj hkeys hbody =>
    cases hs with
    | access tid htid hacc =>
      have hwork := hbody.work_lt htid hacc
      exact ⟨_, by omega, .body ha ht hk hj hkeys (hbody.access htid hacc)⟩
    | barrier hwait =>
      refine ⟨_, ?_, .round ha (Nat.le_succ_of_le ht) hk (shiftRight_one hj) fun ix hix => ?_⟩
      · omega
      · rw [← hkeys ix hix]
        refine rounds_congr (by omega) (fun ix hix => ?_) ix hix
        have hround := hbody.round (by rw [hj]; exact Nat.two_pow_pos t) hdvd hwait (hm ▸ hix)
        rwa [hk, hj] at hround
  | done => cases hs

theorem Inv.start (batch : BitVec 32) (m : Nat) (keys : Nat → BitVec 64) :
    Inv batch m keys (start keys) (m * stageCost batch m + 1) :=
  .stage (Nat.zero_le m) rfl fun _ _ => rfl

theorem Run.inv (hm : batch.toNat = 2^m) (hdvd : batch.toNat % kSchedThreads = 0) (hm' : m ≤ 30)
    (h : Run batch keys₀ n s) : ∃ left, Inv batch m keys₀ s left ∧
    n + left ≤ m * stageCost batch m + 1 := by
  induction h with
  | start => exact ⟨_, Inv.start batch m keys₀, (Nat.zero_add _).le⟩
  | step _ hs ih =>
    obtain ⟨left, hinv, hle⟩ := ih
    obtain ⟨left', hlt, hinv'⟩ := hinv.step hm hdvd hm' hs
    exact ⟨left', hinv', by omega⟩

theorem Run.sort (hm : batch.toNat = 2^m) (hdvd : batch.toNat % kSchedThreads = 0) (hm' : m ≤ 30)
    (h : Run batch keys₀ n s) (hdone : s.loop = .done) :
    ∀ ix < 2^m, s.keys ix = Lib.Bitonic.sort m keys₀ ix := by
  obtain ⟨left, hinv, -⟩ := h.inv hm hdvd hm'
  cases hinv with
  | done hkeys => exact hkeys
  | stage => cases hdone
  | round => cases hdone
  | body => cases hdone

theorem no_lt_of_access (h : access batch k j keys tid p = some (keys', p'))
    (hb : p.busy → p.no < elemsPerThread batch) : p.no < elemsPerThread batch := by
  cases p with
  | elem e =>
    simp only [access] at h
    split_ifs at h with he <;> exact he
  | readIx e a => exact hb trivial
  | readBoth e a b => exact hb trivial
  | wroteIx e a => exact hb trivial

theorem Inv.beyond (hm : batch.toNat = 2^m) (h : Inv batch m keys₀ s n) (hs : Step batch s s')
    {c : Nat} (hc : 2^m ≤ c) : s'.keys c = s.keys c := by
  cases hs with
  | stage => rfl
  | finish => rfl
  | round => rfl
  | next => rfl
  | barrier => rfl
  | @access tid k j keys keys' pc p htid hacc =>
    cases h with
    | @body _ _ _ old _ a t ha ht hk hj hkeys hbody =>
      have hno := no_lt_of_access hacc fun hb => (hbody.busy tid htid hb).1
      have hix : ixOf tid (pc tid).no < 2^m := by
        simp only [elemsPerThread, ixOf, kSchedThreads] at *
        omega
      have hxor : ixOf tid (pc tid).no ^^^ j.toNat < 2^m := by
        refine Nat.xor_lt_two_pow hix ?_
        rw [hj]
        exact Nat.pow_lt_pow_right (by decide) (by omega)
      exact kept_of_access hacc (by omega) (by omega)

theorem Run.beyond (hm : batch.toNat = 2^m) (hdvd : batch.toNat % kSchedThreads = 0) (hm' : m ≤ 30)
    (h : Run batch keys₀ n s) {c : Nat} (hc : 2^m ≤ c) : s.keys c = keys₀ c := by
  induction h with
  | start => rfl
  | step hrun hs ih =>
    obtain ⟨left, hinv, -⟩ := hrun.inv hm hdvd hm'
    exact (hinv.beyond hm hs hc).trans ih

end Pairs

/-- Batches of up to `2^30` keys are sorted, however the threads interleave. -/
theorem bitonic_sort_sorts {batch : BitVec 32} {m : Nat} (hm : batch.toNat = 2^m)
    (hdvd : batch.toNat % kSchedThreads = 0) (hm' : m ≤ 30) (keys : Nat → BitVec 64) :
    Sorts batch keys where
  ends := by
    refine ⟨m * stageCost batch m + 1, fun n s h => ?_⟩
    obtain ⟨left, -, hle⟩ := h.inv hm hdvd hm'
    omega
  returns n s _ hstuck := by
    by_contra hdone
    obtain ⟨s', hs⟩ := exists_step batch hdone
    exact hstuck s' hs
  ascending n s h hdone i j hij hj := by
    rw [hm] at hj
    rw [h.sort hm hdvd hm' hdone i (by omega), h.sort hm hdvd hm' hdone j hj]
    exact @sort_mono _ keyOrder m keys i j hij hj
  perm n s h hdone := by
    rw [hm]
    have hmap : (List.range (2^m)).map s.keys = (List.range (2^m)).map (@sort _ keyOrder m keys) :=
      List.map_congr_left fun ix hix => h.sort hm hdvd hm' hdone ix (List.mem_range.mp hix)
    rw [hmap]
    exact @sort_perm _ keyOrder m m le_rfl keys
  beyond n s h p hp := h.beyond hm hdvd hm' (hm ▸ hp)

theorem descending_sorted : Sorts 512#32 fun i => BitVec.ofNat 64 (1000 - i) :=
  bitonic_sort_sorts (m := 9) rfl rfl (by decide) _

theorem one_shiftLeft_le (a : Nat) : 1#32 <<< a ≤ 0x80000000#32 := by
  rw [BitVec.le_def, BitVec.toNat_shiftLeft, Nat.shiftLeft_eq]
  change 1 * 2^a % 2^32 ≤ 2^31
  rw [Nat.one_mul]
  rcases Nat.lt_or_ge a 32 with h | h
  · exact (Nat.mod_le _ _).trans (Nat.pow_le_pow_right (by decide) (by omega))
  · rw [Nat.mod_eq_zero_of_dvd (Nat.pow_dvd_pow 2 h)]
    exact Nat.zero_le _

/-- With the largest power of two that 32 bits hold, `k` is shifted out and the outer loop
goes on with `k = 0`. -/
theorem never_done {keys : Nat → BitVec 64} {n : Nat} {s : State} (h : Run 0x80000000#32 keys n s) :
    s.loop ≠ .done ∧ ∃ a : Nat, s.k = 1#32 <<< a := by
  induction h with
  | start => exact ⟨by simp [start], 1, rfl⟩
  | step hrun hs ih =>
    obtain ⟨hnot, a, hk⟩ := ih
    cases hs with
    | stage => exact ⟨by simp, a, hk⟩
    | finish hlast =>
      refine absurd ?_ hlast
      dsimp only at hk
      rw [hk]
      exact one_shiftLeft_le a
    | round => exact ⟨by simp, a, hk⟩
    | next =>
      refine ⟨by simp, a+1, ?_⟩
      dsimp only at hk ⊢
      rw [hk, BitVec.shiftLeft_add]
    | access => exact ⟨by simp, a, hk⟩
    | barrier => exact ⟨by simp, a, hk⟩

theorem exists_run (keys : Nat → BitVec 64) (n : Nat) : ∃ s, Run 0x80000000#32 keys n s := by
  induction n with
  | zero => exact ⟨_, .start⟩
  | succ n ih =>
    obtain ⟨s, hrun⟩ := ih
    obtain ⟨s', hs⟩ := exists_step 0x80000000#32 (never_done hrun).1
    exact ⟨s', hrun.step hs⟩

theorem largest_batch_never_sorted :
    ¬∀ (batch : BitVec 32) (m : Nat), batch.toNat = 2^m → batch.toNat % kSchedThreads = 0 →
      ∀ keys : Nat → BitVec 64, Sorts batch keys := by
  intro h
  obtain ⟨bound, hbound⟩ := (h 0x80000000#32 31 rfl rfl fun _ => 0#64).ends
  obtain ⟨s, hrun⟩ := exists_run (fun _ => 0#64) (bound + 1)
  have := hbound _ _ hrun
  omega

end Shaper.BitonicSort
