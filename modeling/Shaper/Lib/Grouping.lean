import Mathlib.Data.List.Nodup
import Mathlib.Data.List.Perm.Basic

/-! Values grouped by their keys, as an insertion-ordered dictionary of lists collects them. -/
namespace Shaper.Lib.Grouping
open Function
variable {κ μ α : Type*} [DecidableEq κ] [DecidableEq μ]

def append (k : κ) (v : α) : List (κ × List α) → List (κ × List α)
  | [] => [(k, [v])]
  | (k', vs) :: gs => if k' = k then (k', vs ++ [v]) :: gs else (k', vs) :: append k v gs

def item (gs : List (κ × List α)) (k : κ) : List α := (gs.lookup k).getD []

def group (pairs : List (κ × α)) : List (κ × List α) :=
  pairs.foldl (fun gs p => append p.1 p.2 gs) []

def valuesOf (k : κ) (pairs : List (κ × α)) : List α := (pairs.filter fun p => p.1 = k).map Prod.snd

theorem valuesOf_append (k : κ) (ps qs : List (κ × α)) :
    valuesOf k (ps ++ qs) = valuesOf k ps ++ valuesOf k qs := by
  rw [valuesOf, List.filter_append, List.map_append]
  rfl

theorem lookup_cons {β : Type*} (k : κ) (g : κ × β) (gs : List (κ × β)) :
    (g :: gs).lookup k = if k = g.1 then some g.2 else gs.lookup k := by
  by_cases h : k = g.1
  · rw [if_pos h, h]
    exact List.lookup_cons_self
  · have hstep : (g :: gs).lookup k = match k == g.1 with
        | true => some g.2
        | false => gs.lookup k := rfl
    rw [if_neg h, hstep, beq_false_of_ne h]

theorem lookup_eq_none {β : Type*} {k : κ} {gs : List (κ × β)} (hk : k ∉ gs.map Prod.fst) :
    gs.lookup k = none := by
  induction gs with
  | nil => rfl
  | cons g gs ih =>
    rw [List.map_cons, List.mem_cons, not_or] at hk
    rw [lookup_cons, if_neg hk.1, ih hk.2]

theorem item_eq_nil {k : κ} {gs : List (κ × List α)} (hk : k ∉ gs.map Prod.fst) :
    item gs k = [] := by
  rw [item, lookup_eq_none hk]
  rfl

theorem lookup_append (k k' : κ) (v : α) (gs : List (κ × List α)) :
    (append k v gs).lookup k' = if k' = k then some ((gs.lookup k).getD [] ++ [v])
    else gs.lookup k' := by
  induction gs with
  | nil => exact lookup_cons k' (k, [v]) []
  | cons g gs ih =>
    rw [append]
    by_cases hg : g.1 = k
    · subst hg
      simp only [lookup_cons, if_true, Option.getD_some]
      split <;> rfl
    · have hg' : ¬ k = g.1 := fun h => hg h.symm
      rw [if_neg hg, lookup_cons, lookup_cons, lookup_cons, if_neg hg', ih]
      by_cases h : k' = k
      · rw [if_neg (fun h' => hg' (h ▸ h')), if_pos h, if_pos h]
      · simp only [if_neg h]

theorem keys_append (k : κ) (v : α) (gs : List (κ × List α)) :
    (append k v gs).map Prod.fst = if k ∈ gs.map Prod.fst then gs.map Prod.fst
    else gs.map Prod.fst ++ [k] := by
  induction gs with
  | nil => rfl
  | cons g gs ih =>
    rw [append]
    by_cases hk : g.1 = k
    · simp [hk]
    · have hk' : ¬ k = g.1 := fun h => hk h.symm
      simp only [if_neg hk, List.map_cons, ih, List.mem_cons, hk', false_or]
      split <;> rfl

structure Collects (gs : List (κ × List α)) (pairs : List (κ × α)) : Prop where
  nodup : (gs.map Prod.fst).Nodup
  keys : ∀ k, k ∈ gs.map Prod.fst ↔ k ∈ pairs.map Prod.fst
  values : ∀ k, (gs.lookup k).getD [] = valuesOf k pairs

theorem Collects.append {gs : List (κ × List α)} {pairs : List (κ × α)} (h : Collects gs pairs)
    (k : κ) (v : α) : Collects (append k v gs) (pairs ++ [(k, v)]) where
  nodup := by
    rw [keys_append]
    split
    · exact h.nodup
    · rename_i hk
      rw [List.nodup_append]
      refine ⟨h.nodup, List.nodup_singleton k, fun a ha b hb => ?_⟩
      obtain rfl := List.mem_singleton.mp hb
      exact fun hab => hk (hab ▸ ha)
  keys k' := by
    rw [keys_append, List.map_append, List.mem_append, ← h.keys]
    split
    · rename_i hk
      simp only [List.map_cons, List.map_nil, List.mem_singleton]
      constructor
      · exact .inl
      · rintro (hk' | rfl)
        · exact hk'
        · exact hk
    · exact List.mem_append
  values k' := by
    rw [lookup_append, valuesOf_append, ← h.values k']
    by_cases hk : k' = k
    · simp [hk, valuesOf]
    · simp [hk, valuesOf, Ne.symm hk]

theorem collects_group (pairs : List (κ × α)) : Collects (group pairs) pairs := by
  suffices h : ∀ (ps : List (κ × α)) gs done, Collects gs done →
      Collects (ps.foldl (fun gs p => Grouping.append p.1 p.2 gs) gs) (done ++ ps) by
    exact h pairs [] [] ⟨List.nodup_nil, fun k => Iff.rfl, fun k => rfl⟩
  intro ps
  induction ps with
  | nil =>
    intro gs done h
    rwa [List.append_nil]
  | cons p ps ih =>
    intro gs done h
    have := ih _ _ (h.append p.1 p.2)
    rwa [List.append_assoc] at this

theorem lookup_of_mem {gs : List (κ × List α)} (hn : (gs.map Prod.fst).Nodup) {g : κ × List α}
    (hg : g ∈ gs) : gs.lookup g.1 = some g.2 := by
  induction gs with
  | nil => cases hg
  | cons x gs ih =>
    obtain ⟨hx, hgs⟩ := List.nodup_cons.mp hn
    rcases List.mem_cons.mp hg with rfl | hg
    · exact List.lookup_cons_self
    · have hne : ¬ g.1 = x.1 := fun h => hx (h ▸ List.mem_map_of_mem hg)
      rw [lookup_cons, if_neg hne, ih hgs hg]

theorem mem_group {pairs : List (κ × α)} {k : κ} {vs : List α} :
    (k, vs) ∈ group pairs ↔ k ∈ pairs.map Prod.fst ∧ vs = valuesOf k pairs := by
  have h := collects_group pairs
  have hvalues : ∀ g ∈ group pairs, g.2 = valuesOf g.1 pairs := by
    intro g hg
    rw [← h.values g.1, lookup_of_mem h.nodup hg]
    rfl
  constructor
  · intro hg
    exact ⟨(h.keys k).mp (List.mem_map_of_mem hg), hvalues _ hg⟩
  · rintro ⟨hk, rfl⟩
    obtain ⟨g, hg, rfl⟩ := List.mem_map.mp ((h.keys k).mpr hk)
    rwa [← hvalues g hg]

theorem group_map {f : κ → μ} (hf : ∀ a b, f a = f b → a = b) (pairs : List (κ × α)) :
    group (pairs.map fun p => (f p.1, p.2)) = (group pairs).map fun g => (f g.1, g.2) := by
  have happend : ∀ (k : κ) (v : α) gs,
      Grouping.append (f k) v (gs.map fun g => (f g.1, g.2)) = (Grouping.append k v gs).map fun g =>
        (f g.1, g.2) := by
    intro k v gs
    induction gs with
    | nil => rfl
    | cons g gs ih =>
      rw [List.map_cons, Grouping.append, Grouping.append]
      by_cases hk : g.1 = k
      · simp [hk]
      · have hk' : ¬ f g.1 = f k := fun h => hk (hf _ _ h)
        simp only [if_neg hk, if_neg hk', ih, List.map_cons]
  suffices h : ∀ (ps : List (κ × α)) gs,
      (ps.map fun p => (f p.1, p.2)).foldl (fun gs p => Grouping.append p.1 p.2 gs)
      (gs.map fun g => (f g.1, g.2)) =
        (ps.foldl (fun gs p => Grouping.append p.1 p.2 gs) gs).map fun g => (f g.1, g.2) by
    exact h pairs []
  intro ps
  induction ps with
  | nil => exact fun _ => rfl
  | cons p ps ih =>
    intro gs
    rw [List.map_cons, List.foldl_cons, happend, ih, List.foldl_cons]

theorem valuesOf_flatMap {ι : Type*} (k : κ) (l : List ι) (f : ι → List (κ × α)) :
    valuesOf k (l.flatMap f) = l.flatMap fun i => valuesOf k (f i) := by
  induction l with
  | nil => rfl
  | cons i l ih => rw [List.flatMap_cons, valuesOf_append, ih, List.flatMap_cons]

section Rounds
variable {π : Type*} {points : List π} {key : π → κ} {value : Nat → π → α}
  {rounds : Nat → List (κ × α)} {n : Nat}

theorem filter_key (hkey : (points.map key).Nodup) {p : π} (hp : p ∈ points) :
    points.filter (fun q => key q = key p) = [p] := by
  induction points with
  | nil => cases hp
  | cons q points ih =>
    obtain ⟨hq, hn⟩ := List.nodup_cons.mp hkey
    rcases List.mem_cons.mp hp with rfl | hp
    · have hrest : points.filter (fun q => key q = key p) = [] := by
        rw [List.filter_eq_nil_iff]
        intro q' hq' heq
        exact hq (of_decide_eq_true heq ▸ List.mem_map_of_mem hq')
      simp [hrest]
    · have hne : ¬ key q = key p := fun h => hq (h ▸ List.mem_map_of_mem hp)
      simp [hne, ih hn hp]

theorem valuesOf_round (hkey : (points.map key).Nodup) {r : Nat}
    (hr : (rounds r).Perm (points.map fun p => (key p, value r p))) {p : π} (hp : p ∈ points) :
    valuesOf (key p) (rounds r) = [value r p] := by
  have hperm := (hr.filter fun q => decide (q.1 = key p)).map Prod.snd
  rw [List.filter_map, List.map_map] at hperm
  have hfilter := filter_key hkey hp
  simp only [comp_def, hfilter] at hperm
  exact List.perm_singleton.mp hperm

/-- Points that every round measures once, in any order: the groups are the points, with a value
from each round. -/
theorem group_rounds (hn : 0 < n) (hkey : (points.map key).Nodup)
    (hr : ∀ r < n, (rounds r).Perm (points.map fun p => (key p, value r p))) :
    (group ((List.range n).flatMap rounds)).Perm
      (points.map fun p => (key p, (List.range n).map fun r => value r p)) := by
  have hvalues : ∀ p ∈ points,
      valuesOf (key p) ((List.range n).flatMap rounds) = (List.range n).map fun r => value r p := by
    intro p hp
    rw [valuesOf_flatMap, List.map_eq_flatMap]
    apply List.flatMap_congr
    intro r hrn
    exact valuesOf_round hkey (hr r (List.mem_range.mp hrn)) hp
  have hmem : ∀ k, k ∈ ((List.range n).flatMap rounds).map Prod.fst ↔ k ∈ points.map key := by
    intro k
    have hround : ∀ r < n, (k ∈ (rounds r).map Prod.fst ↔ k ∈ points.map key) := by
      intro r hrn
      have hkeys := ((hr r hrn).map Prod.fst).mem_iff (a := k)
      rwa [List.map_map] at hkeys
    rw [List.map_flatMap, List.mem_flatMap]
    constructor
    · rintro ⟨r, hrn, hk⟩
      exact (hround r (List.mem_range.mp hrn)).mp hk
    · intro hk
      exact ⟨0, List.mem_range.mpr hn, (hround 0 hn).mpr hk⟩
  have hfst : (points.map fun p => (key p, (List.range n).map fun r => value r p)).map Prod.fst =
    points.map key := by
    rw [List.map_map]
    rfl
  rw [List.perm_ext_iff_of_nodup (collects_group _).nodup.of_map (hfst ▸ hkey).of_map]
  rintro ⟨k, vs⟩
  rw [mem_group, hmem, List.mem_map, List.mem_map]
  constructor
  · rintro ⟨⟨p, hp, rfl⟩, rfl⟩
    exact ⟨p, hp, by rw [hvalues p hp]⟩
  · rintro ⟨p, hp, heq⟩
    obtain ⟨rfl, rfl⟩ := Prod.mk.inj heq
    exact ⟨⟨p, hp, rfl⟩, (hvalues p hp).symm⟩

end Rounds

end Shaper.Lib.Grouping
