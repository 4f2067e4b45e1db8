import Mathlib.Data.List.Nodup
import Mathlib.Logic.Function.Basic

/-! Circular doubly linked lists with an empty head: the links between the nodes, the
list that one reads off by following `next`, and what inserting and removing a node do
to that list. -/
namespace Shaper.Lib.LinkedList
open Function
variable {N : Type*}

structure Links (N : Type*) where
  next : N → N
  prev : N → N

def empty (h : N) : Links N := ⟨fun _ => h, fun _ => h⟩

def insert [DecidableEq N] (l : Links N) (h e : N) : Links N where
  next := update (update l.next (l.prev h) e) e h
  prev := update (update l.prev e (l.prev h)) h e

def remove [DecidableEq N] (l : Links N) (e : N) : Links N where
  next := update l.next (l.prev e) (l.next e)
  prev := update l.prev (l.next e) (l.prev e)

def follow [DecidableEq N] (l : Links N) (h : N) : Nat → N → List N
  | 0, _ => []
  | k+1, x => if l.next x = h then [] else l.next x :: follow l h k (l.next x)

def Path (l : Links N) : N → List N → N → Prop
  | x, [], y => l.next x = y ∧ l.prev y = x
  | x, z :: zs, y => (l.next x = z ∧ l.prev z = x) ∧ Path l z zs y

structure Holds (l : Links N) (h : N) (ids : List N) : Prop where
  path : Path l h ids h
  nodup : (h :: ids).Nodup

section
variable {l l' : Links N} {h e x y z : N} {ids xs ys : List N}

theorem path_append : Path l x (xs ++ z :: ys) y ↔ Path l x xs z ∧ Path l z ys y := by
  induction xs generalizing x with
  | nil => exact Iff.rfl
  | cons w ws ih =>
    change (_ ∧ Path l w (ws ++ z :: ys) y) ↔ (_ ∧ Path l w ws z) ∧ _
    rw [ih, ← and_assoc]

/-- A path depends on `next` at its nodes but the last and on `prev` at its nodes but the
first. -/
theorem Path.congr (hp : Path l x xs y) (hn : ∀ z ∈ x :: xs, l'.next z = l.next z)
    (hv : ∀ z ∈ xs ++ [y], l'.prev z = l.prev z) : Path l' x xs y := by
  induction xs generalizing x with
  | nil =>
    refine ⟨?_, ?_⟩
    · rw [hn x (List.mem_singleton_self x)]
      exact hp.1
    · rw [hv y (List.mem_singleton_self y)]
      exact hp.2
  | cons z zs ih =>
    refine ⟨⟨?_, ?_⟩, ih hp.2 (fun w hw => hn w (List.mem_cons_of_mem _ hw))
      fun w hw => hv w (List.mem_cons_of_mem _ hw)⟩
    · rw [hn x List.mem_cons_self]
      exact hp.1.1
    · rw [hv z List.mem_cons_self]
      exact hp.1.2

theorem Path.snoc (hp : Path l x xs y) :
    (xs = [] ∧ l.prev y = x) ∨ ∃ ws, xs = ws ++ [l.prev y] ∧ Path l x ws (l.prev y) := by
  rcases List.eq_nil_or_concat xs with rfl | ⟨ws, w, rfl⟩
  · exact .inl ⟨rfl, hp.2⟩
  · rw [List.concat_eq_append] at hp ⊢
    obtain ⟨h₁, h₂⟩ := path_append.mp hp
    have hw : l.prev y = w := h₂.2
    exact .inr ⟨ws, by rw [hw], by rwa [hw]⟩

theorem holds_empty (h : N) : Holds (empty h) h [] :=
  ⟨⟨rfl, rfl⟩, List.nodup_singleton h⟩

theorem Holds.insert [DecidableEq N] (hl : Holds l h ids) (he : e ∉ h :: ids) :
    Holds (insert l h e) h (ids ++ [e]) := by
  have hne : e ≠ h := fun hx => he (hx ▸ List.mem_cons_self)
  obtain ⟨hnot, hnodup⟩ := List.nodup_cons.mp hl.nodup
  have hin : e ∉ ids := fun hx => he (List.mem_cons_of_mem _ hx)
  constructor
  case nodup =>
    refine List.nodup_cons.mpr ⟨?_, ?_⟩
    · rw [List.mem_append, List.mem_singleton]
      rintro (hx | hx)
      · exact hnot hx
      · exact hne hx.symm
    · refine List.nodup_append.mpr ⟨hnodup, List.nodup_singleton e, ?_⟩
      intro a ha b hb
      rw [List.mem_singleton.mp hb]
      rintro rfl
      exact hin ha
  case path =>
    refine path_append.mpr ⟨?_, update_self _ _ _, update_self _ _ _⟩
    rcases hl.path.snoc with ⟨rfl, hlast⟩ | ⟨ws, hids, hpath⟩
    · refine ⟨?_, ?_⟩
      · change update (update l.next (l.prev h) e) e h h = e
        rw [update_of_ne hne.symm, hlast, update_self]
      · change update (update l.prev e (l.prev h)) h e e = h
        rw [update_of_ne hne, update_self, hlast]
    · -- the old last node now leads to the new one
      rw [hids] at hnodup hnot hin ⊢
      have hws : l.prev h ∉ ws := fun hx =>
        (List.nodup_append.mp hnodup).2.2 _ hx _ (List.mem_singleton_self _) rfl
      have hlast {z : N} (hz : l.prev h = z) : z ∈ ws ++ [l.prev h] :=
        List.mem_append_right _ (List.mem_singleton.mpr hz.symm)
      have hwh : l.prev h ≠ h := fun hx => hnot (hlast hx)
      have hwe : l.prev h ≠ e := fun hx => hin (hlast hx)
      refine path_append.mpr ⟨hpath.congr ?_ ?_, ?_, ?_⟩
      · intro z hz
        change update (update l.next (l.prev h) e) e h z = l.next z
        have hze : z ≠ e := by
          rintro rfl
          rcases List.mem_cons.mp hz with hx | hx
          · exact hne hx
          · exact hin (List.mem_append_left _ hx)
        have hzl : z ≠ l.prev h := by
          rintro rfl
          rcases List.mem_cons.mp hz with hx | hx
          · exact hwh hx
          · exact hws hx
        rw [update_of_ne hze, update_of_ne hzl]
      · intro z hz
        change update (update l.prev e (l.prev h)) h e z = l.prev z
        have hzh : z ≠ h := by
          rintro rfl
          exact hnot hz
        have hze : z ≠ e := by
          rintro rfl
          exact hin hz
        rw [update_of_ne hzh, update_of_ne hze]
      · change update (update l.next (l.prev h) e) e h (l.prev h) = e
        rw [update_of_ne hwe, update_self]
      · change update (update l.prev e (l.prev h)) h e e = l.prev h
        rw [update_of_ne hne, update_self]

theorem Path.cons (hp : Path l x xs y) :
    (xs = [] ∧ l.next x = y) ∨ ∃ ws, xs = l.next x :: ws ∧ Path l (l.next x) ws y := by
  cases xs with
  | nil => exact .inl ⟨rfl, hp.1⟩
  | cons z zs =>
    have hz : l.next x = z := hp.1.1
    exact .inr ⟨zs, by rw [hz], by rw [hz]; exact hp.2⟩

theorem path_link {p n : N} (hl : l.next p = n ∧ l.prev n = p)
    (hx : xs = [] ∧ p = x ∨ ∃ ws, xs = ws ++ [p] ∧ Path l x ws p)
    (hy : ys = [] ∧ n = y ∨ ∃ ws, ys = n :: ws ∧ Path l n ws y) : Path l x (xs ++ ys) y := by
  have hleft : Path l x xs n := by
    rcases hx with ⟨rfl, rfl⟩ | ⟨ws, rfl, hp⟩
    · exact hl
    · exact path_append.mpr ⟨hp, hl⟩
  rcases hy with ⟨rfl, rfl⟩ | ⟨ws, rfl, hp⟩
  · rwa [List.append_nil]
  · exact path_append.mpr ⟨hleft, hp⟩

theorem Holds.remove [DecidableEq N] (hl : Holds l h ids) (he : e ∈ ids) :
    Holds (remove l e) h (ids.erase e) := by
  obtain ⟨xs, ys, rfl⟩ := List.append_of_mem he
  have hnd := hl.nodup
  obtain ⟨hleft, hright⟩ := path_append.mp hl.path
  obtain ⟨hh, hnodup⟩ := List.nodup_cons.mp hnd
  obtain ⟨hxs, hys, hdisj⟩ := List.nodup_append.mp hnodup
  have hexs : e ∉ xs := fun hx => hdisj e hx e List.mem_cons_self rfl
  have heys := (List.nodup_cons.mp hys).1
  have hxh : h ∉ xs := fun hx => hh (List.mem_append_left _ hx)
  have hyh : h ∉ ys := fun hx => hh (List.mem_append_right _ (List.mem_cons_of_mem _ hx))
  have hxy : ∀ z ∈ xs, z ∉ ys := fun z hz hz' => hdisj z hz z (List.mem_cons_of_mem _ hz') rfl
  have herase : (xs ++ e :: ys).erase e = xs ++ ys := by
    rw [List.erase_append_right _ hexs, List.erase_cons_head]
  rw [herase]
  constructor
  case nodup =>
    refine List.nodup_cons.mpr ⟨?_, List.nodup_append.mpr ⟨hxs, (List.nodup_cons.mp hys).2, ?_⟩⟩
    · rw [List.mem_append]
      rintro (hx | hx)
      · exact hxh hx
      · exact hyh hx
    · rintro a ha b hb rfl
      exact hxy a ha hb
  case path =>
    refine path_link (p := l.prev e) (n := l.next e) ⟨update_self _ _ _, update_self _ _ _⟩ ?_ ?_
    · rcases hleft.snoc with ⟨hnil, hp⟩ | ⟨ws, hws, hp⟩
      · exact .inl ⟨hnil, hp⟩
      · refine .inr ⟨ws, hws, hp.congr ?_ ?_⟩
        · intro z hz
          refine update_of_ne ?_ _ _
          rintro rfl
          rw [hws] at hxs hxh
          rcases List.mem_cons.mp hz with hx | hx
          · exact hxh (List.mem_append_right _ (List.mem_singleton.mpr hx.symm))
          · exact (List.nodup_append.mp hxs).2.2 _ hx _ (List.mem_singleton_self _) rfl
        · intro z hz
          rw [← hws] at hz
          refine update_of_ne ?_ _ _
          rintro rfl
          rcases hright.cons with ⟨-, hn⟩ | ⟨vs, hvs, -⟩
          · exact hxh (hn ▸ hz)
          · exact hxy _ hz (hvs ▸ List.mem_cons_self)
    · rcases hright.cons with ⟨hnil, hn⟩ | ⟨ws, hws, hp⟩
      · exact .inl ⟨hnil, hn⟩
      · refine .inr ⟨ws, hws, hp.congr ?_ ?_⟩
        · intro z hz
          rw [← hws] at hz
          refine update_of_ne ?_ _ _
          rintro rfl
          rcases hleft.snoc with ⟨-, hx⟩ | ⟨vs, hvs, -⟩
          · exact hyh (hx ▸ hz)
          · exact hxy _ (hvs ▸ List.mem_append_right _ (List.mem_singleton_self _)) hz
        · intro z hz
          refine update_of_ne ?_ _ _
          rintro rfl
          have hin : l.next e ∈ ys := hws ▸ List.mem_cons_self
          rcases List.mem_append.mp hz with hx | hx
          · have hnd' := (List.nodup_cons.mp hys).2
            rw [hws] at hnd'
            exact (List.nodup_cons.mp hnd').1 hx
          · exact hyh (List.mem_singleton.mp hx ▸ hin)

theorem follow_eq [DecidableEq N] (hp : Path l x ids h) (hh : h ∉ ids) {k : Nat}
    (hk : ids.length ≤ k) : follow l h k x = ids := by
  induction ids generalizing x k with
  | nil =>
    cases k with
    | zero => rfl
    | succ k => exact if_pos hp.1
  | cons z zs ih =>
    cases k with
    | zero => exact absurd hk (Nat.not_succ_le_zero _)
    | succ k =>
      have hz : l.next x = z := hp.1.1
      have hne : ¬ l.next x = h := fun hx => hh (by rw [← hx, hz]; exact List.mem_cons_self)
      unfold follow
      rw [if_neg hne, hz,
        ih hp.2 (fun hx => hh (List.mem_cons_of_mem _ hx)) (Nat.le_of_succ_le_succ hk)]

theorem Holds.follow [DecidableEq N] (hl : Holds l h ids) {k : Nat} (hk : ids.length ≤ k) :
    follow l h k h = ids :=
  follow_eq hl.path (List.nodup_cons.mp hl.nodup).1 hk

end

end Shaper.Lib.LinkedList
