import Mathlib.Algebra.Order.BigOperators.Group.Finset
import Shaper.CacheAtRest

/-! `__flush`: one thread per slot, which writes the page that the slot's translation names
and clears its `DIRTY` bit. -/
namespace Shaper.FlushCache
open Function PageCache EvictTargets CacheAtRest
variable {γ : Type*}

instance (L : Layout) (p : Page) : Decidable (L.Has p) :=
  Nat.decLt p.index (L.range p.range).pageCount

structure Job (γ : Type*) where
  cache : Cache
  layout : Layout
  state : State
  mem : Nat → Nat → γ
  disk : Loc → γ

def blocks (L : Layout) (p : Page) : List (Loc × Nat) :=
  (written L.toGeometry p .direct).flatMap fun l => (List.range L.nBlocksPerPage).map fun k =>
    ((l.1, l.2+k), k)

inductive Pc where
  | load
  | write (p : Page) (todo : List (Loc × Nat))
  | done
  | fault

structure Flush (γ : Type*) where
  word : Page → BitVec 32
  disk : Loc → γ
  pc : Nat → Pc

namespace Job
variable (u : Job γ)

def page (s : Nat) : Page := pageOf u.cache u.state s

def start : Flush γ := ⟨u.state.word, u.disk, fun _ => .load⟩

def flushStep (t : Flush γ) (s : Nat) : Option (Flush γ) :=
  match t.pc s with
  | .load =>
    let p := u.page s
    if u.layout.Has p then
      if t.word p &&& DIRTY ≠ 0 then
        some { t with pc := update t.pc s (.write p (blocks u.layout p)) }
      else some { t with pc := update t.pc s .done }
    else some { t with pc := update t.pc s .fault }
  | .write p ((l, k) :: todo) =>
    some { t with disk := update t.disk l (u.mem s k), pc := update t.pc s (.write p todo) }
  | .write p [] =>
    some { t with word := update t.word p (t.word p &&& ~~~DIRTY), pc := update t.pc s .done }
  | .done | .fault => none

inductive Flushing : Nat → Flush γ → Prop where
  | start : Flushing 0 u.start
  | step {n : Nat} {t t' : Flush γ} {s : Nat} : Flushing n t → s < u.cache.nPages →
      u.flushStep t s = some t' → Flushing (n+1) t'

def Stuck (t : Flush γ) : Prop := ∀ s < u.cache.nPages, u.flushStep t s = none

structure Flushed (t : Flush γ) : Prop where
  done : ∀ s < u.cache.nPages, t.pc s = .done
  stored : ∀ p, dirty (u.state.word p) = true → ∀ l, u.layout.home p l →
    ∀ k < u.layout.nBlocksPerPage,
    t.disk (l.1, l.2+k) = u.mem (u.state.offset p) k
  kept : ∀ b,
    (∀ p, dirty (u.state.word p) = true → ∀ l, u.layout.home p l → ∀ k < u.layout.nBlocksPerPage,
      b ≠ (l.1, l.2+k)) → t.disk b = u.disk b
  clean : ∀ p, dirty (t.word p) = false

structure FlushExact : Prop where
  ends : ∃ bound, ∀ n t, u.Flushing n t → n ≤ bound
  flushed : ∀ n t, u.Flushing n t → u.Stuck t → u.Flushed t

/-- The translation of a slot that was never assigned names a page of some range, and one
that is not dirty, or whose contents the slot happens to have. -/
def UnusedSlotsHarmless : Prop := ∀ s < u.cache.nPages, u.state.lock s = .free →
  u.layout.Has (u.page s) ∧ (dirty (u.state.word (u.page s)) = true →
    ∀ k < u.layout.nBlocksPerPage, u.mem s k = u.mem (u.state.offset (u.page s)) k)

end Job

variable {u : Job γ} {t t' : Flush γ} {s n : Nat} {p q : Page} {L : Layout} {l : Loc} {k : Nat}

theorem mem_blocks : (l, k) ∈ blocks L p ↔ ∃ h, L.home p h ∧ k < L.nBlocksPerPage ∧
    l = (h.1, h.2+k) := by
  simp only [blocks, List.mem_flatMap, List.mem_map, List.mem_range, mem_direct, Prod.mk.injEq]
  constructor
  · rintro ⟨h, hh, k', hk, rfl, rfl⟩
    exact ⟨h, hh, hk, rfl⟩
  · rintro ⟨h, hh, hk, rfl⟩
    exact ⟨h, hh, k, hk, rfl, rfl⟩

/-- A block of storage belongs to one page and to one block of its buffer. -/
theorem blocks_inj {k' : Nat} (hp : L.Has p) (hq : L.Has q) (hlp : (l, k) ∈ blocks L p)
    (hlq : (l, k') ∈ blocks L q) : p = q ∧ k = k' := by
  obtain ⟨⟨c, x⟩, hx, hk, rfl⟩ := mem_blocks.mp hlp
  obtain ⟨⟨d, y⟩, hy, hk', he⟩ := mem_blocks.mp hlq
  simp only [Prod.mk.injEq] at he
  obtain ⟨rfl, he⟩ := he
  have hx2 : x = L.backingPage p*L.nBlocksPerPage := hx.1
  have hy2 : y = L.backingPage q*L.nBlocksPerPage := hy.1
  have hkk : k = k' := by
    have hmod := congrArg (·%L.nBlocksPerPage) he
    simpa [hx2, hy2, Nat.mod_eq_of_lt hk, Nat.mod_eq_of_lt hk'] using hmod
  have hxy : x = y := by omega
  subst hxy
  exact ⟨home_inj hp hq hx hy, hkk⟩

inductive Turn (u : Job γ) (t : Flush γ) (s : Nat) : Flush γ → Prop where
  | fault : t.pc s = .load → ¬u.layout.Has (u.page s) →
      Turn u t s { t with pc := update t.pc s .fault }
  | clean : t.pc s = .load → u.layout.Has (u.page s) → dirty (t.word (u.page s)) = false →
      Turn u t s { t with pc := update t.pc s .done }
  | dirty : t.pc s = .load → u.layout.Has (u.page s) → dirty (t.word (u.page s)) = true →
      Turn u t s { t with pc := update t.pc s (.write (u.page s) (blocks u.layout (u.page s))) }
  | block {p : Page} {l : Loc} {k : Nat} {todo : List (Loc × Nat)} :
      t.pc s = .write p ((l, k) :: todo) →
      Turn u t s { t with disk := update t.disk l (u.mem s k), pc := update t.pc s (.write p todo) }
  | clear {p : Page} : t.pc s = .write p [] →
      Turn u t s { t with
        word := update t.word p (t.word p &&& ~~~DIRTY)
        pc := update t.pc s .done }

theorem turn_of_flushStep (h : u.flushStep t s = some t') : Turn u t s t' := by
  unfold Job.flushStep at h
  split at h
  · next hpc =>
    simp only [ne_eq, and_dirty_iff, Bool.not_eq_false] at h
    split at h
    · next hhas =>
      split at h <;> obtain rfl := Option.some.inj h
      · next hd => exact .dirty hpc hhas hd
      · next hd => exact .clean hpc hhas (Bool.eq_false_of_not_eq_true hd)
    · next hhas =>
      obtain rfl := Option.some.inj h
      exact .fault hpc hhas
  · next hpc =>
    obtain rfl := Option.some.inj h
    exact .block hpc
  · next hpc =>
    obtain rfl := Option.some.inj h
    exact .clear hpc
  · cases h
  · cases h

section ends

def weight (u : Job γ) (s : Nat) : Pc → Nat
  | .load => (blocks u.layout (u.page s)).length+2
  | .write _ todo => todo.length+1
  | .done | .fault => 0

theorem Turn.pc (h : Turn u t s t') : ∃ x, t'.pc = update t.pc s x ∧
    weight u s x < weight u s (t.pc s) := by
  cases h with
  | fault hpc | clean hpc | clear hpc => exact ⟨_, rfl, by simp [weight, hpc]⟩
  | dirty hpc | block hpc => exact ⟨_, rfl, by simp [weight, hpc]⟩

theorem Turn.weight_lt (h : Turn u t s t') (hs : s < u.cache.nPages) :
    ∑ r ∈ Finset.range u.cache.nPages, weight u r
    (t'.pc r) < ∑ r ∈ Finset.range u.cache.nPages, weight u r (t.pc r) := by
  obtain ⟨x, hx, hlt⟩ := h.pc
  have hself : weight u s (t'.pc s) < weight u s (t.pc s) := by rwa [hx, update_self]
  refine Finset.sum_lt_sum (fun r _ => ?_) ⟨s, Finset.mem_range.mpr hs, hself⟩
  by_cases hr : r = s
  · exact hr ▸ hself.le
  · rw [hx, update_of_ne hr]

theorem Flushing.length_le (h : u.Flushing n t) :
    n+∑ r ∈ Finset.range u.cache.nPages, weight u r
    (t.pc r) ≤ ∑ r ∈ Finset.range u.cache.nPages, weight u r .load := by
  induction h with
  | start => simp [Job.start]
  | step _ hs ht ih =>
    have hlt := (turn_of_flushStep ht).weight_lt hs
    omega

/-- What every step keeps holds at the end of some run that goes on. -/
theorem exists_stuck {P : Flush γ → Prop} (hP : ∀ t s t', P t → Turn u t s t' → P t')
    (h : u.Flushing n t) (ht : P t) : ∃ m t', u.Flushing m t' ∧ u.Stuck t' ∧ P t' := by
  induction hb :
    (∑ r ∈ Finset.range u.cache.nPages,
      weight u r .load)-n using Nat.strong_induction_on generalizing n t with
  | _ b ih =>
    by_cases hstuck : u.Stuck t
    · exact ⟨n, t, h, hstuck, ht⟩
    · simp only [Job.Stuck, not_forall] at hstuck
      obtain ⟨s, hs, hstep⟩ := hstuck
      obtain ⟨t', ht'⟩ := Option.ne_none_iff_exists'.mp hstep
      have hnext := h.step hs ht'
      have hle := Flushing.length_le hnext
      exact ih _ (by omega) hnext (hP t s t' ht (turn_of_flushStep ht')) rfl

end ends

section exact

structure Consistent (u : Job γ) : Prop where
  has : ∀ s < u.cache.nPages, u.layout.Has (u.page s)
  same : ∀ s < u.cache.nPages, dirty (u.state.word (u.page s)) = true →
    ∀ k < u.layout.nBlocksPerPage,
    u.mem s k = u.mem (u.state.offset (u.page s)) k
  dirty_has : ∀ p, dirty (u.state.word p) = true → u.layout.Has p
  named : ∀ p, dirty (u.state.word p) = true → ∃ s < u.cache.nPages, u.page s = p

def Stored (u : Job γ) (t : Flush γ) (p : Page) (b : Loc × Nat) : Prop :=
  t.disk b.1 = u.mem (u.state.offset p) b.2

def ThreadOk (u : Job γ) (t : Flush γ) (s : Nat) : Pc → Prop
  | .load => True
  | .write p todo => p = u.page s ∧ dirty (u.state.word p) = true ∧ todo ⊆ blocks u.layout p ∧
      ∀ b ∈ blocks u.layout p, b ∉ todo → Stored u t p b
  | .done => dirty (t.word (u.page s)) = false
  | .fault => False

structure Inv (u : Job γ) (t : Flush γ) : Prop where
  was : ∀ p, dirty (t.word p) = true → dirty (u.state.word p) = true
  cleaned : ∀ p, dirty (u.state.word p) = true → dirty (t.word p) = false →
    ∀ b ∈ blocks u.layout p, Stored u t p b
  thread : ∀ s < u.cache.nPages, ThreadOk u t s (t.pc s)
  kept : ∀ l, (∀ p, dirty (u.state.word p) = true → ∀ k, (l, k) ∉ blocks u.layout p) →
    t.disk l = u.disk l

theorem dirty_clean (w : BitVec 32) : dirty (w &&& ~~~DIRTY) = false := by simp [dirty, DIRTY]

/-- The threads of other slots, after a step that keeps stored blocks stored and clean
pages clean. -/
theorem Inv.threads (h : Inv u t) {x : Pc} (hpc : t'.pc = update t.pc s x) (hx : ThreadOk u t' s x)
    (hd : ∀ p, dirty (t.word p) = false → dirty (t'.word p) = false)
    (hst : ∀ p, dirty (u.state.word p) = true → ∀ b ∈ blocks u.layout p, Stored u t p b →
      Stored u t' p b)
    (r : Nat) (hr : r < u.cache.nPages) : ThreadOk u t' r (t'.pc r) := by
  by_cases hrs : r = s
  · rw [hpc, hrs, update_self]
    exact hx
  · have hok := h.thread r hr
    rw [hpc, update_of_ne hrs]
    cases hr : t.pc r with
    | load => trivial
    | write p todo =>
      rw [hr] at hok
      obtain ⟨hp, hdirty, hsub, hdone⟩ := hok
      exact ⟨hp, hdirty, hsub, fun b hb hn => hst p hdirty b hb (hdone b hb hn)⟩
    | done =>
      rw [hr] at hok
      exact hd _ hok
    | fault =>
      rw [hr] at hok
      exact hok

theorem Inv.turn (hu : Consistent u) (h : Inv u t) (hs : s < u.cache.nPages) (ht : Turn u t s t') :
    Inv u t' := by
  cases ht with
  | fault _ hhas => exact absurd (hu.has s hs) hhas
  | clean _ _ hd =>
    exact ⟨h.was, h.cleaned, h.threads rfl hd (fun _ => id) fun _ _ _ _ => id, h.kept⟩
  | dirty _ _ hd =>
    refine ⟨h.was, h.cleaned, h.threads rfl ?_ (fun _ => id) fun _ _ _ _ => id, h.kept⟩
    exact ⟨rfl, h.was _ hd, fun _ => id, fun b hb hn => absurd hb hn⟩
  | @block p l k todo hpc =>
    have hok := h.thread s hs
    rw [hpc] at hok
    obtain ⟨rfl, hdirty, hsub, hdone⟩ := hok
    have hmem : (l, k) ∈ blocks u.layout (u.page s) := hsub (List.mem_cons_self ..)
    have hlt : k < u.layout.nBlocksPerPage := by
      obtain ⟨-, -, hk, -⟩ := mem_blocks.mp hmem
      exact hk
    have hval : u.mem s k = u.mem (u.state.offset (u.page s)) k := hu.same s hs hdirty k hlt
    -- whichever page the block belongs to, the step gives it the contents of that page
    have hself : ∀ p, dirty (u.state.word p) = true → ∀ j, (l, j) ∈ blocks u.layout p →
        u.mem s k = u.mem (u.state.offset p) j := by
      intro p hp j hj
      obtain ⟨rfl, rfl⟩ := blocks_inj (hu.has s hs) (hu.dirty_has p hp) hmem hj
      exact hval
    have hst : ∀ p, dirty (u.state.word p) = true → ∀ b ∈ blocks u.layout p, Stored u t p b →
      Stored u { t with
        disk := update t.disk l (u.mem s k)
        pc := update t.pc s (.write (u.page s) todo) } p b := by
      rintro p hp ⟨l', j⟩ hb hold
      unfold Stored at hold ⊢
      by_cases hl : l' = l
      · subst hl
        simpa using hself p hp j hb
      · simpa [hl] using hold
    refine ⟨h.was, fun p hp hc b hb => hst p hp b hb (h.cleaned p hp hc b hb), ?_, fun l' hl' => ?_⟩
    · refine h.threads rfl ⟨rfl, hdirty, fun b hb => hsub (List.mem_cons_of_mem _ hb), ?_⟩
        (fun _ => id) hst
      rintro ⟨l', j⟩ hb hn
      by_cases hl : l' = l
      · subst hl
        simpa [Stored] using hself _ hdirty j hb
      · refine hst _ hdirty _ hb (hdone _ hb ?_)
        simp [hl, hn]
    · have hl : l' ≠ l := by
        rintro rfl
        exact hl' _ hdirty k hmem
      simpa [hl] using h.kept l' hl'
  | @clear p hpc =>
    have hok := h.thread s hs
    rw [hpc] at hok
    obtain ⟨rfl, hdirty, -, hdone⟩ := hok
    have hword : ∀ q, dirty (update t.word (u.page s) (t.word (u.page s) &&& ~~~DIRTY) q) =
        if q = u.page s then false else dirty (t.word q) := by
      intro q
      by_cases hq : q = u.page s
      · subst hq
        simp [dirty_clean]
      · simp [hq]
    refine ⟨fun q hq => ?_, fun q hq hc b hb => ?_, ?_, h.kept⟩
    · rw [hword] at hq
      split at hq
      · cases hq
      · exact h.was q hq
    · rw [hword] at hc
      split at hc
      · next he =>
        subst he
        exact hdone b hb (by simp)
      · exact h.cleaned q hq hc b hb
    · refine h.threads rfl ?_ (fun q hq => ?_) fun _ _ _ _ => id
      · change dirty (update t.word (u.page s) _ (u.page s)) = false
        rw [hword, if_pos rfl]
      · rw [hword, hq]
        simp

theorem Flushing.inv (hu : Consistent u) (h : u.Flushing n t) : Inv u t := by
  induction h with
  | start =>
    refine ⟨fun _ => id, fun p hp hc => ?_, fun _ _ => trivial, fun _ _ => rfl⟩
    rw [Job.start, hp] at hc
    cases hc
  | step _ hs ht ih => exact ih.turn hu hs (turn_of_flushStep ht)

theorem Inv.done_of_stuck (h : Inv u t) (hst : u.Stuck t) (hs : s < u.cache.nPages) :
    t.pc s = .done := by
  have hnone := hst s hs
  have hok := h.thread s hs
  unfold Job.flushStep at hnone
  cases hpc : t.pc s with
  | load =>
    simp only [hpc] at hnone
    split at hnone
    · split at hnone <;> cases hnone
    · cases hnone
  | write p todo => cases todo <;> simp [hpc] at hnone
  | done => rfl
  | fault =>
    rw [hpc] at hok
    exact hok.elim

theorem Consistent.flushExact (hu : Consistent u) : u.FlushExact := by
  refine ⟨⟨_, fun n t h => Nat.le_of_add_right_le (Flushing.length_le h)⟩, fun n t h hst => ?_⟩
  have hinv := Flushing.inv hu h
  have hdone : ∀ s < u.cache.nPages, t.pc s = .done := fun s hs => hinv.done_of_stuck hst hs
  have hclean : ∀ p, dirty (t.word p) = false := by
    intro p
    by_contra hp
    obtain ⟨s, hs, rfl⟩ := hu.named p (hinv.was p (Bool.eq_true_of_not_eq_false hp))
    have hok := hinv.thread s hs
    rw [hdone s hs] at hok
    exact hp hok
  refine ⟨hdone, fun p hp l hl k hk => ?_, fun b hb => ?_, hclean⟩
  · exact hinv.cleaned p hp (hclean p) _ (mem_blocks.mpr ⟨l, hl, hk, rfl⟩)
  · refine hinv.kept b fun p hp k hmem => ?_
    obtain ⟨l, hl, hk, he⟩ := mem_blocks.mp hmem
    exact hb p hp l hl k hk he

end exact

section alone

/-- A thread that is past its load goes on while the others wait. -/
theorem exists_alone (hs : s < u.cache.nPages) (todo : List (Loc × Nat)) (hq : u.layout.Has q)
    (hsub : todo ⊆ blocks u.layout q) (h : u.Flushing n t)
    (hpc : t.pc = update (fun _ => .load) s (.write q todo))
    (hdone : ∀ b ∈ blocks u.layout q, b ∉ todo → t.disk b.1 = u.mem s b.2) :
    ∃ m t', u.Flushing m t' ∧ t'.pc = update (fun _ => .load) s .done ∧ dirty (t'.word q) = false ∧
      ∀ b ∈ blocks u.layout q, t'.disk b.1 = u.mem s b.2 := by
  induction todo generalizing n t with
  | nil =>
    have hstep : u.flushStep t s = some { t with
        word := update t.word q (t.word q &&& ~~~DIRTY), pc := update t.pc s .done } := by
      simp [Job.flushStep, hpc]
    refine ⟨_, _, h.step hs hstep, ?_, ?_, fun b hb => hdone b hb (by simp)⟩
    · rw [hpc, update_idem]
    · simp [dirty_clean]
  | cons b todo ih =>
    obtain ⟨l, k⟩ := b
    have hstep : u.flushStep t s = some { t with
        disk := update t.disk l (u.mem s k), pc := update t.pc s (.write q todo) } := by
      simp [Job.flushStep, hpc]
    have hmem : (l, k) ∈ blocks u.layout q := hsub (List.mem_cons_self ..)
    refine ih (fun b hb => hsub (List.mem_cons_of_mem _ hb)) (h.step hs hstep)
      (by rw [hpc, update_idem]) ?_
    rintro ⟨l', j⟩ hb hn
    by_cases hl : l' = l
    · subst hl
      obtain ⟨-, rfl⟩ := blocks_inj hq hq hmem hb
      simp
    · simpa [hl] using hdone (l', j) hb (by simp [hl, hn])

structure Settled (q : Page) (l : Loc) (x : γ) (t : Flush γ) : Prop where
  clean : dirty (t.word q) = false
  disk : t.disk l = x
  away : ∀ r p todo, t.pc r = .write p todo → ∀ j, (l, j) ∉ todo

theorem Settled.turn {x : γ} (hq : u.layout.Has q) (hl : (l, k) ∈ blocks u.layout q)
    (h : Settled q l x t) (ht : Turn u t s t') : Settled q l x t' := by
  -- only the thread of `s` moved, so only its new list matters
  have haway : ∀ y, (∀ p todo, y = .write p todo → ∀ j, (l, j) ∉ todo) →
    ∀ r p todo, update t.pc s y r = .write p todo →
      ∀ j, (l, j) ∉ todo := by
    intro y hy r p todo hr
    by_cases hrs : r = s
    · subst hrs
      rw [update_self] at hr
      exact hy p todo hr
    · rw [update_of_ne hrs] at hr
      exact h.away r p todo hr
  cases ht with
  | fault | clean => exact ⟨h.clean, h.disk, haway _ fun _ _ he => by cases he⟩
  | dirty _ hhas hd =>
    refine ⟨h.clean, h.disk, haway _ fun p todo he j hj => ?_⟩
    obtain ⟨rfl, rfl⟩ := Pc.write.inj he
    obtain ⟨rfl, -⟩ := blocks_inj hq hhas hl hj
    rw [h.clean] at hd
    cases hd
  | @block p l' k' todo hpc =>
    have hne : l ≠ l' := by
      rintro rfl
      exact h.away s p _ hpc k' (List.mem_cons_self ..)
    refine ⟨h.clean, (update_of_ne hne _ _).trans h.disk, haway _ fun p' todo' he j hj => ?_⟩
    obtain ⟨rfl, rfl⟩ := Pc.write.inj he
    exact h.away s _ _ hpc j (List.mem_cons_of_mem _ hj)
  | @clear p =>
    refine ⟨?_, h.disk, haway _ fun _ _ he => by cases he⟩
    by_cases hp : q = p
    · subst hp
      simp [dirty_clean]
    · simpa [hp] using h.clean

theorem fault_turn {r : Nat} (h : t.pc r = .fault) (ht : Turn u t s t') : t'.pc r = .fault := by
  obtain ⟨x, hx, hlt⟩ := ht.pc
  have hrs : r ≠ s := by
    rintro rfl
    simp [h, weight] at hlt
  rw [hx, update_of_ne hrs, h]

theorem exists_home (L : Layout) (p : Page) : ∃ l, L.home p l := by
  cases hd : L.dist p with
  | replicate => exact ⟨(0, L.firstBlock p), rfl, by simp [hd, L.nCtrls_pos]⟩
  | stripe => exact ⟨(p.index%L.nCtrls, L.firstBlock p), rfl, by simp [hd]⟩

theorem FlushExact.has (h : u.FlushExact) (hs : s < u.cache.nPages) : u.layout.Has (u.page s) := by
  by_contra hhas
  have hstep : u.flushStep u.start s = some { u.start with pc := update u.start.pc s .fault } := by
    simp [Job.flushStep, Job.start, hhas]
  obtain ⟨m, t, ht, hstuck, hfault⟩ :=
    exists_stuck (P := fun t => t.pc s = .fault) (fun _ _ _ => fault_turn)
    (Job.Flushing.start.step hs hstep) (update_self ..)
  have hdone := (h.flushed m t ht hstuck).done s hs
  rw [hfault] at hdone
  cases hdone

theorem FlushExact.same (h : u.FlushExact) (hs : s < u.cache.nPages)
    (hd : dirty (u.state.word (u.page s)) = true)
    (hk : k < u.layout.nBlocksPerPage) : u.mem s k = u.mem (u.state.offset (u.page s)) k := by
  have hhas := FlushExact.has h hs
  have hne : ¬u.state.word (u.page s) &&& DIRTY = 0#32 := by
    rw [← BitVec.ofNat_eq_ofNat, and_dirty_iff, hd]
    decide
  have hstep : u.flushStep u.start s = some { u.start with
      pc := update u.start.pc s (.write (u.page s) (blocks u.layout (u.page s))) } := by
    simp [Job.flushStep, Job.start, hhas, hne]
  obtain ⟨n, t, ht, hpc, hclean, hdisk⟩ := exists_alone hs _ hhas (fun _ => id)
    (Job.Flushing.start.step hs hstep) rfl fun b hb hn => absurd hb hn
  obtain ⟨l, hl⟩ := exists_home u.layout (u.page s)
  have hmem : ((l.1, l.2+k), k) ∈ blocks u.layout (u.page s) := mem_blocks.mpr ⟨l, hl, hk, rfl⟩
  have hsettled : Settled (u.page s) (l.1, l.2+k) (u.mem s k) t := by
    refine ⟨hclean, hdisk _ hmem, fun r p todo hr => ?_⟩
    rw [hpc] at hr
    by_cases hrs : r = s
    · subst hrs
      simp at hr
    · simp [hrs] at hr
  obtain ⟨m, t', ht', hstuck, hend⟩ :=
    exists_stuck (fun _ _ _ => Settled.turn hhas hmem) ht hsettled
  exact hend.disk.symm.trans ((h.flushed m t' ht' hstuck).stored _ hd l hl k hk)

end alone

theorem AtRest.consistent (h : AtRest u.cache u.layout u.state) (hu : u.UnusedSlotsHarmless) :
    Consistent u := by
  refine ⟨fun s hs => ?_, fun s hs hd k hk => ?_, h.has, fun p hp => ⟨_, h.cached p hp⟩⟩
  · by_cases hl : u.state.lock s = .free
    · exact (hu s hs hl).1
    · exact (h.slot s hl).1
  · by_cases hl : u.state.lock s = .free
    · exact (hu s hs hl).2 hd k hk
    · have hoff : u.state.offset (u.page s) = s := (h.slot s hl).2
      rw [hoff]

/-- A flush of a cache at rest writes back exactly the dirty pages if and only if the slots
that were never assigned name no page they could damage. -/
theorem flush_exact_iff (u : Job γ) (h : Reached u.cache u.layout u.state) (hq : Quiescent u.state)
    (hpos : 0 < u.cache.nPages) : u.FlushExact ↔ u.UnusedSlotsHarmless := by
  constructor
  · intro hex s hs _
    exact ⟨FlushExact.has hex hs, fun hd k hk => FlushExact.same hex hs hd hk⟩
  · intro hu
    exact (AtRest.consistent (h.atRest hq hpos) hu).flushExact

def writtenOnce (c : Cache) : Option State :=
  (runs c 0 10 (begin blank ⟨0, 0⟩ 1 true)).bind (releasePage · 0 1)

theorem writtenOnce_reached {c : Cache} {σ : State} (h : writtenOnce c = some σ) :
    Reached c (twoCtrls .replicate) σ := by
  obtain ⟨τ, hτ, hr⟩ := Option.bind_eq_some_iff.mp h
  have hbegin : Reached c (twoCtrls .replicate) (begin blank ⟨0, 0⟩ 1 true) := by
    refine .step (a := .acquire ⟨0, 0⟩ 1 true) (e := .quiet) (.init initial_blank) ?_ ?_ fun p => ?_
    · rintro p count write ⟨⟩
      exact show 0 < 4 by decide
    · exact if_pos ⟨Nat.two_pow_pos _, Nat.two_pow_pos _, Nat.one_pos⟩
    · have h0 : refs blank p = 0 := rfl
      rw [refs_begin, h0]
      split <;> decide
  exact (hbegin.runs hτ).release hr

theorem writtenOnce_quiescent {c : Cache} {σ : State} (h : Reached c (twoCtrls .replicate) σ)
    (hb : σ.begun = 1) (hpc : (σ.call 0).pc = .hold 0 0) : Quiescent σ := by
  intro i
  cases i with
  | zero => exact .inr ⟨0, hpc⟩
  | succ i => exact .inl (h.reach.inv.counts.fresh _ (by omega))

def twoSlots : Cache := ⟨2, 0, Nat.succ_pos 63⟩

/-- A cache whose only slot is in use is flushed. -/
theorem full_cache_flushed : ∃ σ, Reached oneSlot (twoCtrls .replicate) σ ∧ Quiescent σ ∧
    dirty (σ.word ⟨0, 0⟩) = true ∧
    ∀ disk, (Job.mk oneSlot (twoCtrls .replicate) σ (fun s _ => s) disk).FlushExact := by
  have hrun :
    (writtenOnce oneSlot).map (fun σ => ((σ.call 0).pc, σ.begun, σ.lock 0, dirty (σ.word ⟨0, 0⟩))) =
      some (.hold 0 0, 1, .unlocked, true) := by decide +kernel
  obtain ⟨σ, hσ, he⟩ := Option.map_eq_some_iff.mp hrun
  simp only [Prod.mk.injEq] at he
  obtain ⟨hpc, hb, hl, hd⟩ := he
  have hr := writtenOnce_reached hσ
  have hq := writtenOnce_quiescent hr hb hpc
  refine ⟨σ, hr, hq, hd, fun disk => (flush_exact_iff _ hr hq Nat.one_pos).mpr fun s hs hfree => ?_⟩
  have hs0 : s = 0 := Nat.lt_one_iff.mp hs
  rw [hs0, hl] at hfree
  cases hfree

/-- Slot 1 was never assigned; its translation is 0, so it writes its own buffer over page 0,
which is in slot 0. -/
theorem unused_slot_overwrites : ¬∀ u : Job Nat, Reached u.cache u.layout u.state →
    Quiescent u.state → 0 < u.cache.nPages → u.FlushExact := by
  intro h
  have hrun : (writtenOnce twoSlots).map (fun σ => ((σ.call 0).pc, σ.begun, pageOf twoSlots σ 1,
      dirty (σ.word ⟨0, 0⟩), σ.offset ⟨0, 0⟩)) = some (.hold 0 0, 1, ⟨0, 0⟩, true, 0) := by
    decide +kernel
  obtain ⟨σ, hσ, he⟩ := Option.map_eq_some_iff.mp hrun
  simp only [Prod.mk.injEq] at he
  obtain ⟨hpc, hb, hpage, hd, hoff⟩ := he
  have hr := writtenOnce_reached hσ
  let u : Job Nat := ⟨twoSlots, twoCtrls .replicate, σ, fun s _ => s, fun _ => 0⟩
  have hex : u.FlushExact := h u hr (writtenOnce_quiescent hr hb hpc) Nat.two_pos
  have hu : u.page 1 = ⟨0, 0⟩ := hpage
  have hsame : 1 = u.state.offset (u.page 1) :=
    FlushExact.same hex Nat.one_lt_two (by rw [hu]; exact hd) (nBlocksPerPage_pos _)
  rw [hu] at hsame
  exact absurd (hsame.trans hoff) Nat.one_ne_zero

end Shaper.FlushCache
