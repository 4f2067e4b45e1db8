import Mathlib.Data.List.Range
import Shaper.Backing
import Shaper.PageCache

/-! Where an eviction writes a dirty page and where a later miss reads it: the
controller and the first block of each. -/
namespace Shaper.EvictTargets
open Backing PageCache

structure Span where
  pageStart : Nat
  pageCount : Nat
  dist : DataDist

abbrev Loc := Nat × Nat

structure Geometry where
  nCtrls : Nat
  nCtrls_pos : 0 < nCtrls
  nCtrls_lt : nCtrls < 2^64
  pageSize : Nat
  pageSize_pos : 0 < pageSize
  blkLog : Nat
  blk_dvd : 2^blkLog ∣ pageSize
  range : Nat → Span
  readQueue : Bool
  evictCtrlOverride : Nat
  readCtrlOverride : Nat

namespace Geometry
variable (g : Geometry)
def nBlocksPerPage : Nat := g.pageSize/2^g.blkLog
def Has (p : Page) : Prop := p.index < (g.range p.range).pageCount
def dist (p : Page) : DataDist := (g.range p.range).dist
def backingPage (p : Page) : Nat :=
  getBackingPage (g.range p.range).pageStart p.index g.nCtrls (g.dist p)
def firstBlock (p : Page) : Nat := g.backingPage p*g.nBlocksPerPage

def home (p : Page) (l : Loc) : Prop :=
  l.2 = g.firstBlock p ∧ match g.dist p with
    | .replicate => l.1 < g.nCtrls
    | .stripe => l.1 = p.index%g.nCtrls

def evictCtrl (p : Page) : Nat :=
  if g.evictCtrlOverride ≠ ALL_CTRLS then g.evictCtrlOverride%g.nCtrls
  else getBackingCtrl p.index g.nCtrls (g.dist p)

def schedLoc (p : Page) : Loc := (0, (g.backingPage p*g.pageSize) >>> g.blkLog)
end Geometry

/-- The ways `find_slot` writes a dirty page back: `write_data`, the blocking
`io_sched_write`, a victim entry queued to the scheduler, and `write_data` when a
victim buffer without a scheduler is full. -/
inductive WriteBack where
  | direct | blocking | victim | victimFull
  deriving DecidableEq

def written (g : Geometry) (p : Page) : WriteBack → List Loc
  | .direct =>
    if g.evictCtrl p = ALL_CTRLS then
      (List.range g.nCtrls).map (·, g.backingPage p*g.nBlocksPerPage)
    else [(g.evictCtrl p, g.backingPage p*g.nBlocksPerPage)]
  | .blocking | .victim => [g.schedLoc p]
  | .victimFull => [(if g.evictCtrl p = ALL_CTRLS then 0 else g.evictCtrl p, g.backingPage p)]

/-- The places a miss of `acquire_page` may read the page from; without a stripe or
an override the controller is the next value of `ctrl_counter`. -/
def mayRead (g : Geometry) (p : Page) : List Loc :=
  let ctrl := getBackingCtrl p.index g.nCtrls (g.dist p)
  if g.readQueue then [g.schedLoc p]
  else if g.readCtrlOverride ≠ ALL_CTRLS then
    [(g.readCtrlOverride%g.nCtrls, g.backingPage p*g.nBlocksPerPage)]
  else if ctrl = ALL_CTRLS then (List.range g.nCtrls).map (·, g.backingPage p*g.nBlocksPerPage)
  else [(ctrl, g.backingPage p*g.nBlocksPerPage)]

structure Layout extends Geometry where
  evict_all : evictCtrlOverride = ALL_CTRLS
  read_all : readCtrlOverride = ALL_CTRLS
  apart : ∀ p q, toGeometry.Has p → toGeometry.Has q → p.range ≠ q.range →
    ∀ l, toGeometry.home p l → ¬toGeometry.home q l

variable {L : Layout} {p q : Page} {l : Loc} {w : WriteBack}

theorem nBlocksPerPage_pos (L : Layout) : 0 < L.nBlocksPerPage :=
  Nat.div_pos (Nat.le_of_dvd L.pageSize_pos L.blk_dvd) (Nat.two_pow_pos _)

theorem schedLoc_eq (L : Layout) (p : Page) : L.schedLoc p = (0, L.firstBlock p) := by
  obtain ⟨k, hk⟩ := L.blk_dvd
  have hpos := Nat.two_pow_pos L.blkLog
  unfold Geometry.schedLoc Geometry.firstBlock Geometry.nBlocksPerPage
  rw [Nat.shiftRight_eq_div_pow, hk, Nat.mul_div_cancel_left _ hpos, Nat.mul_left_comm,
    Nat.mul_div_cancel_left _ hpos]

theorem home_inj (hp : L.Has p) (hq : L.Has q) (hlp : L.home p l) (hlq : L.home q l) : p = q := by
  have hr : p.range = q.range := by
    by_contra hne
    exact L.apart p q hp hq hne l hlp hlq
  obtain ⟨hp2, hp1⟩ := hlp
  obtain ⟨hq2, hq1⟩ := hlq
  have hb : L.backingPage p = L.backingPage q :=
    Nat.eq_of_mul_eq_mul_right (nBlocksPerPage_pos L) (hp2.symm.trans hq2)
  have hd : L.dist p = L.dist q := by
    unfold Geometry.dist
    rw [hr]
  have hi : p.index = q.index := by
    unfold Geometry.backingPage at hb
    rw [hd, hr] at hb
    rw [hd] at hp1
    cases hq : L.dist q with
    | replicate =>
      simp only [hq, getBackingPage] at hb
      omega
    | stripe =>
      simp only [hq, getBackingPage] at hb hp1 hq1
      rw [← Nat.div_add_mod p.index L.nCtrls, ← Nat.div_add_mod q.index L.nCtrls, ← hp1, ← hq1]
      have : p.index/L.nCtrls = q.index/L.nCtrls := by omega
      rw [this]
  cases p
  cases q
  simp_all

def rowHead (g : Geometry) (p : Page) : Page := ⟨p.range, p.index-p.index%g.nCtrls⟩

theorem home_rowHead (hs : L.dist p = .stripe) :
    L.home (rowHead L.toGeometry p) (0, L.firstBlock p) := by
  have hs' : L.dist (rowHead L.toGeometry p) = .stripe := hs
  have hrow : p.index-p.index%L.nCtrls = L.nCtrls*(p.index/L.nCtrls) := by
    have := Nat.div_add_mod p.index L.nCtrls
    omega
  have hdiv : (p.index-p.index%L.nCtrls)/L.nCtrls = p.index/L.nCtrls := by
    rw [hrow, Nat.mul_div_cancel_left _ L.nCtrls_pos]
  have hmod : (p.index-p.index%L.nCtrls)%L.nCtrls = 0 := by
    rw [hrow, Nat.mul_mod_right]
  refine ⟨?_, ?_⟩
  · simp only [Geometry.firstBlock, Geometry.backingPage, hs, hs', getBackingPage]
    simp only [rowHead, hdiv]
  · rw [hs']
    exact hmod.symm

theorem rowHead_ne (h : p.index%L.nCtrls ≠ 0) : rowHead L.toGeometry p ≠ p := by
  intro he
  have hi : p.index-p.index%L.nCtrls = p.index := congrArg Page.index he
  have hle := Nat.mod_le p.index L.nCtrls
  omega

theorem has_rowHead (hp : L.Has p) : L.Has (rowHead L.toGeometry p) :=
  Nat.lt_of_le_of_lt (Nat.sub_le _ _) hp

section
variable (L p)
theorem evictCtrl_eq : L.evictCtrl p = getBackingCtrl p.index L.nCtrls (L.dist p) := by
  unfold Geometry.evictCtrl
  rw [L.evict_all, if_neg (by simp)]

theorem stripe_ne_all : getBackingCtrl p.index L.nCtrls .stripe ≠ ALL_CTRLS := by
  have h1 : p.index%L.nCtrls < L.nCtrls := Nat.mod_lt p.index L.nCtrls_pos
  have h2 := L.nCtrls_lt
  exact Nat.ne_of_lt (show p.index%L.nCtrls < 0xffffffffffffffff by omega)

theorem mem_copies (n b : Nat) : l ∈ (List.range n).map (·, b) ↔ l.2 = b ∧ l.1 < n := by
  obtain ⟨c, x⟩ := l
  simp only [List.mem_map, List.mem_range, Prod.mk.injEq]
  constructor
  · rintro ⟨a, ha, rfl, rfl⟩
    exact ⟨rfl, ha⟩
  · rintro ⟨rfl, hc⟩
    exact ⟨c, hc, rfl, rfl⟩

theorem mem_direct : l ∈ written L.toGeometry p .direct ↔ L.home p l := by
  simp only [written, Geometry.home]
  rw [evictCtrl_eq]
  cases hd : L.dist p with
  | replicate => exact mem_copies _ _
  | stripe =>
    rw [if_neg (stripe_ne_all L p), List.mem_singleton, Prod.ext_iff, and_comm]
    rfl

theorem mem_victimFull : l ∈ written L.toGeometry p .victimFull ↔ l.2 = L.backingPage p ∧
    match L.dist p with
    | .replicate => l.1 = 0
    | .stripe => l.1 = p.index%L.nCtrls := by
  simp only [written]
  rw [evictCtrl_eq, List.mem_singleton, Prod.ext_iff, and_comm]
  cases hd : L.dist p with
  | replicate => rfl
  | stripe =>
    rw [if_neg (stripe_ne_all L p)]
    rfl

/-- Without the read scheduler a miss may read from every place of the page. -/
theorem mem_mayRead (hq : L.readQueue = false) : l ∈ mayRead L.toGeometry p ↔ L.home p l := by
  unfold mayRead Geometry.home
  rw [hq, L.read_all, if_neg (by simp), if_neg (by simp)]
  cases hd : L.dist p with
  | replicate => exact mem_copies _ _
  | stripe =>
    rw [if_neg (stripe_ne_all L p), List.mem_singleton, Prod.ext_iff, and_comm]
    rfl

theorem mayRead_queue (hq : L.readQueue = true) :
    mayRead L.toGeometry p = [(0, L.firstBlock p)] := by
  unfold mayRead
  rw [hq, if_pos rfl, schedLoc_eq]
end

def Agree (L : Layout) (p : Page) (w : WriteBack) : Prop :=
  (w = .victimFull → L.backingPage p*L.nBlocksPerPage = L.backingPage p) ∧
    match L.dist p with
    | .replicate => w = .direct ∨ L.readQueue = true ∨ L.nCtrls = 1
    | .stripe => (w = .blocking ∨ w = .victim ∨ L.readQueue = true) → p.index%L.nCtrls = 0

theorem exists_mayRead (L : Layout) (p : Page) :
    ∃ c, (c, L.firstBlock p) ∈ mayRead L.toGeometry p := by
  cases hq : L.readQueue with
  | true => exact ⟨0, by rw [mayRead_queue L p hq]; simp⟩
  | false =>
    cases hd : L.dist p with
    | replicate => exact ⟨0, (mem_mayRead L p hq).mpr ⟨rfl, by simp [hd, L.nCtrls_pos]⟩⟩
    | stripe => exact ⟨p.index%L.nCtrls, (mem_mayRead L p hq).mpr ⟨rfl, by simp [hd]⟩⟩

theorem written_sched (hw : w = .blocking ∨ w = .victim) :
    written L.toGeometry p w = [(0, L.firstBlock p)] := by
  rcases hw with rfl | rfl <;> exact congrArg (fun l => [l]) (schedLoc_eq L p)

/-- Under the condition every place written is one of the page's own. -/
theorem Agree.written_home (h : Agree L p w) (hl : l ∈ written L.toGeometry p w) : L.home p l := by
  obtain ⟨hfull, hd⟩ := h
  cases w with
  | direct => exact (mem_direct L p).mp hl
  | blocking | victim =>
    rw [written_sched (by simp), List.mem_singleton] at hl
    subst hl
    refine ⟨rfl, ?_⟩
    cases hs : L.dist p with
    | replicate => exact L.nCtrls_pos
    | stripe =>
      simp only [hs] at hd
      exact (hd (by simp)).symm
  | victimFull =>
    obtain ⟨h2, h1⟩ := (mem_victimFull L p).mp hl
    refine ⟨h2.trans (hfull rfl).symm, ?_⟩
    cases hs : L.dist p with
    | replicate =>
      simp only [hs] at h1 ⊢
      exact h1 ▸ L.nCtrls_pos
    | stripe =>
      simp only [hs] at h1 ⊢
      exact h1

theorem Agree.covers (h : Agree L p w) (hl : l ∈ mayRead L.toGeometry p) :
    l ∈ written L.toGeometry p w := by
  obtain ⟨c, b⟩ := l
  obtain ⟨hb, hc⟩ : b = L.firstBlock p ∧ (L.readQueue = true ∧ c = 0 ∨
      L.readQueue = false ∧ L.home p (c, b)) := by
    cases hq : L.readQueue with
    | true =>
      rw [mayRead_queue L p hq, List.mem_singleton, Prod.mk.injEq] at hl
      exact ⟨hl.2, .inl ⟨rfl, hl.1⟩⟩
    | false =>
      have hh := (mem_mayRead L p hq).mp hl
      exact ⟨hh.1, .inr ⟨rfl, hh⟩⟩
  obtain ⟨hfull, hd⟩ := h
  subst hb
  cases hs : L.dist p with
  | replicate =>
    -- one copy is written by all but the direct path, so it must be the one read
    have hzero : w ≠ .direct → c = 0 := by
      intro hw
      rw [hs] at hd
      rcases hc with ⟨-, hc⟩ | ⟨hq, -, hc⟩
      · exact hc
      · rw [hs] at hc
        rcases hd with hd | hd | hd
        · exact absurd hd hw
        · exact absurd (hq.symm.trans hd) (by decide)
        · change c < L.nCtrls at hc
          omega
    cases w with
    | direct =>
      refine (mem_direct L p).mpr ⟨rfl, ?_⟩
      rw [hs]
      rcases hc with ⟨-, rfl⟩ | ⟨-, -, hc⟩
      · exact L.nCtrls_pos
      · rw [hs] at hc
        exact hc
    | blocking | victim =>
      rw [written_sched (by simp), hzero (by simp)]
      exact List.mem_singleton.mpr rfl
    | victimFull =>
      refine (mem_victimFull L p).mpr ⟨hfull rfl, ?_⟩
      rw [hs]
      exact hzero (by simp)
  | stripe =>
    rw [hs] at hd
    have hmod : c = p.index%L.nCtrls := by
      rcases hc with ⟨hq, rfl⟩ | ⟨-, -, hc⟩
      · exact (hd (.inr (.inr hq))).symm
      · rw [hs] at hc
        exact hc
    cases w with
    | direct =>
      refine (mem_direct L p).mpr ⟨rfl, ?_⟩
      rw [hs]
      exact hmod
    | blocking | victim =>
      rw [written_sched (by simp), hmod, hd (by simp)]
      exact List.mem_singleton.mpr rfl
    | victimFull =>
      refine (mem_victimFull L p).mpr ⟨hfull rfl, ?_⟩
      rw [hs]
      exact hmod

def Returns (L : Layout) (p : Page) (w : WriteBack) : Prop :=
  (∀ l ∈ mayRead L.toGeometry p, l ∈ written L.toGeometry p w) ∧
    ∀ q, L.Has q → q ≠ p → ∀ l ∈ written L.toGeometry p w, ¬L.home q l

theorem Returns.block (h : Returns L p .victimFull) :
    L.backingPage p*L.nBlocksPerPage = L.backingPage p := by
  obtain ⟨c, hc⟩ := exists_mayRead L p
  exact ((mem_victimFull L p).mp (h.1 _ hc)).1

theorem Returns.replicate (h : Returns L p w) (hs : L.dist p = .replicate) (hw : w ≠ .direct)
    (hq : L.readQueue = false) : L.nCtrls = 1 := by
  by_contra hn
  have hpos := L.nCtrls_pos
  have hread : (1, L.firstBlock p) ∈ mayRead L.toGeometry p := by
    refine (mem_mayRead L p hq).mpr ⟨rfl, ?_⟩
    rw [hs]
    change 1 < L.nCtrls
    omega
  have hwritten := h.1 _ hread
  cases w with
  | direct => exact hw rfl
  | blocking | victim =>
    rw [written_sched (by simp), List.mem_singleton, Prod.mk.injEq] at hwritten
    omega
  | victimFull =>
    have hc := ((mem_victimFull L p).mp hwritten).2
    rw [hs] at hc
    exact absurd hc Nat.one_ne_zero

/-- A scheduler write of a page off controller 0 hits the head of its row. -/
theorem Returns.row (h : Returns L p w) (hp : L.Has p) (hs : L.dist p = .stripe)
    (hw : w = .blocking ∨ w = .victim) : p.index%L.nCtrls = 0 := by
  by_contra hne
  refine h.2 _ (has_rowHead hp) (rowHead_ne hne) (0, L.firstBlock p) ?_ (home_rowHead hs)
  rw [written_sched hw]
  exact List.mem_singleton.mpr rfl

/-- The read scheduler finds a striped page only on controller 0. -/
theorem Returns.queue (h : Returns L p w) (hp : L.Has p) (hs : L.dist p = .stripe)
    (hq : L.readQueue = true) : p.index%L.nCtrls = 0 := by
  have hwritten : (0, L.firstBlock p) ∈ written L.toGeometry p w := by
    apply h.1
    rw [mayRead_queue L p hq]
    exact List.mem_singleton.mpr rfl
  cases w with
  | direct =>
    have hc := ((mem_direct L p).mp hwritten).2
    rw [hs] at hc
    exact hc.symm
  | blocking | victim => exact h.row hp hs (by simp)
  | victimFull =>
    have hc := ((mem_victimFull L p).mp hwritten).2
    rw [hs] at hc
    exact hc.symm

theorem evict_returns_iff (L : Layout) (p : Page) (hp : L.Has p) (w : WriteBack) :
    Returns L p w ↔ Agree L p w := by
  constructor
  · intro h
    refine ⟨fun hw => (hw ▸ h).block, ?_⟩
    cases hs : L.dist p with
    | replicate =>
      by_cases hw : w = .direct
      · exact .inl hw
      · cases hq : L.readQueue with
        | true => exact .inr (.inl rfl)
        | false => exact .inr (.inr (h.replicate hs hw hq))
    | stripe =>
      rintro (hw | hw | hq)
      · exact h.row hp hs (.inl hw)
      · exact h.row hp hs (.inr hw)
      · exact h.queue hp hs hq
  · intro h
    refine ⟨fun l hl => h.covers hl, ?_⟩
    intro q hq hne l hl hlq
    exact hne (home_inj hq hp hlq (h.written_home hl))

def twoCtrls (dist : DataDist) : Layout where
  nCtrls := 2
  nCtrls_pos := by decide
  nCtrls_lt := by decide
  pageSize := 4096
  pageSize_pos := by decide
  blkLog := 9
  blk_dvd := by decide
  range r := ⟨0, if r = 0 then 4 else 0, dist⟩
  readQueue := false
  evictCtrlOverride := ALL_CTRLS
  readCtrlOverride := ALL_CTRLS
  evict_all := rfl
  read_all := rfl
  apart := by
    have h0 : ∀ r i, i < (if r = 0 then 4 else 0) → r = 0 := by
      intro r i h
      by_contra hr
      rw [if_neg hr] at h
      omega
    intro p q hp hq hne
    exact absurd ((h0 _ _ hp).trans (h0 _ _ hq).symm) hne

/-- A queued write of a striped page returns on controller 0 only. -/
theorem striped_head_returns : Returns (twoCtrls .stripe) ⟨0, 2⟩ .victim ∧
    ¬Returns (twoCtrls .stripe) ⟨0, 1⟩ .victim := by
  have hhas : ∀ i < 4, (twoCtrls .stripe).Has ⟨0, i⟩ := fun i hi => hi
  constructor
  · exact (evict_returns_iff _ _ (hhas 2 (by decide)) _).mpr
      ⟨fun h => absurd h (by decide), fun _ => rfl⟩
  · intro h
    have hmod := ((evict_returns_iff _ _ (hhas 1 (by decide)) _).mp h).2 (.inr (.inl rfl))
    exact absurd hmod Nat.one_ne_zero

/-- Copy 1 of a replicated page keeps the old data when the write goes through the
scheduler of controller 0. -/
theorem second_copy_stale : ¬∀ (L : Layout) (p : Page), L.Has p → ∀ w, Returns L p w := by
  intro h
  have hret := h (twoCtrls .replicate) ⟨0, 0⟩ (show (0 : Nat) < 4 by decide) .blocking
  have hwritten := hret.1 (1, 0) (by decide)
  exact absurd hwritten (by decide)

end Shaper.EvictTargets
