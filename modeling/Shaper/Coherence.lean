import Shaper.PageData

/-! Reads through the page cache return the latest write. -/
namespace Shaper.ArrayAccess
open Function PageCache Backing Lib.Bytes
variable {u : Setup} {init : Memory} {S S' : Sys} {σ : State} {p : Page} {a : Act}

structure Good (u : Setup) (init : Memory) (S : Sys) : Prop where
  inv : Inv u.cache S.ctl
  data : Data u init S

theorem Good.step (h : Good u init S) (hs : step u S a = some S')
    (hlt : ∀ p, refs S'.ctl p < 2^29) : Good u init S' := by
  cases a with
  | start arr op lanes =>
    cases lanes with
    | nil => simp [ArrayAccess.step] at hs
    | cons l ls =>
      simp only [ArrayAccess.step] at hs
      cases hf : findRange u.range arr l.elem with
      | none => simp [hf] at hs
      | some r =>
        simp only [hf, Option.ite_none_right_eq_some, Option.map_eq_some_iff] at hs
        obtain ⟨hco, ⟨τ, e⟩, hstep, rfl⟩ := hs
        refine ⟨h.inv.next hstep hlt, ?_⟩
        simp only [PageCache.step, Option.ite_none_right_eq_some, Option.some.injEq,
          Prod.mk.injEq] at hstep
        obtain ⟨⟨hr, -⟩, rfl, -⟩ := hstep
        exact h.data.start (g := ⟨op, r, l :: ls⟩) h.inv ⟨r, l.elem, elem_of_findRange hr hf, rfl⟩
          hlt (groupOk_of_coalesced hr hco)
  | cache i weak =>
    simp only [ArrayAccess.step, Option.map_eq_some_iff] at hs
    obtain ⟨⟨τ, e⟩, hstep, rfl⟩ := hs
    exact ⟨h.inv.next hstep hlt, h.data.moves h.inv (moves_of_acquireStep hstep)⟩
  | lane i l =>
    simp only [ArrayAccess.step] at hs
    split at hs
    · next s left ln hpc hln =>
      have hd := h.data.access h.inv hpc (List.mem_of_getElem? hln)
      have hctl := access_ctl (S := S) (u := u) (s := s) (r := (S.group i).range) (S.group i).op ln
      obtain rfl := Option.some.inj hs
      generalize S.access u s (S.group i).range (S.group i).op ln = T at hd hctl ⊢
      refine ⟨hctl ▸ h.inv, hd.regroup fun j hj => ?_⟩
      rw [hctl] at hj ⊢
      have hg := h.data.groups j hj
      by_cases he : j = i
      · subst he
        rw [update_self]
        exact ⟨hg.range, hg.write, fun l hl => hg.lanes l (List.mem_of_mem_eraseIdx hl)⟩
      · rwa [update_of_ne he]
    · cases hs
  | finish i =>
    simp only [ArrayAccess.step, Option.ite_none_right_eq_some, Option.map_eq_some_iff] at hs
    obtain ⟨-, ⟨τ, e⟩, hstep, rfl⟩ := hs
    refine ⟨h.inv.next hstep hlt, ?_⟩
    simp only [PageCache.step, Option.map_eq_some_iff, Prod.mk.injEq] at hstep
    obtain ⟨τ', hr, rfl, -⟩ := hstep
    exact h.data.release h.inv hr

theorem Fresh.good (h : Fresh S) : Good u S.storage S where
  inv := h.ctl.inv
  data := by
    have hidle := h.ctl.call
    refine ⟨fun i hi => absurd (hidle i) hi, fun p hp => ?_, fun p _ _ b _ => ?_, fun i s hi => ?_,
      fun i p hi => ?_, fun i hi => ?_, fun i hi => absurd (hidle i) hi, ?_, ?_⟩
    · simp [h.ctl.word, valid] at hp
    · rw [h.log]
      rfl
    · simp [hidle] at hi
    · simp [hidle] at hi
    · simp [hidle] at hi
    · simp [h.log]
    · intro before ev after he
      simp [h.log] at he

/-- Every read returns the latest write to its element, or the initial contents of
storage, as long as no page has `2^29` references at a time. -/
theorem reads_latest (u : Setup) (S₀ S : Sys) (h₀ : Fresh S₀)
    (hrun : Run u (fun σ => ∀ p, refs σ p < 2^29) S₀ S) : Coherent u S₀.storage S.log := by
  have hgood : Good u S₀.storage S := by
    induction hrun with
    | refl => exact h₀.good
    | step _ hs hlt ih => exact ih.step hs hlt
  exact hgood.data.coherent

def Act.lanes : Act → Nat
  | .start _ _ lanes => lanes.length
  | _ => 0

theorem Good.refs_step (h : Good u init S) (hs : ArrayAccess.step u S a = some S') (p : Page) :
    refs S'.ctl p ≤ refs S.ctl p+a.lanes := by
  cases a with
  | start arr op lanes =>
    cases lanes with
    | nil => simp [ArrayAccess.step] at hs
    | cons l ls =>
      simp only [ArrayAccess.step] at hs
      cases hf : findRange u.range arr l.elem with
      | none => simp [hf] at hs
      | some r =>
        simp only [hf, Option.ite_none_right_eq_some, Option.map_eq_some_iff, PageCache.step,
          Option.some.injEq] at hs
        obtain ⟨-, τ, ⟨-, rfl⟩, rfl⟩ := hs
        dsimp only
        rw [refs_begin, Act.lanes]
        split <;> omega
  | cache i weak =>
    simp only [ArrayAccess.step, Option.map_eq_some_iff] at hs
    obtain ⟨⟨τ, e⟩, hstep, rfl⟩ := hs
    have hm := moves_of_acquireStep hstep
    obtain ⟨pc, -, -, -, -, hw⟩ := hm.frame
    dsimp only
    rw [← (h.inv.counts.moves hm).count, hw, h.inv.counts.count]
    omega
  | lane i l =>
    simp only [ArrayAccess.step] at hs
    split at hs
    · obtain rfl := Option.some.inj hs
      dsimp only
      rw [access_ctl]
      omega
    · cases hs
  | finish i =>
    simp only [ArrayAccess.step, Option.ite_none_right_eq_some, Option.map_eq_some_iff,
      PageCache.step] at hs
    obtain ⟨-, ⟨τ, e⟩, ⟨τ', hr, he⟩, rfl⟩ := hs
    obtain ⟨rfl, -⟩ := Prod.mk.inj he
    obtain ⟨s, left, hpc, hk, hτ⟩ := releasePage_cases hr
    have hi : i < S.ctl.begun := h.inv.counts.lt (by simp [hpc])
    have hrefs : refs S.ctl p = refs τ' p+
        if (S.ctl.call i).page = p then (S.ctl.call i).count else 0 :=
      refs_release hi hpc (by rw [hτ]; rfl) (by rw [hτ]; rfl) hk
    dsimp only
    omega

def runAll (u : Setup) : List Act → Sys → Option Sys
  | [], S => some S
  | a :: as, S => (step u S a).bind (runAll u as)

theorem Run.runAll {ok : State → Prop} {S₀ : Sys} (h : Run u ok S₀ S) {as : List Act}
    (hs : runAll u as S = some S') (hok : ∀ σ, ok σ) : Run u ok S₀ S' := by
  induction as generalizing S with
  | nil => exact Option.some.inj hs ▸ h
  | cons a as ih =>
    simp only [ArrayAccess.runAll, Option.bind_eq_some_iff] at hs
    obtain ⟨T, hT, hs⟩ := hs
    exact ih (h.step hT (hok _)) hs

/-- A run whose warps have few lanes in all stays below the bound on references. -/
theorem Run.runAll_bounded {S₀ : Sys} {n : Nat} {as : List Act}
    (h : Run u (fun σ => ∀ p, refs σ p < 2^29) S₀ S) (hgood : Good u init S)
    (hn : ∀ p, refs S.ctl p ≤ n) (has : n+(as.map Act.lanes).sum < 2^29)
    (hs : ArrayAccess.runAll u as S = some S') :
    Run u (fun σ => ∀ p, refs σ p < 2^29) S₀ S' := by
  induction as generalizing S n with
  | nil => exact Option.some.inj hs ▸ h
  | cons a as ih =>
    simp only [ArrayAccess.runAll, Option.bind_eq_some_iff] at hs
    obtain ⟨T, hT, hs⟩ := hs
    simp only [List.map_cons, List.sum_cons] at has
    have hle : ∀ p, refs T.ctl p ≤ n+a.lanes := fun p =>
      (hgood.refs_step hT p).trans (Nat.add_le_add_right (hn p) _)
    have hlt : ∀ p, refs T.ctl p < 2^29 := fun p => Nat.lt_of_le_of_lt (hle p) (by omega)
    exact ih (h.step hT hlt) (hgood.step hT hlt) hle (by omega) hs

def byteRange : Range where
  indexStart := 0
  count := 2
  pageStart := 0
  pageStartOffset := 0
  dist := .replicate
  sizeofT := 1
  sizeofT_pos := by decide
  plus a b := [a.headD 0+b.headD 0]
  length_plus _ _ := rfl

def twoPages : Setup where
  cache := oneSlot
  pageSizeLog := 0
  range _ := byteRange
  inside r i _ _ := by simp [Range.getSubindex, byteRange]
  apart r i r' i' hr hr' _ _ h := by
    have h1 : oneSlot.maxRange = 1 := rfl
    rw [h1] at hr hr'
    refine ⟨by omega, ?_⟩
    simpa [getBackingPage, byteRange] using h

def emptyCache : Sys where
  ctl := blank
  group _ := ⟨.seqRead, 0, []⟩
  mem _ := 0
  storage a := if a = 0 then 5 else 7
  log := []

def oneLane (op : Op) (l : Lane) (i n : Nat) : List Act :=
  .start [0] op [l] :: List.replicate n (.cache i false)

def whole (op : Op) (l : Lane) (i n : Nat) : List Act :=
  oneLane op l i n ++ [.lane i 0, .finish i]

def writeReadRead : List Act :=
  whole .seqWrite ⟨0, [9]⟩ 0 10 ++ whole .seqRead ⟨1, [0]⟩ 1 14 ++ whole .seqRead ⟨0, [0]⟩ 2 13

theorem fresh_emptyCache : Fresh emptyCache := ⟨initial_blank, rfl⟩

/-- A value written, evicted with its page and read back. -/
theorem written_value_read : ∃ S, Run twoPages (fun σ => ∀ p, refs σ p < 2^29) emptyCache S ∧
    S.log = [⟨0, 0, none, some [9]⟩, ⟨0, 1, some [7], none⟩, ⟨0, 0, some [9], none⟩] ∧
    Coherent twoPages emptyCache.storage S.log := by
  have hlog : (runAll twoPages writeReadRead emptyCache).map Sys.log =
      some [⟨0, 0, none, some [9]⟩, ⟨0, 1, some [7], none⟩, ⟨0, 0, some [9], none⟩] := by
    decide +kernel
  obtain ⟨S, hS, hlog⟩ := Option.map_eq_some_iff.mp hlog
  have hrun := Run.runAll_bounded (n := 0) .refl fresh_emptyCache.good (fun _ => Nat.le_refl 0)
    (by decide) hS
  exact ⟨S, hrun, hlog, reads_latest twoPages emptyCache S fresh_emptyCache hrun⟩

/-! `2^29` readers of one page: their count overflows into the flags. -/

def reader : Call := ⟨⟨0, 0⟩, 1, false, .hold 0 1⟩
def readerGroup : Group := ⟨.seqRead, 0, [⟨0, [0]⟩]⟩

def crowd (T : Sys) (n : Nat) : Sys :=
  { T with
    ctl :=
      { T.ctl with
        word := update T.ctl.word ⟨0, 0⟩ (VALID+BitVec.ofNat 32 n)
        begun := n
        call := fun j => if j < n then reader else T.ctl.call j }
    group := fun j => if j < n then readerGroup else T.group j }

theorem dispatch_crowd {n : Nat} (hn : n < 2^29) :
    dispatch false (VALID+BitVec.ofNat 32 n) = .hitOffset := by
  have hroom : cnt VALID+n < 2^29 := by
    have h0 : cnt VALID = 0 := by decide
    omega
  have hst : st (VALID+BitVec.ofNat 32 n) = V_NB :=
    st_valid_iff.mpr ⟨(valid_add hroom).trans (by decide), (busy_add hroom).trans (by decide)⟩
  have hne : st (VALID+BitVec.ofNat 32 n) ≠ NV_NB := by
    rw [hst]
    decide
  unfold dispatch
  rw [if_neg hne, if_pos hst, if_neg (by simp)]

theorem ite_lt_succ {α : Type*} (f : Nat → α) (x : α) (n : Nat) :
    update (fun j => if j < n then x else f j) n x = fun j => if j < n+1 then x else f j := by
  funext j
  by_cases hj : j = n
  · simp [hj]
  · have hlt : j < n+1 ↔ j < n := by omega
    simp [hj, hlt]

theorem crowd_next {T : Sys} (hoff : T.ctl.offset ⟨0, 0⟩ = 0) {n : Nat} (hn : n < 2^29) :
    runAll twoPages [.start [0] .seqRead [⟨0, [0]⟩], .cache n false] (crowd T n) =
      some (crowd T (n+1)) := by
  have hstart : step twoPages (crowd T n) (.start [0] .seqRead [⟨0, [0]⟩]) =
      some { crowd T n with
        ctl := begin (crowd T n).ctl ⟨0, 0⟩ 1 false
        group := (crowd T (n+1)).group } := by
    have hg := ite_lt_succ T.group readerGroup n
    simp only [crowd, ← hg]
    rfl
  have hcall :
    (begin (crowd T n).ctl ⟨0, 0⟩ 1 false).call n = { reader with pc := .hitOffset } := by
    have hd := dispatch_crowd hn
    simp only [begin, crowd, update_self]
    rw [hd]
    rfl
  have hctl : (begin (crowd T n).ctl ⟨0, 0⟩ 1 false).move n (.hold 0 1) = (crowd T (n+1)).ctl := by
    have hc := ite_lt_succ T.ctl.call reader n
    unfold State.move
    rw [hcall]
    simp only [begin, crowd, update_idem, ← hc, update_self, BitVec.add_assoc, BitVec.ofNat_add]
    rfl
  have hhit : acquireStep oneSlot (begin (crowd T n).ctl ⟨0, 0⟩ 1 false) n false =
      some ((crowd T (n+1)).ctl, .quiet) := by
    simp only [acquireStep, hcall]
    rw [← hctl, ← hoff]
    rfl
  have hcache : ∀ g, step twoPages { crowd T n with
        ctl := begin (crowd T n).ctl ⟨0, 0⟩ 1 false, group := g } (.cache n false) =
      some { crowd T n with ctl := (crowd T (n+1)).ctl, group := g } := by
    intro g
    exact congrArg (Option.map _) hhit
  rw [runAll, hstart, Option.bind_some, runAll, hcache, Option.bind_some, runAll]
  rfl

theorem crowd_one {T : Sys} (hw : T.ctl.word ⟨0, 0⟩ = VALID+BitVec.ofNat 32 1)
    (hb : T.ctl.begun = 1) (hc : T.ctl.call 0 = reader) (hg : T.group 0 = readerGroup) :
    crowd T 1 = T := by
  have hcall : (fun j => if j < 1 then reader else T.ctl.call j) = T.ctl.call := by
    funext j
    by_cases hj : j = 0
    · simp [hj, hc]
    · simp [hj]
  have hgroup : (fun j => if j < 1 then readerGroup else T.group j) = T.group := by
    funext j
    by_cases hj : j = 0
    · simp [hj, hg]
    · simp [hj]
  unfold crowd
  rw [← hw, update_eq_self, hcall, hgroup, ← hb]

theorem run_crowd {T : Sys} (hT : Run twoPages (fun _ => True) emptyCache (crowd T 1))
    (hoff : T.ctl.offset ⟨0, 0⟩ = 0) {n : Nat} (h1 : 1 ≤ n) (hn : n ≤ 2^29) :
    Run twoPages (fun _ => True) emptyCache (crowd T n) := by
  induction n, h1 using Nat.le_induction with
  | base => exact hT
  | succ n _ ih => exact (ih (by omega)).runAll (crowd_next hoff (by omega)) fun _ => trivial

def firstRead : List Act := oneLane .seqRead ⟨0, [0]⟩ 0 9

def held : Sys := (runAll twoPages firstRead emptyCache).getD emptyCache

theorem run_held : Run twoPages (fun _ => True) emptyCache (crowd held 1) := by
  have hsome : (runAll twoPages firstRead emptyCache).isSome = true := by decide +kernel
  obtain ⟨T, hT⟩ := Option.isSome_iff_exists.mp hsome
  have hheld : held = T := by
    unfold held
    rw [hT]
    rfl
  rw [crowd_one (by decide +kernel) (by decide +kernel) (by decide +kernel) (by decide +kernel),
    hheld]
  exact Run.runAll .refl hT fun _ => trivial

def lateRead : List Act := oneLane .seqRead ⟨1, [0]⟩ (2^29) 14 ++ [.lane 0 0]

/-- With `2^29` readers of page 0 its count reads zero, its slot is given to page 1,
and a reader of page 0 gets the byte of page 1. -/
theorem crowd_read_wrong : ¬∀ (u : Setup) (S₀ S : Sys), Fresh S₀ → Run u (fun _ => True) S₀ S →
    Coherent u S₀.storage S.log := by
  intro hall
  have hlog : (runAll twoPages lateRead (crowd held (2^29))).map Sys.log =
      some [⟨0, 0, some [7], none⟩] := by
    decide +kernel
  obtain ⟨S, hS, hlog⟩ := Option.map_eq_some_iff.mp hlog
  have hcrowd := run_crowd run_held (by decide +kernel) (by decide) (Nat.le_refl (2^29))
  have hrun := hcrowd.runAll hS fun _ => trivial
  have hc := hall twoPages emptyCache S fresh_emptyCache hrun
  rw [hlog] at hc
  have := hc [] _ [] rfl [7] rfl
  revert this
  decide

end Shaper.ArrayAccess
