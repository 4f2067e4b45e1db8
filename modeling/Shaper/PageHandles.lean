import Shaper.FastPointerRuns

/-! The `data_page_t` pointers that `acquire_page` and `acquire_page_` hand back: which page's
state word they name, and what is then marked and released through them. -/
namespace Shaper.PageHandles
open Function PageCache
open FastPointer (Setup Residence Ptr TlbPtr Entry outside)

/-- The pointers and the TLB, the DIRTY bit of every page, and as history the page that
every TLB entry took its reference on. -/
structure State (u : Setup) where
  fast : FastPointer.State u
  dirty : Page → Bool
  taken : Fin u.n → Option Page

def start (u : Setup) (cache : Residence) (dirty : Page → Bool) : State u :=
  ⟨{ FastPointer.init u with cache := cache }, dirty, fun _ => none⟩

/-- The operations of `bam_ptr` number `k` and of `bam_ptr_tlb` number `k`; `s` is the slot
that `find_slot` finds if the page has to be loaded. `renew` is the destructor and a new
pointer in its place, `tlbFini` the end of the TLB and an empty one in its place. -/
inductive Op (u : Setup) where
  | index (k : Fin u.m) (i : BitVec 64) (s : Nat)
  | memref (k : Fin u.m) (i : BitVec 64) (s : Nat)
  | renew (k : Fin u.m)
  | tlbIndex (k : Fin u.m) (i : BitVec 64) (s : Nat)
  | tlbRenew (k : Fin u.m)
  | tlbFini

def evicted (dirty : Page → Bool) (c c' : Residence) : Page → Bool :=
  fun q => dirty q && !(c.valid q && !c'.valid q)

def mark (dirty : Page → Bool) : Option Page → Page → Bool
  | none => dirty
  | some q => update dirty q true

variable {u : Setup}

def leaves (σ : State u) (k : Fin u.m) (i : BitVec 64) : Bool :=
  outside (σ.fast.ptr k).start (σ.fast.ptr k).end_ i

def entryFor (u : Setup) (r : Nat) (i : BitVec 64) : Fin u.n :=
  u.entryOf (u.cache.globalAddress (u.page r i))

def found (t : Fin u.n → Entry) (gid : BitVec 64) : Bool :=
  (t (u.entryOf gid)).page.isSome && gid == (t (u.entryOf gid)).globalId

def misses (σ : State u) (k : Fin u.m) (r : Nat) (i : BitVec 64) : Bool :=
  outside (σ.fast.tlbPtr k).start (σ.fast.tlbPtr k).end_ i &&
    !found σ.fast.tlb (u.cache.globalAddress (u.page r i))

def releaseAll (t : Fin u.n → Entry) (c : Residence) : Residence :=
  (List.finRange u.n).foldl (fun c e => ((t e).page.map c.releasePage).getD c) c

/-- `operator[]` marks the page it has just acquired; `memref` acquires without marking. The
TLB pointer marks by the number of the page. -/
def step (σ : State u) : Op u → Option (State u)
  | .index k i s => (FastPointer.step σ.fast (.plain k i s)).map fun (f, _) =>
    let dirty := evicted σ.dirty σ.fast.cache f.cache
    { σ with fast := f, dirty := if leaves σ k i then mark dirty (f.ptr k).page else dirty }
  | .memref k i s => (FastPointer.step σ.fast (.plain k i s)).map fun (f, _) =>
    { σ with fast := f, dirty := evicted σ.dirty σ.fast.cache f.cache }
  | .renew k => some { σ with
      fast.cache := (σ.fast.ptr k).fini u σ.fast.cache
      fast.ptr := update σ.fast.ptr k ⟨none, 0, 0, none, 0⟩ }
  | .tlbIndex k i s => match u.findRange i with
    | none => none
    | some r => (FastPointer.step σ.fast (.tlb k i s)).map fun (f, _) =>
      let dirty := evicted σ.dirty σ.fast.cache f.cache
      { fast := f
        dirty := if outside (σ.fast.tlbPtr k).start (σ.fast.tlbPtr k).end_ i then
          mark dirty (some (u.page r i)) else dirty
        taken := if misses σ k r i then update σ.taken (entryFor u r i) (some (u.page r i))
        else σ.taken }
  | .tlbRenew k => some { σ with
      fast.tlb := (σ.fast.tlbPtr k).fini σ.fast.tlb
      fast.tlbPtr := update σ.fast.tlbPtr k ⟨none, 0, 0, 0, 0, none⟩ }
  | .tlbFini => some { σ with
      fast.cache := releaseAll σ.fast.tlb σ.fast.cache
      fast.tlb := fun _ => ⟨0, 0, none⟩
      taken := fun _ => none }

def Right (σ : State u) (op : Op u) (σ' : State u) : Prop :=
  match op with
  | .index k i _ => ∀ r, u.findRange i = some r →
    (leaves σ k i = true → (σ'.fast.ptr k).page = some (u.page r i)) ∧ σ'.dirty (u.page r i) = true
  | .memref k i _ => ∀ r, u.findRange i = some r →
    leaves σ k i = true → (σ'.fast.ptr k).page = some (u.page r i)
  | .renew _ => True
  | .tlbIndex k i _ => ∀ r, u.findRange i = some r → misses σ k r i = true →
    (σ'.fast.tlb (entryFor u r i)).page = some (u.page r i) ∧
      ∀ q, (σ.fast.tlb (entryFor u r i)).page = some q → σ.taken (entryFor u r i) = some q
  | .tlbRenew _ => True
  | .tlbFini => ∀ e q, (σ.fast.tlb e).page = some q → σ.taken e = some q

def InPlace (c : Residence) (p : Page) (s : Nat) : Prop :=
  (if c.valid p then c.offset p else s) = p.index

instance (c : Residence) (p : Page) (s : Nat) : Decidable (InPlace c p s) :=
  inferInstanceAs (Decidable (_ = _))

def Ok (σ : State u) (op : Op u) : Prop :=
  match op with
  | .index k i s => ∀ r, u.findRange i = some r →
    if leaves σ k i then InPlace σ.fast.cache (u.page r i) s else σ.dirty (u.page r i) = true
  | .memref k i s => ∀ r, u.findRange i = some r →
    leaves σ k i = true → InPlace σ.fast.cache (u.page r i) s
  | .tlbIndex k i s => ∀ r, u.findRange i = some r →
    misses σ k r i = true → InPlace σ.fast.cache (u.page r i) s
  | _ => True

inductive Reach (u : Setup) : State u → Prop where
  | start (c : Residence) (dirty : Page → Bool) : Reach u (start u c dirty)
  | step {σ σ' : State u} {op : Op u} : Reach u σ → Ok σ op → step σ op = some σ' → Reach u σ'

theorem acquirePage_slot {c c' : Residence} {n s slot : Nat} {p : Page}
    (h : c.acquirePage n p s = some (c', slot)) : slot = if c.valid p then c.offset p else s := by
  simp only [Residence.acquirePage] at h
  by_cases hv : c.valid p = true
  · rw [if_pos hv]
    rw [if_pos (by exact hv)] at h
    cases h
    rfl
  · rw [if_neg hv]
    rw [if_neg (by exact hv)] at h
    split at h
    · cases h
    · split at h
      · cases h
        rfl
      · split at h
        · cases h
          rfl
        · cases h

/-- `&r_->pages[base_master]` is the page of the element just when slot and page have the same
number. -/
theorem handle_eq_iff {c c' : Residence} {n r s slot : Nat} {i : BitVec 64}
    (h : c.acquirePage n (u.page r i) s = some (c', slot)) :
    (⟨r, slot⟩ : Page) = u.page r i ↔ InPlace c (u.page r i) s := by
  rw [acquirePage_slot h]
  unfold InPlace
  constructor
  · intro heq
    exact congrArg Page.index heq
  · intro heq
    rw [heq]
    rfl

theorem InPlace.fini_iff (b : Ptr) (c : Residence) (p : Page) (s : Nat) :
    InPlace (b.fini u c) p s ↔ InPlace c p s := by
  unfold Ptr.fini
  split <;> exact Iff.rfl

section steps
variable {σ σ' : State u} {k : Fin u.m} {r s : Nat} {i : BitVec 64}

theorem plain_leaves {f : FastPointer.State u} {address : BitVec 64} (hi : u.findRange i = some r)
    (hl : leaves σ k i = true) (h : FastPointer.step σ.fast (.plain k i s) = some (f, address)) :
    ∃ q, (f.ptr k).page = some q ∧ (q = u.page r i ↔ InPlace σ.fast.cache (u.page r i) s) := by
  unfold leaves at hl
  simp only [FastPointer.step, hl, if_true, Ptr.updatePage, hi, Option.map_eq_some_iff,
    Prod.exists] at h
  obtain ⟨c, b, ⟨c', slot, hacq, hb⟩, hf⟩ := h
  cases hb
  cases hf
  refine ⟨⟨r, slot⟩, ?_, ?_⟩
  · simp only [update_self]
  · rw [handle_eq_iff hacq, InPlace.fini_iff]

theorem plain_stays {f : FastPointer.State u} {address : BitVec 64} (hl : leaves σ k i = false)
    (h : FastPointer.step σ.fast (.plain k i s) = some (f, address)) : f = σ.fast := by
  unfold leaves at hl
  simp only [FastPointer.step, hl, Bool.false_eq_true, if_false] at h
  cases h
  rfl

theorem evicted_self (dirty : Page → Bool) (c : Residence) : evicted dirty c c = dirty := by
  funext q
  unfold evicted
  cases c.valid q <;> cases dirty q <;> rfl

theorem index_right_iff (h : step σ (.index k i s) = some σ') :
    Right σ (.index k i s) σ' ↔ Ok σ (.index k i s) := by
  obtain ⟨⟨f, address⟩, hstep, rfl⟩ := Option.map_eq_some_iff.1 h
  refine forall₂_congr fun r hi => ?_
  by_cases hl : leaves σ k i = true
  · obtain ⟨q, hq, hiff⟩ := plain_leaves hi hl hstep
    dsimp only
    rw [if_pos hl, if_pos hl, hq, ← hiff]
    constructor
    · rintro ⟨hpage, -⟩
      exact Option.some.inj (hpage hl)
    · rintro rfl
      exact ⟨fun _ => rfl, update_self _ _ _⟩
  · obtain rfl := plain_stays (Bool.eq_false_of_not_eq_true hl) hstep
    dsimp only
    rw [if_neg hl, if_neg hl, evicted_self]
    exact ⟨fun hr => hr.2, fun hd => ⟨fun hno => absurd hno hl, hd⟩⟩

theorem memref_right_iff (h : step σ (.memref k i s) = some σ') :
    Right σ (.memref k i s) σ' ↔ Ok σ (.memref k i s) := by
  obtain ⟨⟨f, address⟩, hstep, rfl⟩ := Option.map_eq_some_iff.1 h
  refine forall₃_congr fun r hi hl => ?_
  obtain ⟨q, hq, hiff⟩ := plain_leaves hi hl hstep
  dsimp only
  rw [hq, ← hiff, Option.some_inj]

theorem tlb_stays {f : FastPointer.State u} {address : BitVec 64}
    (ho : outside (σ.fast.tlbPtr k).start (σ.fast.tlbPtr k).end_ i = false)
    (h : FastPointer.step σ.fast (.tlb k i s) = some (f, address)) : f = σ.fast := by
  simp only [FastPointer.step, ho, Bool.false_eq_true, if_false] at h
  cases h
  rfl

/-- What `tlb::acquire` leaves in the entries: a miss fills the entry of the page, with the
handle it got, and nothing else changes which page an entry names. -/
theorem acquireEntry_pages {c c' : Residence} {t t' : Fin u.n → Entry}
    {gid start end_ start' end' addr : BitVec 64} {page : BitVec 64} {count : BitVec 32}
    (h : FastPointer.acquireEntry c t gid start end_ count r page s =
      some (c', t', start', end', addr)) :
    if found t gid then ∀ e, (t' e).page = (t e).page
    else ∃ (c₀ : Residence)
    (slot : Nat), c₀.acquirePage u.cache.nPages ⟨r, page.toNat⟩ s = some (c', slot) ∧
      c₀.valid = c.valid ∧ c₀.offset = c.offset ∧ (t' (u.entryOf gid)).page = some ⟨r, slot⟩ ∧
      ∀ e ≠ u.entryOf gid, (t' e).page = (t e).page := by
  simp only [FastPointer.acquireEntry] at h
  unfold found
  split at h
  · next hnone =>
    obtain ⟨⟨c₁, slot⟩, hacq, hout⟩ := Option.map_eq_some_iff.1 h
    cases hout
    rw [hnone]
    refine ⟨c, slot, hacq, rfl, rfl, ?_, fun e he => ?_⟩
    · rw [update_self]
    · rw [update_of_ne he]
  · next q hq =>
    rw [hq]
    by_cases hid : gid = (t (u.entryOf gid)).globalId
    · rw [if_pos hid] at h
      cases h
      rw [← hid, if_pos (by simp only [Option.isSome_some, Bool.true_and, beq_self_eq_true])]
      intro e
      by_cases he : e = u.entryOf gid
      · rw [he, update_self]
      · rw [update_of_ne he]
    · rw [if_neg hid] at h
      rw [if_neg (by simpa only [Option.isSome_some, Bool.true_and, beq_iff_eq] using hid)]
      split at h
      · obtain ⟨⟨c₁, slot⟩, hacq, hout⟩ := Option.map_eq_some_iff.1 h
        cases hout
        refine ⟨_, slot, hacq, rfl, rfl, ?_, fun e he => ?_⟩
        · rw [update_self]
        · rw [update_of_ne he]
      · cases h

/-- An access through the TLB, as far as the entries' handles go. -/
theorem tlb_pages {f : FastPointer.State u} {address : BitVec 64} (hi : u.findRange i = some r)
    (h : FastPointer.step σ.fast (.tlb k i s) = some (f, address)) :
    if misses σ k r i then
      ∃ q, (f.tlb (entryFor u r i)).page = some q ∧
      (q = u.page r i ↔ InPlace σ.fast.cache (u.page r i) s) ∧
        ∀ e ≠ entryFor u r i, (f.tlb e).page = (σ.fast.tlb e).page
    else ∀ e, (f.tlb e).page = (σ.fast.tlb e).page := by
  unfold misses
  cases ho : outside (σ.fast.tlbPtr k).start (σ.fast.tlbPtr k).end_ i with
  | false =>
    rw [tlb_stays ho h]
    exact fun _ => rfl
  | true =>
    simp only [FastPointer.step, ho, if_true, hi, Option.map_eq_some_iff, Prod.exists] at h
    obtain ⟨c, t, start, end_, addr, hacq, hf⟩ := h
    cases hf
    have hpages := acquireEntry_pages hacq
    have hfini := fun e => ((σ.fast.tlbPtr k).fini_page σ.fast.tlb e)
    have hfound (gid : BitVec 64) :
      found ((σ.fast.tlbPtr k).fini σ.fast.tlb) gid = found σ.fast.tlb gid := by
      unfold found
      rw [(hfini _).1, (hfini _).2]
    simp only [hfound, (hfini _).1] at hpages
    cases hhit : found σ.fast.tlb (u.cache.globalAddress (u.page r i)) with
    | true =>
      rw [hhit] at hpages
      exact hpages
    | false =>
      rw [hhit] at hpages
      obtain ⟨c₀, slot, hfound, hvalid, hoffset, hpage, hother⟩ := hpages
      refine ⟨⟨r, slot⟩, hpage, ?_, hother⟩
      refine (handle_eq_iff (i := i) hfound).trans ?_
      unfold InPlace
      rw [hvalid, hoffset]

def Matched (σ : State u) : Prop := ∀ e, (σ.fast.tlb e).page = σ.taken e

theorem Matched.tlbIndex_right_iff (hm : Matched σ) (h : step σ (.tlbIndex k i s) = some σ') :
    Right σ (.tlbIndex k i s) σ' ↔ Ok σ (.tlbIndex k i s) := by
  refine forall₃_congr fun r hi hmiss => ?_
  simp only [step, hi] at h
  obtain ⟨⟨f, address⟩, hstep, rfl⟩ := Option.map_eq_some_iff.1 h
  have hpages := tlb_pages hi hstep
  rw [if_pos hmiss] at hpages
  obtain ⟨q, hq, hiff, -⟩ := hpages
  dsimp only
  rw [hq, ← hiff, Option.some_inj]
  exact ⟨fun hr => hr.1, fun hr => ⟨hr, fun q' hq' => (hm _).symm.trans hq'⟩⟩

/-- At every operation of a run that has met the condition so far. -/
theorem Matched.right_iff (hm : Matched σ) {op : Op u} (h : step σ op = some σ') :
    Right σ op σ' ↔ Ok σ op := by
  cases op with
  | index k i s => exact index_right_iff h
  | memref k i s => exact memref_right_iff h
  | renew k => exact Iff.rfl
  | tlbIndex k i s => exact hm.tlbIndex_right_iff h
  | tlbRenew k => exact Iff.rfl
  | tlbFini => exact iff_of_true (fun e q hq => (hm e).symm.trans hq) trivial

theorem plain_tlb {f : FastPointer.State u} {address : BitVec 64}
    (h : FastPointer.step σ.fast (.plain k i s) = some (f, address)) : f.tlb = σ.fast.tlb := by
  simp only [FastPointer.step] at h
  split at h
  · obtain ⟨⟨c, b⟩, -, hf⟩ := Option.map_eq_some_iff.1 h
    cases hf
    rfl
  · cases h
    rfl

theorem Matched.tlbIndex (hm : Matched σ) (hok : Ok σ (.tlbIndex k i s))
    (h : step σ (.tlbIndex k i s) = some σ') : Matched σ' := by
  simp only [step] at h
  split at h
  · cases h
  · next r hi =>
    obtain ⟨⟨f, address⟩, hstep, rfl⟩ := Option.map_eq_some_iff.1 h
    have hpages := tlb_pages hi hstep
    intro e
    dsimp only
    by_cases hmiss : misses σ k r i = true
    · rw [if_pos hmiss] at hpages ⊢
      obtain ⟨q, hq, hiff, hother⟩ := hpages
      by_cases he : e = entryFor u r i
      · rw [he, update_self, hq, hiff.2 (hok r hi hmiss)]
      · rw [update_of_ne he, hother e he]
        exact hm e
    · rw [if_neg hmiss] at hpages ⊢
      rw [hpages e]
      exact hm e

theorem Matched.step (hm : Matched σ) {op : Op u} (hok : Ok σ op)
    (h : PageHandles.step σ op = some σ') : Matched σ' := by
  cases op with
  | index k i s =>
    obtain ⟨⟨f, address⟩, hstep, rfl⟩ := Option.map_eq_some_iff.1 h
    intro e
    change (f.tlb e).page = _
    rw [plain_tlb hstep]
    exact hm e
  | memref k i s =>
    obtain ⟨⟨f, address⟩, hstep, rfl⟩ := Option.map_eq_some_iff.1 h
    intro e
    change (f.tlb e).page = _
    rw [plain_tlb hstep]
    exact hm e
  | renew k =>
    cases h
    exact hm
  | tlbIndex k i s => exact hm.tlbIndex hok h
  | tlbRenew k =>
    cases h
    intro e
    exact ((σ.fast.tlbPtr k).fini_page σ.fast.tlb e).1.trans (hm e)
  | tlbFini =>
    cases h
    exact fun _ => rfl

theorem Reach.matched (h : Reach u σ) : Matched σ := by
  induction h with
  | start c dirty => exact fun _ => rfl
  | step _ hok hstep ih => exact ih.step hok hstep

end steps

/-- A handle that `acquire_page` or `acquire_page_` hands back, over a cache in any state, names
the page of the element just when the page is in the slot with its own number. In runs whose
operations all meet the condition every handle, every DIRTY mark and every reference that the
TLB gives up is right, and the condition is exact at the next operation. -/
theorem handles_right_iff (u : Setup) :
    (∀ (c c' : Residence) (r s slot : Nat) (i : BitVec 64),
      c.acquirePage u.cache.nPages (u.page r i) s = some (c', slot) →
        ((⟨r, slot⟩ : Page) = u.page r i ↔ InPlace c (u.page r i) s)) ∧
    ∀ (σ σ' : State u) (op : Op u), Reach u σ → step σ op = some σ' → (Right σ op σ' ↔ Ok σ op) :=
  ⟨fun _ _ _ _ _ _ h => handle_eq_iff h, fun _ _ _ hσ h => hσ.matched.right_iff h⟩

def fresh : State (FastPointer.oneRange 0) :=
  start _ ⟨fun _ => none, fun _ => false, fun _ => 0, fun _ => 0⟩ fun _ => false

def first (i : BitVec 64) : Op (FastPointer.oneRange 0) := .index (FastPointer.firstPtr 0) i 0

/-- Page 0 comes into slot 0. -/
theorem first_page_marked : ∃ σ', step fresh (first 5) = some σ' ∧ Right fresh (first 5) σ' := by
  obtain ⟨σ', hs⟩ :=
    Option.isSome_iff_exists.1 (show (step fresh (first 5)).isSome = true by decide +kernel)
  refine ⟨σ', hs, ((handles_right_iff _).2 _ _ _ (.start _ _) hs).2 fun r hr => ?_⟩
  obtain rfl : 0 = r := Option.some.inj ((FastPointer.oneRange_find 0).symm.trans hr)
  rw [if_pos (by decide +kernel)]
  decide +kernel

/-- Page 1 comes into slot 0: the handle and the mark go to page 0. A page acquired by `memref`
is not marked by a write inside the window. -/
theorem handles_wrong :
    (¬∀ (u : Setup) (c : Residence) (dirty : Page → Bool) (op : Op u) (σ' : State u),
      step (start u c dirty) op = some σ' → Right (start u c dirty) op σ') ∧
    ¬∀ (u : Setup) (σ : State u), Reach u σ → ∀ (op : Op u) (σ' : State u),
      step σ op = some σ' → Right σ op σ' := by
  have hfind := FastPointer.oneRange_find 0
  constructor
  · intro hall
    have hsome : (step fresh (first 600)).isSome = true := by decide +kernel
    obtain ⟨σ', hs⟩ := Option.isSome_iff_exists.1 hsome
    have hok := (index_right_iff hs).1 (hall _ _ _ _ _ hs) 0 (by decide +kernel)
    rw [if_pos (by decide +kernel)] at hok
    exact absurd hok (by decide +kernel)
  · intro hall
    let acquired := (step fresh (.memref (FastPointer.firstPtr 0) 5 0)).getD fresh
    have hs : step fresh (.memref (FastPointer.firstPtr 0) 5 0) = some acquired := by
      exact (Option.some_get (by decide +kernel)).symm
    have hreach : Reach _ acquired := by
      refine .step (.start _ _) ?_ hs
      intro r hr _
      obtain rfl : 0 = r := Option.some.inj (hfind.symm.trans hr)
      decide +kernel
    have hsome : (step acquired (first 5)).isSome = true := by decide +kernel
    obtain ⟨σ', hs'⟩ := Option.isSome_iff_exists.1 hsome
    have hok := (index_right_iff hs').1 (hall _ _ hreach _ _ hs') 0 hfind
    rw [if_neg (by decide +kernel)] at hok
    exact absurd hok (by decide +kernel)

end Shaper.PageHandles
