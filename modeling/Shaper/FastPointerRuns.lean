import Mathlib.Data.Fintype.Sum
import Shaper.FastPointer

/-! Runs of accesses through fast pointers, and which of them go to the address that
`seq_read` uses. -/
namespace Shaper.FastPointer
open Function PageCache Lib.RefCount Lib.FlagWord TlbEntry
variable {u : Setup} {σ σ' : State u} {c c' : Residence} {t : Fin u.n → Entry} {r s slot : Nat}
  {i j address : BitVec 64}

def Act.elem : Act u → BitVec 64
  | .plain _ i _ | .tlb _ i _ | .tlbGroup _ i _ _ => i

def Hit (t : Fin u.n → Entry) (gid : BitVec 64) : Prop :=
  (t (u.entryOf gid)).page.isSome = true ∧ (t (u.entryOf gid)).globalId = gid

/-- A window that is kept is on the page of the element. -/
def Stays (σ : State u) (r : Nat) : Act u → Prop
  | .plain k i _ => outside (σ.ptr k).start (σ.ptr k).end_ i = false →
    InSlot u σ.cache r i (σ.ptr k).addr
  | .tlb k i _ => outside (σ.tlbPtr k).start (σ.tlbPtr k).end_ i = false →
    ∃ addr, (σ.tlbPtr k).addr = some addr ∧ InSlot u σ.cache r i addr
  | .tlbGroup _ _ _ _ => True

/-- A window that is set through the TLB is not set by a hit and not for another lane. -/
def Fills (σ : State u) (r : Nat) : Act u → Prop
  | .plain _ _ _ => True
  | .tlb k i _ => outside (σ.tlbPtr k).start (σ.tlbPtr k).end_ i = true →
    ¬Hit σ.tlb (u.cache.globalAddress (u.page r i))
  | .tlbGroup _ i rest _ => rest = [] ∧ ¬Hit σ.tlb (u.cache.globalAddress (u.page r i))

/-- A TLB entry that is replaced points to the page it has a reference on. -/
def Tidy (σ : State u) (r : Nat) : Act u → Prop
  | .plain _ _ _ => True
  | .tlb k i _ | .tlbGroup k i _ _ =>
    outside (σ.tlbPtr k).start (σ.tlbPtr k).end_ i = true → ∀ q,
      (σ.tlb (u.entryOf (u.cache.globalAddress (u.page r i)))).page = some q →
        q = u.cache.pageAt (σ.tlb (u.entryOf (u.cache.globalAddress (u.page r i)))).globalId

def CorrectTlb (σ' : State u) (r : Nat) (k : Fin u.m) (i address : BitVec 64) : Prop :=
  ∃ addr, (σ'.tlbPtr k).addr = some addr ∧
    Right u σ'.cache r i (σ'.tlbPtr k).start (σ'.tlbPtr k).end_ addr address

def Correct (σ' : State u) (r : Nat) (address : BitVec 64) : Act u → Prop
  | .plain k i _ =>
    Right u σ'.cache r i (σ'.ptr k).start (σ'.ptr k).end_ (σ'.ptr k).addr address
  | .tlb k i _ => CorrectTlb σ' r k i address
  | .tlbGroup k i rest _ => CorrectTlb σ' r k i address ∧ ∀ l ∈ rest,
    CorrectTlb σ' r l.1 l.2
      ((σ'.tlbPtr l.1).addr.getD 0+(l.2-(σ'.tlbPtr l.1).start)*u.sizeofT)

/-- Reached by accesses each of which was correct and met `P` before it. -/
inductive Reach (u : Setup) (P : State u → Nat → Act u → Prop) : State u → Prop where
  | init : Reach u P (init u)
  | step {σ σ' : State u} {a : Act u} {r : Nat} {address : BitVec 64} : Reach u P σ →
      u.findRange a.elem = some r → P σ r a → step σ a = some (σ', address) →
      Correct σ' r address a → Reach u P σ'

def PtrOk (u : Setup) (c : Residence) (b : Ptr) : Prop :=
  b.page = none ∧ b.start = 0 ∧ b.end_ = 0 ∨
    b.page.isSome = true ∧ ∃ r j, b.rangeId = some r ∧ WindowOk u c r j b.start b.end_ b.addr

def TlbPtrOk (c : Residence) (t : Fin u.n → Entry) (b : TlbPtr) : Prop :=
  b.addr = none ∧ b.start = 0 ∧ b.end_ = 0 ∨
    ∃ addr r j, b.addr = some addr ∧ b.range = some r ∧ WindowOk u c r j b.start b.end_ addr ∧
      b.gid = u.cache.globalAddress (u.page r j) ∧ Hit t b.gid

def EntryOk (e : Fin u.n) (x : Entry) : Prop :=
  x.page.isSome = true → ∃ r j, u.findRange j = some r ∧
    x.globalId = u.cache.globalAddress (u.page r j) ∧ u.entryOf x.globalId = e

structure Good (σ : State u) : Prop where
  pinned : Pinned u.cache.nPages σ.cache (held σ.ptr σ.tlb)
  users : Counted (fun e => (σ.tlb e).state) fun k => (σ.tlbPtr k).uses u
  ptr : ∀ k, PtrOk u σ.cache (σ.ptr k)
  tlbPtr : ∀ k, TlbPtrOk σ.cache σ.tlb (σ.tlbPtr k)
  entry : ∀ e, EntryOk e (σ.tlb e)

theorem holders_none {H R : Type*} [Fintype H] [DecidableEq R] (r : R) :
    holders (fun _ : H => none) r = ∅ := by
  ext h
  simp [mem_holders]

theorem good_init (u : Setup) : Good (init u) where
  pinned := by
    have hnone : held (init u).ptr (init u).tlb = fun _ => none := by
      funext h
      cases h <;> rfl
    rw [hnone]
    refine ⟨by simp [init], by simp [init], fun q => ?_, by simp⟩
    rw [holders_none]
    rfl
  users e := by
    have hnone : (fun k => ((init u).tlbPtr k).uses u) = fun _ => none := rfl
    rw [hnone, holders_none]
    rfl
  ptr k := .inl ⟨rfl, rfl, rfl⟩
  tlbPtr k := .inl ⟨rfl, rfl, rfl⟩
  entry e h := by cases h

theorem outside_empty (i : BitVec 64) : outside 0 0 i = true := by
  simp [outside, BitVec.le_def]

theorem WindowOk.keep {start end_ addr : BitVec 64} (hw : WindowOk u c r j start end_ addr)
    (hv : c'.valid (u.page r j) = true) (ho : c'.offset (u.page r j) = c.offset (u.page r j)) :
    WindowOk u c' r j start end_ addr :=
  ⟨hw.range, hw.agree, hw.start_eq, hw.end_eq, ho ▸ hw.addr_eq, hv, ho ▸ hw.slot_lt⟩

theorem WindowOk.held_ptr (hu : Fits u) {b : Ptr} (hp : b.page.isSome = true)
    (hr : b.rangeId = some r) (hw : WindowOk u c r j b.start b.end_ b.addr) :
    b.held u = some (u.page r j) := by
  obtain ⟨q, hq⟩ := Option.isSome_iff_exists.mp hp
  have hpage : u.page r b.start = u.page r j := by
    unfold Setup.page
    rw [hw.start_eq, getPage_start hu hw.range hw.agree]
  simp only [Ptr.held, hq, hr, hpage]

theorem Hit.held (hu : Fits u) {gid : BitVec 64} (hh : Hit t gid) (hj : u.findRange j = some r)
    (hg : gid = u.cache.globalAddress (u.page r j)) :
    (t (u.entryOf gid)).held u = some (u.page r j) := by
  obtain ⟨hp, hid⟩ := hh
  obtain ⟨q, hq⟩ := Option.isSome_iff_exists.mp hp
  simp only [Entry.held, hq, Option.map_some, hid]
  rw [hg, Cache.pageAt_globalAddress (hu.has j r hj)]

theorem held_update_ptr (ptr : Fin u.m → Ptr) (t : Fin u.n → Entry) (k : Fin u.m) (b : Ptr) :
    held (update ptr k b) t = update (held ptr t) (.inl k) (b.held u) := by
  unfold held
  rw [← Sum.elim_update_left]
  congr 1
  exact funext fun k' => apply_update (fun _ b => Ptr.held u b) ptr k b k'

theorem held_update_tlb (ptr : Fin u.m → Ptr) (t : Fin u.n → Entry) (e : Fin u.n) (x : Entry) :
    held ptr (update t e x) = update (held ptr t) (.inr e) (x.held u) := by
  unfold held
  rw [← Sum.elim_update_right]
  congr 1
  exact funext fun e' => apply_update (fun _ x => Entry.held u x) t e x e'

theorem card_holders_lt (u : Setup) : Fintype.card (Fin u.m ⊕ Fin u.n) < 2^32 := by
  rw [Fintype.card_sum, Fintype.card_fin, Fintype.card_fin]
  exact u.few.trans (by decide)

theorem Good.fini (h : Good σ) (k : Fin u.m) :
    Pinned u.cache.nPages ((σ.ptr k).fini u σ.cache) (update (held σ.ptr σ.tlb) (.inl k) none) ∧
      ((σ.ptr k).fini u σ.cache).offset = σ.cache.offset := by
  have hk : held σ.ptr σ.tlb (.inl k) = (σ.ptr k).held u := rfl
  unfold Ptr.held at hk
  unfold Ptr.fini
  split
  · next hp hr =>
    rw [hp, hr] at hk
    exact ⟨h.pinned.release hk, rfl⟩
  · next hno =>
    refine ⟨?_, rfl⟩
    split at hk
    · next hp hr => exact absurd hr (hno _ _ hp)
    · rw [← hk, update_eq_self]
      exact h.pinned

/-- Windows of pointers whose pages stay held and in their slots stay right. -/
theorem PtrOk.keep (hu : Fits u) {b : Ptr} (h : PtrOk u c b)
    (hkeep : ∀ q, b.held u = some q → c'.valid q = true ∧ c'.offset q = c.offset q) :
    PtrOk u c' b := by
  rcases h with hnone | ⟨hp, r, j, hr, hw⟩
  · exact .inl hnone
  · obtain ⟨hv, ho⟩ := hkeep _ (hw.held_ptr hu hp hr)
    exact .inr ⟨hp, r, j, hr, hw.keep hv ho⟩

theorem TlbPtrOk.keep (hu : Fits u) {t' : Fin u.n → Entry} {b : TlbPtr} (h : TlbPtrOk c t b)
    (ht : b.addr.isSome = true → (t' (u.entryOf b.gid)).page = (t (u.entryOf b.gid)).page ∧
      (t' (u.entryOf b.gid)).globalId = (t (u.entryOf b.gid)).globalId)
    (hkeep : b.addr.isSome = true → ∀ q, (t (u.entryOf b.gid)).held u = some q →
      c'.valid q = true ∧ c'.offset q = c.offset q) : TlbPtrOk c' t' b := by
  rcases h with hnone | ⟨addr, r, j, ha, hr, hw, hg, hh⟩
  · exact .inl hnone
  · have hsome : b.addr.isSome = true := by rw [ha]; rfl
    obtain ⟨hp, hid⟩ := ht hsome
    obtain ⟨hv, ho⟩ := hkeep hsome _ (hh.held hu hw.range hg)
    refine .inr ⟨addr, r, j, ha, hr, hw.keep hv ho, hg, ?_, ?_⟩
    · rw [hp]
      exact hh.1
    · rw [hid]
      exact hh.2

/-- `fini` of a TLB pointer touches the counts of the entries only. -/
theorem TlbPtr.fini_page (b : TlbPtr) (t : Fin u.n → Entry) (e : Fin u.n) :
    (b.fini t e).page = (t e).page ∧ (b.fini t e).globalId = (t e).globalId := by
  unfold TlbPtr.fini releaseEntry
  split
  · by_cases he : e = u.entryOf b.gid
    · subst he
      simp
    · simp [he]
  · exact ⟨rfl, rfl⟩

theorem held_fini (ptr : Fin u.m → Ptr) (b : TlbPtr) (t : Fin u.n → Entry) :
    held ptr (b.fini t) = held ptr t := by
  unfold held Entry.held
  congr 1
  funext e
  rw [(b.fini_page t e).1, (b.fini_page t e).2]

theorem Good.users_fini (h : Good σ) (k : Fin u.m) :
    Counted (fun e => ((σ.tlbPtr k).fini σ.tlb e).state)
      (update (fun k => (σ.tlbPtr k).uses u) k none) := by
  unfold TlbPtr.fini
  split
  · next hs =>
    obtain ⟨addr, ha⟩ := Option.isSome_iff_exists.mp hs
    have huse : (σ.tlbPtr k).uses u = some (u.entryOf (σ.tlbPtr k).gid) := by
      rw [TlbPtr.uses, ha]
      rfl
    have hdrop := h.users.drop (h := k) huse
    intro e
    rw [← hdrop e]
    unfold releaseEntry
    by_cases he : e = u.entryOf (σ.tlbPtr k).gid
    · subst he
      simp
    · simp [he]
  · next hs =>
    have hnone : (σ.tlbPtr k).uses u = none := by
      rw [TlbPtr.uses, Option.not_isSome_iff_eq_none.mp hs]
      rfl
    rw [← hnone, update_eq_self (f := fun k => (σ.tlbPtr k).uses u) k]
    exact h.users

theorem Good.users_take (h : Good σ) {k : Fin u.m} (ht : t = (σ.tlbPtr k).fini σ.tlb) {e : Fin u.n}
    {x : Entry} (hx : x.state = (t e).state+1#32) {b : TlbPtr} (hb : b.uses u = some e) :
    Counted (fun e' => (update t e x e').state) fun k' => (update σ.tlbPtr k b k').uses u := by
  have htake := (h.users_fini k).take e (update_self _ _ _)
  rw [update_idem, ← ht] at htake
  have hstate : (fun e' => (update t e x e').state) =
      update (fun e' => (t e').state) e ((t e).state+1#32) := by
    funext e'
    rw [apply_update (fun _ x => Entry.state x), hx]
  have huses : (fun k' => (update σ.tlbPtr k b k').uses u) =
      update (fun k' => (σ.tlbPtr k').uses u) k (some e) := by
    funext k'
    rw [apply_update (fun _ b => TlbPtr.uses u b), hb]
  rw [hstate, huses]
  exact htake

/-- A count of 0 in the 30 bits that `acquire` looks at: nobody uses the entry. -/
theorem unused_of_mask {f : Fin u.m → Option (Fin u.n)} {w : Fin u.n → BitVec 32} (hc : Counted w f)
    {e : Fin u.n} (hz : w e &&& CNT_MASK_ = 0#32) (k : Fin u.m) : f k ≠ some e := by
  intro hk
  have hpos : 0 < (holders f e).card := Finset.card_pos.mpr ⟨k, mem_holders.mpr hk⟩
  have hle : (holders f e).card ≤ u.m := (Finset.card_le_univ _).trans_eq (Fintype.card_fin _)
  have hfew := u.few
  have hlow := mask_eq_zero_iff.mp hz
  rw [hc e, low, BitVec.toNat_ofNat] at hlow
  omega

theorem acquireEntry_miss {t' : Fin u.n → Entry} {gid start end_ page start' end' addr : BitVec 64}
    {count : BitVec 32} (hmiss : ¬Hit t gid)
    (h : acquireEntry c t gid start end_ count r page s = some (c', t', start', end', addr)) :
    ∃ c₁ slot, ((t (u.entryOf gid)).page = none ∧ c₁ = c ∨
        ∃ q, (t (u.entryOf gid)).page = some q ∧ (t (u.entryOf gid)).state &&& CNT_MASK_ = 0#32 ∧
          c₁ = c.releasePage q) ∧
      c₁.acquirePage u.cache.nPages ⟨r, page.toNat⟩ s = some (c', slot) ∧
      t' = update t (u.entryOf gid) ⟨gid, (t (u.entryOf gid)).state+count, some ⟨r, slot⟩⟩ ∧
      start' = u.start page ∧ end' = u.start page+u.nElemsPerPage ∧ addr = u.slotAddr slot := by
  simp only [acquireEntry] at h
  split at h
  · next hnone =>
    obtain ⟨⟨c', slot⟩, hfound, hout⟩ := Option.map_eq_some_iff.mp h
    cases hout
    exact ⟨c, slot, .inl ⟨hnone, rfl⟩, hfound, rfl, rfl, rfl, rfl⟩
  · next q hq =>
    have hne : gid ≠ (t (u.entryOf gid)).globalId := fun hg => hmiss ⟨by rw [hq]; rfl, hg.symm⟩
    rw [if_neg hne] at h
    split at h
    · next hz =>
      obtain ⟨⟨c', slot⟩, hfound, hout⟩ := Option.map_eq_some_iff.mp h
      cases hout
      exact ⟨_, slot, .inr ⟨q, hq, hz, rfl⟩, hfound, rfl, rfl, rfl, rfl⟩
    · cases h

theorem plain_stays {k : Fin u.m} (ho : outside (σ.ptr k).start (σ.ptr k).end_ i = false)
    (hs : step σ (.plain k i s) = some (σ', address)) :
    σ' = σ ∧ address = (σ.ptr k).addr+(i-(σ.ptr k).start)*u.sizeofT := by
  simp only [step, ho, Bool.false_eq_true, if_false] at hs
  obtain ⟨rfl, rfl⟩ := Prod.mk.inj (Option.some.inj hs)
  exact ⟨rfl, rfl⟩

theorem tlb_stays {k : Fin u.m} (ho : outside (σ.tlbPtr k).start (σ.tlbPtr k).end_ i = false)
    (hs : step σ (.tlb k i s) = some (σ', address)) :
    σ' = σ ∧ address = (σ.tlbPtr k).addr.getD 0+(i-(σ.tlbPtr k).start)*u.sizeofT := by
  simp only [step, ho, Bool.false_eq_true, if_false] at hs
  obtain ⟨rfl, rfl⟩ := Prod.mk.inj (Option.some.inj hs)
  exact ⟨rfl, rfl⟩

section
variable {k : Fin u.m} (hi : u.findRange i = some r)
include hi

theorem plain_leaves (ho : outside (σ.ptr k).start (σ.ptr k).end_ i = true)
    (hs : step σ (.plain k i s) = some (σ', address)) : ∃ c' slot,
    ((σ.ptr k).fini u σ.cache).acquirePage u.cache.nPages (u.page r i) s = some (c', slot) ∧
    σ' = { σ with
      cache := c'
      ptr := update σ.ptr k ⟨some ⟨r, slot⟩, u.start (u.getPage r i),
        u.start (u.getPage r i)+u.nElemsPerPage, some r, u.slotAddr slot⟩ } ∧
    address = u.slotAddr slot+(i-u.start (u.getPage r i))*u.sizeofT := by
  simp only [step, ho, if_true, Ptr.updatePage, hi, Option.map_eq_some_iff, Prod.exists] at hs
  obtain ⟨c, b, ⟨c', slot, hacq, hb⟩, hs⟩ := hs
  obtain ⟨rfl, rfl⟩ := Prod.mk.inj hb
  obtain ⟨rfl, rfl⟩ := Prod.mk.inj hs
  exact ⟨c', slot, hacq, rfl, rfl⟩

/-- A TLB miss: the entry of the page is free or given up, and the pointer sets its
window. -/
theorem tlb_leaves (ho : outside (σ.tlbPtr k).start (σ.tlbPtr k).end_ i = true)
    (hmiss : ¬Hit σ.tlb (u.cache.globalAddress (u.page r i)))
    (hs : step σ (.tlb k i s) = some (σ', address)) {e : Fin u.n}
    (he : e = u.entryOf (u.cache.globalAddress (u.page r i))) {t : Fin u.n → Entry}
    (ht : t = (σ.tlbPtr k).fini σ.tlb) : ∃ c₁ c' slot,
    ((σ.tlb e).page = none ∧ c₁ = σ.cache ∨ ∃ q, (σ.tlb e).page = some q ∧
      (t e).state &&& CNT_MASK_ = 0#32 ∧ c₁ = σ.cache.releasePage q) ∧
    c₁.acquirePage u.cache.nPages (u.page r i) s = some (c', slot) ∧
    σ' = { σ with
      cache := c'
      tlb := update t e
        ⟨u.cache.globalAddress (u.page r i), (t e).state+1#32, some ⟨r, slot⟩⟩
      tlbPtr := update σ.tlbPtr k ⟨some r, u.getPage r i, u.start (u.getPage r i),
        u.start (u.getPage r i)+u.nElemsPerPage, u.cache.globalAddress (u.page r i),
        some (u.slotAddr slot)⟩ } ∧
    address = u.slotAddr slot+(i-u.start (u.getPage r i))*u.sizeofT := by
  subst he ht
  obtain ⟨hp, hid⟩ := (σ.tlbPtr k).fini_page σ.tlb (u.entryOf (u.cache.globalAddress (u.page r i)))
  simp only [step, ho, if_true, hi, Option.map_eq_some_iff, Prod.exists] at hs
  obtain ⟨c, t, start, end_, addr, hacq, hs⟩ := hs
  obtain ⟨rfl, rfl⟩ := Prod.mk.inj hs
  obtain ⟨c₁, slot, hfree, hfound, rfl, rfl, rfl, rfl⟩ :=
    acquireEntry_miss (by rwa [Hit, hp, hid]) hacq
  rw [hp] at hfree
  exact ⟨c₁, c, slot, hfree, hfound, rfl, rfl⟩

/-- A hit leaves the window where it was, which is not where the element is. -/
theorem tlb_hit_wrong (ho : outside (σ.tlbPtr k).start (σ.tlbPtr k).end_ i = true)
    (hhit : Hit σ.tlb (u.cache.globalAddress (u.page r i)))
    (hs : step σ (.tlb k i s) = some (σ', address)) : ¬Correct σ' r address (.tlb k i s) := by
  obtain ⟨hp, hid⟩ := (σ.tlbPtr k).fini_page σ.tlb (u.entryOf (u.cache.globalAddress (u.page r i)))
  simp only [step, ho, if_true, hi, acquireEntry, Option.map_eq_some_iff, Prod.exists] at hs
  obtain ⟨c, t, start, end_, addr, hacq, hs⟩ := hs
  obtain ⟨rfl, rfl⟩ := Prod.mk.inj hs
  split at hacq
  · next hnone =>
    have hsome := hhit.1
    rw [← hp, hnone] at hsome
    cases hsome
  · rw [hid, if_pos hhit.2.symm] at hacq
    cases hacq
    rintro ⟨_, -, hright⟩
    have hin := hright.inside
    simp only [update_self] at hin
    rw [ho] at hin
    cases hin

omit hi in
/-- A lane that is not the master of its group keeps the window its element is outside of. -/
theorem group_wrong {rest : List (Fin u.m × BitVec 64)} (hrest : rest ≠ [])
    (hs : step σ (.tlbGroup k i rest s) = some (σ', address)) :
    ¬Correct σ' r address (.tlbGroup k i rest s) := by
  obtain ⟨l, hl⟩ := List.exists_mem_of_ne_nil rest hrest
  rintro ⟨-, hall⟩
  obtain ⟨_, -, hright⟩ := hall l hl
  have hin := hright.inside
  simp only [step] at hs
  split at hs
  · cases hs
  · split at hs
    · next hgroup =>
      obtain ⟨hnodup, hout⟩ := sameMiss_iff.mp hgroup
      obtain ⟨out, -, hs⟩ := Option.map_eq_some_iff.mp hs
      obtain ⟨rfl, -⟩ := Prod.mk.inj hs
      have hmem : l.1 ∈ rest.map Prod.fst := List.mem_map_of_mem hl
      have hne : l.1 ≠ k := by
        rintro rfl
        exact (List.nodup_cons.mp hnodup).1 hmem
      simp only [if_neg hne, if_pos hmem] at hin
      rw [(hout l (List.mem_cons_of_mem _ hl)).1] at hin
      cases hin
    · cases hs

theorem group_alone (hs : step σ (.tlbGroup k i [] s) = some (σ', address)) :
    outside (σ.tlbPtr k).start (σ.tlbPtr k).end_ i = true ∧
      step σ (.tlb k i s) = some (σ', address) := by
  simp only [step, hi] at hs
  split at hs
  · next hgroup =>
    have ho := ((sameMiss_iff.mp hgroup).2 (k, i) List.mem_cons_self).1
    refine ⟨ho, ?_⟩
    simp only [step, ho, if_true, hi]
    rw [← hs]
    congr 1
    funext out
    refine Prod.ext ?_ rfl
    refine congrArg (State.mk _ _ _) (funext fun l => ?_)
    by_cases hl : l = k
    · subst hl
      simp
    · simp [hl]
  · cases hs
end

/-! Windows in runs of correct accesses: their bounds are those of a page, and pages of ranges
that agree are the only ones in the cache. -/

def Window (u : Setup) (start end_ : BitVec 64) : Prop :=
  start = 0 ∧ end_ = 0 ∨ ∃ r j, u.findRange j = some r ∧ Agree u r ∧
    start = u.start (u.getPage r j) ∧ end_ = start+u.nElemsPerPage

structure Windows (σ : State u) : Prop where
  ptr : ∀ k, Window u (σ.ptr k).start (σ.ptr k).end_
  tlbPtr : ∀ k, Window u (σ.tlbPtr k).start (σ.tlbPtr k).end_
  agree : ∀ q, σ.cache.valid q = true → Agree u q.range

theorem windows_init (u : Setup) : Windows (init u) :=
  ⟨fun _ => .inl ⟨rfl, rfl⟩, fun _ => .inl ⟨rfl, rfl⟩, fun q hq => by cases hq⟩

theorem Window.right_iff (hu : Fits u) {start end_ addr : BitVec 64} (hw : Window u start end_)
    (hagree : ∀ q, c.valid q = true → Agree u q.range) (hi : u.findRange i = some r)
    (hin : outside start end_ i = false) :
    Right u c r i start end_ addr (addr+(i-start)*u.sizeofT) ↔
      Agree u r ∧ InSlot u c r i addr := by
  constructor
  · exact fun h => ⟨hagree _ h.valid, h.valid, h.addr_eq⟩
  · rintro ⟨ha, hv, haddr⟩
    rcases hw with ⟨rfl, rfl⟩ | ⟨r₀, j, hj, ha₀, rfl, rfl⟩
    · rw [outside_empty] at hin
      cases hin
    · refine ⟨hv, ?_, hin, haddr⟩
      rw [← haddr, ← getPage_of_inside hu hj ha₀ hi ha hin, (offset_eq_iff u r i).mpr ha]

section
variable (hu : Fits u) (h : Windows σ)
include hu h

theorem Windows.tlb_right_iff {k : Fin u.m} (hi : u.findRange i = some r)
    (hs : FastPointer.step σ (.tlb k i s) = some (σ', address)) :
    Correct σ' r address (.tlb k i s) ↔
      Agree u r ∧ Stays σ r (.tlb k i s) ∧ Fills σ r (.tlb k i s) := by
  cases ho : outside (σ.tlbPtr k).start (σ.tlbPtr k).end_ i with
  | true =>
    simp only [Stays, Fills, ho, Bool.true_eq_false, false_implies, true_and, true_implies]
    by_cases hhit : Hit σ.tlb (u.cache.globalAddress (u.page r i))
    · have hwrong := tlb_hit_wrong hi ho hhit hs
      exact ⟨fun hc => absurd hc hwrong, fun hok => absurd hhit hok.2⟩
    · obtain ⟨c₁, c', slot, -, hacq, rfl, rfl⟩ := tlb_leaves hi ho hhit hs rfl rfl
      -- whatever was released for it, the page itself is in the cache when it is acquired
      obtain ⟨⟨hv, hslot⟩, -⟩ := acquirePage_spec hacq
      simp only [Correct, CorrectTlb, update_self, Option.some_inj, exists_eq_left',
        right_fresh_iff hu hi hv hslot, hhit, not_false_eq_true, and_true]
  | false =>
    obtain ⟨rfl, rfl⟩ := tlb_stays ho hs
    simp only [Stays, Fills, ho, Bool.false_eq_true, false_implies, and_true, true_implies]
    have hw := h.tlbPtr k
    constructor
    · rintro ⟨addr, haddr, hright⟩
      rw [haddr, Option.getD_some, hw.right_iff hu h.agree hi ho] at hright
      exact ⟨hright.1, addr, haddr, hright.2⟩
    · rintro ⟨ha, addr, haddr, hin⟩
      refine ⟨addr, haddr, ?_⟩
      rw [haddr, Option.getD_some, hw.right_iff hu h.agree hi ho]
      exact ⟨ha, hin⟩

theorem Windows.right_iff {a : Act u} (hi : u.findRange a.elem = some r)
    (hs : FastPointer.step σ a = some (σ', address)) :
    Correct σ' r address a ↔ Agree u r ∧ Stays σ r a ∧ Fills σ r a := by
  cases a with
  | plain k i s =>
    cases ho : outside (σ.ptr k).start (σ.ptr k).end_ i with
    | true =>
      obtain ⟨c', slot, hacq, rfl, rfl⟩ := plain_leaves hi ho hs
      obtain ⟨⟨hv, hslot⟩, -⟩ := acquirePage_spec hacq
      simp only [Stays, Fills, ho, Bool.true_eq_false, false_implies, and_true, Correct,
        update_self]
      exact right_fresh_iff hu hi hv hslot
    | false =>
      obtain ⟨rfl, rfl⟩ := plain_stays ho hs
      simp only [Stays, Fills, ho, true_implies, and_true]
      exact (h.ptr k).right_iff hu h.agree hi ho
  | tlb k i s => exact h.tlb_right_iff hu hi hs
  | tlbGroup k i rest s =>
    cases rest with
    | nil =>
      replace hi : u.findRange i = some r := hi
      obtain ⟨ho, hs⟩ := group_alone hi hs
      have hiff := h.tlb_right_iff hu hi hs
      simp only [Stays, Fills, ho, Bool.true_eq_false, false_implies, true_and,
        true_implies] at hiff ⊢
      simpa [Correct] using hiff
    | cons l rest =>
      refine iff_of_false (group_wrong (List.cons_ne_nil l rest) hs) fun hok => ?_
      exact absurd hok.2.2.1 (List.cons_ne_nil l rest)

omit hu in
/-- Windows after a page of a range that agrees has been acquired. -/
theorem Windows.acquire (hi : u.findRange i = some r) (ha : Agree u r) {c₁ : Residence}
    (hc : ∀ q, c₁.valid q = true → σ.cache.valid q = true)
    (hacq : c₁.acquirePage u.cache.nPages (u.page r i) s = some (c', slot)) :
    Window u (u.start (u.getPage r i)) (u.start (u.getPage r i)+u.nElemsPerPage) ∧
      ∀ q, c'.valid q = true → Agree u q.range := by
  refine ⟨.inr ⟨r, i, hi, ha, rfl, rfl⟩, fun q hq => ?_⟩
  rcases (acquirePage_spec hacq).2 q hq with rfl | hq
  · exact ha
  · exact h.agree q (hc q hq)

omit hu in
theorem Windows.tlb_step {k : Fin u.m} (hi : u.findRange i = some r) (ha : Agree u r)
    (hf : Fills σ r (.tlb k i s))
    (hs : FastPointer.step σ (.tlb k i s) = some (σ', address)) : Windows σ' := by
  cases ho : outside (σ.tlbPtr k).start (σ.tlbPtr k).end_ i with
  | true =>
    obtain ⟨c₁, c', slot, hfree, hacq, rfl, -⟩ := tlb_leaves hi ho (hf ho) hs rfl rfl
    have hc : ∀ q, c₁.valid q = true → σ.cache.valid q = true := by
      rcases hfree with ⟨-, rfl⟩ | ⟨_, -, -, rfl⟩
      · exact fun q hq => hq
      · exact fun q hq => hq
    obtain ⟨hw, hagree⟩ := h.acquire hi ha hc hacq
    refine ⟨h.ptr, fun k' => ?_, hagree⟩
    by_cases hk : k' = k
    · subst hk
      simpa only [update_self] using hw
    · simpa only [update_of_ne hk] using h.tlbPtr k'
  | false =>
    obtain ⟨rfl, -⟩ := tlb_stays ho hs
    exact h

omit hu in
theorem Windows.step {a : Act u} (hi : u.findRange a.elem = some r) (ha : Agree u r)
    (hf : Fills σ r a) (hs : FastPointer.step σ a = some (σ', address)) : Windows σ' := by
  cases a with
  | plain k i s =>
    cases ho : outside (σ.ptr k).start (σ.ptr k).end_ i with
    | true =>
      obtain ⟨c', slot, hacq, rfl, -⟩ := plain_leaves hi ho hs
      have hc : ((σ.ptr k).fini u σ.cache).valid = σ.cache.valid := by
        unfold Ptr.fini
        split <;> rfl
      obtain ⟨hw, hagree⟩ := h.acquire hi ha (fun q hq => hc ▸ hq) hacq
      refine ⟨fun k' => ?_, h.tlbPtr, hagree⟩
      by_cases hk : k' = k
      · subst hk
        simpa only [update_self] using hw
      · simpa only [update_of_ne hk] using h.ptr k'
    | false =>
      obtain ⟨rfl, -⟩ := plain_stays ho hs
      exact h
  | tlb k i s => exact h.tlb_step hi ha hf hs
  | tlbGroup k i rest s =>
    obtain ⟨rfl, hmiss⟩ := hf
    obtain ⟨-, hs⟩ := group_alone hi hs
    exact h.tlb_step hi ha (fun _ => hmiss) hs
end

theorem Reach.windows {P : State u → Nat → Act u → Prop} (hu : Fits u) (h : Reach u P σ) :
    Windows σ := by
  induction h with
  | init => exact windows_init u
  | step _ hi _ hs hc ih =>
    obtain ⟨ha, -, hf⟩ := (ih.right_iff hu hi hs).mp hc
    exact ih.step hi ha hf hs

/-! Runs that replace TLB entries only which point to their page: pages with a pointer on them
stay in their slots. -/

section
variable (hu : Fits u) (h : Good σ) {k : Fin u.m} (hi : u.findRange i = some r) (ha : Agree u r)
include hu h hi ha

theorem Good.plain_update (ho : outside (σ.ptr k).start (σ.ptr k).end_ i = true)
    (hs : step σ (.plain k i s) = some (σ', address)) : Good σ' := by
  obtain ⟨c', slot, hacq, rfl, -⟩ := plain_leaves hi ho hs
  obtain ⟨hpin, hoff⟩ := h.fini k
  obtain ⟨hpin', hv, hslot, hkeep⟩ := hpin.exchange (card_holders_lt u) hacq
  rw [hoff] at hkeep
  have hw : WindowOk u c' r i (u.start (u.getPage r i))
      (u.start (u.getPage r i)+u.nElemsPerPage) (u.slotAddr slot) :=
    ⟨hi, ha, rfl, rfl, by rw [hslot], hv, (hpin'.placed _ hv).2⟩
  refine ⟨?_, h.users, fun k' => ?_, fun k' => ?_, h.entry⟩
  · rw [held_update_ptr, hw.held_ptr hu rfl rfl]
    exact hpin'
  · by_cases hk : k' = k
    · subst hk
      simp only [update_self]
      exact .inr ⟨rfl, r, i, rfl, hw⟩
    · simp only [update_of_ne hk]
      exact (h.ptr k').keep hu (hkeep (.inl k') (by simpa using hk))
  · exact (h.tlbPtr k').keep hu (fun _ => ⟨rfl, rfl⟩) fun _ => hkeep (.inr _) (by simp)

theorem Good.tlb_fill {t : Fin u.n → Entry} (ht : t = (σ.tlbPtr k).fini σ.tlb) {e : Fin u.n}
    (he : e = u.entryOf (u.cache.globalAddress (u.page r i))) {c₁ : Residence}
    (hpin : Pinned u.cache.nPages c₁ (update (held σ.ptr σ.tlb) (.inr e) none))
    (hoff : c₁.offset = σ.cache.offset)
    (hfree : ∀ k', k' ≠ k → (σ.tlbPtr k').uses u ≠ some e)
    (hacq : c₁.acquirePage u.cache.nPages (u.page r i) s = some (c', slot)) {x : Entry}
    (hx : x = ⟨u.cache.globalAddress (u.page r i), (t e).state+1#32, some ⟨r, slot⟩⟩) {b : TlbPtr}
    (hb : b = ⟨some r, u.getPage r i, u.start (u.getPage r i),
      u.start (u.getPage r i)+u.nElemsPerPage, u.cache.globalAddress (u.page r i),
      some (u.slotAddr slot)⟩)
    (hσ : σ' = { σ with cache := c', tlb := update t e x, tlbPtr := update σ.tlbPtr k b }) :
    Good σ' := by
  obtain ⟨hpin', hv, hslot, hkeep⟩ := hpin.exchange (card_holders_lt u) hacq
  rw [hoff] at hkeep
  subst hσ hb
  have hw : WindowOk u c' r i (u.start (u.getPage r i))
      (u.start (u.getPage r i)+u.nElemsPerPage) (u.slotAddr slot) :=
    ⟨hi, ha, rfl, rfl, by rw [hslot], hv, (hpin'.placed _ hv).2⟩
  refine ⟨?_, ?_, fun k' => ?_, fun k' => ?_, fun e' => ?_⟩
  · have hheld : x.held u = some (u.page r i) := by
      rw [hx, Entry.held, Option.map_some, Cache.pageAt_globalAddress (hu.has i r hi)]
    rw [held_update_tlb, ht, held_fini, hheld]
    exact hpin'
  · refine h.users_take ht (congrArg Entry.state hx) ?_
    rw [he]
    rfl
  · exact (h.ptr k').keep hu (hkeep (.inl k') (by simp))
  · by_cases hk : k' = k
    · subst hk
      simp only [update_self]
      refine .inr ⟨_, r, i, rfl, rfl, hw, rfl, ?_⟩
      simp [Hit, ← he, hx]
    · simp only [update_of_ne hk]
      have hne : (σ.tlbPtr k').addr.isSome = true → u.entryOf (σ.tlbPtr k').gid ≠ e := by
        intro hs hee
        obtain ⟨addr, ha⟩ := Option.isSome_iff_exists.mp hs
        refine hfree k' hk ?_
        rw [TlbPtr.uses, ha, Option.map_some, hee]
      refine (h.tlbPtr k').keep hu (fun hs => ?_) fun hs => hkeep (.inr _) (by simpa using hne hs)
      simp only [update_of_ne (hne hs), ht]
      exact TlbPtr.fini_page _ _ _
  · by_cases hee : e' = e
    · subst hee
      simp only [update_self]
      intro _
      exact ⟨r, i, hi, by rw [hx], by rw [hx, he]⟩
    · simp only [update_of_ne hee, ht, EntryOk]
      obtain ⟨hp, hid⟩ := (σ.tlbPtr k).fini_page σ.tlb e'
      rw [hp, hid]
      exact h.entry e'

theorem Good.tlb_miss (ho : outside (σ.tlbPtr k).start (σ.tlbPtr k).end_ i = true)
    (hmiss : ¬Hit σ.tlb (u.cache.globalAddress (u.page r i))) (htidy : Tidy σ r (.tlb k i s))
    (hs : step σ (.tlb k i s) = some (σ', address)) : Good σ' := by
  have hheld : held σ.ptr σ.tlb (.inr (u.entryOf (u.cache.globalAddress (u.page r i)))) =
      (σ.tlb (u.entryOf (u.cache.globalAddress (u.page r i)))).held u := rfl
  obtain ⟨c₁, c', slot, hfree, hacq, hσ, -⟩ := tlb_leaves hi ho hmiss hs rfl rfl
  rcases hfree with ⟨hnone, rfl⟩ | ⟨q, hq, hz, rfl⟩
  · rw [Entry.held, hnone, Option.map_none] at hheld
    have hpin : Pinned u.cache.nPages σ.cache (update (held σ.ptr σ.tlb)
        (.inr (u.entryOf (u.cache.globalAddress (u.page r i)))) none) := by
      rw [← hheld, update_eq_self]
      exact h.pinned
    refine h.tlb_fill hu hi ha rfl rfl hpin rfl (fun k' _ huse => ?_) hacq rfl rfl hσ
    -- whoever uses the entry has found a page in it
    rcases h.tlbPtr k' with ⟨ha, -⟩ | ⟨addr, r', j, ha, -, -, -, hhit⟩
    · rw [TlbPtr.uses, ha] at huse
      cases huse
    · rw [TlbPtr.uses, ha, Option.map_some, Option.some_inj] at huse
      have hsome := hhit.1
      rw [huse, hnone] at hsome
      cases hsome
  · rw [Entry.held, hq, Option.map_some, ← htidy ho q hq] at hheld
    refine h.tlb_fill hu hi ha rfl rfl (h.pinned.release hheld) rfl (fun k' hk => ?_) hacq rfl rfl
      hσ
    have hno := unused_of_mask (h.users_fini k) hz k'
    rwa [update_of_ne hk] at hno
end

section
variable (hu : Fits u) (h : Good σ) {a : Act u} (hi : u.findRange a.elem = some r)
  (ha : Agree u r)
include hu h hi ha

theorem Good.step (hf : Fills σ r a) (ht : Tidy σ r a)
    (hs : FastPointer.step σ a = some (σ', address)) : Good σ' := by
  cases a with
  | plain k i s =>
    cases ho : outside (σ.ptr k).start (σ.ptr k).end_ i with
    | true => exact h.plain_update hu hi ha ho hs
    | false =>
      obtain ⟨rfl, -⟩ := plain_stays ho hs
      exact h
  | tlb k i s =>
    cases ho : outside (σ.tlbPtr k).start (σ.tlbPtr k).end_ i with
    | true => exact h.tlb_miss hu hi ha ho (hf ho) ht hs
    | false =>
      obtain ⟨rfl, -⟩ := tlb_stays ho hs
      exact h
  | tlbGroup k i rest s =>
    obtain ⟨rfl, hmiss⟩ := hf
    obtain ⟨ho, hs⟩ := group_alone hi hs
    exact h.tlb_miss hu hi ha ho hmiss ht hs
end

theorem Reach.good (hu : Fits u) (h : Reach u Tidy σ) : Good σ := by
  induction h with
  | init => exact good_init u
  | step hreach hi ht hs hc ih =>
    obtain ⟨ha, -, hf⟩ := ((hreach.windows hu).right_iff hu hi hs).mp hc
    exact ih.step hu hi ha hf ht hs

def rangeOf (count offset : BitVec 64) : Setup where
  cache := ⟨2, 1, by decide⟩
  pageSizeLog := 12
  pageSizeLog_lt := by decide
  sizeofT := 8
  nElemsPerPage := 512
  elems_mul := by decide
  range _ := ⟨0, count, offset⟩
  arr := [0]
  slotAddr s := BitVec.ofNat 64 (4096*s)
  slotAddr_inj := by decide
  n := 3
  n_pos := by decide
  m := 2
  few := by decide

theorem rangeOf_find {count : BitVec 64} (offset : BitVec 64) (hi : i < count) :
    (rangeOf count offset).findRange i = some 0 := by
  have h : List.find? (fun _ : Nat => (0#64 ≤ i && i < count)) [0] = some 0 := by
    simp [hi]
  exact h

def oneRange (offset : BitVec 64) : Setup := rangeOf 1024 offset

theorem oneRange_find (offset : BitVec 64) : (oneRange offset).findRange 5 = some 0 :=
  rangeOf_find offset (by decide)

def firstPtr (offset : BitVec 64) : Fin (oneRange offset).m := (0 : Fin 2)
def after (σ : State u) (a : Act u) : State u := ((step σ a).map Prod.fst).getD σ

theorem step_after {a : Act u} (h : (step σ a).isSome = true) :
    ∃ address, step σ a = some (after σ a, address) := by
  obtain ⟨⟨σ', address⟩, hs⟩ := Option.isSome_iff_exists.mp h
  refine ⟨address, ?_⟩
  rw [after, hs]
  rfl

theorem Reach.after {P : State u → Nat → Act u → Prop} (hu : Fits u) (h : Reach u P σ) {a : Act u}
    (hi : u.findRange a.elem = some r) (hp : P σ r a) (hsome : (FastPointer.step σ a).isSome = true)
    (hok : Agree u r ∧ Stays σ r a ∧ Fills σ r a) : Reach u P (after σ a) := by
  obtain ⟨address, hs⟩ := step_after hsome
  exact h.step hi hp hs (((h.windows hu).right_iff hu hi hs).mpr hok)

def fourPages : Setup := rangeOf 2048 0
end Shaper.FastPointer
