import Mathlib.Data.BitVec
import Mathlib.Tactic.LinearCombination
import Mathlib.Tactic.Ring
import Shaper.Lib.RefCount
import Shaper.PageSlots
import Shaper.TlbEntry

/-! The fast paths to an array: `bam_ptr` and `bam_ptr_tlb` keep the window of
elements of the page they hold. Accesses are made one after another by any number
of pointers that share an array and a TLB. -/
namespace Shaper.FastPointer
open Function PageCache Lib.RefCount TlbEntry

structure Range where
  indexStart : BitVec 64
  count : BitVec 64
  pageStartOffset : BitVec 64

/-- An array of the ranges `arr`, a TLB of `n` entries and `m` pointers of each kind.
`slotAddr` is `get_cache_page_addr`. -/
structure Setup where
  cache : Cache
  pageSizeLog : Nat
  pageSizeLog_lt : pageSizeLog < 64
  sizeofT : BitVec 64
  nElemsPerPage : BitVec 64
  elems_mul : nElemsPerPage.toNat*sizeofT.toNat = 2^pageSizeLog
  range : Nat → Range
  arr : List Nat
  slotAddr : Nat → BitVec 64
  slotAddr_inj : ∀ s < cache.nPages, ∀ t < cache.nPages, slotAddr s = slotAddr t → s = t
  n : Nat
  n_pos : 0 < n
  m : Nat
  few : m+n < 2^30

namespace Setup
variable (u : Setup)

def bytePos (r : Nat) (i : BitVec 64) : BitVec 64 :=
  (i-(u.range r).indexStart)*u.sizeofT+(u.range r).pageStartOffset
def getPage (r : Nat) (i : BitVec 64) : BitVec 64 := u.bytePos r i >>> u.pageSizeLog
def getSubindex (r : Nat) (i : BitVec 64) : BitVec 64 :=
  u.bytePos r i &&& BitVec.ofNat 64 (2^u.pageSizeLog-1)
def findRange (i : BitVec 64) : Option Nat :=
  u.arr.find? fun r => (u.range r).indexStart ≤ i && i < (u.range r).count

def page (r : Nat) (i : BitVec 64) : Page := ⟨r, (u.getPage r i).toNat⟩

/-- `start` as `acquire_page` and `acquire_page_` set it. -/
def start (page : BitVec 64) : BitVec 64 := u.nElemsPerPage*page

def entryOf (gid : BitVec 64) : Fin u.n := ⟨gid.toNat%u.n, Nat.mod_lt _ u.n_pos⟩
end Setup

structure Residence where
  holder : Nat → Option Page
  valid : Page → Bool
  offset : Page → Nat
  cnt : Page → BitVec 32

namespace Residence
variable (c : Residence)
def addRef (p : Page) : Residence := { c with cnt := update c.cnt p (c.cnt p+1#32) }
def releasePage (p : Page) : Residence := { c with cnt := update c.cnt p (c.cnt p-1#32) }
def evict (q : Page) : Residence := { c with valid := update c.valid q false }
def place (p : Page) (s : Nat) : Residence :=
  { c with
    holder := update c.holder s (some p)
    valid := update c.valid p true
    offset := update c.offset p s }

/-- `range_d_t::acquire_page` as a whole; `s` is the slot that `find_slot` finds for a
page that is not in the cache. Only a page without references is evicted. -/
def acquirePage (nPages : Nat) (p : Page) (s : Nat) : Option (Residence × Nat) :=
  let c := c.addRef p
  if c.valid p then some (c, c.offset p)
  else if nPages ≤ s then none
  else match c.holder s with
    | none => some (c.place p s, s)
    | some q => if c.cnt q = 0#32 then some ((c.evict q).place p s, s) else none
end Residence

structure Ptr where
  page : Option Page
  start : BitVec 64
  end_ : BitVec 64
  rangeId : Option Nat
  addr : BitVec 64

structure TlbPtr where
  range : Option Nat
  page : BitVec 64
  start : BitVec 64
  end_ : BitVec 64
  gid : BitVec 64
  addr : Option (BitVec 64)

structure Entry where
  globalId : BitVec 64
  state : BitVec 32
  page : Option Page

structure State (u : Setup) where
  cache : Residence
  tlb : Fin u.n → Entry
  ptr : Fin u.m → Ptr
  tlbPtr : Fin u.m → TlbPtr

variable {u : Setup}

def Ptr.fini (u : Setup) (b : Ptr) (c : Residence) : Residence :=
  match b.page, b.rangeId with
  | some _, some r => c.releasePage (u.page r b.start)
  | _, _ => c

def Ptr.updatePage (b : Ptr) (c : Residence) (i : BitVec 64) (s : Nat) : Option (Residence × Ptr) :=
  match u.findRange i with
  | none => none
  | some r =>
    let start := u.start (u.getPage r i)
    ((b.fini u c).acquirePage u.cache.nPages (u.page r i) s).map fun (c, slot) =>
      (c, ⟨some ⟨r, slot⟩, start, start+u.nElemsPerPage, some r, u.slotAddr slot⟩)

def releaseEntry (t : Fin u.n → Entry) (gid : BitVec 64) : Fin u.n → Entry :=
  let e := t (u.entryOf gid)
  update t (u.entryOf gid) { e with state := e.state-1#32 }

def TlbPtr.fini (b : TlbPtr) (t : Fin u.n → Entry) : Fin u.n → Entry :=
  if b.addr.isSome then releaseEntry t b.gid else t

/-- `tlb::acquire` for the master of `count` lanes that ask for one page: its window only
changes on a miss. -/
def acquireEntry (c : Residence) (t : Fin u.n → Entry) (gid start end_ : BitVec 64)
    (count : BitVec 32) (r : Nat) (page : BitVec 64) (s : Nat) :
    Option (Residence × (Fin u.n → Entry) × BitVec 64 × BitVec 64 × BitVec 64) :=
  let e := t (u.entryOf gid)
  let miss := fun c : Residence =>
    (c.acquirePage u.cache.nPages ⟨r, page.toNat⟩ s).map fun (c, slot) =>
      (c, update t (u.entryOf gid) ⟨gid, e.state+count, some ⟨r, slot⟩⟩,
        u.start page, u.start page+u.nElemsPerPage, u.slotAddr slot)
  match e.page with
  | none => miss c
  | some q =>
    if gid = e.globalId then
      some (c, update t (u.entryOf gid) { e with state := e.state+count }, start, end_,
        u.slotAddr (c.offset q))
    else if e.state &&& CNT_MASK_ = 0#32 then miss (c.releasePage q)
    else none

inductive Act (u : Setup) where
  | plain (k : Fin u.m) (i : BitVec 64) (s : Nat)
  | tlb (k : Fin u.m) (i : BitVec 64) (s : Nat)
  | tlbGroup (k : Fin u.m) (i : BitVec 64) (rest : List (Fin u.m × BitVec 64)) (s : Nat)

def outside (start end_ i : BitVec 64) : Bool := i < start || end_ ≤ i

def sameMiss (σ : State u) (r : Nat) (page : BitVec 64) (lanes : List (Fin u.m × BitVec 64)) :
    Bool :=
  decide (lanes.map Prod.fst).Nodup && lanes.all fun l =>
    outside (σ.tlbPtr l.1).start (σ.tlbPtr l.1).end_ l.2 &&
      (u.findRange l.2 == some r && u.getPage r l.2 == page)

theorem sameMiss_iff {σ : State u} {r : Nat} {page : BitVec 64}
    {lanes : List (Fin u.m × BitVec 64)} :
    sameMiss σ r page lanes = true ↔ (lanes.map Prod.fst).Nodup ∧ ∀ l ∈ lanes,
      outside (σ.tlbPtr l.1).start (σ.tlbPtr l.1).end_ l.2 = true ∧
        u.findRange l.2 = some r ∧ u.getPage r l.2 = page := by
  simp [sameMiss]

def step (σ : State u) : Act u → Option (State u × BitVec 64)
  | .plain k i s =>
    let b := σ.ptr k
    if outside b.start b.end_ i then
      (Ptr.updatePage (u := u) b σ.cache i s).map fun (c, b) =>
        ({ σ with cache := c, ptr := update σ.ptr k b }, b.addr+(i-b.start)*u.sizeofT)
    else some (σ, b.addr+(i-b.start)*u.sizeofT)
  | .tlb k i s =>
    let b := σ.tlbPtr k
    if outside b.start b.end_ i then
      match u.findRange i with
      | none => none
      | some r =>
        let page := u.getPage r i
        let gid := u.cache.globalAddress (u.page r i)
        (acquireEntry σ.cache (b.fini σ.tlb) gid b.start b.end_ 1#32 r page s).map
          fun (c, t, start, end_, addr) =>
            ({ σ with
              cache := c
              tlb := t
              tlbPtr := update σ.tlbPtr k ⟨some r, page, start, end_, gid, some addr⟩ },
              addr+(i-start)*u.sizeofT)
    else some (σ, b.addr.getD 0+(i-b.start)*u.sizeofT)
  -- lanes of a warp that leave their windows for one page; the first of them is the master
  | .tlbGroup k i rest s =>
    let lanes := (k, i) :: rest
    match u.findRange i with
    | none => none
    | some r =>
      let page := u.getPage r i
      let gid := u.cache.globalAddress (u.page r i)
      if sameMiss σ r page lanes then
        let b := σ.tlbPtr k
        let t := lanes.foldl (fun t l => (σ.tlbPtr l.1).fini t) σ.tlb
        (acquireEntry σ.cache t gid b.start b.end_ (BitVec.ofNat 32 lanes.length) r page s).map
          fun (c, t, start, end_, addr) =>
            ({ σ with
              cache := c
              tlb := t
              tlbPtr := fun l =>
                if l = k then ⟨some r, page, start, end_, gid, some addr⟩
                else if l ∈ rest.map Prod.fst then
                  { σ.tlbPtr l with range := some r, page := page, gid := gid, addr := some addr }
                else σ.tlbPtr l },
              addr+(i-start)*u.sizeofT)
      else none

def init (u : Setup) : State u where
  cache := ⟨fun _ => none, fun _ => false, fun _ => 0, fun _ => 0⟩
  tlb _ := ⟨0, 0, none⟩
  ptr _ := ⟨none, 0, 0, none, 0⟩
  tlbPtr _ := ⟨none, 0, 0, 0, 0, none⟩

structure Fits (u : Setup) : Prop where
  has : ∀ i r, u.findRange i = some r → u.cache.Has (u.page r i)
  bytes : ∀ i r, u.findRange i = some r → i.toNat*u.sizeofT.toNat+2^u.pageSizeLog < 2^64

theorem Fits.bytes_lt {u : Setup} (hu : Fits u) {i : BitVec 64} {r : Nat}
    (hr : u.findRange i = some r) :
    i.toNat*u.sizeofT.toNat < 2^64 := Nat.lt_of_le_of_lt (Nat.le_add_right _ _) (hu.bytes i r hr)

def Agree (u : Setup) (r : Nat) : Prop :=
  (u.range r).indexStart*u.sizeofT = (u.range r).pageStartOffset

instance (r : Nat) : Decidable (Agree u r) := by
  unfold Agree
  infer_instance

variable {r : Nat} {i j : BitVec 64}

theorem elems_mul_bv (u : Setup) :
    u.nElemsPerPage*u.sizeofT = BitVec.ofNat 64 (2^u.pageSizeLog) := by
  rw [← u.elems_mul, BitVec.ofNat_mul, BitVec.ofNat_toNat, BitVec.ofNat_toNat, BitVec.setWidth_eq,
    BitVec.setWidth_eq]

theorem toNat_mask (u : Setup) :
    (BitVec.ofNat 64 (2^u.pageSizeLog-1)).toNat = 2^u.pageSizeLog-1 := by
  have hpow : 2^u.pageSizeLog < 2^64 := Nat.pow_lt_pow_right (by decide) u.pageSizeLog_lt
  rw [BitVec.toNat_ofNat, Nat.mod_eq_of_lt (by omega)]

theorem bytePos_eq (u : Setup) (r : Nat) (i : BitVec 64) :
    u.bytePos r i = u.start (u.getPage r i)*u.sizeofT+u.getSubindex r i := by
  have hstart : u.start (u.getPage r i)*u.sizeofT =
      u.getPage r i*BitVec.ofNat 64 (2^u.pageSizeLog) := by
    rw [← elems_mul_bv]
    unfold Setup.start
    ring
  have hdiv := Nat.div_add_mod' (u.bytePos r i).toNat (2^u.pageSizeLog)
  have hpow : 2^u.pageSizeLog < 2^64 := Nat.pow_lt_pow_right (by decide) u.pageSizeLog_lt
  rw [hstart, ← BitVec.toNat_inj, BitVec.toNat_add, BitVec.toNat_mul]
  unfold Setup.getPage Setup.getSubindex
  rw [BitVec.toNat_ushiftRight, BitVec.toNat_and, toNat_mask, Nat.and_two_pow_sub_one_eq_mod,
    Nat.shiftRight_eq_div_pow, BitVec.toNat_ofNat, Nat.mod_eq_of_lt hpow, Nat.mod_add_mod, hdiv,
    Nat.mod_eq_of_lt (u.bytePos r i).isLt]

/-- The pointer's offset into the page is the element's just when the range agrees. -/
theorem offset_eq_iff (u : Setup) (r : Nat) (i : BitVec 64) :
    (i-u.start (u.getPage r i))*u.sizeofT = u.getSubindex r i ↔ Agree u r := by
  have hpos := bytePos_eq u r i
  unfold Setup.bytePos at hpos
  constructor
  · intro h
    unfold Agree
    linear_combination h-hpos
  · intro h
    unfold Agree at h
    linear_combination h+hpos

theorem elems_pos (u : Setup) : 0 < u.nElemsPerPage.toNat ∧ 0 < u.sizeofT.toNat := by
  have hpos := Nat.two_pow_pos u.pageSizeLog
  rw [← u.elems_mul] at hpos
  exact ⟨Nat.pos_of_mul_pos_right hpos, Nat.pos_of_mul_pos_left hpos⟩

/-- In a range that agrees the byte position is the element's number in bytes. -/
theorem Agree.bytePos (ha : Agree u r) (i : BitVec 64) : u.bytePos r i = i*u.sizeofT := by
  unfold Agree at ha
  unfold Setup.bytePos
  linear_combination -ha

theorem Agree.getPage_toNat (ha : Agree u r) (hi : i.toNat*u.sizeofT.toNat < 2^64) :
    (u.getPage r i).toNat = i.toNat/u.nElemsPerPage.toNat := by
  unfold Setup.getPage
  rw [ha.bytePos, BitVec.toNat_ushiftRight, Nat.shiftRight_eq_div_pow, BitVec.toNat_mul,
    Nat.mod_eq_of_lt hi, ← u.elems_mul, Nat.mul_div_mul_right _ _ (elems_pos u).2]

section
variable (hu : Fits u) (hr : u.findRange i = some r) (ha : Agree u r)
include hu hr ha

theorem window_toNat : (u.start (u.getPage r i)).toNat =
      u.nElemsPerPage.toNat*(i.toNat/u.nElemsPerPage.toNat) ∧
    (u.start (u.getPage r i)+u.nElemsPerPage).toNat =
      u.nElemsPerPage.toNat*(i.toNat/u.nElemsPerPage.toNat)+u.nElemsPerPage.toNat := by
  obtain ⟨hn, hs⟩ := elems_pos u
  have hb := hu.bytes i r hr
  have hdiv := Nat.mul_div_le i.toNat u.nElemsPerPage.toNat
  have hroom :
    u.nElemsPerPage.toNat*(i.toNat/u.nElemsPerPage.toNat)+u.nElemsPerPage.toNat < 2^64 := by
    have h1 : i.toNat+u.nElemsPerPage.toNat ≤ (i.toNat+u.nElemsPerPage.toNat)*u.sizeofT.toNat :=
      Nat.le_mul_of_pos_right _ hs
    rw [Nat.add_mul, u.elems_mul] at h1
    omega
  have hstart : (u.start (u.getPage r i)).toNat =
      u.nElemsPerPage.toNat*(i.toNat/u.nElemsPerPage.toNat) := by
    unfold Setup.start
    rw [BitVec.toNat_mul, ha.getPage_toNat (hu.bytes_lt hr), Nat.mod_eq_of_lt (by omega)]
  refine ⟨hstart, ?_⟩
  rw [BitVec.toNat_add, hstart, Nat.mod_eq_of_lt hroom]

theorem inside_window :
    outside (u.start (u.getPage r i)) (u.start (u.getPage r i)+u.nElemsPerPage) i = false := by
  obtain ⟨hstart, hend⟩ := window_toNat hu hr ha
  have hmod := Nat.mod_lt i.toNat (elems_pos u).1
  have hdiv := Nat.div_add_mod i.toNat u.nElemsPerPage.toNat
  simp only [outside, Bool.or_eq_false_iff, decide_eq_false_iff_not,
    BitVec.le_def, BitVec.lt_def]
  omega

theorem getPage_of_inside {r' : Nat} (hj : u.findRange j = some r') (ha' : Agree u r')
    (hw : outside (u.start (u.getPage r i)) (u.start (u.getPage r i)+u.nElemsPerPage) j = false) :
    u.getPage r' j = u.getPage r i := by
  obtain ⟨hstart, hend⟩ := window_toNat hu hr ha
  simp only [outside, Bool.or_eq_false_iff, decide_eq_false_iff_not,
    BitVec.le_def, BitVec.lt_def] at hw
  rw [← BitVec.toNat_inj, ha'.getPage_toNat (hu.bytes_lt hj), ha.getPage_toNat (hu.bytes_lt hr)]
  apply Nat.div_eq_of_lt_le
  · rw [Nat.mul_comm]
    omega
  · rw [Nat.succ_mul, Nat.mul_comm]
    omega

theorem getPage_start : u.getPage r (u.start (u.getPage r i)) = u.getPage r i := by
  obtain ⟨hstart, -⟩ := window_toNat hu hr ha
  have hb := hu.bytes_lt hr
  have hdiv := Nat.mul_div_le i.toNat u.nElemsPerPage.toNat
  have hle : (u.start (u.getPage r i)).toNat*u.sizeofT.toNat ≤ i.toNat*u.sizeofT.toNat :=
    Nat.mul_le_mul_right _ (by omega)
  rw [← BitVec.toNat_inj, ha.getPage_toNat (by omega), ha.getPage_toNat (by omega), hstart,
    Nat.mul_div_cancel_left _ (elems_pos u).1]
end

section
variable {H : Type*} [Fintype H] [DecidableEq H] {f : H → Option Page} {h : H} {c c' : Residence}
  {p q : Page} {s slot : Nat}

omit [Fintype H] [DecidableEq H] in
theorem acquirePage_spec {nPages : Nat} (h : c.acquirePage nPages p s = some (c', slot)) :
    (c'.valid p = true ∧ c'.offset p = slot) ∧
      ∀ q, c'.valid q = true → q = p ∨ c.valid q = true := by
  have hplace : ∀ (c₁ : Residence), (∀ q, c₁.valid q = true → c.valid q = true) →
      ((c₁.place p s).valid p = true ∧ (c₁.place p s).offset p = s) ∧
        ∀ q, (c₁.place p s).valid q = true → q = p ∨ c.valid q = true := by
    intro c₁ hsub
    refine ⟨by simp [Residence.place], fun q hq => ?_⟩
    by_cases hqp : q = p
    · exact .inl hqp
    · exact .inr (hsub q (by simpa [Residence.place, hqp] using hq))
  simp only [Residence.acquirePage] at h
  split at h
  · next hv =>
    cases h
    exact ⟨⟨hv, rfl⟩, fun q hq => .inr hq⟩
  · split at h
    · cases h
    · split at h
      · cases h
        exact hplace _ fun q hq => hq
      · next q₀ _ =>
        split at h <;> cases h
        refine hplace _ fun q hq => ?_
        by_cases hqq : q = q₀
        · simp [Residence.evict, hqq] at hq
        · simpa [Residence.evict, Residence.addRef, hqq] using hq

structure Pinned (nPages : Nat) (c : Residence) (f : H → Option Page) : Prop where
  home : ∀ s q, c.holder s = some q → c.valid q = true ∧ c.offset q = s
  placed : ∀ q, c.valid q = true → c.holder (c.offset q) = some q ∧ c.offset q < nPages
  counted : Counted c.cnt f
  held : ∀ h q, f h = some q → c.valid q = true

theorem Pinned.release {nPages : Nat} (hp : Pinned nPages c f) (hh : f h = some q) :
    Pinned nPages (c.releasePage q) (update f h none) where
  home := hp.home
  placed := hp.placed
  counted := hp.counted.drop hh
  held k q' hk := by
    by_cases hkh : k = h
    · subst hkh
      simp at hk
    · rw [update_of_ne hkh] at hk
      exact hp.held k q' hk

omit [DecidableEq H] in
theorem Pinned.place {nPages : Nat}
    (hhome : ∀ t q, t ≠ s → c.holder t = some q → c.valid q = true ∧ c.offset q = t)
    (hplaced : ∀ q, c.valid q = true → c.holder (c.offset q) = some q ∧ c.offset q < nPages ∧
      c.offset q ≠ s)
    (hv : c.valid p = false) (hs : s < nPages) (hcount : Counted c.cnt f)
    (hheld : ∀ k q, f k = some q → q = p ∨ c.valid q = true) : Pinned nPages (c.place p s) f where
  home t q ht := by
    by_cases hts : t = s
    · subst hts
      obtain rfl : p = q := by simpa [Residence.place] using ht
      simp [Residence.place]
    · have ht' : c.holder t = some q := by simpa [Residence.place, hts] using ht
      obtain ⟨hvq, hoq⟩ := hhome t q hts ht'
      have hne : q ≠ p := fun he => by rw [he, hv] at hvq; cases hvq
      simp [Residence.place, hne, hvq, hoq]
  placed q hq := by
    by_cases hqp : q = p
    · subst hqp
      simp [Residence.place, hs]
    · have hq' : c.valid q = true := by simpa [Residence.place, hqp] using hq
      obtain ⟨h1, h2, h3⟩ := hplaced q hq'
      simp [Residence.place, hqp, h1, h2, h3]
  counted := hcount
  held k q hk := by
    by_cases hqp : q = p
    · simp [Residence.place, hqp]
    · simpa [Residence.place, hqp] using (hheld k q hk).resolve_left hqp

/-- What a successful `acquire_page` does for a holder that had nothing. -/
theorem Pinned.acquire {nPages : Nat} (hp : Pinned nPages c f) (hcard : Fintype.card H < 2^32)
    (hh : f h = none) (ha : c.acquirePage nPages p s = some (c', slot)) :
    Pinned nPages c' (update f h (some p)) ∧ c'.offset p = slot ∧
      ∀ k q, f k = some q → c'.offset q = c.offset q := by
  have hcount : Counted (c.addRef p).cnt (update f h (some p)) := hp.counted.take p hh
  have hheld : ∀ k q, update f h (some p) k = some q → q = p ∨ c.valid q = true := by
    intro k q hk
    by_cases hkh : k = h
    · subst hkh
      exact .inl (by simpa using hk.symm)
    · rw [update_of_ne hkh] at hk
      exact .inr (hp.held k q hk)
  simp only [Residence.acquirePage] at ha
  split at ha
  · next hv =>
    cases ha
    refine ⟨⟨hp.home, hp.placed, hcount, fun k q hk => ?_⟩, rfl, fun _ _ _ => rfl⟩
    rcases hheld k q hk with rfl | hq
    · exact hv
    · exact hq
  · next hv =>
    have hv : c.valid p = false := Bool.eq_false_of_not_eq_true hv
    have hkeep : ∀ k q, f k = some q → q ≠ p := by
      rintro k q hk rfl
      rw [hp.held k q hk] at hv
      cases hv
    split at ha
    · cases ha
    · next hs =>
      have hs : s < nPages := Nat.lt_of_not_le hs
      split at ha
      · next hnone =>
        cases ha
        refine ⟨.place (fun t q _ ht => hp.home t q ht) (fun q hq => ?_) hv hs hcount hheld, ?_,
          fun k q hk => ?_⟩
        · obtain ⟨h1, h2⟩ := hp.placed q hq
          refine ⟨h1, h2, fun he => ?_⟩
          have hsome : c.holder s = some q := he ▸ h1
          exact absurd (hnone.symm.trans hsome) (by simp)
        · simp [Residence.place]
        · simp [Residence.place, Residence.addRef, hkeep k q hk]
      · next q₀ hq₀ =>
        have hq₀ : c.holder s = some q₀ := hq₀
        obtain ⟨hvq, hoq⟩ := hp.home s q₀ hq₀
        have hne : q₀ ≠ p := fun he => by rw [he, hv] at hvq; cases hvq
        split at ha
        · next hz =>
          cases ha
          -- nobody holds the page that goes
          have hnot : ∀ k, f k ≠ some q₀ := by
            intro k hk
            refine hp.counted.ne_zero hcard hk ?_
            simpa [Residence.addRef, hne] using hz
          refine ⟨.place (fun t q hts ht => ?_) (fun q hq => ?_) ?_ hs hcount (fun k q hk => ?_),
            ?_, fun k q hk => ?_⟩
          · obtain ⟨h1, h2⟩ := hp.home t q ht
            have hqq : q ≠ q₀ := fun he => hts (by rw [← h2, he, hoq])
            exact ⟨by simpa [Residence.evict, Residence.addRef, hqq] using h1, h2⟩
          · have hqq : q ≠ q₀ := fun he => by simp [Residence.evict, he] at hq
            have hq : c.valid q = true := by simpa [Residence.evict, Residence.addRef, hqq] using hq
            obtain ⟨h1, h2⟩ := hp.placed q hq
            refine ⟨h1, h2, fun he => hqq ?_⟩
            have hsome : c.holder s = some q := he ▸ h1
            exact Option.some.inj (hsome.symm.trans hq₀)
          · simp [Residence.evict, Residence.addRef, hne.symm, hv]
          · by_cases hkh : k = h
            · subst hkh
              exact .inl (by simpa using hk.symm)
            · rw [update_of_ne hkh] at hk
              have hqq : q ≠ q₀ := fun he => hnot k (he ▸ hk)
              exact .inr (by simpa [Residence.evict, Residence.addRef, hqq] using hp.held k q hk)
          · simp [Residence.place]
          · simp [Residence.place, Residence.addRef, Residence.evict, hkeep k q hk]
        · cases ha

/-- A holder that takes another page: the pages of the others stay where they are. -/
theorem Pinned.exchange {nPages : Nat} (hp : Pinned nPages c (update f h none))
    (hcard : Fintype.card H < 2^32) (ha : c.acquirePage nPages p s = some (c', slot)) :
    Pinned nPages c' (update f h (some p)) ∧ c'.valid p = true ∧ c'.offset p = slot ∧
      ∀ k, k ≠ h → ∀ q, f k = some q → c'.valid q = true ∧ c'.offset q = c.offset q := by
  obtain ⟨hp', hslot, hsame⟩ := hp.acquire hcard (update_self _ _ _) ha
  rw [update_idem] at hp'
  refine ⟨hp', hp'.held h p (update_self _ _ _), hslot, fun k hk q hq => ?_⟩
  exact ⟨hp'.held k q (by rwa [update_of_ne hk]), hsame k q (by rwa [update_of_ne hk])⟩

end

def Ptr.held (u : Setup) (b : Ptr) : Option Page :=
  match b.page, b.rangeId with
  | some _, some r => some (u.page r b.start)
  | _, _ => none

def Entry.held (u : Setup) (e : Entry) : Option Page :=
  e.page.map fun _ => u.cache.pageAt e.globalId

def held (ptr : Fin u.m → Ptr) (tlb : Fin u.n → Entry) : Fin u.m ⊕ Fin u.n → Option Page :=
  Sum.elim (fun k => (ptr k).held u) fun e => (tlb e).held u

def TlbPtr.uses (u : Setup) (b : TlbPtr) : Option (Fin u.n) := b.addr.map fun _ => u.entryOf b.gid

structure WindowOk (u : Setup) (c : Residence) (r : Nat) (j start end_ addr : BitVec 64) :
    Prop where
  range : u.findRange j = some r
  agree : Agree u r
  start_eq : start = u.start (u.getPage r j)
  end_eq : end_ = start+u.nElemsPerPage
  addr_eq : addr = u.slotAddr (c.offset (u.page r j))
  valid : c.valid (u.page r j) = true
  slot_lt : c.offset (u.page r j) < u.cache.nPages

/-- What should hold after an access to element `i`: the address is the one `seq_read`
uses, and the window is on the page of the element. -/
structure Right (u : Setup) (c : Residence) (r : Nat) (i start end_ addr address : BitVec 64) :
    Prop where
  valid : c.valid (u.page r i) = true
  address_eq : address = u.slotAddr (c.offset (u.page r i))+u.getSubindex r i
  inside : outside start end_ i = false
  addr_eq : addr = u.slotAddr (c.offset (u.page r i))

variable {c : Residence} {start end_ addr : BitVec 64} {r₀ : Nat}

/-- The page of the element is in the slot that `addr` is the address of. -/
def InSlot (u : Setup) (c : Residence) (r : Nat) (i addr : BitVec 64) : Prop :=
  c.valid (u.page r i) = true ∧ addr = u.slotAddr (c.offset (u.page r i))

theorem right_fresh_iff (hu : Fits u) (hi : u.findRange i = some r) {slot : Nat}
    (hv : c.valid (u.page r i) = true) (hs : c.offset (u.page r i) = slot) :
    Right u c r i (u.start (u.getPage r i)) (u.start (u.getPage r i)+u.nElemsPerPage)
      (u.slotAddr slot) (u.slotAddr slot+(i-u.start (u.getPage r i))*u.sizeofT) ↔ Agree u r := by
  constructor
  · intro h
    have haddr := h.address_eq
    rw [hs] at haddr
    exact (offset_eq_iff u r i).mp (BitVec.add_right_inj _ |>.mp haddr)
  · intro ha
    refine ⟨hv, ?_, inside_window hu hi ha, by rw [hs]⟩
    rw [hs, (offset_eq_iff u r i).mpr ha]

end Shaper.FastPointer
