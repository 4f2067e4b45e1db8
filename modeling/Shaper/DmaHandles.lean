import Mathlib.Data.BitVec
import Mathlib.Data.List.GetD
import Shaper.Lib.Errno

/-! DMA handles: `populate_handle` turns the bus addresses of the pages of a region into those
of its controller pages, for `nvm_dma_map` and once more for `nvm_dma_remap`. -/
namespace Shaper.DmaHandles
open Lib.Errno

structure VaRange where
  vaddr : BitVec 64
  pageSize : Nat
  nPages : Nat
  remote : Bool
  deriving DecidableEq

structure Handle where
  vaddr : BitVec 64
  isLocal : Bool
  contiguous : Bool
  pageSize : Nat
  ioaddrs : List (BitVec 64)
  deriving DecidableEq

structure Container where
  va : VaRange
  handle : Handle
  deriving DecidableEq

section Populate
variable (ctrlPage : Nat)

def nCtrlPages (pageSize nPages : Nat) : Nat := pageSize*nPages%2^64/ctrlPage

/-- One round of the loop of `populate_handle`: the addresses so far and the flag. -/
def populateStep (pageSize : Nat) (src : List (BitVec 64)) (acc : List (BitVec 64) × Bool)
    (i : Nat) : List (BitVec 64) × Bool :=
  let current := i*ctrlPage%2^64/pageSize
  let offset := i*ctrlPage%2^64%pageSize
  let ioaddr := src.getD current 0 + BitVec.ofNat 64 offset
  let gap := 0 < i ∧ acc.1.getD (i-1) 0 + BitVec.ofNat 64 ctrlPage ≠ ioaddr
  (acc.1 ++ [ioaddr], if gap then false else acc.2)

def populateHandle (va : VaRange) (isLocal : Bool) (src : List (BitVec 64)) : Handle :=
  let filled := (List.range (nCtrlPages ctrlPage va.pageSize va.nPages)).foldl
    (populateStep ctrlPage va.pageSize src) ([], true)
  ⟨va.vaddr, isLocal, filled.2, ctrlPage, filled.1⟩

def createContainer (va : VaRange) (malloc : Bool) : Except Nat Bool :=
  if va.pageSize = 0 ∨ va.nPages = 0 ∨ va.pageSize*va.nPages%2^64%ctrlPage ≠ 0 then .error EINVAL
  else if malloc then .ok !va.remote
  else .error ENOMEM

def dmaMap (vaddr : BitVec 64) (pageSize : Nat) (src : List (BitVec 64)) (malloc : Bool) :
    Except Nat Container := do
  let va : VaRange := ⟨vaddr, pageSize, src.length, false⟩
  let isLocal ← createContainer ctrlPage va malloc
  return ⟨va, populateHandle ctrlPage va isLocal src⟩

def dmaRemap (other : Container) (malloc : Bool) : Except Nat Container := do
  let isLocal ← createContainer ctrlPage other.va malloc
  let va : VaRange :=
    ⟨other.va.vaddr, other.handle.pageSize, other.handle.ioaddrs.length, !other.handle.isLocal⟩
  return ⟨other.va, populateHandle ctrlPage va isLocal other.handle.ioaddrs⟩

end Populate

def busAddress (pageSize : Nat) (src : List (BitVec 64)) (x : Nat) : BitVec 64 :=
  src.getD (x/pageSize) 0 + BitVec.ofNat 64 (x%pageSize)

def Adjacent (size : Nat) (ioaddrs : List (BitVec 64)) : Prop :=
  ∀ i, 0 < i → i < ioaddrs.length → ioaddrs.getD (i-1) 0 + BitVec.ofNat 64 size = ioaddrs.getD i 0

def Translates (ctrlPage pageSize : Nat) (src ioaddrs : List (BitVec 64)) : Prop :=
  ∀ i < ioaddrs.length, ∀ o < ctrlPage,
    ioaddrs.getD i 0 + BitVec.ofNat 64 o = busAddress pageSize src (i*ctrlPage+o)

def Unsplit (ctrlPage pageSize : Nat) (src : List (BitVec 64)) : Prop :=
  ∀ m, 0 < m → m < src.length → ¬ ctrlPage ∣ m*pageSize →
    src.getD m 0 = src.getD (m-1) 0 + BitVec.ofNat 64 pageSize

section Fill
variable {ctrlPage pageSize n : Nat} {src : List (BitVec 64)}

theorem adjacent_append (size : Nat) (l : List (BitVec 64)) (a : BitVec 64) :
    Adjacent size (l ++ [a]) ↔
      Adjacent size l ∧ ¬ (0 < l.length ∧ l.getD (l.length-1) 0 + BitVec.ofNat 64 size ≠ a) := by
  have hlow : ∀ i < l.length, (l ++ [a]).getD i 0 = l.getD i 0 :=
    fun i hi => List.getD_append _ _ _ _ hi
  have hend : (l ++ [a]).getD l.length 0 = a := by simp
  constructor
  · intro h
    constructor
    · intro i hi hlt
      have := h i hi (by rw [List.length_append]; omega)
      rwa [hlow _ (by omega), hlow _ hlt] at this
    · intro ⟨hpos, hne⟩
      have := h l.length hpos (by simp)
      rw [hlow _ (by omega), hend] at this
      exact hne this
  · intro ⟨h, hlast⟩ i hi hlt
    rw [List.length_append, List.length_singleton] at hlt
    rcases Nat.lt_or_eq_of_le (Nat.le_of_lt_succ hlt) with hlt | rfl
    · rw [hlow _ (by omega), hlow _ hlt]
      exact h i hi hlt
    · rw [hlow _ (by omega), hend]
      by_contra hne
      exact hlast ⟨hi, hne⟩

/-- The loop, round by round: the addresses of the first bytes, and whether they are adjacent. -/
theorem populate_fold (ctrlPage pageSize : Nat) (src : List (BitVec 64)) (n : Nat) :
    let filled := (List.range n).foldl (populateStep ctrlPage pageSize src) ([], true)
    filled.1 = (List.range n).map (fun i => busAddress pageSize src (i*ctrlPage%2^64)) ∧
      (filled.2 = true ↔ Adjacent ctrlPage filled.1) := by
  induction n with
  | zero =>
    refine ⟨rfl, fun _ i _ hi => ?_, fun _ => rfl⟩
    cases hi
  | succ n ih =>
    obtain ⟨haddrs, hflag⟩ := ih
    simp only [List.range_succ, List.foldl_append, List.foldl_cons, List.foldl_nil, List.map_append,
      List.map_cons, List.map_nil]
    generalize (List.range n).foldl (populateStep ctrlPage pageSize src) ([], true) =
      filled at haddrs hflag ⊢
    have hlen : filled.1.length = n := by rw [haddrs, List.length_map, List.length_range]
    constructor
    · rw [← haddrs]
      rfl
    · simp only [populateStep]
      rw [adjacent_append, hlen, ← hflag]
      split
      · rename_i hgap
        exact ⟨fun h => absurd h (by decide), fun h => absurd hgap h.2⟩
      · rename_i hgap
        exact ⟨fun h => ⟨h, hgap⟩, fun h => h.1⟩

end Fill

section Bytes
variable {ctrlPage pageSize : Nat} {src : List (BitVec 64)}

theorem busAddress_succ {x : Nat} (h : ¬ pageSize ∣ x+1) :
    busAddress pageSize src (x+1) = busAddress pageSize src x + 1#64 := by
  have hdiv : (x+1)/pageSize = x/pageSize := by rw [Nat.succ_div, if_neg h, Nat.add_zero]
  have hmod : (x+1)%pageSize = x%pageSize + 1 := by
    have h1 := Nat.div_add_mod (x+1) pageSize
    have h2 := Nat.div_add_mod x pageSize
    rw [hdiv] at h1
    omega
  rw [busAddress, busAddress, hdiv, hmod, BitVec.ofNat_add, BitVec.add_assoc]

theorem busAddress_mul (hpos : 0 < pageSize) (m : Nat) :
    busAddress pageSize src (m*pageSize) = src.getD m 0 := by
  rw [busAddress, Nat.mul_div_cancel _ hpos, Nat.mul_mod_left, BitVec.add_zero]

theorem busAddress_pred (hpos : 0 < pageSize) {m : Nat} (hm : 0 < m) :
    busAddress pageSize src (m*pageSize-1) + 1#64 =
      src.getD (m-1) 0 + BitVec.ofNat 64 pageSize := by
  obtain ⟨m, rfl⟩ := Nat.exists_eq_succ_of_ne_zero (Nat.ne_of_gt hm)
  have hx : m.succ*pageSize-1 = pageSize*m + (pageSize-1) := by
    rw [Nat.succ_mul, Nat.mul_comm]
    omega
  have hdiv : (pageSize*m + (pageSize-1))/pageSize = m := by
    rw [Nat.mul_add_div hpos, Nat.div_eq_of_lt (by omega), Nat.add_zero]
  have hmod : (pageSize*m + (pageSize-1))%pageSize = pageSize-1 := by
    rw [Nat.mul_add_mod, Nat.mod_eq_of_lt (by omega)]
  rw [hx, busAddress, hdiv, hmod, BitVec.add_assoc, Nat.succ_sub_one]
  congr 1
  rw [← BitVec.ofNat_add, Nat.sub_add_cancel hpos]

/-- From the start of a controller page on the bytes follow one another. -/
theorem busAddress_add (h : Unsplit ctrlPage pageSize src) (hpos : 0 < pageSize) (i o : Nat)
    (ho : o < ctrlPage) (hlt : i*ctrlPage+o < src.length*pageSize) :
    busAddress pageSize src (i*ctrlPage) + BitVec.ofNat 64 o =
      busAddress pageSize src (i*ctrlPage+o) := by
  induction o with
  | zero => rw [BitVec.add_zero, Nat.add_zero]
  | succ o ih =>
    rw [BitVec.ofNat_add, ← BitVec.add_assoc, ih (by omega) (by omega)]
    by_cases hend : pageSize ∣ i*ctrlPage+o+1
    · obtain ⟨m, hm⟩ := hend
      rw [Nat.mul_comm pageSize] at hm
      have hm0 : 0 < m := Nat.pos_of_ne_zero fun h0 => by rw [h0, Nat.zero_mul] at hm; omega
      have hmlt : m < src.length := Nat.lt_of_mul_lt_mul_right (a := pageSize) (by omega)
      -- a page boundary inside the controller page
      have hnd : ¬ ctrlPage ∣ m*pageSize := by
        rw [← hm, Nat.add_assoc, Nat.dvd_add_right (Nat.dvd_mul_left _ _)]
        exact Nat.not_dvd_of_pos_of_lt (Nat.succ_pos o) ho
      have hpred : i*ctrlPage+o = m*pageSize-1 := by omega
      rw [← Nat.add_assoc, hm, busAddress_mul hpos, h m hm0 hmlt hnd, hpred]
      exact busAddress_pred hpos hm0
    · exact (busAddress_succ hend).symm

end Bytes

section Regions
variable {ctrlPage pageSize : Nat} {src : List (BitVec 64)}

structure Accepted (ctrlPage pageSize n : Nat) : Prop where
  page_pos : 0 < pageSize
  pages_pos : 0 < n
  dvd : ctrlPage ∣ pageSize*n
  size_lt : pageSize*n < 2^64

namespace Accepted
variable {n : Nat}

theorem ctrl_pos (h : Accepted ctrlPage pageSize n) : 0 < ctrlPage := by
  apply Nat.pos_of_ne_zero
  rintro rfl
  exact Nat.ne_of_gt (Nat.mul_pos h.page_pos h.pages_pos) (Nat.eq_zero_of_zero_dvd h.dvd)

theorem nCtrlPages_mul (h : Accepted ctrlPage pageSize n) :
    nCtrlPages ctrlPage pageSize n * ctrlPage = pageSize*n := by
  rw [nCtrlPages, Nat.mod_eq_of_lt h.size_lt, Nat.div_mul_cancel h.dvd]

theorem start_lt (h : Accepted ctrlPage pageSize n) {i : Nat}
    (hi : i < nCtrlPages ctrlPage pageSize n) : i*ctrlPage + ctrlPage ≤ pageSize*n := by
  have := Nat.mul_le_mul_right ctrlPage hi
  rwa [h.nCtrlPages_mul, Nat.succ_mul] at this

theorem again (h : Accepted ctrlPage pageSize n) :
    Accepted ctrlPage ctrlPage (nCtrlPages ctrlPage pageSize n) := by
  have hmul := h.nCtrlPages_mul
  have hpos := Nat.mul_pos h.page_pos h.pages_pos
  refine ⟨h.ctrl_pos, Nat.pos_of_ne_zero fun h0 => ?_, Nat.dvd_mul_right _ _, ?_⟩
  · rw [h0, Nat.zero_mul] at hmul
    omega
  · rw [Nat.mul_comm, hmul]
    exact h.size_lt

end Accepted

theorem ioaddrs_populate (va : VaRange) (h : Accepted ctrlPage va.pageSize va.nPages)
    (isLocal : Bool) (src : List (BitVec 64)) : (populateHandle ctrlPage va isLocal src).ioaddrs =
      (List.range (nCtrlPages ctrlPage va.pageSize va.nPages)).map
        fun i => busAddress va.pageSize src (i*ctrlPage) := by
  refine (populate_fold ctrlPage va.pageSize src _).1.trans (List.map_congr_left fun i hi => ?_)
  have hstart := h.start_lt (List.mem_range.mp hi)
  have hlt := h.size_lt
  have hpos := h.ctrl_pos
  rw [Nat.mod_eq_of_lt (by omega)]

theorem contiguous_populate (va : VaRange) (isLocal : Bool) (src : List (BitVec 64)) :
    (populateHandle ctrlPage va isLocal src).contiguous = true ↔
      Adjacent ctrlPage (populateHandle ctrlPage va isLocal src).ioaddrs :=
  (populate_fold ctrlPage va.pageSize src _).2

theorem createContainer_ok {va : VaRange} {isLocal : Bool}
    (h : createContainer ctrlPage va true = .ok isLocal) (hsize : va.pageSize*va.nPages < 2^64) :
    Accepted ctrlPage va.pageSize va.nPages ∧ isLocal = !va.remote := by
  rw [createContainer, Nat.mod_eq_of_lt hsize] at h
  split at h
  · cases h
  · rename_i hok
    push Not at hok
    cases h
    exact ⟨⟨Nat.pos_of_ne_zero hok.1, Nat.pos_of_ne_zero hok.2.1, Nat.dvd_of_mod_eq_zero hok.2.2,
      hsize⟩, rfl⟩

/-- Pages that are split over controller pages are what decides. -/
theorem translates_iff (h : Accepted ctrlPage pageSize src.length) :
    Translates ctrlPage pageSize src
      ((List.range (nCtrlPages ctrlPage pageSize src.length)).map fun i =>
        busAddress pageSize src (i*ctrlPage)) ↔
    Unsplit ctrlPage pageSize src := by
  have hget : ∀ i < nCtrlPages ctrlPage pageSize src.length,
      ((List.range (nCtrlPages ctrlPage pageSize src.length)).map
        fun i => busAddress pageSize src (i*ctrlPage)).getD i 0 =
        busAddress pageSize src (i*ctrlPage) := by
    intro i hi
    simp [List.getD_eq_getElem?_getD, hi]
  have hlen : ((List.range (nCtrlPages ctrlPage pageSize src.length)).map
      fun i => busAddress pageSize src (i*ctrlPage)).length =
      nCtrlPages ctrlPage pageSize src.length := by simp
  constructor
  · intro ht m hm hlt hnd
    have hpos := h.ctrl_pos
    have hdiv := Nat.div_add_mod (m*pageSize) ctrlPage
    have hmod := Nat.mod_lt (m*pageSize) hpos
    have hrest : 0 < m*pageSize%ctrlPage :=
      Nat.pos_of_ne_zero fun h0 => hnd (Nat.dvd_of_mod_eq_zero h0)
    have hi : m*pageSize/ctrlPage < nCtrlPages ctrlPage pageSize src.length := by
      apply (Nat.div_lt_iff_lt_mul hpos).mpr
      rw [h.nCtrlPages_mul, Nat.mul_comm]
      exact Nat.mul_lt_mul_of_pos_left hlt h.page_pos
    rw [Nat.mul_comm ctrlPage] at hdiv
    -- the first byte of page `m`, and the byte before it, in one controller page
    have hfirst := ht _ (hlen.symm ▸ hi) _ hmod
    have hlast := ht _ (hlen.symm ▸ hi) (m*pageSize%ctrlPage-1) (by omega)
    rw [hget _ hi] at hfirst hlast
    rw [hdiv, busAddress_mul h.page_pos] at hfirst
    rw [show m*pageSize/ctrlPage*ctrlPage + (m*pageSize%ctrlPage-1) =
      m*pageSize-1 by omega] at hlast
    rw [← hfirst, ← busAddress_pred h.page_pos hm, ← hlast, BitVec.add_assoc, ← BitVec.ofNat_add,
      Nat.sub_add_cancel hrest]
  · intro hu i hi o ho
    rw [hlen] at hi
    have hstart := h.start_lt hi
    rw [hget i hi]
    apply busAddress_add hu h.page_pos i o ho
    rw [Nat.mul_comm src.length]
    omega

theorem dmaMap_ok {vaddr : BitVec 64} {c : Container}
    (hmap : dmaMap ctrlPage vaddr pageSize src true = .ok c)
    (hsize : pageSize*src.length < 2^64) : Accepted ctrlPage pageSize src.length ∧
      c = ⟨⟨vaddr, pageSize, src.length, false⟩,
        populateHandle ctrlPage ⟨vaddr, pageSize, src.length, false⟩ true src⟩ := by
  simp only [dmaMap] at hmap
  cases hc : createContainer ctrlPage ⟨vaddr, pageSize, src.length, false⟩ true with
  | error e =>
    rw [hc] at hmap
    cases hmap
  | ok isLocal =>
    rw [hc] at hmap
    obtain ⟨hacc, rfl⟩ := createContainer_ok hc hsize
    cases hmap
    exact ⟨hacc, rfl⟩

/-- Remapping a handle gives its addresses back, and the rest of it too. -/
theorem dmaRemap_same {vaddr : BitVec 64} {c : Container}
    (hmap : dmaMap ctrlPage vaddr pageSize src true = .ok c)
    (hsize : pageSize*src.length < 2^64) : dmaRemap ctrlPage c true = .ok c := by
  obtain ⟨hacc, rfl⟩ := dmaMap_ok hmap hsize
  have hok : createContainer ctrlPage ⟨vaddr, pageSize, src.length, false⟩ true = .ok true := by
    have h1 := hacc.page_pos
    have h2 := hacc.pages_pos
    rw [createContainer, if_neg]
    · rfl
    · rw [Nat.mod_eq_of_lt hsize, Nat.mod_eq_zero_of_dvd hacc.dvd]
      simp only [ne_eq, not_true, or_false]
      omega
  let va : VaRange := ⟨vaddr, pageSize, src.length, false⟩
  let va' : VaRange :=
    ⟨vaddr, ctrlPage, (populateHandle ctrlPage va true src).ioaddrs.length, false⟩
  have haddrs := ioaddrs_populate va hacc true src
  have hlen : (populateHandle ctrlPage va true src).ioaddrs.length =
    nCtrlPages ctrlPage pageSize src.length := by
    rw [haddrs, List.length_map, List.length_range]
  have hacc' : Accepted ctrlPage va'.pageSize va'.nPages := by
    change Accepted ctrlPage ctrlPage (populateHandle ctrlPage va true src).ioaddrs.length
    rw [hlen]
    exact hacc.again
  -- page by page the source is the handle's own list
  have hsame :
    (populateHandle ctrlPage va' true (populateHandle ctrlPage va true src).ioaddrs).ioaddrs =
      (populateHandle ctrlPage va true src).ioaddrs := by
    have hn : nCtrlPages ctrlPage va'.pageSize va'.nPages =
      (populateHandle ctrlPage va true src).ioaddrs.length :=
      Nat.eq_of_mul_eq_mul_right hacc.ctrl_pos (hacc'.nCtrlPages_mul.trans (Nat.mul_comm _ _))
    rw [ioaddrs_populate va' hacc', hn]
    apply List.ext_getElem (by simp)
    intro i _ hi
    rw [List.getElem_map, List.getElem_range, busAddress_mul hacc.ctrl_pos,
      List.getD_eq_getElem _ _ hi]
  have hflag :
    (populateHandle ctrlPage va' true (populateHandle ctrlPage va true src).ioaddrs).contiguous =
      (populateHandle ctrlPage va true src).contiguous := by
    rw [Bool.eq_iff_iff, contiguous_populate, contiguous_populate, hsame]
  simp only [dmaRemap, hok]
  refine congrArg Except.ok (congrArg (Container.mk va) ?_)
  exact congrArg₂ (Handle.mk vaddr true · ctrlPage ·) hflag hsame

end Regions

/-- A handle leads every byte to its place exactly if no page is split from the one before it
inside a controller page. The flag and remapping are right in any case. -/
theorem handle_translates (ctrlPage pageSize : Nat) (vaddr : BitVec 64) (src : List (BitVec 64))
    (c : Container)
    (hmap : dmaMap ctrlPage vaddr pageSize src true = .ok c) (hsize : pageSize*src.length < 2^64) :
    (c.handle.ioaddrs.length*ctrlPage = pageSize*src.length ∧
        Translates ctrlPage pageSize src c.handle.ioaddrs ∧
        (c.handle.contiguous = true ↔ Adjacent ctrlPage c.handle.ioaddrs) ∧
        dmaRemap ctrlPage c true = .ok c) ↔
      Unsplit ctrlPage pageSize src := by
  have hremap := dmaRemap_same hmap hsize
  obtain ⟨hacc, rfl⟩ := dmaMap_ok hmap hsize
  have haddrs := ioaddrs_populate ⟨vaddr, pageSize, src.length, false⟩ hacc true src
  have hflag :
    (populateHandle ctrlPage ⟨vaddr, pageSize, src.length, false⟩ true src).contiguous = true ↔
      Adjacent ctrlPage
      (populateHandle ctrlPage ⟨vaddr, pageSize, src.length, false⟩ true src).ioaddrs :=
    contiguous_populate _ true src
  have hlen :
    (populateHandle ctrlPage ⟨vaddr, pageSize, src.length,
      false⟩ true src).ioaddrs.length*ctrlPage =
      pageSize*src.length := by
    rw [haddrs, List.length_map, List.length_range]
    exact hacc.nCtrlPages_mul
  have htranslates := translates_iff hacc
  rw [← haddrs] at htranslates
  constructor
  · intro ⟨_, ht, _, _⟩
    exact htranslates.mp ht
  · intro hu
    exact ⟨hlen, htranslates.mpr hu, hflag, hremap⟩

/-- Two pages of 64 KB make 32 controller pages. -/
theorem large_pages_translate :
    ∃ c, dmaMap 4096 0#64 65536 [0x100000#64, 0x300000#64] true = .ok c ∧
    Translates 4096 65536 [0x100000#64, 0x300000#64] c.handle.ioaddrs := by
  refine ⟨_, rfl,
    ((handle_translates 4096 65536 0#64 [0x100000#64, 0x300000#64] _ rfl (by decide)).mpr ?_).2.1⟩
  intro m _ _ hnd
  exact absurd ((by decide : 4096 ∣ 65536).mul_left m) hnd

/-- Two halves of a controller page that are apart on the bus are accepted, and the second half
is then sought right after the first. -/
theorem split_page_misread : ∃ c, dmaMap 4096 0#64 2048 [0x100000#64, 0x300000#64] true = .ok c ∧
    c.handle.ioaddrs = [0x100000#64] ∧
    0x100000#64 + 2048#64 ≠ busAddress 2048 [0x100000#64, 0x300000#64] 2048 :=
  ⟨_, rfl, by decide, by decide⟩

end Shaper.DmaHandles
