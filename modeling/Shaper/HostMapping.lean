import Mathlib.Data.BitVec
import Shaper.KernelMaps

/-! The request NVM_MAP_HOST_MEMORY with every call into the kernel that may fail: what it
pins and maps for DMA, what it undoes, and what stays on `host_list`. -/
namespace Shaper.HostMapping
open KernelMaps (pageMask)
open Lib.Errno

def PAGE_SIZE : Nat := 4096
def DMA_MAPPING_ERROR : BitVec 64 := ~~~0#64

/-- Where the kernel took an array from. `kvcalloc` falls back to `vmalloc`, and for arrays
that `kmalloc` cannot give (over 4 MB) it has to. -/
inductive Area where
  | kmalloc
  | vmalloc
  deriving DecidableEq

/-- `kfree` is for memory of `kmalloc` only (`kvfree` takes both). -/
def kfree : Area → Option Unit
  | .kmalloc => some ()
  | .vmalloc => none

structure Outcomes where
  ctrlFound : Bool
  copyFromUser : Bool
  kvmalloc : Bool
  kvcalloc : Option Area
  getUserPages : Int
  dmaMapPage : Nat → BitVec 64
  copyToUser : Bool

structure Map where
  owner : Nat
  vaddr : BitVec 64
  pageSize : Nat
  data : Option (List Nat)
  nAddrs : Nat
  addrs : List (BitVec 64)
  deriving DecidableEq

structure Effects where
  pins : List Nat
  puts : List Nat
  maps : List (Nat × BitVec 64)
  unmaps : List (BitVec 64)
  deriving DecidableEq

def Effects.none : Effects := ⟨[], [], [], []⟩

/-- The bytes that `create_descriptor` asks for, and those it uses. -/
def descriptorSize (nPages : Nat) : Nat := (96 + (nPages-1)*8) % 2^64
def descriptorUse (nPages : Nat) : Nat := 88 + 8*nPages

section Calls
variable (o : Outcomes)

def createDescriptor (current : Nat) (vaddr : BitVec 64) (nPages : Nat) : Option (Except Int Map) :=
  if !o.kvmalloc then some (.error (-ENOMEM))
  else if descriptorSize nPages < descriptorUse nPages then none
  else some (.ok ⟨current, vaddr, 0, none, nPages, List.replicate nPages 0#64⟩)

/-- The loop of `map_user_pages` from page `i` on, for `left` pages: its value, the addresses
and the pages that were mapped. -/
def dmaLoop : Nat → Nat → List (BitVec 64) → Int × List (BitVec 64) × List (Nat × BitVec 64)
  | 0, _, addrs => (0, addrs, [])
  | left+1, i, addrs =>
    let addr := o.dmaMapPage i
    if addr = DMA_MAPPING_ERROR then (-ENOMEM, addrs.set i addr, [])
    else
      let (retval, addrs, maps) := dmaLoop left (i+1) (addrs.set i addr)
      (retval, addrs, (i, addr) :: maps)

def mapUserPages (m : Map) : Option (Int × Map × Effects) :=
  match o.kvcalloc with
  | none => some (-ENOMEM, m, .none)
  | some pages =>
    if o.getUserPages ≤ 0 then
      match kfree pages with
      | none => none
      | some () => some (o.getUserPages, m, .none)
    else
      let n := o.getUserPages.toNat
      if m.nAddrs < n then none
      else
        let (retval, addrs, maps) := dmaLoop o n 0 m.addrs
        some (retval,
          { m with
            pageSize := PAGE_SIZE
            data := some (List.range n)
            nAddrs := n
            addrs := addrs },
          ⟨List.range n, [], maps, []⟩)

def unmapAndRelease (m : Map) (e : Effects) : Effects :=
  match m.data with
  | none => e
  | some pages =>
    { e with puts := e.puts ++ pages.take m.nAddrs, unmaps := e.unmaps ++ m.addrs.take m.nAddrs }

def mapUserspace (hostList : List Map) (current : Nat) (vaddr : BitVec 64) (nPages : Nat) :
    Option (Except Int Map × List Map × Effects) :=
  if nPages < 1 then some (.error (-EINVAL), hostList, .none)
  else
    match createDescriptor o current (pageMask vaddr) nPages with
    | none => none
    | some (.error e) => some (.error e, hostList, .none)
    | some (.ok md) =>
      match mapUserPages o { md with pageSize := PAGE_SIZE } with
      | none => none
      | some (err, md, e) =>
        if err ≠ 0 then some (.error err, hostList, unmapAndRelease md e)
        else some (.ok md, hostList ++ [md], e)

structure Done where
  retval : Int
  hostList : List Map
  received : List (BitVec 64)
  effects : Effects

def mapIoctl (hostList : List Map) (current : Nat) (vaddr : BitVec 64) (nPages : Nat) :
    Option Done :=
  if !o.ctrlFound then some ⟨-EBADF, hostList, [], .none⟩
  else if !o.copyFromUser then some ⟨-EFAULT, hostList, [], .none⟩
  else
    match mapUserspace o hostList current vaddr nPages with
    | none => none
    | some (.error err, hostList, e) => if -4095 ≤ err then some ⟨err, hostList, [], e⟩ else none
    | some (.ok map, hostList, e) =>
      if !o.copyToUser then some ⟨-EFAULT, hostList, [], e⟩
      else some ⟨0, hostList, map.addrs.take map.nAddrs, e⟩

end Calls

structure Mapped (before : List Map) (nPages : Nat) (d : Done) : Prop where
  retval : d.retval = 0
  pins : d.effects.pins = List.range nPages
  pages : d.effects.maps.map Prod.fst = List.range nPages
  addrs : d.effects.maps.map Prod.snd = d.received
  valid : ∀ addr ∈ d.received, addr ≠ DMA_MAPPING_ERROR
  kept : d.effects.puts = [] ∧ d.effects.unmaps = []
  listed : ∃ m, d.hostList = before ++ [m] ∧ m.nAddrs = nPages ∧ m.addrs = d.received

structure Undone (before : List Map) (d : Done) : Prop where
  retval : d.retval < 0
  listed : d.hostList = before
  puts : d.effects.puts.Perm d.effects.pins
  unmaps : d.effects.unmaps.Perm (d.effects.maps.map Prod.snd)

def AllOrNothing (before : List Map) (nPages : Nat) : Option Done → Prop
  | none => False
  | some d => Mapped before nPages d ∨ Undone before d

def CleanOutcomes (o : Outcomes) (nPages : Nat) : Prop :=
  o.ctrlFound = false ∨ o.copyFromUser = false ∨ o.kvmalloc = false ∨
    descriptorUse nPages < 2^64 ∧
      (o.kvcalloc = none ∨
        o.kvcalloc = some .kmalloc ∧ -4095 ≤ o.getUserPages ∧ o.getUserPages < 0 ∨
        o.getUserPages = nPages ∧ (∀ i < nPages, o.dmaMapPage i ≠ DMA_MAPPING_ERROR) ∧
          o.copyToUser = true)

section Loop
variable {o : Outcomes}

theorem dmaLoop_length (left i : Nat) (addrs : List (BitVec 64)) :
    (dmaLoop o left i addrs).2.1.length = addrs.length := by
  induction left generalizing i addrs with
  | zero => rfl
  | succ left ih =>
    rw [dmaLoop]
    split
    · exact List.length_set
    · exact (ih _ _).trans List.length_set

theorem dmaLoop_ok {left i : Nat} (addrs : List (BitVec 64))
    (h : ∀ k < left, o.dmaMapPage (i+k) ≠ DMA_MAPPING_ERROR) (hlen : i + left ≤ addrs.length) :
    (dmaLoop o left i addrs).1 = 0 ∧
      (dmaLoop o left i addrs).2.2 = (List.range' i left).map (fun k => (k, o.dmaMapPage k)) ∧
      (dmaLoop o left i addrs).2.1.take (i+left) =
        addrs.take i ++ (List.range' i left).map o.dmaMapPage := by
  induction left generalizing i addrs with
  | zero => exact ⟨rfl, rfl, (List.append_nil _).symm⟩
  | succ left ih =>
    have hhead : o.dmaMapPage i ≠ DMA_MAPPING_ERROR := h 0 (Nat.succ_pos left)
    have hrest : ∀ k < left, o.dmaMapPage (i+1+k) ≠ DMA_MAPPING_ERROR := by
      intro k hk
      have := h (k+1) (by omega)
      rwa [show i+(k+1) = i+1+k by omega] at this
    obtain ⟨hval, hmaps, haddrs⟩ := ih (addrs.set i (o.dmaMapPage i)) hrest
      (by rw [List.length_set]; omega)
    rw [dmaLoop]
    simp only [if_neg hhead, List.range'_succ, List.map_cons]
    refine ⟨hval, by rw [hmaps], ?_⟩
    have hset : (addrs.set i (o.dmaMapPage i)).take (i+1) = addrs.take i ++ [o.dmaMapPage i] := by
      rw [List.take_add_one, List.take_set_of_le (Nat.le_refl i), List.getElem?_set_self (by omega)]
      rfl
    rw [show i+(left+1) = i+1+left by omega, haddrs, hset, List.append_assoc]
    rfl

theorem dmaLoop_fails {left i : Nat} (addrs : List (BitVec 64))
    (h : ∃ k < left, o.dmaMapPage (i+k) = DMA_MAPPING_ERROR) :
    (dmaLoop o left i addrs).1 = -ENOMEM ∧ (dmaLoop o left i addrs).2.2.length < left := by
  induction left generalizing i addrs with
  | zero =>
    obtain ⟨k, hk, -⟩ := h
    cases hk
  | succ left ih =>
    rw [dmaLoop]
    split
    · exact ⟨rfl, Nat.succ_pos left⟩
    · rename_i hhead
      obtain ⟨k, hk, herr⟩ := h
      cases k with
      | zero => exact absurd herr hhead
      | succ k =>
        have hrest := ih (i := i+1) (addrs.set i (o.dmaMapPage i))
          ⟨k, by omega, by rwa [show i+1+k = i+(k+1) by omega]⟩
        exact ⟨hrest.1, Nat.succ_lt_succ hrest.2⟩

end Loop

section Requests
variable {o : Outcomes} {before : List Map} {current nPages : Nat} {vaddr : BitVec 64}

theorem descriptorSize_lt (hn : 1 ≤ nPages) :
    descriptorSize nPages < descriptorUse nPages ↔ ¬ descriptorUse nPages < 2^64 := by
  have heq : 96 + (nPages-1)*8 = descriptorUse nPages := by
    rw [descriptorUse]
    omega
  rw [descriptorSize, heq]
  constructor
  · intro h hlt
    rw [Nat.mod_eq_of_lt hlt] at h
    omega
  · intro h
    have := Nat.mod_lt (descriptorUse nPages) (Nat.two_pow_pos 64)
    omega

/-- A request that comes to nothing before any page is pinned. -/
theorem undone_early {retval : Int} (h : retval < 0) : Undone before ⟨retval, before, [], .none⟩ :=
  ⟨h, rfl, List.Perm.refl _, List.Perm.refl _⟩

def fresh (current : Nat) (vaddr : BitVec 64) (nPages : Nat) : Map :=
  ⟨current, pageMask vaddr, PAGE_SIZE, none, nPages, List.replicate nPages 0#64⟩

theorem mapIoctl_eq (hc : o.ctrlFound = true) (hu : o.copyFromUser = true) (hk : o.kvmalloc = true)
    (hn : 1 ≤ nPages) (hsize : descriptorUse nPages < 2^64) :
    mapIoctl o before current vaddr nPages =
      match mapUserPages o (fresh current vaddr nPages) with
      | none => none
      | some (err, md, e) =>
        if err ≠ 0 then
          if -4095 ≤ err then some ⟨err, before, [], unmapAndRelease md e⟩ else none
        else if !o.copyToUser then some ⟨-EFAULT, before ++ [md], [], e⟩
        else some ⟨0, before ++ [md], md.addrs.take md.nAddrs, e⟩ := by
  have hdesc : createDescriptor o current (pageMask vaddr) nPages =
      some (.ok ⟨current, pageMask vaddr, 0, none, nPages, List.replicate nPages 0#64⟩) := by
    rw [createDescriptor, hk, if_neg fun h => (descriptorSize_lt hn).mp h hsize]
    rfl
  simp only [mapIoctl, mapUserspace, hc, hu, hdesc, if_neg (Nat.not_lt.mpr hn), Bool.not_true,
    Bool.false_eq_true, if_false, fresh]
  cases mapUserPages o ⟨current, pageMask vaddr, PAGE_SIZE, none, nPages,
    List.replicate nPages 0#64⟩ with
  | none => rfl
  | some r =>
    obtain ⟨err, md, e⟩ := r
    simp only
    by_cases herr : err = 0
    · simp only [herr, ne_eq, not_true, if_false]
    · simp only [ne_eq, herr, not_false_iff, if_true]

theorem mapUserPages_pinned {pages : Area} (hk : o.kvcalloc = some pages) {k : Nat}
    (hpin : o.getUserPages = k) (hpos : 0 < k) (hle : k ≤ nPages) :
    mapUserPages o (fresh current vaddr nPages) =
      some ((dmaLoop o k 0 (List.replicate nPages 0#64)).1,
        { fresh current vaddr nPages with
          data := some (List.range k)
          nAddrs := k
          addrs := (dmaLoop o k 0 (List.replicate nPages 0#64)).2.1 },
        ⟨List.range k, [], (dmaLoop o k 0 (List.replicate nPages 0#64)).2.2, []⟩) := by
  have hneg : ¬ (k : Int) ≤ 0 := by omega
  simp only [mapUserPages, hk, hpin, hneg, if_false, Int.toNat_natCast]
  exact if_neg (Nat.not_lt.mpr hle)

/-- No page: the array is given back, and to the wrong allocator if `vmalloc` had to give it. -/
theorem mapUserPages_unpinned {pages : Area} (hk : o.kvcalloc = some pages)
    (hle : o.getUserPages ≤ 0) (m : Map) :
    mapUserPages o m = if pages = .kmalloc then some (o.getUserPages, m, .none) else none := by
  simp only [mapUserPages, hk, hle, if_true]
  cases pages <;> rfl

/-- Every page is pinned and mapped, and the addresses reach the caller. -/
theorem mapIoctl_mapped (hn : 1 ≤ nPages) (hc : o.ctrlFound = true) (hu : o.copyFromUser = true)
    (hm : o.kvmalloc = true) (hsize : descriptorUse nPages < 2^64) {pages : Area}
    (hk : o.kvcalloc = some pages) (hpin : o.getUserPages = nPages)
    (hmap : ∀ i < nPages, o.dmaMapPage i ≠ DMA_MAPPING_ERROR) (hto : o.copyToUser = true) :
    ∃ d, mapIoctl o before current vaddr nPages = some d ∧ Mapped before nPages d := by
  have hmap' : ∀ k < nPages, o.dmaMapPage (0+k) ≠ DMA_MAPPING_ERROR := by simpa using hmap
  have hok := dmaLoop_ok (List.replicate nPages 0#64) hmap' (by simp)
  have hlen := dmaLoop_length (o := o) nPages 0 (List.replicate nPages 0#64)
  rw [mapIoctl_eq hc hu hm hn hsize, mapUserPages_pinned hk hpin hn (Nat.le_refl _)]
  generalize dmaLoop o nPages 0 (List.replicate nPages 0#64) = r at hok hlen ⊢
  obtain ⟨retval, addrs, maps⟩ := r
  obtain ⟨hval, hmaps, haddrs⟩ := hok
  simp only [Nat.zero_add, List.take_zero, List.nil_append, ← List.range_eq_range',
    List.length_replicate]
    at hval hmaps haddrs hlen
  subst hval hmaps
  rw [List.take_of_length_le (Nat.le_of_eq hlen)] at haddrs
  subst haddrs
  refine ⟨_, by simp only [hto]; rfl, ?_⟩
  have hreceived :
    ((List.range nPages).map o.dmaMapPage).take nPages = (List.range nPages).map o.dmaMapPage :=
    List.take_of_length_le (Nat.le_of_eq hlen)
  constructor
  · rfl
  · rfl
  · rw [List.map_map]
    exact List.map_id _
  · simp [hreceived]
  · intro addr haddr
    simp only [hreceived] at haddr
    obtain ⟨i, hi, rfl⟩ := List.mem_map.mp haddr
    exact hmap i (List.mem_range.mp hi)
  · exact ⟨rfl, rfl⟩
  · exact ⟨_, rfl, rfl, hreceived.symm⟩

/-- With the mapping on the list a request that fails has not been undone. -/
theorem not_allOrNothing_listed {retval : Int} {m : Map} {received : List (BitVec 64)} {e : Effects}
    (h : retval < 0) :
    ¬ AllOrNothing before nPages (some ⟨retval, before ++ [m], received, e⟩) := by
  rintro (hmapped | hundone)
  · exact Int.ne_of_lt h hmapped.retval
  · have := congrArg List.length hundone.listed
    simp at this

/-- A failure between the pages: the release unmaps more than was mapped. -/
theorem not_allOrNothing_dma {k : Nat} (hk : k ≤ nPages)
    (hfail : ∃ i < k, o.dmaMapPage i = DMA_MAPPING_ERROR)
    {md : Map} (hmd : md = { fresh current vaddr nPages with
      data := some (List.range k)
      nAddrs := k
      addrs := (dmaLoop o k 0 (List.replicate nPages 0#64)).2.1 }) :
    ¬ AllOrNothing before nPages (some ⟨-ENOMEM, before, [],
      unmapAndRelease md ⟨List.range k, [], (dmaLoop o k 0 (List.replicate nPages 0#64)).2.2,
        []⟩⟩) := by
  subst hmd
  have hfail' : ∃ i < k, o.dmaMapPage (0+i) = DMA_MAPPING_ERROR := by simpa using hfail
  have hshort := (dmaLoop_fails (List.replicate nPages 0#64) hfail').2
  have hlen := dmaLoop_length (o := o) k 0 (List.replicate nPages 0#64)
  rw [List.length_replicate] at hlen
  rintro (hmapped | hundone)
  · exact absurd hmapped.retval (Int.ne_of_lt (by decide : -(ENOMEM : Int) < 0))
  · have := hundone.unmaps.length_eq
    simp only [unmapAndRelease, List.nil_append, List.length_take, List.length_map, hlen] at this
    omega

/-- All pages that were pinned are mapped, and the caller has the addresses: then these were
all of the pages. -/
theorem Mapped.pinned {k : Nat} {md : Map} {received : List (BitVec 64)}
    {maps : List (Nat × BitVec 64)}
    (h : Mapped before nPages ⟨0, before ++ [md], received, ⟨List.range k, [], maps, []⟩⟩) :
    k = nPages := by
  have := congrArg List.length h.pins
  simpa using this

section Reached
variable (hn : 1 ≤ nPages) (hc : o.ctrlFound = true) (hu : o.copyFromUser = true)
  (hm : o.kvmalloc = true)
include hn hc hu hm

theorem descriptorUse_lt (h : AllOrNothing before nPages (mapIoctl o before current vaddr nPages)) :
    descriptorUse nPages < 2^64 := by
  by_contra hsize
  have hdesc : createDescriptor o current (pageMask vaddr) nPages = none := by
    rw [createDescriptor, hm, if_pos ((descriptorSize_lt hn).mpr hsize)]
    rfl
  simp only [mapIoctl, mapUserspace, hc, hu, hdesc, if_neg (Nat.not_lt.mpr hn), Bool.not_true,
    Bool.false_eq_true, if_false] at h
  exact h

variable (hsize : descriptorUse nPages < 2^64) {pages : Area} (hk : o.kvcalloc = some pages)
include hsize hk

/-- With pages pinned, a request that is all or nothing has mapped all of them. -/
theorem pinned_clean (hpos : 0 < o.getUserPages)
    (h : AllOrNothing before nPages (mapIoctl o before current vaddr nPages)) :
    o.getUserPages = nPages ∧ (∀ i < nPages, o.dmaMapPage i ≠ DMA_MAPPING_ERROR) ∧
      o.copyToUser = true := by
  rw [mapIoctl_eq hc hu hm hn hsize] at h
  obtain ⟨k, hpin⟩ := Int.eq_ofNat_of_zero_le (Int.le_of_lt hpos)
  have hkpos : 0 < k := by omega
  by_cases hlt : nPages < k
  · -- more pages than asked for
    have hnone : mapUserPages o (fresh current vaddr nPages) = none := by
      simp only [mapUserPages, hk, hpin, Int.toNat_natCast]
      rw [if_neg (by omega)]
      exact if_pos hlt
    rw [hnone] at h
    exact h.elim
  rw [mapUserPages_pinned hk hpin hkpos (Nat.le_of_not_lt hlt)] at h
  by_cases hfail : ∃ i < k, o.dmaMapPage i = DMA_MAPPING_ERROR
  · have hfail' : ∃ i < k, o.dmaMapPage (0+i) = DMA_MAPPING_ERROR := by simpa using hfail
    have hval := (dmaLoop_fails (List.replicate nPages 0#64) hfail').1
    simp only [hval] at h
    exact (not_allOrNothing_dma (Nat.le_of_not_lt hlt) hfail rfl h).elim
  push Not at hfail
  have hmap' : ∀ i < k, o.dmaMapPage (0+i) ≠ DMA_MAPPING_ERROR := by simpa using hfail
  have hval := (dmaLoop_ok (List.replicate nPages 0#64) hmap' (by simp; omega)).1
  simp only [hval, ne_eq, not_true, if_false] at h
  split at h
  · exact (not_allOrNothing_listed (by decide) h).elim
  · rename_i hto
    rcases h with hmapped | hundone
    · obtain rfl := hmapped.pinned
      exact ⟨hpin, hfail, by simpa using hto⟩
    · exact absurd hundone.retval (Int.lt_irrefl 0)

/-- With no page pinned, the array was freed as it had been allocated and the request has
returned the error. -/
theorem unpinned_clean (hle : o.getUserPages ≤ 0)
    (h : AllOrNothing before nPages (mapIoctl o before current vaddr nPages)) :
    pages = .kmalloc ∧ -4095 ≤ o.getUserPages ∧ o.getUserPages < 0 := by
  rw [mapIoctl_eq hc hu hm hn hsize, mapUserPages_unpinned hk hle] at h
  by_cases hkm : pages = .kmalloc
  · rw [if_pos hkm] at h
    by_cases hzero : o.getUserPages = 0
    · -- no page and no error counts as success
      simp only [hzero, ne_eq, not_true, if_false] at h
      split at h
      · exact (not_allOrNothing_listed (by decide) h).elim
      · rcases h with hmapped | hundone
        · have := congrArg List.length hmapped.pins
          simp only [Effects.none, List.length_nil, List.length_range] at this
          omega
        · exact absurd hundone.retval (Int.lt_irrefl 0)
    · simp only [ne_eq, hzero, not_false_iff, if_true] at h
      split at h
      · rename_i hlow
        exact ⟨hkm, hlow, by omega⟩
      · exact h.elim
  · rw [if_neg hkm] at h
    exact h.elim

end Reached

/-- A request that is all or nothing met one of the clean outcomes. -/
theorem cleanOutcomes (hn : 1 ≤ nPages)
    (h : AllOrNothing before nPages (mapIoctl o before current vaddr nPages)) :
    CleanOutcomes o nPages := by
  rw [CleanOutcomes, or_iff_not_imp_left, or_iff_not_imp_left, or_iff_not_imp_left]
  intro hc hu hm
  rw [Bool.not_eq_false] at hc hu hm
  have hsize := descriptorUse_lt hn hc hu hm h
  refine ⟨hsize, ?_⟩
  cases hk : o.kvcalloc with
  | none => exact .inl rfl
  | some pages =>
    rcases lt_or_ge 0 o.getUserPages with hpos | hle
    · exact .inr (.inr (pinned_clean hn hc hu hm hsize hk hpos h))
    · obtain ⟨rfl, hneg⟩ := unpinned_clean hn hc hu hm hsize hk hle h
      exact .inr (.inl ⟨rfl, hneg⟩)

end Requests

/-- A request is all or nothing exactly if the calls fail before anything is pinned, with an
array that `kfree` may take if `get_user_pages` is the one, or not at all, and the size of
the descriptor does not wrap. -/
theorem host_mapping_all_or_nothing (o : Outcomes) (before : List Map) (current : Nat)
    (vaddr : BitVec 64) (nPages : Nat) (hn : 1 ≤ nPages) :
    AllOrNothing before nPages (mapIoctl o before current vaddr nPages) ↔
    CleanOutcomes o nPages := by
  constructor
  · exact cleanOutcomes hn
  intro h
  by_cases hc : o.ctrlFound = false
  · rw [mapIoctl, hc]
    exact .inr (undone_early (by decide))
  by_cases hu : o.copyFromUser = false
  · rw [mapIoctl, hu]
    simp only [hc]
    exact .inr (undone_early (by decide))
  by_cases hm : o.kvmalloc = false
  · simp only [mapIoctl, mapUserspace, createDescriptor, hc, hu, hm, if_neg (Nat.not_lt.mpr hn)]
    exact .inr (undone_early (by decide))
  obtain ⟨hsize, h⟩ := ((h.resolve_left hc).resolve_left hu).resolve_left hm
  rw [Bool.not_eq_false] at hc hu hm
  by_cases hk : o.kvcalloc = none
  · rw [mapIoctl_eq hc hu hm hn hsize, mapUserPages, hk]
    exact .inr (undone_early (by decide))
  rcases h.resolve_left hk with ⟨hkm, hlow, hneg⟩ | ⟨hpin, hmap, hto⟩
  · rw [mapIoctl_eq hc hu hm hn hsize, mapUserPages_unpinned hkm (by omega), if_pos rfl]
    simp only [ne_eq, Int.ne_of_lt hneg, not_false_iff, if_true, if_pos hlow]
    exact .inr (undone_early hneg)
  · obtain ⟨pages, hk⟩ := Option.ne_none_iff_exists'.mp hk
    have hdone : ∃ d, mapIoctl o before current vaddr nPages = some d ∧ Mapped before nPages d :=
      mapIoctl_mapped hn hc hu hm hsize hk hpin hmap hto
    obtain ⟨d, hd, hmapped⟩ := hdone
    rw [hd]
    exact .inl hmapped

/-- Three pages, with every call a success. -/
theorem three_pages_mapped : AllOrNothing [] 3
    (mapIoctl ⟨true, true, true, some .vmalloc, 3, fun i => BitVec.ofNat 64 (4096*i), true⟩
      [] 1 0x7000#64 3) :=
  (host_mapping_all_or_nothing _ [] 1 0x7000#64 3 (by decide)).mpr
    (.inr (.inr (.inr ⟨by decide, .inr (.inr ⟨rfl, by decide, rfl⟩)⟩)))

/-- The page is pinned, mapped and on the list when its address does not reach the caller: the
request fails and all of this stays. -/
theorem failed_copy_keeps_mapping :
    ∃ d, mapIoctl ⟨true, true, true, some .kmalloc, 1, fun _ => 0x10000#64, false⟩
    [] 1 0x7000#64 1 = some d ∧
      d.retval = -14 ∧ d.hostList.length = 1 ∧ d.effects = ⟨[0], [], [(0, 0x10000#64)], []⟩ :=
  ⟨_, rfl, by decide, by decide, by decide⟩

end Shaper.HostMapping
