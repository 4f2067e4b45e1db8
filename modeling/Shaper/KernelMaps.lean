import Mathlib.Data.List.Find
import Shaper.Lib.Errno
import Shaper.Lib.LinkedList

/-! The mappings that the kernel module keeps for its users: the lists of host and of
device mappings, `map_find` and the three requests of `map_ioctl` that concern them. -/
namespace Shaper.KernelMaps
open Function Lib.LinkedList Lib.Errno

def pageMask (addr : BitVec 64) : BitVec 64 := addr &&& ~~~0xfff#64
def gpuPageMask (addr : BitVec 64) : BitVec 64 := addr &&& ~~~0xffff#64

structure Map where
  owner : Nat
  vaddr : BitVec 64
  nAddrs : Nat
  deriving DecidableEq

structure State where
  host : Links Nat
  device : Links Nat
  maps : Nat → Map
  fresh : Nat
  pinned : Nat → Bool

def init : State := ⟨empty 0, empty 0, fun _ => ⟨0, 0#64, 0⟩, 1, fun _ => false⟩

def matchesAddr (current : Nat) (addr : BitVec 64) (m : Map) : Bool :=
  m.owner == current && (m.vaddr == pageMask addr || m.vaddr == gpuPageMask addr)

def mapFindFrom (l : Links Nat) (maps : Nat → Map) (current : Nat) (addr : BitVec 64) :
    Nat → Nat → Option Nat
  | 0, _ => none
  | k+1, element =>
    if element = 0 then none
    else if matchesAddr current addr (maps element) then some element
    else mapFindFrom l maps current addr k (l.next element)

def mapFind (s : State) (l : Links Nat) (current : Nat) (addr : BitVec 64) : Option Nat :=
  mapFindFrom l s.maps current addr s.fresh (l.next 0)

/-- A descriptor with its pages, from `create_descriptor` to before `list_insert`. -/
def addMap (s : State) (m : Map) : State :=
  { s with
    maps := update s.maps s.fresh m
    pinned := update s.pinned s.fresh true
    fresh := s.fresh + 1 }

/-- `map_userspace`. `pages` is what pinning and mapping the pages comes to: the number of
pages, or an error, after which the descriptor and whatever was pinned are gone again. -/
def mapUserspace (s : State) (current : Nat) (vaddr : BitVec 64) (nPages : Nat)
    (pages : Except Nat Nat) : State × Int :=
  if nPages < 1 then (s, -EINVAL)
  else match pages with
    | .error e => (s, -e)
    | .ok n =>
      ({ addMap s ⟨current, pageMask vaddr, n⟩ with host := insert s.host 0 s.fresh }, 0)

def mapDeviceMemory (s : State) (current : Nat) (vaddr : BitVec 64) (nPages : Nat)
    (pages : Except Nat Nat) : State × Int :=
  if nPages < 1 then (s, -EINVAL)
  else match pages with
    | .error e => (s, -e)
    | .ok n =>
      ({ addMap s ⟨current, gpuPageMask vaddr, n⟩ with device := insert s.device 0 s.fresh }, 0)

/-- The request NVM_UNMAP_MEMORY, with `unmap_and_release` on what is found. -/
def unmapMemory (s : State) (current : Nat) (addr : BitVec 64) : State × Int :=
  match mapFind s s.host current addr with
  | some m => ({ s with host := remove s.host m, pinned := update s.pinned m false }, 0)
  | none =>
    match mapFind s s.device current addr with
    | some m => ({ s with device := remove s.device m, pinned := update s.pinned m false }, 0)
    | none => (s, -EINVAL)

inductive Request where
  | mapHost (vaddr : BitVec 64) (nPages : Nat) (pages : Except Nat Nat)
  | mapDevice (vaddr : BitVec 64) (nPages : Nat) (pages : Except Nat Nat)
  | unmap (addr : BitVec 64)

def mapIoctl (s : State) (current : Nat) : Request → State × Int
  | .mapHost vaddr nPages pages => mapUserspace s current vaddr nPages pages
  | .mapDevice vaddr nPages pages => mapDeviceMemory s current vaddr nPages pages
  | .unmap addr => unmapMemory s current addr

inductive Reach : State → Prop where
  | init : Reach init
  | step {s : State} (hs : Reach s) (current : Nat) (req : Request) :
    Reach (mapIoctl s current req).1

def hostMaps (s : State) : List Nat := follow s.host 0 s.fresh 0
def deviceMaps (s : State) : List Nat := follow s.device 0 s.fresh 0

theorem mapFindFrom_eq (l : Links Nat) (maps : Nat → Map) (current : Nat) (addr : BitVec 64)
    (k x : Nat) : mapFindFrom l maps current addr k (l.next x) =
      (follow l 0 k x).find? fun m => matchesAddr current addr (maps m) := by
  induction k generalizing x with
  | zero => rfl
  | succ k ih =>
    unfold mapFindFrom follow
    by_cases hx : l.next x = 0
    · rw [if_pos hx, if_pos hx]
      rfl
    · rw [if_neg hx, if_neg hx, List.find?_cons]
      cases hm : matchesAddr current addr (maps (l.next x)) with
      | true => rfl
      | false => exact ih (l.next x)

structure Listed (l : Links Nat) (fresh : Nat) (pinned : Nat → Bool) (ids : List Nat) : Prop where
  holds : Holds l 0 ids
  lt_fresh : ∀ m ∈ ids, m < fresh
  length_lt : ids.length < fresh
  pinned_eq : ∀ m ∈ ids, pinned m = true

structure Inv (s : State) : Prop where
  host : Listed s.host s.fresh s.pinned (hostMaps s)
  device : Listed s.device s.fresh s.pinned (deviceMaps s)
  disjoint : ∀ m ∈ hostMaps s, m ∉ deviceMaps s
  aligned : ∀ m ∈ deviceMaps s, gpuPageMask (s.maps m).vaddr = (s.maps m).vaddr

namespace Listed
variable {l : Links Nat} {fresh e : Nat} {pinned : Nat → Bool} {ids : List Nat}

theorem follow_eq (h : Listed l fresh pinned ids) : follow l 0 fresh 0 = ids :=
  h.holds.follow (Nat.le_of_lt h.length_lt)

theorem fresh_notMem (h : Listed l fresh pinned ids) : fresh ∉ 0 :: ids := by
  intro hx
  rcases List.mem_cons.mp hx with hx | hx
  · have := h.length_lt
    omega
  · exact Nat.lt_irrefl _ (h.lt_fresh _ hx)

theorem grow (h : Listed l fresh pinned ids) :
    Listed l (fresh+1) (update pinned fresh true) ids where
  holds := h.holds
  lt_fresh m hm := Nat.lt_succ_of_lt (h.lt_fresh m hm)
  length_lt := Nat.lt_succ_of_lt h.length_lt
  pinned_eq m hm := by
    rw [update_of_ne (Nat.ne_of_lt (h.lt_fresh m hm))]
    exact h.pinned_eq m hm

theorem insert (h : Listed l fresh pinned ids) :
    Listed (insert l 0 fresh) (fresh+1) (update pinned fresh true) (ids ++ [fresh]) where
  holds := h.holds.insert h.fresh_notMem
  lt_fresh m hm := by
    rcases List.mem_append.mp hm with hm | hm
    · exact Nat.lt_succ_of_lt (h.lt_fresh m hm)
    · rw [List.mem_singleton.mp hm]
      exact Nat.lt_succ_self _
  length_lt := by
    rw [List.length_append]
    exact Nat.succ_lt_succ h.length_lt
  pinned_eq m hm := by
    rcases List.mem_append.mp hm with hm | hm
    · exact h.grow.pinned_eq m hm
    · rw [List.mem_singleton.mp hm, update_self]

theorem remove (h : Listed l fresh pinned ids) (he : e ∈ ids) :
    Listed (remove l e) fresh (update pinned e false) (ids.erase e) where
  holds := h.holds.remove he
  lt_fresh m hm := h.lt_fresh m (List.mem_of_mem_erase hm)
  length_lt := Nat.lt_of_le_of_lt List.length_erase_le h.length_lt
  pinned_eq m hm := by
    have hnd := (List.nodup_cons.mp h.holds.nodup).2
    have hne : m ≠ e := ((List.Nodup.mem_erase_iff hnd).mp hm).1
    rw [update_of_ne hne]
    exact h.pinned_eq m (List.mem_of_mem_erase hm)

theorem release (h : Listed l fresh pinned ids) (he : e ∉ ids) :
    Listed l fresh (update pinned e false) ids where
  holds := h.holds
  lt_fresh := h.lt_fresh
  length_lt := h.length_lt
  pinned_eq m hm := by
    have hne : m ≠ e := fun hx => he (hx ▸ hm)
    rw [update_of_ne hne]
    exact h.pinned_eq m hm

end Listed

theorem listed_empty : Listed (empty 0) 1 (fun _ => false) [] where
  holds := holds_empty 0
  lt_fresh _ hm := by cases hm
  length_lt := Nat.zero_lt_one
  pinned_eq _ hm := by cases hm

theorem inv_init : Inv init where
  host := listed_empty
  device := listed_empty
  disjoint _ hm := by cases hm
  aligned _ hm := by cases hm

theorem gpuPageMask_gpuPageMask (addr : BitVec 64) :
    gpuPageMask (gpuPageMask addr) = gpuPageMask addr := by
  unfold gpuPageMask
  rw [BitVec.and_assoc, BitVec.and_self]

theorem gpuPageMask_pageMask (addr : BitVec 64) :
    gpuPageMask (pageMask addr) = gpuPageMask addr := by
  unfold gpuPageMask pageMask
  rw [BitVec.and_assoc]
  rfl

theorem Inv.of_listed {s : State} {hs ds : List Nat} (hh : Listed s.host s.fresh s.pinned hs)
    (hd : Listed s.device s.fresh s.pinned ds) (hdisj : ∀ m ∈ hs, m ∉ ds)
    (halign : ∀ m ∈ ds, gpuPageMask (s.maps m).vaddr = (s.maps m).vaddr) :
    Inv s ∧ hostMaps s = hs ∧ deviceMaps s = ds := by
  have h₁ : hostMaps s = hs := hh.follow_eq
  have h₂ : deviceMaps s = ds := hd.follow_eq
  refine ⟨⟨?_, ?_, ?_, ?_⟩, h₁, h₂⟩
  · rwa [h₁]
  · rwa [h₂]
  · rwa [h₁, h₂]
  · rwa [h₂]

variable {s : State} {current : Nat} {addr : BitVec 64} {m : Nat}

theorem Inv.mapUserspace (h : Inv s) (vaddr : BitVec 64) (nPages : Nat) (pages : Except Nat Nat) :
    Inv (mapUserspace s current vaddr nPages pages).1 := by
  unfold KernelMaps.mapUserspace
  split
  · exact h
  · cases pages with
    | error e => exact h
    | ok n =>
      refine (Inv.of_listed h.host.insert h.device.grow ?_ ?_).1
      · intro m hm
        rcases List.mem_append.mp hm with hm | hm
        · exact h.disjoint m hm
        · rw [List.mem_singleton.mp hm]
          exact fun hx => Nat.lt_irrefl _ (h.device.lt_fresh _ hx)
      · intro m hm
        have hne := Nat.ne_of_lt (h.device.lt_fresh m hm)
        change gpuPageMask (update s.maps s.fresh _ m).vaddr = (update s.maps s.fresh _ m).vaddr
        rw [update_of_ne hne]
        exact h.aligned m hm

theorem Inv.mapDeviceMemory (h : Inv s) (vaddr : BitVec 64) (nPages : Nat)
    (pages : Except Nat Nat) : Inv (mapDeviceMemory s current vaddr nPages pages).1 := by
  unfold KernelMaps.mapDeviceMemory
  split
  · exact h
  · cases pages with
    | error e => exact h
    | ok n =>
      refine (Inv.of_listed h.host.grow h.device.insert ?_ ?_).1
      · intro m hm hm'
        rcases List.mem_append.mp hm' with hm' | hm'
        · exact h.disjoint m hm hm'
        · exact Nat.ne_of_lt (h.host.lt_fresh m hm) (List.mem_singleton.mp hm')
      · intro m hm
        change gpuPageMask (update s.maps s.fresh _ m).vaddr = (update s.maps s.fresh _ m).vaddr
        rcases List.mem_append.mp hm with hm | hm
        · rw [update_of_ne (Nat.ne_of_lt (h.device.lt_fresh m hm))]
          exact h.aligned m hm
        · rw [List.mem_singleton.mp hm, update_self]
          exact gpuPageMask_gpuPageMask vaddr

def dropHost (s : State) (m : Nat) : State :=
  { s with host := remove s.host m, pinned := update s.pinned m false }

def dropDevice (s : State) (m : Nat) : State :=
  { s with device := remove s.device m, pinned := update s.pinned m false }

theorem Inv.dropHost (h : Inv s) (hm : m ∈ hostMaps s) : Inv (dropHost s m) ∧
    hostMaps (dropHost s m) = (hostMaps s).erase m ∧ deviceMaps (dropHost s m) = deviceMaps s :=
  Inv.of_listed (h.host.remove hm) (h.device.release (h.disjoint m hm))
    (fun _ hx => h.disjoint _ (List.mem_of_mem_erase hx)) h.aligned

theorem Inv.dropDevice (h : Inv s) (hm : m ∈ deviceMaps s) : Inv (dropDevice s m) ∧
    hostMaps (dropDevice s m) = hostMaps s ∧
    deviceMaps (dropDevice s m) = (deviceMaps s).erase m :=
  Inv.of_listed (h.host.release fun hx => h.disjoint m hx hm) (h.device.remove hm)
    (fun _ hx hx' => h.disjoint _ hx (List.mem_of_mem_erase hx'))
    (fun _ hx => h.aligned _ (List.mem_of_mem_erase hx))

def foundHost (s : State) (current : Nat) (addr : BitVec 64) : Option Nat :=
  (hostMaps s).find? fun m => matchesAddr current addr (s.maps m)

def foundDevice (s : State) (current : Nat) (addr : BitVec 64) : Option Nat :=
  (deviceMaps s).find? fun m => matchesAddr current addr (s.maps m)

theorem unmapMemory_eq (s : State) (current : Nat) (addr : BitVec 64) :
    unmapMemory s current addr =
      match foundHost s current addr with
      | some m => (dropHost s m, 0)
      | none =>
        match foundDevice s current addr with
        | some m => (dropDevice s m, 0)
        | none => (s, -EINVAL) := by
  unfold unmapMemory mapFind foundHost foundDevice
  rw [mapFindFrom_eq, mapFindFrom_eq]
  rfl

theorem Inv.unmapMemory (h : Inv s) : Inv (unmapMemory s current addr).1 := by
  rw [unmapMemory_eq]
  cases hh : foundHost s current addr with
  | some m => exact (h.dropHost (List.mem_of_find?_eq_some hh)).1
  | none =>
    cases hd : foundDevice s current addr with
    | some m => exact (h.dropDevice (List.mem_of_find?_eq_some hd)).1
    | none => exact h

theorem Reach.inv (h : Reach s) : Inv s := by
  induction h with
  | init => exact inv_init
  | step hs current req ih =>
    cases req with
    | mapHost vaddr nPages pages => exact ih.mapUserspace vaddr nPages pages
    | mapDevice vaddr nPages pages => exact ih.mapDeviceMemory vaddr nPages pages
    | unmap addr => exact ih.unmapMemory

def namedHost (s : State) (current : Nat) (addr : BitVec 64) : Option Nat :=
  (hostMaps s).find? fun m => (s.maps m).owner == current && (s.maps m).vaddr == pageMask addr

def namedDevice (s : State) (current : Nat) (addr : BitVec 64) : Option Nat :=
  (deviceMaps s).find? fun m => (s.maps m).owner == current && (s.maps m).vaddr == gpuPageMask addr

def named (s : State) (current : Nat) (addr : BitVec 64) : Option Nat :=
  (namedHost s current addr).or (namedDevice s current addr)

def UnmapsNamed (s : State) (current : Nat) (addr : BitVec 64) : Prop :=
  match named s current addr with
  | none => unmapMemory s current addr = (s, -(EINVAL : Int))
  | some m =>
    let (s', ret) := unmapMemory s current addr
    ret = 0 ∧ hostMaps s' = (hostMaps s).erase m ∧ deviceMaps s' = (deviceMaps s).erase m ∧
      s'.maps = s.maps ∧ s'.pinned = update s.pinned m false ∧
      ∀ m' ∈ hostMaps s' ++ deviceMaps s', s'.pinned m' = true

/-- A host mapping that the caller made at the 64 KB page of `addr`, when that is not the
page of `addr`, stands behind the one at the page of `addr`. -/
def Unshadowed (s : State) (current : Nat) (addr : BitVec 64) : Prop :=
  ∀ m ∈ hostMaps s, (s.maps m).owner = current → (s.maps m).vaddr = gpuPageMask addr →
    gpuPageMask addr = pageMask addr ∨ ∃ m' ∈ (hostMaps s).takeWhile (· != m),
      (s.maps m').owner = current ∧ (s.maps m').vaddr = pageMask addr

theorem foundDevice_eq (h : Inv s) (current : Nat) (addr : BitVec 64) :
    foundDevice s current addr = namedDevice s current addr := by
  unfold foundDevice namedDevice
  refine List.find?_congr ?_
  intro m hm
  have hal := h.aligned m hm
  unfold matchesAddr
  congr 1
  rw [Bool.eq_iff_iff, Bool.or_eq_true, beq_iff_eq, beq_iff_eq]
  constructor
  · rintro (hx | hx)
    · rw [← hal, hx, gpuPageMask_pageMask]
    · exact hx
  · exact .inr

/-- Looking for either of two kinds finds the first of the one kind just if none of the
other kind only stands before it. -/
theorem find?_or_eq_iff {p q : Nat → Bool} {ids : List Nat} :
    ids.find? (fun m => p m || q m) = ids.find? p ↔
      ∀ m ∈ ids, q m = true → p m = true ∨ ∃ m' ∈ ids.takeWhile (· != m), p m' = true := by
  induction ids with
  | nil => exact iff_of_true rfl fun m hm => absurd hm List.not_mem_nil
  | cons a as ih =>
    have htake {m : Nat} (hm : m ≠ a) :
        (a :: as).takeWhile (· != m) = a :: as.takeWhile (· != m) :=
      List.takeWhile_cons_of_pos (bne_iff_ne.mpr hm.symm)
    by_cases hp : p a = true
    · rw [List.find?_cons_of_pos (by rw [hp, Bool.true_or]), List.find?_cons_of_pos hp]
      refine iff_of_true rfl fun m _ _ => ?_
      by_cases hm : m = a
      · exact .inl (hm ▸ hp)
      · exact .inr ⟨a, htake hm ▸ List.mem_cons_self, hp⟩
    · rw [List.find?_cons_of_neg (l := as) hp]
      by_cases hq : q a = true
      · rw [List.find?_cons_of_pos (by rw [hq, Bool.or_true])]
        refine iff_of_false (fun h => hp (List.find?_some h.symm)) fun h => ?_
        rcases h a List.mem_cons_self hq with hx | ⟨m', hm', -⟩
        · exact hp hx
        · rw [List.takeWhile_cons_of_neg
            (by rw [bne_self_eq_false]; exact Bool.false_ne_true)] at hm'
          exact absurd hm' List.not_mem_nil
      · rw [List.find?_cons_of_neg (by simp [hp, hq]), ih]
        -- the first element is of neither kind and stands before all that are of one
        constructor
        · intro h m hm hqm
          have hma : m ≠ a := fun hx => hq (hx ▸ hqm)
          rw [htake hma]
          rcases h m ((List.mem_cons.mp hm).resolve_left hma) hqm with hx | ⟨m', hm', hx⟩
          · exact .inl hx
          · exact .inr ⟨m', List.mem_cons_of_mem _ hm', hx⟩
        · intro h m hm hqm
          have hma : m ≠ a := fun hx => hq (hx ▸ hqm)
          rcases h m (List.mem_cons_of_mem _ hm) hqm with hx | ⟨m', hm', hx⟩
          · exact .inl hx
          · rw [htake hma] at hm'
            exact .inr ⟨m', (List.mem_cons.mp hm').resolve_left fun he => hp (he ▸ hx), hx⟩

theorem unshadowed_iff (s : State) (current : Nat) (addr : BitVec 64) :
    Unshadowed s current addr ↔ foundHost s current addr = namedHost s current addr := by
  have hfound : foundHost s current addr = (hostMaps s).find? fun m =>
      (s.maps m).owner == current && (s.maps m).vaddr == pageMask addr ||
        (s.maps m).owner == current && (s.maps m).vaddr == gpuPageMask addr := by
    refine List.find?_congr fun m _ => ?_
    rw [← Bool.and_or_distrib_left]
    rfl
  rw [hfound, namedHost, find?_or_eq_iff]
  simp only [Bool.and_eq_true, beq_iff_eq]
  constructor
  · rintro h m hm ⟨ho, hv⟩
    refine (h m hm ho hv).imp (fun hx => ⟨ho, hv.trans hx⟩) fun hx => hx
  · intro h m hm ho hv
    refine (h m hm ⟨ho, hv⟩).imp (fun hx => hv.symm.trans hx.2) fun hx => hx

theorem named_of_host (h : namedHost s current addr = some m) : named s current addr = some m := by
  rw [named, h, Option.some_or]

theorem named_of_none (h : namedHost s current addr = none) :
    named s current addr = namedDevice s current addr := by
  rw [named, h, Option.none_or]

theorem Inv.pinned_eq (h : Inv s) (hm : m ∈ hostMaps s ++ deviceMaps s) : s.pinned m = true := by
  rcases List.mem_append.mp hm with hm | hm
  · exact h.host.pinned_eq m hm
  · exact h.device.pinned_eq m hm

/-- An unmap does to the lists and the pages exactly what its address names, just if no
host mapping at the 64 KB page of the address comes before the one named. -/
theorem unmap_releases_named_iff (h : Reach s) (current : Nat) (addr : BitVec 64) :
    UnmapsNamed s current addr ↔ Unshadowed s current addr := by
  have hinv := h.inv
  have hdev := foundDevice_eq hinv current addr
  rw [unshadowed_iff]
  unfold UnmapsNamed
  rw [unmapMemory_eq, hdev]
  constructor
  · intro hu
    cases hf : foundHost s current addr with
    | none =>
      -- then no host mapping is named either
      refine (List.find?_eq_none.mpr fun m hm hx => ?_).symm
      refine List.find?_eq_none.mp hf m hm ?_
      obtain ⟨ho, hv⟩ := Bool.and_eq_true_iff.mp hx
      simp only [matchesAddr, ho, hv, Bool.true_or, Bool.and_true]
    | some m =>
      have hm : m ∈ hostMaps s := List.mem_of_find?_eq_some hf
      obtain ⟨-, hhost, -⟩ := hinv.dropHost hm
      have hnd := (List.nodup_cons.mp hinv.host.holds.nodup).2
      have hgone : m ∉ hostMaps (dropHost s m) := by
        rw [hhost]
        exact hnd.not_mem_erase
      rw [hf] at hu
      cases hn : named s current addr with
      | none =>
        rw [hn] at hu
        have hs : dropHost s m = s := congrArg Prod.fst hu
        exact absurd (hs.symm ▸ hm) hgone
      | some m' =>
        rw [hn] at hu
        obtain ⟨-, hu, -⟩ := hu
        have hmm : m = m' := by
          by_contra hne
          refine hgone ?_
          rw [hu]
          exact (List.mem_erase_of_ne hne).mpr hm
        cases hh : namedHost s current addr with
        | some m₁ => rw [hmm, ← hn, named_of_host hh]
        | none =>
          rw [named_of_none hh] at hn
          exact absurd (hmm ▸ List.mem_of_find?_eq_some hn) (hinv.disjoint m hm)
  · intro hf
    rw [hf]
    cases hh : namedHost s current addr with
    | some m =>
      have hm : m ∈ hostMaps s := List.mem_of_find?_eq_some hh
      obtain ⟨hinv', hhost, hdevice⟩ := hinv.dropHost hm
      rw [named_of_host hh]
      refine ⟨rfl, hhost, ?_, rfl, rfl, fun m' hm' => hinv'.pinned_eq hm'⟩
      rw [hdevice, List.erase_of_not_mem (hinv.disjoint m hm)]
    | none =>
      rw [named_of_none hh]
      cases hd : namedDevice s current addr with
      | none => rfl
      | some m =>
        have hm : m ∈ deviceMaps s := List.mem_of_find?_eq_some hd
        obtain ⟨hinv', hhost, hdevice⟩ := hinv.dropDevice hm
        refine ⟨rfl, ?_, hdevice, rfl, rfl, fun m' hm' => hinv'.pinned_eq hm'⟩
        rw [hhost, List.erase_of_not_mem fun hx => hinv.disjoint m hx hm]

def twoMapped (first second : BitVec 64) : State :=
  (mapIoctl (mapIoctl init 7 (.mapHost first 1 (.ok 1))).1 7 (.mapHost second 1 (.ok 1))).1

theorem twoMapped_reach (first second : BitVec 64) : Reach (twoMapped first second) :=
  (Reach.init.step 7 _).step 7 _

theorem later_mapping_unmapped : named (twoMapped 0x11000 0x10000) 7 0x10000 = some 2 ∧
    Unshadowed (twoMapped 0x11000 0x10000) 7 0x10000 ∧
    UnmapsNamed (twoMapped 0x11000 0x10000) 7 0x10000 := by
  have hclear : Unshadowed (twoMapped 0x11000 0x10000) 7 0x10000 := by
    unfold Unshadowed
    decide
  exact ⟨by decide, hclear, (unmap_releases_named_iff (twoMapped_reach _ _) _ _).mpr hclear⟩

def Distinct (s : State) : Prop :=
  ((hostMaps s ++ deviceMaps s).map fun m => (s.maps m).vaddr).Nodup

/-- With pages 0x10000 and 0x11000 mapped, unmapping 0x11000 releases the page at 0x10000,
and so does unmapping 0x12000, where nothing was ever mapped. -/
theorem unmap_releases_neighbour : ∃ s, Reach s ∧ Distinct s ∧
    (named s 7 0x11000 = some 2 ∧ hostMaps (unmapMemory s 7 0x11000).1 = [2] ∧
      (unmapMemory s 7 0x11000).1.pinned 1 = false ∧ ¬ UnmapsNamed s 7 0x11000) ∧
    (named s 7 0x12000 = none ∧ hostMaps (unmapMemory s 7 0x12000).1 = [2] ∧
      (unmapMemory s 7 0x12000).2 = 0 ∧ ¬ UnmapsNamed s 7 0x12000) := by
  refine ⟨twoMapped 0x10000 0x11000, twoMapped_reach _ _, ?_, ?_, ?_⟩
  · unfold Distinct
    decide
  · have hhost : hostMaps (unmapMemory (twoMapped 0x10000 0x11000) 7 0x11000).1 = [2] := by decide
    refine ⟨by decide, hhost, by decide, fun hu => ?_⟩
    have herase : hostMaps (unmapMemory (twoMapped 0x10000 0x11000) 7 0x11000).1 =
      (hostMaps (twoMapped 0x10000 0x11000)).erase 2 := hu.2.1
    rw [hhost] at herase
    revert herase
    decide
  · have hret : (unmapMemory (twoMapped 0x10000 0x11000) 7 0x12000).2 = 0 := by decide
    refine ⟨by decide, by decide, hret, fun hu => ?_⟩
    have hfail : (unmapMemory (twoMapped 0x10000 0x11000) 7 0x12000).2 = -EINVAL :=
      congrArg Prod.snd hu
    rw [hret] at hfail
    revert hfail
    decide

end Shaper.KernelMaps
