import Mathlib.Logic.Function.Basic
import Shaper.Lib.Decimal
import Shaper.Lib.Errno
import Shaper.Lib.Lists

/-! The controllers of the kernel module: `add_pci_dev` numbers them with a counter of the live
ones, and `remove_pci_dev` gives back what the probe of the device took. -/
namespace Shaper.Controllers
open Function Lib.Errno Lib.Lists

structure Ctrl where
  id : Nat
  pdev : Nat
  number : Int
  chrdev : Bool
  deriving DecidableEq

def Ctrl.name (c : Ctrl) : String := "libnvm" ++ c.number.repr

def Ctrl.minor (first : Int) (c : Ctrl) : Int := first + c.number

structure Outcomes where
  kmalloc : Bool
  requestRegion : Int
  enableDevice : Int
  cdevAdd : Int
  deviceCreate : Int

/-- `bound` are the devices whose probe returned 0, so that the bus will remove them. `stray`
remembers that something was released that was not held. -/
structure State where
  currCtrls : Int
  ctrlList : List Ctrl
  fresh : Nat
  region : Nat → Bool
  enabled : Nat → Bool
  master : Nat → Bool
  bound : Nat → Bool
  stray : Bool

def init : State :=
  ⟨0, [], 0, fun _ => false, fun _ => false, fun _ => false, fun _ => false, false⟩

namespace State
variable (s : State) (dev : Nat)

def ctrlGet : State :=
  { s with ctrlList := s.ctrlList ++ [⟨s.fresh, dev, s.currCtrls, false⟩], fresh := s.fresh + 1 }

def ctrlPut (id : Option Nat) : State :=
  match id with
  | some id => { s with ctrlList := s.ctrlList.filter fun c => c.id ≠ id }
  | none => s

def ctrlFindByPciDev : Option Nat := (s.ctrlList.find? fun c => c.pdev = dev).map (·.id)

def requestRegion : State := { s with region := update s.region dev true }
def releaseRegion : State :=
  { s with region := update s.region dev false, stray := s.stray || !s.region dev }
def enableDevice : State := { s with enabled := update s.enabled dev true }
def disableDevice : State :=
  { s with enabled := update s.enabled dev false, stray := s.stray || !s.enabled dev }
def setMaster : State := { s with master := update s.master dev true }
def clearMaster : State :=
  { s with master := update s.master dev false, stray := s.stray || !s.master dev }

def chrdevCreate (id : Nat) : State :=
  { s with ctrlList := s.ctrlList.map fun c => if c.id = id then { c with chrdev := true } else c }
end State

def Outcomes.chrdevCreate (o : Outcomes) : Int := if o.cdevAdd ≠ 0 then o.cdevAdd
    else o.deviceCreate

section Driver
variable (maxNumCtrls : Int)

def addPciDev (s : State) (dev : Nat) (o : Outcomes) : State × Int :=
  if maxNumCtrls ≤ s.currCtrls then (s, 0)
  else if !o.kmalloc then (s, -ENOMEM)
  else
    let ctrl := s.fresh
    let s := s.ctrlGet dev
    if o.requestRegion ≠ 0 then (s.ctrlPut ctrl, o.requestRegion)
    else
      let s := s.requestRegion dev
      if o.enableDevice < 0 then ((s.releaseRegion dev).ctrlPut ctrl, o.enableDevice)
      else
        let s := s.enableDevice dev
        if o.chrdevCreate ≠ 0 then
          (((s.disableDevice dev).releaseRegion dev).ctrlPut ctrl, o.chrdevCreate)
        else
          let s := (s.chrdevCreate ctrl).setMaster dev
          ({ s with currCtrls := s.currCtrls + 1 }, 0)

def removePciDev (s : State) (dev : Nat) : State :=
  let s := { s with currCtrls := s.currCtrls - 1 }
  let s := s.ctrlPut (s.ctrlFindByPciDev dev)
  ((s.releaseRegion dev).clearMaster dev).disableDevice dev

inductive Event where
  | probe (dev : Nat) (o : Outcomes)
  | remove (dev : Nat)

def Allowed (s : State) : Event → Prop
  | .probe dev _ => s.bound dev = false
  | .remove dev => s.bound dev = true

def step (s : State) : Event → State
  | .probe dev o =>
    let (t, err) := addPciDev maxNumCtrls s dev o
    if err = 0 then { t with bound := update t.bound dev true } else t
  | .remove dev => { removePciDev s dev with bound := update s.bound dev false }

inductive Reach (ok : State → Event → Prop) : State → Prop where
  | init : Reach ok init
  | step {s : State} (hs : Reach ok s) {e : Event} (ha : Allowed s e) (hok : ok s e) :
    Reach ok (step maxNumCtrls s e)

structure Good (s : State) : Prop where
  numbers : (s.ctrlList.map (·.number)).Nodup
  below : ∀ c ∈ s.ctrlList, 0 ≤ c.number ∧ c.number < maxNumCtrls
  names : (s.ctrlList.map (·.name)).Nodup
  minors : ∀ first, (s.ctrlList.map (·.minor first)).Nodup
  count : s.currCtrls = s.ctrlList.length
  released : s.stray = false

def Adds (s : State) (o : Outcomes) : Prop :=
  s.currCtrls < maxNumCtrls ∧ o.kmalloc = true ∧ o.requestRegion = 0 ∧ 0 ≤ o.enableDevice ∧
    o.chrdevCreate = 0

def Careful (s : State) : Event → Prop
  | .probe _ o => Adds maxNumCtrls s o → ∀ c ∈ s.ctrlList, c.number ≠ s.currCtrls
  | .remove dev => ∃ c ∈ s.ctrlList, c.pdev = dev

end Driver

theorem name_inj {c c' : Ctrl} (h : c.name = c'.name) : c.number = c'.number := by
  have htext := congrArg String.toList h
  simp only [Ctrl.name, String.toList_append] at htext
  exact Lib.Decimal.intRepr_inj (String.toList_injective (List.append_cancel_left htext))

section Lists
variable {l : List Ctrl}

theorem nodup_names (h : (l.map (·.number)).Nodup) : (l.map (·.name)).Nodup := by
  apply List.pairwise_map.mpr
  exact (List.pairwise_map.mp h).imp fun hne heq => hne (name_inj heq)

theorem nodup_minors (h : (l.map (·.number)).Nodup) (first : Int) :
    (l.map (·.minor first)).Nodup := by
  apply List.pairwise_map.mpr
  exact (List.pairwise_map.mp h).imp fun hne heq => hne (Int.add_left_cancel heq)

theorem forall_mem_concat {p : Ctrl → Prop} {c : Ctrl} (h : ∀ d ∈ l, p d) (hc : p c) :
    ∀ d ∈ l ++ [c], p d := by
  intro d hd
  rcases List.mem_append.mp hd with hd | hd
  · exact h d hd
  · obtain rfl := List.mem_singleton.mp hd
    exact hc

theorem length_filter_id (h : (l.map (·.id)).Nodup) {c : Ctrl} (hc : c ∈ l) :
    (l.filter fun d => d.id ≠ c.id).length + 1 = l.length := by
  induction l with
  | nil => cases hc
  | cons x l ih =>
    obtain ⟨hx, hl⟩ := List.nodup_cons.mp h
    rcases List.mem_cons.mp hc with rfl | hc
    · have hall : l.filter (fun d => d.id ≠ c.id) = l := by
        apply List.filter_eq_self.mpr
        intro d hd
        simp only [ne_eq, decide_eq_true_eq]
        exact fun heq => hx (List.mem_map.mpr ⟨d, hd, heq⟩)
      rw [List.filter_cons_of_neg (by simp), hall, List.length_cons]
    · have hne : x.id ≠ c.id := fun heq => hx (List.mem_map.mpr ⟨c, hc, heq.symm⟩)
      rw [List.filter_cons_of_pos (by simpa using hne), List.length_cons, ih hl hc,
        List.length_cons]

end Lists

structure Inv (maxNumCtrls : Int) (s : State) : Prop where
  good : Good maxNumCtrls s
  ids : (s.ctrlList.map (·.id)).Nodup
  ids_lt : ∀ c ∈ s.ctrlList, c.id < s.fresh
  pdevs : (s.ctrlList.map (·.pdev)).Nodup
  bound : ∀ c ∈ s.ctrlList, s.bound c.pdev = true
  held : ∀ c ∈ s.ctrlList, s.region c.pdev = true ∧ s.enabled c.pdev = true ∧ s.master c.pdev = true

structure Unwound (s t : State) (dev : Nat) : Prop where
  curr : t.currCtrls = s.currCtrls
  list : t.ctrlList = s.ctrlList
  fresh : s.fresh ≤ t.fresh
  bound : t.bound = s.bound
  stray : t.stray = s.stray
  other : ∀ d ≠ dev, t.region d = s.region d ∧ t.enabled d = s.enabled d ∧ t.master d = s.master d

section Steps
variable {maxNumCtrls : Int} {s t : State} {dev : Nat} {o : Outcomes}

theorem ctrlPut_ctrlGet (dev : Nat) (h : ∀ c ∈ s.ctrlList, c.id < s.fresh) :
    (s.ctrlList ++ [(⟨s.fresh, dev, s.currCtrls, false⟩ : Ctrl)]).filter (fun c => c.id ≠ s.fresh) =
      s.ctrlList := by
  rw [List.filter_append, List.filter_eq_self.mpr]
  · simp
  · intro c hc
    have := h c hc
    simp only [ne_eq, decide_eq_true_eq]
    omega

theorem addPciDev_fails (dev : Nat) (h : ∀ c ∈ s.ctrlList, c.id < s.fresh)
    (hlim : s.currCtrls < maxNumCtrls)
    (hfail : ¬ Adds maxNumCtrls s o) : (addPciDev maxNumCtrls s dev o).2 ≠ 0 ∧
      Unwound s (addPciDev maxNumCtrls s dev o).1 dev := by
  have hput := ctrlPut_ctrlGet dev h
  rw [addPciDev, if_neg (by omega)]
  split
  · exact ⟨(by decide : -(ENOMEM : Int) ≠ 0), rfl, rfl, Nat.le_refl _, rfl, rfl,
      fun _ _ => ⟨rfl, rfl, rfl⟩⟩
  rename_i hk
  simp only
  split
  · rename_i hr
    exact ⟨hr, rfl, hput, Nat.le_succ _, rfl, rfl, fun _ _ => ⟨rfl, rfl, rfl⟩⟩
  rename_i hr
  split
  · rename_i he
    refine ⟨by omega, rfl, hput, Nat.le_succ _, rfl, ?_, fun d hd => ⟨?_, rfl, rfl⟩⟩
    · simp [State.ctrlPut, State.releaseRegion, State.requestRegion, State.ctrlGet]
    · simp [State.ctrlPut, State.releaseRegion, State.requestRegion, State.ctrlGet, hd]
  rename_i he
  split
  · rename_i hch
    refine ⟨hch, rfl, hput, Nat.le_succ _, rfl, ?_, fun d hd => ⟨?_, ?_, rfl⟩⟩
    · simp [State.ctrlPut, State.releaseRegion, State.disableDevice, State.enableDevice,
        State.requestRegion, State.ctrlGet]
    · simp [State.ctrlPut, State.releaseRegion, State.disableDevice, State.enableDevice,
        State.requestRegion, State.ctrlGet, hd]
    · simp [State.ctrlPut, State.releaseRegion, State.disableDevice, State.enableDevice,
        State.requestRegion, State.ctrlGet, hd]
  · rename_i hch
    exact absurd ⟨hlim, by simpa using hk, by simpa using hr, by omega, by simpa using hch⟩ hfail

theorem addPciDev_adds (h : ∀ c ∈ s.ctrlList, c.id < s.fresh) (hadds : Adds maxNumCtrls s o) :
    addPciDev maxNumCtrls s dev o =
      ({ s with
          ctrlList := s.ctrlList ++ [⟨s.fresh, dev, s.currCtrls, true⟩]
          fresh := s.fresh + 1
          region := update s.region dev true
          enabled := update s.enabled dev true
          master := update s.master dev true
          currCtrls := s.currCtrls + 1 }, 0) := by
  obtain ⟨hlim, hk, hr, he, hch⟩ := hadds
  have hmap : s.ctrlList.map (fun c => if c.id = s.fresh then { c with chrdev := true } else c) =
    s.ctrlList := by
    refine (List.map_congr_left fun c hc => ?_).trans (List.map_id _)
    rw [if_neg (Nat.ne_of_lt (h c hc))]
    rfl
  rw [addPciDev, if_neg (by omega), if_neg (by simp [hk])]
  simp only [hr, ne_eq, not_true, if_false, if_neg (Int.not_lt.mpr he), hch, State.ctrlGet,
    State.requestRegion, State.enableDevice, State.chrdevCreate, State.setMaster, List.map_append,
    hmap, List.map_cons, List.map_nil, if_true]

namespace Inv

theorem pdev_ne (h : Inv maxNumCtrls s) (hdev : s.bound dev = false) :
    ∀ c ∈ s.ctrlList, c.pdev ≠ dev := by
  rintro c hc rfl
  rw [h.bound c hc] at hdev
  cases hdev

theorem unwound (h : Inv maxNumCtrls s) (ht : Unwound s t dev) (hdev : s.bound dev = false) :
    Inv maxNumCtrls t := by
  have hg := h.good
  constructor
  · constructor
    · rw [ht.list]
      exact hg.numbers
    · rw [ht.list]
      exact hg.below
    · rw [ht.list]
      exact hg.names
    · rw [ht.list]
      exact hg.minors
    · rw [ht.list, ht.curr]
      exact hg.count
    · rw [ht.stray]
      exact hg.released
  · rw [ht.list]
    exact h.ids
  · rw [ht.list]
    exact fun c hc => Nat.lt_of_lt_of_le (h.ids_lt c hc) ht.fresh
  · rw [ht.list]
    exact h.pdevs
  · rw [ht.list, ht.bound]
    exact h.bound
  · rw [ht.list]
    intro c hc
    obtain ⟨hr, he, hm⟩ := ht.other c.pdev (h.pdev_ne hdev c hc)
    rw [hr, he, hm]
    exact h.held c hc

theorem bind (h : Inv maxNumCtrls s) (dev : Nat) :
    Inv maxNumCtrls { s with bound := update s.bound dev true } where
  good := ⟨h.good.numbers, h.good.below, h.good.names, h.good.minors, h.good.count, h.good.released⟩
  ids := h.ids
  ids_lt := h.ids_lt
  pdevs := h.pdevs
  bound c hc := by
    by_cases hd : c.pdev = dev
    · rw [hd]
      exact update_self _ _ _
    · rw [← h.bound c hc]
      exact update_of_ne hd _ _
  held := h.held

theorem add (h : Inv maxNumCtrls s) (hdev : s.bound dev = false) (hadds : Adds maxNumCtrls s o)
    (hfree : ∀ c ∈ s.ctrlList, c.number ≠ s.currCtrls) :
    Inv maxNumCtrls (step maxNumCtrls s (.probe dev o)) := by
  have hg := h.good
  have hother := h.pdev_ne hdev
  have hcount : 0 ≤ s.currCtrls := by
    rw [hg.count]
    omega
  simp only [step, addPciDev_adds h.ids_lt hadds, if_true]
  let new : Ctrl := ⟨s.fresh, dev, s.currCtrls, true⟩
  have hnumbers : ((s.ctrlList ++ [new]).map (·.number)).Nodup := nodup_map_concat hg.numbers hfree
  have hbelow : ∀ c ∈ s.ctrlList ++ [new], 0 ≤ c.number ∧ c.number < maxNumCtrls :=
    forall_mem_concat hg.below ⟨hcount, hadds.1⟩
  constructor
  · refine ⟨hnumbers, hbelow, nodup_names hnumbers, nodup_minors hnumbers, ?_, hg.released⟩
    have := hg.count
    simp only [List.length_append, List.length_singleton]
    omega
  · exact nodup_map_concat h.ids fun c hc => Nat.ne_of_lt (h.ids_lt c hc)
  · exact forall_mem_concat (fun c hc => Nat.lt_succ_of_lt (h.ids_lt c hc)) (Nat.lt_succ_self _)
  · exact nodup_map_concat h.pdevs hother
  · refine forall_mem_concat (fun c hc => ?_) (update_self _ _ _)
    simp only [update_of_ne (hother c hc)]
    exact h.bound c hc
  · refine forall_mem_concat (fun c hc => ?_) ⟨update_self _ _ _, update_self _ _ _,
      update_self _ _ _⟩
    simp only [update_of_ne (hother c hc)]
    exact h.held c hc

theorem remove (h : Inv maxNumCtrls s) (hc : ∃ c ∈ s.ctrlList, c.pdev = dev) :
    Inv maxNumCtrls (step maxNumCtrls s (.remove dev)) := by
  obtain ⟨c, hfind⟩ : ∃ c, s.ctrlList.find? (fun c => c.pdev = dev) = some c := by
    apply Option.isSome_iff_exists.mp
    simpa using hc
  have hmem := List.mem_of_find?_eq_some hfind
  obtain rfl : c.pdev = dev := by simpa using List.find?_some hfind
  have hg := h.good
  obtain ⟨hregion, henabled, hmaster⟩ := h.held c hmem
  have hsub : (s.ctrlList.filter fun d => d.id ≠ c.id).Sublist s.ctrlList := List.filter_sublist
  have hlen := length_filter_id h.ids hmem
  -- the controllers that stay belong to other devices
  have hother : ∀ d ∈ s.ctrlList.filter (fun d => d.id ≠ c.id), d.pdev ≠ c.pdev := by
    intro d hd heq
    obtain ⟨hd, hne⟩ := List.mem_filter.mp hd
    obtain rfl := List.inj_on_of_nodup_map h.pdevs hd hmem heq
    simp at hne
  have hnumbers := hg.numbers.sublist (hsub.map _)
  have hstep : step maxNumCtrls s (.remove c.pdev) =
      { s with
        currCtrls := s.currCtrls - 1
        ctrlList := s.ctrlList.filter fun d => d.id ≠ c.id
        region := update s.region c.pdev false
        enabled := update s.enabled c.pdev false
        master := update s.master c.pdev false
        bound := update s.bound c.pdev false } := by
    simp only [step, removePciDev, State.ctrlFindByPciDev, hfind, Option.map_some, State.ctrlPut,
      State.releaseRegion, State.clearMaster, State.disableDevice, hregion, henabled, hmaster,
      Bool.not_true, Bool.or_false]
  rw [hstep]
  constructor
  · refine ⟨hnumbers, fun d hd => hg.below d (hsub.mem hd), hg.names.sublist (hsub.map _),
      fun first => (hg.minors first).sublist (hsub.map _), ?_, hg.released⟩
    have := hg.count
    simp only
    omega
  · exact h.ids.sublist (hsub.map _)
  · exact fun d hd => h.ids_lt d (hsub.mem hd)
  · exact h.pdevs.sublist (hsub.map _)
  · intro d hd
    simp only [update_of_ne (hother d hd)]
    exact h.bound d (hsub.mem hd)
  · intro d hd
    simp only [update_of_ne (hother d hd)]
    exact h.held d (hsub.mem hd)

theorem step (h : Inv maxNumCtrls s) {e : Event} (ha : Allowed s e)
    (hok : Careful maxNumCtrls s e) : Inv maxNumCtrls (step maxNumCtrls s e) := by
  cases e with
  | probe dev o =>
    by_cases hlim : s.currCtrls < maxNumCtrls
    · by_cases hadds : Adds maxNumCtrls s o
      · exact h.add ha hadds (hok hadds)
      · obtain ⟨herr, hunwound⟩ := addPciDev_fails dev h.ids_lt hlim hadds
        simp only [Controllers.step, if_neg herr]
        exact h.unwound hunwound ha
    · -- over the limit the probe returns 0 all the same
      simp only [Controllers.step, addPciDev, if_pos (Int.not_lt.mp hlim), if_true]
      exact h.bind dev
  | remove dev => exact h.remove hok

/-- A step that is not careful gives a number twice, or loses count. -/
theorem careful (h : Inv maxNumCtrls s) {e : Event}
    (hg : Good maxNumCtrls (Controllers.step maxNumCtrls s e)) : Careful maxNumCtrls s e := by
  cases e with
  | probe dev o =>
    intro hadds c hc heq
    have hnumbers := hg.numbers
    simp only [Controllers.step, addPciDev_adds h.ids_lt hadds, if_true, List.map_append,
      List.nodup_append]
      at hnumbers
    exact hnumbers.2.2 _ (List.mem_map_of_mem hc) _ (List.mem_singleton_self _) heq
  | remove dev =>
    by_contra hno
    have hfind : s.ctrlList.find? (fun c => c.pdev = dev) = none := by
      apply List.find?_eq_none.mpr
      intro c hc
      simp only [decide_eq_true_eq]
      exact fun heq => hno ⟨c, hc, heq⟩
    have hcount := hg.count
    simp only [Controllers.step, removePciDev, State.ctrlFindByPciDev, hfind, Option.map_none,
      State.ctrlPut, State.releaseRegion, State.clearMaster, State.disableDevice,
      h.good.count] at hcount
    omega

end Inv

end Steps

theorem inv_init (maxNumCtrls : Int) : Inv maxNumCtrls init where
  good := ⟨List.nodup_nil, fun _ hc => absurd hc List.not_mem_nil, List.nodup_nil,
    fun _ => List.nodup_nil, rfl, rfl⟩
  ids := List.nodup_nil
  ids_lt _ hc := absurd hc List.not_mem_nil
  pdevs := List.nodup_nil
  bound _ hc := absurd hc List.not_mem_nil
  held _ hc := absurd hc List.not_mem_nil

theorem Reach.inv {maxNumCtrls : Int} {s : State} (h : Reach maxNumCtrls (Careful maxNumCtrls) s) :
    Inv maxNumCtrls s := by
  induction h with
  | init => exact inv_init maxNumCtrls
  | step _ ha hok ih => exact ih.step ha hok

/-- Along careful steps all is well, and a step from there leaves it so exactly if it is careful. -/
theorem controller_numbering (maxNumCtrls : Int) (s : State)
    (h : Reach maxNumCtrls (Careful maxNumCtrls) s) : Good maxNumCtrls s ∧
      ∀ e, Allowed s e → (Good maxNumCtrls (step maxNumCtrls s e) ↔ Careful maxNumCtrls s e) := by
  refine ⟨h.inv.good, fun e ha => ⟨h.inv.careful, fun hok => ?_⟩⟩
  exact (h.inv.step ha hok).good

def succeeds : Outcomes := ⟨true, 0, 0, 0, 0⟩

/-- Two devices of at most two. -/
theorem two_controllers_numbered :
    ∃ s, Reach 2 (Careful 2) s ∧ s.ctrlList.map (·.number) = [0, 1] ∧ Good 2 s := by
  have h1 : Reach 2 (Careful 2) (step 2 init (.probe 7 succeeds)) :=
    .step .init rfl fun _ c hc => absurd hc List.not_mem_nil
  have h2 : Reach 2 (Careful 2) (step 2 (step 2 init (.probe 7 succeeds)) (.probe 8 succeeds)) := by
    refine .step h1 rfl fun _ c hc => ?_
    obtain rfl := List.mem_singleton.mp hc
    decide
  exact ⟨_, h2, rfl, (controller_numbering 2 _ h2).1⟩

/-- The second device is over the limit of one and its probe returns 0. Removing it counts the
first one off and releases a region that was never requested. -/
theorem removal_over_limit : ∃ s, Reach 1 (fun _ _ => True) s ∧
    s.currCtrls = 0 ∧ s.ctrlList.length = 1 ∧ s.stray = true ∧ ¬ Good 1 s := by
  have h1 : Reach 1 (fun _ _ => True) (step 1 init (.probe 7 succeeds)) := .step .init rfl trivial
  have h2 :
    Reach 1 (fun _ _ => True) (step 1 (step 1 init (.probe 7 succeeds)) (.probe 8 succeeds)) :=
    .step h1 rfl trivial
  refine ⟨_, .step h2 (e := .remove 8) rfl trivial, rfl, rfl, rfl, fun hg => ?_⟩
  exact absurd hg.released (by decide)

end Shaper.Controllers
