import Shaper.PrpBuild

/-! `nvm_cmd_data`: the data pointer of a command over a chain of PRP lists, and the walk of the
controller along it. Memory is read and written in words of 64 bits. -/
namespace Shaper.PrpChain
open Function PrpBuild

structure PrpList where
  vaddr : Nat
  pageSize : Nat
  ioaddr : BitVec 64
  two_le : 2 ≤ pageSize/8

def PrpList.entries (l : PrpList) : Nat := l.pageSize/8

def Apart (lists : List PrpList) : Prop :=
  lists.Pairwise fun l l' =>
    (l.vaddr + l.entries ≤ l'.vaddr ∨ l'.vaddr + l'.entries ≤ l.vaddr) ∧ l.ioaddr ≠ l'.ioaddr

def prpList (l : PrpList) (ioaddrs : List (BitVec 64)) (mem : Nat → BitVec 64) :
    (Nat → BitVec 64) × Nat :=
  let nPrps := if l.entries < ioaddrs.length then l.entries - 1 else ioaddrs.length
  (store mem l.vaddr (ioaddrs.take nPrps), nPrps)

/-- The loop of `nvm_prp_list_chain` after list `prev`, which has `listPrps` entries. What is
left of the addresses stands for the two arguments that move along. -/
def chainLoop : PrpList → Nat → List PrpList → List (BitVec 64) → (Nat → BitVec 64) → Nat →
    (Nat → BitVec 64) × Nat
  | prev, listPrps, l :: ls, addr :: addrs, mem, nPrps =>
    let mem := update mem (prev.vaddr + listPrps) l.ioaddr
    let (mem, listPrps) := prpList l (addr :: addrs) mem
    chainLoop l listPrps ls ((addr :: addrs).drop listPrps) mem (nPrps + listPrps)
  | _, _, _, _, mem, nPrps => (mem, nPrps)

def prpListChain (lists : List PrpList) (ioaddrs : List (BitVec 64)) (mem : Nat → BitVec 64) :
    (Nat → BitVec 64) × Nat :=
  match lists with
  | [] => (mem, 0)
  | l :: ls =>
    let (mem, listPrps) := prpList l ioaddrs mem
    chainLoop l listPrps ls (ioaddrs.drop listPrps) mem listPrps

structure Pointer where
  mem : Nat → BitVec 64
  dptr0 : BitVec 64
  dptr1 : BitVec 64
  count : Nat

def cmdData (lists : List PrpList) (ioaddrs : List (BitVec 64)) (mem : Nat → BitVec 64) : Pointer :=
  match ioaddrs with
  | [] => ⟨mem, 0, 0, 0⟩
  | addr :: addrs =>
    if 2 < (addr :: addrs).length ∧ lists ≠ [] then
      let (mem, nPrps) := prpListChain lists addrs mem
      ⟨mem, addr, (lists.head?.map (·.ioaddr)).getD 0, 1 + nPrps⟩
    else if 2 ≤ (addr :: addrs).length then ⟨mem, addr, addrs.headD 0, 2⟩
    else ⟨mem, addr, 0, 1⟩

def walkList (lists : List PrpList) (mem : Nat → BitVec 64) :
    Nat → BitVec 64 → Nat → List (BitVec 64)
  | 0, _, _ => []
  | fuel+1, ptr, n =>
    match lists.find? fun l => l.ioaddr = ptr with
    | none => []
    | some l =>
      let entry := fun i => mem (l.vaddr + i)
      if n ≤ l.entries then (List.range n).map entry
      else (List.range (l.entries-1)).map entry ++
        walkList lists mem fuel (entry (l.entries-1)) (n-(l.entries-1))

def walk (lists : List PrpList) (mem : Nat → BitVec 64) (prp1 prp2 : BitVec 64) (n : Nat) :
    List (BitVec 64) :=
  if n ≤ 1 then [prp1] else if n = 2 then [prp1, prp2] else prp1 :: walkList lists mem n prp2 (n-1)

def spare (lists : List PrpList) : Nat := (lists.map fun l => l.entries - 1).sum

section Chain
variable {l l' : PrpList} {ls lists : List PrpList} {addrs : List (BitVec 64)}
  {mem mem' : Nat → BitVec 64}

theorem chainLoop_add (prev : PrpList) (listPrps : Nat) (ls : List PrpList)
    (addrs : List (BitVec 64)) (mem : Nat → BitVec 64) (n m : Nat) :
    chainLoop prev listPrps ls addrs mem (n+m) =
      ((chainLoop prev listPrps ls addrs mem m).1,
        n + (chainLoop prev listPrps ls addrs mem m).2) := by
  induction ls generalizing prev listPrps addrs mem m with
  | nil => simp only [chainLoop]
  | cons l ls ih =>
    cases addrs with
    | nil => simp only [chainLoop]
    | cons addr addrs =>
      simp only [chainLoop, Nat.add_assoc]
      exact ih _ _ _ _ _

theorem prpListChain_fits (h : addrs.length ≤ l.entries) :
    prpListChain (l :: ls) addrs mem = (store mem l.vaddr addrs, addrs.length) := by
  simp only [prpListChain, prpList, if_neg (Nat.not_lt.mpr h), List.take_length, List.drop_length]
  cases ls <;> rfl

theorem prpListChain_short (h : l.entries < addrs.length) : prpListChain [l] addrs mem =
    (store mem l.vaddr (addrs.take (l.entries-1)), l.entries-1) := by
  simp only [prpListChain, prpList, if_pos h, chainLoop]

/-- They do not: the last entry leads to the next list, which takes the rest. -/
theorem prpListChain_next (h : l.entries < addrs.length) :
    prpListChain (l :: l' :: ls) addrs mem =
      let mem :=
  update (store mem l.vaddr (addrs.take (l.entries-1))) (l.vaddr + (l.entries-1)) l'.ioaddr
      let rest := prpListChain (l' :: ls) (addrs.drop (l.entries-1)) mem
      (rest.1, l.entries-1 + rest.2) := by
  obtain ⟨addr, rest, hrest⟩ : ∃ addr rest, addrs.drop (l.entries-1) = addr :: rest := by
    apply List.exists_cons_of_ne_nil
    rw [Ne, List.drop_eq_nil_iff]
    omega
  simp only [prpListChain, prpList, if_pos h, hrest, chainLoop]
  exact chainLoop_add _ _ _ _ _ _ _

theorem PrpList.two_le_entries (l : PrpList) : 2 ≤ l.entries := l.two_le

theorem spare_cons (l : PrpList) (ls : List PrpList) : spare (l :: ls) = l.entries - 1 + spare ls :=
  List.sum_cons

theorem count_prpListChain (l : PrpList) (ls : List PrpList) (addrs : List (BitVec 64))
    (mem : Nat → BitVec 64) : (prpListChain (l :: ls) addrs mem).2 =
      if addrs.length ≤ spare (l :: ls) + 1 then addrs.length else spare (l :: ls) := by
  induction ls generalizing l addrs mem with
  | nil =>
    have hl := l.two_le_entries
    have hspare : spare [l] = l.entries - 1 := by simp [spare]
    by_cases h : addrs.length ≤ l.entries
    · rw [prpListChain_fits h, if_pos (by omega)]
    · rw [prpListChain_short (by omega), if_neg (by omega), hspare]
  | cons l' ls ih =>
    have hl := l.two_le_entries
    have hl' := l'.two_le_entries
    have hspare := spare_cons l (l' :: ls)
    have hspare' := spare_cons l' ls
    by_cases h : addrs.length ≤ l.entries
    · rw [prpListChain_fits h, if_pos (by omega)]
    · rw [prpListChain_next (by omega)]
      simp only [ih, List.length_drop]
      split <;> split <;> omega

theorem prpListChain_other (l : PrpList) (ls : List PrpList) (addrs : List (BitVec 64))
    (mem : Nat → BitVec 64)
    {a : Nat} (ha : ∀ l' ∈ l :: ls, a < l'.vaddr ∨ l'.vaddr + l'.entries ≤ a) :
    (prpListChain (l :: ls) addrs mem).1 a = mem a := by
  have hl := l.two_le_entries
  have hal := ha l List.mem_cons_self
  induction ls generalizing l addrs mem with
  | nil =>
    by_cases h : addrs.length ≤ l.entries
    · rw [prpListChain_fits h]
      exact store_other _ _ _ (by omega)
    · rw [prpListChain_short (by omega)]
      exact store_other _ _ _ (by rw [List.length_take]; omega)
  | cons l' ls ih =>
    by_cases h : addrs.length ≤ l.entries
    · rw [prpListChain_fits h]
      exact store_other _ _ _ (by omega)
    · rw [prpListChain_next (by omega)]
      have hin : l' ∈ l :: l' :: ls := List.mem_cons_of_mem _ List.mem_cons_self
      have hrest := ih l' (addrs.drop (l.entries-1))
        (update (store mem l.vaddr (addrs.take (l.entries-1))) (l.vaddr + (l.entries-1)) l'.ioaddr)
        (fun l'' hl'' => ha l'' (List.mem_cons_of_mem _ hl'')) l'.two_le_entries (ha l' hin)
      refine hrest.trans ?_
      rw [update_of_ne (by omega), store_other _ _ _ (by rw [List.length_take]; omega)]

theorem spare_pos (l : PrpList) (ls : List PrpList) : 0 < spare (l :: ls) := by
  have := l.two_le_entries
  rw [spare_cons]
  omega

theorem two_le_spare (h : ∀ x, (l :: ls).getLast? = some x → 3 ≤ x.entries) :
    2 ≤ spare (l :: ls) := by
  rw [spare_cons]
  cases ls with
  | nil =>
    have := h l rfl
    omega
  | cons l' ls =>
    have := l.two_le_entries
    have := spare_pos l' ls
    omega

theorem range_store {addrs : List (BitVec 64)} {n at_ : Nat} (hn : n = addrs.length)
    (h : ∀ i < n, mem' (at_+i) = store mem at_ addrs (at_+i)) :
    (List.range n).map (fun i => mem' (at_+i)) = addrs := by
  subst hn
  refine Eq.trans (List.map_congr_left fun i hi => ?_) (store_at addrs mem at_)
  exact h i (List.mem_range.mp hi)

theorem walkList_one {all : List PrpList} {fuel n : Nat}
    (hfind : all.find? (fun y => y.ioaddr = l.ioaddr) = some l)
    (hpos : 0 < fuel) (hn : n ≤ l.entries) :
    walkList all mem fuel l.ioaddr n = (List.range n).map fun i => mem (l.vaddr + i) := by
  obtain ⟨fuel, rfl⟩ := Nat.exists_eq_succ_of_ne_zero (Nat.ne_of_gt hpos)
  simp only [walkList, hfind, if_pos hn]

theorem walkList_more {all : List PrpList} {fuel n : Nat}
    (hfind : all.find? (fun y => y.ioaddr = l.ioaddr) = some l)
    (hn : l.entries < n) : walkList all mem (fuel+1) l.ioaddr n =
      (List.range (l.entries-1)).map (fun i => mem (l.vaddr + i)) ++
        walkList all mem fuel (mem (l.vaddr + (l.entries-1))) (n-(l.entries-1)) := by
  simp only [walkList, hfind, if_neg (Nat.not_le.mpr hn)]

theorem walkList_fits {all : List PrpList} {fuel : Nat}
    (hfind : all.find? (fun y => y.ioaddr = l.ioaddr) = some l)
    (h : addrs.length ≤ l.entries) (hpos : 0 < fuel)
    (hkeep : ∀ i < l.entries, mem' (l.vaddr+i) = (prpListChain (l :: ls) addrs mem).1 (l.vaddr+i)) :
    walkList all mem' fuel l.ioaddr addrs.length = addrs := by
  rw [prpListChain_fits h] at hkeep
  rw [walkList_one hfind hpos h]
  exact range_store rfl fun i hi => hkeep i (by omega)

/-- The page of the first list, with the pointer to the next one, stays as it was written. -/
theorem prpListChain_first (hapart : Apart (l :: l' :: ls)) (h : l.entries < addrs.length) {i : Nat}
    (hi : i < l.entries) : (prpListChain (l :: l' :: ls) addrs mem).1 (l.vaddr+i) =
      update (store mem l.vaddr (addrs.take (l.entries-1))) (l.vaddr + (l.entries-1)) l'.ioaddr
      (l.vaddr+i) := by
  rw [prpListChain_next h]
  apply prpListChain_other
  intro x hx
  have := ((List.pairwise_cons.mp hapart).1 x hx).1
  omega

/-- The walk along a chain finds what the chain was built from: all of the addresses, or as
many as the lists took. -/
theorem walkList_chain {all : List PrpList} (l : PrpList) (ls : List PrpList)
    (hapart : Apart (l :: ls))
    (hfind : ∀ x ∈ l :: ls, all.find? (fun y => y.ioaddr = x.ioaddr) = some x)
    (addrs : List (BitVec 64)) (hne : addrs ≠ []) (mem mem' : Nat → BitVec 64)
    (hlast : addrs.length ≤ spare (l :: ls) + 1 ∨ ∀ x, (l :: ls).getLast? = some x → 3 ≤ x.entries)
    (hkeep : ∀ x ∈ l :: ls, ∀ i < x.entries,
      mem' (x.vaddr+i) = (prpListChain (l :: ls) addrs mem).1 (x.vaddr+i))
    (fuel : Nat) (hfuel : (prpListChain (l :: ls) addrs mem).2 ≤ fuel) :
    walkList all mem' fuel l.ioaddr (prpListChain (l :: ls) addrs mem).2 =
      addrs.take (prpListChain (l :: ls) addrs mem).2 := by
  induction ls generalizing l addrs mem fuel with
  | nil =>
    have hl := l.two_le_entries
    have hlen := List.length_pos_iff.mpr hne
    have hhere := hkeep l List.mem_cons_self
    by_cases h : addrs.length ≤ l.entries
    · rw [prpListChain_fits h] at hfuel ⊢
      rw [walkList_fits (hfind l List.mem_cons_self) h (by omega) hhere, List.take_length]
    · rw [prpListChain_short (by omega)] at hhere hfuel ⊢
      rw [walkList_one (hfind l List.mem_cons_self) (by omega) (by omega)]
      exact range_store (by rw [List.length_take]; omega) fun i hi => hhere i (by omega)
  | cons l' ls ih =>
    have hl := l.two_le_entries
    have hlen := List.length_pos_iff.mpr hne
    have hhere := hkeep l List.mem_cons_self
    by_cases h : addrs.length ≤ l.entries
    · rw [prpListChain_fits h] at hfuel ⊢
      rw [walkList_fits (hfind l List.mem_cons_self) h (by omega) hhere, List.take_length]
    · have hmore : l.entries < addrs.length := by omega
      have hdrop : (addrs.drop (l.entries-1)).length = addrs.length - (l.entries-1) :=
        List.length_drop
      have hspare := spare_cons l (l' :: ls)
      have hlast' : (addrs.drop (l.entries-1)).length ≤ spare (l' :: ls) + 1 ∨
          ∀ x, (l' :: ls).getLast? = some x → 3 ≤ x.entries := by
        rcases hlast with hlast | hlast
        · exact .inl (by omega)
        · exact .inr fun x hx => hlast x (by rwa [List.getLast?_cons_cons])
      have hfirst := fun i hi => (hhere i hi).trans (prpListChain_first hapart hmore hi)
      have hpages :
        (List.range (l.entries-1)).map (fun i => mem' (l.vaddr+i)) = addrs.take (l.entries-1) := by
        apply range_store (by rw [List.length_take]; omega)
        intro i hi
        rw [hfirst i (by omega), update_of_ne (by omega)]
      have hptr : mem' (l.vaddr + (l.entries-1)) = l'.ioaddr := by
        rw [hfirst _ (by omega), update_self]
      rw [prpListChain_next hmore] at hkeep hfuel ⊢
      dsimp only at hkeep hfuel ⊢
      generalize update (store mem l.vaddr (addrs.take (l.entries-1)))
        (l.vaddr + (l.entries-1)) l'.ioaddr = mem₁
        at hkeep hfuel ⊢
      -- two pages or more are left, so that the walk goes on to the next list too
      have hcount := count_prpListChain l' ls (addrs.drop (l.entries-1)) mem₁
      have htwo : 2 ≤ (prpListChain (l' :: ls) (addrs.drop (l.entries-1)) mem₁).2 := by
        rw [hcount]
        split
        · omega
        · rename_i hshort
          exact two_le_spare (hlast'.resolve_left hshort)
      obtain ⟨fuel, rfl⟩ := Nat.exists_eq_succ_of_ne_zero (n := fuel) (by omega)
      have hrest :=
        ih l' (List.pairwise_cons.mp hapart).2 (fun x hx => hfind x (List.mem_cons_of_mem _ hx))
        (addrs.drop (l.entries-1)) (List.length_pos_iff.mp (by omega)) mem₁ hlast'
        (fun x hx => hkeep x (List.mem_cons_of_mem _ hx)) fuel (by omega)
      rw [walkList_more (hfind l List.mem_cons_self) (by omega), hpages, hptr,
        Nat.add_sub_cancel_left, hrest, ← List.take_add]

theorem find_of_mem (hapart : Apart lists) (hl : l ∈ lists) :
    lists.find? (fun y => y.ioaddr = l.ioaddr) = some l := by
  induction lists with
  | nil => cases hl
  | cons x lists ih =>
    obtain ⟨hx, hrest⟩ := List.pairwise_cons.mp hapart
    rcases List.mem_cons.mp hl with rfl | hl
    · simp
    · rw [List.find?_cons_of_neg (by simpa using (hx l hl).2), ih hrest hl]

/-- A command over a chain: its pages are the first one and those the chain took. -/
theorem walk_chain (l : PrpList) (ls : List PrpList) (hapart : Apart (l :: ls)) (addr : BitVec 64)
    (addrs : List (BitVec 64)) (mem : Nat → BitVec 64)
    (htwo : 2 ≤ (prpListChain (l :: ls) addrs mem).2)
    (hlast : addrs.length ≤ spare (l :: ls) + 1 ∨ ∀ x, (l :: ls).getLast? = some x →
      3 ≤ x.entries) :
    walk (l :: ls) (prpListChain (l :: ls) addrs mem).1 addr l.ioaddr
    (1 + (prpListChain (l :: ls) addrs mem).2) =
      addr :: addrs.take (prpListChain (l :: ls) addrs mem).2 := by
  have hne : addrs ≠ [] := by
    rintro rfl
    rw [prpListChain_fits (Nat.zero_le _)] at htwo
    cases htwo
  rw [walk, if_neg (by omega), if_neg (by omega), Nat.add_sub_cancel_left,
    walkList_chain l ls hapart (fun x hx => find_of_mem hapart hx) addrs hne mem _ hlast
    (fun _ _ _ _ => rfl) _
      (by omega)]

end Chain

/-- The data pointer of a command, walked for as many pages as `nvm_cmd_data` returns: with
enough lists these are all of the pages, with too few as many as the lists took. -/
theorem data_pointer_walks (lists : List PrpList) (ioaddrs : List (BitVec 64))
    (mem : Nat → BitVec 64) (hapart : Apart lists) (hne : ioaddrs ≠ []) :
    let p := cmdData lists ioaddrs mem
    (ioaddrs.length ≤ 2 + spare lists →
      p.count = ioaddrs.length ∧ walk lists p.mem p.dptr0 p.dptr1 ioaddrs.length = ioaddrs) ∧
    (2 + spare lists < ioaddrs.length → (∀ l, lists.getLast? = some l → 3 ≤ l.entries) →
      p.count = (if lists = [] then 2 else 1 + spare lists) ∧
        walk lists p.mem p.dptr0 p.dptr1 p.count = ioaddrs.take p.count) := by
  obtain ⟨addr, addrs, rfl⟩ := List.exists_cons_of_ne_nil hne
  match addrs, lists with
  | [], lists =>
    refine ⟨fun _ => ⟨rfl, rfl⟩, fun h => ?_⟩
    simp only [List.length_singleton] at h
    omega
  | [second], lists =>
    refine ⟨fun _ => ⟨rfl, rfl⟩, fun h => ?_⟩
    simp only [List.length_cons, List.length_nil] at h
    omega
  | second :: third :: addrs, [] =>
    refine ⟨fun h => ?_, fun _ _ => ⟨rfl, rfl⟩⟩
    simp only [List.length_cons, spare, List.map_nil, List.sum_nil] at h
    omega
  | second :: third :: addrs, l :: ls =>
    have hp : cmdData (l :: ls) (addr :: second :: third :: addrs) mem =
        let chain := prpListChain (l :: ls) (second :: third :: addrs) mem
        ⟨chain.1, addr, l.ioaddr, 1 + chain.2⟩ := rfl
    have hcount := count_prpListChain l ls (second :: third :: addrs) mem
    have hwalk := walk_chain l ls hapart addr (second :: third :: addrs) mem
    simp only [hp, List.length_cons] at hcount hwalk ⊢
    refine ⟨fun henough => ?_, fun hfew hlast => ?_⟩
    · rw [if_pos (by omega)] at hcount
      rw [hcount] at hwalk ⊢
      refine ⟨by omega, ?_⟩
      rw [Nat.add_comm _ 1, hwalk (by omega) (.inl (by omega))]
      exact congrArg _ (List.take_of_length_le (Nat.le_refl _))
    · have htwo := two_le_spare hlast
      rw [if_neg (by omega)] at hcount
      rw [hcount] at hwalk ⊢
      refine ⟨rfl, ?_⟩
      rw [hwalk htwo (.inr hlast), Nat.add_comm, List.take_succ_cons]

/-- Six pages over lists of four and of three entries: the second list is needed. -/
theorem two_lists_walk :
    let lists : List PrpList := [⟨0, 32, 0x1000#64, by decide⟩, ⟨4, 24, 0x2000#64, by decide⟩]
    let ioaddrs : List (BitVec 64) := [0xa000, 0xb000, 0xc000, 0xd000, 0xe000, 0xf000]
    let p := cmdData lists ioaddrs fun _ => 0
    p.count = 6 ∧ walk lists p.mem p.dptr0 p.dptr1 6 = ioaddrs :=
  (data_pointer_walks _ _ _ (by unfold Apart; decide) (by decide)).1 (by decide)

/-- One list of two entries is too short for four pages. The count is then two, and a command
for two pages takes the address of the list for its second page. -/
theorem short_list_read_as_page :
    let lists : List PrpList := [⟨0, 16, 0x1000#64, by decide⟩]
    let ioaddrs : List (BitVec 64) := [0xa000, 0xb000, 0xc000, 0xd000]
    let p := cmdData lists ioaddrs fun _ => 0
    Apart lists ∧ 2 + spare lists < ioaddrs.length ∧ p.count = 2 ∧
      walk lists p.mem p.dptr0 p.dptr1 2 = [0xa000, 0x1000] := by
  unfold Apart
  decide

end Shaper.PrpChain
