import Shaper.PrpTables

/-! The tables that `page_cache_t` builds, for every page size and number of pages, with
the size of the list memory as the constructor computes it. -/
namespace Shaper.PrpTables
open Nvme

structure Names (ps np : Nat) (pages : Dma) (t : Tables) : Prop where
  pointer :
    ∀ page < np, ∀ data, ∀ x < ps, byteAddr (t.decode data page) x = busAddr pages (page*ps + x)
  table : ∀ page < np, ∀ j < t.pagesPerEntry,
    t.pageIoaddrs (page*t.pagesPerEntry + j) = busAddr pages (page*ps + 4096*j)

inductive Outcome.Right (ps np : Nat) (pages : Dma) : Outcome → Prop
  | thrown : Right ps np pages .thrown
  | built {t : Tables} : Names ps np pages t → Right ps np pages (.built t)

theorem Maps.covers {d : Dma} {size b : Nat} (h : Maps d size) (hb : b < size) :
    b/4096 < d.ioaddrs.length := by
  unfold Maps align64K at h
  omega

theorem Maps.page_lt {ps np n i : Nat} {pages : Dma} (hps : ps = 4096*n) (h : Maps pages (ps*np))
    (hi : i < np*n) : i < pages.ioaddrs.length := by
  have hb : 4096*i < ps*np := by
    rw [hps, Nat.mul_assoc, Nat.mul_comm n np]
    exact Nat.mul_lt_mul_of_pos_left hi (by decide)
  have := h.covers hb
  rwa [Nat.mul_div_cancel_left _ (by decide)] at this

end Shaper.PrpTables

namespace Shaper.PrpGeometry
open Nvme PrpBuild PrpTables Lib.Lists

theorem exists_fill {n : Nat} {f : Nat → Option (BitVec 64)} (h : ∀ i < n, (f i).isSome = true) :
    ∃ tab, fill n f = some tab ∧ ∀ i < n, f i = some (tab i) := by
  have hall : (List.range n).all (fun i => (f i).isSome) = true :=
    List.all_eq_true.mpr fun i hi => h i (List.mem_range.mp hi)
  have hfill : fill n f = some fun i => (f i).getD 0#64 := by rw [fill, if_pos hall]
  exact ⟨_, hfill, fun i hi => fill_spec hfill hi⟩

section Tables
variable {ps np lbaDataSize k : Nat} {pages lists : Dma}

theorem busAddr_page {d : Dma} {i : Nat} {a : BitVec 64} (h : d.ioaddrs[i]? = some a) :
    d.ioaddrs.getD i 0#64 = a := by
  rw [List.getD_eq_getElem?_getD, h, Option.getD_some]

theorem small_split {page x : Nat} (hps : ps ∣ 4096) (hx : x < ps) :
    (page*ps + x)/4096 = page/(4096/ps) ∧ (page*ps + x)%4096 = page%(4096/ps)*ps + x := by
  obtain ⟨m, hm⟩ := hps
  have hpos : 0 < ps := by omega
  have hdiv : 4096/ps = m := by rw [hm, Nat.mul_div_cancel_left _ hpos]
  have hmpos : 0 < m := by
    rcases Nat.eq_zero_or_pos m with rfl | h
    · omega
    · exact h
  have hlt : page % m * ps + x < 4096 := by
    have : (page % m + 1) * ps ≤ m * ps := Nat.mul_le_mul_right ps (Nat.mod_lt page hmpos)
    rw [Nat.succ_mul, Nat.mul_comm m ps, ← hm] at this
    omega
  have hsplit : page*ps + x = 4096 * (page/m) + (page % m * ps + x) := by
    conv_lhs => rw [← Nat.div_add_mod page m]
    rw [Nat.add_mul, Nat.mul_right_comm, Nat.mul_comm m ps, ← hm]
    omega
  rw [hdiv, hsplit, Nat.mul_add_div (by decide), Nat.mul_add_mod, Nat.div_eq_of_lt hlt,
    Nat.mod_eq_of_lt hlt, Nat.add_zero]
  exact ⟨rfl, rfl⟩

def Accepts (ps np lbaDataSize : Nat) : Prop :=
  (ps ≤ 4096*512 ∧ np ≠ 0 ∧ lbaDataSize ≤ ps) ∧ ¬(8192 < ps ∧ prpListSize np = 0)

theorem constructCache_built (h : Accepts ps np lbaDataSize) {p : Pointers} {io : Nat → BitVec 64}
    (hp : pointers ps np pages lists = some p)
    (hio : subpageTable ps np (pagesPerEntryOf ps) pages = some io) :
    constructCache ps np lbaDataSize pages lists = .built (tablesOf ps p io) := by
  rw [constructCache, if_neg (by rw [not_or, not_not]; exact h)]
  simp only [hp, hio]

theorem pointers_list (hps : 8192 < ps) :
    pointers ps np pages lists = listPointers ps np pages lists := by
  rw [pointers, if_neg (by omega), if_neg (by omega)]

theorem not_thrown (h : Accepts ps np lbaDataSize) :
    constructCache ps np lbaDataSize pages lists ≠ .thrown := by
  rw [constructCache, if_neg (by rw [not_or, not_not]; exact h)]
  intro he
  split at he <;> cases he

theorem right_small (h : Accepts ps np lbaDataSize) (hps : ps ∣ 4096)
    (hpages : Maps pages (ps*np)) :
    (constructCache ps np lbaDataSize pages lists).Right ps np pages := by
  have hle : ps ≤ 4096 := Nat.le_of_dvd (by decide) hps
  have hpos : 0 < ps := Nat.pos_of_dvd_of_pos hps (by decide)
  have hmany : 0 < 4096/ps := Nat.div_pos hle hpos
  have hppe : pagesPerEntryOf ps = 1 := if_pos hle
  -- the controller page of a small page is mapped
  have hmapped (i : Nat) (hi : i < np) : i/(4096/ps) < pages.ioaddrs.length := by
    have hb : i*ps + 0 < ps*np := by
      rw [Nat.add_zero, Nat.mul_comm]
      exact Nat.mul_lt_mul_of_pos_left hi hpos
    have hlt := hpages.covers hb
    rwa [(small_split hps hpos).1] at hlt
  obtain ⟨io, hio, hrow⟩ := exists_fill (n := np*1)
    (f := fun i => (pages.ioaddrs[i/(4096/ps)]?).map (· + BitVec.ofNat 64 (i%(4096/ps)*ps)))
    fun i hi => by
      rw [Option.isSome_map, List.getElem?_eq_getElem (hmapped i (by omega))]
      rfl
  obtain ⟨prp1, hprp1, -⟩ := exists_fill (n := np) (f := fun i => (pages.ioaddrs.flatMap fun a =>
      (List.range (4096/ps)).map fun j => a + BitVec.ofNat 64 (j*ps))[i]?) fun i hi => by
      rw [getElem?_blocks hmany fun a j => a + BitVec.ofNat 64 (j*ps), Option.isSome_map,
        List.getElem?_eq_getElem (hmapped i hi)]
      rfl
  have hsub : subpageTable ps np (pagesPerEntryOf ps) pages = some io := by
    rw [subpageTable, hppe, if_pos ⟨rfl, hle⟩, hio]
  have hptrs :
    pointers ps np pages lists = some ⟨false, prp1, fun _ => 0#64, [], fun _ => 0#64⟩ := by
    rw [pointers, if_pos hle]
    simp only [hprp1]
    rfl
  rw [constructCache_built h hptrs hsub]
  have hentry (page : Nat) (hpage : page < np) {x : Nat} (hx : x < ps) :
      io page + BitVec.ofNat 64 x = busAddr pages (page*ps + x) := by
    obtain ⟨a, ha, haddr⟩ := Option.map_eq_some_iff.mp (hrow page (by omega))
    rw [busAddr, (small_split hps hx).1, (small_split hps hx).2, busAddr_page ha, ← haddr,
      BitVec.ofNat_add, BitVec.add_assoc]
  refine .built ⟨fun page hpage data x hx => ?_, fun page hpage j hj => ?_⟩
  · rw [hppe] at hsub
    obtain ⟨-, heq, -, hroom⟩ := pointers_small hle hptrs hsub hpage
    have hcount : ((io page).toNat % 4096 + ps + 4095) / 4096 = 1 := by omega
    have hdec : (tablesOf ps ⟨false, prp1, fun _ => 0#64, [], fun _ => 0#64⟩ io).decode data page =
        [io page] := by
      simp only [Tables.decode, tablesOf]
      dsimp only at heq
      rw [heq, hcount, prpPages, if_pos le_rfl]
    rw [hdec, ← hentry page hpage hx, byteAddr, List.headD_cons, if_pos (by omega)]
  · change j < pagesPerEntryOf ps at hj
    rw [hppe] at hj
    obtain rfl : j = 0 := by omega
    rw [← hentry page hpage hpos, BitVec.add_zero]
    simp only [tablesOf, hppe, Nat.mul_one, Nat.add_zero]

/-- Pages of `n` whole controller pages, the data pointers of which name them. -/
theorem names_large {n : Nat} (hps : ps = 4096*n) (hn : 2 ≤ n) {p : Pointers} {io : Nat → BitVec 64}
    (hio : subpageTable ps np (pagesPerEntryOf ps) pages = some io)
    (hdec : ∀ page < np, ∀ data, (tablesOf ps p io).decode data page =
      (List.range n).map fun j => io (page*n + j)) : Names ps np pages (tablesOf ps p io) := by
  have hdiv : ps/4096 = n := by omega
  have hppe : pagesPerEntryOf ps = n := by rw [pagesPerEntryOf, if_neg (by omega), hdiv]
  have hrow (page : Nat) (hpage : page < np) (j : Nat) (hj : j < n) :
      pages.ioaddrs[page*n + j]? = some (io (page*n + j)) :=
    subpageTable_large (by omega) hio (by rw [hdiv]; exact row_lt hpage hj le_rfl)
  refine ⟨fun page hpage data x hx => ?_, fun page hpage j hj => ?_⟩
  · have halign : (io (page*n)).toNat % 4096 = 0 :=
      pages.aligned _ (List.mem_of_getElem? (hrow page hpage 0 (by omega)))
    have hsplit : (page*ps + x)/4096 = page*n + x/4096 ∧ (page*ps + x)%4096 = x%4096 := by
      rw [hps, Nat.mul_left_comm]
      omega
    rw [hdec page hpage, byteAddr_aligned, busAddr, hsplit.1, hsplit.2,
      busAddr_page (hrow page hpage (x/4096) (by omega)), List.getD_eq_getElem?_getD,
      List.getElem?_map, List.getElem?_range (by omega)]
    · rfl
    · obtain ⟨m, rfl⟩ : ∃ m, n = m+1 := Nat.exists_eq_succ_of_ne_zero (by omega)
      rw [List.range_succ_eq_map, List.map_cons, List.headD_cons]
      exact halign
  · change j < pagesPerEntryOf ps at hj
    rw [hppe] at hj
    have hsplit : (page*ps + 4096*j)/4096 = page*n + j ∧ (page*ps + 4096*j)%4096 = 0 := by
      rw [hps, Nat.mul_left_comm]
      omega
    rw [busAddr, hsplit.1, hsplit.2, busAddr_page (hrow page hpage j hj), BitVec.add_zero]
    simp only [tablesOf, hppe]

theorem exists_subpageTable {n : Nat} (hps : ps = 4096*n) (hn : 2 ≤ n)
    (hpages : Maps pages (ps*np)) :
    ∃ io, subpageTable ps np (pagesPerEntryOf ps) pages = some io := by
  have hppe : pagesPerEntryOf ps = n := by
    rw [pagesPerEntryOf, if_neg (by omega)]
    omega
  obtain ⟨io, hio, -⟩ := exists_fill (n := np*n) (f := fun k => pages.ioaddrs[k]?) fun i hi => by
    rw [List.getElem?_eq_getElem (hpages.page_lt hps hi)]
    rfl
  exact ⟨io, by rw [subpageTable, hppe, if_neg (by omega), hio]⟩

theorem right_two (h : Accepts 8192 np lbaDataSize) (hpages : Maps pages (8192*np)) :
    (constructCache 8192 np lbaDataSize pages lists).Right 8192 np pages := by
  have hmapped (i : Nat) (hi : i < np*2) : (pages.ioaddrs[i]?).isSome = true := by
    rw [List.getElem?_eq_getElem (hpages.page_lt (n := 2) (by decide) hi)]
    rfl
  obtain ⟨io, hio⟩ := exists_subpageTable (n := 2) (by decide) le_rfl hpages
  obtain ⟨prp1, hprp1, h1⟩ := exists_fill (n := np) (f := fun i => pages.ioaddrs[i*2]?)
    fun i hi => hmapped _ (by omega)
  obtain ⟨prp2, hprp2, h2⟩ := exists_fill (n := np) (f := fun i => pages.ioaddrs[i*2+1]?)
    fun i hi => hmapped _ (by omega)
  have hptrs : pointers 8192 np pages lists = some ⟨true, prp1, prp2, [], fun _ => 0#64⟩ := by
    rw [pointers, if_neg (by decide), if_pos (by decide)]
    simp only [hprp1, hprp2]
    rfl
  rw [constructCache_built h hptrs hio]
  refine .built (names_large (n := 2) (by decide) le_rfl hio fun page hpage data => ?_)
  have halign := pages.aligned _ (List.mem_of_getElem? (h1 page hpage))
  have hrow (j : Nat) (hj : j < 2) : pages.ioaddrs[page*2 + j]? = some (io (page*2 + j)) :=
    subpageTable_large (by decide) hio (row_lt hpage hj le_rfl)
  have heq1 := Option.some.inj ((h1 page hpage).symm.trans (hrow 0 (by decide)))
  have heq2 := Option.some.inj ((h2 page hpage).symm.trans (hrow 1 (by decide)))
  simp only [Tables.decode, tablesOf, if_true, halign]
  rw [heq1, heq2]
  rfl

theorem outside_of_wrap (h : Accepts ps np lbaDataSize) (hps : 8192 < ps)
    (hlists : Maps lists (prpListSize np))
    (hwrap : ¬4096*np < 2^32) : constructCache ps np lbaDataSize pages lists = .outside := by
  have hshort : lists.ioaddrs.length < np := by
    have := (lists_length hlists).not.mpr hwrap
    omega
  have hprp2 : fill np (fun i => lists.ioaddrs[i]?) = none := by
    rw [fill, if_neg]
    intro hall
    have := List.all_eq_true.mp hall _ (List.mem_range.mpr hshort)
    rw [List.getElem?_eq_none le_rfl] at this
    cases this
  have hptrs : listPointers ps np pages lists = none := by
    simp only [listPointers, hprp2, Option.bind_eq_bind, Option.bind_none, Option.bind_fun_none]
  rw [constructCache, if_neg (by rw [not_or, not_not]; exact h)]
  simp only [pointers_list hps, hptrs]

theorem right_lists {n : Nat} (h : Accepts ps np lbaDataSize) (hps : ps = 4096*n) (hn : 2 < n)
    (hpages : Maps pages (ps*np)) (hlists : Maps lists (prpListSize np))
    (hnodup : lists.ioaddrs.Nodup)
    (hfits : 4096*np < 2^32) :
    (constructCache ps np lbaDataSize pages lists).Right ps np pages := by
  have hdiv : ps/4096 = n := by omega
  have hmax : n ≤ 512 := by
    have := h.1.1
    omega
  have hsize : prpListSize np = 4096*np := Nat.mod_eq_of_lt hfits
  have hmapped (i : Nat) (hi : i < np*n) : (pages.ioaddrs[i]?).isSome = true := by
    rw [List.getElem?_eq_getElem (hpages.page_lt hps hi)]
    rfl
  have hlen := (lists_length hlists).mpr hfits
  obtain ⟨io, hio⟩ := exists_subpageTable hps hn.le hpages
  obtain ⟨prp1, hprp1, h1⟩ := exists_fill (n := np) (f := fun i => pages.ioaddrs[i*n]?)
    fun i hi => hmapped _ (row_lt hi (show 0 < n by omega) le_rfl)
  obtain ⟨prp2, hprp2, h2⟩ := exists_fill (n := np) (f := fun i => lists.ioaddrs[i]?) fun i hi => by
    rw [List.getElem?_eq_getElem (by omega)]
    rfl
  obtain ⟨temp, htemp, h3⟩ := exists_fill (n := 512*np) (f := fun k => if k%512 < n - 1 then
      if k < prpListSize np then pages.ioaddrs[k/512*n + k%512 + 1]? else none
      else some 0#64) fun k hk => by
    split_ifs with hlow hin
    · exact hmapped _ (row_lt (show k/512 < np by omega) (show k%512 + 1 < n by omega) le_rfl)
    · omega
    · rfl
  have hptrs : listPointers ps np pages lists = some ⟨true, prp1, prp2, lists.ioaddrs,
      fun k => if 8*k < prpListSize np then temp k else 0#64⟩ := by
    simp only [listPointers, hdiv, hprp1, hprp2, htemp]
    rfl
  rw [constructCache_built h ((pointers_list (by omega)).trans hptrs) hio]
  refine .built (names_large hps hn.le hio fun page hpage data => ?_)
  have hrow (j : Nat) (hj : j < n) : pages.ioaddrs[page*n + j]? = some (io (page*n + j)) :=
    subpageTable_large (by omega) hio (by rw [hdiv]; exact row_lt hpage hj le_rfl)
  have heq1 := Option.some.inj ((h1 page hpage).symm.trans (hrow 0 (by omega)))
  have halign := pages.aligned _ (List.mem_of_getElem? (h1 page hpage))
  have halign2 := lists.aligned _ (List.mem_of_getElem? (h2 page hpage))
  obtain ⟨m, rfl⟩ : ∃ m, n = m+1 := Nat.exists_eq_succ_of_ne_zero (by omega)
  have hcount : (ps + 4095)/4096 = m+1 := by omega
  simp only [Tables.decode, tablesOf, if_true, halign, Nat.zero_add, hcount]
  rw [prpPages_list halign2 (by omega) (by omega), List.range_succ_eq_map, List.map_cons,
    List.map_map]
  refine congrArg₂ List.cons heq1 (List.map_congr_left fun i hi => ?_)
  have hi' := List.mem_range.mp hi
  have hword := h3 (512*page + i) (by omega)
  have hq : (512*page + i)/512 = page := by omega
  have hr : (512*page + i)%512 = i := by omega
  rw [hq, hr, if_pos (by omega), if_pos (by omega)] at hword
  have heq := Option.some.inj (hword.symm.trans (hrow (i+1) (by omega)))
  have hload := load_list (t := tablesOf ps ⟨true, prp1, prp2, lists.ioaddrs,
    fun k => if 8*k < prpListSize np then temp k else 0#64⟩ io) halign2
    (show i < 512 by omega) hnodup
    (h2 page hpage) data
  refine hload.trans ?_
  simp only [tablesOf]
  rw [if_pos (by omega)]
  exact heq

end Tables

/-- The tables are right just if there are no lists, or fewer than `2^20` of them. -/
theorem tables_right_iff {ps np lbaDataSize k : Nat} {pages lists : Dma} (hps : ps = 2^k)
    (haccept : constructCache ps np lbaDataSize pages lists ≠ .thrown) (hpages : Maps pages (ps*np))
    (hlists : 8192 < ps → Maps lists (prpListSize np)) (hnodup : lists.ioaddrs.Nodup) :
    (constructCache ps np lbaDataSize pages lists).Right ps np pages ↔ ps ≤ 8192 ∨ np < 2^20 := by
  have h : Accepts ps np lbaDataSize := by
    by_contra hnot
    refine haccept ?_
    rw [Accepts, not_and_or, not_not] at hnot
    rw [constructCache, if_pos hnot]
  rcases Nat.lt_trichotomy k 13 with hk | rfl | hk
  · have hdvd : ps ∣ 4096 := hps ▸ Nat.pow_dvd_pow 2 (show k ≤ 12 by omega)
    have hle : ps ≤ 4096 := Nat.le_of_dvd (by decide) hdvd
    exact iff_of_true (right_small h hdvd hpages) (.inl (by omega))
  · subst hps
    exact iff_of_true (right_two h hpages) (.inl le_rfl)
  · have hpow : 2^14 ≤ 2^k := Nat.pow_le_pow_right (by decide) hk
    have hlarge : 8192 < ps := by omega
    have hmul : ps = 4096 * 2^(k-12) := by
      rw [hps, show 4096 = 2^12 by rfl, ← Nat.pow_add, Nat.add_sub_cancel' (by omega)]
    by_cases hfits : 4096*np < 2^32
    · exact iff_of_true (right_lists h hmul (by omega) hpages (hlists hlarge) hnodup hfits)
        (.inr (by omega))
    · rw [outside_of_wrap h hlarge (hlists hlarge) hfits]
      exact iff_of_false (fun hright => by cases hright) (by omega)

theorem maps_inOrder {first n size : Nat} (h : n = align64K size / 4096) :
    Maps (Dma.inOrder first n) size := by
  rw [Maps, Dma.inOrder, List.length_map, List.length_range, h]

/-- Sixteen pages of 16 KB, each with a list of three. -/
theorem sixteen_lists_right :
    constructCache 16384 16 512 (.inOrder 16 64) (.inOrder 1024 16) ≠ .thrown ∧
      (constructCache 16384 16 512 (.inOrder 16 64) (.inOrder 1024 16)).Right 16384 16
      (.inOrder 16 64) := by
  have haccept : constructCache 16384 16 512 (.inOrder 16 64) (.inOrder 1024 16) ≠ .thrown :=
    not_thrown ⟨by decide, by decide⟩
  have hpages : Maps (.inOrder 16 64) (16384*16) := maps_inOrder (by decide)
  have hlists : Maps (.inOrder 1024 16) (prpListSize 16) := maps_inOrder (by decide)
  have hiff := tables_right_iff (k := 14) (by decide) haccept hpages (fun _ => hlists)
    (nodup_inOrder (by decide))
  exact ⟨haccept, hiff.mpr (.inr (by omega))⟩

/-- With `2^20 + 16` lists of 4 KB the size of the list memory comes out as 64 KB. -/
theorem million_lists_outside :
    ¬∀ (ps np lbaDataSize k : Nat) (pages lists : Dma), ps = 2^k →
      constructCache ps np lbaDataSize pages lists ≠ .thrown → Maps pages (ps*np) →
      (8192 < ps → Maps lists (prpListSize np)) → lists.ioaddrs.Nodup → pages.ioaddrs.Nodup →
      (∀ a ∈ lists.ioaddrs, a ∉ pages.ioaddrs) →
      (constructCache ps np lbaDataSize pages lists).Right ps np pages := by
  intro h
  have hmaps : Maps (.inOrder 16 4194368) (16384*1048592) := maps_inOrder (by decide)
  have hlists : Maps (.inOrder 8388608 16) (prpListSize 1048592) := maps_inOrder (by decide)
  have hout :
    constructCache 16384 1048592 512 (.inOrder 16 4194368) (.inOrder 8388608 16) = .outside :=
    outside_of_wrap ⟨by decide, by decide⟩ (by decide) hlists (by decide)
  have hright := h 16384 1048592 512 14 (.inOrder 16 4194368) (.inOrder 8388608 16) (by decide)
    (not_thrown ⟨by decide, by decide⟩) hmaps (fun _ => hlists) (nodup_inOrder (by decide))
    (nodup_inOrder (by decide)) fun a ha ha' => by
      have h1 := mem_inOrder (by decide) ha
      have h2 := mem_inOrder (by decide) ha'
      omega
  rw [hout] at hright
  cases hright

end Shaper.PrpGeometry
