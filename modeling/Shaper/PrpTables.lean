import Shaper.Lib.Lists
import Shaper.PrpBuild

/-! The data pointers of the cache pages, as direct transfers use them: what
`page_cache_t` puts into them and what the pointer swap with the victim buffer does. -/
namespace Shaper.PrpTables
open Nvme PrpBuild Function Lib.Lists

structure Dma where
  ioaddrs : List (BitVec 64)
  aligned : ∀ a ∈ ioaddrs, a.toNat % 4096 = 0

/-- The data pointers. `listAddrs` and `words` are the pages of `prp_list_dma` and what
they hold, 512 words each. -/
structure Pointers where
  prps : Bool
  prp1 : Nat → BitVec 64
  prp2 : Nat → BitVec 64
  listAddrs : List (BitVec 64)
  words : Nat → BitVec 64

structure Tables extends Pointers where
  pageSize : Nat
  pagesPerEntry : Nat
  pageIoaddrs : Nat → BitVec 64
  dataIoaddrs : Nat → BitVec 64
  pageVaddrs : Nat → BitVec 64
  entryVaddrs : Nat → BitVec 64

def fill (n : Nat) (f : Nat → Option (BitVec 64)) : Option (Nat → BitVec 64) :=
  if (List.range n).all fun i => (f i).isSome then some fun i => (f i).getD 0#64 else none

def align64K (size : Nat) : Nat := (size + 65535) / 65536 * 65536

def Maps (d : Dma) (size : Nat) : Prop := d.ioaddrs.length = align64K size / 4096

def busAddr (d : Dma) (b : Nat) : BitVec 64 :=
  d.ioaddrs.getD (b/4096) 0#64 + BitVec.ofNat 64 (b%4096)

def prpListSize (np : Nat) : Nat := 4096*np % 2^32

/-- The layout with lists. `temp3` has `prp_list_size` words, of which as many bytes are
copied to the list memory. -/
def listPointers (ps np : Nat) (pages lists : Dma) : Option Pointers := do
  let howManyInOne := ps / 4096
  let prp1 ← fill np fun i => pages.ioaddrs[i*howManyInOne]?
  let prp2 ← fill np fun i => lists.ioaddrs[i]?
  let temp ← fill (512*np) fun k =>
    if k%512 < howManyInOne - 1 then
      if k < prpListSize np then pages.ioaddrs[k/512*howManyInOne + k%512 + 1]? else none
    else some 0#64
  return ⟨true, prp1, prp2, lists.ioaddrs, fun k => if 8*k < prpListSize np then temp k else 0#64⟩

def pointers (ps np : Nat) (pages lists : Dma) : Option Pointers :=
  let io := fun k : Nat => pages.ioaddrs[k]?
  if ps ≤ 4096 then do
    let howManyInOne := 4096 / ps
    let temp := pages.ioaddrs.flatMap fun a =>
      (List.range howManyInOne).map fun j => a + BitVec.ofNat 64 (j*ps)
    let prp1 ← fill np fun i => temp[i]?
    return ⟨false, prp1, fun _ => 0#64, [], fun _ => 0#64⟩
  else if ps ≤ 8192 then do
    let prp1 ← fill np fun i => io (i*2)
    let prp2 ← fill np fun i => io (i*2+1)
    return ⟨true, prp1, prp2, [], fun _ => 0#64⟩
  else listPointers ps np pages lists

def pagesPerEntryOf (ps : Nat) : Nat := if ps ≤ 4096 then 1 else ps / 4096

def subpageTable (ps np ppe : Nat) (pages : Dma) : Option (Nat → BitVec 64) :=
  let io := fun k : Nat => pages.ioaddrs[k]?
  if ppe = 1 ∧ ps ≤ 4096 then
    let howMany := 4096 / ps
    fill (np*ppe) fun i => (io (i/howMany)).map (· + BitVec.ofNat 64 (i%howMany*ps))
  else fill (np*ppe) io

def victimTable (victim : Dma) (k : Nat) : BitVec 64 :=
  victim.ioaddrs.getD k (victim.ioaddrs.headD 0#64 + BitVec.ofNat 64 (k*4096))

def tablesOf (ps : Nat) (p : Pointers) (io : Nat → BitVec 64) : Tables :=
  { p with
    pageSize := ps
    pagesPerEntry := pagesPerEntryOf ps
    pageIoaddrs := io
    dataIoaddrs := fun _ => 0#64
    pageVaddrs := fun _ => 0#64
    entryVaddrs := fun _ => 0#64 }

inductive Outcome where
  | thrown
  | outside
  | built (t : Tables)

/-- The constructor: it throws, leaves one of its arrays or builds the tables. No memory is
mapped for a size of zero. -/
def constructCache (ps np lbaDataSize : Nat) (pages lists : Dma) : Outcome :=
  if ¬(ps ≤ 4096*512 ∧ np ≠ 0 ∧ lbaDataSize ≤ ps) ∨ (8192 < ps ∧ prpListSize np = 0) then .thrown
  else
    match pointers ps np pages lists, subpageTable ps np (pagesPerEntryOf ps) pages with
    | some p, some io => .built (tablesOf ps p io)
    | _, _ => .outside

/-- `page_cache_t` with its memory at `baseAddr` and a victim buffer of `victim_create` with
its data at `data`. There is no result when the constructor throws or leaves an array. -/
def construct (ps np lbaDataSize : Nat) (pages lists victim : Dma) (baseAddr data : BitVec 64) :
    Option Tables :=
  match constructCache ps np lbaDataSize pages lists with
  | .built t => some { t with
      dataIoaddrs := victimTable victim
      pageVaddrs := fun i => baseAddr + BitVec.ofNat 64 (i*ps)
      entryVaddrs := fun v => data + BitVec.ofNat 64 (v*ps) }
  | _ => none

namespace Tables
variable (t : Tables)

def swapSubpage (page v j : Nat) : Tables :=
  let i := page * t.pagesPerEntry + j
  let k := v * t.pagesPerEntry + j
  { t with
    pageIoaddrs := update t.pageIoaddrs i (t.dataIoaddrs k)
    dataIoaddrs := update t.dataIoaddrs k (t.pageIoaddrs i) }

def swapSubpages (page v : Nat) (js : List Nat) : Tables :=
  js.foldl (fun t j => t.swapSubpage page v j) t

def swap (s : Nat × Nat) : Tables :=
  let (page, v) := s
  let ppe := t.pagesPerEntry
  let t := { t with
    pageVaddrs := update t.pageVaddrs page (t.entryVaddrs v)
    entryVaddrs := update t.entryVaddrs v (t.pageVaddrs page) }
  let t := t.swapSubpages page v (List.range ppe)
  let t := { t with prp1 := update t.prp1 page (t.pageIoaddrs (page*ppe)) }
  if 2 ≤ ppe then { t with prp2 := update t.prp2 page (t.pageIoaddrs (page*ppe + 1)) } else t

def load (data : BitVec 64 → BitVec 64) (a : BitVec 64) : BitVec 64 :=
  match t.listAddrs.findIdx? fun l => l.toNat == a.toNat/4096*4096 with
  | some i => t.words (512*i + a.toNat%4096/8)
  | none => data a

/-- The pages that the data pointer of `read_data` and `write_data` names. -/
def decode (data : BitVec 64 → BitVec 64) (page : Nat) : List (BitVec 64) :=
  let prp1 := t.prp1 page
  let prp2 := if t.prps then t.prp2 page else 0#64
  prpPages (t.load data) prp1 prp2 ((prp1.toNat%4096 + t.pageSize + 4095) / 4096)

def subpages (page : Nat) : List (BitVec 64) :=
  (List.range t.pagesPerEntry).map fun j => t.pageIoaddrs (page*t.pagesPerEntry + j)

/-- The data pointer of a page names its sub-pages, and so the bytes of its buffer. -/
structure Describes (bus : BitVec 64 → Option (BitVec 64)) (page : Nat) : Prop where
  subpages : ∀ data, t.decode data page = t.subpages page
  buffer : ∀ data, ∀ x < t.pageSize,
    bus (t.pageVaddrs page + BitVec.ofNat 64 x) = some (byteAddr (t.decode data page) x)

end Tables

/-- Where on the bus a byte of the memory of the cache or of the victim buffer is. -/
def busOf (pages victim : Dma) (baseAddr data a : BitVec 64) : Option (BitVec 64) :=
  if (a - baseAddr).toNat < 4096*pages.ioaddrs.length then
    some (busAddr pages (a - baseAddr).toNat)
  else if (a - data).toNat < 4096*victim.ioaddrs.length then
    some (busAddr victim (a - data).toNat)
  else none

/-- The list pages are pages of their own, the memory of the cache and of the victim buffer
is mapped as far as it is used, each page of it once, and the two do not overlap. -/
structure Separate (ps np nVictims : Nat) (pages lists victim : Dma) (baseAddr data : BitVec 64) :
    Prop where
  nodup : lists.ioaddrs.Nodup
  pages_ne : ∀ a ∈ lists.ioaddrs, a ∉ pages.ioaddrs
  victim_ne : ∀ a ∈ lists.ioaddrs, a ∉ victim.ioaddrs
  lists_size : 8192 < ps → Maps lists (prpListSize np)
  pages_nodup : pages.ioaddrs.Nodup
  victim_nodup : victim.ioaddrs.Nodup
  pages_covers : np * ps ≤ 4096 * pages.ioaddrs.length
  covers : nVictims * ps ≤ 4096 * victim.ioaddrs.length
  pages_fits : 4096 * pages.ioaddrs.length ≤ 2^64
  victim_fits : 4096 * victim.ioaddrs.length ≤ 2^64
  apart : ∀ x < 4096 * pages.ioaddrs.length, ∀ y < 4096 * victim.ioaddrs.length,
    baseAddr + BitVec.ofNat 64 x ≠ data + BitVec.ofNat 64 y

theorem fill_spec {n : Nat} {f : Nat → Option (BitVec 64)} {tab : Nat → BitVec 64}
    (h : fill n f = some tab) {i : Nat} (hi : i < n) : f i = some (tab i) := by
  rw [fill] at h
  split at h
  · rename_i hall
    obtain rfl := Option.some.inj h
    have hsome := List.all_eq_true.mp hall i (List.mem_range.mpr hi)
    exact Option.eq_some_of_isSome hsome |>.trans (by rw [Option.get_eq_getD])
  · cases h

theorem toNat_add_offset {a : BitVec 64} (ha : a.toNat % 4096 = 0) {x : Nat} (hx : x < 4096) :
    (a + BitVec.ofNat 64 x).toNat = a.toNat + x := by
  have := a.isLt
  rw [BitVec.toNat_add, BitVec.toNat_ofNat]
  omega

section Construct
variable {ps np lbaDataSize : Nat} {pages lists victim : Dma} {baseAddr data : BitVec 64}
  {t : Tables}

theorem construct_eq (h : construct ps np lbaDataSize pages lists victim baseAddr data = some t) :
    (ps ≤ 4096*512 ∧ np ≠ 0 ∧ lbaDataSize ≤ ps) ∧ t.pageSize = ps ∧
      t.pagesPerEntry = pagesPerEntryOf ps ∧ t.dataIoaddrs = victimTable victim ∧
      pointers ps np pages lists = some t.toPointers ∧
      subpageTable ps np (pagesPerEntryOf ps) pages = some t.pageIoaddrs ∧
      (t.pageVaddrs = fun i => baseAddr + BitVec.ofNat 64 (i*ps)) ∧
      t.entryVaddrs = fun v => data + BitVec.ofNat 64 (v*ps) := by
  rw [construct, constructCache] at h
  split_ifs at h with hcond
  rw [not_or, not_not] at hcond
  cases hptrs : pointers ps np pages lists with
  | none => simp [hptrs] at h
  | some p =>
    cases hio : subpageTable ps np (pagesPerEntryOf ps) pages with
    | none => simp [hptrs, hio] at h
    | some io =>
      simp only [hptrs, hio, Option.some.injEq] at h
      subst h
      exact ⟨hcond.1, rfl, rfl, rfl, rfl, rfl, rfl, rfl⟩

theorem pointers_small {p : Pointers} (hps : ps ≤ 4096) (h : pointers ps np pages lists = some p)
    {io : Nat → BitVec 64}
    (hio : subpageTable ps np 1 pages = some io) {page : Nat} (hpage : page < np) :
    p.prps = false ∧ p.prp1 page = io page ∧ 0 < ps ∧ (io page).toNat % 4096 + ps ≤ 4096 := by
  rw [pointers, if_pos hps] at h
  simp only [Option.bind_eq_bind, Option.bind_eq_some_iff] at h
  obtain ⟨prp1, hprp1, heq⟩ := h
  obtain rfl := Option.some.inj heq
  rw [subpageTable, if_pos ⟨rfl, hps⟩] at hio
  have h1 := fill_spec hprp1 hpage
  have h2 := fill_spec hio (show page < np*1 by omega)
  have hpos : 0 < ps := by
    rcases Nat.eq_zero_or_pos ps with rfl | hpos
    · rw [Nat.div_zero] at h1
      simp at h1
    · exact hpos
  have hmany : 0 < 4096/ps := Nat.div_pos hps hpos
  rw [getElem?_blocks hmany fun a j => a + BitVec.ofNat 64 (j*ps)] at h1
  obtain ⟨a, ha, haddr⟩ := Option.map_eq_some_iff.mp h2
  refine ⟨rfl, Option.some.inj (h1.symm.trans h2), hpos, ?_⟩
  have halign := pages.aligned a (List.mem_of_getElem? ha)
  have hle : (page % (4096/ps) + 1) * ps ≤ 4096 :=
    (Nat.mul_le_mul_right ps (Nat.mod_lt page hmany)).trans (Nat.div_mul_le_self 4096 ps)
  rw [Nat.succ_mul] at hle
  rw [← haddr, toNat_add_offset halign (by omega)]
  omega

/-- Larger pages have whole controller pages, and `page_ioaddrs` lists them in order. -/
theorem subpageTable_large (hps : 4096 < ps) {io : Nat → BitVec 64}
    (hio : subpageTable ps np (pagesPerEntryOf ps) pages = some io) {k : Nat}
    (hk : k < np * (ps/4096)) : pages.ioaddrs[k]? = some (io k) := by
  have hppe : pagesPerEntryOf ps = ps/4096 := if_neg (by omega)
  rw [subpageTable, if_neg (by omega), hppe] at hio
  exact fill_spec hio hk

theorem listPointers_eq {p : Pointers} (h : listPointers ps np pages lists = some p) :
    p.prps = true ∧ p.listAddrs = lists.ioaddrs ∧
      (∀ page < np, pages.ioaddrs[page*(ps/4096)]? = some (p.prp1 page)) ∧
      (∀ page < np, lists.ioaddrs[page]? = some (p.prp2 page)) ∧
      ∀ page < np, ∀ j < 512, j < ps/4096 - 1 → 8*(512*page + j) < prpListSize np →
        pages.ioaddrs[page*(ps/4096) + j + 1]? = some (p.words (512*page + j)) := by
  simp only [listPointers, Option.bind_eq_bind, Option.bind_eq_some_iff] at h
  obtain ⟨prp1, hprp1, prp2, hprp2, temp, htemp, heq⟩ := h
  obtain rfl := Option.some.inj heq
  refine ⟨rfl, rfl, fun _ => fill_spec hprp1, fun _ => fill_spec hprp2,
    fun page hpage j hj hlow hin => ?_⟩
  have hword := fill_spec htemp (show 512*page + j < 512*np by omega)
  have hdiv : (512*page + j)/512 = page := by omega
  have hmod : (512*page + j)%512 = j := by omega
  rw [hdiv, hmod, if_pos hlow, if_pos (by omega)] at hword
  simp only [if_pos hin]
  exact hword

theorem pointers_large {p : Pointers} (hps : 4096 < ps) (h : pointers ps np pages lists = some p) :
    p.prps = true ∧ ∀ page < np, p.prp1 page ∈ pages.ioaddrs := by
  rw [pointers, if_neg (by omega)] at h
  split at h
  · simp only [Option.bind_eq_bind, Option.bind_eq_some_iff] at h
    obtain ⟨prp1, hprp1, prp2, -, heq⟩ := h
    obtain rfl := Option.some.inj heq
    exact ⟨rfl, fun page hpage => List.mem_of_getElem? (fill_spec hprp1 hpage)⟩
  · obtain ⟨hprps, -, hprp1, -⟩ := listPointers_eq h
    exact ⟨hprps, fun page hpage => List.mem_of_getElem? (hprp1 page hpage)⟩

theorem pointers_two {p : Pointers} (h : pointers 8192 np pages lists = some p) {page : Nat}
    (hpage : page < np) :
    pages.ioaddrs[page*2]? = some (p.prp1 page) ∧
    pages.ioaddrs[page*2+1]? = some (p.prp2 page) := by
  rw [pointers, if_neg (by decide), if_pos (by decide)] at h
  simp only [Option.bind_eq_bind, Option.bind_eq_some_iff] at h
  obtain ⟨prp1, hprp1, prp2, hprp2, heq⟩ := h
  obtain rfl := Option.some.inj heq
  exact ⟨fill_spec hprp1 hpage, fill_spec hprp2 hpage⟩

/-- The list memory holds a page for each list just if its size fits 32 bits. -/
theorem lists_length (hlists : Maps lists (prpListSize np)) :
    np ≤ lists.ioaddrs.length ↔ 4096*np < 2^32 := by
  unfold Maps align64K prpListSize at *
  omega

theorem pointers_lists {p : Pointers} (hps : 8192 < ps) (hmax : ps ≤ 4096*512)
    (hlists : Maps lists (prpListSize np)) (h : pointers ps np pages lists = some p) {page : Nat}
    (hpage : page < np) :
    p.listAddrs = lists.ioaddrs ∧ pages.ioaddrs[page*(ps/4096)]? = some (p.prp1 page) ∧
      lists.ioaddrs[page]? = some (p.prp2 page) ∧
      ∀ j < ps/4096 - 1,
      pages.ioaddrs[page*(ps/4096) + j + 1]? = some (p.words (512*page + j)) := by
  rw [pointers, if_neg (by omega), if_neg (by omega)] at h
  obtain ⟨-, haddrs, hprp1, hprp2, hwords⟩ := listPointers_eq h
  have hlast := (List.getElem?_eq_some_iff.mp (hprp2 (np-1) (by omega))).1
  have hsize : prpListSize np = 4096*np :=
    Nat.mod_eq_of_lt ((lists_length hlists).mp (by omega))
  refine ⟨haddrs, hprp1 page hpage, hprp2 page hpage, fun j hj => ?_⟩
  exact hwords page hpage j (by omega) hj (by omega)

end Construct

section Swap
variable {t t' : Tables} {page v np nVictims : Nat}

def Tables.Linked (t : Tables) (page : Nat) : Prop :=
  t.prp1 page = t.pageIoaddrs (page * t.pagesPerEntry) ∧
    (2 ≤ t.pagesPerEntry → t.prp2 page = t.pageIoaddrs (page * t.pagesPerEntry + 1))

def Tables.vaddrOf (t : Tables) : Entry → BitVec 64
  | .page i => t.pageVaddrs i
  | .victim v => t.entryVaddrs v

def Tables.ioaddrOf (t : Tables) (o : Entry) (j : Nat) : BitVec 64 :=
  match o with
  | .page i => t.pageIoaddrs (i * t.pagesPerEntry + j)
  | .victim v => t.dataIoaddrs (v * t.pagesPerEntry + j)

def exchange (s : Nat × Nat) (o : Entry) : Entry :=
  if o = .page s.1 then .victim s.2 else if o = .victim s.2 then .page s.1 else o

def bufferOf (swaps : List (Nat × Nat)) (o : Entry) : Entry := swaps.foldr exchange o

theorem bufferOf_kept {swaps : List (Nat × Nat)} (h : page ∉ swaps.map Prod.fst) :
    bufferOf swaps (.page page) = .page page := by
  induction swaps with
  | nil => rfl
  | cons s swaps ih =>
    rw [List.map_cons, List.mem_cons, not_or] at h
    change exchange s (bufferOf swaps (.page page)) = _
    rw [ih h.2, exchange, if_neg fun he => h.1 (Entry.page.inj he), if_neg fun he => by cases he]

def Within (np nVictims : Nat) : Entry → Prop
  | .page i => i < np
  | .victim v => v < nVictims

theorem bufferOf_within {swaps : List (Nat × Nat)} (hswaps : ∀ s ∈ swaps, s.1 < np ∧ s.2 < nVictims)
    {o : Entry} (ho : Within np nVictims o) : Within np nVictims (bufferOf swaps o) := by
  induction swaps with
  | nil => exact ho
  | cons s swaps ih =>
    have hs := hswaps s List.mem_cons_self
    have hrest := ih fun s' hs' => hswaps s' (List.mem_cons_of_mem _ hs')
    change Within np nVictims (exchange s (bufferOf swaps o))
    unfold exchange
    split_ifs
    · exact hs.2
    · exact hs.1
    · exact hrest

theorem row_ne {ppe page' j j' : Nat} (hne : page' ≠ page) (hj : j < ppe) (hj' : j' < ppe) :
    page' * ppe + j' ≠ page * ppe + j := by
  intro heq
  have hdiv := congrArg (· / ppe) heq
  have hpos : 0 < ppe := by omega
  simp only [Nat.mul_comm _ ppe, Nat.mul_add_div hpos, Nat.div_eq_of_lt hj, Nat.div_eq_of_lt hj',
    Nat.add_zero] at hdiv
  exact hne hdiv

theorem update_row {ppe j j' : Nat} (f : Nat → BitVec 64) (x : BitVec 64) (page' : Nat)
    (hj : j < ppe) (hj' : j' < ppe) :
    update f (page*ppe + j) x (page'*ppe + j') =
      if page' = page ∧ j' = j then x else f (page'*ppe + j') := by
  by_cases hp : page' = page
  · subst hp
    by_cases he : j' = j
    · rw [he, update_self, if_pos ⟨rfl, rfl⟩]
    · rw [update_of_ne (by omega), if_neg fun h => he h.2]
  · rw [update_of_ne (row_ne hp hj hj'), if_neg fun h => hp h.1]

theorem swapSubpage_ioaddrOf (t : Tables) {j j' : Nat} (hj : j < t.pagesPerEntry)
    (hj' : j' < t.pagesPerEntry) (o : Entry) : (t.swapSubpage page v j).ioaddrOf o j' =
      if j' = j then t.ioaddrOf (exchange (page, v) o) j' else t.ioaddrOf o j' := by
  cases o with
  | page i =>
    simp only [Tables.swapSubpage, Tables.ioaddrOf, update_row _ _ _ hj hj', exchange,
      Entry.page.injEq, reduceCtorEq, if_false]
    by_cases hi : i = page <;> by_cases he : j' = j <;> simp [hi, he]
  | victim w =>
    simp only [Tables.swapSubpage, Tables.ioaddrOf, update_row _ _ _ hj hj', exchange,
      Entry.victim.injEq, reduceCtorEq, if_false]
    by_cases hi : w = v <;> by_cases he : j' = j <;> simp [hi, he]

/-- The loop changes the two tables of addresses only: the page and the entry exchange the
cells that it came to. -/
theorem swapSubpages_spec (js : List Nat) (hjs : ∀ j ∈ js, j < t.pagesPerEntry) (hnd : js.Nodup) :
    ∃ io d, t.swapSubpages page v js = { t with pageIoaddrs := io, dataIoaddrs := d } ∧
      ∀ o, ∀ j < t.pagesPerEntry, (t.swapSubpages page v js).ioaddrOf o j =
        if j ∈ js then t.ioaddrOf (exchange (page, v) o) j else t.ioaddrOf o j := by
  induction js generalizing t with
  | nil => exact ⟨_, _, rfl, fun _ _ _ => by rw [if_neg List.not_mem_nil]; rfl⟩
  | cons j js ih =>
    have hj := hjs j List.mem_cons_self
    obtain ⟨hnot, hnd⟩ := List.nodup_cons.mp hnd
    obtain ⟨io, d, heq, hcell⟩ := ih (t := t.swapSubpage page v j)
      (fun j' hj' => hjs j' (List.mem_cons_of_mem _ hj')) hnd
    refine ⟨io, d, heq, fun o j' hj' => (hcell o j' hj').trans ?_⟩
    rw [swapSubpage_ioaddrOf t hj hj', swapSubpage_ioaddrOf t hj hj']
    by_cases he : j' = j
    · subst he
      rw [if_neg hnot, if_pos rfl, if_pos List.mem_cons_self]
    · rw [if_neg he, if_neg he]
      simp only [List.mem_cons, he, false_or]

structure Same (t t' : Tables) : Prop where
  size_eq : t'.pageSize = t.pageSize
  ppe_eq : t'.pagesPerEntry = t.pagesPerEntry
  prps_eq : t'.prps = t.prps
  addrs_eq : t'.listAddrs = t.listAddrs
  words_eq : t'.words = t.words

theorem Same.trans {t'' : Tables} (h : Same t t') (h' : Same t' t'') : Same t t'' :=
  ⟨h'.size_eq.trans h.size_eq, h'.ppe_eq.trans h.ppe_eq, h'.prps_eq.trans h.prps_eq,
    h'.addrs_eq.trans h.addrs_eq, h'.words_eq.trans h.words_eq⟩

structure Swapped (s : Nat × Nat) (t t' : Tables) : Prop extends Same t t' where
  prp1_eq : ∀ page' ≠ s.1, t'.prp1 page' = t.prp1 page'
  prp2_eq : ∀ page' ≠ s.1, t'.prp2 page' = t.prp2 page'
  vaddr_eq : ∀ o, t'.vaddrOf o = t.vaddrOf (exchange s o)
  ioaddr_eq : ∀ o, ∀ j < t.pagesPerEntry, t'.ioaddrOf o j = t.ioaddrOf (exchange s o) j
  linked : t'.Linked s.1

theorem swap_vaddrOf (t : Tables) (page v : Nat) (o : Entry) :
    ({ t with
      pageVaddrs := update t.pageVaddrs page (t.entryVaddrs v)
      entryVaddrs := update t.entryVaddrs v (t.pageVaddrs page) } : Tables).vaddrOf o =
      t.vaddrOf (exchange (page, v) o) := by
  cases o with
  | page i => by_cases h : i = page <;> simp [Tables.vaddrOf, exchange, h]
  | victim w => by_cases h : w = v <;> simp [Tables.vaddrOf, exchange, h]

theorem swap_spec (t : Tables) (page v : Nat) : Swapped (page, v) t (t.swap (page, v)) := by
  have hva := swap_vaddrOf t page v
  generalize ht₁ : ({ t with
    pageVaddrs := update t.pageVaddrs page (t.entryVaddrs v)
    entryVaddrs := update t.entryVaddrs v (t.pageVaddrs page) } : Tables) = t₁ at hva
  have hio : ∀ o j, t₁.ioaddrOf o j = t.ioaddrOf o j := by
    rw [← ht₁]
    exact fun o j => rfl
  have hppe : t₁.pagesPerEntry = t.pagesPerEntry := by rw [← ht₁]
  obtain ⟨io, d, heq, hcell⟩ := @swapSubpages_spec _ page v
    (List.range t.pagesPerEntry) (fun j hj => hppe ▸ List.mem_range.mp hj) List.nodup_range
  have hcell' : ∀ o, ∀ j < t.pagesPerEntry,
      ({ t₁ with pageIoaddrs := io, dataIoaddrs := d } : Tables).ioaddrOf o j =
        t.ioaddrOf (exchange (page, v) o) j := by
    intro o j hj
    rw [← heq, hcell o j (hppe ▸ hj), if_pos (List.mem_range.mpr hj), hio]
  simp only [Tables.swap, ht₁, heq]
  subst ht₁
  split
  · exact ⟨⟨rfl, rfl, rfl, rfl, rfl⟩, fun _ hne => update_of_ne hne _ _,
      fun _ hne => update_of_ne hne _ _, hva, hcell', update_self _ _ _, fun _ => update_self _ _ _⟩
  · rename_i hlt
    exact ⟨⟨rfl, rfl, rfl, rfl, rfl⟩, fun _ hne => update_of_ne hne _ _, fun _ _ => rfl, hva,
      hcell', update_self _ _ _, fun h => absurd h hlt⟩

theorem Swapped.linked_of_ne {s : Nat × Nat} (h : Swapped s t t') (hpos : 0 < t.pagesPerEntry)
    (hne : page ≠ s.1) (hl : t.Linked page) : t'.Linked page := by
  have hex : exchange s (.page page) = .page page := by
    rw [exchange, if_neg fun he => hne (Entry.page.inj he), if_neg fun he => by cases he]
  have hrow : ∀ j < t.pagesPerEntry, t'.pageIoaddrs (page * t'.pagesPerEntry + j) =
      t.pageIoaddrs (page * t.pagesPerEntry + j) := fun j hj =>
    (h.ioaddr_eq (.page page) j hj).trans (congrArg (t.ioaddrOf · j) hex)
  rw [Tables.Linked, h.prp1_eq page hne, h.prp2_eq page hne]
  refine ⟨hl.1.trans (hrow 0 hpos).symm, fun h2 => ?_⟩
  rw [h.ppe_eq] at h2
  exact (hl.2 h2).trans (hrow 1 h2).symm

structure Run (page : Nat) (swaps : List (Nat × Nat)) (t t' : Tables) : Prop extends Same t t' where
  kept : page ∉ swaps.map Prod.fst → t'.prp1 page = t.prp1 page ∧ t'.prp2 page = t.prp2 page
  vaddr_eq : ∀ o, t'.vaddrOf o = t.vaddrOf (bufferOf swaps o)
  ioaddr_eq : ∀ o, ∀ j < t.pagesPerEntry, t'.ioaddrOf o j = t.ioaddrOf (bufferOf swaps o) j
  linked : page ∈ swaps.map Prod.fst → t'.Linked page

theorem run_spec (hpos : 0 < t.pagesPerEntry) (page : Nat) (swaps : List (Nat × Nat)) :
    Run page swaps t (swaps.foldl Tables.swap t) := by
  induction swaps using List.reverseRecOn with
  | nil =>
    exact ⟨⟨rfl, rfl, rfl, rfl, rfl⟩, fun _ => ⟨rfl, rfl⟩, fun _ => rfl, fun _ _ _ => rfl,
      fun h => absurd h List.not_mem_nil⟩
  | append_singleton swaps s hrun =>
    rw [List.foldl_append, List.foldl_cons, List.foldl_nil]
    generalize swaps.foldl Tables.swap t = t₁ at hrun
    have hswap := swap_spec t₁ s.1 s.2
    have hbuffer : ∀ o, bufferOf (swaps ++ [s]) o = bufferOf swaps (exchange s o) := fun o =>
      List.foldr_append
    refine ⟨hrun.toSame.trans hswap.toSame, fun hnot => ?_, fun o => ?_, fun o j hj => ?_,
      fun hmem => ?_⟩
    · rw [List.map_append, List.mem_append, not_or, List.map_singleton, List.mem_singleton] at hnot
      obtain ⟨hnot, hne⟩ := hnot
      obtain ⟨h1, h2⟩ := hrun.kept hnot
      exact ⟨(hswap.prp1_eq page hne).trans h1, (hswap.prp2_eq page hne).trans h2⟩
    · rw [hbuffer, ← hrun.vaddr_eq]
      exact hswap.vaddr_eq o
    · rw [hbuffer, ← hrun.ioaddr_eq _ j hj]
      exact hswap.ioaddr_eq o j (hrun.ppe_eq.symm ▸ hj)
    · by_cases hne : page = s.1
      · rw [hne]
        exact hswap.linked
      · rw [List.map_append, List.mem_append, List.map_singleton, List.mem_singleton] at hmem
        exact hswap.linked_of_ne (hrun.ppe_eq.symm ▸ hpos) hne
          (hrun.linked (hmem.resolve_right hne))

/-- A data pointer that was right before the swaps begins right after them. -/
theorem Run.linked_of {swaps : List (Nat × Nat)} (h : Run page swaps t t')
    (hpos : 0 < t.pagesPerEntry) (hl : t.Linked page) : t'.Linked page := by
  by_cases hmem : page ∈ swaps.map Prod.fst
  · exact h.linked hmem
  · obtain ⟨h1, h2⟩ := h.kept hmem
    have hrow : ∀ j < t.pagesPerEntry, t'.pageIoaddrs (page * t'.pagesPerEntry + j) =
        t.pageIoaddrs (page * t.pagesPerEntry + j) := fun j hj =>
      (h.ioaddr_eq (.page page) j hj).trans (congrArg (t.ioaddrOf · j) (bufferOf_kept hmem))
    rw [Tables.Linked, h1, h2]
    refine ⟨hl.1.trans (hrow 0 hpos).symm, fun hle => ?_⟩
    rw [h.ppe_eq] at hle
    exact (hl.2 hle).trans (hrow 1 hle).symm

/-- What holds of all addresses at first holds of the addresses of a page at last. -/
theorem Run.page_of {swaps : List (Nat × Nat)} {Q : BitVec 64 → Prop} (h : Run page swaps t t')
    (hswaps : ∀ s ∈ swaps, s.1 < np ∧ s.2 < nVictims) (hpage : page < np)
    (hall : ∀ o, Within np nVictims o → ∀ j < t.pagesPerEntry, Q (t.ioaddrOf o j)) {j : Nat}
    (hj : j < t.pagesPerEntry) : Q (t'.pageIoaddrs (page * t'.pagesPerEntry + j)) := by
  have hrow := h.ioaddr_eq (.page page) j hj
  simp only [Tables.ioaddrOf] at hrow
  rw [hrow]
  exact hall _ (bufferOf_within hswaps (show Within np nVictims (.page page) from hpage)) j hj

end Swap

section Load
variable {t : Tables} {a : BitVec 64} (halign : a.toNat % 4096 = 0) {x : Nat} (hx : x < 512)
include halign hx

theorem load_list (hnodup : t.listAddrs.Nodup) {i : Nat} (hi : t.listAddrs[i]? = some a)
    (data : BitVec 64 → BitVec 64) :
    t.load data (a + BitVec.ofNat 64 (8*x)) = t.words (512*i + x) := by
  have haddr := toNat_add_offset halign (show 8*x < 4096 by omega)
  have hbase : (a.toNat + 8*x)/4096*4096 = a.toNat := by omega
  have hword : (a.toNat + 8*x)%4096/8 = x := by omega
  obtain ⟨hlt, hget⟩ := List.getElem?_eq_some_iff.mp hi
  have hfind : t.listAddrs.findIdx? (fun l => l.toNat == (a.toNat + 8*x)/4096*4096) = some i := by
    refine List.findIdx?_eq_some_iff_getElem.mpr ⟨hlt, ?_, fun j hj => ?_⟩
    · rw [hget, hbase]
      exact beq_self_eq_true _
    · rw [hbase, beq_iff_eq]
      intro heq
      rw [← hget] at heq
      exact absurd ((hnodup.getElem_inj_iff).mp (BitVec.eq_of_toNat_eq heq)) (Nat.ne_of_lt hj)
  simp only [Tables.load, haddr, hfind, hword]

theorem load_data (hnot : a ∉ t.listAddrs) (data : BitVec 64 → BitVec 64) :
    t.load data (a + BitVec.ofNat 64 (8*x)) = data (a + BitVec.ofNat 64 (8*x)) := by
  have haddr := toNat_add_offset halign (show 8*x < 4096 by omega)
  have hbase : (a.toNat + 8*x)/4096*4096 = a.toNat := by omega
  have hfind : t.listAddrs.findIdx? (fun l => l.toNat == (a.toNat + 8*x)/4096*4096) = none := by
    refine List.findIdx?_eq_none_iff.mpr fun l hl => beq_false_of_ne fun heq => hnot ?_
    rw [hbase] at heq
    rwa [← BitVec.eq_of_toNat_eq heq]
  simp only [Tables.load, haddr, hfind]

end Load

section Cases
variable {ps np lbaDataSize nVictims page : Nat} {pages lists victim : Dma}
  {baseAddr base : BitVec 64} {t t' : Tables} {swaps : List (Nat × Nat)}

theorem victimTable_aligned (victim : Dma) (k : Nat) : (victimTable victim k).toNat % 4096 = 0 := by
  rw [victimTable, List.getD_eq_getElem?_getD]
  cases hk : victim.ioaddrs[k]? with
  | some a => exact victim.aligned a (List.mem_of_getElem? hk)
  | none =>
    have hhead : (victim.ioaddrs.headD 0#64).toNat % 4096 = 0 := by
      cases hl : victim.ioaddrs with
      | nil => rfl
      | cons a l => exact victim.aligned a (hl ▸ List.mem_cons_self)
    rw [Option.getD_none, BitVec.toNat_add, BitVec.toNat_ofNat]
    omega

def IsData (pages victim : Dma) (a : BitVec 64) : Prop := a ∈ pages.ioaddrs ∨ a ∈ victim.ioaddrs

theorem IsData.aligned {a : BitVec 64} (h : IsData pages victim a) : a.toNat % 4096 = 0 := by
  rcases h with h | h
  · exact pages.aligned a h
  · exact victim.aligned a h

/-- For pages of at most 4 KB: a buffer is where the table of addresses says. `page_cache_t`
counts how many pages go into 4 KB; `victim_create` gives every entry 4 KB of its own and,
behind the mapped ones, addresses counted on from the first. -/
def Placed (ps : Nat) (victim : Dma) : Entry → Prop
  | .page i => ps ∣ 4096 ∨ i < 4096/ps
  | .victim v => ps = 4096 ∨ v = 0 ∨
      victim.ioaddrs.length ≤ v ∧ victimTable victim v = busAddr victim (v*ps)

def home (ps : Nat) (pages victim : Dma) : Entry → Nat → BitVec 64
  | .page i, x => busAddr pages (i*ps + x)
  | .victim v, x => busAddr victim (v*ps + x)

theorem busAddr_inj {d : Dma} (hnd : d.ioaddrs.Nodup) {x y : Nat} (hx : x < 4096*d.ioaddrs.length)
    (hy : y < 4096*d.ioaddrs.length) (h : busAddr d x = busAddr d y) : x = y :=
  paged_inj (by decide) hnd d.aligned hx hy h

theorem busAddr_add {d : Dma} {b x : Nat} (h : b%4096 + x < 4096) :
    busAddr d (b+x) = busAddr d b + BitVec.ofNat 64 x := by
  have hdiv : (b+x)/4096 = b/4096 := by omega
  have hmod : (b+x)%4096 = b%4096 + x := by omega
  rw [busAddr, busAddr, hdiv, hmod, BitVec.ofNat_add, BitVec.add_assoc]

theorem busAddr_getElem {d : Dma} {i : Nat} {a : BitVec 64} (h : d.ioaddrs[i]? = some a) {x : Nat}
    (hx : x < 4096) : busAddr d (4096*i + x) = a + BitVec.ofNat 64 x := by
  have hdiv : (4096*i + x)/4096 = i := by omega
  have hmod : (4096*i + x)%4096 = x := by omega
  rw [busAddr, hdiv, hmod, List.getD_eq_getElem?_getD, h, Option.getD_some]

theorem forall_busAddr_iff {d : Dma} (hnd : d.ioaddrs.Nodup) {b c : Nat}
    (hb : b < 4096*d.ioaddrs.length) (hc : c < 4096*d.ioaddrs.length) (hpos : 0 < ps) :
    (∀ x < ps, busAddr d (b+x) = busAddr d (c+x)) ↔ b = c := by
  constructor
  · exact fun h => busAddr_inj hnd hb hc (h 0 hpos)
  · rintro rfl x _
    rfl

/-- As many pages as go into 4 KB are counted to each 4 KB. -/
theorem packed_iff {i : Nat} (hmany : 0 < 4096/ps) :
    i*ps = 4096*(i/(4096/ps)) + i%(4096/ps)*ps ↔ ps ∣ 4096 ∨ i < 4096/ps := by
  have hi : i*ps = 4096/ps*ps*(i/(4096/ps)) + i%(4096/ps)*ps := by
    conv_lhs => rw [← Nat.div_add_mod i (4096/ps)]
    rw [Nat.add_mul, Nat.mul_right_comm]
  rw [hi, Nat.add_right_cancel_iff]
  constructor
  · intro h
    rcases Nat.eq_zero_or_pos (i/(4096/ps)) with h0 | hgt
    · exact .inr ((Nat.div_eq_zero_iff_lt hmany).mp h0)
    · exact .inl ⟨4096/ps, by rw [Nat.mul_comm]; exact (Nat.eq_of_mul_eq_mul_right hgt h).symm⟩
  · rintro (hdvd | hlt)
    · rw [Nat.div_mul_cancel hdvd]
    · rw [Nat.div_eq_of_lt hlt, Nat.mul_zero, Nat.mul_zero]

/-- An entry behind the mapped ones: if its address is that of its memory, the entry begins a
controller page and lies in it. -/
theorem unmapped_iff (hps : ps ≤ 4096) (hpos : 0 < ps) {v : Nat}
    (hlt : v*ps < 4096*victim.ioaddrs.length) :
    (∀ x < ps, busAddr victim (v*ps + x) = victimTable victim v + BitVec.ofNat 64 x) ↔
      victimTable victim v = busAddr victim (v*ps) := by
  constructor
  · intro h
    have h0 := h 0 hpos
    rw [Nat.add_zero, BitVec.add_zero] at h0
    exact h0.symm
  · intro h x hx
    have halign := victimTable_aligned victim v
    have hmod : (v*ps)%4096 = 0 := by
      have hpage : (victim.ioaddrs.getD (v*ps/4096) 0#64).toNat % 4096 = 0 := by
        rw [List.getD_eq_getElem _ _ (by omega)]
        exact victim.aligned _ (List.getElem_mem _)
      rw [h, busAddr, toNat_add_offset hpage (Nat.mod_lt _ (by decide))] at halign
      omega
    rw [busAddr_add (by omega), h]

section Bus
variable (hsep : Separate ps np nVictims pages lists victim baseAddr base) {x : Nat}
include hsep

theorem busOf_page (hx : x < 4096*pages.ioaddrs.length) :
    busOf pages victim baseAddr base (baseAddr + BitVec.ofNat 64 x) = some (busAddr pages x) := by
  have hfits := hsep.pages_fits
  have hoff : (baseAddr + BitVec.ofNat 64 x - baseAddr).toNat = x := by
    rw [BitVec.add_comm, BitVec.add_sub_cancel, BitVec.toNat_ofNat]
    omega
  rw [busOf, hoff, if_pos hx]

theorem busOf_victim (hx : x < 4096*victim.ioaddrs.length) :
    busOf pages victim baseAddr base (base + BitVec.ofNat 64 x) = some (busAddr victim x) := by
  have hfits := hsep.victim_fits
  have hoff : (base + BitVec.ofNat 64 x - base).toNat = x := by
    rw [BitVec.add_comm, BitVec.add_sub_cancel, BitVec.toNat_ofNat]
    omega
  have hout : ¬ (base + BitVec.ofNat 64 x - baseAddr).toNat < 4096*pages.ioaddrs.length := by
    intro hin
    refine hsep.apart _ hin x hx ?_
    rw [BitVec.ofNat_toNat, BitVec.setWidth_eq, BitVec.add_comm, BitVec.sub_add_cancel]
  rw [busOf, if_neg hout, hoff, if_pos hx]

end Bus

variable (hbuilt : construct ps np lbaDataSize pages lists victim baseAddr base = some t)
  (hsep : Separate ps np nVictims pages lists victim baseAddr base)
include hbuilt

theorem ppe_pos : 0 < t.pagesPerEntry := by
  obtain ⟨-, -, hppe, -⟩ := construct_eq hbuilt
  rw [hppe, pagesPerEntryOf]
  split
  · exact Nat.one_pos
  · omega

include hsep

/-- The memory that a buffer is in, as long as nothing is swapped. -/
theorem busOf_vaddrOf {o : Entry} (ho : Within np nVictims o) {x : Nat} (hx : x < ps) :
    busOf pages victim baseAddr base (t.vaddrOf o + BitVec.ofNat 64 x) =
      some (home ps pages victim o x) := by
  obtain ⟨-, -, -, -, -, -, hpages, hentries⟩ := construct_eq hbuilt
  cases o with
  | page i =>
    have hlt := row_lt ho hx hsep.pages_covers
    simp only [Tables.vaddrOf, hpages]
    rw [BitVec.add_assoc, ← BitVec.ofNat_add, busOf_page hsep hlt, home]
  | victim v =>
    have hlt := row_lt ho hx hsep.covers
    simp only [Tables.vaddrOf, hentries]
    rw [BitVec.add_assoc, ← BitVec.ofNat_add, busOf_victim hsep hlt, home]

omit hsep in
theorem all_small (hps : ps ≤ 4096) {o : Entry} (ho : Within np nVictims o) :
    (t.ioaddrOf o 0).toNat % 4096 + ps ≤ 4096 := by
  obtain ⟨-, -, hppe, hdata, hptrs, hio, -⟩ := construct_eq hbuilt
  rw [pagesPerEntryOf, if_pos hps] at hppe hio
  cases o with
  | page i =>
    simp only [Tables.ioaddrOf, hppe, Nat.mul_one, Nat.add_zero]
    exact (pointers_small hps hptrs hio ho).2.2.2
  | victim v =>
    simp only [Tables.ioaddrOf, hdata, victimTable_aligned]
    omega

/-- Small pages: the table names a buffer just if it is placed. -/
theorem placed_iff (hps : ps ≤ 4096) {o : Entry} (ho : Within np nVictims o) :
    (∀ x < ps, busOf pages victim baseAddr base (t.vaddrOf o + BitVec.ofNat 64 x) =
      some (t.ioaddrOf o 0 + BitVec.ofNat 64 x)) ↔ Placed ps victim o := by
  obtain ⟨⟨-, hnp, -⟩, -, hppe, hdata, hptrs, hio, -⟩ := construct_eq hbuilt
  rw [pagesPerEntryOf, if_pos hps] at hppe hio
  have hpos : 0 < ps := (pointers_small hps hptrs hio (Nat.pos_of_ne_zero hnp)).2.2.1
  have hmany : 0 < 4096/ps := Nat.div_pos hps hpos
  rw [forall₂_congr fun x hx => by rw [busOf_vaddrOf hbuilt hsep ho hx, Option.some.injEq]]
  cases o with
  | page i =>
    rw [subpageTable, if_pos ⟨rfl, hps⟩] at hio
    have hrow := fill_spec hio (show i < np*1 by rw [Nat.mul_one]; exact ho)
    obtain ⟨a, ha, haddr⟩ := Option.map_eq_some_iff.mp hrow
    have hin : i/(4096/ps) < pages.ioaddrs.length := (List.getElem?_eq_some_iff.mp ha).1
    have hle : (i%(4096/ps) + 1) * ps ≤ 4096 :=
      (Nat.mul_le_mul_right ps (Nat.mod_lt i hmany)).trans (Nat.div_mul_le_self 4096 ps)
    rw [Nat.succ_mul] at hle
    have hcell : ∀ x < ps, t.ioaddrOf (.page i) 0 + BitVec.ofNat 64 x =
        busAddr pages (4096*(i/(4096/ps)) + i%(4096/ps)*ps + x) := by
      intro x hx
      simp only [Tables.ioaddrOf, hppe, Nat.mul_one, Nat.add_zero]
      rw [← haddr, BitVec.add_assoc, ← BitVec.ofNat_add, Nat.add_assoc,
        busAddr_getElem ha (by omega)]
    have hlt := row_lt ho hpos hsep.pages_covers
    rw [forall₂_congr fun x hx => by rw [hcell x hx]]
    exact (forall_busAddr_iff hsep.pages_nodup (by omega) (by omega) hpos).trans (packed_iff hmany)
  | victim v =>
    simp only [home, Tables.ioaddrOf, hppe, Nat.mul_one, Nat.add_zero, hdata]
    have hlt := row_lt (show v < nVictims from ho) hpos hsep.covers
    rcases Nat.lt_or_ge v victim.ioaddrs.length with hin | hout
    · have hcell : ∀ x < ps, victimTable victim v + BitVec.ofNat 64 x =
          busAddr victim (v*4096 + x) := by
        intro x hx
        rw [victimTable, List.getD_eq_getElem _ _ hin, Nat.mul_comm,
          busAddr_getElem (List.getElem?_eq_getElem hin) (by omega)]
      rw [forall₂_congr fun x hx => by rw [hcell x hx],
        forall_busAddr_iff hsep.victim_nodup (by omega) (by omega) hpos, Placed,
        mul_eq_mul_left_iff]
      exact or_congr_right (or_iff_left fun h => by omega).symm
    · have hne : v ≠ 0 := by omega
      have hps' : ps ≠ 4096 := by
        rintro rfl
        omega
      rw [Placed, or_iff_right hps', or_iff_right hne, and_iff_right hout]
      exact unmapped_iff hps hpos (by omega)

theorem placed_large (hps : 4096 < ps) (hdvd : 4096 ∣ ps) {o : Entry} (ho : Within np nVictims o)
    {x : Nat} (hx : x < ps) :
    busOf pages victim baseAddr base (t.vaddrOf o + BitVec.ofNat 64 x) =
      some (t.ioaddrOf o (x/4096) + BitVec.ofNat 64 (x%4096)) := by
  obtain ⟨-, -, hppe, hdata, -, hio, -⟩ := construct_eq hbuilt
  have hppe' : pagesPerEntryOf ps = ps/4096 := if_neg (by omega)
  rw [hppe'] at hppe
  obtain ⟨n, rfl⟩ := hdvd
  rw [Nat.mul_div_cancel_left _ (by decide)] at hppe
  have hj : x/4096 < n := by omega
  have hpos (i : Nat) : i*(4096*n) + x = 4096*(i*n + x/4096) + x%4096 := by
    rw [Nat.mul_left_comm]
    omega
  rw [busOf_vaddrOf hbuilt hsep ho hx]
  cases o with
  | page i =>
    have hrow := subpageTable_large (k := i*n + x/4096) hps hio
      (by rw [Nat.mul_div_cancel_left _ (by decide)]; exact row_lt ho hj le_rfl)
    simp only [home, Tables.ioaddrOf, hppe]
    rw [hpos, busAddr_getElem hrow (Nat.mod_lt _ (by decide))]
  | victim v =>
    have hlt := row_lt ho hx hsep.covers
    rw [hpos] at hlt
    have hin : v*n + x/4096 < victim.ioaddrs.length := by omega
    simp only [home, Tables.ioaddrOf, hppe, hdata, victimTable]
    rw [hpos, busAddr_getElem (List.getElem?_eq_getElem hin) (Nat.mod_lt _ (by decide)),
      List.getD_eq_getElem _ _ hin]

theorem all_large (hps : 4096 < ps) {o : Entry} (ho : Within np nVictims o) {j : Nat}
    (hj : j < t.pagesPerEntry) : IsData pages victim (t.ioaddrOf o j) := by
  obtain ⟨-, -, hppe, hdata, hptrs, hio, -⟩ := construct_eq hbuilt
  have hppe' : pagesPerEntryOf ps = ps/4096 := if_neg (by omega)
  rw [hppe'] at hppe
  rw [hppe] at hj
  cases o with
  | page i =>
    refine .inl (List.mem_of_getElem? (subpageTable_large hps hio ?_))
    rw [hppe]
    exact row_lt ho hj le_rfl
  | victim v =>
    have hcov := hsep.covers
    have hmul : nVictims * (ps/4096) * 4096 ≤ nVictims * ps := by
      rw [Nat.mul_assoc]
      exact Nat.mul_le_mul_left _ (Nat.div_mul_le_self ps 4096)
    have hk := row_lt ho hj le_rfl
    have hlt : v * (ps/4096) + j < victim.ioaddrs.length := by omega
    simp only [Tables.ioaddrOf, hppe, hdata, victimTable]
    rw [List.getD_eq_getElem _ _ hlt]
    exact .inr (List.getElem_mem hlt)

variable (hswaps : ∀ s ∈ swaps, s.1 < np ∧ s.2 < nVictims) (hpage : page < np)
  (hrun : Run page swaps t t')
include hswaps hpage hrun

theorem describes_small_iff (hps : ps ≤ 4096) :
    t'.Describes (busOf pages victim baseAddr base) page ↔
      Placed ps victim (bufferOf swaps (.page page)) := by
  obtain ⟨-, hsize, hppe, -, hptrs, hio, -⟩ := construct_eq hbuilt
  rw [pagesPerEntryOf, if_pos hps] at hppe hio
  obtain ⟨hprps, hprp1, -, -⟩ := pointers_small hps hptrs hio hpage
  have hwithin := bufferOf_within hswaps (show Within np nVictims (.page page) from hpage)
  have hppe' := hrun.ppe_eq.trans hppe
  have hcell : t'.pageIoaddrs page = t.ioaddrOf (bufferOf swaps (.page page)) 0 := by
    have := hrun.ioaddr_eq (.page page) 0 (hppe ▸ Nat.one_pos)
    simpa only [Tables.ioaddrOf, hppe', Nat.mul_one, Nat.add_zero] using this
  have hlinked : t'.prp1 page = t'.pageIoaddrs page := by
    have hl : t.Linked page := by
      rw [Tables.Linked, hppe, Nat.mul_one]
      exact ⟨hprp1, fun h => absurd h (by decide)⟩
    have := (hrun.linked_of (hppe ▸ Nat.one_pos) hl).1
    rwa [hppe', Nat.mul_one] at this
  have hroom := all_small hbuilt hps hwithin
  rw [← hcell] at hroom
  have hdecode : ∀ data, t'.decode data page = [t'.pageIoaddrs page] := by
    intro data
    have hpos := (pointers_small hps hptrs hio hpage).2.2.1
    have hcount : ((t'.pageIoaddrs page).toNat % 4096 + ps + 4095) / 4096 = 1 := by omega
    simp only [Tables.decode, hlinked, hrun.size_eq, hsize, hcount]
    rw [prpPages, if_pos (le_refl 1)]
  have hvaddr : t'.pageVaddrs page = t.vaddrOf (bufferOf swaps (.page page)) :=
    hrun.vaddr_eq (.page page)
  have hbyte : ∀ x < ps, byteAddr [t'.pageIoaddrs page] x =
      t.ioaddrOf (bufferOf swaps (.page page)) 0 + BitVec.ofNat 64 x := by
    intro x hx
    rw [byteAddr, List.headD_cons, if_pos (by omega), hcell]
  rw [← placed_iff hbuilt hsep hps hwithin]
  constructor
  · intro h x hx
    have := h.buffer (fun _ => 0#64) x (by rwa [hrun.size_eq, hsize])
    rwa [hdecode, hbyte x hx, hvaddr] at this
  · refine fun h => ⟨fun data => ?_, fun data x hx => ?_⟩
    · rw [hdecode, Tables.subpages, hppe', List.range_one, List.map_singleton, Nat.mul_one,
        Nat.add_zero]
    · rw [hrun.size_eq, hsize] at hx
      rw [hdecode, hbyte x hx, hvaddr]
      exact h x hx

theorem page_isData (hps : 4096 < ps) {j : Nat} (hj : j < t.pagesPerEntry) :
    IsData pages victim (t'.pageIoaddrs (page * t'.pagesPerEntry + j)) :=
  hrun.page_of hswaps hpage (fun _ ho _ hj => all_large hbuilt hsep hps ho hj) hj

theorem prp1_isData (hps : 4096 < ps) : IsData pages victim (t'.prp1 page) := by
  by_cases hmem : page ∈ swaps.map Prod.fst
  · rw [(hrun.linked hmem).1]
    exact page_isData hbuilt hsep hswaps hpage hrun hps (ppe_pos hbuilt)
  · obtain ⟨-, -, -, -, hptrs, -⟩ := construct_eq hbuilt
    rw [(hrun.kept hmem).1]
    exact .inl ((pointers_large hps hptrs).2 page hpage)

theorem decode_large (hps : 4096 < ps) (data : BitVec 64 → BitVec 64) :
    t'.decode data page =
      prpPages (t'.load data) (t'.prp1 page) (t'.prp2 page) ((ps+4095)/4096) := by
  obtain ⟨-, hsize, -, -, hptrs, -⟩ := construct_eq hbuilt
  have hprps := hrun.prps_eq.trans (pointers_large hps hptrs).1
  simp only [Tables.decode, hprps, if_true, hrun.size_eq, hsize,
    (prp1_isData hbuilt hsep hswaps hpage hrun hps).aligned, Nat.zero_add]

/-- Whole controller pages that the pointer names are those of the buffer. -/
theorem describes_of_subpages (hps : 4096 < ps) (hdvd : 4096 ∣ ps)
    (h : ∀ data, t'.decode data page = t'.subpages page) :
    t'.Describes (busOf pages victim baseAddr base) page := by
  refine ⟨h, fun data x hx => ?_⟩
  obtain ⟨-, hsize, hppe, -⟩ := construct_eq hbuilt
  have hppe' : pagesPerEntryOf ps = ps/4096 := if_neg (by omega)
  rw [hrun.size_eq, hsize] at hx
  have hj : x/4096 < t.pagesPerEntry := by
    obtain ⟨n, rfl⟩ := hdvd
    rw [hppe, hppe', Nat.mul_div_cancel_left _ (by decide)]
    omega
  have hwithin := bufferOf_within hswaps (show Within np nVictims (.page page) from hpage)
  have hvaddr : t'.pageVaddrs page = t.vaddrOf (bufferOf swaps (.page page)) :=
    hrun.vaddr_eq (.page page)
  have hcell := hrun.ioaddr_eq (.page page) (x/4096) hj
  simp only [Tables.ioaddrOf] at hcell
  have hhead : ((t'.subpages page).headD 0).toNat % 4096 = 0 := by
    have hdata := page_isData hbuilt hsep hswaps hpage hrun hps (ppe_pos hbuilt)
    obtain ⟨n, hn⟩ := Nat.exists_eq_succ_of_ne_zero (hrun.ppe_eq ▸ (ppe_pos hbuilt).ne')
    rw [Tables.subpages, hn, List.range_succ_eq_map, List.map_cons, List.headD_cons, ← hn]
    exact hdata.aligned
  rw [h, byteAddr_aligned hhead, hvaddr, placed_large hbuilt hsep hps hdvd hwithin hx,
    Tables.subpages, List.getD_eq_getElem?_getD, List.getElem?_map,
    List.getElem?_range (hrun.ppe_eq.symm ▸ hj)]
  simp only [Option.map_some, Option.getD_some, hcell, Tables.ioaddrOf]

theorem describes_two (hps : ps = 8192) : t'.Describes (busOf pages victim baseAddr base) page := by
  refine describes_of_subpages hbuilt hsep hswaps hpage hrun (by omega) (hps ▸ by decide)
    fun data => ?_
  subst hps
  obtain ⟨-, -, hppe, -, hptrs, hio, -⟩ := construct_eq hbuilt
  change t.pagesPerEntry = 2 at hppe
  obtain ⟨h1, h2⟩ := pointers_two hptrs hpage
  have hlinked : t'.Linked page := by
    refine hrun.linked_of (ppe_pos hbuilt) ⟨?_, fun _ => ?_⟩
    · rw [hppe]
      exact Option.some.inj (h1.symm.trans (subpageTable_large (by decide) hio (by omega)))
    · rw [hppe]
      exact Option.some.inj (h2.symm.trans (subpageTable_large (by decide) hio (by omega)))
  have hppe' := hrun.ppe_eq.trans hppe
  rw [Tables.Linked, hppe'] at hlinked
  rw [decode_large hbuilt hsep hswaps hpage hrun (by decide), Tables.subpages, hppe', hlinked.1,
    hlinked.2 (le_refl 2)]
  rfl

/-- More of them, for a page that was not swapped: the list is there. -/
theorem describes_list (hps : 8192 < ps) (hdvd : 4096 ∣ ps) (hnot : page ∉ swaps.map Prod.fst) :
    t'.Describes (busOf pages victim baseAddr base) page := by
  refine describes_of_subpages hbuilt hsep hswaps hpage hrun (by omega) hdvd fun data => ?_
  obtain ⟨⟨hmax, -, -⟩, -, hppe, -, hptrs, hio, -⟩ := construct_eq hbuilt
  obtain ⟨hprp1, hprp2⟩ := hrun.kept hnot
  obtain ⟨haddrs, h1, h2, hwords⟩ := pointers_lists hps hmax (hsep.lists_size hps) hptrs hpage
  rw [pagesPerEntryOf, if_neg (by omega)] at hppe
  have hppe' := hrun.ppe_eq.trans hppe
  have hrow : ∀ j < ps/4096, t'.pageIoaddrs (page*(ps/4096) + j) =
      t.pageIoaddrs (page*(ps/4096) + j) := by
    intro j hj
    have := hrun.ioaddr_eq (.page page) j (hppe.symm ▸ hj)
    rwa [bufferOf_kept hnot, Tables.ioaddrOf, Tables.ioaddrOf, hppe', hppe] at this
  obtain ⟨n, hn⟩ : ∃ n, ps/4096 = n+1 := Nat.exists_eq_succ_of_ne_zero (by omega)
  have hcount : (ps+4095)/4096 = n+1 := by omega
  have hrange : page*(n+1) + n < np*(n+1) := row_lt hpage (Nat.lt_succ_self n) (le_refl _)
  have halign : (t.prp2 page).toNat % 4096 = 0 := lists.aligned _ (List.mem_of_getElem? h2)
  rw [decode_large hbuilt hsep hswaps hpage hrun (by omega), hcount, hprp1, hprp2,
    prpPages_list halign (by omega) (by omega), Tables.subpages, hppe', hn,
    List.range_succ_eq_map, List.map_cons, List.map_map]
  rw [hn] at h1 hwords hrow
  refine congrArg₂ List.cons ?_ (List.map_congr_left fun i hi => ?_)
  · rw [hrow 0 (Nat.succ_pos n)]
    exact Option.some.inj (h1.symm.trans (subpageTable_large (by omega) hio (by rw [hn]; omega)))
  · have hlt := List.mem_range.mp hi
    have hlists : t'.listAddrs = lists.ioaddrs := hrun.addrs_eq.trans haddrs
    rw [load_list halign (show i < 512 by omega) (hlists ▸ hsep.nodup) (hlists ▸ h2), hrun.words_eq,
      Function.comp_apply, hrow (i+1) (by omega)]
    have hword := hwords i (by omega)
    have hentry := subpageTable_large (k := page*(n+1) + i + 1) (by omega) hio (by rw [hn]; omega)
    exact Option.some.inj (hword.symm.trans hentry)

/-- After a swap the second sub-page is taken for the list, whatever it holds. -/
theorem not_describes_list (hps : 8192 < ps) (hdvd : 4096 ∣ ps)
    (hmem : page ∈ swaps.map Prod.fst) :
    ¬ t'.Describes (busOf pages victim baseAddr base) page := by
  obtain ⟨⟨hmax, -, -⟩, -, hppe, -, hptrs, hio, -⟩ := construct_eq hbuilt
  obtain ⟨haddrs, -⟩ := pointers_lists hps hmax (hsep.lists_size hps) hptrs hpage
  rw [pagesPerEntryOf, if_neg (by omega)] at hppe
  have hppe' := hrun.ppe_eq.trans hppe
  obtain ⟨n, hn⟩ : ∃ n, ps/4096 = n+1 := Nat.exists_eq_succ_of_ne_zero (by omega)
  have hcount : (ps+4095)/4096 = n+1 := by omega
  rw [hn] at hppe hppe'
  have hprp2 := (hrun.linked hmem).2 (by omega)
  have hdata : IsData pages victim (t'.prp2 page) := by
    rw [hprp2]
    exact page_isData hbuilt hsep hswaps hpage hrun (by omega) (by omega)
  rw [hppe'] at hprp2
  have hnot : t'.prp2 page ∉ t'.listAddrs := by
    rw [hrun.addrs_eq.trans haddrs]
    intro hl
    exact hdata.elim (hsep.pages_ne _ hl) (hsep.victim_ne _ hl)
  intro hdesc
  have hlist := hdesc.subpages fun _ => ~~~ t'.prp2 page
  rw [decode_large hbuilt hsep hswaps hpage hrun (by omega), hcount,
    prpPages_list hdata.aligned (by omega) (by omega), Tables.subpages, hppe',
    List.range_succ_eq_map, List.map_cons, List.map_map] at hlist
  have hsecond := List.map_inj_left.mp (List.cons.inj hlist).2 0 (List.mem_range.mpr (by omega))
  rw [load_data hdata.aligned (by decide) hnot, Function.comp_apply, ← hprp2] at hsecond
  have hbit := congrArg (·.getLsbD 0) hsecond
  simp at hbit

/-- A size between two multiples: the pointer names one page more than the table. -/
theorem not_describes_uneven (hps : 4096 < ps) (hdvd : ¬ 4096 ∣ ps) :
    ¬ t'.Describes (busOf pages victim baseAddr base) page := by
  obtain ⟨⟨hmax, -, -⟩, -, hppe, -, hptrs, hio, -⟩ := construct_eq hbuilt
  rw [pagesPerEntryOf, if_neg (by omega)] at hppe
  have hppe' := hrun.ppe_eq.trans hppe
  have hcount : (ps+4095)/4096 = ps/4096 + 1 := by omega
  intro hdesc
  have hlen := congrArg List.length (hdesc.subpages fun _ => 0#64)
  rw [decode_large hbuilt hsep hswaps hpage hrun hps, hcount, Tables.subpages, hppe',
    List.length_map, List.length_range] at hlen
  rcases Nat.lt_or_ge (ps/4096) 2 with hone | htwo
  · have heq : ps/4096 = 1 := by omega
    rw [heq] at hlen
    change 2 = 1 at hlen
    omega
  · have halign : (t'.prp2 page).toNat % 4096 = 0 := by
      by_cases hmem : page ∈ swaps.map Prod.fst
      · rw [(hrun.linked hmem).2 (hppe' ▸ htwo)]
        exact (page_isData hbuilt hsep hswaps hpage hrun hps (hppe ▸ htwo)).aligned
      · rw [(hrun.kept hmem).2]
        have hlist := pointers_lists (by omega) hmax (hsep.lists_size (by omega)) hptrs hpage
        exact lists.aligned _ (List.mem_of_getElem? hlist.2.2.1)
    rw [prpPages_list halign htwo (by omega), List.length_cons, List.length_map,
      List.length_range] at hlen
    omega

end Cases

/-- After any swaps the data pointer of a page names its buffer just if the page is no larger
than a controller page and has a buffer that its table places right, or has two controller
pages, or has a whole number of them and was never swapped. -/
theorem pointers_follow_iff {ps np lbaDataSize nVictims : Nat} {pages lists victim : Dma}
    {baseAddr base : BitVec 64} {t : Tables}
    (hbuilt : construct ps np lbaDataSize pages lists victim baseAddr base = some t)
    (hsep : Separate ps np nVictims pages lists victim baseAddr base) {swaps : List (Nat × Nat)}
    (hswaps : ∀ s ∈ swaps, s.1 < np ∧ s.2 < nVictims) {page : Nat} (hpage : page < np) :
    (swaps.foldl Tables.swap t).Describes (busOf pages victim baseAddr base) page ↔
      ps ≤ 4096 ∧ Placed ps victim (bufferOf swaps (.page page)) ∨ ps = 8192 ∨
        8192 < ps ∧ 4096 ∣ ps ∧ page ∉ swaps.map Prod.fst := by
  have hrun := run_spec (ppe_pos hbuilt) page swaps
  rcases Nat.lt_or_ge 4096 ps with hlarge | hsmall
  · constructor
    · intro hdesc
      by_cases hdvd : 4096 ∣ ps
      · by_cases htwo : ps = 8192
        · exact .inr (.inl htwo)
        · refine .inr (.inr ⟨by omega, hdvd, fun hmem => ?_⟩)
          exact not_describes_list hbuilt hsep hswaps hpage hrun (by omega) hdvd hmem hdesc
      · exact absurd hdesc (not_describes_uneven hbuilt hsep hswaps hpage hrun hlarge hdvd)
    · rintro (⟨hsmall, -⟩ | htwo | ⟨hlist, hdvd, hnot⟩)
      · omega
      · exact describes_two hbuilt hsep hswaps hpage hrun htwo
      · exact describes_list hbuilt hsep hswaps hpage hrun hlist hdvd hnot
  · rw [describes_small_iff hbuilt hsep hswaps hpage hrun hsmall, and_iff_right hsmall]
    exact (or_iff_left (by omega)).symm

def Dma.inOrder (first n : Nat) : Dma where
  ioaddrs := (List.range n).map fun i => BitVec.ofNat 64 (4096*(first+i))
  aligned a ha := by
    obtain ⟨i, -, rfl⟩ := List.mem_map.mp ha
    rw [BitVec.toNat_ofNat]
    omega

theorem mem_inOrder {first n : Nat} (hfits : first + n ≤ 2^52) {a : BitVec 64}
    (ha : a ∈ (Dma.inOrder first n).ioaddrs) : 4096*first ≤ a.toNat ∧ a.toNat < 4096*(first+n) := by
  obtain ⟨i, hi, rfl⟩ := List.mem_map.mp ha
  have hlt := List.mem_range.mp hi
  rw [BitVec.toNat_ofNat]
  omega

theorem nodup_inOrder {first n : Nat} (hfits : first + n ≤ 2^52) :
    (Dma.inOrder first n).ioaddrs.Nodup := by
  refine List.nodup_range.map_on fun i hi j hj he => ?_
  rw [List.mem_range] at hi hj
  have := congrArg BitVec.toNat he
  simp only [BitVec.toNat_ofNat] at this
  omega

/-- The cache at address 0, the victim buffer a megabyte further on. -/
theorem separate_inOrder (ps : Nat) (hps : ps ≤ 4096*4) :
    Separate ps 1 1 (.inOrder 16 4) (.inOrder 32 16) (.inOrder 64 4) 0#64 0x100000#64 where
  nodup := nodup_inOrder (by decide)
  pages_ne a ha ha' := by
    have h := mem_inOrder (by decide) ha
    have h' := mem_inOrder (by decide) ha'
    omega
  victim_ne a ha ha' := by
    have h := mem_inOrder (by decide) ha
    have h' := mem_inOrder (by decide) ha'
    omega
  lists_size _ := by simp [Maps, Dma.inOrder, align64K, prpListSize]
  pages_nodup := nodup_inOrder (by decide)
  victim_nodup := nodup_inOrder (by decide)
  pages_covers := by simp [Dma.inOrder]; omega
  covers := by simp [Dma.inOrder]; omega
  pages_fits := by simp [Dma.inOrder]
  victim_fits := by simp [Dma.inOrder]
  apart x hx y hy he := by
    simp only [Dma.inOrder, List.length_map, List.length_range] at hx hy
    have := congrArg BitVec.toNat he
    simp only [BitVec.toNat_add, BitVec.toNat_ofNat] at this
    omega

theorem two_pages_follow : ∃ t,
    construct 8192 1 512 (.inOrder 16 4) (.inOrder 32 16)
    (.inOrder 64 4) 0#64 0x100000#64 = some t ∧
      ([(0, 0)].foldl Tables.swap t).Describes
        (busOf (.inOrder 16 4) (.inOrder 64 4) 0#64 0x100000#64) 0 := by
  have hsome : (construct 8192 1 512 (.inOrder 16 4) (.inOrder 32 16) (.inOrder 64 4) 0#64
      0x100000#64).isSome = true := by decide
  obtain ⟨t, ht⟩ := Option.isSome_iff_exists.mp hsome
  refine ⟨t, ht, (pointers_follow_iff ht (separate_inOrder 8192 (by decide)) ?_ Nat.one_pos).mpr
    (.inr (.inl rfl))⟩
  decide

/-- A page of three controller pages, swapped once: the controller looks for the list of
its pages in its second sub-page. -/
theorem three_pages_lost : ∃ t,
    construct 12288 1 512 (.inOrder 16 4) (.inOrder 32 16)
    (.inOrder 64 4) 0#64 0x100000#64 = some t ∧
      Separate 12288 1 1 (.inOrder 16 4) (.inOrder 32 16) (.inOrder 64 4) 0#64 0x100000#64 ∧
      ¬ ([(0, 0)].foldl Tables.swap t).Describes
        (busOf (.inOrder 16 4) (.inOrder 64 4) 0#64 0x100000#64) 0 := by
  have hrun : (construct 12288 1 512 (.inOrder 16 4) (.inOrder 32 16) (.inOrder 64 4) 0#64
      0x100000#64).any (fun t => decide ((t.swap (0, 0)).decode (fun _ => 0#64) 0 ≠
        (t.swap (0, 0)).subpages 0)) = true := by decide +kernel
  obtain ⟨t, ht, hne⟩ := (Option.any_eq_true _ _).mp hrun
  exact ⟨t, ht, separate_inOrder 12288 (by decide), fun hdesc =>
    of_decide_eq_true hne (hdesc.subpages fun _ => 0#64)⟩

end Shaper.PrpTables
