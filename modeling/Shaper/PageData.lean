import Shaper.ArrayAccess
import Shaper.PageSlots

/-! The bytes behind the page cache. A value lives in the slot of its page while the
page is valid and on storage otherwise; a valid page that is not dirty lives in
both. -/
namespace Shaper.ArrayAccess
open Function PageCache Backing Lib.Bytes
variable {u : Setup} {init : Memory} {S S' : Sys} {σ σ' : State} {i j r s : Nat} {p q : Page}
  {log : List Event} {pc : Pc} {e : Effect}

namespace Setup
structure Elem (u : Setup) (r i : Nat) : Prop where
  range_lt : r < u.cache.maxRange
  resolves : (u.range r).resolves i = true

def Used (u : Setup) (p : Page) : Prop := ∃ r i, u.Elem r i ∧ u.page r i = p
end Setup

theorem sub_add_size (h : u.Elem r i) : u.sub r i+u.size r ≤ u.pageSize :=
  u.inside r i h.range_lt h.resolves

theorem backing_inj (hp : u.Used p) (hq : u.Used q) (h : u.backing p = u.backing q) : p = q := by
  obtain ⟨r, i, hi, rfl⟩ := hp
  obtain ⟨r', j, hj, rfl⟩ := hq
  obtain ⟨hr, hx⟩ := u.apart r i r' j hi.range_lt hj.range_lt hi.resolves hj.resolves h
  subst hr
  unfold Setup.page
  rw [hx]

theorem bytePos_eq (u : Setup) (r i : Nat) :
    (u.range r).bytePos i = (u.page r i).index*u.pageSize+u.sub r i := by
  have hp : (u.page r i).index = (u.range r).bytePos i/2^u.pageSizeLog :=
    Nat.shiftRight_eq_div_pow _ _
  have hs : u.sub r i = (u.range r).bytePos i%2^u.pageSizeLog := Nat.and_two_pow_sub_one_eq_mod _ _
  rw [hp, hs, Setup.pageSize, Nat.mul_comm]
  exact (Nat.div_add_mod _ _).symm

theorem elements_apart (hi : u.Elem r i) (hj : u.Elem r j) (hp : u.page r i = u.page r j)
    (hne : i ≠ j) : u.sub r i+u.size r ≤ u.sub r j ∨ u.sub r j+u.size r ≤ u.sub r i := by
  have hbi := bytePos_eq u r i
  have hbj := bytePos_eq u r j
  rw [hp] at hbi
  have hstart : ∀ k, u.Elem r k → (u.range r).indexStart ≤ k := by
    intro k hk
    have := hk.resolves
    simp only [Range.resolves, Bool.and_eq_true, decide_eq_true_eq] at this
    exact this.1
  have hlt : ∀ a b, (u.range r).indexStart ≤ a → a < b →
      (u.range r).bytePos a+u.size r ≤ (u.range r).bytePos b := by
    intro a b ha hab
    have hmul : (a-(u.range r).indexStart+1)*u.size r ≤ (b-(u.range r).indexStart)*u.size r :=
      Nat.mul_le_mul_right _ (by omega)
    rw [Nat.succ_mul (a-(u.range r).indexStart)] at hmul
    unfold Range.bytePos
    unfold Setup.size at *
    omega
  rcases Nat.lt_or_gt_of_ne hne with h | h
  · have := hlt i j (hstart i hi) h
    omega
  · have := hlt j i (hstart j hj) h
    omega

def content (u : Setup) (init : Memory) (p : Page) (log : List Event) : Memory :=
  log.foldl (fun m ev => match ev.wrote with
    | some v => if u.page ev.range ev.elem = p then store m (u.sub ev.range ev.elem) v else m
    | none => m) fun b => init (u.backing p*u.pageSize+b)

structure EventOk (u : Setup) (ev : Event) : Prop where
  elem : u.Elem ev.range ev.elem
  length : ∀ v, ev.wrote = some v → v.length = u.size ev.range

theorem content_append (log : List Event) (ev : Event) :
    content u init p (log ++ [ev]) = match ev.wrote with
      | some v => if u.page ev.range ev.elem = p then
          store (content u init p log) (u.sub ev.range ev.elem) v else content u init p log
      | none => content u init p log := by
  simp [content, List.foldl_append]

theorem latest_append (log : List Event) (ev : Event) :
    latest u init r i (log ++ [ev]) = if ev.range = r ∧ ev.elem = i then
      ev.wrote.getD (latest u init r i log) else latest u init r i log := by
  simp [latest, List.foldl_append]

theorem load_content (hi : u.Elem r i) (hlog : ∀ ev ∈ log, EventOk u ev) :
    load (content u init (u.page r i) log) (u.sub r i) (u.size r) = latest u init r i log := by
  induction log using List.reverseRecOn with
  | nil => exact load_congr fun k _ => by simp [content, Nat.add_assoc]
  | append_singleton log ev ih =>
    have hlog' : ∀ ev ∈ log, EventOk u ev := fun e he => hlog e (List.mem_append_left _ he)
    have hev := hlog ev (by simp)
    rw [content_append, latest_append, ← ih hlog']
    cases hw : ev.wrote with
    | none => simp
    | some v =>
      have hlen := hev.length v hw
      simp only [Option.getD_some]
      by_cases hsame : ev.range = r ∧ ev.elem = i
      · obtain ⟨hr, hx⟩ := hsame
        subst hr hx
        rw [if_pos rfl, if_pos ⟨rfl, rfl⟩, load_store hlen]
      · rw [if_neg hsame]
        split
        · next hp =>
          have hr : ev.range = r := congrArg Page.range hp
          have he := hev.elem
          rw [hr] at he hp hlen
          have hne : ev.elem ≠ i := fun he' => hsame ⟨hr, he'⟩
          rw [hr]
          refine load_store_apart ?_
          have := elements_apart he hi hp hne
          omega
        · rfl

/-! What each call has done about the bytes of its page. -/

@[simp] def filled : Pc → Option Nat
  | .setOffset s | .orDirty s | .xor s => some s
  | _ => none

@[simp] def marked : Pc → Bool
  | .hitOffset | .xor _ => true
  | .hold _ left => 0 < left
  | _ => false

@[simp] def saved : Pc → Option Page
  | .find (.clear _ p) => some p
  | _ => none

structure GroupOk (u : Setup) (d : Call) (g : Group) : Prop where
  range : g.range < u.cache.maxRange
  write : d.write = g.op.write
  lanes : ∀ l ∈ g.lanes, u.Elem g.range l.elem ∧ u.page g.range l.elem = d.page ∧
    l.val.length = u.size g.range

structure Data (u : Setup) (init : Memory) (S : Sys) : Prop where
  used : ∀ i, (S.ctl.call i).pc ≠ .idle → u.Used (S.ctl.call i).page
  cached : ∀ p, valid (S.ctl.word p) = true → u.Used p ∧ ∀ b < u.pageSize,
    S.mem (S.ctl.offset p*u.pageSize+b) = content u init p S.log b
  stored : ∀ p, u.Used p → (valid (S.ctl.word p) = true → dirty (S.ctl.word p) = false) →
    ∀ b < u.pageSize, S.storage (u.backing p*u.pageSize+b) = content u init p S.log b
  loaded : ∀ i s, filled (S.ctl.call i).pc = some s → ∀ b < u.pageSize,
    S.mem (s*u.pageSize+b) = content u init (S.ctl.call i).page S.log b
  saved : ∀ i p, saved (S.ctl.call i).pc = some p → ∀ b < u.pageSize,
    S.storage (u.backing p*u.pageSize+b) = content u init p S.log b
  marked : ∀ i, marked (S.ctl.call i).pc = true → (S.ctl.call i).write = true →
    dirty (S.ctl.word (S.ctl.call i).page) = true
  groups : ∀ i, (S.ctl.call i).pc ≠ .idle → GroupOk u (S.ctl.call i) (S.group i)
  events : ∀ ev ∈ S.log, EventOk u ev
  coherent : Coherent u init S.log

theorem write_moved (hc : σ'.call = update σ.call i { σ.call i with pc := pc }) (j : Nat) :
    (σ'.call j).write = (σ.call j).write := by
  rw [hc]
  by_cases hj : j = i
  · subst hj; simp
  · simp [hj]

theorem idle_moved (hc : σ'.call = update σ.call i { σ.call i with pc := pc })
    (hi : (σ.call i).pc ≠ .idle) (hj : (σ'.call j).pc ≠ .idle) : (σ.call j).pc ≠ .idle := by
  by_cases he : j = i
  · rwa [he]
  · rwa [pc_moved hc, if_neg he] at hj

/-- The calls of `σ'` are those of `S` with call `i` moved on. -/
theorem Data.groups_moved (h : Data u init S)
    (hc : σ'.call = update S.ctl.call i { S.ctl.call i with pc := pc })
    (hi : (S.ctl.call i).pc ≠ .idle) (j : Nat) (hj : (σ'.call j).pc ≠ .idle) :
    GroupOk u (σ'.call j) (S.group j) := by
  have hg := h.groups j (idle_moved hc hi hj)
  refine ⟨hg.range, ?_, ?_⟩
  · rw [write_moved hc]
    exact hg.write
  · rw [page_moved hc]
    exact hg.lanes

/-- A step of the cache that moves no bytes, keeps validity and offsets, and clears
no DIRTY. -/
theorem Data.keep (h : Data u init S)
    (hc : σ'.call = update S.ctl.call i { S.ctl.call i with pc := pc })
    (hi : (S.ctl.call i).pc ≠ .idle) (hv : ∀ q, valid (σ'.word q) = valid (S.ctl.word q))
    (ho : σ'.offset = S.ctl.offset)
    (hd : ∀ q, dirty (S.ctl.word q) = true → dirty (σ'.word q) = true)
    (hf : ∀ s, filled pc = some s → filled (S.ctl.call i).pc = some s ∨ ∀ b < u.pageSize,
      S.mem (s*u.pageSize+b) = content u init (S.ctl.call i).page S.log b)
    (hs : ∀ p, ArrayAccess.saved pc = some p → ArrayAccess.saved (S.ctl.call i).pc = some p ∨
      ∀ b < u.pageSize, S.storage (u.backing p*u.pageSize+b) = content u init p S.log b)
    (hm : ArrayAccess.marked pc = true → (S.ctl.call i).write = true →
      dirty (σ'.word (S.ctl.call i).page) = true) : Data u init { S with ctl := σ' } := by
  have hpage := page_moved hc
  have hpc := pc_moved hc
  constructor
  · intro j hj
    simp only [hpage]
    exact h.used j (idle_moved hc hi hj)
  · intro p hp
    simp only [hv, ho] at hp ⊢
    exact h.cached p hp
  · intro p hp hpd
    refine h.stored p hp fun hpv => ?_
    have := hpd (by simp only [hv]; exact hpv)
    by_contra hne
    simp [hd p (by simpa using hne)] at this
  · intro j s hj
    simp only [hpage, hpc] at hj ⊢
    by_cases he : j = i
    · rw [if_pos he] at hj
      rw [he]
      exact (hf s hj).elim (h.loaded i s) id
    · rw [if_neg he] at hj
      exact h.loaded j s hj
  · intro j p hj
    simp only [hpc] at hj
    by_cases he : j = i
    · rw [if_pos he] at hj
      exact (hs p hj).elim (h.saved i p) id
    · rw [if_neg he] at hj
      exact h.saved j p hj
  · intro j hj hjw
    simp only [hpage, write_moved hc, hpc] at hj hjw ⊢
    by_cases he : j = i
    · subst he
      rw [if_pos rfl] at hj
      exact hm hj hjw
    · rw [if_neg he] at hj
      exact hd _ (h.marked j hj hjw)
  · exact h.groups_moved hc hi
  · exact h.events
  · exact h.coherent

theorem dirty_setWord (w : BitVec 32) (hw : dirty (σ.word p) = true → dirty w = true) (q : Page)
    (hq : dirty (σ.word q) = true) : dirty ((σ.setWord p w).word q) = true := by
  rw [setWord_word]
  split
  · next h => exact hw (h ▸ hq)
  · exact hq

theorem loads_of_filled (h : filled pc = some s) : pc.loads = true := by
  cases pc <;> simp_all

theorem placed_of_filled (h : filled pc = some s) : pc.placed = some s := by
  cases pc <;> simp_all

theorem uses_or_loads_of_marked (h : marked pc = true) : pc.uses = true ∨ pc.loads = true := by
  cases pc <;> simp_all

theorem evicts_of_saved (h : saved pc = some p) : ∃ s, pc.evicts = some (s, p) := by
  cases pc with
  | find f => cases f <;> simp_all
  | _ => simp at h

theorem placed_ne_offset (hinv : Inv u.cache σ) (hi : (σ.call i).pc.placed = some s)
    (hq : valid (σ.word q) = true) : σ.offset q ≠ s := by
  rintro rfl
  obtain ⟨-, ht⟩ := hinv.slots.placed i _ hi
  obtain ⟨hqh, -, hqt⟩ := hinv.slots.home q hq
  have hpi := hinv.slots.has i fun he => by simp [he] at hi
  have he := Cache.globalAddress_inj hpi hqh (by rw [← ht, hqt])
  have := hinv.slots.invalid i (loads_of_placed hi)
  rw [he, hq] at this
  cases this

theorem placed_inj (hinv : Inv u.cache σ) (hi : (σ.call i).pc.placed = some s)
    (hj : (σ.call j).pc.placed = some s) : i = j := by
  obtain ⟨-, hti⟩ := hinv.slots.placed i s hi
  obtain ⟨-, htj⟩ := hinv.slots.placed j s hj
  have hpi := hinv.slots.has i fun he => by simp [he] at hi
  have hpj := hinv.slots.has j fun he => by simp [he] at hj
  have he := Cache.globalAddress_inj hpi hpj (by rw [← hti, htj])
  exact hinv.busies.loads_unique (loads_of_placed hi) (loads_of_placed hj) he

/-- Writing a valid page back puts its contents on storage and nothing else. -/
theorem Data.writeBack (h : Data u init S) (hinv : Inv u.cache S.ctl)
    (hp : valid (S.ctl.word p) = true)
    (hs : S.ctl.offset p = s) : Data u init (S.transfer u (.writeBack s p)) ∧ ∀ b < u.pageSize,
      (S.transfer u (.writeBack s p)).storage (u.backing p*u.pageSize+b) =
        content u init p S.log b := by
  obtain ⟨hpu, hpm⟩ := h.cached p hp
  rw [hs] at hpm
  have hst : ∀ q, u.Used q → (q ≠ p → ∀ b < u.pageSize,
      S.storage (u.backing q*u.pageSize+b) = content u init q S.log b) → ∀ b < u.pageSize,
      copyPage u.pageSize S.mem S.storage s (u.backing p) (u.backing q*u.pageSize+b) =
        content u init q S.log b := by
    intro q hq hqs b hb
    rw [copyPage_at hb]
    split
    · next he => rw [backing_inj hq hpu he, hpm b hb]
    · next he => exact hqs (fun hqp => he (by rw [hqp])) b hb
  refine ⟨⟨h.used, h.cached, fun q hq hqd => hst q hq fun _ => h.stored q hq hqd, h.loaded,
    fun j q hj => ?_, h.marked, h.groups, h.events, h.coherent⟩,
    hst p hpu fun hne => absurd rfl hne⟩
  obtain ⟨t, ht⟩ := evicts_of_saved hj
  obtain ⟨hqv, -⟩ := hinv.slots.evicted j t q ht
  exact hst q (h.cached q hqv).1 fun _ => h.saved j q hj

/-- Reading a page into the slot it was given disturbs no other page's slot. -/
theorem Data.read (h : Data u init S) (hinv : Inv u.cache S.ctl)
    (hpc : (S.ctl.call i).pc = .read s) :
    Data u init (S.transfer u (.read s (S.ctl.call i).page)) ∧ ∀ b < u.pageSize,
      (S.transfer u (.read s (S.ctl.call i).page)).mem (s*u.pageSize+b) =
        content u init (S.ctl.call i).page S.log b := by
  have hplaced : (S.ctl.call i).pc.placed = some s := by simp [hpc]
  have hinvalid := hinv.slots.invalid i (by simp [hpc])
  have hstored := h.stored _ (h.used i (by simp [hpc])) fun hv => by simp [hinvalid] at hv
  have hmem : ∀ t, t ≠ s → ∀ b < u.pageSize, copyPage u.pageSize S.storage S.mem
      (u.backing (S.ctl.call i).page) s (t*u.pageSize+b) = S.mem (t*u.pageSize+b) := by
    intro t ht b hb
    rw [copyPage_at hb, if_neg ht]
  refine ⟨⟨h.used, fun q hq => ?_, h.stored, fun j t hj => ?_, h.saved, h.marked, h.groups,
    h.events, h.coherent⟩, fun b hb => ?_⟩
  · obtain ⟨hqu, hqm⟩ := h.cached q hq
    refine ⟨hqu, fun b hb => ?_⟩
    exact (hmem _ (placed_ne_offset hinv hplaced hq) b hb).trans (hqm b hb)
  · have hts : t ≠ s := by
      rintro rfl
      have := placed_inj hinv hplaced (placed_of_filled hj)
      subst this
      simp only [Sys.transfer, hpc, filled] at hj
      cases hj
    exact fun b hb => (hmem t hts b hb).trans (h.loaded j t hj b hb)
  · rw [← hstored b hb]
    simp only [Sys.transfer]
    rw [copyPage_at hb, if_pos rfl]

theorem Data.clear (h : Data u init S) (hinv : Inv u.cache S.ctl)
    (hpc : (S.ctl.call i).pc = .find (.clear s p))
    (hc : σ'.call = update S.ctl.call i { S.ctl.call i with pc := .find (.setTranslation s) })
    (hv : ∀ q, valid (σ'.word q) = if q = p then false else valid (S.ctl.word q))
    (hd : ∀ q, dirty (σ'.word q) = if q = p then false else dirty (S.ctl.word q))
    (ho : σ'.offset = S.ctl.offset) : Data u init { S with ctl := σ' } := by
  have hpage := page_moved hc
  have hmoved := pc_moved hc
  have hi : (S.ctl.call i).pc ≠ .idle := by simp [hpc]
  obtain ⟨-, -, hnone⟩ := hinv.slots.evicted i s p (by simp [hpc])
  have hown : (S.ctl.call i).ownsBusy p := .inr (by simp [hpc])
  constructor
  · intro j hj
    simp only [hpage]
    exact h.used j (idle_moved hc hi hj)
  · intro q hq
    simp only [hv, ho] at hq ⊢
    split at hq
    · cases hq
    · exact h.cached q hq
  · intro q hq hqd
    by_cases hqp : q = p
    · subst hqp
      exact h.saved i q (by simp [hpc])
    · simp only [hv, hd, if_neg hqp] at hqd
      exact h.stored q hq hqd
  · intro j t hj
    simp only [hpage, hmoved] at hj ⊢
    by_cases he : j = i
    · simp [he] at hj
    · rw [if_neg he] at hj
      exact h.loaded j t hj
  · intro j q hj
    simp only [hmoved] at hj
    by_cases he : j = i
    · simp [he] at hj
    · rw [if_neg he] at hj
      exact h.saved j q hj
  · intro j hj hjw
    simp only [hpage, hmoved, write_moved hc, hd] at hj hjw ⊢
    by_cases he : j = i
    · simp [he] at hj
    · rw [if_neg he] at hj
      rw [if_neg]
      · exact h.marked j hj hjw
      · rintro rfl
        rcases uses_or_loads_of_marked hj with hu | hl
        · exact hnone j hu rfl
        · exact he (hinv.busies.excl.unique j i _ (.inl ⟨.inl hl, rfl⟩) hown)
  · exact h.groups_moved hc hi
  · exact h.events
  · exact h.coherent

theorem Data.setOffset (h : Data u init S) (hinv : Inv u.cache S.ctl)
    (hpc : (S.ctl.call i).pc = .setOffset s)
    (hp : pc = if (S.ctl.call i).write then .orDirty s else .xor s) :
    Data u init { S with ctl := (S.ctl.setOffset (S.ctl.call i).page s).move i pc } := by
  have hinvalid := hinv.slots.invalid i (by simp [hpc])
  have hoff : ∀ q, valid (S.ctl.word q) = true →
      (S.ctl.setOffset (S.ctl.call i).page s).offset q = S.ctl.offset q := by
    intro q hq
    refine update_of_ne ?_ _ _
    rintro rfl
    simp [hq] at hinvalid
  have h' : Data u init { S with ctl := S.ctl.setOffset (S.ctl.call i).page s } := by
    refine ⟨h.used, fun q hq => ?_, h.stored, h.loaded, h.saved, h.marked, h.groups, h.events,
      h.coherent⟩
    rw [hoff q hq]
    exact h.cached q hq
  refine Data.keep (S := { S with ctl := S.ctl.setOffset (S.ctl.call i).page s }) (i := i) h' rfl
    (by simp [State.setOffset, hpc]) (fun _ => rfl) rfl (fun _ => id) ?_ ?_ ?_
  · subst hp
    intro t ht
    refine .inl ?_
    simp only [State.setOffset, hpc]
    split at ht <;> exact ht
  · subst hp
    intro q hq
    split at hq <;> simp at hq
  · subst hp
    intro hm hw
    simp only [State.setOffset] at hw
    simp [hw] at hm

/-- The page becomes valid in the slot that was filled for it. -/
theorem Data.xor (h : Data u init S) (hinv : Inv u.cache S.ctl) {n : Nat}
    (hpc : (S.ctl.call i).pc = .xor s)
    (hc : σ'.call = update S.ctl.call i { S.ctl.call i with pc := .hold s n })
    (hv : ∀ q, valid (σ'.word q) = if q = (S.ctl.call i).page then true else valid (S.ctl.word q))
    (hd : ∀ q, dirty (σ'.word q) = dirty (S.ctl.word q)) (ho : σ'.offset = S.ctl.offset) :
    Data u init { S with ctl := σ' } := by
  have hpage := page_moved hc
  have hmoved := pc_moved hc
  have hi : (S.ctl.call i).pc ≠ .idle := by simp [hpc]
  have hinvalid := hinv.slots.invalid i (by simp [hpc])
  have hoff := hinv.slots.offset i s (by simp [hpc])
  constructor
  · intro j hj
    simp only [hpage]
    exact h.used j (idle_moved hc hi hj)
  · intro q hq
    simp only [hv, ho] at hq ⊢
    by_cases hqi : q = (S.ctl.call i).page
    · subst hqi
      rw [hoff]
      exact ⟨h.used i hi, h.loaded i s (by simp [hpc])⟩
    · rw [if_neg hqi] at hq
      exact h.cached q hq
  · intro q hq hqd
    refine h.stored q hq fun hqv => ?_
    have := hqd (by simp only [hv]; split <;> simp [hqv])
    rwa [hd] at this
  · intro j t hj
    simp only [hpage, hmoved] at hj ⊢
    by_cases he : j = i
    · simp [he] at hj
    · rw [if_neg he] at hj
      exact h.loaded j t hj
  · intro j q hj
    simp only [hmoved] at hj
    by_cases he : j = i
    · simp [he] at hj
    · rw [if_neg he] at hj
      exact h.saved j q hj
  · intro j hj hjw
    simp only [hpage, hmoved, write_moved hc, hd] at hj hjw ⊢
    by_cases he : j = i
    · subst he
      exact h.marked j (by simp [hpc]) hjw
    · rw [if_neg he] at hj
      exact h.marked j hj hjw
  · exact h.groups_moved hc hi
  · exact h.events
  · exact h.coherent

theorem Data.moves (h : Data u init S) (hinv : Inv u.cache S.ctl)
    (hm : Moves u.cache S.ctl i σ' e) : Data u init { S.transfer u e with ctl := σ' } := by
  cases hm with
  | busied hpc | busiedValid hpc | lost hpc | unbusy hpc | refused hpc | beaten hpc
  | unbusyPrev hpc =>
    exact h.keep rfl (by simp [hpc]) (valid_setWord_same _ (by simp)) rfl
      (dirty_setWord _ (by simp)) (by simp) (by simp) (by simp)
  | reload hpc hn =>
    subst hn
    rcases dispatch_cases (S.ctl.call i).write (S.ctl.word (S.ctl.call i).page) with
      ⟨he, -⟩ | ⟨he, -⟩ | ⟨he, -, -, hw⟩ | he
    all_goals
      rw [he]
      refine h.keep rfl (by simp [hpc]) (fun _ => rfl) rfl (fun _ => id) (by simp) (by simp) ?_
    any_goals simp
    exact hw
  | search hpc hf hg =>
    refine h.keep rfl (by simp [hpc]) (fun _ => rfl) rfl (fun _ => id) (by simp) (fun q hq => ?_)
      (by simp)
    obtain ⟨t, ht⟩ := evicts_of_saved hq
    obtain ⟨-, -, -, hnone⟩ := roles_of_lockSlot hg
    rw [hnone] at ht
    cases ht
  | loadState hpc hf =>
    rcases hf with rfl | rfl <;>
      exact h.keep rfl (by simp [hpc]) (fun _ => rfl) rfl (fun _ => id) (by simp) (by simp)
        (by simp)
  | lockFree hpc | lockUsed hpc | readTranslation hpc | setTranslation hpc =>
    exact h.keep rfl (by simp [hpc]) (fun _ => rfl) rfl (fun _ => id) (by simp) (by simp) (by simp)
  | unlock hpc hf =>
    subst hf
    split <;>
      exact h.keep rfl (by simp [hpc]) (fun _ => rfl) rfl (fun _ => id) (by simp) (by simp)
        (by simp)
  | @evict s p f hpc hb hc hf =>
    obtain ⟨hpv, -⟩ := hinv.slots.evictable (i := i) (s := s) hinv.locks hinv.busies hinv.counts
      (by simp [hpc]) (by simp [hpc]) hb hc
    rcases hf with rfl | ⟨rfl, hd⟩
    · exact h.keep rfl (by simp [hpc]) (valid_setWord_same _ (by simp)) rfl
        (dirty_setWord _ (by simp)) (by simp) (by simp) (by simp)
    · refine h.keep rfl (by simp [hpc]) (valid_setWord_same _ (by simp)) rfl
        (dirty_setWord _ (by simp)) (by simp) (fun q hq => .inr ?_) (by simp)
      simp only [ArrayAccess.saved, Option.some.injEq] at hq
      subst hq
      exact h.stored p (h.cached p hpv).1 fun _ => hd
  | @writeBack s p hpc =>
    obtain ⟨hpv, hps, -⟩ := hinv.slots.evicted i s p (by simp [hpc])
    obtain ⟨h', hst⟩ := h.writeBack hinv hpv hps
    refine h'.keep rfl (by simp [Sys.transfer, hpc]) (fun _ => rfl) rfl (fun _ => id) (by simp)
      (fun q hq => .inr ?_) (by simp)
    simp only [ArrayAccess.saved, Option.some.injEq] at hq
    subst hq
    exact hst
  | @read s hpc =>
    obtain ⟨h', hmem⟩ := h.read hinv hpc
    refine h'.keep rfl (by simp [Sys.transfer, hpc]) (fun _ => rfl) rfl (fun _ => id)
      (fun t ht => .inr ?_) (by simp) (by simp)
    simp only [filled, Option.some.injEq] at ht
    subst ht
    exact hmem
  | @clear s p hpc =>
    refine h.clear hinv hpc rfl (fun q => ?_) (fun q => ?_) rfl
    · rw [move_word, setWord_word, apply_ite valid, valid_clear]
    · rw [move_word, setWord_word, apply_ite dirty, dirty_clear]
  | setOffset hpc hp => exact h.setOffset hinv hpc hp
  | orDirty hpc =>
    exact h.keep rfl (by simp [hpc]) (valid_setWord_same _ (by simp)) rfl
      (dirty_setWord _ (by simp))
      (by simp [hpc]) (by simp) (by simp [setWord_word])
  | hitDirty hpc =>
    exact h.keep rfl (by simp [hpc]) (valid_setWord_same _ (by simp)) rfl
      (dirty_setWord _ (by simp))
      (by simp) (by simp) (by simp [setWord_word])
  | xor hpc =>
    have hinvalid := hinv.slots.invalid i (by simp [hpc])
    refine h.xor hinv hpc rfl (fun q => ?_) (fun q => ?_) rfl
    · rw [move_word, setWord_word, apply_ite valid, valid_xor, hinvalid]
      rfl
    · rw [move_word, setWord_word]
      split
      · next hq => rw [dirty_xor, hq]
      · rfl
  | hitOffset hpc =>
    exact h.keep rfl (by simp [hpc]) (fun _ => rfl) rfl (fun _ => id) (by simp) (by simp)
      fun _ hw => h.marked i (by simp [hpc]) hw

theorem Coherent.append (h : Coherent u init log) {ev : Event}
    (hev : ∀ v, ev.seen = some v → v = latest u init ev.range ev.elem log) :
    Coherent u init (log ++ [ev]) := by
  intro before ev' after he v hv
  rcases List.eq_nil_or_concat after with rfl | ⟨rest, last, rfl⟩
  · obtain ⟨rfl, hone⟩ := List.append_inj' he rfl
    cases hone
    exact hev v hv
  · have he' : log ++ [ev] = (before ++ ev' :: rest) ++ [last] := by simpa using he
    exact h before ev' rest (List.append_inj' he' rfl).1 v hv

theorem Data.load_eq (h : Data u init S) {x : Nat} (hx : u.Elem r x)
    (hv : valid (S.ctl.word (u.page r x)) = true) (ho : S.ctl.offset (u.page r x) = s) :
    load S.mem (s*u.pageSize+u.sub r x) (u.size r) = latest u init r x S.log := by
  have hsub := sub_add_size hx
  rw [← load_content hx h.events]
  refine load_congr fun k hk => ?_
  rw [Nat.add_assoc, ← (h.cached _ hv).2 _ (by omega), ho]

theorem Data.log_read (h : Data u init S) {x : Nat} (hx : u.Elem r x) {v : List UInt8}
    (hseen : v = latest u init r x S.log) :
    Data u init { S with log := S.log ++ [⟨r, x, some v, none⟩] } := by
  have hcontent : ∀ p, content u init p (S.log ++ [⟨r, x, some v, none⟩]) =
      content u init p S.log := fun p => content_append _ _
  refine ⟨h.used, ?_, ?_, ?_, ?_, h.marked, h.groups, ?_, h.coherent.append ?_⟩
  · simpa only [hcontent] using h.cached
  · simpa only [hcontent] using h.stored
  · simpa only [hcontent] using h.loaded
  · simpa only [hcontent] using h.saved
  · intro ev hev
    rcases List.mem_append.mp hev with hev | hev
    · exact h.events ev hev
    · rw [List.mem_singleton.mp hev]
      exact ⟨hx, by simp⟩
  · intro w hw
    rw [← Option.some.inj hw]
    exact hseen

/-- A write to an element of a page that the writer holds and has marked. -/
theorem Data.log_write (h : Data u init S) (hinv : Inv u.cache S.ctl) {x : Nat} (hx : u.Elem r x)
    (hp : (S.ctl.call i).page = u.page r x) (hu : (S.ctl.call i).pc.uses = true)
    (ho : S.ctl.offset (u.page r x) = s) (hd : dirty (S.ctl.word (u.page r x)) = true)
    {seen : Option (List UInt8)} {v : List UInt8} (hlen : v.length = u.size r)
    (hseen : ∀ w, seen = some w → w = latest u init r x S.log) :
    Data u init { S with
      mem := store S.mem (s*u.pageSize+u.sub r x) v
      log := S.log ++ [⟨r, x, seen, some v⟩] } := by
  have hsub := sub_add_size hx
  have hvalid : valid (S.ctl.word (u.page r x)) = true := hp ▸ hinv.slots.used i hu
  have hhas := (hinv.slots.home _ hvalid).1
  have hcontent : ∀ q, content u init q (S.log ++ [⟨r, x, seen, some v⟩]) =
      if u.page r x = q then store (content u init q S.log) (u.sub r x) v
      else content u init q S.log := fun q => content_append _ _
  -- only the bytes of slot `s` change
  have hmem : ∀ t, t ≠ s → ∀ b < u.pageSize,
      store S.mem (s*u.pageSize+u.sub r x) v (t*u.pageSize+b) = S.mem (t*u.pageSize+b) := by
    intro t ht b hb
    refine store_outside ?_
    have hdiv : (t*u.pageSize+b)/u.pageSize ≠ s := by rw [page_div hb]; exact ht
    by_contra hin
    refine hdiv ?_
    have heq : t*u.pageSize+b = s*u.pageSize+(t*u.pageSize+b-s*u.pageSize) := by omega
    rw [heq, page_div (by omega)]
  refine ⟨h.used, fun q hq => ?_, fun q hq hqd => ?_, fun j t hj => ?_, fun j q hj => ?_, h.marked,
    h.groups, fun ev hev => ?_, h.coherent.append hseen⟩
  · obtain ⟨hqu, hqm⟩ := h.cached q hq
    refine ⟨hqu, fun b hb => ?_⟩
    dsimp only
    rw [hcontent]
    split
    · next he =>
      subst he
      rw [ho] at hqm ⊢
      exact store_shift (hqm b hb)
    · next he =>
      have hne : S.ctl.offset q ≠ s := by
        rw [← ho]
        exact fun heq => he (hinv.slot_inj hvalid hq heq.symm)
      exact (hmem _ hne b hb).trans (hqm b hb)
  · have hne : u.page r x ≠ q := by
      rintro rfl
      rw [hqd hvalid] at hd
      cases hd
    rw [hcontent, if_neg hne]
    exact h.stored q hq hqd
  · have hplaced := placed_of_filled hj
    have hne : u.page r x ≠ (S.ctl.call j).page := by
      intro he
      have := hinv.slots.invalid j (loads_of_filled hj)
      rw [← he, hvalid] at this
      cases this
    have hts : t ≠ s := by
      rintro rfl
      exact placed_ne_offset hinv hplaced hvalid ho
    rw [hcontent, if_neg hne]
    exact fun b hb => (hmem t hts b hb).trans (h.loaded j t hj b hb)
  · obtain ⟨t, ht⟩ := evicts_of_saved hj
    obtain ⟨-, -, hnone⟩ := hinv.slots.evicted j t q ht
    have hne : u.page r x ≠ q := fun he => hnone i hu (hp.trans he)
    rw [hcontent, if_neg hne]
    exact h.saved j q hj
  · rcases List.mem_append.mp hev with hev | hev
    · exact h.events ev hev
    · rw [List.mem_singleton.mp hev]
      exact ⟨hx, fun w hw => by rw [← Option.some.inj hw]; exact hlen⟩

theorem Data.access (h : Data u init S) (hinv : Inv u.cache S.ctl) {left : Nat}
    (hpc : (S.ctl.call i).pc = .hold s (left+1)) {l : Lane} (hl : l ∈ (S.group i).lanes) :
    Data u init (S.access u s (S.group i).range (S.group i).op l) := by
  have hg := h.groups i (by simp [hpc])
  obtain ⟨hx, hpage, hval⟩ := hg.lanes l hl
  have hu : (S.ctl.call i).pc.uses = true := by simp [hpc]
  have hv : valid (S.ctl.word (u.page (S.group i).range l.elem)) = true := by
    rw [hpage]
    exact hinv.slots.used i hu
  have ho : S.ctl.offset (u.page (S.group i).range l.elem) = s := by
    rw [hpage]
    exact hinv.slots.offset i s (by simp [hpc])
  have hold := h.load_eq hx hv ho
  have hdirty : (S.group i).op.write = true →
      dirty (S.ctl.word (u.page (S.group i).range l.elem)) = true := by
    intro hw
    rw [hpage]
    exact h.marked i (by simp [hpc]) (hg.write.trans hw)
  unfold Sys.access
  cases hop : (S.group i).op with
  | seqRead => exact h.log_read hx hold
  | seqWrite =>
    exact h.log_write hinv hx hpage.symm hu ho (hdirty (by rw [hop]; rfl)) hval (by simp)
  | atomicAdd =>
    refine h.log_write hinv hx hpage.symm hu ho (hdirty (by rw [hop]; rfl))
      ((u.range _).length_plus _ _) fun w hw => ?_
    rw [← Option.some.inj hw]
    exact hold

/-- The lanes that still have to access the page may be any that fit their call. -/
theorem Data.regroup (h : Data u init S) {g : Nat → Group}
    (hg : ∀ j, (S.ctl.call j).pc ≠ .idle → GroupOk u (S.ctl.call j) (g j)) :
    Data u init { S with group := g } :=
  ⟨h.used, h.cached, h.stored, h.loaded, h.saved, h.marked, hg, h.events, h.coherent⟩

theorem Data.release (h : Data u init S) (hinv : Inv u.cache S.ctl) {k : Nat}
    (hr : releasePage S.ctl i k = some σ') : Data u init { S with ctl := σ' } := by
  obtain ⟨s, left, hpc, hk, rfl⟩ := releasePage_cases hr
  have hle := hinv.counts.left_le hpc
  have hk' : k ≤ cnt (S.ctl.word (S.ctl.call i).page) := by omega
  have hd := dirty_setWord (σ := S.ctl) (p := (S.ctl.call i).page) (S.ctl.word (S.ctl.call i).page-
    BitVec.ofNat 32 k) (by rw [dirty_sub hk']; exact id)
  refine h.keep rfl (by simp [hpc]) (valid_setWord_same _ (valid_sub hk')) rfl hd (by simp)
    (by simp)
    fun hm hw => hd _ (h.marked i ?_ hw)
  simp only [ArrayAccess.marked, decide_eq_true_eq] at hm
  simp only [hpc, ArrayAccess.marked, decide_eq_true_eq]
  omega

theorem Data.start (h : Data u init S) (hinv : Inv u.cache S.ctl) {n : Nat} {g : Group}
    (hp : u.Used p)
    (hlt : ∀ q, refs (begin S.ctl p n g.op.write) q < 2^29)
    (hg : ∀ d : Call, d.page = p → d.write = g.op.write → GroupOk u d g) :
    Data u init { S with
      ctl := begin S.ctl p n g.op.write
      group := update S.group S.ctl.begun g } := by
  have hroom := hlt p
  rw [refs_begin, if_pos rfl, ← hinv.counts.count] at hroom
  have hv : ∀ q, valid ((begin S.ctl p n g.op.write).word q) = valid (S.ctl.word q) := by
    intro q
    by_cases hq : q = p
    · simp [begin, hq, valid_add hroom]
    · simp [begin, hq]
  have hd : ∀ q, dirty ((begin S.ctl p n g.op.write).word q) = dirty (S.ctl.word q) := by
    intro q
    by_cases hq : q = p
    · simp [begin, hq, dirty_add hroom]
    · simp [begin, hq]
  have hnew : (begin S.ctl p n g.op.write).call S.ctl.begun =
      ⟨p, n, g.op.write, dispatch g.op.write (S.ctl.word p)⟩ := by simp [begin]
  have hold : ∀ j, j ≠ S.ctl.begun → (begin S.ctl p n g.op.write).call j = S.ctl.call j := by
    intro j hj
    simp [begin, hj]
  have hdisp := dispatch_cases g.op.write (S.ctl.word p)
  constructor
  · intro j hj
    by_cases he : j = S.ctl.begun
    · subst he
      simp only [hnew]
      exact hp
    · simp only [hold j he] at hj ⊢
      exact h.used j hj
  · simp only [hv]
    exact h.cached
  · simp only [hv, hd]
    exact h.stored
  · intro j s hj
    by_cases he : j = S.ctl.begun
    · subst he
      rcases hdisp with ⟨hx, -⟩ | ⟨hx, -⟩ | ⟨hx, -⟩ | hx <;> simp [hnew, hx] at hj
    · simp only [hold j he] at hj ⊢
      exact h.loaded j s hj
  · intro j q hj
    by_cases he : j = S.ctl.begun
    · subst he
      rcases hdisp with ⟨hx, -⟩ | ⟨hx, -⟩ | ⟨hx, -⟩ | hx <;> simp [hnew, hx] at hj
    · simp only [hold j he] at hj
      exact h.saved j q hj
  · intro j hj hw
    by_cases he : j = S.ctl.begun
    · subst he
      simp only [hnew, hd] at hj hw ⊢
      rcases hdisp with ⟨hx, -⟩ | ⟨hx, -⟩ | ⟨hx, -, -, hdw⟩ | hx <;> simp [hx] at hj
      exact hdw hw
    · simp only [hold j he, hd] at hj hw ⊢
      exact h.marked j hj hw
  · intro j hj
    by_cases he : j = S.ctl.begun
    · subst he
      simp only [hnew, update_self]
      exact hg _ rfl rfl
    · simp only [hold j he, update_of_ne he] at hj ⊢
      exact h.groups j hj
  · exact h.events
  · exact h.coherent

theorem access_ctl (op : Op) (l : Lane) : (S.access u s r op l).ctl = S.ctl := by
  cases op <;> rfl

theorem elem_of_findRange {arr : List Nat} {x : Nat} (hr : r < u.cache.maxRange)
    (h : findRange u.range arr x = some r) : u.Elem r x :=
  ⟨hr, List.find?_some (p := fun r => (u.range r).resolves x) h⟩

theorem groupOk_of_coalesced {arr : List Nat} {op : Op} {lanes : List Lane}
    (hr : r < u.cache.maxRange) (h : coalesced u arr r lanes p = true) (d : Call) (hd : d.page = p)
    (hw : d.write = op.write) : GroupOk u d ⟨op, r, lanes⟩ := by
  refine ⟨hr, hw, fun l hl => ?_⟩
  have := List.all_eq_true.mp h l hl
  simp only [Bool.and_eq_true, beq_iff_eq] at this
  obtain ⟨⟨hf, hp⟩, hlen⟩ := this
  exact ⟨elem_of_findRange hr hf, hp.trans hd.symm, hlen⟩

end Shaper.ArrayAccess
