import Shaper.PageCacheInvariant

/-! Which page has which slot, in every reachable state. -/
namespace Shaper.PageCache
open Function Lib.Ownership
variable {c : Cache} {σ σ' : State} {i j k s : Nat} {p q : Page} {e : Effect} {weak : Bool}
  {pc : Pc}

theorem Cache.maxRangeLog_le (c : Cache) : c.maxRangeLog ≤ c.nRangesBits := by
  unfold nRangesBits maxRange
  split
  · next h =>
    have := (Nat.pow_eq_one.mp h).resolve_left (by decide)
    omega
  · rw [Nat.log2_two_pow]

theorem Cache.nRangesBits_lt (c : Cache) : c.nRangesBits < 64 := by
  have hlt := c.maxRangeLog_lt
  unfold nRangesBits maxRange
  split
  · decide
  · rw [Nat.log2_two_pow]
    exact hlt

theorem Cache.toNat_globalAddress (hp : c.Has p) :
    (c.globalAddress p).toNat = 2^c.nRangesBits*p.index+p.range := by
  have hbits := c.nRangesBits_lt
  have hrange : p.range < 2^c.nRangesBits :=
    Nat.lt_of_lt_of_le hp.range_lt (Nat.pow_le_pow_right (by decide) c.maxRangeLog_le)
  have hmul : 2^c.nRangesBits*2^(64-c.nRangesBits) = 2^64 := by
    rw [← Nat.pow_add]
    congr 1
    omega
  have hindex : 2^c.nRangesBits*p.index < 2^64 := by
    rw [← hmul]
    exact Nat.mul_lt_mul_of_pos_left hp.index_lt (Nat.two_pow_pos _)
  have hi : p.index < 2^64 :=
    Nat.lt_of_le_of_lt (Nat.le_mul_of_pos_left _ (Nat.two_pow_pos _)) hindex
  have hr : p.range < 2^64 := hrange.trans (Nat.pow_lt_pow_right (by decide) hbits)
  rw [globalAddress, BitVec.toNat_or, BitVec.toNat_shiftLeft, BitVec.toNat_ofNat,
    BitVec.toNat_ofNat, Nat.mod_eq_of_lt hi, Nat.mod_eq_of_lt hr, Nat.shiftLeft_eq, Nat.mul_comm,
    Nat.mod_eq_of_lt hindex, Nat.two_pow_add_eq_or_of_lt hrange]

theorem Cache.pageAt_globalAddress (hp : c.Has p) : c.pageAt (c.globalAddress p) = p := by
  have hrange : p.range < 2^c.maxRangeLog := hp.range_lt
  have hle := Nat.pow_dvd_pow 2 c.maxRangeLog_le
  have hlt : 2^c.maxRangeLog-1 < 2^64 :=
    Nat.lt_of_le_of_lt (Nat.sub_le _ _) (Nat.pow_lt_pow_right (by decide) c.maxRangeLog_lt)
  have hr : (c.globalAddress p &&& c.nRangesMask).toNat = p.range := by
    rw [BitVec.toNat_and, toNat_globalAddress hp, nRangesMask, maxRange, BitVec.toNat_ofNat,
      Nat.mod_eq_of_lt hlt, Nat.and_two_pow_sub_one_eq_mod, Nat.add_mod,
      Nat.mod_eq_zero_of_dvd (Nat.dvd_mul_right_of_dvd hle _), Nat.zero_add, Nat.mod_mod,
      Nat.mod_eq_of_lt hrange]
  have hi : (c.globalAddress p >>> c.nRangesBits).toNat = p.index := by
    rw [BitVec.toNat_ushiftRight, toNat_globalAddress hp, Nat.shiftRight_eq_div_pow,
      Nat.mul_add_div (Nat.two_pow_pos _), Nat.div_eq_of_lt, Nat.add_zero]
    exact hrange.trans_le (Nat.pow_le_pow_right (by decide) c.maxRangeLog_le)
  rw [pageAt, hr, hi]

theorem Cache.globalAddress_inj (hp : c.Has p) (hq : c.Has q)
    (h : c.globalAddress p = c.globalAddress q) : p = q := by
  rw [← pageAt_globalAddress hp, h, pageAt_globalAddress hq]

structure Slots (c : Cache) (σ : State) : Prop where
  has : ∀ i, (σ.call i).pc ≠ .idle → c.Has (σ.call i).page
  home : ∀ p, valid (σ.word p) = true → c.Has p ∧ σ.lock (σ.offset p) ≠ .free ∧
    σ.translation (σ.offset p) = c.globalAddress p
  invalid : ∀ i, (σ.call i).pc.loads = true → valid (σ.word (σ.call i).page) = false
  placed : ∀ i s, (σ.call i).pc.placed = some s →
    σ.lock s ≠ .free ∧ σ.translation s = c.globalAddress (σ.call i).page
  empty : ∀ i s, (σ.call i).pc.clears = some s →
    (∀ p, valid (σ.word p) = true → σ.offset p ≠ s) ∧ ∀ j, (σ.call j).pc.placed ≠ some s
  assigned : ∀ s, σ.lock s ≠ .free → (∃ i, (σ.call i).pc.clears = some s) ∨
    ∃ p, c.Has p ∧ σ.translation s = c.globalAddress p ∧
      (valid (σ.word p) = true ∧ σ.offset p = s ∨
        ∃ i, (σ.call i).pc.placed = some s ∧ (σ.call i).page = p)
  seen : ∀ i s p, (σ.call i).pc.seen = some (s, p) → c.Has p ∧ σ.translation s = c.globalAddress p
  evicted : ∀ i s p, (σ.call i).pc.evicts = some (s, p) → valid (σ.word p) = true ∧
    σ.offset p = s ∧ ∀ j, (σ.call j).pc.uses = true → (σ.call j).page ≠ p
  used : ∀ i, (σ.call i).pc.uses = true → valid (σ.word (σ.call i).page) = true
  offset : ∀ i s, (σ.call i).pc.offsetSlot = some s → σ.offset (σ.call i).page = s

theorem evicts_of_uses (h : pc.uses = true) : pc.evicts = none := by
  cases pc <;> simp_all

/-- A step that leaves validity, offsets, translations and free slots alone and
moves one call keeps the invariant if the call's new part in it is justified. -/
structure Justified (c : Cache) (σ : State) (d : Call) (pc : Pc) : Prop where
  placed : pc.placed = d.pc.placed
  clears : pc.clears = d.pc.clears
  invalid : pc.loads = true → d.pc.loads = true ∨ valid (σ.word d.page) = false
  seen : ∀ s p, pc.seen = some (s, p) → d.pc.seen = some (s, p) ∨
    c.Has p ∧ σ.translation s = c.globalAddress p
  evicted : ∀ s p, pc.evicts = some (s, p) → d.pc.evicts = some (s, p) ∨
    valid (σ.word p) = true ∧ σ.offset p = s ∧ ∀ j, (σ.call j).pc.uses = true → (σ.call j).page ≠ p
  used : pc.uses = true → d.pc.uses = true ∨ valid (σ.word d.page) = true ∧
    ∀ j s, (σ.call j).pc.evicts ≠ some (s, d.page)
  offset : ∀ s, pc.offsetSlot = some s → d.pc.offsetSlot = some s ∨ σ.offset d.page = s

section
variable (hpage : ∀ j, (σ'.call j).page = (σ.call j).page)
  (hpc : ∀ j, (σ'.call j).pc = if j = i then pc else (σ.call j).pc)
include hpage hpc

theorem Slots.justified (h : Slots c σ) (hv : ∀ q, valid (σ'.word q) = valid (σ.word q))
    (ho : σ'.offset = σ.offset) (ht : σ'.translation = σ.translation)
    (hl : ∀ s, σ'.lock s = .free ↔ σ.lock s = .free) (hi : c.Has (σ.call i).page)
    (hj : Justified c σ (σ.call i) pc) : Slots c σ' where
  has j hj := by grind [h.has j]
  home p hp := by grind [h.home p]
  invalid j hjl := by grind [h.invalid j, h.invalid i, hj.invalid]
  placed j s hjp := by grind [h.placed j s, hj.placed]
  empty j s hjc := by grind [h.empty j s, hj.clears, hj.placed]
  assigned s hs := by
    rcases h.assigned s (by grind) with ⟨l, hl⟩ | ⟨p, hp, htr, ho⟩
    · exact .inl ⟨l, by grind [hj.clears]⟩
    · refine .inr ⟨p, hp, by grind, ?_⟩
      rcases ho with ho | ⟨l, ho⟩
      · grind
      · exact .inr ⟨l, by grind [hj.placed]⟩
  seen j s p hjs := by grind [h.seen j s p, hj.seen s p]
  evicted j s p hje := by grind [h.evicted j s p, hj.evicted s p, hj.used, evicts_of_uses]
  used j hju := by grind [h.used j, hj.used]
  offset j s hjo := by
    have hold := h.offset j s
    have hnew := hj.offset s
    have hpage' := hpage j
    grind
end

theorem page_moved (hc : σ'.call = update σ.call i { σ.call i with pc := pc }) (j : Nat) :
    (σ'.call j).page = (σ.call j).page := by
  rw [hc]
  by_cases hj : j = i
  · subst hj; simp
  · simp [hj]

theorem pc_moved (hc : σ'.call = update σ.call i { σ.call i with pc := pc }) (j : Nat) :
    (σ'.call j).pc = if j = i then pc else (σ.call j).pc := by
  rw [hc, pc_update]

theorem valid_setWord_same (w : BitVec 32) (hw : valid w = valid (σ.word p)) (q : Page) :
    valid ((σ.setWord p w).word q) = valid (σ.word q) := by
  rw [setWord_word]
  split
  · next h => rw [hw, h]
  · rfl

theorem Slots.keep (h : Slots c σ) (hc : σ'.call = update σ.call i { σ.call i with pc := pc })
    (hv : ∀ q, valid (σ'.word q) = valid (σ.word q)) (ho : σ'.offset = σ.offset)
    (ht : σ'.translation = σ.translation) (hl : ∀ s, σ'.lock s = .free ↔ σ.lock s = .free)
    (hi : (σ.call i).pc ≠ .idle) (hj : Justified c σ (σ.call i) pc) : Slots c σ' :=
  Slots.justified (page_moved hc) (pc_moved hc) h hv ho ht hl (h.has i hi) hj

theorem busyPage_of_evicts (h : pc.evicts = some (s, p)) : pc.busyPage = some p := by
  cases pc with
  | find f => cases f <;> simp_all
  | _ => simp at h

theorem lockSlot_of_seen (h : pc.seen = some (s, p)) : pc.lockSlot = some s := by
  cases pc with
  | find f => cases f <;> simp_all
  | _ => simp at h

theorem lockSlot_of_clears (h : pc.clears = some s) : pc.lockSlot = some s := by
  cases pc with
  | find f => cases f <;> simp_all
  | _ => simp at h

theorem loads_of_placed (h : pc.placed = some s) : pc.loads = true := by
  cases pc <;> simp_all

theorem uses_or_loads_of_offsetSlot (h : pc.offsetSlot = some s) :
    pc.uses = true ∨ pc.loads = true := by
  cases pc <;> simp_all

theorem BusyOk.not_evicted (h : BusyOk σ) (hb : busy (σ.word p) = false) (j s : Nat) :
    (σ.call j).pc.evicts ≠ some (s, p) := by
  intro he
  have := h.excl.held_of_owns j p (.inr (busyPage_of_evicts he))
  simp [hb] at this

theorem BusyOk.not_placed (h : BusyOk σ) (hb : busy (σ.word (σ.call j).page) = false) :
    (σ.call j).pc.placed ≠ some s := by
  intro he
  simp [h.busy_page (loads_of_placed he)] at hb

theorem justified_dispatch {d : Call} (hd : d.pc = .idle ∨ d.pc = .reload)
    (h : busy (σ.word d.page) = false → ∀ j s, (σ.call j).pc.evicts ≠ some (s, d.page)) :
    Justified c σ d (dispatch d.write (σ.word d.page)) := by
  rcases dispatch_cases d.write (σ.word d.page) with ⟨he, -⟩ | ⟨he, hv, hb⟩ | ⟨he, hv, hb, -⟩ | he
  all_goals
    rw [he]
    rcases hd with hd | hd
  any_goals constructor <;> simp [hd]
  all_goals exact ⟨hv, fun j s hs => h hb j s hs⟩

theorem CountOk.cnt_pos (h : CountOk σ) (hu : (σ.call j).pc.uses = true) :
    0 < cnt (σ.word (σ.call j).page) := by
  have hj : (σ.call j).pc ≠ .idle := by
    intro he
    simp [he] at hu
  have hpos := h.pos j hj
  have hrefs : 0 < (σ.call j).refs (σ.call j).page := by
    unfold Call.refs
    cases hpc : (σ.call j).pc <;> simp_all
  rw [h.count]
  exact Nat.lt_of_lt_of_le hrefs (refs_le (h.lt hj))

/-- The page in a slot that a call has locked and found in use. -/
theorem Slots.page_of_locked (h : Slots c σ) (hlock : LockOk σ)
    (hs : (σ.call i).pc.lockSlot = some s)
    (hc : (σ.call i).pc.clears = none) : ∃ p, c.Has p ∧ σ.translation s = c.globalAddress p ∧
      (valid (σ.word p) = true ∧ σ.offset p = s ∨
        ∃ i, (σ.call i).pc.placed = some s ∧ (σ.call i).page = p) := by
  have hl : σ.lock s = .locked := hlock.held_of_owns i s hs
  rcases h.assigned s (by simp [hl]) with ⟨j, hj⟩ | hp
  · have : j = i := hlock.unique j i s (lockSlot_of_clears hj) hs
    subst this
    rw [hj] at hc
    cases hc
  · exact hp

/-- A page whose BUSY an evicting call may take is valid, in the slot it locked,
and nobody has it. -/
theorem Slots.evictable (h : Slots c σ) (hlock : LockOk σ) (hbusy : BusyOk σ) (hcount : CountOk σ)
    (hs : (σ.call i).pc.seen = some (s, p)) (hn : (σ.call i).pc.clears = none)
    (hb : busy (σ.word p) = false) (hc : cnt (σ.word p) = 0) : valid (σ.word p) = true ∧
      σ.offset p = s ∧ ∀ j, (σ.call j).pc.uses = true → (σ.call j).page ≠ p := by
  obtain ⟨hp, ht⟩ := h.seen i s p hs
  obtain ⟨q, hq, htq, hw⟩ := h.page_of_locked hlock (lockSlot_of_seen hs) hn
  have hpq : q = p := Cache.globalAddress_inj hq hp (by rw [← htq, ht])
  subst hpq
  rcases hw with ⟨hv, ho⟩ | ⟨j, hj, rfl⟩
  · refine ⟨hv, ho, fun j hj hjp => ?_⟩
    have := hcount.cnt_pos hj
    rw [hjp] at this
    omega
  · exact absurd hj (hbusy.not_placed hb)

theorem roles_of_lockSlot {f : Find} (h : f.lockSlot = none) : (Pc.find f).placed = none ∧
    (Pc.find f).clears = none ∧ (Pc.find f).seen = none ∧ (Pc.find f).evicts = none := by
  cases f <;> simp_all

theorem justified_search {f g : Find} (hf : f.lockSlot = none) (hg : g.lockSlot = none) {d : Call}
    (hd : d.pc = .find f) : Justified c σ d (.find g) := by
  obtain ⟨hf1, hf2, -⟩ := roles_of_lockSlot hf
  obtain ⟨hg1, hg2, hg3, hg4⟩ := roles_of_lockSlot hg
  constructor
  · rw [hg1, hd, hf1]
  · rw [hg2, hd, hf2]
  · exact fun _ => .inl (by rw [hd]; rfl)
  · intro s p h
    rw [hg3] at h
    cases h
  · intro s p h
    rw [hg4] at h
    cases h
  · simp
  · simp

theorem BusyOk.loads_unique (h : BusyOk σ) (hj : (σ.call j).pc.loads = true)
    (hi : (σ.call i).pc.loads = true) (he : (σ.call j).page = (σ.call i).page) : j = i :=
  h.excl.unique j i _ (.inl ⟨.inl hj, he⟩) (.inl ⟨.inl hi, rfl⟩)

section
variable (hpage : ∀ j, (σ'.call j).page = (σ.call j).page)
  (hmoved : ∀ j, (σ'.call j).pc = if j = i then pc else (σ.call j).pc)
include hpage hmoved

theorem Slots.lockFree (h : Slots c σ) (hold : (σ.call i).pc = .find (.casFree s))
    (hnew : pc = .find (.setTranslation s)) (hfree : σ.lock s = .free)
    (hv : ∀ q, valid (σ'.word q) = valid (σ.word q)) (ho : σ'.offset = σ.offset)
    (ht : σ'.translation = σ.translation)
    (hl : ∀ t, σ'.lock t = .free ↔ σ.lock t = .free ∧ t ≠ s) : Slots c σ' where
  has j hj := by grind [h.has j]
  home p hp := by grind [h.home p]
  invalid j hj := by grind [h.invalid j, h.invalid i, Pc.loads]
  placed j t hj := by grind [h.placed j t, Pc.placed]
  empty j t hj := by
    have hplaced : ∀ l, (σ'.call l).pc.placed = some t → (σ.call l).pc.placed = some t := by
      intro l
      grind [Pc.placed]
    by_cases hji : j = i
    · have hts : t = s := by grind [Pc.clears]
      subst hts
      refine ⟨fun p hp hpt => ?_, fun l hlp => ?_⟩
      · obtain ⟨-, hlock, -⟩ := h.home p (by rw [← hv, hp])
        rw [← ho, hpt] at hlock
        exact hlock hfree
      · exact (h.placed l t (hplaced l hlp)).1 hfree
    · obtain ⟨hp, hl⟩ := h.empty j t (by grind)
      exact ⟨fun p hpv => by rw [ho]; exact hp p (by rw [← hv, hpv]),
        fun l hlp => hl l (hplaced l hlp)⟩
  assigned t hlt := by
    by_cases hts : t = s
    · exact .inl ⟨i, by grind [Pc.clears]⟩
    · rcases h.assigned t (by grind) with ⟨l, hlc⟩ | ⟨p, hp, htr, hw⟩
      · exact .inl ⟨l, by grind [Pc.clears]⟩
      · refine .inr ⟨p, hp, by rw [ht, htr], ?_⟩
        rcases hw with hw | ⟨l, hlp, hlq⟩
        · exact .inl (by rwa [hv, ho])
        · exact .inr ⟨l, by grind [Pc.placed], by rw [hpage, hlq]⟩
  seen j t p hj := by grind [h.seen j t p, Pc.seen, Find.seen]
  evicted j t p hj := by grind [h.evicted j t p, Pc.evicts, Find.evicts, Pc.uses]
  used j hj := by grind [h.used j, Pc.uses]
  offset j t hj := by
    have hold := h.offset j t
    have hpage' := hpage j
    grind [Pc.offsetSlot]

theorem Slots.clear (h : Slots c σ) (hbusy : BusyOk σ) (hold : (σ.call i).pc = .find (.clear s p))
    (hnew : pc = .find (.setTranslation s))
    (hv : ∀ q, valid (σ'.word q) = if q = p then false else valid (σ.word q))
    (ho : σ'.offset = σ.offset) (ht : σ'.translation = σ.translation) (hl : σ'.lock = σ.lock) :
    Slots c σ' := by
  obtain ⟨hpv, hps, hpu⟩ := h.evicted i s p (by simp [hold])
  obtain ⟨hhas, hptr⟩ := h.seen i s p (by simp [hold])
  have hown : (σ.call i).ownsBusy p := .inr (by simp [hold])
  have hval : ∀ q, valid (σ'.word q) = true → valid (σ.word q) = true ∧ q ≠ p := by
    intro q
    grind
  have hplaced : ∀ l t, (σ'.call l).pc.placed = some t → (σ.call l).pc.placed = some t ∧ l ≠ i := by
    intro l t
    grind [Pc.placed]
  constructor
  · intro j hj
    grind [h.has j]
  · intro q hq
    grind [h.home q]
  · intro j hj
    grind [h.invalid j, Pc.loads]
  · intro j t hj
    rw [hl, ht, hpage]
    exact h.placed j t (hplaced j t hj).1
  · intro j t hj
    by_cases hji : j = i
    · have hts : t = s := by grind [Pc.clears]
      subst hts
      refine ⟨fun q hq hqt => ?_, fun l hlp => ?_⟩
      · obtain ⟨hqv, hne⟩ := hval q hq
        obtain ⟨hqh, -, hqtr⟩ := h.home q hqv
        rw [← ho, hqt, hptr] at hqtr
        exact hne (Cache.globalAddress_inj hqh hhas hqtr.symm)
      · obtain ⟨hlp, hli⟩ := hplaced l t hlp
        obtain ⟨-, hltr⟩ := h.placed l t hlp
        have hlh := h.has l (fun he => by simp [he] at hlp)
        have hlp' : (σ.call l).page = p :=
          Cache.globalAddress_inj hlh hhas (by rw [← hltr, hptr])
        exact hli (hbusy.excl.unique l i p (.inl ⟨.inl (loads_of_placed hlp), hlp'⟩) hown)
    · obtain ⟨hq, hl⟩ := h.empty j t (by grind)
      exact ⟨fun q hqv => by rw [ho]; exact hq q (hval q hqv).1,
        fun l hlp => hl l (hplaced l t hlp).1⟩
  · intro t hlt
    by_cases hts : t = s
    · exact .inl ⟨i, by grind [Pc.clears]⟩
    · rcases h.assigned t (by rwa [← hl]) with ⟨l, hlc⟩ | ⟨q, hq, htr, hw⟩
      · exact .inl ⟨l, by grind [Pc.clears]⟩
      · refine .inr ⟨q, hq, by rw [ht, htr], ?_⟩
        rcases hw with ⟨hqv, hqt⟩ | ⟨l, hlp, hlq⟩
        · exact .inl (by grind)
        · exact .inr ⟨l, by grind [Pc.placed], by rw [hpage, hlq]⟩
  · intro j t q hj
    grind [h.seen j t q, Pc.seen, Find.seen]
  · intro j t q hj
    have hji : j ≠ i := by grind [Pc.evicts, Find.evicts]
    have hje : (σ.call j).pc.evicts = some (t, q) := by grind
    obtain ⟨hqv, hqt, hqu⟩ := h.evicted j t q hje
    have hqp : q ≠ p := by
      rintro rfl
      exact hji (hbusy.excl.unique j i q (.inr (busyPage_of_evicts hje)) hown)
    refine ⟨by grind, by grind, fun l hl => ?_⟩
    rw [hpage]
    exact hqu l (by grind [Pc.uses])
  · intro j hj
    have hju : (σ.call j).pc.uses = true := by grind [Pc.uses]
    grind [h.used j hju, hpu j hju]
  · intro j t hj
    have hjo : (σ.call j).pc.offsetSlot = some t := by grind [Pc.offsetSlot]
    rw [ho, hpage, h.offset j t hjo]

theorem Slots.setTranslation (h : Slots c σ) (hlock : LockOk σ)
    (hold : (σ.call i).pc = .find (.setTranslation s)) (hnew : pc = .find (.unlock s false))
    (hv : ∀ q, valid (σ'.word q) = valid (σ.word q)) (ho : σ'.offset = σ.offset)
    (ht : ∀ t, σ'.translation t = if t = s then c.globalAddress (σ.call i).page
      else σ.translation t)
    (hl : σ'.lock = σ.lock) : Slots c σ' := by
  obtain ⟨hpe, hje⟩ := h.empty i s (by simp [hold])
  have hown : (σ.call i).pc.lockSlot = some s := by simp [hold]
  have hheld : σ.lock s = .locked := hlock.held_of_owns i s hown
  have hplaced : ∀ l t, (σ'.call l).pc.placed = some t ↔
      l ≠ i ∧ (σ.call l).pc.placed = some t ∨ l = i ∧ t = s := by
    intro l t
    by_cases hli : l = i
    · grind [Pc.placed]
    · grind
  have hother : ∀ j t, j ≠ i → (σ.call j).pc.lockSlot = some t → t ≠ s := by
    rintro j t hji hj rfl
    exact hji (hlock.unique j i t hj hown)
  constructor
  · intro j hj
    grind [h.has j]
  · intro q hq
    rw [hv] at hq
    have hne := hpe q hq
    rw [ho, ht, if_neg hne, hl]
    exact h.home q hq
  · intro j hj
    grind [h.invalid j, Pc.loads]
  · intro j t hj
    rw [hl, ht, hpage]
    rcases (hplaced j t).mp hj with ⟨hji, hj⟩ | ⟨rfl, rfl⟩
    · have hts : t ≠ s := by
        rintro rfl
        exact hje j hj
      rw [if_neg hts]
      exact h.placed j t hj
    · rw [if_pos rfl, hheld]
      exact ⟨by simp, rfl⟩
  · intro j t hj
    have hji : j ≠ i := by grind [Pc.clears]
    have hjc : (σ.call j).pc.clears = some t := by grind
    have hts := hother j t hji (lockSlot_of_clears hjc)
    obtain ⟨hq, hl⟩ := h.empty j t hjc
    refine ⟨fun q hqv => by rw [ho]; exact hq q (by rw [← hv, hqv]), fun l hlp => ?_⟩
    rcases (hplaced l t).mp hlp with ⟨-, hlp⟩ | ⟨-, hts'⟩
    · exact hl l hlp
    · exact hts hts'
  · intro t hlt
    rw [ht]
    by_cases hts : t = s
    · rw [if_pos hts]
      exact .inr ⟨_, h.has i (by simp [hold]), rfl, .inr ⟨i, (hplaced i t).mpr (.inr ⟨rfl, hts⟩),
        hpage i⟩⟩
    · rw [if_neg hts]
      rcases h.assigned t (by rwa [← hl]) with ⟨l, hlc⟩ | ⟨q, hq, htr, hw⟩
      · exact .inl ⟨l, by grind [Pc.clears]⟩
      · refine .inr ⟨q, hq, htr, ?_⟩
        rcases hw with ⟨hqv, hqt⟩ | ⟨l, hlp, hlq⟩
        · exact .inl ⟨by rw [hv, hqv], by rw [ho, hqt]⟩
        · have hli : l ≠ i := by grind [Pc.placed]
          exact .inr ⟨l, (hplaced l t).mpr (.inl ⟨hli, hlp⟩), by rw [hpage, hlq]⟩
  · intro j t q hj
    have hji : j ≠ i := by grind [Pc.seen, Find.seen]
    have hjs : (σ.call j).pc.seen = some (t, q) := by grind
    rw [ht, if_neg (hother j t hji (lockSlot_of_seen hjs))]
    exact h.seen j t q hjs
  · intro j t q hj
    grind [h.evicted j t q, Pc.evicts, Find.evicts, Pc.uses]
  · intro j hj
    grind [h.used j, Pc.uses]
  · intro j t hj
    have hjo : (σ.call j).pc.offsetSlot = some t := by grind [Pc.offsetSlot]
    rw [ho, hpage, h.offset j t hjo]

theorem Slots.setOffset (h : Slots c σ) (hbusy : BusyOk σ)
    (hold : (σ.call i).pc = .setOffset s) (hnew : pc = .orDirty s ∨ pc = .xor s)
    (hv : ∀ q, valid (σ'.word q) = valid (σ.word q))
    (ho : ∀ q, σ'.offset q = if q = (σ.call i).page then s else σ.offset q)
    (ht : σ'.translation = σ.translation) (hl : σ'.lock = σ.lock) : Slots c σ' := by
  have hinv := h.invalid i (by simp [hold])
  have hloads : (σ.call i).pc.loads = true := by simp [hold]
  have hoff : ∀ q, valid (σ.word q) = true → σ'.offset q = σ.offset q := by
    intro q hq
    rw [ho, if_neg]
    rintro rfl
    simp [hq] at hinv
  have hplaced : ∀ l, (σ'.call l).pc.placed = (σ.call l).pc.placed := by
    intro l
    rcases hnew with rfl | rfl <;> grind [Pc.placed]
  have hclears : ∀ l, (σ'.call l).pc.clears = (σ.call l).pc.clears := by
    intro l
    rcases hnew with rfl | rfl <;> grind [Pc.clears]
  have huses : ∀ l, (σ'.call l).pc.uses = (σ.call l).pc.uses := by
    intro l
    rcases hnew with rfl | rfl <;> grind [Pc.uses]
  constructor
  · intro j hj
    grind [h.has j]
  · intro q hq
    rw [hv] at hq
    rw [hoff q hq, ht, hl]
    exact h.home q hq
  · intro j hj
    rw [hv, hpage]
    refine h.invalid j ?_
    grind [Pc.loads]
  · intro j t hj
    rw [hl, ht, hpage]
    exact h.placed j t (by rw [← hplaced, hj])
  · intro j t hj
    obtain ⟨hq, hl⟩ := h.empty j t (by rw [← hclears, hj])
    refine ⟨fun q hqv => ?_, fun l => by rw [hplaced]; exact hl l⟩
    rw [hv] at hqv
    rw [hoff q hqv]
    exact hq q hqv
  · intro t hlt
    rcases h.assigned t (by rwa [← hl]) with ⟨l, hlc⟩ | ⟨q, hq, htr, hw⟩
    · exact .inl ⟨l, by rw [hclears, hlc]⟩
    · refine .inr ⟨q, hq, by rw [ht, htr], ?_⟩
      rcases hw with ⟨hqv, hqt⟩ | ⟨l, hlp, hlq⟩
      · exact .inl ⟨by rw [hv, hqv], by rw [hoff q hqv, hqt]⟩
      · exact .inr ⟨l, by rw [hplaced, hlp], by rw [hpage, hlq]⟩
  · intro j t q hj
    rw [ht]
    refine h.seen j t q ?_
    rcases hnew with rfl | rfl <;> grind [Pc.seen]
  · intro j t q hj
    have hje : (σ.call j).pc.evicts = some (t, q) := by
      rcases hnew with rfl | rfl <;> grind [Pc.evicts]
    obtain ⟨hqv, hqt, hqu⟩ := h.evicted j t q hje
    refine ⟨by rw [hv, hqv], by rw [hoff q hqv, hqt], fun l hl => ?_⟩
    rw [hpage]
    exact hqu l (by rw [← huses, hl])
  · intro j hj
    rw [hv, hpage]
    exact h.used j (by rw [← huses, hj])
  · intro j t hj
    rw [hpage]
    by_cases hji : j = i
    · subst hji
      rw [ho, if_pos rfl]
      rcases hnew with rfl | rfl <;> grind [Pc.offsetSlot]
    · have hjo : (σ.call j).pc.offsetSlot = some t := by grind
      rw [← h.offset j t hjo]
      rcases uses_or_loads_of_offsetSlot hjo with hu | hl
      · exact hoff _ (h.used j hu)
      · rw [ho, if_neg]
        intro he
        exact hji (hbusy.loads_unique hl hloads he)

theorem Slots.xor (h : Slots c σ) (hbusy : BusyOk σ) {n : Nat}
    (hold : (σ.call i).pc = .xor s) (hnew : pc = .hold s n)
    (hv : ∀ q, valid (σ'.word q) = if q = (σ.call i).page then true else valid (σ.word q))
    (ho : σ'.offset = σ.offset) (ht : σ'.translation = σ.translation) (hl : σ'.lock = σ.lock) :
    Slots c σ' := by
  have hinv := h.invalid i (by simp [hold])
  have hoff := h.offset i s (by simp [hold])
  have hpi : (σ.call i).pc.placed = some s := by simp [hold]
  have hloads : (σ.call i).pc.loads = true := by simp [hold]
  obtain ⟨hfree, htr⟩ := h.placed i s hpi
  have hval : ∀ q, valid (σ.word q) = true → valid (σ'.word q) = true := by
    intro q
    grind
  have hplaced : ∀ l t, (σ'.call l).pc.placed = some t ↔ l ≠ i ∧ (σ.call l).pc.placed = some t := by
    intro l t
    grind [Pc.placed]
  have hclears : ∀ l, (σ'.call l).pc.clears = (σ.call l).pc.clears := by
    intro l
    grind [Pc.clears]
  constructor
  · intro j hj
    grind [h.has j]
  · intro q hq
    rw [ho, ht, hl]
    by_cases hqi : q = (σ.call i).page
    · subst hqi
      rw [hoff]
      exact ⟨h.has i (by simp [hold]), hfree, htr⟩
    · exact h.home q (by grind)
  · intro j hj
    have hji : j ≠ i := by grind [Pc.loads]
    have hjl : (σ.call j).pc.loads = true := by grind
    rw [hv, hpage, if_neg]
    · exact h.invalid j hjl
    · intro he
      exact hji (hbusy.loads_unique hjl hloads he)
  · intro j t hj
    rw [hl, ht, hpage]
    exact h.placed j t ((hplaced j t).mp hj).2
  · intro j t hj
    obtain ⟨hq, hl⟩ := h.empty j t (by rw [← hclears, hj])
    refine ⟨fun q hqv => ?_, fun l hlp => hl l ((hplaced l t).mp hlp).2⟩
    rw [ho]
    by_cases hqi : q = (σ.call i).page
    · subst hqi
      rw [hoff]
      rintro rfl
      exact hl i hpi
    · exact hq q (by grind)
  · intro t hlt
    rcases h.assigned t (by rwa [← hl]) with ⟨l, hlc⟩ | ⟨q, hq, htr, hw⟩
    · exact .inl ⟨l, by rw [hclears, hlc]⟩
    · refine .inr ⟨q, hq, by rw [ht, htr], ?_⟩
      rcases hw with ⟨hqv, hqt⟩ | ⟨l, hlp, hlq⟩
      · exact .inl ⟨hval q hqv, by rw [ho, hqt]⟩
      · by_cases hli : l = i
        · subst hli hlq
          exact .inl ⟨by
            rw [hv, if_pos rfl], by rw [ho, hoff]; exact Option.some.inj (hpi.symm.trans hlp)⟩
        · exact .inr ⟨l, (hplaced l t).mpr ⟨hli, hlp⟩, by rw [hpage, hlq]⟩
  · intro j t q hj
    rw [ht]
    refine h.seen j t q ?_
    grind [Pc.seen]
  · intro j t q hj
    have hje : (σ.call j).pc.evicts = some (t, q) := by grind [Pc.evicts]
    obtain ⟨hqv, hqt, hqu⟩ := h.evicted j t q hje
    refine ⟨hval q hqv, by rw [ho, hqt], fun l hl => ?_⟩
    rw [hpage]
    by_cases hli : l = i
    · subst hli
      rintro rfl
      simp [hqv] at hinv
    · exact hqu l (by grind)
  · intro j hj
    rw [hpage]
    by_cases hji : j = i
    · rw [hv, hji, if_pos rfl]
    · exact hval _ (h.used j (by grind))
  · intro j t hj
    rw [ho, hpage]
    by_cases hji : j = i
    · subst hji
      rw [hoff]
      grind [Pc.offsetSlot]
    · exact h.offset j t (by grind)
end

theorem Slots.moves (h : Slots c σ) (hlock : LockOk σ) (hbusy : BusyOk σ) (hcount : CountOk σ)
    (hm : Moves c σ i σ' e) : Slots c σ' := by
  cases hm with
  | busied hpc hv hb =>
    refine h.keep rfl (valid_setWord_same _ (by simp)) rfl rfl (fun _ => .rfl) (by simp [hpc]) ?_
    constructor <;> simp [hpc, hv]
  | busiedValid hpc | lost hpc | unbusy hpc | refused hpc | beaten hpc | unbusyPrev hpc
  | orDirty hpc | hitDirty hpc =>
    refine h.keep rfl (valid_setWord_same _ (by simp)) rfl rfl (fun _ => .rfl) (by simp [hpc]) ?_
    constructor <;> simp [hpc]
  | reload hpc hn =>
    subst hn
    exact h.keep rfl (fun _ => rfl) rfl rfl (fun _ => .rfl) (by simp [hpc])
      (justified_dispatch (.inr hpc) hbusy.not_evicted)
  | writeBack hpc | read hpc =>
    refine h.keep rfl (fun _ => rfl) rfl rfl (fun _ => .rfl) (by simp [hpc]) ?_
    constructor <;> simp [hpc]
  | hitOffset hpc =>
    refine h.keep rfl (fun _ => rfl) rfl rfl (fun _ => .rfl) (by simp [hpc]) ?_
    constructor <;> simp [hpc]
  | search hpc hf hg =>
    refine h.keep rfl (fun _ => rfl) rfl rfl (fun _ => .rfl) (by simp [hpc]) ?_
    exact justified_search hf hg hpc
  | loadState hpc hf =>
    rcases hf with rfl | rfl
    all_goals
      refine h.keep rfl (fun _ => rfl) rfl rfl (fun _ => .rfl) (by simp [hpc]) ?_
      constructor <;> simp [hpc]
  | @lockUsed s hpc hl =>
    refine h.keep rfl (fun _ => rfl) rfl rfl (fun t => ?_) (by simp [hpc]) ?_
    · by_cases ht : t = s <;> simp [State.setLock, ht, hl]
    · constructor <;> simp [hpc]
  | @unlock s fail pc hpc hf =>
    have hl : σ.lock s = .locked := hlock.held_of_owns i s (by simp [hpc])
    refine h.keep rfl (fun _ => rfl) rfl rfl (fun t => ?_) (by simp [hpc]) ?_
    · by_cases ht : t = s <;> simp [State.setLock, ht, hl]
    · subst hf
      cases fail <;> constructor <;> simp [hpc]
  | @readTranslation s hpc =>
    obtain ⟨p, hp, ht, -⟩ :=
      h.page_of_locked (i := i) (s := s) hlock (by simp [hpc]) (by simp [hpc])
    refine h.keep rfl (fun _ => rfl) rfl rfl (fun _ => .rfl) (by simp [hpc]) ?_
    rw [ht, Cache.pageAt_globalAddress hp]
    constructor <;> simp [hpc]
    exact ⟨hp, ht⟩
  | @evict s p f hpc hb hc hf =>
    have hev :=
      h.evictable (i := i) (s := s) hlock hbusy hcount (by simp [hpc]) (by simp [hpc]) hb hc
    refine h.keep rfl (valid_setWord_same _ (by simp)) rfl rfl (fun _ => .rfl) (by simp [hpc]) ?_
    rcases hf with rfl | ⟨rfl, -⟩
    all_goals
      constructor <;> simp [hpc]
      exact hev
  | @lockFree s hpc hl =>
    refine Slots.lockFree (σ := σ) (page_moved rfl) (pc_moved rfl) h hpc rfl hl
      (fun _ => rfl) rfl rfl
      fun t => ?_
    by_cases ht : t = s <;> simp [State.setLock, ht]
  | @clear s p hpc =>
    refine Slots.clear (σ := σ) (page_moved rfl) (pc_moved rfl) h hbusy hpc rfl
      (fun q => ?_) rfl rfl rfl
    rw [move_word, setWord_word, apply_ite valid, valid_clear]
  | @setTranslation s hpc =>
    refine Slots.setTranslation (σ := σ) (page_moved rfl) (pc_moved rfl) h hlock hpc rfl
      (fun _ => rfl) rfl
      (fun t => ?_) rfl
    by_cases ht : t = s <;> simp [State.setTranslation, ht]
  | @setOffset s pc hpc hw =>
    refine Slots.setOffset (σ := σ) (page_moved rfl) (pc_moved rfl) h hbusy hpc ?_ (fun _ => rfl)
      (fun q => ?_) rfl rfl
    · exact hw ▸ ite_eq_or_eq _ _ _
    · by_cases hq : q = (σ.call i).page <;> simp [State.setOffset, hq]
  | @xor s hpc =>
    have hinv := h.invalid i (by simp [hpc])
    refine Slots.xor (σ := σ) (page_moved rfl) (pc_moved rfl) h hbusy hpc rfl
      (fun q => ?_) rfl rfl rfl
    rw [move_word, setWord_word, apply_ite valid, valid_xor, hinv]
    rfl

theorem Slots.release (h : Slots c σ) (hcount : CountOk σ) (hr : releasePage σ i k = some σ') :
    Slots c σ' := by
  obtain ⟨s, left, hpc, hk, rfl⟩ := releasePage_cases hr
  have hle := hcount.left_le hpc
  refine h.keep rfl (valid_setWord_same _ (valid_sub (by omega))) rfl rfl (fun _ => .rfl)
    (by simp [hpc]) ?_
  constructor <;> simp [hpc] <;> omega

theorem Slots.replace (h : Slots c σ) (hi : (σ.call i).pc = .idle) {d : Call} (hd : d.pc = .idle) :
    Slots c { σ with call := update σ.call i d } := by
  have hpc : ∀ j, (update σ.call i d j).pc = (σ.call j).pc := by
    intro j
    rw [pc_update]
    split
    · next hj => rw [hd, hj, hi]
    · rfl
  have hpage : ∀ j, (σ.call j).pc ≠ .idle → (update σ.call i d j).page = (σ.call j).page := by
    intro j hj
    rw [update_of_ne]
    rintro rfl
    exact hj hi
  constructor
  · intro j hj
    simp only [hpc] at hj
    rw [hpage j hj]
    exact h.has j hj
  · exact h.home
  · intro j hj
    simp only [hpc] at hj
    rw [hpage j fun he => by simp [he] at hj]
    exact h.invalid j hj
  · intro j s hj
    simp only [hpc] at hj
    rw [hpage j fun he => by simp [he] at hj]
    exact h.placed j s hj
  · simp only [hpc]
    exact h.empty
  · intro s hs
    simp only [hpc]
    rcases h.assigned s hs with hl | ⟨p, hp, ht, hw⟩
    · exact .inl hl
    · refine .inr ⟨p, hp, ht, hw.imp_right ?_⟩
      rintro ⟨j, hj, hjp⟩
      exact ⟨j, hj, by rw [hpage j fun he => by simp [he] at hj, hjp]⟩
  · simp only [hpc]
    exact h.seen
  · intro j s p hj
    simp only [hpc] at hj ⊢
    obtain ⟨hv, ho, hu⟩ := h.evicted j s p hj
    refine ⟨hv, ho, fun l hl => ?_⟩
    rw [hpage l fun he => by simp [he] at hl]
    exact hu l hl
  · intro j hj
    simp only [hpc] at hj
    rw [hpage j fun he => by simp [he] at hj]
    exact h.used j hj
  · intro j s hj
    simp only [hpc] at hj
    rw [hpage j fun he => by simp [he] at hj]
    exact h.offset j s hj

theorem Slots.begin (h : Slots c σ) (hbusy : BusyOk σ) (hcount : CountOk σ) (hp : c.Has p)
    {count : Nat} {write : Bool} (hlt : ∀ q, refs (begin σ p count write) q < 2^29) :
    Slots c (begin σ p count write) := by
  have hidle := hcount.fresh σ.begun (Nat.le_refl _)
  have hroom := hlt p
  rw [refs_begin, if_pos rfl, ← hcount.count] at hroom
  -- the call is first put in place, then dispatched on the word it read
  have h0 := h.replace hidle (d := ⟨p, count, write, .idle⟩) rfl
  generalize hσ : ({ σ with call := update σ.call σ.begun ⟨p, count, write, .idle⟩ } : State) = σ₀
    at h0
  have hcall : σ₀.call σ.begun = ⟨p, count, write, .idle⟩ := by subst hσ; simp
  have hpc : ∀ j, (σ₀.call j).pc = (σ.call j).pc := by
    subst hσ
    intro j
    simp only [pc_update]
    split
    · next hj => rw [hj, hidle]
    · rfl
  have hpage : ∀ j, ((PageCache.begin σ p count write).call j).page = (σ₀.call j).page := by
    intro j
    subst hσ
    by_cases hj : j = σ.begun <;> simp [PageCache.begin, hj]
  have hnext : ∀ j, ((PageCache.begin σ p count write).call j).pc =
      if j = σ.begun then dispatch write (σ.word p) else (σ₀.call j).pc := by
    intro j
    subst hσ
    by_cases hj : j = σ.begun <;> simp [PageCache.begin, hj]
  refine Slots.justified hpage hnext h0 (fun q => ?_) ?_ ?_ (fun s => ?_) ?_ ?_
  · subst hσ
    by_cases hq : q = p
    · simp [PageCache.begin, hq, valid_add hroom]
    · simp [PageCache.begin, hq]
  · subst hσ; rfl
  · subst hσ; rfl
  · subst hσ; rfl
  · rw [hcall]
    exact hp
  · have hj := justified_dispatch (c := c) (σ := σ₀) (d := ⟨p, count, write, .idle⟩) (.inl rfl)
      (fun hb j s => by rw [hpc]; exact hbusy.not_evicted (by subst hσ; exact hb) j s)
    rw [hcall]
    subst hσ
    exact hj

theorem LockOk.begin (h : LockOk σ) (hcount : CountOk σ) {count : Nat} {write : Bool} :
    LockOk (begin σ p count write) := by
  refine Exclusive.congr h (fun _ => .rfl) fun j s => ?_
  simp only [PageCache.begin]
  rw [pc_update]
  split
  · next hj => rw [lockSlot_dispatch, hj, hcount.fresh _ (Nat.le_refl _)]; rfl
  · rfl

theorem BusyOk.begin (h : BusyOk σ) (hcount : CountOk σ) {count : Nat} {write : Bool}
    (hlt : ∀ q, refs (begin σ p count write) q < 2^29) : BusyOk (begin σ p count write) := by
  have hidle := hcount.fresh σ.begun (Nat.le_refl _)
  have hroom := hlt p
  rw [refs_begin, if_pos rfl, ← hcount.count] at hroom
  constructor
  · refine Exclusive.congr h.excl (fun q => ?_) fun j q => ?_
    · by_cases hq : q = p
      · simp [PageCache.begin, hq, busy_add hroom]
      · simp [PageCache.begin, hq]
    · by_cases hj : j = σ.begun
      · subst hj
        have hold : ¬(σ.call σ.begun).ownsBusy q := by simp [Call.ownsBusy, hidle]
        have hnew := not_ownsBusy_dispatch ⟨p, count, write, .idle⟩ write (σ.word p) q
        simpa [PageCache.begin, hold] using hnew
      · simp [PageCache.begin, hj]
  · intro j q hq
    by_cases hj : j = σ.begun
    · subst hj
      have hnew := not_ownsBusy_dispatch ⟨p, count, write, .idle⟩ write (σ.word p) q
      simp only [PageCache.begin, update_self] at hq
      exact absurd (.inr hq) hnew
    · simp only [PageCache.begin, update_of_ne hj] at hq ⊢
      exact h.other j q hq

theorem BusyOk.release (h : BusyOk σ) (hcount : CountOk σ) (hr : releasePage σ i k = some σ') :
    BusyOk σ' := by
  obtain ⟨s, left, hpc, hk, rfl⟩ := releasePage_cases hr
  have hle := hcount.left_le hpc
  exact h.same rfl (busy_setWord_same _ (busy_sub (by omega))) (by simp [Call.ownsBusy, hpc])
    (by simp)

theorem LockOk.release (h : LockOk σ) (hr : releasePage σ i k = some σ') : LockOk σ' := by
  obtain ⟨s, left, hpc, hk, rfl⟩ := releasePage_cases hr
  exact h.same rfl rfl (by rw [hpc]; rfl)

structure Inv (c : Cache) (σ : State) : Prop where
  locks : LockOk σ
  busies : BusyOk σ
  counts : CountOk σ
  slots : Slots c σ

theorem Initial.inv (h : Initial σ) : Inv c σ where
  locks := by
    constructor <;> simp [h.lock, h.call]
  busies := by
    refine ⟨?_, by simp [h.call]⟩
    constructor <;> simp [h.word, h.call, Call.ownsBusy, busy]
  counts := by
    refine ⟨fun j _ => h.call j, fun j hj => absurd (h.call j) hj, fun p => ?_⟩
    rw [refs, h.begun, h.word]
    rfl
  slots := by
    constructor <;> simp [h.call, h.word, h.lock, valid]

theorem Inv.next (h : Inv c σ) {a : Act} (hs : step c σ a = some (σ', e))
    (hlt : ∀ p, refs σ' p < 2^29) : Inv c σ' := by
  cases a with
  | acquire p count write =>
    simp only [PageCache.step, Option.ite_none_right_eq_some, Option.some.injEq,
      Prod.mk.injEq] at hs
    obtain ⟨⟨hr, hx, hpos⟩, rfl, -⟩ := hs
    exact ⟨h.locks.begin h.counts, h.busies.begin h.counts hlt, h.counts.begin hpos hlt,
      h.slots.begin h.busies h.counts ⟨hr, hx⟩ hlt⟩
  | run i weak =>
    have hm : Moves c σ i σ' e := moves_of_acquireStep hs
    exact ⟨h.locks.moves hm, h.busies.moves hm, h.counts.moves hm,
      h.slots.moves h.locks h.busies h.counts hm⟩
  | release i k =>
    simp only [PageCache.step, Option.map_eq_some_iff, Prod.mk.injEq] at hs
    obtain ⟨τ, hr, rfl, -⟩ := hs
    exact ⟨h.locks.release hr, h.busies.release h.counts hr, h.counts.release hr,
      h.slots.release h.counts hr⟩

theorem Reach.inv (h : Reach c σ) : Inv c σ := by
  induction h with
  | init h => exact h.inv
  | step _ hs hlt ih => exact ih.next hs hlt

theorem Reach.bound (h : Reach c σ) (p : Page) : refs σ p < 2^29 := by
  cases h with
  | init h => simp [refs, h.begun]
  | step _ _ hlt => exact hlt p

theorem Reach.run (h : Reach c σ) (hs : acquireStep c σ i weak = some (σ', e)) : Reach c σ' := by
  have hcount := h.inv.counts
  have hcount' := hcount.moves (moves_of_acquireStep hs)
  obtain ⟨pc, -, -, -, -, hw⟩ := (moves_of_acquireStep hs).frame
  refine .step (a := .run i weak) h hs fun p => ?_
  rw [← hcount'.count, hw, hcount.count]
  exact h.bound p

def runs (c : Cache) (i : Nat) : Nat → State → Option State
  | 0, σ => some σ
  | n+1, σ => (acquireStep c σ i false).bind fun r => runs c i n r.1

theorem Reach.runs {n : Nat} (h : Reach c σ) (hs : runs c i n σ = some σ') : Reach c σ' := by
  induction n generalizing σ with
  | zero => exact Option.some.inj hs ▸ h
  | succ n ih =>
    simp only [PageCache.runs, Option.bind_eq_some_iff] at hs
    obtain ⟨⟨τ, e⟩, hτ, hs⟩ := hs
    exact ih (h.run hτ) hs

def Holds (σ : State) (i s : Nat) : Prop := ∃ left, 0 < left ∧ (σ.call i).pc = .hold s left

/-- An unlocked slot belongs to a page that is being loaded into it or is valid in it. -/
theorem Inv.unlocked_slot (h : Inv c σ) (hs : σ.lock s = .unlocked) :
    ∃ p, c.Has p ∧ σ.translation s = c.globalAddress p ∧
      (busy (σ.word p) = true ∧ (∃ i, (σ.call i).page = p ∧ (σ.call i).pc.placed = some s) ∨
        valid (σ.word p) = true ∧ σ.offset p = s) := by
  rcases h.slots.assigned s (by simp [hs]) with ⟨i, hi⟩ | ⟨p, hp, ht, hw⟩
  · have hl : σ.lock s = .locked := h.locks.held_of_owns i s (lockSlot_of_clears hi)
    simp [hs] at hl
  · refine ⟨p, hp, ht, ?_⟩
    rcases hw with hw | ⟨i, hi, rfl⟩
    · exact .inr hw
    · exact .inl ⟨h.busies.busy_page (loads_of_placed hi), i, rfl, hi⟩

theorem Inv.slot_inj (h : Inv c σ) (hp : valid (σ.word p) = true) (hq : valid (σ.word q) = true)
    (he : σ.offset p = σ.offset q) : p = q := by
  obtain ⟨hp, -, hpt⟩ := h.slots.home p hp
  obtain ⟨hq, -, hqt⟩ := h.slots.home q hq
  exact Cache.globalAddress_inj hp hq (by rw [← hpt, he, hqt])

theorem Inv.holder (h : Inv c σ) (hi : Holds σ i s) : valid (σ.word (σ.call i).page) = true ∧
    σ.offset (σ.call i).page = s ∧ ∀ j t, (σ.call j).pc.evicts ≠ some (t, (σ.call i).page) := by
  obtain ⟨left, hpos, hpc⟩ := hi
  have hu : (σ.call i).pc.uses = true := by simp [hpc, hpos]
  refine ⟨h.slots.used i hu, h.slots.offset i s (by simp [hpc, hpos]), fun j t hj => ?_⟩
  obtain ⟨-, -, hn⟩ := h.slots.evicted j t _ hj
  exact hn i hu rfl

/-- The two operations on the count leave every flag of every page alone. -/
theorem Inv.flags_of_count (h : Inv c σ) {a : Act} (hs : step c σ a = some (σ', e))
    (hlt : ∀ p, refs σ' p < 2^29) (ha : ∀ i weak, a ≠ .run i weak) (q : Page) :
    valid (σ'.word q) = valid (σ.word q) ∧ busy (σ'.word q) = busy (σ.word q) ∧
      dirty (σ'.word q) = dirty (σ.word q) := by
  cases a with
  | acquire p count write =>
    simp only [PageCache.step, Option.ite_none_right_eq_some, Option.some.injEq,
      Prod.mk.injEq] at hs
    obtain ⟨-, rfl, -⟩ := hs
    have hroom := hlt p
    rw [refs_begin, if_pos rfl, ← h.counts.count] at hroom
    by_cases hq : q = p
    · subst hq
      simp [begin, valid_add hroom, busy_add hroom, dirty_add hroom]
    · simp [begin, hq]
  | run i weak => exact absurd rfl (ha i weak)
  | release i k =>
    simp only [PageCache.step, Option.map_eq_some_iff, Prod.mk.injEq] at hs
    obtain ⟨τ, hr, rfl, -⟩ := hs
    obtain ⟨s, left, hpc, hk, rfl⟩ := releasePage_cases hr
    have hle := h.counts.left_le hpc
    have hk' : k ≤ cnt (σ.word (σ.call i).page) := by omega
    rw [move_word, setWord_word]
    split
    · next hq => rw [valid_sub hk', busy_sub hk', dirty_sub hk', hq]; exact ⟨rfl, rfl, rfl⟩
    · exact ⟨rfl, rfl, rfl⟩

/-- The page cache in every reachable state: slots and pages match, holders keep
their page, and the count of a page is exact and apart from its flags. -/
theorem cache_state_sound (c : Cache) (σ : State) (h : Reach c σ) :
    (∀ s, σ.lock s = .unlocked → ∃ p, c.Has p ∧ σ.translation s = c.globalAddress p ∧
      (busy (σ.word p) = true ∧ (∃ i, (σ.call i).page = p ∧ (σ.call i).pc.placed = some s) ∨
        valid (σ.word p) = true ∧ σ.offset p = s)) ∧
    (∀ p q, valid (σ.word p) = true → valid (σ.word q) = true → σ.offset p = σ.offset q → p = q) ∧
    (∀ i s, Holds σ i s → valid (σ.word (σ.call i).page) = true ∧ σ.offset (σ.call i).page = s ∧
      ∀ j t, (σ.call j).pc.evicts ≠ some (t, (σ.call i).page)) ∧
    (∀ p, cnt (σ.word p) = refs σ p) ∧
    (∀ a σ' e, step c σ a = some (σ', e) → (∀ p, refs σ' p < 2^29) →
      (∀ i weak, a ≠ .run i weak) → ∀ q, valid (σ'.word q) = valid (σ.word q) ∧
        busy (σ'.word q) = busy (σ.word q) ∧ dirty (σ'.word q) = dirty (σ.word q)) := by
  have hinv := h.inv
  exact ⟨fun _ => hinv.unlocked_slot, fun _ _ => hinv.slot_inj, fun _ _ => hinv.holder,
    hinv.counts.count, fun _ _ _ hs hlt ha => hinv.flags_of_count hs hlt ha⟩

def blank : State where
  word _ := 0
  offset _ := 0
  lock _ := .free
  translation _ := 0
  ticket := 0
  begun := 0
  call _ := ⟨⟨0, 0⟩, 0, false, .idle⟩

theorem initial_blank : Initial blank := ⟨fun _ => rfl, fun _ => rfl, fun _ => rfl, rfl⟩

def oneSlot : Cache := ⟨1, 0, by decide⟩

theorem reach_begin_blank : Reach oneSlot (begin blank ⟨0, 0⟩ 1 true) := by
  refine .step (a := .acquire ⟨0, 0⟩ 1 true) (e := .quiet) (.init initial_blank) rfl fun p => ?_
  have h0 : refs blank p = 0 := rfl
  rw [refs_begin, h0]
  split <;> decide

/-- A page written once: the call misses, takes the only slot and holds it. -/
theorem written_page_held : ∃ σ, Reach oneSlot σ ∧ Holds σ 0 0 ∧
    valid (σ.word (σ.call 0).page) = true ∧ σ.offset (σ.call 0).page = 0 := by
  have hrun : (runs oneSlot 0 10 (begin blank ⟨0, 0⟩ 1 true)).map (fun σ => (σ.call 0).pc) =
      some (.hold 0 1) := rfl
  obtain ⟨σ, hσ, hpc⟩ := Option.map_eq_some_iff.mp hrun
  have hr := reach_begin_blank.runs hσ
  have hh : Holds σ 0 0 := ⟨1, by decide, hpc⟩
  obtain ⟨-, -, hold, -, -⟩ := cache_state_sound oneSlot σ hr
  obtain ⟨hv, ho, -⟩ := hold 0 0 hh
  exact ⟨σ, hr, hh, hv, ho⟩

end Shaper.PageCache
