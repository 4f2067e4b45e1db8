import Shaper.EvictTargets
import Shaper.PageSlots

/-! The page cache between uses: which pages its slots hold when no call is under way. -/
namespace Shaper.CacheAtRest
open Function PageCache EvictTargets
variable {c : Cache} {L : Layout} {σ σ' : State} {i : Nat} {pc : Pc} {e : Effect}

inductive Reached (c : Cache) (L : Layout) : State → Prop where
  | init {σ : State} : Initial σ → Reached c L σ
  | step {σ σ' : State} {a : Act} {e : Effect} : Reached c L σ →
      (∀ p count write, a = .acquire p count write → L.Has p) →
      PageCache.step c σ a = some (σ', e) →
      (∀ p, refs σ' p < 2^29) → Reached c L σ'

def Quiescent (σ : State) : Prop := ∀ i, (σ.call i).pc = .idle ∨ ∃ s, (σ.call i).pc = .hold s 0

theorem Reached.reach (h : Reached c L σ) : Reach c σ := by
  induction h with
  | init h => exact .init h
  | step _ _ hs hlt ih => exact .step ih hs hlt

theorem Reached.run {weak : Bool} (h : Reached c L σ) (hs : acquireStep c σ i weak = some (σ', e)) :
    Reached c L σ' :=
  .step (a := .run i weak) h (fun _ _ _ ha => by cases ha) hs (h.reach.run hs).bound

theorem Reached.runs {n : Nat} (h : Reached c L σ) (hs : PageCache.runs c i n σ = some σ') :
    Reached c L σ' := by
  induction n generalizing σ with
  | zero => exact Option.some.inj hs ▸ h
  | succ n ih =>
    simp only [PageCache.runs, Option.bind_eq_some_iff] at hs
    obtain ⟨⟨τ, e⟩, hτ, hs⟩ := hs
    exact ih (h.run hτ) hs

theorem Reached.release {k : Nat} (h : Reached c L σ) (hr : releasePage σ i k = some σ') :
    Reached c L σ' := by
  refine .step (a := .release i k) (e := .quiet) h (fun _ _ _ ha => by cases ha)
    (by simp [PageCache.step, hr])
    fun p => Nat.lt_of_le_of_lt ?_ (h.reach.bound p)
  obtain ⟨s, left, hpc, hk, rfl⟩ := releasePage_cases hr
  refine Finset.sum_le_sum fun j _ => ?_
  by_cases hj : j = i
  · subst hj
    simp only [State.move, State.setWord, update_self, Call.refs, hpc]
    split <;> omega
  · simp [State.move, State.setWord, hj]

def probes : Pc → Option Nat
  | .find (.loadLock s) | .find (.casFree s) | .find (.casUnlocked s) => some s
  | _ => none

structure Places (c : Cache) (σ : State) : Prop where
  probed : ∀ i s, probes (σ.call i).pc = some s → s < c.nPages
  used : ∀ s, σ.lock s ≠ .free → s < c.nPages

section Places

theorem Places.move (h : Places c σ) (hc : σ'.call = update σ.call i { σ.call i with pc := pc })
    (hl : ∀ s, σ'.lock s ≠ .free → σ.lock s ≠ .free ∨ s < c.nPages)
    (hp : ∀ s, probes pc = some s → s < c.nPages) : Places c σ' := by
  refine ⟨fun j s hj => ?_, fun s hs => (hl s hs).elim (h.used s) id⟩
  rw [pc_moved hc] at hj
  split at hj
  · exact hp s hj
  · exact h.probed j s hj

theorem Places.leave (h : Places c σ) (hc : σ'.call = update σ.call i { σ.call i with pc := pc })
    (hl : ∀ s, σ'.lock s ≠ .free → σ.lock s ≠ .free ∨ s < c.nPages) (hp : probes pc = none) :
      Places c σ' := by
  refine h.move hc hl fun s hs => ?_
  rw [hp] at hs
  cases hs

theorem probes_dispatch (write : Bool) (w : BitVec 32) : probes (dispatch write w) = none := by
  obtain ⟨h, -⟩ | ⟨h, -⟩ | ⟨h, -⟩ | h := dispatch_cases write w <;> rw [h] <;> rfl

theorem probes_afterOr (w : BitVec 32) : probes (afterOr w) = none := by
  obtain ⟨h, -⟩ | ⟨h, -⟩ | ⟨h, -⟩ := afterOr_cases w <;> rw [h] <;> rfl

theorem probes_afterLoad (s : Nat) (p : Page) (w : BitVec 32) :
    probes (.find (afterLoad s p w)) = none := by
  obtain h | h := afterLoad_cases s p w <;> rw [h] <;> rfl

theorem probes_afterEvictOr (s : Nat) (p : Page) (w : BitVec 32) :
    probes (.find (afterEvictOr s p w)) = none := by
  obtain ⟨h, -⟩ | ⟨h, -⟩ | ⟨h, -⟩ | ⟨h, -⟩ := afterEvictOr_cases s p w <;> rw [h] <;> rfl

theorem lock_setLock {s t : Nat} {v : Lock} (ht : s < c.nPages)
    (h : (σ.setLock s v).lock t ≠ .free) : σ.lock t ≠ .free ∨ t < c.nPages := by
  by_cases hts : t = s
  · exact .inr (hts ▸ ht)
  · have hsame : (σ.setLock s v).lock t = σ.lock t := update_of_ne hts _ _
    exact .inl (hsame ▸ h)

theorem Places.findSlot (h : Places c σ) (hinv : PageCache.Inv c σ) (hpos : 0 < c.nPages) {f : Find}
    (hf : (σ.call i).pc = .find f) (weak : Bool) :
    Places c (PageCache.findSlot c σ i weak f).1 := by
  have hprobe : ∀ s, probes (.find f) = some s → s < c.nPages :=
    fun s hs => h.probed i s (by rw [hf]; exact hs)
  cases f with
  | ticket =>
    refine h.move rfl (fun _ => .inl) fun s hs => ?_
    obtain rfl := Option.some.inj hs
    exact Nat.mod_lt _ hpos
  | loadLock s =>
    simp only [PageCache.findSlot]
    cases σ.lock s with
    | free | unlocked => exact h.move rfl (fun _ => .inl) hprobe
    | locked => exact h.leave rfl (fun _ => .inl) rfl
  | casFree s | casUnlocked s =>
    simp only [PageCache.findSlot]
    split
    · exact h.leave rfl (fun _ => lock_setLock (hprobe s rfl)) rfl
    · exact h.leave rfl (fun _ => .inl) rfl
  | readTranslation s | writeBack s p | clear s p | unbusy s p | setTranslation s =>
    exact h.leave rfl (fun _ => .inl) rfl
  | loadState s p => exact h.leave rfl (fun _ => .inl) (probes_afterLoad s p _)
  | orBusy s p => exact h.leave rfl (fun _ => .inl) (probes_afterEvictOr s p _)
  | unlock s fail =>
    have hlocked : σ.lock s = .locked := hinv.locks.held_of_owns i s (by simp [hf])
    have hs := h.used s (by simp [hlocked])
    refine h.leave rfl (fun _ => lock_setLock hs) ?_
    cases fail <;> rfl

theorem Places.acquireStep (h : Places c σ) (hinv : PageCache.Inv c σ) (hpos : 0 < c.nPages)
    {weak : Bool} (hs : PageCache.acquireStep c σ i weak = some (σ', e)) : Places c σ' := by
  unfold PageCache.acquireStep at hs
  cases hpc : (σ.call i).pc with
  | idle | hold s left => simp [hpc] at hs
  | find f =>
    simp only [hpc, Option.some.injEq] at hs
    have hfind := h.findSlot hinv hpos hpc weak
    rwa [hs] at hfind
  | orBusy =>
    simp only [hpc, Option.some.injEq, Prod.mk.injEq] at hs
    obtain ⟨rfl, -⟩ := hs
    exact h.leave rfl (fun _ => .inl) (probes_afterOr _)
  | reload =>
    simp only [hpc, Option.some.injEq, Prod.mk.injEq] at hs
    obtain ⟨rfl, -⟩ := hs
    exact h.leave rfl (fun _ => .inl) (probes_dispatch _ _)
  | setOffset s =>
    simp only [hpc, Option.some.injEq, Prod.mk.injEq] at hs
    obtain ⟨rfl, -⟩ := hs
    refine h.leave rfl (fun _ => .inl) ?_
    split <;> rfl
  | _ =>
    simp only [hpc, Option.some.injEq, Prod.mk.injEq] at hs
    obtain ⟨rfl, -⟩ := hs
    exact h.leave rfl (fun _ => .inl) rfl

theorem Places.next (h : Places c σ) (hinv : PageCache.Inv c σ) (hpos : 0 < c.nPages) {a : Act}
    (hs : PageCache.step c σ a = some (σ', e)) : Places c σ' := by
  cases a with
  | acquire p count write =>
    simp only [PageCache.step, Option.ite_none_right_eq_some, Option.some.injEq,
      Prod.mk.injEq] at hs
    obtain ⟨-, rfl, -⟩ := hs
    refine ⟨fun j s hj => ?_, h.used⟩
    rw [begin, pc_update] at hj
    split at hj
    · rw [probes_dispatch] at hj
      cases hj
    · exact h.probed j s hj
  | run i weak => exact h.acquireStep hinv hpos hs
  | release i k =>
    simp only [PageCache.step, Option.map_eq_some_iff, Prod.mk.injEq] at hs
    obtain ⟨τ, hr, rfl, -⟩ := hs
    obtain ⟨s, left, hpc, hk, rfl⟩ := releasePage_cases hr
    exact h.leave rfl (fun _ => .inl) rfl

end Places

structure Pages (L : Layout) (σ : State) : Prop where
  called : ∀ i, (σ.call i).pc ≠ .idle → L.Has (σ.call i).page
  cached : ∀ p, valid (σ.word p) = true → L.Has p
  marked : ∀ p, dirty (σ.word p) = true → valid (σ.word p) = true ∨
    ∃ i s, (σ.call i).pc = .xor s ∧ (σ.call i).page = p

section Pages

theorem Pages.called_moved (h : Pages L σ)
    (hc : σ'.call = update σ.call i { σ.call i with pc := pc })
    (hi : (σ.call i).pc ≠ .idle) (j : Nat) (hj : (σ'.call j).pc ≠ .idle) :
      L.Has (σ'.call j).page := by
  rw [page_moved hc]
  refine h.called j ?_
  rw [pc_moved hc] at hj
  split at hj
  · next he => exact he ▸ hi
  · exact hj

/-- A step of call `i` that turns no page valid, and dirty only one that is valid or that
the call is about to make so. -/
theorem Pages.move (h : Pages L σ) (hc : σ'.call = update σ.call i { σ.call i with pc := pc })
    (hi : (σ.call i).pc ≠ .idle) (hx : ∀ s, (σ.call i).pc ≠ .xor s)
    (hv : ∀ q, valid (σ'.word q) = true → valid (σ.word q) = true)
    (hd : ∀ q, dirty (σ'.word q) = true → (valid (σ.word q) = true → valid (σ'.word q) = true) ∧
      (dirty (σ.word q) = true ∨ valid (σ.word q) = true ∨ ∃ s, pc = .xor s ∧
        (σ.call i).page = q)) :
    Pages L σ' := by
  refine ⟨h.called_moved hc hi, fun p hp => h.cached p (hv p hp), fun p hp => ?_⟩
  obtain ⟨hkeep, hdirty | hvalid | ⟨s, rfl, hpage⟩⟩ := hd p hp
  · rcases h.marked p hdirty with hvalid | ⟨j, s, hj, hpage⟩
    · exact .inl (hkeep hvalid)
    · refine .inr ⟨j, s, ?_, (page_moved hc j).trans hpage⟩
      rw [pc_moved hc, if_neg]
      · exact hj
      · rintro rfl
        exact hx s hj
  · exact .inl (hkeep hvalid)
  · exact .inr ⟨i, s, by rw [pc_moved hc, if_pos rfl], (page_moved hc i).trans hpage⟩

theorem Pages.same (h : Pages L σ) (hc : σ'.call = update σ.call i { σ.call i with pc := pc })
    (hi : (σ.call i).pc ≠ .idle) (hx : ∀ s, (σ.call i).pc ≠ .xor s)
    (hv : ∀ q, valid (σ'.word q) = valid (σ.word q)) (hd : ∀ q,
      dirty (σ'.word q) = dirty (σ.word q)) :
    Pages L σ' := by
  refine h.move hc hi hx (fun q hq => hv q ▸ hq) fun q hq =>
    ⟨fun hvalid => (hv q).trans hvalid, .inl (hd q ▸ hq)⟩

theorem dirty_setWord_same {p : Page} (w : BitVec 32) (hw : dirty w = dirty (σ.word p)) (q : Page) :
    dirty ((σ.setWord p w).word q) = dirty (σ.word q) := by
  rw [setWord_word]
  split
  · next hq => rw [hq, hw]
  · rfl

theorem Pages.xor (h : Pages L σ) (hc : σ'.call = update σ.call i { σ.call i with pc := pc })
    (hi : (σ.call i).pc ≠ .idle)
    (hv : ∀ q, valid (σ'.word q) = if q = (σ.call i).page then true else valid (σ.word q))
    (hd : ∀ q, dirty (σ'.word q) = dirty (σ.word q)) : Pages L σ' := by
  refine ⟨h.called_moved hc hi, fun p hp => ?_, fun p hp => ?_⟩
  · rw [hv] at hp
    split at hp
    · next he => exact he ▸ h.called i hi
    · exact h.cached p hp
  · rw [hd] at hp
    by_cases he : p = (σ.call i).page
    · exact .inl (by rw [hv, if_pos he])
    · rcases h.marked p hp with hvalid | ⟨j, s, hj, hpage⟩
      · exact .inl (by rw [hv, if_neg he, hvalid])
      · refine .inr ⟨j, s, ?_, (page_moved hc j).trans hpage⟩
        rw [pc_moved hc, if_neg]
        · exact hj
        · rintro rfl
          exact he hpage.symm

theorem Pages.moves (h : Pages L σ) (hinv : PageCache.Inv c σ) (hm : Moves c σ i σ' e) :
    Pages L σ' := by
  cases hm with
  | busied hpc | busiedValid hpc | lost hpc | unbusy hpc | refused hpc | beaten hpc
  | unbusyPrev hpc | evict hpc =>
    exact h.same rfl (by simp [hpc]) (by simp [hpc]) (valid_setWord_same _ (by simp))
      (dirty_setWord_same _ (by simp))
  | reload hpc | search hpc | lockFree hpc | lockUsed hpc | readTranslation hpc | loadState hpc
  | writeBack hpc | setTranslation hpc | unlock hpc | read hpc | setOffset hpc | hitOffset hpc =>
    exact h.same rfl (by simp [hpc]) (by simp [hpc]) (fun _ => rfl) fun _ => rfl
  | @clear s p hpc =>
    have hword : ∀ q, q ≠ p → ((σ.setWord p (σ.word p &&& CNT_MASK)).word q) = σ.word q :=
      fun q hq => update_of_ne hq _ _
    have hself : (σ.setWord p (σ.word p &&& CNT_MASK)).word p = σ.word p &&& CNT_MASK :=
      update_self _ _ _
    refine h.move rfl (by simp [hpc]) (by simp [hpc]) (fun q hq => ?_) fun q hq => ?_
    · by_cases he : q = p
      · subst he
        rw [move_word, hself, valid_clear] at hq
        cases hq
      · rwa [move_word, hword q he] at hq
    · by_cases he : q = p
      · subst he
        rw [move_word, hself, dirty_clear] at hq
        cases hq
      · rw [move_word, hword q he] at hq ⊢
        exact ⟨id, .inl hq⟩
  | @orDirty s hpc =>
    refine h.move rfl (by simp [hpc]) (by simp [hpc]) (fun q hq => ?_) fun q hq =>
      ⟨fun hvalid => ?_, ?_⟩
    · rwa [move_word, valid_setWord_same _ (by simp)] at hq
    · rwa [move_word, valid_setWord_same _ (by simp)]
    · by_cases he : q = (σ.call i).page
      · exact .inr (.inr ⟨s, rfl, he.symm⟩)
      · rw [move_word, setWord_word, if_neg he] at hq
        exact .inl hq
  | hitDirty hpc =>
    refine h.move rfl (by simp [hpc]) (by simp [hpc]) (fun q hq => ?_) fun q hq =>
      ⟨fun hvalid => ?_, ?_⟩
    · rwa [move_word, valid_setWord_same _ (by simp)] at hq
    · rwa [move_word, valid_setWord_same _ (by simp)]
    · by_cases he : q = (σ.call i).page
      · exact .inr (.inl (he ▸ hinv.slots.used i (by simp [hpc])))
      · rw [move_word, setWord_word, if_neg he] at hq
        exact .inl hq
  | xor hpc =>
    have hinvalid := hinv.slots.invalid i (by simp [hpc])
    refine h.xor rfl (by simp [hpc]) (fun q => ?_) (dirty_setWord_same _ (by simp))
    rw [move_word, setWord_word, apply_ite valid, valid_xor, hinvalid]
    rfl

theorem Pages.next (h : Pages L σ) (hinv : PageCache.Inv c σ) {a : Act}
    (ha : ∀ p count write, a = .acquire p count write → L.Has p)
    (hs : PageCache.step c σ a = some (σ', e)) (hlt : ∀ p, refs σ' p < 2^29) : Pages L σ' := by
  have hflags := hinv.flags_of_count hs hlt
  cases a with
  | acquire p count write =>
    have hsame := hflags (by simp)
    simp only [PageCache.step, Option.ite_none_right_eq_some, Option.some.injEq,
      Prod.mk.injEq] at hs
    obtain ⟨-, rfl, -⟩ := hs
    have hp := ha p count write rfl
    refine ⟨fun j hj => ?_, fun q hq => h.cached q ((hsame q).1 ▸ hq), fun q hq => ?_⟩
    · by_cases hb : j = σ.begun
      · simpa [begin, hb] using hp
      · simpa [begin, hb] using h.called j (by simpa [begin, hb] using hj)
    · rcases h.marked q ((hsame q).2.2 ▸ hq) with hvalid | ⟨j, s, hj, hpage⟩
      · exact .inl ((hsame q).1.trans hvalid)
      · have hb : j ≠ σ.begun := by
          rintro rfl
          have hidle := hinv.counts.fresh _ (Nat.le_refl _)
          simp [hidle] at hj
        exact .inr ⟨j, s, by simpa [begin, hb] using hj, by simpa [begin, hb] using hpage⟩
  | run i weak => exact h.moves hinv (moves_of_acquireStep hs)
  | release i k =>
    have hsame := hflags (by simp)
    simp only [PageCache.step, Option.map_eq_some_iff, Prod.mk.injEq] at hs
    obtain ⟨τ, hr, rfl, -⟩ := hs
    obtain ⟨s, left, hpc, hk, rfl⟩ := releasePage_cases hr
    exact h.same rfl (by simp [hpc]) (by simp [hpc]) (fun q => (hsame q).1) fun q => (hsame q).2.2

end Pages

theorem Reached.places (h : Reached c L σ) (hpos : 0 < c.nPages) : Places c σ := by
  induction h with
  | init h => exact ⟨fun i s hs => by simp [h.call, probes] at hs, fun s hs => absurd (h.lock s) hs⟩
  | step hr _ hs _ ih => exact ih.next hr.reach.inv hpos hs

theorem Reached.pages (h : Reached c L σ) : Pages L σ := by
  induction h with
  | init h => constructor <;> simp [h.call, h.word, valid, dirty]
  | step hr ha hs hlt ih => exact ih.next hr.reach.inv ha hs hlt

def pageOf (c : Cache) (σ : State) (s : Nat) : Page := c.pageAt (σ.translation s)

structure AtRest (c : Cache) (L : Layout) (σ : State) : Prop where
  slot : ∀ s, σ.lock s ≠ .free → L.Has (pageOf c σ s) ∧ σ.offset (pageOf c σ s) = s
  has : ∀ p, dirty (σ.word p) = true → L.Has p
  cached : ∀ p, dirty (σ.word p) = true → σ.offset p < c.nPages ∧ pageOf c σ (σ.offset p) = p

theorem Quiescent.placed (h : Quiescent σ) (i : Nat) : (σ.call i).pc.placed = none ∧
    (σ.call i).pc.clears = none := by
  rcases h i with hi | ⟨s, hi⟩ <;> rw [hi] <;> exact ⟨rfl, rfl⟩

theorem Reached.atRest (h : Reached c L σ) (hq : Quiescent σ) (hpos : 0 < c.nPages) :
    AtRest c L σ := by
  have hinv := h.reach.inv
  have hvalid : ∀ p, dirty (σ.word p) = true → valid (σ.word p) = true := by
    intro p hp
    rcases h.pages.marked p hp with hv | ⟨i, s, hi, -⟩
    · exact hv
    · rcases hq i with hidle | ⟨t, hhold⟩
      · simp [hidle] at hi
      · simp [hhold] at hi
  refine ⟨fun s hs => ?_, fun p hp => h.pages.cached p (hvalid p hp), fun p hp => ?_⟩
  · rcases hinv.slots.assigned s hs with ⟨i, hi⟩ | ⟨p, hp, ht, hw⟩
    · rw [(hq.placed i).2] at hi
      cases hi
    · rcases hw with ⟨hv, ho⟩ | ⟨i, hi, -⟩
      · rw [pageOf, ht, Cache.pageAt_globalAddress hp]
        exact ⟨h.pages.cached p hv, ho⟩
      · rw [(hq.placed i).1] at hi
        cases hi
  · obtain ⟨hp', hl, ht⟩ := hinv.slots.home p (hvalid p hp)
    exact ⟨(h.places hpos).used _ hl, by rw [pageOf, ht, Cache.pageAt_globalAddress hp']⟩

end Shaper.CacheAtRest
