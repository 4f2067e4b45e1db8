import Mathlib.Algebra.Order.BigOperators.Group.Finset
import Shaper.Lib.Ownership
import Shaper.PageWord

/-! What holds of the page cache in every reachable state. -/
namespace Shaper.PageCache
open Function Lib.Ownership
variable {c : Cache} {σ σ' : State} {i j k s : Nat} {p q : Page} {e : Effect} {weak : Bool}
  {pc : Pc}

namespace Find
@[simp] def lockSlot : Find → Option Nat
  | .ticket | .loadLock _ | .casFree _ | .casUnlocked _ => none
  | .readTranslation s | .loadState s _ | .orBusy s _ | .writeBack s _ | .clear s _
  | .unbusy s _ | .setTranslation s | .unlock s _ => some s

@[simp] def seen : Find → Option (Nat × Page)
  | .loadState s p | .orBusy s p | .writeBack s p | .clear s p | .unbusy s p => some (s, p)
  | _ => none

@[simp] def evicts : Find → Option (Nat × Page)
  | .writeBack s p | .clear s p => some (s, p)
  | _ => none

@[simp] def busyPage : Find → Option Page
  | .writeBack _ p | .clear _ p | .unbusy _ p => some p
  | _ => none
end Find

namespace Pc
@[simp] def lockSlot : Pc → Option Nat
  | .find f => f.lockSlot
  | _ => none
@[simp] def seen : Pc → Option (Nat × Page)
  | .find f => f.seen
  | _ => none
@[simp] def evicts : Pc → Option (Nat × Page)
  | .find f => f.evicts
  | _ => none
@[simp] def busyPage : Pc → Option Page
  | .find f => f.busyPage
  | _ => none

@[simp] def loads : Pc → Bool
  | .find _ | .read _ | .setOffset _ | .orDirty _ | .xor _ => true
  | _ => false

@[simp] def placed : Pc → Option Nat
  | .find (.unlock s false) | .read s | .setOffset s | .orDirty s | .xor s => some s
  | _ => none

@[simp] def clears : Pc → Option Nat
  | .find (.setTranslation s) => some s
  | _ => none

@[simp] def uses : Pc → Bool
  | .hitDirty | .hitOffset => true
  | .hold _ left => 0 < left
  | _ => false

@[simp] def offsetSlot : Pc → Option Nat
  | .orDirty s | .xor s => some s
  | .hold s left => if 0 < left then some s else none
  | _ => none
end Pc

def Call.ownsBusy (d : Call) (p : Page) : Prop :=
  ((d.pc.loads = true ∨ d.pc = .unbusy) ∧ d.page = p) ∨ d.pc.busyPage = some p

section
variable (σ i pc)
@[simp] theorem move_word : (σ.move i pc).word = σ.word := rfl
@[simp] theorem move_offset : (σ.move i pc).offset = σ.offset := rfl
@[simp] theorem move_lock : (σ.move i pc).lock = σ.lock := rfl
@[simp] theorem move_translation : (σ.move i pc).translation = σ.translation := rfl
@[simp] theorem move_begun : (σ.move i pc).begun = σ.begun := rfl
@[simp] theorem move_call : (σ.move i pc).call = update σ.call i { σ.call i with pc := pc } := rfl
end

theorem pc_update (d : Call) (j : Nat) :
    (update σ.call i d j).pc = if j = i then d.pc else (σ.call j).pc := by
  by_cases h : j = i
  · subst h; simp
  · simp [h]

inductive Moves (c : Cache) (σ : State) (i : Nat) : State → Effect → Prop where
  | busied (hpc : (σ.call i).pc = .orBusy) (hv : valid (σ.word (σ.call i).page) = false)
      (hb : busy (σ.word (σ.call i).page) = false) :
      Moves c σ i ((σ.setWord (σ.call i).page (σ.word (σ.call i).page ||| BUSY)).move i
        (.find .ticket)) .quiet
  | busiedValid (hpc : (σ.call i).pc = .orBusy) (hb : busy (σ.word (σ.call i).page) = false) :
      Moves c σ i ((σ.setWord (σ.call i).page (σ.word (σ.call i).page ||| BUSY)).move i .unbusy)
        .quiet
  | lost (hpc : (σ.call i).pc = .orBusy) (hb : busy (σ.word (σ.call i).page) = true) :
      Moves c σ i ((σ.setWord (σ.call i).page (σ.word (σ.call i).page ||| BUSY)).move i .reload)
        .quiet
  | unbusy (hpc : (σ.call i).pc = .unbusy) :
      Moves c σ i ((σ.setWord (σ.call i).page
        (σ.word (σ.call i).page &&& DISABLE_BUSY_MASK)).move i .reload) .quiet
  | reload {pc : Pc} (hpc : (σ.call i).pc = .reload)
      (hn : pc = dispatch (σ.call i).write (σ.word (σ.call i).page)) :
      Moves c σ i (σ.move i pc) .quiet
  | search {f g : Find} {t : BitVec 32} (hpc : (σ.call i).pc = .find f) (hf : f.lockSlot = none)
      (hg : g.lockSlot = none) : Moves c σ i ({ σ with ticket := t }.move i (.find g)) .quiet
  | lockFree {s : Nat} (hpc : (σ.call i).pc = .find (.casFree s)) (hl : σ.lock s = .free) :
      Moves c σ i ((σ.setLock s .locked).move i (.find (.setTranslation s))) .quiet
  | lockUsed {s : Nat} (hpc : (σ.call i).pc = .find (.casUnlocked s)) (hl : σ.lock s = .unlocked) :
      Moves c σ i ((σ.setLock s .locked).move i (.find (.readTranslation s))) .quiet
  | readTranslation {s : Nat} (hpc : (σ.call i).pc = .find (.readTranslation s)) :
      Moves c σ i (σ.move i (.find (.loadState s (c.pageAt (σ.translation s))))) .quiet
  | loadState {s : Nat} {p : Page} {f : Find} (hpc : (σ.call i).pc = .find (.loadState s p))
      (hf : f = .orBusy s p ∨ f = .unlock s true) : Moves c σ i (σ.move i (.find f)) .quiet
  | evict {s : Nat} {p : Page} {f : Find} (hpc : (σ.call i).pc = .find (.orBusy s p))
      (hb : busy (σ.word p) = false) (hc : cnt (σ.word p) = 0)
      (hf : f = .writeBack s p ∨ f = .clear s p ∧ dirty (σ.word p) = false) :
      Moves c σ i ((σ.setWord p (σ.word p ||| BUSY)).move i (.find f)) .quiet
  | refused {s : Nat} {p : Page} (hpc : (σ.call i).pc = .find (.orBusy s p))
      (hb : busy (σ.word p) = false) :
      Moves c σ i ((σ.setWord p (σ.word p ||| BUSY)).move i (.find (.unbusy s p))) .quiet
  | beaten {s : Nat} {p : Page} (hpc : (σ.call i).pc = .find (.orBusy s p))
      (hb : busy (σ.word p) = true) :
      Moves c σ i ((σ.setWord p (σ.word p ||| BUSY)).move i (.find (.unlock s true))) .quiet
  | writeBack {s : Nat} {p : Page} (hpc : (σ.call i).pc = .find (.writeBack s p)) :
      Moves c σ i (σ.move i (.find (.clear s p))) (.writeBack s p)
  | clear {s : Nat} {p : Page} (hpc : (σ.call i).pc = .find (.clear s p)) :
      Moves c σ i ((σ.setWord p (σ.word p &&& CNT_MASK)).move i (.find (.setTranslation s))) .quiet
  | unbusyPrev {s : Nat} {p : Page} (hpc : (σ.call i).pc = .find (.unbusy s p)) :
      Moves c σ i ((σ.setWord p (σ.word p &&& DISABLE_BUSY_MASK)).move i (.find (.unlock s true)))
        .quiet
  | setTranslation {s : Nat} (hpc : (σ.call i).pc = .find (.setTranslation s)) :
      Moves c σ i ((σ.setTranslation s (c.globalAddress (σ.call i).page)).move i
        (.find (.unlock s false))) .quiet
  | unlock {s : Nat} {fail : Bool} {pc : Pc} (hpc : (σ.call i).pc = .find (.unlock s fail))
      (hf : pc = if fail then .find .ticket else .read s) :
      Moves c σ i ((σ.setLock s .unlocked).move i pc) .quiet
  | read {s : Nat} (hpc : (σ.call i).pc = .read s) :
      Moves c σ i (σ.move i (.setOffset s)) (.read s (σ.call i).page)
  | setOffset {s : Nat} {pc : Pc} (hpc : (σ.call i).pc = .setOffset s)
      (hw : pc = if (σ.call i).write then .orDirty s else .xor s) :
      Moves c σ i ((σ.setOffset (σ.call i).page s).move i pc) .quiet
  | orDirty {s : Nat} (hpc : (σ.call i).pc = .orDirty s) :
      Moves c σ i ((σ.setWord (σ.call i).page (σ.word (σ.call i).page ||| DIRTY)).move i (.xor s))
        .quiet
  | xor {s : Nat} (hpc : (σ.call i).pc = .xor s) :
      Moves c σ i ((σ.setWord (σ.call i).page
        (σ.word (σ.call i).page ^^^ DISABLE_BUSY_ENABLE_VALID)).move i (.hold s (σ.call i).count))
        .quiet
  | hitDirty (hpc : (σ.call i).pc = .hitDirty) :
      Moves c σ i ((σ.setWord (σ.call i).page (σ.word (σ.call i).page ||| DIRTY)).move i .hitOffset)
        .quiet
  | hitOffset (hpc : (σ.call i).pc = .hitOffset) :
      Moves c σ i (σ.move i (.hold (σ.offset (σ.call i).page) (σ.call i).count)) .quiet

theorem lockSlot_dispatch (write : Bool) (w : BitVec 32) : (dispatch write w).lockSlot = none := by
  obtain ⟨h, -⟩ | ⟨h, -⟩ | ⟨h, -⟩ | h := dispatch_cases write w <;> rw [h] <;> rfl

theorem moves_findSlot {f : Find} (hf : (σ.call i).pc = .find f) :
    Moves c σ i (findSlot c σ i weak f).1 (findSlot c σ i weak f).2 := by
  cases f with
  | ticket => exact .search hf rfl rfl
  | loadLock s =>
    simp only [findSlot]
    cases σ.lock s <;> exact .search (t := σ.ticket) hf rfl rfl
  | casFree s =>
    simp only [findSlot]
    split
    · next h => exact .lockFree hf h.1
    · exact .search (t := σ.ticket) hf rfl rfl
  | casUnlocked s =>
    simp only [findSlot]
    split
    · next h => exact .lockUsed hf h.1
    · exact .search (t := σ.ticket) hf rfl rfl
  | readTranslation s => exact .readTranslation hf
  | loadState s p => exact .loadState hf (afterLoad_cases s p (σ.word p))
  | orBusy s p =>
    simp only [findSlot]
    obtain ⟨h, hb, hc, hd⟩ | ⟨h, hb, hc⟩ | ⟨h, hb⟩ | ⟨h, hb⟩ := afterEvictOr_cases s p (σ.word p)
      <;> rw [h]
    · exact .evict hf hb hc (.inr ⟨rfl, hd⟩)
    · exact .evict hf hb hc (.inl rfl)
    · exact .refused hf hb
    · exact .beaten hf hb
  | writeBack s p => exact .writeBack hf
  | clear s p => exact .clear hf
  | unbusy s p => exact .unbusyPrev hf
  | setTranslation s => exact .setTranslation hf
  | unlock s fail => exact .unlock hf rfl

theorem moves_of_acquireStep (h : acquireStep c σ i weak = some (σ', e)) : Moves c σ i σ' e := by
  unfold acquireStep at h
  cases hpc : (σ.call i).pc with
  | idle => simp [hpc] at h
  | hold s left => simp [hpc] at h
  | orBusy =>
    simp only [hpc, Option.some.injEq, Prod.mk.injEq] at h
    obtain ⟨rfl, rfl⟩ := h
    obtain ⟨h, hv, hb⟩ | ⟨h, hb⟩ | ⟨h, hb⟩ := afterOr_cases (σ.word (σ.call i).page) <;> rw [h]
    · exact .busied hpc hv hb
    · exact .busiedValid hpc hb
    · exact .lost hpc hb
  | find f =>
    simp only [hpc, Option.some.injEq] at h
    have hm : Moves c σ i (findSlot c σ i weak f).1 (findSlot c σ i weak f).2 := moves_findSlot hpc
    rwa [h] at hm
  | _ =>
    simp only [hpc, Option.some.injEq, Prod.mk.injEq] at h
    obtain ⟨rfl, rfl⟩ := h
    first
      | exact .unbusy hpc
      | exact .reload hpc rfl
      | exact .read hpc
      | exact .setOffset hpc rfl
      | exact .orDirty hpc
      | exact .xor hpc
      | exact .hitDirty hpc
      | exact .hitOffset hpc

/-! Both kinds of lock: `page_take_lock` of a slot and BUSY of a page. -/

def LockOk (σ : State) : Prop :=
  Exclusive (fun s => σ.lock s = .locked) (fun i s => (σ.call i).pc.lockSlot = some s)

theorem LockOk.same (h : LockOk σ) (hl : σ'.lock = σ.lock)
    (hc : σ'.call = update σ.call i { σ.call i with pc := pc })
    (hp : pc.lockSlot = (σ.call i).pc.lockSlot) : LockOk σ' := by
  refine Exclusive.congr h (fun s => by rw [hl]) fun j s => ?_
  rw [hc, pc_update]
  split
  · next hj => rw [hp, hj]
  · rfl

theorem LockOk.lock (h : LockOk σ) (hfree : σ.lock s ≠ .locked)
    (hl : σ'.lock = update σ.lock s .locked)
    (hc : σ'.call = update σ.call i { σ.call i with pc := pc })
    (hn : (σ.call i).pc.lockSlot = none) (hp : pc.lockSlot = some s) : LockOk σ' := by
  refine Exclusive.take (i := i) (r := s) h hfree (fun t => ?_) fun j t => ?_
  · rw [hl]
    by_cases ht : t = s <;> simp [ht]
  · rw [hc, pc_update]
    by_cases hj : j = i
    · simp [-Pc.lockSlot, hj, hn, hp, eq_comm]
    · simp [hj]

theorem LockOk.unlock (h : LockOk σ) (hi : (σ.call i).pc.lockSlot = some s)
    (hl : σ'.lock = update σ.lock s .unlocked)
    (hc : σ'.call = update σ.call i { σ.call i with pc := pc }) (hp : pc.lockSlot = none) :
    LockOk σ' := by
  refine Exclusive.drop (i := i) (r := s) h hi (fun t => ?_) fun j t => ?_
  · rw [hl]
    by_cases ht : t = s <;> simp [ht]
  · rw [hc, pc_update]
    by_cases hj : j = i
    · subst hj
      simp [-Pc.lockSlot, hi, hp, eq_comm]
    · simp [hj]

theorem LockOk.moves (h : LockOk σ) (hm : Moves c σ i σ' e) : LockOk σ' := by
  cases hm with
  | lockFree hpc hl => exact h.lock (by simp [hl]) rfl rfl (by rw [hpc]; rfl) rfl
  | lockUsed hpc hl => exact h.lock (by simp [hl]) rfl rfl (by rw [hpc]; rfl) rfl
  | unlock hpc hf =>
    refine h.unlock (by rw [hpc]; rfl) rfl rfl ?_
    subst hf
    split <;> rfl
  | search hpc hf hg => exact h.same rfl rfl (by rw [hpc]; exact hg.trans hf.symm)
  | reload hpc hn => exact h.same rfl rfl (by rw [hpc, hn, lockSlot_dispatch]; rfl)
  | loadState hpc hf => exact h.same rfl rfl (by rw [hpc]; rcases hf with rfl | rfl <;> rfl)
  | evict hpc hb hc hf =>
    exact h.same rfl rfl (by rw [hpc]; rcases hf with rfl | ⟨rfl, -⟩ <;> rfl)
  | setOffset hpc hw => exact h.same rfl rfl (by rw [hpc, hw]; split <;> rfl)
  | busied hpc | busiedValid hpc | lost hpc | unbusy hpc | readTranslation hpc | refused hpc
  | beaten hpc | writeBack hpc | clear hpc | unbusyPrev hpc | setTranslation hpc | read hpc
  | orDirty hpc | xor hpc | hitDirty hpc | hitOffset hpc =>
    exact h.same rfl rfl (by rw [hpc]; rfl)

structure BusyOk (σ : State) : Prop where
  excl : Exclusive (fun p => busy (σ.word p) = true) (fun i p => (σ.call i).ownsBusy p)
  other : ∀ i p, (σ.call i).pc.busyPage = some p → (σ.call i).page ≠ p

theorem ownsBusy_moved (hc : σ'.call = update σ.call i { σ.call i with pc := pc }) (j : Nat)
    (q : Page) :
    (σ'.call j).ownsBusy q ↔
    if j = i then Call.ownsBusy { σ.call i with pc := pc } q else (σ.call j).ownsBusy q := by
  rw [hc]
  by_cases hj : j = i
  · subst hj; simp
  · simp [hj]

theorem BusyOk.other_moved (h : BusyOk σ)
    (hc : σ'.call = update σ.call i { σ.call i with pc := pc })
    (hp : ∀ q, pc.busyPage = some q → (σ.call i).page ≠ q) :
    ∀ j q, (σ'.call j).pc.busyPage = some q → (σ'.call j).page ≠ q := by
  intro j q
  rw [hc]
  by_cases hj : j = i
  · subst hj
    simpa using hp q
  · simpa [hj] using h.other j q

theorem BusyOk.same (h : BusyOk σ)
    (hc : σ'.call = update σ.call i { σ.call i with pc := pc })
    (hb : ∀ q, busy (σ'.word q) = busy (σ.word q))
    (ho : ∀ q, Call.ownsBusy { σ.call i with pc := pc } q ↔ (σ.call i).ownsBusy q)
    (hp : ∀ q, pc.busyPage = some q → (σ.call i).page ≠ q) : BusyOk σ' where
  excl := by
    refine Exclusive.congr h.excl (fun q => by rw [hb]) fun j q => ?_
    rw [ownsBusy_moved hc]
    split
    · next hj => rw [ho, hj]
    · rfl
  other := h.other_moved hc hp

theorem BusyOk.take (h : BusyOk σ)
    (hc : σ'.call = update σ.call i { σ.call i with pc := pc }) (hfree : busy (σ.word p) = false)
    (hb : ∀ q, busy (σ'.word q) = if q = p then true else busy (σ.word q))
    (ho : ∀ q, Call.ownsBusy { σ.call i with pc := pc } q ↔ (σ.call i).ownsBusy q ∨ q = p)
    (hp : ∀ q, pc.busyPage = some q → (σ.call i).page ≠ q) : BusyOk σ' where
  excl := by
    refine Exclusive.take (i := i) (r := p) h.excl (by simp [hfree]) (fun q => ?_) fun j q => ?_
    · rw [hb]
      by_cases hq : q = p <;> simp [hq]
    · rw [ownsBusy_moved hc]
      by_cases hj : j = i
      · simp [hj, ho]
      · simp [hj]
  other := h.other_moved hc hp

theorem BusyOk.drop (h : BusyOk σ)
    (hc : σ'.call = update σ.call i { σ.call i with pc := pc }) (hi : (σ.call i).ownsBusy p)
    (hb : ∀ q, busy (σ'.word q) = if q = p then false else busy (σ.word q))
    (ho : ∀ q, Call.ownsBusy { σ.call i with pc := pc } q ↔ (σ.call i).ownsBusy q ∧ q ≠ p)
    (hp : ∀ q, pc.busyPage = some q → (σ.call i).page ≠ q) : BusyOk σ' where
  excl := by
    refine Exclusive.drop (i := i) (r := p) h.excl hi (fun q => ?_) fun j q => ?_
    · rw [hb]
      by_cases hq : q = p <;> simp [hq]
    · rw [ownsBusy_moved hc]
      by_cases hj : j = i
      · simp [hj, ho]
      · simp [hj]
  other := h.other_moved hc hp

theorem setWord_word (w : BitVec 32) (q : Page) :
    (σ.setWord p w).word q = if q = p then w else σ.word q := by
  by_cases h : q = p
  · subst h; simp [State.setWord]
  · simp [State.setWord, h]

theorem busy_setWord_same (w : BitVec 32) (hw : busy w = busy (σ.word p)) (q : Page) :
    busy ((σ.setWord p w).word q) = busy (σ.word q) := by
  rw [setWord_word]
  split
  · next h => rw [hw, h]
  · rfl

theorem busy_setWord (w : BitVec 32) (q : Page) :
    busy ((σ.setWord p w).word q) = if q = p then busy w else busy (σ.word q) := by
  rw [setWord_word, apply_ite busy]

theorem busyPage_of_lockSlot {f : Find} (h : f.lockSlot = none) : f.busyPage = none := by
  cases f <;> simp_all

theorem not_ownsBusy_dispatch (d : Call) (write : Bool) (w : BitVec 32) (q : Page) :
    ¬Call.ownsBusy { d with pc := dispatch write w } q := by
  obtain ⟨h, -⟩ | ⟨h, -⟩ | ⟨h, -⟩ | h := dispatch_cases write w <;> simp [Call.ownsBusy, h]

theorem BusyOk.busy_page (h : BusyOk σ) (hl : (σ.call i).pc.loads = true) :
    busy (σ.word (σ.call i).page) = true :=
  h.excl.held_of_owns i _ (.inl ⟨.inl hl, rfl⟩)

theorem BusyOk.moves (h : BusyOk σ) (hm : Moves c σ i σ' e) : BusyOk σ' := by
  cases hm with
  | busied hpc hv hb =>
    exact h.take rfl hb (by simp [busy_setWord]) (by simp [Call.ownsBusy, hpc, eq_comm]) (by simp)
  | busiedValid hpc hb =>
    exact h.take rfl hb (by simp [busy_setWord]) (by simp [Call.ownsBusy, hpc, eq_comm]) (by simp)
  | lost hpc hb =>
    exact h.same rfl (busy_setWord_same _ (by simp [hb])) (by simp [Call.ownsBusy, hpc]) (by simp)
  | unbusy hpc =>
    refine h.drop rfl (.inl ⟨.inr hpc, rfl⟩) (by simp [busy_setWord]) (fun q => ?_) (by simp)
    simp [Call.ownsBusy, hpc, eq_comm]
  | reload hpc hn =>
    subst hn
    refine h.same rfl (fun _ => rfl) (fun q => ?_) (fun q hq => ?_)
    · have hold : ¬(σ.call i).ownsBusy q := by simp [Call.ownsBusy, hpc]
      exact iff_of_false (not_ownsBusy_dispatch (σ.call i) _ _ q) hold
    · exact absurd (.inr hq) (not_ownsBusy_dispatch (σ.call i) _ _ q)
  | search hpc hf hg =>
    have hf' := busyPage_of_lockSlot hf
    have hg' := busyPage_of_lockSlot hg
    exact h.same rfl (fun _ => rfl) (by simp [-Find.busyPage, Call.ownsBusy, hpc, hf', hg'])
      (by simp [-Find.busyPage, hg'])
  | loadState hpc hf =>
    rcases hf with rfl | rfl <;>
      exact h.same rfl (fun _ => rfl) (by simp [Call.ownsBusy, hpc]) (by simp)
  | evict hpc hb hc hf =>
    have hne := h.busy_page (i := i) (by simp [hpc])
    rcases hf with rfl | ⟨rfl, -⟩ <;>
      refine h.take rfl hb (by simp [busy_setWord]) (by simp [Call.ownsBusy, hpc, eq_comm]) ?_
    all_goals
      rintro q hq rfl
      simp only [Pc.busyPage, Find.busyPage, Option.some.injEq] at hq
      simp [← hq, hb] at hne
  | refused hpc hb =>
    have hne := h.busy_page (i := i) (by simp [hpc])
    refine h.take rfl hb (by simp [busy_setWord]) (by simp [Call.ownsBusy, hpc, eq_comm]) ?_
    rintro q hq rfl
    simp only [Pc.busyPage, Find.busyPage, Option.some.injEq] at hq
    simp [← hq, hb] at hne
  | beaten hpc hb =>
    exact h.same rfl (busy_setWord_same _ (by simp [hb])) (by simp [Call.ownsBusy, hpc]) (by simp)
  | writeBack hpc =>
    exact h.same rfl (fun _ => rfl) (by simp [Call.ownsBusy, hpc])
      fun q hq => h.other i q (by simpa [hpc] using hq)
  | @clear s p hpc | @unbusyPrev s p hpc =>
    have hne := h.other i p (by simp [hpc])
    refine h.drop (p := p) rfl (.inr (by simp [hpc])) (by simp [busy_setWord]) (fun q => ?_)
      (by simp)
    simp only [Call.ownsBusy, hpc]
    grind [Pc.loads, Pc.busyPage, Find.busyPage]
  | unlock hpc hf =>
    subst hf
    refine h.same rfl (fun _ => rfl) (fun q => ?_) ?_
    · split <;> simp [Call.ownsBusy, hpc]
    · split <;> simp
  | setOffset hpc hw =>
    subst hw
    refine h.same rfl (fun _ => rfl) (fun q => ?_) ?_
    · split <;> simp [Call.ownsBusy, hpc]
    · split <;> simp
  | orDirty hpc =>
    exact h.same rfl (busy_setWord_same _ (by simp)) (by simp [Call.ownsBusy, hpc]) (by simp)
  | xor hpc =>
    have hb := h.busy_page (i := i) (by simp [hpc])
    exact h.drop (p := (σ.call i).page) rfl (.inl ⟨.inl (by simp [hpc]), rfl⟩)
      (by simp [busy_setWord, hb]) (by simp [Call.ownsBusy, hpc, eq_comm]) (by simp)
  | hitDirty hpc =>
    exact h.same rfl (busy_setWord_same _ (by simp)) (by simp [Call.ownsBusy, hpc]) (by simp)
  | lockFree hpc | lockUsed hpc | readTranslation hpc | setTranslation hpc | read hpc
  | hitOffset hpc =>
    exact h.same rfl (fun _ => rfl) (by simp [Call.ownsBusy, hpc]) (by simp)

/-! The count of a page is the number of references that calls have to it. -/

namespace Pc
def pending : Pc → Bool
  | .idle | .hold _ _ => false
  | _ => true
end Pc

theorem refs_of_pending {d : Call} (h : d.pc.pending = true) (q : Page) :
    d.refs q = if d.page = q then d.count else 0 := by
  unfold Call.refs
  cases hpc : d.pc <;> simp_all [Pc.pending]

theorem pending_dispatch (write : Bool) (w : BitVec 32) : (dispatch write w).pending = true := by
  obtain ⟨h, -⟩ | ⟨h, -⟩ | ⟨h, -⟩ | h := dispatch_cases write w <;> rw [h] <;> rfl

theorem cnt_setWord_same (w : BitVec 32) (hw : cnt w = cnt (σ.word p)) (q : Page) :
    cnt ((σ.setWord p w).word q) = cnt (σ.word q) := by
  rw [setWord_word]
  split
  · next h => rw [hw, h]
  · rfl

/-- No step of a call between its first `fetch_add` and its return touches a count. -/
theorem Moves.frame (h : Moves c σ i σ' e) : ∃ pc, (σ.call i).pc.pending = true ∧
    σ'.call = update σ.call i { σ.call i with pc := pc } ∧ σ'.begun = σ.begun ∧
    (pc.pending = true ∨ ∃ s, pc = .hold s (σ.call i).count) ∧
    ∀ q, cnt (σ'.word q) = cnt (σ.word q) := by
  cases h with
  | reload hpc hn =>
    exact ⟨_, by simp [hpc, Pc.pending], rfl, rfl, .inl (hn ▸ pending_dispatch _ _), fun _ => rfl⟩
  | unlock hpc hf | setOffset hpc hf =>
    refine ⟨_, by simp [hpc, Pc.pending], rfl, rfl, .inl ?_, fun _ => rfl⟩
    subst hf
    split <;> rfl
  | xor hpc =>
    exact ⟨_, by simp [hpc, Pc.pending], rfl, rfl, .inr ⟨_, rfl⟩, cnt_setWord_same _ (by simp)⟩
  | hitOffset hpc =>
    exact ⟨_, by simp [hpc, Pc.pending], rfl, rfl, .inr ⟨_, rfl⟩, fun _ => rfl⟩
  | search hpc | lockFree hpc | lockUsed hpc | readTranslation hpc | loadState hpc | writeBack hpc
  | setTranslation hpc | read hpc =>
    exact ⟨_, by simp [hpc, Pc.pending], rfl, rfl, .inl rfl, fun _ => rfl⟩
  | busied hpc | busiedValid hpc | lost hpc | unbusy hpc | evict hpc | refused hpc | beaten hpc
  | clear hpc | unbusyPrev hpc | orDirty hpc | hitDirty hpc =>
    exact ⟨_, by simp [hpc, Pc.pending], rfl, rfl, .inl rfl, cnt_setWord_same _ (by simp)⟩

structure CountOk (σ : State) : Prop where
  fresh : ∀ j, σ.begun ≤ j → (σ.call j).pc = .idle
  pos : ∀ j, (σ.call j).pc ≠ .idle → 0 < (σ.call j).count
  count : ∀ p, cnt (σ.word p) = refs σ p

theorem refs_congr (hb : σ'.begun = σ.begun) {d : Call} (hc : σ'.call = update σ.call i d)
    (hd : d.refs p = (σ.call i).refs p) : refs σ' p = refs σ p := by
  unfold refs
  rw [hb, hc]
  refine Finset.sum_congr rfl fun j _ => ?_
  by_cases hj : j = i
  · subst hj; simpa using hd
  · simp [hj]

theorem CountOk.lt (h : CountOk σ) (hi : (σ.call i).pc ≠ .idle) : i < σ.begun :=
  Nat.lt_of_not_le fun hle => hi (h.fresh i hle)

theorem CountOk.fresh_update (h : CountOk σ) (hb : σ'.begun = σ.begun) {d : Call}
    (hc : σ'.call = update σ.call i d) (hi : (σ.call i).pc ≠ .idle) (j : Nat)
    (hj : σ'.begun ≤ j) : (σ'.call j).pc = .idle := by
  have hlt := h.lt hi
  rw [hb] at hj
  rw [hc, pc_update, if_neg (by omega)]
  exact h.fresh j hj

theorem CountOk.pos_update (h : CountOk σ)
    (hc : σ'.call = update σ.call i { σ.call i with pc := pc }) (hi : (σ.call i).pc ≠ .idle)
    (j : Nat) (hj : (σ'.call j).pc ≠ .idle) : 0 < (σ'.call j).count := by
  rw [hc] at hj ⊢
  by_cases he : j = i
  · subst he
    simpa using h.pos j hi
  · simp only [update_of_ne he] at hj ⊢
    exact h.pos j hj

theorem CountOk.moves (h : CountOk σ) (hm : Moves c σ i σ' e) : CountOk σ' := by
  obtain ⟨pc, hp, hc, hb, hn, hw⟩ := hm.frame
  have hi : (σ.call i).pc ≠ .idle := by
    intro he
    simp [he, Pc.pending] at hp
  refine ⟨h.fresh_update hb hc hi, h.pos_update hc hi, fun q => ?_⟩
  rw [hw, h.count q]
  refine (refs_congr hb hc ?_).symm
  rw [refs_of_pending hp]
  rcases hn with hn | ⟨s, rfl⟩
  · rw [refs_of_pending hn]
  · simp [Call.refs]

theorem refs_begin (count : Nat) (write : Bool) (q : Page) :
    refs (begin σ p count write) q = refs σ q+if p = q then count else 0 := by
  have hold : ∀ j ∈ Finset.range σ.begun,
      ((begin σ p count write).call j).refs q = (σ.call j).refs q := by
    intro j hj
    have : j ≠ σ.begun := Nat.ne_of_lt (Finset.mem_range.mp hj)
    simp [begin, this]
  have hnew : ((begin σ p count write).call σ.begun).refs q = if p = q then count else 0 := by
    rw [refs_of_pending] <;> simp [begin, pending_dispatch]
  have hbegun : (begin σ p count write).begun = σ.begun+1 := rfl
  rw [refs, hbegun, Finset.sum_range_succ, hnew, Finset.sum_congr rfl hold]
  rfl

theorem CountOk.begin (h : CountOk σ) {count : Nat} {write : Bool} (hpos : 0 < count)
    (hlt : ∀ q, refs (begin σ p count write) q < 2^29) : CountOk (begin σ p count write) where
  fresh j hj := by
    have hbegun : (PageCache.begin σ p count write).begun = σ.begun+1 := rfl
    have hne : j ≠ σ.begun := by omega
    simpa [PageCache.begin, hne] using h.fresh j (by omega)
  pos j hj := by
    by_cases hne : j = σ.begun
    · simpa [PageCache.begin, hne] using hpos
    · simp only [PageCache.begin, update_of_ne hne] at hj ⊢
      exact h.pos j hj
  count q := by
    have hq := hlt q
    rw [refs_begin] at hq ⊢
    simp only [PageCache.begin]
    by_cases hp : q = p
    · subst hp
      simp only [if_true, update_self] at hq ⊢
      rw [cnt_add (by rw [h.count]; exact hq), h.count]
    · simp [hp, Ne.symm hp, h.count]

theorem refs_le (hi : i < σ.begun) : (σ.call i).refs p ≤ refs σ p :=
  Finset.single_le_sum (f := fun i => (σ.call i).refs p) (fun _ _ => Nat.zero_le _)
    (Finset.mem_range.mpr hi)

theorem refs_release {s left : Nat} (hi : i < σ.begun) (hpc : (σ.call i).pc = .hold s left)
    (hb : σ'.begun = σ.begun)
    (hc : σ'.call = update σ.call i { σ.call i with pc := .hold s (left-k) }) (hk : k ≤ left) :
    refs σ p = refs σ' p+if (σ.call i).page = p then k else 0 := by
  have hi' := Finset.mem_range.mpr hi
  unfold refs
  rw [hb, ← Finset.add_sum_erase _ _ hi', ← Finset.add_sum_erase (Finset.range σ.begun)
    (fun j => (σ'.call j).refs p) hi']
  have hsame : ∀ j ∈ (Finset.range σ.begun).erase i, (σ'.call j).refs p = (σ.call j).refs p := by
    intro j hj
    rw [hc, update_of_ne (Finset.ne_of_mem_erase hj)]
  rw [Finset.sum_congr rfl hsame, hc, update_self]
  simp only [Call.refs, hpc]
  split <;> omega

theorem releasePage_cases (h : releasePage σ i k = some σ') : ∃ s left,
    (σ.call i).pc = .hold s left ∧ k ≤ left ∧
    σ' = (σ.setWord (σ.call i).page (σ.word (σ.call i).page-BitVec.ofNat 32 k)).move i
      (.hold s (left-k)) := by
  unfold releasePage at h
  cases hpc : (σ.call i).pc with
  | hold s left =>
    simp only [hpc, Option.ite_none_right_eq_some, Option.some.injEq] at h
    exact ⟨s, left, rfl, h.1, h.2.symm⟩
  | _ => simp [hpc] at h

theorem CountOk.left_le (h : CountOk σ) {left : Nat} (hpc : (σ.call i).pc = .hold s left) :
    left ≤ cnt (σ.word (σ.call i).page) := by
  have hi : i < σ.begun := h.lt (by simp [hpc])
  have hrefs : (σ.call i).refs (σ.call i).page = left := by simp [Call.refs, hpc]
  rw [h.count, ← hrefs]
  exact refs_le hi

theorem CountOk.release (h : CountOk σ) (hr : releasePage σ i k = some σ') : CountOk σ' := by
  obtain ⟨s, left, hpc, hk, rfl⟩ := releasePage_cases hr
  have hi : (σ.call i).pc ≠ .idle := by simp [hpc]
  have hle := h.left_le hpc
  refine ⟨h.fresh_update rfl rfl hi, h.pos_update rfl hi, fun q => ?_⟩
  generalize hw : σ.word (σ.call i).page-BitVec.ofNat 32 k = w
  have hrefs : refs σ q = refs ((σ.setWord (σ.call i).page w).move i (.hold s (left-k))) q+
      if (σ.call i).page = q then k else 0 := refs_release (h.lt hi) hpc rfl rfl hk
  rw [move_word, setWord_word]
  by_cases hq : q = (σ.call i).page
  · subst hq
    rw [if_pos rfl] at hrefs ⊢
    rw [← hw, cnt_sub (by omega), h.count, hw, hrefs]
    exact Nat.add_sub_cancel _ _
  · rw [if_neg (Ne.symm hq)] at hrefs
    rw [if_neg hq, h.count, hrefs]
    rfl

end Shaper.PageCache
