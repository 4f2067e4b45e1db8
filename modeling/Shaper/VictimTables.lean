import Mathlib.Data.Nat.ModEq
import Mathlib.Logic.Equiv.Basic
import Shaper.Lib.Exec
import Shaper.VictimOwnership

/-! Where the buffers are. The swaps of the victim paths go through the address tables cell by
cell and side by side; in every reachable state the tables name the buffers of the start, each
once, and an occupied entry keeps its buffer for itself. -/
namespace Shaper.VictimBuffer
open Function Lib.Exchange

variable {u : Setup} {s s' : State} {i v : Nat} {pc : Pc} {j : Job} {st : Stage (BitVec 64)}
  {σ : Equiv.Perm Holder} {h : Holder}

def Pc.swapping : Pc → Option (Job × Stage (BitVec 64))
  | .swap j st => some (j, st)
  | _ => none

theorem Pc.eq_swap (h : pc.swapping = some (j, st)) : pc = .swap j st := by
  cases pc <;> cases h
  rfl

def InSwap (s : State) (h : Holder) : Prop :=
  ∃ i j st, (s.thread i).swapping = some (j, st) ∧ (h = .page j.page ∨ h = .entry j.entry)

def Wins (s s' : State) : Prop :=
  ∃ i j, s.thread i = .cas j ∧ s.states j.entry = .free ∧ s' = { s with
    states := update s.states j.entry .copying, thread := update s.thread i (.swap j (.loadA 0)) }

structure Tables (u : Setup) (s : State) (σ : Equiv.Perm Holder) : Prop where
  has : ∀ h, u.Has (σ h) ↔ u.Has h
  settled : ∀ h, u.Has h → ¬InSwap s h → ∀ c < u.ppe+1, s.row u h c = u.row (σ h) c
  swap : ∀ i j st, (s.thread i).swapping = some (j, st) →
    Halfway (u.ppe+1) (s.row u) (.page j.page) (.entry j.entry)
      (u.row (σ (.page j.page))) (u.row (σ (.entry j.entry))) st

theorem page_ne_entry (p v : Nat) : Holder.page p ≠ .entry v := fun h => by cases h

theorem flat_inj {n p p' k k' : Nat} (hk : k < n) (hk' : k' < n) (h : p*n+k = p'*n+k') :
    p = p' ∧ k = k' := by
  have hn : 0 < n := by omega
  have hdiv := (Nat.div_mod_unique hn).2 ⟨by rw [Nat.mul_comm n p, Nat.add_comm], hk⟩
  have hdiv' := (Nat.div_mod_unique hn).2 ⟨by rw [Nat.mul_comm n p', Nat.add_comm], hk'⟩
  rw [h] at hdiv
  exact ⟨hdiv.1.symm.trans hdiv'.1, hdiv.2.symm.trans hdiv'.2⟩

theorem flat_update {n p k p' k' : Nat} (hk : k < n) (hk' : k' < n) (f : Nat → BitVec 64)
    (x : BitVec 64) (hne : p' ≠ p ∨ k' ≠ k) : update f (p*n+k) x (p'*n+k') = f (p'*n+k') := by
  refine update_of_ne (fun heq => ?_) _ _
  obtain ⟨hp, hk⟩ := flat_inj hk' hk heq
  rcases hne with hne | hne
  · exact hne hp
  · exact hne hk

theorem stored_setCell (s : State) (h : Holder) {c : Nat} (hc : c < u.ppe+1) (x : BitVec 64) :
    Stored (u.ppe+1) (s.row u) ((s.setCell u h c x).row u) h c x := by
  refine ⟨?_, fun c' hc' hne => ?_, fun h' hne c' hc' => ?_⟩
  · cases h <;> cases c <;> exact update_self _ _ _
  · cases h <;> cases c <;> cases c'
    all_goals first
      | exact absurd rfl hne
      | rfl
      | refine flat_update (Nat.lt_of_succ_lt_succ hc) (Nat.lt_of_succ_lt_succ hc') _ _
          (.inr fun heq => hne ?_)
        rw [heq]
  · cases h <;> cases h' <;> cases c <;> cases c'
    all_goals first
      | rfl
      | exact update_of_ne (fun heq => hne (by rw [heq])) _ _
      | refine flat_update (Nat.lt_of_succ_lt_succ hc) (Nat.lt_of_succ_lt_succ hc') _ _
          (.inl fun heq => hne ?_)
        rw [heq]

theorem swapping_iff (s s' : State) (i : Nat) (pc : Pc) (ht : s'.thread = update s.thread i pc)
    (k : Nat) (x : Job × Stage (BitVec 64)) :
    (s'.thread k).swapping = some x ↔ k = i ∧ pc.swapping = some x ∨ k ≠ i ∧
    (s.thread k).swapping = some x := by
  rw [ht]
  by_cases hk : k = i
  · simp only [hk, update_self, true_and, ne_eq, not_true_eq_false, false_and, or_false]
  · simp only [update_of_ne hk, hk, false_and, ne_eq, not_false_eq_true, true_and, false_or]

theorem swap_alone (hc : Control u s) (he : Entries u s) {k : Nat} {j' : Job}
    {st' : Stage (BitVec 64)}
    (hi : s.thread i = .swap j st) (hk : (s.thread k).swapping = some (j', st')) (hne : k ≠ i) :
    j'.page ≠ j.page ∧ j'.entry ≠ j.entry := by
  have hswap := Pc.eq_swap hk
  refine ⟨fun heq => hne (hc.locks.unique k i j.page ?_ ?_), fun heq => ?_⟩
  · rw [hswap, ← heq]
    rfl
  · rw [hi]
    rfl
  · have hown := he.owners.unique (.inl k) (.inl i) j.entry ⟨.copying, by rw [hswap, ← heq]; rfl⟩
      ⟨.copying, by rw [hi]; rfl⟩
    exact hne (Sum.inl.inj hown)

namespace Tables

theorem start (u : Setup) : Tables u (init u) (Equiv.refl Holder) where
  has _ := Iff.rfl
  settled h hh _ c hc := by
    have hdiv : ∀ p k, k < u.ppe → (p*u.ppe+k)/u.ppe = p ∧ (p*u.ppe+k)%u.ppe = k := by
      intro p k hk
      exact (Nat.div_mod_unique (by omega)).2 ⟨by rw [Nat.mul_comm u.ppe p, Nat.add_comm], hk⟩
    cases h with
    | page p =>
      cases c with
      | zero => rfl
      | succ k =>
        obtain ⟨hp, hk⟩ := hdiv p k (Nat.lt_of_succ_lt_succ hc)
        change u.ioaddr (.page ((p*u.ppe+k)/u.ppe)) ((p*u.ppe+k)%u.ppe) = _
        rw [hp, hk]
        rfl
    | entry v =>
      cases c with
      | zero => rfl
      | succ k =>
        obtain ⟨hp, hk⟩ := hdiv v k (Nat.lt_of_succ_lt_succ hc)
        change u.ioaddr (.entry ((v*u.ppe+k)/u.ppe)) ((v*u.ppe+k)%u.ppe) = _
        rw [hp, hk]
        rfl
  swap _ _ _ h := by cases h

/-- A step that leaves the address tables and the swaps alone. -/
theorem frame (t : Tables u s σ) (hrow : s'.row u = s.row u)
    (hswap : ∀ i, (s'.thread i).swapping = (s.thread i).swapping) : Tables u s' σ := by
  refine ⟨t.has, fun h hh hout => ?_, fun i j st hi => ?_⟩
  · rw [hrow]
    refine t.settled h hh fun ⟨i, j, st, hi, hj⟩ => hout ⟨i, j, st, ?_, hj⟩
    rw [hswap, hi]
  · rw [hrow]
    exact t.swap i j st (by rw [← hswap, hi])

theorem go (t : Tables u s σ) (hrow : s'.row u = s.row u) (ht : s'.thread = update s.thread i pc)
    (hpc : pc.swapping = none) (hi : (s.thread i).swapping = none) : Tables u s' σ := by
  refine t.frame hrow fun k => ?_
  rw [ht]
  by_cases hk : k = i
  · rw [hk, update_self, hpc, hi]
  · rw [update_of_ne hk]

theorem win (t : Tables u s σ) (hc : Control u s) (he : Entries u s) (hi : s.thread i = .cas j)
    (hfree : s.states j.entry = .free) :
    Tables u { s with
      states := update s.states j.entry .copying, thread := update s.thread i (.swap j (.loadA 0)) }
      ((Equiv.swap (.page j.page) (.entry j.entry)).trans σ) := by
  have hthread := swapping_iff s { s with
    states := update s.states j.entry .copying
    thread := update s.thread i (.swap j (.loadA 0)) } i _ rfl
  have hpage : u.Has (.page j.page) := hc.slot_lt i _ (by rw [hi]; rfl)
  have hentry : u.Has (.entry j.entry) := he.target_lt i _ (by rw [hi]; rfl)
  -- neither holder is in a swap yet: the page is locked and the entry was free
  have halone : ∀ k j' st', (s.thread k).swapping = some (j', st') → j'.page ≠ j.page ∧
    j'.entry ≠ j.entry := by
    intro k j' st' hk
    have hswap := Pc.eq_swap hk
    refine ⟨fun heq => ?_, fun heq => ?_⟩
    · have hki := hc.locks.unique k i j.page (by rw [hswap, ← heq]; rfl) (by rw [hi]; rfl)
      rw [hki, hi] at hk
      cases hk
    · have hcopying := he.stage_eq k j.entry .copying (by rw [hswap, ← heq]; rfl)
      rw [hfree] at hcopying
      cases hcopying
  have hout : ¬InSwap s (.page j.page) ∧ ¬InSwap s (.entry j.entry) := by
    refine ⟨?_, ?_⟩
    · rintro ⟨k, j', st', hk, hp | hv⟩
      · exact (halone k j' st' hk).1 (Holder.page.inj hp).symm
      · exact page_ne_entry _ _ hv
    · rintro ⟨k, j', st', hk, hp | hv⟩
      · exact page_ne_entry _ _ hp.symm
      · exact (halone k j' st' hk).2 (Holder.entry.inj hv).symm
  have hsame : ∀ h, h ≠ .page j.page → h ≠ .entry j.entry →
      ((Equiv.swap (.page j.page) (.entry j.entry)).trans σ) h = σ h := by
    intro h hp hv
    rw [Equiv.trans_apply, Equiv.swap_apply_of_ne_of_ne hp hv]
  refine ⟨fun h => ?_, fun h hh hnew => ?_, ?_⟩
  · rw [Equiv.trans_apply, t.has, Equiv.swap_apply_def]
    split
    · rename_i heq
      exact iff_of_true hentry (heq ▸ hpage)
    · split
      · rename_i heq
        exact iff_of_true hpage (heq ▸ hentry)
      · exact Iff.rfl
  · have hp : h ≠ .page j.page :=
      fun heq => hnew ⟨i, j, .loadA 0, (hthread _ _).2 (.inl ⟨rfl, rfl⟩), .inl heq⟩
    have hv : h ≠ .entry j.entry :=
      fun heq => hnew ⟨i, j, .loadA 0, (hthread _ _).2 (.inl ⟨rfl, rfl⟩), .inr heq⟩
    rw [hsame h hp hv]
    refine t.settled h hh ?_
    rintro ⟨k, j', st', hk, hj⟩
    refine hnew ⟨k, j', st', (hthread _ _).2 (.inr ⟨?_, hk⟩), hj⟩
    rintro rfl
    rw [hi] at hk
    cases hk
  · intro k j' st' hk
    rcases (hthread _ _).1 hk with ⟨-, hj⟩ | ⟨-, hk⟩
    · cases hj
      rw [Equiv.trans_apply, Equiv.trans_apply, Equiv.swap_apply_left, Equiv.swap_apply_right]
      exact halfway_start (t.settled _ hpage hout.1) (t.settled _ hentry hout.2)
    · obtain ⟨hp, hv⟩ := halone k j' st' hk
      rw [hsame _ (fun heq => hp (Holder.page.inj heq)) (page_ne_entry _ _),
        hsame _ (page_ne_entry _ _).symm fun heq => hv (Holder.entry.inj heq)]
      exact t.swap k j' st' hk

/-- A thread goes on in its swap and touches no row but those of its pair. -/
theorem advance (t : Tables u s σ) (hc : Control u s) (he : Entries u s)
    (hi : s.thread i = .swap j st)
    {st' : Stage (BitVec 64)} (ht : s'.thread = update s.thread i (.swap j st'))
    (hrow : ∀ h, h ≠ .page j.page → h ≠ .entry j.entry → ∀ c < u.ppe+1, s'.row u h c = s.row u h c)
    (hw : Halfway (u.ppe+1) (s'.row u) (.page j.page) (.entry j.entry) (u.row (σ (.page j.page)))
      (u.row (σ (.entry j.entry))) st') : Tables u s' σ := by
  have hthread := swapping_iff s s' i _ ht
  refine ⟨t.has, fun h hh hout c hc => ?_, fun k j' st'' hk => ?_⟩
  · have hp : h ≠ .page j.page :=
      fun heq => hout ⟨i, j, st', (hthread _ _).2 (.inl ⟨rfl, rfl⟩), .inl heq⟩
    have hv : h ≠ .entry j.entry :=
      fun heq => hout ⟨i, j, st', (hthread _ _).2 (.inl ⟨rfl, rfl⟩), .inr heq⟩
    rw [hrow h hp hv c hc]
    refine t.settled h hh ?_ c hc
    rintro ⟨k, j', st'', hk, hj⟩
    by_cases hki : k = i
    · rw [hki, hi] at hk
      cases hk
      rcases hj with hj | hj
      · exact hp hj
      · exact hv hj
    · exact hout ⟨k, j', st'', (hthread _ _).2 (.inr ⟨hki, hk⟩), hj⟩
  · rcases (hthread _ _).1 hk with ⟨-, hj⟩ | ⟨hki, hk⟩
    · cases hj
      exact hw
    · obtain ⟨hp, hv⟩ := swap_alone hc he hi hk hki
      exact (t.swap k j' st'' hk).congr
        (hrow _ (fun heq => hp (Holder.page.inj heq)) (page_ne_entry _ _))
        (hrow _ (page_ne_entry _ _).symm fun heq => hv (Holder.entry.inj heq))

theorem finish (t : Tables u s σ) {c : Nat}
    (hi : s.thread i = .swap j (.loadA c)) (hlast : u.ppe+1 ≤ c) :
    Tables u (s.move i (.prp1 j)) σ := by
  have hdone := (t.swap i j _ (by rw [hi]; rfl)).finish hlast
  have hthread := swapping_iff s (s.move i (.prp1 j)) i _ rfl
  refine ⟨t.has, fun h hh hout c hc => ?_, fun k j' st' hk => ?_⟩
  · by_cases hp : h = .page j.page
    · rw [hp]
      exact (hdone c hc).1
    · by_cases hv : h = .entry j.entry
      · rw [hv]
        exact (hdone c hc).2
      · refine t.settled h hh ?_ c hc
        rintro ⟨k, j', st', hk, hj⟩
        by_cases hki : k = i
        · rw [hki, hi] at hk
          cases hk
          rcases hj with hj | hj
          · exact hp hj
          · exact hv hj
        · exact hout ⟨k, j', st', (hthread _ _).2 (.inr ⟨hki, hk⟩), hj⟩
  · rcases (hthread _ _).1 hk with ⟨-, hj⟩ | ⟨-, hk⟩
    · cases hj
    · exact t.swap k j' st' hk

theorem swapStep (t : Tables u s σ) (hc : Control u s) (he : Entries u s)
    (hi : s.thread i = .swap j st) : Tables u (swapStep u s i j st) σ := by
  have hw := t.swap i j st (by rw [hi]; rfl)
  have hne := page_ne_entry j.page j.entry
  cases st with
  | loadA c =>
    by_cases hlt : c < u.ppe+1
    · simp only [VictimBuffer.swapStep, if_pos hlt]
      exact t.advance hc he hi rfl (fun _ _ _ _ _ => rfl) (hw.loadA hlt)
    · simp only [VictimBuffer.swapStep, if_neg hlt]
      exact t.finish hi (Nat.le_of_not_lt hlt)
  | loadB c tmp => exact t.advance hc he hi rfl (fun _ _ _ _ _ => rfl) hw.loadB
  | storeA c tmp x =>
    have hst := stored_setCell s (.page j.page) hw.here.1 x
    refine t.advance hc he hi ?_ (fun h hp _ => hst.other h hp) (hw.storeA hne hst)
    cases c <;> rfl
  | storeB c tmp =>
    have hst := stored_setCell s (.entry j.entry) hw.here.1 tmp
    refine t.advance hc he hi ?_ (fun h _ hv => hst.other h hv) (hw.storeB hne hst)
    cases c <;> rfl

theorem trans (t : Tables u s σ) (hc : Control u s) (he : Entries u s) (ht : Trans u s s') :
    Tables u s' σ ∨ Wins s s' := by
  cases ht with
  | take i p hi _ _ => exact .inl (t.go rfl rfl rfl (by rw [hi]; rfl))
  | unlock i p hi => rcases hi with hi | hi <;> exact .inl (t.go rfl rfl rfl (by rw [hi]; rfl))
  | evict i p byteOffset hi => exact .inl (t.go rfl rfl rfl (by rw [hi]; rfl))
  | ticket i p byteOffset hi => exact .inl (t.go rfl rfl rfl (by rw [hi]; rfl))
  | win i j hi hfree => exact .inr ⟨i, j, hi, hfree, rfl⟩
  | lose i j hi => exact .inl (t.go rfl rfl rfl (by rw [hi]; rfl))
  | swap i j st hi => exact .inl (t.swapStep hc he hi)
  | fill i j pc _ _ _ hi =>
    rcases hi with ⟨hi, rfl⟩ | ⟨hi, rfl⟩ | ⟨hi, rfl⟩ <;>
      exact .inl (t.go rfl rfl rfl (by rw [hi]; rfl))
  | occupy i j hi =>
    refine .inl (t.go (i := i) rfl rfl ?_ (by rw [hi]; rfl))
    split <;> rfl
  | enqueue i j hi => exact .inl (t.go rfl rfl rfl (by rw [hi]; rfl))
  | block i p byteOffset hi _ => exact .inl (t.go rfl rfl rfl (by rw [hi]; rfl))
  | direct i p byteOffset hi _ => exact .inl (t.go rfl rfl rfl (by rw [hi]; rfl))
  | ret i p g hi =>
    rcases hi with ⟨hi, -⟩ | ⟨hi, -⟩ <;> exact .inl (t.go rfl rfl rfl (by rw [hi]; rfl))
  | _ => exact .inl (t.frame rfl fun _ => rfl)

end Tables

theorem Reach.tables (h : Reach u s) : ∃ σ, Tables u s σ := by
  induction h with
  | init => exact ⟨_, Tables.start u⟩
  | step hr hstep ih =>
    obtain ⟨σ, ht⟩ := ih
    rcases ht.trans hr.control.1 hr.entries (step_trans hstep) with ht' | ⟨i, j, hi, hfree, rfl⟩
    · exact ⟨σ, ht'⟩
    · exact ⟨_, ht.win hr.control.1 hr.entries hi hfree⟩

theorem Entries.copying (he : Entries u s) (hi : (s.thread i).swapping = some (j, st)) :
    j.entry < u.nEntries ∧ s.states j.entry = .copying := by
  have hswap := Pc.eq_swap hi
  exact ⟨he.target_lt i _ (by rw [hswap]; rfl), he.stage_eq i _ _ (by rw [hswap]; rfl)⟩

theorem Entries.not_inSwap (he : Entries u s) (hocc : s.states v = .occupied) :
    ¬InSwap s (.entry v) := by
  rintro ⟨i, j, st, hi, hp | hv⟩
  · exact page_ne_entry _ _ hp.symm
  · rw [Holder.entry.inj hv, (he.copying hi).2] at hocc
    cases hocc

/-- No cell of a page, not even of one in a swap, names the buffer of an occupied entry. -/
theorem Tables.other_buffer (t : Tables u s σ) (he : Entries u s) (hocc : s.states v = .occupied)
    {p c : Nat} (hp : p < u.nPages) (hc : c < u.ppe+1) :
    ∃ h, u.Has h ∧ h ≠ σ (.entry v) ∧ s.row u (.page p) c = u.row h c := by
  by_cases hin : InSwap s (.page p)
  · obtain ⟨i, j, st, hi, hpage | hv⟩ := hin
    · obtain ⟨hlt, hcopying⟩ := he.copying hi
      have hne : j.entry ≠ v := by
        rintro rfl
        rw [hocc] at hcopying
        cases hcopying
      rw [hpage]
      rcases (t.swap i j st hi).either hc with heq | heq
      · exact ⟨σ (.page j.page), (t.has _).2 (hpage ▸ hp), σ.injective.ne (page_ne_entry _ _), heq⟩
      · exact ⟨σ (.entry j.entry), (t.has _).2 hlt,
          σ.injective.ne fun h => hne (Holder.entry.inj h), heq⟩
    · exact absurd hv (page_ne_entry _ _)
  · exact ⟨σ (.page p), (t.has _).2 hp, σ.injective.ne (page_ne_entry _ _),
      t.settled (.page p) hp hin c hc⟩

/-- A step does not touch an occupied entry but to set it free. -/
theorem occupied_step (he : Entries u s) (t : Tables u s σ) (ht : Trans u s s')
    (hocc : s.states v = .occupied) :
    (s'.states v = .occupied ∨ s'.states v = .free) ∧
    ∀ c < u.ppe+1, s'.row u (.entry v) c = s.row u (.entry v) c := by
  cases ht with
  | win i j hi hfree =>
    refine ⟨.inl ((update_of_ne ?_ _ _).trans hocc), fun _ _ => rfl⟩
    rintro rfl
    rw [hocc] at hfree
    cases hfree
  | swap i j st hi =>
    obtain ⟨-, -, -, -, -, hstates, -⟩ := swapStep_frame (u := u) (s := s) i j st
    refine ⟨.inl (by rw [hstates, hocc]), ?_⟩
    have hswapping : (s.thread i).swapping = some (j, st) := by
      rw [hi]
      rfl
    have hw := t.swap i j st hswapping
    have hne : Holder.entry v ≠ .entry j.entry := by
      intro heq
      rw [Holder.entry.inj heq, (he.copying hswapping).2] at hocc
      cases hocc
    cases st with
    | loadA c =>
      by_cases hlt : c < u.ppe+1
      · simp only [swapStep, if_pos hlt]
        exact fun _ _ => rfl
      · simp only [swapStep, if_neg hlt]
        exact fun _ _ => rfl
    | loadB c tmp => exact fun _ _ => rfl
    | storeA c tmp x =>
      exact (stored_setCell s (.page j.page) hw.here.1 x).other _ (page_ne_entry _ _).symm
    | storeB c tmp => exact (stored_setCell s (.entry j.entry) hw.here.1 tmp).other _ hne
  | occupy i j hi =>
    refine ⟨.inl ?_, fun _ _ => rfl⟩
    change update s.states j.entry .occupied v = .occupied
    by_cases hv : v = j.entry
    · rw [hv, update_self]
    · rw [update_of_ne hv, hocc]
  | free pick _ _ _ _ _ _ =>
    refine ⟨?_, fun _ _ => rfl⟩
    change update s.states _ .free v = .occupied ∨ update s.states _ .free v = .free
    by_cases hv : v = victimIdx (s.ring.sched.buf pick).pcEntry
    · exact .inr (by rw [hv, update_self])
    · exact .inl (by rw [update_of_ne hv, hocc])
  | _ => exact ⟨.inl hocc, fun _ _ => rfl⟩

inductive Held (u : Setup) (v : Nat) (s : State) : State → Prop where
  | refl : Held u v s s
  | step {t t' : State} {a : Act} : Held u v s t → t.states v = .occupied → step u t a = some t' →
      Held u v s t'

structure Owned (u : Setup) (s : State) (σ : Equiv.Perm Holder) : Prop where
  has : ∀ h, u.Has (σ h) ↔ u.Has h
  vaddr : ∀ h, u.Has h → ¬InSwap s h → s.row u h 0 = u.vaddr (σ h)
  distinct : ∀ h h', u.Has h → u.Has h' → ¬InSwap s h → ¬InSwap s h' → s.row u h 0 = s.row u h' 0 →
    h = h'
  ioaddr : ∀ h, u.Has h → ¬InSwap s h → ∀ k < u.ppe, s.row u h (k+1) = u.ioaddr (σ h) k
  occupied : ∀ v < u.nEntries, s.states v = .occupied → ¬InSwap s (.entry v) ∧ ∀ p < u.nPages,
    s.pageVaddrs p ≠ s.entryVaddrs v ∧
    ∀ k < u.ppe, ∃ h, u.Has h ∧ h ≠ σ (.entry v) ∧ s.pageIoaddrs (p*u.ppe+k) = u.ioaddr h k

def Setup.Distinct (u : Setup) : Prop := ∀ h h', u.Has h → u.Has h' → u.vaddr h = u.vaddr h' →
    h = h'

theorem Tables.owned (hd : u.Distinct) (t : Tables u s σ) (he : Entries u s) : Owned u s σ where
  has := t.has
  vaddr h hh hout := t.settled h hh hout 0 (Nat.succ_pos _)
  distinct h h' hh hh' hout hout' heq := by
    rw [t.settled h hh hout 0 (Nat.succ_pos _), t.settled h' hh' hout' 0 (Nat.succ_pos _)] at heq
    exact σ.injective (hd _ _ ((t.has h).2 hh) ((t.has h').2 hh') heq)
  ioaddr h hh hout k hk := t.settled h hh hout (k+1) (Nat.succ_lt_succ hk)
  occupied v hv hocc := by
    refine ⟨he.not_inSwap hocc, fun p hp => ⟨fun heq => ?_, fun k hk => ?_⟩⟩
    · obtain ⟨h, hh, hne, hrow⟩ := t.other_buffer he hocc hp (Nat.succ_pos u.ppe)
      have hentry := t.settled (.entry v) hv (he.not_inSwap hocc) 0 (Nat.succ_pos _)
      exact hne (hd _ _ hh ((t.has _).2 hv) (hrow.symm.trans (heq.trans hentry)))
    · exact t.other_buffer he hocc hp (Nat.succ_lt_succ hk)

theorem Held.row_eq {v : Nat} (hh : Held u v s s') (hr : Reach u s) :
    Reach u s' ∧ (s.states v = .occupied → s'.states v = .occupied ∨ s'.states v = .free) ∧
      ∀ c < u.ppe+1, s'.row u (.entry v) c = s.row u (.entry v) c := by
  induction hh with
  | refl => exact ⟨hr, .inl, fun _ _ => rfl⟩
  | step _ hocc hstep ih =>
    obtain ⟨σ, ht⟩ := ih.1.tables
    obtain ⟨hst, hrow⟩ := occupied_step ih.1.entries ht (step_trans hstep) hocc
    exact ⟨ih.1.step hstep, fun _ => hst, fun c hc => (hrow c hc).trans (ih.2.2 c hc)⟩

/-- In every reachable state the cache pages and victim entries have the buffers of the start,
each one of its own, with the I/O addresses that belong to it; and an entry that is OCCUPIED
keeps its buffer, which no page names, until it is FREE again. -/
theorem victim_ownership (u : Setup) (hd : u.Distinct) (hr : Reach u s) :
    (∃ σ, Owned u s σ) ∧ ∀ v s', Held u v s s' →
      (s.states v = .occupied → s'.states v = .occupied ∨ s'.states v = .free) ∧
      s'.entryVaddrs v = s.entryVaddrs v ∧
      ∀ k < u.ppe, s'.dataIoaddrs (v*u.ppe+k) = s.dataIoaddrs (v*u.ppe+k) := by
  refine ⟨?_, fun v s' hh => ?_⟩
  · obtain ⟨σ, ht⟩ := hr.tables
    exact ⟨σ, ht.owned hd hr.entries⟩
  · obtain ⟨-, hst, hrow⟩ := hh.row_eq hr
    exact ⟨hst, hrow 0 (Nat.succ_pos _), fun k hk => hrow (k+1) (Nat.succ_lt_succ hk)⟩

def onePage : Setup where
  ring := ⟨0, Nat.zero_le 31, .write⟩
  write := rfl
  queued := true
  nPages := 1
  nPages_lt := Nat.one_lt_two_pow (Nat.succ_ne_zero 30)
  entriesLog := 0
  entriesLog_le := Nat.zero_le 31
  ppe := 1
  prps := false
  prp1 _ := 0#64
  prp2 _ := 0#64
  vaddr
    | .page _ => 4096#64
    | .entry _ => 8192#64
  ioaddr
    | .page _, _ => 12288#64
    | .entry _, _ => 16384#64

theorem onePage_distinct : onePage.Distinct := by
  rintro (p | v) (p' | v') hh hh' heq
  · obtain rfl : p = 0 := Nat.lt_one_iff.1 hh
    rw [Nat.lt_one_iff.1 hh']
  · exact absurd heq (show (4096#64 : BitVec 64) ≠ 8192#64 by decide)
  · exact absurd heq (show (8192#64 : BitVec 64) ≠ 4096#64 by decide)
  · obtain rfl : v = 0 := Nat.lt_one_iff.1 hh
    rw [Nat.lt_one_iff.1 hh']

/-- A thread evicts the page and enqueues: the entry is OCCUPIED and has the page's buffer, the
page has the entry's, and so it stays when the request is claimed. -/
theorem onePage_evicted : ∃ s s', Reach onePage s ∧ s.states 0 = .occupied ∧
    s.pageVaddrs 0 = 8192#64 ∧
    s.entryVaddrs 0 = 4096#64 ∧ (∃ σ, Owned onePage s σ) ∧ Held onePage 0 s s' ∧
    s'.ring.claimed = 1 ∧ s'.entryVaddrs 0 = s.entryVaddrs 0 := by
  obtain ⟨s, hr, ⟨hocc, hpage, hentry⟩, hnext⟩ := Lib.Exec.exists_of_exec
    (q := fun s => (s.states 0 = .occupied ∧ s.pageVaddrs 0 = 8192#64 ∧ s.entryVaddrs 0 = 4096#64) ∧
      ((step onePage s (.thread 0)).map fun s => s.ring.claimed) = some 1)
    (fun s a s' h => Reach.step (u := onePage) (a := a) h)
    ([.take 0 0, .evict 0 0#64] ++ List.replicate 15 (.thread 0)) .init (by decide)
  obtain ⟨s', hstep, hclaimed⟩ := Option.map_eq_some_iff.1 hnext
  have hh : Held onePage 0 s s' := .step .refl hocc hstep
  have h := victim_ownership onePage onePage_distinct hr
  exact ⟨s, s', hr, hocc, hpage, hentry, h.1, hh, hclaimed, (h.2 0 s' hh).2.1⟩

/-- With a queue, an entry is in use just if it has one owner: the thread that has won its CAS,
until it enqueues, or the request that was made for it, until the notify phase frees it. No
owner has two entries, and a thread has an entry only when all requests that were made for it
before are through. -/
theorem entry_in_use_iff (u : Setup) (hq : u.queued = true) (hr : Reach u s) (v : Nat) :
    (s.states v ≠ .free ↔ ∃! o, Owns u s o v) ∧ (∀ o v', Owns u s o v → Owns u s o v' → v' = v) ∧
    ∀ i st, (s.thread i).stage = some (v, st) → s.states v = st ∧
      ∀ g < s.ring.claimed, (s.ring.calls g).pcEntry = victimPe v → s.notes g = .freed := by
  have h := hr.entries
  refine ⟨⟨fun hbusy => ?_, fun ⟨o, ho, _⟩ => ?_⟩, fun o v' ho ho' => ?_,
    fun i st hi => ⟨h.stage_eq i v st hi, ?_⟩⟩
  · have hlive : Live u s v := by
      cases hst : s.states v with
      | free => exact absurd hst hbusy
      | copying => exact .inl hst
      | occupied => exact .inr ⟨hq, hst⟩
    obtain ⟨o, ho⟩ := h.owners.owner v hlive
    exact ⟨o, ho, fun o' ho' => h.owners.unique o' o v ho' ho⟩
  · obtain hst | ⟨-, hst⟩ := h.owners.held_of_owns o v ho
    all_goals
      rw [hst]
      decide
  · cases o with
    | inl i =>
      obtain ⟨st, hst⟩ := ho
      obtain ⟨st', hst'⟩ := ho'
      exact (Prod.mk.inj (Option.some.inj (hst'.symm.trans hst))).1
    | inr g =>
      have hle := u.nEntries_le
      exact victimPe_inj (by have := ho'.2.1; omega) (by have := ho.2.1; omega)
        (ho'.2.2.1.symm.trans ho.2.2.1)
  · intro g hg hpe
    by_contra hnote
    have hlt : v < u.nEntries := h.target_lt i v (by
      generalize s.thread i = pc at hi
      cases pc with
      | cas => cases hi
      | _ => exact congrArg (Option.map Prod.fst) hi)
    cases h.owners.unique (.inl i) (.inr g) v ⟨st, hi⟩ ⟨hg, hlt, hpe, hnote⟩

/-- The entry of the evicted page belongs to the request. -/
theorem entry_in_use_onePage : ∃ s, Reach onePage s ∧ s.ring.claimed = 1 ∧
    ∃! o, Owns onePage s o 0 := by
  obtain ⟨s, hr, hocc, hclaimed⟩ := Lib.Exec.exists_of_exec
    (q := fun s => s.states 0 = .occupied ∧ s.ring.claimed = 1)
    (fun s a s' h => Reach.step (u := onePage) (a := a) h)
    ([.take 0 0, .evict 0 0#64] ++ List.replicate 16 (.thread 0)) .init (by decide)
  exact ⟨s, hr, hclaimed, (entry_in_use_iff onePage rfl hr 0).1.mp (by rw [hocc]; decide)⟩

end Shaper.VictimBuffer
