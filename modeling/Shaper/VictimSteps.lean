import Mathlib.Data.Finset.Card
import Shaper.Lib.Ownership
import Shaper.RingRuns
import Shaper.VictimBuffer

/-! The steps of the victim machine one by one, and what does not depend on the tables: the
page locks, the calls that the threads are in, and with them that the ring stays within its
bounds. -/
namespace Shaper.VictimBuffer
open Function RingMachine RingInvariant Lib.Exchange Lib.Ownership PrpBuild

inductive Trans (u : Setup) (s : State) : State → Prop where
  | take (i p : Nat) : s.thread i = .out → p < u.nPages → s.lock p = false →
      Trans u s { s.move i (.locked p) with lock := update s.lock p true }
  | unlock (i p : Nat) : s.thread i = .locked p ∨ s.thread i = .done p →
      Trans u s { s.move i .out with lock := update s.lock p false }
  | evict (i p : Nat) (byteOffset : BitVec 64) : s.thread i = .locked p →
      Trans u s (s.move i (.ticket p byteOffset))
  | ticket (i p : Nat) (byteOffset : BitVec 64) : s.thread i = .ticket p byteOffset →
      Trans u s { s with
        allocTicket := s.allocTicket + 1#32
        thread :=
          update s.thread i (.cas ⟨p, byteOffset, (s.allocTicket &&& u.nEntriesMask).toNat⟩) }
  | win (i : Nat) (j : Job) : s.thread i = .cas j → s.states j.entry = .free →
      Trans u s { s with
        states := update s.states j.entry .copying
        thread := update s.thread i (.swap j (.loadA 0)) }
  | lose (i : Nat) (j : Job) :
      s.thread i = .cas j → Trans u s (s.move i (.fallback j.page j.byteOffset))
  | swap (i : Nat) (j : Job) (st : Stage (BitVec 64)) : s.thread i = .swap j st →
      Trans u s (swapStep u s i j st)
  | fill (i : Nat) (j : Job) (pc : Pc) (prp1 prp2 byteOffsets : Nat → BitVec 64) :
      s.thread i = .prp1 j ∧ pc = .prp2 j ∨ s.thread i = .prp2 j ∧ pc = .offset j ∨
        s.thread i = .offset j ∧ pc = .occupy j →
      Trans u s { s.move i pc with prp1 := prp1, prp2 := prp2, byteOffsets := byteOffsets }
  | occupy (i : Nat) (j : Job) : s.thread i = .occupy j →
      Trans u s { s.move i (if u.queued then .enqueue j else .done j.page) with
        states := update s.states j.entry .occupied }
  | enqueue (i : Nat) (j : Job) : s.thread i = .enqueue j →
      Trans u s { s.move i (.enqueuing j.page s.ring.claimed) with
        ring := claim s.ring .forget j.byteOffset u.pageSize (victimPe j.entry) nvmIoWrite }
  | block (i p : Nat) (byteOffset : BitVec 64) : s.thread i = .fallback p byteOffset →
      u.queued = true → Trans u s { s.move i (.blocked p s.ring.claimed) with
        ring := claim s.ring .sync byteOffset u.pageSize (BitVec.ofNat 64 p) nvmIoWrite }
  | direct (i p : Nat) (byteOffset : BitVec 64) : s.thread i = .fallback p byteOffset →
      u.queued = false → Trans u s (s.move i (.done p))
  | call (i p g : Nat) (ring : RingMachine.State) : s.thread i = .enqueuing p g ∨
      s.thread i = .blocked p g →
      RingMachine.step u.ring s.ring (.call g) = some ring → Trans u s { s with ring := ring }
  | ret (i p g : Nat) : s.thread i = .enqueuing p g ∧ (s.ring.calls g).pc = .returned ∨
        s.thread i = .blocked p g ∧ (s.ring.calls g).pc = .finished →
      Trans u s (s.move i (.done p))
  | sched (pick : Nat) (ring : RingMachine.State) :
      RingMachine.step u.ring s.ring (.sched pick) = some ring → Trans u s { s with ring := ring }
  | clear (pick : Nat) (seqDone flagDone : Nat → Bool) :
      s.ring.sched.phase = .notify seqDone flagDone →
      pick < s.ring.sched.acc → isVictim (s.ring.sched.buf pick).pcEntry = true →
      s.notes (s.ring.retired+pick) = .fresh →
      Trans u s { s with
        byteOffsets :=
          update s.byteOffsets (victimIdx (s.ring.sched.buf pick).pcEntry) (BitVec.allOnes 64)
        notes := update s.notes (s.ring.retired+pick) .cleared }
  | free (pick : Nat) (seqDone flagDone : Nat → Bool) :
      s.ring.sched.phase = .notify seqDone flagDone →
      pick < s.ring.sched.acc → isVictim (s.ring.sched.buf pick).pcEntry = true →
      s.notes (s.ring.retired+pick) = .cleared →
      Trans u s { s with
        states := update s.states (victimIdx (s.ring.sched.buf pick).pcEntry) .free
        notes := update s.notes (s.ring.retired+pick) .freed }
  | shutdown (ring : RingMachine.State) : RingMachine.step u.ring s.ring .shutdown = some ring →
      Trans u s { s with ring := ring }

variable {u : Setup} {s s' : State}

theorem callOr_trans {i p g : Nat} {last : CallPc} (h : callOr u s i p g last = some s')
    (hin : s.thread i = .enqueuing p g ∧ last = .returned ∨ s.thread i = .blocked p g ∧
      last = .finished) :
    Trans u s s' := by
  unfold callOr at h
  split at h
  · rename_i hlast
    cases h
    rcases hin with ⟨hi, rfl⟩ | ⟨hi, rfl⟩
    · exact .ret i p g (.inl ⟨hi, hlast⟩)
    · exact .ret i p g (.inr ⟨hi, hlast⟩)
  · obtain ⟨ring, hring, rfl⟩ := Option.map_eq_some_iff.1 h
    exact .call i p g ring (hin.imp And.left And.left) hring

theorem threadStep_trans {i : Nat} (h : threadStep u s i = some s') : Trans u s s' := by
  unfold threadStep at h
  split at h
  · cases h
  · cases h
  · rename_i p byteOffset hi
    cases h
    exact .ticket i p byteOffset hi
  · rename_i j hi
    split at h
    · rename_i hfree
      cases h
      exact .win i j hi hfree
    · cases h
      exact .lose i j hi
  · rename_i j st hi
    cases h
    exact .swap i j st hi
  · rename_i j hi
    cases h
    exact .fill i j _ _ s.prp2 s.byteOffsets (.inl ⟨hi, rfl⟩)
  · rename_i j hi
    cases h
    exact .fill i j _ s.prp1 _ s.byteOffsets (.inr (.inl ⟨hi, rfl⟩))
  · rename_i j hi
    cases h
    exact .fill i j _ s.prp1 s.prp2 _ (.inr (.inr ⟨hi, rfl⟩))
  · rename_i j hi
    cases h
    exact .occupy i j hi
  · rename_i j hi
    cases h
    exact .enqueue i j hi
  · rename_i p g hi
    exact callOr_trans h (.inl ⟨hi, rfl⟩)
  · rename_i p byteOffset hi
    split at h
    · rename_i hq
      cases h
      exact .block i p byteOffset hi hq
    · rename_i hq
      cases h
      exact .direct i p byteOffset hi (Bool.eq_false_of_not_eq_true hq)
  · rename_i p g hi
    exact callOr_trans h (.inr ⟨hi, rfl⟩)
  · rename_i p hi
    cases h
    exact .unlock i p (.inr hi)

theorem schedStep_trans {pick : Nat} (h : schedStep u s pick = some s') : Trans u s s' := by
  obtain ⟨ring, hring, h⟩ := Option.bind_eq_some_iff.1 h
  split at h
  · split at h
    · cases h
      exact .sched pick ring hring
    · cases h
  · cases h
    exact .sched pick ring hring

theorem noteStep_trans {pick : Nat} (h : noteStep s pick = some s') : Trans u s s' := by
  unfold noteStep at h
  split at h
  · rename_i seqDone flagDone hphase
    dsimp only at h
    split at h
    · rename_i hpick
      split at h
      · rename_i hnote
        cases h
        exact .clear pick seqDone flagDone hphase hpick.1 hpick.2.2 hnote
      · rename_i hnote
        cases h
        exact .free pick seqDone flagDone hphase hpick.1 hpick.2.2 hnote
      · cases h
    · cases h
  · cases h

theorem step_trans {a : Act} (h : step u s a = some s') : Trans u s s' := by
  cases a with
  | take i p =>
    simp only [step] at h
    split at h
    · rename_i hi
      split at h
      · rename_i hp
        cases h
        exact .take i p hi hp.1 hp.2
      · cases h
    · cases h
  | leave i =>
    simp only [step] at h
    split at h
    · rename_i p hi
      cases h
      exact .unlock i p (.inl hi)
    · cases h
  | evict i byteOffset =>
    simp only [step] at h
    split at h
    · rename_i p hi
      cases h
      exact .evict i p byteOffset hi
    · cases h
  | thread i => exact threadStep_trans h
  | sched pick => exact schedStep_trans h
  | note pick => exact noteStep_trans h
  | shutdown =>
    simp only [step] at h
    obtain ⟨ring, hring, rfl⟩ := Option.map_eq_some_iff.1 h
    exact .shutdown ring hring

def Pc.slot : Pc → Option Nat
  | .out => none
  | .locked p => some p
  | .ticket p _ => some p
  | .cas j => some j.page
  | .swap j _ => some j.page
  | .prp1 j => some j.page
  | .prp2 j => some j.page
  | .offset j => some j.page
  | .occupy j => some j.page
  | .enqueue j => some j.page
  | .enqueuing p _ => some p
  | .fallback p _ => some p
  | .blocked p _ => some p
  | .done p => some p

def Pc.call : Pc → Option Nat
  | .enqueuing _ g => some g
  | .blocked _ g => some g
  | _ => none

structure Control (u : Setup) (s : State) : Prop where
  locks : Exclusive (fun p => s.lock p = true) fun i p => (s.thread i).slot = some p
  slot_lt : ∀ i p, (s.thread i).slot = some p → p < u.nPages
  call_lt : ∀ i g, (s.thread i).call = some g → g < s.ring.claimed
  caller : ∀ g < s.ring.claimed, (s.ring.calls g).pc.inEnqueue = true →
    ∃ i, (s.thread i).call = some g

theorem control_init (u : Setup) : Control u (init u) where
  locks := {
    held_of_owns := fun _ _ h => by cases h
    owner := fun _ h => by cases h
    unique := fun _ _ _ h => by cases h }
  slot_lt _ _ h := by cases h
  call_lt _ _ h := by cases h
  caller g h := absurd h (Nat.not_lt_zero g)

structure Quiet (r r' : RingMachine.State) : Prop where
  claimed_eq : r'.claimed = r.claimed
  calls_eq : ∀ g, ∃ pc, r'.calls g = { r.calls g with pc := pc } ∧
    (pc.inEnqueue = true → (r.calls g).pc.inEnqueue = true)

theorem quiet_call {r : Ring} {t t' : RingMachine.State} {g : Nat}
    (h : RingMachine.step r t (.call g) = some t') : Quiet t t' := by
  simp only [RingMachine.step] at h
  split at h
  · obtain rfl | ⟨pc, _, _, _, hpc, rfl⟩ := callStep_shape h
    · exact ⟨rfl, fun g => ⟨_, rfl, id⟩⟩
    · refine ⟨rfl, fun g' => ⟨if g' = g then pc else (t.calls g').pc, setPc_calls t g g' pc, ?_⟩⟩
      split
      · rename_i heq
        rw [heq]
        exact fun hin => Bool.eq_true_of_not_eq_false fun hno => by rw [hpc hno] at hin; cases hin
      · exact id
  · cases h

theorem quiet_sched {r : Ring} {t t' : RingMachine.State} {pick : Nat}
    (h : RingMachine.step r t (.sched pick) = some t') : Quiet t t' := by
  obtain ⟨hcalls, hclaimed, -⟩ := RingProgress.sched_keeps h
  exact ⟨hclaimed, fun g => ⟨_, congrFun hcalls g, id⟩⟩

theorem quiet_shutdown {r : Ring} {t t' : RingMachine.State}
    (h : RingMachine.step r t .shutdown = some t') : Quiet t t' := by
  cases h
  exact ⟨rfl, fun g => ⟨_, rfl, id⟩⟩

theorem locks_go {i : Nat} {pc : Pc}
    (h : Exclusive (fun p => s.lock p = true) fun i p => (s.thread i).slot = some p)
    (hslot : pc.slot = (s.thread i).slot) :
    Exclusive (fun p => s.lock p = true) fun k p => (update s.thread i pc k).slot = some p := by
  refine h.congr (fun _ => Iff.rfl) fun k p => ?_
  by_cases hk : k = i
  · rw [hk, update_self, hslot]
  · rw [update_of_ne hk]

namespace Control
variable {i p : Nat} {pc : Pc}

theorem quiet (h : Control u s) {ring : RingMachine.State} (hq : Quiet s.ring ring) :
    Control u { s with ring := ring } where
  locks := h.locks
  slot_lt := h.slot_lt
  call_lt k g hk := hq.claimed_eq ▸ h.call_lt k g hk
  caller g hg hin := by
    obtain ⟨pc, hpc, hmono⟩ := hq.calls_eq g
    dsimp only at hin hg
    rw [hpc] at hin
    rw [hq.claimed_eq] at hg
    exact h.caller g hg (hmono hin)

theorem slot_lt_update (h : Control u s) (hpc : ∀ p, pc.slot = some p → p < u.nPages) :
    ∀ k p, (update s.thread i pc k).slot = some p → p < u.nPages :=
  (forall_update_iff s.thread fun _ pc => ∀ p, pc.slot = some p → p < u.nPages).2
    ⟨hpc, fun k _ => h.slot_lt k⟩

/-- A thread that is in no enqueue now goes on outside the ring. -/
theorem calls_update (h : Control u s) (i : Nat) (pc : Pc) (hcall : pc.call = none)
    (hout : ∀ g, (s.thread i).call = some g → (s.ring.calls g).pc.inEnqueue = false) :
    (∀ k g, (update s.thread i pc k).call = some g → g < s.ring.claimed) ∧
      ∀ g < s.ring.claimed, (s.ring.calls g).pc.inEnqueue = true →
      ∃ k, (update s.thread i pc k).call = some g := by
  refine ⟨(forall_update_iff s.thread fun _ pc => ∀ g, pc.call = some g → g < s.ring.claimed).2
    ⟨fun g hg => ?_, fun k _ => h.call_lt k⟩, fun g hg hin => ?_⟩
  · rw [hcall] at hg
    cases hg
  · obtain ⟨k, hk⟩ := h.caller g hg hin
    have hki : k ≠ i := by
      rintro rfl
      rw [hout g hk] at hin
      cases hin
    exact ⟨k, by rw [update_of_ne hki, hk]⟩

theorem go (h : Control u s) (hslot : pc.slot = (s.thread i).slot) (hcall : pc.call = none)
    (hout : ∀ g, (s.thread i).call = some g → (s.ring.calls g).pc.inEnqueue = false)
    (hs : s'.lock = s.lock) (ht : s'.thread = update s.thread i pc) (hr : s'.ring = s.ring) :
    Control u s' := by
  obtain ⟨hlt, hcaller⟩ := h.calls_update i pc hcall hout
  refine ⟨?_, ?_, ?_, ?_⟩
  · rw [hs, ht]
    exact locks_go h.locks hslot
  · rw [ht]
    exact h.slot_lt_update fun p hp => h.slot_lt i p (hslot ▸ hp)
  · rw [ht, hr]
    exact hlt
  · rw [ht, hr]
    exact hcaller

theorem enter (h : Control u s) (hslot : pc.slot = (s.thread i).slot)
    (hcall : pc.call = some s.ring.claimed)
    (hnone : (s.thread i).call = none) (api : Api) (byteOffset nBytes pcEntry : BitVec 64)
    (opcode : BitVec 8) :
    Control u { s.move i pc with ring := claim s.ring api byteOffset nBytes pcEntry opcode } where
  locks := locks_go h.locks hslot
  slot_lt := h.slot_lt_update fun p hp => h.slot_lt i p (hslot ▸ hp)
  call_lt := by
    refine (forall_update_iff s.thread fun _ pc => ∀ g, pc.call = some g → g < s.ring.claimed + 1).2
      ⟨fun g hg => ?_, fun k _ g hg => Nat.lt_succ_of_lt (h.call_lt k g hg)⟩
    rw [hcall] at hg
    cases hg
    exact Nat.lt_succ_self _
  caller g hg hin := by
    change g < s.ring.claimed + 1 at hg
    change (update s.ring.calls s.ring.claimed _ g).pc.inEnqueue = true at hin
    change ∃ k, (update s.thread i pc k).call = some g
    by_cases hgc : g = s.ring.claimed
    · exact ⟨i, by rw [update_self, hcall, hgc]⟩
    · rw [update_of_ne hgc] at hin
      obtain ⟨k, hk⟩ := h.caller g (by omega) hin
      have hki : k ≠ i := by
        rintro rfl
        rw [hnone] at hk
        cases hk
      exact ⟨k, by rw [update_of_ne hki, hk]⟩

theorem take (h : Control u s) (hout : s.thread i = .out) (hp : p < u.nPages)
    (hlock : s.lock p = false) :
    Control u { s.move i (.locked p) with lock := update s.lock p true } := by
  have hcalls := h.calls_update i (.locked p) rfl (by rw [hout]; exact fun _ h => by cases h)
  refine ⟨?_, h.slot_lt_update fun x hx => Option.some.inj hx ▸ hp, hcalls.1, hcalls.2⟩
  refine h.locks.take (i := i) (r := p) (by rw [hlock]; exact Bool.false_ne_true)
    (fun x => ?_) fun k x => ?_
  · change update s.lock p true x = true ↔ _
    by_cases hx : x = p
    · simp only [hx, update_self, or_true]
    · simp only [hx, or_false, update_of_ne hx]
  · change (update s.thread i (.locked p) k).slot = some x ↔ _
    by_cases hk : k = i
    · rw [hk, update_self, hout]
      simp only [Pc.slot, Option.some_inj, reduceCtorEq, true_and, false_or, eq_comm]
    · simp only [update_of_ne hk, hk, false_and, or_false]

theorem unlock (h : Control u s) (hslot : (s.thread i).slot = some p)
    (hcall : (s.thread i).call = none) :
    Control u { s.move i .out with lock := update s.lock p false } := by
  have hcalls := h.calls_update i .out rfl (by rw [hcall]; exact fun _ h => by cases h)
  refine ⟨?_, h.slot_lt_update (fun _ hx => by cases hx), hcalls.1, hcalls.2⟩
  refine h.locks.drop hslot (fun x => ?_) fun k x => ?_
  · change update s.lock p false x = true ↔ _
    by_cases hx : x = p
    · simp only [hx, update_self, Bool.false_eq_true, ne_eq, not_true_eq_false, and_false]
    · simp only [update_of_ne hx, ne_eq, hx, not_false_eq_true, and_true]
  · change (update s.thread i .out k).slot = some x ↔ _
    by_cases hk : k = i
    · rw [hk, update_self, hslot]
      simp only [Pc.slot, reduceCtorEq, Option.some_inj, true_and, eq_comm, and_not_self]
    · simp only [update_of_ne hk, hk, false_and, not_false_eq_true, and_true]

end Control

/-- A swap step moves its thread and touches nothing but the tables. -/
theorem swapStep_frame (i : Nat) (j : Job) (st : Stage (BitVec 64)) :
    ∃ pc, (swapStep u s i j st).thread = update s.thread i pc ∧
    (pc = .prp1 j ∨ ∃ st', pc = .swap j st') ∧
      (swapStep u s i j st).lock = s.lock ∧ (swapStep u s i j st).ring = s.ring ∧
      (swapStep u s i j st).states = s.states ∧ (swapStep u s i j st).notes = s.notes := by
  cases st with
  | loadA c =>
    by_cases hc : c < u.ppe+1
    · simp only [swapStep, if_pos hc]
      exact ⟨_, rfl, .inr ⟨_, rfl⟩, rfl, rfl, rfl, rfl⟩
    · simp only [swapStep, if_neg hc]
      exact ⟨_, rfl, .inl rfl, rfl, rfl, rfl, rfl⟩
  | loadB c tmp => exact ⟨_, rfl, .inr ⟨_, rfl⟩, rfl, rfl, rfl, rfl⟩
  | storeA c tmp x =>
    cases c with
    | zero => exact ⟨_, rfl, .inr ⟨_, rfl⟩, rfl, rfl, rfl, rfl⟩
    | succ c => exact ⟨_, rfl, .inr ⟨_, rfl⟩, rfl, rfl, rfl, rfl⟩
  | storeB c tmp =>
    cases c with
    | zero => exact ⟨_, rfl, .inr ⟨_, rfl⟩, rfl, rfl, rfl, rfl⟩
    | succ c => exact ⟨_, rfl, .inr ⟨_, rfl⟩, rfl, rfl, rfl, rfl⟩

theorem Control.trans (h : Control u s) (ht : Trans u s s') : Control u s' := by
  have hnone {i : Nat} {pc : Pc} (hi : s.thread i = pc) (hpc : pc.call = none) :
      ∀ g, (s.thread i).call = some g → (s.ring.calls g).pc.inEnqueue = false := by
    intro g hg
    rw [hi, hpc] at hg
    cases hg
  cases ht with
  | take i p hout hp hlock => exact h.take hout hp hlock
  | unlock i p hi =>
    rcases hi with hi | hi <;> exact h.unlock (by rw [hi]; rfl) (by rw [hi]; rfl)
  | evict i p byteOffset hi => exact h.go (by rw [hi]; rfl) rfl (hnone hi rfl) rfl rfl rfl
  | ticket i p byteOffset hi => exact h.go (by rw [hi]; rfl) rfl (hnone hi rfl) rfl rfl rfl
  | win i j hi _ => exact h.go (by rw [hi]; rfl) rfl (hnone hi rfl) rfl rfl rfl
  | lose i j hi => exact h.go (by rw [hi]; rfl) rfl (hnone hi rfl) rfl rfl rfl
  | swap i j st hi =>
    obtain ⟨pc, hthread, hpc, hlock, hring, -⟩ := swapStep_frame (u := u) (s := s) i j st
    rcases hpc with rfl | ⟨st', rfl⟩ <;>
      exact h.go (by rw [hi]; rfl) rfl (hnone hi rfl) hlock hthread hring
  | fill i j pc _ _ _ hi =>
    rcases hi with ⟨hi, rfl⟩ | ⟨hi, rfl⟩ | ⟨hi, rfl⟩ <;>
      exact h.go (by rw [hi]; rfl) rfl (hnone hi rfl) rfl rfl rfl
  | occupy i j hi =>
    refine h.go (i := i) ?_ ?_ (hnone hi rfl) rfl rfl rfl
    · rw [hi]
      split <;> rfl
    · split <;> rfl
  | enqueue i j hi => exact h.enter (by rw [hi]; rfl) rfl (by rw [hi]; rfl) _ _ _ _ _
  | block i p byteOffset hi _ => exact h.enter (by rw [hi]; rfl) rfl (by rw [hi]; rfl) _ _ _ _ _
  | direct i p byteOffset hi _ => exact h.go (by rw [hi]; rfl) rfl (hnone hi rfl) rfl rfl rfl
  | call i p g ring _ hring => exact h.quiet (quiet_call hring)
  | ret i p g hi =>
    rcases hi with ⟨hi, hret⟩ | ⟨hi, hret⟩
    all_goals
      refine h.go (by rw [hi]; rfl) rfl ?_ rfl rfl rfl
      intro g' hg'
      rw [hi] at hg'
      cases hg'
      rw [hret]
      rfl
  | sched pick ring hring => exact h.quiet (quiet_sched hring)
  | clear pick _ _ _ _ _ _ => exact ⟨h.locks, h.slot_lt, h.call_lt, h.caller⟩
  | free pick _ _ _ _ _ _ => exact ⟨h.locks, h.slot_lt, h.call_lt, h.caller⟩
  | shutdown ring hring => exact h.quiet (quiet_shutdown hring)

/-- The enqueues under way are no more than the slots, since each has a lock. -/
theorem Control.unfinished_lt (h : Control u s) : unfinished s.ring < 2^31 := by
  refine Nat.lt_of_le_of_lt ?_ u.nPages_lt
  have howner : ∀ g ∈ (List.range s.ring.claimed).filter fun g => (s.ring.calls g).pc.inEnqueue,
      ∃ p < u.nPages, ∃ i, (s.thread i).slot = some p ∧ (s.thread i).call = some g := by
    intro g hg
    obtain ⟨hlt, hin⟩ := List.mem_filter.1 hg
    obtain ⟨i, hi⟩ := h.caller g (List.mem_range.1 hlt) hin
    cases hpc : s.thread i with
    | enqueuing p g' => exact ⟨p, h.slot_lt i p (by rw [hpc]; rfl), i, by rw [hpc]; rfl, hi⟩
    | blocked p g' => exact ⟨p, h.slot_lt i p (by rw [hpc]; rfl), i, by rw [hpc]; rfl, hi⟩
    | _ => rw [hpc] at hi; cases hi
  choose! slot hslot using howner
  rw [unfinished, List.countP_eq_length_filter,
    ← List.toFinset_card_of_nodup (List.nodup_range.filter _), ← Finset.card_range u.nPages]
  refine Finset.card_le_card_of_injOn slot (fun g hg => ?_) fun g hg g' hg' heq => ?_
  · exact Finset.mem_coe.2 (Finset.mem_range.2 (hslot g (List.mem_toFinset.1 hg)).1)
  · obtain ⟨-, i, hi, hcall⟩ := hslot g (List.mem_toFinset.1 hg)
    obtain ⟨-, i', hi', hcall'⟩ := hslot g' (List.mem_toFinset.1 hg')
    rw [← heq] at hi'
    obtain rfl := h.locks.unique i i' _ hi hi'
    exact Option.some.inj (hcall.symm.trans hcall')

theorem Trans.ring_reach (ht : Trans u s s') (hr : RingMachine.Reach u.ring s.ring)
    (hc : Control u s') : RingMachine.Reach u.ring s'.ring := by
  have hfew := hc.unfinished_lt
  cases ht with
  | swap i j st hi =>
    obtain ⟨-, -, -, -, hring, -⟩ := swapStep_frame (u := u) (s := s) i j st
    rw [hring]
    exact hr
  | enqueue i j hi => exact .step (a := .claim _ _ _ _ _) hr (keyed_write u.write _) rfl hfew
  | block i p byteOffset hi _ =>
    exact .step (a := .claim _ _ _ _ _) hr (keyed_write u.write _) rfl hfew
  | call i p g ring _ hring => exact .step (a := .call g) hr trivial hring hfew
  | sched pick ring hring => exact .step (a := .sched pick) hr trivial hring hfew
  | shutdown ring hring => exact .step (a := .shutdown) hr trivial hring hfew
  | _ => exact hr

theorem Reach.control (h : Reach u s) : Control u s ∧ RingMachine.Reach u.ring s.ring := by
  induction h with
  | init => exact ⟨control_init u, .refl⟩
  | step _ hstep ih =>
    have ht := step_trans hstep
    have hc := ih.1.trans ht
    exact ⟨hc, ht.ring_reach ih.2 hc⟩

end Shaper.VictimBuffer
