import Shaper.RingWait
import Shaper.VictimOwnership

/-! What the requests of evicting threads look like in the ring, and who waits for them: a
request for a page of the cache has its thread waiting until the write is done, as long as its
wait compares the right way. -/
namespace Shaper.VictimBuffer
open Function RingMachine RingInvariant RingSchedule RingWait PrpBuild

variable {u : Setup} {s s' : State} {i g : Nat}

def SafeCalls (u : Setup) (s : State) : Prop :=
  ∀ g < s.ring.claimed, (s.ring.calls g).api = .sync → WaitSafe u.ring g

structure Requests (u : Setup) (s : State) : Prop where
  size : ∀ g < s.ring.claimed, (s.ring.calls g).nBytes = u.pageSize
  kind : ∀ g < s.ring.claimed, isVictim (s.ring.calls g).pcEntry = true ∨
    ∃ p < u.nPages, (s.ring.calls g).pcEntry = BitVec.ofNat 64 p ∧ (s.ring.calls g).api = .sync
  noted : ∀ g, s.notes g ≠ .fresh → g < s.ring.submitted
  waits : SafeCalls u s → ∀ g, s.ring.submitted ≤ g → g < s.ring.claimed →
    isVictim (s.ring.calls g).pcEntry = false →
    ∃ i p, s.thread i = .blocked p g ∧ (s.ring.calls g).pcEntry = BitVec.ofNat 64 p

theorem requests_init (u : Setup) : Requests u (init u) where
  size g hg := absurd hg (Nat.not_lt_zero g)
  kind g hg := absurd hg (Nat.not_lt_zero g)
  noted _ h := absurd rfl h
  waits _ g _ hg := absurd hg (Nat.not_lt_zero g)

structure Onward (r r' : RingMachine.State) : Prop extends Quiet r r' where
  submitted_le : r.submitted ≤ r'.submitted

theorem onward_call {r : Ring} {t t' : RingMachine.State}
    (h : RingMachine.step r t (.call g) = some t') : Onward t t' := by
  refine ⟨quiet_call h, ?_⟩
  simp only [RingMachine.step] at h
  split at h
  · obtain rfl | ⟨_, _, _, _, -, rfl⟩ := callStep_shape h
    · exact Nat.le_refl _
    · exact Nat.le_refl _
  · cases h

theorem sched_submitted {r : Ring} {t t' : RingMachine.State} {pick : Nat}
    (h : RingMachine.schedStep r t pick = some t') :
    t'.submitted = t.submitted ∨ t.sched.phase = .submit ∧ t'.submitted = t.drained.length := by
  simp only [RingMachine.schedStep] at h
  split at h
  case h_10 hphase =>
    cases h
    exact .inr ⟨hphase, rfl⟩
  all_goals
    (repeat' split at h) <;> cases h <;> exact .inl rfl

theorem onward_sched {r : Ring} {t t' : RingMachine.State} {pick : Nat} (hi : Inv r t)
    (h : RingMachine.step r t (.sched pick) = some t') : Onward t t' := by
  refine ⟨quiet_sched h, ?_⟩
  rcases sched_submitted h with heq | ⟨-, heq⟩
  · rw [heq]
  · rw [heq]
    exact hi.submitted_le

theorem onward_shutdown {r : Ring} {t t' : RingMachine.State}
    (h : RingMachine.step r t .shutdown = some t') : Onward t t' := by
  refine ⟨quiet_shutdown h, ?_⟩
  cases h
  exact Nat.le_refl _

namespace Requests

theorem onward (h : Requests u s) {ring : RingMachine.State} (ho : Onward s.ring ring) :
    Requests u { s with ring := ring } := by
  have hcalls : ∀ g, (ring.calls g).nBytes = (s.ring.calls g).nBytes ∧
      (ring.calls g).pcEntry = (s.ring.calls g).pcEntry ∧
      (ring.calls g).api = (s.ring.calls g).api := by
    intro g
    obtain ⟨pc, hpc, -⟩ := ho.calls_eq g
    rw [hpc]
    exact ⟨rfl, rfl, rfl⟩
  refine ⟨fun g hg => ?_, fun g hg => ?_, fun g hg => ?_, fun hsafe g hlo hg hpe => ?_⟩
  · rw [(hcalls g).1]
    exact h.size g (ho.claimed_eq ▸ hg)
  · rw [(hcalls g).2.1, (hcalls g).2.2]
    exact h.kind g (ho.claimed_eq ▸ hg)
  · exact Nat.lt_of_lt_of_le (h.noted g hg) ho.submitted_le
  · rw [(hcalls g).2.1] at hpe ⊢
    refine h.waits (fun g' hg' hapi => hsafe g' ?_ ?_) g (Nat.le_trans ho.submitted_le hlo)
      (ho.claimed_eq ▸ hg) hpe
    · dsimp only
      rwa [ho.claimed_eq]
    · dsimp only
      rwa [(hcalls g').2.2]

theorem go (h : Requests u s) {pc : Pc} (ht : s'.thread = update s.thread i pc)
    (hr : s'.ring = s.ring) (hn : s'.notes = s.notes)
    (hfree : SafeCalls u s → ∀ p g, s.thread i = .blocked p g →
      isVictim (s.ring.calls g).pcEntry = false → g < s.ring.submitted) : Requests u s' := by
  refine ⟨hr ▸ h.size, hr ▸ h.kind, hr ▸ hn ▸ h.noted, ?_⟩
  unfold SafeCalls
  rw [hr, ht]
  intro hsafe g hlo hg hpe
  obtain ⟨k, p, hk, hpc⟩ := h.waits hsafe g hlo hg hpe
  refine ⟨k, p, ?_, hpc⟩
  rw [update_of_ne, hk]
  rintro rfl
  exact Nat.not_lt_of_le hlo (hfree hsafe p g hk hpe)

theorem enter (h : Requests u s) {pc : Pc} (hi : ∀ p g, s.thread i ≠ .blocked p g) (api : Api)
    (byteOffset pcEntry : BitVec 64) (opcode : BitVec 8)
    (hs : s' = { s.move i pc with ring := claim s.ring api byteOffset u.pageSize pcEntry opcode })
    (hkind : isVictim pcEntry = true ∨ ∃ p < u.nPages, pcEntry = BitVec.ofNat 64 p ∧ api = .sync ∧
      pc = .blocked p s.ring.claimed) : Requests u s' := by
  have hold : ∀ g < s.ring.claimed, s'.ring.calls g = s.ring.calls g := by
    intro g hg
    rw [hs]
    exact claim_calls_of_lt hg
  have hnew : s'.ring.calls s.ring.claimed =
      ⟨api, byteOffset, u.pageSize, pcEntry, opcode, s.ring.prodTail, .full⟩ := by
    rw [hs]
    exact update_self _ _ _
  have hclaimed : s'.ring.claimed = s.ring.claimed + 1 := by rw [hs]; rfl
  have hsplit : ∀ g < s'.ring.claimed, g < s.ring.claimed ∨ g = s.ring.claimed := by
    intro g hg
    omega
  have hsub : s'.ring.submitted = s.ring.submitted := by rw [hs]; rfl
  refine ⟨fun g hg => ?_, fun g hg => ?_, ?_, fun hsafe g hlo hg hpe => ?_⟩
  · rcases hsplit g hg with hlt | rfl
    · rw [hold g hlt]
      exact h.size g hlt
    · rw [hnew]
  · rcases hsplit g hg with hlt | rfl
    · rw [hold g hlt]
      exact h.kind g hlt
    · rw [hnew]
      refine hkind.imp id fun ⟨p, hp, hpe, hapi, _⟩ => ⟨p, hp, hpe, hapi⟩
  · rw [hsub, hs]
    exact h.noted
  · have hthread : s'.thread = update s.thread i pc := by rw [hs]; rfl
    rw [hthread]
    rcases hsplit g hg with hlt | rfl
    · rw [hold g hlt] at hpe ⊢
      obtain ⟨k, p, hk, hpc⟩ :=
        h.waits (fun g' hg' hapi => hsafe g' (by omega) (by rw [hold g' hg', hapi])) g
        (hsub ▸ hlo) hlt hpe
      refine ⟨k, p, ?_, hpc⟩
      rw [update_of_ne, hk]
      rintro rfl
      exact hi p g hk
    · rw [hnew] at hpe ⊢
      rcases hkind with hv | ⟨p, -, hpage, -, rfl⟩
      · exact absurd hv (by rw [hpe]; exact Bool.false_ne_true)
      · exact ⟨i, p, update_self _ _ _, hpage⟩

theorem note (h : Requests u s) (hg : g < s.ring.submitted) (byteOffsets : Nat → BitVec 64)
    (states : Nat → EntryState) (n : Note) :
    Requests u
    { s with byteOffsets := byteOffsets, states := states, notes := update s.notes g n } := by
  refine ⟨h.size, h.kind, fun k hk => ?_, h.waits⟩
  by_cases hkg : k = g
  · rw [hkg]
    exact hg
  · refine h.noted k fun hfresh => hk ?_
    exact (update_of_ne hkg _ _).trans hfresh

theorem trans (h : Requests u s) (hc : Control u s) (he : Entries u s)
    (hr : RingMachine.Reach u.ring s.ring) (ht : Trans u s s') : Requests u s' := by
  have hinv := inv_of_reach hr
  have hnone {i : Nat} {pc : Pc} (hi : s.thread i = pc) (hpc : ∀ p g, pc ≠ .blocked p g) :
    SafeCalls u s →
      ∀ p g, s.thread i = .blocked p g → isVictim (s.ring.calls g).pcEntry = false →
      g < s.ring.submitted :=
    fun _ p g hb => absurd (hi.symm.trans hb) (hpc p g)
  have hnotify {seqDone flagDone : Nat →
    Bool} {pick : Nat} (hphase : s.ring.sched.phase = .notify seqDone flagDone)
      (hpick : pick < s.ring.sched.acc) : s.ring.retired + pick < s.ring.submitted := by
    have hp := hinv.phase_ok
    rw [hphase] at hp
    have hlog := hp.1.log
    have hsub := hp.2.2.1
    omega
  cases ht with
  | take i p hi _ _ => exact h.go rfl rfl rfl (hnone hi fun _ _ h => by cases h)
  | unlock i p hi =>
    rcases hi with hi | hi <;> exact h.go rfl rfl rfl (hnone hi fun _ _ h => by cases h)
  | evict i p byteOffset hi => exact h.go rfl rfl rfl (hnone hi fun _ _ h => by cases h)
  | ticket i p byteOffset hi => exact h.go rfl rfl rfl (hnone hi fun _ _ h => by cases h)
  | win i j hi _ => exact h.go rfl rfl rfl (hnone hi fun _ _ h => by cases h)
  | lose i j hi => exact h.go rfl rfl rfl (hnone hi fun _ _ h => by cases h)
  | swap i j st hi =>
    obtain ⟨pc, hthread, -, -, hring, -, hnotes⟩ := swapStep_frame (u := u) (s := s) i j st
    exact h.go hthread hring hnotes (hnone hi fun _ _ h => by cases h)
  | fill i j pc _ _ _ hi =>
    rcases hi with ⟨hi, rfl⟩ | ⟨hi, rfl⟩ | ⟨hi, rfl⟩ <;>
      exact h.go rfl rfl rfl (hnone hi fun _ _ h => by cases h)
  | occupy i j hi => exact h.go rfl rfl rfl (hnone hi fun _ _ h => by cases h)
  | enqueue i j hi =>
    have hlt : j.entry < u.nEntries := he.target_lt i _ (by rw [hi]; rfl)
    refine h.enter (fun p g hb => by rw [hi] at hb; cases hb) _ _ _ _ rfl (.inl ?_)
    exact isVictim_victimPe (Nat.lt_of_lt_of_le hlt u.nEntries_le)
  | block i p byteOffset hi _ =>
    exact h.enter (fun p g hb => by rw [hi] at hb; cases hb) _ _ _ _ rfl
      (.inr ⟨p, hc.slot_lt i p (by rw [hi]; rfl), rfl, rfl, rfl⟩)
  | direct i p byteOffset hi _ => exact h.go rfl rfl rfl (hnone hi fun _ _ h => by cases h)
  | call i p g ring _ hring => exact h.onward (onward_call hring)
  | ret i p g hi =>
    rcases hi with ⟨hi, -⟩ | ⟨hi, hfin⟩
    · exact h.go rfl rfl rfl (hnone hi fun _ _ h => by cases h)
    · refine h.go rfl rfl rfl fun hsafe p' g' hb hpe => ?_
      obtain ⟨rfl, rfl⟩ : p = p' ∧ g = g' := by
        rw [hi] at hb
        cases hb
        exact ⟨rfl, rfl⟩
      have hlt := hc.call_lt i g (by rw [hi]; rfl)
      rcases h.kind g hlt with hv | ⟨_, _, _, hapi⟩
      · rw [hpe] at hv
        cases hv
      · exact hinv.stored_lt g ((sync_ok (hsafe g hlt hapi) hr hlt hapi).2 hfin)
  | sched pick ring hring => exact h.onward (onward_sched hinv hring)
  | clear pick _ _ hphase hpick _ _ => exact h.note (hnotify hphase hpick) _ s.states _
  | free pick _ _ hphase hpick _ _ => exact h.note (hnotify hphase hpick) s.byteOffsets _ _
  | shutdown ring hring => exact h.onward (onward_shutdown hring)

end Requests

theorem Reach.requests (h : Reach u s) : Requests u s := by
  induction h with
  | init => exact requests_init u
  | step hr hstep ih => exact ih.trans hr.control.1 hr.entries hr.control.2 (step_trans hstep)

end Shaper.VictimBuffer
