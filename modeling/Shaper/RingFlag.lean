import Shaper.RingWait

/-! The asynchronous calls: `io_sched_submit` hands out a pointer into
`done_flags`, and `io_sched_wait` polls it and clears it. All laps share the cell. -/
namespace Shaper.RingFlag
open RingMachine RingInvariant RingSchedule RingProgress RingDelivery RingRuns RingWait Request
open Lib Function
variable {r : Ring} {s t : State} {g pick : Nat}

def CallPc.pastClear : CallPc → Bool
  | .full | .clearFlag => false
  | _ => true

theorem callStep_flags (hs : callStep r s g = some t) :
    ((s.calls g).pc = .clearFlag ∧ (t.calls g).pc = .putOffset ∧
      t.doneFlags = update s.doneFlags (r.index (s.calls g).slot) 0#32) ∨
    ((s.calls g).pc = .polled ∧ (t.calls g).pc = .finished ∧
      t.doneFlags = update s.doneFlags (r.index (s.calls g).slot) 0#32) ∨
    (CallPc.pastClear (t.calls g).pc = CallPc.pastClear (s.calls g).pc ∧
      (s.calls g).pc ≠ .polled ∧ (s.calls g).pc ≠ .finished ∧ t.doneFlags = s.doneFlags) := by
  simp only [callStep] at hs
  split at hs <;> rename_i hpc
  case h_1 =>
    split at hs <;> cases hs
    · exact .inr (.inr ⟨rfl, by simp [hpc], by simp [hpc], rfl⟩)
    · exact .inr (.inr ⟨by rw [setPc_pc_self, hpc]; rfl, by simp [hpc], by simp [hpc], rfl⟩)
  case h_2 =>
    cases hs
    exact .inl ⟨hpc, setPc_pc_self _ _ _, rfl⟩
  case h_8 =>
    split at hs
    · split at hs <;> cases hs
      · exact .inr (.inr ⟨rfl, by simp [hpc], by simp [hpc], rfl⟩)
      · exact .inr (.inr ⟨by rw [setPc_pc_self, hpc]; rfl, by simp [hpc], by simp [hpc], rfl⟩)
    · split at hs <;> cases hs
      · exact .inr (.inr ⟨rfl, by simp [hpc], by simp [hpc], rfl⟩)
      · exact .inr (.inr ⟨by rw [setPc_pc_self, hpc]; rfl, by simp [hpc], by simp [hpc], rfl⟩)
    · cases hs
  case h_9 =>
    cases hs
    exact .inr (.inl ⟨hpc, setPc_pc_self _ _ _, rfl⟩)
  case h_10 => cases hs
  all_goals
    cases hs
    exact .inr (.inr ⟨by rw [setPc_pc_self, hpc]; rfl, by simp [hpc], by simp [hpc], rfl⟩)

def flagStep (r : Ring) (s : State) (a : Act) : Prop :=
  keyedStep r s a ∧ ∀ g, a = .call g → (s.calls g).pc = .clearFlag →
    ∀ g' < g, cell r g' = cell r g → (s.calls g').api = .async → (s.calls g').pc = .finished

structure FlagInv (r : Ring) (s : State) : Prop where
  earlier : ∀ g < s.claimed, CallPc.pastClear (s.calls g).pc = true →
    ∀ g' < g, cell r g' = cell r g → (s.calls g').api = .async → (s.calls g').pc = .finished
  unset : ∀ g < s.claimed, (s.calls g).api = .async → CallPc.pastClear (s.calls g).pc = true →
    s.flagStored g = false → s.doneFlags (cell r g) = 0#32
  set : ∀ g < s.claimed, (s.calls g).api = .async → s.flagStored g = true →
    (s.calls g).pc ≠ .finished → s.doneFlags (cell r g) = 1#32
  own : ∀ g < s.claimed, (s.calls g).api = .async →
    (s.calls g).pc = .polled ∨ (s.calls g).pc = .finished → s.flagStored g = true
  polls : ∀ g < s.claimed, (s.calls g).pc = .polled → (s.calls g).api = .async

theorem published_of_flagStored (h : Inv r s) (hf : s.flagStored g = true) : published s g :=
  h.drained_published g ((h.stored_lt g (h.flag_seq g hf)).trans_le h.submitted_le)

theorem pastClear_of_published (hp : published s g) : CallPc.pastClear (s.calls g).pc = true := by
  have := hp.2
  cases hpc : (s.calls g).pc <;> simp_all [CallPc.pastClear, CallPc.inEnqueue]

theorem FlagInv.congr (hi : FlagInv r s) (hc : t.calls = s.calls) (hn : t.claimed = s.claimed)
    (hd : t.doneFlags = s.doneFlags) (hf : t.flagStored = s.flagStored) : FlagInv r t := by
  constructor <;> rw [hn, hc]
  · exact hi.earlier
  · rw [hd, hf]
    exact hi.unset
  · rw [hd, hf]
    exact hi.set
  · rw [hf]
    exact hi.own
  · exact hi.polls

theorem FlagInv.notify (hi : FlagInv r s) (h : Inv r s) {g₀ : Nat} (hlo : s.retired ≤ g₀)
    (hlt : g₀ < s.drained.length) (hc : t.calls = s.calls) (hn : t.claimed = s.claimed)
    (hd : t.doneFlags = update s.doneFlags (cell r g₀) 1#32)
    (hf : t.flagStored = update s.flagStored g₀ true) : FlagInv r t := by
  have hpub₀ := h.toCallInv.lt_of_published (h.drained_published g₀ hlt)
  constructor <;> rw [hn, hc]
  · exact hi.earlier
  · intro g hg ha hpc hno
    rw [hf] at hno
    have hne : g ≠ g₀ := fun he => by rw [he, update_self] at hno; cases hno
    rw [update_of_ne hne] at hno
    -- two slots of the current lap have different cells
    have hlo' : s.retired ≤ g := by
      by_contra hret
      rw [(h.notified g (by omega)).2] at hno
      cases hno
    have hlt' := h.window g hg fun hfull => by simp [hfull, CallPc.pastClear] at hpc
    rw [hd, update_of_ne (cell_ne hlo' hlo hlt' hpub₀ hne)]
    exact hi.unset g hg ha hpc hno
  · intro g hg ha hst hpc
    rw [hd]
    by_cases he : cell r g = cell r g₀
    · rw [he, update_self]
    · have hne : g ≠ g₀ := fun hgg => he (by rw [hgg])
      rw [hf, update_of_ne hne] at hst
      rw [update_of_ne he]
      exact hi.set g hg ha hst hpc
  · intro g hg ha hpc
    rw [hf]
    by_cases he : g = g₀
    · rw [he, update_self]
    · rw [update_of_ne he]
      exact hi.own g hg ha hpc
  · exact hi.polls

/-- Who may clear a cell in which a completed call still waits: nobody but the
call itself, as long as the clears at the enqueue keep to the order of the laps. -/
theorem FlagInv.clear_ne (hi : FlagInv r s) (h : Inv r s) (hok : flagStep r s (.call g))
    (hg : g < s.claimed) (hpc : (s.calls g).pc = .clearFlag ∨ (s.calls g).pc = .polled) {g' : Nat}
    (hg' : g' < s.claimed) (ha' : (s.calls g').api = .async) (hst : s.flagStored g' = true)
    (hf' : (s.calls g').pc ≠ .finished) (hne : g' ≠ g) : cell r g' ≠ cell r g := by
  intro hcell
  have hpub' := published_of_flagStored h hst
  rcases Nat.lt_or_gt_of_ne hne with hlt | hgt
  · rcases hpc with hclear | hpoll
    · exact hf' (hok.2 g rfl hclear g' hlt hcell ha')
    · exact hf' (hi.earlier g hg (by rw [hpoll]; rfl) g' hlt hcell ha')
  · rcases hpc with hclear | hpoll
    · have hlo := retired_le_of_inEnqueue h.toCallInv (g := g) (by rw [hclear]; rfl)
      have hlap := Counter.lap_le ((Counter.mask_eq_iff (capacityLog_lt r) g g').mp hcell.symm) hgt
      have hlt := h.toCallInv.lt_of_published hpub'
      unfold Ring.capacity at hlt
      omega
    · have hfin := hi.earlier g' hg' (pastClear_of_published hpub') g hgt hcell.symm
        (hi.polls g hg hpoll)
      rw [hpoll] at hfin
      cases hfin

theorem FlagInv.call (hi : FlagInv r s) (h : Inv r s) (hok : flagStep r s (.call g))
    (hg : g < s.claimed) (hs : callStep r s g = some t) : FlagInv r t := by
  obtain ⟨hclaimed, hstored, hother⟩ : t.claimed = s.claimed ∧ t.flagStored = s.flagStored ∧
      ∀ g' ≠ g, t.calls g' = s.calls g' := by
    obtain rfl | ⟨pc, _, _, _, -, rfl⟩ := callStep_shape hs
    · exact ⟨rfl, rfl, fun _ _ => rfl⟩
    · exact ⟨rfl, rfl, fun g' hne => setPc_calls_of_ne s pc hne⟩
  have hapi := callStep_api hs
  have hflags := callStep_flags hs
  rw [h.slot_eq g hg, index_ofNat] at hflags
  have hnotfin : (s.calls g).pc ≠ .finished := by
    rcases hflags with ⟨hpc, -⟩ | ⟨hpc, -⟩ | ⟨-, -, hpc, -⟩
    · simp [hpc]
    · simp [hpc]
    · exact hpc
  -- every clear is a store of 0 to the call's own cell
  have hzero : ∀ i, t.doneFlags i = s.doneFlags i ∨ t.doneFlags i = 0#32 := by
    intro i
    rcases hflags with ⟨-, -, hd⟩ | ⟨-, -, hd⟩ | ⟨-, -, -, hd⟩ <;> rw [hd]
    · by_cases he : i = cell r g
      · exact .inr (by rw [he, update_self])
      · exact .inl (update_of_ne he _ _)
    · by_cases he : i = cell r g
      · exact .inr (by rw [he, update_self])
      · exact .inl (update_of_ne he _ _)
    · exact .inl rfl
  refine ⟨?_, ?_, ?_, ?_, ?_⟩ <;> rw [hclaimed]
  · intro g₁ hg₁ hpast g' hlt hcell ha
    by_cases he' : g' = g
    · subst he'
      have hne : g₁ ≠ g' := Nat.ne_of_gt hlt
      rw [hother g₁ hne] at hpast
      rw [hapi] at ha
      exact absurd (hi.earlier g₁ hg₁ hpast g' hlt hcell ha) hnotfin
    · rw [hother g' he'] at ha ⊢
      by_cases he : g₁ = g
      · subst he
        rcases hflags with ⟨hpc, -⟩ | ⟨hpc, -⟩ | ⟨hsame, -⟩
        · exact hok.2 g₁ rfl hpc g' hlt hcell ha
        · exact hi.earlier g₁ hg₁ (by rw [hpc]; rfl) g' hlt hcell ha
        · exact hi.earlier g₁ hg₁ (hsame ▸ hpast) g' hlt hcell ha
      · rw [hother g₁ he] at hpast
        exact hi.earlier g₁ hg₁ hpast g' hlt hcell ha
  · intro g₁ hg₁ ha hpast hno
    rw [hstored] at hno
    by_cases he : g₁ = g
    · subst he
      rw [hapi] at ha
      rcases hflags with ⟨-, -, hd⟩ | ⟨hpc, -⟩ | ⟨hsame, -, -, hd⟩
      · rw [hd, update_self]
      · rw [hi.own g₁ hg₁ ha (.inl hpc)] at hno
        cases hno
      · rw [hd]
        exact hi.unset g₁ hg₁ ha (hsame ▸ hpast) hno
    · rw [hother g₁ he] at ha hpast
      have hold := hi.unset g₁ hg₁ ha hpast hno
      exact (hzero _).elim (·.trans hold) id
  · intro g₁ hg₁ ha hst hpc
    rw [hstored] at hst
    by_cases he : g₁ = g
    · subst he
      rw [hapi] at ha
      rcases hflags with ⟨hcl, -⟩ | ⟨-, hfin, -⟩ | ⟨-, -, -, hd⟩
      · have hpub := (published_of_flagStored h hst).2
        rw [hcl] at hpub
        cases hpub
      · exact absurd hfin hpc
      · rw [hd]
        exact hi.set g₁ hg₁ ha hst hnotfin
    · rw [hother g₁ he] at ha hpc
      have hold := hi.set g₁ hg₁ ha hst hpc
      rcases hflags with ⟨hcl, -, hd⟩ | ⟨hcl, -, hd⟩ | ⟨-, -, -, hd⟩ <;> rw [hd]
      · rwa [update_of_ne (hi.clear_ne h hok hg (.inl hcl) hg₁ ha hst hpc he)]
      · rwa [update_of_ne (hi.clear_ne h hok hg (.inr hcl) hg₁ ha hst hpc he)]
      · exact hold
  · intro g₁ hg₁ ha hpc
    rw [hstored]
    by_cases he : g₁ = g
    · subst he
      rw [hapi] at ha
      rcases hpc with hpoll | hfin
      · obtain ⟨hret, -, hne⟩ := callStep_polled hs hpoll
        rw [h.slot_eq g₁ hg₁, index_ofNat] at hne
        by_contra hno
        exact hne (hi.unset g₁ hg₁ ha (by rw [hret]; rfl) (by simpa using hno))
      · obtain ⟨-, hsync, -⟩ | hpoll := callStep_finished hs hfin
        · rw [ha] at hsync
          cases hsync
        · exact hi.own g₁ hg₁ ha (.inl hpoll)
    · rw [hother g₁ he] at ha hpc
      exact hi.own g₁ hg₁ ha hpc
  · intro g₁ hg₁ hpc
    by_cases he : g₁ = g
    · subst he
      rw [hapi]
      exact (callStep_polled hs hpc).2.1
    · rw [hother g₁ he] at hpc ⊢
      exact hi.polls g₁ hg₁ hpc

theorem FlagInv.claim (hi : FlagInv r s) (h : Inv r s) {api : Api}
    {byteOffset nBytes pcEntry : BitVec 64} {opcode : BitVec 8} :
    FlagInv r (claim s api byteOffset nBytes pcEntry opcode) := by
  have hnew : ((RingMachine.claim s api byteOffset nBytes pcEntry opcode).calls s.claimed).pc =
      .full := by
    simp [RingMachine.claim]
  have hno : s.flagStored s.claimed = false := by
    by_contra hf
    exact absurd (published_of_flagStored h (by simpa using hf)).1 (by omega)
  refine ⟨?_, ?_, ?_, ?_, ?_⟩
  · intro g hg hpast g' hlt hcell ha
    rcases Nat.lt_succ_iff_lt_or_eq.mp hg with hold | rfl
    · rw [claim_calls_of_lt hold] at hpast
      rw [claim_calls_of_lt (hlt.trans hold)] at ha ⊢
      exact hi.earlier g hold hpast g' hlt hcell ha
    · rw [hnew] at hpast
      cases hpast
  · intro g hg ha hpast hst
    rcases Nat.lt_succ_iff_lt_or_eq.mp hg with hold | rfl
    · rw [claim_calls_of_lt hold] at ha hpast
      exact hi.unset g hold ha hpast hst
    · rw [hnew] at hpast
      cases hpast
  · intro g hg ha hst hpc
    rcases Nat.lt_succ_iff_lt_or_eq.mp hg with hold | rfl
    · rw [claim_calls_of_lt hold] at ha hpc
      exact hi.set g hold ha hst hpc
    · exact absurd (hno.symm.trans hst) Bool.false_ne_true
  · intro g hg ha hpc
    rcases Nat.lt_succ_iff_lt_or_eq.mp hg with hold | rfl
    · rw [claim_calls_of_lt hold] at ha hpc
      exact hi.own g hold ha hpc
    · rw [hnew] at hpc
      cases hpc <;> contradiction
  · intro g hg hpc
    rcases Nat.lt_succ_iff_lt_or_eq.mp hg with hold | rfl
    · rw [claim_calls_of_lt hold] at hpc ⊢
      exact hi.polls g hold hpc
    · rw [hnew] at hpc
      cases hpc

theorem flagInv_of_run (hr : Run r (flagStep r) init s) : FlagInv r s := by
  refine run_induction (fun _ _ h => h.1) ?_ ?_ hr
  · constructor <;> exact fun g hg => absurd hg (Nat.not_lt_zero g)
  · intro s a t h hok hs hi
    cases a with
    | claim api byteOffset nBytes pcEntry opcode =>
      cases hs
      exact hi.claim h
    | call g =>
      simp only [step] at hs
      split at hs
      · rename_i hg
        exact hi.call h hok hg hs
      · cases hs
    | shutdown =>
      cases hs
      exact hi.congr rfl rfl rfl rfl
    | sched pick =>
      obtain ⟨hc, hn, -⟩ := sched_keeps hs
      obtain ⟨-, -, hd, hf⟩ | ⟨g₀, hlo, hlt, ⟨-, -, hd, hf⟩ | ⟨-, -, hd, hf⟩⟩ := sched_stores h hs
      · exact hi.congr hc hn hd hf
      · exact hi.congr hc hn hd hf
      · exact hi.notify h hlo hlt hc hn hd hf

/-- No completion is lost or taken by another call: a completed call that has not
returned finds its flag set, and a wait leaves its loop, clears the flag and
returns only after its own completion. -/
def FlagSound (r : Ring) (s : State) : Prop :=
  ∀ g < s.claimed, (s.calls g).api = .async →
    (s.flagStored g = true → (s.calls g).pc ≠ .finished → s.doneFlags (cell r g) = 1#32) ∧
    ((s.calls g).pc = .polled ∨ (s.calls g).pc = .finished → s.flagStored g = true)

/-- Within the first lap no two calls share a cell, so every run is of this kind. -/
theorem flagRun_of_reach (hr : Reach r s) (hn : s.claimed ≤ r.capacity) :
    Run r (flagStep r) init s := by
  induction hr with
  | refl => exact .refl
  | @step t u a ht hk hs hf ih =>
    have hle : t.claimed ≤ u.claimed := by
      obtain ⟨pick, -, hb⟩ | ⟨f, -⟩ := step_cases hs
      · exact (sched_keeps hb).2.1.ge
      · exact f.claimed_le
    refine .step (ih (by omega)) ⟨hk, ?_⟩ hs hf
    rintro g rfl - g' hlt hcell -
    simp only [step] at hs
    split at hs
    · exact absurd hcell
        (cell_ne (Nat.zero_le _) (Nat.zero_le _) (by omega) (by omega) (Nat.ne_of_lt hlt))
    · cases hs

/-- The flags are sound in every state of every run that keeps to `flagStep`. -/
theorem flags_sound (r : Ring) (s : State) (hr : Run r (flagStep r) init s) : FlagSound r s := by
  intro g hg ha
  have hi := flagInv_of_run hr
  exact ⟨hi.set g hg ha, hi.own g hg ha⟩

/-- Such runs reach states in which a call has completed and still waits. -/
theorem flags_sound_completed :
    ∃ s, Run ⟨10, by decide, .write⟩ (flagStep ⟨10, by decide, .write⟩) init s ∧ 0 < s.claimed ∧
      (s.calls 0).api = .async ∧ s.flagStored 0 = true ∧ (s.calls 0).pc = .returned ∧
      FlagSound ⟨10, by decide, .write⟩ s := by
  have hk : (⟨10, by decide, .write⟩ : Ring).keyed 0 := keyed_of_even _ rfl
  obtain ⟨s, hr, hq, -, ha, hpc⟩ := quiet_init.exists_next .refl .async 4096 0 2 hk
  have hrun := flagRun_of_reach hr (by rw [hq.claimed_eq]; decide)
  have hret : 0 < s.retired := by
    rw [hq.retired_eq]
    decide
  refine ⟨s, hrun, ?_, ha, ((inv_of_reach hr).notified 0 hret).2, hpc, flags_sound _ s hrun⟩
  rw [hq.claimed_eq]
  decide

/-- From rest, the next call can run just past the clear of its flag. -/
theorem exists_clear {n : Nat} (hq : Quiet s n) (hr : Reach r s) :
    ∃ t, Reach r t ∧ Moved n (claim s .forget 0 4096 0 2) t ∧ t.doneFlags (cell r n) = 0#32 := by
  obtain ⟨hg, hpc, hroom⟩ := hq.claim_call (r := r)
  have hclaim := hq.reach_claim hr .forget 4096 0 2 (keyed_of_even r rfl : r.keyed 0)
  obtain ⟨t, ht, -, hm, hpct⟩ := Reach.exists_callStep hclaim hg (by rw [hpc]; rfl) hroom
  rw [hpc] at hpct
  have hgt : n < t.claimed := hm.claimed_eq ▸ hg
  have hslot := (inv_of_reach ht).slot_eq n hgt
  obtain ⟨u, hu, hs, hmu, -⟩ := Reach.exists_callStep ht hgt (by rw [hpct]; rfl)
    (hm.retired_eq ▸ hroom)
  refine ⟨u, hu, hm.trans hmu, ?_⟩
  simp only [callStep, hpct, CallPc.succ, hslot, index_ofNat] at hs
  cases hs
  exact update_self _ _ _

/-- In any ring, a completed call can lose its flag to the enqueue one lap later. -/
theorem exists_lost_flag (r : Ring) :
    ∃ s, Reach r s ∧ 0 < s.claimed ∧ (s.calls 0).api = .async ∧ s.flagStored 0 = true ∧
      (s.calls 0).pc = .returned ∧ s.doneFlags (cell r 0) = 0#32 := by
  have hk : r.keyed 0 := keyed_of_even r rfl
  have hcap := capacity_pos r
  obtain ⟨s₁, hr₁, hq₁, -, ha₁, hpc₁⟩ := quiet_init.exists_next (r := r) .refl .async 4096 0 2 hk
  obtain ⟨s₂, hr₂, hq₂, hsame⟩ := hq₁.exists_later hr₁ (r.capacity - 1)
  rw [Nat.add_sub_cancel' hcap] at hq₂
  obtain ⟨t, ht, hm, hflag⟩ := exists_clear hq₂ hr₂
  have hcall : t.calls 0 = s₁.calls 0 := by
    rw [hm.calls_of_ne (by omega), claim_calls_of_lt (by rw [hq₂.claimed_eq]; omega),
      hsame 0 (by omega)]
  have hret : 0 < t.retired := by
    rw [hm.retired_eq]
    exact hq₂.retired_eq ▸ hcap
  have hcell : cell r r.capacity = cell r 0 :=
    (Counter.mask_eq_iff (capacityLog_lt r) r.capacity 0).mpr (Nat.mod_self _)
  refine ⟨t, ht, ?_, hcall ▸ ha₁, ((inv_of_reach ht).notified 0 hret).2, hcall ▸ hpc₁,
    hcell ▸ hflag⟩
  exact hm.claimed_eq ▸ Nat.succ_pos _

/-- A ring of 1024 cells whose first completed request waits on a flag that was cleared. -/
theorem lost_completion :
    ∃ s, Reach ⟨10, by decide, .write⟩ s ∧ 0 < s.claimed ∧ (s.calls 0).api = .async ∧
      s.flagStored 0 = true ∧ (s.calls 0).pc = .returned ∧
      s.doneFlags (cell ⟨10, by decide, .write⟩ 0) = 0#32 :=
  exists_lost_flag _

end Shaper.RingFlag
