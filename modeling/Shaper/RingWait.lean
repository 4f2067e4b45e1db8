import Shaper.RingRuns

/-! The waits of `io_sched_read`, `io_sched_write` and `io_sched_access`, which
compare `done_seq[idx] < slot + 1u` as plain 32-bit numbers. -/
namespace Shaper.RingWait
open RingMachine RingInvariant RingSchedule RingProgress RingDelivery RingRuns Request Lib Function
variable {r : Ring} {s t : State} {g pick : Nat}

def WaitSafe (r : Ring) (g : Nat) : Prop := g < r.capacity ∨ r.capacity ≤ (g+1) % 2^32

/-- The cell a published call waits on before its own completion is stored. -/
theorem doneSeq_before (h : Inv r s) (hp : published s g) (hn : s.seqStored g = false) :
    g < r.capacity ∧ s.doneSeq (cell r g) = 0#32 ∨
      r.capacity ≤ g ∧ s.doneSeq (cell r g) = BitVec.ofNat 32 (g - r.capacity + 1) := by
  have hc := capacity_pos r
  have hlt := h.toCallInv.lt_of_published hp
  have hprev : r.capacity ≤ g → s.seqStored (g - r.capacity) = true ∧
      (g - r.capacity) % 2^r.capacityLog = g % 2^r.capacityLog := by
    intro hle
    refine ⟨(h.notified _ (by omega)).1, ?_⟩
    have := Nat.add_mod_right (g - r.capacity) r.capacity
    rw [Nat.sub_add_cancel hle] at this
    exact this.symm
  rcases h.doneStamped g with ⟨hz, hno⟩ | ⟨g₀, hst, hr, hv, hlast⟩
  · refine .inl ⟨?_, hz⟩
    by_contra hge
    obtain ⟨hst, hr⟩ := hprev (by omega)
    exact hno _ hst hr
  · have hpub₀ := h.drained_published g₀ ((h.stored_lt g₀ hst).trans_le h.submitted_le)
    have hlt₀ := h.toCallInv.lt_of_published hpub₀
    have hne : g₀ ≠ g := fun he => by rw [he, hn] at hst; cases hst
    -- a later lap would mean that `g` itself had been retired
    have hbelow : g₀ < g := by
      by_contra hge
      have hlap := Counter.lap_le hr.symm (by omega)
      have := (h.notified g (by unfold Ring.capacity at hlt₀; omega)).1
      rw [hn] at this
      cases this
    have hlap : g₀ + r.capacity ≤ g := Counter.lap_le hr hbelow
    obtain ⟨hst', hr'⟩ := hprev (by omega)
    have hge := hlast _ hst' hr'
    have heq : g₀ = g - r.capacity := by omega
    exact .inr ⟨by omega, heq ▸ hv⟩

theorem wait_lt_iff (r : Ring) (hg : r.capacity ≤ g) :
    BitVec.ofNat 32 (g - r.capacity + 1) < BitVec.ofNat 32 g + 1#32 ↔
      r.capacity ≤ (g+1) % 2^32 := by
  have hc := capacity_pos r
  have hle := capacity_le r
  rw [← Counter.ofNat_succ, BitVec.lt_def, BitVec.toNat_ofNat, BitVec.toNat_ofNat]
  obtain ⟨d, rfl⟩ := Nat.exists_eq_add_of_le hg
  have hsub : r.capacity + d - r.capacity = d := by omega
  rw [hsub]
  omega

/-- The wait of a slot whose numbers compare the right way ends with its own stamp. -/
theorem stored_of_wait (h : Inv r s) (hp : published s g) (hsafe : WaitSafe r g)
    (hw : ¬ s.doneSeq (cell r g) < BitVec.ofNat 32 g + 1#32) : s.seqStored g = true := by
  by_contra hn
  rcases doneSeq_before h hp (by simpa using hn) with ⟨hlt, hv⟩ | ⟨hle, hv⟩
  · have hc := capacity_le r
    refine hw ?_
    rw [hv, ← Counter.ofNat_succ, BitVec.lt_def, BitVec.toNat_ofNat, BitVec.toNat_ofNat]
    omega
  · rw [hv, wait_lt_iff r hle] at hw
    exact hw (hsafe.resolve_left (by omega))

theorem seqStored_step {a : Act} (h : Inv r s) (hs : step r s a = some t)
    (hg : s.seqStored g = true) : t.seqStored g = true := by
  obtain ⟨pick, -, hb⟩ | ⟨f, -⟩ := step_cases hs
  · obtain ⟨-, hq, -⟩ | ⟨g', -, -, ⟨-, hq, -⟩ | ⟨-, hq, -⟩⟩ := sched_stores h hb <;> rw [hq]
    · exact hg
    · by_cases he : g = g'
      · rw [he, update_self]
      · rwa [update_of_ne he]
    · exact hg
  · rwa [f.seqStored_eq]

theorem callStep_finished (hs : callStep r s g = some t) (hf : (t.calls g).pc = .finished) :
    (s.calls g).pc = .returned ∧ (s.calls g).api = .sync ∧
        ¬ s.doneSeq (r.index (s.calls g).slot) < (s.calls g).slot + 1#32 ∨
      (s.calls g).pc = .polled := by
  simp only [callStep] at hs
  split at hs <;> rename_i hpc
  case h_1 =>
    split at hs <;> cases hs
    · rw [hpc] at hf
      cases hf
    · rw [setPc_pc_self] at hf
      cases hf
  case h_8 =>
    split at hs
    · rename_i hapi
      split at hs <;> cases hs
      · rw [hpc] at hf
        cases hf
      · rename_i hlt
        exact .inl ⟨hpc, hapi, hlt⟩
    · split at hs <;> cases hs
      · rw [hpc] at hf
        cases hf
      · rw [setPc_pc_self] at hf
        cases hf
    · cases hs
  case h_9 => exact .inr hpc
  case h_10 => cases hs
  all_goals
    cases hs
    rw [setPc_pc_self] at hf
    cases hf

theorem callStep_polled (hs : callStep r s g = some t) (hf : (t.calls g).pc = .polled) :
    (s.calls g).pc = .returned ∧ (s.calls g).api = .async ∧
      s.doneFlags (r.index (s.calls g).slot) ≠ 0#32 := by
  simp only [callStep] at hs
  split at hs <;> rename_i hpc
  case h_1 =>
    split at hs <;> cases hs
    · rw [hpc] at hf
      cases hf
    · rw [setPc_pc_self] at hf
      cases hf
  case h_8 =>
    split at hs
    · split at hs <;> cases hs
      · rw [hpc] at hf
        cases hf
      · rw [setPc_pc_self] at hf
        cases hf
    · rename_i hapi
      split at hs <;> cases hs
      · rw [hpc] at hf
        cases hf
      · rename_i hne
        exact ⟨hpc, hapi, hne⟩
    · cases hs
  case h_10 => cases hs
  all_goals
    cases hs
    rw [setPc_pc_self] at hf
    cases hf

theorem callStep_api (hs : callStep r s g = some t) : (t.calls g).api = (s.calls g).api := by
  obtain rfl | ⟨pc, _, _, _, -, rfl⟩ := callStep_shape hs
  · rfl
  · rw [setPc_calls]

/-- A step of the machine moves at most one call, and a new one starts at the full check. -/
theorem step_calls {a : Act} (hs : step r s a = some t) (hg : g < t.claimed) :
    (g < s.claimed ∧ t.calls g = s.calls g) ∨ (g = s.claimed ∧ (t.calls g).pc = .full) ∨
      (g < s.claimed ∧ a = .call g ∧ callStep r s g = some t) := by
  cases a with
  | claim api byteOffset nBytes pcEntry opcode =>
    cases hs
    rcases Nat.lt_succ_iff_lt_or_eq.mp hg with hlt | rfl
    · exact .inl ⟨hlt, claim_calls_of_lt hlt⟩
    · exact .inr (.inl ⟨rfl, by simp [claim]⟩)
  | call g' =>
    simp only [step] at hs
    split at hs
    · rename_i hg'
      by_cases he : g = g'
      · subst he
        exact .inr (.inr ⟨hg', rfl, hs⟩)
      · obtain rfl | ⟨pc, _, _, _, -, rfl⟩ := callStep_shape hs
        · exact .inl ⟨hg, rfl⟩
        · exact .inl ⟨hg, setPc_calls_of_ne s pc he⟩
    · cases hs
  | shutdown =>
    cases hs
    exact .inl ⟨hg, rfl⟩
  | sched pick =>
    obtain ⟨hc, hn, -⟩ := sched_keeps hs
    exact .inl ⟨hn ▸ hg, congrFun hc g⟩

def SyncOk (g : Nat) (s : State) : Prop :=
  g < s.claimed → (s.calls g).api = .sync →
    (s.calls g).pc ≠ .polled ∧ ((s.calls g).pc = .finished → s.seqStored g = true)

/-- A call whose wait compares the right way never returns early. -/
theorem sync_ok (hsafe : WaitSafe r g) (hr : Reach r s) : SyncOk g s := by
  refine run_induction (fun _ _ => id) ?_ ?_ hr
  · exact fun hg => absurd hg (Nat.not_lt_zero g)
  · intro s a t h _ hs ih hg ha
    obtain ⟨hlt, he⟩ | ⟨-, hfull⟩ | ⟨hlt, -, hcall⟩ := step_calls hs hg
    · rw [he] at ha ⊢
      exact ⟨(ih hlt ha).1, fun hf => seqStored_step h hs ((ih hlt ha).2 hf)⟩
    · rw [hfull]
      exact ⟨by simp, by simp⟩
    · rw [callStep_api hcall] at ha
      refine ⟨fun hp => ?_, fun hf => ?_⟩
      · obtain ⟨-, hasync, -⟩ := callStep_polled hcall hp
        rw [ha] at hasync
        cases hasync
      · obtain ⟨hpc, -, hw⟩ | hpc := callStep_finished hcall hf
        · rw [h.slot_eq g hlt, index_ofNat] at hw
          exact seqStored_step h hs (stored_of_wait h ⟨hlt, by rw [hpc]; rfl⟩ hsafe hw)
        · exact absurd hpc (ih hlt ha).1

/-- Where the register turns over between two laps, the later call can return
before the scheduler has even drained it. -/
theorem exists_early_return (hc : r.capacity ≤ g) (hw : (g+1) % 2^32 < r.capacity) :
    ∃ s, Reach r s ∧ g < s.claimed ∧ (s.calls g).api = .sync ∧ (s.calls g).pc = .finished ∧
      s.drained.length ≤ g ∧ s.seqStored g = false := by
  obtain ⟨s, hr, hq, -⟩ := quiet_init.exists_later (r := r) .refl g
  rw [Nat.zero_add] at hq
  have hk : r.keyed 0 := keyed_of_even r rfl
  obtain ⟨t, ht, hm, hpc⟩ := hq.exists_enqueue hr .sync 0 0 0 hk
  have hi := inv_of_reach ht
  have hs := inv_of_reach hr
  obtain ⟨hclaimed, hdrained, hstored, hapi⟩ : t.claimed = g + 1 ∧ t.drained = s.drained ∧
      t.seqStored = s.seqStored ∧ (t.calls g).api = .sync := by
    obtain ⟨pc, _, _, _, rfl⟩ := hm
    refine ⟨congrArg (· + 1) hq.claimed_eq, rfl, rfl, ?_⟩
    rw [setPc_calls]
    simp [claim, hq.claimed_eq]
  have hlen : t.drained.length ≤ g := by
    have := drained_le_claimed hs
    rw [hdrained]
    exact this.trans_eq hq.claimed_eq
  have hnot : t.seqStored g = false := by
    by_contra hne
    have := (hi.stored_lt g (by simpa using hne)).trans_le hi.submitted_le
    omega
  have hpub : published t g := ⟨by omega, by rw [hpc]; rfl⟩
  have hval := (doneSeq_before hi hpub hnot).resolve_left (by omega)
  have hlt : ¬ t.doneSeq (r.index (t.calls g).slot) < (t.calls g).slot + 1#32 := by
    rw [hi.slot_eq g (by omega), index_ofNat, hval.2, wait_lt_iff r hc]
    omega
  have hstep : callStep r t g = some (t.setPc g .finished) := by
    simp only [callStep, hpc, hapi, if_neg hlt]
  refine ⟨t.setPc g .finished, Reach.callStep ht hpub.1 hstep ?_, hpub.1, ?_, ?_, hlen, hnot⟩
  · refine unfinished_moved ⟨.finished, _, _, _, rfl⟩ fun hin => ?_
    rw [setPc_pc_self] at hin
    cases hin
  · rw [setPc_calls]
    exact hapi
  · exact setPc_pc_self _ _ _

/-- A ring of 1024 cells: the call that takes the last 32-bit slot number waits for
`done_seq < 0` and returns at once. -/
theorem last_slot_returns_early :
    ∃ s, Reach ⟨10, by decide, .write⟩ s ∧ 2^32-1 < s.claimed ∧
      (s.calls (2^32-1)).api = .sync ∧ (s.calls (2^32-1)).pc = .finished ∧
      s.drained.length ≤ 2^32-1 ∧ s.seqStored (2^32-1) = false :=
  exists_early_return (by decide) (by decide)

/-- The call of slot `g` never returns early, in any run, just when its number
compares the right way with the number of the lap before. -/
theorem sync_call_exact (r : Ring) (g : Nat) :
    (∀ s, Reach r s → g < s.claimed → (s.calls g).api = .sync → (s.calls g).pc = .finished →
      s.seqStored g = true) ↔ WaitSafe r g := by
  constructor
  · intro h
    by_contra hn
    unfold WaitSafe at hn
    obtain ⟨s, hr, hg, ha, hf, -, hno⟩ :=
      exists_early_return (r := r) (g := g) (by omega) (by omega)
    have := h s hr hg ha hf
    rw [hno] at this
    cases this
  · intro hsafe s hr hg ha hf
    exact (sync_ok hsafe hr hg ha).2 hf

end Shaper.RingWait
