import Shaper.RingFlag

/-! `io_sched_shutdown` and the exit of the kernels. The exit test looks at the
published slots from the head of the ring on and stops at the first gap. -/
namespace Shaper.RingShutdown
open RingMachine RingInvariant RingSchedule RingProgress RingDelivery RingRuns RingWait RingFlag
open Request Lib Lib.Warp Lib.Rank Function
variable {r : Ring} {s t : State} {g pick : Nat}

def shut (s : State) : State := { s with shutdown := 1#32 }

def NoGap (s : State) : Prop := ∀ g, published s g → ∀ g' < g, published s g'

/-- No two threads of the block hold different values of `shutdown` at the exit test. -/
def SameLoads (s : State) : Prop :=
  ∀ seen, s.sched.phase = .flag seen → ∀ i < kSchedThreads, ∀ j < kSchedThreads,
    seen i = some true → seen j ≠ some false

def agreeingStep (r : Ring) (s : State) (a : Act) : Prop := keyedStep r s a ∧ SameLoads s

def ExitOk (g : Nat) (s : State) : Prop :=
  (∀ g' ≤ g, published s g') ∧
  match s.sched.phase with
  | .scan .exit pending _ => s.retired ≤ g → 0 < pending
  | .exited => g < s.retired
  | .torn => False
  | _ => True

theorem SameLoads.all_eq {seen : Nat → Option Bool} (hsame : SameLoads s)
    (hph : s.sched.phase = .flag seen)
    (hall : ((List.range kSchedThreads).all fun i => (seen i).isSome) = true)
    (hf : ¬ ((List.range kSchedThreads).all fun i => seen i == some false) = true) :
    ((List.range kSchedThreads).all fun i => seen i == some true) = true := by
  obtain ⟨i, hi, hne⟩ : ∃ i < kSchedThreads, seen i ≠ some false := by
    by_contra hno
    push Not at hno
    exact hf (List.all_eq_true.mpr fun i hi => by simp [hno i (List.mem_range.mp hi)])
  have hloaded : ∀ j < kSchedThreads, ∃ b, seen j = some b := fun j hj =>
    Option.isSome_iff_exists.mp (List.all_eq_true.mp hall j (List.mem_range.mpr hj))
  have htrue : seen i = some true := by
    obtain ⟨b, hb⟩ := hloaded i hi
    cases b <;> simp_all
  refine List.all_eq_true.mpr fun j hj => ?_
  have hj := List.mem_range.mp hj
  obtain ⟨b, hb⟩ := hloaded j hj
  cases b with
  | true => simp [hb]
  | false => exact absurd hb (hsame seen hph i hi j hj htrue)

theorem exitOk_sched (h : Inv r s) (hsame : SameLoads s) (hok : ExitOk g s)
    (hs : schedStep r s pick = some t) : ExitOk g t := by
  obtain ⟨hpub, hphase⟩ := hok
  obtain ⟨hc, hn, -⟩ := sched_keeps hs
  have hpub' : ∀ g' ≤ g, published t g' := by
    intro g' hg'
    unfold published
    rw [hc, hn]
    exact hpub g' hg'
  refine ⟨hpub', ?_⟩
  have hp := h.phase_ok
  simp only [schedStep] at hs
  split at hs <;> rename_i hph <;> rw [hph] at hp hphase
  case h_6 seen =>
    split at hs
    · rename_i hall
      cases hs
      by_cases hf : ((List.range kSchedThreads).all fun i => seen i == some false) = true
      · simp only [State.setPhase, if_pos hf]
      · simp only [State.setPhase, if_neg hf, if_pos (hsame.all_eq hph hall hf)]
    · split at hs <;> cases hs
      trivial
  case h_7 why =>
    cases hs
    cases why with
    | exit =>
      intro hle
      have hlt := (hpub _ hle).1
      have hpend := pending_eq h.toCallInv h.few (le_refl _) hlt.le
      have hroom := batchRoom_pos r
      rw [scanSlot_eq hp.1.1]
      simp only [scanStart, Nat.add_zero, hpend, scanMax]
      simp only [State.setPhase] at hle hlt
      omega
    | more ns => trivial
  case h_8 why pending i =>
    obtain ⟨⟨hb, -⟩, -⟩ := hp
    cases why with
    | exit =>
      split at hs <;> cases hs
      · exact hphase
      · rename_i hstop
        by_cases h0 : i = 0
        · simp only [afterScan, h0, if_true]
          by_contra hge
          have hle : s.retired ≤ g := by omega
          refine hstop ⟨h0 ▸ hphase hle, ?_⟩
          rw [scanSlot_eq hb, h0]
          exact seq_of_published h.toCallInv (le_refl _) (hpub _ hle)
        · simp only [afterScan, h0, if_false]
    | more ns =>
      split at hs <;> cases hs
      · trivial
      · by_cases h0 : i = 0 <;> simp [afterScan, h0]
  all_goals
    (repeat' split at hs) <;> cases hs <;> trivial

theorem exitOk_of_frame (f : Frame s t) (hb : t.sched = s.sched) (hok : ExitOk g s) :
    ExitOk g t := by
  refine ⟨fun g' hg' => (f.published_keeps g' (hok.1 g' hg')).1, ?_⟩
  have h := hok.2
  rw [hb, f.retired_eq]
  exact h

theorem exitOk_of_run (h : Inv r s) (hok : ExitOk g s) (hr : Run r (agreeingStep r) s t) :
    ExitOk g t := by
  induction hr with
  | refl => exact hok
  | step hr ha hs _ ih =>
    obtain ⟨pick, -, hb⟩ | ⟨f, hb, -⟩ := step_cases hs
    · exact exitOk_sched (inv_of_run (fun _ _ => And.left) h hr) ha.2 ih hb
    · exact exitOk_of_frame f hb ih

theorem exitOk_shut (h : Inv r s) (h0 : s.shutdown = 0#32) (hpub : ∀ g' ≤ g, published s g') :
    ExitOk g (shut s) := by
  refine ⟨hpub, ?_⟩
  have hp := h.phase_ok
  simp only [shut]
  split
  · rename_i hph
    rw [hph] at hp
    exact absurd h0 hp.2.1.2
  · rename_i hph
    rw [hph] at hp
    exact absurd h0 hp.2.2
  · rename_i hph
    rw [hph] at hp
    exact absurd h0 hp.2.2
  · trivial

def Leaving (s : State) : Phase → Prop
  | .top | .exited => True
  | .tail | .probe _ _ | .branch _ => s.sched.acc = 0
  | .flag seen => s.sched.acc = 0 ∧ ∀ i, seen i ≠ some false
  | .scanTail .exit => True
  | .scan .exit _ i => i = 0
  | _ => False

def exitRank : Phase → Nat ×ₗ Nat
  | .top => toLex (7, 0)
  | .tail => toLex (6, 0)
  | .probe _ ready => toLex (5, todo kSchedThreads fun i => (ready i).isSome)
  | .branch _ => toLex (4, 0)
  | .flag seen => toLex (3, todo kSchedThreads fun i => (seen i).isSome)
  | .scanTail _ => toLex (2, 0)
  | .scan _ _ _ => toLex (1, 0)
  | _ => toLex (0, 0)

theorem Leaving.sameLoads (hl : Leaving s s.sched.phase) : SameLoads s := by
  intro seen hph i _ j _ _
  rw [hph] at hl
  exact hl.2 j

structure Left (s₀ s : State) : Prop where
  retired_eq : s.retired = s₀.retired
  submitted_eq : s.submitted = s₀.submitted
  seqStored_eq : s.seqStored = s₀.seqStored

theorem leaving_step (h : Inv r s) (hd : s.shutdown ≠ 0#32) (hnp : ¬ published s s.retired)
    (hl : Leaving s s.sched.phase) (hne : s.sched.phase ≠ .exited) :
    ∃ pick t, schedStep r s pick = some t ∧ Leaving t t.sched.phase ∧ Left s t ∧
      exitRank t.sched.phase < exitRank s.sched.phase := by
  have hp := h.phase_ok
  simp only [schedStep]
  cases hph : s.sched.phase with
  | top => exact ⟨0, _, rfl, rfl, ⟨rfl, rfl, rfl⟩, lex_lt_of_fst (by decide)⟩
  | tail =>
    rw [hph] at hl
    exact ⟨0, _, rfl, hl, ⟨rfl, rfl, rfl⟩, lex_lt_of_fst (by decide)⟩
  | probe roundMax ready =>
    rw [hph] at hl hp
    by_cases hall : ((List.range kSchedThreads).all fun i => (ready i).isSome) = true
    · have hzero : ¬ 0 < min (leadCount (warpBallots (fun i => decide (ready i = some true)) 4 0))
          roundMax := by
        intro hpos
        obtain ⟨hvote, -, -⟩ := leadCount_spec (fun i => decide (ready i = some true)) 4 0
        have hv := hvote 0 (by omega)
        have hacc : s.sched.acc = 0 := hl
        have := (hp.2.2.2.2 0 (by simpa using hv)).2
        rw [hacc] at this
        exact hnp this
      refine ⟨0, _, (if_pos hall).trans (congrArg _ (congrArg _ (if_neg hzero))), hl,
        ⟨rfl, rfl, rfl⟩, ?_⟩
      exact lex_lt_of_fst (by decide)
    · obtain ⟨i, hi, hn⟩ := exists_todo (Bool.not_eq_true _ ▸ hall)
      have hnone : ready i = none := by simpa using hn
      refine ⟨i, _, (if_neg hall).trans (if_pos ⟨hi, hnone⟩), hl, ⟨rfl, rfl, rfl⟩, ?_⟩
      simp only [State.setPhase, exitRank, isSome_update]
      exact lex_lt_of_snd (todo_tick hi hn)
  | branch avail =>
    rw [hph] at hl hp
    have hacc : s.sched.acc = 0 := hl
    have h0 : avail = 0 := by
      by_contra hne
      have := hp.2 hne
      omega
    exact ⟨0, s.setPhase (.flag fun _ => none), by simp only [h0, hacc, and_self, if_true],
      ⟨hacc, fun _ h => by cases h⟩, ⟨rfl, rfl, rfl⟩, lex_lt_of_fst (by decide)⟩
  | flag seen =>
    rw [hph] at hl
    by_cases hall : ((List.range kSchedThreads).all fun i => (seen i).isSome) = true
    · have htrue : ((List.range kSchedThreads).all fun i => seen i == some true) = true := by
        refine List.all_eq_true.mpr fun i hi => ?_
        obtain ⟨b, hb⟩ := Option.isSome_iff_exists.mp (List.all_eq_true.mp hall i hi)
        cases b with
        | true => simp [hb]
        | false => exact absurd hb (hl.2 i)
      have hfalse : ¬ ((List.range kSchedThreads).all fun i => seen i == some false) = true := by
        intro hc
        have := List.all_eq_true.mp hc 0 (List.mem_range.mpr (by decide))
        exact hl.2 0 (by simpa using this)
      refine ⟨0, _, (if_pos hall).trans (congrArg _ (congrArg _
        ((if_neg hfalse).trans (if_pos htrue)))), trivial, ⟨rfl, rfl, rfl⟩, ?_⟩
      exact lex_lt_of_fst (by decide)
    · obtain ⟨i, hi, hn⟩ := exists_todo (Bool.not_eq_true _ ▸ hall)
      have hnone : seen i = none := by simpa using hn
      refine ⟨i, _, (if_neg hall).trans (if_pos ⟨hi, hnone⟩), ⟨hl.1, fun j => ?_⟩, ⟨rfl, rfl, rfl⟩,
        ?_⟩
      · by_cases he : j = i
        · simp [he, hd]
        · rw [update_of_ne he]
          exact hl.2 j
      · simp only [State.setPhase, exitRank, isSome_update]
        exact lex_lt_of_snd (todo_tick hi hn)
  | scanTail why =>
    rw [hph] at hl
    cases why with
    | exit => exact ⟨0, _, rfl, rfl, ⟨rfl, rfl, rfl⟩, lex_lt_of_fst (by decide)⟩
    | more ns => exact hl.elim
  | scan why pending i =>
    rw [hph] at hl hp
    obtain ⟨⟨hb, -⟩, -⟩ := hp
    cases why with
    | exit =>
      have h0 : i = 0 := hl
      have hstop : ¬ (i < pending ∧ s.prodSeq (r.index (s.sched.scanSlot .exit i)) =
          s.sched.scanSlot .exit i + 1#32) := by
        rintro ⟨-, hseq⟩
        rw [scanSlot_eq hb, h0] at hseq
        exact hnp (published_of_seq h.toCallInv (le_refl _)
          (Nat.lt_add_of_pos_right (batchRoom_pos r)) hseq)
      refine ⟨0, _, if_neg hstop, ?_, ⟨rfl, rfl, rfl⟩, ?_⟩
      · simp only [afterScan, h0, if_true]
        trivial
      · simp only [afterScan, h0, if_true]
        exact lex_lt_of_fst (by decide)
    | more ns => exact hl.elim
  | exited => exact absurd hph hne
  | _ =>
    rw [hph] at hl
    exact hl.elim

/-- A block at the top of its loop with nothing at the head of the ring exits. -/
theorem exists_exit (h : Inv r s) (hd : s.shutdown ≠ 0#32) (htop : s.sched.phase = .top)
    (hnp : ¬ published s s.retired) :
    ∃ t, Run r (agreeingStep r) s t ∧ t.sched.phase = .exited ∧ Left s t := by
  -- the run of the block alone keeps the flag and the gap, the other one is what is asked for
  have hstep : ∀ u, Inv r u ∧ (SchedRun r s u ∧ Run r (agreeingStep r) s u) ∧ Left s u ∧
        Leaving u u.sched.phase →
      ¬ u.sched.phase = .exited → ∃ v, (∃ pick, schedStep r u pick = some v) ∧
        (Inv r v ∧ (SchedRun r s v ∧ Run r (agreeingStep r) s v) ∧ Left s v ∧
          Leaving v v.sched.phase) ∧
        (v.sched.phase = .exited ∨ exitRank v.sched.phase < exitRank u.sched.phase) := by
    rintro u ⟨hi, ⟨hrun, hagree⟩, hleft, hl⟩ hne
    obtain ⟨hc, hn, hs⟩ := hrun.keeps
    have hnp' : ¬ published u u.retired := by
      unfold published
      rw [hleft.retired_eq, hc, hn]
      exact hnp
    obtain ⟨pick, v, hv, hl', hleft', hlt⟩ := leaving_step hi (hs ▸ hd) hnp' hl hne
    have hi' := sched_step hi hv
    refine ⟨v, ⟨pick, hv⟩, ⟨hi', ⟨hrun.tail ⟨pick, hv⟩, ?_⟩, ?_, hl'⟩, .inr hlt⟩
    · exact hagree.step (a := .sched pick) ⟨trivial, hl.sameLoads⟩ hv hi'.few
    · exact ⟨hleft'.1.trans hleft.1, hleft'.2.trans hleft.2, hleft'.3.trans hleft.3⟩
  obtain ⟨t, -, ⟨-, ⟨-, hagree⟩, hleft, -⟩, hexit⟩ := @Rank.exists_run State _ _ _ _
    (fun u => exitRank u.sched.phase) (fun u => u.sched.phase = .exited) _ hstep s
    ⟨h, ⟨.refl, .refl⟩, ⟨rfl, rfl, rfl⟩, htop ▸ trivial⟩
  exact ⟨t, hagree, hexit, hleft⟩

/-- When the kernel returns after a shutdown that met no gap and was seen by all threads
of the block in the same round, everything whose enqueue had returned before it has been
submitted and notified. -/
theorem shutdown_drains (r : Ring) (s t : State) (hr : Reach r s) (h0 : s.shutdown = 0#32)
    (hgap : NoGap s) (hrun : Run r (agreeingStep r) (shut s) t) (hexit : t.sched.phase = .exited) :
    ∀ g, published s g → g < t.submitted ∧ t.seqStored g = true ∧ t.flagStored g = true := by
  intro g hg
  have h := inv_of_reach hr
  have hs : Inv r (shut s) := step_inv (a := .shutdown) h trivial rfl h.few
  have hpub : ∀ g' ≤ g, published s g' := by
    intro g' hg'
    rcases Nat.lt_or_eq_of_le hg' with hlt | rfl
    · exact hgap g hg g' hlt
    · exact hg
  have hok := exitOk_of_run hs (exitOk_shut h h0 hpub) hrun
  have ht := inv_of_run (fun _ _ => And.left) hs hrun
  have hret : g < t.retired := by
    have := hok.2
    rwa [hexit] at this
  obtain ⟨hseq, hflag⟩ := ht.notified g hret
  exact ⟨ht.stored_lt g hseq, hseq, hflag⟩

/-- One request through the ring, then a shutdown and the exit. -/
theorem shutdown_drains_one :
    ∃ s t, Reach ⟨10, by decide, .read⟩ s ∧ published s 0 ∧
      Run ⟨10, by decide, .read⟩ (agreeingStep ⟨10, by decide, .read⟩) (shut s) t ∧
      t.sched.phase = .exited ∧ 0 < t.submitted ∧ t.seqStored 0 = true ∧ t.flagStored 0 = true := by
  have hk : (⟨10, by decide, .read⟩ : Ring).keyed 0 := keyed_of_even _ rfl
  obtain ⟨s, hr, hq, -⟩ := quiet_init.exists_next .refl .forget 4096 0 2 hk
  have h := inv_of_reach hr
  have hpub : ∀ g < 1, published s g := fun g hg =>
    h.retired_published g (by rw [hq.retired_eq]; exact hg)
  have hlt : ∀ g, published s g → g < 1 := fun g hg => hg.1.trans_eq hq.claimed_eq
  obtain ⟨t, hrun, hexit, -⟩ :=
    exists_exit (s := shut s) (step_inv (a := .shutdown) h trivial rfl h.few)
    (by simp [shut]) hq.phase_eq fun hp => by
      have := hlt _ hp
      rw [show (shut s).retired = 1 from hq.retired_eq] at this
      omega
  have hgap : NoGap s := fun g hg g' hg' => hpub g' (hg'.trans (hlt g hg))
  exact ⟨s, t, hr, hpub 0 (by omega), hrun, hexit,
    shutdown_drains _ s t hr hq.shutdown_eq hgap hrun hexit 0 (hpub 0 (by omega))⟩

/-- In any ring of two cells or more: slot 0 is claimed and not yet published when
slot 1 has been published and the shutdown comes. The kernel exits and leaves the
request of slot 1 behind. -/
theorem exists_lost_request (hc : 1 < r.capacity) :
    ∃ s t, Reach r s ∧ s.shutdown = 0#32 ∧ published s 1 ∧ (s.calls 1).api = .forget ∧
      Run r (agreeingStep r) (shut s) t ∧ t.sched.phase = .exited ∧ t.submitted = 0 ∧
      t.seqStored 1 = false := by
  have hk : r.keyed 0 := keyed_of_even r rfl
  have hr₁ := quiet_init.reach_claim (r := r) .refl .forget 4096 0 1 hk
  have hr₂ : Reach r (claim (claim init .forget 0 4096 0 1) .forget 0 4096 0 1) := by
    refine .step (a := .claim .forget 0 4096 0 1) hr₁ hk rfl ?_
    rw [unfinished_claim, unfinished_claim]
    decide
  obtain ⟨s, hr, hm, hpc⟩ := exists_enqueue (g := 1) hr₂ (by decide) rfl
    (hc.trans_eq (Nat.zero_add _).symm)
  obtain ⟨hinit, hapi⟩ : (s.shutdown = 0#32 ∧ s.sched = init.sched ∧ s.retired = 0 ∧
      s.submitted = 0 ∧ s.seqStored = init.seqStored) ∧ (s.calls 1).api = .forget := by
    obtain ⟨pc, _, _, _, rfl⟩ := hm
    refine ⟨⟨rfl, rfl, rfl, rfl, rfl⟩, ?_⟩
    rw [setPc_calls]
    rfl
  obtain ⟨hshut, hsched, hret, hsub, hstored⟩ := hinit
  have hhead : ¬ published s s.retired := by
    rw [hret]
    rintro ⟨-, hp⟩
    rw [hm.calls_of_ne (by decide)] at hp
    cases hp
  have h := inv_of_reach hr
  obtain ⟨t, ht, hexit, hleft⟩ := exists_exit (s := shut s)
    (step_inv (a := .shutdown) h trivial rfl h.few) (by simp [shut])
    (congrArg Sched.phase hsched) hhead
  refine ⟨s, t, hr, hshut, ⟨?_, by rw [hpc]; rfl⟩, hapi, ht, hexit, ?_, ?_⟩
  · rw [hm.claimed_eq]
    decide
  · exact hleft.submitted_eq.trans hsub
  · rw [hleft.seqStored_eq]
    exact congrFun hstored 1

theorem shutdown_loses_request :
    ∃ s t, Reach ⟨10, by decide, .write⟩ s ∧ s.shutdown = 0#32 ∧ published s 1 ∧
      (s.calls 1).api = .forget ∧
      Run ⟨10, by decide, .write⟩ (agreeingStep ⟨10, by decide, .write⟩) (shut s) t ∧
      t.sched.phase = .exited ∧ t.submitted = 0 ∧ t.seqStored 1 = false :=
  exists_lost_request (by decide)

end Shaper.RingShutdown
