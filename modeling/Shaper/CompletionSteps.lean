import Mathlib.Data.List.Perm.Subperm
import Mathlib.Data.Finset.Card
import Mathlib.Order.Interval.Finset.Nat
import Shaper.CompletionInvariant

/-! The whole invariant of the queue pair carried over every step, as long as `cq_poll`
never reads an entry two laps after it loaded the head. -/
namespace Shaper.CompletionQueue
open Function Lib Lib.Ownership SubmissionQueue

structure Inv (q r : Queue) (s : State) : Prop where
  sub : SubmissionQueue.Inv q s.sq
  cids : Cids s.started s.passed s.cidLock s.log s.threads
  owners : Owners s.started s.sq.claimed s.threads
  threads : ∀ n < s.started,
    ThreadOk r s.sq.claimed s.sq.calls s.log s.swept s.passed (s.threads n)
  posted : Posted r s.sq.taken.length s.sq.calls s.sq.cpls s.log s.cells
  passing : Passing r s.passed s.rung s.swept s.log.length s.head s.db s.advances
  marks : HeadMarks r s.started s.swept s.headMark s.threads
  headSection : HeadSection s.started s.passed s.rung s.swept s.sq.passed s.sq.mover s.headLock
    s.threads

theorem inv_init (q r : Queue) : Inv q r init where
  sub := SubmissionQueue.inv_init q
  cids :=
    { lock :=
        { held_of_owns := fun _ _ h => absurd h.1 (Nat.not_lt_zero _)
          owner := fun _ h => by cases h
          unique := fun _ _ _ h => absurd h.1 (Nat.not_lt_zero _) }
      free := fun _ _ _ _ hy => by cases hy }
  owners :=
    { owner := fun _ hg => absurd hg (Nat.not_lt_zero _)
      unique := fun _ hn => absurd hn (Nat.not_lt_zero _) }
  threads _ hn := absurd hn (Nat.not_lt_zero _)
  posted :=
    { cpls_eq := rfl
      phase_eq := fun _ _ hy => by cases hy
      command_lt := fun _ _ hy => by cases hy
      nodup := List.Pairwise.nil
      cell_eq := fun _ _ hy => by cases hy
      blank := fun _ _ _ => rfl }
  passing :=
    { head_eq := rfl
      db_eq := by
        rw [← loc_ofNat]
        simp [init, Queue.loc]
      passed_le := Nat.le_refl _
      rung_le := Nat.le_refl _
      swept_le := Nat.le_refl _
      window := by
        have := qs_pos r
        simpa [init] using this
      near := by
        have := qs_pos r
        simpa [init] using this
      advances_eq := rfl }
  marks :=
    { called_of_swept := fun _ hy => absurd hy (Nat.not_lt_zero _)
      mark_of := fun _ hn => absurd hn (Nat.not_lt_zero _)
      of_mark := fun _ ha => by cases ha }
  headSection :=
    { lock :=
        { held_of_owns := fun _ _ h => absurd h.1 (Nat.not_lt_zero _)
          owner := fun _ h => by cases h
          unique := fun _ _ _ h => absurd h.1 (Nat.not_lt_zero _) }
      ok := fun _ hn => absurd hn (Nat.not_lt_zero _)
      free := fun _ => ⟨rfl, rfl, rfl⟩ }

section
variable {r : Queue} {claimed swept passed : Nat} {calls : Nat → Call} {log : List Entry}
  {t : Thread}

theorem threadOk_outside (ht : t.stage = .outside) :
    ThreadOk r claimed calls log swept passed t where
  since_le hh := by rw [ht] at hh; cases hh
  recycled hh := by rw [ht] at hh; cases hh
  call_lt hs := by rw [ht] at hs; cases hs
  call_left hs := by rw [ht] at hs; cases hs
  scanning head i hpc := by
    rw [Thread.stage, hpc] at ht
    cases ht
  answered ha := by rw [ht] at ha; cases ha
  cleared hc := by rw [ht] at hc; cases hc
  passed_lt hx := by rw [ht] at hx; cases hx

/-- The search phase is the phase tag of the completion that belongs in the place, also
past the wrap of the position. -/
theorem searchPhase_ofNat (r : Queue) (a : Nat) :
    searchPhase r (BitVec.ofNat 32 a) = phaseAt r a := by
  have hbit : (BitVec.ofNat 32 a >>> r.qsLog2).getLsbD 0 = a.testBit r.qsLog2 := by
    rw [BitVec.getLsbD_ushiftRight, Nat.add_zero, BitVec.getLsbD_ofNat]
    simp [qsLog2_lt r]
  unfold searchPhase phaseAt
  rw [hbit, Nat.testBit_eq_decide_div_mod_eq, ← Queue.qs]
  rcases Nat.mod_two_eq_zero_or_one (a / r.qs) with h | h <;> simp [h]

theorem phaseAt_add_qs (r : Queue) (a : Nat) : phaseAt r (a + r.qs) = !phaseAt r a := by
  unfold phaseAt
  rw [lap_add_qs]
  rcases Nat.mod_two_eq_zero_or_one (a / r.qs) with h | h
  · have : (a / r.qs + 1) % 2 = 1 := by omega
    rw [h, this]
    rfl
  · have : (a / r.qs + 1) % 2 = 0 := by omega
    rw [h, this]
    rfl

/-- The last wait of `cq_dequeue` ends only when the head has passed the position, which
was less than a lap ahead of the head that `cq_poll` loaded. -/
theorem lt_of_hasPassed {base got new : Nat} (hbase : base ≤ got) (hgot : got < base + r.qs)
    (hnew : base ≤ new)
    (h : hasPassed (BitVec.ofNat 32 new) (BitVec.ofNat 32 base) (BitVec.ofNat 32 got) = true) :
    got < new := by
  refine Nat.lt_of_not_le fun hle => ?_
  have hqs := qs_le r
  unfold hasPassed at h
  simp only [BitVec.lt_def, BitVec.le_def, BitVec.toNat_ofNat] at h
  split at h
  · rw [Bool.and_eq_true, decide_eq_true_eq, decide_eq_true_eq] at h
    omega
  · split at h
    · rw [Bool.or_eq_true, decide_eq_true_eq, decide_eq_true_eq] at h
      omega
    · cases h
end

theorem forall_update {P : Thread → Prop} {started n : Nat} {threads : Nat → Thread} {t : Thread}
    (h : ∀ m < started, P (threads m)) (ht : P t) : ∀ m < started, P (update threads n t m) := by
  intro m hm
  by_cases he : m = n
  · rw [he, update_self]
    exact ht
  · rw [update_of_ne he]
    exact h m hm

namespace Inv
variable {q r : Queue} {s s' : State} {n : Nat}

theorem update (h : Inv q r s) (t : Thread)
    (hhold : t.stage.holding = (s.threads n).stage.holding)
    (hcid : t.stage.holding = true → t.cid = (s.threads n).cid)
    (hsub : t.stage.submitted = (s.threads n).stage.submitted)
    (hcall : t.call = (s.threads n).call)
    (hcalled : t.stage.called = (s.threads n).stage.called)
    (hgot : t.stage.called = true → t.got = (s.threads n).got)
    (hst : t.stage = .sweeping ↔ (s.threads n).stage = .sweeping)
    (hsec : SectionOk s.passed s.rung s.swept s.sq.passed s.sq.mover t.pc)
    (hok : ThreadOk r s.sq.claimed s.sq.calls s.log s.swept s.passed t)
    (x : BitVec 32) (p : BitVec 32 → Bool) (y : BitVec 32) :
    Inv q r { s.setThread n t with cidTicket := x, posLock := p, tail := y } where
  sub := h.sub
  cids := h.cids.update hhold hcid
  owners := h.owners.update hsub hcall
  threads := forall_update h.threads hok
  posted := h.posted
  passing := h.passing
  marks := h.marks.update hcalled hgot
  headSection := h.headSection.update hst hsec

/-- A thread past `sq_enqueue` goes from `pc₀` to `pc`, with no bearing on the marks, the
locks and the identifiers. -/
theorem advance (h : Inv q r s) (hn : n < s.started) {pc₀ : Pc} (hpc : (s.threads n).pc = pc₀)
    (pc : Pc) (hsub : pc₀.stage.submitted = true ∧ pc.stage.submitted = true)
    (hq : pc₀.stage ≠ .queued) (hhold : pc.stage.holding = pc₀.stage.holding)
    (hcalled : pc.stage.called = pc₀.stage.called)
    (hans : pc.stage.answered = pc₀.stage.answered)
    (hst : pc.stage = .sweeping ↔ pc₀.stage = .sweeping)
    (hsec : SectionOk s.passed s.rung s.swept s.sq.passed s.sq.mover pc)
    (hscan : ∀ head i, pc = .scan head i → head = BitVec.ofNat 32 (s.threads n).base ∧
      (s.threads n).since ≤ (s.threads n).base ∧ (s.threads n).base ≤ s.passed)
    (hclear : pc.stage.cleared = true → (s.threads n).got < s.swept)
    (hpass : pc.stage.passed = true → (s.threads n).got < s.passed)
    (p : BitVec 32 → Bool) (y : BitVec 32) :
    Inv q r { s.setThread n { s.threads n with pc := pc } with posLock := p, tail := y } := by
  subst hpc
  exact h.update { s.threads n with pc := pc } hhold (fun _ => rfl)
    (hsub.2.trans hsub.1.symm) rfl hcalled
    (fun _ => rfl) hst
    hsec ((h.threads n hn).advance pc hsub.1 hq hsub.2 (fun hx => hhold ▸ hx) hscan
      (fun hx => hans ▸ hx) hclear hpass) s.cidTicket p y

theorem outside (h : Inv q r s) (hold : (s.threads n).stage = .outside) (pc : Pc)
    (hst : pc.stage = .outside) (x : BitVec 32) :
    Inv q r { s.setThread n { s.threads n with pc := pc } with cidTicket := x } := by
  have hsame : ({ s.threads n with pc := pc } : Thread).stage = (s.threads n).stage :=
    hst.trans hold.symm
  refine h.update { s.threads n with pc := pc } (congrArg _ hsame) (fun _ => rfl)
    (congrArg _ hsame) rfl (congrArg _ hsame)
    (fun _ => rfl) (by rw [hsame]) (sectionOk_of_not_holds ?_) (threadOk_outside hst) x s.posLock
    s.tail
  change pc.stage ≠ .sweeping
  rw [hst]
  decide

theorem start (h : Inv q r s) : Inv q r (start s) where
  sub := h.sub
  cids := h.cids.start rfl
  owners := h.owners.start rfl
  threads m hm := by
    change ThreadOk _ _ _ _ _ _ (Function.update s.threads s.started newThread m)
    rcases Nat.lt_succ_iff_lt_or_eq.mp hm with hlt | rfl
    · rw [update_of_ne (Nat.ne_of_lt hlt)]
      exact h.threads m hlt
    · rw [update_self]
      exact threadOk_outside rfl
  posted := h.posted
  passing := h.passing
  marks := h.marks.start rfl
  headSection := h.headSection.start (by decide)

theorem takeCid (h : Inv q r s) (hn : n < s.started) {id : BitVec 16}
    (hpc : (s.threads n).pc = .lock id) (hfree : s.cidLock id = false) :
    Inv q r { s.setThread n { s.threads n with cid := id, since := s.passed, pc := .enqueue } with
      cidLock := Function.update s.cidLock id true } := by
  have hold : (s.threads n).stage = .outside := by rw [Thread.stage, hpc]; rfl
  have hok : ThreadOk r s.sq.claimed s.sq.calls s.log s.swept s.passed
      { s.threads n with cid := id, since := s.passed, pc := .enqueue } :=
    { since_le := fun _ => Nat.le_refl _
      recycled := fun _ y e hy hc => .inr (h.cids.free id hfree y e hy hc)
      call_lt := fun hx => by cases hx
      call_left := fun hx => by cases hx
      scanning := fun _ _ hx => by cases hx
      answered := fun hx => by cases hx
      cleared := fun hx => by cases hx
      passed_lt := fun hx => by cases hx }
  exact {
    sub := h.sub
    cids := h.cids.take hn hfree (by rw [hold]; rfl) rfl rfl
    owners := h.owners.update (by rw [hold]; rfl) rfl
    threads := forall_update h.threads hok
    posted := h.posted
    passing := h.passing
    marks := h.marks.update (by rw [hold]; rfl) fun hx => by cases hx
    headSection := h.headSection.update
      (iff_of_false (fun hx => by cases hx) (by rw [hold]; decide)) trivial }

theorem enqueue (h : Inv q r s) (hn : n < s.started) {cmd : Cmd}
    (hpc : (s.threads n).pc = .enqueue) (hcid : cidOf cmd = (s.threads n).cid) :
    Inv q r (enqueue s n cmd) := by
  have hold : (s.threads n).stage = .holder := by rw [Thread.stage, hpc]; rfl
  have hcmd (g : Nat) (hg : g < s.sq.claimed) :
      (claim s.sq cmd).calls g = s.sq.calls g := update_of_ne (Nat.ne_of_lt hg) _ _
  have hthread := h.threads n hn
  have hok : ThreadOk r (s.sq.claimed + 1) (claim s.sq cmd).calls s.log s.swept s.passed
      { s.threads n with call := s.sq.claimed, pc := .inQueue } :=
    { since_le := fun _ => hthread.since_le (by rw [hold]; rfl)
      recycled := fun _ y e hy hc => by
        rcases hthread.recycled (by rw [hold]; rfl) y e hy hc with ⟨hx, -⟩ | hlt
        · rw [hold] at hx
          cases hx
        · exact .inr hlt
      call_lt := fun _ => by
        refine ⟨Nat.lt_succ_self _, ?_⟩
        have hnew : (claim s.sq cmd).calls s.sq.claimed = ⟨cmd, s.sq.inTicket, .spin⟩ :=
          update_self _ _ _
        rw [hnew]
        exact hcid
      call_left := fun _ hx => absurd rfl hx
      scanning := fun _ _ hx => by cases hx
      answered := fun hx => by cases hx
      cleared := fun hx => by cases hx
      passed_lt := fun hx => by cases hx }
  exact {
    sub := h.sub.claim cmd
    cids := h.cids.update (by rw [hold]; rfl) fun _ => rfl
    owners := h.owners.submit hn (fun m hm hs => ((h.threads m hm).call_lt hs).1)
      (by rw [hold]; rfl) rfl rfl
    threads := by
      refine forall_update (fun m hm => ?_) hok
      exact (h.threads m hm).calls_grow (Nat.le_succ _) (fun g hg => congrArg Call.cmd (hcmd g hg))
        fun g hg hl => (congrArg Call.pc (hcmd g hg)).trans hl
    posted := h.posted.calls_grow (Nat.le_refl _) fun g hg => by
      refine congrArg Call.cmd (hcmd g ?_)
      have hc := h.sub.chain
      have := hc.fetched_le
      have := hc.rung_le
      have := h.sub.marks.swept_le
      omega
    passing := h.passing
    marks := h.marks.update (by rw [hold]; rfl) fun hx => by cases hx
    headSection := h.headSection.update
      (iff_of_false (fun hx => by cases hx) (by rw [hold]; decide)) trivial }

/-- At most as many calls of `sq_enqueue` wait as there are identifiers. -/
theorem few (h : Inv q r s) : Few s.sq := by
  refine .inr ?_
  choose! o ho using h.owners.owner
  have hqueued {g : Nat} (hg : g ∈ Finset.Ico s.sq.swept s.sq.claimed) :
      o g < s.started ∧ (s.threads (o g)).stage.holding = true := by
    obtain ⟨hle, hlt⟩ := Finset.mem_Ico.mp hg
    obtain ⟨hn, hs, hc⟩ := ho g hlt
    refine ⟨hn, ?_⟩
    by_cases hq : (s.threads (o g)).stage = .queued
    · rw [hq]
      rfl
    · have hleft := (h.threads _ hn).call_left hs hq
      rw [hc] at hleft
      exact absurd hleft (h.sub.marks.not_cleared hlt hle)
  have hcard : (Finset.Ico s.sq.swept s.sq.claimed).card ≤ (Finset.range (2^16)).card := by
    refine Finset.card_le_card_of_injOn (fun g => (s.threads (o g)).cid.toNat) ?_ ?_
    · intro g _
      exact Finset.mem_coe.mpr (Finset.mem_range.mpr (s.threads (o g)).cid.isLt)
    · intro g hg g' hg' hcid
      have h₁ := hqueued (Finset.mem_coe.mp hg)
      have h₂ := hqueued (Finset.mem_coe.mp hg')
      have heq : o g = o g' := h.cids.lock.unique _ _ _ ⟨h₁.1, h₁.2, rfl⟩
        ⟨h₂.1, h₂.2, (BitVec.eq_of_toNat_eq hcid).symm⟩
      rw [← (ho g (Finset.mem_Ico.mp hg).2).2.2, heq, (ho g' (Finset.mem_Ico.mp hg').2).2.2]
  rw [Nat.card_Ico, Finset.card_range] at hcard
  omega

theorem queueStep (h : Inv q r s) (hn : n < s.started) {sq : SubmissionQueue.State}
    (hpc : (s.threads n).pc = .inQueue) (hleft : (s.sq.calls (s.threads n).call).pc ≠ .left)
    (hstep : callStep q s.sq (s.threads n).call = some sq) : Inv q r { s with sq := sq } := by
  have hlt := ((h.threads n hn).call_lt (by rw [Thread.stage, hpc]; rfl)).1
  have hsub := h.sub.step h.few (.call hlt hstep)
  obtain ⟨pc, hcalls⟩ := callStep_calls hstep
  have hcmd (g : Nat) : (sq.calls g).cmd = (s.sq.calls g).cmd := by rw [hcalls, repc_apply]
  have hkeep (g : Nat) (hg : (s.sq.calls g).pc = .left) : (sq.calls g).pc = .left := by
    have hne : g ≠ (s.threads n).call := by
      rintro rfl
      exact hleft hg
    rw [hcalls, repc_apply, if_neg hne, hg]
  obtain ⟨hclaimed, htaken, hcpls, hpassed, hmover, -, -⟩ := callStep_sameDevice hstep
  exact {
    sub := hsub
    cids := h.cids
    owners := by
      change Owners s.started sq.claimed s.threads
      rw [hclaimed]
      exact h.owners
    threads := fun m hm => by
      change ThreadOk r sq.claimed sq.calls s.log s.swept s.passed (s.threads m)
      rw [hclaimed]
      exact (h.threads m hm).calls_grow (Nat.le_refl _) (fun g _ => hcmd g) fun g _ => hkeep g
    posted := by
      change Posted r sq.taken.length sq.calls sq.cpls s.log s.cells
      rw [htaken, hcpls]
      exact h.posted.calls_grow (Nat.le_refl _) fun g _ => hcmd g
    passing := h.passing
    marks := h.marks
    headSection := by
      change HeadSection s.started s.passed s.rung s.swept sq.passed sq.mover s.headLock s.threads
      rw [hpassed, hmover]
      exact h.headSection }

theorem poll (h : Inv q r s) (hn : n < s.started) (base : Nat) (pc : Pc)
    (hold : (s.threads n).stage = .queued ∨ (s.threads n).stage = .polling)
    (hst : pc.stage = .polling) (hleft : (s.sq.calls (s.threads n).call).pc = .left)
    (hscan : ∀ head i, pc = .scan head i →
      head = BitVec.ofNat 32 base ∧ (s.threads n).since ≤ base ∧ base ≤ s.passed) :
    Inv q r (s.setThread n { s.threads n with base := base, pc := pc }) := by
  have ht := h.threads n hn
  have hhold : (s.threads n).stage.holding = true := by rcases hold with hx | hx <;> rw [hx] <;> rfl
  have hsub : (s.threads n).stage.submitted = true := by
    rcases hold with hx | hx <;> rw [hx] <;> rfl
  have hnot : (s.threads n).stage.called = false ∧ (s.threads n).stage ≠ .sweeping := by
    rcases hold with hx | hx <;> rw [hx] <;> decide
  have hst' : ({ s.threads n with base := base, pc := pc } : Thread).stage = .polling := hst
  refine h.update { s.threads n with base := base, pc := pc } ?_ (fun _ => rfl) ?_ rfl ?_
    (fun _ => rfl) ?_ (sectionOk_of_not_holds ?_) ?_ s.cidTicket s.posLock s.tail
  · rw [hst', hhold]
    rfl
  · rw [hst', hsub]
    rfl
  · rw [hst', hnot.1]
    rfl
  · exact iff_of_false (by rw [hst']; decide) hnot.2
  · change pc.stage ≠ .sweeping
    rw [hst]
    decide
  · exact {
      since_le := fun _ => ht.since_le hhold
      recycled := fun _ y e hy hc => by
        rcases ht.recycled hhold y e hy hc with ⟨-, hown⟩ | hlt
        · exact .inl ⟨by rw [hst']; rfl, hown⟩
        · exact .inr hlt
      call_lt := fun _ => ht.call_lt hsub
      call_left := fun _ _ => hleft
      scanning := hscan
      answered := fun hx => by rw [hst'] at hx; cases hx
      cleared := fun hx => by rw [hst'] at hx; cases hx
      passed_lt := fun hx => by rw [hst'] at hx; cases hx }

/-- An entry in the phase that `cq_poll` looks for is the completion that belongs in the
place, unless the one two laps later is already there. -/
theorem entry_of_phase (h : Inv q r s) {a : Nat} (hnear : a < s.log.length + r.qs)
    (hrecent : s.log.length ≤ a + 2 * r.qs) (hphase : (s.cells (cell r a)).phase = phaseAt r a) :
    s.log[a]? = some (s.cells (cell r a)) := by
  rcases Nat.lt_or_ge a s.log.length with hlt | hge
  · rcases Nat.lt_or_ge (a + r.qs) s.log.length with hlt' | hge'
    · have hlog := List.getElem?_eq_getElem hlt'
      have hcell := h.posted.cell_eq _ _ hlog (by omega)
      have hph := h.posted.phase_eq _ _ hlog
      rw [cell_add_qs] at hcell
      rw [hcell, hph, phaseAt_add_qs] at hphase
      cases hp : phaseAt r a <;> rw [hp] at hphase <;> cases hphase
    · have hlog := List.getElem?_eq_getElem hlt
      rw [h.posted.cell_eq _ _ hlog hge', hlog]
  · exfalso
    rcases Nat.lt_or_ge a r.qs with hfirst | hlater
    · rw [h.posted.blank a hge hfirst] at hphase
      unfold phaseAt at hphase
      rw [Nat.div_eq_of_lt hfirst] at hphase
      cases hphase
    · obtain ⟨b, rfl⟩ := Nat.exists_eq_add_of_le' hlater
      have hlt : b < s.log.length := by omega
      have hlog := List.getElem?_eq_getElem hlt
      have hcell := h.posted.cell_eq _ _ hlog (by omega)
      have hph := h.posted.phase_eq _ _ hlog
      rw [cell_add_qs, hcell, hph, phaseAt_add_qs] at hphase
      cases hp : phaseAt r b <;> rw [hp] at hphase <;> cases hphase

theorem found (h : Inv q r s) (hn : n < s.started) {head : BitVec 32} {i : Nat}
    (hpc : (s.threads n).pc = .scan head i) (hi : i < r.qs - 1)
    (hrecent : s.log.length ≤ (s.threads n).base + i + 2 * r.qs)
    (hcid : (s.cells (r.loc (head + BitVec.ofNat 32 i))).cid = (s.threads n).cid)
    (hphase : (s.cells (r.loc (head + BitVec.ofNat 32 i))).phase =
      searchPhase r (head + BitVec.ofNat 32 i)) :
    Inv q r (s.setThread n { s.threads n with
      pos := r.loc (head + BitVec.ofNat 32 i), loc := head + BitVec.ofNat 32 i, head := head
      got := (s.threads n).base + i
      answer := (s.cells (r.loc (head + BitVec.ofNat 32 i))).command, pc := .tailAdd }) := by
  have hold : (s.threads n).stage = .polling := by rw [Thread.stage, hpc]; rfl
  have ht := h.threads n hn
  obtain ⟨hhead, hsince, hbase⟩ := ht.scanning head i hpc
  have hcur : head + BitVec.ofNat 32 i = BitVec.ofNat 32 ((s.threads n).base + i) := by
    rw [hhead, BitVec.ofNat_add]
  have hc := h.passing
  rw [hcur, loc_ofNat] at hcid hphase ⊢
  rw [searchPhase_ofNat] at hphase
  have hlog := h.entry_of_phase (by
    have := hc.passed_le
    have := hc.rung_le
    have := hc.swept_le
    omega) hrecent hphase
  have hown : (s.cells (cell r ((s.threads n).base + i))).command = (s.threads n).call := by
    rcases ht.recycled (by rw [hold]; rfl) _ _ hlog hcid with hown | hlt
    · exact hown.2
    · omega
  refine h.update { s.threads n with
      pos := cell r ((s.threads n).base + i), loc := BitVec.ofNat 32 ((s.threads n).base + i)
      head := head, got := (s.threads n).base + i
      answer := (s.cells (cell r ((s.threads n).base + i))).command, pc := .tailAdd }
    (by rw [hold]; rfl) (fun _ => rfl) (by rw [hold]; rfl) rfl (by rw [hold]; rfl)
    (fun hx => by cases hx) (iff_of_false (fun hx => by cases hx) (by rw [hold]; decide)) trivial ?_
    s.cidTicket s.posLock s.tail
  exact {
    since_le := fun _ => ht.since_le (by rw [hold]; rfl)
    recycled := fun _ y e hy hx => by
      rcases ht.recycled (by rw [hold]; rfl) y e hy hx with ⟨-, hown⟩ | hlt
      · exact .inl ⟨rfl, hown⟩
      · exact .inr hlt
    call_lt := fun _ => ht.call_lt (by rw [hold]; rfl)
    call_left := fun _ _ => ht.call_left (by rw [hold]; rfl) (by rw [hold]; decide)
    scanning := fun _ _ hx => by cases hx
    answered := fun _ =>
      { own := hown
        entry := ⟨_, hlog, hown⟩
        pos_eq := rfl
        loc_eq := rfl
        head_eq := hhead
        base_le := Nat.le_add_right _ _
        got_lt := by
          change (s.threads n).base + i < (s.threads n).base + r.qs
          omega
        base_le_passed := hbase }
    cleared := fun hx => by cases hx
    passed_lt := fun hx => by cases hx }

theorem scan (h : Inv q r s) (hn : n < s.started) {head : BitVec 32} {i : Nat}
    (hpc : (s.threads n).pc = .scan head i) (hi : i < r.qs - 1)
    (hrecent : s.log.length ≤ (s.threads n).base + i + 2 * r.qs) :
    Inv q r (s.setThread n
      (scanThread r (s.cells (r.loc (head + BitVec.ofNat 32 i))) (s.threads n) head i)) := by
  have hold : (s.threads n).stage = .polling := by rw [Thread.stage, hpc]; rfl
  have ht := h.threads n hn
  have hleft := ht.call_left (by rw [hold]; rfl) (by rw [hold]; decide)
  unfold scanThread
  simp only
  split
  case isTrue hx => exact h.found hn hpc hi hrecent hx.1 hx.2
  case isFalse =>
    split
    case isTrue =>
      exact h.poll hn (s.threads n).base .loadHead (.inr hold) rfl hleft fun _ _ hx => by cases hx
    case isFalse =>
      refine h.poll hn (s.threads n).base (.scan head (i+1)) (.inr hold) rfl hleft ?_
      intro head' i' hx
      obtain ⟨rfl, -⟩ := Pc.scan.inj hx
      exact ht.scanning head i hpc

/-- A completion that a thread has found is not swept before it has called. -/
theorem swept_le_got (h : Inv q r s) (hn : n < s.started)
    (ha : (s.threads n).stage.answered = true) (hc : (s.threads n).stage.called = false) :
    s.swept ≤ (s.threads n).got := by
  refine Nat.le_of_not_lt fun hlt => ?_
  obtain ⟨m, hm, hcm, hgot⟩ := h.marks.called_of_swept _ hlt
  have ham := Stage.answered_of_called hcm
  obtain ⟨e, he, hec⟩ := ((h.threads n hn).answered ha).entry
  obtain ⟨e', he', hec'⟩ := ((h.threads m hm).answered ham).entry
  rw [hgot, he] at he'
  obtain rfl := Option.some.inj he'
  have hsame := h.owners.unique n hn m hm (Stage.submitted_of_answered ha)
    (Stage.submitted_of_answered ham) (hec.symm.trans hec')
  rw [← hsame, hc] at hcm
  cases hcm

theorem mark (h : Inv q r s) (hn : n < s.started) (hpc : (s.threads n).pc = .mark) :
    Inv q r { s.setThread n { s.threads n with pc := .look } with
      headMark := Function.update s.headMark (s.threads n).pos true } := by
  have hold : (s.threads n).stage = .found := by rw [Thread.stage, hpc]; rfl
  have ha : (s.threads n).stage.answered = true := by rw [hold]; rfl
  have hle := h.swept_le_got hn ha (by rw [hold]; rfl)
  have hpos := ((h.threads n hn).answered ha).pos_eq
  rw [hpos]
  exact {
    sub := h.sub
    cids := h.cids.update (by rw [hold]; rfl) fun _ => rfl
    owners := h.owners.update (by rw [hold]; rfl) rfl
    threads := by
      refine forall_update h.threads ?_
      exact (h.threads n hn).advance .look (by rw [hold]; rfl) (by rw [hold]; decide) rfl
        (fun _ => by rw [hold]; rfl) (fun _ _ hx => by cases hx) (fun _ => ha)
        (fun hx => by cases hx) fun hx => by cases hx
    posted := h.posted
    passing := h.passing
    marks := h.marks.mark (t := { s.threads n with pc := .look }) hn (by rw [hold]; rfl) rfl hle
    headSection := h.headSection.update
      (iff_of_false (fun hx => by cases hx) (by rw [hold]; decide)) trivial }

end Inv
end Shaper.CompletionQueue
