import Shaper.CompletionRuns
import Shaper.Lib.Exec
import Shaper.SubmissionSafety

/-! What the queue pair guarantees while no poll is two laps late, and a run in which a
late poll lets a thread take the completion of another command. -/
namespace Shaper.CompletionQueue
open Function Lib Lib.Exec SubmissionQueue

section
variable {q r : Queue} {s s' : State}

/-- The head of the submission queue moves to the head a completion reports. -/
theorem retired_of_moveStep {sq sq' : SubmissionQueue.State} (h : SubmissionQueue.Inv q sq)
    (hstep : moveStep q sq = some sq') : sq'.retired = sq.retired ∨ ∃ c ∈ sq.cpls,
      sq'.retired = c.fetched ∧ q.loc sq'.head = c.sqhd.setWidth 32 ∧ sq.retired ≤ sq'.retired := by
  have hr := h.reports
  have hc := h.chain
  unfold moveStep at hstep
  split at hstep
  case h_1 => cases hstep
  case h_2 => exact .inl ((Option.some.inj hstep) ▸ rfl)
  case h_3 c loc count hm =>
    rw [hm] at hr
    split at hstep
    case isFalse => exact .inl ((Option.some.inj hstep) ▸ rfl)
    case isTrue hloc =>
      obtain rfl := Option.some.inj hstep
      have hwin : sq.taken.length < sq.moved + q.qs := by
        have := hc.fetched_le
        have := hc.rung_le
        have := hc.window
        have := hc.retired_le
        omega
      obtain ⟨hl, hhead, hmem, -, -⟩ := hr.mover_ok
      refine .inr ⟨c, hmem, (hr.stop_iff hwin).mp hloc, ?_, hc.retired_le⟩
      change q.loc (sq.head + count) = _
      rw [hhead, loc_ofNat, ← hl, hloc]

theorem Step.retired (h : Inv q r s) (hstep : Step q r (Recent r) s s') :
    s'.sq.retired = s.sq.retired ∨ ∃ e ∈ s.log, s'.sq.retired = e.cpl.fetched ∧
      q.loc s'.sq.head = e.cpl.sqhd.setWidth 32 ∧ s.sq.retired ≤ s'.sq.retired := by
  cases hstep with
  | thread hn hok hstep =>
    rcases threadStep_retired hstep with heq | hmove
    · exact .inl heq
    · rcases retired_of_moveStep h.sub hmove with heq | ⟨c, hc, hrest⟩
      · exact .inl heq
      · rw [← h.posted.cpls_eq] at hc
        obtain ⟨e, he, rfl⟩ := List.mem_map.mp hc
        exact .inr ⟨e, he, hrest⟩
  | fetch hstep =>
    unfold SubmissionQueue.fetch at hstep
    split at hstep
    · cases hstep
    · exact .inl ((Option.some.inj hstep) ▸ rfl)
  | _ => exact .inl rfl

theorem Step.passed_le (h : Inv q r s) (hstep : Step q r (Recent r) s s') :
    s.passed ≤ s'.passed := by
  cases hstep with
  | thread hn hok hstep =>
    rcases threadStep_passed hstep with heq | heq
    · exact heq.ge
    · rw [heq]
      exact h.passing.passed_le
  | _ => exact Nat.le_refl _

end

/-- The queue pair over any run in which no poll reads an entry two laps late: the
commands in flight have different identifiers; `cq_poll` returns the completion of the
thread's own command; the head of the completion queue passes the completions one after
the other, each when its owner has called `cq_dequeue` on it; and the head of the
submission queue goes on only to heads that completions report, never beyond the tail
given to the device. -/
theorem completion_queue_safe {q r : Queue} {s : State} (h : Reach q r (Recent r) s) :
    (∀ n < s.started, ∀ m < s.started, (s.threads n).stage.holding = true →
      (s.threads m).stage.holding = true → (s.threads n).cid = (s.threads m).cid → n = m) ∧
    (∀ n < s.started, (s.threads n).stage.answered = true →
      (s.threads n).answer = (s.threads n).call) ∧
    (s.head = BitVec.ofNat 32 s.passed ∧ s.advances.flatten = (List.range s.passed).map (cell r) ∧
      (∀ y < s.passed, ∃ e, s.log[y]? = some e ∧ ∃ n < s.started,
        (s.threads n).stage.called = true ∧ (s.threads n).call = e.command ∧
          (s.threads n).got = y) ∧
      ∀ s', Step q r (Recent r) s s' → s.passed ≤ s'.passed) ∧
    (s.sq.head = BitVec.ofNat 32 s.sq.retired ∧ s.sq.db = cell q s.sq.rung ∧
      s.sq.retired ≤ s.sq.rung ∧ (s.sq.tailLock = false → s.sq.tail = BitVec.ofNat 32 s.sq.rung) ∧
      ∀ s', Step q r (Recent r) s s' → s'.sq.retired = s.sq.retired ∨
        ∃ e ∈ s.log, s'.sq.retired = e.cpl.fetched ∧
          q.loc s'.sq.head = e.cpl.sqhd.setWidth 32 ∧ s.sq.retired ≤ s'.sq.retired) := by
  have hinv := h.inv
  have hp := hinv.passing
  have hc := hinv.sub.chain
  refine ⟨?_, ?_, ⟨hp.head_eq, hp.advances_eq, ?_, fun s' hs' => hs'.passed_le hinv⟩,
    hc.head_eq, hc.db_eq, ?_, ?_, fun s' hs' => hs'.retired hinv⟩
  · intro n hn m hm hh hh' hcid
    exact hinv.cids.lock.unique n m _ ⟨hn, hh, rfl⟩ ⟨hm, hh', hcid.symm⟩
  · intro n hn ha
    exact ((hinv.threads n hn).answered ha).own
  · intro y hy
    obtain ⟨n, hn, hcalled, hgot⟩ :=
      hinv.marks.called_of_swept y (hy.trans_le (hp.passed_le.trans hp.rung_le))
    obtain ⟨e, he, hcmd⟩ := ((hinv.threads n hn).answered (Stage.answered_of_called hcalled)).entry
    exact ⟨e, hgot ▸ he, n, hn, hcalled, hcmd.symm, hgot⟩
  · exact hc.retired_le.trans (hc.moved_le.trans hc.fetched_le)
  · intro hlock
    have htailed := hinv.sub.tailSection.free hlock
    rw [hc.tail_eq, Nat.le_antisymm hc.tailed_le (htailed ▸ hc.rung_le)]

inductive Choice where
  | start
  | thread (n : Nat)
  | enqueue (n : Nat)
  | fetch
  | post (f : Nat)

def bareCmd (id : BitVec 16) : Cmd := ⟨id.setWidth 256 <<< 16, 0⟩

def choose (q r : Queue) (late : Nat) (s : State) : Choice → Option State
  | .start => some (start s)
  | .thread n =>
    if n < s.started ∧ s.log.length ≤ late then threadStep q r s n else none
  | .enqueue n =>
    if n < s.started ∧ (s.threads n).pc = .enqueue ∧
        cidOf (bareCmd (s.threads n).cid) = (s.threads n).cid then
      some (enqueue s n (bareCmd (s.threads n).cid))
    else none
  | .fetch => (fetch q s.sq).map fun sq => { s with sq := sq }
  | .post f =>
    if f < s.sq.taken.length ∧ f ∉ s.log.map Entry.command ∧
        BitVec.ofNat 32 ((s.log.length + 1) % r.qs) ≠ s.db then
      some (post q r s f)
    else none

theorem choose_step {q r : Queue} {late : Nat} {ok : State → Nat → Prop} {s s' : State} {c : Choice}
    (hok : ∀ s n, s.log.length ≤ late → ok s n) (h : choose q r late s c = some s') :
    Step q r ok s s' := by
  cases c with
  | start =>
    obtain rfl := Option.some.inj h
    exact .start
  | thread n =>
    simp only [choose] at h
    split at h
    case isTrue hc => exact .thread hc.1 (hok s n hc.2) h
    case isFalse => cases h
  | enqueue n =>
    simp only [choose] at h
    split at h
    case isTrue hc =>
      obtain rfl := Option.some.inj h
      exact .enqueue hc.1 hc.2.1 hc.2.2
    case isFalse => cases h
  | fetch =>
    obtain ⟨sq, hsq, rfl⟩ := Option.map_eq_some_iff.mp h
    exact .fetch hsq
  | post f =>
    simp only [choose] at h
    split at h
    case isTrue hc =>
      obtain rfl := Option.some.inj h
      exact .post hc.1 hc.2.1 hc.2.2
    case isFalse => cases h

theorem choose_reach {q r : Queue} {late : Nat} {ok : State → Nat → Prop}
    (hok : ∀ s n, s.log.length ≤ late → ok s n) (s : State) (c : Choice) (s' : State)
    (hs : Reach q r ok s) (h : choose q r late s c = some s') : Reach q r ok s' :=
  hs.step (choose_step hok h)

def runs (n k : Nat) : List Choice := List.replicate k (.thread n)

theorem one_command_safe : ∃ s, Reach fourEntries fourEntries (Recent fourEntries) s ∧
    s.passed = 1 ∧ (s.threads 0).stage = .finished ∧ (s.threads 0).answer = (s.threads 0).call ∧
    s.advances.flatten = (List.range s.passed).map (cell fourEntries) := by
  have hrecent (s : State) (n : Nat) (hle : s.log.length ≤ 8) : Recent fourEntries s n := by
    intro head i _
    exact hle.trans (Nat.le_add_left _ _)
  have hend : (exec (choose fourEntries fourEntries 8)
      ([.start] ++ runs 0 2 ++ [.enqueue 0] ++ runs 0 20 ++ [.fetch, .post 0] ++ runs 0 23)
      init).any (fun s => decide (s.passed = 1 ∧ 0 < s.started ∧ (s.threads 0).stage = .finished)) =
        true := by
    decide +kernel
  obtain ⟨s, hreach, hpassed, hstarted, hst⟩ :=
    exists_of_exec (choose_reach hrecent) _ .init hend
  obtain ⟨-, hown, ⟨-, hadv, -⟩, -⟩ := completion_queue_safe hreach
  exact ⟨s, hreach, hpassed, hst, hown 0 hstarted (by rw [hst]; rfl), hadv⟩

def crowd (k : Nat) : State :=
  { init with
    cidTicket := BitVec.ofNat 32 k
    cidLock := fun c => decide (c.toNat < k)
    threads := fun n =>
      if n < k then { newThread with cid := BitVec.ofNat 16 n, pc := .enqueue } else newThread
    started := k }

theorem crowd_threads (k : Nat) (t : Thread) :
    update (update (update (crowd k).threads k newThread) k t) k
      { newThread with cid := BitVec.ofNat 16 k, pc := .enqueue } = (crowd (k+1)).threads := by
  funext n
  by_cases he : n = k
  · subst he
    rw [update_self]
    exact (if_pos (Nat.lt_succ_self n)).symm
  · rw [update_of_ne he, update_of_ne he, update_of_ne he]
    have hlt : n < k + 1 ↔ n < k := by omega
    simp only [crowd, hlt]

theorem crowd_cidLock {k : Nat} (hk : k < 2^16) :
    update (crowd k).cidLock (BitVec.ofNat 16 k) true = (crowd (k+1)).cidLock := by
  have hid : (BitVec.ofNat 16 k).toNat = k := by
    rw [BitVec.toNat_ofNat, Nat.mod_eq_of_lt hk]
  funext c
  by_cases he : c = BitVec.ofNat 16 k
  · subst he
    rw [update_self]
    refine (decide_eq_true ?_).symm
    rw [hid]
    exact Nat.lt_succ_self k
  · have hne : c.toNat ≠ k := fun hx => he (BitVec.eq_of_toNat_eq (hx.trans hid.symm))
    rw [update_of_ne he]
    exact decide_eq_decide.mpr (by omega)

theorem crowd_reach (q r : Queue) {k : Nat} (hk : k ≤ 2^16) :
    Reach q r (fun _ _ => True) (crowd k) := by
  induction k with
  | zero => exact .init
  | succ k ih =>
    have hid : (BitVec.ofNat 32 k).setWidth 16 = BitVec.ofNat 16 k := by
      apply BitVec.eq_of_toNat_eq
      rw [BitVec.toNat_setWidth, BitVec.toNat_ofNat, BitVec.toNat_ofNat]
      omega
    have hfree : (crowd k).cidLock (BitVec.ofNat 16 k) = false := by
      refine decide_eq_false ?_
      rw [BitVec.toNat_ofNat]
      omega
    have hpc : (start (crowd k)).threads k = newThread := update_self _ _ _
    have hticket : threadStep q r (start (crowd k)) k = some
        { (start (crowd k)).setThread k { newThread with pc := .lock (BitVec.ofNat 16 k) } with
          cidTicket := BitVec.ofNat 32 (k+1) } := by
      unfold threadStep
      rw [hpc, Counter.ofNat_succ k, ← hid]
      rfl
    refine ((ih (by omega)).step .start |>.step (.thread (Nat.lt_succ_self k) trivial hticket)).step
      (.thread (n := k) (Nat.lt_succ_self k) trivial ?_)
    unfold threadStep State.setThread
    simp only [update_self, start, State.setThread, hfree, Bool.false_eq_true, if_false]
    rw [crowd_cidLock (by omega)]
    exact congrArg (fun f => some { crowd (k+1) with threads := f }) (crowd_threads k _)

/-- Threads 1 to 11 and thread 0 each have a command, completed in the order of
submission. Thread 0 loads the head before two laps pass. Its completion comes, and it
marks it; thread 10, late at `head_lock`, takes the mark and stops. Thread 0 finds its
stale position passed and gives its identifier back; the next thread to have it finds
the same completion. -/
def lateScript : List Choice :=
  let submit (n k : Nat) : List Choice := .enqueue n :: runs n k
  let finish (n k : Nat) : List Choice := .post (n - 1) :: runs n k
  let fetchAll : List Choice := [.fetch, .fetch, .fetch]
  submit 1 20 ++ submit 2 20 ++ submit 3 19 ++ fetchAll ++ finish 1 25 ++
  submit 4 20 ++ submit 5 20 ++ submit 6 19 ++ fetchAll ++ finish 2 25 ++
  submit 7 20 ++ submit 8 20 ++ submit 9 19 ++ fetchAll ++ finish 3 25 ++
  submit 10 20 ++ submit 11 20 ++ submit 0 19 ++ fetchAll ++ runs 0 1 ++
  finish 4 25 ++ finish 5 22 ++ finish 6 22 ++ finish 7 22 ++ finish 8 22 ++ finish 9 22 ++
  [.post 9, .post 10] ++ runs 10 7 ++ runs 11 24 ++ [.post 11] ++ runs 0 5 ++ runs 10 4 ++
  runs 0 4 ++ [.start] ++ runs 65536 2 ++ submit 65536 20 ++ runs 65536 2

theorem late_poll_takes_foreign_completion : ∃ s n,
    Reach fourEntries fourEntries (fun _ _ => True) s ∧ n < s.started ∧
      (s.threads n).stage.answered = true ∧ (s.threads n).answer ≠ (s.threads n).call := by
  have hend : (exec (choose fourEntries fourEntries 12) lateScript (crowd (2^16))).any (fun s =>
      decide (65536 < s.started ∧ (s.threads 65536).stage.answered = true ∧
        (s.threads 65536).answer ≠ (s.threads 65536).call)) = true := by
    decide +kernel
  have hreach := crowd_reach fourEntries fourEntries (Nat.le_refl (2^16))
  obtain ⟨s, hs, hn, ha, hne⟩ :=
    exists_of_exec (choose_reach fun _ _ _ => trivial) _ hreach hend
  exact ⟨s, 65536, hs, hn, ha, hne⟩

end Shaper.CompletionQueue
