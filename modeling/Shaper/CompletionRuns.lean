import Shaper.CompletionSteps

/-! The section under `head_lock`, the end of a command and the device, and with them the
invariant of the queue pair over whole runs. -/
namespace Shaper.CompletionQueue
open Function Lib Lib.Ownership SubmissionQueue

namespace Inv
variable {q r : Queue} {s s' : State} {n : Nat}

theorem got_lt (h : Inv q r s) (hn : n < s.started)
    (hc : (s.threads n).stage.called = true) : (s.threads n).got < s.swept + r.qs := by
  have hlt := ((h.threads n hn).answered (Stage.answered_of_called hc)).got_lt_length
  have := h.passing.window
  have := h.passing.rung_le
  omega

theorem takeHead (h : Inv q r s) (hn : n < s.started) (hpc : (s.threads n).pc = .lockHead)
    (hfree : s.headLock = false) :
    Inv q r { s.setThread n { s.threads n with pc := .loadCur } with headLock := true } := by
  have hold : (s.threads n).stage = .looping := by rw [Thread.stage, hpc]; rfl
  exact {
    sub := h.sub
    cids := h.cids.update (by rw [hold]; rfl) fun _ => rfl
    owners := h.owners.update (by rw [hold]; rfl) rfl
    threads := by
      refine forall_update h.threads ?_
      exact (h.threads n hn).advance .loadCur (by rw [hold]; rfl) (by rw [hold]; decide) rfl
        (fun _ => by rw [hold]; rfl) (fun _ _ hx => by cases hx) (fun _ => by rw [hold]; rfl)
        (fun hx => by cases hx) fun hx => by cases hx
    posted := h.posted
    passing := h.passing
    marks := h.marks.update (by rw [hold]; rfl) fun _ => rfl
    headSection := by
      have hs := h.headSection
      rw [hfree] at hs
      exact hs.take hn rfl }

theorem dropHead (h : Inv q r s) (hn : n < s.started) (hpc : (s.threads n).pc = .unlock) :
    Inv q r { s.setThread n { s.threads n with pc := .look } with headLock := false } := by
  have hold : (s.threads n).stage = .sweeping := by rw [Thread.stage, hpc]; rfl
  exact {
    sub := h.sub
    cids := h.cids.update (by rw [hold]; rfl) fun _ => rfl
    owners := h.owners.update (by rw [hold]; rfl) rfl
    threads := by
      refine forall_update h.threads ?_
      exact (h.threads n hn).advance .look (by rw [hold]; rfl) (by rw [hold]; decide) rfl
        (fun _ => by rw [hold]; rfl) (fun _ _ hx => by cases hx) (fun _ => by rw [hold]; rfl)
        (fun hx => by cases hx) fun hx => by cases hx
    posted := h.posted
    passing := h.passing
    marks := h.marks.update (by rw [hold]; rfl) fun _ => rfl
    headSection := h.headSection.drop hn hpc fun hx => by cases hx }

/-- The holder of `head_lock` goes from one phase to the next. -/
theorem work {swept rung passed : Nat} {head db : BitVec 32} {headMark : BitVec 32 → Bool}
    {advances : List (List (BitVec 32))} {sq : SubmissionQueue.State}
    (h : Inv q r s) (pc : Pc) (hn : n < s.started)
    (hold : (s.threads n).stage = .sweeping) (hst : pc.stage = .sweeping)
    (hsub : SubmissionQueue.Inv q sq) (hclaimed : sq.claimed = s.sq.claimed)
    (hcalls : sq.calls = s.sq.calls) (htaken : sq.taken = s.sq.taken)
    (hcpls : sq.cpls = s.sq.cpls) (hswept : s.swept ≤ swept) (hpassed : s.passed ≤ passed)
    (hpassing : Passing r passed rung swept s.log.length head db advances)
    (hmarks : HeadMarks r s.started swept headMark s.threads)
    (hok : SectionOk passed rung swept sq.passed sq.mover pc) :
    Inv q r { s.setThread n { s.threads n with pc := pc } with
      sq := sq, headMark := headMark, head := head, db := db
      swept := swept, rung := rung, passed := passed, advances := advances } := by
  have hst' : ({ s.threads n with pc := pc } : Thread).stage = (s.threads n).stage :=
    hst.trans hold.symm
  exact {
    sub := hsub
    cids := (h.cids.update (congrArg _ hst') fun _ => rfl).mono hpassed
    owners := by
      change Owners s.started sq.claimed _
      rw [hclaimed]
      exact h.owners.update (congrArg _ hst') rfl
    threads := by
      change ∀ m < s.started, ThreadOk r sq.claimed sq.calls s.log swept passed _
      rw [hclaimed, hcalls]
      refine forall_update (fun m hm => (h.threads m hm).mono hswept hpassed) ?_
      refine ((h.threads n hn).mono hswept hpassed).advance pc (by rw [hold]; rfl)
        (by rw [hold]; decide) (by rw [hst]; rfl) (fun _ => by rw [hold]; rfl)
        (fun _ _ hx => by rw [hx] at hst; cases hst) (fun _ => by rw [hold]; rfl)
        (fun hx => by rw [hst] at hx; cases hx) fun hx => by rw [hst] at hx; cases hx
    posted := by
      change Posted r sq.taken.length sq.calls sq.cpls s.log s.cells
      rw [htaken, hcalls, hcpls]
      exact h.posted
    passing := hpassing
    marks := hmarks.update (congrArg _ hst') fun _ => rfl
    headSection := h.headSection.work hn hold hst hok }

theorem cur_add_count (h : Inv q r s) {cur count : BitVec 32}
    (hcc : cur = BitVec.ofNat 32 s.passed ∧ count = BitVec.ofNat 32 (s.swept - s.passed)) :
    cur + count = BitVec.ofNat 32 s.swept := by
  have := h.passing.passed_le.trans h.passing.rung_le
  rw [hcc.1, hcc.2, ← BitVec.ofNat_add, Nat.add_sub_cancel' this]

theorem count_toNat (h : Inv q r s) {count : BitVec 32}
    (hcount : count = BitVec.ofNat 32 (s.swept - s.passed)) :
    count.toNat = s.swept - s.passed := by
  have := h.passing.near
  have := qs_le r
  rw [hcount, BitVec.toNat_ofNat, Nat.mod_eq_of_lt (by omega)]

theorem count_eq_zero_iff (h : Inv q r s) {count : BitVec 32}
    (hcount : count = BitVec.ofNat 32 (s.swept - s.passed)) :
    count = 0#32 ↔ s.passed = s.swept := by
  have hle := h.passing.passed_le.trans h.passing.rung_le
  have hn := h.count_toNat hcount
  rw [← BitVec.toNat_inj, hn, BitVec.toNat_zero]
  omega

theorem passes_eq (h : Inv q r s) {cur count : BitVec 32}
    (hcc : cur = BitVec.ofNat 32 s.passed ∧ count = BitVec.ofNat 32 (s.swept - s.passed)) :
    passes r cur count =
      (List.range (s.swept - s.passed)).map fun i => cell r (s.passed + i) := by
  unfold passes
  rw [h.count_toNat hcc.2]
  refine List.map_congr_left fun i _ => ?_
  rw [hcc.1, ← BitVec.ofNat_add, loc_ofNat]

theorem sweepOne (h : Inv q r s) (hn : n < s.started) {cur count : BitVec 32}
    (hpc : (s.threads n).pc = .sweep cur count)
    (hmark : s.headMark (r.loc (cur + count)) = true) :
    Inv q r { s.setThread n { s.threads n with pc := .sweep cur (count + 1#32) } with
      headMark := Function.update s.headMark (r.loc (cur + count)) false
      swept := s.swept + 1 } := by
  have hold : (s.threads n).stage = .sweeping := by rw [Thread.stage, hpc]; rfl
  have hok := h.headSection.ok n hn
  rw [hpc] at hok
  obtain ⟨hcc, hrung, hmover, hpassed⟩ := hok
  rw [h.cur_add_count hcc, loc_ofNat] at hmark ⊢
  have hwin (m : Nat) (hm : m < s.started) := h.got_lt hm
  obtain ⟨m, hm, hc, hgot⟩ := h.marks.next hwin hmark
  have hlt := ((h.threads m hm).answered (Stage.answered_of_called hc)).got_lt_length
  have hp := h.passing
  have hwindow := hp.window
  have hle := hp.passed_le.trans hp.rung_le
  have hnear : s.swept + 1 < s.passed + r.qs := by
    rw [hgot] at hlt
    omega
  have hcount : count + 1#32 = BitVec.ofNat 32 (s.swept + 1 - s.passed) := by
    rw [hcc.2, Nat.succ_sub hle]
    exact (Counter.ofNat_succ _).symm
  refine h.work (.sweep cur (count + 1#32)) hn hold rfl h.sub rfl rfl rfl rfl (Nat.le_succ _)
    (Nat.le_refl _) ?_ (h.marks.sweep hwin hmark) ⟨⟨hcc.1, hcount⟩, hrung, hmover, hpassed⟩
  exact { hp with
    rung_le := hp.rung_le.trans (Nat.le_succ _)
    swept_le := by omega
    near := hnear }

theorem sweepEnd (h : Inv q r s) (hn : n < s.started) {cur count : BitVec 32} {pc : Pc}
    (hpc : (s.threads n).pc = .sweep cur count)
    (hmark : s.headMark (r.loc (cur + count)) = false)
    (hnext : count = 0#32 ∧ pc = .unlock ∨ count ≠ 0#32 ∧ pc = .readCpl cur count) :
    Inv q r { s.setThread n { s.threads n with pc := pc } with
      headMark := Function.update s.headMark (r.loc (cur + count)) false } := by
  have hold : (s.threads n).stage = .sweeping := by rw [Thread.stage, hpc]; rfl
  have hok := h.headSection.ok n hn
  rw [hpc] at hok
  obtain ⟨hcc, hrung, hmover, hpassed⟩ := hok
  have hsame : Function.update s.headMark (r.loc (cur + count)) false = s.headMark := by
    rw [← hmark]
    exact update_eq_self _ _
  have hzero := h.count_eq_zero_iff hcc.2
  have hle := h.passing.passed_le.trans h.passing.rung_le
  rw [hsame]
  rcases hnext with ⟨hc, rfl⟩ | ⟨hc, rfl⟩
  · have he := hzero.mp hc
    exact h.work .unlock hn hold rfl h.sub rfl rfl rfl rfl (Nat.le_refl _) (Nat.le_refl _)
      h.passing h.marks ⟨he, hmover, hpassed.trans he⟩
  · have hne : s.passed ≠ s.swept := fun he => hc (hzero.mpr he)
    exact h.work (.readCpl cur count) hn hold rfl h.sub rfl rfl rfl rfl (Nat.le_refl _)
      (Nat.le_refl _) h.passing h.marks ⟨hcc, hrung, hmover, hpassed, Nat.lt_of_le_of_ne hle hne⟩

/-- The completion that `move_head_cq` reads is the last one it has swept. -/
theorem readCpl (h : Inv q r s) (hn : n < s.started) {cur count : BitVec 32}
    (hpc : (s.threads n).pc = .readCpl cur count) :
    Inv q r { s.setThread n { s.threads n with pc := .moving cur count } with
      sq := { s.sq with
        mover := .load (s.cells (r.loc (cur + (count - 1#32)))).cpl
        passed := s.swept } } := by
  have hold : (s.threads n).stage = .sweeping := by rw [Thread.stage, hpc]; rfl
  have hok := h.headSection.ok n hn
  rw [hpc] at hok
  obtain ⟨hcc, hrung, hmover, hpassed, hlt⟩ := hok
  obtain ⟨y, hy⟩ := Nat.exists_eq_add_of_lt hlt
  have hp := h.passing
  have hloc : r.loc (cur + (count - 1#32)) = cell r (s.passed + y) := by
    have hsum : cur + (count - 1#32) = BitVec.ofNat 32 (s.passed + y) := by
      have hcount : count = BitVec.ofNat 32 y + 1#32 := by
        rw [hcc.2, ← Counter.ofNat_succ]
        congr 1
        omega
      rw [hcount, BitVec.add_sub_cancel, hcc.1, ← BitVec.ofNat_add]
    rw [hsum, loc_ofNat]
  have hylt : s.passed + y < s.log.length := by
    have := hp.swept_le
    omega
  have hlog := List.getElem?_eq_getElem hylt
  have hcell := h.posted.cell_eq _ _ hlog (by
    have := hp.window
    omega)
  have hcpl : s.sq.cpls[s.sq.passed + y]? = some (s.cells (cell r (s.passed + y))).cpl := by
    rw [← h.posted.cpls_eq, hpassed, List.getElem?_map, hlog, hcell]
    rfl
  have hpass : SubmissionQueue.pass s.sq y = some { s.sq with
      mover := .load (s.cells (cell r (s.passed + y))).cpl, passed := s.swept } := by
    unfold SubmissionQueue.pass
    rw [hmover, hcpl, hpassed, hy]
  rw [hloc]
  exact h.work (.moving cur count) hn hold rfl (h.sub.pass hpass) rfl rfl rfl rfl (Nat.le_refl _)
    (Nat.le_refl _) hp h.marks ⟨hcc, hrung, rfl⟩

/-- The parts of the submission queue that `move_head_cq` leaves alone. -/
theorem moveStep_same {sq sq' : SubmissionQueue.State} (h : moveStep q sq = some sq') :
    sq'.claimed = sq.claimed ∧ sq'.calls = sq.calls ∧ sq'.taken = sq.taken ∧
      sq'.cpls = sq.cpls ∧ sq'.passed = sq.passed := by
  unfold moveStep at h
  split at h
  · cases h
  · obtain rfl := Option.some.inj h
    exact ⟨rfl, rfl, rfl, rfl, rfl⟩
  · split at h
    all_goals
      obtain rfl := Option.some.inj h
      exact ⟨rfl, rfl, rfl, rfl, rfl⟩

theorem sweeping (h : Inv q r s) (hn : n < s.started)
    (hold : (s.threads n).stage = .sweeping) (hstep : threadStep q r s n = some s') :
    Inv q r s' := by
  have hok := h.headSection.ok n hn
  have hp := h.passing
  cases hpc : (s.threads n).pc with
  | loadCur =>
    rw [hpc] at hok
    obtain ⟨he, hmover, hpassed⟩ := hok
    simp only [threadStep, hpc, Option.some.injEq] at hstep
    subst hstep
    have hrung : s.rung = s.passed := Nat.le_antisymm (he ▸ hp.rung_le) hp.passed_le
    refine h.work (.sweep s.head 0#32) hn hold rfl h.sub rfl rfl rfl rfl (Nat.le_refl _)
      (Nat.le_refl _) hp h.marks ⟨⟨hp.head_eq, ?_⟩, hrung, hmover, hpassed.trans he.symm⟩
    rw [he, Nat.sub_self]
  | sweep cur count =>
    simp only [threadStep, hpc] at hstep
    split at hstep
    case isTrue hmark =>
      obtain rfl := Option.some.inj hstep
      exact h.sweepOne hn hpc hmark
    case isFalse hmark =>
      have hmark' := Bool.eq_false_iff.mpr hmark
      split at hstep
      case isTrue hc =>
        obtain rfl := Option.some.inj hstep
        exact h.sweepEnd hn hpc hmark' (.inl ⟨hc, rfl⟩)
      case isFalse hc =>
        obtain rfl := Option.some.inj hstep
        exact h.sweepEnd hn hpc hmark' (.inr ⟨hc, rfl⟩)
  | readCpl cur count =>
    simp only [threadStep, hpc, Option.some.injEq] at hstep
    subst hstep
    exact h.readCpl hn hpc
  | moving cur count =>
    rw [hpc] at hok
    obtain ⟨hcc, hrung, hpassed⟩ := hok
    simp only [threadStep, hpc] at hstep
    split at hstep
    case isTrue hmover =>
      obtain rfl := Option.some.inj hstep
      exact h.work (.ringHead cur count) hn hold rfl h.sub rfl rfl rfl rfl (Nat.le_refl _)
        (Nat.le_refl _) hp h.marks ⟨hcc, hrung, hmover, hpassed⟩
    case isFalse =>
      obtain ⟨sq, hmove, rfl⟩ := Option.map_eq_some_iff.mp hstep
      obtain ⟨h₁, h₂, h₃, h₄, h₅⟩ := moveStep_same hmove
      have hself :
        Function.update s.threads n { s.threads n with pc := .moving cur count } = s.threads := by
        rw [← hpc]
        exact update_eq_self _ _
      have hres := h.work (.moving cur count) hn hold rfl (h.sub.move hmove) h₁ h₂ h₃ h₄
        (Nat.le_refl _) (Nat.le_refl _) hp h.marks ⟨hcc, hrung, h₅.trans hpassed⟩
      unfold State.setThread at hres
      rw [hself] at hres
      exact hres
  | ringHead cur count =>
    rw [hpc] at hok
    obtain ⟨hcc, hrung, hmover, hpassed⟩ := hok
    simp only [threadStep, hpc, Option.some.injEq] at hstep
    subst hstep
    have hwindow := hp.window
    have hrungle := hp.rung_le
    refine h.work (.storeHead cur count) hn hold rfl h.sub rfl rfl rfl rfl (Nat.le_refl _)
      (Nat.le_refl _) ?_ h.marks ⟨hcc, rfl, hmover, hpassed⟩
    exact { hp with
      db_eq := by rw [h.cur_add_count hcc, loc_ofNat]
      passed_le := hp.passed_le.trans hp.rung_le
      rung_le := Nat.le_refl _
      window := by omega }
  | storeHead cur count =>
    rw [hpc] at hok
    obtain ⟨hcc, hrung, hmover, hpassed⟩ := hok
    simp only [threadStep, hpc, Option.some.injEq] at hstep
    subst hstep
    have hle := hp.passed_le
    rw [hrung] at hle
    have hnear : s.swept < s.rung + r.qs := by
      rw [hrung]
      exact Nat.lt_add_of_pos_right (qs_pos r)
    refine h.work .unlock hn hold rfl h.sub rfl rfl rfl rfl (Nat.le_refl _) hp.passed_le ?_ h.marks
      ⟨hrung, hmover, hpassed⟩
    exact { hp with
      head_eq := by rw [h.cur_add_count hcc, hrung]
      passed_le := Nat.le_refl _
      near := hnear
      advances_eq := by
        obtain ⟨d, hd⟩ := Nat.exists_eq_add_of_le hle
        rw [List.flatten_append, hp.advances_eq, h.passes_eq hcc, hrung, hd, List.range_add,
          List.map_append, Nat.add_sub_cancel_left]
        simp [Function.comp_def] }
  | unlock =>
    simp only [threadStep, hpc, Option.some.injEq] at hstep
    subst hstep
    exact h.dropHead hn hpc
  | _ =>
    rw [Thread.stage, hpc] at hold
    cases hold

/-- `put_cid`: the completions with the identifier are all behind the head. -/
theorem putCid (h : Inv q r s) (hn : n < s.started) (hpc : (s.threads n).pc = .putCid) :
    Inv q r { s.setThread n { s.threads n with pc := .finished } with
      cidLock := Function.update s.cidLock (s.threads n).cid false } := by
  have hold : (s.threads n).stage = .over := by rw [Thread.stage, hpc]; rfl
  have ht := h.threads n hn
  have hgot := ht.passed_lt (by rw [hold]; rfl)
  have hall : ∀ (y : Nat) (e : Entry), s.log[y]? = some e → e.cid = (s.threads n).cid →
      y < s.passed := by
    intro y e hy hc
    rcases ht.recycled (by rw [hold]; rfl) y e hy hc with ⟨-, hown⟩ | hlt
    · obtain ⟨e', he', hec⟩ := (ht.answered (by rw [hold]; rfl)).entry
      rw [h.posted.eq_of_command hy he' (hown.trans hec.symm)]
      exact hgot
    · exact hlt.trans_le (ht.since_le (by rw [hold]; rfl))
  exact {
    sub := h.sub
    cids := h.cids.drop hn (by rw [hold]; rfl) rfl hall
    owners := h.owners.update (by rw [hold]; rfl) rfl
    threads := by
      refine forall_update h.threads ?_
      exact ht.advance .finished (by rw [hold]; rfl) (by rw [hold]; decide) rfl
        (fun hx => by cases hx) (fun _ _ hx => by cases hx) (fun _ => by rw [hold]; rfl)
        (fun _ => ht.cleared (by rw [hold]; rfl)) fun _ => hgot
    posted := h.posted
    passing := h.passing
    marks := h.marks.update (by rw [hold]; rfl) fun _ => rfl
    headSection := h.headSection.update
      (iff_of_false (fun hx => by cases hx) (by rw [hold]; decide)) trivial }

theorem fetch (h : Inv q r s) {sq : SubmissionQueue.State}
    (hstep : SubmissionQueue.fetch q s.sq = some sq) : Inv q r { s with sq := sq } := by
  have hsub := h.sub.fetch hstep
  unfold SubmissionQueue.fetch at hstep
  split at hstep
  case isTrue => cases hstep
  case isFalse =>
    obtain rfl := Option.some.inj hstep
    exact {
      sub := hsub
      cids := h.cids
      owners := h.owners
      threads := h.threads
      posted := h.posted.calls_grow (by simp) fun _ _ => rfl
      passing := h.passing
      marks := h.marks
      headSection := h.headSection }

theorem fetched_le_claimed (h : Inv q r s) : s.sq.taken.length ≤ s.sq.claimed :=
  h.sub.chain.fetched_le.trans (h.sub.chain.rung_le.trans h.sub.marks.swept_le)

/-- A command that is not completed has its thread, which still has the identifier. -/
theorem exists_holder (h : Inv q r s) {f : Nat} (hf : f < s.sq.taken.length)
    (hnew : f ∉ s.log.map Entry.command) : ∃ n < s.started,
      (s.threads n).stage.holding = true ∧ (s.threads n).stage.submitted = true ∧
        (s.threads n).call = f ∧ (s.threads n).cid = cidOf (s.sq.calls f).cmd := by
  obtain ⟨n, hn, hs, hc⟩ := h.owners.owner f (hf.trans_le h.fetched_le_claimed)
  have ht := h.threads n hn
  have hna : (s.threads n).stage.answered = false := by
    refine Bool.eq_false_iff.mpr fun ha => hnew ?_
    obtain ⟨e, he, hec⟩ := (ht.answered ha).entry
    exact List.mem_map.mpr ⟨e, List.mem_of_getElem? he, hec.trans hc⟩
  refine ⟨n, hn, Stage.holding_of_submitted hs hna, hs, hc, ?_⟩
  rw [← (ht.call_lt hs).2, hc]

theorem taken_getD (h : Inv q r s) {f : Nat} (hf : f < s.sq.taken.length) :
    s.sq.taken.getD f ⟨0, 0⟩ = (s.sq.calls f).cmd := by
  rw [h.sub.memory.taken_eq, List.getD_eq_getElem?_getD, List.getElem?_map,
    List.getElem?_range hf]
  rfl

theorem post (h : Inv q r s) {f : Nat} (hf : f < s.sq.taken.length)
    (hnew : f ∉ s.log.map Entry.command)
    (hroom : BitVec.ofNat 32 ((s.log.length + 1) % r.qs) ≠ s.db) : Inv q r (post q r s f) := by
  have hp := h.passing
  have hcount : s.sq.cpls.length < s.sq.taken.length := by
    have hsub : f :: s.log.map Entry.command ⊆ List.range s.sq.taken.length := by
      intro x hx
      rcases List.mem_cons.mp hx with rfl | hx
      · exact List.mem_range.mpr hf
      · obtain ⟨e, he, rfl⟩ := List.mem_map.mp hx
        obtain ⟨y, hy⟩ := List.getElem?_of_mem he
        exact List.mem_range.mpr (h.posted.command_lt y e hy).1
    have hnodup : (f :: s.log.map Entry.command).Nodup := List.nodup_cons.mpr ⟨hnew, h.posted.nodup⟩
    have hlen := (List.subperm_of_subset hnodup hsub).length_le
    rw [List.length_cons, List.length_map, List.length_range] at hlen
    rw [← h.posted.cpls_eq, List.length_map]
    exact hlen
  have hsub : SubmissionQueue.post q s.sq = some { s.sq with
      cpls := s.sq.cpls ++ [report q s.sq.taken.length] } := by
    unfold SubmissionQueue.post
    rw [if_pos hcount]
  obtain ⟨n, hn, hhold, hs, hcall, hcid⟩ := h.exists_holder hf hnew
  have hwindow : s.log.length + 1 < s.rung + r.qs := by
    have hlt := hp.window
    rcases Nat.lt_or_eq_of_le (Nat.succ_le_of_lt hlt) with hx | hx
    · exact hx
    · refine absurd ?_ hroom
      change cell r (s.log.length + 1) = s.db
      rw [Nat.succ_eq_add_one] at hx
      rw [hx, hp.db_eq, cell_add_qs]
  have hlen (e : Entry) : (s.log ++ [e]).length = s.log.length + 1 := List.length_append
  unfold CompletionQueue.post
  rw [h.taken_getD hf]
  exact {
    sub := h.sub.post hsub
    cids := h.cids.post (h.cids.lock.held_of_owns n _ ⟨hn, hhold, hcid⟩)
    owners := h.owners
    threads := fun m hm => (h.threads m hm).post fun hh hc => by
      have hmn : m = n := h.cids.lock.unique m n _ ⟨hm, hh, rfl⟩ ⟨hn, hhold, hcid.trans hc⟩
      rw [hmn]
      exact ⟨hs, hcall.symm⟩
    posted := h.posted.post hf hnew rfl
    passing := by
      change Passing r s.passed s.rung s.swept (s.log ++ [_]).length s.head s.db s.advances
      rw [hlen]
      exact { hp with swept_le := hp.swept_le.trans (Nat.le_succ _), window := hwindow }
    marks := h.marks
    headSection := h.headSection }

/-- `cq_dequeue` goes on to its last wait: `move_head_cq` has taken the completion. -/
theorem clear (h : Inv q r s) (hn : n < s.started) (hpc : (s.threads n).pc = .look)
    (hmark : ¬ s.headMark (s.threads n).pos = true) :
    Inv q r (s.setThread n { s.threads n with pc := .loadNew }) := by
  have hold : (s.threads n).stage = .looping := by rw [Thread.stage, hpc]; rfl
  have ha := (h.threads n hn).answered (by rw [hold]; rfl)
  have hswept : (s.threads n).got < s.swept := by
    refine Nat.lt_of_not_le fun hle => hmark ?_
    rw [ha.pos_eq]
    exact h.marks.mark_of n hn (by rw [hold]; rfl) hle
  exact h.advance hn hpc .loadNew ⟨rfl, rfl⟩ (by decide) rfl rfl rfl (by decide) trivial
    (fun _ _ hx => by cases hx) (fun _ => hswept) (fun hx => by cases hx) s.posLock s.tail

theorem pastWait (h : Inv q r s) (hn : n < s.started) (hpc : (s.threads n).pc = .loadNew)
    (hx : hasPassed s.head (s.threads n).head (s.threads n).loc = true) :
    Inv q r (s.setThread n { s.threads n with pc := .freePos }) := by
  have hold : (s.threads n).stage = .waiting := by rw [Thread.stage, hpc]; rfl
  have ht := h.threads n hn
  have ha := ht.answered (by rw [hold]; rfl)
  rw [h.passing.head_eq, ha.head_eq, ha.loc_eq] at hx
  have hgot := lt_of_hasPassed ha.base_le ha.got_lt ha.base_le_passed hx
  exact h.advance hn hpc .freePos ⟨rfl, rfl⟩ (by decide) rfl rfl rfl (by decide) trivial
    (fun _ _ hx => by cases hx) (fun _ => ht.cleared (by rw [hold]; rfl)) (fun _ => hgot)
    s.posLock s.tail

theorem thread (h : Inv q r s) (hn : n < s.started) (hok : Recent r s n)
    (hstep : threadStep q r s n = some s') : Inv q r s' := by
  by_cases hsweep : (s.threads n).stage = .sweeping
  · exact h.sweeping hn hsweep hstep
  have ht := h.threads n hn
  cases hpc : (s.threads n).pc with
  | ticket =>
    simp only [threadStep, hpc, Option.some.injEq] at hstep
    subst hstep
    exact h.outside (by rw [Thread.stage, hpc]; rfl) _ rfl _
  | lock id =>
    simp only [threadStep, hpc] at hstep
    split at hstep
    case isTrue =>
      obtain rfl := Option.some.inj hstep
      exact h.outside (by rw [Thread.stage, hpc]; rfl) .ticket rfl s.cidTicket
    case isFalse hfree =>
      obtain rfl := Option.some.inj hstep
      exact h.takeCid hn hpc (Bool.eq_false_iff.mpr hfree)
  | inQueue =>
    have hold : (s.threads n).stage = .queued := by rw [Thread.stage, hpc]; rfl
    simp only [threadStep, hpc] at hstep
    split at hstep
    case isTrue hleft =>
      obtain rfl := Option.some.inj hstep
      exact h.poll hn (s.threads n).base .loadHead (.inl hold) rfl hleft fun _ _ hx => by cases hx
    case isFalse hleft =>
      obtain ⟨sq, hcall, rfl⟩ := Option.map_eq_some_iff.mp hstep
      exact h.queueStep hn hpc hleft hcall
  | loadHead =>
    have hold : (s.threads n).stage = .polling := by rw [Thread.stage, hpc]; rfl
    simp only [threadStep, hpc, Option.some.injEq] at hstep
    subst hstep
    refine h.poll hn s.passed (.scan s.head 0) (.inr hold) rfl
      (ht.call_left (by rw [hold]; rfl) (by rw [hold]; decide)) ?_
    intro head i hx
    obtain ⟨rfl, rfl⟩ := Pc.scan.inj hx
    exact ⟨h.passing.head_eq, ht.since_le (by rw [hold]; rfl), Nat.le_refl _⟩
  | scan head i =>
    have hold : (s.threads n).stage = .polling := by rw [Thread.stage, hpc]; rfl
    simp only [threadStep, hpc] at hstep
    split at hstep
    case isTrue hi =>
      obtain rfl := Option.some.inj hstep
      exact h.scan hn hpc hi (hok head i hpc)
    case isFalse =>
      obtain rfl := Option.some.inj hstep
      exact h.poll hn (s.threads n).base .loadHead (.inr hold) rfl
        (ht.call_left (by rw [hold]; rfl) (by rw [hold]; decide)) fun _ _ hx => by cases hx
  | tailAdd =>
    simp only [threadStep, hpc, Option.some.injEq] at hstep
    subst hstep
    exact h.advance hn hpc .waitPos ⟨rfl, rfl⟩ (by decide) rfl rfl rfl (by decide) trivial
      (fun _ _ hx => by cases hx) (fun hx => by cases hx) (fun hx => by cases hx) s.posLock _
  | waitPos =>
    simp only [threadStep, hpc] at hstep
    split at hstep
    case isTrue => exact (Option.some.inj hstep) ▸ h
    case isFalse =>
      obtain rfl := Option.some.inj hstep
      exact h.advance hn hpc .takePos ⟨rfl, rfl⟩ (by decide) rfl rfl rfl (by decide) trivial
        (fun _ _ hx => by cases hx) (fun hx => by cases hx) (fun hx => by cases hx) s.posLock s.tail
  | takePos =>
    simp only [threadStep, hpc] at hstep
    split at hstep
    case isTrue => exact (Option.some.inj hstep) ▸ h
    case isFalse =>
      obtain rfl := Option.some.inj hstep
      exact h.advance hn hpc .mark ⟨rfl, rfl⟩ (by decide) rfl rfl rfl (by decide) trivial
        (fun _ _ hx => by cases hx) (fun hx => by cases hx) (fun hx => by cases hx) _ s.tail
  | mark =>
    simp only [threadStep, hpc, Option.some.injEq] at hstep
    subst hstep
    exact h.mark hn hpc
  | look =>
    simp only [threadStep, hpc] at hstep
    split at hstep
    case isTrue =>
      obtain rfl := Option.some.inj hstep
      exact h.advance hn hpc .lockHead ⟨rfl, rfl⟩ (by decide) rfl rfl rfl (by decide) trivial
        (fun _ _ hx => by cases hx) (fun hx => by cases hx) (fun hx => by cases hx) s.posLock s.tail
    case isFalse hmark =>
      obtain rfl := Option.some.inj hstep
      exact h.clear hn hpc hmark
  | lockHead =>
    simp only [threadStep, hpc] at hstep
    split at hstep
    case isTrue =>
      obtain rfl := Option.some.inj hstep
      exact h.advance hn hpc .look ⟨rfl, rfl⟩ (by decide) rfl rfl rfl (by decide) trivial
        (fun _ _ hx => by cases hx) (fun hx => by cases hx) (fun hx => by cases hx) s.posLock s.tail
    case isFalse hfree =>
      obtain rfl := Option.some.inj hstep
      exact h.takeHead hn hpc (Bool.eq_false_iff.mpr hfree)
  | loadNew =>
    simp only [threadStep, hpc] at hstep
    split at hstep
    case isTrue hx =>
      obtain rfl := Option.some.inj hstep
      exact h.pastWait hn hpc hx
    case isFalse => exact (Option.some.inj hstep) ▸ h
  | freePos =>
    have hold : (s.threads n).stage = .over := by rw [Thread.stage, hpc]; rfl
    simp only [threadStep, hpc, Option.some.injEq] at hstep
    subst hstep
    exact h.advance hn hpc .putCid ⟨rfl, rfl⟩ (by decide) rfl rfl rfl (by decide) trivial
      (fun _ _ hx => by cases hx) (fun _ => ht.cleared (by rw [hold]; rfl))
      (fun _ => ht.passed_lt (by rw [hold]; rfl)) _ s.tail
  | putCid =>
    simp only [threadStep, hpc, Option.some.injEq] at hstep
    subst hstep
    exact h.putCid hn hpc
  | enqueue => simp only [threadStep, hpc, reduceCtorEq] at hstep
  | finished => simp only [threadStep, hpc, reduceCtorEq] at hstep
  | _ => exact absurd (by rw [Thread.stage, hpc]; rfl) hsweep

theorem step (h : Inv q r s) (hstep : Step q r (Recent r) s s') : Inv q r s' := by
  cases hstep with
  | start => exact h.start
  | thread hn hok hstep => exact h.thread hn hok hstep
  | enqueue hn hpc hcid => exact h.enqueue hn hpc hcid
  | fetch hstep => exact h.fetch hstep
  | post hf hnew hroom => exact h.post hf hnew hroom

end Inv

theorem Reach.inv {q r : Queue} {s : State} (h : Reach q r (Recent r) s) : Inv q r s := by
  induction h with
  | init => exact inv_init q r
  | step _ hstep ih => exact ih.step hstep

section
variable {q r : Queue} {s s' : State} {n : Nat}

/-- Only the last step of the loop in `move_head_cq` moves the head of the submission
queue. -/
theorem threadStep_retired (h : threadStep q r s n = some s') :
    s'.sq.retired = s.sq.retired ∨ moveStep q s.sq = some s'.sq := by
  unfold threadStep at h
  simp only at h
  split at h
  case h_4 =>
    split at h
    · exact .inl ((Option.some.inj h) ▸ rfl)
    · obtain ⟨sq, hcall, rfl⟩ := Option.map_eq_some_iff.mp h
      exact .inl (callStep_sameDevice hcall).retired_eq
  case h_16 =>
    split at h
    · exact .inl ((Option.some.inj h) ▸ rfl)
    · obtain ⟨sq, hmove, rfl⟩ := Option.map_eq_some_iff.mp h
      exact .inr hmove
  all_goals first
    | exact .inl ((Option.some.inj h) ▸ rfl)
    | (split at h <;> first
        | exact .inl ((Option.some.inj h) ▸ rfl)
        | split at h <;> exact .inl ((Option.some.inj h) ▸ rfl))
    | cases h

theorem threadStep_passed (h : threadStep q r s n = some s') :
    s'.passed = s.passed ∨ s'.passed = s.rung := by
  unfold threadStep at h
  simp only at h
  split at h
  all_goals first
    | exact .inl ((Option.some.inj h) ▸ rfl)
    | exact .inr ((Option.some.inj h) ▸ rfl)
    | (split at h <;> first
        | exact .inl ((Option.some.inj h) ▸ rfl)
        | (obtain ⟨sq, hcall, rfl⟩ := Option.map_eq_some_iff.mp h; exact .inl rfl)
        | split at h <;> exact .inl ((Option.some.inj h) ▸ rfl))
    | cases h

end

end Shaper.CompletionQueue
