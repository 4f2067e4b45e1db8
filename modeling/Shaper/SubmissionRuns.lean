import Mathlib.Data.Nat.ModEq
import Shaper.SubmissionSteps

/-! Whole runs of the submission queue: when a ticket word admits a call, that the
invariant holds in every state, and that any number of commands goes through a queue
that one thread uses at a time. -/
namespace Shaper.SubmissionQueue
open Function Lib

/-- Few enough tickets for a word of 32 bits: not yet one turn of `in_ticket`, or at
most half a turn given out ahead of the commands that `move_tail` has taken. -/
def Few (s : State) : Prop := s.claimed ≤ 2^32 ∨ s.claimed ≤ s.swept + 2^31

section
variable {q : Queue} {s s' : State} {g : Nat}

theorem two_pow_sub_succ {a b : Nat} (h : b ≤ a) : 2^(a + 1 - b) = 2 * 2^(a - b) := by
  rw [Nat.succ_sub h, Nat.pow_succ']

theorem getId_toNat (q : Queue) (g : Nat) :
    (getId ((BitVec.ofNat 32 g).setWidth 64) q.qsLog2).toNat =
      (2 * (g / q.qs)) % 2^(33 - q.qsLog2) := by
  have hL := qsLog2_lt q
  have hsplit : 2^32 = q.qs * 2^(32 - q.qsLog2) := by
    rw [Queue.qs, ← Nat.pow_add, Nat.add_sub_cancel' (Nat.le_of_lt hL)]
  have hid : g % 2^32 / q.qs = g / q.qs % 2^(32 - q.qsLog2) := by
    rw [hsplit, Nat.mod_mul_right_div_self]
  have hsmall : g % 2^32 / q.qs < 2^32 :=
    (Nat.div_le_self _ _).trans_lt (Nat.mod_lt _ (by decide))
  have hdouble : 2^(33 - q.qsLog2) = 2 * 2^(32 - q.qsLog2) := two_pow_sub_succ (Nat.le_of_lt hL)
  unfold getId
  rw [BitVec.toNat_mul, BitVec.toNat_ushiftRight, BitVec.toNat_setWidth, BitVec.toNat_ofNat,
    Nat.shiftRight_eq_div_pow, hdouble, Nat.mul_mod_mul_left, ← hid]
  have hmod : g % 2^32 % 2^64 = g % 2^32 := Nat.mod_eq_of_lt (by omega)
  rw [hmod]
  change g % 2^32 / q.qs * 2 % 2^64 = _
  omega

def Shows (q : Queue) (s : State) (g : Nat) : Prop :=
  (s.tickets (cell q g)).setWidth 64 = getId ((BitVec.ofNat 32 g).setWidth 64) q.qsLog2

theorem Inv.admits_iff (h : Inv q s) (hg : g < s.claimed) :
    admits q s (s.calls g).ticket = true ↔ Shows q s g := by
  unfold admits Shows
  rw [h.tickets.ticket_eq g hg, loc_ofNat, beq_iff_eq]

/-- The word shows an id when the two counts agree with it modulo a turn of the tickets. -/
theorem Inv.shows_iff (h : Inv q s) (g : Nat) : Shows q s g ↔
    (s.leaves (cell q g) + s.moves (cell q g)) % 2^32 = (2 * (g / q.qs)) % 2^(33 - q.qsLog2) := by
  unfold Shows
  rw [h.tickets.count_eq, ← getId_toNat]
  constructor
  · intro he
    have hn := congrArg BitVec.toNat he
    rw [BitVec.toNat_setWidth, BitVec.toNat_ofNat] at hn
    omega
  · intro hn
    apply BitVec.eq_of_toNat_eq
    rw [BitVec.toNat_setWidth, BitVec.toNat_ofNat]
    omega

theorem exists_lap (g d : Nat) : ∃ a, a = d * q.qs + g % q.qs ∧ cell q a = cell q g ∧
    a / q.qs = d := by
  refine ⟨d * q.qs + g % q.qs, rfl, ?_, ?_⟩
  · rw [cell_eq_iff, Nat.mul_add_mod', Nat.mod_mod]
  · rw [Nat.mul_comm, Nat.mul_add_div (qs_pos q), Nat.div_eq_of_lt (Nat.mod_lt _ (qs_pos q)),
      Nat.add_zero]

theorem Inv.swept_le_lap (h : Inv q s) (g : Nat) :
    s.swept ≤ s.leaves (cell q g) * q.qs + g % q.qs + q.qs := by
  obtain ⟨a, ha, hc, hlap⟩ := exists_lap (q := q) g (s.leaves (cell q g))
  rw [← ha]
  rcases Nat.lt_or_ge (a + q.qs) s.swept with hlt | hge
  · obtain ⟨hclaimed, hm⟩ := h.marks.marked_of_swept _ hlt
    have hc' : cell q (a + q.qs) = cell q g := (cell_add_qs a).trans hc
    have hlap' : (a + q.qs) / q.qs = s.leaves (cell q g) + 1 := by rw [lap_add_qs, hlap]
    by_cases hl : (s.calls (a + q.qs)).pc = .left
    · have := (h.tickets.left_iff _).mpr ⟨hclaimed, hl⟩
      rw [hc', hlap'] at this
      omega
    · have := (h.tickets.turn _ hclaimed (CallPc.admitted_of_marked hm) hl).1
      rw [hc', hlap'] at this
      omega
  · exact hge

theorem Inv.swept_lt_moves (h : Inv q s) (g : Nat) :
    s.swept < s.moves (cell q g) * q.qs + g % q.qs + q.qs := by
  obtain ⟨a, ha, hc, hlap⟩ := exists_lap (q := q) g (s.moves (cell q g))
  have hle : s.moved ≤ a := by
    rcases Nat.lt_or_ge a s.moved with hlt | hge
    · have := (h.tickets.moved_iff a).mpr hlt
      rw [hc, hlap] at this
      omega
    · exact hge
  have := h.chain.window
  have := h.chain.retired_le
  omega

/-- A ticket that is out is less than a turn of the ids ahead of its cell. -/
theorem Inv.lap_window (h : Inv q s) (hfew : Few s) (hg : g < s.claimed) :
    2 * (g / q.qs) < s.leaves (cell q g) + s.moves (cell q g) + 2^(33 - q.qsLog2) := by
  have hL := q.qsLog2_le
  have hturn : 2^(33 - q.qsLog2) = 2 * 2^(32 - q.qsLog2) := two_pow_sub_succ (by omega)
  rcases hfew with hfew | hfew
  · have hlap : g / q.qs < 2^(32 - q.qsLog2) := by
      refine Nat.div_lt_of_lt_mul ?_
      rw [Queue.qs, ← Nat.pow_add, Nat.add_sub_cancel' (by omega)]
      omega
    omega
  · have hhalf : 2^31 = 2^(31 - q.qsLog2) * q.qs := by
      rw [Queue.qs, ← Nat.pow_add, Nat.sub_add_cancel (by omega)]
    have hhalf' : 2^(32 - q.qsLog2) = 2 * 2^(31 - q.qsLog2) := two_pow_sub_succ (by omega)
    have hdiv := Nat.div_add_mod' g q.qs
    have hpos := Nat.two_pow_pos (31 - q.qsLog2)
    -- both counts are within half a turn of the lap of `g`
    have hclose (n : Nat) (hn : s.swept ≤ n * q.qs + g % q.qs + q.qs) :
        g / q.qs < n + 1 + 2^(31 - q.qsLog2) := by
      refine Nat.lt_of_mul_lt_mul_right (a := q.qs) ?_
      rw [Nat.add_mul, Nat.add_mul]
      omega
    have hl := hclose _ (h.swept_le_lap g)
    have hm := hclose _ (Nat.le_of_lt (h.swept_lt_moves g))
    omega

/-- Neither increment of its lap has been made for a call that `move_tail` has not taken. -/
theorem Inv.counts_le (h : Inv q s) (hs : s.swept ≤ g) :
    s.leaves (cell q g) ≤ g / q.qs ∧ s.moves (cell q g) ≤ g / q.qs := by
  constructor
  · refine Nat.le_of_not_lt fun hlt => ?_
    obtain ⟨hg, hl⟩ := (h.tickets.left_iff g).mp hlt
    exact h.marks.not_cleared hg hs hl
  · refine Nat.le_of_not_lt fun hlt => ?_
    have := (h.tickets.moved_iff g).mp hlt
    have := h.chain.moved_le
    have := h.chain.fetched_le
    have := h.chain.rung_le
    omega

/-- A ticket word that shows the id of a call shows that both increments of every
earlier lap have been made, however often `in_ticket` has wrapped. -/
theorem Inv.turn_of_admits (h : Inv q s) (hfew : Few s) (hg : g < s.claimed)
    (hwait : ¬ (s.calls g).pc.marked = true) (hadm : admits q s (s.calls g).ticket = true) :
    s.leaves (cell q g) = g / q.qs ∧ s.moves (cell q g) = g / q.qs := by
  obtain ⟨hleaves, hmoves⟩ := h.counts_le (h.swept_le_of_not_marked hwait)
  have hwindow := h.lap_window hfew hg
  have hmod : (s.leaves (cell q g) + s.moves (cell q g)) % 2^(33 - q.qsLog2) =
      (2 * (g / q.qs)) % 2^(33 - q.qsLog2) := by
    have hdvd : 2^(33 - q.qsLog2) ∣ 2^32 := Nat.pow_dvd_pow 2 (by have := q.qsLog2_pos; omega)
    have hdm := (h.shows_iff g).mp ((h.admits_iff hg).mp hadm)
    rw [← Nat.mod_mod_of_dvd _ hdvd, hdm, Nat.mod_mod]
  have hle : s.leaves (cell q g) + s.moves (cell q g) ≤ 2 * (g / q.qs) := by omega
  rcases Nat.lt_or_eq_of_le hle with hlt | heq
  · have := Counter.lap_le hmod hlt
    omega
  · omega

theorem Inv.step (h : Inv q s) (hfew : Few s) (hstep : Step q s s') : Inv q s' := by
  cases hstep with
  | claim cmd => exact h.claim cmd
  | call hg hstep =>
    refine h.call hg (fun hadm hpc => ?_) hstep
    exact h.turn_of_admits hfew hg (by rw [hpc]; decide) hadm
  | fetch hstep => exact h.fetch hstep
  | post hstep => exact h.post hstep
  | pass hstep => exact h.pass hstep
  | move hstep => exact h.move hstep

theorem Reach.few {ok : State → Prop} (h : Reach q ok s) (hok : ∀ s, ok s → Few s) : Few s := by
  cases h with
  | init => exact .inl (Nat.zero_le _)
  | step _ _ hs => exact hok _ hs

theorem Reach.inv {ok : State → Prop} (h : Reach q ok s) (hok : ∀ s, ok s → Few s) : Inv q s := by
  induction h with
  | init => exact inv_init q
  | step hs hstep _ ih => exact ih.step (hs.few hok) hstep

theorem callStep_calls (h : callStep q s g = some s') : ∃ pc, s'.calls = repc s.calls g pc := by
  have hself : s.calls = repc s.calls g (s.calls g).pc := (update_eq_self g s.calls).symm
  unfold callStep at h
  simp only at h
  split at h
  case h_17 => cases h
  all_goals first
    | exact (Option.some.inj h) ▸ ⟨_, rfl⟩
    | split at h <;> exact (Option.some.inj h) ▸ ⟨_, by first | rfl | exact hself⟩

structure Grows (s s' : State) : Prop where
  cmd_eq : ∀ g < s.claimed, (s'.calls g).cmd = (s.calls g).cmd
  rung_le : s.rung ≤ s.swept → s.rung ≤ s'.rung
  taken_le : s.taken.length ≤ s'.taken.length

theorem callStep_grows (h : callStep q s g = some s') : Grows s s' := by
  have hcmd (pc : CallPc) : ∀ g' < s.claimed, (repc s.calls g pc g').cmd = (s.calls g').cmd := by
    intro g' _
    rw [repc_apply]
  have hself : Grows s s := ⟨fun _ _ => rfl, fun _ => Nat.le_refl _, Nat.le_refl _⟩
  unfold callStep at h
  simp only at h
  split at h
  case h_17 => cases h
  all_goals first
    | exact (Option.some.inj h) ▸ ⟨hcmd _, by first | exact fun _ => Nat.le_refl _ | exact id,
        Nat.le_refl _⟩
    | (split at h <;> exact (Option.some.inj h) ▸ by
        first | exact hself | exact ⟨hcmd _, fun _ => Nat.le_refl _, Nat.le_refl _⟩)

theorem Step.grows (h : Step q s s') : Grows s s' := by
  cases h with
  | claim cmd =>
    exact ⟨fun g hg => congrArg Call.cmd (update_of_ne (Nat.ne_of_lt hg) _ _),
      fun _ => Nat.le_refl _, Nat.le_refl _⟩
  | call _ hstep => exact callStep_grows hstep
  | fetch hstep =>
    unfold SubmissionQueue.fetch at hstep
    split at hstep
    · cases hstep
    · obtain rfl := Option.some.inj hstep
      exact ⟨fun _ _ => rfl, fun _ => Nat.le_refl _, by simp⟩
  | post hstep =>
    unfold SubmissionQueue.post at hstep
    split at hstep
    · obtain rfl := Option.some.inj hstep
      exact ⟨fun _ _ => rfl, fun _ => Nat.le_refl _, Nat.le_refl _⟩
    · cases hstep
  | pass hstep =>
    unfold SubmissionQueue.pass at hstep
    split at hstep
    · obtain rfl := Option.some.inj hstep
      exact ⟨fun _ _ => rfl, fun _ => Nat.le_refl _, Nat.le_refl _⟩
    · cases hstep
  | move hstep =>
    unfold moveStep at hstep
    split at hstep
    · cases hstep
    · obtain rfl := Option.some.inj hstep
      exact ⟨fun _ _ => rfl, fun _ => Nat.le_refl _, Nat.le_refl _⟩
    · split at hstep
      all_goals
        obtain rfl := Option.some.inj hstep
        exact ⟨fun _ _ => rfl, fun _ => Nat.le_refl _, Nat.le_refl _⟩

/-- A call all of whose predecessors in the cell are over finds both increments of each. -/
theorem Inv.counts_eq (h : Inv q s) (hs : s.swept ≤ g)
    (hearlier : ∀ g' < g, cell q g' = cell q g →
      g' < s.moved ∧ g' < s.claimed ∧ (s.calls g').pc = .left) :
    s.leaves (cell q g) = g / q.qs ∧ s.moves (cell q g) = g / q.qs := by
  obtain ⟨hl, hm⟩ := h.counts_le hs
  rcases Nat.lt_or_ge g q.qs with hlt | hge
  · rw [Nat.div_eq_of_lt hlt] at hl hm ⊢
    omega
  · obtain ⟨b, rfl⟩ := Nat.exists_eq_add_of_le' hge
    obtain ⟨hmoved, hclaimed⟩ :=
      hearlier b (Nat.lt_add_of_pos_right (qs_pos q)) (cell_add_qs b).symm
    have hl' := (h.tickets.left_iff b).mpr hclaimed
    have hm' := (h.tickets.moved_iff b).mpr hmoved
    rw [cell_add_qs, lap_add_qs] at *
    omega

/-- Up to the first lap after the wrap: the count of 32 bits and the id agree before the
wrap, and after it only in a queue of two entries. -/
theorem id_matches_iff (q : Queue) {g : Nat} (hg : g < 2^32 + q.qs) :
    (g / q.qs + g / q.qs) % 2^32 = (2 * (g / q.qs)) % 2^(33 - q.qsLog2) ↔
      q.qsLog2 = 1 ∨ g < 2^32 := by
  have hL := q.qsLog2_le
  have hpos := q.qsLog2_pos
  have hturn : 2^(33 - q.qsLog2) = 2 * 2^(32 - q.qsLog2) := two_pow_sub_succ (by omega)
  have hsplit : 2^32 = q.qs * 2^(32 - q.qsLog2) := by
    rw [Queue.qs, ← Nat.pow_add, Nat.add_sub_cancel' (by omega)]
  rcases Nat.lt_or_ge g (2^32) with hlt | hge
  · have hlap : g / q.qs < 2^(32 - q.qsLog2) := Nat.div_lt_of_lt_mul (hsplit ▸ hlt)
    have hle : 2^(33 - q.qsLog2) ≤ 2^32 := Nat.pow_le_pow_right (by omega) (by omega)
    rw [Nat.mod_eq_of_lt (by omega), Nat.mod_eq_of_lt (by omega)]
    exact iff_of_true (by omega) (.inr hlt)
  · have hlap : g / q.qs = 2^(32 - q.qsLog2) := by
      refine Nat.div_eq_of_lt_le ?_ ?_
      · rw [Nat.mul_comm, ← hsplit]
        exact hge
      · rw [Nat.add_mul, Nat.mul_comm, ← hsplit, Nat.one_mul]
        exact hg
    rw [hlap, ← Nat.two_mul, ← hturn, Nat.mod_self]
    rcases Nat.lt_or_eq_of_le hpos with hlt | heq
    · have hle : 2^(33 - q.qsLog2) < 2^32 := Nat.pow_lt_pow_right (by omega) (by omega)
      rw [Nat.mod_eq_of_lt hle]
      have := Nat.two_pow_pos (33 - q.qsLog2)
      exact iff_of_false (by omega) (by omega)
    · have hone : q.qsLog2 = 1 := heq.symm
      rw [hone]
      exact iff_of_true rfl (.inl rfl)

end

structure SameDevice (s s' : State) : Prop where
  claimed_eq : s'.claimed = s.claimed
  taken_eq : s'.taken = s.taken
  cpls_eq : s'.cpls = s.cpls
  passed_eq : s'.passed = s.passed
  mover_eq : s'.mover = s.mover
  moved_eq : s'.moved = s.moved
  retired_eq : s'.retired = s.retired

theorem callStep_sameDevice {q : Queue} {s s' : State} {g : Nat} (h : callStep q s g = some s') :
    SameDevice s s' := by
  unfold callStep at h
  simp only at h
  split at h
  case h_17 => cases h
  all_goals first
    | exact (Option.some.inj h) ▸ ⟨rfl, rfl, rfl, rfl, rfl, rfl, rfl⟩
    | split at h <;> exact (Option.some.inj h) ▸ ⟨rfl, rfl, rfl, rfl, rfl, rfl, rfl⟩

structure Quiet (q : Queue) (ok : State → Prop) (n : Nat) (s : State) : Prop where
  reach : Reach q ok s
  claimed_eq : s.claimed = n
  left : ∀ g < n, (s.calls g).pc = .left
  lock_eq : s.tailLock = false
  swept_eq : s.swept = n
  moved_eq : s.moved = n
  cpls_eq : s.cpls.length = n
  passed_eq : s.passed = n
  mover_eq : s.mover = .idle

theorem quiet_init (q : Queue) (ok : State → Prop) : Quiet q ok 0 init where
  reach := .init
  claimed_eq := rfl
  left g hg := absurd hg (Nat.not_lt_zero g)
  lock_eq := rfl
  swept_eq := rfl
  moved_eq := rfl
  cpls_eq := rfl
  passed_eq := rfl
  mover_eq := rfl

structure Alone (q : Queue) (ok : State → Prop) (n : Nat) (pc : CallPc) (lock : Bool)
    (swept : Nat) (s : State) : Prop where
  reach : Reach q ok s
  claimed_eq : s.claimed = n + 1
  pc_eq : (s.calls n).pc = pc
  left : ∀ g < n, (s.calls g).pc = .left
  lock_eq : s.tailLock = lock
  swept_eq : s.swept = swept
  moved_eq : s.moved = n
  retired_eq : s.retired = n
  taken_eq : s.taken.length = n
  cpls_eq : s.cpls.length = n
  passed_eq : s.passed = n
  mover_eq : s.mover = .idle

structure Posted (q : Queue) (ok : State → Prop) (n : Nat) (mover : Mover) (passed moved : Nat)
    (s : State) : Prop where
  reach : Reach q ok s
  claimed_eq : s.claimed = n + 1
  left : ∀ g < n + 1, (s.calls g).pc = .left
  lock_eq : s.tailLock = false
  swept_eq : s.swept = n + 1
  cpls_eq : s.cpls.length = n + 1
  last_eq : s.cpls[n]? = some (report q (n+1))
  passed_eq : s.passed = passed
  mover_eq : s.mover = mover
  moved_eq : s.moved = moved

section
variable {q : Queue} {ok : State → Prop} {n swept swept' : Nat} {pc pc' : CallPc}
  {lock lock' : Bool} {s s' : State} {curTail count : BitVec 32}

theorem Alone.lt (h : Alone q ok n pc lock swept s) : n < s.claimed := by
  rw [h.claimed_eq]
  exact Nat.lt_succ_self n

theorem Alone.step (h : Alone q ok n pc lock swept s)
    (hok : ∀ s, s.claimed = n + 1 → n ≤ s.swept → ok s) (hle : n ≤ swept')
    (hstep : ∃ s', callStep q s n = some s' ∧ s'.calls = repc s.calls n pc' ∧
      s'.tailLock = lock' ∧ s'.swept = swept') :
    ∃ s', Alone q ok n pc' lock' swept' s' := by
  obtain ⟨s', hstep, hcalls, hlock, hswept⟩ := hstep
  have hd := callStep_sameDevice hstep
  have hclaimed : s'.claimed = n + 1 := by rw [hd.claimed_eq, h.claimed_eq]
  refine ⟨s', ?_⟩
  constructor
  case reach => exact h.reach.step (.call h.lt hstep) (hok s' hclaimed (hswept ▸ hle))
  case claimed_eq => exact hclaimed
  case pc_eq => rw [hcalls, repc_apply, if_pos rfl]
  case left =>
    intro g hg
    rw [hcalls, repc_apply, if_neg (Nat.ne_of_lt hg)]
    exact h.left g hg
  case lock_eq => exact hlock
  case swept_eq => exact hswept
  case moved_eq => rw [hd.moved_eq, h.moved_eq]
  case retired_eq => rw [hd.retired_eq, h.retired_eq]
  case taken_eq => rw [hd.taken_eq, h.taken_eq]
  case cpls_eq => rw [hd.cpls_eq, h.cpls_eq]
  case passed_eq => rw [hd.passed_eq, h.passed_eq]
  case mover_eq => rw [hd.mover_eq, h.mover_eq]

/-- Before the wrap, and in a queue of two entries after it, the lone call is admitted. -/
theorem Alone.admits (h : Alone q ok n pc lock n s) (hfew : ∀ s, ok s → Few s)
    (hcond : q.qsLog2 = 1 ∨ n < 2^32) : admits q s (s.calls n).ticket = true := by
  have hinv := h.reach.inv hfew
  have hcounts := hinv.counts_eq (g := n) (Nat.le_of_eq h.swept_eq) fun g' hg' _ => by
    rw [h.moved_eq, h.claimed_eq]
    exact ⟨hg', by omega, h.left g' hg'⟩
  rw [hinv.admits_iff h.lt, hinv.shows_iff, hcounts.1, hcounts.2]
  rcases hcond with hq | hlt
  · rw [hq, Nat.two_mul]
  · exact (id_matches_iff q (Nat.lt_add_right _ hlt)).mpr (.inr hlt)

theorem Alone.mark_eq (h : Alone q ok n pc lock n s) (hfew : ∀ s, ok s → Few s)
    (hm : pc.marked = true) : s.tailMark (cell q n) = true :=
  (h.reach.inv hfew).marks.mark_of n h.lt (by rw [h.pc_eq]; exact hm) (Nat.le_of_eq h.swept_eq)

theorem Alone.mark_clear (h : Alone q ok n pc lock (n+1) s) (hfew : ∀ s, ok s → Few s) (a : Nat) :
    ¬ s.tailMark (cell q a) = true := by
  intro hmark
  obtain ⟨g, hg, -, -, hs⟩ := (h.reach.inv hfew).marks.of_mark a hmark
  rw [h.claimed_eq] at hg
  rw [h.swept_eq] at hs
  omega

theorem Quiet.enter (h : Quiet q ok n s) (hok : ∀ s, s.claimed = n + 1 → n ≤ s.swept → ok s)
    (hfew : ∀ s, ok s → Few s) (cmd : Cmd) : Alone q ok n .spin false n (claim s cmd) := by
  have hc := (h.reach.inv hfew).chain
  have hr := (h.reach.inv hfew).reports
  have hclaimed : (claim s cmd).claimed = n + 1 := congrArg (· + 1) h.claimed_eq
  have hidle : s.moved = s.retired := by
    have := hr.mover_ok
    rw [h.mover_eq] at this
    exact this
  have htaken : s.taken.length = n := by
    have := hc.moved_le
    have := hc.fetched_le
    have := hc.rung_le
    have := h.moved_eq
    have := h.swept_eq
    omega
  exact {
    reach := h.reach.step (.claim cmd) (hok _ hclaimed (Nat.le_of_eq h.swept_eq.symm))
    claimed_eq := hclaimed
    pc_eq := by simp [claim, h.claimed_eq]
    left := fun g hg => by
      have : (claim s cmd).calls g = s.calls g := update_of_ne (by rw [h.claimed_eq]; omega) _ _
      rw [this]
      exact h.left g hg
    lock_eq := h.lock_eq
    swept_eq := h.swept_eq
    moved_eq := h.moved_eq
    retired_eq := hidle.symm.trans h.moved_eq
    taken_eq := htaken
    cpls_eq := h.cpls_eq
    passed_eq := h.passed_eq
    mover_eq := h.mover_eq }

theorem Quiet.exists_marked (h : Quiet q ok n s)
    (hok : ∀ s, s.claimed = n + 1 → n ≤ s.swept → ok s) (hfew : ∀ s, ok s → Few s)
    (hcond : q.qsLog2 = 1 ∨ n < 2^32) : ∃ s', Alone q ok n .look false n s' := by
  have hn := Nat.le_refl n
  have h₁ := h.enter hok hfew ⟨0, 0⟩
  obtain ⟨s₂, h₂⟩ : ∃ s', Alone q ok n .acquire false n s' := h₁.step hok hn (by
    simp only [callStep, h₁.pc_eq, h₁.admits hfew hcond, if_true]
    exact ⟨_, rfl, rfl, h₁.lock_eq, h₁.swept_eq⟩)
  obtain ⟨s₃, h₃⟩ : ∃ s', Alone q ok n .copyLo false n s' := h₂.step hok hn (by
    simp only [callStep, h₂.pc_eq, h₂.admits hfew hcond, if_true]
    exact ⟨_, rfl, rfl, h₂.lock_eq, h₂.swept_eq⟩)
  obtain ⟨s₄, h₄⟩ : ∃ s', Alone q ok n .copyHi false n s' := h₃.step hok hn (by
    simp only [callStep, h₃.pc_eq]
    exact ⟨_, rfl, rfl, h₃.lock_eq, h₃.swept_eq⟩)
  obtain ⟨s₅, h₅⟩ : ∃ s', Alone q ok n .mark false n s' := h₄.step hok hn (by
    simp only [callStep, h₄.pc_eq]
    exact ⟨_, rfl, rfl, h₄.lock_eq, h₄.swept_eq⟩)
  exact h₅.step hok hn (by
    simp only [callStep, h₅.pc_eq]
    exact ⟨_, rfl, rfl, h₅.lock_eq, h₅.swept_eq⟩)

theorem Alone.exists_swept (h : Alone q ok n .look false n s)
    (hok : ∀ s, s.claimed = n + 1 → n ≤ s.swept → ok s) (hfew : ∀ s, ok s → Few s) :
    ∃ curTail count s', Alone q ok n (.full curTail count) true (n+1) s' := by
  have hn := Nat.le_refl n
  have hpos := (h.reach.inv hfew).pos_eq h.lt
  obtain ⟨s₁, h₁⟩ : ∃ s', Alone q ok n .lockLoad false n s' := h.step hok hn (by
    simp only [callStep, h.pc_eq, hpos, h.mark_eq hfew rfl, if_true]
    exact ⟨_, rfl, rfl, h.lock_eq, h.swept_eq⟩)
  obtain ⟨s₂, h₂⟩ : ∃ s', Alone q ok n .lockOr false n s' := h₁.step hok hn (by
    simp only [callStep, h₁.pc_eq, h₁.lock_eq, Bool.false_eq_true, if_false]
    exact ⟨_, rfl, rfl, h₁.lock_eq, h₁.swept_eq⟩)
  obtain ⟨s₃, h₃⟩ : ∃ s', Alone q ok n .loadTail true n s' := h₂.step hok hn (by
    simp only [callStep, h₂.pc_eq, h₂.lock_eq, Bool.false_eq_true, if_false]
    exact ⟨_, rfl, rfl, rfl, h₂.swept_eq⟩)
  obtain ⟨s₄, h₄⟩ : ∃ s', Alone q ok n (.full s₃.tail 0#32) true n s' := h₃.step hok hn (by
    simp only [callStep, h₃.pc_eq]
    exact ⟨_, rfl, rfl, h₃.lock_eq, h₃.swept_eq⟩)
  have hinv₄ := h₄.reach.inv hfew
  have hfull : ¬ q.loc (s₃.tail + 0#32 + 1#32) = q.loc s₄.head := by
    have hok₄ := hinv₄.tailSection.ok n h₄.lt
    rw [h₄.pc_eq] at hok₄
    rw [hinv₄.sweep_loc hok₄.1 hok₄.2.1, ← Counter.ofNat_succ, hinv₄.chain.head_eq, loc_ofNat,
      loc_ofNat, h₄.swept_eq, h₄.retired_eq, cell_eq_iff]
    intro he
    have := Counter.lap_le he.symm (Nat.lt_succ_self n)
    have := two_le_qs q
    omega
  obtain ⟨s₅, h₅⟩ : ∃ s', Alone q ok n (.sweep s₃.tail 0#32) true n s' := h₄.step hok hn (by
    simp only [callStep, h₄.pc_eq, if_neg hfull]
    exact ⟨_, rfl, rfl, h₄.lock_eq, h₄.swept_eq⟩)
  have hinv₅ := h₅.reach.inv hfew
  have hmark : s₅.tailMark (q.loc (s₃.tail + 0#32)) = true := by
    have hok₅ := hinv₅.tailSection.ok n h₅.lt
    rw [h₅.pc_eq] at hok₅
    rw [hinv₅.sweep_loc hok₅.1.1 hok₅.1.2.1, loc_ofNat, h₅.swept_eq]
    exact h₅.mark_eq hfew rfl
  exact ⟨_, _, h₅.step hok (Nat.le_succ n) (by
    simp only [callStep, h₅.pc_eq, if_pos hmark]
    exact ⟨_, rfl, rfl, h₅.lock_eq, congrArg (· + 1) h₅.swept_eq⟩)⟩

theorem Alone.exists_left (h : Alone q ok n (.full curTail count) true (n+1) s)
    (hok : ∀ s, s.claimed = n + 1 → n ≤ s.swept → ok s) (hfew : ∀ s, ok s → Few s) :
    ∃ s', Alone q ok n .left false (n+1) s' := by
  have hn := Nat.le_succ n
  obtain ⟨s₁, h₁⟩ : ∃ s', Alone q ok n (.fence curTail count) true (n+1) s' := by
    by_cases hfull : q.loc (curTail + count + 1#32) = q.loc s.head
    · exact h.step hok hn (by
        simp only [callStep, h.pc_eq, if_pos hfull]
        exact ⟨_, rfl, rfl, h.lock_eq, h.swept_eq⟩)
    · obtain ⟨s₀, h₀⟩ : ∃ s', Alone q ok n (.sweep curTail count) true (n+1) s' :=
        h.step hok hn (by
          simp only [callStep, h.pc_eq, if_neg hfull]
          exact ⟨_, rfl, rfl, h.lock_eq, h.swept_eq⟩)
      have hinv := h₀.reach.inv hfew
      have hsec := hinv.tailSection.ok n h₀.lt
      rw [h₀.pc_eq] at hsec
      have hmark : ¬ s₀.tailMark (q.loc (curTail + count)) = true := by
        rw [hinv.sweep_loc hsec.1.1 hsec.1.2.1, loc_ofNat]
        exact h₀.mark_clear hfew _
      exact h₀.step hok hn (by
        simp only [callStep, h₀.pc_eq, if_neg hmark]
        exact ⟨_, rfl, rfl, h₀.lock_eq, h₀.swept_eq⟩)
  obtain ⟨s₂, h₂⟩ : ∃ s', Alone q ok n .unlock true (n+1) s' := by
    by_cases hzero : count = 0#32
    · exact h₁.step hok hn (by
        simp only [callStep, h₁.pc_eq, if_pos hzero]
        exact ⟨_, rfl, rfl, h₁.lock_eq, h₁.swept_eq⟩)
    · obtain ⟨s₀, h₀⟩ : ∃ s', Alone q ok n (.ring curTail count) true (n+1) s' :=
        h₁.step hok hn (by
          simp only [callStep, h₁.pc_eq, if_neg hzero]
          exact ⟨_, rfl, rfl, h₁.lock_eq, h₁.swept_eq⟩)
      obtain ⟨s₀', h₀'⟩ : ∃ s', Alone q ok n (.putTail curTail count) true (n+1) s' :=
        h₀.step hok hn (by
          simp only [callStep, h₀.pc_eq]
          exact ⟨_, rfl, rfl, h₀.lock_eq, h₀.swept_eq⟩)
      exact h₀'.step hok hn (by
        simp only [callStep, h₀'.pc_eq]
        exact ⟨_, rfl, rfl, h₀'.lock_eq, h₀'.swept_eq⟩)
  obtain ⟨s₃, h₃⟩ : ∃ s', Alone q ok n .look false (n+1) s' := h₂.step hok hn (by
    simp only [callStep, h₂.pc_eq]
    exact ⟨_, rfl, rfl, rfl, h₂.swept_eq⟩)
  have hpos := (h₃.reach.inv hfew).pos_eq h₃.lt
  obtain ⟨s₄, h₄⟩ : ∃ s', Alone q ok n .leave false (n+1) s' := h₃.step hok hn (by
    simp only [callStep, h₃.pc_eq, hpos, if_neg (h₃.mark_clear hfew n)]
    exact ⟨_, rfl, rfl, h₃.lock_eq, h₃.swept_eq⟩)
  exact h₄.step hok hn (by
    simp only [callStep, h₄.pc_eq]
    exact ⟨_, rfl, rfl, h₄.lock_eq, h₄.swept_eq⟩)

theorem Posted.step {mover mover' : Mover} {passed moved moved' : Nat}
    (h : Posted q ok n mover passed moved s)
    (hok : ∀ s, s.claimed = n + 1 → n ≤ s.swept → ok s)
    (hstep : ∃ s', moveStep q s = some s' ∧ s'.mover = mover' ∧ s'.moved = moved') :
    ∃ s', Posted q ok n mover' passed moved' s' := by
  obtain ⟨s', hstep, hmover, hmoved⟩ := hstep
  obtain ⟨hclaimed, hcalls, hlock, hswept, hcpls, hpassed⟩ : s'.claimed = s.claimed ∧
      s'.calls = s.calls ∧ s'.tailLock = s.tailLock ∧ s'.swept = s.swept ∧ s'.cpls = s.cpls ∧
      s'.passed = s.passed := by
    unfold moveStep at hstep
    split at hstep
    · cases hstep
    · exact (Option.some.inj hstep) ▸ ⟨rfl, rfl, rfl, rfl, rfl, rfl⟩
    · split at hstep
      all_goals exact (Option.some.inj hstep) ▸ ⟨rfl, rfl, rfl, rfl, rfl, rfl⟩
  have hle : n ≤ s'.swept := by
    rw [hswept, h.swept_eq]
    exact Nat.le_succ n
  refine ⟨s', h.reach.step (.move hstep) (hok s' (hclaimed.trans h.claimed_eq) hle),
    hclaimed.trans h.claimed_eq, ?_, hlock.trans h.lock_eq, hswept.trans h.swept_eq, ?_, ?_,
    hpassed.trans h.passed_eq, hmover, hmoved⟩
  · rw [hcalls]
    exact h.left
  · rw [hcpls]
    exact h.cpls_eq
  · rw [hcpls]
    exact h.last_eq

theorem Posted.stop_iff {c : Cpl} {loc : BitVec 32} {passed moved : Nat}
    (h : Posted q ok n (.bump c loc count) passed moved s) (hfew : ∀ s, ok s → Few s) :
    loc = c.sqhd.setWidth 32 ↔ s.moved = c.fetched := by
  have hinv := h.reach.inv hfew
  have hr := hinv.reports
  rw [h.mover_eq] at hr
  refine hr.stop_iff ?_
  have := hinv.chain.fetched_le
  have := hinv.chain.rung_le
  have := hinv.chain.window
  have := hinv.chain.retired_le
  omega

theorem Alone.exists_posted (h : Alone q ok n .left false (n+1) s)
    (hok : ∀ s, s.claimed = n + 1 → n ≤ s.swept → ok s) (hfew : ∀ s, ok s → Few s) :
    ∃ s', Posted q ok n .idle n n s' := by
  have hc := (h.reach.inv hfew).chain
  have hrung : s.rung = n + 1 := by
    have := (h.reach.inv hfew).tailSection.free h.lock_eq
    have := hc.tailed_le
    have := hc.rung_le
    have := h.swept_eq
    omega
  have hle : n ≤ s.swept := by
    rw [h.swept_eq]
    exact Nat.le_succ n
  let s₁ : State := { s with taken := s.taken ++ [s.cells (fetchLoc q s)] }
  have hs₁ : fetch q s = some s₁ := by
    refine if_neg ?_
    rw [hc.db_eq, hrung]
    change ¬ cell q s.taken.length = _
    rw [h.taken_eq, cell_eq_iff]
    intro he
    have := Counter.lap_le he (Nat.lt_succ_self n)
    have := two_le_qs q
    omega
  have htaken : s₁.taken.length = n + 1 := by
    change (s.taken ++ [_]).length = _
    rw [List.length_append, h.taken_eq]
    rfl
  let s₂ : State := { s₁ with cpls := s₁.cpls ++ [report q s₁.taken.length] }
  have hs₂ : post q s₁ = some s₂ := by
    refine if_pos ?_
    rw [htaken]
    exact Nat.lt_succ_of_le h.cpls_eq.le
  have r₁ := h.reach.step (.fetch hs₁) (hok s₁ h.claimed_eq hle)
  refine ⟨s₂, r₁.step (.post hs₂) (hok s₂ h.claimed_eq hle), h.claimed_eq, ?_, h.lock_eq,
    h.swept_eq, ?_, ?_, h.passed_eq, h.mover_eq, h.moved_eq⟩
  · intro g hg
    rcases Nat.lt_succ_iff_lt_or_eq.mp hg with hlt | rfl
    · exact h.left g hlt
    · exact h.pc_eq
  · change (s.cpls ++ [_]).length = _
    rw [List.length_append, h.cpls_eq]
    rfl
  · change (s.cpls ++ [report q s₁.taken.length])[n]? = _
    rw [htaken, List.getElem?_append_right h.cpls_eq.le, h.cpls_eq, Nat.sub_self]
    rfl

theorem Posted.exists_quiet (h : Posted q ok n .idle n n s)
    (hok : ∀ s, s.claimed = n + 1 → n ≤ s.swept → ok s) (hfew : ∀ s, ok s → Few s) :
    ∃ s', Quiet q ok (n+1) s' := by
  have hle : n ≤ s.swept := by
    rw [h.swept_eq]
    exact Nat.le_succ n
  let c := report q (n+1)
  let s₁ : State := { s with mover := .load c, passed := s.passed + 0 + 1 }
  have hs₁ : pass s 0 = some s₁ := by
    have hlast : s.cpls[s.passed + 0]? = some c := by
      rw [h.passed_eq]
      exact h.last_eq
    unfold pass
    rw [h.mover_eq, hlast]
  have h₁ : Posted q ok n (.load c) (n+1) n s₁ :=
    ⟨h.reach.step (.pass hs₁) (hok s₁ h.claimed_eq hle), h.claimed_eq, h.left, h.lock_eq,
      h.swept_eq, h.cpls_eq, h.last_eq, congrArg (· + 1) h.passed_eq, rfl, h.moved_eq⟩
  obtain ⟨loc₂, count₂, s₂, h₂⟩ : ∃ loc count s', Posted q ok n (.bump c loc count) (n+1) n s' :=
    ⟨_, _, h₁.step hok (by
      simp only [moveStep, h₁.mover_eq]
      exact ⟨_, rfl, rfl, h₁.moved_eq⟩)⟩
  have hstop₂ : ¬ loc₂ = c.sqhd.setWidth 32 := by
    rw [h₂.stop_iff hfew, h₂.moved_eq]
    exact Nat.ne_of_lt (Nat.lt_succ_self n)
  obtain ⟨loc₃, count₃, s₃, h₃⟩ :
    ∃ loc count s', Posted q ok n (.bump c loc count) (n+1) (n+1) s' :=
    ⟨_, _, h₂.step hok (by
      simp only [moveStep, h₂.mover_eq, if_neg hstop₂]
      exact ⟨_, rfl, rfl, congrArg (· + 1) h₂.moved_eq⟩)⟩
  have hstop₃ : loc₃ = c.sqhd.setWidth 32 := by
    rw [h₃.stop_iff hfew, h₃.moved_eq]
    rfl
  obtain ⟨s₄, h₄⟩ : ∃ s', Posted q ok n .idle (n+1) (n+1) s' := h₃.step hok (by
    simp only [moveStep, h₃.mover_eq, if_pos hstop₃]
    exact ⟨_, rfl, rfl, h₃.moved_eq⟩)
  exact ⟨s₄, h₄.reach, h₄.claimed_eq, h₄.left, h₄.lock_eq, h₄.swept_eq, h₄.moved_eq, h₄.cpls_eq,
    h₄.passed_eq, h₄.mover_eq⟩

/-- Any number of commands goes through the queue as long as each ticket is admitted. -/
theorem exists_quiet (hok : ∀ s, s.claimed ≤ n → s.claimed ≤ s.swept + 1 → ok s)
    (hfew : ∀ s, ok s → Few s) (hcond : q.qsLog2 = 1 ∨ n ≤ 2^32) : ∃ s, Quiet q ok n s := by
  suffices ∀ k ≤ n, ∃ s, Quiet q ok k s from this n (Nat.le_refl n)
  intro k
  induction k with
  | zero => exact fun _ => ⟨init, quiet_init q ok⟩
  | succ k ih =>
    intro hk
    obtain ⟨s₀, h₀⟩ := ih (Nat.le_of_succ_le hk)
    have hok' (s : State) (hs : s.claimed = k + 1) (hle : k ≤ s.swept) : ok s :=
      hok s (by omega) (by omega)
    obtain ⟨s₁, h₁⟩ := h₀.exists_marked hok' hfew (by omega)
    obtain ⟨_, _, s₂, h₂⟩ := h₁.exists_swept hok' hfew
    obtain ⟨s₃, h₃⟩ := h₂.exists_left hok' hfew
    obtain ⟨s₄, h₄⟩ := h₃.exists_posted hok' hfew
    exact h₄.exists_quiet hok' hfew

end

end Shaper.SubmissionQueue
