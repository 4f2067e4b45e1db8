import Shaper.SubmissionRuns

/-! What the submission queue guarantees before `in_ticket` wraps, and what becomes of
its tickets afterwards. -/
namespace Shaper.SubmissionQueue
open Function Lib

def fourEntries : Queue := ⟨2, Nat.succ_pos 1, Nat.le_of_ble_eq_true rfl⟩

/-- Every index of the concatenation lies in exactly one of the pieces. -/
theorem existsUnique_piece {α : Type*} (l : List (List α)) (i : Nat) (h : i < l.flatten.length) :
    ∃! j, (l.take j).flatten.length ≤ i ∧ i < (l.take (j+1)).flatten.length := by
  induction l generalizing i with
  | nil => simp at h
  | cons x l ih =>
    rcases Nat.lt_or_ge i x.length with hlt | hge
    · refine ⟨0, ⟨by simp, by simpa using hlt⟩, ?_⟩
      rintro (_ | j) ⟨hj, -⟩
      · rfl
      · simp only [List.take_succ_cons, List.flatten_cons, List.length_append] at hj
        omega
    · simp only [List.flatten_cons, List.length_append] at h
      obtain ⟨j, ⟨hj₁, hj₂⟩, hu⟩ := ih (i - x.length) (by omega)
      refine ⟨j+1, ?_, ?_⟩
      · simp only [List.take_succ_cons, List.flatten_cons, List.length_append] at hj₁ hj₂ ⊢
        omega
      · rintro (_ | j') ⟨h₁, h₂⟩
        · simp at h₂
          omega
        · simp only [List.take_succ_cons, List.flatten_cons, List.length_append] at h₁ h₂
          rw [hu j' ⟨by omega, by omega⟩]

def Exposes (s : State) (j g : Nat) : Prop :=
  (s.advances.take j).flatten.length ≤ g ∧ g < (s.advances.take (j+1)).flatten.length

/-- The submission queue over any run with fewer than `2^32` enqueues: it never holds
more than `qs - 1` commands, the device finds whole commands that stay as they are until
it has fetched them, the doorbell opens the entries in the order of the tickets, each
in one store, and a call gets a cell when the calls before it have left and their
commands are fetched. -/
theorem submission_queue_safe {q : Queue} {s : State} (h : Reach q (·.claimed < 2^32) s) :
    (s.tail.toNat ≤ s.head.toNat + (q.qs - 1) ∧ s.rung ≤ s.head.toNat + (q.qs - 1)) ∧
    (s.db = cell q s.rung ∧ s.taken.length ≤ s.rung ∧
      ∀ g, s.taken.length ≤ g → g < s.rung → s.cells (cell q g) = (s.calls g).cmd) ∧
    (∀ s', Step q s s' → ∀ g, s'.taken.length ≤ g → g < s.rung →
      s'.cells (cell q g) = s.cells (cell q g)) ∧
    s.taken = (List.range s.taken.length).map (fun g => (s.calls g).cmd) ∧
    s.advances.flatten = (List.range s.rung).map (cell q) ∧
    (∀ g < s.claimed, (s.calls g).pc = .left →
      (∃! j, Exposes s j g) ∨ s.tailLock = true ∧ s.rung ≤ g ∧ g < s.swept) ∧
    ∀ g < s.claimed, (s.calls g).pc.admitted = true → ∀ g' < g, cell q g' = cell q g →
      g' < s.taken.length ∧ (s.calls g').pc = .left := by
  have hinv : Inv q s := h.inv fun _ hok => .inl (Nat.le_of_lt hok)
  have hfew : s.claimed < 2^32 := by
    cases h with
    | init => decide
    | step _ _ hok => exact hok
  have hc := hinv.chain
  have hswept := hinv.marks.swept_le
  have hwin := hc.window
  have hrung := hc.rung_le
  have hfetched := hc.fetched_le
  have hmoved := hc.moved_le
  have hretired := hc.retired_le
  have htailed := hc.tailed_le
  have hwhole {s : State} (hs : Inv q s) (g : Nat) (hle : s.taken.length ≤ g) (hlt : g < s.rung) :
      s.cells (cell q g) = (s.calls g).cmd := by
    obtain ⟨hg, hm⟩ := hs.marks.marked_of_swept g (hlt.trans_le hs.chain.rung_le)
    exact (written_of_marked hm).mp (hs.memory.written g hg hle)
  refine ⟨?_, ⟨hc.db_eq, hfetched, hwhole hinv⟩, ?_, hinv.memory.taken_eq, hinv.memory.advances_eq,
    ?_, ?_⟩
  · have := qs_pos q
    rw [hc.tail_eq, hc.head_eq, BitVec.toNat_ofNat, BitVec.toNat_ofNat,
      Nat.mod_eq_of_lt (by omega), Nat.mod_eq_of_lt (by omega)]
    exact ⟨by omega, by omega⟩
  · intro s' hstep g hle hlt
    have hinv' : Inv q s' := hinv.step (.inl (Nat.le_of_lt hfew)) hstep
    have hgrow := hstep.grows
    rw [hwhole hinv' g hle (hlt.trans_le (hgrow.rung_le hrung)),
      hwhole hinv g (hgrow.taken_le.trans hle) hlt,
      hgrow.cmd_eq g (hlt.trans_le (hrung.trans hswept))]
  · intro g hg hl
    have hg' := hinv.marks.swept_of_cleared g hg (by rw [hl]; rfl)
    rcases Nat.lt_or_ge g s.rung with hlt | hge
    · left
      refine existsUnique_piece _ g ?_
      rw [hinv.memory.advances_eq, List.length_map, List.length_range]
      exact hlt
    · right
      refine ⟨?_, hge, hg'⟩
      rcases hlock : s.tailLock with _ | _
      · have := hinv.tailSection.free hlock
        omega
      · rfl
  · intro g hg ha g' hlt hcell
    by_cases hl : (s.calls g).pc = .left
    · -- the call itself has left: a lap later than `g'`, and within a lap of the head
      have hg' := hinv.marks.swept_of_cleared g hg (by rw [hl]; rfl)
      have hlap := Counter.lap_le ((cell_eq_iff q g' g).mp hcell) hlt
      have hleft := (hinv.tickets.left_iff g).mpr ⟨hg, hl⟩
      have hlaps := (lap_lt_iff hcell).mpr hlt
      rw [← hcell] at hleft
      refine ⟨?_, ((hinv.tickets.left_iff g').mp (hlaps.trans hleft)).2⟩
      omega
    · obtain ⟨h₁, h₂⟩ := hinv.tickets.earlier hg ha hl hlt hcell
      exact ⟨by omega, h₂⟩

theorem four_commands_safe : ∃ s, Reach fourEntries (·.claimed < 2^32) s ∧ s.claimed = 4 ∧
    s.tail.toNat ≤ s.head.toNat + (fourEntries.qs - 1) ∧
    s.advances.flatten = (List.range s.rung).map (cell fourEntries) := by
  obtain ⟨s, hs⟩ : ∃ s, Quiet fourEntries (·.claimed < 2^32) 4 s :=
    exists_quiet (fun s hle _ => Nat.lt_of_le_of_lt hle (by decide))
      (fun s hlt => .inl (Nat.le_of_lt hlt)) (.inr (by decide))
  obtain ⟨htail, -, -, -, hadv, -⟩ := submission_queue_safe hs.reach
  exact ⟨s, hs.reach, hs.claimed_eq, htail.1, hadv⟩

/-- At most half a turn of `in_ticket` is out at any time. -/
def HalfTurn (s : State) : Prop := s.claimed ≤ s.swept + 2^31

theorem halfTurn_of_le (s : State) (h : s.claimed ≤ s.swept + 1) : HalfTurn s :=
  h.trans (Nat.add_le_add_left (by decide) _)

section
variable {q : Queue} {s s' : State} {g : Nat}

/-- A call gets past the two waits only when its ticket is admitted. -/
theorem callStep_admitted {g' : Nat} (h : callStep q s g = some s')
    (ha : (s'.calls g').pc.admitted = true) :
    (s.calls g').pc.admitted = true ∨
      g' = g ∧ (s.calls g).pc = .acquire ∧ admits q s (s.calls g).ticket = true := by
  by_cases he : g' = g
  · subst he
    by_cases hadm : (s.calls g').pc.admitted = true
    · exact .inl hadm
    · cases hpc : (s.calls g').pc with
      | spin =>
        simp only [callStep, hpc] at h
        split at h
        all_goals
          obtain rfl := Option.some.inj h
          simp [State.setPc, repc, hpc, CallPc.admitted, CallPc.stage, Stage.admitted] at ha
      | acquire =>
        simp only [callStep, hpc] at h
        split at h
        case isTrue hx => exact .inr ⟨rfl, rfl, hx⟩
        case isFalse =>
          obtain rfl := Option.some.inj h
          simp [hpc, CallPc.admitted, CallPc.stage, Stage.admitted] at ha
      | _ =>
        rw [hpc] at hadm
        exact absurd rfl hadm
  · obtain ⟨pc, hpc⟩ := callStep_calls h
    rw [hpc, repc_apply, if_neg he] at ha
    exact .inl ha

theorem Step.admitted (h : Step q s s') (hg : g < s'.claimed)
    (ha : (s'.calls g).pc.admitted = true) : g < s.claimed ∧
      ((s.calls g).pc.admitted = true ∨
        (s.calls g).pc = .acquire ∧ admits q s (s.calls g).ticket = true) := by
  cases h with
  | claim cmd =>
    have hne : g ≠ s.claimed := by
      rintro rfl
      simp [SubmissionQueue.claim, CallPc.admitted, CallPc.stage, Stage.admitted] at ha
    have hold : (SubmissionQueue.claim s cmd).calls g = s.calls g := update_of_ne hne _ _
    rw [hold] at ha
    exact ⟨Nat.lt_of_le_of_ne (Nat.le_of_lt_succ hg) hne, .inl ha⟩
  | call _ hstep =>
    rw [(callStep_sameDevice hstep).claimed_eq] at hg
    rcases callStep_admitted hstep ha with ha | ⟨rfl, hpc, hx⟩
    · exact ⟨hg, .inl ha⟩
    · exact ⟨hg, .inr ⟨hpc, hx⟩⟩
  | fetch hstep =>
    unfold SubmissionQueue.fetch at hstep
    split at hstep
    · cases hstep
    · obtain rfl := Option.some.inj hstep
      exact ⟨hg, .inl ha⟩
  | post hstep =>
    unfold SubmissionQueue.post at hstep
    split at hstep
    · obtain rfl := Option.some.inj hstep
      exact ⟨hg, .inl ha⟩
    · cases hstep
  | pass hstep =>
    unfold SubmissionQueue.pass at hstep
    split at hstep
    · obtain rfl := Option.some.inj hstep
      exact ⟨hg, .inl ha⟩
    · cases hstep
  | move hstep =>
    unfold moveStep at hstep
    split at hstep
    · cases hstep
    · obtain rfl := Option.some.inj hstep
      exact ⟨hg, .inl ha⟩
    · split at hstep
      all_goals
        obtain rfl := Option.some.inj hstep
        exact ⟨hg, .inl ha⟩

/-- In a queue of more than two entries no ticket past the wrap is ever admitted. -/
theorem Reach.admitted_lt (h : Reach q HalfTurn s) (hq : q.qsLog2 ≠ 1) :
    ∀ g < s.claimed, (s.calls g).pc.admitted = true → g < 2^32 := by
  induction h with
  | init => exact fun g hg => absurd hg (Nat.not_lt_zero g)
  | @step s s' hs hstep hok ih =>
    intro g hg ha
    obtain ⟨hg, ha | ⟨hpc, hadm⟩⟩ := hstep.admitted hg ha
    · exact ih g hg ha
    · have hinv := hs.inv fun _ hx => .inr hx
      have hwait : ¬ (s.calls g).pc.marked = true := by rw [hpc]; decide
      have hcounts := hinv.turn_of_admits (hs.few fun _ hx => .inr hx) hg hwait hadm
      have hshows := (hinv.shows_iff g).mp ((hinv.admits_iff hg).mp hadm)
      -- the call a lap before has left, so it was admitted before the wrap
      have hnear : g < 2^32 + q.qs := by
        rcases Nat.lt_or_ge g q.qs with hlt | hge
        · omega
        · obtain ⟨b, rfl⟩ := Nat.exists_eq_add_of_le' hge
          have hl := (hinv.tickets.left_iff b).mp (by
            rw [← cell_add_qs, hcounts.1, lap_add_qs]
            exact Nat.lt_succ_self _)
          have := ih b hl.1 (by rw [hl.2]; rfl)
          omega
      rw [hcounts.1, hcounts.2, id_matches_iff q hnear] at hshows
      exact hshows.resolve_left hq

end

/-- Past the wrap. Of a cell whose earlier calls are all over, the word shows the id of
the next ticket and admits that ticket alone exactly when the queue has two entries or
`in_ticket` has not yet wrapped at that ticket. -/
theorem next_ticket_admitted_iff {q : Queue} {s : State} (h : Reach q HalfTurn s) {g : Nat}
    (hearlier : ∀ g' < g, cell q g' = cell q g →
      g' < s.moved ∧ g' < s.claimed ∧ (s.calls g').pc = .left)
    (hnext : s.claimed ≤ g ∨ (s.calls g).pc.admitted = false) :
    (Shows q s g ∧ ∀ g' < s.claimed, cell q g' = cell q g → (s.calls g').pc.admitted = false →
      (admits q s (s.calls g').ticket = true ↔ g' = g)) ↔ q.qsLog2 = 1 ∨ g < 2^32 := by
  have hinv := h.inv fun _ hx => .inr hx
  have hswept : s.swept ≤ g := by
    rcases hnext with hle | hw
    · exact hinv.marks.swept_le.trans hle
    · refine hinv.swept_le_of_not_marked fun hm => ?_
      rw [CallPc.admitted_of_marked hm] at hw
      cases hw
  have hcounts := hinv.counts_eq hswept hearlier
  have hshows := hinv.shows_iff g
  rw [hcounts.1, hcounts.2] at hshows
  constructor
  · rintro ⟨hs, -⟩
    by_cases hq : q.qsLog2 = 1
    · exact .inl hq
    · have hnear : g < 2^32 + q.qs := by
        rcases Nat.lt_or_ge g q.qs with hlt | hge
        · omega
        · obtain ⟨b, rfl⟩ := Nat.exists_eq_add_of_le' hge
          obtain ⟨-, hb, hl⟩ :=
            hearlier b (Nat.lt_add_of_pos_right (qs_pos q)) (cell_add_qs b).symm
          have := h.admitted_lt hq b hb (by rw [hl]; rfl)
          omega
      exact (id_matches_iff q hnear).mp (hshows.mp hs)
  · intro hcond
    have hs : Shows q s g := by
      refine hshows.mpr ?_
      rcases hcond with hq | hlt
      · rw [hq, Nat.two_mul]
      · exact (id_matches_iff q (Nat.lt_add_right _ hlt)).mpr (.inr hlt)
    refine ⟨hs, fun g' hg' hc hw => ⟨fun hadm => ?_, ?_⟩⟩
    · have hm : ¬ (s.calls g').pc.marked = true := fun hm => by
        rw [CallPc.admitted_of_marked hm] at hw
        cases hw
      have := (hinv.turn_of_admits (h.few fun _ hx => .inr hx) hg' hm hadm).1
      rw [hc, hcounts.1] at this
      exact (eq_of_lap hc.symm this).symm
    · rintro rfl
      exact (hinv.admits_iff hg').mpr hs

theorem second_lap_admitted : ∃ s, Reach fourEntries HalfTurn s ∧ Shows fourEntries s 4 := by
  obtain ⟨s, hs⟩ : ∃ s, Quiet fourEntries HalfTurn 4 s :=
    exists_quiet (fun s _ hle => halfTurn_of_le s hle) (fun s hx => .inr hx) (.inr (by decide))
  refine ⟨s, hs.reach, ((next_ticket_admitted_iff hs.reach ?_ (.inl ?_)).mpr (.inr (by decide))).1⟩
  · exact fun g' hg' _ => ⟨hs.moved_eq ▸ hg', hs.claimed_eq ▸ hg', hs.left g' hg'⟩
  · exact hs.claimed_eq.le

/-- A queue of four entries after `2^32` commands, all of them over: the word of the
first cell does not show the id of the next ticket. -/
theorem wrapped_ticket_shut_out : ∃ s, Reach fourEntries HalfTurn s ∧ s.claimed = 2^32 ∧
    (∀ g < 2^32, g < s.moved ∧ (s.calls g).pc = .left) ∧ ¬ Shows fourEntries s (2^32) := by
  obtain ⟨s, hs⟩ : ∃ s, Quiet fourEntries HalfTurn (2^32) s :=
    exists_quiet (fun s _ hle => halfTurn_of_le s hle) (fun s hx => .inr hx) (.inr (Nat.le_refl _))
  refine ⟨s, hs.reach, hs.claimed_eq, fun g hg => ⟨hs.moved_eq ▸ hg, hs.left g hg⟩, ?_⟩
  have hinv := hs.reach.inv fun s hx => .inr hx
  have hcounts := hinv.counts_eq (g := 2^32) hs.swept_eq.le fun g' hg' _ =>
    ⟨hs.moved_eq ▸ hg', hs.claimed_eq ▸ hg', hs.left g' hg'⟩
  rw [hinv.shows_iff, hcounts.1, hcounts.2,
    id_matches_iff fourEntries (Nat.lt_add_of_pos_right (qs_pos _))]
  decide

end Shaper.SubmissionQueue
