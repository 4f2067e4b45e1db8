import Mathlib.Data.Prod.Lex
import Mathlib.Order.WellFoundedSet
import Shaper.Lib.Rank
import Shaper.RingSchedule

/-! The scheduler gets on: while a published request waits and no shutdown is
asked for, every step of the block brings the next advance of `cons_head` closer.
The rank counts the free places of the batch first, then the way that is left to
the next fetch or to the end of the batch. -/
namespace Shaper.RingProgress
open RingMachine RingInvariant RingSchedule Request Lib Lib.Warp Lib.Rank Function
variable {r : Ring} {s t : State} {g pick : Nat}

instance (s : State) (g : Nat) : Decidable (published s g) :=
  inferInstanceAs (Decidable (_ ∧ _))

def held (b : Sched) : Nat :=
  match b.phase with
  | .top => 0
  | _ => b.acc

def Work (s : State) : Prop := s.shutdown = 0#32 ∧ (0 < held s.sched ∨ published s s.retired)

def NextReady (r : Ring) (s : State) : Prop :=
  published s (s.retired + s.sched.acc) ∧ s.sched.acc < r.batchRoom

instance (r : Ring) (s : State) : Decidable (NextReady r s) := inferInstanceAs (Decidable (_ ∧ _))

def Fresh (r : Ring) (s : State) (roundMax : Nat) (ready : Nat → Option Bool) : Prop :=
  NextReady r s ∧ 0 < roundMax ∧ ready 0 ≠ some false

instance (r : Ring) (s : State) (roundMax : Nat) (ready : Nat → Option Bool) :
    Decidable (Fresh r s roundMax ready) := inferInstanceAs (Decidable (_ ∧ _ ∧ _))

def place (r : Ring) (s : State) : Phase → Nat ×ₗ Nat ×ₗ Nat
  | .fetch avail loaded => toLex (0, toLex (0, todo avail loaded))
  | .probe roundMax ready =>
    toLex (if Fresh r s roundMax ready then 1 else 10,
      toLex (0, todo kSchedThreads fun i => (ready i).isSome))
  | .tail => toLex (if NextReady r s then 2 else 11, toLex (0, 0))
  | .top => toLex (3, toLex (0, 0))
  | .advance => toLex (4, toLex (0, 0))
  | .notify seqDone flagDone =>
    toLex (5, toLex (0, todo s.sched.acc seqDone + todo s.sched.acc flagDone))
  | .submit => toLex (6, toLex (0, 0))
  | .adapt ns => toLex (7, toLex (ns, r.batchRoom + 2))
  | .scanTail (.more ns) => toLex (7, toLex (ns, r.batchRoom + 1))
  | .scan (.more ns) pending i => toLex (7, toLex (ns, pending - i))
  | .flag seen => toLex (8, toLex (0, todo kSchedThreads fun i => (seen i).isSome))
  | .branch _ => toLex (9, toLex (0, 0))
  | _ => toLex (12, toLex (0, 0))

def rank (r : Ring) (s : State) : Nat ×ₗ Nat ×ₗ Nat ×ₗ Nat :=
  toLex (r.batchRoom - held s.sched, place r s s.sched.phase)

theorem lex_lt_of_fst {α β : Type*} [Preorder α] [Preorder β] {a a' : α} {b b' : β} (h : a < a') :
    toLex (a, b) < toLex (a', b') := Prod.Lex.toLex_lt_toLex.mpr (.inl h)

theorem lex_lt_of_snd {α β : Type*} [Preorder α] [Preorder β] {a : α} {b b' : β} (h : b < b') :
    toLex (a, b) < toLex (a, b') := Prod.Lex.toLex_lt_toLex.mpr (.inr ⟨rfl, h⟩)

theorem held_of_ne_top (h : s.sched.phase ≠ .top) : held s.sched = s.sched.acc := by
  unfold held
  split
  · rename_i he
    exact absurd he h
  · rfl

/-- The batch is as it was and the block is further on its way. -/
theorem rank_goto {p : Phase} {ns : Nat} (hs : s.sched.phase ≠ .top) (hp : p ≠ .top)
    (h : place r s p < place r s s.sched.phase) :
    rank r { s with sched := { s.sched with phase := p, drainNs := ns } } < rank r s := by
  rw [rank, rank, held_of_ne_top hs, held_of_ne_top hp]
  exact lex_lt_of_snd h

theorem Work.published_head (h : Work s) (h0 : held s.sched = 0) : published s s.retired :=
  h.2.resolve_left (by omega)

theorem Work.nextReady (h : Work s) (hne : s.sched.phase ≠ .top) (h0 : s.sched.acc = 0) :
    NextReady r s := by
  have hp := h.published_head (held_of_ne_top hne ▸ h0)
  exact ⟨by rwa [h0], by rw [h0]; exact batchRoom_pos r⟩

theorem place_tail (h : Inv r s) (hp : PhaseOk r s .tail) :
    place r s (.probe (min (min (s.prodTail - s.sched.slot 0).toNat
      (r.batchRoom - s.sched.acc)) kSchedThreads) fun _ => none) < place r s .tail := by
  obtain ⟨hb, -⟩ := hp
  simp only [place]
  by_cases hn : NextReady r s
  · have hlt := hn.1.1
    have hroom := hn.2
    have hpend := pending_eq h.toCallInv h.few (a := s.retired + s.sched.acc) (by omega) (by omega)
    have hpos : 0 < min (min (s.prodTail - s.sched.slot 0).toNat (r.batchRoom - s.sched.acc))
        kSchedThreads := by
      rw [slot_eq hb, Nat.add_zero, hpend]
      have : 0 < kSchedThreads := by decide
      omega
    rw [if_pos ⟨hn, hpos, by simp⟩, if_pos hn]
    exact lex_lt_of_fst (by decide)
  · rw [if_neg fun hc => hn hc.1, if_neg hn]
    exact lex_lt_of_fst (by decide)

/-- A probe of the first slot after the batch finds it when it is published. -/
theorem fresh_store (h : Inv r s) {roundMax : Nat} {ready : Nat → Option Bool}
    (hp : PhaseOk r s (.probe roundMax ready)) (hf : Fresh r s roundMax ready) :
    Fresh r s roundMax (update ready pick (some (decide (pick < roundMax) &&
      decide (s.prodSeq (r.index (s.sched.slot pick)) = s.sched.slot pick + 1#32)))) := by
  obtain ⟨⟨hb, -⟩, -⟩ := hp
  refine ⟨hf.1, hf.2.1, ?_⟩
  by_cases h0 : 0 = pick
  · subst h0
    have hseq := seq_of_published h.toCallInv (Nat.le_add_right _ _) hf.1.1
    rw [update_self, slot_eq hb, Nat.add_zero]
    simp [hf.2.1, hseq]
  · rw [update_of_ne h0]
    exact hf.2.2

theorem isSome_update {f : Nat → Option Bool} {b : Bool} :
    (fun i => (update f pick (some b) i).isSome) = update (fun i => (f i).isSome) pick true := by
  funext i
  by_cases he : i = pick
  · simp [he]
  · simp [he]

theorem place_probe_store (h : Inv r s) {roundMax : Nat} {ready : Nat → Option Bool}
    (hp : PhaseOk r s (.probe roundMax ready)) (hpick : pick < kSchedThreads)
    (hnone : ready pick = none) :
    place r s (.probe roundMax (update ready pick (some (decide (pick < roundMax) &&
      decide (s.prodSeq (r.index (s.sched.slot pick)) = s.sched.slot pick + 1#32))))) <
    place r s (.probe roundMax ready) := by
  have htick := @todo_tick _ _ (fun i => (ready i).isSome) hpick (by simp [hnone])
  simp only [place, isSome_update]
  by_cases hf : Fresh r s roundMax ready
  · rw [if_pos hf, if_pos (fresh_store h hp hf)]
    exact lex_lt_of_snd (lex_lt_of_snd htick)
  · rw [if_neg hf]
    split
    · exact lex_lt_of_fst (by decide)
    · exact lex_lt_of_snd (lex_lt_of_snd htick)

theorem place_probe_done {roundMax : Nat} {ready : Nat → Option Bool}
    (hall : ((List.range kSchedThreads).all fun i => (ready i).isSome) = true) {lead : Nat}
    (hl : lead = leadCount (warpBallots (fun i => decide (ready i = some true)) 4 0)) :
    place r s (if 0 < min lead roundMax then .fetch (min lead roundMax) fun _ => false
      else .branch 0) < place r s (.probe roundMax ready) := by
  split
  · simp only [place]
    exact lex_lt_of_fst (by split <;> decide)
  · rename_i hzero
    have hstale : ¬ Fresh r s roundMax ready := by
      intro hf
      obtain ⟨-, -, hnot⟩ := leadCount_spec (fun i => decide (ready i = some true)) 4 0
      have h0 : lead = 0 := by
        have := hf.2.1
        omega
      rw [← hl, h0] at hnot
      have hsome := List.all_eq_true.mp hall 0 (List.mem_range.mpr (by decide))
      obtain ⟨b, hb⟩ := Option.isSome_iff_exists.mp hsome
      have hno : ready 0 ≠ some true := by simpa using hnot (by decide)
      cases b with
      | true => exact hno hb
      | false => exact hf.2.2 hb
    simp only [place, if_neg hstale]
    exact lex_lt_of_fst (by decide)

theorem place_branch {avail : Nat} (hp : PhaseOk r s (.branch avail)) :
    place r s (if avail = 0 ∧ s.sched.acc = 0 then .flag fun _ => none
      else if s.sched.acc = 0 then .tail
      else match r.kernel with
        | .write => .adapt s.sched.drainNs
        | .read => .submit) < place r s (.branch avail) := by
  obtain ⟨-, hacc⟩ := hp
  split
  · exact lex_lt_of_fst (by decide)
  · rename_i hne
    split
    · rename_i h0
      have := hacc fun ha => hne ⟨ha, h0⟩
      omega
    · cases r.kernel with
      | write => exact lex_lt_of_fst (by decide)
      | read => exact lex_lt_of_fst (by decide)

theorem place_flag_load {seen : Nat → Option Bool} {b : Bool} (hpick : pick < kSchedThreads)
    (hnone : seen pick = none) :
    place r s (.flag (update seen pick (some b))) < place r s (.flag seen) := by
  have htick := @todo_tick _ _ (fun i => (seen i).isSome) hpick (by simp [hnone])
  simp only [place, isSome_update]
  exact lex_lt_of_snd (lex_lt_of_snd htick)

/-- Without a shutdown the flag loads send the block back to the drain. -/
theorem place_flag_done {seen : Nat → Option Bool} (hp : PhaseOk r s (.flag seen))
    (hall : ((List.range kSchedThreads).all fun i => (seen i).isSome) = true)
    (h0 : s.shutdown = 0#32) (hn : NextReady r s) :
    place r s (if (List.range kSchedThreads).all fun i => seen i == some false then .tail
      else if (List.range kSchedThreads).all fun i => seen i == some true then .scanTail .exit
      else .torn) < place r s (.flag seen) := by
  have hfalse : ((List.range kSchedThreads).all fun i => seen i == some false) = true := by
    refine List.all_eq_true.mpr fun i hi => ?_
    obtain ⟨b, hb⟩ := Option.isSome_iff_exists.mp (List.all_eq_true.mp hall i hi)
    cases b with
    | true => exact absurd h0 (hp.2.2 i hb)
    | false => simp [hb]
  rw [if_pos hfalse]
  simp only [place, if_pos hn]
  exact lex_lt_of_fst (by decide)

theorem place_afterScan {ns pending i : Nat} (hp : PhaseOk r s (.scan (.more ns) pending i)) :
    place r s (afterScan s.sched i (.more ns)).phase < place r s (.scan (.more ns) pending i) := by
  obtain ⟨-, ho, hip, hm, -, hpub⟩ := hp
  by_cases h0 : i = 0
  · simp only [afterScan, h0, if_true, place]
    have := ho.2.2
    exact lex_lt_of_snd (lex_lt_of_fst (by omega))
  · simp only [afterScan, h0, if_false, place]
    have hn : NextReady r s := by
      refine ⟨hpub 0 (by omega), ?_⟩
      simp only [scanMax] at hm
      omega
    rw [if_pos hn]
    exact lex_lt_of_fst (by decide)

theorem scan_lt {ns pending i : Nat} (hi : i < pending) :
    place r s (.scan (.more ns) pending (i+1)) < place r s (.scan (.more ns) pending i) := by
  simp only [place]
  exact lex_lt_of_snd (lex_lt_of_snd (by omega))

/-- Every step of the block advances `cons_head` or lowers the rank. -/
theorem sched_progress (h : Inv r s) (hw : Work s) (hs : schedStep r s pick = some t) :
    s.retired < t.retired ∨ t.retired = s.retired ∧ rank r t < rank r s := by
  have hp := h.phase_ok
  simp only [schedStep] at hs
  split at hs <;> rename_i hphase <;> rw [hphase] at hp
  case h_1 =>
    cases hs
    refine .inr ⟨rfl, ?_⟩
    have hnext : NextReady r
        { s with sched := { s.sched with base := s.consHead, acc := 0, phase := .tail } } :=
      ⟨hw.published_head (by rw [held, hphase]), batchRoom_pos r⟩
    rw [rank, rank, hphase, held, held, hphase]
    refine lex_lt_of_snd ?_
    simp only [place, if_pos hnext]
    exact lex_lt_of_fst (by decide)
  case h_2 =>
    cases hs
    exact .inr ⟨rfl, rank_goto (by rw [hphase]; simp) (by simp) (hphase ▸ place_tail h hp)⟩
  case h_3 =>
    split at hs
    · rename_i hall
      cases hs
      refine .inr ⟨rfl, rank_goto (by rw [hphase]; simp) (by split <;> simp) ?_⟩
      exact hphase ▸ place_probe_done hall rfl
    · split at hs <;> cases hs
      rename_i hpick
      refine .inr ⟨rfl, rank_goto (by rw [hphase]; simp) (by simp) ?_⟩
      exact hphase ▸ place_probe_store h hp hpick.1 hpick.2
  case h_4 =>
    obtain ⟨-, ha, -, hr, -⟩ := hp
    split at hs
    · cases hs
      refine .inr ⟨rfl, lex_lt_of_fst ?_⟩
      rw [held_of_ne_top (by split <;> simp), held_of_ne_top (by rw [hphase]; simp)]
      simp only
      omega
    · split at hs <;> cases hs
      rename_i hpick
      refine .inr ⟨rfl, ?_⟩
      rw [rank, rank, hphase, held, held, hphase]
      exact lex_lt_of_snd (lex_lt_of_snd (lex_lt_of_snd (todo_tick hpick.1 hpick.2)))
  case h_5 =>
    cases hs
    refine .inr ⟨rfl, rank_goto (by rw [hphase]; simp) ?_ (hphase ▸ place_branch hp)⟩
    split
    · simp
    · split
      · simp
      · split <;> simp
  case h_6 =>
    split at hs
    · rename_i hall
      cases hs
      refine .inr ⟨rfl, rank_goto (by rw [hphase]; simp) ?_ ?_⟩
      · split
        · simp
        · split <;> simp
      · have hn := hw.nextReady (r := r) (by rw [hphase]; simp) hp.2.1
        exact hphase ▸ place_flag_done hp hall hw.1 hn
    · split at hs <;> cases hs
      rename_i hpick
      refine .inr ⟨rfl, rank_goto (by rw [hphase]; simp) (by simp) ?_⟩
      exact hphase ▸ place_flag_load hpick.1 hpick.2
  case h_7 why =>
    cases hs
    refine .inr ⟨rfl, rank_goto (by rw [hphase]; simp) (by simp) ?_⟩
    rw [hphase]
    cases why with
    | exit => exact absurd hw.1 hp.2.2
    | more ns =>
      simp only [place, scanMax]
      exact lex_lt_of_snd (lex_lt_of_snd (by omega))
  case h_8 why pending i =>
    cases why with
    | exit => exact absurd hw.1 hp.2.1.2
    | more ns =>
      split at hs <;> cases hs
      · rename_i hi
        exact .inr ⟨rfl, rank_goto (by rw [hphase]; simp) (by simp) (hphase ▸ scan_lt hi.1)⟩
      · have hlt := place_afterScan hp
        refine .inr ⟨rfl, ?_⟩
        rw [← hphase] at hlt
        by_cases h0 : i = 0
        · simp only [afterScan, h0, if_true] at hlt ⊢
          exact rank_goto (by rw [hphase]; simp) (by simp) hlt
        · simp only [afterScan, h0, if_false] at hlt ⊢
          exact rank_goto (by rw [hphase]; simp) (by simp) hlt
  case h_9 =>
    split at hs <;> cases hs
    · refine .inr ⟨rfl, rank_goto (by rw [hphase]; simp) (by simp) ?_⟩
      rw [hphase]
      exact lex_lt_of_snd (lex_lt_of_snd (by omega))
    · refine .inr ⟨rfl, rank_goto (by rw [hphase]; simp) (by simp) ?_⟩
      rw [hphase]
      exact lex_lt_of_fst (by decide)
  case h_10 =>
    cases hs
    refine .inr ⟨rfl, ?_⟩
    rw [rank, rank, hphase, held, held, hphase]
    exact lex_lt_of_snd (lex_lt_of_fst (by decide))
  case h_11 =>
    split at hs
    · cases hs
      refine .inr ⟨rfl, rank_goto (by rw [hphase]; simp) (by simp) ?_⟩
      rw [hphase]
      exact lex_lt_of_fst (by decide)
    · split at hs
      · rename_i hpick
        cases hs
        refine .inr ⟨rfl, ?_⟩
        rw [rank, rank, hphase, held, held, hphase]
        have := todo_tick hpick.1 hpick.2.2
        exact lex_lt_of_snd (lex_lt_of_snd (lex_lt_of_snd (Nat.add_lt_add_right this _)))
      · split at hs <;> cases hs
        rename_i hpick
        refine .inr ⟨rfl, ?_⟩
        rw [rank, rank, hphase, held, held, hphase]
        have := todo_tick hpick.1 hpick.2.2
        exact lex_lt_of_snd (lex_lt_of_snd (lex_lt_of_snd (Nat.add_lt_add_left this _)))
  case h_12 =>
    cases hs
    exact .inl (Nat.lt_add_of_pos_right hp.2.1)
  case h_13 => cases hs
  case h_14 => exact absurd hw.1 hp.2.2

/-- The block stores to its own arrays, `done_seq`, `done_flags` and `cons_head`. -/
theorem sched_keeps (hs : schedStep r s pick = some t) :
    t.calls = s.calls ∧ t.claimed = s.claimed ∧ t.shutdown = s.shutdown ∧
      (t.retired = s.retired ∨ t.sched.phase = .top) := by
  simp only [schedStep] at hs
  split at hs <;> (repeat' split at hs) <;> cases hs <;>
    first
    | exact ⟨rfl, rfl, rfl, .inl rfl⟩
    | exact ⟨rfl, rfl, rfl, .inr rfl⟩

theorem held_afterScan (b : Sched) (i : Nat) (why : ScanFor) :
    held (afterScan b i why) = b.acc := by
  cases why <;> by_cases h0 : i = 0 <;> simp [afterScan, held, h0]

theorem held_le (hs : schedStep r s pick = some t) (hr : t.retired = s.retired) :
    held s.sched ≤ held t.sched := by
  simp only [schedStep] at hs
  split at hs <;> rename_i hphase <;> rw [held, hphase] <;> (repeat' split at hs) <;> cases hs
  case h_8.isFalse.refl => rw [held_afterScan]
  case h_12.refl => exact (Nat.add_eq_left.mp hr).le
  all_goals
    first
    | exact Nat.zero_le _
    | exact le_rfl
    | exact Nat.le_add_right _ _

theorem Work.sched_step (hw : Work s) (hs : schedStep r s pick = some t)
    (hr : t.retired = s.retired) : Work t := by
  obtain ⟨hcalls, hclaimed, hshut, -⟩ := sched_keeps hs
  refine ⟨hshut.trans hw.1, hw.2.imp (fun h => h.trans_le (held_le hs hr)) fun h => ?_⟩
  unfold published
  rw [hr, hcalls, hclaimed]
  exact h

theorem sched_enabled (h : Inv r s) (hw : Work s) : ∃ pick t, schedStep r s pick = some t := by
  have hp := h.phase_ok
  simp only [schedStep]
  cases hphase : s.sched.phase with
  | probe roundMax ready =>
    by_cases hall : ((List.range kSchedThreads).all fun i => (ready i).isSome) = true
    · exact ⟨0, _, if_pos hall⟩
    · obtain ⟨i, hi, hn⟩ := exists_todo (Bool.not_eq_true _ ▸ hall)
      have hnone : ready i = none := by simpa using hn
      exact ⟨i, _, (if_neg hall).trans (if_pos ⟨hi, hnone⟩)⟩
  | fetch avail loaded =>
    by_cases hall : (List.range avail).all loaded = true
    · exact ⟨0, _, if_pos hall⟩
    · obtain ⟨i, hi, hn⟩ := exists_todo (Bool.not_eq_true _ ▸ hall)
      exact ⟨i, _, (if_neg hall).trans (if_pos ⟨hi, hn⟩)⟩
  | flag seen =>
    by_cases hall : ((List.range kSchedThreads).all fun i => (seen i).isSome) = true
    · exact ⟨0, _, if_pos hall⟩
    · obtain ⟨i, hi, hn⟩ := exists_todo (Bool.not_eq_true _ ▸ hall)
      have hnone : seen i = none := by simpa using hn
      exact ⟨i, _, (if_neg hall).trans (if_pos ⟨hi, hnone⟩)⟩
  | scan why pending i =>
    by_cases hi : i < pending ∧ s.prodSeq (r.index (s.sched.scanSlot why i)) =
        s.sched.scanSlot why i + 1#32
    · exact ⟨0, _, if_pos hi⟩
    · exact ⟨0, _, if_neg hi⟩
  | adapt ns =>
    by_cases hns : 64 ≤ ns
    · exact ⟨0, _, if_pos hns⟩
    · exact ⟨0, _, if_neg hns⟩
  | notify seqDone flagDone =>
    by_cases hall : ((List.range s.sched.acc).all fun i =>
        flagDone i || padKey r.kernel (s.sched.buf i).byteOffset i) = true
    · exact ⟨0, _, if_pos hall⟩
    · obtain ⟨i, hi, hn⟩ := exists_todo (Bool.not_eq_true _ ▸ hall)
      obtain ⟨hf, hk⟩ : flagDone i = false ∧
          padKey r.kernel (s.sched.buf i).byteOffset i = false := by simpa using hn
      by_cases hq : seqDone i = false
      · exact ⟨i, _, (if_neg hall).trans (if_pos ⟨hi, hk, hq⟩)⟩
      · exact ⟨i, _, (if_neg hall).trans
          ((if_neg fun hc => hq hc.2.2).trans (if_pos ⟨hi, hk, hf⟩))⟩
  | exited =>
    rw [hphase] at hp
    exact absurd hw.1 hp.2.2
  | torn =>
    rw [hphase] at hp
    exact absurd hw.1 hp.2.2
  | _ => exact ⟨0, _, rfl⟩

def SchedRun (r : Ring) : State → State → Prop :=
  Relation.ReflTransGen fun s t => ∃ pick, schedStep r s pick = some t

theorem SchedRun.keeps (h : SchedRun r s t) :
    t.calls = s.calls ∧ t.claimed = s.claimed ∧ t.shutdown = s.shutdown := by
  induction h with
  | refl => exact ⟨rfl, rfl, rfl⟩
  | tail _ hs ih =>
    obtain ⟨pick, hs⟩ := hs
    obtain ⟨hc, hn, hd, -⟩ := sched_keeps hs
    exact ⟨hc.trans ih.1, hn.trans ih.2.1, hd.trans ih.2.2⟩

theorem SchedRun.run (h : SchedRun r s t) (hf : unfinished s < 2^31) : Run r (keyedStep r) s t := by
  induction h with
  | refl => exact .refl
  | @tail u v hu hs ih =>
    obtain ⟨pick, hs⟩ := hs
    obtain ⟨hc, hn, -⟩ := SchedRun.keeps (Relation.ReflTransGen.tail hu ⟨pick, hs⟩)
    refine .step (a := .sched pick) ih trivial hs ?_
    unfold unfinished
    rw [hc, hn]
    exact hf

theorem SchedRun.reach (h : SchedRun r s t) (hr : Reach r s) : Reach r t :=
  hr.trans (h.run (inv_of_reach hr).few)

/-- Left to itself the block retires what waits at the head of the ring. -/
theorem exists_retire (h : Inv r s) (hw : Work s) :
    ∃ t, SchedRun r s t ∧ s.retired < t.retired ∧ t.sched.phase = .top := by
  have hstep : ∀ u, Inv r u ∧ (u.retired = s.retired ∧ Work u ∨
      s.retired < u.retired ∧ u.sched.phase = .top) → ¬ s.retired < u.retired →
      ∃ v, (∃ pick, schedStep r u pick = some v) ∧ (Inv r v ∧ (v.retired = s.retired ∧ Work v ∨
        s.retired < v.retired ∧ v.sched.phase = .top)) ∧
        (s.retired < v.retired ∨ rank r v < rank r u) := by
    rintro u ⟨hi, hu⟩ hnot
    obtain ⟨heq, hwu⟩ := hu.resolve_right fun hc => hnot hc.1
    obtain ⟨pick, v, hv⟩ := sched_enabled hi hwu
    refine ⟨v, ⟨pick, hv⟩, ⟨RingSchedule.sched_step hi hv, ?_⟩, ?_⟩
    · obtain ⟨-, -, -, hsame | htop⟩ := sched_keeps hv
      · exact .inl ⟨hsame.trans heq, hwu.sched_step hv hsame⟩
      · rcases sched_progress hi hwu hv with hlt | ⟨hsame, -⟩
        · exact .inr ⟨heq ▸ hlt, htop⟩
        · exact .inl ⟨hsame.trans heq, hwu.sched_step hv hsame⟩
    · exact (sched_progress hi hwu hv).imp (heq ▸ ·) And.right
  obtain ⟨t, ht, ⟨-, hor⟩, hgt⟩ := @Rank.exists_run State _ _ _ _ (rank r)
    (fun u => s.retired < u.retired) (fun u => Inv r u ∧ (u.retired = s.retired ∧ Work u ∨
      s.retired < u.retired ∧ u.sched.phase = .top)) hstep s ⟨h, .inl ⟨rfl, hw⟩⟩
  exact ⟨t, ht, hgt, (hor.resolve_left (by omega)).2⟩

end Shaper.RingProgress
