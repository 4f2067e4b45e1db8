import Shaper.RingInvariant

/-! The scheduler's steps keep the ring invariant, phase by phase, and with the
producers' steps this gives it for every reachable state. -/
namespace Shaper.RingSchedule
open RingMachine RingInvariant Request Lib Lib.Warp Function
variable {r : Ring} {s t : State} {g pick : Nat}

theorem drained_le_claimed (h : Inv r s) : s.drained.length ≤ s.claimed := by
  by_contra hlt
  exact absurd (h.drained_published s.claimed (by omega)).1 (by omega)

theorem slot_eq (h : Batch r s) (i : Nat) :
    s.sched.slot i = BitVec.ofNat 32 (s.retired + s.sched.acc + i) := by
  rw [Sched.slot, h.base_eq, ← BitVec.ofNat_add, ← BitVec.ofNat_add]

theorem scanSlot_eq (h : Batch r s) (why : ScanFor) (i : Nat) :
    s.sched.scanSlot why i = BitVec.ofNat 32 (scanStart s why + i) := by
  cases why with
  | exit => rw [Sched.scanSlot, h.base_eq, ← BitVec.ofNat_add, scanStart]
  | more ns => exact slot_eq h i

/-- The test of the drain and of the scans: a cell that carries the number of a
slot within the room of a batch was published by that slot's own call. -/
theorem published_of_seq (h : CallInv r s) {a : Nat} (hlo : s.retired ≤ a)
    (ha : a < s.retired + r.batchRoom)
    (hs : s.prodSeq (r.index (BitVec.ofNat 32 a)) = BitVec.ofNat 32 a + 1#32) : published s a := by
  have hc := capacity_le r
  have hb := batchRoom_le r
  rw [index_ofNat, ← Counter.ofNat_succ] at hs
  refine h.stamped.of_stamp h.retired_published (fun g hg => h.lt_of_published hg) hlo ha ?_ hs
  unfold Ring.capacity at hc
  omega

theorem seq_of_published (h : CallInv r s) {a : Nat} (hlo : s.retired ≤ a) (ha : published s a) :
    s.prodSeq (r.index (BitVec.ofNat 32 a)) = BitVec.ofNat 32 a + 1#32 := by
  rw [index_ofNat, ← Counter.ofNat_succ]
  exact h.stamped.stamp_of (fun g hg => h.lt_of_published hg) hlo ha

theorem pending_eq (h : CallInv r s) (hf : unfinished s < 2^31) {a : Nat} (hlo : s.retired ≤ a)
    (ha : a ≤ s.claimed) : (s.prodTail - BitVec.ofNat 32 a).toNat = s.claimed - a := by
  have hspan := h.span hf
  rw [h.tail_eq]
  exact Counter.toNat_sub ha (by omega)

/-- The block moves on and touches nothing but its own registers. -/
theorem goto (h : Inv r s) {p : Phase} {ns : Nat} (hp : PhaseOk r s p) :
    Inv r { s with sched := { s.sched with phase := p, drainNs := ns } } :=
  h.frame ⟨rfl, rfl, rfl, rfl, rfl, rfl, rfl, rfl, rfl, le_refl _, id, fun _ hg => ⟨hg, rfl⟩⟩
    ⟨h.tail_eq, h.head_eq, h.slot_eq, h.keyed, h.retired_published, h.window, h.written, h.stamped⟩
    h.few hp

theorem top_step (h : Inv r s) (hp : PhaseOk r s .top) :
    Inv r { s with sched := { s.sched with base := s.consHead, acc := 0, phase := .tail } } := by
  refine ⟨⟨h.tail_eq, h.head_eq, h.slot_eq, h.keyed, h.retired_published, h.window, h.written,
    h.stamped⟩, h.few, h.log_eq, h.drained_published, h.notified, h.stored_lt, h.flag_seq,
    h.submitted_le, h.doneStamped, ⟨h.head_eq, Nat.zero_le _, hp.1, ?_⟩, hp.2⟩
  intro j hj
  exact absurd hj (Nat.not_lt_zero j)

theorem tail_step (h : Inv r s) (hp : PhaseOk r s .tail) :
    PhaseOk r s (.probe (min (min (s.prodTail - s.sched.slot 0).toNat
      (r.batchRoom - s.sched.acc)) kSchedThreads) fun _ => none) := by
  obtain ⟨hb, hs⟩ := hp
  have hlog := hb.log
  have hroom := hb.room
  have hle := drained_le_claimed h
  have hpend := pending_eq h.toCallInv h.few (a := s.retired + s.sched.acc) (by omega) (by omega)
  rw [slot_eq hb, Nat.add_zero, hpend]
  refine ⟨⟨hb, hs⟩, by omega, by omega, by omega, ?_⟩
  intro i hi
  cases hi

theorem probe_store (h : Inv r s) {roundMax : Nat} {ready : Nat → Option Bool}
    (hp : PhaseOk r s (.probe roundMax ready)) :
    PhaseOk r s (.probe roundMax (update ready pick (some (decide (pick < roundMax) &&
      decide (s.prodSeq (r.index (s.sched.slot pick)) = s.sched.slot pick + 1#32))))) := by
  obtain ⟨⟨hb, hs⟩, hm, hr, hc, hready⟩ := hp
  refine ⟨⟨hb, hs⟩, hm, hr, hc, ?_⟩
  intro i hi
  by_cases he : i = pick
  · subst he
    rw [update_self, slot_eq hb] at hi
    simp only [Option.some.injEq, Bool.and_eq_true, decide_eq_true_eq] at hi
    exact ⟨hi.1, published_of_seq h.toCallInv (by omega) (by omega) hi.2⟩
  · rw [update_of_ne he] at hi
    exact hready i hi

theorem probe_done {roundMax : Nat} {ready : Nat → Option Bool}
    (hp : PhaseOk r s (.probe roundMax ready)) {lead : Nat}
    (hl : lead = leadCount (warpBallots (fun i => decide (ready i = some true)) 4 0)) :
    PhaseOk r s (if 0 < min lead roundMax then .fetch (min lead roundMax) fun _ => false
      else .branch 0) := by
  obtain ⟨⟨hb, hs⟩, hm, hr, hc, hready⟩ := hp
  split
  · rename_i hpos
    refine ⟨⟨hb, hs⟩, hpos, by omega, by omega, ?_⟩
    intro i hi
    obtain ⟨hvote, -, -⟩ := leadCount_spec (fun i => decide (ready i = some true)) 4 0
    have hv : ready i = some true := by
      have := hvote i (by omega)
      simpa using this
    exact ⟨(hready i hv).2, fun hl => by cases hl⟩
  · exact ⟨⟨hb, hs⟩, fun h0 => absurd rfl h0⟩

/-- A published slot that has not been retired still holds its own request. -/
theorem drain_entry (h : CallInv r s) {a : Nat} (hlo : s.retired ≤ a) (ha : published s a) :
    drain (s.entries (cell r a)) = request (s.calls a) := by
  have hw := (written_iff (.inr ha.2)).mp (h.written a ha.1 hlo)
  rw [hw]
  rfl

theorem fetch_load (h : Inv r s) {avail : Nat} {loaded : Nat → Bool}
    (hp : PhaseOk r s (.fetch avail loaded)) (hpick : pick < avail) :
    Inv r { s with sched := { s.sched with
      buf := update s.sched.buf (s.sched.acc+pick)
        (drain (s.entries (r.index (s.sched.slot pick))))
      phase := .fetch avail (update loaded pick true) } } := by
  obtain ⟨⟨hb, hs⟩, ha, hm, hr, hload⟩ := hp
  have hnew : drain (s.entries (r.index (s.sched.slot pick))) =
      request (s.calls (s.retired + s.sched.acc + pick)) := by
    rw [slot_eq hb, index_ofNat]
    exact drain_entry h.toCallInv (by omega) (hload pick hpick).1
  refine ⟨⟨h.tail_eq, h.head_eq, h.slot_eq, h.keyed, h.retired_published, h.window, h.written,
    h.stamped⟩, h.few, h.log_eq, h.drained_published, h.notified, h.stored_lt, h.flag_seq,
    h.submitted_le, h.doneStamped, ⟨⟨hb.base_eq, hb.room, hb.log, ?_⟩, hs⟩, ha, hm, hr, ?_⟩
  · intro j hj
    have hne : j ≠ s.sched.acc + pick := by
      have : j < s.sched.acc := hj
      omega
    refine ⟨(hb.got j hj).1, ?_⟩
    simp only [update_of_ne hne]
    exact (hb.got j hj).2
  · intro i hi
    refine ⟨(hload i hi).1, ?_⟩
    by_cases he : i = pick
    · subst he
      intro _
      simpa using hnew
    · have hne : s.sched.acc + i ≠ s.sched.acc + pick := by omega
      simpa [he, hne] using (hload i hi).2

theorem fetch_done (h : Inv r s) {avail : Nat} {loaded : Nat → Bool}
    (hp : PhaseOk r s (.fetch avail loaded)) (hall : (List.range avail).all loaded = true) :
    Inv r { s with
      sched := { s.sched with
        acc := s.sched.acc + avail
        phase := if avail = kSchedThreads then .tail else .branch avail }
      drained := s.drained ++ (List.range avail).map fun i => s.sched.buf (s.sched.acc+i) } := by
  obtain ⟨⟨hb, hs⟩, ha, hm, hr, hload⟩ := hp
  have hgot : ∀ i < avail, s.sched.buf (s.sched.acc+i) =
      request (s.calls (s.drained.length + i)) := by
    intro i hi
    rw [hb.log]
    exact (hload i hi).2 (List.all_eq_true.mp hall i (List.mem_range.mpr hi))
  have hlen : (s.drained ++ (List.range avail).map fun i => s.sched.buf (s.sched.acc+i)).length =
      s.drained.length + avail := by
    simp
  have hpub : ∀ g < s.drained.length + avail, published s g := by
    intro g hg
    rcases Nat.lt_or_ge g s.drained.length with hlt | hge
    · exact h.drained_published g hlt
    · obtain ⟨i, rfl⟩ := Nat.exists_eq_add_of_le hge
      rw [hb.log]
      exact (hload i (by omega)).1
  have hbatch : Batch r { s with
      sched := { s.sched with
        acc := s.sched.acc + avail
        phase := if avail = kSchedThreads then .tail else .branch avail }
      drained := s.drained ++ (List.range avail).map fun i => s.sched.buf (s.sched.acc+i) } := by
    refine ⟨hb.base_eq, hr, ?_, ?_⟩
    · rw [hlen, hb.log]
      exact Nat.add_assoc _ _ _
    · intro j hj
      rcases Nat.lt_or_ge j s.sched.acc with hlt | hge
      · exact hb.got j hlt
      · obtain ⟨i, rfl⟩ := Nat.exists_eq_add_of_le hge
        have hi : i < avail := by
          have : s.sched.acc + i < s.sched.acc + avail := hj
          omega
        have := hgot i hi
        rw [hb.log, Nat.add_assoc] at this
        exact ⟨Nat.add_assoc _ _ _ ▸ (hload i hi).1, this⟩
  refine ⟨⟨h.tail_eq, h.head_eq, h.slot_eq, h.keyed, h.retired_published, h.window, h.written,
    h.stamped⟩, h.few, ?_, ?_, h.notified, h.stored_lt, h.flag_seq, ?_, h.doneStamped, ?_⟩
  · rw [hlen, List.range_add, List.map_append, ← h.log_eq, List.map_map]
    exact congrArg (s.drained ++ ·)
      (List.map_congr_left fun i hi => hgot i (List.mem_range.mp hi))
  · intro g hg
    rw [hlen] at hg
    exact hpub g hg
  · rw [hlen]
    exact Nat.le_add_right_of_le h.submitted_le
  · by_cases hfull : avail = kSchedThreads
    · simp only [hfull, if_true] at hbatch ⊢
      exact ⟨hbatch, hs⟩
    · simp only [hfull, if_false] at hbatch ⊢
      exact ⟨⟨hbatch, hs⟩, fun _ => Nat.lt_add_left _ ha⟩

theorem branch_step {avail : Nat} (hp : PhaseOk r s (.branch avail)) :
    PhaseOk r s (if avail = 0 ∧ s.sched.acc = 0 then .flag fun _ => none
      else if s.sched.acc = 0 then .tail
      else match r.kernel with
        | .write => .adapt s.sched.drainNs
        | .read => .submit) := by
  obtain ⟨hi, -⟩ := hp
  split
  · rename_i h0
    exact ⟨hi, h0.2, fun i hi => by cases hi⟩
  · split
    · exact hi
    · rename_i hacc
      have hpos := Nat.pos_of_ne_zero hacc
      cases hk : r.kernel with
      | write => exact ⟨hi, hpos, hk⟩
      | read => exact ⟨hi, hpos⟩

theorem flag_load {seen : Nat → Option Bool} (hp : PhaseOk r s (.flag seen)) :
    PhaseOk r s (.flag (update seen pick (some (s.shutdown != 0#32)))) := by
  obtain ⟨hi, hacc, hseen⟩ := hp
  refine ⟨hi, hacc, fun i h => ?_⟩
  by_cases he : i = pick
  · subst he
    simpa using h
  · rw [update_of_ne he] at h
    exact hseen i h

theorem flag_done {seen : Nat → Option Bool} (hp : PhaseOk r s (.flag seen))
    (hsome : ((List.range kSchedThreads).all fun i => (seen i).isSome) = true) :
    PhaseOk r s (if (List.range kSchedThreads).all fun i => seen i == some false then .tail
      else if (List.range kSchedThreads).all fun i => seen i == some true then .scanTail .exit
      else .torn) := by
  obtain ⟨hi, hacc, hseen⟩ := hp
  split
  · exact hi
  · split
    · rename_i hall
      have h0 := List.all_eq_true.mp hall 0 (List.mem_range.mpr (by decide))
      exact ⟨hi, hacc, hseen 0 (by simpa using h0)⟩
    · rename_i hfalse _
      obtain ⟨i, hi', hne⟩ := List.all_eq_false.mp (Bool.not_eq_true _ ▸ hfalse)
      obtain ⟨b, hb⟩ := Option.isSome_iff_exists.mp (List.all_eq_true.mp hsome i hi')
      refine ⟨hi, hacc, hseen i ?_⟩
      cases b <;> simp_all

theorem scanStart_bounds (h : Inv r s) (hb : Batch r s) (why : ScanFor) :
    s.retired ≤ scanStart s why ∧ scanStart s why ≤ s.claimed ∧
      scanStart s why + scanMax r s.sched why ≤ s.retired + r.batchRoom := by
  have hlog := hb.log
  have hroom := hb.room
  have hle := drained_le_claimed h
  cases why <;> simp only [scanStart, scanMax] <;> omega

theorem scanTail_step (h : Inv r s) {why : ScanFor} (hp : PhaseOk r s (.scanTail why)) :
    PhaseOk r s (.scan why (min (s.prodTail - s.sched.scanSlot why 0).toNat
      (scanMax r s.sched why)) 0) := by
  obtain ⟨⟨hb, hs⟩, ho⟩ := hp
  obtain ⟨hlo, hc, -⟩ := scanStart_bounds h hb why
  rw [scanSlot_eq hb, Nat.add_zero, pending_eq h.toCallInv h.few hlo hc]
  exact ⟨⟨hb, hs⟩, ho, Nat.zero_le _, by omega, by omega, fun j hj => absurd hj (Nat.not_lt_zero j)⟩

theorem scan_step (h : Inv r s) {why : ScanFor} {pending i : Nat}
    (hp : PhaseOk r s (.scan why pending i)) (hi : i < pending)
    (hseq : s.prodSeq (r.index (s.sched.scanSlot why i)) = s.sched.scanSlot why i + 1#32) :
    PhaseOk r s (.scan why pending (i+1)) := by
  obtain ⟨⟨hb, hs⟩, ho, hip, hm, hc, hpub⟩ := hp
  obtain ⟨hlo, -, hr⟩ := scanStart_bounds h hb why
  rw [scanSlot_eq hb] at hseq
  have hnew := published_of_seq h.toCallInv (by omega) (by omega) hseq
  refine ⟨⟨hb, hs⟩, ho, hi, hm, hc, fun j hj => ?_⟩
  rcases Nat.lt_succ_iff_lt_or_eq.mp hj with hlt | rfl
  · exact hpub j hlt
  · exact hnew

theorem scan_done (h : Inv r s) {why : ScanFor} {pending i : Nat}
    (hp : PhaseOk r s (.scan why pending i)) :
    Inv r { s with sched := afterScan s.sched i why } := by
  obtain ⟨hi, ho, -⟩ := hp
  cases why with
  | exit =>
    by_cases h0 : i = 0
    · simp only [afterScan, h0, if_true]
      exact goto h ⟨hi, ho⟩
    · simp only [afterScan, h0, if_false]
      exact goto h hi
  | more ns =>
    by_cases h0 : i = 0
    · simp only [afterScan, h0, if_true]
      exact goto h ⟨hi, ho.1, ho.2.1⟩
    · simp only [afterScan, h0, if_false]
      exact goto h hi

theorem submit_step (h : Inv r s) (hp : PhaseOk r s .submit) :
    Inv r { s.setPhase (.notify (fun _ => false) fun _ => false) with
      submitted := s.drained.length } := by
  obtain ⟨⟨hb, hs⟩, hacc⟩ := hp
  have hnone : ∀ g, s.retired ≤ g → s.seqStored g = false := by
    intro g hg
    by_contra hne
    have := h.stored_lt g (by simpa using hne)
    omega
  refine ⟨⟨h.tail_eq, h.head_eq, h.slot_eq, h.keyed, h.retired_published, h.window, h.written,
    h.stamped⟩, h.few, h.log_eq, h.drained_published, h.notified, ?_, h.flag_seq, le_refl _,
    h.doneStamped, ⟨hb.base_eq, hb.room, hb.log, hb.got⟩, hacc, rfl, ?_⟩
  · intro g hg
    exact (h.stored_lt g hg).trans_le h.submitted_le
  · intro j _
    have hq := hnone (s.retired+j) (by omega)
    refine ⟨hq, ?_⟩
    by_contra hne
    have := h.flag_seq (s.retired+j) (by simpa [State.setPhase] using hne)
    rw [hq] at this
    cases this

theorem not_skipped (h : CallInv r s) (hb : Batch r s) {j : Nat} (hj : j < s.sched.acc) :
    padKey r.kernel (s.sched.buf j).byteOffset j = false := by
  obtain ⟨hp, hbuf⟩ := hb.got j hj
  rw [hbuf]
  exact h.keyed _ hp.1 j

theorem notify_seq (h : Inv r s) {seqDone flagDone : Nat → Bool}
    (hp : PhaseOk r s (.notify seqDone flagDone)) (hpick : pick < s.sched.acc) :
    Inv r { s.setPhase (.notify (update seqDone pick true) flagDone) with
      doneSeq := update s.doneSeq (r.index (s.sched.base + BitVec.ofNat 32 pick))
        (s.sched.base + BitVec.ofNat 32 pick + 1#32)
      seqStored := update s.seqStored (s.retired+pick) true } := by
  obtain ⟨hb, hacc, hsub, hd⟩ := hp
  have hlog := hb.log
  have hstored : ∀ g, update s.seqStored (s.retired+pick) true g = true ↔
      g = s.retired + pick ∨ s.seqStored g = true := by
    intro g
    by_cases he : g = s.retired + pick
    · simp [he]
    · simp [he]
  refine ⟨⟨h.tail_eq, h.head_eq, h.slot_eq, h.keyed, h.retired_published, h.window, h.written,
    h.stamped⟩, h.few, h.log_eq, h.drained_published, ?_, ?_, ?_, h.submitted_le, ?_,
    ⟨hb.base_eq, hb.room, hb.log, hb.got⟩, hacc, hsub, ?_⟩
  · intro g hg
    exact ⟨(hstored g).mpr (.inr (h.notified g hg).1), (h.notified g hg).2⟩
  · intro g hg
    rcases (hstored g).mp hg with rfl | hold
    · simp only [State.setPhase]
      omega
    · exact h.stored_lt g hold
  · intro g hg
    exact (hstored g).mpr (.inr (h.flag_seq g hg))
  · rw [hb.base_eq, ← BitVec.ofNat_add, index_ofNat, ← Counter.ofNat_succ]
    refine Counter.Latest.store (capacityLog_lt r) h.doneStamped ?_ hstored
    intro g hg hr
    by_contra hlt
    have hlap := Counter.lap_le hr.symm (Nat.lt_of_not_le hlt)
    have hlt' := h.stored_lt g hg
    have := h.lt_of_published (h.drained_published g (by omega))
    unfold Ring.capacity at this
    omega
  · intro j hj
    by_cases he : j = pick
    · subst he
      exact ⟨by simp [State.setPhase], (hd j hj).2⟩
    · have hne : s.retired + j ≠ s.retired + pick := by omega
      simpa [State.setPhase, he, hne] using hd j hj

theorem notify_flag (h : Inv r s) {seqDone flagDone : Nat → Bool}
    (hp : PhaseOk r s (.notify seqDone flagDone)) (hpick : pick < s.sched.acc)
    (hseq : seqDone pick = true) {flags : BitVec 32 → BitVec 32} :
    Inv r { s.setPhase (.notify seqDone (update flagDone pick true)) with
      doneFlags := flags
      flagStored := update s.flagStored (s.retired+pick) true } := by
  obtain ⟨hb, hacc, hsub, hd⟩ := hp
  refine ⟨⟨h.tail_eq, h.head_eq, h.slot_eq, h.keyed, h.retired_published, h.window, h.written,
    h.stamped⟩, h.few, h.log_eq, h.drained_published, ?_, h.stored_lt, ?_, h.submitted_le,
    h.doneStamped, ⟨hb.base_eq, hb.room, hb.log, hb.got⟩, hacc, hsub, ?_⟩
  · intro g hg
    have hne : g ≠ s.retired + pick := by
      have : g < s.retired := hg
      omega
    simpa [State.setPhase, hne] using h.notified g hg
  · intro g hg
    by_cases he : g = s.retired + pick
    · subst he
      exact (hd pick hpick).1.trans hseq
    · exact h.flag_seq g (by simpa [he] using hg)
  · intro j hj
    by_cases he : j = pick
    · subst he
      exact ⟨(hd j hj).1, by simp [State.setPhase]⟩
    · have hne : s.retired + j ≠ s.retired + pick := by omega
      simpa [State.setPhase, he, hne] using hd j hj

theorem notify_done (h : Inv r s) {seqDone flagDone : Nat → Bool}
    (hp : PhaseOk r s (.notify seqDone flagDone))
    (hall : (List.range s.sched.acc).all (fun i =>
      flagDone i || padKey r.kernel (s.sched.buf i).byteOffset i) = true) :
    PhaseOk r s .advance := by
  obtain ⟨hb, hacc, hsub, hd⟩ := hp
  refine ⟨hb, hacc, hsub, fun j hj => ?_⟩
  have hj' := List.all_eq_true.mp hall j (List.mem_range.mpr hj)
  rw [not_skipped h.toCallInv hb hj, Bool.or_false] at hj'
  exact (hd j hj).2.trans hj'

theorem advance_step (h : Inv r s) (hp : PhaseOk r s .advance) :
    Inv r { s.setPhase .top with
      consHead := s.consHead + BitVec.ofNat 32 s.sched.acc
      retired := s.retired + s.sched.acc } := by
  obtain ⟨hb, hacc, hsub, hd⟩ := hp
  have hlog := hb.log
  have hhead : s.consHead + BitVec.ofNat 32 s.sched.acc =
      BitVec.ofNat 32 (s.retired + s.sched.acc) := by
    rw [h.head_eq, ← BitVec.ofNat_add]
  refine ⟨⟨h.tail_eq, hhead, h.slot_eq, h.keyed, ?_, ?_, ?_, h.stamped⟩, h.few, h.log_eq,
    h.drained_published, ?_, h.stored_lt, h.flag_seq, h.submitted_le, h.doneStamped, ?_⟩
  · intro g hg
    exact h.drained_published g (hlog ▸ hg)
  · intro g hg hf
    have hw := h.window g hg hf
    simp only
    omega
  · intro g hg hlo
    exact h.written g hg (Nat.le_of_add_right_le hlo)
  · intro g hg
    rcases Nat.lt_or_ge g s.retired with hlt | hge
    · exact h.notified g hlt
    · obtain ⟨j, rfl⟩ := Nat.exists_eq_add_of_le hge
      have hj : j < s.sched.acc := by
        have : s.retired + j < s.retired + s.sched.acc := hg
        omega
      exact ⟨h.flag_seq _ (hd j hj), hd j hj⟩
  · exact ⟨hlog, hsub.trans hlog⟩

theorem sched_step (h : Inv r s) (hs : schedStep r s pick = some t) : Inv r t := by
  have hp := h.phase_ok
  simp only [schedStep] at hs
  split at hs <;> rename_i hphase <;> rw [hphase] at hp
  case h_1 =>
    cases hs
    exact top_step h hp
  case h_2 =>
    cases hs
    exact goto h (tail_step h hp)
  case h_3 =>
    split at hs
    · cases hs
      exact goto h (probe_done hp rfl)
    · split at hs <;> cases hs
      exact goto h (probe_store h hp)
  case h_4 =>
    split at hs
    · rename_i hall
      cases hs
      exact fetch_done h hp hall
    · split at hs <;> cases hs
      rename_i hpick
      exact fetch_load h hp hpick.1
  case h_5 =>
    cases hs
    exact goto h (branch_step hp)
  case h_6 =>
    split at hs
    · rename_i hall
      cases hs
      exact goto h (flag_done hp hall)
    · split at hs <;> cases hs
      exact goto h (flag_load hp)
  case h_7 =>
    cases hs
    exact goto h (scanTail_step h hp)
  case h_8 =>
    split at hs <;> cases hs
    · rename_i hi
      exact goto h (scan_step h hp hi.1 hi.2)
    · exact scan_done h hp
  case h_9 =>
    split at hs <;> cases hs
    · rename_i hns
      exact goto h ⟨hp.1, hp.2.1, hp.2.2, hns⟩
    · exact goto h ⟨hp.1, hp.2.1⟩
  case h_10 =>
    cases hs
    exact submit_step h hp
  case h_11 =>
    split at hs
    · rename_i hall
      cases hs
      exact goto h (notify_done h hp hall)
    · split at hs
      · rename_i hpick
        cases hs
        exact notify_seq h hp hpick.1
      · rename_i hseq
        split at hs <;> cases hs
        rename_i hpick
        refine notify_flag h hp hpick.1 ?_
        by_contra hne
        exact hseq ⟨hpick.1, hpick.2.1, by simpa using hne⟩
  case h_12 =>
    cases hs
    exact advance_step h hp
  case h_13 => cases hs
  case h_14 =>
    cases hs
    exact goto h hp

/-- What a step of the block does to the completion arrays: nothing, or one of the
two stores of the notify phase for a slot of the batch. -/
theorem sched_stores (h : Inv r s) (hs : schedStep r s pick = some t) :
    (t.doneSeq = s.doneSeq ∧ t.seqStored = s.seqStored ∧ t.doneFlags = s.doneFlags ∧
      t.flagStored = s.flagStored) ∨
    ∃ g, s.retired ≤ g ∧ g < s.drained.length ∧
      (t.doneSeq = update s.doneSeq (cell r g) (BitVec.ofNat 32 (g+1)) ∧
        t.seqStored = update s.seqStored g true ∧ t.doneFlags = s.doneFlags ∧
        t.flagStored = s.flagStored ∨
      t.doneSeq = s.doneSeq ∧ t.seqStored = s.seqStored ∧
        t.doneFlags = update s.doneFlags (cell r g) 1#32 ∧
        t.flagStored = update s.flagStored g true) := by
  have hp := h.phase_ok
  simp only [schedStep] at hs
  split at hs
  case h_11 hphase =>
    rw [hphase] at hp
    obtain ⟨hb, -⟩ := hp
    have hlog := hb.log
    simp only [hb.base_eq, ← BitVec.ofNat_add, index_ofNat] at hs
    split at hs
    · cases hs
      exact .inl ⟨rfl, rfl, rfl, rfl⟩
    · split at hs
      · rename_i hpick
        cases hs
        exact .inr ⟨_, Nat.le_add_right _ _, by omega, .inl ⟨rfl, rfl, rfl, rfl⟩⟩
      · split at hs <;> cases hs
        rename_i hpick
        exact .inr ⟨_, Nat.le_add_right _ _, by omega, .inr ⟨rfl, rfl, rfl, rfl⟩⟩
  all_goals
    (repeat' split at hs) <;> cases hs <;> exact .inl ⟨rfl, rfl, rfl, rfl⟩

theorem init_inv (r : Ring) : Inv r init := by
  refine ⟨⟨rfl, rfl, ?_, ?_, ?_, ?_, ?_, ?_⟩, by decide, rfl, ?_, ?_, ?_, ?_, le_refl _, ?_,
    rfl, rfl⟩
  · exact fun g hg => absurd hg (Nat.not_lt_zero g)
  · exact fun g hg => absurd hg (Nat.not_lt_zero g)
  · exact fun g hg => absurd hg (Nat.not_lt_zero g)
  · exact fun g hg => absurd hg (Nat.not_lt_zero g)
  · exact fun g hg => absurd hg (Nat.not_lt_zero g)
  · exact Counter.Latest.init.congr fun g => ⟨False.elim, fun h => absurd h.1 (Nat.not_lt_zero g)⟩
  · exact fun g hg => absurd hg (Nat.not_lt_zero g)
  · exact fun g hg => absurd hg (Nat.not_lt_zero g)
  · exact fun g hg => by cases hg
  · exact fun g hg => by cases hg
  · exact Counter.Latest.init.congr fun g => ⟨False.elim, fun h => by cases h⟩

theorem step_inv {a : Act} (h : Inv r s) (hk : keyedStep r s a) (hs : step r s a = some t)
    (hf : unfinished t < 2^31) : Inv r t := by
  cases a with
  | claim api byteOffset nBytes pcEntry opcode =>
    cases hs
    exact h.frame .claim (h.toCallInv.claim hk) hf h.phase_ok
  | call g =>
    simp only [step] at hs
    split at hs
    · rename_i hg
      exact h.frame (.callStep hs) (h.toCallInv.callStep h.few hg hs) hf
        (callStep_sched hs ▸ h.phase_ok)
    · cases hs
  | shutdown =>
    cases hs
    exact h.frame ⟨rfl, rfl, rfl, rfl, rfl, rfl, rfl, rfl, rfl, le_refl _, fun _ => by simp,
      fun _ hg => ⟨hg, rfl⟩⟩ ⟨h.tail_eq, h.head_eq, h.slot_eq, h.keyed, h.retired_published,
      h.window, h.written, h.stamped⟩ hf h.phase_ok
  | sched pick => exact sched_step h hs

theorem inv_of_run {ok : State → Act → Prop} (hok : ∀ s a, ok s a → keyedStep r s a)
    (h : Inv r s) (hr : Run r ok s t) : Inv r t := by
  induction hr with
  | refl => exact h
  | step _ ha hs hf ih => exact step_inv ih (hok _ _ ha) hs hf

/-- Induction over a run of which the ring invariant is known. -/
theorem run_induction {ok : State → Act → Prop} {Q : State → Prop}
    (hok : ∀ s a, ok s a → keyedStep r s a) (h0 : Q init)
    (hstep : ∀ s a t, Inv r s → ok s a → step r s a = some t → Q s → Q t)
    (hr : Run r ok init s) : Q s := by
  induction hr with
  | refl => exact h0
  | step hr ha hs _ ih => exact hstep _ _ _ (inv_of_run hok (init_inv r) hr) ha hs ih

theorem inv_of_reach (hr : Reach r s) : Inv r s := inv_of_run (fun _ _ => id) (init_inv r) hr

end Shaper.RingSchedule
