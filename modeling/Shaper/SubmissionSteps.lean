import Mathlib.Data.List.Basic
import Shaper.SubmissionInvariant

/-! The memory the device reads and the head it reports, and the whole invariant of the
submission queue carried over every step. -/
namespace Shaper.SubmissionQueue
open Function Lib

def Written (c : Call) (e : Cmd) : Prop :=
  match c.pc.stage with
  | .waiting | .copyLo => True
  | .copyHi => e.lo = c.cmd.lo
  | _ => e = c.cmd

theorem written_of_marked {c : Call} {e : Cmd} (h : c.pc.marked = true) :
    Written c e ↔ e = c.cmd := by
  unfold Written
  unfold CallPc.marked at h
  cases hst : c.pc.stage <;> first | exact Iff.rfl | (rw [hst] at h; cases h)

theorem written_of_waiting {c : Call} {e : Cmd} (h : ¬ c.pc.admitted = true) : Written c e := by
  unfold Written
  unfold CallPc.admitted at h
  cases hst : c.pc.stage <;> first | trivial | exact absurd (by rw [hst]; rfl) h

theorem Written.of_stage {c : Call} {e : Cmd} {pc : CallPc} (h : Written c e)
    (hst : pc.stage = c.pc.stage) : Written { c with pc := pc } e := by
  unfold Written at h ⊢
  simp only [hst]
  exact h

theorem Written.marked {c : Call} {e : Cmd} {pc : CallPc} (h : Written c e)
    (hc : c.pc = .mark ∨ c.pc.marked = true) (hp : pc.marked = true) :
    Written { c with pc := pc } e := by
  refine (written_of_marked hp).mpr ?_
  rcases hc with hc | hc
  · unfold Written at h
    rw [hc] at h
    exact h
  · exact (written_of_marked hc).mp h

structure Memory (q : Queue) (claimed rung : Nat) (cells : BitVec 32 → Cmd) (calls : Nat → Call)
    (taken : List Cmd) (advances : List (List (BitVec 32))) : Prop where
  written : ∀ g < claimed, taken.length ≤ g → Written (calls g) (cells (cell q g))
  taken_eq : taken = (List.range taken.length).map fun g => (calls g).cmd
  advances_eq : advances.flatten = (List.range rung).map (cell q)

namespace Memory
variable {q : Queue} {claimed rung : Nat} {cells : BitVec 32 → Cmd} {calls : Nat → Call}
  {taken : List Cmd} {advances : List (List (BitVec 32))} {g : Nat} {pc : CallPc}

theorem taken_repc (h : Memory q claimed rung cells calls taken advances) :
    taken = (List.range taken.length).map fun g' => (repc calls g pc g').cmd := by
  have hcmd (g' : Nat) : (SubmissionQueue.repc calls g pc g').cmd = (calls g').cmd := by
    rw [repc_apply]
  simp only [hcmd]
  exact h.taken_eq

theorem repc (h : Memory q claimed rung cells calls taken advances)
    (hw : ∀ e, Written (calls g) e → Written { calls g with pc := pc } e) :
    Memory q claimed rung cells (SubmissionQueue.repc calls g pc) taken advances where
  written g' hg' hle := by
    rw [repc_apply]
    by_cases he : g' = g
    · subst he
      simp only [if_true]
      exact hw _ (h.written g' hg' hle)
    · simp only [if_neg he]
      exact h.written g' hg' hle
  taken_eq := h.taken_repc
  advances_eq := h.advances_eq

theorem claim (h : Memory q claimed rung cells calls taken advances) (cmd : Cmd) (t : BitVec 32)
    (hlen : taken.length ≤ claimed) :
    Memory q (claimed+1) rung cells (update calls claimed ⟨cmd, t, .spin⟩) taken advances where
  written g hg hle := by
    by_cases he : g = claimed
    · rw [he, update_self]
      trivial
    · rw [update_of_ne he]
      exact h.written g (by omega) hle
  taken_eq := by
    rw [h.taken_eq]
    refine List.ext_getElem (by simp) fun i hi _ => ?_
    simp only [List.length_map, List.length_range] at hi
    simp only [List.getElem_map, List.getElem_range, List.length_map, List.length_range]
    rw [update_of_ne (by omega)]
  advances_eq := h.advances_eq

/-- A call writes its entry. The other calls of the cell wait or are long fetched. -/
theorem copy {moved : Nat} {inTicket : BitVec 32} {tickets : BitVec 32 → BitVec 32}
    {leaves moves : BitVec 32 → Nat} {e : Cmd}
    (h : Memory q claimed rung cells calls taken advances)
    (ht : Tickets q claimed moved inTicket tickets leaves moves calls)
    (hmoved : moved ≤ taken.length) (hg : g < claimed) (ha : (calls g).pc.admitted = true)
    (hl : (calls g).pc ≠ .left) (hw : Written { calls g with pc := pc } e) :
    Memory q claimed rung (update cells (cell q g) e) (SubmissionQueue.repc calls g pc) taken
      advances where
  written g' hg' hle := by
    rw [repc_apply]
    by_cases he : g' = g
    · subst he
      rw [update_self]
      simpa only [if_true] using hw
    · simp only [if_neg he]
      by_cases hc : cell q g' = cell q g
      · refine written_of_waiting fun ha' => ?_
        by_cases hl' : (calls g').pc = .left
        · have hlap := (ht.left_iff g').mpr ⟨hg', hl'⟩
          rw [hc, (ht.turn g hg ha hl).1, lap_lt_iff hc] at hlap
          have := (ht.earlier hg ha hl hlap hc).1
          omega
        · exact he (ht.alone hg' ha' hl' hg ha hl hc)
      · rw [update_of_ne hc]
        exact h.written g' hg' hle
  taken_eq := h.taken_repc
  advances_eq := h.advances_eq

theorem fetch (h : Memory q claimed rung cells calls taken advances) (hlt : taken.length < claimed)
    (hm : (calls taken.length).pc.marked = true) :
    Memory q claimed rung cells calls (taken ++ [cells (cell q taken.length)]) advances where
  written g hg hle := by
    rw [List.length_append] at hle
    exact h.written g hg (by omega)
  taken_eq := by
    have hcmd := (written_of_marked hm).mp (h.written _ hlt (Nat.le_refl _))
    rw [List.length_append, List.length_singleton, List.range_succ, List.map_append, hcmd]
    congr 1
    exact h.taken_eq
  advances_eq := h.advances_eq

/-- The doorbell goes from one count to another less than a lap ahead. -/
theorem opens_eq {old new : Nat} (hle : old ≤ new) (hlt : new < old + q.qs) :
    opens q (cell q old) (cell q new) =
      (List.range (new - old)).map fun i => cell q (old + i) := by
  have hlen : (q.loc (cell q new - cell q old)).toNat = new - old := by
    have ha := (Nat.mod_lt old (qs_pos q)).trans_le (qs_le q)
    rw [BitVec.sub_def, loc_ofNat, cell_toNat, cell_toNat, cell_toNat]
    have hcong : (2^32 - old % q.qs + new % q.qs) % q.qs = (new - old) % q.qs := by
      refine Nat.ModEq.add_right_cancel' (old % q.qs) ?_
      calc 2^32 - old % q.qs + new % q.qs + old % q.qs
          = 2^32 + new % q.qs := by omega
        _ ≡ 0 + new [MOD q.qs] := ((Nat.modEq_zero_iff_dvd.mpr (qs_dvd q)).add (Nat.mod_modEq _ _))
        _ = new - old + old := by omega
        _ ≡ new - old + old % q.qs [MOD q.qs] := (Nat.mod_modEq _ _).symm.add_left _
    rw [hcong, Nat.mod_eq_of_lt (by omega)]
  unfold opens
  rw [hlen]
  simp only [loc_cell_add]

theorem ring {swept : Nat} (h : Memory q claimed rung cells calls taken advances)
    (hle : rung ≤ swept) (hlt : swept < rung + q.qs) :
    Memory q claimed swept cells calls taken
      (advances ++ [opens q (cell q rung) (cell q swept)]) where
  written := h.written
  taken_eq := h.taken_eq
  advances_eq := by
    obtain ⟨n, rfl⟩ := Nat.exists_eq_add_of_le hle
    rw [List.flatten_append, h.advances_eq, opens_eq hle hlt, List.range_add, List.map_append,
      Nat.add_sub_cancel_left]
    simp [Function.comp_def]

end Memory

structure Reports (q : Queue) (fetched moved retired passed : Nat) (head : BitVec 32)
    (cpls : List Cpl) (mover : Mover) : Prop where
  posted : ∀ c ∈ cpls, c.sqhd = BitVec.ofNat 16 (c.fetched % q.qs) ∧ c.fetched ≤ fetched
  ordered : cpls.Pairwise (·.fetched ≤ ·.fetched)
  behind : ∀ c ∈ cpls.drop passed, moved ≤ c.fetched
  mover_ok : match mover with
    | .idle => moved = retired
    | .load c => moved = retired ∧ c ∈ cpls ∧ moved ≤ c.fetched ∧
      ∀ c' ∈ cpls.drop passed, c.fetched ≤ c'.fetched
    | .bump c loc count => loc = cell q moved ∧ head + count = BitVec.ofNat 32 moved ∧ c ∈ cpls ∧
      moved ≤ c.fetched ∧ ∀ c' ∈ cpls.drop passed, c.fetched ≤ c'.fetched

namespace Reports
variable {q : Queue} {fetched moved retired passed : Nat} {head : BitVec 32} {cpls : List Cpl}
  {mover : Mover} {c : Cpl} {loc count : BitVec 32}

theorem fetch (h : Reports q fetched moved retired passed head cpls mover) :
    Reports q (fetched+1) moved retired passed head cpls mover where
  posted c hc := by
    obtain ⟨h₁, h₂⟩ := h.posted c hc
    exact ⟨h₁, by omega⟩
  ordered := h.ordered
  behind := h.behind
  mover_ok := h.mover_ok

theorem mem_drop_append {l : List Cpl} {k : Nat} {x y : Cpl} (h : x ∈ (l ++ [y]).drop k) :
    x ∈ l.drop k ∨ x = y := by
  rw [List.drop_append] at h
  rcases List.mem_append.mp h with h | h
  · exact .inl h
  · exact .inr (List.mem_singleton.mp (List.mem_of_mem_drop h))

theorem post (h : Reports q fetched moved retired passed head cpls mover)
    (hmoved : moved ≤ fetched) :
    Reports q fetched moved retired passed head (cpls ++ [report q fetched]) mover := by
  have hnew {m : Nat} (hle : m ≤ fetched) (hall : ∀ c' ∈ cpls.drop passed, m ≤ c'.fetched)
      (c' : Cpl) (hc' : c' ∈ (cpls ++ [report q fetched]).drop passed) :
      m ≤ c'.fetched := by
    rcases mem_drop_append hc' with hc' | rfl
    · exact hall c' hc'
    · exact hle
  constructor
  case posted =>
    intro c hc
    rcases List.mem_append.mp hc with hc | hc
    · exact h.posted c hc
    · rw [List.mem_singleton.mp hc]
      exact ⟨rfl, Nat.le_refl _⟩
  case ordered =>
    refine List.pairwise_append.mpr ⟨h.ordered, List.pairwise_singleton _ _, ?_⟩
    intro c hc c' hc'
    rw [List.mem_singleton.mp hc']
    exact (h.posted c hc).2
  case behind => exact hnew hmoved h.behind
  case mover_ok =>
    have hm := h.mover_ok
    cases mover with
    | idle => exact hm
    | load c =>
      obtain ⟨h₁, h₂, h₃, h₄⟩ := hm
      exact ⟨h₁, List.mem_append_left _ h₂, h₃, hnew (h.posted c h₂).2 h₄⟩
    | bump c loc count =>
      obtain ⟨h₁, h₂, h₃, h₄, h₅⟩ := hm
      exact ⟨h₁, h₂, List.mem_append_left _ h₃, h₄, hnew (h.posted c h₃).2 h₅⟩

theorem pass {n : Nat} (h : Reports q fetched moved retired passed head cpls .idle)
    (hc : cpls[passed+n]? = some c) :
    Reports q fetched moved retired (passed+n+1) head cpls (.load c) := by
  obtain ⟨hlt, rfl⟩ := List.getElem?_eq_some_iff.mp hc
  have hmem : cpls[passed+n] ∈ cpls.drop passed :=
    List.mem_drop_iff_getElem.mpr ⟨n, by omega, rfl⟩
  have hlater : ∀ c' ∈ cpls.drop (passed+n+1), cpls[passed+n].fetched ≤ c'.fetched := by
    intro c' hc'
    obtain ⟨i, hi, rfl⟩ := List.mem_drop_iff_getElem.mp hc'
    exact List.pairwise_iff_getElem.mp h.ordered _ _ hlt (by omega) (by omega)
  exact {
    posted := h.posted
    ordered := h.ordered
    behind := fun c' hc' => (h.behind _ hmem).trans (hlater c' hc')
    mover_ok := ⟨h.mover_ok, List.getElem_mem hlt, h.behind _ hmem, hlater⟩ }

theorem load (h : Reports q fetched moved retired passed head cpls (.load c))
    (hhead : head = BitVec.ofNat 32 retired) :
    Reports q fetched moved retired passed head cpls (.bump c (q.loc head) 0#32) := by
  obtain ⟨h₁, h₂, h₃, h₄⟩ := h.mover_ok
  refine ⟨h.posted, h.ordered, h.behind, ?_, ?_, h₂, h₃, h₄⟩
  · rw [hhead, loc_ofNat, h₁]
  · rw [hhead, h₁, BitVec.add_zero]

/-- The loop stops at the reported head and not before: the two are less than a lap
apart. -/
theorem stop_iff (h : Reports q fetched moved retired passed head cpls (.bump c loc count))
    (hwin : fetched < moved + q.qs) : loc = c.sqhd.setWidth 32 ↔ moved = c.fetched := by
  obtain ⟨h₁, -, h₃, h₄, -⟩ := h.mover_ok
  obtain ⟨hsq, hle⟩ := h.posted c h₃
  have hlt := Nat.mod_lt c.fetched (qs_pos q)
  have hbound := hlt.trans_le (qs_le q)
  have hset : c.sqhd.setWidth 32 = cell q c.fetched := by
    apply BitVec.eq_of_toNat_eq
    rw [hsq, cell_toNat, BitVec.toNat_setWidth, BitVec.toNat_ofNat]
    omega
  rw [h₁, hset, cell_eq_iff]
  constructor
  · intro hm
    rcases Nat.lt_or_eq_of_le h₄ with hlt' | heq
    · have := Counter.lap_le hm hlt'
      omega
    · exact heq
  · intro he
    rw [he]

theorem bump (h : Reports q fetched moved retired passed head cpls (.bump c loc count))
    (hne : moved ≠ c.fetched) :
    Reports q fetched (moved+1) retired passed head cpls
      (.bump c (q.loc (loc + 1#32)) (count + 1#32)) := by
  obtain ⟨h₁, h₂, h₃, h₄, h₅⟩ := h.mover_ok
  have hlt : moved + 1 ≤ c.fetched := by omega
  refine ⟨h.posted, h.ordered, fun c' hc' => hlt.trans (h₅ c' hc'), ?_, ?_, h₃, hlt, h₅⟩
  · rw [h₁]
    exact loc_cell_add q moved 1
  · rw [← BitVec.add_assoc, h₂]
    exact (Counter.ofNat_succ moved).symm

theorem finish (h : Reports q fetched moved retired passed head cpls (.bump c loc count)) :
    Reports q fetched moved moved passed (head + count) cpls .idle :=
  ⟨h.posted, h.ordered, h.behind, rfl⟩

end Reports

structure Inv (q : Queue) (s : State) : Prop where
  tickets : Tickets q s.claimed s.moved s.inTicket s.tickets s.leaves s.moves s.calls
  marks : Marks q s.claimed s.swept s.tailMark s.calls
  chain : Chain q s.retired s.moved s.taken.length s.rung s.tailed s.swept s.head s.tail s.db
  tailSection : TailSection q s.claimed s.retired s.rung s.tailed s.swept s.tailLock s.calls
  memory : Memory q s.claimed s.rung s.cells s.calls s.taken s.advances
  reports : Reports q s.taken.length s.moved s.retired s.passed s.head s.cpls s.mover

theorem inv_init (q : Queue) : Inv q init where
  tickets :=
    { inTicket_eq := rfl
      ticket_eq := fun _ hg => absurd hg (Nat.not_lt_zero _)
      count_eq := fun _ => rfl
      left_iff := fun g => by simp [init]
      moved_iff := fun g => by simp [init]
      turn := fun _ hg => absurd hg (Nat.not_lt_zero _) }
  marks :=
    { marked_of_swept := fun _ hg => absurd hg (Nat.not_lt_zero _)
      swept_of_cleared := fun _ hg => absurd hg (Nat.not_lt_zero _)
      mark_of := fun _ hg => absurd hg (Nat.not_lt_zero _)
      of_mark := fun _ ha => by cases ha }
  chain :=
    { head_eq := rfl
      tail_eq := rfl
      db_eq := by
        rw [← loc_ofNat]
        simp [init, Queue.loc]
      retired_le := Nat.le_refl _
      moved_le := Nat.le_refl _
      fetched_le := Nat.le_refl _
      tailed_le := Nat.le_refl _
      rung_le := Nat.le_refl _
      window := by
        have := qs_pos q
        simpa [init] using this }
  tailSection :=
    { lock :=
        { held_of_owns := fun _ _ h => absurd h.1 (Nat.not_lt_zero _)
          owner := fun _ h => by cases h
          unique := fun _ _ _ h => absurd h.1 (Nat.not_lt_zero _) }
      ok := fun _ hg => absurd hg (Nat.not_lt_zero _)
      free := fun _ => rfl }
  memory :=
    { written := fun _ hg => absurd hg (Nat.not_lt_zero _)
      taken_eq := rfl
      advances_eq := rfl }
  reports :=
    { posted := fun _ hc => by cases hc
      ordered := List.Pairwise.nil
      behind := fun _ hc => by cases hc
      mover_ok := rfl }

namespace Inv
variable {q : Queue} {s s' : State} {g n : Nat} {pc : CallPc} {curTail count : BitVec 32}

theorem pos_eq (h : Inv q s) (hg : g < s.claimed) : q.loc (s.calls g).ticket = cell q g := by
  rw [h.tickets.ticket_eq g hg, loc_ofNat]

theorem swept_le_of_not_marked (h : Inv q s) (hm : ¬ (s.calls g).pc.marked = true) :
    s.swept ≤ g := by
  rcases Nat.lt_or_ge g s.swept with hlt | hge
  · exact absurd (h.marks.marked_of_swept g hlt).2 hm
  · exact hge

theorem claim (h : Inv q s) (cmd : Cmd) : Inv q (claim s cmd) where
  tickets := h.tickets.claim cmd
  marks := h.marks.claim cmd _
  chain := h.chain
  tailSection := h.tailSection.claim cmd _
  memory := h.memory.claim cmd _ (h.chain.fetched_le.trans (h.chain.rung_le.trans h.marks.swept_le))
  reports := h.reports

theorem quiet (h : Inv q s) (pc : CallPc) (hg : g < s.claimed)
    (hst : pc.stage = (s.calls g).pc.stage)
    (hok : SweepOk q s.retired s.rung s.tailed s.swept pc) (x : BitVec 32) :
    Inv q { s.setPc g pc with headLock := x } where
  tickets := by
    refine h.tickets.repc (congrArg Stage.admitted hst) ?_
    rw [← CallPc.stage_eq_left, hst, CallPc.stage_eq_left]
  marks := by
    refine h.marks.repc (congrArg Stage.marked hst) fun hc => h.marks.swept_of_cleared g hg ?_
    exact (congrArg Stage.cleared hst).symm.trans hc
  chain := h.chain
  tailSection := h.tailSection.repc (congrArg (· == Stage.sweeping) hst) hok
  memory := h.memory.repc fun _ hw => hw.of_stage hst
  reports := h.reports

theorem enter (h : Inv q s) (hpc : (s.calls g).pc = .acquire)
    (hleaves : s.leaves (cell q g) = g / q.qs) (hmoves : s.moves (cell q g) = g / q.qs) :
    Inv q (s.setPc g .copyLo) where
  tickets := h.tickets.enter hpc hleaves hmoves
  marks := h.marks.repc (by rw [hpc]; rfl) fun hc => by cases hc
  chain := h.chain
  tailSection := h.tailSection.repc (by rw [hpc]; rfl) trivial
  memory := h.memory.repc fun _ _ => trivial
  reports := h.reports

theorem copy (h : Inv q s) (hg : g < s.claimed) {e : Cmd}
    (hcopy : (s.calls g).pc = .copyLo ∧ pc = .copyHi ∨ (s.calls g).pc = .copyHi ∧ pc = .mark)
    (hw : Written { s.calls g with pc := pc } e) :
    Inv q { s.setPc g pc with cells := update s.cells (cell q g) e } := by
  obtain ⟨hpc, rfl⟩ | ⟨hpc, rfl⟩ := hcopy
  all_goals exact {
    tickets := h.tickets.repc (by rw [hpc]; rfl) (by rw [hpc]; simp)
    marks := h.marks.repc (by rw [hpc]; rfl) fun hc => by cases hc
    chain := h.chain
    tailSection := h.tailSection.repc (by rw [hpc]; rfl) trivial
    memory := h.memory.copy h.tickets h.chain.moved_le hg (by rw [hpc]; rfl) (by rw [hpc]; simp) hw
    reports := h.reports }

theorem written_hi (h : Inv q s) (hg : g < s.claimed) (hpc : (s.calls g).pc = .copyHi) :
    Written { s.calls g with pc := .mark }
      { s.cells (cell q g) with hi := (s.calls g).cmd.hi } := by
  have hle : s.swept ≤ g :=
    h.swept_le_of_not_marked (by rw [hpc]; simp [CallPc.marked, CallPc.stage, Stage.marked])
  have hw := h.memory.written g hg (h.chain.fetched_le.trans (h.chain.rung_le.trans hle))
  have hlo : (s.cells (cell q g)).lo = (s.calls g).cmd.lo := by
    unfold Written at hw
    rw [hpc] at hw
    exact hw
  change (⟨(s.cells (cell q g)).lo, (s.calls g).cmd.hi⟩ : Cmd) = (s.calls g).cmd
  rw [hlo]

theorem mark (h : Inv q s) (hg : g < s.claimed) (hpc : (s.calls g).pc = .mark) :
    Inv q { s.setPc g .look with tailMark := update s.tailMark (cell q g) true } where
  tickets := h.tickets.repc (by rw [hpc]; rfl) (by rw [hpc]; simp)
  marks := h.marks.mark hg hpc
  chain := h.chain
  tailSection := h.tailSection.repc (by rw [hpc]; rfl) trivial
  memory := h.memory.repc fun _ hw => hw.marked (by rw [hpc]; decide) rfl
  reports := h.reports

/-- The loop over the mark ends: `move_tail` has taken the call. -/
theorem clear (h : Inv q s) (hg : g < s.claimed) (hpc : (s.calls g).pc = .look)
    (hmark : ¬ s.tailMark (cell q g) = true) : Inv q (s.setPc g .leave) := by
  have hswept : g < s.swept := by
    rcases Nat.lt_or_ge g s.swept with hlt | hge
    · exact hlt
    · exact absurd (h.marks.mark_of g hg (by rw [hpc]; rfl) hge) hmark
  exact {
    tickets := h.tickets.repc (by rw [hpc]; rfl) (by rw [hpc]; simp)
    marks := h.marks.repc (by rw [hpc]; rfl) fun _ => hswept
    chain := h.chain
    tailSection := h.tailSection.repc (by rw [hpc]; rfl) trivial
    memory := h.memory.repc fun _ hw => hw.marked (by rw [hpc]; decide) rfl
    reports := h.reports }

theorem take (h : Inv q s) (hg : g < s.claimed) (hpc : (s.calls g).pc = .lockOr)
    (hfree : s.tailLock = false) : Inv q { s.setPc g .loadTail with tailLock := true } where
  tickets := h.tickets.repc (by rw [hpc]; rfl) (by rw [hpc]; simp)
  marks := h.marks.repc (by rw [hpc]; rfl) fun hc => by cases hc
  chain := h.chain
  tailSection := by
    have ht := h.tailSection
    rw [hfree] at ht
    exact ht.take hg
  memory := h.memory.repc fun _ hw => hw.marked (by rw [hpc]; decide) rfl
  reports := h.reports

/-- The holder of `tail_lock` moves the counters from one phase to the next. -/
theorem work {rung tailed swept : Nat} {tail db : BitVec 32} {tailMark : BitVec 32 → Bool}
    {advances : List (List (BitVec 32))} (h : Inv q s) (pc : CallPc) (hg : g < s.claimed)
    (hold : (s.calls g).pc.stage = .sweeping) (hst : pc.stage = .sweeping)
    (hmarks : Marks q s.claimed swept tailMark s.calls)
    (hchain : Chain q s.retired s.moved s.taken.length rung tailed swept s.head tail db)
    (hok : SweepOk q s.retired rung tailed swept pc)
    (hmemory : Memory q s.claimed rung s.cells s.calls s.taken advances) :
    Inv q { s.setPc g pc with
      rung := rung, tailed := tailed, swept := swept, tail := tail, db := db
      tailMark := tailMark, advances := advances } where
  tickets := by
    refine h.tickets.repc (congrArg Stage.admitted (hst.trans hold.symm)) ?_
    rw [← CallPc.stage_eq_left, ← CallPc.stage_eq_left, hst, hold]
  marks := hmarks.repc (congrArg Stage.marked (hst.trans hold.symm)) fun hc => by
    unfold CallPc.cleared at hc
    rw [hst] at hc
    cases hc
  chain := hchain
  tailSection := h.tailSection.work hg (by unfold CallPc.holds; rw [hold]; rfl)
    (by unfold CallPc.holds; rw [hst]; rfl) hok
  memory := hmemory.repc fun _ hw => hw.of_stage (hst.trans hold.symm)
  reports := h.reports

theorem release (h : Inv q s) (hg : g < s.claimed) (hpc : (s.calls g).pc = .unlock) :
    Inv q { s.setPc g .look with tailLock := false } where
  tickets := h.tickets.repc (by rw [hpc]; rfl) (by rw [hpc]; simp)
  marks := h.marks.repc (by rw [hpc]; rfl) fun hc => by cases hc
  chain := h.chain
  tailSection := h.tailSection.drop hg hpc
  memory := h.memory.repc fun _ hw => hw.marked (by rw [hpc]; decide) rfl
  reports := h.reports

theorem leave (h : Inv q s) (hg : g < s.claimed) (hpc : (s.calls g).pc = .leave) :
    Inv q { s.setPc g .left with
      tickets := update s.tickets (cell q g) (s.tickets (cell q g) + 1#32)
      leaves := update s.leaves (cell q g) (s.leaves (cell q g) + 1) } where
  tickets := h.tickets.leave hg hpc
  marks := h.marks.repc (by rw [hpc]; rfl) fun _ =>
    h.marks.swept_of_cleared g hg (by rw [hpc]; rfl)
  chain := h.chain
  tailSection := h.tailSection.repc (by rw [hpc]; rfl) trivial
  memory := h.memory.repc fun _ hw => hw.marked (by rw [hpc]; decide) rfl
  reports := h.reports

theorem fetch (h : Inv q s) (hstep : fetch q s = some s') : Inv q s' := by
  unfold SubmissionQueue.fetch at hstep
  split at hstep
  case isTrue => cases hstep
  case isFalse hne =>
    obtain rfl := Option.some.inj hstep
    have hloc : fetchLoc q s = cell q s.taken.length := rfl
    have hlt : s.taken.length < s.rung := by
      rcases Nat.lt_or_eq_of_le h.chain.fetched_le with hlt | heq
      · exact hlt
      · exact absurd (by rw [hloc, heq, h.chain.db_eq]) hne
    obtain ⟨hclaimed, hm⟩ := h.marks.marked_of_swept _ (hlt.trans_le h.chain.rung_le)
    have hlen : (s.taken ++ [s.cells (fetchLoc q s)]).length = s.taken.length + 1 :=
      List.length_append
    exact {
      tickets := h.tickets
      marks := h.marks
      chain := by
        rw [hlen]
        exact { h.chain with moved_le := h.chain.moved_le.trans (Nat.le_succ _), fetched_le := hlt }
      tailSection := h.tailSection
      memory := h.memory.fetch hclaimed hm
      reports := by
        rw [hlen]
        exact h.reports.fetch }

theorem post (h : Inv q s) (hstep : post q s = some s') : Inv q s' := by
  unfold SubmissionQueue.post at hstep
  split at hstep
  case isTrue =>
    obtain rfl := Option.some.inj hstep
    exact { h with reports := h.reports.post h.chain.moved_le }
  case isFalse => cases hstep

theorem pass (h : Inv q s) (hstep : pass s n = some s') : Inv q s' := by
  unfold SubmissionQueue.pass at hstep
  split at hstep
  case h_1 c hm hc =>
    obtain rfl := Option.some.inj hstep
    have hr := h.reports
    rw [hm] at hr
    exact { h with reports := hr.pass hc }
  case h_2 => cases hstep

theorem move (h : Inv q s) (hstep : moveStep q s = some s') : Inv q s' := by
  have hr := h.reports
  have hc := h.chain
  unfold moveStep at hstep
  split at hstep
  case h_1 => cases hstep
  case h_2 c hm =>
    obtain rfl := Option.some.inj hstep
    rw [hm] at hr
    exact { h with reports := hr.load hc.head_eq }
  case h_3 c loc count hm =>
    rw [hm] at hr
    have hwin : s.taken.length < s.moved + q.qs := by
      have := hc.fetched_le
      have := hc.rung_le
      have := hc.window
      have := hc.retired_le
      omega
    split at hstep
    case isTrue =>
      obtain rfl := Option.some.inj hstep
      exact {
        tickets := h.tickets
        marks := h.marks
        chain := { hc with
          head_eq := hr.mover_ok.2.1
          retired_le := Nat.le_refl _
          window := hc.window.trans_le (Nat.add_le_add_right hc.retired_le _) }
        tailSection := h.tailSection.retire hc.retired_le
        memory := h.memory
        reports := hr.finish }
    case isFalse hloc =>
      obtain rfl := Option.some.inj hstep
      have hne : s.moved ≠ c.fetched := fun he => hloc ((hr.stop_iff hwin).mpr he)
      obtain ⟨hl, -, hmem, hle, -⟩ := hr.mover_ok
      have hlt : s.moved + 1 ≤ s.taken.length := by
        have := (hr.posted c hmem).2
        omega
      exact {
        tickets := by
          rw [hl]
          exact h.tickets.bump
        marks := h.marks
        chain := { hc with retired_le := hc.retired_le.trans (Nat.le_succ _), moved_le := hlt }
        tailSection := h.tailSection
        memory := h.memory
        reports := hr.bump hne }

theorem sweep_loc (h : Inv q s) (hcur : curTail = BitVec.ofNat 32 s.tailed)
    (hcount : count = BitVec.ofNat 32 (s.swept - s.tailed)) :
    curTail + count = BitVec.ofNat 32 s.swept := by
  have := h.chain.tailed_le.trans h.chain.rung_le
  rw [hcur, hcount, ← BitVec.ofNat_add, Nat.add_sub_cancel' this]

theorem sweeping (h : Inv q s) (hg : g < s.claimed) (hst : (s.calls g).pc.stage = .sweeping)
    (hstep : callStep q s g = some s') : Inv q s' := by
  have hok := h.tailSection.ok g hg
  have hc := h.chain
  have htailed := hc.tailed_le.trans hc.rung_le
  cases hpc : (s.calls g).pc with
  | loadTail =>
    rw [hpc] at hok
    simp only [callStep, hpc, Option.some.injEq] at hstep
    subst hstep
    have hle : s.tailed = s.rung := Nat.le_antisymm hc.tailed_le (hok ▸ hc.rung_le)
    refine h.quiet (.full s.tail 0#32) hg (by rw [hpc]; rfl) ⟨hc.tail_eq, ?_, hle⟩ s.headLock
    have hzero : s.swept - s.tailed = 0 := by
      change s.tailed = s.swept at hok
      omega
    rw [hzero]
  | full curTail count =>
    rw [hpc] at hok
    obtain ⟨hcur, hcount, hle⟩ := hok
    simp only [callStep, hpc] at hstep
    split at hstep
    case isTrue =>
      obtain rfl := Option.some.inj hstep
      exact h.quiet (.fence curTail count) hg (by rw [hpc]; rfl) ⟨hcur, hcount, hle⟩ s.headLock
    case isFalse hfull =>
      obtain rfl := Option.some.inj hstep
      refine h.quiet (.sweep curTail count) hg (by rw [hpc]; rfl) ⟨⟨hcur, hcount, hle⟩, ?_⟩
        s.headLock
      -- `swept + 1` is at most a lap ahead of `head`, and the test says that it is not a full one
      rw [h.sweep_loc hcur hcount, ← Counter.ofNat_succ, hc.head_eq, loc_ofNat, loc_ofNat,
        cell_eq_iff] at hfull
      have hwin := hc.window
      rcases Nat.lt_or_eq_of_le (Nat.succ_le_of_lt hwin) with hlt | heq
      · exact hlt
      · refine absurd ?_ hfull
        rw [show s.swept + 1 = s.retired + q.qs from heq, Nat.add_mod_right]
  | sweep curTail count =>
    rw [hpc] at hok
    obtain ⟨⟨hcur, hcount, hle⟩, hroom⟩ := hok
    simp only [callStep, hpc, h.sweep_loc hcur hcount, loc_ofNat] at hstep
    split at hstep
    case isTrue hmark =>
      obtain rfl := Option.some.inj hstep
      have hnext : count + 1#32 = BitVec.ofNat 32 (s.swept + 1 - s.tailed) := by
        rw [hcount, Nat.succ_sub htailed]
        exact (Counter.ofNat_succ _).symm
      exact h.work (.full curTail (count + 1#32)) hg hst rfl (h.marks.sweep h.tickets hmark)
        { hc with rung_le := hc.rung_le.trans (Nat.le_succ _), window := hroom }
        ⟨hcur, hnext, hle⟩ h.memory
    case isFalse hmark =>
      obtain rfl := Option.some.inj hstep
      have hsame : update s.tailMark (cell q s.swept) false = s.tailMark := by
        rw [update_eq_self_iff]
        exact (Bool.eq_false_iff.mpr hmark).symm
      rw [hsame]
      exact h.quiet (.fence curTail count) hg (by rw [hpc]; rfl) ⟨hcur, hcount, hle⟩ s.headLock
  | fence curTail count =>
    rw [hpc] at hok
    obtain ⟨hcur, hcount, hle⟩ := hok
    simp only [callStep, hpc] at hstep
    split at hstep
    case isTrue hzero =>
      obtain rfl := Option.some.inj hstep
      refine h.quiet .unlock hg (by rw [hpc]; rfl) ?_ _
      have hlt : s.swept - s.tailed < 2^32 := by
        have := qs_le q
        have := hc.window
        have := hc.retired_le
        have := hc.moved_le
        have := hc.fetched_le
        omega
      have hn := congrArg BitVec.toNat (hcount.symm.trans hzero)
      rw [BitVec.toNat_ofNat, Nat.mod_eq_of_lt hlt] at hn
      change s.tailed = s.swept
      have : s.swept - s.tailed = 0 := hn
      omega
    case isFalse =>
      obtain rfl := Option.some.inj hstep
      exact h.quiet (.ring curTail count) hg (by rw [hpc]; rfl) ⟨hcur, hcount, hle⟩ _
  | ring curTail count =>
    rw [hpc] at hok
    obtain ⟨hcur, hcount, hle⟩ := hok
    simp only [callStep, hpc, h.sweep_loc hcur hcount, loc_ofNat, Option.some.injEq] at hstep
    subst hstep
    have hwin : s.swept < s.rung + q.qs := by
      have := hc.window
      have := hc.retired_le
      have := hc.moved_le
      have := hc.fetched_le
      omega
    refine h.work (.putTail curTail count) hg hst rfl h.marks { hc with
      db_eq := rfl
      fetched_le := hc.fetched_le.trans hc.rung_le
      tailed_le := htailed
      rung_le := Nat.le_refl _ } ⟨hcur, hcount, rfl⟩ ?_
    rw [hc.db_eq]
    exact h.memory.ring hc.rung_le hwin
  | putTail curTail count =>
    rw [hpc] at hok
    obtain ⟨hcur, hcount, hle⟩ := hok
    simp only [callStep, hpc, h.sweep_loc hcur hcount, Option.some.injEq] at hstep
    subst hstep
    exact h.work .unlock hg hst rfl h.marks
      { hc with tail_eq := by rw [hle], tailed_le := Nat.le_refl _ } hle h.memory
  | unlock =>
    simp only [callStep, hpc, Option.some.injEq] at hstep
    subst hstep
    exact h.release hg hpc
  | _ =>
    rw [hpc] at hst
    cases hst

/-- A call of `sq_enqueue` moves on. That the ticket word shows whose turn it is comes
from outside: it depends on how many tickets are out. -/
theorem call (h : Inv q s) (hg : g < s.claimed)
    (hturn : admits q s (s.calls g).ticket = true → (s.calls g).pc = .acquire →
      s.leaves (cell q g) = g / q.qs ∧ s.moves (cell q g) = g / q.qs)
    (hstep : callStep q s g = some s') : Inv q s' := by
  by_cases hst : (s.calls g).pc.stage = .sweeping
  · exact h.sweeping hg hst hstep
  · cases hpc : (s.calls g).pc with
    | spin =>
      simp only [callStep, hpc] at hstep
      split at hstep
      case isTrue =>
        obtain rfl := Option.some.inj hstep
        exact h.quiet .acquire hg (by rw [hpc]; rfl) trivial s.headLock
      case isFalse =>
        obtain rfl := Option.some.inj hstep
        exact h
    | acquire =>
      simp only [callStep, hpc] at hstep
      split at hstep
      case isTrue hadm =>
        obtain rfl := Option.some.inj hstep
        obtain ⟨hl, hm⟩ := hturn hadm hpc
        exact h.enter hpc hl hm
      case isFalse =>
        obtain rfl := Option.some.inj hstep
        exact h
    | copyLo =>
      simp only [callStep, hpc, h.pos_eq hg, Option.some.injEq] at hstep
      subst hstep
      exact h.copy hg (.inl ⟨hpc, rfl⟩) rfl
    | copyHi =>
      simp only [callStep, hpc, h.pos_eq hg, Option.some.injEq] at hstep
      subst hstep
      exact h.copy hg (.inr ⟨hpc, rfl⟩) (h.written_hi hg hpc)
    | mark =>
      simp only [callStep, hpc, h.pos_eq hg, Option.some.injEq] at hstep
      subst hstep
      exact h.mark hg hpc
    | look =>
      simp only [callStep, hpc, h.pos_eq hg] at hstep
      split at hstep
      case isTrue =>
        obtain rfl := Option.some.inj hstep
        exact h.quiet .lockLoad hg (by rw [hpc]; rfl) trivial s.headLock
      case isFalse hmark =>
        obtain rfl := Option.some.inj hstep
        exact h.clear hg hpc hmark
    | lockLoad =>
      simp only [callStep, hpc] at hstep
      split at hstep
      case isTrue =>
        obtain rfl := Option.some.inj hstep
        exact h.quiet .look hg (by rw [hpc]; rfl) trivial s.headLock
      case isFalse =>
        obtain rfl := Option.some.inj hstep
        exact h.quiet .lockOr hg (by rw [hpc]; rfl) trivial s.headLock
    | lockOr =>
      simp only [callStep, hpc] at hstep
      split at hstep
      case isTrue =>
        obtain rfl := Option.some.inj hstep
        exact h.quiet .look hg (by rw [hpc]; rfl) trivial s.headLock
      case isFalse hfree =>
        obtain rfl := Option.some.inj hstep
        exact h.take hg hpc (Bool.eq_false_iff.mpr hfree)
    | leave =>
      simp only [callStep, hpc, h.pos_eq hg, Option.some.injEq] at hstep
      subst hstep
      exact h.leave hg hpc
    | left =>
      simp only [callStep, hpc] at hstep
      cases hstep
    | _ =>
      rw [hpc] at hst
      exact absurd rfl hst

end Inv

end Shaper.SubmissionQueue
