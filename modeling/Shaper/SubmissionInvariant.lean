import Mathlib.Data.List.Basic
import Shaper.Lib.Ownership
import Shaper.SubmissionQueue

/-! What holds in every state of the submission queue, in five parts: the tickets, the
marks, the chain of counters, the section under `tail_lock`, and the memory the device
reads. Each part names only the fields it is about, so that a step that leaves them
alone keeps it as it is. -/
namespace Shaper.SubmissionQueue
open Function Lib Lib.Ownership

inductive Stage where
  | waiting | copyLo | copyHi | mark | looping | sweeping | leave | left
  deriving DecidableEq

namespace Stage
def admitted : Stage → Bool
  | .waiting => false
  | _ => true
def marked : Stage → Bool
  | .waiting | .copyLo | .copyHi | .mark => false
  | _ => true
def cleared : Stage → Bool
  | .leave | .left => true
  | _ => false
end Stage

namespace CallPc
def stage : CallPc → Stage
  | .spin | .acquire => .waiting
  | .copyLo => .copyLo
  | .copyHi => .copyHi
  | .mark => .mark
  | .look | .lockLoad | .lockOr => .looping
  | .loadTail | .full .. | .sweep .. | .fence .. | .ring .. | .putTail .. | .unlock => .sweeping
  | .leave => .leave
  | .left => .left

def admitted (pc : CallPc) : Bool := pc.stage.admitted
def marked (pc : CallPc) : Bool := pc.stage.marked
def cleared (pc : CallPc) : Bool := pc.stage.cleared
def holds (pc : CallPc) : Bool := pc.stage == .sweeping

theorem stage_eq_left {pc : CallPc} : pc.stage = .left ↔ pc = .left := by
  cases pc <;> simp [stage]
end CallPc

def cell (q : Queue) (g : Nat) : BitVec 32 := Counter.cell 32 q.qsLog2 g

section
variable (q : Queue)

theorem qs_pos : 0 < q.qs := Nat.two_pow_pos _

theorem two_le_qs : 2 ≤ q.qs :=
  calc 2 = 2^1 := rfl
    _ ≤ 2^q.qsLog2 := Nat.pow_le_pow_right (by omega) q.qsLog2_pos

theorem qs_le : q.qs ≤ 2^16 := Nat.pow_le_pow_right (by omega) q.qsLog2_le

theorem qsLog2_lt : q.qsLog2 < 32 := by
  have := q.qsLog2_le
  omega

theorem qs_dvd : q.qs ∣ 2^32 := Nat.pow_dvd_pow 2 (Nat.le_of_lt (qsLog2_lt q))

theorem cell_toNat (a : Nat) : (cell q a).toNat = a % q.qs := by
  have := (Nat.mod_lt a (qs_pos q)).trans_le (qs_le q)
  exact (BitVec.toNat_ofNat _ _).trans (Nat.mod_eq_of_lt (by unfold Queue.qs at this; omega))

theorem loc_ofNat (a : Nat) : q.loc (BitVec.ofNat 32 a) = cell q a :=
  Counter.and_mask (qsLog2_lt q) a

theorem cell_eq_iff (a b : Nat) : cell q a = cell q b ↔ a % q.qs = b % q.qs :=
  Counter.mask_eq_iff (qsLog2_lt q) a b

theorem loc_cell_add (a i : Nat) : q.loc (cell q a + BitVec.ofNat 32 i) = cell q (a+i) := by
  have hsum : cell q a + BitVec.ofNat 32 i = BitVec.ofNat 32 (a % q.qs + i) :=
    (BitVec.ofNat_add _ _).symm
  rw [hsum, loc_ofNat, cell_eq_iff]
  exact Nat.mod_add_mod a q.qs i
end

variable {q : Queue}

theorem eq_of_lap {a b : Nat} (hc : cell q a = cell q b) (hl : a / q.qs = b / q.qs) : a = b := by
  have hm := (cell_eq_iff q a b).mp hc
  rw [← Nat.div_add_mod a q.qs, ← Nat.div_add_mod b q.qs, hm, hl]

theorem lap_lt_iff {a b : Nat} (hc : cell q a = cell q b) : a / q.qs < b / q.qs ↔ a < b := by
  constructor
  · intro h
    exact Nat.lt_of_div_lt_div h
  · intro h
    have hle : a / q.qs ≤ b / q.qs := Nat.div_le_div_right (Nat.le_of_lt h)
    rcases Nat.lt_or_eq_of_le hle with hlt | heq
    · exact hlt
    · have := eq_of_lap hc heq
      omega

theorem cell_add_qs (a : Nat) : cell q (a + q.qs) = cell q a :=
  (cell_eq_iff q _ _).mpr (Nat.add_mod_right a q.qs)

theorem lap_add_qs (a : Nat) : (a + q.qs) / q.qs = a / q.qs + 1 :=
  Nat.add_div_right a (qs_pos q)

/-- `tickets[pos]` counts two a lap: one by the call of the lap when it leaves, one by
`move_head_cq` when the device has fetched the command. -/
structure Tickets (q : Queue) (claimed moved : Nat) (inTicket : BitVec 32)
    (tickets : BitVec 32 → BitVec 32) (leaves moves : BitVec 32 → Nat) (calls : Nat → Call) :
    Prop where
  inTicket_eq : inTicket = BitVec.ofNat 32 claimed
  ticket_eq : ∀ g < claimed, (calls g).ticket = BitVec.ofNat 32 g
  count_eq : ∀ a, tickets (cell q a) = BitVec.ofNat 32 (leaves (cell q a) + moves (cell q a))
  left_iff : ∀ g, g / q.qs < leaves (cell q g) ↔ g < claimed ∧ (calls g).pc = .left
  moved_iff : ∀ g, g / q.qs < moves (cell q g) ↔ g < moved
  turn : ∀ g < claimed, (calls g).pc.admitted = true → (calls g).pc ≠ .left →
    leaves (cell q g) = g / q.qs ∧ g / q.qs ≤ moves (cell q g)

namespace Tickets
variable {claimed moved : Nat} {inTicket : BitVec 32} {tickets : BitVec 32 → BitVec 32}
  {leaves moves : BitVec 32 → Nat} {calls : Nat → Call} {g g' : Nat} {pc : CallPc}

theorem repc (h : Tickets q claimed moved inTicket tickets leaves moves calls)
    (ha : pc.admitted = (calls g).pc.admitted) (hl : pc = .left ↔ (calls g).pc = .left) :
    Tickets q claimed moved inTicket tickets leaves moves (repc calls g pc) where
  inTicket_eq := h.inTicket_eq
  ticket_eq g' hg' := by
    rw [repc_apply]
    exact h.ticket_eq g' hg'
  count_eq := h.count_eq
  left_iff g' := by
    rw [h.left_iff, repc_apply]
    by_cases he : g' = g
    · subst he
      simp only [if_true, hl]
    · simp only [if_neg he]
  moved_iff := h.moved_iff
  turn g' hg' := by
    rw [repc_apply]
    by_cases he : g' = g
    · subst he
      simp only [if_true, ha]
      intro hadm hne
      exact h.turn g' hg' hadm fun hx => hne (hl.mpr hx)
    · simp only [if_neg he]
      exact h.turn g' hg'

/-- Between the wait and the last `fetch_add` a call has its cell for itself. -/
theorem alone (h : Tickets q claimed moved inTicket tickets leaves moves calls)
    (hg : g < claimed) (ha : (calls g).pc.admitted = true) (hl : (calls g).pc ≠ .left)
    (hg' : g' < claimed) (ha' : (calls g').pc.admitted = true) (hl' : (calls g').pc ≠ .left)
    (hc : cell q g = cell q g') : g = g' := by
  have h₁ := (h.turn g hg ha hl).1
  have h₂ := (h.turn g' hg' ha' hl').1
  rw [hc] at h₁
  exact eq_of_lap hc (h₁.symm.trans h₂)

/-- When a call has its turn, the earlier calls of its cell have left and their
commands are fetched. -/
theorem earlier (h : Tickets q claimed moved inTicket tickets leaves moves calls)
    (hg : g < claimed) (ha : (calls g).pc.admitted = true) (hl : (calls g).pc ≠ .left)
    (hlt : g' < g) (hc : cell q g' = cell q g) :
    g' < moved ∧ (calls g').pc = .left := by
  obtain ⟨hleaves, hmoves⟩ := h.turn g hg ha hl
  have hlap := (lap_lt_iff hc).mpr hlt
  refine ⟨(h.moved_iff g').mp ?_, ((h.left_iff g').mp ?_).2⟩
  · rw [hc]
    omega
  · rw [hc]
    omega

theorem moves_eq (h : Tickets q claimed moved inTicket tickets leaves moves calls) :
    moves (cell q moved) = moved / q.qs := by
  have hle : ¬ moved / q.qs < moves (cell q moved) := fun hlt =>
    Nat.lt_irrefl _ ((h.moved_iff moved).mp hlt)
  rcases Nat.lt_or_ge moved q.qs with hlt | hge
  · rw [Nat.div_eq_of_lt hlt] at hle ⊢
    omega
  · obtain ⟨b, rfl⟩ := Nat.exists_eq_add_of_le' hge
    have hb := (h.moved_iff b).mpr (Nat.lt_add_of_pos_right (qs_pos q))
    rw [cell_add_qs, lap_add_qs] at *
    omega

theorem claim (h : Tickets q claimed moved inTicket tickets leaves moves calls) (cmd : Cmd) :
    Tickets q (claimed+1) moved (inTicket + 1#32) tickets leaves moves
      (update calls claimed ⟨cmd, inTicket, .spin⟩) where
  inTicket_eq := by
    rw [h.inTicket_eq]
    exact (Counter.ofNat_succ claimed).symm
  ticket_eq g hg := by
    by_cases he : g = claimed
    · subst he
      rw [update_self]
      exact h.inTicket_eq
    · rw [update_of_ne he]
      exact h.ticket_eq g (by omega)
  count_eq := h.count_eq
  left_iff g := by
    rw [h.left_iff]
    by_cases he : g = claimed
    · subst he
      simp
    · rw [update_of_ne he]
      have : g < claimed + 1 ↔ g < claimed := by omega
      rw [this]
  moved_iff := h.moved_iff
  turn g hg ha := by
    by_cases he : g = claimed
    · subst he
      rw [update_self] at ha
      cases ha
    · rw [update_of_ne he] at ha ⊢
      exact h.turn g (by omega) ha

theorem enter (h : Tickets q claimed moved inTicket tickets leaves moves calls)
    (hpc : (calls g).pc = .acquire) (hleaves : leaves (cell q g) = g / q.qs)
    (hmoves : moves (cell q g) = g / q.qs) :
    Tickets q claimed moved inTicket tickets leaves moves
    (SubmissionQueue.repc calls g .copyLo) where
  inTicket_eq := h.inTicket_eq
  ticket_eq g' hg' := by
    rw [repc_apply]
    exact h.ticket_eq g' hg'
  count_eq := h.count_eq
  left_iff g' := by
    rw [h.left_iff, repc_apply]
    by_cases he : g' = g
    · subst he
      simp [hpc]
    · simp only [if_neg he]
  moved_iff := h.moved_iff
  turn g' hg' := by
    rw [repc_apply]
    by_cases he : g' = g
    · subst he
      intro _ _
      exact ⟨hleaves, hmoves.ge⟩
    · simp only [if_neg he]
      exact h.turn g' hg'

theorem leave (h : Tickets q claimed moved inTicket tickets leaves moves calls)
    (hg : g < claimed) (hpc : (calls g).pc = .leave) :
    Tickets q claimed moved inTicket
      (update tickets (cell q g) (tickets (cell q g) + 1#32))
      (update leaves (cell q g) (leaves (cell q g) + 1)) moves
      (SubmissionQueue.repc calls g .left) := by
  have ha : (calls g).pc.admitted = true := by rw [hpc]; rfl
  have hl : (calls g).pc ≠ .left := by rw [hpc]; simp
  have hturn := h.turn g hg ha hl
  constructor
  case inTicket_eq => exact h.inTicket_eq
  case ticket_eq =>
    intro g' hg'
    rw [repc_apply]
    exact h.ticket_eq g' hg'
  case count_eq =>
    intro a
    by_cases hc : cell q a = cell q g
    · rw [hc, update_self, update_self, h.count_eq g, ← Counter.ofNat_succ]
      congr 1
      omega
    · rw [update_of_ne hc, update_of_ne hc]
      exact h.count_eq a
  case left_iff =>
    intro g'
    by_cases hc : cell q g' = cell q g
    · rw [hc, update_self, hturn.1, repc_apply]
      by_cases he : g' = g
      · subst he
        simp [hg]
      · have hlap : g' / q.qs < g / q.qs + 1 ↔ g' / q.qs < leaves (cell q g') := by
          have : g' / q.qs ≠ g / q.qs := fun hx => he (eq_of_lap hc hx)
          rw [hc, hturn.1]
          omega
        rw [hlap, h.left_iff]
        simp only [if_neg he]
    · have he : g' ≠ g := fun hx => hc (by rw [hx])
      rw [update_of_ne hc, h.left_iff, repc_apply]
      simp only [if_neg he]
  case moved_iff => exact h.moved_iff
  case turn =>
    intro g' hg' ha' hl'
    rw [repc_apply] at ha' hl'
    by_cases he : g' = g
    · simp [he] at hl'
    · simp only [if_neg he] at ha' hl'
      have hc : cell q g' ≠ cell q g := fun hx => he (h.alone hg' ha' hl' hg ha hl hx)
      rw [update_of_ne hc]
      exact h.turn g' hg' ha' hl'

theorem bump (h : Tickets q claimed moved inTicket tickets leaves moves calls) :
    Tickets q claimed (moved+1) inTicket
      (update tickets (cell q moved) (tickets (cell q moved) + 1#32)) leaves
      (update moves (cell q moved) (moves (cell q moved) + 1)) calls where
  inTicket_eq := h.inTicket_eq
  ticket_eq := h.ticket_eq
  count_eq a := by
    by_cases hc : cell q a = cell q moved
    · rw [hc, update_self, update_self, h.count_eq, ← Counter.ofNat_succ, Nat.add_assoc]
    · rw [update_of_ne hc, update_of_ne hc]
      exact h.count_eq a
  left_iff := h.left_iff
  moved_iff g' := by
    by_cases hc : cell q g' = cell q moved
    · rw [hc, update_self, h.moves_eq]
      have hlt := lap_lt_iff hc
      by_cases he : g' = moved
      · subst he
        omega
      · have : g' / q.qs ≠ moved / q.qs := fun hx => he (eq_of_lap hc hx)
        omega
    · have he : g' ≠ moved := fun hx => hc (by rw [hx])
      rw [update_of_ne hc, h.moved_iff]
      omega
  turn g' hg' ha hl := by
    obtain ⟨h₁, h₂⟩ := h.turn g' hg' ha hl
    refine ⟨h₁, ?_⟩
    by_cases hc : cell q g' = cell q moved
    · rw [hc, update_self]
      rw [hc] at h₂
      omega
    · rw [update_of_ne hc]
      exact h₂

end Tickets

/-- A mark stands at the cell of a call from its store until `move_tail` takes the call. -/
structure Marks (q : Queue) (claimed swept : Nat) (tailMark : BitVec 32 → Bool)
    (calls : Nat → Call) : Prop where
  marked_of_swept : ∀ g < swept, g < claimed ∧ (calls g).pc.marked = true
  swept_of_cleared : ∀ g < claimed, (calls g).pc.cleared = true → g < swept
  mark_of : ∀ g < claimed, (calls g).pc.marked = true → swept ≤ g → tailMark (cell q g) = true
  of_mark : ∀ a, tailMark (cell q a) = true →
    ∃ g < claimed, cell q g = cell q a ∧ (calls g).pc.marked = true ∧ swept ≤ g

theorem CallPc.admitted_of_marked {pc : CallPc} (h : pc.marked = true) : pc.admitted = true := by
  cases pc <;> first | rfl | cases h

theorem CallPc.admitted_of_cleared {pc : CallPc} (h : pc.cleared = true) : pc.admitted = true := by
  cases pc <;> first | rfl | cases h

theorem CallPc.ne_left_of_cleared {pc : CallPc} (h : ¬ pc.cleared = true) : pc ≠ .left := by
  rintro rfl
  exact h rfl

namespace Marks
variable {claimed swept : Nat} {tailMark : BitVec 32 → Bool} {calls : Nat → Call} {g g' : Nat}
  {pc : CallPc}

theorem swept_le (h : Marks q claimed swept tailMark calls) : swept ≤ claimed := by
  rcases Nat.lt_or_ge claimed swept with hlt | hge
  · have := (h.marked_of_swept claimed hlt).1
    omega
  · exact hge

theorem not_cleared (h : Marks q claimed swept tailMark calls) (hg : g < claimed)
    (hs : swept ≤ g) : (calls g).pc ≠ .left :=
  CallPc.ne_left_of_cleared fun hc => by
    have := h.swept_of_cleared g hg hc
    omega

theorem repc (h : Marks q claimed swept tailMark calls)
    (hm : pc.marked = (calls g).pc.marked) (hc : pc.cleared = true → g < swept) :
    Marks q claimed swept tailMark (SubmissionQueue.repc calls g pc) := by
  have hmarked (g' : Nat) :
      (SubmissionQueue.repc calls g pc g').pc.marked = (calls g').pc.marked := by
    rw [repc_apply]
    by_cases he : g' = g
    · subst he
      simp only [if_true, hm]
    · simp only [if_neg he]
  constructor
  case marked_of_swept =>
    intro g' hg'
    rw [hmarked]
    exact h.marked_of_swept g' hg'
  case swept_of_cleared =>
    intro g' hg' hcl
    rw [repc_apply] at hcl
    by_cases he : g' = g
    · subst he
      exact hc (by simpa using hcl)
    · simp only [if_neg he] at hcl
      exact h.swept_of_cleared g' hg' hcl
  case mark_of =>
    intro g' hg'
    rw [hmarked]
    exact h.mark_of g' hg'
  case of_mark =>
    intro a ha
    obtain ⟨g', hg', hc', hm', hs⟩ := h.of_mark a ha
    exact ⟨g', hg', hc', (hmarked g').trans hm', hs⟩

theorem claim (h : Marks q claimed swept tailMark calls) (cmd : Cmd) (t : BitVec 32) :
    Marks q (claimed+1) swept tailMark (update calls claimed ⟨cmd, t, .spin⟩) := by
  have hold {g : Nat} (hg : g < claimed) : update calls claimed ⟨cmd, t, .spin⟩ g = calls g :=
    update_of_ne (by omega) _ _
  have hnew {g : Nat} (hg : g < claimed+1)
      (hm : ((update calls claimed ⟨cmd, t, .spin⟩ : Nat → Call) g).pc.admitted = true) :
      g < claimed := by
    rcases Nat.lt_succ_iff_lt_or_eq.mp hg with hlt | rfl
    · exact hlt
    · rw [update_self] at hm
      cases hm
  constructor
  case marked_of_swept =>
    intro g hg
    have := h.marked_of_swept g hg
    rw [hold this.1]
    exact ⟨by omega, this.2⟩
  case swept_of_cleared =>
    intro g hg hc
    have hlt := hnew hg (CallPc.admitted_of_cleared hc)
    rw [hold hlt] at hc
    exact h.swept_of_cleared g hlt hc
  case mark_of =>
    intro g hg hm
    have hlt := hnew hg (CallPc.admitted_of_marked hm)
    rw [hold hlt] at hm
    exact h.mark_of g hlt hm
  case of_mark =>
    intro a ha
    obtain ⟨g, hg, hrest⟩ := h.of_mark a ha
    exact ⟨g, by omega, by rw [hold hg]; exact hrest⟩

theorem mark (h : Marks q claimed swept tailMark calls) (hg : g < claimed)
    (hpc : (calls g).pc = .mark) :
    Marks q claimed swept (update tailMark (cell q g) true)
      (SubmissionQueue.repc calls g .look) := by
  have hmarked (g' : Nat) (hm : (calls g').pc.marked = true) :
      (SubmissionQueue.repc calls g .look g').pc.marked = true := by
    rw [repc_apply]
    by_cases he : g' = g
    · simp only [he, if_true]
      rfl
    · simpa only [if_neg he] using hm
  constructor
  case marked_of_swept =>
    intro g' hg'
    obtain ⟨hlt, hm⟩ := h.marked_of_swept g' hg'
    exact ⟨hlt, hmarked g' hm⟩
  case swept_of_cleared =>
    intro g' hg' hcl
    rw [repc_apply] at hcl
    by_cases he : g' = g
    · simp only [he, if_true] at hcl
      cases hcl
    · simp only [if_neg he] at hcl
      exact h.swept_of_cleared g' hg' hcl
  case mark_of =>
    intro g' hg' hm hs
    by_cases hc : cell q g' = cell q g
    · rw [hc, update_self]
    · have he : g' ≠ g := fun hx => hc (by rw [hx])
      rw [update_of_ne hc]
      rw [repc_apply] at hm
      simp only [if_neg he] at hm
      exact h.mark_of g' hg' hm hs
  case of_mark =>
    intro a ha
    by_cases hc : cell q a = cell q g
    · refine ⟨g, hg, hc.symm, ?_, ?_⟩
      · rw [repc_apply]
        simp only [if_true]
        rfl
      · rcases Nat.lt_or_ge g swept with hlt | hge
        · have := (h.marked_of_swept g hlt).2
          rw [hpc] at this
          cases this
        · exact hge
    · rw [update_of_ne hc] at ha
      obtain ⟨g', hg', hc', hm', hs⟩ := h.of_mark a ha
      exact ⟨g', hg', hc', hmarked g' hm', hs⟩

/-- The mark found at the cell after the swept ones is the one of the next call. -/
theorem next {moved : Nat} {inTicket : BitVec 32} {tickets : BitVec 32 → BitVec 32}
    {leaves moves : BitVec 32 → Nat} (h : Marks q claimed swept tailMark calls)
    (ht : Tickets q claimed moved inTicket tickets leaves moves calls)
    (hmark : tailMark (cell q swept) = true) :
    swept < claimed ∧ (calls swept).pc.marked = true := by
  obtain ⟨g, hg, hc, hm, hs⟩ := h.of_mark swept hmark
  rcases Nat.lt_or_eq_of_le hs with hlt | rfl
  · -- a later call of the cell is at its turn only after this one has left
    have hl := (ht.earlier hg (CallPc.admitted_of_marked hm) (h.not_cleared hg hs) hlt hc.symm).2
    exact absurd hl (h.not_cleared (by omega) (Nat.le_refl _))
  · exact ⟨hg, hm⟩

theorem sweep {moved : Nat} {inTicket : BitVec 32} {tickets : BitVec 32 → BitVec 32}
    {leaves moves : BitVec 32 → Nat} (h : Marks q claimed swept tailMark calls)
    (ht : Tickets q claimed moved inTicket tickets leaves moves calls)
    (hmark : tailMark (cell q swept) = true) :
    Marks q claimed (swept+1) (update tailMark (cell q swept) false) calls := by
  obtain ⟨hlt, hm⟩ := h.next ht hmark
  constructor
  case marked_of_swept =>
    intro g hg
    rcases Nat.lt_succ_iff_lt_or_eq.mp hg with hg | rfl
    · exact h.marked_of_swept g hg
    · exact ⟨hlt, hm⟩
  case swept_of_cleared =>
    intro g hg hc
    have := h.swept_of_cleared g hg hc
    omega
  case mark_of =>
    intro g hg hm' hs
    have hc : cell q g ≠ cell q swept := by
      intro hx
      have := ht.alone hg (CallPc.admitted_of_marked hm') (h.not_cleared hg (by omega)) hlt
        (CallPc.admitted_of_marked hm) (h.not_cleared hlt (Nat.le_refl _)) hx
      omega
    rw [update_of_ne hc]
    exact h.mark_of g hg hm' (by omega)
  case of_mark =>
    intro a ha
    by_cases hc : cell q a = cell q swept
    · rw [hc, update_self] at ha
      cases ha
    · rw [update_of_ne hc] at ha
      obtain ⟨g, hg, hc', hm', hs⟩ := h.of_mark a ha
      refine ⟨g, hg, hc', hm', ?_⟩
      have : swept ≠ g := by
        rintro rfl
        exact hc hc'.symm
      omega

end Marks

structure Chain (q : Queue) (retired moved fetched rung tailed swept : Nat)
    (head tail db : BitVec 32) : Prop where
  head_eq : head = BitVec.ofNat 32 retired
  tail_eq : tail = BitVec.ofNat 32 tailed
  db_eq : db = cell q rung
  retired_le : retired ≤ moved
  moved_le : moved ≤ fetched
  fetched_le : fetched ≤ rung
  tailed_le : tailed ≤ rung
  rung_le : rung ≤ swept
  window : swept < retired + q.qs

def SweepOk (q : Queue) (retired rung tailed swept : Nat) : CallPc → Prop
  | .loadTail | .unlock => tailed = swept
  | .full curTail count | .fence curTail count | .ring curTail count =>
    curTail = BitVec.ofNat 32 tailed ∧ count = BitVec.ofNat 32 (swept - tailed) ∧ tailed = rung
  | .sweep curTail count =>
    (curTail = BitVec.ofNat 32 tailed ∧ count = BitVec.ofNat 32 (swept - tailed) ∧ tailed = rung) ∧
      swept + 1 < retired + q.qs
  | .putTail curTail count =>
    curTail = BitVec.ofNat 32 tailed ∧ count = BitVec.ofNat 32 (swept - tailed) ∧ rung = swept
  | _ => True

theorem sweepOk_of_not_holds {retired rung tailed swept : Nat} {pc : CallPc}
    (h : ¬ pc.holds = true) : SweepOk q retired rung tailed swept pc := by
  cases pc <;> trivial

theorem SweepOk.retire {retired retired' rung tailed swept : Nat} {pc : CallPc}
    (h : SweepOk q retired rung tailed swept pc) (hle : retired ≤ retired') :
    SweepOk q retired' rung tailed swept pc := by
  cases pc <;> first | exact h | exact ⟨h.1, by have := h.2; omega⟩

structure TailSection (q : Queue) (claimed retired rung tailed swept : Nat) (tailLock : Bool)
    (calls : Nat → Call) : Prop where
  lock : Exclusive (fun _ : Unit => tailLock = true)
    fun g _ => g < claimed ∧ (calls g).pc.holds = true
  ok : ∀ g < claimed, SweepOk q retired rung tailed swept (calls g).pc
  free : tailLock = false → tailed = swept

namespace TailSection
variable {claimed retired rung tailed swept : Nat} {tailLock : Bool} {calls : Nat → Call}
  {g : Nat} {pc : CallPc}

theorem holds_repc {g' : Nat} (hh : pc.holds = (calls g).pc.holds) :
    (SubmissionQueue.repc calls g pc g').pc.holds = (calls g').pc.holds := by
  rw [repc_apply]
  by_cases he : g' = g
  · subst he
    simp only [if_true, hh]
  · simp only [if_neg he]

theorem repc (h : TailSection q claimed retired rung tailed swept tailLock calls)
    (hh : pc.holds = (calls g).pc.holds) (hok : SweepOk q retired rung tailed swept pc) :
    TailSection q claimed retired rung tailed swept tailLock
      (SubmissionQueue.repc calls g pc) where
  lock := h.lock.congr (fun _ => Iff.rfl) fun g' _ => by rw [holds_repc hh]
  ok g' hg' := by
    rw [repc_apply]
    by_cases he : g' = g
    · simpa only [he, if_true] using hok
    · simpa only [if_neg he] using h.ok g' hg'
  free := h.free

theorem claim (h : TailSection q claimed retired rung tailed swept tailLock calls) (cmd : Cmd)
    (t : BitVec 32) : TailSection q (claimed+1) retired rung tailed swept tailLock
      (update calls claimed ⟨cmd, t, .spin⟩) := by
  constructor
  case lock =>
    have howns (g : Nat) : (g < claimed+1 ∧
        ((update calls claimed ⟨cmd, t, .spin⟩ : Nat → Call) g).pc.holds = true) ↔
        g < claimed ∧ (calls g).pc.holds = true := by
      by_cases he : g = claimed
      · have hspin : CallPc.spin.holds = false := rfl
        simp [he, hspin]
      · rw [update_of_ne he]
        have : g < claimed + 1 ↔ g < claimed := by omega
        rw [this]
    exact h.lock.congr (fun _ => Iff.rfl) fun g _ => howns g
  case ok =>
    intro g hg
    by_cases he : g = claimed
    · subst he
      rw [update_self]
      trivial
    · rw [update_of_ne he]
      exact h.ok g (by omega)
  case free => exact h.free

theorem work {rung' tailed' swept' : Nat}
    (h : TailSection q claimed retired rung tailed swept tailLock calls) (hg : g < claimed)
    (hold : (calls g).pc.holds = true) (hh : pc.holds = true)
    (hok : SweepOk q retired rung' tailed' swept' pc) :
    TailSection q claimed retired rung' tailed' swept' tailLock
      (SubmissionQueue.repc calls g pc) where
  lock := h.lock.congr (fun _ => Iff.rfl) fun g' _ => by rw [holds_repc (hh.trans hold.symm)]
  ok g' hg' := by
    rw [repc_apply]
    by_cases he : g' = g
    · simpa only [he, if_true] using hok
    · simp only [if_neg he]
      exact sweepOk_of_not_holds fun hx => he (h.lock.unique g' g () ⟨hg', hx⟩ ⟨hg, hold⟩)
  free hf := by
    have := h.lock.held_of_owns g () ⟨hg, hold⟩
    rw [hf] at this
    cases this

theorem take (h : TailSection q claimed retired rung tailed swept false calls)
    (hg : g < claimed) :
    TailSection q claimed retired rung tailed swept true
      (SubmissionQueue.repc calls g .loadTail) where
  lock := by
    have howns (g' : Nat) :
        (g' < claimed ∧ (SubmissionQueue.repc calls g .loadTail g').pc.holds = true) ↔
          (g' < claimed ∧ (calls g').pc.holds = true) ∨ g' = g ∧ () = () := by
      rw [repc_apply]
      by_cases he : g' = g
      · have hload : CallPc.loadTail.holds = true := rfl
        simp [he, hload, hg]
      · simp [he]
    exact h.lock.take (by simp) (by simp) fun g' _ => howns g'
  ok g' hg' := by
    rw [repc_apply]
    by_cases he : g' = g
    · simp only [he, if_true]
      exact h.free rfl
    · simpa only [if_neg he] using h.ok g' hg'
  free hf := by cases hf

theorem drop (h : TailSection q claimed retired rung tailed swept tailLock calls)
    (hg : g < claimed) (hpc : (calls g).pc = .unlock) :
    TailSection q claimed retired rung tailed swept false
      (SubmissionQueue.repc calls g .look) where
  lock := by
    have hown : g < claimed ∧ (calls g).pc.holds = true := ⟨hg, by rw [hpc]; rfl⟩
    have howns (g' : Nat) :
        (g' < claimed ∧ (SubmissionQueue.repc calls g .look g').pc.holds = true) ↔
          (g' < claimed ∧ (calls g').pc.holds = true) ∧ ¬ (g' = g ∧ () = ()) := by
      rw [repc_apply]
      by_cases he : g' = g
      · have hlook : CallPc.look.holds = false := rfl
        simp [he, hlook]
      · simp [he]
    exact h.lock.drop (r := ()) hown (by simp) fun g' _ => howns g'
  ok g' hg' := by
    rw [repc_apply]
    by_cases he : g' = g
    · simp only [he, if_true]
      trivial
    · simpa only [if_neg he] using h.ok g' hg'
  free _ := by
    have := h.ok g hg
    rw [hpc] at this
    exact this

theorem retire {retired' : Nat}
    (h : TailSection q claimed retired rung tailed swept tailLock calls)
    (hle : retired ≤ retired') :
    TailSection q claimed retired' rung tailed swept tailLock calls where
  lock := h.lock
  ok g hg := (h.ok g hg).retire hle
  free := h.free

end TailSection

end Shaper.SubmissionQueue
