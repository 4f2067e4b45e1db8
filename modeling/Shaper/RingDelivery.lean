import Shaper.RingProgress

/-! Exactly-once delivery through the request ring, over runs of any length. -/
namespace Shaper.RingDelivery
open RingMachine RingInvariant RingSchedule RingProgress Request Lib Lib.Rank Function
variable {r : Ring} {s t : State} {g pick : Nat}

theorem retired_le_drained (h : Inv r s) : s.retired ≤ s.drained.length := by
  by_contra hlt
  have hs := h.stored_lt _ (h.notified s.drained.length (by omega)).1
  have := h.submitted_le
  omega

/-- What is published and not yet retired is still as its producer left it. -/
theorem entry_intact (h : CallInv r s) (hp : published s g) (hlo : s.retired ≤ g) :
    s.entries (cell r g) = ⟨(s.calls g).byteOffset, (s.calls g).pcEntry, (s.calls g).opcode,
      ioSchedEncodeNbytes (s.calls g).nBytes⟩ ∧ s.prodSeq (cell r g) = BitVec.ofNat 32 (g+1) :=
  ⟨(written_iff (.inr hp.2)).mp (h.written g hp.1 hlo),
    h.stamped.stamp_of (fun _ hq => h.lt_of_published hq) hlo hp⟩

/-- The arguments of a call are fixed when it claims its slot. -/
theorem step_request {a : Act} (hs : step r s a = some t) (hg : g < s.claimed) :
    request (t.calls g) = request (s.calls g) := by
  cases a with
  | claim api byteOffset nBytes pcEntry opcode =>
    cases hs
    rw [claim_calls_of_lt hg]
  | call g' =>
    simp only [step] at hs
    split at hs
    · obtain rfl | ⟨pc, _, _, _, -, rfl⟩ := callStep_shape hs
      · rfl
      · rw [setPc_calls]
        rfl
    · cases hs
  | shutdown =>
    cases hs
    rfl
  | sched pick => rw [(sched_keeps hs).1]

theorem step_cases {a : Act} (hs : step r s a = some t) :
    (∃ pick, a = .sched pick ∧ schedStep r s pick = some t) ∨
      Frame s t ∧ t.sched = s.sched ∧ (a ≠ .shutdown → t.shutdown = s.shutdown) := by
  cases a with
  | claim api byteOffset nBytes pcEntry opcode =>
    cases hs
    exact .inr ⟨.claim, rfl, fun _ => rfl⟩
  | call g =>
    simp only [step] at hs
    split at hs
    · refine .inr ⟨.callStep hs, callStep_sched hs, fun _ => ?_⟩
      obtain rfl | ⟨_, _, _, _, -, rfl⟩ := callStep_shape hs <;> rfl
    · cases hs
  | shutdown =>
    cases hs
    exact .inr ⟨⟨rfl, rfl, rfl, rfl, rfl, rfl, rfl, rfl, rfl, le_refl _, fun _ => by simp,
      fun _ hg => ⟨hg, rfl⟩⟩, rfl, fun hne => absurd rfl hne⟩
  | sched pick => exact .inl ⟨pick, rfl, hs⟩

structure Execution (r : Ring) where
  state : Nat → State
  act : Nat → Act
  start : state 0 = init
  next : ∀ n, step r (state n) (act n) = some (state (n+1))
  keyed : ∀ n, keyedStep r (state n) (act n)
  few : ∀ n, unfinished (state n) < 2^31

structure Execution.Fair (e : Execution r) : Prop where
  runs : ∀ n, ∃ m ≥ n, ∃ pick, e.act m = .sched pick
  open_ : ∀ n, e.act n ≠ .shutdown

theorem Execution.reach (e : Execution r) (n : Nat) : Reach r (e.state n) := by
  induction n with
  | zero =>
    rw [e.start]
    exact .refl
  | succ n ih => exact .step ih (e.keyed n) (e.next n) (e.few (n+1))

namespace Execution
variable {e : Execution r}

theorem next_cases (hf : e.Fair) (n : Nat) :
    (∃ pick, schedStep r (e.state n) pick = some (e.state (n+1))) ∨
      Frame (e.state n) (e.state (n+1)) ∧ (e.state (n+1)).sched = (e.state n).sched ∧
        (e.state (n+1)).shutdown = (e.state n).shutdown := by
  obtain ⟨pick, -, hs⟩ | ⟨f, hb, hd⟩ := step_cases (e.next n)
  · exact .inl ⟨pick, hs⟩
  · exact .inr ⟨f, hb, hd (hf.open_ n)⟩

theorem shutdown_eq (hf : e.Fair) (n : Nat) : (e.state n).shutdown = 0#32 := by
  induction n with
  | zero =>
    rw [e.start]
    rfl
  | succ n ih =>
    obtain ⟨pick, hs⟩ | ⟨-, -, hd⟩ := next_cases hf n
    · exact (sched_keeps hs).2.2.1.trans ih
    · exact hd.trans ih

end Execution

end Shaper.RingDelivery
