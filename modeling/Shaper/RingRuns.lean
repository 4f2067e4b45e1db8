import Shaper.RingDelivery

/-! Runs that exist: a call can always take its next step, an enqueue with room in
the ring can run to its end, and the ring can be brought to rest after any number
of requests. -/
namespace Shaper.RingRuns
open RingMachine RingInvariant RingSchedule RingProgress RingDelivery Request Lib Function
variable {r : Ring} {s t u : State} {g n : Nat}

def Moved (g : Nat) (s t : State) : Prop :=
  ∃ (pc : CallPc) (entries : BitVec 32 → IoRequest) (flags prodSeq : BitVec 32 → BitVec 32),
    t = { s.setPc g pc with entries := entries, doneFlags := flags, prodSeq := prodSeq }

theorem Moved.trans (h : Moved g s t) (h' : Moved g t u) : Moved g s u := by
  obtain ⟨_, _, _, _, rfl⟩ := h
  obtain ⟨pc, entries, flags, prodSeq, rfl⟩ := h'
  exact ⟨pc, entries, flags, prodSeq, by simp [State.setPc]⟩

theorem Moved.calls_of_ne (h : Moved g s t) {g' : Nat} (hne : g' ≠ g) :
    t.calls g' = s.calls g' := by
  obtain ⟨pc, _, _, _, rfl⟩ := h
  exact setPc_calls_of_ne s pc hne

theorem Moved.claimed_eq (h : Moved g s t) : t.claimed = s.claimed := by
  obtain ⟨_, _, _, _, rfl⟩ := h
  rfl

theorem Moved.retired_eq (h : Moved g s t) : t.retired = s.retired := by
  obtain ⟨_, _, _, _, rfl⟩ := h
  rfl

def CallPc.succ : CallPc → CallPc
  | .full => .clearFlag
  | .clearFlag => .putOffset
  | .putOffset => .putEntry
  | .putEntry => .putOpcode
  | .putOpcode => .putSize
  | .putSize => .publish
  | _ => .returned

theorem callStep_enqueue (h : Inv r s) (hg : g < s.claimed) (hin : (s.calls g).pc.inEnqueue = true)
    (hroom : g < s.retired + r.capacity) :
    ∃ t, callStep r s g = some t ∧ Moved g s t ∧ (t.calls g).pc = CallPc.succ (s.calls g).pc := by
  have hlo := retired_le_of_inEnqueue h.toCallInv hin
  have hspan := h.toCallInv.span h.few
  have hdist := Counter.toNat_sub (w := 32) hlo (by omega)
  simp only [callStep]
  cases hpc : (s.calls g).pc with
  | full =>
    refine ⟨_, if_neg ?_, ⟨_, _, _, _, rfl⟩, setPc_pc_self _ _ _⟩
    rw [h.slot_eq g hg, h.head_eq, hdist]
    omega
  | returned =>
    rw [hpc] at hin
    cases hin
  | polled =>
    rw [hpc] at hin
    cases hin
  | finished =>
    rw [hpc] at hin
    cases hin
  | _ => exact ⟨_, rfl, ⟨_, _, _, _, rfl⟩, setPc_pc_self _ _ _⟩

theorem unfinished_moved (h : Moved g s t)
    (hin : (t.calls g).pc.inEnqueue = true → (s.calls g).pc.inEnqueue = true) :
    unfinished t ≤ unfinished s := by
  obtain ⟨pc, _, _, _, rfl⟩ := h
  refine List.countP_mono_left fun g' _ hg' => ?_
  by_cases he : g' = g
  · subst he
    exact hin hg'
  · rwa [setPc_calls_of_ne s pc he] at hg'

theorem Reach.callStep (hr : Reach r s) (hg : g < s.claimed) (hs : callStep r s g = some t)
    (hf : unfinished t ≤ unfinished s) : Reach r t := by
  refine .step (a := .call g) hr trivial ?_ (hf.trans_lt (inv_of_reach hr).few)
  rw [step, if_pos hg, hs]

theorem Reach.exists_callStep (hr : Reach r s) (hg : g < s.claimed)
    (hin : (s.calls g).pc.inEnqueue = true) (hroom : g < s.retired + r.capacity) :
    ∃ t, Reach r t ∧ RingMachine.callStep r s g = some t ∧ Moved g s t ∧
      (t.calls g).pc = CallPc.succ (s.calls g).pc := by
  obtain ⟨t, hs, hm, hpc⟩ := callStep_enqueue (inv_of_reach hr) hg hin hroom
  exact ⟨t, Reach.callStep hr hg hs (unfinished_moved hm fun _ => hin), hs, hm, hpc⟩

def CallPc.left : CallPc → Nat
  | .full => 7
  | .clearFlag => 6
  | .putOffset => 5
  | .putEntry => 4
  | .putOpcode => 3
  | .putSize => 2
  | .publish => 1
  | _ => 0

theorem CallPc.succ_left {pc : CallPc} (hin : pc.inEnqueue = true) (hne : pc ≠ .publish) :
    (CallPc.succ pc).inEnqueue = true ∧ CallPc.left (CallPc.succ pc) < CallPc.left pc := by
  cases pc <;> simp_all [CallPc.succ, CallPc.left, CallPc.inEnqueue]

theorem exists_enqueue (hr : Reach r s) (hg : g < s.claimed)
    (hin : (s.calls g).pc.inEnqueue = true) (hroom : g < s.retired + r.capacity) :
    ∃ t, Reach r t ∧ Moved g s t ∧ (t.calls g).pc = .returned := by
  induction hn : CallPc.left (s.calls g).pc using Nat.strongRecOn generalizing s with
  | ind m ih =>
    obtain ⟨t, ht, -, hm, hpc⟩ := Reach.exists_callStep hr hg hin hroom
    by_cases hlast : (s.calls g).pc = .publish
    · exact ⟨t, ht, hm, by rw [hpc, hlast]; rfl⟩
    · have hin' := CallPc.succ_left hin hlast
      rw [← hpc, hn] at hin'
      obtain ⟨u, hu, hmu, hdone⟩ :=
        ih _ hin'.2 ht (hm.claimed_eq ▸ hg) hin'.1 (hm.retired_eq ▸ hroom) rfl
      exact ⟨u, hu, hm.trans hmu, hdone⟩

theorem unfinished_claim {api : Api} {byteOffset nBytes pcEntry : BitVec 64} {opcode : BitVec 8} :
    unfinished (claim s api byteOffset nBytes pcEntry opcode) = unfinished s + 1 := by
  have hold : (List.range s.claimed).countP (fun g =>
      ((claim s api byteOffset nBytes pcEntry opcode).calls g).pc.inEnqueue) = unfinished s := by
    refine List.countP_congr fun g hg => ?_
    rw [claim_calls_of_lt (List.mem_range.mp hg)]
  have hc : (claim s api byteOffset nBytes pcEntry opcode).claimed = s.claimed + 1 := rfl
  rw [unfinished, hc, List.range_succ, List.countP_append, hold]
  simp [claim, CallPc.inEnqueue]

structure Quiet (s : State) (n : Nat) : Prop where
  claimed_eq : s.claimed = n
  retired_eq : s.retired = n
  shutdown_eq : s.shutdown = 0#32
  phase_eq : s.sched.phase = .top

theorem Quiet.unfinished_eq (hq : Quiet s n) (h : Inv r s) : unfinished s = 0 := by
  refine List.countP_eq_zero.mpr fun g hg => ?_
  have hlt := List.mem_range.mp hg
  rw [hq.claimed_eq, ← hq.retired_eq] at hlt
  simp [(h.retired_published g hlt).2]

theorem Quiet.reach_claim (hq : Quiet s n) (hr : Reach r s) (api : Api) {byteOffset : BitVec 64}
    (nBytes pcEntry : BitVec 64) (opcode : BitVec 8) (hk : r.keyed byteOffset) :
    Reach r (claim s api byteOffset nBytes pcEntry opcode) := by
  refine .step (a := .claim api byteOffset nBytes pcEntry opcode) hr hk rfl ?_
  rw [unfinished_claim, hq.unfinished_eq (inv_of_reach hr)]
  decide

/-- The new call is the only one and the ring has room for it. -/
theorem Quiet.claim_call (hq : Quiet s n) {api : Api} {byteOffset nBytes pcEntry : BitVec 64}
    {opcode : BitVec 8} :
    n < (claim s api byteOffset nBytes pcEntry opcode).claimed ∧
      ((claim s api byteOffset nBytes pcEntry opcode).calls n).pc = .full ∧
      n < (claim s api byteOffset nBytes pcEntry opcode).retired + r.capacity := by
  have hc := capacity_pos r
  refine ⟨by simp [claim, hq.claimed_eq], by simp [claim, hq.claimed_eq], ?_⟩
  simp only [claim, hq.retired_eq]
  omega

theorem Quiet.exists_enqueue (hq : Quiet s n) (hr : Reach r s) (api : Api)
    {byteOffset : BitVec 64} (nBytes pcEntry : BitVec 64) (opcode : BitVec 8)
    (hk : r.keyed byteOffset) :
    ∃ t, Reach r t ∧ Moved n (claim s api byteOffset nBytes pcEntry opcode) t ∧
      (t.calls n).pc = .returned := by
  obtain ⟨hg, hpc, hroom⟩ := hq.claim_call (r := r)
  exact RingRuns.exists_enqueue (hq.reach_claim hr api nBytes pcEntry opcode hk) hg
    (by rw [hpc]; rfl) hroom

/-- From rest, one more request can go all the way through the ring. -/
theorem Quiet.exists_next (hq : Quiet s n) (hr : Reach r s) (api : Api)
    {byteOffset : BitVec 64} (nBytes pcEntry : BitVec 64) (opcode : BitVec 8)
    (hk : r.keyed byteOffset) :
    ∃ t, Reach r t ∧ Quiet t (n+1) ∧ (∀ g < n, t.calls g = s.calls g) ∧
      (t.calls n).api = api ∧ (t.calls n).pc = .returned := by
  obtain ⟨t, ht, hm, hpc⟩ := hq.exists_enqueue hr api nBytes pcEntry opcode hk
  obtain ⟨hclaimed, hretired, hshut, hapi⟩ : t.claimed = n + 1 ∧ t.retired = n ∧
      t.shutdown = 0#32 ∧ (t.calls n).api = api := by
    obtain ⟨_, _, _, _, rfl⟩ := hm
    refine ⟨congrArg (· + 1) hq.claimed_eq, hq.retired_eq, hq.shutdown_eq, ?_⟩
    rw [setPc_calls]
    simp [claim, hq.claimed_eq]
  have hpub : published t n := ⟨by omega, by rw [hpc]; rfl⟩
  obtain ⟨u, hu, hgt, htop⟩ := exists_retire (inv_of_reach ht)
    ⟨hshut, .inr (hretired.symm ▸ hpub)⟩
  have hur := hu.reach ht
  have hle := (retired_le_drained (inv_of_reach hur)).trans (drained_le_claimed (inv_of_reach hur))
  obtain ⟨hcalls, hclaimed', hshut'⟩ := hu.keeps
  refine ⟨u, hur, ⟨by omega, by omega, hshut'.trans hshut, htop⟩, fun g hg => ?_, ?_, ?_⟩
  · rw [hcalls, hm.calls_of_ne (Nat.ne_of_lt hg), claim_calls_of_lt (hq.claimed_eq ▸ hg)]
  · rw [hcalls, hapi]
  · rw [hcalls, hpc]

/-- The ring can come to rest again any number of requests later. -/
theorem Quiet.exists_later (hq : Quiet s n) (hr : Reach r s) (k : Nat) :
    ∃ t, Reach r t ∧ Quiet t (n+k) ∧ ∀ g < n, t.calls g = s.calls g := by
  induction k with
  | zero => exact ⟨s, hr, hq, fun _ _ => rfl⟩
  | succ k ih =>
    obtain ⟨t, ht, hqt, hsame⟩ := ih
    have hk : r.keyed 0 := keyed_of_even r rfl
    obtain ⟨u, hu, hqu, hsame', -⟩ := hqt.exists_next ht .forget 0 0 0 hk
    exact ⟨u, hu, hqu, fun g hg => (hsame' g (by omega)).trans (hsame g hg)⟩

theorem quiet_init : Quiet init 0 := ⟨rfl, rfl, rfl, rfl⟩

end Shaper.RingRuns
