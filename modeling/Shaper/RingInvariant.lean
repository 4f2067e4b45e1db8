import Shaper.RingMachine

/-! What holds in every reachable state of the request ring. The producers' half
says which cells belong to which call; the scheduler's half says what the current
batch is; the only facts one half takes from the other are how far `cons_head`
has come and which slots are published. -/
namespace Shaper.RingInvariant
open RingMachine Request Lib Lib.Warp Function
variable {r : Ring} {s t : State} {g n : Nat}

def cell (r : Ring) (g : Nat) : BitVec 32 := Counter.cell 32 r.capacityLog g

theorem capacityLog_lt (r : Ring) : r.capacityLog < 32 := Nat.lt_succ_of_le r.capacityLog_le

theorem capacity_le (r : Ring) : r.capacity ≤ 2^31 :=
  Nat.pow_le_pow_right (by omega) r.capacityLog_le

theorem capacity_pos (r : Ring) : 0 < r.capacity := Nat.two_pow_pos _

theorem batchRoom_pos (r : Ring) : 0 < r.batchRoom := by
  unfold Ring.batchRoom
  cases r.kernel with
  | write => exact capacity_pos r
  | read => exact Nat.zero_lt_succ 511

theorem batchRoom_le (r : Ring) : r.batchRoom ≤ 2^31 := by
  unfold Ring.batchRoom
  cases r.kernel with
  | write => exact capacity_le r
  | read => exact (by decide : kSchedMaxBatch ≤ 2^31)

theorem index_ofNat (r : Ring) (g : Nat) : r.index (BitVec.ofNat 32 g) = cell r g :=
  Counter.and_mask (capacityLog_lt r) g

theorem cell_ne {g' lo : Nat} (h : lo ≤ g) (h' : lo ≤ g') (hl : g < lo + r.capacity)
    (hl' : g' < lo + r.capacity) (hne : g ≠ g') : cell r g ≠ cell r g' := by
  intro he
  have hr := (Counter.mask_eq_iff (capacityLog_lt r) g g').mp he
  rcases Nat.lt_or_gt_of_ne hne with hlt | hgt
  · have := Counter.lap_le hr hlt
    unfold Ring.capacity at hl'
    omega
  · have := Counter.lap_le hr.symm hgt
    unfold Ring.capacity at hl
    omega

def request (c : Call) : Drained := ⟨c.byteOffset, c.pcEntry, ioSchedEncodeNbytes c.nBytes⟩

def published (s : State) (g : Nat) : Prop := g < s.claimed ∧ (s.calls g).pc.inEnqueue = false

def Written (c : Call) (e : IoRequest) : Prop :=
  match c.pc with
  | .full | .clearFlag | .putOffset => True
  | .putEntry => e.byteOffset = c.byteOffset
  | .putOpcode => e.byteOffset = c.byteOffset ∧ e.pcEntry = c.pcEntry
  | .putSize => e.byteOffset = c.byteOffset ∧ e.pcEntry = c.pcEntry ∧ e.opcode = c.opcode
  | _ => e = ⟨c.byteOffset, c.pcEntry, c.opcode, ioSchedEncodeNbytes c.nBytes⟩

/-- Everything has been stored once the publish step is reached. -/
theorem written_iff {c : Call} {e : IoRequest} (h : c.pc = .publish ∨ c.pc.inEnqueue = false) :
    Written c e ↔ e = ⟨c.byteOffset, c.pcEntry, c.opcode, ioSchedEncodeNbytes c.nBytes⟩ := by
  unfold Written
  cases hc : c.pc <;> simp_all [CallPc.inEnqueue]

structure CallInv (r : Ring) (s : State) : Prop where
  tail_eq : s.prodTail = BitVec.ofNat 32 s.claimed
  head_eq : s.consHead = BitVec.ofNat 32 s.retired
  slot_eq : ∀ g < s.claimed, (s.calls g).slot = BitVec.ofNat 32 g
  keyed : ∀ g < s.claimed, r.keyed (s.calls g).byteOffset
  retired_published : ∀ g < s.retired, published s g
  window : ∀ g < s.claimed, (s.calls g).pc ≠ .full → g < s.retired + r.capacity
  written : ∀ g < s.claimed, s.retired ≤ g → Written (s.calls g) (s.entries (cell r g))
  stamped : Counter.Latest r.capacityLog (published s) s.prodSeq

structure Batch (r : Ring) (s : State) : Prop where
  base_eq : s.sched.base = BitVec.ofNat 32 s.retired
  room : s.sched.acc ≤ r.batchRoom
  log : s.drained.length = s.retired + s.sched.acc
  got : ∀ j < s.sched.acc, published s (s.retired+j) ∧
    s.sched.buf j = request (s.calls (s.retired+j))

def scanStart (s : State) : ScanFor → Nat
  | .exit => s.retired
  | .more _ => s.retired + s.sched.acc

def ScanOk (r : Ring) (s : State) : ScanFor → Prop
  | .exit => s.sched.acc = 0 ∧ s.shutdown ≠ 0#32
  | .more ns => 0 < s.sched.acc ∧ r.kernel = .write ∧ 64 ≤ ns

def PhaseOk (r : Ring) (s : State) : Phase → Prop
  | .top => s.drained.length = s.retired ∧ s.submitted = s.retired
  | .tail => Batch r s ∧ s.submitted = s.retired
  | .probe roundMax ready =>
    (Batch r s ∧ s.submitted = s.retired) ∧ roundMax ≤ kSchedThreads ∧
    s.sched.acc + roundMax ≤ r.batchRoom ∧
    s.retired + s.sched.acc + roundMax ≤ s.claimed ∧
    ∀ i, ready i = some true → i < roundMax ∧ published s (s.retired + s.sched.acc + i)
  | .fetch avail loaded =>
    (Batch r s ∧ s.submitted = s.retired) ∧ 0 < avail ∧ avail ≤ kSchedThreads ∧
    s.sched.acc + avail ≤ r.batchRoom ∧
    ∀ i < avail, published s (s.retired + s.sched.acc + i) ∧ (loaded i = true →
      s.sched.buf (s.sched.acc+i) = request (s.calls (s.retired + s.sched.acc + i)))
  | .branch avail => (Batch r s ∧ s.submitted = s.retired) ∧ (avail ≠ 0 → 0 < s.sched.acc)
  | .flag seen =>
    (Batch r s ∧ s.submitted = s.retired) ∧ s.sched.acc = 0 ∧
    ∀ i, seen i = some true → s.shutdown ≠ 0#32
  | .scanTail why => (Batch r s ∧ s.submitted = s.retired) ∧ ScanOk r s why
  | .scan why pending i =>
    (Batch r s ∧ s.submitted = s.retired) ∧ ScanOk r s why ∧ i ≤ pending ∧
    pending ≤ scanMax r s.sched why ∧ scanStart s why + pending ≤ s.claimed ∧
    ∀ j < i, published s (scanStart s why + j)
  | .adapt _ => (Batch r s ∧ s.submitted = s.retired) ∧ 0 < s.sched.acc ∧ r.kernel = .write
  | .submit => (Batch r s ∧ s.submitted = s.retired) ∧ 0 < s.sched.acc
  | .notify seqDone flagDone =>
    Batch r s ∧ 0 < s.sched.acc ∧ s.submitted = s.drained.length ∧
    ∀ j < s.sched.acc, s.seqStored (s.retired+j) = seqDone j ∧
      s.flagStored (s.retired+j) = flagDone j
  | .advance =>
    Batch r s ∧ 0 < s.sched.acc ∧ s.submitted = s.drained.length ∧
    ∀ j < s.sched.acc, s.flagStored (s.retired+j) = true
  | .exited => (Batch r s ∧ s.submitted = s.retired) ∧ ScanOk r s .exit
  | .torn => (Batch r s ∧ s.submitted = s.retired) ∧ ScanOk r s .exit

structure Inv (r : Ring) (s : State) : Prop extends CallInv r s where
  few : unfinished s < 2^31
  log_eq : s.drained = (List.range s.drained.length).map fun g => request (s.calls g)
  drained_published : ∀ g < s.drained.length, published s g
  notified : ∀ g < s.retired, s.seqStored g = true ∧ s.flagStored g = true
  stored_lt : ∀ g, s.seqStored g = true → g < s.submitted
  flag_seq : ∀ g, s.flagStored g = true → s.seqStored g = true
  submitted_le : s.submitted ≤ s.drained.length
  doneStamped : Counter.Latest r.capacityLog (fun g => s.seqStored g = true) s.doneSeq
  phase_ok : PhaseOk r s s.sched.phase

/-- Calls past the end of the ring all wait at the full check. -/
theorem CallInv.span (h : CallInv r s) (hf : unfinished s < 2^31) :
    s.claimed < s.retired + 2^32 := by
  have hc := capacity_le r
  rcases Nat.le_total s.claimed (s.retired + r.capacity) with hle | hge
  · omega
  · obtain ⟨m, hm⟩ := Nat.exists_eq_add_of_le hge
    have hall : ((List.range m).map (s.retired + r.capacity + ·)).countP
        (fun g => (s.calls g).pc.inEnqueue) = m := by
      rw [List.countP_eq_length.mpr, List.length_map, List.length_range]
      intro g hg
      obtain ⟨i, hi, rfl⟩ := List.mem_map.mp hg
      have hi' := List.mem_range.mp hi
      have hfull : (s.calls (s.retired + r.capacity + i)).pc = .full := by
        by_contra hne
        have := h.window _ (by omega) hne
        omega
      rw [hfull]
      rfl
    have : m ≤ unfinished s := by
      rw [unfinished, hm, List.range_add, List.countP_append, hall]
      omega
    omega

theorem retired_le_of_inEnqueue (h : CallInv r s) (hg : (s.calls g).pc.inEnqueue = true) :
    s.retired ≤ g := by
  by_contra hlt
  have := (h.retired_published g (by omega)).2
  rw [hg] at this
  cases this

theorem published_setPc (pc : CallPc) (hpc : pc.inEnqueue = (s.calls g).pc.inEnqueue) (g' : Nat) :
    published (s.setPc g pc) g' ↔ published s g' := by
  unfold published
  by_cases h : g' = g
  · subst h
    rw [setPc_pc_self, hpc]
    rfl
  · rw [setPc_calls_of_ne s pc h]
    rfl

/-- A step of one call: what has to be shown of the memories it may store to. -/
theorem CallInv.setPc (h : CallInv r s) {pc : CallPc} {entries : BitVec 32 → IoRequest}
    {flags prodSeq : BitVec 32 → BitVec 32} (hl : g < s.retired + r.capacity)
    (hpub : ∀ g', published s g' → published (s.setPc g pc) g')
    (hw : ∀ g' < s.claimed, s.retired ≤ g' →
      Written ((s.setPc g pc).calls g') (entries (cell r g')))
    (hs : Counter.Latest r.capacityLog (published (s.setPc g pc)) prodSeq) :
    CallInv r { s.setPc g pc with entries := entries, doneFlags := flags, prodSeq := prodSeq } where
  tail_eq := h.tail_eq
  head_eq := h.head_eq
  slot_eq g' hg' := by
    rw [setPc_calls]
    exact h.slot_eq g' hg'
  keyed g' hg' := by
    rw [setPc_calls]
    exact h.keyed g' hg'
  retired_published g' hg' := hpub g' (h.retired_published g' hg')
  window g' hg' hf := by
    by_cases he : g' = g
    · exact he ▸ hl
    · rw [setPc_calls_of_ne s pc he] at hf
      exact h.window g' hg' hf
  written := hw
  stamped := hs

/-- A step inside `io_sched_enqueue` after the full check: the call's own cell of
`entries` is the only one that may change. -/
theorem CallInv.move (h : CallInv r s) {pc : CallPc} {e : IoRequest}
    {flags : BitVec 32 → BitVec 32} (hin : (s.calls g).pc.inEnqueue = true)
    (hpc : pc.inEnqueue = true) (hl : g < s.retired + r.capacity)
    (hw : Written { s.calls g with pc := pc } e) :
    CallInv r { s.setPc g pc with
      entries := update s.entries (cell r g) e, doneFlags := flags } := by
  have hlo := retired_le_of_inEnqueue h hin
  have hpub := published_setPc (s := s) (g := g) pc (hpc.trans hin.symm)
  refine h.setPc hl (fun g' => (hpub g').mpr) ?_ (h.stamped.congr fun g' => (hpub g').symm)
  intro g' hg' hlo'
  by_cases he : g' = g
  · subst he
    rw [setPc_calls, if_pos rfl, update_self]
    exact hw
  · rw [setPc_calls_of_ne s pc he]
    by_cases hf : (s.calls g').pc = .full
    · simp [Written, hf]
    · rw [update_of_ne (cell_ne hlo' hlo (h.window g' hg' hf) hl he)]
      exact h.written g' hg' hlo'

theorem CallInv.stay (h : CallInv r s) {pc : CallPc} {flags : BitVec 32 → BitVec 32}
    (hin : (s.calls g).pc.inEnqueue = true) (hpc : pc.inEnqueue = true)
    (hl : g < s.retired + r.capacity)
    (hw : Written { s.calls g with pc := pc } (s.entries (cell r g))) :
    CallInv r { s.setPc g pc with doneFlags := flags } := by
  have hm := @CallInv.move r s g h pc (s.entries (cell r g)) flags hin hpc hl hw
  rwa [update_eq_self] at hm

theorem published_publish (hg : g < s.claimed) (g' : Nat) :
    published (s.setPc g .returned) g' ↔ g' = g ∨ published s g' := by
  unfold published
  by_cases he : g' = g
  · subst he
    rw [setPc_pc_self]
    exact ⟨fun _ => .inl rfl, fun _ => ⟨hg, rfl⟩⟩
  · rw [setPc_calls_of_ne s _ he]
    exact ⟨.inr, fun h => h.resolve_left he⟩

theorem CallInv.lt_of_published (h : CallInv r s) (hg : published s g) :
    g < s.retired + r.capacity :=
  h.window g hg.1 fun hf => by simpa [hf, CallPc.inEnqueue] using hg.2

theorem CallInv.publish (h : CallInv r s) (hg : g < s.claimed)
    (hpc : (s.calls g).pc = .publish) :
    CallInv r { s.setPc g .returned with
      prodSeq := update s.prodSeq (cell r g) (BitVec.ofNat 32 (g+1)) } := by
  have hl := h.window g hg (by rw [hpc]; simp)
  have hlo := retired_le_of_inEnqueue h (by rw [hpc]; rfl)
  refine h.setPc hl (fun g' hg' => (published_publish hg g').mpr (.inr hg')) ?_ ?_
  · intro g' hg' hlo'
    have hw := h.written g' hg' hlo'
    by_cases he : g' = g
    · subst he
      rw [setPc_calls, if_pos rfl]
      exact (written_iff (.inr rfl)).mpr ((written_iff (.inl hpc)).mp hw)
    · rwa [setPc_calls_of_ne s _ he]
  · refine Counter.Latest.store (capacityLog_lt r) h.stamped ?_ (published_publish hg)
    intro g' hg' hr
    by_contra hlt
    have hlap := Counter.lap_le hr.symm (Nat.lt_of_not_le hlt)
    have := h.lt_of_published hg'
    unfold Ring.capacity at this
    omega

theorem CallInv.wait (h : CallInv r s) {pc : CallPc} {flags : BitVec 32 → BitVec 32}
    (hg : published s g) (hpc : pc.inEnqueue = false) :
    CallInv r { s.setPc g pc with doneFlags := flags } := by
  have hpub := published_setPc (s := s) (g := g) pc (hpc.trans hg.2.symm)
  refine h.setPc (h.lt_of_published hg) (fun g' => (hpub g').mpr) ?_
    (h.stamped.congr fun g' => (hpub g').symm)
  intro g' hg' hlo
  have hw := h.written g' hg' hlo
  by_cases he : g' = g
  · subst he
    rw [setPc_calls, if_pos rfl]
    exact (written_iff (.inr hpc)).mpr ((written_iff (.inr hg.2)).mp hw)
  · rwa [setPc_calls_of_ne s pc he]

section
variable {api : Api} {byteOffset nBytes pcEntry : BitVec 64} {opcode : BitVec 8}

theorem claim_calls_of_lt {g' : Nat} (h : g' < s.claimed) :
    (claim s api byteOffset nBytes pcEntry opcode).calls g' = s.calls g' :=
  update_of_ne (Nat.ne_of_lt h) _ _

theorem published_claim (g' : Nat) :
    published (claim s api byteOffset nBytes pcEntry opcode) g' ↔ published s g' := by
  unfold published
  rcases Nat.lt_trichotomy g' s.claimed with hlt | rfl | hgt
  · rw [claim_calls_of_lt hlt]
    exact ⟨fun h => ⟨hlt, h.2⟩, fun h => ⟨Nat.lt_succ_of_lt hlt, h.2⟩⟩
  · simp [claim, CallPc.inEnqueue]
  · exact ⟨fun h => absurd h.1 (by simp only [claim]; omega), fun h => absurd h.1 (by omega)⟩

theorem CallInv.claim (h : CallInv r s) (hk : r.keyed byteOffset) :
    CallInv r (claim s api byteOffset nBytes pcEntry opcode) where
  tail_eq := by
    have ht : s.prodTail + 1#32 = BitVec.ofNat 32 (s.claimed+1) := by
      rw [h.tail_eq]
      exact (Counter.ofNat_succ _).symm
    exact ht
  head_eq := h.head_eq
  slot_eq g hg := by
    rcases Nat.lt_succ_iff_lt_or_eq.mp hg with hlt | rfl
    · rw [claim_calls_of_lt hlt]
      exact h.slot_eq g hlt
    · simp [RingMachine.claim, h.tail_eq]
  keyed g hg := by
    rcases Nat.lt_succ_iff_lt_or_eq.mp hg with hlt | rfl
    · rw [claim_calls_of_lt hlt]
      exact h.keyed g hlt
    · simpa [RingMachine.claim] using hk
  retired_published g hg := (published_claim g).mpr (h.retired_published g hg)
  window g hg hf := by
    rcases Nat.lt_succ_iff_lt_or_eq.mp hg with hlt | rfl
    · rw [claim_calls_of_lt hlt] at hf
      exact h.window g hlt hf
    · simp [RingMachine.claim] at hf
  written g hg hlo := by
    rcases Nat.lt_succ_iff_lt_or_eq.mp hg with hlt | rfl
    · rw [claim_calls_of_lt hlt]
      exact h.written g hlt hlo
    · simp [RingMachine.claim, Written]
  stamped := h.stamped.congr fun g => (published_claim g).symm
end

theorem CallInv.callStep (h : CallInv r s) (hf : unfinished s < 2^31) (hg : g < s.claimed)
    (hs : callStep r s g = some t) : CallInv r t := by
  have hslot := h.slot_eq g hg
  have hwin := h.window g hg
  have hw := h.written g hg
  have hlo : (s.calls g).pc.inEnqueue = true → s.retired ≤ g := retired_le_of_inEnqueue h
  unfold RingMachine.callStep at hs
  simp only [hslot, index_ofNat] at hs
  split at hs <;> rename_i hpc <;> simp only [hpc] at hwin hw hlo
  case h_1 =>
    split at hs <;> cases hs
    · exact h
    · rename_i hroom
      have hlo' := hlo rfl
      have hspan := h.span hf
      rw [h.head_eq, Counter.toNat_sub hlo' (by omega)] at hroom
      exact h.stay (by rw [hpc]; rfl) rfl (by omega) trivial
  case h_2 =>
    cases hs
    exact h.stay (by rw [hpc]; rfl) rfl (hwin (by simp)) trivial
  case h_3 =>
    cases hs
    exact h.move (by rw [hpc]; rfl) rfl (hwin (by simp)) rfl
  case h_4 =>
    cases hs
    have hw' := hw (hlo rfl)
    simp only [Written, hpc] at hw'
    exact h.move (by rw [hpc]; rfl) rfl (hwin (by simp)) ⟨hw', rfl⟩
  case h_5 =>
    cases hs
    have hw' := hw (hlo rfl)
    simp only [Written, hpc] at hw'
    exact h.move (by rw [hpc]; rfl) rfl (hwin (by simp)) ⟨hw'.1, hw'.2, rfl⟩
  case h_6 =>
    cases hs
    have hw' := hw (hlo rfl)
    simp only [Written, hpc] at hw'
    refine h.move (by rw [hpc]; rfl) rfl (hwin (by simp)) ?_
    exact (written_iff (.inl rfl)).mpr (by simp [hw'])
  case h_7 =>
    cases hs
    rw [← Counter.ofNat_succ]
    exact h.publish hg hpc
  case h_8 =>
    have hp : published s g := ⟨hg, by rw [hpc]; rfl⟩
    split at hs
    · split at hs <;> cases hs
      · exact h
      · exact h.wait hp rfl
    · split at hs <;> cases hs
      · exact h
      · exact h.wait hp rfl
    · cases hs
  case h_9 =>
    cases hs
    exact h.wait ⟨hg, by rw [hpc]; rfl⟩ rfl
  case h_10 => cases hs

/-- A call spins or moves its own program counter, and stores to three arrays at most. -/
theorem callStep_shape (hs : callStep r s g = some t) : t = s ∨
    ∃ (pc : CallPc) (entries : BitVec 32 → IoRequest) (flags prodSeq : BitVec 32 → BitVec 32),
      ((s.calls g).pc.inEnqueue = false → pc.inEnqueue = false) ∧
      t = { s.setPc g pc with entries := entries, doneFlags := flags, prodSeq := prodSeq } := by
  simp only [RingMachine.callStep] at hs
  split at hs <;> rename_i hpc
  case h_1 =>
    split at hs <;> cases hs
    · exact .inl rfl
    · exact .inr ⟨_, _, _, _, by simp [hpc, CallPc.inEnqueue], rfl⟩
  case h_8 =>
    split at hs
    · split at hs <;> cases hs
      · exact .inl rfl
      · exact .inr ⟨_, _, _, _, fun _ => rfl, rfl⟩
    · split at hs <;> cases hs
      · exact .inl rfl
      · exact .inr ⟨_, _, _, _, fun _ => rfl, rfl⟩
    · cases hs
  case h_10 => cases hs
  all_goals
    cases hs
    exact .inr ⟨_, _, _, _, by simp [hpc, CallPc.inEnqueue], rfl⟩

theorem callStep_sched (hs : callStep r s g = some t) : t.sched = s.sched := by
  obtain rfl | ⟨_, _, _, _, -, rfl⟩ := callStep_shape hs <;> rfl

structure Frame (s t : State) : Prop where
  base_eq : t.sched.base = s.sched.base
  acc_eq : t.sched.acc = s.sched.acc
  buf_eq : t.sched.buf = s.sched.buf
  retired_eq : t.retired = s.retired
  drained_eq : t.drained = s.drained
  submitted_eq : t.submitted = s.submitted
  seqStored_eq : t.seqStored = s.seqStored
  flagStored_eq : t.flagStored = s.flagStored
  doneSeq_eq : t.doneSeq = s.doneSeq
  claimed_le : s.claimed ≤ t.claimed
  shutdown_keeps : s.shutdown ≠ 0#32 → t.shutdown ≠ 0#32
  published_keeps : ∀ g, published s g → published t g ∧ request (t.calls g) = request (s.calls g)

namespace Frame

theorem batch (f : Frame s t) (h : Batch r s) : Batch r t where
  base_eq := by rw [f.base_eq, f.retired_eq, h.base_eq]
  room := f.acc_eq ▸ h.room
  log := by rw [f.drained_eq, f.acc_eq, f.retired_eq, h.log]
  got j hj := by
    rw [f.buf_eq, f.retired_eq]
    obtain ⟨hp, hb⟩ := h.got j (f.acc_eq ▸ hj)
    obtain ⟨hp', hr⟩ := f.published_keeps _ hp
    exact ⟨hp', hb.trans hr.symm⟩

theorem idle (f : Frame s t) (h : Batch r s ∧ s.submitted = s.retired) :
    Batch r t ∧ t.submitted = t.retired :=
  ⟨f.batch h.1, by rw [f.submitted_eq, f.retired_eq, h.2]⟩

theorem scanOk (f : Frame s t) {why : ScanFor} (h : ScanOk r s why) : ScanOk r t why := by
  cases why with
  | exit => exact ⟨f.acc_eq ▸ h.1, f.shutdown_keeps h.2⟩
  | more ns => exact ⟨f.acc_eq ▸ h.1, h.2⟩

theorem scanStart (f : Frame s t) (why : ScanFor) : scanStart t why = scanStart s why := by
  cases why <;> simp only [RingInvariant.scanStart, f.retired_eq, f.acc_eq]

theorem scanMax (f : Frame s t) (why : ScanFor) :
    scanMax r t.sched why = scanMax r s.sched why := by
  cases why <;> simp only [RingMachine.scanMax, f.acc_eq]

theorem phaseOk (f : Frame s t) {p : Phase} (h : PhaseOk r s p) : PhaseOk r t p := by
  have hle := f.claimed_le
  cases p with
  | top =>
    exact ⟨by rw [f.drained_eq, f.retired_eq, h.1], by rw [f.submitted_eq, f.retired_eq, h.2]⟩
  | tail => exact f.idle h
  | probe roundMax ready =>
    obtain ⟨hi, hm, hr, hc, hp⟩ := h
    refine ⟨f.idle hi, hm, f.acc_eq ▸ hr, by rw [f.acc_eq, f.retired_eq]; omega, ?_⟩
    intro i hr'
    rw [f.acc_eq, f.retired_eq]
    exact ⟨(hp i hr').1, (f.published_keeps _ (hp i hr').2).1⟩
  | fetch avail loaded =>
    obtain ⟨hi, ha, hm, hr, hp⟩ := h
    refine ⟨f.idle hi, ha, hm, f.acc_eq ▸ hr, ?_⟩
    intro i hi'
    rw [f.acc_eq, f.buf_eq, f.retired_eq]
    obtain ⟨hp', hb⟩ := hp i hi'
    obtain ⟨hp'', hr⟩ := f.published_keeps _ hp'
    exact ⟨hp'', fun hl => (hb hl).trans hr.symm⟩
  | branch avail => exact ⟨f.idle h.1, f.acc_eq ▸ h.2⟩
  | flag seen =>
    exact ⟨f.idle h.1, f.acc_eq ▸ h.2.1, fun i hi => f.shutdown_keeps (h.2.2 i hi)⟩
  | scanTail why => exact ⟨f.idle h.1, f.scanOk h.2⟩
  | scan why pending i =>
    obtain ⟨hi, ho, hip, hm, hc, hp⟩ := h
    refine ⟨f.idle hi, f.scanOk ho, hip, f.scanMax why ▸ hm, ?_, ?_⟩
    · rw [f.scanStart]
      omega
    · intro j hj
      rw [f.scanStart]
      exact (f.published_keeps _ (hp j hj)).1
  | adapt ns => exact ⟨f.idle h.1, f.acc_eq ▸ h.2.1, h.2.2⟩
  | submit => exact ⟨f.idle h.1, f.acc_eq ▸ h.2⟩
  | notify seqDone flagDone =>
    obtain ⟨hb, hn, hs, hd⟩ := h
    refine ⟨f.batch hb, ?_⟩
    rw [f.acc_eq, f.submitted_eq, f.drained_eq, f.seqStored_eq, f.flagStored_eq, f.retired_eq]
    exact ⟨hn, hs, hd⟩
  | advance =>
    obtain ⟨hb, hn, hs, hd⟩ := h
    refine ⟨f.batch hb, ?_⟩
    rw [f.acc_eq, f.submitted_eq, f.drained_eq, f.flagStored_eq, f.retired_eq]
    exact ⟨hn, hs, hd⟩
  | exited => exact ⟨f.idle h.1, f.scanOk h.2⟩
  | torn => exact ⟨f.idle h.1, f.scanOk h.2⟩

/-- A step of call `g`, which leaves its enqueue only forwards. -/
theorem setPc {pc : CallPc} {entries : BitVec 32 → IoRequest}
    {flags prodSeq : BitVec 32 → BitVec 32}
    (hpc : (s.calls g).pc.inEnqueue = false → pc.inEnqueue = false) :
    Frame s { s.setPc g pc with entries := entries, doneFlags := flags, prodSeq := prodSeq } := by
  refine ⟨rfl, rfl, rfl, rfl, rfl, rfl, rfl, rfl, rfl, le_refl _, id, ?_⟩
  intro g' hg'
  refine ⟨⟨hg'.1, ?_⟩, ?_⟩
  · rw [setPc_calls]
    by_cases he : g' = g
    · subst he
      simpa using hpc hg'.2
    · simpa [he] using hg'.2
  · rw [setPc_calls]
    rfl

theorem callStep (hs : callStep r s g = some t) : Frame s t := by
  obtain rfl | ⟨pc, entries, flags, prodSeq, hpc, rfl⟩ := callStep_shape hs
  · exact ⟨rfl, rfl, rfl, rfl, rfl, rfl, rfl, rfl, rfl, le_refl _, id, fun _ h => ⟨h, rfl⟩⟩
  · exact setPc hpc

theorem claim {api : Api} {byteOffset nBytes pcEntry : BitVec 64} {opcode : BitVec 8} :
    Frame s (claim s api byteOffset nBytes pcEntry opcode) := by
  refine ⟨rfl, rfl, rfl, rfl, rfl, rfl, rfl, rfl, rfl, Nat.le_succ _, id, fun g hg => ?_⟩
  exact ⟨(published_claim g).mpr hg, by rw [claim_calls_of_lt hg.1]⟩

end Frame

theorem Inv.frame (h : Inv r s) (f : Frame s t) (hc : CallInv r t) (hf : unfinished t < 2^31)
    (hp : PhaseOk r s t.sched.phase) : Inv r t where
  toCallInv := hc
  few := hf
  log_eq := by
    rw [f.drained_eq]
    refine h.log_eq.trans (List.map_congr_left fun g hg => ?_)
    exact (f.published_keeps g (h.drained_published g (List.mem_range.mp hg))).2.symm
  drained_published g hg := by
    rw [f.drained_eq] at hg
    exact (f.published_keeps g (h.drained_published g hg)).1
  notified g hg := by
    rw [f.seqStored_eq, f.flagStored_eq]
    exact h.notified g (f.retired_eq ▸ hg)
  stored_lt := by
    rw [f.seqStored_eq, f.submitted_eq]
    exact h.stored_lt
  flag_seq := by
    rw [f.seqStored_eq, f.flagStored_eq]
    exact h.flag_seq
  submitted_le := by
    rw [f.submitted_eq, f.drained_eq]
    exact h.submitted_le
  doneStamped := by
    rw [f.seqStored_eq, f.doneSeq_eq]
    exact h.doneStamped
  phase_ok := f.phaseOk hp

end Shaper.RingInvariant
