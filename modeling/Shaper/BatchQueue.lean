import Mathlib.Data.List.Nodup
import Mathlib.Data.List.Perm.Subperm
import Shaper.Lib.Counter
import Shaper.Lib.Exec
import Shaper.Lib.PhaseRing

/-! `sched_batch_merged_rw` on a queue pair of its own, step by step against a device that
fetches in order and completes what it has fetched in any order. `sched_batch_rw`
handles the queues in the same way. -/
namespace Shaper.BatchQueue
open Function Lib Lib.Exec Lib.PhaseRing

structure Setup where
  log : Nat
  log_le : log ≤ 16

def Setup.qs (p : Setup) : Nat := 2^p.log

structure Job where
  count : Nat
  baseCid : BitVec 16
  baseTail : BitVec 32
  deriving DecidableEq

inductive Pc where
  | idle
  | copy (job : Job) (i : Nat)
  | ring (job : Job)
  | storeTail (job : Job)
  | loadHead (job : Job)
  | poll (job : Job) (cqBase : BitVec 32)
  | storeCqHead (job : Job) (cqBase : BitVec 32)
  | ringCq (job : Job) (cqBase : BitVec 32)
  | storeHead (job : Job)
  deriving DecidableEq

/-- The queue pair. The commands are numbered as they are copied; a slot holds the number of
its command. `phases` are the phase bits of the completion queue, `fetched` and the
list `completed` what the device has done; `cids`, `copied` and `returned` are history:
the cid of every command, how many were copied and how many belong to calls that have
returned. -/
structure State where
  cidTicket : BitVec 32
  tail : BitVec 32
  head : BitVec 32
  cqHead : BitVec 32
  sqDb : BitVec 32
  cqDb : BitVec 32
  slots : Nat → Option Nat
  phases : Nat → Bool
  pc : Pc
  fetched : Nat
  outstanding : List (Option Nat)
  completed : List (Option Nat)
  cids : Nat → BitVec 16
  copied : Nat
  returned : Nat

def init : State :=
  ⟨0, 0, 0, 0, 0, 0, fun _ => none, fun _ => false, .idle, 0, [], [], fun _ => 0, 0, 0⟩

def Setup.mask (p : Setup) : BitVec 32 := BitVec.ofNat 32 p.qs - 1#32

def call (s : State) (count : Nat) : State :=
  { s with
    cidTicket := s.cidTicket + BitVec.ofNat 32 count
    pc := .copy ⟨count, s.cidTicket.setWidth 16, s.tail⟩ 0 }

def target (job : Job) (cqBase : BitVec 32) : BitVec 32 := cqBase + BitVec.ofNat 32 job.count - 1#32

def expectedPhase (p : Setup) (job : Job) (cqBase : BitVec 32) : Bool :=
  (~~~(target job cqBase >>> p.log)) &&& 1#32 != 0#32

def Arrived (p : Setup) (s : State) (job : Job) (cqBase : BitVec 32) : Prop :=
  s.phases (target job cqBase &&& p.mask).toNat = expectedPhase p job cqBase

instance (p : Setup) (s : State) (job : Job) (cqBase : BitVec 32) :
    Decidable (Arrived p s job cqBase) :=
  inferInstanceAs (Decidable (_ = _))

def hostStep (p : Setup) (s : State) : Option State :=
  match s.pc with
  | .idle => none
  | .copy job i =>
    if i < job.count then
      some { s with
        slots :=
          update s.slots ((job.baseTail + BitVec.ofNat 32 i) &&& p.mask).toNat (some s.copied)
        cids := update s.cids s.copied (job.baseCid + BitVec.ofNat 16 i)
        copied := s.copied + 1
        pc := .copy job (i+1) }
    else some { s with pc := .ring job }
  | .ring job =>
    some { s with
      sqDb := (job.baseTail + BitVec.ofNat 32 job.count) &&& p.mask
      pc := .storeTail job }
  | .storeTail job =>
    some { s with tail := job.baseTail + BitVec.ofNat 32 job.count, pc := .loadHead job }
  | .loadHead job => some { s with pc := .poll job s.cqHead }
  | .poll job cqBase =>
    if Arrived p s job cqBase then some { s with pc := .storeCqHead job cqBase } else none
  | .storeCqHead job cqBase =>
    some { s with cqHead := cqBase + BitVec.ofNat 32 job.count, pc := .ringCq job cqBase }
  | .ringCq job cqBase =>
    some { s with cqDb := (cqBase + BitVec.ofNat 32 job.count) &&& p.mask, pc := .storeHead job }
  | .storeHead job =>
    some { s with
      head := job.baseTail + BitVec.ofNat 32 job.count
      returned := s.returned + job.count
      pc := .idle }

inductive Step (p : Setup) (s : State) : State → Prop where
  | call (count : Nat) : s.pc = .idle → 1 ≤ count → count < p.qs → Step p s (call s count)
  | host {s' : State} : hostStep p s = some s' → Step p s s'
  | fetch : s.fetched % p.qs ≠ s.sqDb.toNat → Step p s { s with
      outstanding := s.slots (s.fetched % p.qs) :: s.outstanding
      fetched := s.fetched + 1 }
  | post (cmd : Option Nat) : cmd ∈ s.outstanding → Step p s { s with
      outstanding := s.outstanding.erase cmd
      completed := cmd :: s.completed
      phases := update s.phases (s.completed.length % p.qs) (tag p.qs s.completed.length) }

inductive Reach (p : Setup) : State → Prop where
  | init : Reach p init
  | step {s s' : State} : Reach p s → Step p s s' → Reach p s'

def Pc.job : Pc → Option Job
  | .idle => none
  | .copy job _ => some job
  | .ring job => some job
  | .storeTail job => some job
  | .loadHead job => some job
  | .poll job _ => some job
  | .storeCqHead job _ => some job
  | .ringCq job _ => some job
  | .storeHead job => some job

structure Safe (p : Setup) (s : State) : Prop where
  waited : ∀ n < s.returned, some n ∈ s.completed
  kept : ∀ job i, s.pc = .copy job i → i < job.count → ∀ n,
    s.slots ((job.baseTail + BitVec.ofNat 32 i) &&& p.mask).toNat = some n →
    some n ∈ s.outstanding ++ s.completed
  polled : ∀ job cqBase, s.pc = .poll job cqBase →
    (Arrived p s job cqBase ↔ ∀ n < s.returned + job.count, some n ∈ s.completed)
  equal : s.pc = .idle → s.tail = s.head ∧ s.head = s.cqHead
  cids : ∀ i j, i < j → s.returned + j < s.copied →
    s.cids (s.returned + i) ≠ s.cids (s.returned + j)

section arithmetic
variable (p : Setup)

theorem Setup.qs_pos : 0 < p.qs := Nat.two_pow_pos p.log

theorem Setup.qs_le : p.qs ≤ 65536 := Nat.pow_le_pow_right (by omega) p.log_le

theorem Setup.toNat_mask : p.mask.toNat = 2^p.log - 1 := by
  have hpos := p.qs_pos
  have hle := p.qs_le
  unfold Setup.mask
  unfold Setup.qs at *
  bv_omega

theorem and_mask (n : Nat) : (BitVec.ofNat 32 n &&& p.mask).toNat = n % p.qs := by
  have hdvd : 2^p.log ∣ 2^32 := Nat.pow_dvd_pow 2 (by have := p.log_le; omega)
  rw [BitVec.toNat_and, p.toNat_mask, Nat.and_two_pow_sub_one_eq_mod, BitVec.toNat_ofNat,
    Nat.mod_mod_of_dvd _ hdvd]
  rfl

/-- The bit above the mask says which lap a 32-bit position is in. -/
theorem lap_bit (n : Nat) :
    ((~~~(BitVec.ofNat 32 n >>> p.log)) &&& 1#32 != 0#32) = tag p.qs n := by
  have hshift : (BitVec.ofNat 32 n >>> p.log).toNat % 2 = n / p.qs % 2 := by
    have hdvd : 2^p.log * 2 ∣ 2^32 :=
      Nat.pow_dvd_pow 2 (show p.log + 1 ≤ 32 by have := p.log_le; omega)
    rw [BitVec.toNat_ushiftRight, BitVec.toNat_ofNat, Nat.shiftRight_eq_div_pow, Setup.qs,
      ← Nat.mod_mul_right_div_self, Nat.mod_mod_of_dvd _ hdvd, Nat.mod_mul_right_div_self]
  generalize BitVec.ofNat 32 n >>> p.log = x at hshift
  unfold tag
  rw [← hshift]
  have hbit : ((~~~x) &&& 1#32).toNat = (x.toNat + 1) % 2 := by
    have hx := x.isLt
    rw [BitVec.toNat_and, BitVec.toNat_not]
    change (2^32 - 1 - x.toNat) &&& 1 = _
    rw [Nat.and_one_is_mod]
    omega
  rcases Nat.mod_two_eq_zero_or_one x.toNat with h | h
  · have hone : ((~~~x) &&& 1#32) = 1#32 :=
      BitVec.eq_of_toNat_eq (hbit.trans (by change _ = 1; omega))
    rw [h, hone]
    rfl
  · have hzero : ((~~~x) &&& 1#32) = 0#32 :=
      BitVec.eq_of_toNat_eq (hbit.trans (by change _ = 0; omega))
    rw [h, hzero]
    rfl

theorem target_ofNat {job : Job} (h : 1 ≤ job.count) (n : Nat) :
    target job (BitVec.ofNat 32 n) = BitVec.ofNat 32 (n + job.count - 1) := by
  obtain ⟨c, hc⟩ : ∃ c, job.count = c + 1 := ⟨job.count - 1, by omega⟩
  unfold target
  rw [hc, ← BitVec.ofNat_add, ← Nat.add_assoc, BitVec.ofNat_add _ 1, BitVec.add_sub_cancel,
    Nat.add_sub_cancel]

end arithmetic

def Pc.filled : Pc → Nat
  | .idle => 0
  | .copy _ i => i
  | .ring job => job.count
  | .storeTail job => job.count
  | .loadHead job => job.count
  | .poll job _ => job.count
  | .storeCqHead job _ => job.count
  | .ringCq job _ => job.count
  | .storeHead job => job.count

def Pc.shown : Pc → Nat
  | .idle => 0
  | .copy _ _ => 0
  | .ring _ => 0
  | .storeTail job => job.count
  | .loadHead job => job.count
  | .poll job _ => job.count
  | .storeCqHead job _ => job.count
  | .ringCq job _ => job.count
  | .storeHead job => job.count

def Pc.tailMoved : Pc → Nat
  | .idle => 0
  | .copy _ _ => 0
  | .ring _ => 0
  | .storeTail _ => 0
  | .loadHead job => job.count
  | .poll job _ => job.count
  | .storeCqHead job _ => job.count
  | .ringCq job _ => job.count
  | .storeHead job => job.count

def Pc.seen : Pc → Nat
  | .idle => 0
  | .copy _ _ => 0
  | .ring _ => 0
  | .storeTail _ => 0
  | .loadHead _ => 0
  | .poll _ _ => 0
  | .storeCqHead job _ => job.count
  | .ringCq job _ => job.count
  | .storeHead job => job.count

def Pc.cqMoved : Pc → Nat
  | .idle => 0
  | .copy _ _ => 0
  | .ring _ => 0
  | .storeTail _ => 0
  | .loadHead _ => 0
  | .poll _ _ => 0
  | .storeCqHead _ _ => 0
  | .ringCq job _ => job.count
  | .storeHead job => job.count

def Pc.cqBase : Pc → Option (BitVec 32)
  | .poll _ cqBase => some cqBase
  | .storeCqHead _ cqBase => some cqBase
  | .ringCq _ cqBase => some cqBase
  | _ => none

structure Host (p : Setup) (s : State) : Prop where
  job : ∀ job, s.pc.job = some job →
    1 ≤ job.count ∧ job.count < p.qs ∧ s.pc.filled ≤ job.count ∧
    job.baseTail = BitVec.ofNat 32 s.returned
  cqBase : ∀ cqBase, s.pc.cqBase = some cqBase → cqBase = BitVec.ofNat 32 s.returned
  tail : s.tail = BitVec.ofNat 32 (s.returned + s.pc.tailMoved)
  cqHead : s.cqHead = BitVec.ofNat 32 (s.returned + s.pc.cqMoved)
  head : s.head = BitVec.ofNat 32 s.returned
  cid : ∀ job, s.pc.job = some job → ∀ i < s.pc.filled,
    s.cids (s.returned + i) = job.baseCid + BitVec.ofNat 16 i

structure Device (p : Setup) (s : State) : Prop where
  copied : s.copied = s.returned + s.pc.filled
  sqDb : s.sqDb.toNat = (s.returned + s.pc.shown) % p.qs
  done : ∀ n < s.returned + s.pc.seen, some n ∈ s.completed
  fetched : s.fetched ≤ s.returned + s.pc.shown
  all : (s.outstanding ++ s.completed).Perm ((List.range s.fetched).map some)
  slot : ∀ n, s.fetched ≤ n → n < s.copied → s.slots (n % p.qs) = some n
  older : ∀ j n, s.slots j = some n → n < s.copied ∧ n % p.qs = j
  tagged : Tagged p.qs s.phases s.completed.length

theorem host_init (p : Setup) : Host p init where
  job _ h := by cases h
  cqBase _ h := by cases h
  tail := rfl
  cqHead := rfl
  head := rfl
  cid _ h := by cases h

theorem device_init (p : Setup) : Device p init where
  copied := rfl
  sqDb := (Nat.zero_mod _).symm
  done n h := absurd h (Nat.not_lt_zero n)
  fetched := Nat.le_refl _
  all := List.Perm.refl _
  slot n _ h := absurd h (Nat.not_lt_zero n)
  older _ _ h := by cases h
  tagged := tagged_init _

section steps
variable {p : Setup} {s s' : State}

theorem Device.length (h : Device p s) : s.outstanding.length + s.completed.length = s.fetched := by
  have := h.all.length_eq
  simpa only [List.length_append, List.length_map, List.length_range] using this

/-- Every command that was fetched is with the device or complete. -/
theorem Device.mem (h : Device p s) {n : Nat} (hn : n < s.fetched) :
    some n ∈ s.outstanding ++ s.completed :=
  h.all.mem_iff.2 (List.mem_map_of_mem (List.mem_range.2 hn))

/-- With as many completions as the doorbell shows commands nothing is outstanding. -/
theorem Device.mem_completed (h : Device p s) (hall : s.returned + s.pc.shown ≤ s.completed.length)
    {n : Nat} (hn : n < s.returned + s.pc.shown) : some n ∈ s.completed := by
  have hlen := h.length
  have hfetched := h.fetched
  have hnil : s.outstanding = [] := List.eq_nil_of_length_eq_zero (by omega)
  have hmem := h.mem (n := n) (by omega)
  rwa [hnil, List.nil_append] at hmem

/-- Conversely the completions of the commands below a number are that many. -/
theorem le_completed {n : Nat} (hall : ∀ m < n, some m ∈ s.completed) :
    n ≤ s.completed.length := by
  have hsub : (List.range n).map some ⊆ s.completed := by
    intro c hc
    obtain ⟨m, hm, rfl⟩ := List.mem_map.1 hc
    exact hall m (List.mem_range.1 hm)
  have hnodup : ((List.range n).map some).Nodup :=
    List.Nodup.map (Option.some_injective Nat) List.nodup_range
  have := (hnodup.subperm hsub).length_le
  simpa only [List.length_map, List.length_range] using this

theorem Device.seen (h : Device p s) : s.returned + s.pc.seen ≤ s.completed.length :=
  le_completed h.done

theorem Pc.shown_le (pc : Pc) : pc.shown ≤ pc.filled := by
  cases pc with
  | copy job i => exact Nat.zero_le i
  | ring job => exact Nat.zero_le job.count
  | _ => exact Nat.le_refl _

theorem arrived_iff (hh : Host p s) (hd : Device p s) {job : Job} {cqBase : BitVec 32}
    (hpc : s.pc = .poll job cqBase) :
    Arrived p s job cqBase ↔ s.returned + job.count ≤ s.completed.length := by
  obtain ⟨hone, hlt, -, -⟩ := hh.job job (by rw [hpc]; rfl)
  have hbase := hh.cqBase cqBase (by rw [hpc]; rfl)
  have hseen := hd.seen
  have hfetched := hd.fetched
  have hlen := hd.length
  rw [hpc] at hseen hfetched
  dsimp only [Pc.seen, Pc.shown] at hseen hfetched
  unfold Arrived expectedPhase
  rw [hbase, target_ofNat hone, and_mask, lap_bit]
  refine ⟨?_, fun hle => ?_⟩
  · intro harr
    by_contra hgt
    exact hd.tagged.ahead p.qs_pos (by omega) (by omega) harr
  · have hpos : s.completed.length = s.returned + job.count - 1 + 1 := by omega
    have htagged := hd.tagged
    rw [hpos] at htagged
    exact htagged.last p.qs_pos

theorem Host.call {count : Nat} (hh : Host p s) (hidle : s.pc = .idle) (hpos : 1 ≤ count)
    (hlt : count < p.qs) : Host p (call s count) := by
  have htail := hh.tail
  have hcq := hh.cqHead
  rw [hidle] at htail hcq
  exact {
    job := by
      intro job h
      cases h
      exact ⟨hpos, hlt, Nat.zero_le _, htail⟩
    cqBase := fun _ h => by cases h
    tail := htail
    cqHead := hcq
    head := hh.head
    cid := fun _ _ i hi => absurd hi (Nat.not_lt_zero i) }

theorem Device.call {count : Nat} (hd : Device p s) (hidle : s.pc = .idle) :
    Device p (call s count) := by
  have hcopied := hd.copied
  have hdb := hd.sqDb
  have hdone := hd.done
  have hfetched := hd.fetched
  rw [hidle] at hcopied hdb hdone hfetched
  exact { hd with copied := hcopied, sqDb := hdb, done := hdone, fetched := hfetched }

theorem Host.copy {job : Job} {i : Nat} {slots : Nat → Option Nat} (hh : Host p s) (hd : Device p s)
    (hpc : s.pc = .copy job i) (hi : i < job.count) :
    Host p { s with
      slots := slots
      cids := update s.cids s.copied (job.baseCid + BitVec.ofNat 16 i)
      copied := s.copied + 1
      pc := .copy job (i+1) } := by
  obtain ⟨hone, hlt, -, hbase⟩ := hh.job job (by rw [hpc]; rfl)
  have hcopied := hd.copied
  have htail := hh.tail
  have hcq := hh.cqHead
  have hcid := hh.cid job (by rw [hpc]; rfl)
  rw [hpc] at hcopied htail hcq hcid
  exact {
    job := by
      intro job' h
      cases h
      exact ⟨hone, hlt, hi, hbase⟩
    cqBase := fun _ h => by cases h
    tail := htail
    cqHead := hcq
    head := hh.head
    cid := by
      intro job' h j hj
      cases h
      change j < i + 1 at hj
      change update s.cids s.copied _ (s.returned + j) = _
      rw [hcopied]
      by_cases hji : j = i
      · rw [hji]
        exact update_self _ _ _
      · rw [update_of_ne (by change s.returned + j ≠ s.returned + i; omega)]
        exact hcid j (by change j < i; omega) }

/-- The slot that a command is copied to holds, if anything, a command at least a lap older. -/
theorem Device.copy {job : Job} {i : Nat} {cids : Nat → BitVec 16} (hd : Device p s)
    (hpc : s.pc = .copy job i) (hi : i < p.qs) :
    Device p { s with
      slots := update s.slots ((s.returned + i) % p.qs) (some s.copied)
      cids := cids
      copied := s.copied + 1
      pc := .copy job (i+1) } := by
  have hcopied := hd.copied
  have hdb := hd.sqDb
  have hseen := hd.seen
  have hdone := hd.done
  have hfetched := hd.fetched
  have hlen := hd.length
  rw [hpc] at hcopied hdb hseen hdone hfetched
  dsimp only [Pc.filled, Pc.seen] at hcopied hseen
  have hslot := hd.slot
  have holder := hd.older
  rw [← hcopied]
  exact { hd with
    copied := by change s.copied + 1 = s.returned + (i + 1); omega
    sqDb := hdb
    done := hdone
    fetched := hfetched
    slot := by
      intro n hn hlt
      change s.fetched ≤ n at hn
      change n < s.copied + 1 at hlt
      change update s.slots _ _ _ = _
      by_cases heq : n = s.copied
      · rw [heq]
        exact update_self _ _ _
      · have hne : n % p.qs ≠ s.copied % p.qs := by
          intro he
          have := Counter.lap_le he (by omega)
          omega
        rw [update_of_ne hne]
        exact hslot n hn (by omega)
    older := by
      intro j n hj
      change update s.slots _ _ j = some n at hj
      change n < s.copied + 1 ∧ _
      by_cases heq : j = s.copied % p.qs
      · rw [heq, update_self] at hj
        cases hj
        exact ⟨Nat.lt_succ_self _, heq.symm⟩
      · rw [update_of_ne heq] at hj
        obtain ⟨hlt, hmod⟩ := holder j n hj
        exact ⟨by omega, hmod⟩ }

theorem host_step (hh : Host p s) (hd : Device p s) (h : hostStep p s = some s') :
    Host p s' ∧ Device p s' := by
  -- with the program counter in the open most fields carry over as they are
  obtain ⟨ticket, tail, head, cqHead, sqDb, cqDb, slots, phases, pc, fetched, outstanding,
    completed, cids, copied, returned⟩ := s
  cases pc with
  | idle => cases h
  | copy job i =>
    obtain ⟨hone, hlt, hle, hbase⟩ := hh.job job rfl
    dsimp only [hostStep, Pc.filled] at h hle
    by_cases hi : i < job.count
    · rw [if_pos hi] at h
      cases h
      rw [hbase, ← BitVec.ofNat_add, and_mask]
      exact ⟨hh.copy hd rfl hi, hd.copy rfl (by omega)⟩
    · rw [if_neg hi] at h
      cases h
      obtain rfl : i = job.count := by omega
      exact ⟨{ hh with
        job := by
          intro job' h
          cases h
          exact ⟨hone, hlt, hle, hbase⟩
        cid := by
          intro job' h
          cases h
          exact hh.cid job rfl }, { hd with }⟩
  | ring job =>
    cases h
    obtain ⟨-, -, -, hbase⟩ := hh.job job rfl
    refine ⟨{ hh with },
      { hd with sqDb := ?_, fetched := Nat.le_trans hd.fetched (Nat.le_add_right _ _) }⟩
    change (job.baseTail + BitVec.ofNat 32 job.count &&& p.mask).toNat = _
    rw [hbase, ← BitVec.ofNat_add, and_mask]
    rfl
  | storeTail job =>
    cases h
    obtain ⟨-, -, -, hbase⟩ := hh.job job rfl
    refine ⟨{ hh with tail := ?_ }, { hd with }⟩
    change job.baseTail + BitVec.ofNat 32 job.count = _
    rw [hbase, ← BitVec.ofNat_add]
    rfl
  | loadHead job =>
    cases h
    refine ⟨{ hh with cqBase := ?_ }, { hd with }⟩
    intro cqBase h
    cases h
    exact hh.cqHead
  | poll job cqBase =>
    dsimp only [hostStep] at h
    split at h
    · rename_i harr
      cases h
      have hall : returned + job.count ≤ completed.length := (arrived_iff hh hd rfl).1 harr
      exact ⟨{ hh with }, { hd with done := fun _ => hd.mem_completed hall }⟩
    · cases h
  | storeCqHead job cqBase =>
    cases h
    refine ⟨{ hh with cqHead := ?_ }, { hd with }⟩
    change cqBase + BitVec.ofNat 32 job.count = _
    rw [hh.cqBase cqBase rfl, ← BitVec.ofNat_add]
    rfl
  | ringCq job cqBase =>
    cases h
    exact ⟨{ hh with cqBase := fun _ h => by cases h }, { hd with }⟩
  | storeHead job =>
    cases h
    obtain ⟨-, -, -, hbase⟩ := hh.job job rfl
    refine ⟨{ hh with
      job := fun _ h => by cases h
      cqBase := fun _ h => by cases h
      head := ?_
      cid := fun _ h => by cases h }, { hd with }⟩
    change job.baseTail + BitVec.ofNat 32 job.count = _
    rw [hbase, ← BitVec.ofNat_add]

theorem Device.fetch (hd : Device p s) (hne : s.fetched % p.qs ≠ s.sqDb.toNat) :
    Device p { s with
      outstanding := s.slots (s.fetched % p.qs) :: s.outstanding, fetched := s.fetched + 1 } := by
  have hcopied := hd.copied
  have hfetched := hd.fetched
  have hshown := s.pc.shown_le
  have hlt : s.fetched < s.returned + s.pc.shown := by
    refine Nat.lt_of_le_of_ne hfetched fun heq => hne ?_
    rw [hd.sqDb, heq]
  have hslot := hd.slot s.fetched (Nat.le_refl _) (by omega)
  exact { hd with
    fetched := hlt
    all := by
      change (s.slots (s.fetched % p.qs) :: s.outstanding ++ s.completed).Perm _
      rw [hslot, List.range_succ, List.map_append]
      exact (hd.all.cons (some s.fetched)).trans (List.perm_append_singleton _ _).symm
    slot := fun n hn => hd.slot n (Nat.le_of_succ_le hn) }

theorem Device.post {cmd : Option Nat} (hd : Device p s) (hcmd : cmd ∈ s.outstanding) :
    Device p { s with
      outstanding := s.outstanding.erase cmd, completed := cmd :: s.completed,
      phases := update s.phases (s.completed.length % p.qs) (tag p.qs s.completed.length) } where
  copied := hd.copied
  sqDb := hd.sqDb
  done n hn := List.mem_cons_of_mem cmd (hd.done n hn)
  fetched := hd.fetched
  all := by
    have hperm :
      (s.outstanding.erase cmd ++ cmd :: s.completed).Perm (s.outstanding ++ s.completed) :=
      List.perm_middle.trans ((List.perm_cons_erase hcmd).symm.append_right s.completed)
    exact hperm.trans hd.all
  slot := hd.slot
  older := hd.older
  tagged := hd.tagged.post p.qs_pos

theorem Step.keeps (hh : Host p s) (hd : Device p s) (h : Step p s s') :
    Host p s' ∧ Device p s' := by
  cases h with
  | call count hidle hpos hlt => exact ⟨hh.call hidle hpos hlt, hd.call hidle⟩
  | host h => exact host_step hh hd h
  | fetch hne => exact ⟨{ hh with }, hd.fetch hne⟩
  | post cmd hcmd => exact ⟨{ hh with }, hd.post hcmd⟩

theorem Reach.keeps (h : Reach p s) : Host p s ∧ Device p s := by
  induction h with
  | init => exact ⟨host_init p, device_init p⟩
  | step _ hstep ih => exact hstep.keeps ih.1 ih.2

end steps

section safety
variable {p : Setup} {s : State}

/-- The slot is free: it lies a lap behind commands of which all but the call's own are
complete. -/
theorem Device.kept {job : Job} {i : Nat} (hh : Host p s) (hd : Device p s)
    (hpc : s.pc = .copy job i) (hi : i < job.count) {n : Nat}
    (hn : s.slots ((job.baseTail + BitVec.ofNat 32 i) &&& p.mask).toNat = some n) :
    some n ∈ s.outstanding ++ s.completed := by
  obtain ⟨-, hlt, -, hbase⟩ := hh.job job (by rw [hpc]; rfl)
  have hcopied := hd.copied
  have hseen := hd.seen
  have hlen := hd.length
  rw [hpc] at hcopied hseen
  dsimp only [Pc.filled, Pc.seen] at hcopied hseen
  rw [hbase, ← BitVec.ofNat_add, and_mask] at hn
  obtain ⟨hold, hmod⟩ := hd.older _ _ hn
  refine hd.mem ?_
  by_contra hge
  have := Counter.lap_le hmod (by omega)
  omega

theorem Host.cids_ne (hh : Host p s) (hd : Device p s) {i j : Nat} (hij : i < j)
    (hj : s.returned + j < s.copied) : s.cids (s.returned + i) ≠ s.cids (s.returned + j) := by
  have hfilled : j < s.pc.filled := by have := hd.copied; omega
  obtain ⟨job, hjob⟩ : ∃ job, s.pc.job = some job := by
    cases hpc : s.pc with
    | idle => rw [hpc] at hfilled; exact absurd hfilled (Nat.not_lt_zero j)
    | _ => exact ⟨_, rfl⟩
  obtain ⟨-, hlt, hle, -⟩ := hh.job job hjob
  have hqs := p.qs_le
  rw [hh.cid job hjob i (by omega), hh.cid job hjob j hfilled]
  intro heq
  bv_omega

/-- Batched submission on a queue pair of its own, in every state that calls and device can
reach: a call returns only when its commands are complete, no command is copied over one
that was not fetched, tail and heads agree between calls, and a call's cids differ. -/
theorem batched_submission_safe (p : Setup) {s : State} (h : Reach p s) : Safe p s := by
  obtain ⟨hh, hd⟩ := h.keeps
  exact {
    waited := fun n hn => hd.done n (Nat.lt_of_lt_of_le hn (Nat.le_add_right _ _))
    kept := fun job i hpc hi n hn => hd.kept hh hpc hi hn
    polled := by
      intro job cqBase hpc
      rw [arrived_iff hh hd hpc]
      refine ⟨fun hall n hn => hd.mem_completed ?_ ?_, le_completed⟩
      · rw [hpc]
        exact hall
      · rw [hpc]
        exact hn
    equal := by
      intro hidle
      have htail := hh.tail
      have hcq := hh.cqHead
      rw [hidle] at htail hcq
      exact ⟨htail.trans hh.head.symm, hh.head.trans hcq.symm⟩
    cids := fun i j hij hj => hh.cids_ne hd hij hj }

inductive Choice where
  | call (count : Nat)
  | host | fetch
  | post (cmd : Option Nat)

def choose (p : Setup) (s : State) : Choice → Option State
  | .call count => if s.pc = .idle ∧ 1 ≤ count ∧ count < p.qs then some (call s count) else none
  | .host => hostStep p s
  | .fetch => if s.fetched % p.qs ≠ s.sqDb.toNat then some { s with
      outstanding := s.slots (s.fetched % p.qs) :: s.outstanding
      fetched := s.fetched + 1 } else none
  | .post cmd => if cmd ∈ s.outstanding then some { s with
      outstanding := s.outstanding.erase cmd
      completed := cmd :: s.completed
      phases := update s.phases (s.completed.length % p.qs) (tag p.qs s.completed.length) }
      else none

theorem choose_reach (s : State) (c : Choice) (s' : State) (hs : Reach p s)
    (h : choose p s c = some s') : Reach p s' := by
  refine hs.step ?_
  cases c with
  | host => exact .host h
  | call count =>
    simp only [choose] at h
    split at h
    case isTrue hc => exact (Option.some.inj h) ▸ .call count hc.1 hc.2.1 hc.2.2
    case isFalse => cases h
  | fetch =>
    simp only [choose] at h
    split at h
    case isTrue hc => exact (Option.some.inj h) ▸ .fetch hc
    case isFalse => cases h
  | post cmd =>
    simp only [choose] at h
    split at h
    case isTrue hc => exact (Option.some.inj h) ▸ .post cmd hc
    case isFalse => cases h

/-- A call with the commands from number `n` on, three of them, which the device completes
out of order. -/
def threeCommands (n : Nat) : List Choice :=
  [.call 3] ++ List.replicate 7 .host ++ List.replicate 3 .fetch ++
    [.post (some (n+2)), .post (some n), .post (some (n+1))] ++ List.replicate 4 .host

/-- Three calls of three commands on queues of four: the queues wrap in the second call and in
the third. -/
theorem three_calls_return : ∃ s, s.returned = 9 ∧ s.tail = 9#32 ∧ s.pc = .idle ∧
    Safe ⟨2, by omega⟩ s := by
  obtain ⟨s, hs, hreturned, htail, hidle⟩ :=
    exists_of_exec (q := fun s => s.returned = 9 ∧ s.tail = 9#32 ∧ s.pc = .idle)
      (choose_reach (p := ⟨2, by omega⟩)) (threeCommands 0 ++ threeCommands 3 ++ threeCommands 6)
      .init (by decide +kernel)
  exact ⟨s, hreturned, htail, hidle, batched_submission_safe _ hs⟩

end safety

end Shaper.BatchQueue
