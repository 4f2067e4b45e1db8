import Shaper.Lib.Lists
import Shaper.Merge

/-! The original merge, in which thread 0 grows one run after another, and its
agreement with the parallel merge. -/
namespace Shaper.MergeSerial
open Lib.Lists Lib.Segments Nvme PrpBuild Merge Request

/-- The inner loop: `run_bytes` and `run_count` of the run from `scanPos` on. -/
def growRun (b : Batch) (N scanPos : Nat) : Nat → BitVec 64 × Nat → BitVec 64 × Nat
  | 0, s => s
  | fuel+1, (runBytes, runCount) =>
    if scanPos + runCount < N ∧ runBytes < BitVec.ofNat 64 kSchedMergeTarget then
      if b.keys (scanPos+runCount) ≠ b.keys scanPos + runBytes then (runBytes, runCount)
      else
        let nextBytes := b.size (scanPos+runCount)
        if BitVec.ofNat 64 kSchedMergeTarget < runBytes + nextBytes then (runBytes, runCount)
        else growRun b N scanPos fuel (runBytes + nextBytes, runCount+1)
    else (runBytes, runCount)

def scanGroups (b : Batch) (N : Nat) : Nat → Nat → List Group × Nat
  | 0, scanPos => ([], scanPos)
  | room+1, scanPos =>
    if scanPos < N then
      let run := growRun b N scanPos N (b.size scanPos, 1)
      let (gs, next) := scanGroups b N room (scanPos + run.2)
      (⟨b.keys scanPos, run.1, (List.range run.2).map fun r => b.entry (scanPos+r)⟩ :: gs, next)
    else ([], scanPos)

def serialMerge (pc : PageCache) (pool : Option PrpPool) (blkLog : Nat) (b : Batch) (N : Nat) :
    Nat → Nat → (Nat → BitVec 64) → Option ((Nat → BitVec 64) × List Call)
  | 0, scanPos, mem => if scanPos < N then none else some (mem, [])
  | fuel+1, scanPos, mem =>
    if scanPos < N then
      let (gs, next) := scanGroups b N kSchedKneeLimit scanPos
      let (mem, cmds) := buildGroups pc pc.subpage pool blkLog 0 gs mem
      (serialMerge pc pool blkLog b N fuel next mem).map fun (last, calls) =>
        (last, Call.mk mem cmds :: calls)
    else some (mem, [])

variable {pc : PageCache} {b : Batch} {N : Nat}

theorem ofNat_lt_target {n : Nat} (h : n ≤ kSchedMergeTarget) :
    BitVec.ofNat 64 n < BitVec.ofNat 64 kSchedMergeTarget ↔ n < kSchedMergeTarget := by
  have hT : kSchedMergeTarget < 2^64 := by decide
  rw [BitVec.lt_def, BitVec.toNat_ofNat, BitVec.toNat_ofNat, Nat.mod_eq_of_lt hT,
    Nat.mod_eq_of_lt (by omega)]

/-- Within 2 MB the byte counts are ordered as the page counts. -/
theorem run_lt_target (hu : Uniform pc b N) {n : Nat} (hn : n ≤ perGroup pc) :
    BitVec.ofNat 64 (n * pc.pageSize) < BitVec.ofNat 64 kSchedMergeTarget ↔ n < perGroup pc := by
  have hmul := hu.pageSize_mul
  rw [ofNat_lt_target, ← hmul, Nat.mul_comm]
  · exact Nat.mul_lt_mul_left (pageSize_le pc).1
  · rw [← hmul, Nat.mul_comm]
    exact Nat.mul_le_mul_left _ hn

theorem growRun_stop (hu : Uniform pc b N) {s : Nat × Nat} (hs : Segment (isStart pc b N) N s)
    (fuel : Nat) : growRun b N s.1 fuel (BitVec.ofNat 64 (s.2 * pc.pageSize), s.2) =
      (BitVec.ofNat 64 (s.2 * pc.pageSize), s.2) := by
  obtain ⟨hlen, hno⟩ := hu.inner hs
  have hpos := hs.pos
  cases fuel with
  | zero => rfl
  | succ fuel =>
    rw [growRun]
    split
    · rename_i hgo
      have hroom := (run_lt_target hu hlen).mp hgo.2
      -- the next start is a boundary, as the group is not full
      have hbound : b.isBoundary N (s.1+s.2) = true := by
        by_contra hb
        have hrun := sinceBoundary_run (n := s.2+1) (b := b) (N := N) (a := s.1) (r := s.2)
          (fun r h0 hr => by
            rcases Nat.lt_or_eq_of_le (Nat.le_of_lt_succ hr) with h | rfl
            · exact hno r h0 h
            · exact Bool.eq_false_iff.mpr hb) (Nat.lt_succ_self _)
        have hnext := beq_iff_eq.mp (hs.next hgo.1)
        have hstart := beq_iff_eq.mp hs.start
        rw [hrun, Nat.add_mod, hstart, Nat.zero_add, Nat.mod_mod, Nat.mod_eq_of_lt hroom] at hnext
        omega
      have hkey : b.keys (s.1+s.2) ≠ b.keys s.1 + BitVec.ofNat 64 (s.2 * pc.pageSize) := by
        have hprev := hu.keys_run hs.le hno (show s.2-1 < s.2 by omega)
        have hsize := hu.size_eq (s.1+(s.2-1)) (by omega)
        simp only [Batch.isBoundary, decide_eq_true hgo.1, Bool.true_and, Bool.or_eq_true,
          beq_iff_eq, bne_iff_ne, show ¬ s.1+s.2 = 0 by omega, false_or,
          show s.1+s.2-1 = s.1+(s.2-1) by omega, hprev, hsize] at hbound
        rwa [BitVec.add_assoc, ← BitVec.ofNat_add, ← Nat.succ_mul, Nat.succ_eq_add_one,
          Nat.sub_add_cancel hpos] at hbound
      rw [if_pos hkey]
    · rfl

theorem growRun_eq (hu : Uniform pc b N) {s : Nat × Nat} (hs : Segment (isStart pc b N) N s)
    (fuel : Nat) {r : Nat} (hr : 0 < r) (hrs : r ≤ s.2) (hf : s.2 ≤ r + fuel) :
    growRun b N s.1 fuel (BitVec.ofNat 64 (r * pc.pageSize), r) =
      (BitVec.ofNat 64 (s.2 * pc.pageSize), s.2) := by
  obtain ⟨hlen, hno⟩ := hu.inner hs
  have hle := hs.le
  induction fuel generalizing r with
  | zero =>
    obtain rfl : r = s.2 := by omega
    rfl
  | succ fuel ih =>
    rcases Nat.lt_or_eq_of_le hrs with hlt | rfl
    · have hroom := (run_lt_target hu (show r ≤ perGroup pc by omega)).mpr (by omega)
      have hsum : BitVec.ofNat 64 (r * pc.pageSize) + b.size (s.1+r) =
          BitVec.ofNat 64 ((r+1) * pc.pageSize) := by
        rw [hu.size_eq _ (by omega), Nat.succ_mul, BitVec.ofNat_add]
      have hfit : ¬ BitVec.ofNat 64 kSchedMergeTarget < BitVec.ofNat 64 ((r+1) * pc.pageSize) := by
        have hT : kSchedMergeTarget < 2^64 := by decide
        have hmul : (r+1) * pc.pageSize ≤ kSchedMergeTarget := by
          rw [← hu.pageSize_mul, Nat.mul_comm]
          exact Nat.mul_le_mul_left _ (by omega)
        rw [BitVec.lt_def, BitVec.toNat_ofNat, BitVec.toNat_ofNat, Nat.mod_eq_of_lt hT,
          Nat.mod_eq_of_lt (by omega)]
        omega
      rw [growRun, if_pos ⟨by omega, hroom⟩, if_neg (not_not_intro (hu.keys_run hle hno hlt))]
      simp only [hsum, if_neg hfit]
      exact ih (by omega) hlt (by omega)
    · exact growRun_stop hu hs _

theorem scanGroups_eq (hu : Uniform pc b N) (room : Nat) {p : Nat} (hp : p ≤ N)
    (hstart : p < N → isStart pc b N p = true) :
    ∃ q, scanGroups b N room p = ((groupsFrom pc b N p).take room, q) ∧ p ≤ q ∧ q ≤ N ∧
      (q < N → isStart pc b N q = true) ∧ (0 < room → p < N → p < q) ∧
      (groupsFrom pc b N p).drop room = groupsFrom pc b N q := by
  induction room generalizing p with
  | zero => exact ⟨p, rfl, le_refl _, hp, hstart, fun h => absurd h (by omega), rfl⟩
  | succ room ih =>
    rcases Nat.lt_or_ge p N with hlt | hge
    · obtain ⟨hcons, hle, hnext, -⟩ := segments_cons hlt (hstart hlt)
      have hs : Segment (isStart pc b N) N (p, gap (isStart pc b N) (p+1) (N-(p+1)) + 1) :=
        (segments_spec _ hp hstart).1 _ (hcons ▸ List.mem_cons_self)
      generalize gap (isStart pc b N) (p+1) (N-(p+1)) + 1 = n at hcons hle hnext hs
      have hrun : growRun b N p N (b.size p, 1) = (BitVec.ofNat 64 (n * pc.pageSize), n) := by
        have := growRun_eq hu hs N Nat.one_pos hs.pos (by simp only; omega)
        rwa [Nat.one_mul, ← hu.size_eq p hlt] at this
      have hgroup : (⟨b.keys p, BitVec.ofNat 64 (n * pc.pageSize),
          (List.range n).map fun r => b.entry (p+r)⟩ : Group) = b.group p (p+n) := by
        rw [Batch.group, hu.runBytes_run hle hs.pos (hu.inner hs).2, Nat.add_sub_cancel_left]
      have hgroups : groupsFrom pc b N p = b.group p (p+n) :: groupsFrom pc b N (p+n) := by
        rw [groupsFrom, hcons]
        rfl
      have hpos : 0 < n := hs.pos
      obtain ⟨q, hscan, hpq, hq, hqs, -, hdrop⟩ := ih hle hnext
      refine ⟨q, ?_, by omega, hq, hqs, fun _ _ => by omega, ?_⟩
      · rw [scanGroups, if_pos hlt]
        simp only [hrun, hscan, hgroup, hgroups, List.take_succ_cons]
      · rw [hgroups, List.drop_succ_cons, hdrop]
    · have hnil : groupsFrom pc b N p = [] := groupsFrom_end hge
      refine ⟨p, ?_, le_refl _, hp, hstart, fun _ h => absurd h (by omega), ?_⟩
      · rw [scanGroups, if_neg (by omega), hnil, List.take_nil]
      · rw [hnil, List.drop_nil]

/-- The serial merge ends and moves the same groups, 32 at a time. -/
theorem serialMerge_spec (pool : PrpPool) {blkLog : Nat} (hu : Uniform pc b N) (h9 : 9 ≤ blkLog)
    (hblk : 2^blkLog ∣ pc.pageSize) {fuel p : Nat} (hp : p ≤ N)
    (hstart : p < N → isStart pc b N p = true) (hf : N ≤ p + fuel) (mem rest : Nat → BitVec 64) :
    ∃ last calls, serialMerge pc (some pool) blkLog b N fuel p mem = some (last, calls) ∧
      List.Forall₂ (Submits pc pc.subpage pool rest blkLog)
        (chunks kSchedKneeLimit (groupsFrom pc b N p)) calls := by
  induction fuel generalizing p mem with
  | zero =>
    refine ⟨mem, [], if_neg (by omega), ?_⟩
    rw [groupsFrom_end (by omega), chunks_nil (by decide)]
    exact .nil
  | succ fuel ih =>
    rcases Nat.lt_or_ge p N with hlt | hge
    · obtain ⟨q, hscan, -, hq, hqs, hpq, hdrop⟩ := scanGroups_eq hu kSchedKneeLimit hp hstart
      have hok : ∀ g ∈ (groupsFrom pc b N p).take kSchedKneeLimit, g.Ok pc pc.subpage blkLog :=
        fun g hg =>
          hu.groupsFrom_ok pc.subpage_aligned h9 hblk hp hstart g (List.mem_of_mem_take hg)
      have hbuilt := buildGroups_carries pool hok 0
        (by rw [Nat.zero_add]; exact (List.length_take_le _ _).trans (by decide)) mem rest
      obtain ⟨last, calls, hrun, hcalls⟩ := ih hq hqs (by have := hpq (by decide) hlt; omega)
        (buildGroups pc pc.subpage (some pool) blkLog 0
          ((groupsFrom pc b N p).take kSchedKneeLimit) mem).1
      have hne : groupsFrom pc b N p ≠ [] := by
        rw [groupsFrom, (segments_cons hlt (hstart hlt)).1]
        exact List.cons_ne_nil _ _
      rw [serialMerge, if_pos hlt]
      simp only [hscan, hrun, Option.map_some]
      refine ⟨_, _, rfl, ?_⟩
      rw [chunks_cons (by decide) hne, hdrop]
      exact .cons hbuilt hcalls
    · refine ⟨mem, [], by rw [serialMerge, if_neg (by omega)], ?_⟩
      rw [groupsFrom_end hge, chunks_nil (by decide)]
      exact .nil

def SameCommand (pool : PrpPool) (rest : Nat → BitVec 64) (blkLog : Nat)
    (mem mem' : Nat → BitVec 64) (c c' : Command) : Prop :=
  c.slba = c'.slba ∧ c.nlb = c'.nlb ∧
    c.pages (pool.load mem rest) blkLog = c'.pages (pool.load mem' rest) blkLog

def SameCall (pool : PrpPool) (rest : Nat → BitVec 64) (blkLog : Nat) (x y : Call) : Prop :=
  List.Forall₂ (SameCommand pool rest blkLog x.mem y.mem) x.commands y.commands

theorem nlb_inj {blkLog : Nat} {c c' : Command} (h : c.bytes blkLog = c'.bytes blkLog) :
    c.nlb = c'.nlb := by
  apply BitVec.eq_of_toNat_eq
  have := Nat.eq_of_mul_eq_mul_right (Nat.two_pow_pos blkLog) h
  omega

theorem sameCall_of_submits {pool : PrpPool} {rest : Nat → BitVec 64} {blkLog : Nat}
    {gs : List Group}
    {x y : Call} (hx : Submits pc pc.subpage pool rest blkLog gs x)
    (hy : Submits pc pc.subpage pool rest blkLog gs y) : SameCall pool rest blkLog x y := by
  refine forall₂_join (fun g c c' hc hc' => ⟨?_, ?_, ?_⟩) hx hy
  · rw [hc.slba_eq, hc'.slba_eq]
  · exact nlb_inj (hc.bytes_eq.trans hc'.bytes_eq.symm)
  · rw [hc.pages_eq, hc'.pages_eq]

/-- Both merges end and make the same calls. -/
theorem serial_eq_parallel {pool : PrpPool} {blkLog : Nat} (hu : Uniform pc b N) (h9 : 9 ≤ blkLog)
    (hblk : 2^blkLog ∣ pc.pageSize) (starts : Nat → Nat) (mem mem' rest : Nat → BitVec 64) :
    ∃ last last' calls calls',
      parallelMerge pc (some pool) blkLog b N starts mem = some (last, calls) ∧
      serialMerge pc (some pool) blkLog b N N 0 mem' = some (last', calls') ∧
      List.Forall₂ (SameCall pool rest blkLog) calls calls' := by
  obtain ⟨last, calls, hrun, hcalls⟩ := parallelMerge_spec pool hu h9 hblk starts mem rest
  obtain ⟨last', calls', hrun', hcalls'⟩ := serialMerge_spec pool hu h9 hblk (Nat.zero_le N)
    (fun _ => isStart_zero) (Nat.zero_add N).ge mem' rest
  refine ⟨last, last', calls, calls', hrun, hrun', forall₂_join ?_ hcalls hcalls'⟩
  intro gs x y hx hy
  exact sameCall_of_submits hx hy

def twoPages : Batch :=
  ⟨fun pos => BitVec.ofNat 64 (4096*pos), fun pos => BitVec.ofNat 32 pos, fun _ => 12#8,
    fun i => BitVec.ofNat 64 i⟩

theorem twoPages_agree : ∃ last last' calls calls',
    parallelMerge .fourK (some .inOrder) 9 twoPages 2 (fun _ => 0) (fun _ => 0) =
      some (last, calls) ∧
    serialMerge .fourK (some .inOrder) 9 twoPages 2 2 0 (fun _ => 0) =
      some (last', calls') ∧
    List.Forall₂ (SameCall .inOrder (fun _ => 0) 9) calls calls' :=
  serial_eq_parallel ⟨by decide, by decide, fun _ _ => rfl⟩ (by decide) (by decide) _ _ _ _

end Shaper.MergeSerial
