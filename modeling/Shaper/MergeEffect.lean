import Shaper.Lib.Lists
import Shaper.Lib.Overwrite
import Shaper.Merge

/-! What the calls of the merge leave on storage: the pages of the sorted batch,
position after position, each moved by one command. -/
namespace Shaper.MergeEffect
open Lib.Lists Lib.Overwrite Lib.Segments Nvme PrpBuild Merge Request

variable {β : Type*}

def Call.exec (pool : PrpPool) (rest : Nat → BitVec 64) (ram : BitVec 64 → β) (blkLog : Nat)
    (call : Call) : (Nat → β) → Nat → β :=
  applyAll (fun c => c.write (pool.load call.mem rest) ram blkLog) call.commands

def Command.pageWrites (load : BitVec 64 → BitVec 64) (blkLog ppe : Nat) (c : Command) :
    List (Nat × List (BitVec 64)) :=
  (chunks ppe (c.pages load blkLog)).mapIdx fun i pages =>
    (c.firstByte blkLog + i * (4096*ppe), pages)

def Call.pageWrites (pool : PrpPool) (rest : Nat → BitVec 64) (blkLog ppe : Nat) (call : Call) :
    List (Nat × List (BitVec 64)) :=
  call.commands.flatMap (Command.pageWrites (pool.load call.mem rest) blkLog ppe)

def writeAt (ram : BitVec 64 → β) (p : Nat × List (BitVec 64)) : (Nat → β) → Nat → β :=
  writePages ram p.1 p.2

theorem writePages_chunks {ppe : Nat} (hppe : 0 < ppe) (ram : BitVec 64 → β) (off : Nat)
    {pages : List (BitVec 64)} (hdvd : ppe ∣ pages.length) : writePages ram off pages =
      applyAll (writeAt ram) ((chunks ppe pages).mapIdx fun i p => (off + i*(4096*ppe), p)) := by
  induction pages using chunks_induction hppe generalizing off with
  | hnil =>
    rw [chunks_nil hppe]
    exact funext fun d => writePages_nil ram off d
  | hstep pages hne ih =>
    have hlen : (pages.take ppe).length = ppe := by
      rw [List.length_take, Nat.min_eq_left (Nat.le_of_dvd (List.length_pos_iff.mpr hne) hdvd)]
    have hdrop : ppe ∣ (pages.drop ppe).length := by
      rw [List.length_drop]
      exact Nat.dvd_sub hdvd (Nat.dvd_refl ppe)
    have hshift : (fun i (p : List (BitVec 64)) => (off + (i+1)*(4096*ppe), p)) =
        fun i p => (off + 4096*ppe + i*(4096*ppe), p) := by
      funext i p
      rw [Nat.succ_mul, Nat.add_assoc, Nat.add_comm (4096*ppe)]
    funext d
    rw [chunks_cons hppe hne, List.mapIdx_cons, hshift, Nat.zero_mul, Nat.add_zero]
    nth_rewrite 1 [← List.take_append_drop ppe pages]
    rw [writePages_append, hlen, ih (off + 4096*ppe) hdrop]
    rfl

theorem write_pageWrites {load : BitVec 64 → BitVec 64} {blkLog ppe : Nat} {c : Command}
    (hppe : 0 < ppe) (hdvd : ppe ∣ (c.pages load blkLog).length)
    (hbytes : c.bytes blkLog = 4096 * (c.pages load blkLog).length)
    (halign : ((c.pages load blkLog).headD 0).toNat % 4096 = 0) (ram : BitVec 64 → β) :
    c.write load ram blkLog = applyAll (writeAt ram) (Command.pageWrites load blkLog ppe c) := by
  rw [Command.pageWrites, ← writePages_chunks hppe ram _ hdvd]
  exact funext fun d => c.write_eq rfl hbytes halign ram d

variable {pc : PageCache} {resolve : BitVec 64 → Nat → BitVec 64} {b : Batch} {N : Nat}
  {blkLog : Nat}

def pageAt (pc : PageCache) (resolve : BitVec 64 → Nat → BitVec 64) (b : Batch) (pos : Nat) :
    Nat × List (BitVec 64) :=
  ((b.keys pos).toNat, (List.range pc.pagesPerEntry).map (resolve (b.entry pos)))

structure Aligned (pc : PageCache) (b : Batch) (N : Nat) : Prop extends Uniform pc b N where
  offset_lt : ∀ pos < N, (b.keys pos).toNat < 2^63
  offset_dvd : ∀ pos < N, pc.pageSize ∣ (b.keys pos).toNat

theorem Aligned.key_run (h : Aligned pc b N) {s : Nat × Nat} (hs : Segment (isStart pc b N) N s)
    {r : Nat} (hr : r < s.2) : (b.keys (s.1+r)).toNat = (b.keys s.1).toNat + r * pc.pageSize := by
  obtain ⟨hlen, hno⟩ := h.inner hs
  have hle := hs.le
  have hlt := h.offset_lt s.1 (by omega)
  have hsize : r * pc.pageSize ≤ kSchedMergeTarget := by
    rw [← h.pageSize_mul, Nat.mul_comm]
    exact Nat.mul_le_mul_left _ (by omega)
  simp only [kSchedMergeTarget] at hsize
  rw [h.keys_run hle hno hr, BitVec.toNat_add, BitVec.toNat_ofNat]
  omega

theorem group_entries (b : Batch) (s : Nat × Nat) :
    (b.group s.1 (s.1+s.2)).entries = (List.range' s.1 s.2).map b.entry := by
  rw [Batch.group, Nat.add_sub_cancel_left, List.range'_eq_map_range, List.map_map]
  rfl

theorem chunks_entryPages {resolve : BitVec 64 → Nat → BitVec 64} {ppe : Nat} (hppe : 0 < ppe)
    (entries : List (BitVec 64)) : chunks ppe (entryPages resolve ppe entries) =
      entries.map fun pe => (List.range ppe).map (resolve pe) := by
  induction entries with
  | nil => exact chunks_nil hppe
  | cons pe entries ih =>
    have hlen : ((List.range ppe).map (resolve pe)).length = ppe := by simp
    have hcons : entryPages resolve ppe (pe :: entries) =
        (List.range ppe).map (resolve pe) ++ entryPages resolve ppe entries := rfl
    rw [hcons, chunks_append hppe (by rw [hlen, Nat.mod_self]),
      chunks_of_length_le hppe (List.length_pos_iff.mp (by omega)) hlen.le, ih]
    rfl

theorem carries_whole {load : BitVec 64 → BitVec 64} {g : Group} {c : Command}
    (hc : Carries pc resolve blkLog load g c) (hne : g.entries ≠ [])
    (hres : ∀ pe j, (resolve pe j).toNat % 4096 = 0) :
    pc.pagesPerEntry ∣ (c.pages load blkLog).length ∧
      c.bytes blkLog = 4096 * (c.pages load blkLog).length ∧
      ((c.pages load blkLog).headD 0).toNat % 4096 = 0 := by
  have hlen := length_entryPages resolve pc.pagesPerEntry g.entries
  refine ⟨?_, ?_, ?_⟩
  · rw [hc.pages_eq, hlen]
    exact Dvd.intro_left _ rfl
  · rw [hc.bytes_eq, hc.pages_eq, hlen, PageCache.pageSize, Nat.mul_left_comm]
  · rw [hc.pages_eq, entryPages_eq hne pc.ppe_pos]
    exact hres _ _

section Group
variable (h : Aligned pc b N) (hblk : 2^blkLog ∣ pc.pageSize) {s : Nat × Nat}
  (hs : Segment (isStart pc b N) N s) {load : BitVec 64 → BitVec 64} {c : Command}
  (hc : Carries pc resolve blkLog load (b.group s.1 (s.1+s.2)) c)
include h hblk hs hc

theorem firstByte_group : c.firstByte blkLog = (b.keys s.1).toNat := by
  have hle := hs.le
  have hpos := hs.pos
  rw [Command.firstByte, hc.slba_eq, BitVec.toNat_ushiftRight, Nat.shiftRight_eq_div_pow]
  exact Nat.div_mul_cancel (hblk.trans (h.offset_dvd s.1 (by omega)))

theorem pageWrites_group :
    Command.pageWrites load blkLog pc.pagesPerEntry c =
    (List.range' s.1 s.2).map (pageAt pc resolve b) := by
  rw [Command.pageWrites, hc.pages_eq, chunks_entryPages pc.ppe_pos, group_entries,
    firstByte_group h hblk hs hc]
  refine List.ext_getElem (by simp) fun i hi _ => ?_
  have hi' : i < s.2 := by simpa using hi
  simp only [List.getElem_mapIdx, List.getElem_map, List.getElem_range', Nat.one_mul, pageAt,
    h.key_run hs hi']
  rfl

theorem write_group (hres : ∀ pe j, (resolve pe j).toNat % 4096 = 0) (ram : BitVec 64 → β) :
    c.write load ram blkLog =
    applyAll (writeAt ram) ((List.range' s.1 s.2).map (pageAt pc resolve b)) := by
  have hne : (b.group s.1 (s.1+s.2)).entries ≠ [] := by
    rw [group_entries, ne_eq, List.map_eq_nil_iff, List.range'_eq_nil_iff]
    exact Nat.ne_of_gt hs.pos
  obtain ⟨hdvd, hbytes, halign⟩ := carries_whole hc hne hres
  rw [← pageWrites_group h hblk hs hc]
  exact write_pageWrites pc.ppe_pos hdvd hbytes halign ram

end Group

theorem segment_of_mem_chunks {ss : List (Nat × Nat)}
    (hss : ss ∈ chunks kSchedKneeLimit (segments (isStart pc b N) N 0)) :
    ∀ s ∈ ss, Segment (isStart pc b N) N s := by
  intro s hs
  refine (segments_spec (isStart pc b N) (Nat.zero_le N) fun _ => isStart_zero).1 s ?_
  rw [← flatten_chunks (show 0 < kSchedKneeLimit by decide) (segments (isStart pc b N) N 0)]
  exact List.mem_flatten.mpr ⟨ss, hss, hs⟩

section Calls
variable {pool : PrpPool} {rest : Nat → BitVec 64} (h : Aligned pc b N)
  (hblk : 2^blkLog ∣ pc.pageSize)
include h hblk

theorem pageWrites_call {ss : List (Nat × Nat)} (hs : ∀ s ∈ ss, Segment (isStart pc b N) N s)
    {call : Call}
    (hc : Submits pc resolve pool rest blkLog (ss.map fun s => b.group s.1 (s.1+s.2)) call) :
    Call.pageWrites pool rest blkLog pc.pagesPerEntry call =
      (ss.flatMap fun s => List.range' s.1 s.2).map (pageAt pc resolve b) := by
  rw [Submits, List.forall₂_map_left_iff] at hc
  rw [List.map_flatMap]
  refine flatMap_forall₂ (((List.forall₂_and_left _ _).mpr ⟨hs, hc⟩).imp fun s c hsc => ?_)
  exact pageWrites_group h hblk hsc.1 hsc.2

theorem exec_call {ss : List (Nat × Nat)} (hs : ∀ s ∈ ss, Segment (isStart pc b N) N s)
    {call : Call}
    (hc : Submits pc resolve pool rest blkLog (ss.map fun s => b.group s.1 (s.1+s.2)) call)
    (hres : ∀ pe j, (resolve pe j).toNat % 4096 = 0) (ram : BitVec 64 → β) :
    Call.exec pool rest ram blkLog call =
      applyAll (writeAt ram) (Call.pageWrites pool rest blkLog pc.pagesPerEntry call) := by
  rw [Submits, List.forall₂_map_left_iff] at hc
  rw [Call.exec, Call.pageWrites, applyAll_flatMap]
  refine applyAll_congr_mem fun c hmem => ?_
  obtain ⟨s, hsc⟩ := exists_of_forall₂ ((List.forall₂_and_left _ _).mpr ⟨hs, hc⟩) hmem
  rw [write_group h hblk hsc.1 hsc.2 hres, pageWrites_group h hblk hsc.1 hsc.2]

/-- All calls of a merge: every position of the batch once, in order. -/
theorem calls_spec (hres : ∀ pe j, (resolve pe j).toNat % 4096 = 0) {calls : List Call}
    (hc : List.Forall₂ (Submits pc resolve pool rest blkLog)
      (chunks kSchedKneeLimit (groupsFrom pc b N 0)) calls) :
    calls.flatMap (Call.pageWrites pool rest blkLog pc.pagesPerEntry) =
        (List.range N).map (pageAt pc resolve b) ∧
      ∀ ram : BitVec 64 → β, applyAll (Call.exec pool rest ram blkLog) calls =
        applyAll (writeAt ram) ((List.range N).map (pageAt pc resolve b)) := by
  obtain ⟨-, hcover⟩ := segments_spec (isStart pc b N) (Nat.zero_le N) fun _ => isStart_zero
  rw [groupsFrom, chunks_map, List.forall₂_map_left_iff] at hc
  have hboth := (List.forall₂_and_left _ _).mpr ⟨fun _ => segment_of_mem_chunks, hc⟩
  have hwrites : calls.flatMap (Call.pageWrites pool rest blkLog pc.pagesPerEntry) =
      (List.range N).map (pageAt pc resolve b) := by
    have hcalls := flatMap_forall₂ (hboth.imp fun ss call hsc =>
      show Call.pageWrites pool rest blkLog pc.pagesPerEntry call =
        (ss.flatMap fun s => List.range' s.1 s.2).map (pageAt pc resolve b) by
      exact pageWrites_call h hblk hsc.1 hsc.2)
    have hflat := congrArg (List.flatMap fun s : Nat × Nat => List.range' s.1 s.2)
      (flatten_chunks (show 0 < kSchedKneeLimit by decide) (segments (isStart pc b N) N 0))
    rw [List.flatten_eq_flatMap, List.flatMap_assoc, hcover,
      Nat.sub_zero, ← List.range_eq_range'] at hflat
    rw [hcalls, ← List.map_flatMap]
    exact congrArg _ hflat
  refine ⟨hwrites, fun ram => ?_⟩
  rw [← hwrites, applyAll_flatMap]
  refine applyAll_congr_mem fun call hmem => ?_
  obtain ⟨ss, hsc⟩ := exists_of_forall₂ hboth hmem
  exact exec_call h hblk hsc.1 hsc.2 hres ram

end Calls

end Shaper.MergeEffect
