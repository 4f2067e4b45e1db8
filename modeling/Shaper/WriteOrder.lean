import Mathlib.Data.List.Sort
import Shaper.WriteScheduler

/-! Commands of one call are outstanding together and may be done in any order. That
is safe when they are apart on storage, and they are unless two requests for one page
meet in a call. -/
namespace Shaper.WriteOrder
open Lib.Lists Lib.Overwrite Lib.Segments Nvme PrpBuild Merge MergeEffect WriteScheduler Request

variable {β : Type*}

def Apart (e e' : Nat × Nat) : Prop := e.1 + e.2 ≤ e'.1 ∨ e'.1 + e'.2 ≤ e.1

def extent (blkLog : Nat) (c : Command) : Nat × Nat := (c.firstByte blkLog, c.bytes blkLog)

def NoOverlap (blkLog : Nat) (call : Call) : Prop :=
  (call.commands.map (extent blkLog)).Pairwise Apart

section Offsets
variable (pageSize perGroup : Nat) (offsets : List Nat)

def jumps (i : Nat) : Bool := i == 0 || offsets.getD i 0 != offsets.getD (i-1) 0 + pageSize

def sinceJump : Nat → Nat
  | 0 => 0
  | i+1 => if jumps pageSize offsets (i+1) then 0 else sinceJump i + 1

def begins (i : Nat) : Bool := sinceJump pageSize offsets i % perGroup == 0

end Offsets

def sortedOffsets (reqs : List IoRequest) : List Nat :=
  (reqs.map fun r => r.byteOffset.toNat).insertionSort (· ≤ ·)

/-- Wherever an offset comes again in the sorted order, the number of merged writes that
begin before it is a multiple of 32, so that a call ends there. -/
def Separated (pc : PageCache) (reqs : List IoRequest) : Prop :=
  let offsets := sortedOffsets reqs
  ∀ i, i+1 < offsets.length → offsets.getD (i+1) 0 = offsets.getD i 0 →
    (List.range (i+1)).countP (begins pc.pageSize (perGroup pc) offsets) % kSchedKneeLimit = 0

theorem overwrites_command (load : BitVec 64 → BitVec 64) (ram : BitVec 64 → β) (blkLog : Nat) :
    Overwrites (fun (c : Command) x =>
      decide (c.firstByte blkLog ≤ x ∧ x < c.firstByte blkLog + c.bytes blkLog))
      (fun c => c.write load ram blkLog) := by
  refine ⟨fun {c x} hx d => ?_, fun {c x} hx d d' => ?_⟩
  · rw [Command.write, if_neg (of_decide_eq_false hx)]
  · rw [Command.write, Command.write, if_pos (of_decide_eq_true hx), if_pos (of_decide_eq_true hx)]

theorem exec_perm {pool : PrpPool} {rest : Nat → BitVec 64} {blkLog : Nat} {call : Call}
    (h : NoOverlap blkLog call) {cmds : List Command} (hp : cmds.Perm call.commands)
    (ram : BitVec 64 → β) : applyAll (fun c => c.write (pool.load call.mem rest) ram blkLog) cmds =
      Call.exec pool rest ram blkLog call := by
  funext disk
  refine ((overwrites_command _ ram blkLog).applyAll_perm hp.symm
    ((List.pairwise_map.mp h).imp fun hcc x hx => ?_) disk).symm
  have h1 := of_decide_eq_true hx.1
  have h2 := of_decide_eq_true hx.2
  rcases hcc with h | h <;> simp only [extent] at h <;> omega

variable {pc : PageCache} {b : Batch} {S : List IoRequest}

theorem sortedOffsets_eq {reqs : List IoRequest} (h : StableOrder reqs S) :
    sortedOffsets reqs = S.map fun r => r.byteOffset.toNat := by
  refine List.Perm.eq_of_pairwise' (List.pairwise_insertionSort _ _)
    (List.pairwise_map.mpr h.sorted) ?_
  exact (List.perm_insertionSort _ _).trans (h.perm.map _).symm

section Batch
variable (hb : Lists b S) (ha : Aligned pc b S.length)

def offs (S : List IoRequest) : List Nat := S.map fun r => r.byteOffset.toNat

include hb in
theorem key_eq {pos : Nat} (h : pos < S.length) : (b.keys pos).toNat = (offs S).getD pos 0 := by
  rw [hb.keys_eq pos h, offs, List.getD_eq_getElem _ _ (by rwa [List.length_map]), List.getElem_map]

include ha in
theorem toNat_end {pos : Nat} (h : pos < S.length) :
    (b.keys pos + b.size pos).toNat = (b.keys pos).toNat + pc.pageSize := by
  have hlt := ha.offset_lt pos h
  have hsize := (pageSize_le pc).2
  simp only [kSchedMergeTarget] at hsize
  rw [ha.size_eq pos h, BitVec.toNat_add, BitVec.toNat_ofNat]
  omega

include hb ha in
theorem isBoundary_eq {pos : Nat} (h : pos < S.length) :
    b.isBoundary S.length pos = jumps pc.pageSize (offs S) pos := by
  rw [Batch.isBoundary, jumps, decide_eq_true h, Bool.true_and]
  refine congrArg (pos == 0 || ·) ?_
  have hprev : pos-1 < S.length := by omega
  rw [← key_eq hb h, ← key_eq hb hprev, ← toNat_end ha hprev, Bool.eq_iff_iff, bne_iff_ne,
    bne_iff_ne, ne_eq, ne_eq, BitVec.toNat_inj]

include hb ha in
theorem isStart_eq {pos : Nat} (h : pos < S.length) :
    isStart pc b S.length pos = begins pc.pageSize (perGroup pc) (offs S) pos := by
  have hsince : ∀ p < S.length, sinceBoundary b S.length p = sinceJump pc.pageSize (offs S) p := by
    intro p hp
    induction p with
    | zero => rfl
    | succ p ih => rw [sinceBoundary, sinceJump, isBoundary_eq hb ha hp, ih (by omega)]
  rw [isStart, begins, hsince pos h]

def span (pc : PageCache) (b : Batch) (s : Nat × Nat) : Nat × Nat :=
  ((b.keys s.1).toNat, s.2 * pc.pageSize)

include ha in
theorem extents_call {pool : PrpPool} {rest : Nat → BitVec 64} {blkLog : Nat}
    (hblk : 2^blkLog ∣ pc.pageSize) {ss : List (Nat × Nat)}
    (hs : ∀ s ∈ ss, Segment (isStart pc b S.length) S.length s) {call : Call}
    (hc : Submits pc pc.subpage pool rest blkLog (ss.map fun s => b.group s.1 (s.1+s.2)) call) :
    call.commands.map (extent blkLog) = ss.map (span pc b) := by
  rw [Submits, List.forall₂_map_left_iff] at hc
  have hboth := (List.forall₂_and_left _ _).mpr ⟨hs, hc⟩
  rw [← List.forall₂_eq_eq_eq, List.forall₂_map_left_iff, List.forall₂_map_right_iff]
  refine (hboth.imp fun s c hsc => ?_).flip
  have hlen : (b.group s.1 (s.1+s.2)).entries.length = s.2 := by
    rw [group_entries, List.length_map, List.length_range']
  change (c.firstByte blkLog, c.bytes blkLog) = ((b.keys s.1).toNat, s.2 * pc.pageSize)
  rw [firstByte_group ha hblk hsc.1 hsc.2, hsc.2.bytes_eq, hlen]

include ha in
/-- No call has an overlap exactly if no chunk of 32 groups has one. -/
theorem noOverlap_iff {pool : PrpPool} {rest : Nat → BitVec 64} {blkLog : Nat}
    (hblk : 2^blkLog ∣ pc.pageSize) {calls : List Call}
    (hc : List.Forall₂ (Submits pc pc.subpage pool rest blkLog)
      (chunks kSchedKneeLimit (groupsFrom pc b S.length 0)) calls) :
    (∀ call ∈ calls, NoOverlap blkLog call) ↔
      ∀ ss ∈ chunks kSchedKneeLimit (segments (isStart pc b S.length) S.length 0),
        ss.Pairwise fun s s' => Apart (span pc b s) (span pc b s') := by
  rw [groupsFrom, chunks_map, List.forall₂_map_left_iff] at hc
  have hboth := (List.forall₂_and_left _ _).mpr ⟨fun _ => segment_of_mem_chunks, hc⟩
  refine forall_iff_of_forall₂ (hboth.imp fun ss call hsc => ?_)
  rw [NoOverlap, extents_call ha hblk hsc.1 hsc.2, List.pairwise_map]

include ha in
theorem key_last {s : Nat × Nat} (hs : Segment (isStart pc b S.length) S.length s) :
    (b.keys (s.1+s.2-1)).toNat + pc.pageSize = (b.keys s.1).toNat + s.2 * pc.pageSize := by
  have hpos := hs.pos
  have hrun := ha.key_run hs (show s.2-1 < s.2 by omega)
  rw [show s.1 + (s.2-1) = s.1+s.2-1 by omega] at hrun
  rw [hrun, Nat.add_assoc, ← Nat.succ_mul, Nat.succ_eq_add_one, Nat.sub_add_cancel hpos]

include ha in
theorem isStart_dup {i : Nat} (hi : i+1 < S.length)
    (hdup : (b.keys (i+1)).toNat = (b.keys i).toNat) : isStart pc b S.length (i+1) = true := by
  have hbound : b.isBoundary S.length (i+1) = true := by
    have hne : b.keys (i+1) ≠ b.keys i + b.size i := by
      intro he
      have hend := toNat_end ha (show i < S.length by omega)
      have hps := (pageSize_le pc).1
      rw [← he] at hend
      omega
    simp [Batch.isBoundary, hi, hne]
  rw [isStart, sinceBoundary_boundary hbound, Nat.zero_mod]
  rfl

include ha in
/-- Groups of one chunk are apart exactly if every offset that comes again starts a chunk. -/
theorem apart_iff (hsorted : ∀ p q, p ≤ q → q < S.length → (b.keys p).toNat ≤ (b.keys q).toNat) :
    (∀ ss ∈ chunks kSchedKneeLimit (segments (isStart pc b S.length) S.length 0),
        ss.Pairwise fun s s' => Apart (span pc b s) (span pc b s')) ↔
      ∀ i, i+1 < S.length → (b.keys (i+1)).toNat = (b.keys i).toNat →
        (List.range (i+1)).countP (isStart pc b S.length) % kSchedKneeLimit = 0 := by
  have hseg :=
    (segments_spec (isStart pc b S.length) (Nat.zero_le S.length) fun _ => isStart_zero).1
  have hps := (pageSize_le pc).1
  rw [pairwise_chunks (by decide)]
  constructor
  · intro h i hi hdup
    obtain ⟨m, s', hs', h1⟩ := exists_segment (Nat.zero_le _) hi (isStart_dup ha hi hdup)
    obtain ⟨-, hcount, -⟩ := segments_getElem? (fun _ => isStart_zero) hs'
    rw [h1, Nat.sub_zero, ← List.range_eq_range'] at hcount
    rw [hcount]
    by_contra hm
    -- the group before is in the same chunk and ends on the same page
    have hlen := (List.getElem?_eq_some_iff.mp hs').1
    have hm0 : m ≠ 0 := by
      rintro rfl
      exact hm rfl
    obtain ⟨s, hs⟩ : ∃ s, (segments (isStart pc b S.length) S.length 0)[m-1]? = some s :=
      ⟨_, List.getElem?_eq_getElem (show m-1 < _ by omega)⟩
    obtain ⟨-, -, hnext⟩ := segments_getElem? (fun _ => isStart_zero) hs
    have hadj := hnext s' (by rwa [Nat.sub_add_cancel (by omega)])
    have hlast := key_last ha (hseg s (List.mem_of_getElem? hs))
    have hpos' := Nat.mul_pos (hseg s' (List.mem_of_getElem? hs')).pos hps
    rw [show s.1 + s.2 - 1 = i by omega] at hlast
    have hdiv : (m-1)/kSchedKneeLimit = m/kSchedKneeLimit := by
      simp only [kSchedKneeLimit] at hm ⊢
      omega
    have happart := h (m-1) m s s' (by omega) hdiv hs hs'
    have hle := hsorted s.1 i (by have := (hseg s (List.mem_of_getElem? hs)).pos; omega) (by omega)
    simp only [Apart, span, h1] at happart
    omega
  · intro h i j s s' hij hq hs hs'
    have hlen := (List.getElem?_eq_some_iff.mp hs').1
    obtain ⟨t, ht⟩ : ∃ t, (segments (isStart pc b S.length) S.length 0)[i+1]? = some t :=
      ⟨_, List.getElem?_eq_getElem (show i+1 < _ by omega)⟩
    obtain ⟨-, -, hnext⟩ := segments_getElem? (fun _ => isStart_zero) hs
    obtain ⟨-, hcount, -⟩ := segments_getElem? (fun _ => isStart_zero) ht
    have hadj := hnext t ht
    have hlast := key_last ha (hseg s (List.mem_of_getElem? hs))
    have hspos := (hseg s (List.mem_of_getElem? hs)).pos
    have htN := (hseg t (List.mem_of_getElem? ht)).le
    have htpos := (hseg t (List.mem_of_getElem? ht)).pos
    have hsN' := (hseg s' (List.mem_of_getElem? hs')).le
    have hspos' := (hseg s' (List.mem_of_getElem? hs')).pos
    have hts' := hsorted t.1 s'.1 (segments_mono (fun _ => isStart_zero) hij ht hs') (by omega)
    have hprev := hsorted (t.1-1) t.1 (by omega) (by omega)
    have hnodup : (b.keys t.1).toNat ≠ (b.keys (t.1-1)).toNat := by
      intro hdup
      have hzero := h (t.1-1) (by omega) (by rwa [Nat.sub_add_cancel (by omega)])
      rw [Nat.sub_zero, ← List.range_eq_range'] at hcount
      rw [Nat.sub_add_cancel (by omega), hcount] at hzero
      simp only [kSchedKneeLimit] at hzero hq
      omega
    -- aligned offsets that differ are a page apart
    obtain ⟨q, hq'⟩ := ha.offset_dvd t.1 (by omega)
    obtain ⟨q₀, hq₀⟩ := ha.offset_dvd (t.1-1) (by omega)
    have hstep : pc.pageSize * (q₀+1) ≤ pc.pageSize * q := by
      refine Nat.mul_le_mul_left _ (Nat.lt_of_mul_lt_mul_left (a := pc.pageSize) ?_)
      omega
    rw [Nat.mul_succ] at hstep
    left
    simp only [span]
    rw [← hadj] at hq₀
    omega

end Batch

theorem separated_iff {reqs : List IoRequest} (hS : StableOrder reqs S) (hb : Lists b S)
    (ha : Aligned pc b S.length) : Separated pc reqs ↔
      ∀ i, i+1 < S.length → (b.keys (i+1)).toNat = (b.keys i).toNat →
        (List.range (i+1)).countP (isStart pc b S.length) % kSchedKneeLimit = 0 := by
  have hoffs : sortedOffsets reqs = offs S := sortedOffsets_eq hS
  have hlen : (offs S).length = S.length := List.length_map _
  simp only [Separated, hoffs, hlen]
  refine forall_congr' fun i => forall_congr' fun hi => ?_
  have hcount : (List.range (i+1)).countP (isStart pc b S.length) =
      (List.range (i+1)).countP (begins pc.pageSize (perGroup pc) (offs S)) := by
    refine List.countP_congr fun j hj => ?_
    have := List.mem_range.mp hj
    rw [isStart_eq hb ha (by omega)]
  rw [key_eq hb hi, key_eq hb (show i < S.length by omega), hcount]

theorem keys_sorted {reqs : List IoRequest} (hS : StableOrder reqs S) (hb : Lists b S) (p q : Nat)
    (hpq : p ≤ q) (hq : q < S.length) : (b.keys p).toNat ≤ (b.keys q).toNat := by
  rcases Nat.lt_or_eq_of_le hpq with hlt | rfl
  · rw [hb.keys_eq p (by omega), hb.keys_eq q hq]
    exact List.pairwise_iff_getElem.mp hS.sorted p q _ _ hlt
  · exact le_refl _

/-- The calls of a batch have no overlapping commands exactly if the requests are separated, and
then every call leaves the same storage in whatever order its commands are done. -/
theorem no_overlap_iff_separated (pool : PrpPool) (sort : SortVersion) {blkLog : Nat}
    (hppe : pc.pagesPerEntry ∣ 512) (h9 : 9 ≤ blkLog) (hblk : 2^blkLog ∣ pc.pageSize) (s : Scratch)
    {reqs : List IoRequest} (hN : reqs.length ≤ 2^31) (hreq : ∀ r ∈ reqs, PageRequest pc r)
    (rest : Nat → BitVec 64) :
    ∃ s' calls, writeBatch sort pc (some pool) blkLog s reqs = some (s', calls) ∧
      ((∀ call ∈ calls, NoOverlap blkLog call) ↔ Separated pc reqs) ∧
      (Separated pc reqs → ∀ call ∈ calls, ∀ cmds, cmds.Perm call.commands →
        ∀ ram : BitVec 64 → β,
          applyAll (fun c => c.write (pool.load call.mem rest) ram blkLog) cmds =
            Call.exec pool rest ram blkLog call) := by
  obtain ⟨s', calls, b, S, hrun, hS, hb, ha, hcalls⟩ :=
    writeBatch_merges pool sort hppe h9 hblk s hN hreq rest
  have hiff : (∀ call ∈ calls, NoOverlap blkLog call) ↔ Separated pc reqs := by
    rw [noOverlap_iff ha hblk hcalls, apart_iff ha (keys_sorted hS hb), separated_iff hS hb ha]
  exact ⟨s', calls, hrun, hiff, fun h call hcall cmds hp ram =>
    exec_perm (hiff.mpr h call hcall) hp ram⟩

/-- Neighbouring pages are separated. -/
theorem twoRequests_no_overlap : Separated .fourK twoRequests ∧ ∃ s' calls,
    writeBatch .v2 .fourK (some .inOrder) 9 .zero twoRequests = some (s', calls) ∧
      ∀ call ∈ calls, NoOverlap 9 call := by
  have hsep : Separated .fourK twoRequests := by
    intro i hi
    have hlen : (sortedOffsets twoRequests).length = 2 := by decide
    obtain rfl : i = 0 := by omega
    exact fun h => absurd h (by decide)
  obtain ⟨s', calls, hrun, hiff, -⟩ := no_overlap_iff_separated (β := Unit) .inOrder .v2 (by decide)
    (show 9 ≤ 9 by decide) (by decide) .zero (by decide) twoRequests_page fun _ => 0
  exact ⟨hsep, s', calls, hrun, hiff.mpr hsep⟩

def duplicates : List IoRequest := [⟨0#64, 1#64, 1#8, 12#8⟩, ⟨0#64, 2#64, 1#8, 12#8⟩]

theorem duplicates_page : ∀ r ∈ duplicates, PageRequest .fourK r := by
  intro r hr
  simp only [duplicates, List.mem_cons, List.not_mem_nil, or_false] at hr
  rcases hr with rfl | rfl
  · exact ⟨⟨by decide, by decide, by decide, show (1 : Nat) < 2^20 by decide⟩, by decide⟩
  · exact ⟨⟨by decide, by decide, by decide, show (2 : Nat) < 2^20 by decide⟩, by decide⟩

theorem duplicates_stable {S : List IoRequest} (h : StableOrder duplicates S) : S = duplicates := by
  have hS : S.filter (fun r => r.byteOffset.toNat == 0) = S := by
    refine List.filter_eq_self.mpr fun r hr => ?_
    have := h.perm.mem_iff.mp hr
    simp only [duplicates, List.mem_cons, List.not_mem_nil, or_false] at this
    rcases this with rfl | rfl <;> rfl
  rw [← hS, h.stable 0]
  rfl

/-- Both requests go out in one call as commands for the same block. In the order of the queue
the later request wins; done the other way round they leave the data of the earlier one. -/
theorem duplicates_reordered : ∃ s' call c c',
    writeBatch .v1 .fourK (some .inOrder) 9 .zero duplicates = some (s', [call]) ∧
      call.commands = [c, c'] ∧
      Call.exec .inOrder (fun _ => 0) BitVec.toNat 9 call (fun _ => 0) 0 = 2*4096 ∧
      applyAll (fun c => c.write (PrpPool.inOrder.load call.mem fun _ => 0) BitVec.toNat 9) [c', c]
        (fun _ => 0) 0 = 4096 := by
  obtain ⟨s', calls, b, S, hrun, hS, hb, ha, hcalls⟩ := writeBatch_merges .inOrder .v1 (by decide)
    (show 9 ≤ 9 by decide) (by decide) .zero (by decide) duplicates_page fun _ => 0
  obtain rfl := duplicates_stable hS
  have hstart : isStart .fourK b duplicates.length 1 = true := by
    refine isStart_dup ha (by decide) ?_
    rw [hb.keys_eq 1 (by decide), hb.keys_eq 0 (by decide)]
    rfl
  have hsegs : segments (isStart .fourK b duplicates.length) duplicates.length 0 =
      [(0, 1), (1, 1)] := by
    have hfilter : (List.range' 0 2).filter (isStart .fourK b duplicates.length) =
        [0, 1] := List.filter_eq_self.mpr fun i hi => by
      rcases List.mem_pair.mp hi with rfl | rfl
      · exact isStart_zero
      · exact hstart
    exact congrArg (spans 2) hfilter
  have hseg := (segments_spec (isStart .fourK b duplicates.length)
    (Nat.zero_le duplicates.length) fun _ => isStart_zero).1
  rw [hsegs] at hseg
  have hgroups : groupsFrom .fourK b duplicates.length 0 = [b.group 0 1, b.group 1 2] := by
    rw [groupsFrom, hsegs]
    rfl
  rw [hgroups,
    chunks_of_length_le (by decide) (List.cons_ne_nil _ _) (show 2 ≤ kSchedKneeLimit by decide)]
    at hcalls
  obtain ⟨call, _, hcall, hnil, rfl⟩ := List.forall₂_cons_left_iff.mp hcalls
  obtain rfl := List.forall₂_nil_left_iff.mp hnil
  obtain ⟨c, cmds, hc, hcmds, hcons⟩ := List.forall₂_cons_left_iff.mp hcall
  obtain ⟨c', _, hc', hnil, rfl⟩ := List.forall₂_cons_left_iff.mp hcmds
  obtain rfl := List.forall₂_nil_left_iff.mp hnil
  have hw := write_group ha (by decide) (hseg (0, 1) (by decide)) hc
    PageCache.fourK.subpage_aligned (BitVec.toNat (w := 64))
  have hw' := write_group ha (by decide) (hseg (1, 1) (by decide)) hc'
    PageCache.fourK.subpage_aligned (BitVec.toNat (w := 64))
  have hpage : pageAt .fourK PageCache.fourK.subpage b 0 = (0, [4096#64]) := by
    rw [pageAt, hb.keys_eq 0 (by decide), hb.entry_eq 0 (by decide)]
    rfl
  have hpage' : pageAt .fourK PageCache.fourK.subpage b 1 = (0, [8192#64]) := by
    rw [pageAt, hb.keys_eq 1 (by decide), hb.entry_eq 1 (by decide)]
    rfl
  simp only [List.range'_one, List.map_cons, List.map_nil, hpage, hpage'] at hw hw'
  refine ⟨s', call, c, c', hrun, hcons, ?_, ?_⟩
  · rw [Call.exec, hcons]
    change c'.write _ _ 9 (c.write _ _ 9 _) 0 = _
    rw [hw', hw]
    decide
  · change c.write _ _ 9 (c'.write _ _ 9 _) 0 = _
    rw [hw', hw]
    decide

end Shaper.WriteOrder
