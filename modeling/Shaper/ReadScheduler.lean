import Shaper.KeySort
import Shaper.Lib.Counter

/-! The read kernel on a batch: sort in shared memory, merge around the padding, submit
on 32 queue pairs, notify; and what its commands leave in the buffers. -/
namespace Shaper.ReadScheduler
open Lib.Lists Lib.Overwrite Lib.Segments Nvme PrpBuild Merge MergeEffect Request WriteScheduler
  KeySort Function

def readBoundary (sh : Shared) (batch pos : Nat) : Bool :=
  if pos < batch then
    if sh.keys pos = keyMax then false
    else if pos = 0 then true
    else if sh.keys (pos-1) = keyMax then true
    else sh.batch.keys pos != sh.batch.keys (pos-1) + sh.batch.size (pos-1)
  else false

/-- `while (end > start && sh_keys[end - 1] == UINT64_MAX) end--;` -/
def trimEnd (sh : Shared) (start : Nat) : Nat → Nat
  | 0 => 0
  | e+1 => if start < e+1 ∧ sh.keys e = keyMax then trimEnd sh start e else e+1

def readOversized (sh : Shared) (start end_ : Nat) : Bool :=
  if sh.keys (end_-1) = keyMax then
    let end_ := trimEnd sh start end_
    end_ != start && decide (BitVec.ofNat 64 kSchedMergeTarget < sh.batch.runBytes start end_)
  else decide (BitVec.ofNat 64 kSchedMergeTarget < sh.batch.runBytes start end_)

def readPieces (sh : Shared) (start end_ : Nat) : List Nat :=
  let end_ := trimEnd sh start end_
  if end_ = start then [] else pieces sh.batch start end_

def readSplit (sh : Shared) (batch : Nat) (s : (Nat → Nat) × Nat) : (Nat → Nat) × Nat :=
  let oversized := (List.range s.2).countP fun i => readOversized sh (s.1 i) (endOf s.1 s.2 batch i)
  if oversized = 0 then s else resplit (readPieces sh) batch s

def readGroups (sh : Shared) (batch : Nat) (starts : Nat → Nat) : List Group :=
  let s := readSplit sh batch (detect (readBoundary sh batch) batch starts)
  (List.range s.2).map fun i =>
    sh.batch.group (s.1 i) (trimEnd sh (s.1 i) (endOf s.1 s.2 batch i))

def readBatch (pc : PageCache) (pool : Option PrpPool) (blkLog : Nat) (old : Shared)
    (reqs : List IoRequest)
    (starts : Nat → Nat) (mem : Nat → BitVec 64) : Option ((Nat → BitVec 64) × List Call) :=
  let sh := sortShared (loadShared old reqs)
  let gs := readGroups sh reqs.length starts
  submit pc pc.pageSubpage pool blkLog gs.length gs mem

def ringIdx (head capacityMask orig : BitVec 32) : Nat := ((head + orig) &&& capacityMask).toNat

def readNotify (sh : Shared) (batch : Nat) (head capacityMask : BitVec 32)
    (done : (Nat → BitVec 32) × (Nat → BitVec 32)) : (Nat → BitVec 32) × (Nat → BitVec 32) :=
  (List.range batch).foldl (fun done i =>
    if sh.keys i = keyMax then done
    else
      let orig := ioSchedKeyBatchIndex (sh.keys i)
      (update done.1 (ringIdx head capacityMask orig) (head + orig + 1#32),
        update done.2 (ringIdx head capacityMask orig) 1#32)) done

section Unpadded
variable {sh : Shared} {batch : Nat} (hkeys : ∀ pos < batch, sh.keys pos ≠ keyMax)
include hkeys

theorem readBoundary_eq : readBoundary sh batch = sh.batch.isBoundary batch := by
  funext pos
  rw [readBoundary, Batch.isBoundary]
  by_cases hpos : pos < batch
  · rw [if_pos hpos, if_neg (hkeys pos hpos), decide_eq_true hpos, Bool.true_and]
    by_cases h0 : pos = 0
    · rw [if_pos h0, h0]
      rfl
    · rw [if_neg h0, if_neg (hkeys (pos-1) (by omega)), beq_false_of_ne h0, Bool.false_or]
  · rw [if_neg hpos, decide_eq_false hpos, Bool.false_and]

theorem trimEnd_eq (start : Nat) {end_ : Nat} (hend : end_ ≤ batch) :
    trimEnd sh start end_ = end_ := by
  cases end_ with
  | zero => rfl
  | succ e => exact if_neg fun h => hkeys e (by omega) h.2

section Stretches
variable {s : (Nat → Nat) × Nat}
  (hs : ∀ i < s.2, s.1 i < endOf s.1 s.2 batch i ∧ endOf s.1 s.2 batch i ≤ batch)
include hs

theorem readOversized_count :
    ((List.range s.2).countP fun i => readOversized sh (s.1 i) (endOf s.1 s.2 batch i)) =
      (List.range s.2).countP fun i =>
        BitVec.ofNat 64 kSchedMergeTarget < sh.batch.runBytes (s.1 i) (endOf s.1 s.2 batch i) := by
  refine List.countP_congr fun i hi => ?_
  obtain ⟨hlt, hle⟩ := hs i (List.mem_range.mp hi)
  rw [readOversized, if_neg (hkeys _ (by omega))]

theorem resplit_readPieces :
    resplit (readPieces sh) batch s = resplit (pieces sh.batch) batch s := by
  refine resplit_congr fun i hi => ?_
  obtain ⟨hlt, hle⟩ := hs i hi
  simp only [readPieces, trimEnd_eq hkeys _ hle]
  exact if_neg (by omega)

theorem readSplit_eq : readSplit sh batch s = split sh.batch batch s := by
  rw [readSplit, split, readOversized_count hkeys hs, resplit_readPieces hkeys hs]

end Stretches

/-- The read kernel finds the groups that the write kernel finds. -/
theorem readGroups_groups (starts : Nat → Nat) :
    readGroups sh batch starts = groups sh.batch batch starts := by
  have hdetect := contents_detect (fun _ h => sh.batch.isBoundary_lt (N := batch) h) starts
  have hstarts := contents_starts sh.batch batch starts
  rw [← List.range_eq_range'] at hstarts
  simp only [readGroups, groups, readBoundary_eq hkeys, readSplit_eq hkeys fun i hi =>
    endOf_spec hdetect hi]
  refine List.map_congr_left fun i hi => ?_
  rw [trimEnd_eq hkeys _ (endOf_spec hstarts (List.mem_range.mp hi)).2]

theorem readGroups_eq {pc : PageCache} (hu : Uniform pc sh.batch batch) (starts : Nat → Nat) :
    readGroups sh batch starts = groupsFrom pc sh.batch batch 0 := by
  rw [readGroups_groups hkeys, hu.groups_eq]

end Unpadded

section Submit
variable {pc : PageCache} {resolve : BitVec 64 → Nat → BitVec 64} {blkLog : Nat}

/-- A batch of groups is one chunk, so its list pages stay as they are until the last call. -/
theorem submit_chunk (pool : PrpPool) {gs : List Group} (hle : gs.length ≤ kSchedMaxBatch)
    (hg : ∀ g ∈ gs, g.Ok pc resolve blkLog) (mem rest : Nat → BitVec 64) :
    ∃ last calls, submit pc resolve (some pool) blkLog gs.length gs mem = some (last, calls) ∧
      (∀ call ∈ calls, call.mem = last) ∧
      Submits pc resolve pool rest blkLog gs ⟨last, calls.flatMap Call.commands⟩ := by
  have hnil : ∀ fuel mem, submit pc resolve (some pool) blkLog fuel [] mem = some (mem, []) := by
    intro fuel mem
    cases fuel <;> rfl
  rcases eq_or_ne gs [] with rfl | hne
  · exact ⟨mem, [], hnil _ _, fun _ h => absurd h List.not_mem_nil, .nil⟩
  · obtain ⟨fuel, hfuel⟩ :=
      Nat.exists_eq_succ_of_ne_zero (Nat.ne_of_gt (List.length_pos_iff.mpr hne))
    have hchunk : min (min gs.length (poolSlots (some pool))) kSchedMaxBatch = gs.length := by
      rw [poolSlots, Nat.min_assoc, Nat.min_self, Nat.min_eq_left hle]
    have hbuilt := buildGroups_carries pool hg 0 (by omega) mem rest
    generalize hb : buildGroups pc resolve (some pool) blkLog 0 gs mem = built at hbuilt
    refine ⟨built.1, (chunks kSchedKneeLimit built.2).map (Call.mk built.1), ?_,
      fun call hcall => ?_, ?_⟩
    · rw [hfuel, submit, if_neg hne]
      simp only [hchunk, List.take_length, List.drop_length, hb, hnil, Option.map_some,
        List.append_nil]
    · obtain ⟨cmds, -, rfl⟩ := List.mem_map.mp hcall
      rfl
    · rw [List.flatMap_map, List.flatMap_id', flatten_chunks (by decide)]
      exact hbuilt

end Submit

section Moves

def pageMoves (p : Nat × List (BitVec 64)) : List (BitVec 64 × Nat) :=
  (List.range (4096*p.2.length)).map fun i =>
    (p.2.getD (i/4096) 0 + BitVec.ofNat 64 (i%4096), p.1 + i)

theorem pageMoves_append (off : Nat) (p q : List (BitVec 64)) :
    pageMoves (off, p ++ q) = pageMoves (off, p) ++ pageMoves (off + 4096*p.length, q) := by
  simp only [pageMoves]
  rw [List.length_append, Nat.mul_add, List.range_add, List.map_append, List.map_map]
  refine congrArg₂ (· ++ ·) (List.map_congr_left fun i hi => ?_) (List.map_congr_left fun i _ => ?_)
  · have hi' := List.mem_range.mp hi
    rw [List.getD_append _ _ _ _ (by omega)]
  · have hdiv : (4096*p.length + i)/4096 = i/4096 + p.length := by omega
    have hmod : (4096*p.length + i)%4096 = i%4096 := by omega
    rw [comp_apply, hdiv, hmod, List.getD_append_right _ _ _ _ (by omega), Nat.add_sub_cancel,
      Nat.add_assoc]

theorem pageMoves_chunks {ppe : Nat} (hppe : 0 < ppe) (off : Nat) {pages : List (BitVec 64)}
    (hdvd : ppe ∣ pages.length) : pageMoves (off, pages) =
      ((chunks ppe pages).mapIdx fun i p => (off + i*(4096*ppe), p)).flatMap pageMoves := by
  induction pages using chunks_induction hppe generalizing off with
  | hnil =>
    rw [chunks_nil hppe]
    rfl
  | hstep pages hne ih =>
    have hlen : (pages.take ppe).length = ppe := by
      rw [List.length_take, Nat.min_eq_left (Nat.le_of_dvd (List.length_pos_iff.mpr hne) hdvd)]
    have hdrop : ppe ∣ (pages.drop ppe).length := by
      rw [List.length_drop]
      exact Nat.dvd_sub hdvd (Nat.dvd_refl ppe)
    have hshift : (fun i (p : List (BitVec 64)) => (off + (i+1)*(4096*ppe), p)) =
        fun i p => (off + 4096*ppe + i*(4096*ppe), p) := by
      funext i p
      rw [Nat.succ_mul, Nat.add_assoc, Nat.add_comm (4096*ppe)]
    rw [chunks_cons hppe hne, List.mapIdx_cons, hshift, Nat.zero_mul, Nat.add_zero,
      List.flatMap_cons, ← ih (off + 4096*ppe) hdrop]
    nth_rewrite 1 [← List.take_append_drop ppe pages]
    rw [pageMoves_append, hlen]

theorem byteMoves_eq {load : BitVec 64 → BitVec 64} {blkLog ppe : Nat} {c : Command}
    (hppe : 0 < ppe) (hdvd : ppe ∣ (c.pages load blkLog).length)
    (hbytes : c.bytes blkLog = 4096 * (c.pages load blkLog).length)
    (halign : ((c.pages load blkLog).headD 0).toNat % 4096 = 0) :
    c.byteMoves load blkLog = (Command.pageWrites load blkLog ppe c).flatMap pageMoves := by
  rw [Command.pageWrites, ← pageMoves_chunks hppe _ hdvd, pageMoves, Command.byteMoves, hbytes]
  exact List.map_congr_left fun i _ => by rw [byteAddr_aligned halign]

theorem byteMoves_call {pc : PageCache} {resolve : BitVec 64 → Nat → BitVec 64} {pool : PrpPool}
    {rest : Nat → BitVec 64} {blkLog : Nat} {gs : List Group} {call : Call}
    (hg : ∀ g ∈ gs, g.Ok pc resolve blkLog) (hres : ∀ pe j, (resolve pe j).toNat % 4096 = 0)
    (hcall : Submits pc resolve pool rest blkLog gs call) :
    call.commands.flatMap (Command.byteMoves (pool.load call.mem rest) blkLog) =
      (Call.pageWrites pool rest blkLog pc.pagesPerEntry call).flatMap pageMoves := by
  rw [Call.pageWrites, List.flatMap_assoc]
  refine List.flatMap_congr fun c hc => ?_
  obtain ⟨g, hok, hcarries⟩ := exists_of_forall₂ ((List.forall₂_and_left _ _).mpr ⟨hg, hcall⟩) hc
  obtain ⟨hdvd, hbytes, halign⟩ := carries_whole hcarries hok.fits.nonempty hres
  exact byteMoves_eq pc.ppe_pos hdvd hbytes halign

end Moves

section Buffers
variable {pc : PageCache}

structure ReadRequest (pc : PageCache) (r : IoRequest) : Prop where
  offset_lt : r.byteOffset.toNat < 2^55
  offset_dvd : pc.pageSize ∣ r.byteOffset.toNat
  size_eq : r.nBytesLog2 = ioSchedEncodeNbytes (BitVec.ofNat 64 pc.pageSize)
  entry_lt : r.pcEntry.toNat < pc.nPages

theorem ReadRequest.untagged {r : IoRequest} (h : ReadRequest pc r) : r.pcEntry.toNat < 2^63 :=
  (PageCache.le_two_pow h.entry_lt pc.pages_le).trans (by decide)

theorem ReadRequest.asks {r : IoRequest} (h : ReadRequest pc r) : Asks pc r := by
  refine ⟨h.offset_lt, h.offset_dvd, h.size_eq, ?_⟩
  rw [entryOf, if_pos h.untagged]
  exact h.entry_lt

def bufferByte (pc : PageCache) (r : IoRequest) (k : Nat) : BitVec 64 :=
  pc.pageIoaddrs (r.pcEntry.toNat * pc.pagesPerEntry + k/4096) + BitVec.ofNat 64 (k%4096)

def Distinct (pc : PageCache) : Prop :=
  ∀ i < pc.nPages * pc.pagesPerEntry, ∀ k < pc.nPages * pc.pagesPerEntry,
    pc.pageIoaddrs i = pc.pageIoaddrs k → i = k

theorem pageMoves_request {r : IoRequest} (h : ReadRequest pc r) :
    pageMoves (pageOf pc pc.pageSubpage r) =
    (List.range pc.pageSize).map fun k => (bufferByte pc r k, r.byteOffset.toNat + k) := by
  simp only [pageMoves, pageOf]
  rw [List.length_map, List.length_range, ← PageCache.pageSize]
  refine List.map_congr_left fun k hk => ?_
  have hj : k/4096 < pc.pagesPerEntry := by
    have : k < 4096 * pc.pagesPerEntry := List.mem_range.mp hk
    omega
  rw [List.getD_eq_getElem _ _ (by simpa using hj), List.getElem_map, List.getElem_range,
    pc.pageSubpage_eq h.entry_lt hj]
  rfl

theorem toNat_bufferByte (r : IoRequest) (k : Nat) : (bufferByte pc r k).toNat =
    (pc.pageIoaddrs (r.pcEntry.toNat * pc.pagesPerEntry + k/4096)).toNat + k%4096 := by
  have halign := pc.page_aligned (r.pcEntry.toNat * pc.pagesPerEntry + k/4096)
  have hlt := (pc.pageIoaddrs (r.pcEntry.toNat * pc.pagesPerEntry + k/4096)).isLt
  rw [bufferByte, BitVec.toNat_add, BitVec.toNat_ofNat]
  omega

/-- No two bytes of buffers of different entries are at one address. -/
theorem bufferByte_inj (hdist : Distinct pc) {r r' : IoRequest} (h : ReadRequest pc r)
    (h' : ReadRequest pc r')
    {k k' : Nat} (hk : k < pc.pageSize) (hk' : k' < pc.pageSize)
    (heq : bufferByte pc r k = bufferByte pc r' k') : r.pcEntry = r'.pcEntry ∧ k = k' := by
  rw [PageCache.pageSize] at hk hk'
  have hj : k/4096 < pc.pagesPerEntry := by omega
  have hj' : k'/4096 < pc.pagesPerEntry := by omega
  have halign := pc.page_aligned (r.pcEntry.toNat * pc.pagesPerEntry + k/4096)
  have halign' := pc.page_aligned (r'.pcEntry.toNat * pc.pagesPerEntry + k'/4096)
  have hnat := congrArg BitVec.toNat heq
  rw [toNat_bufferByte, toNat_bufferByte] at hnat
  have hrow := hdist _ (row_lt h.entry_lt hj le_rfl) _ (row_lt h'.entry_lt hj' le_rfl)
    (BitVec.eq_of_toNat_eq (by omega))
  have hmod := congrArg (· % pc.pagesPerEntry) hrow
  have hdiv := congrArg (· / pc.pagesPerEntry) hrow
  simp only [Nat.mul_add_mod', Nat.mod_eq_of_lt hj, Nat.mod_eq_of_lt hj'] at hmod
  simp only [Nat.mul_comm _ pc.pagesPerEntry, Nat.mul_add_div pc.ppe_pos, Nat.div_eq_of_lt hj,
    Nat.div_eq_of_lt hj', Nat.add_zero] at hdiv
  exact ⟨BitVec.eq_of_toNat_eq hdiv, by omega⟩

def requestMoves (pc : PageCache) (reqs : List IoRequest) : List (BitVec 64 × Nat) :=
  reqs.flatMap fun r => (List.range pc.pageSize).map fun k =>
    (bufferByte pc r k, r.byteOffset.toNat + k)

theorem mem_requestMoves {reqs : List IoRequest} {move : BitVec 64 × Nat} :
    move ∈ requestMoves pc reqs ↔
    ∃ r ∈ reqs, ∃ k < pc.pageSize, move = (bufferByte pc r k, r.byteOffset.toNat + k) := by
  simp only [requestMoves, List.mem_flatMap, List.mem_map, List.mem_range, eq_comm]

variable {β : Type*} {reqs : List IoRequest}

/-- Memory after the moves, in any order: the buffers hold what was asked for, and the rest is
as it was. -/
theorem moves_fill (hdist : Distinct pc) (hreq : ∀ r ∈ reqs, ReadRequest pc r)
    (hnodup : (reqs.map IoRequest.pcEntry).Nodup) {moves : List (BitVec 64 × Nat)}
    (hperm : moves.Perm (requestMoves pc reqs)) (disk : Nat → β) (ram : BitVec 64 → β) :
    (∀ r ∈ reqs, ∀ k < pc.pageSize,
      applyAll (fun move ram => update ram move.1 (disk move.2)) moves ram (bufferByte pc r k) =
        disk (r.byteOffset.toNat + k)) ∧
    ∀ a, (∀ r ∈ reqs, ∀ k < pc.pageSize, bufferByte pc r k ≠ a) →
      applyAll (fun move ram => update ram move.1 (disk move.2)) moves ram a = ram a := by
  have hover := overwrites_update (β := β) (fun move : BitVec 64 × Nat => move.1) fun move =>
    disk move.2
  refine ⟨fun r hr k hk => hover.applyAll_value (fun move hmove htouch d => ?_) ?_ ram,
    fun a ha => ?_⟩
  · obtain ⟨r', hr', k', hk', rfl⟩ := mem_requestMoves.mp (hperm.mem_iff.mp hmove)
    have heq := of_decide_eq_true htouch
    obtain ⟨hpe, rfl⟩ := bufferByte_inj hdist (hreq r' hr') (hreq r hr) hk' hk heq
    obtain rfl := List.inj_on_of_nodup_map hnodup hr' hr hpe
    exact update_self _ _ _
  · exact ⟨_, hperm.mem_iff.mpr (mem_requestMoves.mpr ⟨r, hr, k, hk, rfl⟩), decide_eq_true rfl⟩
  · refine hover.applyAll_other (fun move hmove => ?_) ram
    obtain ⟨r, hr, k, hk, rfl⟩ := mem_requestMoves.mp (hperm.mem_iff.mp hmove)
    exact decide_eq_false (ha r hr k hk)

end Buffers

section Notify
variable {reqs : List IoRequest} {c : Nat} {head : BitVec 32}

/-- `capacity_mask` of a ring with `2^c` cells. -/
def ringMask (c : Nat) : BitVec 32 := BitVec.ofNat 32 (2^c) - 1#32

theorem ringIdx_eq (hc : c < 32) (head : BitVec 32) (i : Nat) :
    ringIdx head (ringMask c) (BitVec.ofNat 32 i) = (head.toNat + i) % 2^c := by
  have hlt : (head.toNat + i) % 2^c < 2^32 :=
    (Nat.mod_lt _ (Nat.two_pow_pos c)).trans (Nat.pow_lt_pow_right (by decide) hc)
  have hsum : head + BitVec.ofNat 32 i = BitVec.ofNat 32 (head.toNat + i) := by
    rw [BitVec.ofNat_add, BitVec.ofNat_toNat, BitVec.setWidth_eq]
  rw [ringIdx, ringMask, hsum, Lib.Counter.and_mask hc, BitVec.toNat_ofNat, Nat.mod_eq_of_lt hlt]

/-- A batch that fits the ring has a cell for each of its slots. -/
theorem ringIdx_inj (hc : c < 32) {n i j : Nat} (hn : n ≤ 2^c) (hi : i < n) (hj : j < n)
    (heq : ringIdx head (ringMask c) (BitVec.ofNat 32 i) =
      ringIdx head (ringMask c) (BitVec.ofNat 32 j)) :
    i = j := by
  rw [ringIdx_eq hc, ringIdx_eq hc] at heq
  rcases Nat.lt_trichotomy i j with h | h | h
  · have := Lib.Counter.lap_le heq (show head.toNat + i < head.toNat + j by omega)
    omega
  · exact h
  · have := Lib.Counter.lap_le heq.symm (show head.toNat + j < head.toNat + i by omega)
    omega

theorem readNotify_eq {sh : Shared} {batch : Nat} (hkeys : ∀ pos < batch, sh.keys pos ≠ keyMax)
    (head mask : BitVec 32) (done : (Nat → BitVec 32) × (Nat → BitVec 32)) :
    readNotify sh batch head mask done =
      (applyAll (fun i seq => update seq (ringIdx head mask (ioSchedKeyBatchIndex (sh.keys i)))
          (head + ioSchedKeyBatchIndex (sh.keys i) + 1#32)) (List.range batch) done.1,
        applyAll
        (fun i flags => update flags (ringIdx head mask (ioSchedKeyBatchIndex (sh.keys i))) 1#32)
          (List.range batch) done.2) := by
  have hgen : ∀ l : List Nat, (∀ i ∈ l, sh.keys i ≠ keyMax) →
      ∀ done : (Nat → BitVec 32) × (Nat → BitVec 32), l.foldl (fun done i =>
        if sh.keys i = keyMax then done
        else (update done.1 (ringIdx head mask (ioSchedKeyBatchIndex (sh.keys i)))
            (head + ioSchedKeyBatchIndex (sh.keys i) + 1#32),
          update done.2 (ringIdx head mask (ioSchedKeyBatchIndex (sh.keys i))) 1#32)) done =
        (applyAll (fun i seq => update seq (ringIdx head mask (ioSchedKeyBatchIndex (sh.keys i)))
            (head + ioSchedKeyBatchIndex (sh.keys i) + 1#32)) l done.1,
          applyAll
          (fun i flags => update flags (ringIdx head mask (ioSchedKeyBatchIndex (sh.keys i))) 1#32)
            l done.2) := by
    intro l hl
    induction l with
    | nil => exact fun _ => rfl
    | cons i l ih =>
      intro done
      rw [List.foldl_cons, if_neg (hl i List.mem_cons_self),
        ih fun j hj => hl j (List.mem_cons_of_mem _ hj)]
      rfl
  exact hgen _ (fun i hi => hkeys i (List.mem_range.mp hi)) done

/-- Each slot of the batch, and no other cell, is stamped with its ticket. -/
theorem readNotify_spec (hp : Packs reqs) (old : Shared) (hc : c < 32) (hfit : reqs.length ≤ 2^c)
    (head : BitVec 32) (done : (Nat → BitVec 32) × (Nat → BitVec 32)) :
    let done' := readNotify (sortShared (loadShared old reqs)) reqs.length head (ringMask c) done
    (∀ i < reqs.length, done'.1 (ringIdx head (ringMask c) (BitVec.ofNat 32 i)) =
      head + BitVec.ofNat 32 i + 1#32 ∧
      done'.2 (ringIdx head (ringMask c) (BitVec.ofNat 32 i)) = 1#32) ∧
    ∀ x, (∀ i < reqs.length, ringIdx head (ringMask c) (BitVec.ofNat 32 i) ≠ x) →
      done'.1 x = done.1 x ∧ done'.2 x = done.2 x := by
  obtain ⟨-, -, -, hkeys⟩ := hp.sortShared_lists old
  have hindex := batchIndex_perm hp.le old
  generalize sortShared (loadShared old reqs) = sh at hkeys hindex
  rw [readNotify_eq hkeys]
  have hseq :=
    overwrites_update (fun i => ringIdx head (ringMask c) (ioSchedKeyBatchIndex (sh.keys i)))
    fun i => head + ioSchedKeyBatchIndex (sh.keys i) + 1#32
  have hflag :=
    overwrites_update (fun i => ringIdx head (ringMask c) (ioSchedKeyBatchIndex (sh.keys i)))
    fun _ => 1#32
  -- position and slot of a key
  have hslot : ∀ pos ∈ List.range reqs.length, ∃ i < reqs.length,
      ioSchedKeyBatchIndex (sh.keys pos) = BitVec.ofNat 32 i := by
    intro pos hpos
    obtain ⟨i, hi, heq⟩ := List.mem_map.mp (hindex.mem_iff.mp (List.mem_map_of_mem hpos))
    exact ⟨i, List.mem_range.mp hi, heq.symm⟩
  have hpos : ∀ i < reqs.length, ∃ pos ∈ List.range reqs.length,
      ioSchedKeyBatchIndex (sh.keys pos) = BitVec.ofNat 32 i := fun i hi =>
    List.mem_map.mp (hindex.mem_iff.mpr (List.mem_map_of_mem (List.mem_range.mpr hi)))
  refine ⟨fun i hi => ⟨?_, ?_⟩, fun x hx => ⟨?_, ?_⟩⟩
  · obtain ⟨pos, hmem, hidx⟩ := hpos i hi
    refine hseq.applyAll_value (fun pos' hmem' htouch d => ?_) ⟨pos, hmem,
      decide_eq_true (by rw [hidx])⟩ _
    obtain ⟨j, hj, hidx'⟩ := hslot pos' hmem'
    have heq := of_decide_eq_true htouch
    rw [hidx'] at heq
    obtain rfl := ringIdx_inj hc hfit hj hi heq
    rw [hidx', update_self]
  · obtain ⟨pos, hmem, hidx⟩ := hpos i hi
    refine hflag.applyAll_value (fun pos' _ htouch d => ?_) ⟨pos, hmem,
      decide_eq_true (by rw [hidx])⟩ _
    rw [of_decide_eq_true htouch, update_self]
  · refine hseq.applyAll_other (fun pos hmem => decide_eq_false ?_) _
    obtain ⟨i, hi, hidx⟩ := hslot pos hmem
    rw [hidx]
    exact hx i hi
  · refine hflag.applyAll_other (fun pos hmem => decide_eq_false ?_) _
    obtain ⟨i, hi, hidx⟩ := hslot pos hmem
    rw [hidx]
    exact hx i hi

end Notify

section Kernel
variable {β : Type*} {pc : PageCache} {blkLog c : Nat} {reqs : List IoRequest}

/-- The commands of a batch, taken together, move the bytes of its requests. -/
theorem readBatch_moves (pool : PrpPool) (hppe : pc.pagesPerEntry ∣ 512) (h9 : 9 ≤ blkLog)
    (hblk : 2^blkLog ∣ pc.pageSize) (hlen : reqs.length ≤ kSchedMaxBatch)
    (hreq : ∀ r ∈ reqs, ReadRequest pc r) (old : Shared) (starts : Nat → Nat)
    (mem rest : Nat → BitVec 64) :
    ∃ last calls, readBatch pc (some pool) blkLog old reqs starts mem = some (last, calls) ∧
      (∀ call ∈ calls, call.mem = last) ∧
      ((calls.flatMap Call.commands).flatMap (Command.byteMoves (pool.load last rest) blkLog)).Perm
        (requestMoves pc reqs) := by
  have hasks : ∀ r ∈ reqs, Asks pc r := fun r hr => (hreq r hr).asks
  obtain ⟨S, hperm, hlists, hkeys⟩ := (Packs.of_asks hlen hasks).sortShared_lists old
  have hS := hperm.length_eq
  have ha := aligned_of_lists hppe (hS.trans_le (hlen.trans (by decide))) hlists
    fun r hr => hasks r (hperm.mem_iff.mp hr)
  simp only [readBatch]
  generalize sortShared (loadShared old reqs) = sh at hlists hkeys ha
  have hgroups := readGroups_eq hkeys (hS ▸ ha.toUniform) starts
  have hok := ha.toUniform.groupsFrom_ok pc.pageSubpage_aligned h9 hblk (Nat.zero_le _) fun _ =>
    isStart_zero
  have hcount := length_groupsFrom_le pc sh.batch S.length
  obtain ⟨last, calls, hrun, hmem, hcall⟩ := submit_chunk pool (by omega) hok mem rest
  refine ⟨last, calls, by rw [hgroups, ← hS]; exact hrun, hmem, ?_⟩
  have hmoves := byteMoves_call hok pc.pageSubpage_aligned hcall
  rw [hmoves]
  refine ((pageWrites_perm ha hblk hlists hperm hcall).flatMap_right pageMoves).trans (.of_eq ?_)
  rw [List.flatMap_map, requestMoves]
  exact List.flatMap_congr fun r hr => pageMoves_request (hreq r hr)

/-- The commands of the read kernel, done in any order, fill the buffer of each request with the
page it asks for and change no other byte of memory; then each slot of the batch, and no
other, gets its stamp. -/
theorem reads_as_requested (pool : PrpPool) (hppe : pc.pagesPerEntry ∣ 512) (h9 : 9 ≤ blkLog)
    (hblk : 2^blkLog ∣ pc.pageSize) (hdist : Distinct pc) (hlen : reqs.length ≤ kSchedMaxBatch)
    (hreq : ∀ r ∈ reqs, ReadRequest pc r) (hnodup : (reqs.map IoRequest.pcEntry).Nodup)
    (hc : c < 32)
    (hfit : reqs.length ≤ 2^c) (old : Shared) (starts : Nat → Nat) (mem rest : Nat → BitVec 64) :
    (∃ last calls, readBatch pc (some pool) blkLog old reqs starts mem = some (last, calls) ∧
      (∀ call ∈ calls, call.mem = last) ∧
      ∀ order : List Command, order.Perm (calls.flatMap Call.commands) →
        ∀ (disk : Nat → β) (ram : BitVec 64 → β),
          (∀ r ∈ reqs, ∀ k < pc.pageSize,
            applyAll (Command.read (pool.load last rest) disk blkLog) order ram
            (bufferByte pc r k) =
              disk (r.byteOffset.toNat + k)) ∧
          ∀ a, (∀ r ∈ reqs, ∀ k < pc.pageSize, bufferByte pc r k ≠ a) →
            applyAll (Command.read (pool.load last rest) disk blkLog) order ram a = ram a) ∧
    ∀ (head : BitVec 32) (done : (Nat → BitVec 32) × (Nat → BitVec 32)),
      let done' := readNotify (sortShared (loadShared old reqs)) reqs.length head (ringMask c) done
      (∀ i < reqs.length,
        done'.1 (ringIdx head (ringMask c) (BitVec.ofNat 32 i)) = head + BitVec.ofNat 32 i + 1#32 ∧
        done'.2 (ringIdx head (ringMask c) (BitVec.ofNat 32 i)) = 1#32) ∧
      ∀ x, (∀ i < reqs.length, ringIdx head (ringMask c) (BitVec.ofNat 32 i) ≠ x) →
        done'.1 x = done.1 x ∧ done'.2 x = done.2 x := by
  refine ⟨?_, readNotify_spec (Packs.of_asks hlen fun r hr => (hreq r hr).asks) old hc hfit⟩
  obtain ⟨last, calls, hrun, hmem, hmoves⟩ :=
    readBatch_moves pool hppe h9 hblk hlen hreq old starts mem rest
  refine ⟨last, calls, hrun, hmem, fun order horder disk ram => ?_⟩
  have hfill := moves_fill hdist hreq hnodup ((horder.flatMap_right _).trans hmoves) disk ram
  rwa [applyAll_flatMap] at hfill

end Kernel

theorem fourK_distinct : Distinct .fourK := by
  intro i hi k hk h
  have hi' : i < 2^20 := by simpa [PageCache.fourK, PageCache.inOrder] using hi
  have hk' : k < 2^20 := by simpa [PageCache.fourK, PageCache.inOrder] using hk
  have := congrArg BitVec.toNat h
  simp only [PageCache.fourK, PageCache.inOrder, BitVec.toNat_ofNat] at this
  omega

def twoReads : List IoRequest := [⟨4096#64, 7#64, 0#8, 12#8⟩, ⟨0#64, 3#64, 0#8, 12#8⟩]

theorem twoReads_request : ∀ r ∈ twoReads, ReadRequest .fourK r := by
  intro r hr
  rcases List.mem_pair.mp hr with rfl | rfl
  · exact ⟨by decide, by decide, by decide, show (7 : Nat) < 2^20 by decide⟩
  · exact ⟨by decide, by decide, by decide, show (3 : Nat) < 2^20 by decide⟩

theorem twoReads_filled : ∃ last calls,
    readBatch .fourK (some .inOrder) 9 .zero twoReads (fun _ => 0)
    (fun _ => 0) = some (last, calls) ∧
      ∀ order : List Command, order.Perm (calls.flatMap Call.commands) → ∀ disk : Nat → Nat,
        applyAll (Command.read (PrpPool.inOrder.load last fun _ => 0) disk 9) order (fun _ => 0)
          (bufferByte .fourK ⟨0#64, 3#64, 0#8, 12#8⟩ 5) = disk 5 := by
  obtain ⟨⟨last, calls, hrun, -, hread⟩, -⟩ := reads_as_requested (β := Nat) .inOrder (by decide)
    (show 9 ≤ 9 by decide) (by decide) fourK_distinct (by decide) twoReads_request (by decide)
    (show 9 < 32 by decide) (by decide) .zero (fun _ => 0) (fun _ => 0) fun _ => 0
  refine ⟨last, calls, hrun, fun order horder disk => ?_⟩
  exact (hread order horder disk _).1 _ (List.mem_cons_of_mem _ List.mem_cons_self) 5 (by decide)

end Shaper.ReadScheduler
