import Shaper.WriteBackData

/-! The whole run: the submit phase resolves each request of its batch to the buffer that has the
evicted contents, its moves bring them to storage, and nobody writes that buffer or that place
meanwhile. -/
namespace Shaper.WriteBack
open Function RingInvariant RingSchedule VictimBuffer PrpBuild Request Merge MergeScratch

variable {β : Type*} {u : Setup} {s s' : State β} {σ σ' : Equiv.Perm Holder} {i g p x y : Nat}
  {k : Nat ⊕ Nat}
  {q q' : BitVec 64} {h b b' : Holder} {vic : VictimBuffer.State} {todo : List (BitVec 64 × Nat)}
  {gs : List Group}

section Addresses

theorem toNat_byteAt {a : BitVec 64} (ha : a.toNat % 4096 = 0) (x : Nat) :
    (byteAt a x).toNat = a.toNat + x%4096 := by
  have hlt := a.isLt
  rw [byteAt, BitVec.toNat_add, BitVec.toNat_ofNat]
  omega

theorem byteAt_inj (hb : u.Has b) (hb' : u.Has b') (hx : x < u.bytes) (hy : y < u.bytes)
    (heq : byteAt (u.ioaddr b (x/4096)) x = byteAt (u.ioaddr b' (y/4096)) y) : b = b' ∧ x = y := by
  have ha := u.aligned b (x/4096)
  have ha' := u.aligned b' (y/4096)
  have hnat := congrArg BitVec.toNat heq
  rw [toNat_byteAt ha, toNat_byteAt ha'] at hnat
  obtain ⟨hbb, hdiv⟩ := u.ioaddr_inj b b' (x/4096) (y/4096) hb hb' (Nat.div_lt_of_lt_mul hx)
    (Nat.div_lt_of_lt_mul hy) (BitVec.eq_of_toNat_eq (by omega))
  exact ⟨hbb, by omega⟩

theorem place_inj (hq : u.Place q) (hq' : u.Place q') (hx : x < u.bytes) (hy : y < u.bytes)
    (heq : q.toNat + x = q'.toNat + y) : q = q' ∧ x = y := by
  obtain ⟨a, ha⟩ := hq.dvd
  obtain ⟨a', ha'⟩ := hq'.dvd
  rw [ha, ha', Nat.mul_comm u.bytes, Nat.mul_comm u.bytes] at heq
  obtain ⟨haa, hxy⟩ := flat_inj hx hy heq
  exact ⟨BitVec.eq_of_toNat_eq (by rw [ha, ha', haa]), hxy⟩

end Addresses

section Victim
variable {s s' : VictimBuffer.State}

def Batched (s : VictimBuffer.State) (g : Nat) (q : BitVec 64) (h : Holder) : Prop :=
  Pending s (.inr g) q h ∧ g < s.ring.drained.length

theorem calls_keep (ht : Trans u.toSetup s s') (hg : g < s.ring.claimed) : g < s'.ring.claimed ∧
    (s'.ring.calls g).byteOffset = (s.ring.calls g).byteOffset ∧
    (s'.ring.calls g).pcEntry = (s.ring.calls g).pcEntry ∧
    (s'.ring.calls g).api = (s.ring.calls g).api := by
  have hquiet : ∀ {ring : RingMachine.State}, VictimBuffer.Quiet s.ring ring → g < ring.claimed ∧
      (ring.calls g).byteOffset = (s.ring.calls g).byteOffset ∧
      (ring.calls g).pcEntry = (s.ring.calls g).pcEntry ∧
      (ring.calls g).api = (s.ring.calls g).api := by
    intro ring hq
    obtain ⟨pc, hpc, -⟩ := hq.calls_eq g
    rw [hpc, hq.claimed_eq]
    exact ⟨hg, rfl, rfl, rfl⟩
  cases ht with
  | swap i j st hi =>
    obtain ⟨-, -, -, -, hring, -⟩ := swapStep_frame (u := u.toSetup) (s := s) i j st
    rw [hring]
    exact ⟨hg, rfl, rfl, rfl⟩
  | enqueue i j hi =>
    refine ⟨Nat.lt_succ_of_lt hg, ?_⟩
    rw [claim_calls_of_lt hg]
    exact ⟨rfl, rfl, rfl⟩
  | block i p byteOffset hi _ =>
    refine ⟨Nat.lt_succ_of_lt hg, ?_⟩
    rw [claim_calls_of_lt hg]
    exact ⟨rfl, rfl, rfl⟩
  | call i p g ring _ hring => exact hquiet (quiet_call hring)
  | sched pick ring hring => exact hquiet (quiet_sched hring)
  | shutdown ring hring => exact hquiet (quiet_shutdown hring)
  | _ => exact ⟨hg, rfl, rfl, rfl⟩

theorem SafeCalls.before (hsafe : SafeCalls u.toSetup s') (ht : Trans u.toSetup s s') :
    SafeCalls u.toSetup s := by
  intro g hg hapi
  obtain ⟨hlt, -, -, heq⟩ := calls_keep ht hg
  exact hsafe g hlt (heq.trans hapi)

/-- The batch stays as it is while the block is in its submit phase. -/
theorem batched_iff (hr : VictimBuffer.Reach u.toSetup s) (ht : Trans u.toSetup s s')
    (hst : Steady s.ring s'.ring)
    (hphase : s.ring.sched.phase = .submit) : Batched s' g q h ↔ Batched s g q h := by
  obtain ⟨-, hdrained⟩ := hst.sched_eq hphase
  have hle := drained_le_claimed (inv_of_reach hr.control.2)
  simp only [Batched, Pending, hst.submitted_eq, hdrained]
  refine and_congr_left fun hg => and_congr_right fun _ => ?_
  have hlt : g < s.ring.claimed := by omega
  obtain ⟨hlt', hoff, hpe, -⟩ := calls_keep ht hlt
  rw [hoff, hpe, iff_true_intro hlt, iff_true_intro hlt']

theorem batched_submit (hr : VictimBuffer.Reach u.toSetup s)
    (hphase : s.ring.sched.phase = .submit) :
    Batch u.ring s.ring ∧ ∀ g q h, Batched s g q h ↔
    ∃ j < s.ring.sched.acc, g = s.ring.retired + j ∧
      (s.ring.sched.buf j).byteOffset = q ∧ holderOf (s.ring.sched.buf j).pcEntry = h := by
  have hok := (inv_of_reach hr.control.2).phase_ok
  rw [hphase] at hok
  obtain ⟨⟨hbatch, hsub⟩, -⟩ := hok
  refine ⟨hbatch, fun g q h => ⟨?_, ?_⟩⟩
  · rintro ⟨⟨hlo, -, hq, hh⟩, hlt⟩
    rw [hbatch.log] at hlt
    obtain ⟨j, rfl⟩ := Nat.exists_eq_add_of_le (hsub ▸ hlo)
    have hj : j < s.ring.sched.acc := by omega
    refine ⟨j, hj, rfl, ?_⟩
    rw [(hbatch.got j hj).2]
    exact ⟨hq, hh⟩
  · rintro ⟨j, hj, rfl, hq, hh⟩
    obtain ⟨hpub, hbuf⟩ := hbatch.got j hj
    rw [hbuf] at hq hh
    refine ⟨⟨?_, hpub.1, hq, hh⟩, ?_⟩
    · rw [hsub]
      exact Nat.le_add_right _ _
    · rw [hbatch.log]
      omega

theorem Sound.cell (hs : Sound u s) (t : Tables u.toSetup s σ) (hk : Pending s (.inr g) q h)
    {k : Nat}
    (hlt : k < u.ppe) :
    cellValue s (cellOf u.ppe (s.ring.calls g).pcEntry k) = u.ioaddr (σ h) k := by
  have hout := hs.settled hk
  have hhas := hs.has hk
  have hrow := t.settled h hhas hout (k+1) (Nat.succ_lt_succ hlt)
  obtain ⟨hlo, hg, -, hh⟩ := hk
  refine Eq.trans ?_ hrow
  rcases hs.request hlo hg with ⟨v, hv, hname, hent, -⟩ | ⟨p, hp, hname, hpage, -⟩
  · obtain rfl := hent.symm.trans hh
    have hv31 : v < 2^31 := Nat.lt_of_lt_of_le hv u.nEntries_le
    have hidx : ((victimPe v &&& VictimPcEntryMask).setWidth 32).toNat = v :=
      victimIdx_victimPe hv31
    have hindex := u.cache.index32 (hidx.trans_lt hv) hlt u.entries_le
    rw [hidx] at hindex
    rw [cellOf, hname, if_pos (isVictim_victimPe hv31)]
    exact congrArg s.dataIoaddrs hindex
  · obtain rfl := hpage.symm.trans hh
    have hp31 : p < 2^31 := Nat.lt_trans hp u.nPages_lt
    have hlt64 := row_lt hp hlt u.pages_le
    have hppe := u.ppe_le
    rw [cellOf, hname, page_not_victim hp31, if_neg Bool.false_ne_true, BitVec.toNat_add,
      BitVec.toNat_mul, BitVec.toNat_ofNat, BitVec.toNat_ofNat, BitVec.toNat_ofNat,
      Nat.mod_eq_of_lt (show p < 2^64 by omega), Nat.mod_eq_of_lt (show u.ppe < 2^64 by omega),
      Nat.mod_eq_of_lt (show k < 2^64 by omega), Nat.mod_eq_of_lt (show p * u.ppe < 2^64 by omega),
      Nat.mod_eq_of_lt (show p * u.ppe + k < 2^64 by omega)]
    rfl

end Victim

structure Working (u : Setup) (s : State β) (σ : Equiv.Perm Holder) (todo : List (BitVec 64 × Nat))
    (gs : List Group) : Prop where
  phase : s.vic.ring.sched.phase = .submit
  whole : ∀ g ∈ gs, Whole u g
  named : ∀ page ∈ gs.flatMap (groupPages u.bytes), ∃ g q h, Batched s.vic g q h ∧
    page = (q.toNat, (s.vic.ring.calls g).pcEntry)
  moves : ∀ m ∈ todo, ∃ g q h x, Batched s.vic g q h ∧ x < u.bytes ∧
    m = (byteAt (u.ioaddr (σ h) (x/4096)) x, q.toNat + x)
  cover : ∀ g q h c, Batched s.vic g q h → s.last q = some c → ∀ x < u.bytes,
    s.disk (q.toNat + x) = c x ∨
    (q.toNat, (s.vic.ring.calls g).pcEntry) ∈ gs.flatMap (groupPages u.bytes) ∨
      (byteAt (u.ioaddr (σ h) (x/4096)) x, q.toNat + x) ∈ todo
  seen : ∀ g q h, Batched s.vic g q h → ∀ k < u.ppe, ∀ a,
    s.seen (cellOf u.ppe (s.vic.ring.calls g).pcEntry k) = some a → a = u.ioaddr (σ h) k
  aligned : ∀ c a, s.seen c = some a → a.toNat % 4096 = 0

def InWork (u : Setup) (s : State β) (σ : Equiv.Perm Holder) : Prop :=
  match s.work with
  | .idle => True
  | .merging gs => Working u s σ [] gs
  | .calling todo gs => Working u s σ todo.flatten gs

namespace Working

theorem frame (w : Working u s σ todo gs) (hphase : s'.vic.ring.sched.phase = .submit)
    (hb : ∀ g q h, Batched s'.vic g q h ↔ Batched s.vic g q h)
    (hsame : ∀ g q h, Batched s.vic g q h →
      (s'.vic.ring.calls g).pcEntry = (s.vic.ring.calls g).pcEntry ∧
      σ' h = σ h ∧ s'.last q = s.last q)
    (hdisk : s'.disk = s.disk) (hseen : s'.seen = s.seen) : Working u s' σ' todo gs where
  phase := hphase
  whole := w.whole
  named page hpage := by
    obtain ⟨g, q, h, hg, rfl⟩ := w.named page hpage
    exact ⟨g, q, h, (hb g q h).2 hg, by rw [(hsame g q h hg).1]⟩
  moves m hm := by
    obtain ⟨g, q, h, x, hg, hx, rfl⟩ := w.moves m hm
    exact ⟨g, q, h, x, (hb g q h).2 hg, hx, by rw [(hsame g q h hg).2.1]⟩
  cover g q h c hg hc x hx := by
    have hg := (hb g q h).1 hg
    obtain ⟨hpe, hσ, hlast⟩ := hsame g q h hg
    rw [hdisk, hpe, hσ]
    exact w.cover g q h c hg (hlast ▸ hc) x hx
  seen g q h hg k hk a ha := by
    have hg := (hb g q h).1 hg
    obtain ⟨hpe, hσ, -⟩ := hsame g q h hg
    rw [hpe, hseen] at ha
    rw [hσ]
    exact w.seen g q h hg k hk a ha
  aligned c a ha := w.aligned c a (hseen ▸ ha)

theorem inWork_frame (w : InWork u s σ) (hwork : s'.work = s.work)
    (hframe : ∀ todo gs, Working u s σ todo gs → Working u s' σ' todo gs) : InWork u s' σ' := by
  unfold InWork at w ⊢
  rw [hwork]
  split at w
  · trivial
  · exact hframe _ _ w
  · exact hframe _ _ w

theorem look (w : Working u s σ todo gs) (hs : Sound u s.vic) (t : Tables u.toSetup s.vic σ)
    {g₀ k₀ : Nat} {q₀ : BitVec 64} {h₀ : Holder} (hg₀ : Batched s.vic g₀ q₀ h₀) (hk₀ : k₀ < u.ppe) :
    Working u { s with
      seen := update s.seen (cellOf u.ppe (s.vic.ring.calls g₀).pcEntry k₀)
        (some (cellValue s.vic (cellOf u.ppe (s.vic.ring.calls g₀).pcEntry k₀))) } σ todo gs := by
  refine { w with seen := fun g q h hg k hk a ha => ?_, aligned := fun c a ha => ?_ }
  · change update s.seen _ _ _ = some a at ha
    by_cases heq :
      cellOf u.ppe (s.vic.ring.calls g).pcEntry k = cellOf u.ppe (s.vic.ring.calls g₀).pcEntry k₀
    · rw [heq, update_self, Option.some_inj, ← heq] at ha
      rw [← ha]
      exact hs.cell t hg.1 hk
    · rw [update_of_ne heq] at ha
      exact w.seen g q h hg k hk a ha
  · change update s.seen _ _ _ = some a at ha
    by_cases heq : c = cellOf u.ppe (s.vic.ring.calls g₀).pcEntry k₀
    · rw [heq, update_self, Option.some_inj, hs.cell t hg₀.1 hk₀] at ha
      rw [← ha]
      exact u.aligned _ _
    · rw [update_of_ne heq] at ha
      exact w.aligned c a ha

theorem resolve_aligned (w : Working u s σ todo gs) (pe : BitVec 64) (k : Nat) :
    (s.resolve u pe k).toNat % 4096 = 0 := by
  rw [State.resolve]
  cases hsome : s.seen (cellOf u.ppe pe k) with
  | none => rfl
  | some a => exact w.aligned _ a hsome

theorem chunk (w : Working u s σ [] gs)
    (hloaded : ∀ g ∈ gs.take (u.chunkLen gs), ∀ pe ∈ g.entries, ∀ k < u.ppe,
      (s.seen (cellOf u.ppe pe k)).isSome = true) (scratch : WriteScheduler.Scratch) (work : Work) :
    Working u { s with scratch := scratch, work := work } σ (s.calls u gs).flatten
    (gs.drop (u.chunkLen gs)) := by
  have hmem :=
    fun m => mem_calls (s := s) (m := m) (fun g hg => (w.whole g hg).2 _ w.resolve_aligned)
    (fun g hg => (w.whole g hg).1) w.resolve_aligned
  have hpages : ∀ page, page ∈ gs.flatMap (groupPages u.bytes) ↔
      page ∈ (gs.take (u.chunkLen gs)).flatMap (groupPages u.bytes) ∨
        page ∈ (gs.drop (u.chunkLen gs)).flatMap (groupPages u.bytes) := by
    intro page
    rw [← List.mem_append, ← List.flatMap_append, List.take_append_drop]
  -- a page of the chunk resolves to the buffer of its request
  have hresolve : ∀ g q h, Batched s.vic g q h →
      (q.toNat, (s.vic.ring.calls g).pcEntry) ∈
      (gs.take (u.chunkLen gs)).flatMap (groupPages u.bytes) →
      ∀ x < u.bytes, s.resolve u (s.vic.ring.calls g).pcEntry (x/4096) =
      u.ioaddr (σ h) (x/4096) := by
    intro g q h hg hpage x hx
    obtain ⟨grp, hgrp, hin⟩ := List.mem_flatMap.1 hpage
    obtain ⟨r, hr, heq⟩ := List.mem_mapIdx.1 hin
    have hpe : (s.vic.ring.calls g).pcEntry ∈ grp.entries := by
      rw [← (Prod.mk.inj heq).2]
      exact List.getElem_mem hr
    have hk : x/4096 < u.ppe := Nat.div_lt_of_lt_mul hx
    obtain ⟨a, ha⟩ := Option.isSome_iff_exists.1 (hloaded grp hgrp _ hpe _ hk)
    rw [State.resolve, ha, Option.getD_some]
    exact w.seen g q h hg _ hk a ha
  refine { w with
    whole := fun g hg => w.whole g (List.mem_of_mem_drop hg)
    named := fun page hpage => w.named page ((hpages page).2 (.inr hpage))
    moves := fun m hm => ?_
    cover := fun g q h c hg hc x hx => ?_ }
  · obtain ⟨page, hpage, x, hx, rfl⟩ := (hmem m).1 hm
    obtain ⟨g, q, h, hg, rfl⟩ := w.named page ((hpages page).2 (.inl hpage))
    exact ⟨g, q, h, x, hg, hx, by rw [hresolve g q h hg hpage x hx]⟩
  · rcases w.cover g q h c hg hc x hx with hdone | hpage | hin
    · exact .inl hdone
    · rcases (hpages _).1 hpage with hpage | hpage
      · refine .inr (.inr ((hmem _).2 ⟨_, hpage, x, hx, ?_⟩))
        rw [hresolve g q h hg hpage x hx]
      · exact .inr (.inl hpage)
    · cases hin

theorem lands (w : Working u s σ todo gs) (d : Data u s σ) {a : BitVec 64} (hm : (a, x) ∈ todo) :
    ∃ g q h c y, Batched s.vic g q h ∧ s.last q = some c ∧ y < u.bytes ∧ x = q.toNat + y ∧
    s.ram a = c y := by
  obtain ⟨g, q, h, y, hg, hy, heq⟩ := w.moves _ hm
  obtain ⟨rfl, rfl⟩ := Prod.mk.inj heq
  obtain ⟨c, hc, hram⟩ := d.holds _ q h hg.1
  exact ⟨g, q, h, c, y, hg, hc, hy, rfl, hram y hy⟩

theorem move (w : Working u s σ todo gs) (d : Data u s σ) {a : BitVec 64}
    {todo' : List (BitVec 64 × Nat)}
    (hm : (a, x) ∈ todo) (hin : ∀ m ∈ todo', m ∈ todo) (hout : ∀ m ∈ todo, m = (a, x) ∨ m ∈ todo')
    (work : Work) :
    Working u { s with disk := update s.disk x (s.ram a), work := work } σ todo' gs := by
  obtain ⟨g₀, q₀, h₀, c₀, y, hg₀, hc₀, hy, rfl, hram⟩ := w.lands d hm
  refine { w with moves := fun m hm => w.moves m (hin m hm), cover := fun g q h c hg hc z hz => ?_ }
  change update s.disk _ _ _ = _ ∨ _
  by_cases heq : q.toNat + z = q₀.toNat + y
  · obtain ⟨rfl, rfl⟩ := place_inj (d.place q c hc) (d.place q₀ c₀ hc₀) hz hy heq
    obtain rfl := Option.some_inj.1 (hc₀.symm.trans hc)
    exact .inl (by rw [update_self, hram])
  · rw [update_of_ne heq]
    refine (w.cover g q h c hg hc z hz).imp_right (.imp_right fun hz => ?_)
    refine (hout _ hz).resolve_left fun hax => heq (Prod.mk.inj hax).2

end Working

theorem mem_requests (s : State β) (r : IoRequest) : r ∈ s.requests ↔ ∃ j < s.vic.ring.sched.acc,
    r = ⟨(s.vic.ring.sched.buf j).byteOffset, (s.vic.ring.sched.buf j).pcEntry, nvmIoWrite,
      (s.vic.ring.sched.buf j).nBytesLog2⟩ := by
  simp only [State.requests, List.mem_map, List.mem_range, eq_comm]

theorem pageBatch_submit (hr : VictimBuffer.Reach u.toSetup s.vic)
    (hphase : s.vic.ring.sched.phase = .submit)
    (hplace : ∀ j < s.vic.ring.sched.acc, u.Place (s.vic.ring.sched.buf j).byteOffset) :
    PageBatch u s := by
  obtain ⟨hbatch, -⟩ := batched_submit hr hphase
  refine ⟨?_, fun r hr' => ?_, fun r hr' => ?_⟩
  · have hroom := hbatch.room
    rwa [RingMachine.Ring.batchRoom, u.write] at hroom
  · obtain ⟨j, hj, rfl⟩ := (mem_requests s r).1 hr'
    obtain ⟨hpub, hbuf⟩ := hbatch.got j hj
    change (s.vic.ring.sched.buf j).nBytesLog2 = _
    rw [hbuf]
    exact congrArg ioSchedEncodeNbytes (hr.requests.size _ hpub.1)
  · obtain ⟨j, hj, rfl⟩ := (mem_requests s r).1 hr'
    exact hplace j hj

theorem Data.start (d : Data u s σ) (hs : Sound u s.vic) (hpow : u.ppe ∣ 512)
    (hphase : s.vic.ring.sched.phase = .submit) {st : (Nat → Nat) × Nat}
    (hst : s.starts u = some st) (scratch : WriteScheduler.Scratch) (work : Work) :
    Working u { s with scratch := scratch, work := work, seen := fun _ => none } σ []
    (s.groupsAt u st) := by
  obtain ⟨hbatch, hin⟩ := batched_submit hs.reach hphase
  have hplace : ∀ j < s.vic.ring.sched.acc, u.Place (s.vic.ring.sched.buf j).byteOffset := by
    intro j hj
    obtain ⟨c, hc, -⟩ := d.holds _ _ _ ((hin _ _ _).2 ⟨j, hj, rfl, rfl, rfl⟩).1
    exact d.place _ c hc
  obtain ⟨hperm, hwhole⟩ := (pageBatch_submit hs.reach hphase hplace).groups hpow hst
  refine ⟨hphase, hwhole, fun page hpage => ?_, fun m hm => ?_, fun g q h c hg _ x _ => ?_, ?_, ?_⟩
  · obtain ⟨r, hr, rfl⟩ := List.mem_map.1 (hperm.mem_iff.1 hpage)
    obtain ⟨j, hj, rfl⟩ := (mem_requests s r).1 hr
    refine ⟨_, _, _, (hin _ _ _).2 ⟨j, hj, rfl, rfl, rfl⟩, ?_⟩
    rw [(hbatch.got j hj).2]
    rfl
  · cases hm
  · obtain ⟨j, hj, rfl, rfl, -⟩ := (hin g q h).1 hg
    refine .inr (.inl (hperm.mem_iff.2 (List.mem_map.2 ⟨_, (mem_requests s _).2 ⟨j, hj, rfl⟩, ?_⟩)))
    rw [(hbatch.got j hj).2]
    rfl
  · rintro g q h - k - a ⟨⟩
  · rintro c a ⟨⟩

namespace Data

/-- A byte of a pending request comes to storage: the places of the others are elsewhere. -/
theorem move (d : Data u s σ) (w : Working u s σ todo gs) {a : BitVec 64} (hm : (a, x) ∈ todo)
    (work : Work) : Data u { s with disk := update s.disk x (s.ram a), work := work } σ := by
  obtain ⟨g₀, q₀, h₀, c₀, y, hg₀, hc₀, hy, rfl, -⟩ := w.lands d hm
  refine { d with stored := fun q c hc => ?_ }
  by_cases hq : q = q₀
  · exact .inl ⟨.inr g₀, h₀, hq ▸ hg₀.1⟩
  · refine (d.stored q c hc).imp_right fun hdisk z hz => ?_
    refine (update_of_ne (fun heq => hq ?_) _ _).trans (hdisk z hz)
    exact (place_inj (d.place q c hc) (d.place q₀ c₀ hc₀) hz hy heq).1

theorem fill (d : Data u s σ) (hs : Sound u s.vic) (t : Tables u.toSetup s.vic σ)
    (hp : p < u.nPages) (hx : x < u.bytes) (hrest : Resting s.vic p) (v : β) :
    Data u
    { s with ram := update s.ram (byteAt (u.translate (s.vic.pageVaddrs p) (x/4096)) x) v } σ := by
  have hpage : u.Has (.page p) := hp
  have hout : ¬InSwap s.vic (.page p) := by
    rintro ⟨i, j, st, hi, hpj | hv⟩
    · have hswap := Pc.eq_swap hi
      have hlocked := hrest i (by rw [hswap, Holder.page.inj hpj]; rfl)
      rw [hlocked] at hswap
      cases hswap
    · exact page_ne_entry _ _ hv
  have haddr : u.translate (s.vic.pageVaddrs p) (x/4096) = u.ioaddr (σ (.page p)) (x/4096) := by
    have hrow := t.settled (.page p) hpage hout 0 (Nat.succ_pos _)
    change s.vic.pageVaddrs p = u.vaddr (σ (.page p)) at hrow
    rw [hrow, u.mapped _ ((t.has _).2 hpage) _ (Nat.div_lt_of_lt_mul hx)]
  refine { d with holds := fun k q h hk => ?_ }
  obtain ⟨c, hc, hram⟩ := d.holds k q h hk
  refine ⟨c, hc, fun y hy => ?_⟩
  refine (update_of_ne (fun heq => ?_) _ _).trans (hram y hy)
  rw [haddr] at heq
  have hσ := (byteAt_inj ((t.has _).2 (hs.has hk)) ((t.has _).2 hpage) hy hx heq).1
  obtain rfl := σ.injective hσ
  obtain ⟨i, hslot, hne, -⟩ := hs.page hk
  exact hne (hrest i hslot)

theorem evict (d : Data u s σ) (hs : Sound u s.vic) (t : Tables u.toSetup s.vic σ)
    (hi : s.vic.thread i = .locked p) (hq : u.Place q) (hnone : ∀ k h, ¬Pending s.vic k q h) :
    Data u { s with
      vic := s.vic.move i (.ticket p q)
      last := update s.last q (some (s.contents u p)) } σ := by
  have hslot : (s.vic.thread i).slot = some p := by
    rw [hi]
    rfl
  have hpage : u.Has (.page p) := hs.reach.control.1.slot_lt i p hslot
  have hout := not_inSwap_of_slot hs.reach hslot (by rw [hi]; rfl)
  have hself : ∀ q' h, Pending (s.vic.move i (.ticket p q)) (.inl i) q' h ↔ q' = q ∧
    h = .page p := by
    intro q' h
    simp only [Pending, VictimBuffer.State.move, update_self, source, Option.some_inj,
      Prod.mk.injEq, eq_comm]
  have hiff : ∀ k q' h, k ≠ .inl i →
    (Pending (s.vic.move i (.ticket p q)) k q' h ↔ Pending s.vic k q' h) := by
    intro k q' h hne
    cases k with
    | inl k =>
      simp only [Pending, VictimBuffer.State.move]
      rw [update_of_ne fun heq => hne (by rw [heq])]
    | inr g => exact Iff.rfl
  -- the eviction that is pending at a place: the new one, or one of before
  have hcases : ∀ k q' h, Pending (s.vic.move i (.ticket p q)) k q' h →
      k = .inl i ∧ q' = q ∧ h = .page p ∨ k ≠ .inl i ∧ q' ≠ q ∧ Pending s.vic k q' h := by
    intro k q' h hk
    by_cases hki : k = .inl i
    · subst hki
      exact .inl ⟨rfl, (hself q' h).1 hk⟩
    · have hold := (hiff k q' h hki).1 hk
      refine .inr ⟨hki, fun heq => ?_, hold⟩
      rw [heq] at hold
      exact hnone k h hold
  refine ⟨fun k k' q' h h' hk hk' => ?_, fun q' c hc => ?_, fun k q' h hk => ?_, fun q' c hc => ?_⟩
  · rcases hcases k q' h hk with ⟨rfl, rfl, rfl⟩ | ⟨-, hne, hk⟩
    · rcases hcases k' q' h' hk' with ⟨rfl, -, -⟩ | ⟨-, hne, -⟩
      · rfl
      · exact absurd rfl hne
    · rcases hcases k' q' h' hk' with ⟨rfl, rfl, -⟩ | ⟨-, -, hk'⟩
      · exact absurd rfl hne
      · exact d.unique k k' q' h h' hk hk'
  · by_cases hqq : q' = q
    · rw [hqq]
      exact hq
    · refine d.place q' c ?_
      rw [← hc]
      exact (update_of_ne hqq _ _).symm
  · rcases hcases k q' h hk with ⟨rfl, rfl, rfl⟩ | ⟨-, hne, hk⟩
    · refine ⟨s.contents u p, update_self _ _ _, fun x hx => ?_⟩
      have hrow := t.settled (.page p) hpage hout 0 (Nat.succ_pos _)
      change s.vic.pageVaddrs p = u.vaddr (σ (.page p)) at hrow
      rw [State.contents, hrow, u.mapped _ ((t.has _).2 hpage) _ (Nat.div_lt_of_lt_mul hx)]
    · obtain ⟨c, hc, hram⟩ := d.holds k q' h hk
      exact ⟨c, (update_of_ne hne _ _).trans hc, hram⟩
  · by_cases hqq : q' = q
    · subst hqq
      exact .inl ⟨.inl i, .page p, (hself q' _).2 ⟨rfl, rfl⟩⟩
    · have hc : s.last q' = some c := by
        rw [← hc]
        exact (update_of_ne hqq _ _).symm
      refine (d.stored q' c hc).imp_left ?_
      rintro ⟨k, h, hk⟩
      refine ⟨k, h, (hiff k q' h ?_).2 hk⟩
      rintro rfl
      rw [Pending, hi] at hk
      cases hk

/-- The block is through with its batch, which storage has now. -/
theorem submitted (d : Data u s σ) (hs : Sound u s.vic) (w : Working u s σ [] [])
    {phase : RingMachine.Phase} (hvic : vic = { s.vic with
      ring := { s.vic.ring.setPhase phase with submitted := s.vic.ring.drained.length } })
    (work : Work) : Data u { s with vic := vic, work := work } σ := by
  have hle := (inv_of_reach hs.reach.control.2).submitted_le
  have hiff : ∀ k q h, Pending vic k q h ↔ Pending s.vic k q h ∧ ∀ g, k = .inr g →
    s.vic.ring.drained.length ≤ g := by
    intro k q h
    rw [hvic]
    cases k with
    | inl i =>
      refine (and_iff_left ?_).symm
      rintro g ⟨⟩
    | inr g =>
      change s.vic.ring.drained.length ≤ g ∧ _ ∧ _ ∧ _ ↔ (_ ∧ _ ∧ _ ∧ _) ∧ _
      constructor
      · rintro ⟨hlo, hrest⟩
        refine ⟨⟨hle.trans hlo, hrest⟩, ?_⟩
        rintro g ⟨⟩
        exact hlo
      · rintro ⟨⟨-, hrest⟩, hlo⟩
        exact ⟨hlo g rfl, hrest⟩
  refine ⟨fun k k' q h h' hk hk' => ?_, d.place,
    fun k q h hk => d.holds k q h ((hiff k q h).1 hk).1, fun q c hc => ?_⟩
  · exact d.unique k k' q h h' ((hiff k q h).1 hk).1 ((hiff k' q h').1 hk').1
  · rcases d.stored q c hc with ⟨k, h, hk⟩ | hdisk
    · by_cases hin : ∀ g, k = .inr g → s.vic.ring.drained.length ≤ g
      · exact .inl ⟨k, h, (hiff k q h).2 ⟨hk, hin⟩⟩
      · simp only [not_forall, Nat.not_le] at hin
        obtain ⟨g, rfl, hg⟩ := hin
        refine .inr fun x hx => ?_
        rcases w.cover g q h c ⟨hk, hg⟩ hc x hx with hdone | hpage | htodo
        · exact hdone
        · cases hpage
        · cases htodo
    · exact .inr hdisk

end Data

structure Invariant (u : Setup) (s : State β) (σ : Equiv.Perm Holder) : Prop where
  tables : Tables u.toSetup s.vic σ
  data : Data u s σ
  work : InWork u s σ

namespace Invariant

theorem start (u : Setup) (ram : BitVec 64 → β) (disk : Nat → β)
    (scratch : WriteScheduler.Scratch) :
    Invariant u (init u ram disk scratch) (Equiv.refl Holder) where
  tables := Tables.start u.toSetup
  data := by
    have hnone : ∀ k q h, ¬Pending (VictimBuffer.init u.toSetup) k q h := by
      rintro (i | g) q h hk
      · cases hk
      · exact Nat.not_lt_zero g hk.2.1
    refine ⟨fun k _ q h _ hk => absurd hk (hnone k q h), ?_,
      fun k q h hk => absurd hk (hnone k q h), ?_⟩
    · rintro q c ⟨⟩
    · rintro q c ⟨⟩
  work := trivial

theorem victim (inv : Invariant u s σ) (hs : Sound u s.vic) {a : Act} (hp : Plain s.vic a)
    (hstep : VictimBuffer.step u.toSetup s.vic a = some vic) :
    ∃ σ', Invariant u { s with vic := vic } σ' := by
  have ht := step_trans hstep
  have hsteady := plain_steady hp hstep
  have hframe : ∀ σ' : Equiv.Perm Holder, (∀ g q h, Batched s.vic g q h → σ' h = σ h) →
      InWork u { s with vic := vic } σ' := by
    intro σ' hσ
    refine Working.inWork_frame inv.work rfl fun todo gs w => ?_
    refine w.frame ?_ (fun g q h => batched_iff hs.reach ht hsteady w.phase)
      (fun g q h hg => ⟨?_, hσ g q h hg, rfl⟩)
      rfl rfl
    · change vic.ring.sched.phase = .submit
      rw [(hsteady.sched_eq w.phase).1]
      exact w.phase
    · exact (calls_keep ht hg.1.2.1).2.2.1
  by_cases hwin : Wins s.vic vic
  · obtain ⟨i, j, hi, hfree, rfl⟩ := hwin
    refine ⟨_, inv.tables.win hs.reach.control.1 hs.reach.entries hi hfree,
      inv.data.win hs hi hfree, hframe _ fun g q h hg => ?_⟩
    obtain ⟨hpage, hentry⟩ := hs.apart hi hfree hg.1 Sum.inr_ne_inl
    rw [Equiv.trans_apply, Equiv.swap_apply_of_ne_of_ne hpage hentry]
  · refine ⟨σ, (inv.tables.trans hs.reach.control.1 hs.reach.entries ht).resolve_right hwin,
      (inv.data.trans hs hp hstep).resolve_right hwin, hframe σ fun _ _ _ _ => rfl⟩

theorem step (inv : Invariant u s σ) (hs : Sound u s.vic) (hpow : u.ppe ∣ 512) (hstep : Step u s s')
    (hover : s'.overrun = false) : ∃ σ', Invariant u s' σ' := by
  have hwork := inv.work
  cases hstep with
  | victim a vic hp hstep => exact inv.victim hs hp hstep
  | evict i p q hi hq hnone =>
    have ht : Trans u.toSetup s.vic (s.vic.move i (.ticket p q)) := .evict i p q hi
    refine ⟨σ, ?_, inv.data.evict hs inv.tables hi hq hnone, ?_⟩
    · refine (inv.tables.trans hs.reach.control.1 hs.reach.entries ht).resolve_right ?_
      rintro ⟨i', j, hi', -, heq⟩
      have hthread := congrFun (congrArg VictimBuffer.State.thread heq) i'
      change update s.vic.thread i (.ticket p q) i' = update s.vic.thread i' _ i' at hthread
      rw [update_self] at hthread
      by_cases hii : i' = i
      · rw [hii, update_self] at hthread
        cases hthread
      · rw [update_of_ne hii, hi'] at hthread
        cases hthread
    · refine Working.inWork_frame hwork rfl fun todo gs w => ?_
      refine w.frame w.phase (fun _ _ _ => Iff.rfl)
        (fun g q' h hg => ⟨rfl, rfl, update_of_ne ?_ _ _⟩) rfl rfl
      rintro rfl
      exact hnone _ h hg.1
  | fill p x v hp hx hrest =>
    refine ⟨σ, inv.tables, inv.data.fill hs inv.tables hp hx hrest v, ?_⟩
    refine Working.inWork_frame hwork rfl fun todo gs w => ?_
    exact w.frame w.phase (fun _ _ _ => Iff.rfl) (fun _ _ _ _ => ⟨rfl, rfl, rfl⟩) rfl rfl
  | start st hphase hidle hst =>
    exact ⟨σ, inv.tables, { inv.data with }, inv.data.start hs hpow hphase hst _ _⟩
  | overrun disk _ _ _ => cases hover
  | look gs j k hmerge hj hk =>
    rw [InWork, hmerge] at hwork
    obtain ⟨hbatch, hin⟩ := batched_submit hs.reach hwork.phase
    have hg := (hin _ _ _).2 ⟨j, hj, rfl, rfl, rfl⟩
    refine ⟨σ, inv.tables, { inv.data with }, ?_⟩
    have hlook := hwork.look hs inv.tables hg hk
    rw [InWork]
    simp only [hmerge]
    rw [(hbatch.got j hj).2]
    exact { hlook with }
  | chunk gs hmerge hne hloaded =>
    rw [InWork, hmerge] at hwork
    exact ⟨σ, inv.tables, { inv.data with }, hwork.chunk hloaded _ _⟩
  | move a x before after todo gs hcall =>
    rw [InWork, hcall] at hwork
    have hm : (a, x) ∈ ((before ++ (a, x) :: after) :: todo).flatten := by simp
    refine ⟨σ, inv.tables, inv.data.move hwork hm _,
      hwork.move inv.data hm (fun m hm => ?_) (fun m hm => ?_) _⟩
    · simp only [List.flatten_cons, List.mem_append, List.mem_cons] at hm ⊢
      tauto
    · simp only [List.flatten_cons, List.mem_append, List.mem_cons] at hm ⊢
      tauto
  | callDone todo gs hcall =>
    rw [InWork, hcall] at hwork
    exact ⟨σ, inv.tables, { inv.data with }, { hwork with }⟩
  | chunkDone gs hcall =>
    rw [InWork, hcall] at hwork
    exact ⟨σ, inv.tables, { inv.data with }, { hwork with }⟩
  | submitted pick vic hphase hmerge hstep =>
    rw [InWork, hmerge] at hwork
    have ht := step_trans hstep
    have hvic : vic = { s.vic with
        ring := { s.vic.ring.setPhase (.notify (fun _ => false) fun _ => false) with
          submitted := s.vic.ring.drained.length } } := by
      simp only [VictimBuffer.step, VictimBuffer.schedStep, RingMachine.step, RingMachine.schedStep,
        hphase, Option.bind_some, Option.some_inj] at hstep
      exact hstep.symm
    refine ⟨σ, ?_, inv.data.submitted hs hwork hvic _, trivial⟩
    rw [hvic]
    exact inv.tables.frame rfl fun _ => rfl

end Invariant

theorem Step.overrun_before (hstep : Step u s s') (hover : s'.overrun = false) :
    s.overrun = false := by
  cases hstep with
  | overrun => cases hover
  | _ => exact hover

theorem Reach.invariant (hpow : u.ppe ∣ 512) (hr : Reach u s) (hsafe : SafeCalls u.toSetup s.vic)
    (hover : s.overrun = false) : ∃ σ, Invariant u s σ := by
  induction hr with
  | init ram disk scratch => exact ⟨_, Invariant.start u ram disk scratch⟩
  | @step s s' hr hstep ih =>
    have hbefore : SafeCalls u.toSetup s.vic := by
      rcases hstep.vic_eq with heq | ⟨a, ha⟩
      · exact heq ▸ hsafe
      · exact SafeCalls.before hsafe (step_trans ha)
    obtain ⟨σ, inv⟩ := ih hbefore (hstep.overrun_before hover)
    exact inv.step ⟨hr.vic, hbefore⟩ hpow hstep hover

end Shaper.WriteBack
