import Shaper.VictimSteps

/-! Who owns the entries of the victim buffer: the thread that has won the CAS, and from its
enqueue on the request in the ring, until the notify phase sets the entry free. -/
namespace Shaper.VictimBuffer
open Function RingMachine RingInvariant RingSchedule Lib.Exchange Lib.Ownership PrpBuild

variable {u : Setup} {s s' : State} {i g v : Nat} {pc : Pc}

def Pc.stage : Pc → Option (Nat × EntryState)
  | .swap j _ => some (j.entry, .copying)
  | .prp1 j => some (j.entry, .copying)
  | .prp2 j => some (j.entry, .copying)
  | .offset j => some (j.entry, .copying)
  | .occupy j => some (j.entry, .copying)
  | .enqueue j => some (j.entry, .occupied)
  | _ => none

def Pc.target : Pc → Option Nat
  | .cas j => some j.entry
  | pc => pc.stage.map Prod.fst

def Owns (u : Setup) (s : State) : Nat ⊕ Nat → Nat → Prop
  | .inl i, v => ∃ st, (s.thread i).stage = some (v, st)
  | .inr g, v =>
    g < s.ring.claimed ∧ v < u.nEntries ∧ (s.ring.calls g).pcEntry = victimPe v ∧ s.notes g ≠ .freed

def Live (u : Setup) (s : State) (v : Nat) : Prop :=
  s.states v = .copying ∨ u.queued = true ∧ s.states v = .occupied

structure Entries (u : Setup) (s : State) : Prop where
  owners : Exclusive (Live u s) (Owns u s)
  target_lt : ∀ i v, (s.thread i).target = some v → v < u.nEntries
  stage_eq : ∀ i v st, (s.thread i).stage = some (v, st) → s.states v = st
  sent : ∀ g v, Owns u s (.inr g) v → s.states v = .occupied
  fresh : ∀ g, s.ring.claimed ≤ g → s.notes g = .fresh
  named : ∀ g < s.ring.claimed, isVictim (s.ring.calls g).pcEntry = true →
    ∃ v < u.nEntries, (s.ring.calls g).pcEntry = victimPe v

theorem Setup.nEntries_le (u : Setup) : u.nEntries ≤ 2^31 :=
  Nat.pow_le_pow_right (by omega) u.entriesLog_le

theorem Setup.mask_lt (u : Setup) (ticket : BitVec 32) :
    (ticket &&& u.nEntriesMask).toNat < u.nEntries := by
  have hle := u.nEntries_le
  have hpos : 0 < u.nEntries := Nat.two_pow_pos _
  have hmask : u.nEntriesMask.toNat = u.nEntries - 1 := by
    rw [nEntriesMask]
    bv_omega
  rw [BitVec.toNat_and]
  exact Nat.lt_of_le_of_lt Nat.and_le_right (by omega)

theorem toNat_victimPe (hv : v < 2^31) : (victimPe v).toNat = 2^63 + v := by
  have hbit : VictimPcEntryBit.toNat = 2^63 * 1 := by decide
  have hlt : v < 2^63 := by omega
  rw [victimPe, BitVec.toNat_or, BitVec.toNat_ofNat, Nat.mod_eq_of_lt (by omega), hbit,
    ← Nat.two_pow_add_eq_or_of_lt hlt 1, Nat.mul_one]

theorem isVictim_iff (pe : BitVec 64) : isVictim pe = true ↔ ¬pe.toNat < 2^63 := by
  rw [← tagged_iff, isVictim, bne_iff_ne]

theorem isVictim_victimPe (hv : v < 2^31) : isVictim (victimPe v) = true := by
  rw [isVictim_iff, toNat_victimPe hv]
  omega

theorem victimIdx_victimPe (hv : v < 2^31) : victimIdx (victimPe v) = v := by
  have htag : ¬(victimPe v).toNat < 2^63 := by
    rw [toNat_victimPe hv]
    omega
  rw [victimIdx, BitVec.toNat_setWidth, toNat_and_mask htag, toNat_victimPe hv,
    Nat.add_sub_cancel_left, Nat.mod_eq_of_lt (by omega)]

theorem victimPe_inj {v' : Nat} (hv : v < 2^31) (hv' : v' < 2^31) (h : victimPe v = victimPe v') :
    v = v' := by
  rw [← victimIdx_victimPe hv, h, victimIdx_victimPe hv']

theorem page_not_victim {p : Nat} (hp : p < 2^31) : isVictim (BitVec.ofNat 64 p) = false := by
  refine Bool.eq_false_of_not_eq_true fun h => (isVictim_iff _).1 h ?_
  rw [BitVec.toNat_ofNat, Nat.mod_eq_of_lt (by omega)]
  omega

theorem entries_init (u : Setup) : Entries u (init u) where
  owners := {
    held_of_owns := by
      rintro (i | g) v h
      · obtain ⟨st, h⟩ := h
        cases h
      · exact absurd h.1 (Nat.not_lt_zero g)
    owner := by
      rintro v (h | ⟨-, h⟩) <;> cases h
    unique := by
      rintro (i | g) k v h
      · obtain ⟨st, h⟩ := h
        cases h
      · exact absurd h.1 (Nat.not_lt_zero g) }
  target_lt _ _ h := by cases h
  stage_eq _ _ _ h := by cases h
  sent g _ h := absurd h.1 (Nat.not_lt_zero g)
  fresh _ _ := rfl
  named g h := absurd h (Nat.not_lt_zero g)

/-- Whatever else a step does, a thread that keeps its entry, or has none, changes no owner. -/
theorem owns_go (ht : s'.thread = update s.thread i pc) (hstage : pc.stage = (s.thread i).stage)
    (hr : s'.ring = s.ring) (hn : s'.notes = s.notes) (k : Nat ⊕ Nat) (v : Nat) :
    Owns u s' k v ↔ Owns u s k v := by
  cases k with
  | inl k =>
    simp only [Owns, ht]
    by_cases hk : k = i
    · rw [hk, update_self, hstage]
    · rw [update_of_ne hk]
  | inr g => simp only [Owns, hr, hn]

namespace Entries

theorem go (h : Entries u s) (ht : s'.thread = update s.thread i pc)
    (hstage : pc.stage = (s.thread i).stage)
    (htarget : ∀ v, pc.target = some v → v < u.nEntries) (hst : s'.states = s.states)
    (hr : s'.ring = s.ring) (hn : s'.notes = s.notes) : Entries u s' where
  owners := by
    refine h.owners.congr (fun v => ?_) (owns_go ht hstage hr hn)
    simp only [Live, hst]
  target_lt := by
    rw [ht]
    exact (forall_update_iff s.thread fun _ pc => ∀ v, pc.target = some v → v < u.nEntries).2
      ⟨htarget, fun k _ => h.target_lt k⟩
  stage_eq := by
    rw [ht, hst]
    exact (forall_update_iff s.thread fun _ pc => ∀ v st, pc.stage = some (v, st) →
      s.states v = st).2
      ⟨fun v st hv => h.stage_eq i v st (hstage ▸ hv), fun k _ => h.stage_eq k⟩
  sent g v ho := by
    rw [hst]
    exact h.sent g v ((owns_go ht hstage hr hn (.inr g) v).1 ho)
  fresh := by
    rw [hr, hn]
    exact h.fresh
  named := by
    rw [hr]
    exact h.named

theorem quiet (h : Entries u s) {ring : RingMachine.State} (hq : Quiet s.ring ring) :
    Entries u { s with ring := ring } := by
  have hpe : ∀ g, (ring.calls g).pcEntry = (s.ring.calls g).pcEntry := by
    intro g
    obtain ⟨pc, hpc, -⟩ := hq.calls_eq g
    rw [hpc]
  have howns : ∀ k v, Owns u { s with ring := ring } k v ↔ Owns u s k v := by
    intro k v
    cases k with
    | inl k => exact Iff.rfl
    | inr g => simp only [Owns, hpe, hq.claimed_eq]
  refine ⟨h.owners.congr (fun _ => Iff.rfl) howns, h.target_lt, h.stage_eq, fun g v ho => ?_, ?_,
    ?_⟩
  · exact h.sent g v ((howns _ _).1 ho)
  · dsimp only
    rw [hq.claimed_eq]
    exact h.fresh
  · intro g
    dsimp only
    rw [hq.claimed_eq, hpe]
    exact h.named g

theorem win (h : Entries u s) {j : Job} (hi : s.thread i = .cas j)
    (hfree : s.states j.entry = .free) : Entries u { s with
      states := update s.states j.entry .copying
      thread := update s.thread i (.swap j (.loadA 0)) } := by
  have hdead : ¬Live u s j.entry := by
    rintro (hst | ⟨-, hst⟩) <;> rw [hfree] at hst <;> cases hst
  have hstates : ∀ {v st}, st ≠ .free → s.states v = st →
    update s.states j.entry .copying v = st := by
    intro v st hne hst
    rw [update_of_ne, hst]
    rintro rfl
    exact hne (hst.symm.trans hfree)
  refine ⟨h.owners.take (i := .inl i) (r := j.entry) hdead (fun v => ?_) ?_, ?_, ?_,
    fun g v ho => ?_, h.fresh, h.named⟩
  · unfold Live
    by_cases hv : v = j.entry
    · simp only [hv, update_self, or_true, true_or]
    · simp only [hv, update_of_ne hv, or_false]
  · rintro (k | g) v
    · simp only [Owns, Sum.inl.injEq]
      by_cases hk : k = i
      · rw [hk, update_self, hi]
        simp only [Pc.stage, Option.some_inj, Prod.mk.injEq, reduceCtorEq, exists_false, false_or,
          true_and, eq_comm, exists_and_left, exists_eq, and_true]
      · simp only [update_of_ne hk, hk, false_and, or_false]
    · simp only [Owns, reduceCtorEq, false_and, or_false]
  · refine (forall_update_iff s.thread fun _ pc => ∀ v, pc.target = some v → v < u.nEntries).2
      ⟨fun v hv => ?_, fun k _ => h.target_lt k⟩
    exact h.target_lt i v (hi ▸ hv)
  · refine (forall_update_iff s.thread fun _ pc => ∀ v st, pc.stage = some (v, st) →
      update s.states j.entry .copying v = st).2 ⟨fun v st hv => ?_, fun k _ v st hv => ?_⟩
    · cases hv
      exact update_self _ _ _
    · have hst := h.stage_eq k v st hv
      refine hstates ?_ hst
      rintro rfl
      cases hk : s.thread k <;> rw [hk] at hv <;> cases hv
  · exact hstates (by decide) (h.sent g v ho)

theorem set (h : Entries u s) {st st' : EntryState} (hi : (s.thread i).stage = some (v, st))
    (howners : Exclusive (Live u { s.move i pc with states := update s.states v st' })
      (Owns u { s.move i pc with states := update s.states v st' }))
    (htarget : pc.target = none ∨ pc.target = some v) (hstage : ∀ x, pc.stage = some x →
      x = (v, st')) :
    Entries u { s.move i pc with states := update s.states v st' } := by
  have hother : ∀ k x, Owns u s k x → k ≠ .inl i → update s.states v st' x = s.states x := by
    intro k x hk hne
    refine update_of_ne ?_ _ _
    rintro rfl
    exact hne (h.owners.unique k (.inl i) _ hk ⟨st, hi⟩)
  have hlt : v < u.nEntries := by
    refine h.target_lt i v ?_
    cases hpc : s.thread i <;> rw [hpc] at hi <;> cases hi <;> rfl
  refine ⟨howners, ?_, ?_, fun g x ho => ?_, h.fresh, h.named⟩
  · refine (forall_update_iff s.thread fun _ pc => ∀ v, pc.target = some v → v < u.nEntries).2
      ⟨fun x hx => ?_, fun k _ => h.target_lt k⟩
    rcases htarget with hnone | hsome
    · rw [hnone] at hx
      cases hx
    · rw [hsome] at hx
      exact Option.some.inj hx ▸ hlt
  · refine (forall_update_iff s.thread fun _ pc => ∀ x st, pc.stage = some (x, st) →
      update s.states v st' x = st).2 ⟨fun x st hx => ?_, fun k hk x st hx => ?_⟩
    · cases hstage _ hx
      exact update_self _ _ _
    · rw [hother (.inl k) x ⟨st, hx⟩ (by simpa using hk)]
      exact h.stage_eq k x st hx
  · refine (hother (.inr g) x ?_ (by simp)).trans (h.sent g x ?_) <;> exact ho

/-- The entry becomes occupied; with a queue the thread still has to send its request. -/
theorem occupy (h : Entries u s) {j : Job} (hi : s.thread i = .occupy j) :
    Entries u { s.move i (if u.queued then .enqueue j else .done j.page) with
      states := update s.states j.entry .occupied } := by
  have hstage : (s.thread i).stage = some (j.entry, .copying) := by
    rw [hi]
    rfl
  have hcopying := h.stage_eq i _ _ hstage
  cases hq : u.queued with
  | true =>
    refine h.set hstage (h.owners.congr (fun v => ?_) ?_) (.inr rfl) ?_
    · simp only [Live, hq, true_and]
      by_cases hv : v = j.entry
      · simp only [hv, update_self, hcopying, reduceCtorEq, false_or, true_or]
      · simp only [update_of_ne hv]
    · rintro (k | g) v
      · change (∃ st, (update s.thread i _ k).stage = some (v, st)) ↔ _
        by_cases hk : k = i
        · simp only [hk, update_self, Owns, hi, Pc.stage, if_true, Option.some_inj, Prod.mk.injEq,
            exists_and_left, exists_eq', and_true]
        · simp only [update_of_ne hk, Owns]
      · exact Iff.rfl
    · intro x hx
      exact (Option.some.inj hx).symm
  | false =>
    refine h.set hstage (h.owners.drop (i := .inl i) (r := j.entry) ⟨_, hstage⟩ (fun v => ?_) ?_)
      (.inl rfl) ?_
    · simp only [Live, hq, Bool.false_eq_true, false_and, or_false]
      by_cases hv : v = j.entry
      · simp only [hv, update_self, reduceCtorEq, ne_eq, not_true_eq_false, and_false]
      · simp only [update_of_ne hv, ne_eq, hv, not_false_eq_true, and_true]
    · rintro (k | g) v
      · change (∃ st, (update s.thread i _ k).stage = some (v, st)) ↔ _
        by_cases hk : k = i
        · simp only [hk, update_self, Bool.false_eq_true, if_false, Owns, hi, Pc.stage,
            Option.some_inj, Prod.mk.injEq, reduceCtorEq, exists_false, exists_and_left, exists_eq,
            and_true, eq_comm, true_and, and_not_self]
        · simp only [update_of_ne hk, Owns, Sum.inl.injEq, hk, false_and, not_false_eq_true,
            and_true]
      · simp only [Owns, reduceCtorEq, false_and, not_false_eq_true, and_true]
        rfl
    · intro x hx
      cases hx

theorem claim_owns (h : Entries u s) (api : Api) (byteOffset nBytes pcEntry : BitVec 64)
    (opcode : BitVec 8)
    (hs : s'.ring = claim s.ring api byteOffset nBytes pcEntry opcode) (hn : s'.notes = s.notes)
    (g v : Nat) :
    Owns u s' (.inr g) v ↔ Owns u s (.inr g) v ∨ g = s.ring.claimed ∧ v < u.nEntries ∧
    pcEntry = victimPe v := by
  simp only [Owns, hs, hn]
  change g < s.ring.claimed + 1 ∧ _ ∧ (update s.ring.calls s.ring.claimed _ g).pcEntry = _ ∧ _ ↔ _
  by_cases hg : g = s.ring.claimed
  · have hfresh : s.notes s.ring.claimed ≠ .freed := by
      rw [h.fresh _ (Nat.le_refl _)]
      decide
    subst hg
    simp only [update_self, Nat.lt_succ_self, true_and, Nat.lt_irrefl, false_and, false_or, ne_eq,
      hfresh, not_false_eq_true, and_true]
  · simp only [update_of_ne hg, hg, false_and, or_false]
    have hlt : g < s.ring.claimed + 1 ↔ g < s.ring.claimed := by omega
    rw [hlt]

theorem enter (h : Entries u s) (api : Api) (byteOffset nBytes pcEntry : BitVec 64)
    (opcode : BitVec 8)
    (hs : s' = { s.move i pc with ring := claim s.ring api byteOffset nBytes pcEntry opcode })
    (howners : Exclusive (Live u s) (Owns u s')) (htarget : pc.target = none)
      (hstage : pc.stage = none)
    (hpe : isVictim pcEntry = true → ∃ v < u.nEntries, pcEntry = victimPe v)
    (hocc : ∀ v < u.nEntries, pcEntry = victimPe v → s.states v = .occupied) : Entries u s' := by
  have howns : ∀ g v, Owns u s' (.inr g) v ↔ _ :=
    h.claim_owns api byteOffset nBytes pcEntry opcode (by rw [hs]) (by rw [hs]; rfl)
  refine ⟨?_, ?_, ?_, fun g v ho => ?_, fun g hg => ?_, fun g hg => ?_⟩
  · rw [hs] at howners ⊢
    exact howners
  · rw [hs]
    refine (forall_update_iff s.thread fun _ pc => ∀ v, pc.target = some v → v < u.nEntries).2
      ⟨fun v hv => ?_, fun k _ => h.target_lt k⟩
    rw [htarget] at hv
    cases hv
  · rw [hs]
    refine (forall_update_iff s.thread fun _ pc => ∀ v st, pc.stage = some (v, st) →
      s.states v = st).2
      ⟨fun v st hv => ?_, fun k _ => h.stage_eq k⟩
    rw [hstage] at hv
    cases hv
  · have hstates : s'.states = s.states := by rw [hs]; rfl
    rw [hstates]
    rcases (howns g v).1 ho with ho | ⟨-, hv, hpe⟩
    · exact h.sent g v ho
    · exact hocc v hv hpe
  · rw [hs] at hg ⊢
    exact h.fresh g (Nat.le_of_succ_le hg)
  · rw [hs] at hg ⊢
    change g < s.ring.claimed + 1 at hg
    change isVictim (update s.ring.calls s.ring.claimed _ g).pcEntry = true →
      ∃ v < u.nEntries, (update s.ring.calls s.ring.claimed _ g).pcEntry = victimPe v
    by_cases hgc : g = s.ring.claimed
    · rw [hgc, update_self]
      exact hpe
    · rw [update_of_ne hgc]
      exact h.named g (by omega)

theorem enqueue (h : Entries u s) {j : Job} (hi : s.thread i = .enqueue j) :
    Entries u { s.move i (.enqueuing j.page s.ring.claimed) with
      ring := claim s.ring .forget j.byteOffset u.pageSize (victimPe j.entry) nvmIoWrite } := by
  have hle := u.nEntries_le
  have hlt : j.entry < u.nEntries := h.target_lt i _ (by rw [hi]; rfl)
  have hstage : (s.thread i).stage = some (j.entry, .occupied) := by
    rw [hi]
    rfl
  have hinj : ∀ v < u.nEntries, victimPe j.entry = victimPe v → v = j.entry := fun v hv hpe =>
    (victimPe_inj (by omega) (by omega) hpe).symm
  refine h.enter _ _ _ _ _ rfl ?_ rfl rfl (fun _ => ⟨j.entry, hlt, rfl⟩) fun v hv hpe => ?_
  · refine h.owners.pass (i := .inl i) (j := .inr s.ring.claimed) (r := j.entry) ⟨_, hstage⟩
      (fun _ => Iff.rfl) ?_
    rintro (k | g) v
    · simp only [Owns, reduceCtorEq, false_and, or_false, Sum.inl.injEq]
      change (∃ st, (update s.thread i _ k).stage = some (v, st)) ↔ _
      by_cases hk : k = i
      · simp only [hk, update_self, hi, Pc.stage, Option.some_inj, Prod.mk.injEq, reduceCtorEq,
          exists_false, exists_and_left, exists_eq, and_true, eq_comm, true_and, and_not_self]
      · simp only [update_of_ne hk, hk, false_and, not_false_eq_true, and_true]
    · refine Iff.trans (h.claim_owns _ _ _ _ _ (by rfl) (by rfl) g v) ?_
      simp only [reduceCtorEq, false_and, not_false_eq_true, and_true, Sum.inr.injEq]
      refine or_congr Iff.rfl (and_congr_right fun _ => ⟨fun hv => hinj v hv.1 hv.2, ?_⟩)
      rintro rfl
      exact ⟨hlt, rfl⟩
  · rw [hinj v hv hpe]
    exact h.stage_eq i _ _ hstage

theorem block (h : Entries u s) {p : Nat} {byteOffset : BitVec 64}
    (hi : s.thread i = .fallback p byteOffset) (hp : p < u.nPages) :
    Entries u { s.move i (.blocked p s.ring.claimed) with
      ring := claim s.ring .sync byteOffset u.pageSize (BitVec.ofNat 64 p) nvmIoWrite } := by
  have hle := u.nEntries_le
  have hno := page_not_victim (p := p) (by have := u.nPages_lt; omega)
  have hne : ∀ v < u.nEntries, BitVec.ofNat 64 p ≠ victimPe v := by
    intro v hv hpe
    rw [hpe, isVictim_victimPe (by omega)] at hno
    cases hno
  refine h.enter _ _ _ _ _ rfl (h.owners.congr (fun _ => Iff.rfl) ?_) rfl rfl ?_ fun v hv hpe => ?_
  · rintro (k | g) v
    · change (∃ st, (update s.thread i _ k).stage = some (v, st)) ↔ _
      by_cases hk : k = i
      · simp only [hk, update_self, Owns, hi, Pc.stage]
      · simp only [update_of_ne hk, Owns]
    · refine Iff.trans (h.claim_owns _ _ _ _ _ (by rfl) (by rfl) g v) ?_
      exact or_iff_left fun hg => hne v hg.2.1 hg.2.2
  · rw [hno]
    exact fun hf => absurd hf Bool.false_ne_true
  · exact absurd hpe (hne v hv)

/-- What the notify loop finds for request `pick` of its batch. -/
theorem batch (h : Entries u s) (hr : RingMachine.Reach u.ring s.ring)
    {seqDone flagDone : Nat → Bool} {pick : Nat}
    (hphase : s.ring.sched.phase = .notify seqDone flagDone) (hpick : pick < s.ring.sched.acc)
    (hvictim : isVictim (s.ring.sched.buf pick).pcEntry = true) :
    s.ring.retired+pick < s.ring.claimed ∧ ∃ v < u.nEntries,
      (s.ring.calls (s.ring.retired+pick)).pcEntry = victimPe v ∧
      victimIdx (s.ring.sched.buf pick).pcEntry = v := by
  have hp := (inv_of_reach hr).phase_ok
  rw [hphase] at hp
  obtain ⟨⟨hlt, -⟩, hbuf⟩ := hp.1.got pick hpick
  have hpe : (s.ring.sched.buf pick).pcEntry = (s.ring.calls (s.ring.retired+pick)).pcEntry := by
    rw [hbuf]
    rfl
  rw [hpe] at hvictim
  obtain ⟨v, hv, hcall⟩ := h.named _ hlt hvictim
  refine ⟨hlt, v, hv, hcall, ?_⟩
  rw [hpe, hcall, victimIdx_victimPe (Nat.lt_of_lt_of_le hv u.nEntries_le)]

theorem clear (h : Entries u s) (hg : g < s.ring.claimed) (hnote : s.notes g = .fresh)
    (byteOffsets : Nat → BitVec 64) :
    Entries u { s with byteOffsets := byteOffsets, notes := update s.notes g .cleared } := by
  have howns :
    ∀ k v, Owns u { s with byteOffsets := byteOffsets, notes := update s.notes g .cleared } k v ↔
      Owns u s k v := by
    rintro (k | k) v
    · exact Iff.rfl
    · by_cases hk : k = g
      · simp only [Owns, hk, update_self, hnote, ne_eq, reduceCtorEq]
      · simp only [Owns, update_of_ne hk]
  refine ⟨h.owners.congr (fun _ => Iff.rfl) howns, h.target_lt, h.stage_eq,
    fun k v ho => h.sent k v ((howns _ v).1 ho), fun k hk => ?_, h.named⟩
  exact (update_of_ne (by rintro rfl; exact Nat.not_lt_of_le hk hg) _ _).trans (h.fresh k hk)

theorem free (h : Entries u s) (hg : g < s.ring.claimed) (hv : v < u.nEntries)
    (hpe : (s.ring.calls g).pcEntry = victimPe v) (hnote : s.notes g = .cleared) :
    Entries u { s with states := update s.states v .free, notes := update s.notes g .freed } := by
  have hle := u.nEntries_le
  have hown : Owns u s (.inr g) v := ⟨hg, hv, hpe, by rw [hnote]; decide⟩
  have howns : ∀ k x,
    Owns u { s with states := update s.states v .free, notes := update s.notes g .freed } k x ↔
      Owns u s k x ∧ ¬(k = .inr g ∧ x = v) := by
    rintro (k | k) x
    · simp only [Owns, reduceCtorEq, false_and, not_false_eq_true, and_true]
    · by_cases hk : k = g
      · subst hk
        simp only [Owns, update_self, ne_eq, not_true_eq_false, and_false, true_and, false_iff]
        rintro ⟨⟨-, hx, hpe', -⟩, hne⟩
        exact hne (victimPe_inj (by omega) (by omega) (hpe'.symm.trans hpe))
      · simp only [Owns, update_of_ne hk, Sum.inr.injEq, hk, false_and, not_false_eq_true, and_true]
  have hother : ∀ k x, Owns u s k x → k ≠ .inr g → update s.states v .free x = s.states x := by
    intro k x hk hne
    refine update_of_ne ?_ _ _
    rintro rfl
    exact hne (h.owners.unique k (.inr g) _ hk hown)
  refine ⟨h.owners.drop hown (fun x => ?_) howns, h.target_lt, fun k x st hx => ?_,
    fun k x ho => ?_, fun k hk => ?_, h.named⟩
  · simp only [Live]
    by_cases hx : x = v
    · simp only [hx, update_self, reduceCtorEq, and_false, or_false, ne_eq, not_true_eq_false]
    · simp only [update_of_ne hx, ne_eq, hx, not_false_eq_true, and_true]
  · exact (hother (.inl k) x ⟨st, hx⟩ (by simp)).trans (h.stage_eq k x st hx)
  · obtain ⟨ho, hne⟩ := (howns _ x).1 ho
    refine (hother (.inr k) x ho ?_).trans (h.sent k x ho)
    intro heq
    exact hne ⟨heq, victimPe_inj (by have := ho.2.1; omega) (by omega)
      ((Sum.inr.inj heq ▸ ho.2.2.1).symm.trans hpe)⟩
  · exact (update_of_ne (by rintro rfl; exact Nat.not_lt_of_le hk hg) _ _).trans (h.fresh k hk)

theorem trans (h : Entries u s) (hc : Control u s) (hr : RingMachine.Reach u.ring s.ring)
    (ht : Trans u s s') : Entries u s' := by
  have hnone {pc : Pc} (hpc : pc.target = none) : ∀ v, pc.target = some v → v < u.nEntries := by
    rw [hpc]
    exact fun _ hv => by cases hv
  have hkeep {i : Nat} {pc : Pc} (hpc : pc.target = (s.thread i).target) :
      ∀ v, pc.target = some v → v < u.nEntries := fun v hv => h.target_lt i v (hpc ▸ hv)
  cases ht with
  | take i p hi _ _ => exact h.go rfl (by rw [hi]; rfl) (hnone rfl) rfl rfl rfl
  | unlock i p hi =>
    rcases hi with hi | hi <;> exact h.go rfl (by rw [hi]; rfl) (hnone rfl) rfl rfl rfl
  | evict i p byteOffset hi => exact h.go rfl (by rw [hi]; rfl) (hnone rfl) rfl rfl rfl
  | ticket i p byteOffset hi =>
    refine h.go rfl (by rw [hi]; rfl) (fun v hv => ?_) rfl rfl rfl
    cases hv
    exact u.mask_lt _
  | win i j hi hfree => exact h.win hi hfree
  | lose i j hi => exact h.go rfl (by rw [hi]; rfl) (hnone rfl) rfl rfl rfl
  | swap i j st hi =>
    obtain ⟨pc, hthread, hpc, -, hring, hstates, hnotes⟩ := swapStep_frame (u := u) (s := s) i j st
    rcases hpc with rfl | ⟨st', rfl⟩ <;>
      exact h.go hthread (by rw [hi]; rfl) (hkeep (i := i) (by rw [hi]; rfl)) hstates hring hnotes
  | fill i j pc _ _ _ hi =>
    rcases hi with ⟨hi, rfl⟩ | ⟨hi, rfl⟩ | ⟨hi, rfl⟩ <;>
      exact h.go rfl (by rw [hi]; rfl) (hkeep (i := i) (by rw [hi]; rfl)) rfl rfl rfl
  | occupy i j hi => exact h.occupy hi
  | enqueue i j hi => exact h.enqueue hi
  | block i p byteOffset hi _ => exact h.block hi (hc.slot_lt i p (by rw [hi]; rfl))
  | direct i p byteOffset hi _ => exact h.go rfl (by rw [hi]; rfl) (hnone rfl) rfl rfl rfl
  | call i p g ring _ hring => exact h.quiet (quiet_call hring)
  | ret i p g hi =>
    rcases hi with ⟨hi, -⟩ | ⟨hi, -⟩ <;> exact h.go rfl (by rw [hi]; rfl) (hnone rfl) rfl rfl rfl
  | sched pick ring hring => exact h.quiet (quiet_sched hring)
  | clear pick _ _ hphase hpick hvictim hnote =>
    exact h.clear (h.batch hr hphase hpick hvictim).1 hnote _
  | free pick _ _ hphase hpick hvictim hnote =>
    obtain ⟨hlt, v, hv, hpe, hidx⟩ := h.batch hr hphase hpick hvictim
    rw [hidx]
    exact h.free hlt hv hpe hnote
  | shutdown ring hring => exact h.quiet (quiet_shutdown hring)

end Entries

theorem Reach.entries (h : Reach u s) : Entries u s := by
  induction h with
  | init => exact entries_init u
  | step hr hstep ih => exact ih.trans hr.control.1 hr.control.2 (step_trans hstep)

end Shaper.VictimBuffer
