import Shaper.VictimRequests
import Shaper.WriteBackBatch

/-! Where the data of pending evictions is: each has its contents in a buffer that nobody else
writes, no two are for one place on storage, and storage has what is no longer pending. -/
namespace Shaper.WriteBack
open Function RingInvariant RingSchedule VictimBuffer PrpBuild Request

variable {β : Type*} {u : Setup} {s : State β} {σ σ' : Equiv.Perm Holder} {vic : VictimBuffer.State}
  {i g p v : Nat} {k : Nat ⊕ Nat} {q : BitVec 64} {h : Holder} {pc : Pc}

def Holds (u : Setup) (s : State β) (b : Holder) (q : BitVec 64) : Prop :=
  ∃ c, s.last q = some c ∧ ∀ x < u.bytes, s.ram (byteAt (u.ioaddr b (x/4096)) x) = c x

def OnDisk (u : Setup) (s : State β) (q : BitVec 64) (c : Nat → β) : Prop :=
  ∀ x < u.bytes, s.disk (q.toNat + x) = c x

structure Data (u : Setup) (s : State β) (σ : Equiv.Perm Holder) : Prop where
  unique : ∀ k k' q h h', Pending s.vic k q h → Pending s.vic k' q h' → k = k'
  place : ∀ q c, s.last q = some c → u.Place q
  holds : ∀ k q h, Pending s.vic k q h → Holds u s (σ h) q
  stored : ∀ q c, s.last q = some c → (∃ k h, Pending s.vic k q h) ∨ OnDisk u s q c

section Pending
variable {s vic : VictimBuffer.State}

structure Sound (u : Setup) (s : VictimBuffer.State) : Prop where
  reach : VictimBuffer.Reach u.toSetup s
  safe : SafeCalls u.toSetup s

/-- The thread of a pending eviction that still names its page. -/
theorem source_page (hs : source pc = some (q, .page p)) :
    pc.slot = some p ∧ pc ≠ .locked p ∧ pc.swapping = none := by
  cases pc <;> cases hs <;> refine ⟨rfl, ?_, rfl⟩ <;> rintro ⟨⟩

theorem source_entry (hs : source pc = some (q, .entry v)) :
    ∃ st, pc.stage = some (v, st) ∧ st ≠ .free := by
  cases pc <;> cases hs <;> refine ⟨_, rfl, ?_⟩ <;> rintro ⟨⟩

/-- A pending request: of an occupied entry, or of a page whose thread waits. -/
theorem Sound.request (hs : Sound u s) (hlo : s.ring.submitted ≤ g) (hg : g < s.ring.claimed) :
    (∃ v < u.nEntries, (s.ring.calls g).pcEntry = victimPe v ∧
      holderOf (s.ring.calls g).pcEntry = .entry v ∧ s.states v = .occupied) ∨
    ∃ p < u.nPages, (s.ring.calls g).pcEntry = BitVec.ofNat 64 p ∧
    holderOf (s.ring.calls g).pcEntry = .page p ∧
      ∃ i, s.thread i = .blocked p g := by
  have he := hs.reach.entries
  have hq := hs.reach.requests
  cases hpe : isVictim (s.ring.calls g).pcEntry with
  | true =>
    obtain ⟨v, hv, hname⟩ := he.named g hg hpe
    have hlt : v < 2^31 := Nat.lt_of_lt_of_le hv u.nEntries_le
    have hfresh : s.notes g ≠ .freed := by
      intro hfreed
      exact Nat.not_lt_of_le hlo (hq.noted g (by rw [hfreed]; decide))
    refine .inl ⟨v, hv, hname, ?_, he.sent g v ⟨hg, hv, hname, hfresh⟩⟩
    rw [holderOf, if_pos hpe, hname, victimIdx_victimPe hlt]
  | false =>
    obtain ⟨i, p, hi, hname⟩ := hq.waits hs.safe g hlo hg hpe
    have hp : p < u.nPages := hs.reach.control.1.slot_lt i p (by rw [hi]; rfl)
    have hlt : p < 2^64 := by
      have := u.nPages_lt
      omega
    refine .inr ⟨p, hp, hname, ?_, i, hi⟩
    rw [holderOf, hpe, hname, BitVec.toNat_ofNat, Nat.mod_eq_of_lt hlt]
    rfl

/-- A pending eviction of a page that still has its buffer keeps the slot from being reused. -/
theorem Sound.page (hs : Sound u s) (hk : Pending s k q (.page p)) :
    ∃ i, (s.thread i).slot = some p ∧ s.thread i ≠ .locked p ∧ (s.thread i).swapping = none ∧
      (∀ i', k = .inl i' → i' = i) ∧ ∀ g, k = .inr g → s.thread i = .blocked p g := by
  cases k with
  | inl i =>
    obtain ⟨hslot, hne, hswap⟩ := source_page hk
    refine ⟨i, hslot, hne, hswap, fun i' heq => (Sum.inl.inj heq).symm, ?_⟩
    rintro g ⟨⟩
  | inr g =>
    obtain ⟨hlo, hg, -, hh⟩ := hk
    rcases hs.request hlo hg with ⟨v, -, -, hv, -⟩ | ⟨p', -, -, hp', i, hi⟩
    · exact absurd (hh.symm.trans hv) (page_ne_entry _ _)
    · obtain rfl := Holder.page.inj (hp'.symm.trans hh)
      refine ⟨i, ?_⟩
      rw [hi]
      refine ⟨rfl, ?_, rfl, ?_, ?_⟩
      · rintro ⟨⟩
      · rintro i' ⟨⟩
      · rintro g' ⟨⟩
        rfl

theorem Sound.entry (hs : Sound u s) (hk : Pending s k q (.entry v)) :
    v < u.nEntries ∧ s.states v ≠ .free := by
  have he := hs.reach.entries
  cases k with
  | inl i =>
    obtain ⟨st, hstage, hne⟩ := source_entry hk
    refine ⟨?_, by rw [he.stage_eq i v st hstage]; exact hne⟩
    refine he.target_lt i v ?_
    cases hpc : s.thread i <;> rw [hpc] at hstage <;> cases hstage <;> rfl
  | inr g =>
    obtain ⟨hlo, hg, -, hh⟩ := hk
    rcases hs.request hlo hg with ⟨v', hlt, -, hv, hocc⟩ | ⟨p', -, -, hp', -⟩
    · obtain rfl := Holder.entry.inj (hv.symm.trans hh)
      exact ⟨hlt, by rw [hocc]; decide⟩
    · exact absurd (hp'.symm.trans hh) (page_ne_entry _ _)

theorem Sound.has (hs : Sound u s) (hk : Pending s k q h) : u.Has h := by
  cases h with
  | page p =>
    obtain ⟨i, hslot, -⟩ := hs.page hk
    exact hs.reach.control.1.slot_lt i p hslot
  | entry v => exact (hs.entry hk).1

/-- A thread that has the lock of a slot outside a swap has it settled. -/
theorem not_inSwap_of_slot (hr : VictimBuffer.Reach u.toSetup s)
    (hslot : (s.thread i).slot = some p)
    (hout : (s.thread i).swapping = none) : ¬InSwap s (.page p) := by
  rintro ⟨i', j, st, hi', hp | hv⟩
  · have hswap := Pc.eq_swap hi'
    have heq := hr.control.1.locks.unique i' i p (by rw [hswap, Holder.page.inj hp]; rfl) hslot
    rw [heq, hout] at hi'
    cases hi'
  · exact page_ne_entry _ _ hv

theorem Sound.settled (hs : Sound u s) (hk : Pending s (.inr g) q h) : ¬InSwap s h := by
  cases h with
  | page p =>
    obtain ⟨i, hslot, -, hswap, -⟩ := hs.page hk
    exact not_inSwap_of_slot hs.reach hslot hswap
  | entry v =>
    obtain ⟨hlo, hg, -, hh⟩ := hk
    rcases hs.request hlo hg with ⟨v', hlt, -, hv, hocc⟩ | ⟨p', -, -, hp', -⟩
    · obtain rfl := Holder.entry.inj (hv.symm.trans hh)
      exact hs.reach.entries.not_inSwap hocc
    · exact absurd (hp'.symm.trans hh) (page_ne_entry _ _)

/-- The winner of a free entry is the only one with an eviction from either side of its swap. -/
theorem Sound.apart (hs : Sound u s) {j : Job} (hi : s.thread i = .cas j)
    (hfree : s.states j.entry = .free)
    (hk : Pending s k q h) (hne : k ≠ .inl i) : h ≠ .page j.page ∧ h ≠ .entry j.entry := by
  refine ⟨?_, ?_⟩
  · rintro rfl
    obtain ⟨i', hslot, -, -, hmap, hblocked⟩ := hs.page hk
    have heq := hs.reach.control.1.locks.unique i' i j.page hslot (by rw [hi]; rfl)
    cases k with
    | inl k => exact hne (by rw [hmap k rfl, heq])
    | inr g =>
      have hb := hblocked g rfl
      rw [heq, hi] at hb
      cases hb
  · rintro rfl
    exact (hs.entry hk).2 hfree

theorem pending_go (ht : vic.thread = update s.thread i pc) (hpc : source pc = source (s.thread i))
    (hr : vic.ring = s.ring) : Pending vic k q h ↔ Pending s k q h := by
  cases k with
  | inl k =>
    simp only [Pending, ht]
    by_cases hk : k = i
    · rw [hk, update_self, hpc]
    · rw [update_of_ne hk]
  | inr g => simp only [Pending, hr]

theorem pending_quiet {ring : RingMachine.State} (hq : Quiet s.ring ring)
    (hsub : ring.submitted = s.ring.submitted) :
    Pending { s with ring := ring } k q h ↔ Pending s k q h := by
  cases k with
  | inl k => exact Iff.rfl
  | inr g =>
    obtain ⟨pc, hpc, -⟩ := hq.calls_eq g
    simp only [Pending, hsub, hq.claimed_eq, hpc]

end Pending

section Plain
variable {s s' : VictimBuffer.State} {a : Act}

structure Steady (t t' : RingMachine.State) : Prop where
  submitted_eq : t'.submitted = t.submitted
  sched_eq : t.sched.phase = .submit → t'.sched = t.sched ∧ t'.drained = t.drained

theorem steady_refl (t : RingMachine.State) : Steady t t := ⟨rfl, fun _ => ⟨rfl, rfl⟩⟩

theorem steady_call {r : RingMachine.Ring} {t t' : RingMachine.State}
    (hs : RingMachine.step r t (.call g) = some t') : Steady t t' := by
  simp only [RingMachine.step] at hs
  split at hs
  · obtain rfl | ⟨_, _, _, _, -, rfl⟩ := callStep_shape hs <;> exact ⟨rfl, fun _ => ⟨rfl, rfl⟩⟩
  · cases hs

theorem threadStep_frame (hs : threadStep u.toSetup s i = some s') :
    (∀ k, k ≠ i → s'.thread k = s.thread k) ∧ Steady s.ring s'.ring := by
  have hcall : ∀ p g last, callOr u.toSetup s i p g last = some s' →
      (∀ k, k ≠ i → s'.thread k = s.thread k) ∧ Steady s.ring s'.ring := by
    intro p g last hc
    simp only [callOr] at hc
    split at hc
    · cases hc
      exact ⟨fun k hk => update_of_ne hk _ _, steady_refl _⟩
    · obtain ⟨ring, hring, rfl⟩ := Option.map_eq_some_iff.1 hc
      exact ⟨fun _ _ => rfl, steady_call hring⟩
  simp only [threadStep] at hs
  split at hs
  case h_5 j st _ =>
    cases hs
    obtain ⟨pc, hthread, -, -, hring, -⟩ := swapStep_frame (u := u.toSetup) (s := s) i j st
    rw [hthread, hring]
    exact ⟨fun k hk => update_of_ne hk _ _, steady_refl _⟩
  case h_11 => exact hcall _ _ _ hs
  case h_13 => exact hcall _ _ _ hs
  all_goals
    (try split at hs) <;> cases hs <;>
      exact ⟨fun k hk => update_of_ne hk _ _, rfl, fun _ => ⟨rfl, rfl⟩⟩

theorem plain_not_ticket (hp : Plain s a) (hs : VictimBuffer.step u.toSetup s a = some s')
    (hi : s.thread i = .locked p) : s'.thread i ≠ .ticket p q := by
  suffices hsame : s'.thread i = .locked p ∨ s'.thread i = .out by
    rcases hsame with hsame | hsame <;> rw [hsame] <;> rintro ⟨⟩
  cases a with
  | take i' p' =>
    simp only [VictimBuffer.step] at hs
    split at hs
    · rename_i hout
      split at hs <;> cases hs
      refine .inl ((update_of_ne ?_ _ _).trans hi)
      rintro rfl
      rw [hi] at hout
      cases hout
    · cases hs
  | leave i' =>
    simp only [VictimBuffer.step] at hs
    split at hs <;> cases hs
    by_cases hii : i = i'
    · exact .inr (by rw [hii]; exact update_self _ _ _)
    · exact .inl ((update_of_ne hii _ _).trans hi)
  | evict => exact hp.elim
  | thread i' =>
    by_cases hii : i = i'
    · subst hii
      simp only [VictimBuffer.step, threadStep, hi] at hs
      cases hs
    · exact .inl (((threadStep_frame hs).1 i hii).trans hi)
  | sched pick =>
    simp only [VictimBuffer.step, VictimBuffer.schedStep] at hs
    obtain ⟨ring, -, hs⟩ := Option.bind_eq_some_iff.1 hs
    (repeat' split at hs) <;> cases hs <;> exact .inl hi
  | note pick =>
    simp only [VictimBuffer.step, noteStep] at hs
    (repeat' split at hs) <;> cases hs <;> exact .inl hi
  | shutdown =>
    cases hs
    exact .inl hi

theorem plain_steady (hp : Plain s a) (hs : VictimBuffer.step u.toSetup s a = some s') :
    Steady s.ring s'.ring := by
  cases a with
  | take i' p' =>
    simp only [VictimBuffer.step] at hs
    split at hs
    · split at hs <;> cases hs
      exact steady_refl _
    · cases hs
  | leave i' =>
    simp only [VictimBuffer.step] at hs
    split at hs <;> cases hs
    exact steady_refl _
  | evict => exact hp.elim
  | thread i' => exact (threadStep_frame hs).2
  | sched pick =>
    simp only [VictimBuffer.step, VictimBuffer.schedStep] at hs
    obtain ⟨ring, hring, hs⟩ := Option.bind_eq_some_iff.1 hs
    have hsteady : Steady s.ring ring := by
      refine ⟨?_, fun hphase => absurd hphase hp⟩
      rcases sched_submitted hring with heq | ⟨hphase, -⟩
      · exact heq
      · exact absurd hphase hp
    (repeat' split at hs) <;> cases hs <;> exact hsteady
  | note pick =>
    simp only [VictimBuffer.step, noteStep] at hs
    (repeat' split at hs) <;> cases hs <;> exact steady_refl _
  | shutdown =>
    cases hs
    exact ⟨rfl, fun _ => ⟨rfl, rfl⟩⟩

end Plain

namespace Data

/-- Evictions that pass from one stage to the next with their buffer. -/
theorem pass (d : Data u s σ) (f : Nat ⊕ Nat → Nat ⊕ Nat)
    (hsub : ∀ k q h, Pending vic k q h → ∃ h₀, Pending s.vic (f k) q h₀ ∧ σ' h = σ h₀)
    (hinj : ∀ k k' q h h', Pending vic k q h → Pending vic k' q h' → f k = f k' → k = k')
    (hsup : ∀ k q h, Pending s.vic k q h → ∃ k' h', Pending vic k' q h') :
    Data u { s with vic := vic } σ' where
  unique k k' q h h' hk hk' := by
    obtain ⟨_, hk₀, -⟩ := hsub k q h hk
    obtain ⟨_, hk₀', -⟩ := hsub k' q h' hk'
    exact hinj k k' q h h' hk hk' (d.unique _ _ q _ _ hk₀ hk₀')
  place := d.place
  holds k q h hk := by
    obtain ⟨h₀, hk₀, heq⟩ := hsub k q h hk
    rw [heq]
    exact d.holds _ q h₀ hk₀
  stored q c hc := by
    refine (d.stored q c hc).imp ?_ id
    rintro ⟨k, h, hk⟩
    exact hsup k q h hk

theorem same (d : Data u s σ) (hiff : ∀ k q h, Pending vic k q h ↔ Pending s.vic k q h) :
    Data u { s with vic := vic } σ :=
  d.pass id (fun k q h hk => ⟨h, (hiff k q h).1 hk, rfl⟩) (fun _ _ _ _ _ _ _ => id)
    fun k q h hk => ⟨k, h, (hiff k q h).2 hk⟩

/-- A thread wins an entry: its page's buffer will be the entry's. -/
theorem win (d : Data u s σ) (hs : Sound u s.vic) {j : Job} (hi : s.vic.thread i = .cas j)
    (hfree : s.vic.states j.entry = .free) :
    Data u { s with vic := { s.vic with
        states := update s.vic.states j.entry .copying
        thread := update s.vic.thread i (.swap j (.loadA 0)) } }
      ((Equiv.swap (.page j.page) (.entry j.entry)).trans σ) := by
  have hiff : ∀ k q h, k ≠ .inl i → (Pending { s.vic with
      states := update s.vic.states j.entry .copying
      thread := update s.vic.thread i (.swap j (.loadA 0)) } k q h ↔
      Pending s.vic k q h) := by
    intro k q h hne
    cases k with
    | inl k =>
      simp only [Pending]
      rw [update_of_ne fun heq => hne (by rw [heq])]
    | inr g => exact Iff.rfl
  have hself : ∀ q h, Pending { s.vic with
      states := update s.vic.states j.entry .copying
      thread := update s.vic.thread i (.swap j (.loadA 0)) }
      (.inl i) q h ↔ q = j.byteOffset ∧ h = .entry j.entry := by
    intro q h
    simp only [Pending, update_self, source, Option.some_inj, Prod.mk.injEq, eq_comm]
  have hmine : Pending s.vic (.inl i) j.byteOffset (.page j.page) := by
    simp only [Pending, hi, source]
  refine d.pass id (fun k q h hk => ?_) (fun _ _ _ _ _ _ _ => id) fun k q h hk => ?_
  · by_cases hki : k = .inl i
    · subst hki
      obtain ⟨rfl, rfl⟩ := (hself q h).1 hk
      refine ⟨_, hmine, ?_⟩
      rw [Equiv.trans_apply, Equiv.swap_apply_right]
    · have hk := (hiff k q h hki).1 hk
      obtain ⟨hp, hv⟩ := hs.apart hi hfree hk hki
      refine ⟨h, hk, ?_⟩
      rw [Equiv.trans_apply, Equiv.swap_apply_of_ne_of_ne hp hv]
  · by_cases hki : k = .inl i
    · subst hki
      have hq : q = j.byteOffset := by
        simp only [Pending, hi, source, Option.some_inj, Prod.mk.injEq] at hk
        exact hk.1.symm
      exact ⟨.inl i, _, (hself q _).2 ⟨hq, rfl⟩⟩
    · exact ⟨k, h, (hiff k q h hki).2 hk⟩

theorem enter (d : Data u s σ) (hs : Sound u s.vic) (hi : source (s.vic.thread i) = some (q, h))
    (hpc : source pc = none) (api : RingMachine.Api) (nBytes pcEntry : BitVec 64)
    (opcode : BitVec 8) (hh : holderOf pcEntry = h)
    (hvic : vic =
      { s.vic.move i pc with ring := RingMachine.claim s.vic.ring api q nBytes pcEntry opcode }) :
    Data u { s with vic := vic } σ := by
  have hinv := inv_of_reach hs.reach.control.2
  have hle := hinv.submitted_le.trans (drained_le_claimed hinv)
  have hnew : ∀ q' h', Pending vic (.inr s.vic.ring.claimed) q' h' ↔ q' = q ∧ h' = h := by
    intro q' h'
    simp only [Pending, hvic]
    change s.vic.ring.submitted ≤ s.vic.ring.claimed ∧ s.vic.ring.claimed < s.vic.ring.claimed + 1 ∧
      (update s.vic.ring.calls s.vic.ring.claimed _ s.vic.ring.claimed).byteOffset = q' ∧
      holderOf (update s.vic.ring.calls s.vic.ring.claimed _ s.vic.ring.claimed).pcEntry = h' ↔ _
    simp only [update_self, hle, Nat.lt_succ_self, true_and, hh, eq_comm]
  have hgone : ∀ q' h', ¬Pending vic (.inl i) q' h' := by
    intro q' h' hk
    simp only [Pending, hvic] at hk
    change source (update s.vic.thread i pc i) = some (q', h') at hk
    rw [update_self, hpc] at hk
    cases hk
  have hiff : ∀ k q' h', k ≠ .inl i → k ≠ .inr s.vic.ring.claimed →
    (Pending vic k q' h' ↔ Pending s.vic k q' h') := by
    intro k q' h' hne hne'
    cases k with
    | inl k =>
      simp only [Pending, hvic]
      change source (update s.vic.thread i pc k) = some (q', h') ↔ _
      rw [update_of_ne fun heq => hne (by rw [heq])]
    | inr g =>
      have hg : g ≠ s.vic.ring.claimed := fun heq => hne' (by rw [heq])
      simp only [Pending, hvic]
      change s.vic.ring.submitted ≤ g ∧ g < s.vic.ring.claimed + 1 ∧
        (update s.vic.ring.calls s.vic.ring.claimed _ g).byteOffset = q' ∧
        holderOf (update s.vic.ring.calls s.vic.ring.claimed _ g).pcEntry = h' ↔ _
      have hlt : g < s.vic.ring.claimed + 1 ↔ g < s.vic.ring.claimed := by omega
      rw [update_of_ne hg, hlt]
  refine d.pass (fun k => if k = .inr s.vic.ring.claimed then .inl i else k) (fun k q' h' hk => ?_)
    (fun k k' q' h' h'' hk hk' heq => ?_) fun k q' h' hk => ?_
  · by_cases hkc : k = .inr s.vic.ring.claimed
    · subst hkc
      obtain ⟨rfl, rfl⟩ := (hnew q' h').1 hk
      rw [if_pos rfl]
      exact ⟨h', hi, rfl⟩
    · rw [if_neg hkc]
      have hki : k ≠ .inl i := by
        rintro rfl
        exact hgone q' h' hk
      exact ⟨h', (hiff k q' h' hki hkc).1 hk, rfl⟩
  · by_cases hkc : k = .inr s.vic.ring.claimed <;> by_cases hkc' : k' = .inr s.vic.ring.claimed
    · rw [hkc, hkc']
    · rw [if_pos hkc, if_neg hkc'] at heq
      exact absurd (heq ▸ hk') (hgone q' h'')
    · rw [if_neg hkc, if_pos hkc'] at heq
      exact absurd (heq ▸ hk) (hgone q' h')
    · rwa [if_neg hkc, if_neg hkc'] at heq
  · by_cases hki : k = .inl i
    · subst hki
      obtain ⟨rfl, rfl⟩ : q = q' ∧ h = h' := by
        simpa [Pending, hi] using hk
      exact ⟨_, h, (hnew q h).2 ⟨rfl, rfl⟩⟩
    · refine ⟨k, h', (hiff k q' h' hki ?_).2 hk⟩
      rintro rfl
      exact Nat.lt_irrefl _ hk.2.1

/-- A step of the victim machine that neither starts an eviction nor ends a submit phase. -/
theorem trans (d : Data u s σ) (hs : Sound u s.vic) {a : Act} (hp : Plain s.vic a)
    (hstep : VictimBuffer.step u.toSetup s.vic a = some vic) :
    Data u { s with vic := vic } σ ∨ Wins s.vic vic := by
  have hsub := (plain_steady hp hstep).submitted_eq
  have ht := step_trans hstep
  have hc := hs.reach.control.1
  have he := hs.reach.entries
  cases ht with
  | take i p hi _ _ => exact .inl (d.same fun _ _ _ => pending_go rfl (by rw [hi]; rfl) rfl)
  | unlock i p hi =>
    rcases hi with hi | hi <;> exact .inl (d.same fun _ _ _ => pending_go rfl (by rw [hi]; rfl) rfl)
  | evict i p byteOffset hi => exact absurd (update_self _ _ _) (plain_not_ticket hp hstep hi)
  | ticket i p byteOffset hi =>
    exact .inl (d.same fun _ _ _ => pending_go rfl (by rw [hi]; rfl) rfl)
  | win i j hi hfree => exact .inr ⟨i, j, hi, hfree, rfl⟩
  | lose i j hi => exact .inl (d.same fun _ _ _ => pending_go rfl (by rw [hi]; rfl) rfl)
  | swap i j st hi =>
    obtain ⟨pc, hthread, hpc, -, hring, -⟩ := swapStep_frame (u := u.toSetup) (s := s.vic) i j st
    refine .inl (d.same fun _ _ _ => pending_go hthread ?_ hring)
    rcases hpc with rfl | ⟨st', rfl⟩ <;> rw [hi] <;> rfl
  | fill i j pc _ _ _ hi =>
    rcases hi with ⟨hi, rfl⟩ | ⟨hi, rfl⟩ | ⟨hi, rfl⟩ <;>
      exact .inl (d.same fun _ _ _ => pending_go rfl (by rw [hi]; rfl) rfl)
  | occupy i j hi =>
    refine .inl (d.same fun _ _ _ => pending_go rfl ?_ rfl)
    rw [hi, if_pos u.hasQueue]
    rfl
  | enqueue i j hi =>
    have hlt : j.entry < u.nEntries := he.target_lt i _ (by rw [hi]; rfl)
    refine .inl (d.enter hs (by rw [hi]; rfl) rfl _ _ _ _ ?_ rfl)
    have hlt : j.entry < 2^31 := Nat.lt_of_lt_of_le hlt u.nEntries_le
    rw [holderOf, if_pos (isVictim_victimPe hlt), victimIdx_victimPe hlt]
  | block i p byteOffset hi _ =>
    have hlt : p < u.nPages := hc.slot_lt i p (by rw [hi]; rfl)
    have hlt : p < 2^31 := Nat.lt_trans hlt u.nPages_lt
    refine .inl (d.enter hs (by rw [hi]; rfl) rfl _ _ _ _ ?_ rfl)
    rw [holderOf, page_not_victim hlt, BitVec.toNat_ofNat, Nat.mod_eq_of_lt (by omega)]
    rfl
  | direct i p byteOffset hi hq => exact absurd (hq.symm.trans u.hasQueue) Bool.false_ne_true
  | call i p g ring _ hring =>
    exact .inl (d.same fun _ _ _ => pending_quiet (quiet_call hring) hsub)
  | ret i p g hi =>
    rcases hi with ⟨hi, -⟩ | ⟨hi, -⟩ <;>
      exact .inl (d.same fun _ _ _ => pending_go rfl (by rw [hi]; rfl) rfl)
  | sched pick ring hring => exact .inl (d.same fun _ _ _ => pending_quiet (quiet_sched hring) hsub)
  | clear pick _ _ _ _ _ _ =>
    refine .inl (d.same fun k q h => ?_)
    cases k <;> exact Iff.rfl
  | free pick _ _ _ _ _ _ =>
    refine .inl (d.same fun k q h => ?_)
    cases k <;> exact Iff.rfl
  | shutdown ring hring =>
    exact .inl (d.same fun _ _ _ => pending_quiet (quiet_shutdown hring) hsub)

end Data

end Shaper.WriteBack
