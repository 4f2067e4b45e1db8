import Shaper.WriteBackRuns

/-! What storage has when the ring is drained, and how the blocking fallback can lose a page: a
wait that ends early lets the slot be filled again before its write. -/
namespace Shaper.WriteBack
open Function RingInvariant RingSchedule RingRuns RingWait VictimBuffer PrpBuild

variable {β : Type*} {u : Setup} {s s' : State β} {i p n : Nat} {q : BitVec 64}

/-- Once the ring is drained storage has, for every page ever evicted that is not on its way to
the ring again, the contents of its last eviction. -/
def WrittenBack (u : Setup) (s : State β) : Prop :=
  s.vic.ring.retired = s.vic.ring.claimed → ∀ q c, s.last q = some c →
    (∀ i h, source (s.vic.thread i) ≠ some (q, h)) → OnDisk u s q c

theorem retired_le_submitted {r : RingMachine.Ring} {t : RingMachine.State} (h : Inv r t) :
    t.retired ≤ t.submitted := by
  by_contra hlt
  exact Nat.lt_irrefl _ (h.stored_lt _ (h.notified _ (Nat.lt_of_not_le hlt)).1)

structure AtRest (u : Setup) (i p n : Nat) (q : BitVec 64) (s : State β) : Prop where
  reach : Reach u s
  idle : s.work = .idle
  quiet : RingRuns.Quiet s.vic.ring n
  lone : Lone u s.vic.ring
  out : s.vic.thread i = .out
  unlocked : s.vic.lock p = false
  taken : ∀ v < u.nEntries, s.vic.states v ≠ .free
  others : ∀ k h, k ≠ i → source (s.vic.thread k) ≠ some (q, h)

structure Waiting (u : Setup) (i p n : Nat) (q : BitVec 64) (s : State β) : Prop where
  reach : Reach u s
  idle : s.work = .idle
  claimed_eq : s.vic.ring.claimed = n+1
  retired_eq : s.vic.ring.retired = n
  shutdown_eq : s.vic.ring.shutdown = 0#32
  sync : (s.vic.ring.calls n).api = .sync
  pc_eq : (s.vic.ring.calls n).pc = .returned
  fresh : s.vic.ring.seqStored n = false
  lone : Lone u s.vic.ring
  blocked : s.vic.thread i = .blocked p n
  taken : ∀ v < u.nEntries, s.vic.states v ≠ .free
  others : ∀ k h, k ≠ i → source (s.vic.thread k) ≠ some (q, h)

theorem AtRest.not_pending (h : AtRest u i p n q s) (k : Nat ⊕ Nat) (b : Holder) :
    ¬Pending s.vic k q b := by
  intro hk
  cases k with
  | inl k =>
    by_cases hki : k = i
    · rw [hki, Pending, h.out] at hk
      cases hk
    · exact h.others k b hki hk
  | inr g =>
    have hle := retired_le_submitted (inv_of_reach h.reach.vic.control.2)
    have hlo := hk.1
    have hlt := hk.2.1
    rw [h.quiet.claimed_eq, ← h.quiet.retired_eq] at hlt
    omega

theorem Reach.evicts (hr : Reach u s) (hi : s.vic.thread i = .out) (hp : p < u.nPages)
    (hlock : s.vic.lock p = false) (hq : u.Place q) (hnone : ∀ k b, ¬Pending s.vic k q b) :
    Reach u { s with
      vic := { s.vic with lock := update s.vic.lock p true }.move i (.ticket p q)
      last := update s.last q (some (s.contents u p)) } := by
  have hlocked : Reach u { s with
      vic := { s.vic with
        thread := update s.vic.thread i (.locked p)
        lock := update s.vic.lock p true } } := by
    refine hr.step (.victim (.take i p) _ trivial ?_)
    simp only [VictimBuffer.step, hi, if_pos (And.intro hp hlock), VictimBuffer.State.move]
  have hstep := hlocked.step (.evict i p q (update_self _ _ _) hq fun k b hk => ?_)
  · simp only [VictimBuffer.State.move, update_idem] at hstep
    exact hstep
  · cases k with
    | inl k =>
      by_cases hki : k = i
      · simp only [Pending, hki, update_self] at hk
        cases hk
      · simp only [Pending, update_of_ne hki] at hk
        exact hnone (.inl k) b hk
    | inr g => exact hnone (.inr g) b hk

theorem Reach.wins {v : VictimBuffer.State} {e : Nat}
    (hr : Reach u { s with vic := v.move i (.ticket p q) })
    (he : (v.allocTicket &&& u.nEntriesMask).toNat = e) (hfree : v.states e = .free) :
    Reach u { s with
      vic := { v with
        allocTicket := v.allocTicket + 1#32
        states := update v.states e .copying
        thread := update v.thread i (.swap ⟨p, q, e⟩ (.loadA 0)) } } := by
  have hcas : Reach u { s with
      vic := { v with
        allocTicket := v.allocTicket + 1#32
        thread := update v.thread i (.cas ⟨p, q, e⟩) } } := by
    refine hr.step (.victim (.thread i) _ trivial ?_)
    simp only [VictimBuffer.step, threadStep, VictimBuffer.State.move, update_self, update_idem, he]
  refine hcas.step (.victim (.thread i) _ trivial ?_)
  simp only [VictimBuffer.step, threadStep, update_self, if_pos hfree, update_idem]

def fallbackClaim (u : Setup) (t : RingMachine.State) (q : BitVec 64) (p : Nat) :
    RingMachine.State :=
  RingMachine.claim t .sync q u.pageSize (BitVec.ofNat 64 p) nvmIoWrite

/-- With no entry free, an eviction comes to the blocking fallback. -/
theorem Reach.falls_back {v : VictimBuffer.State}
    (hr : Reach u { s with vic := v.move i (.ticket p q) })
    (htaken : ∀ e < u.nEntries, v.states e ≠ .free) :
    Reach u { s with
      vic := { v with
        allocTicket := v.allocTicket + 1#32
        ring := fallbackClaim u v.ring q p
        thread := update v.thread i (.blocked p v.ring.claimed) } } := by
  have hlt := u.mask_lt v.allocTicket
  have hcas : Reach u { s with
      vic := { v with
        allocTicket := v.allocTicket + 1#32
        thread :=
          update v.thread i (.cas ⟨p, q, (v.allocTicket &&& u.nEntriesMask).toNat⟩) } } := by
    refine hr.step (.victim (.thread i) _ trivial ?_)
    simp only [VictimBuffer.step, threadStep, VictimBuffer.State.move, update_self, update_idem]
  have hlose : Reach u { s with
      vic := { v with
        allocTicket := v.allocTicket + 1#32
        thread := update v.thread i (.fallback p q) } } := by
    refine hcas.step (.victim (.thread i) _ trivial ?_)
    simp only [VictimBuffer.step, threadStep, update_self, if_neg (htaken _ hlt),
      VictimBuffer.State.move, update_idem]
  refine hlose.step (.victim (.thread i) _ trivial ?_)
  simp only [VictimBuffer.step, threadStep, update_self, if_pos u.hasQueue, VictimBuffer.State.move,
    update_idem, fallbackClaim]

theorem AtRest.claims (h : AtRest u i p n q s) (hp : p < u.nPages) (hq : u.Place q) :
    Reach u { s with
      vic := { s.vic with
        thread := update s.vic.thread i (.blocked p n)
        lock := update s.vic.lock p true
        allocTicket := s.vic.allocTicket + 1#32
        ring := fallbackClaim u s.vic.ring q p }
      last := update s.last q (some (s.contents u p)) } := by
  have hblocked :=
    Reach.falls_back (s := { s with last := update s.last q (some (s.contents u p)) })
    (v := { s.vic with lock := update s.vic.lock p true })
    (h.reach.evicts h.out hp h.unlocked hq h.not_pending) h.taken
  rw [← h.quiet.claimed_eq]
  exact hblocked

theorem AtRest.exists_waiting (h : AtRest u i p n q s) (hp : p < u.nPages) (hq : u.Place q) :
    ∃ s', Waiting u i p n q s' ∧ s'.ram = s.ram ∧ s'.disk = s.disk ∧ s'.overrun = s.overrun ∧
      s'.vic.pageVaddrs = s.vic.pageVaddrs ∧ s'.last = update s.last q (some (s.contents u p)) := by
  have hinv := inv_of_reach h.reach.vic.control.2
  have hcall :
    (fallbackClaim u s.vic.ring q p).calls n = ⟨.sync, q, u.pageSize, BitVec.ofNat 64 p, nvmIoWrite,
      s.vic.ring.prodTail, .full⟩ := by
    rw [fallbackClaim, RingMachine.claim, h.quiet.claimed_eq]
    exact update_self _ _ _
  have hroom : n < s.vic.ring.retired + u.ring.capacity := by
    have hcap := capacity_pos u.ring
    rw [h.quiet.retired_eq]
    omega
  obtain ⟨ring, hr, hm, hpc⟩ :=
    (h.claims hp hq).exists_enqueued (i := i) (p := p) (g := n) (update_self _ _ _)
    (by rw [hcall]; rfl) hroom
  have hclaimed : ring.claimed = n+1 := by
    rw [hm.claimed_eq]
    exact congrArg (· + 1) h.quiet.claimed_eq
  have hold : ∀ g < n, ring.calls g = s.vic.ring.calls g := by
    intro g hg
    rw [hm.calls_of_ne (Nat.ne_of_lt hg)]
    exact claim_calls_of_lt (h.quiet.claimed_eq ▸ hg)
  have hnew : (ring.calls n).api = .sync ∧ (ring.calls n).byteOffset = q ∧
      (ring.calls n).pcEntry = BitVec.ofNat 64 p := by
    obtain ⟨pc, _, _, _, rfl⟩ := hm
    change ((RingMachine.State.setPc _ n pc).calls n).api = _ ∧ _
    simp only [RingMachine.setPc_calls, hcall, and_self]
  have hretired : ring.retired = n := hm.retired_eq.trans h.quiet.retired_eq
  have hkept : ring.shutdown = 0#32 ∧ ring.seqStored = s.vic.ring.seqStored := by
    obtain ⟨_, _, _, _, rfl⟩ := hm
    exact ⟨h.quiet.shutdown_eq, rfl⟩
  refine ⟨_,
    ⟨hr, h.idle, hclaimed, hretired, hkept.1, hnew.1, hpc, ?_, ⟨?_, fun g hg => ?_, fun g hg => ?_⟩,
      update_self _ _ _, h.taken, fun k b hki => ?_⟩, rfl, rfl, rfl, rfl, rfl⟩
  · change ring.seqStored n = false
    rw [hkept.2]
    by_contra hstored
    have hlt := (hinv.stored_lt n (by simpa using hstored)).trans_le
      (hinv.submitted_le.trans (drained_le_claimed hinv))
    rw [h.quiet.claimed_eq] at hlt
    exact Nat.lt_irrefl n hlt
  · change ring.claimed ≤ ring.retired + 1
    omega
  · rcases Nat.lt_succ_iff_lt_or_eq.1 (hclaimed ▸ hg) with hlt | rfl
    · change u.Place (ring.calls g).byteOffset
      rw [hold g hlt]
      exact h.lone.place g (h.quiet.claimed_eq ▸ hlt)
    · change u.Place (ring.calls g).byteOffset
      rw [hnew.2.1]
      exact hq
  · rcases Nat.lt_succ_iff_lt_or_eq.1 (hclaimed ▸ hg) with hlt | rfl
    · change isVictim (ring.calls g).pcEntry = false
      rw [hold g hlt]
      exact h.lone.page g (h.quiet.claimed_eq ▸ hlt)
    · change isVictim (ring.calls g).pcEntry = false
      rw [hnew.2.2]
      exact page_not_victim (Nat.lt_trans hp u.nPages_lt)
  · change source (update s.vic.thread i (.blocked p n) k) ≠ some (q, b)
    rw [update_of_ne hki]
    exact h.others k b hki

theorem passes_of_stored {r : RingMachine.Ring} {t : RingMachine.State} (h : Inv r t) {g : Nat}
    (hstored : t.seqStored g = true) (hlast : t.claimed = g+1) :
    ¬t.doneSeq (cell r g) < BitVec.ofNat 32 g + 1#32 := by
  rcases h.doneStamped g with ⟨-, hno⟩ | ⟨g', hst, -, hv, hmax⟩
  · exact absurd rfl (hno g hstored)
  · have hlt := (h.stored_lt g' hst).trans_le (h.submitted_le.trans (drained_le_claimed h))
    have hge := hmax g hstored rfl
    obtain rfl : g' = g := by omega
    rw [show t.doneSeq (cell r g') = BitVec.ofNat 32 (g'+1) from hv, ← Lib.Counter.ofNat_succ]
    exact BitVec.lt_irrefl _

theorem Reach.finishes {g : Nat} (hr : Reach u s) (hi : s.vic.thread i = .blocked p g)
    (hpc : (s.vic.ring.calls g).pc = .returned) (hsync : (s.vic.ring.calls g).api = .sync)
    (hpass : ¬s.vic.ring.doneSeq (cell u.ring g) < BitVec.ofNat 32 g + 1#32) :
    Reach u { s with
      vic := { s.vic with
        thread := update s.vic.thread i .out
        lock := update s.vic.lock p false
        ring := s.vic.ring.setPc g .finished } } := by
  have hinv := inv_of_reach hr.vic.control.2
  have hg : g < s.vic.ring.claimed := hr.vic.control.1.call_lt i g (by rw [hi]; rfl)
  have hstep : RingMachine.callStep u.ring s.vic.ring g = some (s.vic.ring.setPc g .finished) := by
    rw [← index_ofNat, ← hinv.slot_eq g hg] at hpass
    simp only [RingMachine.callStep, hpc, hsync, if_neg hpass]
  refine (hr.call hi ?_ hstep).returns hi (RingMachine.setPc_pc_self _ _ _)
  rw [hpc]
  rintro ⟨⟩

theorem Lone.setPc {t : RingMachine.State} (h : Lone u t) (g : Nat) (pc : RingMachine.CallPc) :
    Lone u (t.setPc g pc) := by
  refine ⟨h.alone, fun g' hg => ?_, fun g' hg => ?_⟩
  · rw [RingMachine.setPc_calls]
    exact h.place g' hg
  · rw [RingMachine.setPc_calls]
    exact h.page g' hg

theorem Waiting.published (h : Waiting u i p n q s) : RingInvariant.published s.vic.ring n := by
  refine ⟨?_, ?_⟩
  · rw [h.claimed_eq]
    exact Nat.lt_succ_self n
  · rw [h.pc_eq]
    rfl

section Rounds
variable (hpool : u.pool ≠ none) (hpow : u.ppe ∣ 512) (hp : p < u.nPages) (hq : u.Place q)
include hpool hpow

/-- The write is done, the thread returns, and all is at rest again. -/
theorem Waiting.exists_rest (h : Waiting u i p n q s) : ∃ s', AtRest u i p (n+1) q s' ∧
    Onto s s' := by
  obtain ⟨s₁, ring, hr, honto, hvic, hidle, hquiet, hcalls⟩ :=
    h.reach.exists_retired hpool hpow h.idle h.lone
    h.retired_eq h.claimed_eq h.shutdown_eq h.published
  have hring : s₁.vic.ring = ring := by rw [hvic]
  have hinv := inv_of_reach hr.vic.control.2
  rw [hring] at hinv
  have hlone : Lone u ring := by
    refine ⟨?_, fun g hg => ?_, fun g hg => ?_⟩
    · rw [hquiet.claimed_eq, hquiet.retired_eq]
      exact Nat.le_succ _
    · rw [hcalls]
      exact h.lone.place g (by rwa [h.claimed_eq, ← hquiet.claimed_eq])
    · rw [hcalls]
      exact h.lone.page g (by rwa [h.claimed_eq, ← hquiet.claimed_eq])
  have hstored := (hinv.notified n (by rw [hquiet.retired_eq]; exact Nat.lt_succ_self n)).1
  have hdone := hr.finishes (i := i) (p := p) (g := n) (by rw [hvic]; exact h.blocked)
    (by rw [hring, hcalls]; exact h.pc_eq) (by rw [hring, hcalls]; exact h.sync)
    (by rw [hring]; exact passes_of_stored hinv hstored hquiet.claimed_eq)
  refine ⟨_, ⟨hdone, hidle, ?_, ?_, update_self _ _ _, update_self _ _ _, ?_, fun k b hki => ?_⟩,
    ⟨honto.ram_eq, honto.last_eq, honto.overrun_eq, honto.disk⟩⟩
  · rw [hring]
    exact ⟨hquiet.claimed_eq, hquiet.retired_eq, hquiet.shutdown_eq, hquiet.phase_eq⟩
  · rw [hring]
    exact hlone.setPc n _
  · rw [hvic]
    exact h.taken
  · change source (update s₁.vic.thread i .out k) ≠ some (q, b)
    rw [update_of_ne hki, hvic]
    exact h.others k b hki

include hp

/-- Where the wait does not compare the right way it ends before the block has looked at the
request; the slot gets other contents, and those are written. -/
theorem Waiting.exists_blank (h : Waiting u i p n q s) {b : β}
    (hram : ∀ a, a ≠ byteAt (u.translate (s.vic.pageVaddrs p) (0/4096)) 0 → s.ram a = b)
    (hdisk : ∀ x, s.disk x = b)
    (hlap : u.ring.capacity ≤ n) (hwrap : (n+1) % 2^32 < u.ring.capacity) :
    ∃ s' : State β, Reach u s' ∧ s'.overrun = s.overrun ∧ s'.last = s.last ∧ (∀ x, s'.disk x = b) ∧
      s'.vic.ring.retired = s'.vic.ring.claimed ∧
      ∀ k b, source (s'.vic.thread k) ≠ some (q, b) := by
  have hinv := inv_of_reach h.reach.vic.control.2
  have hpass : ¬s.vic.ring.doneSeq (cell u.ring n) < BitVec.ofNat 32 n + 1#32 := by
    rcases doneSeq_before hinv h.published h.fresh with ⟨hlt, -⟩ | ⟨hle, hval⟩
    · omega
    · rw [hval, wait_lt_iff u.ring hle]
      omega
  have hearly := h.reach.finishes h.blocked h.pc_eq h.sync hpass
  have hlocks := hearly.vic.control.1.locks
  have hagain := hearly.step (.fill p 0 b hp (Nat.mul_pos (by decide) u.ppe_pos) fun k hk => by
    have hheld := hlocks.held_of_owns k p hk
    simp only [update_self] at hheld
    cases hheld)
  obtain ⟨s', ring, hr, honto, hvic, -, hquiet, -⟩ :=
    hagain.exists_retired hpool hpow h.idle (h.lone.setPc n _)
    h.retired_eq h.claimed_eq h.shutdown_eq ⟨h.published.1, by rw [RingMachine.setPc_pc_self]; rfl⟩
  have hblank :
    ∀ a, update s.ram (byteAt (u.translate (s.vic.pageVaddrs p) (0/4096)) 0) b a = b := by
    intro a
    by_cases ha : a = byteAt (u.translate (s.vic.pageVaddrs p) (0/4096)) 0
    · rw [ha, update_self]
    · rw [update_of_ne ha, hram a ha]
  refine ⟨s', hr, honto.overrun_eq, honto.last_eq, fun x => ?_, ?_, fun k c => ?_⟩
  · rcases honto.disk x with heq | ⟨a, ha⟩
    · exact heq.trans (hdisk x)
    · exact ha.trans (hblank a)
  · rw [hvic]
    exact hquiet.retired_eq.trans hquiet.claimed_eq.symm
  · rw [hvic]
    change source (update s.vic.thread i .out k) ≠ some (q, c)
    by_cases hki : k = i
    · rw [hki, update_self]
      rintro ⟨⟩
    · rw [update_of_ne hki]
      exact h.others k c hki

include hq

theorem AtRest.exists_next (h : AtRest u i p n q s) :
    ∃ s', AtRest u i p (n+1) q s' ∧ s'.ram = s.ram ∧ s'.overrun = s.overrun ∧
      s'.last = update s.last q (some (s.contents u p)) ∧
      ∀ x, s'.disk x = s.disk x ∨ ∃ a, s'.disk x = s.ram a := by
  obtain ⟨s₁, hwait, hram, hdisk, hover, -, hlast⟩ := h.exists_waiting hp hq
  obtain ⟨s₂, hrest, honto⟩ := hwait.exists_rest hpool hpow
  refine ⟨s₂, hrest, honto.ram_eq.trans hram, honto.overrun_eq.trans hover,
    honto.last_eq.trans hlast, fun x => ?_⟩
  rw [← hdisk, ← hram]
  exact honto.disk x

/-- Any number of evictions later memory and storage can be as blank as before. -/
theorem AtRest.exists_later (h : AtRest u i p 0 q s) {b : β} (hram : ∀ a, s.ram a = b)
    (hdisk : ∀ x, s.disk x = b)
    (n : Nat) : ∃ s', AtRest u i p n q s' ∧ (∀ a, s'.ram a = b) ∧ (∀ x, s'.disk x = b) ∧
    s'.overrun = s.overrun := by
  induction n with
  | zero => exact ⟨s, h, hram, hdisk, rfl⟩
  | succ n ih =>
    obtain ⟨s₁, h₁, hram₁, hdisk₁, hover₁⟩ := ih
    obtain ⟨s₂, h₂, hram₂, hover₂, -, hdisk₂⟩ := h₁.exists_next hpool hpow hp hq
    refine ⟨s₂, h₂, fun a => by rw [hram₂, hram₁], fun x => ?_, hover₂.trans hover₁⟩
    rcases hdisk₂ x with heq | ⟨a, ha⟩
    · rw [heq, hdisk₁]
    · rw [ha, hram₁]

theorem AtRest.exists_loss (h : AtRest u i p n q s) {b b' : β} (hne : b ≠ b')
    (hram : ∀ a, s.ram a = b)
    (hdisk : ∀ x, s.disk x = b) (hlap : u.ring.capacity ≤ n)
    (hwrap : (n+1) % 2^32 < u.ring.capacity) :
    ∃ s' : State β, Reach u s' ∧ s'.overrun = s.overrun ∧ ¬WrittenBack u s' := by
  have hbytes : 0 < u.bytes := Nat.mul_pos (by decide) u.ppe_pos
  have hrest : Resting s.vic p := by
    intro k hk
    have hheld := h.reach.vic.control.1.locks.held_of_owns k p hk
    rw [h.unlocked] at hheld
    cases hheld
  have hfull : AtRest u i p n q { s with
      ram := update s.ram (byteAt (u.translate (s.vic.pageVaddrs p) (0/4096)) 0) b' } :=
    { h with reach := h.reach.step (.fill p 0 b' hp hbytes hrest) }
  obtain ⟨s₁, hwait, hram₁, hdisk₁, hover₁, hvaddr₁, hlast₁⟩ := hfull.exists_waiting hp hq
  obtain ⟨s₂, hr, hover₂, hlast₂, hblank, hdrained, hway⟩ :=
    hwait.exists_blank hpool hpow hp (b := b)
    (fun a ha => by
      rw [hvaddr₁] at ha
      rw [hram₁]
      exact (update_of_ne ha _ _).trans (hram a))
    (fun x => by
      rw [hdisk₁]
      exact hdisk x) hlap hwrap
  refine ⟨s₂, hr, hover₂.trans hover₁, fun hback => ?_⟩
  have hstored := hback hdrained q _ (by rw [hlast₂, hlast₁]; exact update_self _ _ _) hway 0 hbytes
  rw [hblank] at hstored
  exact hne (hstored.trans (update_self _ _ _))

end Rounds

def threeBuffers : Holder → BitVec 64
  | .page p => BitVec.ofNat 64 (4096*(2*p))
  | .entry v => BitVec.ofNat 64 (4096*(2*v+1))

theorem threeBuffers_aligned (h : Holder) : (threeBuffers h).toNat % 4096 = 0 := by
  cases h with
  | page p =>
    rw [threeBuffers, BitVec.toNat_ofNat]
    omega
  | entry v =>
    rw [threeBuffers, BitVec.toNat_ofNat]
    omega

theorem two_lt_two_pow : 2 < 2^31 := by decide

theorem zero_le_thirtyOne : 0 ≤ 31 := Nat.zero_le 31

def twoPagesVictim : VictimBuffer.Setup where
  ring := ⟨10, Nat.le_of_ble_eq_true rfl, .write⟩
  write := rfl
  queued := true
  nPages := 2
  nPages_lt := two_lt_two_pow
  entriesLog := 0
  entriesLog_le := zero_le_thirtyOne
  ppe := 1
  prps := false
  prp1 _ := 0#64
  prp2 _ := 0#64
  vaddr := threeBuffers
  ioaddr h _ := threeBuffers h

theorem threeBuffers_inj (h h' : Holder) (hh : twoPagesVictim.Has h) (hh' : twoPagesVictim.Has h')
    (heq : threeBuffers h = threeBuffers h') : h = h' := by
  have hnat := congrArg BitVec.toNat heq
  cases h <;> cases h' <;> simp only [threeBuffers, BitVec.toNat_ofNat] at hnat
  case page.page p p' =>
    have hp : p < 2 := hh
    have hp' : p' < 2 := hh'
    obtain rfl : p = p' := by omega
    rfl
  case entry.entry v v' =>
    have hv : v < 1 := hh
    have hv' : v' < 1 := hh'
    obtain rfl : v = v' := by omega
    rfl
  case page.entry p v =>
    have hp : p < 2 := hh
    have hv : v < 1 := hh'
    omega
  case entry.page v p =>
    have hv : v < 1 := hh
    have hp : p < 2 := hh'
    omega

def twoPages : Setup where
  toSetup := twoPagesVictim
  hasQueue := rfl
  ppe_pos := Nat.one_pos
  ppe_le := Nat.le_of_ble_eq_true rfl
  pages_le := Nat.le_of_ble_eq_true rfl
  entries_le := Nat.le_of_ble_eq_true rfl
  translate a _ := a
  mapped _ _ _ _ := rfl
  aligned h _ := threeBuffers_aligned h
  ioaddr_inj h h' _ _ hh hh' hk hk' heq :=
    ⟨threeBuffers_inj h h' hh hh' heq, (Nat.lt_one_iff.1 hk).trans (Nat.lt_one_iff.1 hk').symm⟩
  sort := .v1
  pool := some PrpPool.inOrder
  bus _ := 0#64
  blkLog := 9
  block_le := Nat.le_refl 9
  block_dvd := ⟨8, rfl⟩

theorem twoPages_atRest (ram : BitVec 64 → β) (disk : Nat → β) :
    ∃ s : State β, AtRest twoPages 0 0 0 0#64 s ∧ s.ram = ram ∧ s.disk = disk ∧
    s.overrun = false := by
  have hticket :=
    (Reach.init (u := twoPages) ram disk .zero).evicts (i := 1) (p := 1) (q := 4096#64) rfl
      (by decide) rfl ⟨by decide, by decide⟩ fun k b hk => ?_
  · have hwon := Reach.wins (s := { init twoPages ram disk .zero with
        last := update (fun _ => none) 4096#64
          (some ((init twoPages ram disk .zero).contents twoPages 1)) })
      (v := { VictimBuffer.init twoPagesVictim with lock := update (fun _ => false) 1 true })
      (e := 0) hticket rfl rfl
    refine ⟨_, ⟨hwon, rfl, ⟨rfl, rfl, rfl, rfl⟩, ⟨Nat.zero_le _, ?_, ?_⟩, rfl, rfl, fun v hv => ?_,
      fun k b hk => ?_⟩, rfl, rfl, rfl⟩
    · exact fun g hg => absurd hg (Nat.not_lt_zero g)
    · exact fun g hg => absurd hg (Nat.not_lt_zero g)
    · obtain rfl : v = 0 := Nat.lt_one_iff.1 hv
      change update (fun _ => EntryState.free) 0 EntryState.copying 0 ≠ .free
      rw [update_self]
      rintro ⟨⟩
    · change source (update (fun _ => Pc.out) 1 (.swap ⟨1, 4096#64, 0⟩ (.loadA 0)) k) ≠
        some (0#64, b)
      by_cases hk1 : k = 1
      · rw [hk1, update_self]
        rintro ⟨⟩
      · rw [update_of_ne hk1]
        rintro ⟨⟩
  · cases k with
    | inl k => cases hk
    | inr g => exact Nat.not_lt_zero g hk.2.1

/-- Nothing is lost as long as pages are a power of two, the blocking writes so far have slot
numbers whose wait compares the right way, and step 1b has stayed in its array. -/
theorem evictions_written_back (u : Setup) (hpow : u.ppe ∣ 512) (s : State β) (hr : Reach u s)
    (hsafe : SafeCalls u.toSetup s.vic) (hover : s.overrun = false) : WrittenBack u s := by
  intro hdrained q c hc hway
  obtain ⟨σ, inv⟩ := hr.invariant hpow hsafe hover
  refine (inv.data.stored q c hc).resolve_left ?_
  rintro ⟨i | g, h, hk⟩
  · exact hway i h hk
  · have hle := retired_le_submitted (inv_of_reach hr.vic.control.2)
    have hlo := hk.1
    have hlt := hk.2.1
    omega

/-- One eviction through the fallback: page 0 is on storage. -/
theorem fallback_written_back : ∃ (s : State Bool) (c : Nat → Bool), Reach twoPages s ∧
    s.vic.ring.claimed = 1 ∧ s.last 0#64 = some c ∧ OnDisk twoPages s 0#64 c := by
  have hpow : twoPages.ppe ∣ 512 := one_dvd 512
  obtain ⟨s, hrest, -, -, hover⟩ := twoPages_atRest (fun _ => true) fun _ => false
  obtain ⟨s₁, hrest₁, -, hover₁, hlast, -⟩ :=
    hrest.exists_next (Option.some_ne_none _) hpow (by decide)
    ⟨by decide, by decide⟩
  have hclaimed := hrest₁.quiet.claimed_eq
  have hsafe : SafeCalls twoPages.toSetup s₁.vic := by
    intro g hg _
    have hcap : twoPages.ring.capacity = 1024 := rfl
    refine .inl ?_
    rw [hcap]
    omega
  refine ⟨s₁, s.contents twoPages 0, hrest₁.reach, hclaimed, by rw [hlast, update_self], ?_⟩
  refine evictions_written_back twoPages hpow s₁ hrest₁.reach hsafe (hover₁.trans hover)
    (hrest₁.quiet.retired_eq.trans hclaimed.symm) 0#64 _ (by rw [hlast, update_self]) fun k b => ?_
  by_cases hk : k = 0
  · rw [hk, hrest₁.out]
    rintro ⟨⟩
  · exact hrest₁.others k b hk

/-- The eviction that takes the last 32-bit slot number is lost. -/
theorem last_slot_loses_page : ∃ s : State Bool, Reach twoPages s ∧ s.overrun = false ∧
    ¬WrittenBack twoPages s := by
  have hpool : twoPages.pool ≠ none := Option.some_ne_none _
  have hpow : twoPages.ppe ∣ 512 := one_dvd 512
  have hplace : twoPages.Place 0#64 := ⟨by decide, by decide⟩
  obtain ⟨s, hrest, hram, hdisk, hover⟩ := twoPages_atRest (fun _ => false) fun _ => false
  obtain ⟨s₁, hrest₁, hram₁, hdisk₁, hover₁⟩ :=
    hrest.exists_later hpool hpow (by decide) hplace (b := false)
    (fun a => by rw [hram]) (fun x => by rw [hdisk]) (2^32-1)
  obtain ⟨s₂, hr, hover₂, hlost⟩ :=
    hrest₁.exists_loss hpool hpow (by decide) hplace Bool.false_ne_true hram₁ hdisk₁
    (by decide) (by decide)
  exact ⟨s₂, hr, hover₂.trans (hover₁.trans hover), hlost⟩

end Shaper.WriteBack
