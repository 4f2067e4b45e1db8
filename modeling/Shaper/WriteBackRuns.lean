import Shaper.WriteBackInvariant

/-! Runs that exist: the block can go through its submit phase, and a request that is alone in
the ring can be taken to its end. -/
namespace Shaper.WriteBack
open Function RingInvariant RingSchedule RingProgress RingDelivery RingRuns VictimBuffer PrpBuild
  Request Merge MergeScratch

variable {β : Type*} {u : Setup} {s s' s'' : State β} {gs : List Group}

structure Onto (s s' : State β) : Prop where
  ram_eq : s'.ram = s.ram
  last_eq : s'.last = s.last
  overrun_eq : s'.overrun = s.overrun
  disk : ∀ x, s'.disk x = s.disk x ∨ ∃ a, s'.disk x = s.ram a

theorem Onto.refl (s : State β) : Onto s s := ⟨rfl, rfl, rfl, fun _ => .inl rfl⟩

theorem Onto.trans (h : Onto s s') (h' : Onto s' s'') : Onto s s'' where
  ram_eq := h'.ram_eq.trans h.ram_eq
  last_eq := h'.last_eq.trans h.last_eq
  overrun_eq := h'.overrun_eq.trans h.overrun_eq
  disk x := by
    rcases h'.disk x with heq | ⟨a, ha⟩
    · rw [heq]
      exact h.disk x
    · exact .inr ⟨a, by rw [ha, h.ram_eq]⟩

namespace Reach

/-- The device can move the bytes of a call one after the other. -/
theorem exists_call (call : List (BitVec 64 × Nat)) {todo : List (List (BitVec 64 × Nat))}
    (hr : Reach u s) (hwork : s.work = .calling (call :: todo) gs) :
    ∃ s', Reach u s' ∧ Onto s s' ∧ s'.vic = s.vic ∧ s'.seen = s.seen ∧
    s'.work = .calling todo gs := by
  induction call generalizing s with
  | nil =>
    exact ⟨_, hr.step (.callDone todo gs hwork), ⟨rfl, rfl, rfl, fun _ => .inl rfl⟩, rfl, rfl, rfl⟩
  | cons m rest ih =>
    obtain ⟨s', hr', honto, hvic, hseen, hwork'⟩ :=
      ih (hr.step (.move m.1 m.2 [] rest todo gs hwork)) rfl
    refine ⟨s', hr', Onto.trans ?_ honto, hvic, hseen, hwork'⟩
    refine ⟨rfl, rfl, rfl, fun x => ?_⟩
    change update s.disk m.2 (s.ram m.1) x = s.disk x ∨
      ∃ a, update s.disk m.2 (s.ram m.1) x = s.ram a
    by_cases hx : x = m.2
    · exact .inr ⟨m.1, by rw [hx, update_self]⟩
    · exact .inl (update_of_ne hx _ _)

theorem exists_calls (todo : List (List (BitVec 64 × Nat))) (hr : Reach u s)
    (hwork : s.work = .calling todo gs) :
    ∃ s', Reach u s' ∧ Onto s s' ∧ s'.vic = s.vic ∧ s'.seen = s.seen ∧ s'.work = .merging gs := by
  induction todo generalizing s with
  | nil =>
    exact ⟨_, hr.step (.chunkDone gs hwork), ⟨rfl, rfl, rfl, fun _ => .inl rfl⟩, rfl, rfl, rfl⟩
  | cons call todo ih =>
    obtain ⟨s₁, hr₁, honto₁, hvic₁, hseen₁, hwork₁⟩ := hr.exists_call call hwork
    obtain ⟨s₂, hr₂, honto₂, hvic₂, hseen₂, hwork₂⟩ := ih hr₁ hwork₁
    exact ⟨s₂, hr₂, honto₁.trans honto₂, hvic₂.trans hvic₁, hseen₂.trans hseen₁, hwork₂⟩

theorem exists_merged (hpool : u.pool ≠ none) (hr : Reach u s) (hwork : s.work = .merging gs)
    (hseen : ∀ g ∈ gs, ∀ pe ∈ g.entries, ∀ k < u.ppe, (s.seen (cellOf u.ppe pe k)).isSome = true) :
    ∃ s', Reach u s' ∧ Onto s s' ∧ s'.vic = s.vic ∧ s'.work = .merging [] := by
  induction hn : gs.length using Nat.strongRecOn generalizing s gs with
  | ind n ih =>
    by_cases hne : gs = []
    · exact ⟨s, hr, .refl s, rfl, by rw [hwork, hne]⟩
    · obtain ⟨s₁, hr₁, honto₁, hvic₁, hseen₁, hwork₁⟩ := (hr.step (.chunk gs hwork hne fun g hg =>
        hseen g (List.mem_of_mem_take hg))).exists_calls _ rfl
      have hlt : (gs.drop (u.chunkLen gs)).length < n := by
        have hpos := List.length_pos_iff.2 hne
        have hslots : poolSlots u.pool = kSchedMaxBatch := by
          obtain ⟨pool, hp⟩ := Option.ne_none_iff_exists'.1 hpool
          rw [hp]
          rfl
        rw [List.length_drop, Setup.chunkLen, hslots]
        simp only [kSchedMaxBatch]
        omega
      obtain ⟨s₂, hr₂, honto₂, hvic₂, hwork₂⟩ := ih _ hlt hr₁ hwork₁ (fun g hg pe hpe k hk => by
        rw [hseen₁]
        exact hseen g (List.mem_of_mem_drop hg) pe hpe k hk) rfl
      exact ⟨s₂, hr₂,
        Onto.trans ⟨honto₁.ram_eq, honto₁.last_eq, honto₁.overrun_eq, honto₁.disk⟩ honto₂,
        hvic₂.trans hvic₁, hwork₂⟩

theorem exists_loaded (l : List (Nat × Nat))
    (hl : ∀ x ∈ l, x.1 < s.vic.ring.sched.acc ∧ x.2 < u.ppe) (hr : Reach u s)
    (hwork : s.work = .merging gs) :
    ∃ s', Reach u s' ∧ Onto s s' ∧ s'.vic = s.vic ∧ s'.work = .merging gs ∧
      ∀ x ∈ l, (s'.seen (cellOf u.ppe (s.vic.ring.sched.buf x.1).pcEntry x.2)).isSome = true := by
  induction l with
  | nil => exact ⟨s, hr, .refl s, rfl, hwork, by rintro x ⟨⟩⟩
  | cons x l ih =>
    obtain ⟨s₁, hr₁, honto₁, hvic₁, hwork₁, hseen₁⟩ :=
      ih fun x hx => hl x (List.mem_cons_of_mem _ hx)
    obtain ⟨hj, hk⟩ := hl x List.mem_cons_self
    refine ⟨_, hr₁.step (.look gs x.1 x.2 hwork₁ (by rw [hvic₁]; exact hj) hk),
      ⟨honto₁.ram_eq, honto₁.last_eq, honto₁.overrun_eq, honto₁.disk⟩, hvic₁, hwork₁,
      fun y hy => ?_⟩
    change (update s₁.seen _ _ _).isSome = true
    rw [hvic₁]
    by_cases heq : cellOf u.ppe (s.vic.ring.sched.buf y.1).pcEntry y.2 =
        cellOf u.ppe (s.vic.ring.sched.buf x.1).pcEntry x.2
    · rw [heq, update_self]
      rfl
    · rw [update_of_ne heq]
      refine hseen₁ y ((List.mem_cons.1 hy).resolve_left ?_)
      rintro rfl
      exact heq rfl

/-- A batch whose starts fit into their array can be brought to storage. -/
theorem exists_submitted (hpool : u.pool ≠ none) (hpow : u.ppe ∣ 512) (hr : Reach u s)
    (hphase : s.vic.ring.sched.phase = .submit) (hidle : s.work = .idle) (hb : PageBatch u s)
    {st : (Nat → Nat) × Nat} (hst : s.starts u = some st) :
    ∃ s', Reach u s' ∧ Onto s s' ∧ s'.vic = s.vic ∧ s'.work = .merging [] := by
  obtain ⟨s₁, hr₁, honto₁, hvic₁, hwork₁, hseen₁⟩ :=
    (hr.step (.start st hphase hidle hst)).exists_loaded
    ((List.range s.vic.ring.sched.acc).product (List.range u.ppe)) (fun x hx => by
      obtain ⟨hj, hk⟩ := List.mem_product.1 hx
      exact ⟨List.mem_range.1 hj, List.mem_range.1 hk⟩) rfl
  obtain ⟨s₂, hr₂, honto₂, hvic₂, hwork₂⟩ :=
    hr₁.exists_merged hpool hwork₁ fun g hg pe hpe k hk => by
    obtain ⟨r, hlt, rfl⟩ := List.getElem_of_mem hpe
    have hpage :
      (g.offset.toNat + r*u.bytes, g.entries[r]) ∈ (s.groupsAt u st).flatMap (groupPages u.bytes) :=
      List.mem_flatMap.2 ⟨g, hg, List.mem_mapIdx.2 ⟨r, hlt, rfl⟩⟩
    obtain ⟨req, hreq, heq⟩ := List.mem_map.1 ((hb.groups hpow hst).1.mem_iff.1 hpage)
    obtain ⟨j, hj, rfl⟩ := (mem_requests s req).1 hreq
    rw [← (Prod.mk.inj heq).2]
    exact hseen₁ (j, k) (List.mem_product.2 ⟨List.mem_range.2 hj, List.mem_range.2 hk⟩)
  refine ⟨s₂, hr₂,
    Onto.trans ⟨honto₁.ram_eq, honto₁.last_eq, honto₁.overrun_eq, honto₁.disk⟩ honto₂,
    hvic₂.trans hvic₁, hwork₂⟩

end Reach

structure Lone (u : Setup) (t : RingMachine.State) : Prop where
  alone : t.claimed ≤ t.retired + 1
  place : ∀ g < t.claimed, u.Place (t.calls g).byteOffset
  page : ∀ g < t.claimed, isVictim (t.calls g).pcEntry = false

theorem retired_le_sched {r : RingMachine.Ring} {t t' : RingMachine.State} {pick : Nat}
    (hs : RingMachine.schedStep r t pick = some t') : t.retired ≤ t'.retired := by
  simp only [RingMachine.schedStep] at hs
  split at hs <;> (repeat' split at hs) <;> cases hs <;>
    first
    | exact Nat.le_refl _
    | exact Nat.le_add_right _ _

theorem Lone.sched {t t' : RingMachine.State} {pick : Nat} (h : Lone u t)
    (hs : RingMachine.schedStep u.ring t pick = some t') : Lone u t' := by
  obtain ⟨hcalls, hclaimed, -⟩ := sched_keeps hs
  refine ⟨?_, ?_, ?_⟩
  · rw [hclaimed]
    exact h.alone.trans (Nat.succ_le_succ (retired_le_sched hs))
  · rw [hcalls, hclaimed]
    exact h.place
  · rw [hcalls, hclaimed]
    exact h.page

theorem PageBatch.starts_lone (hb : PageBatch u s) (hpow : u.ppe ∣ 512)
    (hone : s.vic.ring.sched.acc ≤ 1) : ∃ st, s.starts u = some st := by
  have hu := (hb.aligned hpow).1.toUniform
  refine Option.isSome_iff_exists.1
    ((splitIn_isSome_iff hu.sized hb.room _).2 (.inl fun p hp => ?_))
  obtain rfl : p = 0 := by omega
  exact hu.perGroup_pos

namespace Reach

/-- A step of the block, with what it takes to bring its batch to storage. -/
theorem exists_sched (hpool : u.pool ≠ none) (hpow : u.ppe ∣ 512) (hr : Reach u s)
    (hidle : s.work = .idle) (hlone : Lone u s.vic.ring) {ring : RingMachine.State} {pick : Nat}
    (hs : RingMachine.schedStep u.ring s.vic.ring pick = some ring) :
    ∃ s', Reach u s' ∧ Onto s s' ∧ s'.vic = { s.vic with ring := ring } ∧ s'.work = .idle := by
  have hinv := inv_of_reach hr.vic.control.2
  by_cases hphase : s.vic.ring.sched.phase = .submit
  · obtain ⟨hbatch, -⟩ := batched_submit hr.vic hphase
    have hone : s.vic.ring.sched.acc ≤ 1 := by
      have hle := drained_le_claimed hinv
      have halone := hlone.alone
      rw [hbatch.log] at hle
      omega
    have hb : PageBatch u s := by
      refine pageBatch_submit hr.vic hphase fun j hj => ?_
      obtain ⟨hpub, hbuf⟩ := hbatch.got j hj
      rw [hbuf]
      exact hlone.place _ hpub.1
    obtain ⟨st, hst⟩ := hb.starts_lone hpow hone
    obtain ⟨s₁, hr₁, honto, hvic, hwork⟩ := hr.exists_submitted hpool hpow hphase hidle hb hst
    refine ⟨_,
      hr₁.step (.submitted pick { s.vic with ring := ring } (by rw [hvic]; exact hphase) hwork ?_),
      ⟨honto.ram_eq, honto.last_eq, honto.overrun_eq, honto.disk⟩, rfl, rfl⟩
    simp only [hvic, VictimBuffer.step, VictimBuffer.schedStep, RingMachine.step, hs, hphase,
      Option.bind_some]
  · refine ⟨_, hr.step (.victim (.sched pick) { s.vic with ring := ring } hphase ?_),
      ⟨rfl, rfl, rfl, fun _ => .inl rfl⟩, rfl, hidle⟩
    simp only [VictimBuffer.step, VictimBuffer.schedStep, RingMachine.step, hs, Option.bind_some]
    split
    · rename_i hnotify _
      have hok := hinv.phase_ok
      rw [hnotify] at hok
      rw [if_pos]
      rw [notesDone, List.all_eq_true]
      intro j hj
      obtain ⟨hpub, hbuf⟩ := hok.1.got j (List.mem_range.1 hj)
      have hpage : isVictim (s.vic.ring.sched.buf j).pcEntry = false := by
        rw [hbuf]
        exact hlone.page _ hpub.1
      rw [hpage]
      rfl
    · rfl

theorem exists_schedRun (hpool : u.pool ≠ none) (hpow : u.ppe ∣ 512) (hr : Reach u s)
    (hidle : s.work = .idle)
    (hlone : Lone u s.vic.ring) {ring : RingMachine.State} (hs : SchedRun u.ring s.vic.ring ring) :
    Lone u ring ∧ ∃ s', Reach u s' ∧ Onto s s' ∧ s'.vic = { s.vic with ring := ring } ∧
    s'.work = .idle := by
  induction hs with
  | refl => exact ⟨hlone, s, hr, .refl s, rfl, hidle⟩
  | @tail mid ring _ hs ih =>
    obtain ⟨pick, hs⟩ := hs
    obtain ⟨hlone₁, s₁, hr₁, honto₁, hvic₁, hidle₁⟩ := ih
    have hmid : s₁.vic.ring = mid := by rw [hvic₁]
    obtain ⟨s₂, hr₂, honto₂, hvic₂, hidle₂⟩ :=
      hr₁.exists_sched hpool hpow hidle₁ (hmid ▸ hlone₁) (hmid ▸ hs)
    refine ⟨hlone₁.sched hs, s₂, hr₂, honto₁.trans honto₂, ?_, hidle₂⟩
    rw [hvic₂, hvic₁]

theorem exists_retired (hpool : u.pool ≠ none) (hpow : u.ppe ∣ 512) (hr : Reach u s)
    (hidle : s.work = .idle)
    (hlone : Lone u s.vic.ring) {n : Nat} (hretired : s.vic.ring.retired = n)
    (hclaimed : s.vic.ring.claimed = n+1)
    (hshut : s.vic.ring.shutdown = 0#32) (hpub : published s.vic.ring n) :
    ∃ s' ring, Reach u s' ∧ Onto s s' ∧ s'.vic = { s.vic with ring := ring } ∧ s'.work = .idle ∧
      RingRuns.Quiet ring (n+1) ∧ ring.calls = s.vic.ring.calls := by
  obtain ⟨ring, hrun, hgt, htop⟩ :=
    exists_retire (inv_of_reach hr.vic.control.2) ⟨hshut, .inr (hretired ▸ hpub)⟩
  obtain ⟨-, s', hr', honto, hvic, hidle'⟩ := hr.exists_schedRun hpool hpow hidle hlone hrun
  obtain ⟨hcalls, hclaimed', hshut'⟩ := hrun.keeps
  refine ⟨s', ring, hr', honto, hvic, hidle',
    ⟨hclaimed'.trans hclaimed, ?_, hshut'.trans hshut, htop⟩, hcalls⟩
  have hinv := inv_of_reach hr'.vic.control.2
  have hle := (retired_le_drained hinv).trans (drained_le_claimed hinv)
  rw [hvic] at hle
  change ring.retired ≤ ring.claimed at hle
  omega

variable {i p g : Nat}

theorem call (hr : Reach u s) (hi : s.vic.thread i = .blocked p g)
    (hpc : (s.vic.ring.calls g).pc ≠ .finished)
    {ring : RingMachine.State} (hs : RingMachine.callStep u.ring s.vic.ring g = some ring) :
    Reach u { s with vic := { s.vic with ring := ring } } := by
  have hg : g < s.vic.ring.claimed := hr.vic.control.1.call_lt i g (by rw [hi]; rfl)
  refine hr.step (.victim (.thread i) _ trivial ?_)
  simp only [VictimBuffer.step, threadStep, hi, callOr, if_neg hpc, RingMachine.step, if_pos hg, hs,
    Option.map_some]

theorem exists_enqueued (hr : Reach u s) (hi : s.vic.thread i = .blocked p g)
    (hin : (s.vic.ring.calls g).pc.inEnqueue = true)
    (hroom : g < s.vic.ring.retired + u.ring.capacity) :
    ∃ ring, Reach u { s with vic := { s.vic with ring := ring } } ∧ Moved g s.vic.ring ring ∧
      (ring.calls g).pc = .returned := by
  induction hn : CallPc.left (s.vic.ring.calls g).pc using Nat.strongRecOn generalizing s with
  | ind m ih =>
    have hg : g < s.vic.ring.claimed := hr.vic.control.1.call_lt i g (by rw [hi]; rfl)
    have hpc : (s.vic.ring.calls g).pc ≠ .finished := by
      intro hfin
      rw [hfin] at hin
      cases hin
    obtain ⟨ring, hs, hm, hsucc⟩ := callStep_enqueue (inv_of_reach hr.vic.control.2) hg hin hroom
    have hr' := hr.call hi hpc hs
    by_cases hlast : (s.vic.ring.calls g).pc = .publish
    · exact ⟨ring, hr', hm, by rw [hsucc, hlast]; rfl⟩
    · have hin' := CallPc.succ_left hin hlast
      rw [← hsucc, hn] at hin'
      obtain ⟨ring', hr'', hm', hdone⟩ :=
        ih _ hin'.2 hr' hi hin'.1 (by rw [hm.retired_eq]; exact hroom) rfl
      exact ⟨ring', hr'', hm.trans hm', hdone⟩

theorem returns (hr : Reach u s) (hi : s.vic.thread i = .blocked p g)
    (hpc : (s.vic.ring.calls g).pc = .finished) :
    Reach u { s with vic := { s.vic with
      thread := update s.vic.thread i .out
      lock := update s.vic.lock p false } } := by
  have hdone : Reach u { s with vic := s.vic.move i (.done p) } := by
    refine hr.step (.victim (.thread i) _ trivial ?_)
    simp only [VictimBuffer.step, threadStep, hi, callOr, if_pos hpc]
  refine (hdone.step (.victim (.thread i) _ trivial ?_) : Reach u _)
  simp only [VictimBuffer.step, threadStep, VictimBuffer.State.move, update_self, update_idem]

end Reach

end Shaper.WriteBack
