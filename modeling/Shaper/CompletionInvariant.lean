import Mathlib.Data.List.Nodup
import Shaper.CompletionQueue
import Shaper.SubmissionRuns

/-! What holds in every state of the queue pair, in parts: what each thread knows, who
submitted a command, the identifiers, the completions posted, the counters of the
completion queue, its marks, and the section under `head_lock`. -/
namespace Shaper.CompletionQueue
open Function Lib Lib.Ownership SubmissionQueue

theorem getElem?_concat {α : Type*} {l : List α} {x a : α} {y : Nat}
    (h : (l ++ [x])[y]? = some a) : l[y]? = some a ∨ y = l.length ∧ a = x := by
  rcases Nat.lt_or_ge y l.length with hlt | hge
  · rw [List.getElem?_append_left hlt] at h
    exact .inl h
  · rw [List.getElem?_append_right hge, List.getElem?_singleton] at h
    split at h
    · exact .inr ⟨by omega, (Option.some.inj h).symm⟩
    · cases h

inductive Stage where
  | outside | holder | queued | polling | found | looping | sweeping | waiting | over | finished
  deriving DecidableEq

namespace Stage
def holding : Stage → Bool
  | .outside | .finished => false
  | _ => true
def submitted : Stage → Bool
  | .outside | .holder => false
  | _ => true
def answered : Stage → Bool
  | .outside | .holder | .queued | .polling => false
  | _ => true
def called : Stage → Bool
  | .outside | .holder | .queued | .polling | .found => false
  | _ => true
def cleared : Stage → Bool
  | .waiting | .over | .finished => true
  | _ => false
def passed : Stage → Bool
  | .over | .finished => true
  | _ => false

theorem answered_of_called {st : Stage} (h : st.called = true) : st.answered = true := by
  cases st <;> first | rfl | cases h

theorem submitted_of_answered {st : Stage} (h : st.answered = true) : st.submitted = true := by
  cases st <;> first | rfl | cases h

theorem holding_of_submitted {st : Stage} (h : st.submitted = true) (ha : st.answered = false) :
    st.holding = true := by
  revert h ha
  cases st <;> decide
end Stage

def Pc.stage : Pc → Stage
  | .ticket | .lock _ => .outside
  | .enqueue => .holder
  | .inQueue => .queued
  | .loadHead | .scan .. => .polling
  | .tailAdd | .waitPos | .takePos | .mark => .found
  | .look | .lockHead => .looping
  | .loadCur | .sweep .. | .readCpl .. | .moving .. | .ringHead .. | .storeHead .. | .unlock =>
    .sweeping
  | .loadNew => .waiting
  | .freePos | .putCid => .over
  | .finished => .finished

def Thread.stage (t : Thread) : Stage := t.pc.stage

structure Answered (r : Queue) (log : List Entry) (passed : Nat) (t : Thread) : Prop where
  own : t.answer = t.call
  entry : ∃ e, log[t.got]? = some e ∧ e.command = t.call
  pos_eq : t.pos = cell r t.got
  loc_eq : t.loc = BitVec.ofNat 32 t.got
  head_eq : t.head = BitVec.ofNat 32 t.base
  base_le : t.base ≤ t.got
  got_lt : t.got < t.base + r.qs
  base_le_passed : t.base ≤ passed

/-- What a thread knows of the rest. Completions that carry its identifier and are not
its own were passed by the head before it took the identifier. -/
structure ThreadOk (r : Queue) (claimed : Nat) (calls : Nat → Call) (log : List Entry)
    (swept passed : Nat) (t : Thread) : Prop where
  since_le : t.stage.holding = true → t.since ≤ passed
  recycled : t.stage.holding = true → ∀ (y : Nat) (e : Entry), log[y]? = some e → e.cid = t.cid →
    (t.stage.submitted = true ∧ e.command = t.call) ∨ y < t.since
  call_lt : t.stage.submitted = true → t.call < claimed ∧ cidOf (calls t.call).cmd = t.cid
  call_left : t.stage.submitted = true → t.stage ≠ .queued → (calls t.call).pc = .left
  scanning : ∀ head i, t.pc = .scan head i →
    head = BitVec.ofNat 32 t.base ∧ t.since ≤ t.base ∧ t.base ≤ passed
  answered : t.stage.answered = true → Answered r log passed t
  cleared : t.stage.cleared = true → t.got < swept
  passed_lt : t.stage.passed = true → t.got < passed

section
variable {q r : Queue} {claimed swept passed : Nat} {calls : Nat → Call} {log : List Entry}
  {t : Thread} {pc : Pc}

theorem Answered.mono {passed' : Nat} {e : List Entry} (h : Answered r log passed t)
    (hle : passed ≤ passed') : Answered r (log ++ e) passed' t where
  own := h.own
  entry := by
    obtain ⟨e', he', hc⟩ := h.entry
    refine ⟨e', ?_, hc⟩
    rw [List.getElem?_append_left (List.getElem?_eq_some_iff.mp he').1]
    exact he'
  pos_eq := h.pos_eq
  loc_eq := h.loc_eq
  head_eq := h.head_eq
  base_le := h.base_le
  got_lt := h.got_lt
  base_le_passed := h.base_le_passed.trans hle

theorem Answered.got_lt_length (h : Answered r log passed t) : t.got < log.length := by
  obtain ⟨e, he, -⟩ := h.entry
  exact (List.getElem?_eq_some_iff.mp he).1

namespace ThreadOk

theorem mono {swept' passed' : Nat} (h : ThreadOk r claimed calls log swept passed t)
    (hs : swept ≤ swept') (hp : passed ≤ passed') :
    ThreadOk r claimed calls log swept' passed' t where
  since_le hh := (h.since_le hh).trans hp
  recycled := h.recycled
  call_lt := h.call_lt
  call_left := h.call_left
  scanning head i hpc := by
    obtain ⟨h₁, h₂, h₃⟩ := h.scanning head i hpc
    exact ⟨h₁, h₂, h₃.trans hp⟩
  answered ha := by
    have := (h.answered ha).mono (e := []) hp
    rwa [List.append_nil] at this
  cleared hc := (h.cleared hc).trans_le hs
  passed_lt hx := (h.passed_lt hx).trans_le hp

theorem calls_grow {claimed' : Nat} {calls' : Nat → Call}
    (h : ThreadOk r claimed calls log swept passed t) (hle : claimed ≤ claimed')
    (hcmd : ∀ g < claimed, (calls' g).cmd = (calls g).cmd)
    (hleft : ∀ g < claimed, (calls g).pc = .left → (calls' g).pc = .left) :
    ThreadOk r claimed' calls' log swept passed t where
  since_le := h.since_le
  recycled := h.recycled
  call_lt hs := by
    obtain ⟨hlt, hc⟩ := h.call_lt hs
    exact ⟨hlt.trans_le hle, by rw [hcmd _ hlt, hc]⟩
  call_left hs hq := hleft _ (h.call_lt hs).1 (h.call_left hs hq)
  scanning := h.scanning
  answered := h.answered
  cleared := h.cleared
  passed_lt := h.passed_lt

/-- A completion of a command of another identifier, or of the thread's own command. -/
theorem post {e : Entry} (h : ThreadOk r claimed calls log swept passed t)
    (he : t.stage.holding = true → e.cid = t.cid →
      t.stage.submitted = true ∧ e.command = t.call) :
    ThreadOk r claimed calls (log ++ [e]) swept passed t where
  since_le := h.since_le
  recycled hh y e' hy hc := by
    rcases getElem?_concat hy with hy | ⟨-, rfl⟩
    · exact h.recycled hh y e' hy hc
    · exact .inl (he hh hc)
  call_lt := h.call_lt
  call_left := h.call_left
  scanning := h.scanning
  answered ha := (h.answered ha).mono (Nat.le_refl _)
  cleared := h.cleared
  passed_lt := h.passed_lt

theorem advance (h : ThreadOk r claimed calls log swept passed t) (pc : Pc)
    (hsub : t.stage.submitted = true) (hq : t.stage ≠ .queued)
    (hsub' : pc.stage.submitted = true)
    (hhold : pc.stage.holding = true → t.stage.holding = true)
    (hscan : ∀ head i, pc = .scan head i →
      head = BitVec.ofNat 32 t.base ∧ t.since ≤ t.base ∧ t.base ≤ passed)
    (hans : pc.stage.answered = true → t.stage.answered = true)
    (hclear : pc.stage.cleared = true → t.got < swept)
    (hpass : pc.stage.passed = true → t.got < passed) :
    ThreadOk r claimed calls log swept passed { t with pc := pc } where
  since_le hh := h.since_le (hhold hh)
  recycled hh y e hy hc := by
    rcases h.recycled (hhold hh) y e hy hc with hown | hlt
    · exact .inl ⟨hsub', hown.2⟩
    · exact .inr hlt
  call_lt _ := h.call_lt hsub
  call_left _ _ := h.call_left hsub hq
  scanning := hscan
  answered ha := { h.answered (hans ha) with }
  cleared := hclear
  passed_lt := hpass

end ThreadOk
end

structure Owners (started claimed : Nat) (threads : Nat → Thread) : Prop where
  owner : ∀ g < claimed, ∃ n < started,
    (threads n).stage.submitted = true ∧ (threads n).call = g
  unique : ∀ n < started, ∀ m < started, (threads n).stage.submitted = true →
    (threads m).stage.submitted = true → (threads n).call = (threads m).call → n = m

namespace Owners
variable {started claimed n : Nat} {threads : Nat → Thread} {t : Thread}

theorem update (h : Owners started claimed threads)
    (hs : t.stage.submitted = (threads n).stage.submitted) (hc : t.call = (threads n).call) :
    Owners started claimed (update threads n t) := by
  have hsub (m : Nat) :
      (Function.update threads n t m).stage.submitted = (threads m).stage.submitted := by
    by_cases he : m = n
    · rw [he, update_self, hs]
    · rw [update_of_ne he]
  have hcall (m : Nat) : (Function.update threads n t m).call = (threads m).call := by
    by_cases he : m = n
    · rw [he, update_self, hc]
    · rw [update_of_ne he]
  constructor
  case owner =>
    intro g hg
    obtain ⟨m, hm, h₁, h₂⟩ := h.owner g hg
    exact ⟨m, hm, (hsub m).trans h₁, (hcall m).trans h₂⟩
  case unique =>
    intro n' hn' m hm
    rw [hsub, hsub, hcall, hcall]
    exact h.unique n' hn' m hm

theorem start (h : Owners started claimed threads) (ht : t.stage.submitted = false) :
    Owners (started+1) claimed (Function.update threads started t) := by
  have hlt {m : Nat} (hm : m < started + 1)
      (hs : (Function.update threads started t m).stage.submitted = true) : m < started := by
    rcases Nat.lt_succ_iff_lt_or_eq.mp hm with hlt | rfl
    · exact hlt
    · rw [update_self, ht] at hs
      cases hs
  constructor
  case owner =>
    intro g hg
    obtain ⟨m, hm, hrest⟩ := h.owner g hg
    refine ⟨m, by omega, ?_⟩
    rw [update_of_ne (by omega)]
    exact hrest
  case unique =>
    intro n hn m hm hs hs' hc
    have h₁ := hlt hn hs
    have h₂ := hlt hm hs'
    rw [update_of_ne (by omega)] at hs hc
    rw [update_of_ne (by omega)] at hs' hc
    exact h.unique n h₁ m h₂ hs hs' hc

theorem submit (h : Owners started claimed threads) (hn : n < started)
    (hlt : ∀ m < started, (threads m).stage.submitted = true → (threads m).call < claimed)
    (hold : (threads n).stage.submitted = false)
    (ht : t.stage.submitted = true) (hc : t.call = claimed) :
    Owners started (claimed+1) (Function.update threads n t) := by
  constructor
  case owner =>
    intro g hg
    rcases Nat.lt_succ_iff_lt_or_eq.mp hg with hg | rfl
    · obtain ⟨m, hm, h₁, h₂⟩ := h.owner g hg
      have hne : m ≠ n := by
        rintro rfl
        rw [hold] at h₁
        cases h₁
      exact ⟨m, hm, by rw [update_of_ne hne]; exact ⟨h₁, h₂⟩⟩
    · exact ⟨n, hn, by rw [update_self]; exact ⟨ht, hc⟩⟩
  case unique =>
    intro a ha b hb hs hs' hcall
    by_cases hea : a = n <;> by_cases heb : b = n
    · rw [hea, heb]
    · subst hea
      rw [update_self, update_of_ne heb, hc] at hcall
      rw [update_of_ne heb] at hs'
      have := hlt b hb hs'
      omega
    · subst heb
      rw [update_self, update_of_ne hea, hc] at hcall
      rw [update_of_ne hea] at hs
      have := hlt a ha hs
      omega
    · rw [update_of_ne hea] at hs hcall
      rw [update_of_ne heb] at hs' hcall
      exact h.unique a ha b hb hs hs' hcall

end Owners

structure Cids (started passed : Nat) (cidLock : BitVec 16 → Bool) (log : List Entry)
    (threads : Nat → Thread) : Prop where
  lock : Exclusive (fun c => cidLock c = true) fun n c =>
    n < started ∧ (threads n).stage.holding = true ∧ (threads n).cid = c
  free : ∀ c, cidLock c = false → ∀ (y : Nat) (e : Entry), log[y]? = some e → e.cid = c →
    y < passed

namespace Cids
variable {started passed n : Nat} {cidLock : BitVec 16 → Bool} {log : List Entry}
  {threads : Nat → Thread} {t : Thread}

theorem mono {passed' : Nat} (h : Cids started passed cidLock log threads)
    (hle : passed ≤ passed') : Cids started passed' cidLock log threads where
  lock := h.lock
  free c hc y e hy he := (h.free c hc y e hy he).trans_le hle

theorem update (h : Cids started passed cidLock log threads)
    (hh : t.stage.holding = (threads n).stage.holding)
    (hc : t.stage.holding = true → t.cid = (threads n).cid) :
    Cids started passed cidLock log (update threads n t) where
  lock := by
    have howns (m : Nat) (c : BitVec 16) : (m < started ∧
        (Function.update threads n t m).stage.holding = true ∧
        (Function.update threads n t m).cid = c) ↔
        m < started ∧ (threads m).stage.holding = true ∧ (threads m).cid = c := by
      by_cases he : m = n
      · subst he
        rw [update_self, ← hh]
        refine and_congr_right fun _ => and_congr_right fun hx => ?_
        rw [hc hx]
      · rw [update_of_ne he]
    exact h.lock.congr (fun _ => Iff.rfl) howns
  free := h.free

theorem start (h : Cids started passed cidLock log threads) (ht : t.stage.holding = false) :
    Cids (started+1) passed cidLock log (Function.update threads started t) where
  lock := by
    have howns (m : Nat) (c : BitVec 16) : (m < started + 1 ∧
        (Function.update threads started t m).stage.holding = true ∧
        (Function.update threads started t m).cid = c) ↔
        m < started ∧ (threads m).stage.holding = true ∧ (threads m).cid = c := by
      by_cases he : m = started
      · simp [he, ht]
      · rw [update_of_ne he]
        have : m < started + 1 ↔ m < started := by omega
        rw [this]
    exact h.lock.congr (fun _ => Iff.rfl) howns
  free := h.free

theorem take {c : BitVec 16} (h : Cids started passed cidLock log threads) (hn : n < started)
    (hfree : cidLock c = false) (hold : (threads n).stage.holding = false)
    (ht : t.stage.holding = true) (hc : t.cid = c) :
    Cids started passed (Function.update cidLock c true) log (Function.update threads n t) where
  lock := by
    have hheld (x : BitVec 16) :
        Function.update cidLock c true x = true ↔ cidLock x = true ∨ x = c := by
      by_cases he : x = c
      · simp [he]
      · simp [he]
    have howns (m : Nat) (x : BitVec 16) : (m < started ∧
        (Function.update threads n t m).stage.holding = true ∧
        (Function.update threads n t m).cid = x) ↔
        (m < started ∧ (threads m).stage.holding = true ∧ (threads m).cid = x) ∨
          m = n ∧ x = c := by
      by_cases he : m = n
      · subst he
        simp [hn, ht, hc, hold, eq_comm]
      · simp [he]
    exact h.lock.take (by simp [hfree]) hheld howns
  free x hx := by
    have hne : x ≠ c := by
      rintro rfl
      rw [update_self] at hx
      cases hx
    rw [update_of_ne hne] at hx
    exact h.free x hx

theorem drop (h : Cids started passed cidLock log threads) (hn : n < started)
    (hold : (threads n).stage.holding = true) (ht : t.stage.holding = false)
    (hall : ∀ (y : Nat) (e : Entry), log[y]? = some e → e.cid = (threads n).cid → y < passed) :
    Cids started passed (Function.update cidLock (threads n).cid false) log
      (Function.update threads n t) where
  lock := by
    have hheld (x : BitVec 16) : Function.update cidLock (threads n).cid false x = true ↔
        cidLock x = true ∧ x ≠ (threads n).cid := by
      by_cases he : x = (threads n).cid
      · simp [he]
      · simp [he]
    have howns (m : Nat) (x : BitVec 16) : (m < started ∧
        (Function.update threads n t m).stage.holding = true ∧
        (Function.update threads n t m).cid = x) ↔
        (m < started ∧ (threads m).stage.holding = true ∧ (threads m).cid = x) ∧
          ¬ (m = n ∧ x = (threads n).cid) := by
      by_cases he : m = n
      · subst he
        simp only [update_self, ht, true_and]
        refine iff_of_false (by simp) ?_
        rintro ⟨⟨-, -, hx⟩, hne⟩
        exact hne hx.symm
      · simp [he]
    exact h.lock.drop ⟨hn, hold, rfl⟩ hheld howns
  free x hx := by
    by_cases he : x = (threads n).cid
    · rw [he]
      exact hall
    · rw [update_of_ne he] at hx
      exact h.free x hx

theorem post {e : Entry} (h : Cids started passed cidLock log threads)
    (he : cidLock e.cid = true) : Cids started passed cidLock (log ++ [e]) threads where
  lock := h.lock
  free c hc y e' hy hx := by
    rcases getElem?_concat hy with hy | ⟨-, rfl⟩
    · exact h.free c hc y e' hy hx
    · rw [← hx, he] at hc
      cases hc

end Cids

structure Posted (r : Queue) (fetched : Nat) (calls : Nat → Call) (cpls : List Cpl)
    (log : List Entry) (cells : BitVec 32 → Entry) : Prop where
  cpls_eq : log.map Entry.cpl = cpls
  phase_eq : ∀ (y : Nat) (e : Entry), log[y]? = some e → e.phase = phaseAt r y
  command_lt : ∀ (y : Nat) (e : Entry), log[y]? = some e →
    e.command < fetched ∧ e.cid = cidOf (calls e.command).cmd
  nodup : (log.map Entry.command).Nodup
  cell_eq : ∀ (y : Nat) (e : Entry), log[y]? = some e → log.length ≤ y + r.qs → cells (cell r y) = e
  blank : ∀ y, log.length ≤ y → y < r.qs → (cells (cell r y)).phase = false

namespace Posted
variable {r : Queue} {fetched : Nat} {calls : Nat → Call} {cpls : List Cpl} {log : List Entry}
  {cells : BitVec 32 → Entry}

theorem calls_grow {fetched' : Nat} {calls' : Nat → Call}
    (h : Posted r fetched calls cpls log cells)
    (hle : fetched ≤ fetched') (hcmd : ∀ g < fetched, (calls' g).cmd = (calls g).cmd) :
    Posted r fetched' calls' cpls log cells where
  cpls_eq := h.cpls_eq
  phase_eq := h.phase_eq
  command_lt y e hy := by
    obtain ⟨hlt, hc⟩ := h.command_lt y e hy
    exact ⟨hlt.trans_le hle, by rw [hcmd _ hlt, hc]⟩
  nodup := h.nodup
  cell_eq := h.cell_eq
  blank := h.blank

theorem eq_of_command (h : Posted r fetched calls cpls log cells) {y y' : Nat} {e e' : Entry}
    (hy : log[y]? = some e) (hy' : log[y']? = some e') (hc : e.command = e'.command) :
    y = y' := by
  obtain ⟨hlt, rfl⟩ := List.getElem?_eq_some_iff.mp hy
  obtain ⟨hlt', rfl⟩ := List.getElem?_eq_some_iff.mp hy'
  have hl : y < (log.map Entry.command).length := by
    rw [List.length_map]
    exact hlt
  have hl' : y' < (log.map Entry.command).length := by
    rw [List.length_map]
    exact hlt'
  have hget : (log.map Entry.command)[y] = (log.map Entry.command)[y'] := by
    rw [List.getElem_map, List.getElem_map]
    exact hc
  exact (List.Nodup.getElem_inj_iff h.nodup).mp hget

theorem post {f : Nat} {c : Cpl} {id : BitVec 16} (h : Posted r fetched calls cpls log cells)
    (hf : f < fetched) (hnew : f ∉ log.map Entry.command) (hid : id = cidOf (calls f).cmd) :
    Posted r fetched calls (cpls ++ [c]) (log ++ [⟨c, id, phaseAt r log.length, f⟩])
      (update cells (cell r log.length) ⟨c, id, phaseAt r log.length, f⟩) := by
  constructor
  case cpls_eq => rw [List.map_append, h.cpls_eq, List.map_singleton]
  case phase_eq =>
    intro y e hy
    rcases getElem?_concat hy with hy | ⟨rfl, rfl⟩
    · exact h.phase_eq y e hy
    · rfl
  case command_lt =>
    intro y e hy
    rcases getElem?_concat hy with hy | ⟨rfl, rfl⟩
    · exact h.command_lt y e hy
    · exact ⟨hf, hid⟩
  case nodup =>
    rw [List.map_append, List.map_singleton]
    refine List.nodup_append.mpr ⟨h.nodup, List.nodup_singleton _, ?_⟩
    intro a ha b hb
    rw [List.mem_singleton.mp hb]
    rintro rfl
    exact hnew ha
  case cell_eq =>
    intro y e hy hle
    rw [List.length_append, List.length_singleton] at hle
    rcases getElem?_concat hy with hy | ⟨rfl, rfl⟩
    · have hlt := (List.getElem?_eq_some_iff.mp hy).1
      have hne : cell r y ≠ cell r log.length := by
        intro hx
        have := Counter.lap_le ((cell_eq_iff r _ _).mp hx) hlt
        omega
      rw [update_of_ne hne]
      exact h.cell_eq y e hy (by omega)
    · exact update_self _ _ _
  case blank =>
    intro y hle hlt
    rw [List.length_append, List.length_singleton] at hle
    have hne : cell r y ≠ cell r log.length := by
      intro hx
      have := Counter.lap_le ((cell_eq_iff r _ _).mp hx).symm (by omega)
      omega
    rw [update_of_ne hne]
    exact h.blank y (by omega) hlt

end Posted

structure Passing (r : Queue) (passed rung swept posted : Nat) (head db : BitVec 32)
    (advances : List (List (BitVec 32))) : Prop where
  head_eq : head = BitVec.ofNat 32 passed
  db_eq : db = cell r rung
  passed_le : passed ≤ rung
  rung_le : rung ≤ swept
  swept_le : swept ≤ posted
  window : posted < rung + r.qs
  near : swept < passed + r.qs
  advances_eq : advances.flatten = (List.range passed).map (cell r)

/-- A mark stands in the cell of a completion from the store of its owner until
`move_head_cq` takes it. -/
structure HeadMarks (r : Queue) (started swept : Nat) (headMark : BitVec 32 → Bool)
    (threads : Nat → Thread) : Prop where
  called_of_swept : ∀ y < swept, ∃ n < started,
    (threads n).stage.called = true ∧ (threads n).got = y
  mark_of : ∀ n < started, (threads n).stage.called = true → swept ≤ (threads n).got →
    headMark (cell r (threads n).got) = true
  of_mark : ∀ a, headMark (cell r a) = true → ∃ n < started,
    (threads n).stage.called = true ∧ cell r (threads n).got = cell r a ∧ swept ≤ (threads n).got

namespace HeadMarks
variable {r : Queue} {started swept n : Nat} {headMark : BitVec 32 → Bool}
  {threads : Nat → Thread} {t : Thread}

theorem update (h : HeadMarks r started swept headMark threads)
    (hc : t.stage.called = (threads n).stage.called)
    (hg : t.stage.called = true → t.got = (threads n).got) :
    HeadMarks r started swept headMark (update threads n t) := by
  have hsame (m : Nat) (hm : (threads m).stage.called = true) :
      (Function.update threads n t m).stage.called = true ∧
        (Function.update threads n t m).got = (threads m).got := by
    by_cases he : m = n
    · subst he
      rw [update_self]
      exact ⟨hc.trans hm, hg (hc.trans hm)⟩
    · rw [update_of_ne he]
      exact ⟨hm, rfl⟩
  have hback (m : Nat) (hm : (Function.update threads n t m).stage.called = true) :
      (threads m).stage.called = true := by
    by_cases he : m = n
    · subst he
      rw [update_self] at hm
      exact hc.symm.trans hm
    · rwa [update_of_ne he] at hm
  constructor
  case called_of_swept =>
    intro y hy
    obtain ⟨m, hm, h₁, h₂⟩ := h.called_of_swept y hy
    exact ⟨m, hm, (hsame m h₁).1, (hsame m h₁).2.trans h₂⟩
  case mark_of =>
    intro m hm hm'
    rw [(hsame m (hback m hm')).2]
    exact h.mark_of m hm (hback m hm')
  case of_mark =>
    intro a ha
    obtain ⟨m, hm, h₁, h₂, h₃⟩ := h.of_mark a ha
    refine ⟨m, hm, (hsame m h₁).1, ?_⟩
    rw [(hsame m h₁).2]
    exact ⟨h₂, h₃⟩

theorem start (h : HeadMarks r started swept headMark threads) (ht : t.stage.called = false) :
    HeadMarks r (started+1) swept headMark (Function.update threads started t) := by
  have hold {m : Nat} (hm : m < started) : Function.update threads started t m = threads m :=
    update_of_ne (Nat.ne_of_lt hm) _ _
  constructor
  case called_of_swept =>
    intro y hy
    obtain ⟨m, hm, hrest⟩ := h.called_of_swept y hy
    exact ⟨m, by omega, by rw [hold hm]; exact hrest⟩
  case mark_of =>
    intro m hm hc
    rcases Nat.lt_succ_iff_lt_or_eq.mp hm with hlt | rfl
    · rw [hold hlt] at hc ⊢
      exact h.mark_of m hlt hc
    · rw [update_self, ht] at hc
      cases hc
  case of_mark =>
    intro a ha
    obtain ⟨m, hm, hrest⟩ := h.of_mark a ha
    exact ⟨m, by omega, by rw [hold hm]; exact hrest⟩

theorem mark (h : HeadMarks r started swept headMark threads) (hn : n < started)
    (hold : (threads n).stage.called = false) (hc : t.stage.called = true)
    (hs : swept ≤ t.got) :
    HeadMarks r started swept (Function.update headMark (cell r t.got) true)
      (Function.update threads n t) := by
  have hkeep {m : Nat} (hm : (threads m).stage.called = true) :
      Function.update threads n t m = threads m := by
    refine update_of_ne ?_ _ _
    rintro rfl
    rw [hold] at hm
    cases hm
  constructor
  case called_of_swept =>
    intro y hy
    obtain ⟨m, hm, h₁, h₂⟩ := h.called_of_swept y hy
    exact ⟨m, hm, by rw [hkeep h₁]; exact ⟨h₁, h₂⟩⟩
  case mark_of =>
    intro m hm hm' hle
    by_cases he : m = n
    · subst he
      rw [update_self, update_self]
    · rw [update_of_ne he] at hm' hle ⊢
      by_cases hx : cell r (threads m).got = cell r t.got
      · rw [hx, update_self]
      · rw [update_of_ne hx]
        exact h.mark_of m hm hm' hle
  case of_mark =>
    intro a ha
    by_cases hx : cell r a = cell r t.got
    · exact ⟨n, hn, by rw [update_self]; exact ⟨hc, hx.symm, hs⟩⟩
    · rw [update_of_ne hx] at ha
      obtain ⟨m, hm, h₁, h₂⟩ := h.of_mark a ha
      exact ⟨m, hm, by rw [hkeep h₁]; exact ⟨h₁, h₂⟩⟩

/-- The mark found in the cell after the swept ones is the one of the next completion. -/
theorem next (h : HeadMarks r started swept headMark threads)
    (hwin : ∀ n < started, (threads n).stage.called = true → (threads n).got < swept + r.qs)
    (hmark : headMark (cell r swept) = true) :
    ∃ n < started, (threads n).stage.called = true ∧ (threads n).got = swept := by
  obtain ⟨n, hn, hc, hcell, hle⟩ := h.of_mark swept hmark
  refine ⟨n, hn, hc, ?_⟩
  rcases Nat.lt_or_eq_of_le hle with hlt | heq
  · have := Counter.lap_le ((cell_eq_iff r _ _).mp hcell).symm hlt
    have := hwin n hn hc
    omega
  · exact heq.symm

theorem sweep (h : HeadMarks r started swept headMark threads)
    (hwin : ∀ n < started, (threads n).stage.called = true → (threads n).got < swept + r.qs)
    (hmark : headMark (cell r swept) = true) :
    HeadMarks r started (swept+1) (Function.update headMark (cell r swept) false) threads := by
  constructor
  case called_of_swept =>
    intro y hy
    rcases Nat.lt_succ_iff_lt_or_eq.mp hy with hy | rfl
    · exact h.called_of_swept y hy
    · exact h.next hwin hmark
  case mark_of =>
    intro n hn hc hle
    have hne : cell r (threads n).got ≠ cell r swept := by
      intro hx
      have := Counter.lap_le ((cell_eq_iff r _ _).mp hx).symm (by omega)
      have := hwin n hn hc
      omega
    rw [update_of_ne hne]
    exact h.mark_of n hn hc (by omega)
  case of_mark =>
    intro a ha
    by_cases hx : cell r a = cell r swept
    · rw [hx, update_self] at ha
      cases ha
    · rw [update_of_ne hx] at ha
      obtain ⟨n, hn, hc, hcell, hle⟩ := h.of_mark a ha
      refine ⟨n, hn, hc, hcell, ?_⟩
      have : swept ≠ (threads n).got := by
        intro he
        rw [← he] at hcell
        exact hx hcell.symm
      omega

end HeadMarks

/-- What the holder of `head_lock` knows: how far it has swept from the head, and what
the loop over the submission queue has been told. -/
def SectionOk (passed rung swept sqPassed : Nat) (mover : Mover) : Pc → Prop
  | .loadCur | .unlock => passed = swept ∧ mover = .idle ∧ sqPassed = swept
  | .sweep cur count =>
    (cur = BitVec.ofNat 32 passed ∧ count = BitVec.ofNat 32 (swept - passed)) ∧
      rung = passed ∧ mover = .idle ∧ sqPassed = passed
  | .readCpl cur count =>
    (cur = BitVec.ofNat 32 passed ∧ count = BitVec.ofNat 32 (swept - passed)) ∧
      rung = passed ∧ mover = .idle ∧ sqPassed = passed ∧ passed < swept
  | .moving cur count =>
    (cur = BitVec.ofNat 32 passed ∧ count = BitVec.ofNat 32 (swept - passed)) ∧
      rung = passed ∧ sqPassed = swept
  | .ringHead cur count =>
    (cur = BitVec.ofNat 32 passed ∧ count = BitVec.ofNat 32 (swept - passed)) ∧
      rung = passed ∧ mover = .idle ∧ sqPassed = swept
  | .storeHead cur count =>
    (cur = BitVec.ofNat 32 passed ∧ count = BitVec.ofNat 32 (swept - passed)) ∧
      rung = swept ∧ mover = .idle ∧ sqPassed = swept
  | _ => True

theorem sectionOk_of_not_holds {passed rung swept sqPassed : Nat} {mover : Mover} {pc : Pc}
    (h : pc.stage ≠ .sweeping) : SectionOk passed rung swept sqPassed mover pc := by
  cases pc <;> trivial

structure HeadSection (started passed rung swept sqPassed : Nat) (mover : Mover)
    (headLock : Bool) (threads : Nat → Thread) : Prop where
  lock : Exclusive (fun _ : Unit => headLock = true)
    fun n _ => n < started ∧ (threads n).stage = .sweeping
  ok : ∀ n < started, SectionOk passed rung swept sqPassed mover (threads n).pc
  free : headLock = false → passed = swept ∧ mover = .idle ∧ sqPassed = swept

namespace HeadSection
variable {started passed rung swept sqPassed n : Nat} {mover : Mover} {headLock : Bool}
  {threads : Nat → Thread} {t : Thread}

theorem ok_update {passed' rung' swept' sqPassed' : Nat} {mover' : Mover}
    (hok : ∀ m < started, m ≠ n → SectionOk passed' rung' swept' sqPassed' mover' (threads m).pc)
    (ht : SectionOk passed' rung' swept' sqPassed' mover' t.pc) :
    ∀ m < started, SectionOk passed' rung' swept' sqPassed' mover' (update threads n t m).pc := by
  intro m hm
  by_cases he : m = n
  · rw [he, update_self]
    exact ht
  · rw [update_of_ne he]
    exact hok m hm he

theorem stage_update (hs : t.stage = .sweeping ↔ (threads n).stage = .sweeping) (m : Nat) :
    (Function.update threads n t m).stage = .sweeping ↔ (threads m).stage = .sweeping := by
  by_cases he : m = n
  · rw [he, update_self, hs]
  · rw [update_of_ne he]

theorem update (h : HeadSection started passed rung swept sqPassed mover headLock threads)
    (hs : t.stage = .sweeping ↔ (threads n).stage = .sweeping)
    (hok : SectionOk passed rung swept sqPassed mover t.pc) :
    HeadSection started passed rung swept sqPassed mover headLock
      (Function.update threads n t) where
  lock := h.lock.congr (fun _ => Iff.rfl) fun m _ => by rw [stage_update hs]
  ok := ok_update (fun m hm _ => h.ok m hm) hok
  free := h.free

theorem start (h : HeadSection started passed rung swept sqPassed mover headLock threads)
    (ht : t.stage ≠ .sweeping) :
    HeadSection (started+1) passed rung swept sqPassed mover headLock
      (Function.update threads started t) := by
  constructor
  case lock =>
    have howns (m : Nat) : (m < started + 1 ∧
        (Function.update threads started t m).stage = .sweeping) ↔
        m < started ∧ (threads m).stage = .sweeping := by
      by_cases he : m = started
      · simp [he, ht]
      · rw [update_of_ne he]
        have : m < started + 1 ↔ m < started := by omega
        rw [this]
    exact h.lock.congr (fun _ => Iff.rfl) fun m _ => howns m
  case ok =>
    refine ok_update (fun m hm hne => h.ok m (by omega)) ?_
    exact sectionOk_of_not_holds ht
  case free => exact h.free

theorem work {passed' rung' swept' sqPassed' : Nat} {mover' : Mover}
    (h : HeadSection started passed rung swept sqPassed mover headLock threads)
    (hn : n < started) (hold : (threads n).stage = .sweeping) (ht : t.stage = .sweeping)
    (hok : SectionOk passed' rung' swept' sqPassed' mover' t.pc) :
    HeadSection started passed' rung' swept' sqPassed' mover' headLock
      (Function.update threads n t) where
  lock := h.lock.congr (fun _ => Iff.rfl) fun m _ => by rw [stage_update (iff_of_true ht hold)]
  ok := by
    refine ok_update (fun m hm hne => sectionOk_of_not_holds fun hx => hne ?_) hok
    exact h.lock.unique m n () ⟨hm, hx⟩ ⟨hn, hold⟩
  free hf := by
    have := h.lock.held_of_owns n () ⟨hn, hold⟩
    rw [hf] at this
    cases this

theorem take (h : HeadSection started passed rung swept sqPassed mover false threads)
    (hn : n < started) (ht : t.pc = .loadCur) :
    HeadSection started passed rung swept sqPassed mover true
      (Function.update threads n t) where
  lock := by
    have hst : t.stage = .sweeping := by rw [Thread.stage, ht]; rfl
    have howns (m : Nat) : (m < started ∧ (Function.update threads n t m).stage = .sweeping) ↔
        (m < started ∧ (threads m).stage = .sweeping) ∨ m = n ∧ () = () := by
      by_cases he : m = n
      · simp [he, hst, hn]
      · simp [he]
    exact h.lock.take (by simp) (by simp) fun m _ => howns m
  ok := by
    refine ok_update (fun m hm _ => h.ok m hm) ?_
    rw [ht]
    exact h.free rfl
  free hf := by cases hf

theorem drop (h : HeadSection started passed rung swept sqPassed mover headLock threads)
    (hn : n < started) (hpc : (threads n).pc = .unlock) (ht : t.stage ≠ .sweeping) :
    HeadSection started passed rung swept sqPassed mover false
      (Function.update threads n t) where
  lock := by
    have hown : n < started ∧ (threads n).stage = .sweeping :=
      ⟨hn, by rw [Thread.stage, hpc]; rfl⟩
    have howns (m : Nat) : (m < started ∧ (Function.update threads n t m).stage = .sweeping) ↔
        (m < started ∧ (threads m).stage = .sweeping) ∧ ¬ (m = n ∧ () = ()) := by
      by_cases he : m = n
      · simp [he, ht]
      · simp [he]
    exact h.lock.drop (r := ()) hown (by simp) fun m _ => howns m
  ok := ok_update (fun m hm _ => h.ok m hm) (sectionOk_of_not_holds ht)
  free _ := by
    have := h.ok n hn
    rw [hpc] at this
    exact this

end HeadSection

end Shaper.CompletionQueue
