import Shaper.Lib.Counter
import Shaper.WorkloadChecks

/-! The windowed loop of a `transfer` thread on the ShaperIO path, against a scheduler that
completes its requests in any order. -/
namespace Shaper.TransferWindow
open Workload Function Lib

def aeCoreMaxWindow : Nat := 256

structure Producer where
  params : Params
  base : BitVec 64
  tid : BitVec 32
  window : BitVec 32
  verify : Bool
  write : Bool

namespace Producer
variable (p : Producer)
def count : BitVec 64 := p.params.batchBytes / p.params.io / p.params.workers.setWidth 64
def last : BitVec 64 := p.count + p.window.setWidth 64
def entry (slot : BitVec 32) : BitVec 64 := (p.tid * p.window + slot).setWidth 64
end Producer

/-- A call of `io_sched_enqueue`, with what it returned and `starts` of its cell. -/
structure Request where
  i : BitVec 64
  byteOffset : BitVec 64
  entry : BitVec 64
  ticket : BitVec 32
  start : BitVec 64

structure Finish where
  ticket : BitVec 32
  latency : Option (BitVec 64 × BitVec 64)
  verified : Option (BitVec 64)

inductive Pc where
  | top
  | wait
  | submit
  | returned
  deriving DecidableEq

structure State where
  pc : Pc
  i : BitVec 64
  head : BitVec 32
  pending : BitVec 32
  slots : Nat → BitVec 32
  starts : Nat → BitVec 64
  holder : Nat → Nat
  sent : List Request
  finished : List Finish
  completed : List Nat

def start : State := ⟨.top, 0, 0, 0, fun _ => 0, fun _ => 0, fun _ => 0, [], [], []⟩

def Waits (p : Producer) (s : State) : Prop :=
  s.pending ≠ 0#32 ∧ (s.pending = p.window ∨ ¬s.i < p.count)

def finish (p : Producer) (s : State) (now : BitVec 64) : State :=
  let finished := if s.i < p.count then s.i - p.window.setWidth 64
    else p.count - s.pending.setWidth 64
  { s with
    pc := .submit
    finished := s.finished ++ [{
      ticket := s.slots s.head.toNat
      latency := if p.params.latency then
          some (p.tid.setWidth 64 * p.count + finished, now - s.starts s.head.toNat)
        else none
      verified := if p.verify && !p.write then some (p.entry s.head) else none }]
    head := (s.head + 1#32) % p.window
    pending := s.pending - 1#32 }

def nextSlot (p : Producer) (s : State) : BitVec 32 := (s.head + s.pending) % p.window

def enqueue (p : Producer) (s : State) (now : BitVec 64) (ticket : BitVec 32) : State :=
  let start := if p.params.latency then now else 0#64
  { s with
    pc := .top
    i := s.i + 1#64
    starts := update s.starts (nextSlot p s).toNat start
    slots := update s.slots (nextSlot p s).toNat ticket
    holder := update s.holder (nextSlot p s).toNat s.sent.length
    sent :=
      s.sent ++ [⟨s.i, address p.params p.base p.tid s.i, p.entry (nextSlot p s), ticket, start⟩]
    pending := s.pending + 1#32 }

inductive Step (p : Producer) : State → State → Prop
  | complete {s : State} (k : Nat) : k < s.sent.length → k ∉ s.completed →
    Step p s { s with completed := k :: s.completed }
  | enter {s : State} : s.pc = .top → s.i < p.last → Waits p s → Step p s { s with pc := .wait }
  | pass {s : State} : s.pc = .top → s.i < p.last → ¬Waits p s → Step p s { s with pc := .submit }
  | leave {s : State} : s.pc = .top → ¬s.i < p.last → Step p s { s with pc := .returned }
  | finish {s : State} (now : BitVec 64) : s.pc = .wait → s.holder s.head.toNat ∈ s.completed →
    Step p s (finish p s now)
  | enqueue {s : State} (now : BitVec 64) (ticket : BitVec 32) : s.pc = .submit → s.i < p.count →
    Step p s (enqueue p s now ticket)
  | skip {s : State} : s.pc = .submit → ¬s.i < p.count →
      Step p s { s with pc := .top, i := s.i + 1#64 }

inductive Run (p : Producer) : Nat → State → Prop
  | start : Run p 0 start
  | step {n : Nat} {s s' : State} : Run p n s → Step p s s' → Run p (n+1) s'

structure Disciplined (p : Producer) (s : State) : Prop where
  sent : ∀ k r, s.sent[k]? = some r → r.i = BitVec.ofNat 64 k ∧
    r.byteOffset = address p.params p.base p.tid r.i
  sent_le : s.sent.length ≤ p.count.toNat
  window : ((List.range s.sent.length).filter (· ∉ s.completed)).length ≤ p.window.toNat
  slot_free : ∀ k k' r r', k < k' → s.sent[k]? = some r → s.sent[k']? = some r' →
    r.entry = r'.entry →
    k ∈ s.completed
  waited : ∀ k f, s.finished[k]? = some f → k ∈ s.completed ∧ ∃ r now, s.sent[k]? = some r ∧
    f.ticket = r.ticket ∧
    f.latency = (if p.params.latency then some (p.tid.setWidth 64 * p.count + r.i, now - r.start)
      else none) ∧
    f.verified = if p.verify && !p.write then some r.entry else none
  latency_once : ((s.finished.filterMap Finish.latency).map Prod.fst).Nodup
  latency_all : p.params.latency = true → s.pc = .returned →
    (s.finished.filterMap Finish.latency).map Prod.fst =
      (List.range p.count.toNat).map fun k => p.tid.setWidth 64 * p.count + BitVec.ofNat 64 k
  all_sent : s.pc = .returned → s.sent.map Request.byteOffset = transfer p.params p.base p.tid
  all_waited : s.pc = .returned → s.finished.length = p.count.toNat

def inWindow (count window i : Nat) : Nat :=
  if i ≤ count then min i window else min count window - (i - count)

def afterWait (count window i : Nat) : Nat :=
  if i < count then min i (window-1) else min count window - (i + 1 - count)

def AtPoint (p : Producer) (s : State) : Prop :=
  match s.pc with
  | .top =>
    s.i.toNat ≤ p.last.toNat ∧ s.pending.toNat = inWindow p.count.toNat p.window.toNat s.i.toNat
  | .wait =>
    s.i.toNat < p.last.toNat ∧ s.pending.toNat = inWindow p.count.toNat p.window.toNat s.i.toNat ∧
      Waits p s
  | .submit => s.i.toNat < p.last.toNat ∧
      s.pending.toNat = afterWait p.count.toNat p.window.toNat s.i.toNat
  | .returned => s.i.toNat = p.last.toNat ∧ s.pending.toNat = 0

structure Inv (p : Producer) (s : State) : Prop where
  point : AtPoint p s
  sent_len : s.sent.length = min s.i.toNat p.count.toNat
  pending_len : s.finished.length + s.pending.toNat = s.sent.length
  head_eq : s.head.toNat = s.finished.length % p.window.toNat
  sent : ∀ k r, s.sent[k]? = some r → r.i = BitVec.ofNat 64 k ∧
    r.byteOffset = address p.params p.base p.tid r.i ∧
    r.entry = p.entry (BitVec.ofNat 32 (k % p.window.toNat))
  cells : ∀ k r, s.sent[k]? = some r → s.finished.length ≤ k →
    s.holder (k % p.window.toNat) = k ∧ s.slots (k % p.window.toNat) = r.ticket ∧
      s.starts (k % p.window.toNat) = r.start
  waited : ∀ k f, s.finished[k]? = some f → k ∈ s.completed ∧ ∃ r now, s.sent[k]? = some r ∧
    f.ticket = r.ticket ∧
    f.latency = (if p.params.latency then some (p.tid.setWidth 64 * p.count + r.i, now - r.start)
      else none) ∧
    f.verified = if p.verify && !p.write then some r.entry else none
  completed_lt : ∀ k ∈ s.completed, k < s.sent.length
  completed_nodup : s.completed.Nodup

section Invariant

variable {p : Producer} {s s' : State}

structure Fits (p : Producer) : Prop where
  window_pos : 0 < p.window.toNat
  window_le : p.window.toNat ≤ aeCoreMaxWindow
  last_lt : p.count.toNat + p.window.toNat < 2^64

theorem Fits.last_eq (h : Fits p) : p.last.toNat = p.count.toNat + p.window.toNat := by
  have := h.last_lt
  have := p.window.isLt
  rw [Producer.last, BitVec.toNat_add, BitVec.toNat_setWidth]
  omega

theorem Inv.pending_le (hp : Fits p) (h : Inv p s) : s.pending.toNat ≤ p.window.toNat := by
  have hpoint := h.point
  have := hp.last_eq
  unfold AtPoint at hpoint
  cases hpc : s.pc with
  | top => simp only [hpc, inWindow] at hpoint; split_ifs at hpoint <;> omega
  | wait => simp only [hpc, inWindow] at hpoint; split_ifs at hpoint <;> omega
  | submit => simp only [hpc, afterWait] at hpoint; split_ifs at hpoint <;> omega
  | returned => simp only [hpc] at hpoint; omega

theorem Inv.start (p : Producer) : Inv p start where
  point := by
    refine ⟨Nat.zero_le _, ?_⟩
    simp [TransferWindow.start, inWindow]
  sent_len := by simp [TransferWindow.start]
  pending_len := rfl
  head_eq := by simp [TransferWindow.start]
  sent k r h := by simp [TransferWindow.start] at h
  cells k r h := by simp [TransferWindow.start] at h
  waited k f h := by simp [TransferWindow.start] at h
  completed_lt k h := by simp [TransferWindow.start] at h
  completed_nodup := List.nodup_nil

theorem Inv.complete (h : Inv p s) {k : Nat} (hk : k < s.sent.length) (hnew : k ∉ s.completed) :
    Inv p { s with completed := k :: s.completed } :=
  { h with
    waited := fun k' f hf => by
      obtain ⟨hc, hr⟩ := h.waited k' f hf
      exact ⟨List.mem_cons_of_mem _ hc, hr⟩
    completed_lt := fun k' hk' => by
      rcases List.mem_cons.mp hk' with rfl | hk'
      · exact hk
      · exact h.completed_lt k' hk'
    completed_nodup := List.nodup_cons.mpr ⟨hnew, h.completed_nodup⟩ }

theorem Inv.goto (h : Inv p s) (pc : Pc) (hpoint : AtPoint p { s with pc := pc }) :
    Inv p { s with pc := pc } :=
  { h with point := hpoint }

theorem waits_iff : Waits p s ↔ s.pending.toNat ≠ 0 ∧
    (s.pending.toNat = p.window.toNat ∨ p.count.toNat ≤ s.i.toNat) := by
  unfold Waits
  rw [BitVec.lt_def, Nat.not_lt, ← BitVec.toNat_inj, ← BitVec.toNat_ne_iff_ne]
  rfl

theorem Inv.enter (h : Inv p s) (hpc : s.pc = .top) (hi : s.i < p.last) (hw : Waits p s) :
    Inv p { s with pc := .wait } := by
  have hpoint := h.point
  simp only [AtPoint, hpc] at hpoint
  exact h.goto .wait ⟨hi, hpoint.2, hw⟩

theorem Inv.pass (hp : Fits p) (h : Inv p s) (hpc : s.pc = .top) (hi : s.i < p.last)
    (hw : ¬Waits p s) : Inv p { s with pc := .submit } := by
  have hpoint := h.point
  have hpos := hp.window_pos
  simp only [AtPoint, hpc] at hpoint
  refine h.goto .submit ⟨hi, ?_⟩
  rw [waits_iff, not_and_or, not_or, not_not] at hw
  simp only [inWindow, afterWait] at hpoint ⊢
  split_ifs at hpoint ⊢ <;> omega

theorem Inv.leave (hp : Fits p) (h : Inv p s) (hpc : s.pc = .top) (hi : ¬s.i < p.last) :
    Inv p { s with pc := .returned } := by
  have hpoint := h.point
  have hpos := hp.window_pos
  have hlast := hp.last_eq
  rw [BitVec.lt_def, Nat.not_lt] at hi
  simp only [AtPoint, hpc, inWindow] at hpoint
  refine h.goto .returned ⟨by dsimp only; omega, ?_⟩
  split_ifs at hpoint <;> dsimp only <;> omega

theorem Inv.skip (hp : Fits p) (h : Inv p s) (hpc : s.pc = .submit) (hi : ¬s.i < p.count) :
    Inv p { s with pc := .top, i := s.i + 1#64 } := by
  have hpoint := h.point
  have hlast := hp.last_eq
  have hlt := hp.last_lt
  have hlen := h.sent_len
  rw [BitVec.lt_def, Nat.not_lt] at hi
  simp only [AtPoint, hpc, afterWait, if_neg (Nat.not_lt.mpr hi)] at hpoint
  have hnext : (s.i + 1#64).toNat = s.i.toNat + 1 := by
    rw [BitVec.toNat_add, BitVec.toNat_ofNat]
    omega
  refine { h with point := ?_, sent_len := ?_ }
  · refine ⟨?_, ?_⟩
    · rw [hnext]
      omega
    · rw [hnext, inWindow, if_neg (by omega)]
      exact hpoint.2
  · dsimp only
    rw [hnext]
    omega

theorem Inv.head_lt (hp : Fits p) (h : Inv p s) : s.head.toNat < p.window.toNat :=
  h.head_eq ▸ Nat.mod_lt _ hp.window_pos

/-- The request a wait belongs to, by the number that the code computes for it. -/
theorem Inv.finished_eq (hp : Fits p) (h : Inv p s) (hpc : s.pc = .wait) :
    (if s.i < p.count then s.i - p.window.setWidth 64 else p.count - s.pending.setWidth 64) =
      BitVec.ofNat 64 s.finished.length := by
  have hpoint := h.point
  have hlen := h.sent_len
  have hpend := h.pending_len
  have hwin := p.window.isLt
  have hpen := s.pending.isLt
  have hlast := hp.last_lt
  simp only [AtPoint, hpc, waits_iff, inWindow] at hpoint
  apply BitVec.eq_of_toNat_eq
  by_cases hi : s.i < p.count
  · -- the window is full, and all requests before `i` were sent
    rw [if_pos hi, BitVec.toNat_sub, BitVec.toNat_setWidth, BitVec.toNat_ofNat]
    rw [BitVec.lt_def] at hi
    rw [if_pos hi.le] at hpoint
    omega
  · rw [if_neg hi, BitVec.toNat_sub, BitVec.toNat_setWidth, BitVec.toNat_ofNat]
    rw [BitVec.lt_def] at hi
    omega

theorem Inv.finish (hp : Fits p) (h : Inv p s) (hpc : s.pc = .wait) (now : BitVec 64)
    (hdone : s.holder s.head.toNat ∈ s.completed) : Inv p (finish p s now) := by
  have hpoint := h.point
  simp only [AtPoint, hpc, waits_iff] at hpoint
  have hpend := h.pending_len
  obtain ⟨r, hr⟩ : ∃ r, s.sent[s.finished.length]? = some r :=
    ⟨_, List.getElem?_eq_getElem (by omega)⟩
  obtain ⟨hholder, hticket, hstart⟩ := h.cells _ r hr le_rfl
  obtain ⟨hri, -, hentry⟩ := h.sent _ r hr
  have hpending : (s.pending - 1#32).toNat = s.pending.toNat - 1 :=
    BitVec.toNat_sub_of_le (BitVec.le_def.mpr (by rw [BitVec.toNat_ofNat]; omega))
  have hhead : s.head = BitVec.ofNat 32 (s.finished.length % p.window.toNat) := by
    rw [← h.head_eq, BitVec.ofNat_toNat, BitVec.setWidth_eq]
  refine { h with point := ?_, pending_len := ?_, head_eq := ?_, cells := ?_, waited := ?_ }
  · refine ⟨hpoint.1, ?_⟩
    dsimp only [TransferWindow.finish]
    rw [hpending]
    have := hp.window_pos
    simp only [inWindow, afterWait] at hpoint ⊢
    split_ifs at hpoint ⊢ <;> omega
  · dsimp only [TransferWindow.finish]
    rw [hpending, List.length_append, List.length_singleton]
    omega
  · have hadd : (s.head + 1#32).toNat = s.head.toNat + 1 := by
      have hlt := h.head_lt hp
      have hmax := hp.window_le
      unfold aeCoreMaxWindow at hmax
      rw [BitVec.toNat_add, BitVec.toNat_ofNat]
      omega
    dsimp only [TransferWindow.finish]
    rw [BitVec.toNat_umod, hadd, h.head_eq, List.length_append, List.length_singleton,
      Nat.mod_add_mod]
  · intro k r' hr' hk
    refine h.cells k r' hr' ?_
    dsimp only [TransferWindow.finish] at hk
    rw [List.length_append] at hk
    omega
  · intro k f hf
    dsimp only [TransferWindow.finish] at hf ⊢
    rw [h.finished_eq hp hpc, ← hri] at hf
    rcases Nat.lt_trichotomy k s.finished.length with hk | rfl | hk
    · rw [List.getElem?_append_left hk] at hf
      exact h.waited k f hf
    · rw [List.getElem?_append_right le_rfl, Nat.sub_self] at hf
      cases hf
      refine ⟨?_, r, now, hr, ?_, ?_, ?_⟩
      · rwa [h.head_eq, hholder] at hdone
      · rw [h.head_eq]
        exact hticket
      · rw [h.head_eq, hstart]
      · rw [hhead, hentry]
    · rw [List.getElem?_eq_none (by rw [List.length_append, List.length_singleton]; omega)] at hf
      cases hf

theorem Inv.nextSlot_eq (hp : Fits p) (h : Inv p s) :
    (nextSlot p s).toNat = s.sent.length % p.window.toNat := by
  have hlt := h.head_lt hp
  have hle := h.pending_le hp
  have hmax := hp.window_le
  unfold aeCoreMaxWindow at hmax
  have hadd : (s.head + s.pending).toNat = s.head.toNat + s.pending.toNat := by
    rw [BitVec.toNat_add]
    omega
  rw [nextSlot, BitVec.toNat_umod, hadd, h.head_eq, Nat.mod_add_mod, h.pending_len]

/-- The next request takes the cell after those in the window. -/
theorem Inv.enqueue (hp : Fits p) (h : Inv p s) (hpc : s.pc = .submit) (hi : s.i < p.count)
    (now : BitVec 64) (ticket : BitVec 32) : Inv p (enqueue p s now ticket) := by
  have hpoint := h.point
  have hlast := hp.last_eq
  have hlt := hp.last_lt
  have hpos := hp.window_pos
  have hmax := hp.window_le
  have hlen := h.sent_len
  have hpend := h.pending_len
  have hslot := h.nextSlot_eq hp
  unfold aeCoreMaxWindow at hmax
  rw [BitVec.lt_def] at hi
  simp only [AtPoint, hpc, afterWait, if_pos hi] at hpoint
  have hnext : (s.i + 1#64).toNat = s.i.toNat + 1 := by
    rw [BitVec.toNat_add, BitVec.toNat_ofNat]
    omega
  have hpending : (s.pending + 1#32).toNat = s.pending.toNat + 1 := by
    rw [BitVec.toNat_add, BitVec.toNat_ofNat]
    omega
  have hsi : s.i = BitVec.ofNat 64 s.sent.length := by
    apply BitVec.eq_of_toNat_eq
    rw [BitVec.toNat_ofNat]
    omega
  refine ⟨?_, ?_, ?_, h.head_eq, ?_, ?_, ?_, ?_, h.completed_nodup⟩
  · refine ⟨?_, ?_⟩
    · dsimp only [TransferWindow.enqueue]
      omega
    · dsimp only [TransferWindow.enqueue]
      rw [hnext, hpending, inWindow, if_pos (by omega)]
      omega
  · dsimp only [TransferWindow.enqueue]
    rw [hnext, List.length_append, List.length_singleton]
    omega
  · dsimp only [TransferWindow.enqueue]
    rw [hpending, List.length_append, List.length_singleton]
    omega
  · intro k r hr
    dsimp only [TransferWindow.enqueue] at hr
    rcases Nat.lt_trichotomy k s.sent.length with hk | rfl | hk
    · rw [List.getElem?_append_left hk] at hr
      exact h.sent k r hr
    · rw [List.getElem?_append_right le_rfl, Nat.sub_self] at hr
      cases hr
      refine ⟨hsi, rfl, ?_⟩
      rw [← hslot, BitVec.ofNat_toNat, BitVec.setWidth_eq]
    · rw [List.getElem?_eq_none (by rw [List.length_append, List.length_singleton]; omega)] at hr
      cases hr
  · intro k r hr hk
    dsimp only [TransferWindow.enqueue] at hr hk ⊢
    rw [hslot]
    rcases Nat.lt_trichotomy k s.sent.length with hlt | rfl | hgt
    · rw [List.getElem?_append_left hlt] at hr
      have hne : k % p.window.toNat ≠ s.sent.length % p.window.toNat := by
        intro he
        have := Counter.lap_le he hlt
        omega
      rw [update_of_ne hne, update_of_ne hne, update_of_ne hne]
      exact h.cells k r hr hk
    · rw [List.getElem?_append_right le_rfl, Nat.sub_self] at hr
      cases hr
      rw [update_self, update_self, update_self]
      exact ⟨rfl, rfl, rfl⟩
    · rw [List.getElem?_eq_none (by rw [List.length_append, List.length_singleton]; omega)] at hr
      cases hr
  · intro k f hf
    dsimp only [TransferWindow.enqueue] at hf ⊢
    obtain ⟨hdone, r, now', hr, hrest⟩ := h.waited k f hf
    obtain ⟨hk, -⟩ := List.getElem?_eq_some_iff.mp hr
    exact ⟨hdone, r, now', by rw [List.getElem?_append_left hk, hr], hrest⟩
  · intro k hk
    dsimp only [TransferWindow.enqueue] at hk ⊢
    rw [List.length_append]
    exact Nat.lt_add_right _ (h.completed_lt k hk)

theorem Inv.step (hp : Fits p) (h : Inv p s) (hs : Step p s s') : Inv p s' := by
  cases hs with
  | complete k hk hnew => exact h.complete hk hnew
  | enter hpc hi hw => exact h.enter hpc hi hw
  | pass hpc hi hw => exact h.pass hp hpc hi hw
  | leave hpc hi => exact h.leave hp hpc hi
  | finish now hpc hdone => exact h.finish hp hpc now hdone
  | enqueue now ticket hpc hi => exact h.enqueue hp hpc hi now ticket
  | skip hpc hi => exact h.skip hp hpc hi

theorem Run.inv (hp : Fits p) {n : Nat} (h : Run p n s) : Inv p s := by
  induction h with
  | start => exact Inv.start p
  | step _ hs ih => exact ih.step hp hs

def rank (p : Producer) (s : State) : Nat :=
  match s.pc with
  | .top => 3 * (p.last.toNat - s.i.toNat) + 1
  | .wait => 3 * (p.last.toNat - s.i.toNat)
  | .submit => 3 * (p.last.toNat - s.i.toNat) - 1
  | .returned => 0

theorem Inv.completed_le (h : Inv p s) : s.completed.length ≤ p.count.toNat := by
  have hsub : s.completed ⊆ List.range s.sent.length :=
    fun k hk => List.mem_range.mpr (h.completed_lt k hk)
  have hle := (List.subperm_of_subset h.completed_nodup hsub).length_le
  rw [List.length_range, h.sent_len] at hle
  omega

theorem Inv.rank_lt (hp : Fits p) (h : Inv p s) (hs : Step p s s') :
    rank p s' + (p.count.toNat - s'.completed.length) < rank p s +
    (p.count.toNat - s.completed.length) := by
  have hpoint := h.point
  have hlast := hp.last_eq
  have hlt := hp.last_lt
  have hnext (hi : s.i.toNat < p.last.toNat) : (s.i + 1#64).toNat = s.i.toNat + 1 := by
    rw [BitVec.toNat_add, BitVec.toNat_ofNat]
    omega
  cases hs with
  | complete k hk hnew =>
    have hle := (h.complete hk hnew).completed_le
    rw [List.length_cons] at hle
    simp only [rank, List.length_cons]
    split <;> omega
  | enter hpc hi hw => simp only [rank, hpc]; omega
  | pass hpc hi hw => simp only [rank, hpc]; omega
  | leave hpc hi => simp only [rank, hpc]; omega
  | finish now hpc hdone =>
    simp only [AtPoint, hpc] at hpoint
    simp only [rank, hpc, TransferWindow.finish]
    omega
  | enqueue now ticket hpc hi =>
    simp only [AtPoint, hpc] at hpoint
    simp only [rank, hpc, TransferWindow.enqueue, hnext hpoint.1]
    omega
  | skip hpc hi =>
    simp only [AtPoint, hpc] at hpoint
    simp only [rank, hpc, hnext hpoint.1]
    omega

/-- A thread that waits waits for a request that is not complete. -/
theorem Inv.exists_step (h : Inv p s) (hpc : s.pc ≠ .returned) : ∃ s', Step p s s' := by
  cases hpc' : s.pc with
  | top =>
    by_cases hi : s.i < p.last
    · by_cases hw : Waits p s
      · exact ⟨_, .enter hpc' hi hw⟩
      · exact ⟨_, .pass hpc' hi hw⟩
    · exact ⟨_, .leave hpc' hi⟩
  | wait =>
    have hpoint := h.point
    have hpend := h.pending_len
    simp only [AtPoint, hpc', waits_iff] at hpoint
    by_cases hdone : s.holder s.head.toNat ∈ s.completed
    · exact ⟨_, .finish 0 hpc' hdone⟩
    · have hsent : s.finished.length < s.sent.length := by omega
      obtain ⟨hholder, -⟩ := h.cells _ _ (List.getElem?_eq_getElem hsent) le_rfl
      rw [h.head_eq, hholder] at hdone
      exact ⟨_, .complete _ hsent hdone⟩
  | submit =>
    by_cases hi : s.i < p.count
    · exact ⟨_, .enqueue 0 0 hpc' hi⟩
    · exact ⟨_, .skip hpc' hi⟩
  | returned => exact absurd hpc' hpc

theorem Run.rank_le (hp : Fits p) {n : Nat} (h : Run p n s) :
    n + rank p s + (p.count.toNat - s.completed.length) ≤ 3 * p.last.toNat + 1 + p.count.toNat := by
  induction h with
  | start =>
    dsimp only [rank, TransferWindow.start]
    omega
  | step hrun hs ih =>
    have := (hrun.inv hp).rank_lt hp hs
    omega

/-- The cells of the window are different DMA slots, whatever the product with `tid`. -/
theorem entry_inj {a b : Nat} (ha : a < 2^32) (hb : b < 2^32)
    (h : p.entry (BitVec.ofNat 32 a) = p.entry (BitVec.ofNat 32 b)) : a = b := by
  have hcell : p.tid * p.window + BitVec.ofNat 32 a = p.tid * p.window + BitVec.ofNat 32 b := by
    have := congrArg (BitVec.setWidth 32) h
    simpa only [Producer.entry, BitVec.setWidth_setWidth_of_le _ (by decide : 32 ≤ 64),
      BitVec.setWidth_eq] using this
  have hofNat := congrArg BitVec.toNat ((BitVec.add_right_inj _).mp hcell)
  rwa [BitVec.toNat_ofNat, BitVec.toNat_ofNat, Nat.mod_eq_of_lt ha, Nat.mod_eq_of_lt hb] at hofNat

theorem Inv.slot_free (hp : Fits p) (h : Inv p s) {k k' : Nat} {r r' : Request} (hk : k < k')
    (hr : s.sent[k]? = some r) (hr' : s.sent[k']? = some r') (he : r.entry = r'.entry) :
    k < s.finished.length := by
  have hlt := h.pending_le hp
  have hpend := h.pending_len
  have hmax := hp.window_le
  have hpos := hp.window_pos
  unfold aeCoreMaxWindow at hmax
  obtain ⟨hk', -⟩ := List.getElem?_eq_some_iff.mp hr'
  rw [(h.sent k r hr).2.2, (h.sent k' r' hr').2.2] at he
  have hmod :=
    entry_inj (by have := Nat.mod_lt k hpos; omega) (by have := Nat.mod_lt k' hpos; omega) he
  have hfar := Counter.lap_le hmod hk
  omega

theorem Inv.mem_completed (h : Inv p s) {k : Nat} (hk : k < s.finished.length) : k ∈ s.completed :=
  (h.waited k _ (List.getElem?_eq_getElem hk)).1

theorem Inv.window (hp : Fits p) (h : Inv p s) :
    ((List.range s.sent.length).filter (· ∉ s.completed)).length ≤ p.window.toNat := by
  have hpend := h.pending_len
  rw [← hpend, List.range_add, List.filter_append]
  have hold : (List.range s.finished.length).filter (· ∉ s.completed) = [] := by
    refine List.filter_eq_nil_iff.mpr fun k hk => ?_
    simpa using h.mem_completed (List.mem_range.mp hk)
  rw [hold, List.nil_append]
  calc _ ≤ ((List.range s.pending.toNat).map (s.finished.length + ·)).length :=
    List.length_filter_le _ _
    _ = s.pending.toNat := by rw [List.length_map, List.length_range]
    _ ≤ _ := h.pending_le hp

theorem Inv.latencies (h : Inv p s) :
    (s.finished.filterMap Finish.latency).map Prod.fst = if p.params.latency then
      (List.range s.finished.length).map fun k => p.tid.setWidth 64 * p.count + BitVec.ofNat 64 k
    else [] := by
  have hall : s.finished.map (fun f => f.latency.map Prod.fst) =
      (List.range s.finished.length).map fun k => if p.params.latency then
        some (p.tid.setWidth 64 * p.count + BitVec.ofNat 64 k) else none := by
    refine List.ext_getElem (by simp) fun k hk _ => ?_
    rw [List.length_map] at hk
    obtain ⟨-, r, now, hr, -, hlat, -⟩ := h.waited k _ (List.getElem?_eq_getElem hk)
    rw [List.getElem_map, List.getElem_map, List.getElem_range, hlat, (h.sent k r hr).1]
    split_ifs <;> rfl
  have hid : (s.finished.filterMap Finish.latency).map Prod.fst =
      (s.finished.map fun f => f.latency.map Prod.fst).filterMap id := by
    rw [List.map_filterMap, List.filterMap_map]
    rfl
  rw [hid, hall]
  split_ifs <;> simp

theorem Inv.latency_once (hp : Fits p) (h : Inv p s) :
    ((s.finished.filterMap Finish.latency).map Prod.fst).Nodup := by
  have hlast := hp.last_lt
  have hpend := h.pending_len
  have hlen := h.sent_len
  rw [h.latencies]
  split_ifs
  · refine List.nodup_range.map_on fun a ha b hb he => ?_
    rw [List.mem_range] at ha hb
    have hofNat := congrArg BitVec.toNat ((BitVec.add_right_inj _).mp he)
    rwa [BitVec.toNat_ofNat, BitVec.toNat_ofNat, Nat.mod_eq_of_lt (by omega),
      Nat.mod_eq_of_lt (by omega)] at hofNat
  · exact List.nodup_nil

theorem Inv.returned (hp : Fits p) (h : Inv p s) (hpc : s.pc = .returned) :
    s.sent.length = p.count.toNat ∧ s.finished.length = p.count.toNat := by
  have hpoint := h.point
  have hlast := hp.last_eq
  have hlen := h.sent_len
  have hpend := h.pending_len
  simp only [AtPoint, hpc] at hpoint
  omega

theorem Inv.all_sent (hp : Fits p) (htid : p.tid < p.params.workers) (h : Inv p s)
    (hpc : s.pc = .returned) : s.sent.map Request.byteOffset = transfer p.params p.base p.tid := by
  rw [transfer, if_neg (by rw [BitVec.le_def, Nat.not_le]; exact htid)]
  have hlen := (h.returned hp hpc).1
  refine List.ext_getElem ?_ fun k hk _ => ?_
  · rw [List.length_map, List.length_map, List.length_range, hlen]
    rfl
  rw [List.length_map] at hk
  obtain ⟨hi, hoff, -⟩ := h.sent k _ (List.getElem?_eq_getElem hk)
  rw [List.getElem_map, List.getElem_map, List.getElem_range, hoff, hi]

theorem Inv.disciplined (hp : Fits p) (htid : p.tid < p.params.workers) (h : Inv p s) :
    Disciplined p s where
  sent k r hr := ⟨(h.sent k r hr).1, (h.sent k r hr).2.1⟩
  sent_le := by
    rw [h.sent_len]
    exact Nat.min_le_right _ _
  window := h.window hp
  slot_free k k' r r' hk hr hr' he := h.mem_completed (h.slot_free hp hk hr hr' he)
  waited := h.waited
  latency_once := h.latency_once hp
  latency_all hl hpc := by rw [h.latencies, if_pos hl, (h.returned hp hpc).2]
  all_sent := h.all_sent hp htid
  all_waited hpc := (h.returned hp hpc).2

end Invariant

/-- The arguments of a launch that passed the checks of `main` fit the counters. -/
theorem fits_of_valid {p : Producer} (h : Valid p.params.batchBytes p.params.io
    (p.params.workers.setWidth 64) p.params.offset) (hpos : 0 < p.window.toNat)
    (hle : p.window.toNat ≤ aeCoreMaxWindow) : Fits p where
  window_pos := hpos
  window_le := hle
  last_lt := by
    have hio := h.io_eq
    have hbytes := p.params.batchBytes.isLt
    have hpages :
      p.params.batchBytes.toNat / p.params.io.toNat ≤ p.params.batchBytes.toNat / 4096 :=
      Nat.div_le_div_left (by omega) (by decide)
    have hcount : p.count.toNat ≤ p.params.batchBytes.toNat / p.params.io.toNat := by
      rw [Producer.count, BitVec.toNat_udiv, BitVec.toNat_udiv]
      exact Nat.div_le_self _ _
    unfold aeCoreMaxWindow at hle
    omega

/-- A producer keeps to its window, and returns when its requests are complete. -/
theorem window_discipline {p : Producer} (htid : p.tid < p.params.workers) (hp : Fits p) :
    (∃ bound, ∀ n s, Run p n s → n ≤ bound) ∧ ∀ n s, Run p n s →
      Disciplined p s ∧ ((∀ s', ¬Step p s s') → s.pc = .returned) := by
  refine ⟨⟨3 * p.last.toNat + 1 + p.count.toNat, fun n s h => ?_⟩, fun n s h => ?_⟩
  · have := h.rank_le hp
    omega
  · refine ⟨(h.inv hp).disciplined hp htid, fun hstuck => ?_⟩
    by_contra hpc
    obtain ⟨s', hs⟩ := (h.inv hp).exists_step hpc
    exact hstuck s' hs

def eightRequests : Producer where
  params := ⟨32768#64, 4096#64, 32768#64, 0#64, 0#64, 1#64, 1#64, some .linear, false, true⟩
  base := 0#64
  tid := 0#32
  window := 3#32
  verify := true
  write := false

theorem eight_requests_disciplined : eightRequests.count = 8#64 ∧
    (∃ bound, ∀ n s, Run eightRequests n s → n ≤ bound) ∧ ∀ n s, Run eightRequests n s →
      Disciplined eightRequests s ∧ ((∀ s', ¬Step eightRequests s s') → s.pc = .returned) :=
  ⟨by decide, window_discipline (by decide) (fits_of_valid (valid_of_ok rfl) (by decide)
    (by decide))⟩

end Shaper.TransferWindow
