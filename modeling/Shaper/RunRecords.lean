import Shaper.LoadRuns

/-! What a completed run leaves behind: one task for each measured step and repetition, each
with a log of its own, and the records in the order of the tasks. -/
namespace Shaper.Measurements
open Function Lib.Raises
open Planner (Config Job Step Panel Backend Value Op)

section Plan
variable {c : Config} {base : Value} {panel : Panel} {backend : Backend} {jobs : List Job}

structure Planned (jobs : List Job) : Prop where
  points : (jobs.map fun job => (job.x, job.condition)).Nodup
  phases : ∀ job ∈ jobs, (job.steps.map Step.phase).Nodup
  measured : ∀ job ∈ jobs, ∃ step ∈ job.steps, step.phase ≠ "prepare"

theorem transfer_phase {actual : Backend} {op : Op} {threads : Int} {latency : Bool} {name : String}
    {bytesCount batchBytes : Option Int} {step : Step}
    (h : Planner.transfer c base actual op threads latency name bytesCount batchBytes = .ok step) :
    step.phase = name := by
  unfold Planner.transfer at h
  obtain ⟨_, -, h⟩ := bind_eq_ok.mp h
  obtain ⟨_, -, h⟩ := bind_eq_ok.mp h
  obtain ⟨_, -, h⟩ := bind_eq_ok.mp h
  obtain ⟨_, -, h⟩ := bind_eq_ok.mp h
  rw [← Except.ok.inj h]

theorem postwrite_phase {threads : Int} {step : Step}
    (h : Planner.postwrite c backend base threads = .ok step) : step.phase = "write" := by
  unfold Planner.postwrite at h
  dsimp only at h
  split at h
  · exact transfer_phase h
  · obtain ⟨_, -, h⟩ := bind_eq_ok.mp h
    obtain ⟨_, -, h⟩ := bind_eq_ok.mp h
    obtain ⟨_, -, h⟩ := bind_eq_ok.mp h
    split at h
    · exact transfer_phase h
    · exact transfer_phase h

def planPhases : List (List String) := [["write", "postwrite-read"], ["prepare", "read"], ["read"]]

/-- Jobs that are made one by one, each for a point of its own. -/
theorem planned_mapM {α : Type} {f : α → Except Planner.Raised Job} {l : List α}
    (point : α → Int × String) (h : l.mapM f = .ok jobs) (hn : (l.map point).Nodup)
    (hjob : ∀ a job, f a = .ok job → (job.x, job.condition) = point a ∧
      job.steps.map Step.phase ∈ planPhases) :
    Planned jobs := by
  have hphases : ∀ job ∈ jobs, job.steps.map Step.phase ∈ planPhases := by
    intro job hj
    obtain ⟨a, -, ha⟩ := mapM_ok h job hj
    exact (hjob a job ha).2
  refine ⟨?_, fun job hj => ?_, fun job hj => ?_⟩
  · rwa [mapM_map h fun a job ha => (hjob a job ha).1]
  · have hall : ∀ ps ∈ planPhases, ps.Nodup := by decide
    exact hall _ (hphases job hj)
  · have hall : ∀ ps ∈ planPhases, ∃ p ∈ ps, p ≠ "prepare" := by decide
    obtain ⟨p, hp, hne⟩ := hall _ (hphases job hj)
    obtain ⟨step, hstep, rfl⟩ := List.mem_map.mp hp
    exact ⟨step, hstep, hne⟩

theorem pair_phases {threads readers x : Int} {condition : String} {reader : Backend} {job : Job}
    (h : (do
      let write ← Planner.postwrite c backend base threads
      let read ← Planner.transfer c base reader .read readers false "postwrite-read" none none
      return (⟨panel, backend, x, condition, [write, read]⟩ : Job)) = Except.ok job) :
    (job.x, job.condition) = (x, condition) ∧ job.steps.map Step.phase ∈ planPhases := by
  obtain ⟨write, hwrite, h⟩ := bind_eq_ok.mp h
  obtain ⟨read, hread, h⟩ := bind_eq_ok.mp h
  rw [← Except.ok.inj h]
  refine ⟨rfl, ?_⟩
  rw [List.map_cons, List.map_singleton, postwrite_phase hwrite, transfer_phase hread]
  decide

theorem planned_sweep {readers : Int} {sweep : List Int} (hs : sweep.Nodup)
    (h : Planner.sweepJobs panel backend c base readers sweep = .ok jobs) : Planned jobs := by
  refine planned_mapM (fun threads => (threads, s!"readers={readers}")) h ?_ fun threads job =>
    pair_phases
  exact (hs.filter _).map fun _ _ heq => (Prod.mk.inj heq).1

theorem planned_fig1b (h : Planner.fig1bJobs backend c base = .ok jobs) : Planned jobs := by
  refine planned_mapM (fun p => (p.2, s!"writers={p.1}")) h ?_ fun p job => pair_phases
  decide

theorem planned_fig1c {noPrewrite : Bool}
    (h : Planner.fig1cJobs backend c base noPrewrite = .ok jobs) : Planned jobs := by
  refine planned_mapM (fun threads => (threads, "read-latency")) h ?_ fun threads job hjob => ?_
  · have hs : ([1, 16, 256, 1024, 4096] : List Int).Nodup := by decide
    exact (hs.filter _).map fun _ _ heq => (Prod.mk.inj heq).1
  · obtain ⟨before, hbefore, hjob⟩ := bind_eq_ok.mp hjob
    obtain ⟨read, hread, hjob⟩ := bind_eq_ok.mp hjob
    rw [← Except.ok.inj hjob]
    refine ⟨rfl, ?_⟩
    rw [List.map_append, List.map_singleton, transfer_phase hread]
    unfold Planner.prepare at hbefore
    split at hbefore
    · rw [← Except.ok.inj hbefore]
      decide
    · obtain ⟨step, hstep, hbefore⟩ := bind_eq_ok.mp hbefore
      rw [← Except.ok.inj hbefore, List.map_singleton, transfer_phase hstep]
      decide

theorem planned_of_ok {noPrewrite : Bool} {selected : List Int}
    (h : Planner.makePlan panel backend c noPrewrite selected = .ok jobs) :
    Planned jobs ∧ jobs ≠ [] := by
  unfold Planner.makePlan at h
  obtain ⟨_, -, h⟩ := bind_eq_ok.mp h
  obtain ⟨_, -, h⟩ := bind_eq_ok.mp h
  obtain ⟨base, -, h⟩ := bind_eq_ok.mp h
  obtain ⟨all, hall, h⟩ := bind_eq_ok.mp h
  obtain ⟨_, hne, h⟩ := bind_eq_ok.mp h
  have hplanned : Planned all := by
    cases panel with
    | fig1a => exact planned_sweep (by decide) hall
    | fig3 => exact planned_sweep (by decide) hall
    | fig1b => exact planned_fig1b hall
    | fig1c => exact planned_fig1c hall
  have hsub : jobs.Sublist all := by
    rw [← Except.ok.inj h]
    split
    · exact List.filter_sublist
    · exact List.Sublist.refl _
  refine ⟨⟨(hsub.map _).nodup hplanned.points, fun job hj => hplanned.phases job (hsub.subset hj),
    fun job hj => hplanned.measured job (hsub.subset hj)⟩, ?_⟩
  rw [← Except.ok.inj h]
  exact Planner.require_ok hne

end Plan

section Tasks
variable {reuse prepared : Bool} {jobs : List Job} {rep n : Nat} {order : List Nat}
  {orders : Nat → List Nat}

def Task.id (t : Task) : RecordId := (t.rep, t.job, t.step.phase)

theorem phases_stepsOf (h : Planned jobs) (index : Nat) :
    ((stepsOf jobs index).map Step.phase).Nodup := by
  unfold stepsOf
  cases hj : jobs[index]? with
  | none => exact List.nodup_nil
  | some job => exact h.phases job (List.mem_of_getElem? hj)

theorem mem_repeatTasks {t : Task} (ht : t ∈ repeatTasks reuse jobs rep prepared order) :
    t.rep = rep ∧ t.job ∈ order ∧ t.step ∈ stepsOf jobs t.job := by
  induction order generalizing prepared with
  | nil => cases ht
  | cons index order ih =>
    rcases List.mem_append.mp ht with ht | ht
    · obtain ⟨step, hstep, rfl⟩ := List.mem_map.mp ht
      exact ⟨rfl, List.mem_cons_self, List.mem_of_mem_filter hstep⟩
    · obtain ⟨hrep, hjob, hstep⟩ := ih ht
      exact ⟨hrep, List.mem_cons_of_mem _ hjob, hstep⟩

theorem repeatTasks_of_measured {index : Nat} {step : Step} (hi : index ∈ order)
    (hs : step ∈ stepsOf jobs index)
    (hp : step.phase ≠ "prepare") :
    ⟨rep, index, step⟩ ∈ repeatTasks reuse jobs rep prepared order := by
  induction order generalizing prepared with
  | nil => cases hi
  | cons index' order ih =>
    rw [repeatTasks, List.mem_append]
    rcases List.mem_cons.mp hi with rfl | hi
    · exact .inl (List.mem_map_of_mem (List.mem_filter.mpr ⟨hs, decide_eq_true (.inl hp)⟩))
    · exact .inr (ih hi)

theorem nodup_repeatTasks (h : Planned jobs) (ho : order.Nodup) :
    ((repeatTasks reuse jobs rep prepared order).map Task.id).Nodup := by
  induction order generalizing prepared with
  | nil => exact List.nodup_nil
  | cons index order ih =>
    obtain ⟨hi, ho⟩ := List.nodup_cons.mp ho
    rw [repeatTasks, List.map_append, List.nodup_append]
    refine ⟨?_, ih ho, ?_⟩
    · have hid : Task.id ∘ Task.mk rep index = (fun phase => (rep, index, phase)) ∘ Step.phase :=
        rfl
      rw [List.map_map, hid, ← List.map_map]
      apply ((List.filter_sublist.map Step.phase).nodup (phases_stepsOf h index)).map
      intro a b hab
      exact (Prod.mk.inj (Prod.mk.inj hab).2).2
    · intro a ha b hb hab
      obtain ⟨t, ht, rfl⟩ := List.mem_map.mp ha
      obtain ⟨u, hu, rfl⟩ := List.mem_map.mp hb
      obtain ⟨step, -, rfl⟩ := List.mem_map.mp ht
      have hjob : index = u.job := (Prod.mk.inj (Prod.mk.inj hab).2).1
      exact hi (hjob ▸ (mem_repeatTasks hu).2.1)

theorem mem_tasks {t : Task} :
    t ∈ tasks reuse jobs n orders → ∃ r < n, t.rep = r+1 ∧ t.job ∈ orders r ∧
    t.step ∈ stepsOf jobs t.job := by
  intro ht
  obtain ⟨r, hr, ht⟩ := List.mem_flatMap.mp ht
  exact ⟨r, List.mem_range.mp hr, mem_repeatTasks ht⟩

theorem tasks_of_measured {r index : Nat} {step : Step} (hr : r < n) (hi : index ∈ orders r)
    (hs : step ∈ stepsOf jobs index) (hp : step.phase ≠ "prepare") :
    ⟨r+1, index, step⟩ ∈ tasks reuse jobs n orders :=
  List.mem_flatMap.mpr ⟨r, List.mem_range.mpr hr, repeatTasks_of_measured hi hs hp⟩

theorem nodup_tasks (h : Planned jobs) (ho : ∀ r < n, (orders r).Nodup) :
    ((tasks reuse jobs n orders).map Task.id).Nodup := by
  rw [tasks, List.map_flatMap, List.nodup_flatMap]
  constructor
  · intro r hr
    exact nodup_repeatTasks h (ho r (List.mem_range.mp hr))
  · apply List.nodup_range.imp
    intro r r' hne a ha ha'
    obtain ⟨t, ht, rfl⟩ := List.mem_map.mp ha
    obtain ⟨u, hu, hid⟩ := List.mem_map.mp ha'
    have hrep : u.rep = t.rep := (Prod.mk.inj hid).1
    rw [(mem_repeatTasks ht).1, (mem_repeatTasks hu).1] at hrep
    exact hne (Nat.succ.inj hrep).symm

/-- A step that prepares contributes nothing, so it does not matter whether it was skipped. -/
theorem flatMap_repeatTasks {β : Type} {f : Task → List β}
    (hf : ∀ t : Task, t.step.phase = "prepare" → f t = []) :
    (repeatTasks reuse jobs rep prepared order).flatMap f =
      order.flatMap fun index => (stepsOf jobs index).flatMap fun step => f ⟨rep, index, step⟩ := by
  have hsteps : ∀ (p : Step → Bool) index (steps : List Step),
    (∀ step, p step = false → step.phase = "prepare") →
      ((steps.filter p).map (Task.mk rep index)).flatMap f = steps.flatMap fun step =>
        f ⟨rep, index, step⟩ := by
    intro p index steps hp
    induction steps with
    | nil => rfl
    | cons step steps ih =>
      cases hstep : p step with
      | true =>
        rw [List.filter_cons_of_pos hstep, List.map_cons, List.flatMap_cons, ih, List.flatMap_cons]
      | false =>
        rw [List.filter_cons_of_neg (by simp [hstep]), ih, List.flatMap_cons,
          hf ⟨rep, index, step⟩ (hp step hstep), List.nil_append]
  induction order generalizing prepared with
  | nil => rfl
  | cons index order ih =>
    rw [repeatTasks, List.flatMap_append, ih, List.flatMap_cons, hsteps]
    intro step hstep
    exact Decidable.byContradiction fun hne => of_decide_eq_false hstep (.inl hne)

theorem logName_inj {rep' job job' : Nat} {phase phase' : String}
    (h : logName rep job phase = logName rep' job' phase') :
    rep = rep' ∧ job = job' ∧ phase = phase' := by
  have hsep : ∀ w k, '-' ∉ Lib.Decimal.padded w k := fun w k hmem =>
    absurd (Lib.Decimal.isDigit_padded hmem) (by decide)
  obtain ⟨hrep, hrest⟩ :=
    Lib.Decimal.split_inj (hsep 2 rep) (hsep 2 rep') (String.ofList_injective h)
  obtain ⟨hjob, hrest⟩ := Lib.Decimal.split_inj (hsep 3 job) (hsep 3 job') hrest
  exact ⟨Lib.Decimal.padded_inj hrep, Lib.Decimal.padded_inj hjob,
    String.toList_injective (List.append_cancel_right hrest)⟩

theorem nodup_logs {ts : List Task} (h : (ts.map Task.id).Nodup) : (ts.map Task.log).Nodup := by
  have hlog : ts.map Task.log = (ts.map Task.id).map fun id => logName id.1 id.2.1 id.2.2 := by
    rw [List.map_map]
    rfl
  rw [hlog]
  apply h.map
  intro a b hab
  obtain ⟨h₁, h₂, h₃⟩ := logName_inj hab
  exact Prod.ext h₁ (Prod.ext h₂ h₃)

end Tasks

section Execute
variable {c : Config} {bench : Task → Nat × List Line}

structure Ran (c : Config) (bench : Task → Nat × List Line) (t : Task) : Prop where
  exit : (bench t).1 = 0
  rows : ∀ row ∈ raw (bench t).2, checkMeasurement c t.log t.step row = .ok ()
  nonempty : raw (bench t).2 ≠ []

def writeLog (bench : Task → Nat × List Line) (logs : Files) (t : Task) : Files :=
  update logs t.log (some (bench t).2)

theorem runTask_eq_ok {acc out : List Record × Files} {t : Task} :
    runTask c bench acc t = .ok out ↔
      Ran c bench t ∧ out = (acc.1 ++ taskRecords bench t, writeLog bench acc.2 t) := by
  unfold runTask
  simp only [guard_ok, bind_eq_ok, ne_eq, not_not]
  constructor
  · rintro ⟨hexit, ⟨⟩, hrows, hne, hout⟩
    exact ⟨⟨hexit, forM_eq_ok.mp hrows, hne⟩, (Except.ok.inj hout).symm⟩
  · rintro ⟨h, rfl⟩
    exact ⟨h.exit, (), forM_eq_ok.mpr h.rows, h.nonempty, rfl⟩

theorem runTasks_eq_ok {ts : List Task} {acc out : List Record × Files} :
    ts.foldlM (runTask c bench) acc = .ok out ↔
      (∀ t ∈ ts, Ran c bench t) ∧
        out = (acc.1 ++ ts.flatMap (taskRecords bench), ts.foldl (writeLog bench) acc.2) := by
  induction ts generalizing acc with
  | nil => simp [pure, Except.pure, eq_comm]
  | cons t ts ih =>
    simp only [List.foldlM_cons, bind_eq_ok, runTask_eq_ok, ih, List.forall_mem_cons,
      List.flatMap_cons, List.foldl_cons]
    constructor
    · rintro ⟨_, ⟨ht, rfl⟩, hts, rfl⟩
      exact ⟨⟨ht, hts⟩, by rw [List.append_assoc]⟩
    · rintro ⟨⟨ht, hts⟩, rfl⟩
      exact ⟨_, ⟨ht, rfl⟩, hts, by rw [List.append_assoc]⟩

theorem writeLogs_other {ts : List Task} {logs : Files} {name : String}
    (h : name ∉ ts.map Task.log) : ts.foldl (writeLog bench) logs name = logs name := by
  induction ts generalizing logs with
  | nil => rfl
  | cons t ts ih =>
    rw [List.map_cons, List.mem_cons, not_or] at h
    rw [List.foldl_cons, ih h.2, writeLog, update_of_ne h.1]

theorem writeLogs_own {ts : List Task} {logs : Files} (hn : (ts.map Task.log).Nodup) {t : Task}
    (ht : t ∈ ts) : ts.foldl (writeLog bench) logs t.log = some (bench t).2 := by
  induction ts generalizing logs with
  | nil => cases ht
  | cons u ts ih =>
    obtain ⟨hu, hn⟩ := List.nodup_cons.mp hn
    rcases List.mem_cons.mp ht with rfl | ht
    · rw [List.foldl_cons, writeLogs_other hu, writeLog, update_self]
    · exact ih hn ht

end Execute

end Shaper.Measurements
