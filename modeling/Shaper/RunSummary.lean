import Shaper.Lib.Lists
import Shaper.RunAlterations
import Shaper.RunRecords

/-! The summary of a completed run is the one that `load_runs` computes from its records. -/
namespace Shaper.Measurements
open Function Lib.Grouping Lib.Lists Lib.Raises
open Planner (Config Job Step Panel Backend)

def measured (bench : Task → Nat × List Line) (t : Task) : Dict := (raw (bench t).2).headD ⟨[]⟩

def valueOf (d : Dict) (metric : String) : ℚ := ((d.get metric).bind Json.number).getD 0

def opOf (d : Dict) : String :=
  match d.get "op" with
  | some (.text s) => s
  | _ => ""

def present (d : Dict) : List String := metrics.filter fun metric => (d.get metric).isSome

structure Point where
  index : Nat
  job : Job
  step : Step
  metric : String

def points (bench : Task → Nat × List Line) (jobs : List Job) : List Point :=
  jobs.zipIdx.flatMap fun job =>
    (job.1.steps.filter fun step => step.phase ≠ "prepare").flatMap fun step =>
    (present (measured bench ⟨1, job.2, step⟩)).map (⟨job.2, job.1, step, ·⟩)

namespace Point
variable (bench : Task → Nat × List Line)

def measurement (p : Point) (r : Nat) : Dict := measured bench ⟨r+1, p.index, p.step⟩

def key (p : Point) : GroupKey :=
  groupKey p.job p.step.phase (.text (opOf (p.measurement bench 0))) p.metric

def values (n : Nat) (p : Point) : List ℚ :=
  (List.range n).map fun r => valueOf (p.measurement bench r) p.metric

def row (n : Nat) (p : Point) : Row := ⟨(p.key bench).columns, statistics (p.values bench n)⟩
end Point

structure Regular (d : Dict) : Prop where
  op : ∃ s, d.get "op" = some (.text s)
  numbers : ∀ metric ∈ metrics, ∀ v, d.get metric = some v → ∃ q, v = .num q
  others : ∀ metric ∈ aggregateMetrics, metric ∉ metrics → d.get metric = none

structure Completed (panel : Panel) (backend : Backend) (c : Config) (noPrewrite : Bool)
    (selected : List Int)
    (orders : Nat → List Nat) (bench : Task → Nat × List Line) (run : Run) (logs : Files) :
    Prop where
  config : Planner.loadConfig c = .ok ()
  plan : Planner.makePlan panel backend c noPrewrite selected = .ok run.jobs
  repetitions : c .repetitions = some (.int run.repetitions)
  shuffled : ∀ r < run.repetitions, (orders r).Perm (List.range run.jobs.length)
  executed :
    execute c bench panel noPrewrite run.jobs run.repetitions orders = .ok (run.records, logs)
  completed : run.completed = true
  single : ∀ t ∈ tasks (reuseReads c panel noPrewrite) run.jobs run.repetitions orders,
    (raw (bench t).2).length = 1
  regular : ∀ t ∈ tasks (reuseReads c panel noPrewrite) run.jobs run.repetitions orders,
    t.step.phase ≠ "prepare" → Regular (measured bench t)
  steady : ∀ t ∈ tasks (reuseReads c panel noPrewrite) run.jobs run.repetitions orders,
    ∀ u ∈ tasks (reuseReads c panel noPrewrite) run.jobs run.repetitions orders,
    t.step.phase ≠ "prepare" →
      t.job = u.job → t.step.phase = u.step.phase →
      (measured bench t).get "op" = (measured bench u).get "op" ∧
        present (measured bench t) = present (measured bench u)

section Pairs
variable {jobs : List Job} {job : Job} {r : Record}

theorem hashed_op {d : Dict} (h : ∃ s, d.get "op" = some (.text s)) :
    d.hashed "op" = .ok (.text (opOf d)) := by
  obtain ⟨s, hs⟩ := h
  simp [Dict.hashed, Dict.item, opOf, hs, bind, Except.bind, pure, Except.pure, Json.plain]

def groupPairs (jobs : List Job) (r : Record) : List (GroupKey × (Nat × ℚ)) :=
  if r.phase = "prepare" then []
  else
    match jobs[r.job]? with
    | none => []
    | some job => (present r.measurement).map fun metric =>
      (groupKey job r.phase (.text (opOf r.measurement)) metric,
        (r.rep, valueOf r.measurement metric))

theorem metricPairs_eq (h : Regular r.measurement) {metric : String}
    (hm : metric ∈ aggregateMetrics) :
    metricPairs job r metric = .ok (if (r.measurement.get metric).isSome then
      [(groupKey job r.phase (.text (opOf r.measurement)) metric,
        (r.rep, valueOf r.measurement metric))]
      else []) := by
  unfold metricPairs
  cases hv : r.measurement.get metric with
  | none => rfl
  | some v =>
    have hknown : metric ∈ metrics := by
      by_contra hne
      rw [h.others metric hm hne] at hv
      cases hv
    obtain ⟨q, rfl⟩ := h.numbers metric hknown v hv
    rw [hashed_op h.op]
    simp [valueOf, hv, Json.number, bind, Except.bind, pure, Except.pure]

theorem aggregatePairs_eq (hjob : jobs[r.job]? = some job)
    (h : r.phase ≠ "prepare" → Regular r.measurement) :
    aggregatePairs jobs r = .ok (groupPairs jobs r) := by
  unfold aggregatePairs groupPairs
  by_cases hp : r.phase = "prepare"
  · rw [if_pos hp, if_pos hp]
  · have hreg := h hp
    rw [if_neg hp, if_neg hp, hjob]
    simp only
    rw [mapM_eq_map fun metric hm => metricPairs_eq hreg hm]
    change Except.ok (List.flatten _) = _
    -- The metrics that only `aggregate` knows are absent.
    have hlogical := hreg.others "logical_page_bandwidth_gib_s" (by decide) (by decide)
    have hread := hreg.others "ssd_read_bandwidth_gib_s" (by decide) (by decide)
    have hwrite := hreg.others "ssd_write_bandwidth_gib_s" (by decide) (by decide)
    rw [present, ← flatMap_ite, List.flatMap]
    simp [aggregateMetrics, metrics, hlogical, hread, hwrite]

def GroupKey.point (k : GroupKey) : PointKey :=
  [.text k.panel, .text k.backend, .text k.x.repr, .text k.condition, .text k.phase, k.op,
    .text k.metric]

theorem point_inj (a b : GroupKey) (h : a.point = b.point) : a = b := by
  simp only [GroupKey.point, List.cons.injEq, Json.text.injEq] at h
  obtain ⟨hpanel, hbackend, hx, hcondition, hphase, hop, hmetric, -⟩ := h
  cases a
  cases b
  simp only at hpanel hbackend hx hcondition hphase hop hmetric
  rw [GroupKey.mk.injEq]
  exact ⟨hpanel, hbackend, Lib.Decimal.intRepr_inj hx, hcondition, hphase, hop, hmetric⟩

theorem columns_text {k : GroupKey} {s : String} (h : k.op = .text s) :
    k.columns.map Json.text = k.point := by
  simp [GroupKey.columns, GroupKey.point, h, Json.csv]

theorem pointPairs_eq (h : Regular r.measurement)
    (hpos : ∀ metric ∈ metrics, ∀ q, r.measurement.get metric = some (.num q) → 0 < q)
    {metric : String} (hm : metric ∈ metrics) :
    pointPairs job r metric = .ok (if (r.measurement.get metric).isSome then
      [((groupKey job r.phase (.text (opOf r.measurement)) metric).point,
        (r.rep, valueOf r.measurement metric))] else []) := by
  unfold pointPairs
  cases hv : r.measurement.get metric with
  | none => rfl
  | some v =>
    obtain ⟨q, rfl⟩ := h.numbers metric hm v hv
    have hq := hpos metric hm q hv
    simp only [Json.number, not_le_of_gt hq, if_false, Option.isSome_some, if_true]
    rw [hashed_op h.op]
    simp [valueOf, hv, Json.number, bind, Except.bind, pure, Except.pure, pointKey, GroupKey.point,
      groupKey]

theorem find_step {step : Step} {steps : List Step} (hn : (steps.map Step.phase).Nodup)
    (hs : step ∈ steps) : steps.find? (fun s => s.phase = step.phase) = some step := by
  rw [← List.head?_filter, filter_key hn hs]
  rfl

/-- A record as the reader takes it: of a step of the plan, with the bytes that were planned. -/
theorem recordPairs_eq {step : Step} (hjob : jobs[r.job]? = some job)
    (hn : (job.steps.map Step.phase).Nodup) (hs : step ∈ job.steps) (hphase : r.phase = step.phase)
    (hbytes : ((r.measurement.get "bytes").getD .null).plain = .num step.expectedBytes)
    (h : r.phase ≠ "prepare" → Regular r.measurement)
    (hpos : ∀ metric ∈ metrics, ∀ q, r.measurement.get metric = some (.num q) → 0 < q) :
    recordPairs jobs r = .ok ((groupPairs jobs r).map fun p => (p.1.point, p.2)) := by
  unfold recordPairs groupPairs
  by_cases hp : r.phase = "prepare"
  · rw [if_pos hp, if_pos hp]
    rfl
  · have hcheck : checkBytes step r.measurement = .ok () := by
      unfold checkBytes Dict.item
      cases hv : r.measurement.get "bytes" with
      | none =>
        rw [hv] at hbytes
        cases hbytes
      | some v =>
        rw [hv] at hbytes
        exact if_pos hbytes
    have hfind : job.steps.find? (fun s => s.phase = r.phase) = some step := by
      rw [hphase]
      exact find_step hn hs
    rw [if_neg hp, if_neg hp, hjob]
    simp only [hfind]
    rw [hcheck, mapM_eq_map fun metric hm => pointPairs_eq (h hp) hpos hm]
    change Except.ok (List.flatten _) = _
    rw [← List.flatMap, flatMap_ite, List.map_map]
    rfl

end Pairs

theorem checkMeasurement_ok {c : Config} {log : String} {step : Step} {row : Dict}
    (h : checkMeasurement c log step row = .ok ()) :
    (∀ key ∈ checkedKeys, checkNumber log row key = .ok ()) ∧
      ¬((row.get "seconds").isNone ∨
        (row.get "bandwidth_gib_s").isNone ∧ (row.get "logical_page_bandwidth_gib_s").isNone) ∧
      ((row.get "bytes").getD .null).plain = .num step.expectedBytes := by
  unfold checkMeasurement at h
  simp only [bind_eq_ok, guard_ok] at h
  obtain ⟨_, -, _, hnumbers, hcomplete, hbytes⟩ := h
  refine ⟨forM_eq_ok.mp hnumbers, hcomplete, ?_⟩
  by_contra hne
  rw [if_pos hne] at hbytes
  cases hbytes

theorem positive_of_ok {c : Config} {log : String} {step : Step} {row : Dict}
    (h : checkMeasurement c log step row = .ok ()) :
    ∀ metric ∈ metrics, ∀ q, row.get metric = some (.num q) → 0 < q := by
  intro metric hm q hq
  have hsub : ∀ m ∈ metrics, m ∈ checkedKeys := by decide
  have hcheck := (checkMeasurement_ok h).1 metric (hsub metric hm)
  unfold checkNumber at hcheck
  rw [hq] at hcheck
  exact final_ok.mp hcheck

theorem repetitions_pos {c : Config} {n : Nat} (h : Planner.loadConfig c = .ok ())
    (hn : c .repetitions = some (.int n)) : 0 < n := by
  unfold Planner.loadConfig at h
  obtain ⟨⟨⟩, hpos, -⟩ := bind_eq_ok.mp h
  have hkey := Planner.require_ok (forM_eq_ok.mp hpos .repetitions (by decide))
  obtain ⟨m, hm, hc⟩ := Planner.number_of_isPositive hkey
  rw [hn] at hc
  obtain rfl := Planner.Value.int.inj (Option.some.inj hc)
  exact Int.natCast_pos.mp hm

def record (bench : Task → Nat × List Line) (t : Task) : Record :=
  ⟨t.rep, t.job, t.step.phase, t.log, measured bench t⟩

theorem mem_stepsOf {jobs : List Job} {index : Nat} {step : Step} :
    step ∈ stepsOf jobs index ↔ ∃ job, jobs[index]? = some job ∧ step ∈ job.steps := by
  unfold stepsOf
  cases jobs[index]? <;> simp

/-- The jobs with their indices, as the two loops over them meet them. -/
theorem flatMap_zipIdx {β : Type} (jobs : List Job) (f : Nat → List Step → List β) :
    (jobs.zipIdx.flatMap fun job => f job.2 job.1.steps) =
      (List.range jobs.length).flatMap fun index => f index (stepsOf jobs index) := by
  have hrange : List.range jobs.length = jobs.zipIdx.map Prod.snd := by
    rw [List.zipIdx_map_snd, List.range_eq_range']
  rw [hrange, List.flatMap_map]
  apply List.flatMap_congr
  rintro ⟨job, index⟩ hmem
  have hjob := List.mem_zipIdx_iff_getElem?.mp hmem
  simp [stepsOf, hjob]

namespace Completed
variable {panel : Panel} {backend : Backend} {c : Config} {noPrewrite : Bool} {selected : List Int}
  {orders : Nat → List Nat} {bench : Task → Nat × List Line} {run : Run} {logs : Files} {t : Task}

theorem ran (h : Completed panel backend c noPrewrite selected orders bench run logs) :
    ∀ t ∈ tasks (reuseReads c panel noPrewrite) run.jobs run.repetitions orders, Ran c bench t :=
  (runTasks_eq_ok.mp h.executed).1

theorem repetitions_ne (h : Completed panel backend c noPrewrite selected orders bench run logs) :
    0 < run.repetitions := repetitions_pos h.config h.repetitions

theorem planned (h : Completed panel backend c noPrewrite selected orders bench run logs) :
    Planned run.jobs :=
  (planned_of_ok h.plan).1

theorem mem_tasks_of_step (h : Completed panel backend c noPrewrite selected orders bench run logs)
    {r index : Nat}
    {job : Job} {step : Step} (hr : r < run.repetitions) (hjob : run.jobs[index]? = some job)
    (hs : step ∈ job.steps) (hp : step.phase ≠ "prepare") :
    ⟨r+1, index, step⟩ ∈ tasks (reuseReads c panel noPrewrite) run.jobs run.repetitions orders := by
  obtain ⟨hlt, -⟩ := List.getElem?_eq_some_iff.mp hjob
  have hindex : index ∈ orders r := (h.shuffled r hr).mem_iff.mpr (List.mem_range.mpr hlt)
  exact tasks_of_measured hr hindex (mem_stepsOf.mpr ⟨job, hjob, hs⟩) hp

theorem nodup_ids (h : Completed panel backend c noPrewrite selected orders bench run logs) :
    ((tasks (reuseReads c panel noPrewrite) run.jobs run.repetitions
      orders).map Task.id).Nodup := by
  apply nodup_tasks h.planned
  intro r hr
  exact (h.shuffled r hr).nodup_iff.mpr List.nodup_range

theorem raw_eq (h : Completed panel backend c noPrewrite selected orders bench run logs)
    (ht : t ∈ tasks (reuseReads c panel noPrewrite) run.jobs run.repetitions orders) :
    raw (bench t).2 = [measured bench t] := by
  obtain ⟨d, hd⟩ := List.length_eq_one_iff.mp (h.single t ht)
  rw [measured, hd]
  rfl

theorem check (h : Completed panel backend c noPrewrite selected orders bench run logs)
    (ht : t ∈ tasks (reuseReads c panel noPrewrite) run.jobs run.repetitions orders) :
    checkMeasurement c t.log t.step (measured bench t) = .ok () :=
  (h.ran t ht).rows _ (by rw [h.raw_eq ht]; exact List.mem_singleton_self _)

theorem records_eq (h : Completed panel backend c noPrewrite selected orders bench run logs) :
    run.records =
    (tasks (reuseReads c panel noPrewrite) run.jobs run.repetitions orders).map (record bench) := by
  have hrecords := congrArg Prod.fst (runTasks_eq_ok.mp h.executed).2
  change run.records = List.flatMap (taskRecords bench) _ at hrecords
  rw [hrecords, List.map_eq_flatMap]
  apply List.flatMap_congr
  intro t ht
  rw [taskRecords, h.raw_eq ht]
  rfl

theorem log_eq (h : Completed panel backend c noPrewrite selected orders bench run logs)
    (ht : t ∈ tasks (reuseReads c panel noPrewrite) run.jobs run.repetitions orders) :
    logs t.log = some (bench t).2 := by
  have hlogs := congrArg Prod.snd (runTasks_eq_ok.mp h.executed).2
  change logs = _ at hlogs
  rw [hlogs]
  exact writeLogs_own (nodup_logs h.nodup_ids) ht

def round (bench : Task → Nat × List Line) (jobs : List Job) (order : List Nat) (r : Nat) :
    List (GroupKey × (Nat × ℚ)) :=
  order.flatMap fun index => (stepsOf jobs index).flatMap fun step =>
    groupPairs jobs (record bench ⟨r+1, index, step⟩)

theorem pairs_rounds (h : Completed panel backend c noPrewrite selected orders bench run logs) :
    run.records.flatMap (groupPairs run.jobs) =
      (List.range run.repetitions).flatMap fun r => round bench run.jobs (orders r) r := by
  rw [h.records_eq, List.flatMap_map, tasks, List.flatMap_assoc]
  apply List.flatMap_congr
  intro r _
  exact flatMap_repeatTasks fun t ht => if_pos ht

/-- A measured step gives the same points in every repetition. -/
theorem groupPairs_eq (h : Completed panel backend c noPrewrite selected orders bench run logs)
    {r index : Nat}
    {job : Job} {step : Step} (hr : r < run.repetitions) (hjob : run.jobs[index]? = some job)
    (hs : step ∈ job.steps) (hp : step.phase ≠ "prepare") :
    groupPairs run.jobs (record bench ⟨r+1, index, step⟩) =
      ((present (measured bench ⟨1, index, step⟩)).map (Point.mk index job step)).map fun p =>
        (p.key bench, (r+1, valueOf (p.measurement bench r) p.metric)) := by
  have htask := h.mem_tasks_of_step hr hjob hs hp
  have hfirst := h.mem_tasks_of_step h.repetitions_ne hjob hs hp
  obtain ⟨hop, hpresent⟩ := h.steady _ htask _ hfirst hp rfl rfl
  have hopOf :
    opOf (measured bench ⟨r+1, index, step⟩) = opOf (measured bench ⟨0+1, index, step⟩) := by
    rw [opOf, hop]
    rfl
  have hphase : ¬ (record bench ⟨r+1, index, step⟩).phase = "prepare" := hp
  have hget : run.jobs[(record bench ⟨r+1, index, step⟩).job]? = some job := hjob
  unfold groupPairs
  rw [if_neg hphase, hget]
  change (present (measured bench ⟨r+1, index, step⟩)).map _ = _
  rw [hpresent, List.map_map]
  apply List.map_congr_left
  intro metric _
  change (groupKey job step.phase (.text (opOf (measured bench ⟨r+1, index, step⟩))) metric, _) = _
  rw [hopOf]
  rfl

theorem round_perm (h : Completed panel backend c noPrewrite selected orders bench run logs)
    {r : Nat} (hr : r < run.repetitions) :
    (round bench run.jobs (orders r) r).Perm ((points bench run.jobs).map fun p =>
      (p.key bench, (r+1, valueOf (p.measurement bench r) p.metric))) := by
  have hperm : (round bench run.jobs (orders r) r).Perm
    (round bench run.jobs (List.range run.jobs.length) r) :=
    (h.shuffled r hr).flatMap_right _
  refine hperm.trans (List.Perm.of_eq ?_)
  rw [round, ← flatMap_zipIdx run.jobs fun index steps =>
    steps.flatMap fun step => groupPairs run.jobs (record bench ⟨r+1, index, step⟩), points,
    List.map_flatMap]
  apply List.flatMap_congr
  rintro ⟨job, index⟩ hmem
  have hjob := List.mem_zipIdx_iff_getElem?.mp hmem
  rw [List.map_flatMap, flatMap_filter]
  apply List.flatMap_congr
  intro step hs
  by_cases hp : step.phase = "prepare"
  · simp [hp, groupPairs, record]
  · rw [if_pos (decide_eq_true hp)]
    exact h.groupPairs_eq hr hjob hs hp

theorem nodup_keys (h : Planned run.jobs) :
    ((points bench run.jobs).map (Point.key bench)).Nodup := by
  have hjobs :
    run.jobs.zipIdx.Pairwise fun a b => (a.1.x, a.1.condition) ≠ (b.1.x, b.1.condition) := by
    have hfst : run.jobs = run.jobs.zipIdx.map Prod.fst := by rw [List.zipIdx_map_fst]
    have hpoints := h.points
    rw [hfst, List.map_map] at hpoints
    exact List.pairwise_map.mp hpoints
  rw [points, List.map_flatMap, List.nodup_flatMap]
  constructor
  · rintro ⟨job, index⟩ hmem
    have hjob : job ∈ run.jobs := List.mem_of_getElem? (List.mem_zipIdx_iff_getElem?.mp hmem)
    rw [List.map_flatMap, List.nodup_flatMap]
    constructor
    · intro step _
      rw [List.map_map]
      have hmetrics : (present (measured bench ⟨1, index, step⟩)).Nodup :=
        List.Nodup.filter _ (by decide)
      exact hmetrics.map fun a b hab => congrArg GroupKey.metric hab
    · have hsteps := List.pairwise_map.mp (h.phases job hjob)
      apply (hsteps.filter _).imp
      intro step step' hne k hk hk'
      obtain ⟨p, hp, rfl⟩ := List.mem_map.mp hk
      obtain ⟨q, hq, hkey⟩ := List.mem_map.mp hk'
      obtain ⟨_, -, rfl⟩ := List.mem_map.mp hp
      obtain ⟨_, -, rfl⟩ := List.mem_map.mp hq
      exact hne (congrArg GroupKey.phase hkey).symm
  · apply hjobs.imp
    rintro ⟨job, index⟩ ⟨job', index'⟩ hne k hk hk'
    obtain ⟨p, hp, rfl⟩ := List.mem_map.mp hk
    obtain ⟨q, hq, hkey⟩ := List.mem_map.mp hk'
    obtain ⟨_, -, hp⟩ := List.mem_flatMap.mp hp
    obtain ⟨_, -, hq⟩ := List.mem_flatMap.mp hq
    obtain ⟨_, -, rfl⟩ := List.mem_map.mp hp
    obtain ⟨_, -, rfl⟩ := List.mem_map.mp hq
    exact hne (Prod.ext (congrArg GroupKey.x hkey).symm (congrArg GroupKey.condition hkey).symm)

/-- The groups of both readers: every point with a value from each repetition. -/
theorem groups_perm (h : Completed panel backend c noPrewrite selected orders bench run logs) :
    (group (run.records.flatMap (groupPairs run.jobs))).Perm ((points bench run.jobs).map fun p =>
      (p.key bench, (List.range run.repetitions).map fun r =>
        (r+1, valueOf (p.measurement bench r) p.metric))) := by
  rw [h.pairs_rounds]
  exact group_rounds h.repetitions_ne (nodup_keys h.planned) fun r hr => h.round_perm hr

def summaryOf (run : Run) : List Row :=
  ((group (run.records.flatMap (groupPairs run.jobs))).mergeSort fun a b => a.1.le b.1).map groupRow

theorem mem_records (h : Completed panel backend c noPrewrite selected orders bench run logs)
    {r : Record}
    (hr : r ∈ run.records) :
    ∃ t ∈ tasks (reuseReads c panel noPrewrite) run.jobs run.repetitions orders,
      ∃ job, run.jobs[t.job]? = some job ∧ t.step ∈ job.steps ∧ record bench t = r := by
  rw [h.records_eq] at hr
  obtain ⟨t, ht, rfl⟩ := List.mem_map.mp hr
  obtain ⟨_, -, -, -, hstep⟩ := mem_tasks ht
  obtain ⟨job, hjob, hs⟩ := mem_stepsOf.mp hstep
  exact ⟨t, ht, job, hjob, hs, rfl⟩

theorem mem_groups (h : Completed panel backend c noPrewrite selected orders bench run logs)
    {g : GroupKey × List (Nat × ℚ)} (hg : g ∈ group (run.records.flatMap (groupPairs run.jobs))) :
    ∃ p ∈ points bench run.jobs, g = (p.key bench, (List.range run.repetitions).map fun r =>
      (r+1, valueOf (p.measurement bench r) p.metric)) := by
  obtain ⟨p, hp, rfl⟩ := List.mem_map.mp (h.groups_perm.mem_iff.mp hg)
  exact ⟨p, hp, rfl⟩

theorem aggregate_eq (h : Completed panel backend c noPrewrite selected orders bench run logs) :
    aggregate run = .ok (summaryOf run) := by
  have hpairs : ∀ r ∈ run.records, aggregatePairs run.jobs r = .ok (groupPairs run.jobs r) := by
    intro r hr
    obtain ⟨t, ht, job, hjob, -, rfl⟩ := h.mem_records hr
    exact aggregatePairs_eq hjob (h.regular t ht)
  have hgroups : ∀ g ∈ group (run.records.flatMap (groupPairs run.jobs)),
      (if g.2.length = run.repetitions ∧ (g.2.map Prod.fst).Nodup then Except.ok ()
        else .error (Raised.repetition g.1.columns)) = .ok () := by
    intro g hg
    obtain ⟨p, -, rfl⟩ := h.mem_groups hg
    rw [final_ok]
    constructor
    · simp
    · rw [List.map_map]
      exact List.nodup_range.map fun a b hab => Nat.succ.inj hab
  unfold aggregate
  rw [guard_ok]
  refine ⟨by simp [h.completed], ?_⟩
  rw [mapM_eq_map hpairs, bind_eq_ok]
  refine ⟨_, rfl, ?_⟩
  rw [← List.flatMap, bind_eq_ok]
  exact ⟨(), forM_eq_ok.mpr hgroups, rfl⟩

theorem summary_perm (h : Completed panel backend c noPrewrite selected orders bench run logs) :
    (summaryOf run).Perm ((points bench run.jobs).map (Point.row bench run.repetitions)) := by
  have hsort := (List.mergeSort_perm (group (run.records.flatMap (groupPairs run.jobs))) fun a b =>
    a.1.le b.1).trans
    h.groups_perm
  have hrows := hsort.map groupRow
  rw [List.map_map] at hrows
  refine hrows.trans (List.Perm.of_eq (List.map_congr_left fun p _ => ?_))
  change (⟨_, statistics (((List.range _).map _).map Prod.snd)⟩ : Row) = _
  rw [List.map_map]
  rfl

theorem loaded_groups (run : Run) :
    group ((run.records.flatMap (groupPairs run.jobs)).map fun p => (p.1.point, p.2)) =
      (group (run.records.flatMap (groupPairs run.jobs))).map fun g => (g.1.point, g.2) :=
  group_map point_inj _

theorem scan_eq (h : Completed panel backend c noPrewrite selected orders bench run logs) :
    scanRecords run.jobs logs [] run.records =
      .ok ((run.records.flatMap (groupPairs run.jobs)).map fun p => (p.1.point, p.2)) := by
  have hpairs : ∀ r ∈ run.records,
      recordPairs run.jobs r = .ok ((groupPairs run.jobs r).map fun p => (p.1.point, p.2)) := by
    intro r hr
    obtain ⟨t, ht, job, hjob, hs, rfl⟩ := h.mem_records hr
    have hcheck := h.check ht
    exact recordPairs_eq hjob (h.planned.phases job (List.mem_of_getElem? hjob)) hs rfl
      (checkMeasurement_ok hcheck).2.2 (h.regular t ht) (positive_of_ok hcheck)
  rw [scanRecords_eq_ok]
  refine ⟨fun _ _ => List.not_mem_nil, ?_, ?_, _, mapM_eq_map hpairs, ?_⟩
  · rw [h.records_eq, List.map_map]
    exact h.nodup_ids
  · intro r hr
    obtain ⟨t, ht, -, -, -, rfl⟩ := h.mem_records hr
    exact checkLog_eq_ok.mpr ⟨_, _, h.log_eq ht, h.raw_eq ht, same_refl _⟩
  · rw [← List.flatMap, List.map_flatMap]

theorem pointValues_eq (h : Completed panel backend c noPrewrite selected orders bench run logs)
    {g : GroupKey × List (Nat × ℚ)} (hg : g ∈ group (run.records.flatMap (groupPairs run.jobs))) :
    pointValues (group ((run.records.flatMap (groupPairs run.jobs)).map fun p => (p.1.point, p.2)))
    g.1.columns =
      g.2 := by
  obtain ⟨p, -, hkey⟩ := h.mem_groups hg
  have hop : g.1.op = .text (opOf (p.measurement bench 0)) := by rw [hkey]; rfl
  have hmem : (g.1.point, g.2) ∈
      group ((run.records.flatMap (groupPairs run.jobs)).map fun p => (p.1.point, p.2)) := by
    rw [loaded_groups]
    exact List.mem_map_of_mem hg
  rw [pointValues, columns_text hop, item, lookup_of_mem (collects_group _).nodup hmem]
  rfl

theorem closeNumbers_self (l : List ℚ) : closeNumbers l l = true := by
  induction l with
  | nil => rfl
  | cons q l ih =>
    rw [closeNumbers, ih, Bool.and_true, isclose, decide_eq_true_iff, sub_self, abs_zero]
    exact div_nonneg (le_max_of_le_left (abs_nonneg q)) (by decide)

theorem points_ne_nil (h : Completed panel backend c noPrewrite selected orders bench run logs) :
    points bench run.jobs ≠ [] := by
  obtain ⟨hplanned, hne⟩ := planned_of_ok h.plan
  obtain ⟨job, hjob⟩ := List.exists_mem_of_ne_nil _ hne
  obtain ⟨index, hindex⟩ := List.mem_iff_getElem?.mp hjob
  obtain ⟨step, hs, hp⟩ := hplanned.measured job hjob
  have htask := h.mem_tasks_of_step h.repetitions_ne hindex hs hp
  have hreg := h.regular _ htask hp
  -- A measurement without the logical bandwidth must have the other one.
  have hband : ((measured bench ⟨1, index, step⟩).get "bandwidth_gib_s").isSome := by
    have hlogical := hreg.others "logical_page_bandwidth_gib_s" (by decide) (by decide)
    have hcomplete := (checkMeasurement_ok (h.check htask)).2.1
    rw [not_or, not_and] at hcomplete
    rw [Option.isSome_iff_ne_none]
    intro hnone
    exact hcomplete.2 (by rw [hnone]; rfl) (by rw [hlogical]; rfl)
  have hpoint : (⟨index, job, step, "bandwidth_gib_s"⟩ : Point) ∈ points bench run.jobs := by
    refine List.mem_flatMap.mpr ⟨(job, index), List.mem_zipIdx_iff_getElem?.mpr hindex, ?_⟩
    refine List.mem_flatMap.mpr ⟨step, List.mem_filter.mpr ⟨hs, decide_eq_true hp⟩, ?_⟩
    exact List.mem_map_of_mem (List.mem_filter.mpr ⟨by decide, hband⟩)
  exact List.ne_nil_of_mem hpoint

theorem allRepeats_range (n : Nat) (f : Nat → ℚ) :
    allRepeats n ((List.range n).map fun r => (r+1, f r)) = true := by
  simp only [allRepeats, Bool.and_eq_true, List.all_eq_true, List.mem_map, List.mem_range,
    decide_eq_true_eq]
  constructor
  · rintro _ ⟨r, hr, rfl⟩
    exact ⟨Nat.le_add_left 1 r, hr⟩
  · intro r hr
    exact ⟨(r+1, f r), ⟨r, hr, rfl⟩, rfl⟩

theorem complete (h : Completed panel backend c noPrewrite selected orders bench run logs) :
    ∀ id ∈ plannedIds run, id ∈ run.records.map Record.rid := by
  intro id hid
  obtain ⟨r, hr, hid⟩ := List.mem_flatMap.mp hid
  obtain ⟨⟨job, index⟩, hmem, hid⟩ := List.mem_flatMap.mp hid
  obtain ⟨step, hstep, rfl⟩ := List.mem_map.mp hid
  obtain ⟨hs, hp⟩ := List.mem_filter.mp hstep
  have hjob := List.mem_zipIdx_iff_getElem?.mp hmem
  have htask := h.mem_tasks_of_step (List.mem_range.mp hr) hjob hs (of_decide_eq_true hp)
  rw [h.records_eq, List.map_map]
  exact List.mem_map.mpr ⟨_, htask, rfl⟩

theorem planned_rid (h : Completed panel backend c noPrewrite selected orders bench run logs)
    {r : Record} (hr : r ∈ run.records) (hp : r.phase ≠ "prepare") : r.rid ∈ plannedIds run := by
  obtain ⟨t, ht, job, hjob, hs, rfl⟩ := h.mem_records hr
  obtain ⟨k, hk, hrep, -, -⟩ := mem_tasks ht
  refine List.mem_flatMap.mpr ⟨k, List.mem_range.mpr hk, ?_⟩
  refine List.mem_flatMap.mpr ⟨(job, t.job), List.mem_zipIdx_iff_getElem?.mpr hjob, ?_⟩
  refine List.mem_map.mpr ⟨t.step, List.mem_filter.mpr ⟨hs, decide_eq_true hp⟩, ?_⟩
  rw [← hrep]
  rfl

theorem nodup_rows (h : Completed panel backend c noPrewrite selected orders bench run logs) :
    ((summaryOf run).map Row.key).Nodup := by
  have hpoints : ((points bench run.jobs).map (Point.key bench)).Nodup := nodup_keys h.planned
  have hkeys := hpoints.map fun a b => point_inj a b
  have htext : ((points bench run.jobs).map (Point.row bench run.repetitions)).map
    (List.map Json.text ∘ Row.key) =
      ((points bench run.jobs).map (Point.key bench)).map GroupKey.point := by
    rw [List.map_map, List.map_map]
    apply List.map_congr_left
    intro p _
    have hop : (p.key bench).op = .text (opOf (p.measurement bench 0)) := rfl
    exact columns_text hop
  rw [← htext, ← List.map_map] at hkeys
  exact (h.summary_perm.map Row.key).nodup_iff.mpr hkeys.of_map

theorem summary_ne_nil (h : Completed panel backend c noPrewrite selected orders bench run logs) :
    summaryOf run ≠ [] := by
  intro hnil
  have hperm := h.summary_perm
  rw [hnil, List.nil_perm, List.map_eq_nil_iff] at hperm
  exact h.points_ne_nil hperm

theorem checkPoint_group (h : Completed panel backend c noPrewrite selected orders bench run logs)
    {g : GroupKey × List (Nat × ℚ)} (hg : g ∈ group (run.records.flatMap (groupPairs run.jobs))) :
    checkPoint run.repetitions
    (group ((run.records.flatMap (groupPairs run.jobs)).map fun p => (p.1.point, p.2)))
      (groupRow g) = .ok () := by
  have hvalues : pointValues _ (groupRow g).key = g.2 := h.pointValues_eq hg
  rw [checkPoint_eq_ok, hvalues]
  obtain ⟨p, -, rfl⟩ := h.mem_groups hg
  refine ⟨allRepeats_range _ _, ?_, closeNumbers_self _⟩
  simp [Nat.ne_of_gt h.repetitions_ne]

theorem mem_summary {row : Row} (hrow : row ∈ summaryOf run) :
    ∃ g ∈ group (run.records.flatMap (groupPairs run.jobs)), groupRow g = row := by
  obtain ⟨g, hg, rfl⟩ := List.mem_map.mp hrow
  exact ⟨g, List.mem_mergeSort.mp hg, rfl⟩

theorem recorded (h : Completed panel backend c noPrewrite selected orders bench run logs)
    (source : String) : Recorded ⟨source, run, logs, summaryOf run⟩
      ((run.records.flatMap (groupPairs run.jobs)).map fun p => (p.1.point, p.2)) where
  completed := h.completed
  scan := h.scan_eq
  complete := h.complete
  count := by rw [loaded_groups, summaryOf, List.length_map, List.length_mergeSort, List.length_map]
  keys := h.nodup_rows
  points row hrow := by
    obtain ⟨g, hg, rfl⟩ := mem_summary hrow
    exact h.checkPoint_group hg
  nonempty := h.summary_ne_nil
  planned _ hr hp := h.planned_rid hr hp
  exactRows row hrow := by
    obtain ⟨g, hg, rfl⟩ := mem_summary hrow
    change statistics (g.2.map Prod.snd) = statistics ((pointValues _ g.1.columns).map Prod.snd)
    rw [h.pointValues_eq hg]

end Completed

section Sample
variable {panel : Panel} {backend : Backend} {c : Config} {noPrewrite : Bool} {selected : List Int}
  {jobs : List Job} {n : Nat}

def sampleRow (step : Step) (seconds : Json) : Dict :=
  ⟨[("seconds", seconds), ("op", .text "write"), ("bytes", .num step.expectedBytes),
    ("bandwidth_gib_s", .num 2)]⟩

def sampleBench (t : Task) : Nat × List Line := (0, [.json (sampleRow t.step (.num 1))])

def sampleTasks (c : Config) (panel : Panel) (noPrewrite : Bool) (jobs : List Job) (n : Nat) :
    List Task :=
  tasks (reuseReads c panel noPrewrite) jobs n fun _ => List.range jobs.length

def sampleRun (c : Config) (panel : Panel) (backend : Backend) (noPrewrite : Bool) (jobs : List Job)
    (n : Nat) : Run where
  completed := true
  panel := panelName panel
  backend := backendName backend
  config := ⟨[("repetitions", .num n)]⟩
  binarySha256 := ⟨[]⟩
  repetitions := n
  jobs := jobs
  records := (sampleTasks c panel noPrewrite jobs n).flatMap (taskRecords sampleBench)

def sampleLogs (c : Config) (panel : Panel) (noPrewrite : Bool) (jobs : List Job) (n : Nat) :
    Files :=
  (sampleTasks c panel noPrewrite jobs n).foldl (writeLog sampleBench) fun _ => none

theorem sample_ran (c : Config) (t : Task) : Ran c sampleBench t where
  exit := rfl
  rows := by
    intro row hrow
    obtain rfl := List.mem_singleton.mp hrow
    simp [checkMeasurement, checkBuild, checkedKeys, checkNumber, sampleRow, Dict.get, lookup_cons,
      Json.number, Json.plain, bind, Except.bind, pure, Except.pure]
  nonempty := List.cons_ne_nil _ _

theorem sample_regular (step : Step) : Regular (sampleRow step (.num 1)) where
  op := ⟨"write", rfl⟩
  numbers := by
    intro metric hm v hv
    simp only [metrics, List.mem_cons, List.not_mem_nil, or_false] at hm
    rcases hm with rfl | rfl | rfl
    · exact ⟨2, (Option.some.inj hv).symm⟩
    · cases hv
    · cases hv
  others := by
    intro metric hm hne
    simp only [aggregateMetrics, List.mem_cons, List.not_mem_nil, or_false] at hm
    rcases hm with rfl | rfl | rfl | rfl | rfl | rfl
    · exact absurd (by decide) hne
    · rfl
    · rfl
    · rfl
    · rfl
    · rfl

theorem sample_completed (hc : Planner.loadConfig c = .ok ())
    (hplan : Planner.makePlan panel backend c noPrewrite selected = .ok jobs)
    (hn : c .repetitions = some (.int n)) :
    Completed panel backend c noPrewrite selected (fun _ => List.range jobs.length) sampleBench
      (sampleRun c panel backend noPrewrite jobs n) (sampleLogs c panel noPrewrite jobs n) where
  config := hc
  plan := hplan
  repetitions := hn
  shuffled _ _ := List.Perm.refl _
  executed := runTasks_eq_ok.mpr ⟨fun t _ => sample_ran c t, rfl⟩
  completed := rfl
  single _ _ := rfl
  regular t _ _ := sample_regular t.step
  steady _ _ _ _ _ _ _ := ⟨rfl, rfl⟩

theorem sample_same (step : Step) :
    (sampleRow step (.bool true)).same (sampleRow step (.num 1)) = true := by
  rw [same_iff]
  intro k
  simp only [sampleRow, Dict.get, lookup_cons]
  by_cases hk : k = "seconds"
  · rw [if_pos hk, if_pos hk]
    rfl
  · rw [if_neg hk, if_neg hk]

end Sample

theorem fig3_plan :
    ∃ jobs, Planner.makePlan .fig3 .shaperio Planner.fig3Config false [1] = .ok jobs := by
  have hok :
    (Planner.makePlan .fig3 .shaperio Planner.fig3Config false [1]).toOption.isSome = true := by
    decide +kernel
  cases hplan : Planner.makePlan .fig3 .shaperio Planner.fig3Config false [1] with
  | error e =>
    rw [hplan] at hok
    cases hok
  | ok jobs => exact ⟨jobs, rfl⟩

/-- `aggregate` and `load_runs` agree on a completed run, and `load_runs` finds every single
alteration of it. -/
theorem completed_run_verified {panel : Panel} {backend : Backend} {c : Config} {noPrewrite : Bool}
    {selected : List Int} {orders : Nat → List Nat} {bench : Task → Nat × List Line} {run : Run}
    {logs : Files}
    (h : Completed panel backend c noPrewrite selected orders bench run logs) (source : String) :
    ∃ summary, aggregate run = .ok summary ∧
      summary.Perm ((points bench run.jobs).map (Point.row bench run.repetitions)) ∧
      loadRuns [⟨source, run, logs, summary⟩] = .ok (summary.map (·, source)) ∧
      ∀ dir, Altered ⟨source, run, logs, summary⟩ dir → ∃ e, loadRuns [dir] = .error e := by
  have hrecorded := h.recorded source
  refine ⟨Completed.summaryOf run, h.aggregate_eq, h.summary_perm, ?_,
    fun dir ha => hrecorded.raises ha⟩
  exact loadRuns_single.mpr ⟨⟨_, hrecorded.toVerified⟩, rfl⟩

theorem fig3_run_verified : ∃ jobs summary,
    Planner.makePlan .fig3 .shaperio Planner.fig3Config false [1] = .ok jobs ∧
    aggregate (sampleRun Planner.fig3Config .fig3 .shaperio false jobs 1) = .ok summary ∧
    summary.Perm ((points sampleBench jobs).map (Point.row sampleBench 1)) ∧
    loadRuns [⟨"fig3", sampleRun Planner.fig3Config .fig3 .shaperio false jobs 1,
      sampleLogs Planner.fig3Config .fig3 false jobs 1, summary⟩] = .ok (summary.map (·, "fig3")) ∧
    ∀ dir, Altered ⟨"fig3", sampleRun Planner.fig3Config .fig3 .shaperio false jobs 1,
      sampleLogs Planner.fig3Config .fig3 false jobs 1, summary⟩ dir →
      ∃ e, loadRuns [dir] = .error e := by
  obtain ⟨jobs, hplan⟩ := fig3_plan
  have hload : Planner.loadConfig Planner.fig3Config = .ok () := by decide +kernel
  obtain ⟨summary, h⟩ := completed_run_verified (sample_completed (n := 1) hload hplan rfl) "fig3"
  exact ⟨jobs, summary, hplan, h⟩

/-- A field of a log line that changes from 1 to `true` goes unnoticed. -/
theorem true_for_one_unnoticed :
    ¬ ∀ (panel : Panel) (backend : Backend) (c : Config) (noPrewrite : Bool)
    (selected : List Int) (orders : Nat → List Nat) (bench : Task → Nat × List Line) (run : Run)
    (logs : Files)
    (summary : List Row), Completed panel backend c noPrewrite selected orders bench run logs →
    aggregate run = .ok summary →
    ∀ r ∈ run.records, ∀ (before after : List Line) (d d' : Dict) (k : String),
      logs r.log = some (before ++ .json d :: after) → d'.get k ≠ d.get k →
      ∃ e, loadRuns
      [⟨"run", run, update logs r.log (some (before ++ .json d' :: after)), summary⟩] =
      .error e := by
  intro hclaim
  obtain ⟨jobs, hplan⟩ := fig3_plan
  have hload : Planner.loadConfig Planner.fig3Config = .ok () := by decide +kernel
  have h := sample_completed (n := 1) hload hplan rfl
  obtain ⟨hplanned, hne⟩ := planned_of_ok hplan
  obtain ⟨job, hjob⟩ := List.exists_mem_of_ne_nil _ hne
  obtain ⟨index, hindex⟩ := List.mem_iff_getElem?.mp hjob
  obtain ⟨step, hs, hp⟩ := hplanned.measured job hjob
  have htask := h.mem_tasks_of_step Nat.one_pos hindex hs hp
  have hrecord : record sampleBench ⟨0+1, index, step⟩ ∈
      (sampleRun Planner.fig3Config .fig3 .shaperio false jobs 1).records := by
    rw [h.records_eq]
    exact List.mem_map_of_mem htask
  have hlog :
    sampleLogs Planner.fig3Config .fig3 false jobs 1 (record sampleBench ⟨0+1, index, step⟩).log =
      some ([] ++ .json (sampleRow step (.num 1)) :: []) := h.log_eq htask
  have hchanged :
    (sampleRow step (.bool true)).get "seconds" ≠ (sampleRow step (.num 1)).get "seconds" := by
    intro heq
    cases Option.some.inj heq
  obtain ⟨e, he⟩ := hclaim _ _ _ _ _ _ _ _ _ _ h h.aggregate_eq _ hrecord [] [] _ _ _ hlog hchanged
  have hverified := (h.recorded "run").toVerified.equal_line hlog (sample_same step)
  rw [loadRuns_single.mpr ⟨⟨_, hverified⟩, rfl⟩] at he
  cases he

end Shaper.Measurements
