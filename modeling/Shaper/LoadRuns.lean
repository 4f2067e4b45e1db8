import Shaper.Measurements
import Shaper.PlanAccepted

/-! The reader of completed runs: it accepts a summary only if the records, the logs and the
plan of the run give the same rows. -/
namespace Shaper.Measurements
open Function Lib.Grouping Lib.Raises
open Planner (Job Step)

def metrics : List String := ["bandwidth_gib_s", "p50_us", "p99_us"]

structure RunDir where
  source : String
  run : Run
  logs : Files
  summary : List Row

abbrev PointKey := List Json

def pointKey (job : Job) (phase : String) (op : Json) (metric : String) : PointKey :=
  [.text (panelName job.panel), .text (backendName job.backend), .text job.x.repr,
    .text job.condition, .text phase, op, .text metric]

abbrev RecordId := Nat × Nat × String

def Record.rid (r : Record) : RecordId := (r.rep, r.job, r.phase)

def matchesRaw (lines : List Line) (measurement : Dict) : Bool :=
  match raw lines with
  | [row] => row.same measurement
  | _ => false

def pointPairs (job : Job) (r : Record) (metric : String) :
    Except Raised (List (PointKey × (Nat × ℚ))) :=
  match r.measurement.get metric with
  | none => .ok []
  | some v =>
    match v.number with
    | none => .error .typeError
    | some q =>
      if q ≤ 0 then .error (.invalidMetric metric)
      else do
        let op ← r.measurement.hashed "op"
        return [(pointKey job r.phase op metric, (r.rep, q))]

def checkBytes (step : Step) (measurement : Dict) : Except Raised Unit := do
  let bytes ← measurement.item "bytes"
  if bytes.plain = .num step.expectedBytes then return () else throw .planBytes

def recordPairs (jobs : List Job) (r : Record) : Except Raised (List (PointKey × (Nat × ℚ))) :=
  if r.phase = "prepare" then .ok []
  else
    match jobs[r.job]? with
    | none => .error .indexError
    | some job =>
      match job.steps.find? (·.phase = r.phase) with
      | none => .error .stopIteration
      | some step => do
        checkBytes step r.measurement
        let found ← metrics.mapM (pointPairs job r)
        return found.flatten

def checkLog (logs : Files) (r : Record) : Except Raised Unit :=
  match logs r.log with
  | none => .error (.noFile r.log)
  | some lines => if matchesRaw lines r.measurement then .ok () else .error (.rawLogMismatch r.log)

def scanRecords (jobs : List Job) (logs : Files) :
    List RecordId → List Record → Except Raised (List (PointKey × (Nat × ℚ)))
  | _, [] => .ok []
  | ids, r :: records => do
    if r.rid ∈ ids then throw (.duplicateMeasurement r.rep r.job r.phase)
    checkLog logs r
    let pairs ← recordPairs jobs r
    let rest ← scanRecords jobs logs (r.rid :: ids) records
    return pairs ++ rest

def plannedIds (run : Run) : List RecordId :=
  (List.range run.repetitions).flatMap fun r => run.jobs.zipIdx.flatMap fun job =>
    (job.1.steps.filter fun step => step.phase ≠ "prepare").map fun step => (r+1, job.2, step.phase)

def checkComplete (run : Run) : Except Raised Unit :=
  (plannedIds run).forM fun id =>
    if id ∈ run.records.map Record.rid then .ok ()
      else .error (.missingMeasurement id.1 id.2.1 id.2.2)

def isclose (a b : ℚ) : Bool := |a-b| ≤ max |a| |b|/10^12

def closeNumbers : List ℚ → List ℚ → Bool
  | [], [] => true
  | a :: as, b :: bs => isclose a b && closeNumbers as bs
  | _, _ => false

def allRepeats (n : Nat) (pairs : List (Nat × ℚ)) : Bool :=
  pairs.all (fun p => 1 ≤ p.1 ∧ p.1 ≤ n) && (List.range n).all fun r => r+1 ∈ pairs.map Prod.fst

def checkPoint (n : Nat) (groups : List (PointKey × List (Nat × ℚ))) (row : Row) :
    Except Raised Unit := do
  let pairs := item groups (row.key.map .text)
  if !allRepeats n pairs then throw (.missingRepetition row.key)
  if pairs = [] then throw .noData
  if closeNumbers row.numbers (statistics (pairs.map Prod.snd)) then return ()
  else throw (.valuesDiffer row.key)

def scanRows (n : Nat) (groups : List (PointKey × List (Nat × ℚ))) :
    List (List String) → List Row → Except Raised (List (List String))
  | seen, [] => .ok seen
  | seen, row :: rows => do
    if row.key ∈ seen then throw (.duplicatePoint row.key)
    checkPoint n groups row
    scanRows n groups (row.key :: seen) rows

def loadRun (seen : List (List String)) (dir : RunDir) : Except Raised (List (List String)) := do
  let pairs ← scanRecords dir.run.jobs dir.logs [] dir.run.records
  checkComplete dir.run
  if dir.summary.length ≠ (group pairs).length then throw .rowCount
  scanRows dir.run.repetitions (group pairs) seen dir.summary

structure Method where
  config : Dict
  binarySha256 : Dict

def Run.method (run : Run) : Method :=
  ⟨⟨run.config.fields.filter (·.1 ≠ "state_protocol")⟩, run.binarySha256⟩

def Method.same (a b : Method) : Bool :=
  a.config.same b.config && a.binarySha256.same b.binarySha256

def loadDirs : List ((String × String) × Method) → List (List String) → List RunDir →
    Except Raised (List (Row × String))
  | _, _, [] => .ok []
  | methods, seen, dir :: dirs => do
    if !dir.run.completed then throw .notCompleted
    let identity := (dir.run.panel, dir.run.backend)
    match methods.lookup identity with
    | some method => if !dir.run.method.same method then throw .inconsistent
    | none => pure ()
    let seen ← loadRun seen dir
    let rest ← loadDirs ((identity, dir.run.method) :: methods) seen dirs
    return dir.summary.map (·, dir.source) ++ rest

def loadRuns (dirs : List RunDir) : Except Raised (List (Row × String)) := do
  let rows ← loadDirs [] [] dirs
  if rows = [] then throw .noSummaries
  return rows

section Scans
variable {jobs : List Job} {logs : Files} {records : List Record} {n : Nat}
  {groups : List (PointKey × List (Nat × ℚ))} {rows : List Row}

theorem scanRecords_eq_ok {ids : List RecordId} {pairs : List (PointKey × (Nat × ℚ))} :
    scanRecords jobs logs ids records = .ok pairs ↔
      (∀ r ∈ records, r.rid ∉ ids) ∧ (records.map Record.rid).Nodup ∧
      (∀ r ∈ records, checkLog logs r = .ok ()) ∧
        ∃ found, records.mapM (recordPairs jobs) = .ok found ∧ found.flatten = pairs := by
  induction records generalizing ids pairs with
  | nil =>
    simp [scanRecords, pure, Except.pure]
  | cons r records ih =>
    rw [scanRecords]
    simp only [guard_ok, bind_eq_ok, ih, List.mapM_cons, List.forall_mem_cons, List.map_cons,
      List.nodup_cons, List.mem_cons (a := Record.rid _), not_or, List.mem_map, not_exists, not_and]
    constructor
    · rintro ⟨hr, ⟨⟩, hlog, ps, hps, rest, ⟨hids, hn, hlogs, found, hfound, rfl⟩, hpairs⟩
      refine ⟨⟨hr, fun q hq => (hids q hq).2⟩, ⟨fun q hq => (hids q hq).1, hn⟩, ⟨hlog, hlogs⟩,
        ps :: found, ⟨ps, hps, found, hfound, rfl⟩, Except.ok.inj hpairs⟩
    · rintro ⟨⟨hr, hids⟩, ⟨hne, hn⟩, ⟨hlog, hlogs⟩, _, ⟨ps, hps, found, hfound, hcons⟩, rfl⟩
      obtain rfl := Except.ok.inj hcons
      exact ⟨hr, (), hlog, ps, hps, found.flatten,
        ⟨fun q hq => ⟨hne q hq, hids q hq⟩, hn, hlogs, found, hfound, rfl⟩, rfl⟩

theorem scanRows_eq_ok {seen : List (List String)} :
    (∃ seen', scanRows n groups seen rows = .ok seen') ↔
      (∀ row ∈ rows, row.key ∉ seen) ∧ (rows.map Row.key).Nodup ∧
      ∀ row ∈ rows, checkPoint n groups row = .ok () := by
  induction rows generalizing seen with
  | nil => simp [scanRows]
  | cons row rows ih =>
    rw [scanRows]
    simp only [guard_ok, bind_eq_ok, List.forall_mem_cons, List.map_cons, List.nodup_cons]
    constructor
    · rintro ⟨seen', hrow, ⟨⟩, hpoint, hrest⟩
      obtain ⟨hseen, hn, hpoints⟩ := ih.mp ⟨seen', hrest⟩
      refine ⟨⟨hrow, fun q hq hs => hseen q hq (List.mem_cons_of_mem _ hs)⟩, ⟨fun hm => ?_, hn⟩,
        hpoint, hpoints⟩
      obtain ⟨q, hq, hkey⟩ := List.mem_map.mp hm
      exact hseen q hq (hkey ▸ List.mem_cons_self)
    · rintro ⟨⟨hrow, hseen⟩, ⟨hne, hn⟩, hpoint, hpoints⟩
      have hseen' : ∀ q ∈ rows, q.key ∉ row.key :: seen := by
        intro q hq hs
        rcases List.mem_cons.mp hs with hkey | hs
        · exact hne (hkey ▸ List.mem_map_of_mem hq)
        · exact hseen q hq hs
      obtain ⟨seen', h⟩ := ih.mpr ⟨hseen', hn, hpoints⟩
      exact ⟨seen', hrow, (), hpoint, h⟩

def pointValues (groups : List (PointKey × List (Nat × ℚ))) (key : List String) : List (Nat × ℚ) :=
  item groups (key.map .text)

theorem checkPoint_eq_ok {row : Row} :
    checkPoint n groups row = .ok () ↔ allRepeats n (pointValues groups row.key) = true ∧
      pointValues groups row.key ≠ [] ∧
      closeNumbers row.numbers (statistics ((pointValues groups row.key).map Prod.snd)) = true := by
  change (if _ then throw _ >>= _ else if _ then throw _ >>= _ else if _ then Except.ok ()
    else .error _) = _ ↔ _
  rw [guard_ok, guard_ok, final_ok, Bool.not_eq_true, Bool.not_eq_false']
  rfl

end Scans

/-- What `load_runs` has checked of a directory; `pairs` are the measurements of its records. -/
structure Verified (dir : RunDir) (pairs : List (PointKey × (Nat × ℚ))) : Prop where
  completed : dir.run.completed = true
  scan : scanRecords dir.run.jobs dir.logs [] dir.run.records = .ok pairs
  complete : ∀ id ∈ plannedIds dir.run, id ∈ dir.run.records.map Record.rid
  count : dir.summary.length = (group pairs).length
  keys : (dir.summary.map Row.key).Nodup
  points : ∀ row ∈ dir.summary, checkPoint dir.run.repetitions (group pairs) row = .ok ()
  nonempty : dir.summary ≠ []

theorem checkComplete_eq_ok {run : Run} :
    checkComplete run = .ok () ↔ ∀ id ∈ plannedIds run, id ∈ run.records.map Record.rid := by
  unfold checkComplete
  simp only [forM_eq_ok, final_ok]

theorem loadRun_eq_ok {dir : RunDir} :
    (∃ seen, loadRun [] dir = .ok seen) ↔
      ∃ pairs, scanRecords dir.run.jobs dir.logs [] dir.run.records = .ok pairs ∧
        (∀ id ∈ plannedIds dir.run, id ∈ dir.run.records.map Record.rid) ∧
        dir.summary.length = (group pairs).length ∧ (dir.summary.map Row.key).Nodup ∧
        ∀ row ∈ dir.summary, checkPoint dir.run.repetitions (group pairs) row = .ok () := by
  unfold loadRun
  simp only [bind_eq_ok, guard_ok, ne_eq, not_not]
  constructor
  · rintro ⟨seen, pairs, hscan, ⟨⟩, hcomplete, hcount, hrows⟩
    obtain ⟨-, hkeys, hpoints⟩ := scanRows_eq_ok.mp ⟨seen, hrows⟩
    exact ⟨pairs, hscan, checkComplete_eq_ok.mp hcomplete, hcount, hkeys, hpoints⟩
  · rintro ⟨pairs, hscan, hcomplete, hcount, hkeys, hpoints⟩
    obtain ⟨seen, hrows⟩ := scanRows_eq_ok.mpr ⟨fun _ _ => List.not_mem_nil, hkeys, hpoints⟩
    exact ⟨seen, pairs, hscan, (), checkComplete_eq_ok.mpr hcomplete, hcount, hrows⟩

theorem loadRuns_single {dir : RunDir} {rows : List (Row × String)} :
    loadRuns [dir] = .ok rows ↔ (∃ pairs, Verified dir pairs) ∧
    rows = dir.summary.map (·, dir.source) := by
  have hrun : ∀ seen, loadRun [] dir = .ok seen → loadRuns [dir] =
      if !dir.run.completed then .error .notCompleted
      else if dir.summary.map (·, dir.source) = [] then .error .noSummaries
      else .ok (dir.summary.map (·, dir.source)) := by
    intro seen hseen
    cases hc : dir.run.completed with
    | false =>
      simp [loadRuns, loadDirs, hc, bind, Except.bind, throw, throwThe, MonadExceptOf.throw]
    | true =>
      simp [loadRuns, loadDirs, hc, hseen, bind, Except.bind, throw, throwThe, MonadExceptOf.throw,
        pure, Except.pure]
  constructor
  · intro h
    have hex : ∃ seen, loadRun [] dir = .ok seen := by
      unfold loadRuns at h
      obtain ⟨all, hall, -⟩ := bind_eq_ok.mp h
      rw [loadDirs, guard_ok] at hall
      obtain ⟨seen, hseen, -⟩ := bind_eq_ok.mp hall.2
      exact ⟨seen, hseen⟩
    obtain ⟨seen, hseen⟩ := hex
    rw [hrun seen hseen] at h
    cases hc : dir.run.completed with
    | false => simp [hc] at h
    | true =>
      by_cases hs : dir.summary = []
      · simp [hc, hs] at h
      · simp only [hc, Bool.not_true, Bool.false_eq_true, if_false, List.map_eq_nil_iff, hs,
          Except.ok.injEq] at h
        obtain ⟨pairs, hscan, hcomplete, hcount, hkeys, hpoints⟩ := loadRun_eq_ok.mp ⟨seen, hseen⟩
        exact ⟨⟨pairs, hc, hscan, hcomplete, hcount, hkeys, hpoints, hs⟩, h.symm⟩
  · rintro ⟨⟨pairs, h⟩, rfl⟩
    obtain ⟨seen, hseen⟩ := loadRun_eq_ok.mpr ⟨pairs, h.scan, h.complete, h.count, h.keys, h.points⟩
    rw [hrun seen hseen, h.completed]
    simp [h.nonempty]

end Shaper.Measurements
