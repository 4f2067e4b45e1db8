import Mathlib.Algebra.Order.Ring.Rat
import Mathlib.Algebra.Order.Group.Unbundled.Abs
import Shaper.Lib.Decimal
import Shaper.Lib.Grouping
import Shaper.Planner

/-! The records of an experiment: `execute` runs the steps of a plan and keeps what they print,
`aggregate` condenses the records of a completed run to the rows of its summary. -/
namespace Shaper.Measurements
open Function Lib.Grouping
open Planner (Config Job Step Panel Backend)

inductive Json where
  | null
  | bool (b : Bool)
  | num (q : ℚ)
  | text (s : String)
  | nested (i : Nat)
  deriving DecidableEq

namespace Json
def plain : Json → Json
  | .bool b => .num (if b then 1 else 0)
  | v => v

def number : Json → Option ℚ
  | .num q => some q
  | .bool b => some (if b then 1 else 0)
  | _ => none

def csv : Json → String
  | .null => ""
  | .bool b => if b then "True" else "False"
  | .num q => toString q
  | .text s => s
  | .nested i => toString i

def ofValue : Planner.Value → Json
  | .null => .null
  | .bool b => .bool b
  | .int n => .num n
  | .text s => .text s
  | .other empty => .nested (if empty then 0 else 1)
end Json

structure Dict where
  fields : List (String × Json)
  deriving DecidableEq

inductive Raised where
  | submitMode
  | kneeLimit
  | invalid (log key : String)
  | incomplete (log : String)
  | byteCount (log : String)
  | exitStatus (log : String)
  | missingJson (log : String)
  | notCompleted
  | repetition (key : List String)
  | duplicateMeasurement (rep job : Nat) (phase : String)
  | rawLogMismatch (log : String)
  | planBytes
  | invalidMetric (metric : String)
  | missingMeasurement (rep job : Nat) (phase : String)
  | rowCount
  | duplicatePoint (key : List String)
  | missingRepetition (key : List String)
  | valuesDiffer (key : List String)
  | inconsistent
  | noSummaries
  | keyError (key : String)
  | indexError
  | stopIteration
  | typeError
  | noFile (name : String)
  | noData

namespace Dict
def get (d : Dict) (k : String) : Option Json := d.fields.lookup k

def item (d : Dict) (k : String) : Except Raised Json :=
  match d.get k with
  | some v => .ok v
  | none => .error (.keyError k)

def hashed (d : Dict) (k : String) : Except Raised Json := do
  match ← d.item k with
  | .nested _ => throw .typeError
  | v => return v.plain

def same (a b : Dict) : Bool :=
  (a.fields ++ b.fields).all fun f => (a.get f.1).map Json.plain = (b.get f.1).map Json.plain
end Dict

inductive Line where
  | other (s : String)
  | json (d : Dict)
  deriving DecidableEq

def Line.measurement : Line → Option Dict
  | .other _ => none
  | .json d => some d

def raw (lines : List Line) : List Dict := lines.filterMap Line.measurement

abbrev Files := String → Option (List Line)

structure Record where
  rep : Nat
  job : Nat
  phase : String
  log : String
  measurement : Dict
  deriving DecidableEq

def checkedKeys : List String :=
  ["bandwidth_gib_s", "logical_page_bandwidth_gib_s", "seconds", "p50_us", "p99_us"]

def checkNumber (log : String) (row : Dict) (key : String) : Except Raised Unit :=
  match row.get key with
  | none => .ok ()
  | some v =>
    match v.number with
    | some q => if 0 < q then .ok () else .error (.invalid log key)
    | none => .error (.invalid log key)

def checkBuild (c : Config) (row : Dict) : Except Raised Unit :=
  if row.get "backend" = some (.text "shaperio") ∧ row.get "op" = some (.text "write") then
    if ((row.get "write_submit_mode").getD (.text "batch")).plain ≠
        (Json.ofValue (c.get .writeSubmitMode (.text "batch"))).plain then .error .submitMode
    else if ((row.get "knee_limit").getD .null).plain ≠
      (Json.ofValue (c.get .kneeLimit (.int 32))).plain then
      .error .kneeLimit
    else .ok ()
  else .ok ()

def checkMeasurement (c : Config) (log : String) (step : Step) (row : Dict) :
    Except Raised Unit := do
  checkBuild c row
  checkedKeys.forM (checkNumber log row)
  if (row.get "seconds").isNone ∨
      (row.get "bandwidth_gib_s").isNone ∧ (row.get "logical_page_bandwidth_gib_s").isNone then
    throw (.incomplete log)
  if ((row.get "bytes").getD .null).plain ≠ .num step.expectedBytes then throw (.byteCount log)

structure Task where
  rep : Nat
  job : Nat
  step : Step

def logName (rep job : Nat) (phase : String) : String :=
  String.ofList (Lib.Decimal.padded 2 rep ++
    '-' :: (Lib.Decimal.padded 3 job ++ '-' :: (phase.toList ++ ".log".toList)))

def Task.log (t : Task) : String := logName t.rep t.job t.step.phase

def stepsOf (jobs : List Job) (index : Nat) : List Step := ((jobs[index]?).map (·.steps)).getD []

def repeatTasks (reuse : Bool) (jobs : List Job) (rep : Nat) : Bool → List Nat → List Task
  | _, [] => []
  | prepared, index :: order =>
    ((stepsOf jobs index).filter fun step => step.phase ≠ "prepare" ∨ !reuse ∨
      !prepared).map (⟨rep, index, ·⟩) ++
      repeatTasks reuse jobs rep true order

def tasks (reuse : Bool) (jobs : List Job) (repetitions : Nat) (orders : Nat → List Nat) :
    List Task :=
  (List.range repetitions).flatMap fun r => repeatTasks reuse jobs (r+1) false (orders r)

section Execute
variable (c : Config) (bench : Task → Nat × List Line)

def taskRecords (t : Task) : List Record :=
  (raw (bench t).2).map fun row => ⟨t.rep, t.job, t.step.phase, t.log, row⟩

def runTask (acc : List Record × Files) (t : Task) : Except Raised (List Record × Files) := do
  if (bench t).1 ≠ 0 then throw (.exitStatus t.log)
  (raw (bench t).2).forM (checkMeasurement c t.log t.step)
  if raw (bench t).2 = [] then throw (.missingJson t.log)
  return (acc.1 ++ taskRecords bench t, update acc.2 t.log (some (bench t).2))

def reuseReads (panel : Panel) (noPrewrite : Bool) : Bool :=
  (c.get .reusePreparedReads (.bool false)).truthy && !noPrewrite && panel = .fig1c

def execute (panel : Panel) (noPrewrite : Bool) (jobs : List Job) (repetitions : Nat)
    (orders : Nat → List Nat) : Except Raised (List Record × Files) :=
  (tasks (reuseReads c panel noPrewrite) jobs repetitions orders).foldlM (runTask c bench) ([],
    fun _ => none)

end Execute

def panelName : Panel → String
  | .fig1a => "fig1a"
  | .fig1b => "fig1b"
  | .fig1c => "fig1c"
  | .fig3 => "fig3"

def backendName : Backend → String
  | .bam => "bam"
  | .gds => "gds"
  | .shaperio => "shaperio"

structure GroupKey where
  panel : String
  backend : String
  x : Int
  condition : String
  phase : String
  op : Json
  metric : String
  deriving DecidableEq

namespace GroupKey
def columns (k : GroupKey) : List String :=
  [k.panel, k.backend, k.x.repr, k.condition, k.phase, k.op.csv, k.metric]

def le (a b : GroupKey) : Bool :=
  if a.panel ≠ b.panel then a.panel < b.panel
  else if a.backend ≠ b.backend then a.backend < b.backend
  else if a.x ≠ b.x then a.x < b.x
  else if a.condition ≠ b.condition then a.condition < b.condition
  else if a.phase ≠ b.phase then a.phase < b.phase
  else if a.op.csv ≠ b.op.csv then a.op.csv < b.op.csv
  else a.metric ≤ b.metric
end GroupKey

def aggregateMetrics : List String :=
  ["bandwidth_gib_s", "logical_page_bandwidth_gib_s", "p50_us", "p99_us",
    "ssd_read_bandwidth_gib_s", "ssd_write_bandwidth_gib_s"]

def groupKey (job : Job) (phase : String) (op : Json) (metric : String) : GroupKey :=
  ⟨panelName job.panel, backendName job.backend, job.x, job.condition, phase, op, metric⟩

def metricPairs (job : Job) (r : Record) (metric : String) :
    Except Raised (List (GroupKey × (Nat × ℚ))) :=
  match r.measurement.get metric with
  | none => .ok []
  | some v => do
    let op ← r.measurement.hashed "op"
    match v.number with
    | some q => return [(groupKey job r.phase op metric, (r.rep, q))]
    | none => throw .typeError

def aggregatePairs (jobs : List Job) (r : Record) : Except Raised (List (GroupKey × (Nat × ℚ))) :=
  if r.phase = "prepare" then .ok []
  else
    match jobs[r.job]? with
    | none => .error .indexError
    | some job => do
      let found ← aggregateMetrics.mapM (metricPairs job r)
      return found.flatten

def median (vs : List ℚ) : ℚ :=
  let sorted := vs.mergeSort fun a b => decide (a ≤ b)
  let n := sorted.length
  if n%2 = 1 then sorted.getD (n/2) 0 else (sorted.getD (n/2-1) 0 + sorted.getD (n/2) 0)/2

def statistics (vs : List ℚ) : List ℚ := [vs.length, median vs, vs.min?.getD 0, vs.max?.getD 0]

structure Row where
  key : List String
  numbers : List ℚ
  deriving DecidableEq

structure Run where
  completed : Bool
  panel : String
  backend : String
  config : Dict
  binarySha256 : Dict
  repetitions : Nat
  jobs : List Job
  records : List Record

def groupRow (g : GroupKey × List (Nat × ℚ)) : Row := ⟨g.1.columns, statistics (g.2.map Prod.snd)⟩

def aggregate (run : Run) : Except Raised (List Row) := do
  if !run.completed then throw .notCompleted
  let pairs ← run.records.mapM (aggregatePairs run.jobs)
  let groups := group pairs.flatten
  groups.forM fun g =>
    if g.2.length = run.repetitions ∧ (g.2.map Prod.fst).Nodup then .ok ()
      else .error (.repetition g.1.columns)
  return (groups.mergeSort fun a b => a.1.le b.1).map groupRow

end Shaper.Measurements
