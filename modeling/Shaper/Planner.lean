import Mathlib.Data.Int.Bitwise
import Shaper.WorkloadChecks

/-! The planner of the experiments: the configurations it accepts, and the jobs it makes of
them as argument lists for the benchmark programs. -/
namespace Shaper.Planner

inductive Key where
  | namespaceId | queues | queueDepth | totalBytes | bufferBytes | shaperioWindow | ringEntries
  | repetitions | timeoutSeconds | shaperioWriteWindow | writeSubmitMode | kneeLimit
  | readIoBytes | writeIoBytes | readTilePages | writeTilePages | reusePreparedReads
  | workerOrder | postwritePerThreadBytes | postwriteMaxBatches
  | gpu | seed | controller | gdsFile | gdsOffsetBytes | offsetBytes
  deriving DecidableEq

def Key.name : Key → String
  | .namespaceId => "namespace_id"
  | .queues => "queues"
  | .queueDepth => "queue_depth"
  | .totalBytes => "total_bytes"
  | .bufferBytes => "buffer_bytes"
  | .shaperioWindow => "shaperio_window"
  | .ringEntries => "ring_entries"
  | .repetitions => "repetitions"
  | .timeoutSeconds => "timeout_seconds"
  | .shaperioWriteWindow => "shaperio_write_window"
  | .writeSubmitMode => "write_submit_mode"
  | .kneeLimit => "knee_limit"
  | .readIoBytes => "read_io_bytes"
  | .writeIoBytes => "write_io_bytes"
  | .readTilePages => "read_tile_pages"
  | .writeTilePages => "write_tile_pages"
  | .reusePreparedReads => "reuse_prepared_reads"
  | .workerOrder => "worker_order"
  | .postwritePerThreadBytes => "postwrite_per_thread_bytes"
  | .postwriteMaxBatches => "postwrite_max_batches"
  | .gpu => "gpu"
  | .seed => "seed"
  | .controller => "controller"
  | .gdsFile => "gds_file"
  | .gdsOffsetBytes => "gds_offset_bytes"
  | .offsetBytes => "offset_bytes"

inductive Value where
  | null
  | bool (b : Bool)
  | int (n : Int)
  | text (s : String)
  | other (empty : Bool)
  deriving DecidableEq

namespace Value
def truthy : Value → Bool
  | .null => false
  | .bool b => b
  | .int n => n ≠ 0
  | .text s => s ≠ ""
  | .other empty => !empty

def isPositive : Value → Bool
  | .int n => 0 < n
  | _ => false

def isWithin (low high : Int) : Value → Bool
  | .int n => low ≤ n ∧ n ≤ high
  | _ => false

def isTile : Value → Bool
  | .int n => 0 ≤ n ∧ (n = 0 ∨ n.land (n-1) = 0)
  | _ => false

def isBool : Value → Bool
  | .bool _ => true
  | _ => false

def isPerThread (io : Int) : Value → Bool
  | .int n => n%io = 0 ∧ n.land (n-1) = 0
  | _ => false
end Value

inductive Raised where
  | value (message : String)
  | type
  | key (key : Key)
  deriving DecidableEq

abbrev Config := Key → Option Value

def require (cond : Prop) [Decidable cond] (message : String) : Except Raised Unit :=
  if cond then .ok () else .error (.value message)

def Value.number : Value → Except Raised Int
  | .int n => .ok n
  | .bool b => .ok (if b then 1 else 0)
  | _ => .error .type

namespace Config
variable (c : Config)

def get (key : Key) (fallback : Value) : Value := (c key).getD fallback

def item (key : Key) : Except Raised Value :=
  match c key with
  | some v => .ok v
  | none => .error (.key key)

def number (key : Key) : Except Raised Int := do
  let v ← c.item key
  v.number
end Config

def positiveKeys : List Key :=
  [.namespaceId, .queues, .queueDepth, .totalBytes, .bufferBytes, .shaperioWindow, .ringEntries,
    .repetitions, .timeoutSeconds]

def kneeCheck (c : Config) : Except Raised Unit :=
  if c.get .writeSubmitMode (.text "batch") = .text "batch" then do
    let depth ← c.number .queueDepth
    let knee ← (c.get .kneeLimit (.int 32)).number
    require (knee < depth) "Batched write queue depth must exceed the knee limit"
  else .ok ()

def perThreadCheck (c : Config) : Except Raised Unit :=
  if (c.get .postwritePerThreadBytes .null).truthy then do
    let io ← (c.get .writeIoBytes (.int 65536)).number
    require ((c.get .postwritePerThreadBytes .null).isPerThread io)
      "Per-thread bytes must be a positive aligned power of two"
  else .ok ()

def loadConfig (c : Config) : Except Raised Unit := do
  positiveKeys.forM fun key =>
    require (c.get key .null).isPositive (key.name ++ " must be a positive integer")
  let total ← c.number .totalBytes
  require (total%(65536*4096) = 0) "total_bytes must be a multiple of 256 MiB"
  let pages := total/65536
  require (pages.land (pages-1) = 0) "total_bytes/65536 must be a power of two"
  let window ← c.number .shaperioWindow
  require (1 ≤ window ∧ window ≤ 16) "shaperio_window must be 1..16"
  require ((c.get .shaperioWriteWindow (.int window)).isWithin 1 256)
    "shaperio_write_window must be 1..256"
  kneeCheck c
  [Key.readIoBytes, .writeIoBytes].forM fun key =>
    require (c.get key (.int 65536) = .int 4096 ∨ c.get key (.int 65536) = .int 65536)
      (key.name ++ " must be 4096 or 65536")
  [Key.readTilePages, .writeTilePages].forM fun key =>
    require (c.get key (.int 0)).isTile (key.name ++ " must be zero (chunk) or a power of two")
  require (c.get .reusePreparedReads (.bool false)).isBool "reuse_prepared_reads must be boolean"
  let mode := c.get .writeSubmitMode (.text "batch")
  require (mode = .text "batch" ∨ mode = .text "serial") "write_submit_mode must be batch or serial"
  let order := c.get .workerOrder (.text "linear")
  require (order = .text "linear" ∨
    order = .text "warp-transpose") "worker_order must be linear or warp-transpose"
  perThreadCheck c

inductive Panel where
  | fig1a | fig1b | fig1c | fig3
  deriving DecidableEq

inductive Backend where
  | bam | gds | shaperio
  deriving DecidableEq

inductive Op where
  | read | write
  deriving DecidableEq

namespace Op
def text : Op → String
  | .read => "read"
  | .write => "write"

def ioKey : Op → Key
  | .read => .readIoBytes
  | .write => .writeIoBytes

def tileKey : Op → Key
  | .read => .readTilePages
  | .write => .writeTilePages
end Op

inductive Flag where
  | op | pattern | threads | bytes | io | offset | gpu | seed | latency | tilePages | workerOrder
  | file | controller | backend | nsid | queues | qd | bufferBytes | ring | window | batchBytes
  | allowWrite | verify
  deriving DecidableEq

inductive Binary where
  | gpu | gds
  deriving DecidableEq

structure Step where
  phase : String
  writes : Bool
  expectedBytes : Int
  binary : Binary
  args : List (Flag × Value)

structure Job where
  panel : Panel
  backend : Backend
  x : Int
  condition : String
  steps : List Step

def Backend.text : Backend → Value
  | .bam => .text "bam"
  | .gds => .text "gds"
  | .shaperio => .text "shaperio"

def windowArg (c : Config) (actual : Backend) (op : Op) : Except Raised Value :=
  if actual = .shaperio then do
    let shaped ← c.item .shaperioWindow
    return if op = .write then c.get .shaperioWriteWindow shaped else shaped
  else .ok (.int 1)

def given (n : Option Int) : Option Int := n.filter (· ≠ 0)

def targetArgs (c : Config) (actual : Backend) (op : Op) (batchBytes : Option Int) :
    Except Raised (List (Flag × Value)) := do
  if actual = .gds then
    let file ← c.item .gdsFile
    return [(.file, file)]
  else
    let controller ← c.item .controller
    let nsid ← c.item .namespaceId
    let queues ← c.item .queues
    let qd ← c.item .queueDepth
    let bufferBytes ← c.item .bufferBytes
    let ring ← c.item .ringEntries
    let window ← windowArg c actual op
    return [(.controller, controller), (.backend, actual.text), (.nsid, nsid), (.queues, queues),
      (.qd, qd), (.bufferBytes, bufferBytes), (.ring, ring), (.window, window)]++
      ((given batchBytes).map fun b => (.batchBytes, .int b)).toList

def bytesOf (c : Config) (bytesCount : Option Int) : Except Raised Int :=
  match given bytesCount with
  | some b => .ok b
  | none => c.number .totalBytes

def tileArgs (c : Config) (op : Op) : List (Flag × Value) :=
  let tile := c.get op.tileKey (.int 0)
  if tile.truthy then [(.tilePages, tile)] else []

def orderArgs (c : Config) : List (Flag × Value) :=
  let order := c.get .workerOrder (.text "linear")
  if order ≠ .text "linear" then [(.workerOrder, order)] else []

def writeArgs (op : Op) : List (Flag × Value) := if op = .write then [(.allowWrite, .int 1)] else []

/-- `transfer` of `make_plan`; no caller changes its pattern. `base` is where the jobs of the
plan start. -/
def transfer (c : Config) (base : Value) (actual : Backend) (op : Op) (threads : Int)
    (latency : Bool) (name : String) (bytesCount batchBytes : Option Int) : Except Raised Step := do
  let bytes ← bytesOf c bytesCount
  let gpu ← c.item .gpu
  let seed ← c.item .seed
  let target ← targetArgs c actual op batchBytes
  return {
    phase := name
    writes := op = .write
    expectedBytes := bytes
    binary := if actual = .gds then .gds else .gpu
    args :=
      [(.op, .text op.text), (.pattern, .text "sequential"), (.threads, .int threads),
        (.bytes, .int bytes), (.io, c.get op.ioKey (.int 65536)), (.offset, base), (.gpu, gpu),
        (.seed, seed), (.latency, .int (if latency then 1 else 0))]++
      tileArgs c op++orderArgs c++target++writeArgs op }

/-- The write before a measured read: whole batches of `threads * per_worker` bytes if they
are few enough. -/
def postwrite (c : Config) (backend : Backend) (base : Value) (threads : Int) :
    Except Raised Step := do
  let plain := transfer c base backend .write threads false "write" none none
  let perWorker := c.get .postwritePerThreadBytes .null
  if !perWorker.truthy ∨ backend = .gds then plain
  else
    let perWorker ← perWorker.number
    let batch := threads*perWorker
    let total ← c.number .totalBytes
    let batches := max 1 ((total+batch-1)/batch)
    let limit ← (c.get .postwriteMaxBatches (.int 8)).number
    if limit < batches then plain
    else transfer c base backend .write threads false "write" (some (batch*batches)) (some batch)

def sweepJobs (panel : Panel) (backend : Backend) (c : Config) (base : Value) (readers : Int)
    (sweep : List Int) : Except Raised (List Job) :=
  (sweep.filter fun threads => ¬(backend = .gds ∧ 64 < threads)).mapM fun threads => do
    let write ← postwrite c backend base threads
    let read ← transfer c base (if backend = .gds then .gds else .bam) .read readers false
      "postwrite-read" none none
    return ⟨panel, backend, threads, s!"readers={readers}", [write, read]⟩

def fig1bJobs (backend : Backend) (c : Config) (base : Value) : Except Raised (List Job) :=
  ([1, 512].flatMap fun writers => [1, 4, 16, 64, 128, 256].map fun readers =>
    (writers, readers)).mapM
    fun ((writers, readers) : Int × Int) => do
      let write ← postwrite c backend base writers
      let read ← transfer c base .bam .read readers false "postwrite-read" none none
      return ⟨.fig1b, backend, readers, s!"writers={writers}", [write, read]⟩

def prepare (backend : Backend) (c : Config) (base : Value) (noPrewrite : Bool) :
    Except Raised (List Step) :=
  if noPrewrite then .ok []
  else do
    let step ← transfer c base backend .write 1 false "prepare" none none
    return [step]

def fig1cJobs (backend : Backend) (c : Config) (base : Value) (noPrewrite : Bool) :
    Except Raised (List Job) :=
  ([1, 16, 256, 1024, 4096].filter fun threads => ¬(backend = .gds ∧ 64 < threads)).mapM
    fun (threads : Int) => do
    let before ← prepare backend c base noPrewrite
    let read ← transfer c base backend .read threads true "read" none none
    return ⟨.fig1c, backend, threads, "read-latency", before++[read]⟩

def planJobs (panel : Panel) (backend : Backend) (c : Config) (base : Value) (noPrewrite : Bool) :
    Except Raised (List Job) :=
  match panel with
  | .fig1a =>
    sweepJobs .fig1a backend c base (if backend = .gds then 64 else 128) [1, 8, 64, 512, 2048, 4096]
  | .fig3 => sweepJobs .fig3 backend c base 32 [1, 8, 64, 128, 256, 512, 1024, 4096]
  | .fig1b => fig1bJobs backend c base
  | .fig1c => fig1cJobs backend c base noPrewrite

def makePlan (panel : Panel) (backend : Backend) (c : Config) (noPrewrite : Bool)
    (selected : List Int) : Except Raised (List Job) := do
  require (¬((panel = .fig1b ∨ panel = .fig1c) ∧ backend ≠ .bam))
    ((if panel = .fig1b then "fig1b" else "fig1c") ++ " uses the BaM reader")
  require (¬(noPrewrite ∧ panel ≠ .fig1c)) "--no-prewrite is only valid for fig1c"
  let base ← c.item (if backend = .gds then .gdsOffsetBytes else .offsetBytes)
  let jobs ← planJobs panel backend c base noPrewrite
  let jobs := if selected ≠ [] then jobs.filter (·.x ∈ selected) else jobs
  require (jobs ≠ []) "No selected data points"
  return jobs

end Shaper.Planner
