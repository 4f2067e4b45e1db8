import Shaper.Planner

/-! The planner against the benchmark programs: their options, and the checks they make on
the workload of a step. -/
namespace Shaper.Planner
open Workload

def Flag.text : Flag → String
  | .op => "--op"
  | .pattern => "--pattern"
  | .threads => "--threads"
  | .bytes => "--bytes"
  | .io => "--io"
  | .offset => "--offset"
  | .gpu => "--gpu"
  | .seed => "--seed"
  | .latency => "--latency"
  | .tilePages => "--tile-pages"
  | .workerOrder => "--worker-order"
  | .file => "--file"
  | .controller => "--controller"
  | .backend => "--backend"
  | .nsid => "--nsid"
  | .queues => "--queues"
  | .qd => "--qd"
  | .bufferBytes => "--buffer-bytes"
  | .ring => "--ring"
  | .window => "--window"
  | .batchBytes => "--batch-bytes"
  | .allowWrite => "--allow-write"
  | .verify => "--verify"

def allowed : Binary → List Flag
  | .gpu =>
    [.controller, .backend, .op, .pattern, .threads, .bytes, .offset, .io, .gpu, .seed, .allowWrite,
      .latency, .verify, .queues, .qd, .nsid, .ring, .window, .bufferBytes, .batchBytes, .tilePages,
      .workerOrder]
  | .gds => [.file, .op, .pattern, .threads, .bytes, .offset, .io, .gpu, .seed, .allowWrite,
    .latency, .verify,
      .tilePages, .workerOrder]

def options (allowed : List Flag) (args : List (Flag × Value)) :
    Except String (List (Flag × Value)) :=
  args.foldlM (fun values (flag, value) =>
    if flag ∉ allowed then .error ("Unknown option or missing value: " ++ flag.text)
    else if (values.lookup flag).isSome then .error ("Duplicate option: " ++ flag.text)
    else .ok (values++[(flag, value)])) []

/-- `Options::number`. The planner passes only integers where the checks below read one. -/
def optionNumber (o : List (Flag × Value)) (flag : Flag) (fallback : BitVec 64) :
    Except String (BitVec 64) :=
  match o.lookup flag with
  | none => .ok fallback
  | some (.int n) =>
    if n < 0 then .error ("Invalid integer: " ++ flag.text)
    else if n < 2^64 then .ok (BitVec.ofNat 64 n.toNat)
    else .error "stoull"
  | some _ => .error ("Use integer bytes/counts: " ++ flag.text)

def orderOf : Value → Option Order
  | .text s => if s = "linear" then some .linear else if s = "warp-transpose" then
    some .warpTranspose else none
  | _ => none

def defaultThreads : Binary → BitVec 64
  | .gpu => 32#64
  | .gds => 1#64

def workload (binary : Binary) (seed : BitVec 64) (o : List (Flag × Value)) :
    Except String Params := do
  let bytes ← optionNumber o .bytes (BitVec.ofNat 64 (2^30))
  let io ← optionNumber o .io 65536#64
  let batchBytes ← optionNumber o .batchBytes bytes
  let tile ← optionNumber o .tilePages 0#64
  let offset ← optionNumber o .offset 0#64
  let threads ← optionNumber o .threads (defaultThreads binary)
  let latency ← optionNumber o .latency 0#64
  return {
    bytes, io, batchBytes, tile, offset, seed, threads
    order := orderOf ((o.lookup .workerOrder).getD (.text "linear"))
    random := (o.lookup .pattern).getD (.text "sequential") = .text "random"
    latency := latency ≠ 0#64 }

def workloadChecks (binary : Binary) (p : Params) : Except String Unit := do
  let workers := p.workers.setWidth 64
  match binary with
  | .gpu =>
    validateWorkload p.bytes p.io workers p.offset
    validateWorkload p.batchBytes p.io workers p.offset
    orderCheck p
    tileCheck p
    batchCheck p
  | .gds =>
    if 64#64 < workers then throw "Specify --file, read/write, sequential/random, 1..64 CPU workers"
    validateWorkload p.bytes p.io workers p.offset
    orderCheck p
    tileCheck p

def Value.isBelow (bound : Int) : Value → Bool
  | .int n => n < bound
  | _ => true

namespace Step
variable (s : Step)

def Accepted : Prop := ∀ seed, ∃ o p, options (allowed s.binary) s.args = .ok o ∧
    workload s.binary seed o = .ok p ∧
  workloadChecks s.binary p = .ok ()

def extent : Option (Int × Int) :=
  match s.args.lookup .offset, s.args.lookup .bytes with
  | some (.int offset), some (.int bytes) => some (offset, offset+bytes)
  | _, _ => none

def Fits : Prop := (∀ x ∈ s.args, x.2.isBelow (2^64) = true) ∧ ∀ e ∈ s.extent, e.2 < 2^64

instance : Decidable s.Fits := inferInstanceAs (Decidable (_ ∧ _))
end Step

def Job.ReadsWritten (job : Job) : Prop := ∃ write read, job.steps = [write, read] ∧
  write.writes = true ∧ read.writes = false ∧
  ∃ w w' r r', write.extent = some (w, w') ∧ read.extent = some (r, r') ∧ w ≤ r ∧ r' ≤ w'

end Shaper.Planner
