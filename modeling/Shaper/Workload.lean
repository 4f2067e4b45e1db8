import Shaper.Lib.Mixing

/-! The requests of the GPU benchmark: the checks of its `main` on a workload, the maps
that give each worker its pages, and the loop of kernel launches. -/
namespace Shaper.Workload
open Lib.Mixing

inductive Order where
  | linear | warpTranspose
  deriving DecidableEq

/-- The options that shape a workload, as `Options::number` returns them; `order` is
`none` for any other text. -/
structure Params where
  bytes : BitVec 64
  io : BitVec 64
  batchBytes : BitVec 64
  tile : BitVec 64
  offset : BitVec 64
  seed : BitVec 64
  threads : BitVec 64
  order : Option Order
  random : Bool
  latency : Bool

structure Namespace where
  size : BitVec 64
  blkLog : Nat

namespace Params
variable (p : Params)
def workers : BitVec 32 := p.threads.setWidth 32
def transpose : Bool := p.order == some .warpTranspose
end Params

def aeWorker (worker workers : BitVec 64) (transpose : Bool) : BitVec 64 :=
  if transpose ∧ 32#64 ≤ workers then (worker % 32#64) * (workers / 32#64) + worker / 32#64
  else worker

def tileOf (tile perWorker : BitVec 64) : BitVec 64 :=
  if tile = 0#64 ∨ perWorker < tile then perWorker else tile

def aeIndex (worker iteration pages workers tile : BitVec 64) : BitVec 64 :=
  let tile := tileOf tile (pages / workers)
  (iteration / tile * workers + worker) * tile + iteration % tile

def aePage (index pages seed : BitVec 64) (random : Bool) : BitVec 64 :=
  if !random then index
  else
    let mask := pages - 1#64
    let x := index ^^^ (index >>> 7)
    let x := (x * 0x9e3779b97f4a7c15#64 + seed) &&& mask
    let x := x ^^^ (x >>> 13)
    let x := (x * 0xbf58476d1ce4e5b9#64 + seed) &&& mask
    x ^^^ (x >>> 11)

def validateWorkload (bytes io threads offset : BitVec 64) : Except String Unit :=
  if (io ≠ 4096#64 ∧ io ≠ 65536#64) ∨ bytes = 0#64 ∨ bytes % io ≠ 0#64 ∨ threads = 0#64 ∨
      4096#64 < threads ∨ (bytes / io) % threads ≠ 0#64 ∨ offset % io ≠ 0#64 ∨
      BitVec.allOnes 64 - bytes < offset then
    .error "Require 4/64KiB I/O, aligned range, and whole I/Os per worker (1..4096)"
  else
    let pages := bytes / io
    if pages &&& (pages - 1#64) ≠ 0#64 then .error "Page count must be a power of two"
    else .ok ()

def orderCheck (p : Params) : Except String Unit :=
  let workers := p.workers.setWidth 64
  if p.order = none ∨
    (p.order = some .warpTranspose ∧ 32#64 ≤ workers ∧ workers % 32#64 ≠ 0#64) then
    .error "Worker order must be linear or warp-transpose (whole warps)"
  else .ok ()

def tileCheck (p : Params) : Except String Unit :=
  let perWorker := p.batchBytes / p.io / p.workers.setWidth 64
  if p.tile ≠ 0#64 ∧
    (p.tile &&& (p.tile - 1#64) ≠ 0#64 ∨ (p.tile < perWorker ∧ perWorker % p.tile ≠ 0#64)) then
    .error "Tile must be a power of two dividing the per-worker request count"
  else .ok ()

def batchCheck (p : Params) : Except String Unit :=
  if p.bytes < p.batchBytes ∨ p.bytes % p.batchBytes ≠ 0#64 ∨
      (p.batchBytes ≠ p.bytes ∧ (p.random ∨ p.latency)) then
    .error "Batches must divide the sequential, untimed-latency transfer"
  else .ok ()

def check (p : Params) (ns : Namespace) : Except String Unit := do
  let workers := p.workers.setWidth 64
  let blkSize := BitVec.ofNat 64 (2^ns.blkLog)
  validateWorkload p.bytes p.io workers p.offset
  validateWorkload p.batchBytes p.io workers p.offset
  orderCheck p
  tileCheck p
  batchCheck p
  if ns.size < p.offset / blkSize ∨ ns.size - p.offset / blkSize < p.bytes / blkSize then
    throw "Experiment exceeds namespace capacity"
  if p.io.toNat < 2^ns.blkLog then
    throw "page_cache_t: Can't have such page size or number of pages"

def address (p : Params) (base : BitVec 64) (tid : BitVec 32) (i : BitVec 64) : BitVec 64 :=
  let pages := p.batchBytes / p.io
  let workers := p.workers.setWidth 64
  let worker := (aeWorker (tid.setWidth 64) workers p.transpose).setWidth 32
  base + aePage (aeIndex (worker.setWidth 64) i pages workers p.tile) pages p.seed p.random * p.io

def transfer (p : Params) (base : BitVec 64) (tid : BitVec 32) : List (BitVec 64) :=
  if p.workers ≤ tid then []
  else
    let count := p.batchBytes / p.io / p.workers.setWidth 64
    (List.range count.toNat).map fun i => address p base tid (BitVec.ofNat 64 i)

def launch (p : Params) (base : BitVec 64) : List (BitVec 64) :=
  (List.range ((p.workers + 127#32) / 128#32 * 128#32).toNat).flatMap fun tid =>
    transfer p base (BitVec.ofNat 32 tid)

/-- The batch loop of `main` from a given `batch_offset`, and what it requests. -/
inductive Batches (p : Params) : BitVec 64 → List (BitVec 64) → Prop where
  | done {batchOffset : BitVec 64} (h : ¬ batchOffset < p.bytes) : Batches p batchOffset []
  | launch {batchOffset : BitVec 64} {rest : List (BitVec 64)} (h : batchOffset < p.bytes)
      (hrest : Batches p (batchOffset + p.batchBytes) rest) :
      Batches p batchOffset (launch p (p.offset + batchOffset) ++ rest)

end Shaper.Workload
