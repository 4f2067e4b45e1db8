import Shaper.Backing
import Shaper.Lib.Bytes
import Shaper.PageCache

/-! Element access through the page cache: `seq_read`, `seq_write` and `AtomicAdd`
of any number of warps over one controller, with the bytes of the slots and of
storage. -/
namespace Shaper.ArrayAccess
open Function PageCache Backing Lib.Bytes

/-- The fields of a `range_d_t<T>` that an access reads; `plus` is what `atomicAdd`
computes on the bytes of two values of `T`. -/
structure Range where
  indexStart : Nat
  count : Nat
  pageStart : Nat
  pageStartOffset : Nat
  dist : DataDist
  sizeofT : Nat
  sizeofT_pos : 0 < sizeofT
  plus : List UInt8 → List UInt8 → List UInt8
  length_plus : ∀ u v, (plus u v).length = sizeofT

namespace Range
variable (r : Range)

def resolves (i : Nat) : Bool := r.indexStart ≤ i && i < r.count

def bytePos (i : Nat) : Nat := (i-r.indexStart)*r.sizeofT+r.pageStartOffset
def getPage (pageSizeLog i : Nat) : Nat := r.bytePos i >>> pageSizeLog
def getSubindex (pageSizeLog i : Nat) : Nat := r.bytePos i &&& (2^pageSizeLog-1)
end Range

def findRange (range : Nat → Range) (arr : List Nat) (i : Nat) : Option Nat :=
  arr.find? fun r => (range r).resolves i

structure Setup where
  cache : Cache
  pageSizeLog : Nat
  range : Nat → Range
  inside : ∀ r i, r < cache.maxRange → (range r).resolves i = true →
    (range r).getSubindex pageSizeLog i+(range r).sizeofT ≤ 2^pageSizeLog
  apart : ∀ r i r' i', r < cache.maxRange → r' < cache.maxRange →
    (range r).resolves i = true → (range r').resolves i' = true →
    getBackingPage (range r).pageStart ((range r).getPage pageSizeLog i) 1 (range r).dist =
      getBackingPage (range r').pageStart ((range r').getPage pageSizeLog i') 1 (range r').dist →
    r = r' ∧ (range r).getPage pageSizeLog i = (range r').getPage pageSizeLog i'

namespace Setup
variable (u : Setup)
def pageSize : Nat := 2^u.pageSizeLog
def page (r i : Nat) : Page := ⟨r, (u.range r).getPage u.pageSizeLog i⟩
def sub (r i : Nat) : Nat := (u.range r).getSubindex u.pageSizeLog i
def size (r : Nat) : Nat := (u.range r).sizeofT
def backing (p : Page) : Nat :=
  getBackingPage (u.range p.range).pageStart p.index 1 (u.range p.range).dist
end Setup

inductive Op where
  | seqRead | seqWrite | atomicAdd
  deriving DecidableEq

structure Lane where
  elem : Nat
  val : List UInt8
  deriving DecidableEq

/-- The lanes of a warp that `coalesce_page` puts under one master, as long as they
have not made their access. -/
structure Group where
  op : Op
  range : Nat
  lanes : List Lane
  deriving DecidableEq

structure Event where
  range : Nat
  elem : Nat
  seen : Option (List UInt8)
  wrote : Option (List UInt8)
  deriving DecidableEq

/-- `mem` are the bytes of the cache slots. `log` is history: every access in the
order it was made. -/
structure Sys where
  ctl : State
  group : Nat → Group
  mem : Memory
  storage : Memory
  log : List Event

def Op.write : Op → Bool
  | .seqRead => false
  | .seqWrite | .atomicAdd => true

/-- The transfers of `write_data` or `io_sched_write`, and of `read_data_no_second`
or `io_sched_read`. -/
def Sys.transfer (u : Setup) (S : Sys) : Effect → Sys
  | .quiet => S
  | .writeBack s p => { S with storage := copyPage u.pageSize S.mem S.storage s (u.backing p) }
  | .read s p => { S with mem := copyPage u.pageSize S.storage S.mem (u.backing p) s }

def Sys.access (u : Setup) (S : Sys) (s r : Nat) (op : Op) (l : Lane) : Sys :=
  let a := s*u.pageSize+u.sub r l.elem
  let old := load S.mem a (u.size r)
  match op with
  | .seqRead => { S with log := S.log ++ [⟨r, l.elem, some old, none⟩] }
  | .seqWrite =>
    { S with mem := store S.mem a l.val, log := S.log ++ [⟨r, l.elem, none, some l.val⟩] }
  | .atomicAdd =>
    { S with
      mem := store S.mem a ((u.range r).plus old l.val)
      log := S.log ++ [⟨r, l.elem, some old, some ((u.range r).plus old l.val)⟩] }

inductive Act where
  | start (arr : List Nat) (op : Op) (lanes : List Lane)
  | cache (i : Nat) (weak : Bool)
  | lane (i l : Nat)
  | finish (i : Nat)

def coalesced (u : Setup) (arr : List Nat) (r : Nat) (lanes : List Lane) (p : Page) : Bool :=
  lanes.all fun l => findRange u.range arr l.elem == some r && u.page r l.elem == p &&
    l.val.length == u.size r

def step (u : Setup) (S : Sys) : Act → Option Sys
  | .start arr op lanes =>
    match lanes with
    | [] => none
    | l :: ls =>
      match findRange u.range arr l.elem with
      | none => none
      | some r =>
        let p := u.page r l.elem
        if coalesced u arr r (l :: ls) p then
          (PageCache.step u.cache S.ctl (.acquire p (l :: ls).length op.write)).map fun out =>
            { S with
              ctl := out.1
              group := update S.group S.ctl.begun ⟨op, r, l :: ls⟩ }
        else none
  | .cache i weak =>
    (PageCache.step u.cache S.ctl (.run i weak)).map fun out =>
      { S.transfer u out.2 with ctl := out.1 }
  | .lane i l =>
    match (S.ctl.call i).pc, (S.group i).lanes[l]? with
    | .hold s (_+1), some ln =>
      some { S.access u s (S.group i).range (S.group i).op ln with
        group := update S.group i { S.group i with lanes := (S.group i).lanes.eraseIdx l } }
    | _, _ => none
  | .finish i =>
    if (S.group i).lanes = [] then
      (PageCache.step u.cache S.ctl (.release i (S.ctl.call i).count)).map fun out =>
        { S with ctl := out.1 }
    else none

inductive Run (u : Setup) (ok : State → Prop) (S₀ : Sys) : Sys → Prop where
  | refl : Run u ok S₀ S₀
  | step {S S' : Sys} {a : Act} : Run u ok S₀ S → step u S a = some S' → ok S'.ctl → Run u ok S₀ S'

structure Fresh (S : Sys) : Prop where
  ctl : Initial S.ctl
  log : S.log = []

def latest (u : Setup) (init : Memory) (r i : Nat) (log : List Event) : List UInt8 :=
  log.foldl (fun v ev => if ev.range = r ∧ ev.elem = i then ev.wrote.getD v else v)
    (load init (u.backing (u.page r i)*u.pageSize+u.sub r i) (u.size r))

def Coherent (u : Setup) (init : Memory) (log : List Event) : Prop :=
  ∀ before ev after, log = before ++ ev :: after → ∀ v, ev.seen = some v →
    v = latest u init ev.range ev.elem before

end Shaper.ArrayAccess
