import Mathlib.Algebra.BigOperators.Group.Finset.Basic
import Shaper.Lib.FlagWord

/-! The page cache as a machine: any number of calls of `acquire_page`, each with
the `find_slot` of its miss, and of `release_page`, one atomic operation or one
store under the slot lock a step. -/
namespace Shaper.PageCache
open Function Lib.FlagWord

structure Page where
  range : Nat
  index : Nat
  deriving DecidableEq

structure Cache where
  nPages : Nat
  maxRangeLog : Nat
  maxRangeLog_lt : maxRangeLog < 64

namespace Cache
def maxRange (c : Cache) : Nat := 2^c.maxRangeLog
def nRangesBits (c : Cache) : Nat := if c.maxRange = 1 then 1 else Nat.log2 c.maxRange
def nRangesMask (c : Cache) : BitVec 64 := BitVec.ofNat 64 (c.maxRange-1)

def globalAddress (c : Cache) (p : Page) : BitVec 64 :=
  (BitVec.ofNat 64 p.index <<< c.nRangesBits) ||| BitVec.ofNat 64 p.range

def pageAt (c : Cache) (globalAddress : BitVec 64) : Page :=
  ⟨(globalAddress &&& c.nRangesMask).toNat, (globalAddress >>> c.nRangesBits).toNat⟩

/-- The pages of the cache: a range number below `max_range` and an index that
fits the rest of the 64 bits. -/
structure Has (c : Cache) (p : Page) : Prop where
  range_lt : p.range < c.maxRange
  index_lt : p.index < 2^(64-c.nRangesBits)
end Cache

def VALID : BitVec 32 := 0x80000000
def BUSY : BitVec 32 := 0x40000000
def DIRTY : BitVec 32 := 0x20000000
def CNT_MASK : BitVec 32 := 0x1fffffff
def DISABLE_BUSY_ENABLE_VALID : BitVec 32 := 0xc0000000
def DISABLE_BUSY_MASK : BitVec 32 := 0xbfffffff
def NV_NB : BitVec 32 := 0
def V_NB : BitVec 32 := 2
def CNT_SHIFT : Nat := 29

def st (readState : BitVec 32) : BitVec 32 := (readState >>> (CNT_SHIFT+1)) &&& 3

inductive Lock where
  | unlocked | locked | free
  deriving DecidableEq

/-- Where a call stands inside `find_slot`. A free slot goes from its
`compare_exchange` straight to the store of the translation; `prev` is the page
read from the translation of a slot in use. -/
inductive Find where
  | ticket
  | loadLock (s : Nat)
  | casFree (s : Nat)
  | casUnlocked (s : Nat)
  | readTranslation (s : Nat)
  | loadState (s : Nat) (prev : Page)
  | orBusy (s : Nat) (prev : Page)
  | writeBack (s : Nat) (prev : Page)
  | clear (s : Nat) (prev : Page)
  | unbusy (s : Nat) (prev : Page)
  | setTranslation (s : Nat)
  | unlock (s : Nat) (fail : Bool)
  deriving DecidableEq

/-- Where a call of `acquire_page` stands: what it does next. `hold s left` is a
call that returned slot `s` and has `left` of its references not yet released. -/
inductive Pc where
  | idle
  | orBusy
  | unbusy
  | reload
  | find (f : Find)
  | read (s : Nat)
  | setOffset (s : Nat)
  | orDirty (s : Nat)
  | xor (s : Nat)
  | hitDirty
  | hitOffset
  | hold (s left : Nat)
  deriving DecidableEq

structure Call where
  page : Page
  count : Nat
  write : Bool
  pc : Pc
  deriving DecidableEq

/-- `word` and `offset` are the two fields of `data_page_t`, `lock` and
`translation` those of `cache_page_t`; calls are numbered as they begin. -/
structure State where
  word : Page → BitVec 32
  offset : Page → Nat
  lock : Nat → Lock
  translation : Nat → BitVec 64
  ticket : BitVec 32
  begun : Nat
  call : Nat → Call

namespace State
variable (σ : State)
def move (i : Nat) (pc : Pc) : State :=
  { σ with call := update σ.call i { σ.call i with pc := pc } }
def setWord (p : Page) (w : BitVec 32) : State := { σ with word := update σ.word p w }
def setOffset (p : Page) (s : Nat) : State := { σ with offset := update σ.offset p s }
def setLock (s : Nat) (v : Lock) : State := { σ with lock := update σ.lock s v }
def setTranslation (s : Nat) (a : BitVec 64) : State :=
  { σ with translation := update σ.translation s a }
end State

inductive Effect where
  | quiet
  | writeBack (s : Nat) (p : Page)
  | read (s : Nat) (p : Page)
  deriving DecidableEq

def dispatch (write : Bool) (readState : BitVec 32) : Pc :=
  if st readState = NV_NB then .orBusy
  else if st readState = V_NB then
    if write = true ∧ readState &&& DIRTY = 0 then .hitDirty else .hitOffset
  else .reload

def afterOr (stNew : BitVec 32) : Pc :=
  if stNew &&& BUSY = 0 then
    if st stNew = NV_NB then .find .ticket else .unbusy
  else .reload

def afterLoad (s : Nat) (prev : Page) (expected : BitVec 32) : Find :=
  if expected &&& CNT_MASK = 0 ∧ expected &&& BUSY = 0 then .orBusy s prev else .unlock s true

def afterEvictOr (s : Nat) (prev : Page) (newExpected : BitVec 32) : Find :=
  if newExpected &&& BUSY = 0 then
    if newExpected &&& CNT_MASK = 0 then
      if newExpected &&& DIRTY = 0 then .clear s prev else .writeBack s prev
    else .unbusy s prev
  else .unlock s true

/-- The next step of `find_slot` for call `i`; `weak` makes a weak
`compare_exchange` fail on an unchanged lock. -/
def findSlot (c : Cache) (σ : State) (i : Nat) (weak : Bool) : Find → State × Effect
  | .ticket =>
    ({ σ with ticket := σ.ticket+1 }.move i (.find (.loadLock (σ.ticket.toNat % c.nPages))), .quiet)
  | .loadLock s =>
    match σ.lock s with
    | .free => (σ.move i (.find (.casFree s)), .quiet)
    | .unlocked => (σ.move i (.find (.casUnlocked s)), .quiet)
    | .locked => (σ.move i (.find .ticket), .quiet)
  | .casFree s =>
    if σ.lock s = .free ∧ weak = false then
      ((σ.setLock s .locked).move i (.find (.setTranslation s)), .quiet)
    else (σ.move i (.find .ticket), .quiet)
  | .casUnlocked s =>
    if σ.lock s = .unlocked ∧ weak = false then
      ((σ.setLock s .locked).move i (.find (.readTranslation s)), .quiet)
    else (σ.move i (.find .ticket), .quiet)
  | .readTranslation s => (σ.move i (.find (.loadState s (c.pageAt (σ.translation s)))), .quiet)
  | .loadState s prev => (σ.move i (.find (afterLoad s prev (σ.word prev))), .quiet)
  | .orBusy s prev =>
    ((σ.setWord prev (σ.word prev ||| BUSY)).move i (.find (afterEvictOr s prev (σ.word prev))),
      .quiet)
  | .writeBack s prev => (σ.move i (.find (.clear s prev)), .writeBack s prev)
  | .clear s prev =>
    ((σ.setWord prev (σ.word prev &&& CNT_MASK)).move i (.find (.setTranslation s)), .quiet)
  | .unbusy s prev =>
    ((σ.setWord prev (σ.word prev &&& DISABLE_BUSY_MASK)).move i (.find (.unlock s true)), .quiet)
  | .setTranslation s =>
    ((σ.setTranslation s (c.globalAddress (σ.call i).page)).move i (.find (.unlock s false)),
      .quiet)
  | .unlock s fail =>
    ((σ.setLock s .unlocked).move i (if fail then .find .ticket else .read s), .quiet)

def acquireStep (c : Cache) (σ : State) (i : Nat) (weak : Bool) : Option (State × Effect) :=
  let p := (σ.call i).page
  match (σ.call i).pc with
  | .idle | .hold _ _ => none
  | .orBusy => some ((σ.setWord p (σ.word p ||| BUSY)).move i (afterOr (σ.word p)), .quiet)
  | .unbusy => some ((σ.setWord p (σ.word p &&& DISABLE_BUSY_MASK)).move i .reload, .quiet)
  | .reload => some (σ.move i (dispatch (σ.call i).write (σ.word p)), .quiet)
  | .find f => some (findSlot c σ i weak f)
  | .read s => some (σ.move i (.setOffset s), .read s p)
  | .setOffset s =>
    some ((σ.setOffset p s).move i (if (σ.call i).write then .orDirty s else .xor s), .quiet)
  | .orDirty s => some ((σ.setWord p (σ.word p ||| DIRTY)).move i (.xor s), .quiet)
  | .xor s =>
    some ((σ.setWord p (σ.word p ^^^ DISABLE_BUSY_ENABLE_VALID)).move i (.hold s (σ.call i).count),
      .quiet)
  | .hitDirty => some ((σ.setWord p (σ.word p ||| DIRTY)).move i .hitOffset, .quiet)
  | .hitOffset => some (σ.move i (.hold (σ.offset p) (σ.call i).count), .quiet)

def begin (σ : State) (p : Page) (count : Nat) (write : Bool) : State :=
  { σ with
    word := update σ.word p (σ.word p+BitVec.ofNat 32 count)
    begun := σ.begun+1
    call := update σ.call σ.begun ⟨p, count, write, dispatch write (σ.word p)⟩ }

def releasePage (σ : State) (i k : Nat) : Option State :=
  match (σ.call i).pc with
  | .hold s left =>
    if k ≤ left then
      some ((σ.setWord (σ.call i).page (σ.word (σ.call i).page-BitVec.ofNat 32 k)).move i
        (.hold s (left-k)))
    else none
  | _ => none

inductive Act where
  | acquire (p : Page) (count : Nat) (write : Bool)
  | run (i : Nat) (weak : Bool)
  | release (i k : Nat)

def step (c : Cache) (σ : State) : Act → Option (State × Effect)
  | .acquire p count write =>
    if p.range < c.maxRange ∧ p.index < 2^(64-c.nRangesBits) ∧ 0 < count then
      some (begin σ p count write, .quiet)
    else none
  | .run i weak => acquireStep c σ i weak
  | .release i k => (releasePage σ i k).map (·, .quiet)

def Call.refs (d : Call) (p : Page) : Nat :=
  if d.page = p then
    match d.pc with
    | .idle => 0
    | .hold _ left => left
    | _ => d.count
  else 0

def refs (σ : State) (p : Page) : Nat := ∑ i ∈ Finset.range σ.begun, (σ.call i).refs p

/-- The cache as the constructors of `page_cache_t` and `range_t` leave it. -/
structure Initial (σ : State) : Prop where
  word : ∀ p, σ.word p = 0
  lock : ∀ s, σ.lock s = .free
  call : ∀ i, (σ.call i).pc = .idle
  begun : σ.begun = 0

inductive Reach (c : Cache) : State → Prop where
  | init {σ : State} : Initial σ → Reach c σ
  | step {σ σ' : State} {a : Act} {e : Effect} : Reach c σ → step c σ a = some (σ', e) →
      (∀ p, refs σ' p < 2^29) → Reach c σ'

end Shaper.PageCache
