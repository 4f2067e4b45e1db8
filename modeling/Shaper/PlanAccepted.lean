import Shaper.Lib.Raises
import Shaper.PlanChecks

/-! Every step that the planner emits passes the checks of the program it is for, and every
measured read stays within what was written before it. -/
namespace Shaper.Planner
open Workload Lib.Mixing Lib.Raises

theorem require_ok {cond : Prop} [Decidable cond] {message : String} {u : Unit}
    (h : require cond message = .ok u) : cond := by
  unfold require at h
  split at h
  · assumption
  · cases h

/-- The test `n & (n - 1)` on integers without a bound finds the powers of two. -/
theorem exists_two_pow_of_land {n : Int} (hn : n ≠ 0) (h : n.land (n-1) = 0) :
    ∃ m : Nat, n = (2^m : Nat) := by
  cases n with
  | ofNat k =>
    cases k with
    | zero => exact absurd rfl hn
    | succ k =>
      have hpred : Int.ofNat (k+1)-1 = Int.ofNat k := by
        rw [Int.ofNat_eq_natCast, Int.ofNat_eq_natCast]
        omega
      rw [hpred] at h
      have hand : (k+1) &&& k = 0 := Int.ofNat.inj h
      obtain ⟨m, hm⟩ := exists_two_pow (n := k+1) (by omega) hand
      exact ⟨m, by rw [hm, Int.ofNat_eq_natCast]⟩
  | negSucc k =>
    have hpred : Int.negSucc k-1 = Int.negSucc (k+1) := by omega
    rw [hpred] at h
    cases h

theorem le_of_two_pow_dvd {i w : Nat} (h : ((2^i : Nat) : Int) ∣ (2^w : Nat)) : i ≤ w :=
  (Nat.pow_dvd_pow_iff_le_right Nat.one_lt_two).mp (Int.natCast_dvd_natCast.mp h)

structure Loaded (c : Config) : Prop where
  total : ∃ m : Nat, 28 ≤ m ∧ c.number .totalBytes = .ok (2^m : Nat)
  io : ∀ op : Op, ∃ i : Nat, (i = 12 ∨ i = 16) ∧ c.get op.ioKey (.int 65536) = .int (2^i : Nat)
  tile : ∀ op : Op, c.get op.tileKey (.int 0) = .int 0 ∨
    ∃ k : Nat, c.get op.tileKey (.int 0) = .int (2^k : Nat)
  order : c.get .workerOrder (.text "linear") = .text "linear" ∨
    c.get .workerOrder (.text "linear") = .text "warp-transpose"
  perThread : (c.get .postwritePerThreadBytes .null).truthy = true → ∃ i w : Nat, i ≤ w ∧
    c.get .writeIoBytes (.int 65536) = .int (2^i : Nat) ∧
    c.get .postwritePerThreadBytes .null = .int (2^w : Nat)

theorem number_of_isPositive {c : Config} {key : Key} (h : (c.get key .null).isPositive = true) :
    ∃ n : Int, 0 < n ∧ c key = some (.int n) := by
  unfold Config.get at h
  cases hv : c key with
  | none =>
    rw [hv] at h
    cases h
  | some v =>
    rw [hv] at h
    cases v with
    | int n => exact ⟨n, of_decide_eq_true h, rfl⟩
    | null | bool | text | other => cases h

theorem perThread_of_ok {c : Config} {i : Nat} (h : perThreadCheck c = .ok ())
    (hio : c.get .writeIoBytes (.int 65536) = .int (2^i : Nat))
    (ht : (c.get .postwritePerThreadBytes .null).truthy = true) :
    ∃ w : Nat, i ≤ w ∧ c.get .postwritePerThreadBytes .null = .int (2^w : Nat) := by
  unfold perThreadCheck at h
  rw [if_pos ht, hio] at h
  have hcheck : (c.get .postwritePerThreadBytes .null).isPerThread (2^i : Nat) = true :=
    require_ok h
  cases hv : c.get .postwritePerThreadBytes .null with
  | int n =>
    rw [hv] at hcheck ht
    obtain ⟨hmod, hland⟩ := of_decide_eq_true hcheck
    obtain ⟨w, rfl⟩ := exists_two_pow_of_land (of_decide_eq_true ht) hland
    have hdvd : ((2^i : Nat) : Int) ∣ (2^w : Nat) := Int.dvd_of_emod_eq_zero hmod
    exact ⟨w, le_of_two_pow_dvd hdvd, rfl⟩
  | null | bool | text | other =>
    rw [hv] at hcheck
    cases hcheck

theorem loaded_of_ok {c : Config} (h : loadConfig c = .ok ()) : Loaded c := by
  unfold loadConfig at h
  obtain ⟨⟨⟩, hpos, h⟩ := bind_eq_ok.mp h
  obtain ⟨total, htotal, h⟩ := bind_eq_ok.mp h
  obtain ⟨⟨⟩, hmod, h⟩ := bind_eq_ok.mp h
  obtain ⟨⟨⟩, hpages, h⟩ := bind_eq_ok.mp h
  obtain ⟨window, -, h⟩ := bind_eq_ok.mp h
  obtain ⟨⟨⟩, -, h⟩ := bind_eq_ok.mp h
  obtain ⟨⟨⟩, -, h⟩ := bind_eq_ok.mp h
  obtain ⟨⟨⟩, -, h⟩ := bind_eq_ok.mp h
  obtain ⟨⟨⟩, hio, h⟩ := bind_eq_ok.mp h
  obtain ⟨⟨⟩, htile, h⟩ := bind_eq_ok.mp h
  obtain ⟨⟨⟩, -, h⟩ := bind_eq_ok.mp h
  obtain ⟨⟨⟩, -, h⟩ := bind_eq_ok.mp h
  obtain ⟨⟨⟩, horder, hper⟩ := bind_eq_ok.mp h
  have hio' : ∀ op : Op, ∃ i : Nat, (i = 12 ∨ i = 16) ∧
    c.get op.ioKey (.int 65536) = .int (2^i : Nat) := by
    intro op
    rcases require_ok (forM_eq_ok.mp hio op.ioKey (by cases op <;> simp [Op.ioKey])) with h | h
    · exact ⟨12, .inl rfl, h⟩
    · exact ⟨16, .inr rfl, h⟩
  constructor
  case total =>
    obtain ⟨n, hn, hv⟩ :=
      number_of_isPositive (require_ok (forM_eq_ok.mp hpos .totalBytes (by simp [positiveKeys])))
    have htotal' : c.number .totalBytes = .ok n := by
      simp [Config.number, Config.item, hv, Value.number, bind, Except.bind]
    obtain rfl : total = n := Except.ok.inj (htotal.symm.trans htotal')
    have hmod' := require_ok hmod
    have hne : total/65536 ≠ 0 := by omega
    obtain ⟨k, hk⟩ := exists_two_pow_of_land hne (require_ok hpages)
    have htotal2 : total = (2^(k+16) : Nat) := by
      rw [Nat.pow_add, Int.natCast_mul, ← hk]
      omega
    refine ⟨k+16, ?_, by rw [htotal, htotal2]⟩
    have hdvd : ((2^28 : Nat) : Int) ∣ (2^(k+16) : Nat) := by
      rw [← htotal2]
      exact Int.dvd_of_emod_eq_zero hmod'
    exact le_of_two_pow_dvd hdvd
  case io => exact hio'
  case tile =>
    intro op
    have hcheck := require_ok (forM_eq_ok.mp htile op.tileKey (by cases op <;> simp [Op.tileKey]))
    cases hv : c.get op.tileKey (.int 0) with
    | int n =>
      rw [hv] at hcheck
      obtain ⟨-, hzero | hland⟩ := of_decide_eq_true hcheck
      · exact .inl (by rw [hzero])
      · by_cases hn : n = 0
        · exact .inl (by rw [hn])
        · obtain ⟨k, rfl⟩ := exists_two_pow_of_land hn hland
          exact .inr ⟨k, rfl⟩
    | null | bool | text | other =>
      rw [hv] at hcheck
      cases hcheck
  case order => exact require_ok horder
  case perThread =>
    intro ht
    obtain ⟨i, -, hi⟩ := hio' .write
    obtain ⟨w, hw, hv⟩ := perThread_of_ok hper hi ht
    exact ⟨i, w, hw, hi, hv⟩

section emitted
variable {c : Config} {base : Value} {actual : Backend} {op : Op} {threads bytes : Int}
  {latency : Bool} {name : String}
  {bytesCount batchBytes : Option Int} {s : Step} {l : List (Flag × Value)}

def binaryOf (actual : Backend) : Binary := if actual = .gds then .gds else .gpu

def targetFlags : Binary → List Flag
  | .gds => [.file]
  | .gpu => [.controller, .backend, .nsid, .queues, .qd, .bufferBytes, .ring, .window, .batchBytes]

def stepFlags (binary : Binary) : List Flag :=
  [.op, .pattern, .threads, .bytes, .io, .offset, .gpu, .seed,
    .latency]++[.tilePages]++[.workerOrder]++
    targetFlags binary++[.allowWrite]

theorem stepFlags_nodup (binary : Binary) : (stepFlags binary).Nodup := by cases binary <;> decide

theorem stepFlags_allowed (binary : Binary) : stepFlags binary ⊆ allowed binary := by
  cases binary <;> decide

theorem lookup_none {fs : List Flag} (flag : Flag) (h : (l.map Prod.fst).Sublist fs)
    (hf : flag ∉ fs) : l.lookup flag = none := by
  rw [List.lookup_eq_none_iff]
  intro x hx
  have hmem : x.1 ∈ fs := h.subset (List.mem_map_of_mem hx)
  simp only [bne_iff_ne, ne_eq]
  rintro rfl
  exact hf hmem

def batchArg (actual : Backend) (batchBytes : Option Int) : Option Int :=
  if actual = .gds then none else given batchBytes

theorem tileArgs_flags (c : Config) (op : Op) :
    ((tileArgs c op).map Prod.fst).Sublist [.tilePages] := by
  simp only [tileArgs]
  split <;> simp

theorem orderArgs_flags (c : Config) : ((orderArgs c).map Prod.fst).Sublist [.workerOrder] := by
  simp only [orderArgs]
  split <;> simp

theorem writeArgs_flags (op : Op) : ((writeArgs op).map Prod.fst).Sublist [.allowWrite] := by
  unfold writeArgs
  split <;> simp

theorem targetArgs_spec (h : targetArgs c actual op batchBytes = .ok l) :
    (l.map Prod.fst).Sublist (targetFlags (binaryOf actual)) ∧
      l.lookup .batchBytes = (batchArg actual batchBytes).map .int := by
  unfold targetArgs at h
  split at h
  · next hg =>
    obtain ⟨file, -, h⟩ := bind_eq_ok.mp h
    obtain rfl := Except.ok.inj h
    subst hg
    exact ⟨.refl _, rfl⟩
  · next hg =>
    obtain ⟨controller, -, h⟩ := bind_eq_ok.mp h
    obtain ⟨nsid, -, h⟩ := bind_eq_ok.mp h
    obtain ⟨queues, -, h⟩ := bind_eq_ok.mp h
    obtain ⟨qd, -, h⟩ := bind_eq_ok.mp h
    obtain ⟨bufferBytes, -, h⟩ := bind_eq_ok.mp h
    obtain ⟨ring, -, h⟩ := bind_eq_ok.mp h
    obtain ⟨window, -, h⟩ := bind_eq_ok.mp h
    obtain rfl := Except.ok.inj h
    rw [binaryOf, if_neg hg, batchArg, if_neg hg]
    cases given batchBytes with
    | none =>
      refine ⟨?_, rfl⟩
      change [Flag.controller, .backend, .nsid, .queues, .qd, .bufferBytes, .ring,
        .window].Sublist _
      decide
    | some b => exact ⟨.refl _, rfl⟩

structure Emitted (c : Config) (base : Value) (actual : Backend) (op : Op) (threads bytes : Int)
    (latency : Bool) (batch : Option Int) (s : Step) : Prop where
  writes : s.writes = decide (op = .write)
  binary : s.binary = binaryOf actual
  flags : (s.args.map Prod.fst).Sublist (stepFlags s.binary)
  threads : s.args.lookup .threads = some (.int threads)
  bytes : s.args.lookup .bytes = some (.int bytes)
  io : s.args.lookup .io = some (c.get op.ioKey (.int 65536))
  offset : s.args.lookup .offset = some base
  pattern : s.args.lookup .pattern = some (.text "sequential")
  latency : s.args.lookup .latency = some (.int (if latency then 1 else 0))
  tile : s.args.lookup .tilePages =
    if (c.get op.tileKey (.int 0)).truthy then some (c.get op.tileKey (.int 0)) else none
  order : (s.args.lookup .workerOrder).getD (.text "linear") = c.get .workerOrder (.text "linear")
  batch : s.args.lookup .batchBytes = batch.map .int

theorem transfer_emitted
    (h : transfer c base actual op threads latency name bytesCount batchBytes = .ok s) :
    ∃ bytes, bytesOf c bytesCount = .ok bytes ∧
      Emitted c base actual op threads bytes latency (batchArg actual batchBytes) s := by
  unfold transfer at h
  obtain ⟨bytes, hbytes, h⟩ := bind_eq_ok.mp h
  obtain ⟨gpu, -, h⟩ := bind_eq_ok.mp h
  obtain ⟨seed, -, h⟩ := bind_eq_ok.mp h
  obtain ⟨target, htarget, h⟩ := bind_eq_ok.mp h
  obtain rfl := Except.ok.inj h
  obtain ⟨hflags, hbatch⟩ := targetArgs_spec htarget
  refine ⟨bytes, hbytes, rfl, rfl, ?_, rfl, rfl, rfl, rfl, rfl, rfl, ?_, ?_, ?_⟩
  · simp only [List.map_append]
    exact (((List.Sublist.refl _).append (tileArgs_flags c op)).append (orderArgs_flags c)).append
      hflags
      |>.append (writeArgs_flags op)
  · have htarget : target.lookup .tilePages = none :=
      lookup_none _ hflags (by cases actual <;> decide)
    simp only [List.lookup_append, lookup_none .tilePages (orderArgs_flags c) (by decide), htarget,
      lookup_none .tilePages (writeArgs_flags op) (by decide), Option.or_none, tileArgs]
    by_cases ht : (c.get op.tileKey (.int 0)).truthy = true
    · rw [if_pos ht, if_pos ht]
      rfl
    · rw [if_neg ht, if_neg ht]
      rfl
  · have htarget : target.lookup .workerOrder = none :=
      lookup_none _ hflags (by cases actual <;> decide)
    simp only [List.lookup_append, lookup_none .workerOrder (tileArgs_flags c op) (by decide),
      htarget, lookup_none .workerOrder (writeArgs_flags op) (by decide), Option.or_none, orderArgs]
    by_cases ho : c.get .workerOrder (.text "linear") = .text "linear"
    · rw [if_neg (not_not.mpr ho), ho]
      rfl
    · rw [if_pos ho]
      rfl
  · simp only [List.lookup_append, lookup_none .batchBytes (tileArgs_flags c op) (by decide),
      lookup_none .batchBytes (orderArgs_flags c) (by decide), hbatch,
      lookup_none .batchBytes (writeArgs_flags op) (by decide), Option.or_none]
    rfl

end emitted

section programs
variable {o : List (Flag × Value)} {flag : Flag} {fallback : BitVec 64} {n : Int}

theorem options_append {fs : List Flag} (acc : List (Flag × Value))
    (hn : ((acc++o).map Prod.fst).Nodup) (hs : o.map Prod.fst ⊆ fs) :
    (o.foldlM (fun values (flag, value) =>
      if flag ∉ fs then Except.error ("Unknown option or missing value: " ++ flag.text)
      else if (values.lookup flag).isSome then .error ("Duplicate option: " ++ flag.text)
      else .ok (values++[(flag, value)])) acc) = .ok (acc++o) := by
  induction o generalizing acc with
  | nil => simp [pure, Except.pure]
  | cons x o ih =>
    obtain ⟨flag, value⟩ := x
    have hmem : flag ∈ fs := hs (by simp)
    have hnew : acc.lookup flag = none := by
      rw [List.lookup_eq_none_iff]
      rintro ⟨f, v⟩ hx
      simp only [bne_iff_ne, ne_eq]
      rintro rfl
      simp only [List.map_append, List.map_cons, List.nodup_append] at hn
      exact hn.2.2 _ (List.mem_map_of_mem hx) _ (List.mem_cons_self ..) rfl
    rw [List.foldlM_cons]
    simp only [hmem, not_true_eq_false, if_false, hnew, Option.isSome_none, Bool.false_eq_true]
    change List.foldlM _ (acc++[(flag, value)]) o = _
    rw [ih (acc++[(flag, value)]) (by simpa using hn) (fun f hf => hs (by simp [hf]))]
    simp

theorem options_ok {fs : List Flag} (hn : (o.map Prod.fst).Nodup) (hs : o.map Prod.fst ⊆ fs) :
    options fs o = .ok o := options_append [] hn hs

theorem optionNumber_natCast {m : Nat} (h : o.lookup flag = some (.int m)) (hm : m < 2^64) :
    optionNumber o flag fallback = .ok (BitVec.ofNat 64 m) := by
  simp only [optionNumber, h, Int.toNat_natCast]
  rw [if_neg (Int.not_lt.mpr (Int.natCast_nonneg m)), if_pos (by exact_mod_cast hm)]

theorem optionNumber_none (h : o.lookup flag = none) :
    optionNumber o flag fallback = .ok fallback := by
  simp only [optionNumber, h]

end programs

section sizes
variable {i t a b off k : Nat}

theorem toNat_two_pow (h : a < 64) : (BitVec.ofNat 64 (2^a)).toNat = 2^a := by
  rw [BitVec.toNat_ofNat, Nat.mod_eq_of_lt (Nat.pow_lt_pow_right Nat.one_lt_two h)]

theorem setWidth_two_pow (ht : t ≤ 12) :
    ((BitVec.ofNat 64 (2^t)).setWidth 32).setWidth 64 = BitVec.ofNat 64 (2^t) := by
  have hlt : 2^t < 2^32 := Nat.pow_lt_pow_right Nat.one_lt_two (by omega)
  refine BitVec.eq_of_toNat_eq ?_
  rw [BitVec.toNat_setWidth, BitVec.toNat_setWidth, toNat_two_pow (by omega), Nat.mod_eq_of_lt hlt,
    Nat.mod_eq_of_lt (Nat.lt_trans hlt (by decide))]

structure Sized (i t a b off : Nat) : Prop where
  io : i = 12 ∨ i = 16
  workers : t ≤ 12
  whole : i+t ≤ a
  batch : a ≤ b
  aligned : off%2^i = 0
  fits : off+2^b < 2^64

theorem lt_of_two_pow_lt (h : 2^b < 2^64) : b < 64 := (Nat.pow_lt_pow_iff_right Nat.one_lt_two).mp h

theorem Sized.valid (h : Sized i t a b off) : Valid (BitVec.ofNat 64 (2^a)) (BitVec.ofNat 64 (2^i))
    (BitVec.ofNat 64 (2^t)) (BitVec.ofNat 64 off) := by
  obtain ⟨hi, ht, hit, hab, hoff, hlt⟩ := h
  have hb : b < 64 := lt_of_two_pow_lt (by omega)
  have hpow : 2^a ≤ 2^b := Nat.pow_le_pow_right Nat.two_pos hab
  have hdiv : 2^a/2^i = 2^(a-i) := Nat.pow_div (by omega) Nat.two_pos
  have hoff' : (BitVec.ofNat 64 off).toNat = off := by
    rw [BitVec.toNat_ofNat, Nat.mod_eq_of_lt (Nat.lt_of_le_of_lt (Nat.le_add_right ..) hlt)]
  constructor <;>
    simp only [toNat_two_pow (show a < 64 by omega), toNat_two_pow (show i < 64 by omega),
      toNat_two_pow (show t < 64 by omega), hoff']
  case io_eq =>
    rcases hi with rfl | rfl
    · exact .inl rfl
    · exact .inr rfl
  case bytes_pos => exact Nat.two_pow_pos a
  case bytes_mod => exact Nat.mod_eq_zero_of_dvd (Nat.pow_dvd_pow 2 (by omega))
  case threads_pos => exact Nat.two_pow_pos t
  case threads_le => exact Nat.pow_le_pow_right Nat.two_pos ht
  case pages_mod =>
    rw [hdiv]
    exact Nat.mod_eq_zero_of_dvd (Nat.pow_dvd_pow 2 (by omega))
  case offset_mod => exact hoff
  case end_lt => omega
  case pages_eq => exact ⟨a-i, hdiv⟩

theorem Sized.all (h : Sized i t a b off) : Sized i t b b off :=
  ⟨h.io, h.workers, h.whole.trans h.batch, Nat.le_refl b, h.aligned, h.fits⟩

structure Options (i t a b off : Nat) (p : Params) : Prop where
  bytes : p.bytes = BitVec.ofNat 64 (2^b)
  io : p.io = BitVec.ofNat 64 (2^i)
  batch : p.batchBytes = BitVec.ofNat 64 (2^a)
  offset : p.offset = BitVec.ofNat 64 off
  threads : p.threads = BitVec.ofNat 64 (2^t)
  tile : p.tile = 0#64 ∨ ∃ k < 64, p.tile = BitVec.ofNat 64 (2^k)
  order : p.order ≠ none
  sequential : p.random = false
  untimed : a = b ∨ p.latency = false

variable {p : Params}

theorem Options.workers (hp : Options i t a b off p) (ht : t ≤ 12) :
    p.workers.setWidth 64 = BitVec.ofNat 64 (2^t) := by
  rw [Params.workers, hp.threads, setWidth_two_pow ht]

theorem Options.orderCheck (hp : Options i t a b off p) (ht : t ≤ 12) : orderCheck p = .ok () := by
  unfold Workload.orderCheck
  simp only [hp.workers ht]
  rw [if_neg]
  rintro (hnone | ⟨-, hle, hmod⟩)
  · exact hp.order hnone
  · have hle' : 2^5 ≤ 2^t := by
      have := BitVec.le_def.mp hle
      rwa [toNat_two_pow (by omega)] at this
    have h5 : 5 ≤ t := (Nat.pow_le_pow_iff_right Nat.one_lt_two).mp hle'
    refine hmod (BitVec.eq_of_toNat_eq ?_)
    rw [BitVec.toNat_umod, toNat_two_pow (by omega)]
    exact Nat.mod_eq_zero_of_dvd (Nat.pow_dvd_pow 2 h5)

theorem Options.tileCheck (hp : Options i t a b off p) (h : Sized i t a b off) (ha : a < 64) :
    tileCheck p = .ok () := by
  have hit := h.whole
  have hper : (p.batchBytes/p.io/p.workers.setWidth 64).toNat = 2^(a-i-t) := by
    rw [hp.batch, hp.io, hp.workers h.workers, BitVec.toNat_udiv, BitVec.toNat_udiv,
      toNat_two_pow ha, toNat_two_pow (by omega), toNat_two_pow (by omega),
      Nat.pow_div (by omega) Nat.two_pos, Nat.pow_div (by omega) Nat.two_pos]
  unfold Workload.tileCheck
  rw [if_neg]
  rintro ⟨hne, hcheck⟩
  rcases hp.tile with hzero | ⟨k, hk, htile⟩
  · exact hne hzero
  · have htile' : p.tile.toNat = 2^k := by rw [htile, toNat_two_pow hk]
    rcases hcheck with hand | ⟨hlt, hmod⟩
    · exact hand (and_pred_eq_zero htile')
    · have hlt' : 2^k < 2^(a-i-t) := by
        have := BitVec.lt_def.mp hlt
        rwa [hper, htile'] at this
      refine hmod (BitVec.eq_of_toNat_eq ?_)
      rw [BitVec.toNat_umod, hper, htile']
      exact Nat.mod_eq_zero_of_dvd
        (Nat.pow_dvd_pow 2 ((Nat.pow_lt_pow_iff_right Nat.one_lt_two).mp hlt').le)

theorem Options.batchCheck (hp : Options i t a b off p) (hab : a ≤ b) (hb : b < 64) :
    batchCheck p = .ok () := by
  have hbytes : p.bytes.toNat = 2^b := by rw [hp.bytes, toNat_two_pow hb]
  have hbatch : p.batchBytes.toNat = 2^a := by rw [hp.batch, toNat_two_pow (by omega)]
  unfold Workload.batchCheck
  rw [if_neg]
  rintro (hlt | hmod | ⟨hne, hrandom | hlatency⟩)
  · have hlt' := BitVec.lt_def.mp hlt
    rw [hbytes, hbatch] at hlt'
    exact absurd (Nat.pow_le_pow_right Nat.two_pos hab) (Nat.not_le.mpr hlt')
  · refine hmod (BitVec.eq_of_toNat_eq ?_)
    rw [BitVec.toNat_umod, hbytes, hbatch]
    exact Nat.mod_eq_zero_of_dvd (Nat.pow_dvd_pow 2 hab)
  · rw [hp.sequential] at hrandom
    cases hrandom
  · rcases hp.untimed with rfl | huntimed
    · exact hne (hp.batch.trans hp.bytes.symm)
    · rw [huntimed] at hlatency
      cases hlatency

theorem Options.workloadChecks (hp : Options i t a b off p) (h : Sized i t a b off)
    {binary : Binary} (hgds : binary = .gds → t ≤ 6) : workloadChecks binary p = .ok () := by
  have hb : b < 64 := lt_of_two_pow_lt (Nat.lt_of_le_of_lt (Nat.le_add_left ..) h.fits)
  have ha : a < 64 := Nat.lt_of_le_of_lt h.batch hb
  have hwhole : validateWorkload p.bytes p.io (p.workers.setWidth 64) p.offset = .ok () := by
    rw [hp.bytes, hp.io, hp.workers h.workers, hp.offset]
    exact ok_of_valid h.all.valid
  have hbatch : validateWorkload p.batchBytes p.io (p.workers.setWidth 64) p.offset = .ok () := by
    rw [hp.batch, hp.io, hp.workers h.workers, hp.offset]
    exact ok_of_valid h.valid
  have horder := hp.orderCheck h.workers
  have htile := hp.tileCheck h ha
  cases binary with
  | gpu =>
    simp only [Planner.workloadChecks, hwhole, hbatch, horder, htile, hp.batchCheck h.batch hb,
      bind, Except.bind]
  | gds =>
    have hle : ¬64#64 < p.workers.setWidth 64 := by
      intro hlt
      have hlt' := BitVec.lt_def.mp hlt
      rw [hp.workers h.workers, toNat_two_pow (by have := h.workers; omega)] at hlt'
      exact absurd (Nat.pow_le_pow_right Nat.two_pos (hgds rfl)) (Nat.not_le.mpr hlt')
    simp only [Planner.workloadChecks, hle, if_false, hwhole, horder, htile, bind, Except.bind]

end sizes

section steps
variable {c : Config} {actual : Backend} {op : Op} {latency : Bool} {batch : Option Int} {s : Step}
  {t a b off : Nat}

theorem Step.Fits.of_lookup (h : s.Fits) {flag : Flag} {m : Nat}
    (hl : s.args.lookup flag = some (.int m)) : m < 2^64 := by
  obtain ⟨l₁, l₂, he, -⟩ := List.lookup_eq_some_iff.mp hl
  have hlt := h.1 (flag, .int m) (by rw [he]; simp)
  rw [Value.isBelow, decide_eq_true_iff] at hlt
  exact_mod_cast hlt

theorem Emitted.extent {threads bytes : Int} {base : Int}
    (he : Emitted c (.int base) actual op threads bytes latency batch s) :
    s.extent = some (base, base+bytes) := by
  simp only [Step.extent, he.offset, he.bytes]

/-- A step whose numbers are powers of two that divide as they should is accepted. -/
theorem Emitted.accepted
    (he : Emitted c (.int off) actual op (2^t : Nat) (2^b : Nat) latency batch s)
    (hc : Loaded c) (hoff : 65536 ∣ off) (ht : t ≤ 12) (hgds : actual = .gds → t ≤ 6)
    (hbatch : batch = none ∧ a = b ∨ batch = some (2^a : Nat) ∧ latency = false)
    (hwhole : ∀ i : Nat, (i = 12 ∨ i = 16) → c.get op.ioKey (.int 65536) = .int (2^i : Nat) →
      i+t ≤ a) (hab : a ≤ b)
    (hfit : s.Fits) : s.Accepted := by
  intro seed
  obtain ⟨i, hi, hio⟩ := hc.io op
  have hend : off+2^b < 2^64 := by
    have hlast := hfit.2 _ he.extent
    dsimp only at hlast
    exact_mod_cast hlast
  have haligned : off%2^i = 0 := by
    rcases hi with rfl | rfl <;> omega
  have hsized : Sized i t a b off := ⟨hi, ht, hwhole i hi hio, hab, haligned, hend⟩
  have hb : b < 64 := lt_of_two_pow_lt (Nat.lt_of_le_of_lt (Nat.le_add_left ..) hend)
  have hpow : ∀ k < 64, 2^k < 2^64 := fun k hk => Nat.pow_lt_pow_right Nat.one_lt_two hk
  have hflags : options (allowed s.binary) s.args = .ok s.args :=
    options_ok ((stepFlags_nodup _).sublist he.flags)
      (List.Subset.trans he.flags.subset (stepFlags_allowed _))
  obtain ⟨tile, htile, htileOk⟩ : ∃ tile, optionNumber s.args .tilePages 0#64 = .ok tile ∧
      (tile = 0#64 ∨ ∃ k < 64, tile = BitVec.ofNat 64 (2^k)) := by
    have hlookup := he.tile
    rcases hc.tile op with hzero | ⟨k, hk⟩
    · rw [hzero] at hlookup
      exact ⟨_, optionNumber_none hlookup, .inl rfl⟩
    · rw [hk] at hlookup
      have htruthy : (Value.int (2^k : Nat)).truthy = true := by simp [Value.truthy]
      rw [if_pos htruthy] at hlookup
      have hlt := hfit.of_lookup hlookup
      exact ⟨_, optionNumber_natCast hlookup hlt, .inr ⟨k, lt_of_two_pow_lt hlt, rfl⟩⟩
  have hbatchNumber :
    optionNumber s.args .batchBytes (BitVec.ofNat 64 (2^b)) = .ok (BitVec.ofNat 64 (2^a)) := by
    have hlookup := he.batch
    rcases hbatch with ⟨rfl, rfl⟩ | ⟨rfl, -⟩
    · exact optionNumber_none hlookup
    · exact optionNumber_natCast hlookup (hpow a (by omega))
  have hlatency : optionNumber s.args .latency 0#64 = .ok (if latency then 1#64 else 0#64) := by
    have hlookup := he.latency
    cases latency with
    | true => exact optionNumber_natCast (m := 1) hlookup (by decide)
    | false => exact optionNumber_natCast (m := 0) hlookup (by decide)
  have hnumber : ∀ flag (fallback : BitVec 64) (k : Nat), k < 64 →
    s.args.lookup flag = some (.int (2^k : Nat)) →
      optionNumber s.args flag fallback = .ok (BitVec.ofNat 64 (2^k)) :=
    fun flag fallback k hk hlookup => optionNumber_natCast hlookup (hpow k hk)
  have hoffset : optionNumber s.args .offset 0#64 = .ok (BitVec.ofNat 64 off) :=
    optionNumber_natCast he.offset (Nat.lt_of_le_of_lt (Nat.le_add_right ..) hend)
  have horder : orderOf ((s.args.lookup .workerOrder).getD (.text "linear")) ≠ none := by
    rw [he.order]
    rcases hc.order with horder | horder <;> rw [horder] <;> decide
  have hrandom :
    decide ((s.args.lookup .pattern).getD (.text "sequential") = .text "random") = false := by
    rw [he.pattern]
    decide
  refine ⟨_, _, hflags, ?_,
    Options.workloadChecks (p := ⟨BitVec.ofNat 64 (2^b), BitVec.ofNat 64 (2^i),
      BitVec.ofNat 64 (2^a), tile, BitVec.ofNat 64 off, seed, BitVec.ofNat 64 (2^t),
    orderOf ((s.args.lookup .workerOrder).getD (.text "linear")),
    (s.args.lookup .pattern).getD (.text "sequential") = .text "random",
    (if latency then 1#64 else 0#64) ≠ 0#64⟩) ?_ hsized ?_⟩
  · simp only [workload, hnumber .bytes _ b hb he.bytes, hnumber .io _ i (by omega) (hio ▸ he.io),
      hbatchNumber, htile, hoffset, hnumber .threads _ t (by omega) he.threads, hlatency, bind,
      Except.bind, pure, Except.pure]
  · refine ⟨rfl, rfl, rfl, rfl, rfl, htileOk, horder, hrandom, ?_⟩
    rcases hbatch with ⟨-, rfl⟩ | ⟨-, rfl⟩
    · exact .inl rfl
    · exact .inr rfl
  · rw [he.binary, binaryOf]
    intro hg
    refine hgds ?_
    by_contra hne
    rw [if_neg hne] at hg
    cases hg

/-- Rounding a power of two up to whole batches of a power of two gives the larger one. -/
theorem mul_batches {m e : Nat} {total batch : Int} (hm : total = (2^m : Nat))
    (he : batch = (2^e : Nat)) : batch*max 1 ((total+batch-1)/batch) = (2^max m e : Nat) := by
  have hpos := Nat.two_pow_pos e
  have hmpos := Nat.two_pow_pos m
  have hround : (2^m+2^e-1)/2^e = 2^(max m e-e) := by
    rcases Nat.le_total e m with hle | hle
    · have hsplit : 2^m = 2^e*2^(m-e) := by rw [← Nat.pow_add, Nat.add_sub_cancel' hle]
      rw [Nat.max_eq_left hle, hsplit, Nat.add_sub_assoc hpos, Nat.mul_add_div hpos,
        Nat.div_eq_of_lt (Nat.sub_lt hpos Nat.one_pos), Nat.add_zero]
    · have hlt : 2^m ≤ 2^e := Nat.pow_le_pow_right Nat.two_pos hle
      rw [Nat.max_eq_right hle, Nat.sub_self, Nat.pow_zero]
      exact Nat.div_eq_of_lt_le (by omega) (by omega)
  have hone : 1 ≤ 2^(max m e-e) := Nat.two_pow_pos _
  have hcast : total+batch-1 = (2^m+2^e-1 : Nat) := by omega
  rw [hcast, he, ← Int.natCast_ediv, hround,
    max_eq_right (by exact_mod_cast hone), ← Int.natCast_mul, ← Nat.pow_add,
    Nat.add_sub_cancel' (Nat.le_max_right m e)]

variable {m : Nat} {name : String} {backend : Backend}

theorem transfer_plain (hc : Loaded c) (hm : 28 ≤ m)
    (htotal : c.number .totalBytes = .ok (2^m : Nat))
    (hoff : 65536 ∣ off) (ht : t ≤ 12) (hgds : actual = .gds → t ≤ 6)
    (h : transfer c (.int off) actual op (2^t : Nat) latency name none none = .ok s) :
    (s.Fits → s.Accepted) ∧ s.writes = decide (op = .write) ∧
    s.extent = some ((off : Int), (off : Int)+(2^m : Nat)) := by
  obtain ⟨bytes, hbytes, he⟩ := transfer_emitted h
  obtain rfl : (2^m : Nat) = bytes := Except.ok.inj (htotal.symm.trans hbytes)
  have hnone : batchArg actual none = none := by cases actual <;> rfl
  refine ⟨he.accepted hc hoff ht hgds (.inl ⟨hnone, rfl⟩) (fun i hi _ => by omega) (Nat.le_refl m),
    he.writes, he.extent⟩

theorem postwrite_spec (hc : Loaded c) (hm : 28 ≤ m)
    (htotal : c.number .totalBytes = .ok (2^m : Nat))
    (hoff : 65536 ∣ off) (ht : t ≤ 12) (hgds : backend = .gds → t ≤ 6)
    (h : postwrite c backend (.int off) (2^t : Nat) = .ok s) :
    (s.Fits → s.Accepted) ∧ s.writes = true ∧ ∃ b, m ≤ b ∧
    s.extent = some ((off : Int), (off : Int)+(2^b : Nat)) := by
  have hplain : transfer c (.int off) backend .write (2^t : Nat) false "write" none none = .ok s →
      (s.Fits → s.Accepted) ∧ s.writes = true ∧ ∃ b, m ≤ b ∧
      s.extent = some ((off : Int), (off : Int)+(2^b : Nat)) := by
    intro h
    obtain ⟨haccepted, hwrites, hextent⟩ := transfer_plain hc hm htotal hoff ht hgds h
    exact ⟨haccepted, hwrites, m, Nat.le_refl m, hextent⟩
  unfold postwrite at h
  simp only at h
  split at h
  · exact hplain h
  next hper =>
  simp only [Bool.not_eq_eq_eq_not, Bool.not_true, not_or, Bool.not_eq_false] at hper
  obtain ⟨i, w, hiw, hio, hw⟩ := hc.perThread hper.1
  obtain ⟨perWorker, hpw, h⟩ := bind_eq_ok.mp h
  rw [hw] at hpw
  obtain rfl : (2^w : Nat) = perWorker := Except.ok.inj hpw
  obtain ⟨total, htotal', h⟩ := bind_eq_ok.mp h
  obtain rfl : (2^m : Nat) = total := Except.ok.inj (htotal.symm.trans htotal')
  obtain ⟨limit, -, h⟩ := bind_eq_ok.mp h
  split at h
  · exact hplain h
  have hbatch : ((2^t : Nat) : Int)*(2^w : Nat) = (2^(t+w) : Nat) := by
    rw [← Int.natCast_mul, ← Nat.pow_add]
  rw [mul_batches rfl hbatch, hbatch] at h
  obtain ⟨bytes, hbytes, he⟩ := transfer_emitted h
  have hgiven : ∀ k : Nat, given (some (2^k : Nat)) = some ((2^k : Nat) : Int) := by
    intro k
    simp [given]
  rw [bytesOf, hgiven] at hbytes
  obtain rfl : (2^max m (t+w) : Nat) = bytes := Except.ok.inj hbytes
  have harg : batchArg backend (some (2^(t+w) : Nat)) = some ((2^(t+w) : Nat) : Int) := by
    rw [batchArg, if_neg hper.2, hgiven]
  refine ⟨he.accepted hc hoff ht hgds (.inr ⟨harg, rfl⟩) (fun j _ hj => ?_) (Nat.le_max_right ..),
    he.writes, max m (t+w), Nat.le_max_left .., he.extent⟩
  have hji : 2^j = 2^i := Int.ofNat.inj (Value.int.inj (hj.symm.trans hio))
  have := Nat.pow_right_injective (Nat.le_refl 2) hji
  omega

end steps

section jobs
variable {c : Config} {panel : Panel} {backend : Backend} {off m : Nat} {jobs : List Job}
  {job : Job}

structure Good (panel : Panel) (job : Job) : Prop where
  accepted : ∀ step ∈ job.steps, step.Fits → step.Accepted
  covered : panel ≠ .fig1c → job.ReadsWritten

def Workers (backend : Backend) (n : Int) : Prop := ∃ t : Nat, t ≤ 12 ∧ (backend = .gds → t ≤ 6) ∧
    n = (2^t : Nat)

theorem workers_of_le {n : Int} (h : ∃ t < 13, n = (2^t : Nat)) (hg : ¬(backend = .gds ∧ 64 < n)) :
    Workers backend n := by
  obtain ⟨t, ht, rfl⟩ := h
  refine ⟨t, by omega, fun hb => ?_, rfl⟩
  have hle : 2^t ≤ 2^6 := by
    by_contra hlt
    exact hg ⟨hb, by exact_mod_cast Nat.not_le.mp hlt⟩
  exact (Nat.pow_le_pow_iff_right Nat.one_lt_two).mp hle

section
variable (hc : Loaded c) (hm : 28 ≤ m) (htotal : c.number .totalBytes = .ok (2^m : Nat))
  (hoff : 65536 ∣ off)
include hc hm htotal hoff

theorem good_pair {threads readers : Int} {reader : Backend} {write read : Step}
    (hw : Workers backend threads)
    (hr : Workers reader readers) (hwrite : postwrite c backend (.int off) threads = .ok write)
    (hread : transfer c (.int off) reader .read readers false "postwrite-read" none none = .ok read)
    (hsteps : job.steps = [write, read]) : Good panel job := by
  obtain ⟨t, ht, hgt, rfl⟩ := hw
  obtain ⟨r, hr, hgr, rfl⟩ := hr
  obtain ⟨haw, hww, b, hmb, hew⟩ := postwrite_spec hc hm htotal hoff ht hgt hwrite
  obtain ⟨har, hwr, her⟩ := transfer_plain hc hm htotal hoff hr hgr hread
  constructor
  case accepted =>
    intro step hstep
    rw [hsteps, List.mem_pair] at hstep
    rcases hstep with rfl | rfl
    · exact haw
    · exact har
  case covered =>
    have hle : 2^m ≤ 2^b := Nat.pow_le_pow_right Nat.two_pos hmb
    exact fun _ => ⟨write, read, hsteps, hww, hwr, _, _, _, _, hew, her, Int.le_refl _, by omega⟩

theorem good_sweep {readers : Int} {sweep : List Int} (hs : ∀ n ∈ sweep, ∃ t < 13, n = (2^t : Nat))
    (hr : Workers (if backend = .gds then .gds else .bam) readers)
    (h : sweepJobs panel backend c (.int off) readers sweep = .ok jobs) :
    ∀ job ∈ jobs, Good panel job := by
  intro job hjob
  obtain ⟨threads, hmem, h⟩ := mapM_ok h job hjob
  obtain ⟨write, hwrite, h⟩ := bind_eq_ok.mp h
  obtain ⟨read, hread, h⟩ := bind_eq_ok.mp h
  obtain rfl := Except.ok.inj h
  obtain ⟨hmem, hg⟩ := List.mem_filter.mp hmem
  exact good_pair hc hm htotal hoff (workers_of_le (hs threads hmem) (of_decide_eq_true hg)) hr
    hwrite hread rfl

theorem good_fig1b (hb : backend = .bam) (h : fig1bJobs backend c (.int off) = .ok jobs) :
    ∀ job ∈ jobs, Good panel job := by
  intro job hjob
  obtain ⟨⟨writers, readers⟩, hmem, h⟩ := mapM_ok h job hjob
  obtain ⟨write, hwrite, h⟩ := bind_eq_ok.mp h
  obtain ⟨read, hread, h⟩ := bind_eq_ok.mp h
  obtain rfl := Except.ok.inj h
  simp only [List.mem_flatMap, List.mem_map, Prod.mk.injEq] at hmem
  obtain ⟨w, hw, r, hr, rfl, rfl⟩ := hmem
  have hws : ∀ n ∈ ([1, 512] : List Int), ∃ t < 13, n = (2^t : Nat) := by decide
  have hrs : ∀ n ∈ ([1, 4, 16, 64, 128, 256] : List Int), ∃ t < 13, n = (2^t : Nat) := by decide
  exact good_pair hc hm htotal hoff (workers_of_le (hws w hw) (by simp [hb]))
    (workers_of_le (hrs r hr) (by simp))
    hwrite hread rfl

theorem good_fig1c {noPrewrite : Bool} (h : fig1cJobs backend c (.int off) noPrewrite = .ok jobs) :
    ∀ job ∈ jobs, Good .fig1c job := by
  intro job hjob
  obtain ⟨threads, hmem, h⟩ := mapM_ok h job hjob
  obtain ⟨before, hbefore, h⟩ := bind_eq_ok.mp h
  obtain ⟨read, hread, h⟩ := bind_eq_ok.mp h
  obtain rfl := Except.ok.inj h
  obtain ⟨hmem, hg⟩ := List.mem_filter.mp hmem
  have hts : ∀ n ∈ ([1, 16, 256, 1024, 4096] : List Int), ∃ t < 13, n = (2^t : Nat) := by decide
  obtain ⟨t, ht, hgt, rfl⟩ := workers_of_le (hts threads hmem) (of_decide_eq_true hg)
  obtain ⟨har, -, -⟩ := transfer_plain hc hm htotal hoff ht hgt hread
  refine ⟨fun step hstep => ?_, fun hne => absurd rfl hne⟩
  rcases List.mem_append.mp hstep with hstep | hstep
  · unfold prepare at hbefore
    split at hbefore
    · obtain rfl := Except.ok.inj hbefore
      cases hstep
    · obtain ⟨write, hwrite, hbefore⟩ := bind_eq_ok.mp hbefore
      obtain rfl := Except.ok.inj hbefore
      rw [List.mem_singleton.mp hstep]
      exact (transfer_plain (t := 0) hc hm htotal hoff (Nat.zero_le _)
        (fun _ => Nat.zero_le _) hwrite).1
  · rw [List.mem_singleton.mp hstep]
    exact har

end

end jobs

/-- Planner and benchmark agree: whatever the planner emits for a configuration it accepts
passes the checks of the program it starts, and a measured read covers only bytes that the
write before it wrote. -/
theorem plan_accepted (c : Config) (panel : Panel) (backend : Backend) (noPrewrite : Bool)
    (selected : List Int) (jobs : List Job) (hload : loadConfig c = .ok ())
    (hoff : ∃ off : Nat, 65536 ∣ off ∧ c .offsetBytes = some (.int off))
    (hgds : c .gdsOffsetBytes = some (.int 0))
    (hplan : makePlan panel backend c noPrewrite selected = .ok jobs)
    (hfit : ∀ job ∈ jobs, ∀ step ∈ job.steps, step.Fits) :
    (∀ job ∈ jobs, ∀ step ∈ job.steps, step.Accepted) ∧
    (panel ≠ .fig1c → ∀ job ∈ jobs, job.ReadsWritten) := by
  have hc := loaded_of_ok hload
  obtain ⟨m, hm, htotal⟩ := hc.total
  unfold makePlan at hplan
  obtain ⟨⟨⟩, hbam, hplan⟩ := bind_eq_ok.mp hplan
  obtain ⟨⟨⟩, -, hplan⟩ := bind_eq_ok.mp hplan
  obtain ⟨base, hbase, hplan⟩ := bind_eq_ok.mp hplan
  obtain ⟨all, hall, hplan⟩ := bind_eq_ok.mp hplan
  obtain ⟨⟨⟩, -, hplan⟩ := bind_eq_ok.mp hplan
  have hsub : ∀ job ∈ jobs, job ∈ all := by
    obtain rfl := Except.ok.inj hplan
    split
    · exact fun job hjob => (List.mem_filter.mp hjob).1
    · exact fun _ => id
  obtain ⟨off, hoff, rfl⟩ : ∃ off : Nat, 65536 ∣ off ∧ base = .int off := by
    split at hbase
    · rw [Config.item, hgds] at hbase
      exact ⟨0, ⟨0, rfl⟩, (Except.ok.inj hbase).symm⟩
    · obtain ⟨off, hdvd, hv⟩ := hoff
      rw [Config.item, hv] at hbase
      exact ⟨off, hdvd, (Except.ok.inj hbase).symm⟩
  have hgood : ∀ job ∈ all, Good panel job := by
    cases panel with
    | fig1a =>
      refine good_sweep hc hm htotal hoff (by decide) ?_ hall
      cases backend with
      | gds => exact ⟨6, by decide, fun _ => Nat.le_refl 6, rfl⟩
      | bam | shaperio => exact ⟨7, by decide, by decide, rfl⟩
    | fig3 =>
      exact good_sweep hc hm htotal hoff (by decide) ⟨5, by decide, fun _ => by decide, rfl⟩ hall
    | fig1b =>
      refine good_fig1b hc hm htotal hoff ?_ hall
      by_contra hne
      exact require_ok hbam ⟨.inl rfl, hne⟩
    | fig1c => exact good_fig1c hc hm htotal hoff hall
  exact ⟨fun job hjob step hstep =>
    (hgood job (hsub job hjob)).accepted step hstep (hfit job hjob step hstep),
    fun hne job hjob => (hgood job (hsub job hjob)).covered hne⟩

def fig3Config : Config
  | .queues => some (.int 128)
  | .queueDepth => some (.int 256)
  | .totalBytes => some (.int 1073741824)
  | .writeIoBytes => some (.int 4096)
  | .readIoBytes => some (.int 65536)
  | .postwritePerThreadBytes => some (.int 2097152)
  | .postwriteMaxBatches => some (.int 8)
  | .bufferBytes => some (.int 4294967296)
  | .shaperioWindow => some (.int 16)
  | .ringEntries => some (.int 1048576)
  | .seed => some (.int 133)
  | .repetitions => some (.int 1)
  | .timeoutSeconds => some (.int 1800)
  | .shaperioWriteWindow => some (.int 256)
  | .controller => some (.text "/dev/libnvm0")
  | .namespaceId => some (.int 1)
  | .gpu => some (.int 0)
  | .offsetBytes => some (.int 322122547200)
  | .gdsFile => some (.text "/mnt/shaperio-ae-pm9a3/core.bin")
  | .gdsOffsetBytes => some (.int 0)
  | _ => none

theorem fig3_plan_accepted : ∃ jobs, makePlan .fig3 .shaperio fig3Config false [] = .ok jobs ∧
    jobs.length = 8 ∧
    (∀ job ∈ jobs, ∀ step ∈ job.steps, step.Accepted) ∧ ∀ job ∈ jobs, job.ReadsWritten := by
  have hload : loadConfig fig3Config = .ok () := by decide +kernel
  have hrun : (makePlan .fig3 .shaperio fig3Config false []).toOption.any (fun jobs =>
      decide (jobs.length = 8 ∧ ∀ job ∈ jobs, ∀ step ∈ job.steps, step.Fits)) =
      true := by decide +kernel
  cases hplan : makePlan .fig3 .shaperio fig3Config false [] with
  | error e =>
    rw [hplan] at hrun
    cases hrun
  | ok jobs =>
    rw [hplan] at hrun
    obtain ⟨hlen, hfit⟩ := of_decide_eq_true hrun
    obtain ⟨haccepted, hreads⟩ := plan_accepted fig3Config .fig3 .shaperio false [] jobs hload
      ⟨322122547200, ⟨4915200, rfl⟩, rfl⟩ rfl hplan hfit
    exact ⟨jobs, rfl, hlen, haccepted, hreads (by decide)⟩

end Shaper.Planner
