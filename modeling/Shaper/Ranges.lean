import Shaper.PageSlots

/-! The ranges of an array: the global address of a page, and the search for the range
and the page of an element. -/
namespace Shaper.Ranges
open PageCache

section address
variable (log2 : Nat → Nat) (maxRange : Nat)

def nRangesBits : Nat := if maxRange = 1 then 1 else log2 maxRange

def nRangesMask : BitVec 64 := BitVec.ofNat 64 (maxRange-1)

def globalAddress (p : Page) : BitVec 64 :=
  (BitVec.ofNat 64 p.index <<< nRangesBits log2 maxRange) ||| BitVec.ofNat 64 p.range

def pageAt (address : BitVec 64) : Page :=
  ⟨(address &&& nRangesMask maxRange).toNat, (address >>> nRangesBits log2 maxRange).toNat⟩

structure Has (p : Page) : Prop where
  range_lt : p.range < maxRange
  index_lt : p.index < 2^(64-nRangesBits log2 maxRange)

structure RoundTrip : Prop where
  back : ∀ p, Has log2 maxRange p → pageAt log2 maxRange (globalAddress log2 maxRange p) = p
  inj : ∀ p q, Has log2 maxRange p → Has log2 maxRange q →
    globalAddress log2 maxRange p = globalAddress log2 maxRange q → p = q
end address

section
variable {log2 : Nat → Nat} {maxRange : Nat}

theorem exists_two_pow_of_mask {m : Nat} (hm : 0 < m) (h : ∀ r < m, r &&& (m-1) = r) :
    ∃ k, m = 2^k := by
  have hle : 2^m.log2 ≤ m := Nat.log2_self_le hm.ne'
  have hlt : m < 2^(m.log2+1) := Nat.lt_log2_self
  rcases Nat.eq_or_lt_of_le hle with heq | hgt
  · exact ⟨m.log2, heq.symm⟩
  · have hpos := Nat.two_pow_pos m.log2
    have hmod := h (2^m.log2-1) (by omega)
    rw [Nat.and_comm, Nat.and_two_pow_sub_one_eq_mod] at hmod
    rw [Nat.pow_succ] at hlt
    have hsub : (m-1)%2^m.log2 = m-1-2^m.log2 := by
      rw [Nat.mod_eq_sub_mod (by omega), Nat.mod_eq_of_lt (by omega)]
    exact ⟨m.log2+1, by rw [Nat.pow_succ]; omega⟩

theorem RoundTrip.two_pow (h1 : 1 ≤ maxRange) (h64 : maxRange < 2^64)
    (h : RoundTrip log2 maxRange) : ∃ k, maxRange = 2^k := by
  refine exists_two_pow_of_mask h1 fun r hr => ?_
  have hback := congrArg Page.range (h.back ⟨r, 0⟩ ⟨hr, Nat.two_pow_pos _⟩)
  have haddr : globalAddress log2 maxRange ⟨r, 0⟩ = BitVec.ofNat 64 r := by simp [globalAddress]
  change (globalAddress log2 maxRange ⟨r, 0⟩ &&& nRangesMask maxRange).toNat = r at hback
  rwa [haddr, nRangesMask, BitVec.toNat_and, BitVec.toNat_ofNat, BitVec.toNat_ofNat,
    Nat.mod_eq_of_lt (by omega), Nat.mod_eq_of_lt (by omega)] at hback

/-- The cache of the other modules is one whose `max_range` is a power of two. -/
theorem roundTrip_two_pow (hlog : ∀ k < 64, log2 (2^k) = k) {k : Nat} (hk : k < 64) :
    RoundTrip log2 (2^k) := by
  let c : Cache := ⟨0, k, hk⟩
  have hbits : nRangesBits log2 (2^k) = c.nRangesBits := by
    unfold nRangesBits Cache.nRangesBits Cache.maxRange
    rw [hlog k hk, Nat.log2_two_pow]
  have hhas : ∀ p, Has log2 (2^k) p → c.Has p := fun p hp => ⟨hp.range_lt, hbits ▸ hp.index_lt⟩
  have haddr : ∀ p, globalAddress log2 (2^k) p = c.globalAddress p := by
    intro p
    rw [globalAddress, hbits]
    rfl
  refine ⟨fun p hp => ?_, fun p q hp hq he => ?_⟩
  · rw [haddr, pageAt, hbits]
    exact Cache.pageAt_globalAddress (hhas p hp)
  · rw [haddr, haddr] at he
    exact Cache.globalAddress_inj (hhas p hp) (hhas q hq) he

end

/-- Global addresses round-trip just for the powers of two. -/
theorem round_trip_iff (log2 : Nat → Nat) (hlog : ∀ k < 64, log2 (2^k) = k) (maxRange : Nat)
    (h1 : 1 ≤ maxRange)
    (h64 : maxRange < 2^64) : RoundTrip log2 maxRange ↔ ∃ k, maxRange = 2^k := by
  constructor
  · exact RoundTrip.two_pow h1 h64
  · rintro ⟨k, rfl⟩
    exact roundTrip_two_pow hlog ((Nat.pow_lt_pow_iff_right Nat.one_lt_two).mp h64)

theorem sixty_four_ranges : RoundTrip Nat.log2 64 :=
  (round_trip_iff Nat.log2 (fun _ _ => Nat.log2_two_pow) 64 (by decide) (by decide)).mpr ⟨6, rfl⟩

/-- With three ranges page 0 of range 1 is read back as page 0 of range 0. -/
theorem three_ranges_confused : ¬∀ maxRange, 1 ≤ maxRange → maxRange < 2^64 →
    RoundTrip Nat.log2 maxRange := by
  intro h
  have hback := (h 3 (by decide) (by decide)).back ⟨1, 0⟩ ⟨by decide, by decide⟩
  exact absurd hback (by decide)

structure Range where
  indexStart : BitVec 64
  count : BitVec 64
  pageCount : BitVec 64
  pageStartOffset : BitVec 64

def Range.Covers (r : Range) (i : BitVec 64) : Prop :=
  r.indexStart.toNat ≤ i.toNat ∧ i.toNat < r.indexStart.toNat+r.count.toNat

def findFrom (i : BitVec 64) : Int → List Range → Int
  | _, [] => -1
  | k, r :: rs => if r.indexStart ≤ i ∧ i < r.count then k else findFrom i (k+1) rs

def findRange (ranges : List Range) (i : BitVec 64) : Int := findFrom i 0 ranges

def getPage (sizeofT : BitVec 64) (pageSizeLog : Nat) (r : Range) (i : BitVec 64) : BitVec 64 :=
  ((i-r.indexStart)*sizeofT+r.pageStartOffset) >>> pageSizeLog

def Disjoint (ranges : List Range) : Prop := ranges.Pairwise fun r s => ∀ i, r.Covers i →
    ¬s.Covers i

structure Found (sizeofT : BitVec 64) (pageSizeLog : Nat) (ranges : List Range) (i : BitVec 64) :
    Prop where
  range : ∀ (k : Nat) r, ranges[k]? = some r → r.Covers i → findRange ranges i = k
  none : findRange ranges i = -1 ↔ ∀ r ∈ ranges, ¬r.Covers i
  page : ∀ (k : Nat) r, findRange ranges i = k → ranges[k]? = some r →
    r.pageStartOffset.toNat+r.count.toNat*sizeofT.toNat ≤ r.pageCount.toNat*2^pageSizeLog →
    (getPage sizeofT pageSizeLog r i).toNat < r.pageCount.toNat

section lookup
variable {ranges : List Range} {r : Range} {i sizeofT : BitVec 64} {pageSizeLog k : Nat}

theorem covers_of_test (h : r.indexStart ≤ i ∧ i < r.count) : r.Covers i := by
  have hstart := BitVec.le_def.mp h.1
  have hend := BitVec.lt_def.mp h.2
  exact ⟨hstart, by omega⟩

theorem findFrom_eq (i : BitVec 64) (j : Int) (ranges : List Range) :
    (∃ (k : Nat) (r : Range), ranges[k]? = some r ∧ (r.indexStart ≤ i ∧ i < r.count) ∧
      findFrom i j ranges = j+k) ∨
      (∀ r ∈ ranges, ¬(r.indexStart ≤ i ∧ i < r.count)) ∧ findFrom i j ranges = -1 := by
  induction ranges generalizing j with
  | nil => exact .inr ⟨by simp, rfl⟩
  | cons r rs ih =>
    by_cases hr : r.indexStart ≤ i ∧ i < r.count
    · exact .inl ⟨0, r, rfl, hr, by simp [findFrom, hr]⟩
    · have hstep : findFrom i j (r :: rs) = findFrom i (j+1) rs := if_neg hr
      rcases ih (j+1) with ⟨k, s, hs, htest, hk⟩ | ⟨hnone, hk⟩
      · exact .inl ⟨k+1, s, hs, htest, by rw [hstep, hk]; push_cast; omega⟩
      · refine .inr ⟨fun s hs => ?_, by rw [hstep, hk]⟩
        rcases List.mem_cons.mp hs with rfl | hs
        · exact hr
        · exact hnone s hs

theorem Disjoint.eq (h : Disjoint ranges) {j : Nat} {s : Range} (hr : ranges[k]? = some r)
    (hs : ranges[j]? = some s) (hri : r.Covers i) (hsi : s.Covers i) : k = j := by
  obtain ⟨hk, rfl⟩ := List.getElem?_eq_some_iff.mp hr
  obtain ⟨hj, rfl⟩ := List.getElem?_eq_some_iff.mp hs
  rcases Nat.lt_trichotomy k j with hlt | heq | hgt
  · exact absurd hsi (List.pairwise_iff_getElem.mp h k j hk hj hlt i hri)
  · exact heq
  · exact absurd hri (List.pairwise_iff_getElem.mp h j k hj hk hgt i hsi)

theorem getPage_lt (hi : r.Covers i)
    (hfit : r.pageStartOffset.toNat+r.count.toNat*sizeofT.toNat ≤ r.pageCount.toNat*2^pageSizeLog)
    (hsize : 0 < sizeofT.toNat) : (getPage sizeofT pageSizeLog r i).toNat < r.pageCount.toNat := by
  have hsub : (i-r.indexStart).toNat = i.toNat-r.indexStart.toNat :=
    BitVec.toNat_sub_of_le (BitVec.le_def.mpr hi.1)
  have hlt : i.toNat-r.indexStart.toNat < r.count.toNat := by
    have := hi.1
    have := hi.2
    omega
  have hbytes : (i.toNat-r.indexStart.toNat)*sizeofT.toNat < r.count.toNat*sizeofT.toNat :=
    Nat.mul_lt_mul_of_pos_right hlt hsize
  rw [getPage, BitVec.toNat_ushiftRight, Nat.shiftRight_eq_div_pow, BitVec.toNat_add,
    BitVec.toNat_mul, hsub, Nat.mod_add_mod, Nat.div_lt_iff_lt_mul (Nat.two_pow_pos _)]
  have hmod :=
    Nat.mod_le ((i.toNat-r.indexStart.toNat)*sizeofT.toNat+r.pageStartOffset.toNat) (2^64)
  omega

/-- The search is right about an element unless its range hides it. -/
theorem found_iff (hdisj : Disjoint ranges) (hsize : 0 < sizeofT.toNat) :
    Found sizeofT pageSizeLog ranges i ↔ ∀ r ∈ ranges, r.Covers i → i < r.count := by
  constructor
  · intro h r hr hi
    obtain ⟨k, hk, hget⟩ := List.getElem_of_mem hr
    have hfind := h.range k r (List.getElem?_eq_some_iff.mpr ⟨hk, hget⟩) hi
    rcases findFrom_eq i 0 ranges with ⟨j, s, hs, htest, hj⟩ | ⟨-, hj⟩
    · have hr' : ranges[k]? = some r := List.getElem?_eq_some_iff.mpr ⟨hk, hget⟩
      rw [hdisj.eq hr' hs hi (covers_of_test htest), hs] at hr'
      obtain rfl := Option.some.inj hr'
      exact htest.2
    · have : (k : Int) = -1 := hfind.symm.trans hj
      omega
  · intro h
    have htest : ∀ r ∈ ranges, r.Covers i → r.indexStart ≤ i ∧ i < r.count :=
      fun r hr hi => ⟨BitVec.le_def.mpr hi.1, h r hr hi⟩
    rcases findFrom_eq i 0 ranges with ⟨j, s, hs, hsi, hj⟩ | ⟨hnone, hj⟩
    · have hcovers := covers_of_test hsi
      have hj' : findRange ranges i = j := hj.trans (Int.zero_add _)
      refine ⟨fun k r hr hi => ?_, ⟨fun he => ?_, fun he => ?_⟩, fun k r hk hr hfit => ?_⟩
      · rw [hdisj.eq hr hs hi hcovers, hj']
      · rw [hj'] at he
        omega
      · exact absurd hcovers (he s (List.mem_of_getElem? hs))
      · have hkj : k = j := by
          rw [hj'] at hk
          exact_mod_cast hk.symm
        subst hkj
        obtain rfl : s = r := Option.some.inj (hs.symm.trans hr)
        exact getPage_lt hcovers hfit hsize
    · refine ⟨fun k r hr hi => ?_, ⟨fun _ r hr hi => hnone r hr (htest r hr hi), fun _ => hj⟩,
        fun k r hk => ?_⟩
      · exact absurd (htest r (List.mem_of_getElem? hr) hi) (hnone r (List.mem_of_getElem? hr))
      · have : (k : Int) = -1 := hk.symm.trans hj
        omega

theorem exists_hidden (hcount : r.count ≠ 0#64) (hstart : r.indexStart ≠ 0#64) :
    ∃ i, r.Covers i ∧ ¬i < r.count := by
  have hc : 0 < r.count.toNat := Nat.pos_of_ne_zero fun h => hcount (BitVec.eq_of_toNat_eq h)
  have hs : 0 < r.indexStart.toNat := Nat.pos_of_ne_zero fun h => hstart (BitVec.eq_of_toNat_eq h)
  have hc64 := r.count.isLt
  have hs64 := r.indexStart.isLt
  let n := min (r.indexStart.toNat+r.count.toNat-1) (2^64-1)
  have hn : (BitVec.ofNat 64 n).toNat = n := by
    rw [BitVec.toNat_ofNat, Nat.mod_eq_of_lt (by omega)]
  refine ⟨BitVec.ofNat 64 n, ⟨?_, ?_⟩, fun hlt => ?_⟩
  · rw [hn]
    omega
  · rw [hn]
    omega
  · have hlt' := BitVec.lt_def.mp hlt
    rw [hn] at hlt'
    omega

end lookup

/-- The search is right about element `i` just when every range that has it is longer than
`i`, and about all elements just when every range that has any starts at 0. -/
theorem range_lookup_iff (ranges : List Range) (hdisj : Disjoint ranges) (sizeofT : BitVec 64)
    (hsize : 0 < sizeofT.toNat) (pageSizeLog : Nat) :
    (∀ i, Found sizeofT pageSizeLog ranges i ↔ ∀ r ∈ ranges, r.Covers i → i < r.count) ∧
      ((∀ i, Found sizeofT pageSizeLog ranges i) ↔ ∀ r ∈ ranges, r.count = 0#64 ∨
        r.indexStart = 0#64) := by
  refine ⟨fun i => found_iff hdisj hsize,
    ⟨fun h r hr => ?_, fun h i => (found_iff hdisj hsize).mpr fun r hr hi => ?_⟩⟩
  · by_contra hne
    rw [not_or] at hne
    obtain ⟨i, hi, hhidden⟩ := exists_hidden hne.1 hne.2
    exact hhidden ((found_iff hdisj hsize).mp (h i) r hr hi)
  · obtain ⟨hstart, hend⟩ := hi
    rcases h r hr with hzero | hzero
    · rw [hzero] at hend
      simp only [BitVec.toNat_zero] at hend
      omega
    · rw [hzero] at hend
      exact BitVec.lt_def.mpr (by simpa using hend)

def fromZero : Range := ⟨0#64, 1000#64, 2#64, 0#64⟩
def fromTen : Range := ⟨10#64, 5#64, 1#64, 0#64⟩

theorem disjoint_singleton (r : Range) : Disjoint [r] := List.pairwise_singleton _ _

/-- Of 8-byte elements on pages of 4 KB, the last of a range from 0 is found. -/
theorem last_element_found : Found 8#64 12 [fromZero] 999#64 := by
  refine ((range_lookup_iff [fromZero] (disjoint_singleton _) 8#64 (by decide) 12).1 999#64).mpr
    fun r hr _ => ?_
  rw [List.mem_singleton.mp hr]
  decide

/-- Element 12 of a range that has the elements 10 to 14 is not found. -/
theorem late_range_missed : ¬∀ ranges, Disjoint ranges → ∀ sizeofT, 0 < sizeofT.toNat →
    ∀ pageSizeLog i, Found sizeofT pageSizeLog ranges i := by
  intro h
  have hfind := (h [fromTen] (disjoint_singleton _) 8#64 (by decide) 12 12#64).range 0 fromTen rfl
    ⟨by decide, by decide⟩
  exact absurd hfind (by decide)

end Shaper.Ranges
