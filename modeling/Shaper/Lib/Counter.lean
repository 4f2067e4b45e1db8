import Mathlib.Data.Nat.ModEq
import Mathlib.Data.Nat.Bitwise

/-! Unbounded counts read through a `w`-bit register. A count is compared with
another one only through the difference of the readings, which is exact as long
as the two counts lie less than one full turn of the register apart. -/
namespace Shaper.Lib.Counter
variable {w : Nat}

theorem toNat_sub {a b : Nat} (hba : b ≤ a) (h : a - b < 2^w) :
    (BitVec.ofNat w a - BitVec.ofNat w b).toNat = a - b := by
  obtain ⟨d, rfl⟩ := Nat.exists_eq_add_of_le hba
  have hd : b + d - b = d := by omega
  rw [BitVec.ofNat_add, BitVec.add_comm, BitVec.add_sub_cancel, BitVec.toNat_ofNat,
    Nat.mod_eq_of_lt (by omega), hd]

/-- Readings of two counts less than a turn apart determine the counts. -/
theorem ofNat_inj_of_window {a b : Nat} (hab : a ≤ b) (h : b - a < 2^w)
    (he : BitVec.ofNat w a = BitVec.ofNat w b) : a = b := by
  have hs := toNat_sub hab h
  rw [he, BitVec.sub_self] at hs
  simp only [BitVec.toNat_zero] at hs
  omega

theorem ofNat_succ (n : Nat) : BitVec.ofNat w (n+1) = BitVec.ofNat w n + 1#w :=
  BitVec.ofNat_add n 1

theorem and_mask {k : Nat} (hk : k < w) (a : Nat) :
    BitVec.ofNat w a &&& (BitVec.ofNat w (2^k) - 1#w) = BitVec.ofNat w (a % 2^k) := by
  have hlt : 2^k < 2^w := Nat.pow_lt_pow_right (by omega) hk
  have hpos : 1 ≤ 2^k := Nat.one_le_two_pow
  have hm : BitVec.ofNat w (2^k) - 1#w = BitVec.ofNat w (2^k-1) :=
    BitVec.ofNat_sub_ofNat_of_le _ _ (by omega) hpos
  rw [hm, ← BitVec.ofNat_and, Nat.and_two_pow_sub_one_eq_mod]

theorem mask_eq_iff {k : Nat} (hk : k < w) (a b : Nat) :
    BitVec.ofNat w (a % 2^k) = BitVec.ofNat w (b % 2^k) ↔ a % 2^k = b % 2^k := by
  constructor
  · intro h
    have hlt : 2^k < 2^w := Nat.pow_lt_pow_right (by omega) hk
    have ha := Nat.mod_lt a (Nat.two_pow_pos k)
    have hb := Nat.mod_lt b (Nat.two_pow_pos k)
    have hn := congrArg BitVec.toNat h
    rw [BitVec.toNat_ofNat, BitVec.toNat_ofNat] at hn
    rwa [Nat.mod_eq_of_lt (ha.trans hlt), Nat.mod_eq_of_lt (hb.trans hlt)] at hn
  · intro h
    rw [h]

/-- Two different counts with one residue are at least a lap apart. -/
theorem lap_le {c a b : Nat} (hr : a % c = b % c) (hab : a < b) : a + c ≤ b := by
  have hd : c ∣ b - a := (Nat.modEq_iff_dvd' (Nat.le_of_lt hab)).mp hr
  have := Nat.le_of_dvd (by omega) hd
  omega

def cell (w k a : Nat) : BitVec w := BitVec.ofNat w (a % 2^k)

/-- Every cell of `mem` carries the stamp `g+1` of the last `g` of its residue
class that `P` holds of, or is still zero when there is none. -/
def Latest (k : Nat) (P : Nat → Prop) (mem : BitVec w → BitVec w) : Prop :=
  ∀ a, (mem (cell w k a) = 0#w ∧ ∀ g, P g → g % 2^k ≠ a % 2^k) ∨
    ∃ g, P g ∧ g % 2^k = a % 2^k ∧ mem (cell w k a) = BitVec.ofNat w (g+1) ∧
      ∀ g', P g' → g' % 2^k = a % 2^k → g' ≤ g

namespace Latest
variable {k : Nat} {P Q : Nat → Prop} {mem : BitVec w → BitVec w}

theorem init : Latest (w := w) k (fun _ => False) fun _ => 0#w :=
  fun _ => .inl ⟨rfl, fun _ h => h.elim⟩

theorem congr (h : Latest k P mem) (hPQ : ∀ g, P g ↔ Q g) : Latest k Q mem := by
  have : P = Q := funext fun g => propext (hPQ g)
  exact this ▸ h

/-- Storing the stamp of a count no smaller than the others of its class. -/
theorem store (hk : k < w) (h : Latest k P mem) {g : Nat}
    (hlast : ∀ g', P g' → g' % 2^k = g % 2^k → g' ≤ g) (hQ : ∀ g', Q g' ↔ g' = g ∨ P g') :
    Latest k Q (Function.update mem (cell w k g) (BitVec.ofNat w (g+1))) := by
  intro a
  by_cases ha : a % 2^k = g % 2^k
  · right
    refine ⟨g, (hQ g).mpr (.inl rfl), ha.symm, ?_, ?_⟩
    · have hc : cell w k a = cell w k g := congrArg (BitVec.ofNat w) ha
      rw [hc, Function.update_self]
    · intro g' hg' hr
      obtain rfl | hP := (hQ g').mp hg'
      · exact le_refl _
      · exact hlast g' hP (hr.trans ha)
  · have hne : cell w k a ≠ cell w k g := fun he => ha ((mask_eq_iff hk a g).mp he)
    rw [Function.update_of_ne hne]
    obtain ⟨hz, hno⟩ | ⟨g₀, hP, hr, hm, hl⟩ := h a
    · refine .inl ⟨hz, fun g' hg' hr => ?_⟩
      obtain rfl | hP := (hQ g').mp hg'
      · exact ha hr.symm
      · exact hno g' hP hr
    · refine .inr ⟨g₀, (hQ g₀).mpr (.inr hP), hr, hm, fun g' hg' hr' => ?_⟩
      obtain rfl | hP' := (hQ g').mp hg'
      · exact absurd hr'.symm ha
      · exact hl g' hP' hr'

/-- Within one lap of `lo` the cell of a stamped count shows its own stamp. -/
theorem stamp_of (h : Latest k P mem) {lo a : Nat} (hhigh : ∀ g, P g → g < lo + 2^k)
    (hlo : lo ≤ a) (ha : P a) : mem (cell w k a) = BitVec.ofNat w (a+1) := by
  obtain ⟨-, hno⟩ | ⟨g, hP, hr, hm, hl⟩ := h a
  · exact absurd rfl (hno a ha)
  · rcases Nat.lt_or_ge a g with hlt | hge
    · have := lap_le hr.symm hlt
      have := hhigh g hP
      omega
    · rw [hm, Nat.le_antisymm hge (hl a ha rfl)]

/-- Read over a window of `room` counts from `lo`, a stamp found is no leftover of
another lap: the register is wide enough for a lap and the window together. -/
theorem of_stamp (h : Latest k P mem) {lo room a : Nat} (hlow : ∀ g < lo, P g)
    (hhigh : ∀ g, P g → g < lo + 2^k) (hlo : lo ≤ a) (ha : a < lo + room)
    (hroom : 2^k + room ≤ 2^w) (hs : mem (cell w k a) = BitVec.ofNat w (a+1)) : P a := by
  have hc : 0 < 2^k := Nat.two_pow_pos k
  -- the class of `a` has a member in the lap just below `lo`
  have hprev : 2^k ≤ lo → ∃ b, P b ∧ b % 2^k = a % 2^k ∧ lo ≤ b + 2^k := by
    intro hle
    obtain ⟨b, hb, hbl, hbu⟩ : ∃ b, b % 2^k = a % 2^k ∧ lo ≤ b + 2^k ∧ b < lo := by
      refine ⟨a - 2^k * ((a-lo)/2^k + 1), ?_, ?_⟩
      · have hd := Nat.div_add_mod (a-lo) (2^k)
        have hm := Nat.mod_lt (a-lo) hc
        exact Nat.sub_mul_mod (by rw [Nat.mul_add]; omega)
      · have hd := Nat.div_add_mod (a-lo) (2^k)
        have hm := Nat.mod_lt (a-lo) hc
        rw [Nat.mul_add]
        omega
    exact ⟨b, hlow b hbu, hb, hbl⟩
  obtain ⟨hz, hno⟩ | ⟨g, hP, hr, hm, hl⟩ := h a
  · exfalso
    rw [hz] at hs
    have hturn : 2^w ∣ a+1 := by
      have hn := congrArg BitVec.toNat hs
      rw [BitVec.toNat_ofNat, BitVec.toNat_ofNat, Nat.zero_mod] at hn
      exact Nat.dvd_of_mod_eq_zero hn.symm
    have hbig := Nat.le_of_dvd (by omega) hturn
    obtain ⟨b, hb, hbr, -⟩ := hprev (by omega)
    exact hno b hb hbr
  · have hgu := hhigh g hP
    have hgl : lo ≤ g + 2^k := by
      rcases Nat.lt_or_ge lo (2^k) with hlt | hge
      · omega
      · obtain ⟨b, hb, hbr, hbl⟩ := hprev hge
        have := hl b hb hbr
        omega
    have he : BitVec.ofNat w (g+1) = BitVec.ofNat w (a+1) := hm.symm.trans hs
    rcases Nat.le_total g a with hga | hag
    · have := ofNat_inj_of_window (by omega) (by omega) he
      have : g = a := by omega
      exact this ▸ hP
    · have := ofNat_inj_of_window (by omega) (by omega) he.symm
      have : g = a := by omega
      exact this ▸ hP

end Latest

end Shaper.Lib.Counter
