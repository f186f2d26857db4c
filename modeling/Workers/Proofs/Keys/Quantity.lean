import Mathlib.Algebra.Order.Field.Power
import Mathlib.Algebra.Order.Ring.Abs
import Mathlib.Data.Rat.Cast.Order
import Mathlib.Tactic.Linarith
import Mathlib.Tactic.NormNum
import Mathlib.Tactic.Positivity
import Mathlib.Tactic.Ring
import Workers.Value.Basic
/-! # Exact values of numbers

The quantity that a number stands for: a rational, or an infinity.  A significand and an exponent
are determined by their value, so two numbers of one quantity are one word, the zeros apart, and
`toInt?` finds the integer of a number exactly if its quantity is one.
-/
namespace Workers

/-- A point of the rational line, or an end of it. -/
inductive Quantity where
  | rational (q : ℚ)
  | infinity (negative : Bool)
  deriving DecidableEq

namespace Binary64

def magnitude (x : Binary64) : ℚ := x.significand * (2 : ℚ) ^ x.exponent

def rational (x : Binary64) : ℚ := if x.negative then -x.magnitude else x.magnitude

def quantity (x : Binary64) : Option Quantity :=
  if x.field = 2047 then if x.fraction = 0 then some (.infinity x.negative) else none
  else some (.rational x.rational)

theorem fraction_lt (x : Binary64) : x.fraction < 2 ^ 52 := Nat.mod_lt _ (by decide)

theorem bits_eq (x : Binary64) :
    x.bits.toNat = (if x.negative then 2 ^ 63 else 0) + x.field * 2 ^ 52 + x.fraction := by
  have hlt := x.bits.toNat_lt
  simp only [negative, field, fraction, Nat.pow_eq, decide_eq_true_eq]
  split <;> omega

theorem eq_of_fields {x y : Binary64} (hn : x.negative = y.negative) (he : x.field = y.field)
    (hf : x.fraction = y.fraction) : x = y := by
  obtain ⟨bits⟩ := x
  obtain ⟨bits'⟩ := y
  refine congrArg _ (UInt64.toNat_inj.mp ?_)
  rw [bits_eq ⟨bits⟩, bits_eq ⟨bits'⟩, hn, he, hf]

theorem isZero_iff (x : Binary64) : x.isZero = true ↔ x.field = 0 ∧ x.fraction = 0 := by
  have hlt := x.bits.toNat_lt
  simp only [isZero, field, fraction, Nat.pow_eq, beq_iff_eq]
  omega

theorem quantity_eq_none (x : Binary64) : x.quantity = none ↔ x.isNaN = true := by
  simp only [quantity, isNaN]
  split <;> simp_all

theorem quantity_of_finite {x : Binary64} (hx : x.field ≠ 2047) :
    x.quantity = some (.rational x.rational) := if_neg hx

theorem quantity_rational {x : Binary64} {q : ℚ} (hx : x.quantity = some (.rational q)) :
    x.field ≠ 2047 ∧ x.rational = q := by
  unfold quantity at hx
  split at hx
  · split at hx <;> simp at hx
  · exact ⟨‹_›,by simpa using hx⟩

theorem quantity_infinity {x : Binary64} {negative : Bool}
    (hx : x.quantity = some (.infinity negative)) :
    x.field = 2047 ∧ x.fraction = 0 ∧ x.negative = negative := by
  unfold quantity at hx
  split at hx
  · split at hx
    · exact ⟨‹_›,‹_›,by simpa using hx⟩
    · simp at hx
  · simp at hx

theorem significand_lt (x : Binary64) : x.significand < 2 ^ 53 := by
  have hlt := x.fraction_lt
  simp only [significand, Nat.pow_eq]
  split <;> omega

theorem significand_normal (x : Binary64) : 2 ^ 52 ≤ x.significand ∨ x.exponent = -1074 := by
  simp only [significand, exponent, Nat.pow_eq]
  split
  · exact .inr rfl
  · exact .inl (by omega)

theorem exponent_ge (x : Binary64) : -1074 ≤ x.exponent := by
  simp only [exponent]
  split <;> omega

theorem fields_eq {x y : Binary64} (hs : x.significand = y.significand)
    (he : x.exponent = y.exponent) : x.field = y.field ∧ x.fraction = y.fraction := by
  have hx := x.fraction_lt
  have hy := y.fraction_lt
  simp only [significand, exponent, Nat.pow_eq] at hs he
  split at hs <;> split at hs <;> simp_all
  omega

theorem significand_eq_zero (x : Binary64) : x.significand = 0 ↔ x.isZero = true := by
  rw [isZero_iff]
  simp only [significand, Nat.pow_eq]
  split <;> simp_all

theorem two_zpow_pos (e : ℤ) : (0 : ℚ) < 2 ^ e := zpow_pos (by norm_num) e

theorem magnitude_nonneg (x : Binary64) : 0 ≤ x.magnitude :=
  mul_nonneg (Nat.cast_nonneg _) (two_zpow_pos _).le

theorem magnitude_eq_zero (x : Binary64) : x.magnitude = 0 ↔ x.isZero = true := by
  have hp := (two_zpow_pos x.exponent).ne'
  simp [magnitude, hp, ← significand_eq_zero]

theorem magnitude_units (x : Binary64) {e : ℤ} (he : e ≤ x.exponent) :
    x.magnitude = ((x.significand * 2 ^ (x.exponent - e).toNat : ℕ) : ℚ) * 2 ^ e := by
  have hexp : ((x.exponent - e).toNat : ℤ) = x.exponent - e := Int.toNat_of_nonneg (by omega)
  have hsplit : (2 : ℚ) ^ x.exponent = 2 ^ (x.exponent - e).toNat * 2 ^ e := by
    rw [← zpow_natCast, hexp, ← zpow_add₀ (by norm_num), Int.sub_add_cancel]
  rw [magnitude, hsplit]
  push_cast
  ring

theorem magnitude_ne_of_lt {x y : Binary64} (h : x.exponent < y.exponent) :
    x.magnitude ≠ y.magnitude := by
  intro heq
  rw [y.magnitude_units h.le, magnitude] at heq
  have hsig : x.significand = y.significand * 2 ^ (y.exponent - x.exponent).toNat := by
    exact_mod_cast mul_right_cancel₀ (two_zpow_pos _).ne' heq
  -- the exponent of `y` is not the smallest, so its significand is normal
  have hnormal : 2 ^ 52 ≤ y.significand :=
    y.significand_normal.resolve_right (by have := x.exponent_ge; omega)
  have htwice : 2 ^ 1 ≤ 2 ^ (y.exponent - x.exponent).toNat :=
    Nat.pow_le_pow_right (by decide) (by omega)
  have hlarge := Nat.mul_le_mul hnormal htwice
  have hsmall := x.significand_lt
  omega

theorem fields_of_magnitude {x y : Binary64} (h : x.magnitude = y.magnitude) :
    x.field = y.field ∧ x.fraction = y.fraction := by
  have hexp : x.exponent = y.exponent := by
    rcases lt_trichotomy x.exponent y.exponent with hlt | heq | hgt
    · exact absurd h (magnitude_ne_of_lt hlt)
    · exact heq
    · exact absurd h.symm (magnitude_ne_of_lt hgt)
  refine fields_eq ?_ hexp
  rw [magnitude, magnitude, hexp] at h
  exact_mod_cast mul_right_cancel₀ (two_zpow_pos _).ne' h

theorem magnitude_of_rational {x y : Binary64} (h : x.rational = y.rational) :
    x.magnitude = y.magnitude ∧ (x.negative = y.negative ∨ x.isZero = true) := by
  have hx := x.magnitude_nonneg
  have hy := y.magnitude_nonneg
  rw [← magnitude_eq_zero]
  simp only [rational] at h
  cases hnx : x.negative <;> cases hny : y.negative <;>
    simp only [hnx, hny, if_true, if_false, Bool.false_eq_true] at h
  · exact ⟨h,.inl rfl⟩
  · exact ⟨by linarith,.inr (by linarith)⟩
  · exact ⟨by linarith,.inr (by linarith)⟩
  · exact ⟨by linarith,.inl rfl⟩

/-- Two numbers of the same quantity are the same word, or both are zero. -/
theorem eq_of_quantity {x y : Binary64} {q : Quantity} (hx : x.quantity = some q)
    (hy : y.quantity = some q) : x = y ∨ x.isZero = true ∧ y.isZero = true := by
  cases q with
  | infinity negative =>
    obtain ⟨hex,hfx,hnx⟩ := quantity_infinity hx
    obtain ⟨hey,hfy,hny⟩ := quantity_infinity hy
    exact .inl (eq_of_fields (hnx.trans hny.symm) (hex.trans hey.symm) (hfx.trans hfy.symm))
  | rational q =>
    have hq : x.rational = y.rational :=
      (quantity_rational hx).2.trans (quantity_rational hy).2.symm
    obtain ⟨hmag,hsign⟩ := magnitude_of_rational hq
    obtain ⟨hfield,hfraction⟩ := fields_of_magnitude hmag
    rcases hsign with hn | hzero
    · exact .inl (eq_of_fields hn hfield hfraction)
    · obtain ⟨he,hf⟩ := x.isZero_iff.mp hzero
      exact .inr ⟨hzero,y.isZero_iff.mpr ⟨hfield ▸ he,hfraction ▸ hf⟩⟩

theorem magnitude?_eq_some {x : Binary64} {n : ℕ} :
    x.magnitude? = some n ↔ x.field ≠ 2047 ∧ x.magnitude = n := by
  unfold magnitude?
  split
  · simp_all
  · rename_i hfinite
    split
    · rename_i hexp
      have hmag := x.magnitude_units hexp
      simp only [sub_zero, zpow_zero, mul_one] at hmag
      simp only [Option.some.injEq, hmag, Nat.cast_inj, Nat.pow_eq, ne_eq, hfinite,
        not_false_eq_true, true_and]
    · rename_i hexp
      -- `magnitude * unit = significand`, a natural number of units
      have hunit : x.magnitude * ((2 ^ (-x.exponent).toNat : ℕ) : ℚ) = x.significand := by
        have htoNat : ((-x.exponent).toNat : ℤ) = -x.exponent := Int.toNat_of_nonneg (by omega)
        have hinv : (2 : ℚ) ^ x.exponent * 2 ^ (-x.exponent).toNat = 1 := by
          rw [← zpow_natCast, htoNat, ← zpow_add₀ (by norm_num), add_neg_cancel, zpow_zero]
        rw [magnitude, mul_assoc]
        push_cast
        rw [hinv, mul_one]
      have hpos : 0 < 2 ^ (-x.exponent).toNat := by positivity
      have hwhole : x.magnitude = n ↔ n * 2 ^ (-x.exponent).toNat = x.significand := by
        rw [← mul_left_inj' (c := ((2 ^ (-x.exponent).toNat : ℕ) : ℚ)) (by exact_mod_cast hpos.ne'),
          hunit]
        exact_mod_cast eq_comm
      simp only [Nat.pow_eq, hwhole, ne_eq, hfinite, not_false_eq_true, true_and]
      generalize 2 ^ (-x.exponent).toNat = unit at *
      split
      · rename_i hmod
        have hdiv := Nat.div_mul_cancel (Nat.dvd_of_mod_eq_zero hmod)
        refine ⟨fun h => ?_,fun h => ?_⟩
        · exact (Option.some.inj h) ▸ hdiv
        · exact congrArg some (Nat.eq_of_mul_eq_mul_right hpos (hdiv.trans h.symm))
      · rename_i hmod
        refine ⟨nofun,fun h => absurd ?_ hmod⟩
        rw [← h, Nat.mul_mod_left]

theorem toInt?_eq (x : Binary64) :
    x.toInt? = x.magnitude?.map fun n : ℕ => if x.negative then -(n : ℤ) else n := by
  unfold toInt?
  cases x.magnitude? <;> rfl

/-- `toInt?` is exact: it finds an integer if and only if that is the quantity of the number. -/
theorem toInt?_eq_some {x : Binary64} {i : ℤ} :
    x.toInt? = some i ↔ x.quantity = some (.rational i) := by
  have hnonneg := x.magnitude_nonneg
  constructor
  · intro h
    rw [toInt?_eq] at h
    obtain ⟨n,hn,hi⟩ := Option.map_eq_some_iff.mp h
    obtain ⟨hfinite,hmag⟩ := magnitude?_eq_some.mp hn
    rw [quantity_of_finite hfinite, rational, hmag, ← hi]
    cases x.negative <;> simp
  · intro h
    obtain ⟨hfinite,hq⟩ := quantity_rational h
    have habs : x.magnitude = (i.natAbs : ℚ) := by
      rw [Nat.cast_natAbs, Int.cast_abs, ← hq, rational]
      split
      · rw [abs_neg, abs_of_nonneg hnonneg]
      · rw [abs_of_nonneg hnonneg]
    have hn := magnitude?_eq_some.mpr ⟨hfinite,habs⟩
    rw [toInt?_eq, hn, Option.map_some]
    rw [rational, habs, Nat.cast_natAbs] at hq
    cases hneg : x.negative <;> simp only [hneg, if_true, if_false, Bool.false_eq_true] at hq ⊢
    · exact congrArg some (by exact_mod_cast hq)
    · exact congrArg some (by exact_mod_cast hq)

end Binary64

end Workers
