import Workers.Proofs.Keys.Exact
import Workers.Proofs.Keys.Rounding
/-! # How far equality is an equivalence

Numbers are equal if they stand for the same, and an integer is equal to a float if that is the
number nearest to it.  So equality is reflexive but for NaNs and symmetric, and it is transitive but
for one case: two integers beyond `2 ^ 53` that are rounded to the same float are both equal to it.
-/
namespace Workers

namespace Binary64

variable {x y : Binary64} {i k : ℤ}

theorem same_iff : x.same y = true ↔ ∃ q, x.quantity = some q ∧ y.quantity = some q := by
  have hnumber : ∀ x : Binary64, x.isNaN = false ↔ ∃ q, x.quantity = some q := fun x => by
    rw [← Option.ne_none_iff_exists', Ne, x.quantity_eq_none, Bool.not_eq_true]
  simp only [same, Bool.and_eq_true, Bool.not_eq_true', Bool.or_eq_true, beq_iff_eq]
  constructor
  · rintro ⟨⟨hx,_⟩,rfl | ⟨hzero,hzero'⟩⟩
    · obtain ⟨q,hq⟩ := (hnumber x).mp hx
      exact ⟨q,hq,hq⟩
    · have hrational : ∀ {x : Binary64}, x.isZero = true → x.quantity = some (.rational 0) :=
          fun {x} hx => by
        have hfield := (x.isZero_iff.mp hx).1
        rw [quantity_of_finite (by omega), rational, x.magnitude_eq_zero.mpr hx, neg_zero, ite_self]
      exact ⟨_,hrational hzero,hrational hzero'⟩
  · rintro ⟨q,hx,hy⟩
    exact ⟨⟨(hnumber x).mpr ⟨q,hx⟩,(hnumber y).mpr ⟨q,hy⟩⟩,eq_of_quantity hx hy⟩

theorem same_self : x.same x = true ↔ x.isNaN = false := by
  rw [same_iff, ← Bool.not_eq_true, ← x.quantity_eq_none, ← Ne, Option.ne_none_iff_exists']
  exact exists_congr fun q => and_self_iff

theorem Nearest.same (hx : x.Nearest i) (h : x.same y = true) : y.Nearest i := by
  obtain ⟨q,hq,hq'⟩ := same_iff.mp h
  rw [quantity_of_finite hx.finite] at hq
  obtain ⟨hfinite,hrational⟩ := quantity_rational (hq'.trans hq.symm)
  have hdistance : y.distance i = x.distance i := by rw [distance, distance, hrational]
  have hsig : Even x.significand → Even y.significand := fun heven => by
    obtain rfl | ⟨_,hzero⟩ := eq_of_quantity (hq.symm ▸ quantity_of_finite hx.finite) hq'
    · exact heven
    · rw [y.significand_eq_zero.mpr hzero]
      exact ⟨0,rfl⟩
  refine ⟨hfinite,fun z hz => ?_,fun z hz h => ?_⟩
  · rw [hdistance]
    exact hx.nearest z hz
  · rw [hrational]
    exact (hx.even z hz (h.trans hdistance)).imp_right hsig

theorem Nearest.quantity (hx : x.Nearest i) (hi : i.natAbs ≤ 2 ^ 63) :
    x.quantity = some (.rational (ofInt i).rational) := by
  rw [quantity_of_finite hx.finite, hx.rational_eq hi]

theorem same_ofInt (hi : i.natAbs ≤ 2 ^ 63) : (ofInt i).same x = true ↔ x.Nearest i := by
  exact ⟨(nearest_ofInt hi).same,fun hx => same_iff.mpr
    ⟨_,quantity_of_finite (finite_ofInt hi),hx.quantity hi⟩⟩

theorem rational_ofInt_of_lt (hi : i.natAbs < 2 ^ 53) : (ofInt i).rational = i := by
  by_cases hn : i.natAbs = 0
  · obtain rfl := Int.natAbs_eq_zero.mp hn
    exact rational_ofInt_zero
  · have hlog : i.natAbs.log2 ≤ 52 := Nat.le_of_lt_succ ((Nat.log2_lt hn).mpr hi)
    have hle : i.natAbs ≤ 2 ^ 63 := by omega
    have hdist := distance_ofInt hle hn
    rw [rounded_exact hlog, sub_self, abs_zero, distance, abs_eq_zero, sub_eq_zero] at hdist
    exact hdist

theorem Nearest.rational (hx : x.Nearest i) (hi : i.natAbs < 2 ^ 53) : x.rational = i := by
  rw [hx.rational_eq (by omega), rational_ofInt_of_lt hi]

/-- Both ends of the range of integers that are not rounded are numbers. -/
theorem exists_end (negative : Bool) :
    ∃ y : Binary64, y.field ≠ 2047 ∧ y.rational = if negative then -2 ^ 53 else 2 ^ 53 := by
  cases negative with
  | false =>
    have hint : (⟨0x4340000000000000⟩ : Binary64).toInt? = some (2 ^ 53) := rfl
    obtain ⟨hfinite,hrational⟩ := quantity_rational (toInt?_eq_some.mp hint)
    exact ⟨_,hfinite,by rw [hrational]; norm_num⟩
  | true =>
    have hint : (⟨0xc340000000000000⟩ : Binary64).toInt? = some (-2 ^ 53) := rfl
    obtain ⟨hfinite,hrational⟩ := quantity_rational (toInt?_eq_some.mp hint)
    exact ⟨_,hfinite,by rw [hrational]; norm_num⟩

/-- Only integers from `2 ^ 53` on share the number nearest to them. -/
theorem Nearest.large (hx : x.Nearest i) (hk : x.Nearest k) (hne : i ≠ k) : 2 ^ 53 ≤ i.natAbs := by
  by_contra hsmall
  have hrational := hx.rational (Nat.lt_of_not_le hsmall)
  rcases Nat.lt_or_ge k.natAbs (2 ^ 53) with hlt | hge
  · rw [hk.rational hlt] at hrational
    exact hne (by exact_mod_cast hrational.symm)
  · obtain ⟨y,hfinite,hy⟩ := exists_end (decide (k < 0))
    have hnear := hk.nearest y hfinite
    rw [distance, distance, hy, hrational] at hnear
    by_cases hneg : k < 0
    · rw [if_pos (decide_eq_true hneg)] at hnear
      have hint : |i - k| ≤ |-2 ^ 53 - k| := by exact_mod_cast hnear
      rw [Int.abs_eq_natAbs, Int.abs_eq_natAbs] at hint
      omega
    · rw [if_neg (by simpa using hneg)] at hnear
      have hint : |i - k| ≤ |2 ^ 53 - k| := by exact_mod_cast hnear
      rw [Int.abs_eq_natAbs, Int.abs_eq_natAbs] at hint
      omega

end Binary64

theorem natAbs_toInt_le (i : Int64) : i.toInt.natAbs ≤ 2 ^ 63 := by
  have hlt := i.toInt_lt
  have hge := i.le_toInt
  omega

namespace Value

variable {a b c : Value}

def isNaN : Value → Bool
  | float x => x.isNaN
  | _ => false

/-- The ways in which two values can be equal. -/
inductive Alike : Value → Value → Prop
  | refl {a : Value} (ha : a.isNaN = false) : Alike a a
  | function {f g : Routine} (h : f.loader = g.loader) : Alike (.function f) (.function g)
  | float {x y : Binary64} {q : Quantity} (hx : x.quantity = some q) (hy : y.quantity = some q) :
      Alike (.float x) (.float y)
  | rounded {i : Int64} {x : Binary64} (h : x.Nearest i.toInt) : Alike (.integer i) (.float x)
  | rounds {i : Int64} {x : Binary64} (h : x.Nearest i.toInt) : Alike (.float x) (.integer i)

/-- Two integers, the first and the last, are different, and the float between them is the number
nearest to both. -/
inductive RoundAlike : Value → Value → Value → Prop
  | integers {i k : Int64} {x : Binary64} (hne : i ≠ k) (hi : x.Nearest i.toInt)
      (hk : x.Nearest k.toInt) (hlarge : 2 ^ 53 ≤ i.toInt.natAbs ∧ 2 ^ 53 ≤ k.toInt.natAbs) :
      RoundAlike (.integer i) (.float x) (.integer k)

theorem same_integer_float {i : Int64} {x : Binary64} :
    (integer i).same (float x) = true ↔ x.Nearest i.toInt :=
  Binary64.same_ofInt (natAbs_toInt_le i)

theorem alike_of_same (h : a.same b = true) : Alike a b := by
  cases a with
  | nil =>
    cases b with
    | nil => exact .refl rfl
    | boolean | integer | float | string | table | shared | function => cases h
  | boolean u =>
    cases b with
    | boolean => exact beq_iff_eq.mp h ▸ .refl rfl
    | nil | integer | float | string | table | shared | function => cases h
  | integer i =>
    cases b with
    | integer => exact beq_iff_eq.mp h ▸ .refl rfl
    | float x => exact .rounded (same_integer_float.mp h)
    | nil | boolean | string | table | shared | function => cases h
  | float x =>
    cases b with
    | float y =>
      obtain ⟨q,hx,hy⟩ := Binary64.same_iff.mp h
      exact .float hx hy
    | integer i => exact .rounds (same_integer_float.mp h)
    | nil | boolean | string | table | shared | function => cases h
  | string t =>
    cases b with
    | string => exact beq_iff_eq.mp h ▸ .refl rfl
    | nil | boolean | integer | float | table | shared | function => cases h
  | table cell =>
    cases b with
    | table => exact beq_iff_eq.mp h ▸ .refl rfl
    | nil | boolean | integer | float | string | shared | function => cases h
  | shared id =>
    cases b with
    | shared => exact beq_iff_eq.mp h ▸ .refl rfl
    | nil | boolean | integer | float | string | table | function => cases h
  | function f =>
    cases b with
    | function => exact .function (beq_iff_eq.mp h)
    | nil | boolean | integer | float | string | table | shared => cases h

theorem same_of_alike (h : Alike a b) : a.same b = true := by
  cases h with
  | refl ha =>
    cases a with
    | float x => exact Binary64.same_self.mpr ha
    | nil => rfl
    | boolean | integer | string | table | shared | function => exact beq_self_eq_true _
  | function h => exact beq_iff_eq.mpr h
  | float hx hy => exact Binary64.same_iff.mpr ⟨_,hx,hy⟩
  | rounded h | rounds h => exact same_integer_float.mpr h

theorem same_iff_alike : a.same b = true ↔ Alike a b := ⟨alike_of_same,same_of_alike⟩

theorem Alike.symm (h : Alike a b) : Alike b a := by
  cases h with
  | refl ha => exact .refl ha
  | function h => exact .function h.symm
  | float hx hy => exact .float hy hx
  | rounded h => exact .rounds h
  | rounds h => exact .rounded h

theorem Alike.not_isNaN (h : Alike a a) : a.isNaN = false := by
  cases h with
  | refl ha => exact ha
  | function => rfl
  | @float x _ q hx _ => exact Binary64.same_self.mp (Binary64.same_iff.mpr ⟨q,hx,hx⟩)

/-- Equality is passed on, unless it is by a float to which two integers are rounded. -/
theorem Alike.trans (hab : Alike a b) (hbc : Alike b c) : Alike a c ∨ RoundAlike a b c := by
  have hfloats : ∀ {x y : Binary64} {q : Quantity}, x.quantity = some q → y.quantity = some q →
      x.same y = true :=
    fun hx hy => Binary64.same_iff.mpr ⟨_,hx,hy⟩
  cases hab with
  | refl => exact .inl hbc
  | function h =>
    cases hbc with
    | refl => exact .inl (.function h)
    | function h' => exact .inl (.function (h.trans h'))
  | float hx hy =>
    cases hbc with
    | refl => exact .inl (.float hx hy)
    | float hy' hz => exact .inl (.float hx (hz.trans (hy'.symm.trans hy)))
    | rounds h => exact .inl (.rounds (h.same (hfloats hy hx)))
  | @rounded i x h =>
    cases hbc with
    | refl => exact .inl (.rounded h)
    | float hx hy => exact .inl (.rounded (h.same (hfloats hx hy)))
    | @rounds k _ h' =>
      by_cases hne : i = k
      · exact .inl (hne ▸ .refl rfl)
      · have hint : i.toInt ≠ k.toInt := fun heq => hne (Int64.toInt_inj.mp heq)
        exact .inr (.integers hne h h' ⟨h.large h' hint,h'.large h hint.symm⟩)
  | @rounds i x h =>
    cases hbc with
    | refl => exact .inl (.rounds h)
    | rounded h' =>
      have hi := natAbs_toInt_le i
      exact .inl (.float (h.quantity hi) (h'.quantity hi))

theorem RoundAlike.not_alike (h : RoundAlike a b c) : Alike a b ∧ Alike b c ∧ ¬ Alike a c := by
  obtain ⟨hne,hi,hk,_⟩ := h
  refine ⟨.rounded hi,.rounds hk,fun hac => ?_⟩
  cases hac
  exact hne rfl

/-- Equality is reflexive but for NaNs, symmetric, and transitive but for integers from `2 ^ 53` on
that are rounded to the float with which both are compared. -/
theorem same_equivalence_iff (a b c : Value) :
    (a.same a = true ↔ a.isNaN = false) ∧ (a.same b = true ↔ b.same a = true) ∧
      (a.same b = true ∧ b.same c = true ∧ ¬ a.same c = true ↔ RoundAlike a b c) := by
  simp only [same_iff_alike]
  refine ⟨⟨Alike.not_isNaN,.refl⟩,⟨Alike.symm,Alike.symm⟩,?_,RoundAlike.not_alike⟩
  rintro ⟨hab,hbc,hac⟩
  exact (hab.trans hbc).resolve_left hac

/-- Two integers next to each other are equal to one float. -/
theorem same_not_transitive : ¬ ∀ a b c : Value, a.isNaN = false → b.isNaN = false → c.isNaN = false →
    a.same a = true ∧ (a.same b = true → b.same a = true) ∧
      (a.same b = true → b.same c = true → a.same c = true) := by
  intro hequivalence
  obtain ⟨_,_,htrans⟩ := hequivalence (.integer 9007199254740992) (.float ⟨0x4340000000000000⟩)
    (.integer 9007199254740993) rfl rfl rfl
  have hsame : (Value.integer 9007199254740992).same (.integer 9007199254740993) = true := htrans rfl rfl
  cases hsame

end Value

end Workers
