import Mathlib.Algebra.Order.Group.Unbundled.Abs
import Mathlib.Algebra.Group.Nat.Even
import Workers.Proofs.Keys.Quantity
/-! # Rounding integers

The number that an integer is rounded to is a finite one nearest to it, and of two that are equally
near the one with the even significand.  There is only one such number, the zeros apart, so this
says what the number is.
-/
namespace Workers.Binary64

section Shift

variable (n k m : ℕ)

/-- What is below half a unit is rounded down, what is above is rounded up, and a tie to the even one. -/
theorem roundShift_cases :
    (roundShift n k = n / 2 ^ k ∧ (2 * (n % 2 ^ k) < 2 ^ k ∨ 2 * (n % 2 ^ k) = 2 ^ k ∧
      Even (n / 2 ^ k))) ∨
      roundShift n k = n / 2 ^ k + 1 ∧ (2 ^ k < 2 * (n % 2 ^ k) ∨ 2 * (n % 2 ^ k) = 2 ^ k ∧
        Odd (n / 2 ^ k)) := by
  simp only [roundShift, Nat.pow_eq, Bool.or_eq_true, decide_eq_true_eq, Bool.and_eq_true, beq_iff_eq]
  split
  · rename_i hup
    exact .inr ⟨rfl,hup.imp id fun ⟨htie,hodd⟩ => ⟨htie,Nat.odd_iff.mpr hodd⟩⟩
  · rename_i hdown
    refine .inl ⟨rfl,?_⟩
    by_cases htie : 2 * (n % 2 ^ k) = 2 ^ k
    · exact .inr ⟨htie,Nat.not_odd_iff_even.mp fun hodd => hdown (.inr ⟨htie,Nat.odd_iff.mp hodd⟩)⟩
    · exact .inl (by omega)

theorem multiple_side : m * 2 ^ k ≤ n / 2 ^ k * 2 ^ k ∨ (n / 2 ^ k + 1) * 2 ^ k ≤ m * 2 ^ k :=
  (Nat.lt_or_ge (n / 2 ^ k) m).symm.imp (Nat.mul_le_mul_right _) (Nat.mul_le_mul_right _)

/-- No multiple is nearer. -/
theorem roundShift_nearest :
    (((roundShift n k * 2 ^ k : ℕ) : ℤ) - n).natAbs ≤ (((m * 2 ^ k : ℕ) : ℤ) - n).natAbs := by
  have hn := Nat.div_add_mod' n (2 ^ k)
  have hm := multiple_side n k m
  rw [Nat.succ_mul] at hm
  rcases roundShift_cases n k with ⟨hs,hr⟩ | ⟨hs,hr⟩
  · rw [hs]
    omega
  · rw [hs, Nat.succ_mul]
    omega

/-- Another multiple is as near only if it is odd and this one is even. -/
theorem roundShift_even
    (h : (((m * 2 ^ k : ℕ) : ℤ) - n).natAbs = (((roundShift n k * 2 ^ k : ℕ) : ℤ) - n).natAbs) :
    m = roundShift n k ∨ Even (roundShift n k) ∧ Odd m := by
  have hn := Nat.div_add_mod' n (2 ^ k)
  have hlt := Nat.mod_lt n (Nat.two_pow_pos k)
  have hm := multiple_side n k m
  have hcancel : ∀ {a b : ℕ}, a * 2 ^ k = b * 2 ^ k → a = b :=
    Nat.eq_of_mul_eq_mul_right (Nat.two_pow_pos k)
  rw [Nat.succ_mul] at hm
  rcases roundShift_cases n k with ⟨hs,hr⟩ | ⟨hs,hr⟩
  · rw [hs] at h ⊢
    by_cases hsame : m * 2 ^ k = n / 2 ^ k * 2 ^ k
    · exact .inl (hcancel hsame)
    · have htie : 2 * (n % 2 ^ k) = 2 ^ k := by omega
      have heven : Even (n / 2 ^ k) := (hr.resolve_left (by omega)).2
      have hnext : m = n / 2 ^ k + 1 := hcancel (by rw [Nat.succ_mul]; omega)
      exact .inr ⟨heven,hnext ▸ heven.add_one⟩
  · rw [hs] at h ⊢
    rw [Nat.succ_mul] at h
    by_cases hsame : m * 2 ^ k = n / 2 ^ k * 2 ^ k + 2 ^ k
    · exact .inl (hcancel (by rw [hsame, Nat.succ_mul]))
    · have htie : 2 * (n % 2 ^ k) = 2 ^ k := by omega
      have hodd : Odd (n / 2 ^ k) := (hr.resolve_left (by omega)).2
      have hnext : m = n / 2 ^ k := hcancel (by omega)
      exact .inr ⟨hodd.add_one,hnext ▸ hodd⟩

end Shift

/-- The significand of the number nearest to a natural number, before a carry. -/
def rounded (n : ℕ) : ℕ := if n.log2 ≤ 52 then n * 2 ^ (52 - n.log2) else roundShift n (n.log2 - 52)

def unit (n : ℕ) : ℚ := 2 ^ ((n.log2 : ℤ) - 52)

variable {n m : ℕ}

theorem unit_pos (n : ℕ) : 0 < unit n := two_zpow_pos _

theorem unit_eq (h : 52 ≤ n.log2) : unit n = (2 ^ (n.log2 - 52) : ℕ) := by
  rw [unit, show (n.log2 : ℤ) - 52 = ((n.log2 - 52 : ℕ) : ℤ) by omega, zpow_natCast]
  push_cast
  rfl

theorem magnitudeWord_eq (hn : n ≠ 0) : magnitudeWord n = (n.log2 + 1022) * 2 ^ 52 + rounded n := by
  simp only [magnitudeWord, if_neg hn, rounded, Nat.pow_eq]

theorem rounded_exact (h : n.log2 ≤ 52) : rounded n * unit n = n := by
  have hunit : (2 : ℚ) ^ (52 - n.log2) * unit n = 1 := by
    rw [unit, ← zpow_natCast, ← zpow_add₀ (by norm_num), Nat.cast_sub h]
    norm_num
  rw [rounded, if_pos h]
  push_cast
  rw [mul_assoc, hunit, mul_one]

theorem two_pow_log2 (n : ℕ) : (2 : ℚ) ^ n.log2 = (2 ^ 52 : ℕ) * unit n := by
  rw [unit, Nat.cast_pow, Nat.cast_ofNat, ← zpow_natCast, ← zpow_natCast, ← zpow_add₀ (by norm_num)]
  norm_num

theorem abs_sub_eq_natAbs (a b : ℕ) : |(a : ℚ) - b| = (((a : ℤ) - b).natAbs : ℚ) := by
  rw [Nat.cast_natAbs, Int.cast_abs]
  push_cast
  rfl

theorem rounded_nearest (n m : ℕ) : |rounded n * unit n - n| ≤ |m * unit n - n| := by
  rcases Nat.lt_or_ge 52 n.log2 with h | h
  · have hnear := roundShift_nearest n (n.log2 - 52) m
    rw [rounded, if_neg (Nat.not_le_of_lt h), unit_eq h.le, ← Nat.cast_mul, ← Nat.cast_mul,
      abs_sub_eq_natAbs,
      abs_sub_eq_natAbs]
    exact_mod_cast hnear
  · rw [rounded_exact h, sub_self, abs_zero]
    exact abs_nonneg _

theorem rounded_even (h : |m * unit n - n| = |rounded n * unit n - n|) :
    m = rounded n ∨ Even (rounded n) ∧ Odd m := by
  rcases Nat.lt_or_ge 52 n.log2 with hlarge | hsmall
  · have heven := roundShift_even n (n.log2 - 52) m
    rw [rounded, if_neg (Nat.not_le_of_lt hlarge)] at h ⊢
    rw [unit_eq hlarge.le, ← Nat.cast_mul, ← Nat.cast_mul, abs_sub_eq_natAbs, abs_sub_eq_natAbs] at h
    exact heven (by exact_mod_cast h)
  · rw [rounded_exact hsmall, sub_self, abs_zero, abs_eq_zero, sub_eq_zero, ← rounded_exact hsmall] at h
    exact .inl (by exact_mod_cast mul_right_cancel₀ (unit_pos n).ne' h)

theorem rounded_bounds (hn : n ≠ 0) : 2 ^ 52 ≤ rounded n ∧ rounded n ≤ 2 ^ 53 := by
  have hlow := Nat.log2_self_le hn
  have hhigh := Nat.lt_log2_self (n := n)
  unfold rounded
  split
  · rename_i h
    have hsplit : (2 : ℕ) ^ 52 = 2 ^ n.log2 * 2 ^ (52 - n.log2) := by
      rw [← pow_add, Nat.add_sub_cancel' h]
    have hsplit' : (2 : ℕ) ^ 53 = 2 ^ (n.log2 + 1) * 2 ^ (52 - n.log2) := by
      rw [← pow_add, show n.log2 + 1 + (52 - n.log2) = 53 by omega]
    exact ⟨hsplit ▸ Nat.mul_le_mul_right _ hlow,hsplit' ▸ Nat.mul_le_mul_right _ hhigh.le⟩
  · rename_i h
    have hsplit : (2 : ℕ) ^ n.log2 = 2 ^ 52 * 2 ^ (n.log2 - 52) := by
      rw [← pow_add, Nat.add_sub_cancel' (by omega)]
    have hquot : 2 ^ 52 ≤ n / 2 ^ (n.log2 - 52) :=
      (Nat.le_div_iff_mul_le (Nat.two_pow_pos _)).mpr (hsplit ▸ hlow)
    have hquot' : n / 2 ^ (n.log2 - 52) < 2 ^ 53 := by
      rw [Nat.div_lt_iff_lt_mul (Nat.two_pow_pos _), pow_succ 2 52, mul_right_comm, ← hsplit, ← pow_succ]
      exact hhigh
    rcases roundShift_cases n (n.log2 - 52) with ⟨hs,_⟩ | ⟨hs,_⟩ <;> omega

theorem lt_unit (n : ℕ) : (n : ℚ) < (2 ^ 53 : ℕ) * unit n := by
  have hlog : (n : ℚ) < 2 ^ (n.log2 + 1) := by exact_mod_cast Nat.lt_log2_self (n := n)
  rw [pow_succ, two_pow_log2] at hlog
  push_cast at hlog ⊢
  linarith

/-- An odd multiple as near as the rounded one is a significand itself. -/
theorem tie_lt (hodd : Odd m) (h : |m * unit n - n| = |rounded n * unit n - n|) : m < 2 ^ 53 := by
  rcases lt_trichotomy m (2 ^ 53) with hlt | rfl | hgt
  · exact hlt
  · exact absurd hodd (by decide)
  · have hself := lt_unit n
    have hnext : ((2 ^ 53 : ℕ) : ℚ) * unit n < m * unit n :=
      mul_lt_mul_of_pos_right (by exact_mod_cast hgt) (unit_pos n)
    have hnear := rounded_nearest n (2 ^ 53)
    rw [← h, abs_of_pos (sub_pos.mpr hself), abs_of_pos (by linarith)] at hnear
    linarith

section Fields

variable {i : ℤ}

theorem log2_le (hi : i.natAbs ≤ 2 ^ 63) : i.natAbs.log2 ≤ 63 := by
  by_contra hlarge
  have hself := Nat.log2_self_le (n := i.natAbs) fun hzero => by simp [hzero] at hlarge
  have hpow := Nat.pow_le_pow_right (n := 2) (by decide) (Nat.lt_of_not_le hlarge)
  omega

theorem magnitudeWord_lt (hi : i.natAbs ≤ 2 ^ 63) : magnitudeWord i.natAbs < 2047 * 2 ^ 52 := by
  by_cases hn : i.natAbs = 0
  · simp [magnitudeWord, hn]
  · have hlog := log2_le hi
    have hbounds := rounded_bounds hn
    rw [magnitudeWord_eq hn]
    omega

theorem fields_ofInt (hi : i.natAbs ≤ 2 ^ 63) : ((ofInt i).negative = true ↔ i < 0) ∧
    (ofInt i).field = magnitudeWord i.natAbs / 2 ^ 52 ∧
    (ofInt i).fraction = magnitudeWord i.natAbs % 2 ^ 52 := by
  have hlt := magnitudeWord_lt hi
  simp only [negative, field, fraction, ofInt, UInt64.toNat_ofNat', Nat.pow_eq, decide_eq_true_eq]
  split <;> omega

theorem finite_ofInt (hi : i.natAbs ≤ 2 ^ 63) : (ofInt i).field ≠ 2047 := by
  have hlt := magnitudeWord_lt hi
  rw [(fields_ofInt hi).2.1]
  omega

/-- A significand that is rounded up to the next power of two carries into the exponent. -/
theorem significand_ofInt (hi : i.natAbs ≤ 2 ^ 63) (hn : i.natAbs ≠ 0) :
    (rounded i.natAbs < 2 ^ 53 ∧ (ofInt i).significand = rounded i.natAbs ∧
      (ofInt i).exponent = (i.natAbs.log2 : ℤ) - 52) ∨
    rounded i.natAbs = 2 ^ 53 ∧ (ofInt i).significand = 2 ^ 52 ∧
    (ofInt i).exponent = (i.natAbs.log2 : ℤ) - 51 := by
  have hbounds := rounded_bounds hn
  obtain ⟨_,hfield,hfraction⟩ := fields_ofInt hi
  rw [magnitudeWord_eq hn] at hfield hfraction
  simp only [significand, exponent, hfield, hfraction, Nat.pow_eq]
  rcases Nat.lt_or_ge (rounded i.natAbs) (2 ^ 53) with hlt | hge
  · refine .inl ⟨hlt,?_,?_⟩
    · rw [if_neg (by omega)]
      omega
    · rw [if_neg (by omega)]
      omega
  · refine .inr ⟨by omega,?_,?_⟩
    · rw [if_neg (by omega)]
      omega
    · rw [if_neg (by omega)]
      omega

theorem magnitude_ofInt (hi : i.natAbs ≤ 2 ^ 63) (hn : i.natAbs ≠ 0) :
    (ofInt i).magnitude = rounded i.natAbs * unit i.natAbs := by
  rw [magnitude, unit]
  rcases significand_ofInt hi hn with ⟨_,hs,he⟩ | ⟨hcarry,hs,he⟩
  · rw [hs, he]
  · rw [hs, he, hcarry, show (i.natAbs.log2 : ℤ) - 51 = 1 +
      (i.natAbs.log2 - 52) by ring, zpow_add₀ (by norm_num)]
    push_cast
    ring

end Fields

def distance (x : Binary64) (i : ℤ) : ℚ := |x.rational - i|

/-- A finite number such that none is nearer to an integer, and whose significand is even if another
is as near. -/
structure Nearest (x : Binary64) (i : ℤ) : Prop where
  finite : x.field ≠ 2047
  nearest : ∀ y : Binary64, y.field ≠ 2047 → x.distance i ≤ y.distance i
  even : ∀ y : Binary64, y.field ≠ 2047 → y.distance i = x.distance i → y.rational = x.rational ∨
      Even x.significand

section Magnitudes

variable {x y : Binary64}

theorem abs_rational (x : Binary64) : |x.rational| = x.magnitude := by
  have hnonneg := x.magnitude_nonneg
  rw [rational]
  split
  · rw [abs_neg, abs_of_nonneg hnonneg]
  · exact abs_of_nonneg hnonneg

theorem abs_intCast (i : ℤ) : |(i : ℚ)| = i.natAbs := by rw [Nat.cast_natAbs, Int.cast_abs]

theorem abs_sub_le_distance (x : Binary64) (i : ℤ) : |x.magnitude - i.natAbs| ≤ x.distance i := by
  rw [← abs_rational, ← abs_intCast]
  exact abs_abs_sub_abs_le _ _

theorem distance_eq {i : ℤ} (hsign : x.negative = true ↔ i < 0) :
    x.distance i = |x.magnitude - i.natAbs| := by
  rw [distance, rational, ← abs_intCast]
  by_cases hi : i < 0
  · rw [if_pos (hsign.mpr hi), abs_of_neg (Int.cast_lt_zero.mpr hi), ← abs_neg]
    ring_nf
  · rw [if_neg (mt hsign.mp hi), abs_of_nonneg (Int.cast_nonneg (Int.not_lt.mp hi))]

/-- Magnitudes of at least the leading power of two are multiples of the unit. -/
theorem exponent_of_large (h : (2 : ℚ) ^ n.log2 ≤ y.magnitude) : (n.log2 : ℤ) - 52 ≤ y.exponent := by
  by_contra hlow
  have hsig : (y.significand : ℚ) < 2 ^ 53 := by exact_mod_cast y.significand_lt
  have hexp : (2 : ℚ) ^ y.exponent ≤ 2 ^ ((n.log2 : ℤ) - 53) :=
    zpow_le_zpow_right₀ (by norm_num) (by omega)
  have hsplit : (2 : ℚ) ^ n.log2 = 2 ^ 53 * 2 ^ ((n.log2 : ℤ) - 53) := by
    rw [← zpow_natCast, ← zpow_natCast, ← zpow_add₀ (by norm_num)]
    norm_num
  have hlt : y.magnitude < 2 ^ n.log2 := by
    rw [hsplit, magnitude]
    exact mul_lt_mul hsig hexp (two_zpow_pos _) (by positivity)
  exact absurd h (not_le_of_gt hlt)

theorem multiple_of_large (h : (2 : ℚ) ^ n.log2 ≤ y.magnitude) :
    ∃ m : ℕ, 2 ^ 52 ≤ m ∧ y.magnitude = m * unit n := by
  have hunits := y.magnitude_units (exponent_of_large h)
  refine ⟨_,?_,hunits⟩
  rw [two_pow_log2, hunits, unit] at h
  exact_mod_cast le_of_mul_le_mul_right h (two_zpow_pos _)

theorem distance_of_small (hn : n ≠ 0) (h : y.magnitude < 2 ^ n.log2) :
    |rounded n * unit n - n| < |y.magnitude - n| := by
  have hself : (2 : ℚ) ^ n.log2 ≤ n := by exact_mod_cast Nat.log2_self_le hn
  have hlead := rounded_nearest n (2 ^ 52)
  rw [← two_pow_log2, abs_of_nonpos (sub_nonpos.mpr hself)] at hlead
  rw [abs_of_neg (sub_neg.mpr (h.trans_le hself))]
  linarith

theorem magnitude_nearest (hn : n ≠ 0) (y : Binary64) :
    |rounded n * unit n - n| ≤ |y.magnitude - n| := by
  rcases lt_or_ge y.magnitude ((2 : ℚ) ^ n.log2) with hsmall | hlarge
  · exact (distance_of_small hn hsmall).le
  · obtain ⟨m,_,hm⟩ := multiple_of_large hlarge
    rw [hm]
    exact rounded_nearest n m

theorem magnitude_even (hn : n ≠ 0) (h : |y.magnitude - n| = |rounded n * unit n - n|) :
    ∃ m : ℕ, 2 ^ 52 ≤ m ∧ y.magnitude = m * unit n ∧ (m = rounded n ∨ Even (rounded n) ∧ Odd m) := by
  rcases lt_or_ge y.magnitude ((2 : ℚ) ^ n.log2) with hsmall | hlarge
  · exact absurd h (distance_of_small hn hsmall).ne'
  · obtain ⟨m,hlow,hm⟩ := multiple_of_large hlarge
    rw [hm] at h
    exact ⟨m,hlow,hm,rounded_even h⟩

/-- The significand of a normal number is what it is written with. -/
theorem significand_of_magnitude {e : ℤ} (hlow : 2 ^ 52 ≤ m) (hhigh : m < 2 ^ 53) (he : -1074 ≤ e)
    (h : x.magnitude = m * 2 ^ e) : x.significand = m := by
  have hcancel : ∀ {a b : ℕ} {f : ℤ}, (a : ℚ) * 2 ^ f = b * 2 ^ f → a = b := fun {a b f} hab => by
    exact_mod_cast mul_right_cancel₀ (two_zpow_pos f).ne' hab
  rcases lt_trichotomy x.exponent e with hlt | heq | hgt
  · -- the significand would be twice that of `m` or more
    have hsplit : (2 : ℚ) ^ e = (2 ^ (e - x.exponent).toNat : ℕ) * 2 ^ x.exponent := by
      rw [Nat.cast_pow, Nat.cast_ofNat, ← zpow_natCast, ← zpow_add₀ (by norm_num),
        Int.toNat_of_nonneg (by omega)]
      ring_nf
    rw [magnitude, hsplit, ← mul_assoc, ← Nat.cast_mul] at h
    have htwice : 2 ^ 1 ≤ 2 ^ (e - x.exponent).toNat := Nat.pow_le_pow_right (by decide) (by omega)
    have hlarge := Nat.mul_le_mul hlow htwice
    have hsmall := x.significand_lt
    have hsig := hcancel h
    omega
  · rw [magnitude, heq] at h
    exact hcancel h
  · rw [x.magnitude_units hgt.le] at h
    have hnormal : 2 ^ 52 ≤ x.significand := x.significand_normal.resolve_right (by omega)
    have htwice : 2 ^ 1 ≤ 2 ^ (x.exponent - e).toNat := Nat.pow_le_pow_right (by decide) (by omega)
    have hlarge := Nat.mul_le_mul hnormal htwice
    have hsig := hcancel h
    omega

end Magnitudes

section Nearest

variable {x y : Binary64} {i : ℤ}

/-- A number is determined by its magnitude and its distance from an integer of its sign. -/
theorem rational_of_distance (hsign : x.negative = true ↔ i < 0)
    (hmag : y.magnitude = x.magnitude) (hpos : 0 < x.magnitude) (hi : i ≠ 0)
    (h : y.distance i = x.distance i) : y.rational = x.rational := by
  have hi' : (i : ℚ) ≠ 0 := Int.cast_ne_zero.mpr hi
  simp only [distance, rational, hmag] at h ⊢
  by_cases hneg : i < 0
  · have hneg' : (i : ℚ) < 0 := Int.cast_lt_zero.mpr hneg
    rw [if_pos (hsign.mpr hneg)] at h ⊢
    split at h
    · rename_i hy
      rw [if_pos hy]
    · rcases abs_cases (x.magnitude - i) with hc | hc <;> rcases abs_cases
        (-x.magnitude - i) with hd | hd <;> linarith
  · have hpos' : (0 : ℚ) < i := lt_of_le_of_ne (Int.cast_nonneg (Int.not_lt.mp hneg)) hi'.symm
    rw [if_neg (mt hsign.mp hneg)] at h ⊢
    split at h
    · rcases abs_cases (x.magnitude - i) with hc | hc <;> rcases abs_cases
        (-x.magnitude - i) with hd | hd <;> linarith
    · rename_i hy
      rw [if_neg hy]

theorem distance_ofInt (hi : i.natAbs ≤ 2 ^ 63) (hn : i.natAbs ≠ 0) :
    (ofInt i).distance i = |rounded i.natAbs * unit i.natAbs - i.natAbs| := by
  rw [distance_eq (fields_ofInt hi).1, magnitude_ofInt hi hn]

theorem magnitude_ofInt_pos (hi : i.natAbs ≤ 2 ^ 63) (hn : i.natAbs ≠ 0) : 0 < (ofInt i).magnitude := by
  have hlow := (rounded_bounds hn).1
  have hpos : (0 : ℚ) < rounded i.natAbs := by exact_mod_cast (Nat.two_pow_pos 52).trans_le hlow
  rw [magnitude_ofInt hi hn]
  exact mul_pos hpos (unit_pos _)

theorem even_significand_ofInt (hi : i.natAbs ≤ 2 ^ 63) (hn : i.natAbs ≠ 0)
    (heven : Even (rounded i.natAbs)) :
    Even (ofInt i).significand := by
  rcases significand_ofInt hi hn with ⟨_,hs,_⟩ | ⟨_,hs,_⟩
  · rwa [hs]
  · rw [hs]
    exact ⟨2 ^ 51,by norm_num⟩

theorem nearest_of_rational (hx : x.field ≠ 2047) (h : x.rational = i) : x.Nearest i := by
  have hzero : x.distance i = 0 := by rw [distance, h, sub_self, abs_zero]
  refine ⟨hx,fun y _ => hzero ▸ abs_nonneg _,fun y _ hy => .inl ?_⟩
  rw [hzero, distance, abs_eq_zero, sub_eq_zero] at hy
  rw [hy, h]

theorem rational_ofInt_zero : (ofInt 0).rational = ((0 : ℤ) : ℚ) := by
  have hzero : (ofInt 0).magnitude = 0 := (magnitude_eq_zero _).mpr (by decide)
  rw [rational, hzero, neg_zero, ite_self, Int.cast_zero]

/-- Integers are rounded to the nearest number, ties to even. -/
theorem nearest_ofInt (hi : i.natAbs ≤ 2 ^ 63) : (ofInt i).Nearest i := by
  by_cases hn : i.natAbs = 0
  · obtain rfl := Int.natAbs_eq_zero.mp hn
    exact nearest_of_rational (finite_ofInt hi) rational_ofInt_zero
  · refine ⟨finite_ofInt hi,fun y _ => ?_,fun y _ hy => ?_⟩
    · rw [distance_ofInt hi hn]
      exact (magnitude_nearest hn y).trans (abs_sub_le_distance y i)
    · have htie : |y.magnitude - i.natAbs| = |rounded i.natAbs * unit i.natAbs - i.natAbs| := by
        refine le_antisymm ?_ (magnitude_nearest hn y)
        rw [← distance_ofInt hi hn, ← hy]
        exact abs_sub_le_distance y i
      obtain ⟨m,_,hm,rfl | ⟨heven,_⟩⟩ := magnitude_even hn htie
      · rw [← magnitude_ofInt hi hn] at hm
        exact .inl (rational_of_distance (fields_ofInt hi).1 hm (magnitude_ofInt_pos hi hn)
          (Int.natAbs_ne_zero.mp hn) hy)
      · exact .inr (even_significand_ofInt hi hn heven)

/-- There is no other nearest number. -/
theorem Nearest.rational_eq (hx : x.Nearest i) (hi : i.natAbs ≤ 2 ^ 63) :
    x.rational = (ofInt i).rational := by
  have hself := nearest_ofInt hi
  have hdist : x.distance i = (ofInt i).distance i :=
    le_antisymm (hx.nearest _ hself.finite) (hself.nearest x hx.finite)
  rcases hx.even _ hself.finite hdist.symm with heq | hsig
  · exact heq.symm
  by_cases hn : i.natAbs = 0
  · obtain rfl := Int.natAbs_eq_zero.mp hn
    rw [distance, distance, rational_ofInt_zero, sub_self, abs_zero, abs_eq_zero, sub_eq_zero] at hdist
    rw [hdist, rational_ofInt_zero]
  have htie : |x.magnitude - i.natAbs| = |rounded i.natAbs * unit i.natAbs - i.natAbs| := by
    refine le_antisymm ?_ (magnitude_nearest hn x)
    rw [← distance_ofInt hi hn, ← hdist]
    exact abs_sub_le_distance x i
  obtain ⟨m,hlow,hm,rfl | ⟨_,hodd⟩⟩ := magnitude_even hn htie
  · rw [← magnitude_ofInt hi hn] at hm
    exact rational_of_distance (fields_ofInt hi).1 hm (magnitude_ofInt_pos hi hn)
      (Int.natAbs_ne_zero.mp hn) hdist
  · -- an odd multiple is the significand itself, which is even
    have hexp : -1074 ≤ (i.natAbs.log2 : ℤ) - 52 := by omega
    rw [significand_of_magnitude hlow (tie_lt hodd (hm ▸ htie)) hexp hm] at hsig
    exact absurd hodd (Nat.not_odd_iff_even.mpr hsig)

end Nearest

end Workers.Binary64
