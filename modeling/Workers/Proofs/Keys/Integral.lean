import Workers.Proofs.Call.Sleep
import Workers.Proofs.Keys.Exact
/-! # The integer that a number is read as

A value is read as an integer if it is one, and a float out of the range of `Int64` is read as the
end of the range that is nearest to it.  So the reading is the value itself, and the integer of its
key, up to the ends of the range and no further, and a sleep that is given a larger number is not
for that number.
-/
namespace Workers

theorem toInt_clampInt64 (n : ℤ) : (clampInt64 n).toInt = max (-2 ^ 63) (min n (2 ^ 63 - 1)) := by
  have hmin := Int64.toInt_minValue
  have hmax := Int64.toInt_maxValue
  unfold clampInt64
  split
  · omega
  · split
    · omega
    · rw [Int64.toInt_ofInt_of_le (by omega) (by omega)]
      omega

theorem clampInt64_toInt (i : Int64) : clampInt64 i.toInt = i := by
  have hlt := i.toInt_lt
  have hge := i.le_toInt
  refine Int64.toInt_inj.mp ?_
  rw [toInt_clampInt64]
  omega

namespace Value

variable {v : Value} {i : Int64} {n m : ℤ}

/-- The value is a number, and exactly this integer. -/
def Whole (v : Value) (n : ℤ) : Prop := v.meaning = some (.number (.rational n))

theorem whole_integer : (integer i).Whole n ↔ i.toInt = n := by
  simp [Whole, meaning]

theorem whole_float {x : Binary64} : (float x).Whole n ↔ x.toInt? = some n := by
  simp [Whole, meaning, Binary64.toInt?_eq_some]

theorem Whole.unique (hn : v.Whole n) (hm : v.Whole m) : n = m := by
  have hrational := Quantity.rational.inj (Meaning.number.inj (Option.some.inj (hn.symm.trans hm)))
  exact_mod_cast hrational

/-- Exactly the integers are read as integers. -/
theorem asInteger_eq_some : v.asInteger = some i ↔ ∃ n, v.Whole n ∧ clampInt64 n = i := by
  cases v with
  | integer k =>
    simp only [asInteger, whole_integer, exists_eq_left', clampInt64_toInt, Option.some.injEq]
  | float x => simp only [asInteger, whole_float, Option.map_eq_some_iff]
  | nil | boolean | string | table | shared | function => simp [asInteger, Whole, meaning]

/-- Of the values that are an integer of the range, all but one have its key. -/
theorem toKey_eq_integer : v.toKey = .ok (.integer i) ↔ v.Whole i.toInt ∧ v ≠ .float .lowest := by
  constructor
  · intro h
    have hkeyed := keyed_of_toKey h
    refine ⟨hkeyed.meaning.symm,?_⟩
    rintro rfl
    cases hkeyed with
    | whole hx hi =>
      have hlowest := Binary64.toInt?_eq_some.mpr Binary64.quantity_lowest
      exact hi (Int64.toInt_inj.mp (Option.some.inj (hx.symm.trans hlowest)))
  · rintro ⟨hwhole,hne⟩
    cases v with
    | integer k =>
      obtain rfl := Int64.toInt_inj.mp (whole_integer.mp hwhole)
      rfl
    | float x =>
      have hquantity := Binary64.toInt?_eq_some.mp (whole_float.mp hwhole)
      refine toKey_whole hquantity fun hi => hne ?_
      subst hi
      rw [Binary64.eq_lowest hquantity]
    | nil | boolean | string | table | shared | function => simp [Whole, meaning] at hwhole

theorem whole_of_asInteger (h : v.asInteger = some i)
    (hrange : ∀ n, v.Whole n → -2 ^ 63 ≤ n ∧ n < 2 ^ 63) :
    v.Whole i.toInt := by
  obtain ⟨n,hwhole,rfl⟩ := asInteger_eq_some.mp h
  obtain ⟨hge,hlt⟩ := hrange n hwhole
  have hclamp : (clampInt64 n).toInt = n := by
    rw [toInt_clampInt64]
    omega
  rwa [hclamp]

theorem asInteger_of_whole (h : v.Whole i.toInt) : v.asInteger = some i :=
  asInteger_eq_some.mpr ⟨_,h,clampInt64_toInt i⟩

theorem Whole.float (h : v.Whole n) (hn : n < -2 ^ 63 ∨ 2 ^ 63 ≤ n) : ∃ x, v = .float x := by
  cases v with
  | float x => exact ⟨x,rfl⟩
  | integer k =>
    have hlt := k.toInt_lt
    have hge := k.le_toInt
    have hk := whole_integer.mp h
    omega
  | nil | boolean | string | table | shared | function => simp [Whole, meaning] at h

/-- The reading is the value, unless this is out of the range. -/
theorem exact_iff :
    (∀ i, v.asInteger = some i → v.Whole i.toInt) ↔ ¬ ∃ n, v.Whole n ∧
    (n < -2 ^ 63 ∨ 2 ^ 63 ≤ n) := by
  constructor
  · rintro hexact ⟨n,hwhole,hn⟩
    have hsame := hwhole.unique (hexact _ (asInteger_eq_some.mpr ⟨n,hwhole,rfl⟩))
    rw [toInt_clampInt64] at hsame
    omega
  · intro hrange i h
    refine whole_of_asInteger h fun n hwhole => ?_
    by_contra hn
    exact hrange ⟨n,hwhole,by omega⟩

/-- The reading is the integer of the key, unless the value is a float at the lower end of the range
or out of it. -/
theorem agrees_iff : (∀ i, v.asInteger = some i ↔ v.toKey = .ok (.integer i)) ↔
    ¬ ∃ x n, v = .float x ∧ v.Whole n ∧ 2 ^ 63 ≤ n.natAbs := by
  constructor
  · rintro hagrees ⟨x,n,rfl,hwhole,hn⟩
    obtain ⟨hkey,hne⟩ := toKey_eq_integer.mp ((hagrees _).mp (asInteger_eq_some.mpr ⟨n,hwhole,rfl⟩))
    have hsame := hwhole.unique hkey
    rw [toInt_clampInt64] at hsame
    have hlowest : n = Int64.minValue.toInt := by
      rw [Int64.toInt_minValue]
      omega
    subst hlowest
    rw [Binary64.eq_lowest (Binary64.toInt?_eq_some.mp (whole_float.mp hwhole))] at hne
    exact hne rfl
  · intro hrange i
    have hfloat : ∀ n, v.Whole n → (n < -2 ^ 63 ∨ 2 ^ 63 ≤ n) → False := fun n hwhole hn => by
      obtain ⟨x,hx⟩ := hwhole.float hn
      exact hrange ⟨x,n,hx,hwhole,by omega⟩
    rw [toKey_eq_integer]
    refine ⟨fun h => ⟨exact_iff.mpr (fun ⟨n,hwhole,hn⟩ => hfloat n hwhole hn) i h,?_⟩,
      fun h => asInteger_of_whole h.1⟩
    rintro rfl
    have hlowest : (Value.float .lowest).Whole Int64.minValue.toInt :=
      whole_float.mpr (Binary64.toInt?_eq_some.mpr Binary64.quantity_lowest)
    refine hrange ⟨_,_,rfl,hlowest,?_⟩
    rw [Int64.toInt_minValue]
    omega

end Value

namespace Act

variable {v : Value} {i : Int64} {metric : Option Value} {d d' : Duration}

def unit? : Option Value → Option Nat
  | none | some .nil => Duration.unit? none
  | some (.string unit) => Duration.unit? (some unit)
  | some _ => none

def asked (n : ℤ) (metric : Option Value) : Option Duration :=
  (unit? metric).map fun unit => .ofMillis (n.toNat * unit)

theorem ofInterval_eq_ok {unit : Option String} :
    Duration.ofInterval i unit = .ok d ↔
      0 ≤ i.toInt ∧ (Duration.unit? unit).map
        (fun unit => Duration.ofMillis (i.toInt.toNat * unit)) = some d := by
  unfold Duration.ofInterval
  split
  · rename_i hneg
    exact ⟨nofun,fun h => absurd h.1 (by omega)⟩
  · rename_i hpos
    cases Duration.unit? unit with
    | none => exact ⟨nofun,fun h => by cases h.2⟩
    | some unit => simp [Int.not_lt.mp hpos]

theorem sleepArguments_unit (unit : Option String) :
    sleepArguments (some (.integer i)) (unit.map .string) = .ok (some d) ↔
    Duration.ofInterval i unit = .ok d := by
  cases unit with
  | none =>
    cases h : Duration.ofInterval i none <;>
      simp [sleepArguments, Value.asInteger, Except.bind, h]
  | some unit =>
    cases h : Duration.ofInterval i (some unit) <;>
      simp [sleepArguments, Value.asInteger, Value.asString, Except.bind, h]

theorem sleepArguments_integer :
    sleepArguments (some (.integer i)) metric = .ok (some d) ↔ 0 ≤ i.toInt ∧
    asked i.toInt metric = some d := by
  cases metric with
  | none => exact (sleepArguments_unit none).trans ofInterval_eq_ok
  | some metric =>
    cases metric with
    | nil => exact (sleepArguments_unit none).trans ofInterval_eq_ok
    | string unit => exact (sleepArguments_unit (some unit)).trans ofInterval_eq_ok
    | boolean | integer | float | table | shared | function => exact ⟨nofun,fun h => by cases h.2⟩

/-- An argument counts by the integer that it is read as. -/
theorem sleepArguments_of_asInteger (hv : v.asInteger = some i) :
    sleepArguments (some v) metric = sleepArguments (some (.integer i)) metric := by
  cases v with
  | integer k =>
    obtain rfl := Option.some.inj hv
    rfl
  | float x =>
    have hinteger : (Value.integer i).asInteger = some i := rfl
    simp only [sleepArguments, hv, hinteger]
  | nil | boolean | string | table | shared | function => cases hv

theorem sleepArguments_eq_ok : sleepArguments (some v) metric = .ok (some d) ↔
    ∃ i, v.asInteger = some i ∧ 0 ≤ i.toInt ∧ asked i.toInt metric = some d := by
  cases hv : v.asInteger with
  | some i =>
    rw [sleepArguments_of_asInteger hv, sleepArguments_integer]
    simp
  | none =>
    refine ⟨fun h => ?_,nofun⟩
    cases v with
    | nil => cases h
    | integer | float | boolean | string | table | shared | function =>
      simp only [sleepArguments, hv] at h
      cases h

theorem sleepFor_injective (h : (sleepFor d).orStop = (sleepFor d').orStop) : d = d' := by
  have hmake := eq_of_heq (query.inj h).2
  have hregister := eq_of_heq (query.inj (congrFun hmake 0)).2
  have hlook := (check.inj (congrFun hregister none)).2
  exact (wait.inj (congrFun hlook false)).2.1

/-- Without a fault in its arguments the library sleeps for the time that they stand for. -/
theorem sleep_eq_sleepFor :
    sleep (some v) metric = (sleepFor d).orStop ↔ sleepArguments (some v) metric = .ok (some d) := by
  unfold sleep
  cases hread : sleepArguments (some v) metric with
  | error fault => exact ⟨nofun,nofun⟩
  | ok time =>
    cases time with
    | none => exact ⟨nofun,nofun⟩
    | some d' =>
      simp only [Except.ok.injEq, Option.some.injEq]
      exact ⟨sleepFor_injective,fun h => h ▸ rfl⟩

/-- A sleep is for the number that it is given, unless this is beyond the range. -/
theorem asked_iff :
    (∀ metric d, sleep (some v) metric = (sleepFor d).orStop → ∃ n, v.Whole n ∧
      asked n metric = some d) ↔
      ¬ ∃ n, v.Whole n ∧ 2 ^ 63 ≤ n := by
  simp only [sleep_eq_sleepFor, sleepArguments_eq_ok]
  constructor
  · rintro hasked ⟨n,hwhole,hn⟩
    -- in milliseconds the end of the range is not cut off
    have hclamp := toInt_clampInt64 n
    obtain ⟨m,hwhole',hm⟩ := hasked (some (.string "ms")) (.ofMillis (clampInt64 n).toInt.toNat)
      ⟨_,Value.asInteger_eq_some.mpr ⟨n,hwhole,rfl⟩,by omega,by simp [asked, unit?, Duration.unit?]⟩
    obtain rfl := hwhole.unique hwhole'
    simp only [asked, unit?, Duration.unit?, Option.map_some, Option.some.injEq, Duration.ofMillis,
      Duration.mk.injEq,
      Duration.maxMillis, UInt64.size] at hm
    omega
  · rintro hrange metric d ⟨i,hi,hpos,hd⟩
    obtain ⟨n,hwhole,rfl⟩ := Value.asInteger_eq_some.mp hi
    have hclamp := toInt_clampInt64 n
    have hlt : n < 2 ^ 63 := by
      by_contra hn
      exact hrange ⟨n,hwhole,by omega⟩
    have hexact : (clampInt64 n).toInt = n := by omega
    exact ⟨n,hwhole,hexact ▸ hd⟩

end Act

namespace Value

/-- For each value: it is read as an integer just when its key is one, the same, unless it is a
float that is an integer of absolute value at least `2 ^ 63`; what it is read as is its exact value
unless this is an integer out of the range of `Int64`; and a sleep that is given it is for that
number, unless this is at least `2 ^ 63`. -/
theorem asInteger_exact_iff (v : Value) :
    ((∀ i, v.asInteger = some i ↔ v.toKey = .ok (.integer i)) ↔ ¬ ∃ x n, v = .float x ∧ v.Whole n ∧
      2 ^ 63 ≤ n.natAbs) ∧
      ((∀ i, v.asInteger = some i → v.Whole i.toInt) ↔ ¬ ∃ n, v.Whole n ∧
        (n < -2 ^ 63 ∨ 2 ^ 63 ≤ n)) ∧
        ((∀ metric d, Act.sleep (some v) metric = (Act.sleepFor d).orStop →
            ∃ n, v.Whole n ∧ Act.asked n metric = some d) ↔ ¬ ∃ n, v.Whole n ∧ 2 ^ 63 ≤ n) :=
  ⟨agrees_iff,exact_iff,Act.asked_iff⟩

/-- A float far beyond the range is read as an integer, which is neither its value nor its key. -/
theorem asInteger_cuts_off : ¬ ∀ (v : Value) (i : Int64),
    (v.asInteger = some i ↔ v.toKey = .ok (.integer i)) ∧ (v.asInteger = some i → v.Whole i.toInt) := by
  intro hexact
  have hread : (Value.float ⟨0x444b1ae4d6e2ef50⟩).asInteger = some Int64.maxValue := by decide
  have hkey := (hexact _ _).1.mp hread
  cases hkey

end Value

end Workers
