import Workers.Proofs.Keys.Quantity
import Workers.Proofs.Tables.Access
/-! # Keys and exact values

Two values have the same key if and only if they are of the same kind and exactly equal, with one
exception: the smallest integer keeps its key, while the float of the same value keeps its own.
-/
namespace Workers

/-- What a value stands for as a key: a truth value, an exact number or a string. -/
inductive Meaning where
  | boolean (b : Bool)
  | number (q : Quantity)
  | string (s : String)
  deriving DecidableEq

namespace Binary64

/-- The number `-2 ^ 63`, the only integer of the range that no key of a float is normalized to. -/
def lowest : Binary64 := ⟨0xc3e0000000000000⟩

theorem quantity_lowest : lowest.quantity = some (.rational Int64.minValue.toInt) :=
  toInt?_eq_some.mp rfl

theorem eq_lowest {x : Binary64} (hx : x.quantity = some (.rational Int64.minValue.toInt)) :
    x = lowest := by
  refine (eq_of_quantity hx quantity_lowest).resolve_right fun h => ?_
  have hzero : lowest.isZero = false := by decide
  rw [hzero] at h
  exact Bool.false_ne_true h.2

end Binary64

namespace Value

def meaning : Value → Option Meaning
  | boolean b => some (.boolean b)
  | integer i => some (.number (.rational i.toInt))
  | float x => x.quantity.map .number
  | string s => some (.string s)
  | nil | table _ | shared _ | function _ => none

/-- The two forms of the smallest integer. -/
def TwoFormsOfMin (a b : Value) : Prop :=
  a = .integer Int64.minValue ∧ b = .float .lowest ∨ a = .float .lowest ∧ b = .integer Int64.minValue

theorem TwoFormsOfMin.symm {a b : Value} (h : a.TwoFormsOfMin b) : b.TwoFormsOfMin a :=
  h.elim (fun h => .inr ⟨h.2,h.1⟩) fun h => .inl ⟨h.2,h.1⟩

inductive Keyed : Value → Key → Prop
  | boolean (b : Bool) : Keyed (.boolean b) (.boolean b)
  | integer (i : Int64) : Keyed (.integer i) (.integer i)
  | whole {x : Binary64} {i : Int64} (hx : x.toInt? = some i.toInt) (hi : i ≠ Int64.minValue) :
    Keyed (.float x) (.integer i)
  | float {x : Binary64} (hx : x.isNaN = false) (hwhole : ∀ n, x.toInt? = some n → 2 ^ 63 ≤ n.natAbs) :
    Keyed (.float x) (.float x)
  | string (s : String) : Keyed (.string s) (.string s)

end Value

theorem toInt_ofInt_of_natAbs_lt {n : ℤ} (hn : n.natAbs < 2 ^ 63) : (Int64.ofInt n).toInt = n :=
  Int64.toInt_ofInt_of_le (by omega) (by omega)

theorem ne_minValue_of_natAbs_lt {i : Int64} (hi : i.toInt.natAbs < 2 ^ 63) : i ≠ Int64.minValue := by
  rintro rfl
  rw [Int64.toInt_minValue] at hi
  omega

theorem natAbs_lt_of_ne_minValue {i : Int64} (hi : i ≠ Int64.minValue) : i.toInt.natAbs < 2 ^ 63 := by
  have hlt := i.toInt_lt
  have hge := i.le_toInt
  have hne : i.toInt ≠ -2 ^ 63 := by
    intro h
    exact hi (Int64.toInt_inj.mp (h.trans Int64.toInt_minValue.symm))
  omega

namespace Value

variable {a b : Value} {j k : Key}

theorem keyed_of_toKey (h : a.toKey = .ok k) : a.Keyed k := by
  cases a with
  | boolean | integer | string =>
    cases h
    constructor
  | nil | table | shared | function => cases h
  | float x =>
    simp only [toKey] at h
    split at h
    · cases h
    · rename_i hnan
      have hnan : x.isNaN = false := by simpa using hnan
      split at h
      · rename_i n hn
        split at h
        · rename_i hsmall
          cases h
          have hback := toInt_ofInt_of_natAbs_lt hsmall
          exact .whole (hback.symm ▸ hn) (ne_minValue_of_natAbs_lt (hback.symm ▸ hsmall))
        · rename_i hlarge
          cases h
          refine .float hnan fun m hm => ?_
          rw [hn] at hm
          cases hm
          exact Nat.le_of_not_lt hlarge
      · rename_i hnone
        cases h
        refine .float hnan fun m hm => ?_
        rw [hnone] at hm
        cases hm

theorem toKey_whole {x : Binary64} {i : Int64} (hx : x.quantity = some (.rational i.toInt))
    (hi : i ≠ Int64.minValue) : (Value.float x).toKey = .ok (.integer i) := by
  have hnan : x.isNaN = false := by
    rw [← Bool.not_eq_true, ← x.quantity_eq_none, hx]
    exact Option.some_ne_none _
  have hback : Int64.ofInt i.toInt = i := Int64.ofInt_toInt i
  simp only [toKey, hnan, Binary64.toInt?_eq_some.mpr hx, Bool.false_eq_true, if_false, Nat.pow_eq]
  rw [if_pos (natAbs_lt_of_ne_minValue hi), hback]

/-- A key stands for what its value stands for. -/
theorem Keyed.meaning (h : a.Keyed k) : k.toValue.meaning = a.meaning := by
  cases h with
  | boolean | integer | string | float => rfl
  | whole hx => simp [Key.toValue, Value.meaning, Binary64.toInt?_eq_some.mp hx]

/-- No zero is a key of its own. -/
theorem Keyed.not_isZero {x : Binary64} (h : a.Keyed (.float x)) : ¬ x.isZero = true := by
  intro hzero
  cases h with
  | float _ hwhole =>
    obtain ⟨hfield,hfraction⟩ := x.isZero_iff.mp hzero
    have hmag : x.magnitude = 0 := x.magnitude_eq_zero.mpr hzero
    have hquantity : x.quantity = some (.rational ((0 : ℤ) : ℚ)) := by
      rw [Binary64.quantity_of_finite (by omega), Binary64.rational, hmag]
      simp
    have hlarge := hwhole 0 (Binary64.toInt?_eq_some.mpr hquantity)
    simp at hlarge

/-- An integer and a float of the same value are both keys only for the smallest integer. -/
theorem Keyed.twoFormsOfMin {i : Int64} {x : Binary64} (ha : a.Keyed (.integer i))
    (hb : b.Keyed (.float x)) (hx : x.quantity = some (.rational i.toInt)) : a.TwoFormsOfMin b := by
  cases hb with
  | float _ hwhole =>
    have hlarge := hwhole _ (Binary64.toInt?_eq_some.mpr hx)
    have hi : i = Int64.minValue := by
      by_contra hne
      have hsmall := natAbs_lt_of_ne_minValue hne
      omega
    subst hi
    obtain rfl := Binary64.eq_lowest hx
    cases ha with
    | integer => exact .inl ⟨rfl,rfl⟩
    | whole _ hne => exact absurd rfl hne

theorem Keyed.not_twoFormsOfMin (ha : a.Keyed k) (hb : b.Keyed k) : ¬ a.TwoFormsOfMin b := by
  rintro (⟨rfl,rfl⟩ | ⟨rfl,rfl⟩)
  · cases ha
    cases hb with
    | whole _ hi => exact hi rfl
  · cases hb
    cases ha with
    | whole _ hi => exact hi rfl

theorem Keyed.number {x : Binary64} (h : a.Keyed (.float x)) :
    ∃ q, x.quantity = some q ∧ (Key.float x).toValue.meaning = some (.number q) := by
  cases h with
  | float hnan _ =>
    have hsome : ∃ q, x.quantity = some q := by
      rw [← Option.ne_none_iff_exists', Ne, x.quantity_eq_none, hnan]
      exact Bool.false_ne_true
    obtain ⟨q,hq⟩ := hsome
    exact ⟨q,hq,congrArg (Option.map Meaning.number) hq⟩

/-- Keys that stand for the same are the same, unless they are those of the smallest integer. -/
theorem Keyed.eq (ha : a.Keyed j) (hb : b.Keyed k) (h : a.meaning = b.meaning)
    (hne : ¬ a.TwoFormsOfMin b) : j = k := by
  rw [← ha.meaning, ← hb.meaning] at h
  cases j with
  | boolean | string =>
    cases k with
    | boolean | string => cases h <;> rfl
    | integer => cases h
    | float y =>
      obtain ⟨q,_,hy⟩ := hb.number
      rw [hy] at h
      cases h
  | integer i =>
    cases k with
    | boolean | string => cases h
    | integer i' =>
      have hinteger : (i.toInt : ℚ) = i'.toInt :=
        Quantity.rational.inj (Meaning.number.inj (Option.some.inj h))
      exact congrArg _ (Int64.toInt_inj.mp (by exact_mod_cast hinteger))
    | float y =>
      obtain ⟨q,hq,hy⟩ := hb.number
      rw [hy] at h
      cases h
      exact absurd (ha.twoFormsOfMin hb hq) hne
  | float x =>
    obtain ⟨p,hp,hx⟩ := ha.number
    rw [hx] at h
    cases k with
    | boolean | string => cases h
    | integer i =>
      cases h
      exact absurd (hb.twoFormsOfMin ha hp).symm hne
    | float y =>
      obtain ⟨q,hq,hy⟩ := hb.number
      rw [hy] at h
      cases h
      have heq := (Binary64.eq_of_quantity hp hq).resolve_right fun hzero => hb.not_isZero hzero.2
      rw [heq]

/-- Values with the same key are interchangeable in every access to every table. -/
theorem access_eq (ha : a.toKey = .ok k) (hb : b.toKey = .ok k) (c : Context) (m : Memory)
    (table v : Value) :
    c.set m table a v = c.set m table b v ∧ c.get m table a = c.get m table b := by
  constructor
  · unfold Context.set
    rw [ha, hb]
  · unfold Context.get
    rw [ha, hb]

theorem get_of_set_local (ha : a.toKey = .ok k) (hb : b.toKey = .ok k) {c : Context}
    {m m' : Memory} {cell : CellId} {v : Value} (hset : c.set m (.table cell) a v = (.ok (),m')) :
    (c.get m' (.table cell) b).1 = .ok v := by
  obtain ⟨t,ht⟩ := Context.read_of_set ha hset
  obtain ⟨heap,hset',hread⟩ := Context.set_local c v ha ht
  rw [hset'] at hset
  cases hset
  rw [Context.get_local hb hread, Context.get?_assign, if_pos rfl]
  by_cases hnil : v.isNil = true
  · obtain rfl := Value.isNil_iff.mp hnil
    rfl
  · simp [hnil]

/-- Two values with keys have the same key if and only if they are of the same kind and exactly
equal, and not the two forms of the smallest integer.  A float that is any other integer of the
range has the key of that integer.  Whatever is filed under one of two values with the same key is
found under the other. -/
theorem toKey_exact (ha : a.toKey = .ok j) (hb : b.toKey = .ok k) :
    (j = k ↔ a.meaning = b.meaning ∧ ¬ a.TwoFormsOfMin b) ∧
      (∀ (x : Binary64) (i : Int64), x.quantity = some (.rational i.toInt) → i ≠ Int64.minValue →
        (Value.float x).toKey = .ok (.integer i)) ∧
      (j = k → ∀ (c : Context) (m : Memory) (v : Value),
        (∀ table, c.set m table a v = c.set m table b v ∧ c.get m table a = c.get m table b) ∧
        ∀ cell m', c.set m (.table cell) a v = (.ok (),m') → (c.get m' (.table cell) b).1 = .ok v) := by
  have hka := keyed_of_toKey ha
  have hkb := keyed_of_toKey hb
  refine ⟨⟨?_,fun ⟨hmeaning,hne⟩ => hka.eq hkb hmeaning hne⟩,fun _ _ => toKey_whole,?_⟩
  · rintro rfl
    exact ⟨hka.meaning.symm.trans hkb.meaning,hka.not_twoFormsOfMin hkb⟩
  · rintro rfl c m v
    exact ⟨fun table => access_eq ha hb c m table v,fun _ _ => get_of_set_local ha hb⟩

theorem toKey_exact_two : let a := Value.integer 2
    let b := Value.float ⟨0x4000000000000000⟩
    (a.toKey = .ok (.integer 2) ∧ b.toKey = .ok (.integer 2)) ∧
      (Key.integer 2 = .integer 2 ↔ a.meaning = b.meaning ∧ ¬ a.TwoFormsOfMin b) ∧
      (∀ (x : Binary64) (i : Int64), x.quantity = some (.rational i.toInt) → i ≠ Int64.minValue →
        (Value.float x).toKey = .ok (.integer i)) ∧
      (Key.integer 2 = .integer 2 → ∀ (c : Context) (m : Memory) (v : Value),
        (∀ table, c.set m table a v = c.set m table b v ∧ c.get m table a = c.get m table b) ∧
        ∀ cell m', c.set m (.table cell) a v = (.ok (),m') → (c.get m' (.table cell) b).1 = .ok v) := by
  intro a b
  have ha : a.toKey = .ok (.integer 2) := rfl
  have hb : b.toKey = .ok (.integer 2) := rfl
  exact ⟨⟨ha,hb⟩,toKey_exact ha hb⟩

/-- The smallest integer is equal to a float that has another key. -/
theorem toKey_splits_minimum : ¬ ∀ (a b : Value) (j k : Key), a.toKey = .ok j → b.toKey = .ok k →
    (j = k ↔ a.meaning = b.meaning) ∧
      ∀ (c : Context) (m m' : Memory) (cell : CellId) (v : Value), a.meaning = b.meaning →
        c.set m (.table cell) a v = (.ok (),m') → (c.get m' (.table cell) b).1 = .ok v := by
  intro hexact
  obtain ⟨hiff,_⟩ := hexact (.integer Int64.minValue) (.float .lowest) _ _ rfl rfl
  have hmeaning : (Value.integer Int64.minValue).meaning = (Value.float .lowest).meaning := by
    simp [Value.meaning, Binary64.quantity_lowest]
  have hkeys := hiff.mpr hmeaning
  cases hkeys

end Value

end Workers
