import Mathlib.Data.List.Sort
import Mathlib.Data.UInt
import Mathlib.Algebra.Order.BigOperators.Group.List
import Mathlib.Algebra.Order.Group.Nat
import Mathlib.Algebra.Order.Ring.Nat

/-!
# Timestamps, value types and cells

The scalar vocabulary shared by the memory tier (`memcache.rs`), the flush-merge
unit (`tsm/block.rs`) and the family (`tseries_family.rs`): the signed 64-bit
timestamp, `models::ValueType`, the tagged cell `DataType` and the inclusive
`TimeRange` with its overlap test.

The engine never does arithmetic on a timestamp, only comparisons and copies, so
an `i64` is an integer in range.  An `f64` payload is kept as its IEEE-754 bit
pattern: no code path of the engine looks inside it either.

What the code takes from outside `src/` is collected in `Env`: the big-endian
decoders of `byte_utils`, the size `size_of_val` reports for a `DataType`, and the
two limits of `GLOBAL_CONFIG`.

## Main definitions

* `I64`, `I64.MIN`, `I64.MAX` — a Rust `i64` and its bounds.
* `ValueType`, `DataType`, `DataType.timestamp` — field types and cells.
* `TimeRange`, `TimeRange.overlaps` — inclusive ranges.
* `Env` — decoders, the cell size and the configured limits.
-/

namespace Tskv

/-! ### Signed 64-bit integers -/

/-- A Rust `i64`: an integer in `[-2^63, 2^63)`. -/
structure I64 where
  /-- The integer the bits stand for. -/
  val : Int
  min_le : -2 ^ 63 ≤ val
  lt_max : val < 2 ^ 63
  deriving DecidableEq

namespace I64

instance : LE I64 := ⟨fun a b => a.val ≤ b.val⟩
instance : LT I64 := ⟨fun a b => a.val < b.val⟩
instance (a b : I64) : Decidable (a ≤ b) := inferInstanceAs (Decidable (a.val ≤ b.val))
instance (a b : I64) : Decidable (a < b) := inferInstanceAs (Decidable (a.val < b.val))
instance : Ord I64 := ⟨fun a b => compare a.val b.val⟩

@[simp] theorem le_def {a b : I64} : a ≤ b ↔ a.val ≤ b.val := .rfl

@[simp] theorem lt_def {a b : I64} : a < b ↔ a.val < b.val := .rfl

theorem ext_iff {a b : I64} : a = b ↔ a.val = b.val := by
  cases a; cases b; simp

theorem le_refl (a : I64) : a ≤ a := Int.le_refl a.val

theorem le_trans {a b c : I64} (h₁ : a ≤ b) (h₂ : b ≤ c) : a ≤ c := Int.le_trans h₁ h₂

theorem lt_of_lt_of_le {a b c : I64} (h₁ : a < b) (h₂ : b ≤ c) : a < c :=
  Int.lt_of_lt_of_le h₁ h₂

theorem le_total (a b : I64) : a ≤ b ∨ b ≤ a := Int.le_total a.val b.val

/-- `i64::MIN`, also the code's "unset" sentinel for timestamps. -/
def MIN : I64 := ⟨-2 ^ 63, by decide, by decide⟩

/-- `i64::MAX`. -/
def MAX : I64 := ⟨2 ^ 63 - 1, by decide, by decide⟩

@[simp] theorem val_MIN : MIN.val = -2 ^ 63 := rfl

@[simp] theorem val_MAX : MAX.val = 2 ^ 63 - 1 := rfl

theorem MIN_le (a : I64) : MIN ≤ a := a.min_le

theorem le_MAX (a : I64) : a ≤ MAX := by
  have := a.lt_max
  simp only [le_def, val_MAX]
  omega

/-- An integer cast to `i64` as `as i64` does: two's-complement wrap-around. -/
def ofInt (n : Int) : I64 :=
  ⟨(n + 2 ^ 63) % 2 ^ 64 - 2 ^ 63, by omega, by omega⟩

end I64

/-! ### Value types and cells -/

/-- `models::ValueType`: the declared type of a field. -/
inductive ValueType
  | unknown
  | float
  | integer
  | unsigned
  | boolean
  | string
  deriving DecidableEq, Repr

/-- `models::FieldId`, a `u64`. -/
abbrev FieldId := UInt64

/-- `DataType`: a timestamped value of one of the five scalar types.  The
`DataCell { ts, val }` each variant wraps is flattened into the constructor; an
`F64` value is its bit pattern. -/
inductive DataType
  | u64 (ts : I64) (val : UInt64)
  | i64 (ts : I64) (val : I64)
  | str (ts : I64) (val : List UInt8)
  | f64 (ts : I64) (val : UInt64)
  | bool (ts : I64) (val : Bool)
  deriving DecidableEq

namespace DataType

/-- `DataType::timestamp`. -/
def timestamp : DataType → I64
  | u64 ts _ | i64 ts _ | str ts _ | f64 ts _ | bool ts _ => ts

/-- The `ValueType` naming a cell's variant, as `DataBlock::field_type` names a
block's. -/
def fieldType : DataType → ValueType
  | u64 .. => .unsigned
  | i64 .. => .integer
  | str .. => .string
  | f64 .. => .float
  | bool .. => .boolean

end DataType

/-! ### Time ranges -/

/-- `TimeRange`: the inclusive range `[min_ts, max_ts]`. -/
structure TimeRange where
  maxTs : I64
  minTs : I64
  deriving DecidableEq

namespace TimeRange

/-- `TimeRange::new`, which takes the upper bound first. -/
def new (maxTs minTs : I64) : TimeRange := ⟨maxTs, minTs⟩

/-- `TimeRange::overlaps`. -/
def overlaps (self range : TimeRange) : Bool :=
  !(self.minTs > range.maxTs || self.maxTs < range.minTs)

/-- The ranges share a timestamp exactly when each starts no later than the
other ends. -/
theorem overlaps_iff (a b : TimeRange) :
    a.overlaps b = true ↔ a.minTs ≤ b.maxTs ∧ b.minTs ≤ a.maxTs := by
  simp only [overlaps, I64.lt_def, I64.le_def, Bool.not_eq_true', Bool.or_eq_false_iff,
    decide_eq_false_iff_not, not_lt]

end TimeRange

/-! ### What the code takes from outside `src/` -/

/-- The parts of the engine that `src/` calls but does not contain: the
big-endian decoders of `byte_utils`, the size `size_of_val` gives any `DataType`
(the size of the enum, fixed by the compiler), and `GLOBAL_CONFIG`'s
`max_memcache_size` and `max_immemcache_num`. -/
structure Env where
  decodeBeU64 : List UInt8 → UInt64
  decodeBeI64 : List UInt8 → I64
  decodeBeF64 : List UInt8 → UInt64
  decodeBeBool : List UInt8 → Bool
  sizeOfDataType : UInt64
  maxMemcacheSize : UInt64
  maxImmemcacheNum : Nat

/-- An `Env` with the given cell size and limits whose decoders read nothing.
Payloads never steer the engine, so concrete runs use this one. -/
def Env.ofLimits (sizeOfDataType maxMemcacheSize : UInt64) (maxImmemcacheNum : Nat) : Env :=
  ⟨fun _ => 0, fun _ => I64.ofInt 0, fun _ => 0, fun _ => false, sizeOfDataType,
    maxMemcacheSize, maxImmemcacheNum⟩

end Tskv
