import CssStyling.Value
import Mathlib

namespace CssStyling

open Float.Model

theorem unpacked_compare_eq_comm (x y : UnpackedFloat) :
    x.compare y = some .eq ↔ y.compare x = some .eq := by
  cases x with
  | notANumber => cases y <;> simp [UnpackedFloat.compare]
  | infinity s =>
      cases y with
      | infinity t => cases s <;> cases t <;> simp [UnpackedFloat.compare]
      | _ => cases s <;> simp [UnpackedFloat.compare]
  | zero s =>
      cases y with
      | infinity t => cases t <;> simp [UnpackedFloat.compare]
      | finite t => cases t <;> simp [UnpackedFloat.compare]
      | _ => simp [UnpackedFloat.compare]
  | finite s m e _ =>
      cases y with
      | infinity t => cases t <;> simp [UnpackedFloat.compare]
      | finite t m' e' _ =>
          cases s <;> cases t <;>
            simp [UnpackedFloat.compare, Ordering.then_eq_eq, @eq_comm _ e e', @eq_comm _ m m']
      | _ => cases s <;> simp [UnpackedFloat.compare]

theorem float_beq_comm (x y : Float) : (x == y) = (y == x) := by
  have h := unpacked_compare_eq_comm x.toModel.unpack y.toModel.unpack
  have hx : (x == y) = (x.toModel.unpack.compare y.toModel.unpack == some .eq) := rfl
  have hy : (y == x) = (y.toModel.unpack.compare x.toModel.unpack == some .eq) := rfl
  rw [hx, hy, Bool.eq_iff_iff]
  simpa using h

theorem float_beq_self {x : Float} (h : x.isNaN = false) : (x == x) = true := by
  have hx : (x == x) = (x.toModel.unpack.compare x.toModel.unpack == some .eq) := rfl
  have hn : x.toModel.unpack.isNaN = false := h
  rw [hx]
  cases hu : x.toModel.unpack with
  | notANumber => simp [hu, UnpackedFloat.isNaN] at hn
  | infinity s => cases s <;> rfl
  | zero s => rfl
  | finite s m e _ => cases s <;> simp [UnpackedFloat.compare]

namespace Value

def holdsNaN : Value → Bool
  | number x => x.isNaN
  | percentage x => x.isNaN
  | dimension x _ => x.isNaN
  | _ => false

theorem beq_self {v : Value} (h : v.holdsNaN = false) : (v == v) = true := by
  have dimensions (x : Float) (u : LengthUnit) :
      (dimension x u == dimension x u) = (x == x && u == u) := rfl
  cases v with
  | number x => exact float_beq_self h
  | percentage x => exact float_beq_self h
  | dimension x u => simp [dimensions, float_beq_self h]
  | keyword word => exact beq_self_eq_true word
  | integer n => exact beq_self_eq_true n
  | string s => exact beq_self_eq_true s
  | _ => rfl

theorem beq_comm (v w : Value) : (v == w) = (w == v) := by
  have dimensions (x y : Float) (u t : LengthUnit) :
      (dimension x u == dimension y t) = (x == y && u == t) := rfl
  cases v <;> cases w <;> first | rfl | skip
  case keyword.keyword a b => exact BEq.comm (a := a) (b := b)
  case integer.integer a b => exact BEq.comm (a := a) (b := b)
  case number.number x y => exact float_beq_comm x y
  case percentage.percentage x y => exact float_beq_comm x y
  case string.string a b => exact BEq.comm (a := a) (b := b)
  case dimension.dimension x u y t =>
    rw [dimensions, dimensions, float_beq_comm, BEq.comm (a := u)]

theorem beq_unset (v : Value) : (v == unset) = v.isUnset := by
  cases v <;> rfl

theorem isUnset_iff {v : Value} : v.isUnset = true ↔ v = unset := by
  cases v <;> simp [isUnset]

end Value

end CssStyling
