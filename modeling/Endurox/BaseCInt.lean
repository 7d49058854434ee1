import Mathlib.Data.Int.ModEq

/-! Two's complement integers of a C target: `Int` values wrapped at each assignment. -/

namespace Endurox.Base

def wrap (half x : Int) : Int := (x+half) % (2*half) - half

def wrap32 (x : Int) : Int := wrap 2147483648 x

def wrap64 (x : Int) : Int := wrap 9223372036854775808 x

def usize (x : Int) : Int := x % 18446744073709551616

def CInt := {x : Int // -2147483648 ≤ x ∧ x < 2147483648}

instance : DecidableEq CInt := inferInstanceAs (DecidableEq (Subtype _))

theorem wrap_of_mem {half x : Int} (hlo : -half ≤ x) (hhi : x < half) : wrap half x = x := by
  unfold wrap
  rw [Int.emod_eq_of_lt (by omega) (by omega)]
  omega

theorem wrap_range {half : Int} (hh : 0 < half) (x : Int) :
    -half ≤ wrap half x ∧ wrap half x < half := by
  have h1 := Int.emod_nonneg (x+half) (show (2*half) ≠ 0 by omega)
  have h2 := Int.emod_lt_of_pos (x+half) (show 0 < 2*half by omega)
  unfold wrap
  omega

theorem wrap_modEq (half x : Int) : wrap half x ≡ x [ZMOD 2*half] := by
  have h : (x+half) % (2*half) ≡ x+half [ZMOD 2*half] := Int.mod_modEq _ _
  simpa [wrap] using h.sub_right half

theorem wrap_congr {half x y : Int} (h : x ≡ y [ZMOD 2*half]) : wrap half x = wrap half y := by
  unfold wrap
  rw [show (x+half) % (2*half) = (y+half) % (2*half) from h.add_right half]

theorem wrap32_of_mem {x : Int} (hlo : -2147483648 ≤ x) (hhi : x < 2147483648) :
    wrap32 x = x :=
  wrap_of_mem hlo hhi

theorem wrap64_of_mem {x : Int} (hlo : -9223372036854775808 ≤ x)
    (hhi : x < 9223372036854775808) : wrap64 x = x :=
  wrap_of_mem hlo hhi

theorem wrap32_range (x : Int) : -2147483648 ≤ wrap32 x ∧ wrap32 x < 2147483648 :=
  wrap_range (by decide) x

theorem wrap64_range (x : Int) : -9223372036854775808 ≤ wrap64 x ∧ wrap64 x < 9223372036854775808 :=
  wrap_range (by decide) x

def CInt.ofInt (x : Int) : CInt := ⟨wrap32 x, wrap32_range x⟩

def CLong := {x : Int // -9223372036854775808 ≤ x ∧ x < 9223372036854775808}

instance : DecidableEq CLong := inferInstanceAs (DecidableEq (Subtype _))

def CLong.ofInt (x : Int) : CLong := ⟨wrap64 x, wrap64_range x⟩

end Endurox.Base
