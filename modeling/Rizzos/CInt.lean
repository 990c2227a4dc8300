import Mathlib.Tactic

set_option autoImplicit false

/-!
# Conversions between the integer types of C

A value is an integer of unbounded size, and a conversion takes it into the range of the
target type: modulo a power of two for the unsigned types, and to the value of the same
bits for the signed ones.
-/
namespace Rizzos.CInt

def int32 (x : ℤ) : ℤ := (x + 2 ^ 31) % 2 ^ 32 - 2 ^ 31

def uint32 (x : ℤ) : ℕ := (x % 2 ^ 32).toNat

def uint64 (x : ℤ) : ℕ := (x % 2 ^ 64).toNat

theorem int32_of_range {x : ℤ} (hlo : -2 ^ 31 ≤ x) (hhi : x < 2 ^ 31) : int32 x = x := by
  unfold int32
  omega

theorem uint32_of_range {x : ℕ} (h : x < 2 ^ 32) : uint32 x = x := by
  unfold uint32
  omega

theorem uint32_add {x y : ℕ} (h : x + y < 2 ^ 32) : uint32 (x + y : ℤ) = x + y :=
  uint32_of_range h

theorem uint32_mul {x y : ℕ} (h : x * y < 2 ^ 32) : uint32 (x * y : ℤ) = x * y := by
  rw [← Nat.cast_mul]
  exact uint32_of_range h

theorem uint32_sub {x y : ℕ} (hle : y ≤ x) (h : x < 2 ^ 32) : uint32 (x - y : ℤ) = x - y := by
  rw [← Nat.cast_sub hle]
  exact uint32_of_range (by omega)

theorem uint64_of_range {x : ℕ} (h : x < 2 ^ 64) : uint64 x = x := by
  unfold uint64
  omega

theorem int32_ofNat_of_lt {n : ℕ} (h : n < 2 ^ 31) : int32 n = n :=
  int32_of_range (by omega) (by omega)

end Rizzos.CInt
