import Mathlib.Tactic.Ring
import Mathlib.Data.Nat.Basic

/-!
# The target platforms

The library is built for 32-bit and 64-bit x86 (`BITS` in the Makefile). The
word size decides the range of `size_t` and the size of a pointer; `size_t`
arithmetic wraps, and is modelled on natural numbers with the wrap written out.
-/

namespace Lucciefr

/-- The word size the library is built for. -/
inductive Build where
  | x86
  | x64
deriving DecidableEq, Repr

namespace Build

/-- `BITS` -/
def bits : Build → ℕ
  | x86 => 32
  | x64 => 64

/-- `sizeof(void*)` -/
def sizeofPointer (build : Build) : ℕ :=
  build.bits / 8

/-- `x + y` in `size_t`. -/
def add (build : Build) (x y : ℕ) : ℕ :=
  (x + y) % 2 ^ build.bits

/-- `x * y` in `size_t`. -/
def mul (build : Build) (x y : ℕ) : ℕ :=
  (x * y) % 2 ^ build.bits

/-- The conversion of an `int` to `size_t`. -/
def ofInt (build : Build) (value : ℤ) : ℕ :=
  (value % 2 ^ build.bits).toNat

/-- `x - y` in `size_t`. -/
def sub (build : Build) (x y : ℕ) : ℕ :=
  (x + (2 ^ build.bits - y)) % 2 ^ build.bits

theorem add_of_lt {build : Build} {x y : ℕ} (sum_lt : x + y < 2 ^ build.bits) :
    build.add x y = x + y :=
  Nat.mod_eq_of_lt sum_lt

theorem mul_of_lt {build : Build} {x y : ℕ} (product_lt : x * y < 2 ^ build.bits) :
    build.mul x y = x * y :=
  Nat.mod_eq_of_lt product_lt

theorem ofInt_of_lt {build : Build} {value : ℤ} (nonneg : 0 ≤ value) (small : value < 2 ^ 32) :
    build.ofInt value = value.toNat := by
  have bound : value < 2 ^ build.bits := by
    cases build <;> simp only [bits] <;> omega
  rw [ofInt, Int.emod_eq_of_lt nonneg bound]

theorem sub_of_le {build : Build} {x y : ℕ} (y_le : y ≤ x) (x_lt : x < 2 ^ build.bits) :
    build.sub x y = x - y := by
  have wrapped : x + (2 ^ build.bits - y) = x - y + 2 ^ build.bits := by omega
  rw [sub, wrapped, Nat.add_mod_right, Nat.mod_eq_of_lt (by omega)]

theorem four_le_sizeofPointer (build : Build) : 4 ≤ build.sizeofPointer := by
  cases build <;> decide

end Build

end Lucciefr
