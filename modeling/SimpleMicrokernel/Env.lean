/-
What the kernel runs on: the disk, the ways it can stop, what an access C leaves undefined finds,
and the conversions between C's 32-bit integers.
-/
import SimpleMicrokernel.Memory.Basic
import Mathlib.Data.Int.Basic

namespace SimpleMicrokernel

open Memory

/-- Why the kernel stops. It stops at a null pointer whose structure is read back later; a store through null that
nothing reads back is the machine's. -/
inductive Halt where
  | nullDeref
  | outOfBounds
  | divByZero
  | typeConfusion
  | hang
  | panic
  | pageFault
deriving DecidableEq, Repr

/-- The machine around the kernel. `image` is the disk, one function for each sector. `overread`
is what a read past the end of a sector buffer finds, at a stream position and an index: some byte, or a
stop. `nullFill` is what a zero fill of some size through a null pointer does to memory, and `nullStore`
what a store of some bytes does, at an offset from one. -/
structure Env where
  image : Nat → Fin 512 → Byte
  overread : Nat → Nat → Except Halt Byte
  nullFill : Nat → Mem → Except Halt Mem
  nullStore : Nat → List Byte → Mem → Except Halt Mem

/-- The disk byte at a position. -/
def Env.byteAt (env : Env) (p : Nat) : Byte := env.image (p / 512) ⟨p % 512, Nat.mod_lt p (by decide)⟩

/-- Conversion to C's `int`. -/
def int32 (x : Int) : Int := Int.bmod x (2 ^ 32)

/-- Conversion to C's `uint32_t`. -/
def uint32 (x : Int) : Nat := (x % 2 ^ 32).toNat

theorem uint32_lt (x : Int) : uint32 x < 2 ^ 32 := by
  unfold uint32; omega

theorem uint32_of_lt {n : Nat} (h : n < 2 ^ 32) : uint32 n = n := by
  unfold uint32; omega

theorem uint32_natCast (n : Nat) : uint32 n = n % 2 ^ 32 := by
  unfold uint32; omega

theorem int32_of_lt {x : Int} (h1 : -2 ^ 31 ≤ x) (h2 : x < 2 ^ 31) : int32 x = x := by
  unfold int32
  rw [Int.bmod_def]
  split <;> omega

theorem uint32_int32 (x : Int) : uint32 (int32 x) = uint32 x := by
  unfold uint32 int32
  rw [Int.bmod_def]
  split <;> omega

theorem int32_bounds (x : Int) : -2 ^ 31 ≤ int32 x ∧ int32 x < 2 ^ 31 := by
  unfold int32
  rw [Int.bmod_def]
  split <;> omega

end SimpleMicrokernel
