import Mathlib

/- Arithmetic of 32-bit machine words on their natural and integer values. -/
namespace MachineWord

/-- The number of values of a `uint32_t`. -/
@[simp] abbrev wordSize : Nat := 4294967296

def inc32 (n : Nat) : Nat := (n + 1) % wordSize

def dec32 (n : Nat) : Nat := if n = 0 then wordSize - 1 else n - 1

def add32 (a b : Nat) : Nat := (a + b) % wordSize

theorem inc32_of_lt {n : Nat} (h : n + 1 < 4294967296) : inc32 n = n + 1 := Nat.mod_eq_of_lt h

theorem dec32_of_pos {n : Nat} (hpos : 0 < n) : dec32 n = n - 1 := if_neg (Nat.ne_of_gt hpos)

theorem add32_of_lt {a b : Nat} (h : a + b < 4294967296) : add32 a b = a + b := Nat.mod_eq_of_lt h

end MachineWord
