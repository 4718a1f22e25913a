import Mathlib.Algebra.Group.Nat.Defs
import Mathlib.Data.List.Basic
import Mathlib.Tactic.Common

/-!
# Little-endian numbers

A natural number written as its `n` low base-256 digits, least significant
first, and read back. `ofLE_take_toLE_append` is the form a parser needs:
the number is read off the front of a longer byte string.
-/

namespace LittleEndian

/-- The `n` low bytes of `x`, least significant first. -/
def toLE : Nat → Nat → List UInt8
  | 0, _ => []
  | n + 1, x => UInt8.ofNat x :: toLE n (x / 256)

/-- The number a little-endian byte string denotes. -/
def ofLE : List UInt8 → Nat
  | [] => 0
  | b :: bs => b.toNat + 256 * ofLE bs

@[simp] theorem length_toLE (n x : Nat) : (toLE n x).length = n := by
  induction n generalizing x with
  | zero => rfl
  | succ n ih => simp [toLE, ih]

theorem ofLE_toLE (n x : Nat) : ofLE (toLE n x) = x % 256 ^ n := by
  induction n generalizing x with
  | zero => simp [toLE, ofLE, Nat.mod_one]
  | succ n ih =>
      have hpow : 256 ^ (n + 1) = 256 * 256 ^ n := Nat.pow_succ'
      rw [toLE, ofLE, ih, UInt8.toNat_ofNat', hpow, Nat.mod_mul]

theorem ofLE_toLE_of_lt {n x : Nat} (h : x < 256 ^ n) : ofLE (toLE n x) = x := by
  rw [ofLE_toLE, Nat.mod_eq_of_lt h]

theorem ofLE_take_toLE_append {n x : Nat} (h : x < 256 ^ n) (rest : List UInt8) :
    ofLE ((toLE n x ++ rest).take n) = x := by
  rw [List.take_append_of_le_length (by simp), List.take_of_length_le (by simp),
    ofLE_toLE_of_lt h]

theorem drop_toLE_append (n x : Nat) (rest : List UInt8) :
    (toLE n x ++ rest).drop n = rest := by
  rw [List.drop_append_of_le_length (by simp), List.drop_of_length_le (by simp),
    List.nil_append]

end LittleEndian
