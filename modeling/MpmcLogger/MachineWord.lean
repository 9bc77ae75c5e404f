import Mathlib.Data.UInt

/-!
# Unsigned machine words

Words are natural numbers; the results of their arithmetic are reduced modulo
the word size where the program computes them.
-/

set_option autoImplicit false

namespace MachineWord

abbrev Bytes := List UInt8

def u64 (n : ℕ) : ℕ := n % 2^64

def u32 (n : ℕ) : ℕ := n % 2^32

def sub64 (a b : ℕ) : ℕ := if b ≤ a then a-b else a+2^64-b

theorem sub64_of_le {a b : ℕ} (h : b ≤ a) : sub64 a b = a-b := if_pos h

theorem u64_of_lt {n : ℕ} (h : n < 2^64) : u64 n = n := Nat.mod_eq_of_lt h

theorem u64_le (n : ℕ) : u64 n ≤ n := Nat.mod_le _ _

theorem u32_of_lt {n : ℕ} (h : n < 2^32) : u32 n = n := Nat.mod_eq_of_lt h

end MachineWord
