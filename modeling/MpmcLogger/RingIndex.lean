import Mathlib.Data.Nat.Log
import Mathlib.Tactic

/-!
# Ring positions under a power-of-two mask

A ring of `size` slots places position `p` at `p &&& (size-1)`. The masking
condition on `size` is the one a compile-time assertion can test; it makes the
index the remainder, so positions in one slot are whole laps apart.
-/

set_option autoImplicit false

namespace RingIndex

theorem pow_two_of_mask (n : ℕ) (h : n &&& (n-1) = 0) (h0 : 0 < n) : ∃ k, n = 2^k := by
  refine ⟨Nat.log 2 n,?_⟩
  have hlow : 2^Nat.log 2 n ≤ n := Nat.pow_log_le_self 2 (by omega)
  have hhigh : n < 2^(Nat.log 2 n+1) := Nat.lt_pow_succ_log_self (by decide) n
  by_contra hne
  -- otherwise `n` and `n-1` share their leading bit
  have hn : n.testBit (Nat.log 2 n) = true :=
    Nat.testBit_of_two_pow_le_and_two_pow_add_one_gt hlow hhigh
  have hp : (n-1).testBit (Nat.log 2 n) = true :=
    Nat.testBit_of_two_pow_le_and_two_pow_add_one_gt (by omega) (by omega)
  have hand : (n &&& (n-1)).testBit (Nat.log 2 n) = true := by
    rw [Nat.testBit_and,hn,hp]
    rfl
  simp [h] at hand

structure Ring where
  size : ℕ
  masked : size &&& (size-1) = 0
  pos : 0 < size

variable (r : Ring)

def Ring.index (p : ℕ) : ℕ := p &&& (r.size-1)

theorem index_eq_mod (p : ℕ) : r.index p = p % r.size := by
  obtain ⟨k,hk⟩ := pow_two_of_mask r.size r.masked r.pos
  rw [Ring.index,hk,Nat.and_two_pow_sub_one_eq_mod]

theorem index_lt (p : ℕ) : r.index p < r.size := by
  rw [index_eq_mod]
  exact Nat.mod_lt _ r.pos

theorem index_of_lt {p : ℕ} (h : p < r.size) : r.index p = p := by
  rw [index_eq_mod,Nat.mod_eq_of_lt h]

theorem index_add_size (p : ℕ) : r.index (p+r.size) = r.index p := by
  simp [index_eq_mod]

/-- Distinct positions of one slot are at least a lap apart. -/
theorem lap_of_index_eq {p q : ℕ} (hpq : p < q) (h : r.index p = r.index q) :
    p+r.size ≤ q := by
  rw [index_eq_mod,index_eq_mod] at h
  obtain ⟨k,hk⟩ := (Nat.modEq_iff_dvd' hpq.le).mp h
  have hne : k ≠ 0 := by
    rintro rfl
    omega
  have hle : r.size ≤ r.size*k := Nat.le_mul_of_pos_right _ (Nat.pos_of_ne_zero hne)
  omega

end RingIndex
