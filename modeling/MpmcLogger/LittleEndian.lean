import Mathlib.Data.Nat.Digits.Defs

/-!
# Little-endian words

A number in a fixed count of bytes, the least significant first.
-/

set_option autoImplicit false

namespace LittleEndian

def bytes : ℕ → ℕ → List UInt8
  | 0, _ => []
  | w+1, n => UInt8.ofNat n::bytes w (n/256)

def value (bs : List UInt8) : ℕ := Nat.ofDigits 256 (bs.map UInt8.toNat)

@[simp] theorem length_bytes (w n : ℕ) : (bytes w n).length = w := by
  induction w generalizing n with
  | zero => rfl
  | succ w ih => exact congrArg (·+1) (ih (n/256))

theorem value_cons (b : UInt8) (bs : List UInt8) : value (b::bs) = b.toNat+256*value bs := by
  rw [value,List.map_cons,Nat.ofDigits_cons]
  rfl

theorem value_bytes {w n : ℕ} (h : n < 256^w) : value (bytes w n) = n := by
  induction w generalizing n with
  | zero =>
    obtain rfl : n = 0 := by omega
    rfl
  | succ w ih =>
    have hq : n/256 < 256^w := by
      apply Nat.div_lt_of_lt_mul
      rwa [← pow_succ']
    rw [bytes,value_cons,ih hq,UInt8.toNat_ofNat']
    exact Nat.mod_add_div n 256

theorem value_lt (bs : List UInt8) : value bs < 256^bs.length := by
  have h := Nat.ofDigits_lt_base_pow_length (b := 256) (l := bs.map UInt8.toNat) (by decide)
  rw [List.length_map] at h
  apply h
  intro x hx
  obtain ⟨b,-,rfl⟩ := List.mem_map.mp hx
  exact b.toNat_lt

theorem bytes_value {w : ℕ} {bs : List UInt8} (h : bs.length = w) : bytes w (value bs) = bs := by
  subst h
  induction bs with
  | nil => rfl
  | cons b bs ih =>
    have hb : b.toNat < 256 := b.toNat_lt
    have hdiv : value (b::bs)/256 = value bs := by
      rw [value_cons]
      omega
    have hmod : UInt8.ofNat (value (b::bs)) = b := by
      apply UInt8.toNat_inj.mp
      rw [UInt8.toNat_ofNat',value_cons]
      omega
    show UInt8.ofNat (value (b::bs))::bytes bs.length (value (b::bs)/256) = b::bs
    rw [hmod,hdiv,ih]

end LittleEndian
