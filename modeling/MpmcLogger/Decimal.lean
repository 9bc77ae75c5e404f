import Mathlib.Data.Nat.Digits.Lemmas
import Mathlib.Data.UInt

/-!
# Decimal numerals in ASCII

The numeral of a number has no leading zero and is read back as the number; a
padded one has a fixed count of digits, so that the order of the bytes is that of
the numbers.
-/

set_option autoImplicit false

namespace Decimal

def char (d : ℕ) : UInt8 := UInt8.ofNat (48+d)

def IsDigit (b : UInt8) : Prop := 48 ≤ b.toNat ∧ b.toNat ≤ 57

instance (b : UInt8) : Decidable (IsDigit b) := inferInstanceAs (Decidable (_ ∧ _))

def digits (n : ℕ) : List UInt8 := ((Nat.digits 10 n).map char).reverse

def numeral (n : ℕ) : List UInt8 := if n = 0 then [char 0] else digits n

def padded (w n : ℕ) : List UInt8 := List.replicate (w-(digits n).length) (char 0)++digits n

def read (bs : List UInt8) : ℕ := bs.foldl (fun n b => 10*n+(b.toNat-48)) 0

theorem char_toNat {d : ℕ} (h : d < 10) : (char d).toNat = 48+d := by
  rw [char,UInt8.toNat_ofNat']
  omega

theorem char_isDigit {d : ℕ} (h : d < 10) : IsDigit (char d) := by
  unfold IsDigit
  rw [char_toNat h]
  omega

@[simp] theorem digits_zero : digits 0 = [] := rfl

theorem digits_pos {n : ℕ} (h : 0 < n) : digits n = digits (n/10)++[char (n % 10)] := by
  rw [digits,Nat.digits_def' (by decide) h]
  simp [digits]

theorem length_digits {n : ℕ} (h : 0 < n) : (digits n).length = Nat.log 10 n+1 := by
  rw [digits,List.length_reverse,List.length_map,Nat.length_digits 10 n (by decide) h.ne']

theorem length_digits_le {w n : ℕ} (h : n < 10^w) : (digits n).length ≤ w := by
  rw [digits,List.length_reverse,List.length_map]
  exact (Nat.digits_length_le_iff (by decide) n).mpr h

theorem length_numeral (n : ℕ) : (numeral n).length = Nat.log 10 n+1 := by
  unfold numeral
  split_ifs with h
  · subst h
    rfl
  · exact length_digits (Nat.pos_of_ne_zero h)

theorem length_padded {w n : ℕ} (h : n < 10^w) : (padded w n).length = w := by
  have hle := length_digits_le h
  rw [padded,List.length_append,List.length_replicate]
  omega

theorem digits_isDigit {n : ℕ} {b : UInt8} (h : b ∈ digits n) : IsDigit b := by
  obtain ⟨d,hd,rfl⟩ := List.mem_map.mp (List.mem_reverse.mp h)
  exact char_isDigit (Nat.digits_lt_base (by decide) hd)

theorem numeral_isDigit {n : ℕ} {b : UInt8} (h : b ∈ numeral n) : IsDigit b := by
  unfold numeral at h
  split_ifs at h
  · obtain rfl := List.mem_singleton.mp h
    exact char_isDigit (by decide)
  · exact digits_isDigit h

theorem padded_isDigit {w n : ℕ} {b : UInt8} (h : b ∈ padded w n) : IsDigit b := by
  rcases List.mem_append.mp h with h | h
  · rw [List.eq_of_mem_replicate h]
    exact char_isDigit (by decide)
  · exact digits_isDigit h

theorem padded_succ (w n : ℕ) : padded (w+1) n = padded w (n/10)++[char (n % 10)] := by
  rcases Nat.eq_zero_or_pos n with rfl | h
  · simp [padded,List.replicate_succ']
  · rw [padded,padded,digits_pos h,List.length_append,List.length_singleton,
      Nat.add_sub_add_right,List.append_assoc]

theorem read_snoc (bs : List UInt8) (b : UInt8) : read (bs++[b]) = 10*read bs+(b.toNat-48) := by
  simp [read]

theorem read_digits (n : ℕ) : read (digits n) = n := by
  induction n using Nat.strong_induction_on with
  | _ n ih =>
    rcases Nat.eq_zero_or_pos n with rfl | h
    · rfl
    · rw [digits_pos h,read_snoc,ih (n/10) (by omega),char_toNat (by omega)]
      omega

@[simp] theorem read_numeral (n : ℕ) : read (numeral n) = n := by
  unfold numeral
  split_ifs with h
  · rw [h]
    rfl
  · exact read_digits n

theorem read_padded (w n : ℕ) : read (padded w n) = n := by
  induction w generalizing n with
  | zero => simpa [padded] using read_digits n
  | succ w ih =>
    rw [padded_succ,read_snoc,ih,char_toNat (Nat.mod_lt _ (by decide))]
    omega

theorem digits_head {n : ℕ} (h : 0 < n) : (digits n).head? ≠ some (char 0) := by
  induction n using Nat.strong_induction_on with
  | _ n ih =>
    rw [digits_pos h]
    rcases Nat.eq_zero_or_pos (n/10) with h0 | hpos
    · rw [h0,digits_zero,List.nil_append,List.head?_cons]
      intro hc
      have hval := congrArg UInt8.toNat (Option.some.inj hc)
      rw [char_toNat (by omega),char_toNat (by decide)] at hval
      omega
    · have hne : digits (n/10) ≠ [] := List.ne_nil_of_length_pos (by rw [length_digits hpos]; omega)
      rw [List.head?_append_of_ne_nil _ hne]
      exact ih (n/10) (by omega) hpos

theorem numeral_head {n : ℕ} (h : (numeral n).head? = some (char 0)) : n = 0 := by
  by_contra hne
  rw [numeral,if_neg hne] at h
  exact digits_head (Nat.pos_of_ne_zero hne) h

section Order

variable {b c : UInt8} {bs cs : List UInt8}

theorem read_cons (b : UInt8) (bs : List UInt8) :
    read (b::bs) = (b.toNat-48)*10^bs.length+read bs := by
  induction bs using List.reverseRecOn with
  | nil => simp [read]
  | append_singleton bs c ih =>
    rw [← List.cons_append,read_snoc,ih,read_snoc,List.length_append,List.length_singleton,pow_succ]
    ring

theorem read_lt (h : ∀ b ∈ bs, IsDigit b) : read bs < 10^bs.length := by
  induction bs with
  | nil => decide
  | cons b bs ih =>
    obtain ⟨hb,hbs⟩ := List.forall_mem_cons.mp h
    have hlow : (b.toNat-48)*10^bs.length ≤ 9*10^bs.length :=
      Nat.mul_le_mul_right _ (by unfold IsDigit at hb; omega)
    have hrest := ih hbs
    rw [read_cons,List.length_cons,pow_succ]
    omega

/-- A leading digit decides, unless it is the same. -/
theorem leading_lt {p x y r s : ℕ} (hr : r < p) (hs : s < p) :
    x*p+r < y*p+s ↔ x < y ∨ x = y ∧ r < s := by
  rcases lt_trichotomy x y with h | rfl | h
  · have hle : (x+1)*p ≤ y*p := Nat.mul_le_mul_right _ h
    rw [Nat.add_mul,Nat.one_mul] at hle
    exact iff_of_true (by omega) (Or.inl h)
  · simp
  · have hle : (y+1)*p ≤ x*p := Nat.mul_le_mul_right _ h
    rw [Nat.add_mul,Nat.one_mul] at hle
    exact iff_of_false (by omega) (by omega)

/-- Digits of one length are in the order of the numbers they read. -/
theorem lt_iff_read_lt (hlen : bs.length = cs.length) (hbs : ∀ b ∈ bs, IsDigit b)
    (hcs : ∀ c ∈ cs, IsDigit c) : bs < cs ↔ read bs < read cs := by
  induction bs generalizing cs with
  | nil =>
    obtain rfl := List.length_eq_zero_iff.mp hlen.symm
    simp
  | cons b bs ih =>
    obtain ⟨c,cs,rfl⟩ := List.exists_cons_of_length_eq_add_one hlen.symm
    obtain ⟨hb,hbs⟩ := List.forall_mem_cons.mp hbs
    obtain ⟨hc,hcs⟩ := List.forall_mem_cons.mp hcs
    have hlen : bs.length = cs.length := Nat.succ.inj hlen
    have hlt : b < c ↔ b.toNat-48 < c.toNat-48 := by
      unfold IsDigit at hb hc
      rw [UInt8.lt_iff_toNat_lt]
      omega
    have heq : b = c ↔ b.toNat-48 = c.toNat-48 := by
      unfold IsDigit at hb hc
      rw [← UInt8.toNat_inj]
      omega
    rw [List.cons_lt_cons_iff,read_cons,read_cons,hlen,
      leading_lt (hlen ▸ read_lt hbs) (read_lt hcs),ih hlen hbs hcs,hlt,heq]

end Order

end Decimal
