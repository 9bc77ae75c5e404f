import Mathlib.Logic.Function.Basic
import Mathlib.Tactic

/-!
# Arrays written through pointers

A pointer is an offset from the start of its array and may leave it on either
side: every store is recorded with its offset. The rule says of a piece of code
that it wrote given data at a given place and nothing else; two adjacent pieces
compose in either order, forwards or backwards.
-/

set_option autoImplicit false

namespace StoreRegion

variable {α : Type*}

structure Region (α : Type*) where
  cell : ℤ → α
  stored : List ℤ

def Region.fresh (init : ℤ → α) : Region α := ⟨init,[]⟩

def Region.store (r : Region α) (p : ℤ) (a : α) : Region α :=
  ⟨Function.update r.cell p a,p::r.stored⟩

def Region.copy (r : Region α) (p : ℤ) : List α → Region α
  | [] => r
  | a::as => (r.store p a).copy (p+1) as

def Region.load (r : Region α) (p : ℤ) (n : ℕ) : List α :=
  List.ofFn fun i : Fin n => r.cell (p+i.val)

structure Wrote (r : Region α) (p : ℤ) (data : List α) (r' : Region α) : Prop where
  holds : ∀ (i : ℕ) (h : i < data.length), r'.cell (p+i) = data[i]
  kept : ∀ o : ℤ, o < p ∨ p+data.length ≤ o → r'.cell o = r.cell o
  stores : ∀ o : ℤ, o ∈ r'.stored ↔ o ∈ r.stored ∨ p ≤ o ∧ o < p+data.length

variable {r r' r'' : Region α} {p p' : ℤ} {xs ys : List α}

theorem wrote_nil (r : Region α) (p : ℤ) : Wrote r p [] r where
  holds i h := absurd h (Nat.not_lt_zero i)
  kept _ _ := rfl
  stores o := by
    simp only [List.length_nil,Nat.cast_zero]
    constructor
    · exact Or.inl
    · rintro (h | h)
      · exact h
      · omega

theorem wrote_store (r : Region α) (p : ℤ) (a : α) : Wrote r p [a] (r.store p a) where
  holds i h := by
    obtain rfl : i = 0 := by simpa using h
    simp [Region.store]
  kept o h := by
    have hne : o ≠ p := by
      simp only [List.length_singleton,Nat.cast_one] at h
      omega
    exact Function.update_of_ne hne _ _
  stores o := by
    simp only [Region.store,List.mem_cons,List.length_singleton,Nat.cast_one]
    constructor
    · rintro (rfl | h)
      · omega
      · exact Or.inl h
    · rintro (h | h)
      · exact Or.inr h
      · exact Or.inl (by omega)

/-- Two pieces side by side, whichever of them is written first. -/
theorem wrote_join (hleft : ∀ (i : ℕ) (h : i < xs.length), r''.cell (p+i) = xs[i])
    (hright : ∀ (i : ℕ) (h : i < ys.length), r''.cell (p+xs.length+i) = ys[i])
    (hkept : ∀ o : ℤ, o < p ∨ p+xs.length+ys.length ≤ o → r''.cell o = r.cell o)
    (hstores : ∀ o : ℤ, o ∈ r''.stored ↔ o ∈ r.stored ∨ (p ≤ o ∧ o < p+xs.length) ∨
      p+xs.length ≤ o ∧ o < p+xs.length+ys.length) : Wrote r p (xs++ys) r'' where
  holds i h := by
    rcases Nat.lt_or_ge i xs.length with hi | hi
    · rw [List.getElem_append_left hi]
      exact hleft i hi
    · rw [List.getElem_append_right hi,← hright (i-xs.length) (by
        rw [List.length_append] at h
        omega)]
      congr 1
      omega
  kept o h := hkept o (by rwa [List.length_append,Nat.cast_add,← add_assoc] at h)
  stores o := by
    rw [hstores o,List.length_append,Nat.cast_add]
    refine or_congr_right ?_
    omega

theorem Wrote.append (h : Wrote r p xs r') (h' : Wrote r' (p+xs.length) ys r'') :
    Wrote r p (xs++ys) r'' := by
  refine wrote_join (fun i hi => ?_) h'.holds (fun o ho => ?_) (fun o => ?_)
  · rw [h'.kept _ (Or.inl (by omega))]
    exact h.holds i hi
  · rw [h'.kept o (by omega),h.kept o (by omega)]
  · rw [h'.stores o,h.stores o,or_assoc]

theorem Wrote.prepend (h : Wrote r (p+xs.length) ys r') (h' : Wrote r' p xs r'') :
    Wrote r p (xs++ys) r'' := by
  refine wrote_join h'.holds (fun i hi => ?_) (fun o ho => ?_) (fun o => ?_)
  · rw [h'.kept _ (Or.inr (by omega))]
    exact h.holds i hi
  · rw [h'.kept o (by omega),h.kept o (by omega)]
  · rw [h'.stores o,h.stores o,or_assoc,or_congr_right or_comm]

theorem wrote_copy (r : Region α) (p : ℤ) (xs : List α) : Wrote r p xs (r.copy p xs) := by
  induction xs generalizing r p with
  | nil => exact wrote_nil r p
  | cons a as ih =>
    have h : Wrote (r.store p a) (p+[a].length) as (r.copy p (a::as)) := by
      simpa [Region.copy] using ih (r.store p a) (p+1)
    exact (wrote_store r p a).append h

theorem Wrote.load (h : Wrote r p xs r') : r'.load p xs.length = xs := by
  refine List.ext_getElem (by simp [Region.load]) fun i _ hi => ?_
  simpa [Region.load] using h.holds i hi

end StoreRegion
