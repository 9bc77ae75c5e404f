import Mathlib.Data.Nat.Notation
import Mathlib.Data.List.Basic
import Mathlib.Logic.Nontrivial.Basic
import Mathlib.Tactic

/-!
# Files behind a page cache

A byte written to a file is in the cache; the disk has it for certain only once
its range has been synchronised. After a crash a file agrees with the cache on
every byte that was clean, and may hold anything where a byte was dirty.
-/

set_option autoImplicit false

namespace PageCache

variable {ι α : Type*}

abbrev Dirty (ι : Type*) := ι → ℕ → Bool

section Ranges

variable [DecidableEq ι]

def inRange (i : ι) (lo hi : ℕ) (f : ι) (j : ℕ) : Bool := decide (f = i ∧ lo ≤ j ∧ j < hi)

def Dirty.sync (d : Dirty ι) (i : ι) (lo hi : ℕ) : Dirty ι := fun f j =>
  d f j && !inRange i lo hi f j

@[simp] theorem inRange_iff (i : ι) (lo hi : ℕ) (f : ι) (j : ℕ) :
    inRange i lo hi f j = true ↔ f = i ∧ lo ≤ j ∧ j < hi := decide_eq_true_iff

theorem sync_iff (d : Dirty ι) (i : ι) (lo hi : ℕ) (f : ι) (j : ℕ) :
    d.sync i lo hi f j = true ↔ d f j = true ∧ ¬(f = i ∧ lo ≤ j ∧ j < hi) := by
  simp only [Dirty.sync,inRange,Bool.and_eq_true,Bool.not_eq_true',decide_eq_false_iff_not]

end Ranges

def Crashed (d : Dirty ι) (files disk : ι → List α) : Prop :=
  ∀ f j, d f j = false → (disk f)[j]? = (files f)[j]?

theorem crashed_lost [DecidableEq ι] [Nontrivial α] {d : Dirty ι} {f : ι} {j : ℕ}
    (h : d f j = true) (files : ι → List α) (hj : j < (files f).length) :
    ∃ disk, Crashed d files disk ∧ (disk f)[j]? ≠ (files f)[j]? := by
  obtain ⟨x,hx⟩ := exists_ne ((files f)[j])
  refine ⟨Function.update files f ((files f).set j x),fun g k hd => ?_,?_⟩
  · by_cases hg : g = f
    · subst hg
      have hk : j ≠ k := by
        rintro rfl
        rw [h] at hd
        cases hd
      rw [Function.update_self,List.getElem?_set_ne hk]
    · rw [Function.update_of_ne hg]
  · rw [Function.update_self,List.getElem?_set_self hj,List.getElem?_eq_getElem hj]
    exact fun he => hx (Option.some.inj he)

end PageCache
