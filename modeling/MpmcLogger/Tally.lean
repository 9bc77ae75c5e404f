import Mathlib.Tactic
import Mathlib.Algebra.BigOperators.Fin

/-!
# Tallies

Counters by key: an ordered association list that holds each key once, with the
number of times it was counted, and a fixed array of counters by index. Counting
is independent of the order, and the counters sum up to what was counted.
-/

set_option autoImplicit false

namespace Tally

variable {α : Type*} [LinearOrder α]

def bumpRows (k : α) : List (α × ℕ) → List (α × ℕ)
  | [] => [(k,1)]
  | (j,n)::rest =>
    if k < j then (k,1)::(j,n)::rest else if k = j then (j,n+1)::rest else (j,n)::bumpRows k rest

theorem bumpRows_keys (k : α) (rows : List (α × ℕ)) :
    ∀ j ∈ (bumpRows k rows).map Prod.fst, j = k ∨ j ∈ rows.map Prod.fst := by
  induction rows with
  | nil => simp [bumpRows]
  | cons r rest ih =>
    obtain ⟨j,n⟩ := r
    intro i hi
    unfold bumpRows at hi
    split_ifs at hi with hlt heq
    · simpa using hi
    · exact Or.inr hi
    · rcases List.mem_cons.mp hi with rfl | hi
      · exact Or.inr List.mem_cons_self
      · exact (ih i hi).imp_right (List.mem_cons_of_mem _)

theorem bumpRows_sorted (k : α) {rows : List (α × ℕ)}
    (h : (rows.map Prod.fst).Pairwise (· < ·)) :
    ((bumpRows k rows).map Prod.fst).Pairwise (· < ·) := by
  induction rows with
  | nil => simp [bumpRows]
  | cons r rest ih =>
    obtain ⟨j,n⟩ := r
    obtain ⟨hj,hrest⟩ := List.pairwise_cons.mp h
    unfold bumpRows
    split_ifs with hlt heq
    · refine List.pairwise_cons.mpr ⟨fun i hi => ?_,h⟩
      rcases List.mem_cons.mp hi with rfl | hi
      · exact hlt
      · exact hlt.trans (hj i hi)
    · exact h
    · refine List.pairwise_cons.mpr ⟨fun i hi => ?_,ih hrest⟩
      rcases bumpRows_keys k rest i hi with rfl | hi
      · exact lt_of_le_of_ne (not_lt.mp hlt) (Ne.symm heq)
      · exact hj i hi

theorem bumpRows_sum (k : α) (rows : List (α × ℕ)) :
    ((bumpRows k rows).map Prod.snd).sum = (rows.map Prod.snd).sum+1 := by
  induction rows with
  | nil => rfl
  | cons r rest ih =>
    obtain ⟨j,n⟩ := r
    unfold bumpRows
    split_ifs with hlt heq
    · simp only [List.map_cons,List.sum_cons]
      omega
    · simp only [List.map_cons,List.sum_cons]
      omega
    · simp only [List.map_cons,List.sum_cons,ih]
      omega

/-- Two counted keys end up in their order, whichever was counted first. -/
theorem bumpRows_comm (k i : α) (rows : List (α × ℕ)) :
    bumpRows k (bumpRows i rows) = bumpRows i (bumpRows k rows) := by
  wlog h : k < i generalizing k i with symm
  · rcases (not_lt.mp h).lt_or_eq with hlt | rfl
    · exact (symm i k hlt).symm
    · rfl
  induction rows with
  | nil => simp [bumpRows,h,h.not_gt,h.ne']
  | cons r rest ih =>
    obtain ⟨j,n⟩ := r
    rcases lt_trichotomy k j with hkj | rfl | hjk
    · -- `k` comes before both other keys
      rcases lt_trichotomy i j with hij | rfl | hji
      · simp [bumpRows,h,hkj,hij,h.not_gt,h.ne']
      · simp [bumpRows,h,h.not_gt,h.ne']
      · simp [bumpRows,hkj,hji.not_gt,hji.ne',h.not_gt,h.ne']
    · simp [bumpRows,h.not_gt,h.ne']
    · have hji := hjk.trans h
      simp [bumpRows,hjk.not_gt,hjk.ne',hji.not_gt,hji.ne',ih]

@[ext]
structure Counts (α : Type*) [LinearOrder α] where
  rows : List (α × ℕ)
  sorted : (rows.map Prod.fst).Pairwise (· < ·)

def Counts.empty : Counts α := ⟨[],.nil⟩

def Counts.bump (c : Counts α) (k : α) : Counts α := ⟨bumpRows k c.rows,bumpRows_sorted k c.sorted⟩

def Counts.total (c : Counts α) : ℕ := (c.rows.map Prod.snd).sum

theorem total_bump (c : Counts α) (k : α) : (c.bump k).total = c.total+1 := bumpRows_sum k c.rows

theorem bump_comm (c : Counts α) (k i : α) : (c.bump k).bump i = (c.bump i).bump k :=
  Counts.ext (bumpRows_comm i k c.rows)

section Array

variable {n : ℕ}

def bumpAt (f : Fin n → ℕ) (i : Fin n) : Fin n → ℕ := fun j => if j = i then f j+1 else f j

theorem bumpAt_comm (f : Fin n → ℕ) (i j : Fin n) :
    bumpAt (bumpAt f i) j = bumpAt (bumpAt f j) i := by
  funext k
  simp only [bumpAt]
  split_ifs <;> rfl

theorem sum_bumpAt {m : ℕ} (h : m ≤ n) (f : Fin n → ℕ) (i : Fin n) :
    ∑ j : Fin m, bumpAt f i (j.castLE h) =
      ∑ j : Fin m, f (j.castLE h)+if i.val < m then 1 else 0 := by
  have hone : ∀ j : Fin m, bumpAt f i (j.castLE h) =
      f (j.castLE h)+if j.castLE h = i then 1 else 0 := by
    intro j
    simp only [bumpAt]
    split_ifs <;> rfl
  simp only [hone,Finset.sum_add_distrib]
  congr 1
  split_ifs with hi
  · have hiff : ∀ j : Fin m, j.castLE h = i ↔ j = ⟨i.val,hi⟩ := by
      intro j
      simp [Fin.ext_iff]
    simp [hiff]
  · refine Finset.sum_eq_zero fun j _ => if_neg fun hj => hi ?_
    rw [← hj]
    exact j.isLt

end Array

theorem sum_shown {ι β : Type*} (is : List ι) (name : ι → β) (f : ι → ℕ) :
    ((is.filterMap fun i => if 0 < f i then some (name i,f i) else none).map Prod.snd).sum =
      (is.map f).sum := by
  induction is with
  | nil => rfl
  | cons i is ih =>
    rw [List.filterMap_cons,List.map_cons,List.sum_cons,← ih]
    split_ifs with h
    · rw [List.map_cons,List.sum_cons]
    · rw [Nat.eq_zero_of_not_pos h,Nat.zero_add]

end Tally
