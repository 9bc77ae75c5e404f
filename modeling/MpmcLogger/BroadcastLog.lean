import Mathlib.Order.ConditionallyCompleteLattice.Basic
import Mathlib.Order.Nat
import Mathlib.Tactic

/-!
# Broadcast logs

A broadcast log is a list of items and a cursor for each of its present readers.
Every reader receives every item appended since it joined. A log of capacity `N`
accepts an item while its slowest reader is less than `N` items behind; the items
any reader has still to receive are then among the last `N`.
-/

set_option autoImplicit false

namespace BroadcastLog

variable {ι α : Type*}

structure Log (ι α : Type*) where
  items : List α
  cursor : ι → Option ℕ

def Log.empty : Log ι α := ⟨[],fun _ => none⟩

def Log.Attended (a : Log ι α) : Prop := ∃ i k, a.cursor i = some k

noncomputable def Log.slowest (a : Log ι α) : ℕ := sInf {k | ∃ i, a.cursor i = some k}

def Log.Room (a : Log ι α) (N : ℕ) : Prop := a.items.length-a.slowest < N

noncomputable instance (a : Log ι α) (N : ℕ) : Decidable (a.Room N) :=
  inferInstanceAs (Decidable (_ < _))

def Log.append (a : Log ι α) (x : α) : Log ι α := { a with items := a.items++[x] }

def Log.next (a : Log ι α) (i : ι) : Option α := (a.cursor i).bind fun k => a.items[k]?

section Cursors

variable [DecidableEq ι]

def Log.join (a : Log ι α) (i : ι) : Log ι α :=
  { a with cursor := Function.update a.cursor i (some a.items.length) }

def Log.leave (a : Log ι α) (i : ι) : Log ι α :=
  { a with cursor := Function.update a.cursor i none }

def Log.advance (a : Log ι α) (i : ι) : Log ι α :=
  { a with cursor := Function.update a.cursor i ((a.cursor i).map (·+1)) }

end Cursors

def Log.Capped (a : Log ι α) (N : ℕ) : Prop :=
  ∀ i k, a.cursor i = some k → k ≤ a.items.length ∧ a.items.length ≤ k+N

variable {a : Log ι α} {i j : ι} {k v N : ℕ} {x : α}

theorem slowest_le (h : a.cursor i = some k) : a.slowest ≤ k := Nat.sInf_le ⟨i,h⟩

theorem le_slowest (h : a.Attended) : v ≤ a.slowest ↔ ∀ i k, a.cursor i = some k → v ≤ k := by
  constructor
  · exact fun hv i k hk => hv.trans (slowest_le hk)
  · intro hv
    obtain ⟨i,k,hk⟩ := h
    obtain ⟨j,hj⟩ := Nat.sInf_mem (s := {k | ∃ i, a.cursor i = some k}) ⟨k,i,hk⟩
    exact hv j _ hj

theorem room_iff (h : a.Attended) (hN : 0 < N) :
    a.Room N ↔ ∀ i k, a.cursor i = some k → a.items.length < k+N := by
  have hle := le_slowest (v := a.items.length+1-N) h
  constructor
  · intro hr i k hk
    have := slowest_le hk
    unfold Log.Room at hr
    omega
  · intro hall
    have := hle.mpr fun i k hk => by
      have := hall i k hk
      omega
    unfold Log.Room
    omega

@[simp] theorem next_empty : (Log.empty : Log ι α).next i = none := rfl

theorem next_eq_some (h : a.cursor i = some k) : a.next i = a.items[k]? := by
  simp [Log.next,h]

theorem next_eq_none (h : a.cursor i = none) : a.next i = none := by
  simp [Log.next,h]

theorem capped_empty (N : ℕ) : (Log.empty : Log ι α).Capped N := by
  rintro i k ⟨⟩

theorem capped_append (h : a.Capped N) (hr : a.Room N) : (a.append x).Capped N := by
  intro i k hk
  obtain ⟨hle,hcap⟩ := h i k hk
  have := slowest_le (a := a) hk
  unfold Log.Room at hr
  simp only [Log.append,List.length_append,List.length_singleton]
  omega

section Readers

variable [DecidableEq ι]

theorem join_cursor (a : Log ι α) (i j : ι) : (a.join i).cursor j =
    if j = i then some a.items.length else a.cursor j := Function.update_apply _ _ _ _

theorem leave_cursor (a : Log ι α) (i j : ι) : (a.leave i).cursor j =
    if j = i then none else a.cursor j := Function.update_apply _ _ _ _

theorem advance_cursor (a : Log ι α) (i j : ι) : (a.advance i).cursor j =
    if j = i then (a.cursor i).map (·+1) else a.cursor j := Function.update_apply _ _ _ _

theorem capped_join (h : a.Capped N) : (a.join i).Capped N := by
  intro j k hk
  rw [join_cursor] at hk
  split_ifs at hk with hj
  · obtain rfl := Option.some.inj hk
    exact ⟨le_rfl,Nat.le_add_right _ _⟩
  · exact h j k hk

theorem capped_leave (h : a.Capped N) : (a.leave i).Capped N := by
  intro j k hk
  rw [leave_cursor] at hk
  split_ifs at hk with hj
  exact h j k hk

theorem capped_advance (h : a.Capped N) (hx : a.next i = some x) : (a.advance i).Capped N := by
  intro j k hk
  rw [advance_cursor] at hk
  split_ifs at hk with hj
  · obtain ⟨p,hp,rfl⟩ := Option.map_eq_some_iff.mp hk
    rw [next_eq_some hp] at hx
    have hlt := (List.getElem?_eq_some_iff.mp hx).1
    have := (h i p hp).2
    show p+1 ≤ a.items.length ∧ a.items.length ≤ p+1+N
    omega
  · exact h j k hk

end Readers

end BroadcastLog
