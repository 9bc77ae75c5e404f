import Mathlib.Data.Nat.Notation
import Mathlib.Logic.Function.Defs
import Mathlib.Tactic.Basic
import Mathlib.Tactic.SplitIfs

/-!
# Cells copied without atomicity

A copy of a large value is two machine steps, a begin and an end, and any other
access may fall between them. A cell holds one whole value only while a single
copy into it began after the last one ended; overlapping copies leave it torn
for good. A reader obtains a value only when the cell was whole at its begin
and no copy into the cell began before its end.
-/

set_option autoImplicit false

namespace CopiedCell

variable {ι κ α : Type*}

inductive Content (ι α : Type*) where
  | blank
  | writing (owner : ι)
  | whole (value : α)
  | torn
  deriving DecidableEq, Repr

structure Cell (ι α : Type*) where
  content : Content ι α
  begun : ℕ
  deriving DecidableEq, Repr

def Cell.empty : Cell ι α := ⟨.blank,0⟩

def Content.Settled : Content ι α → Prop
  | .blank | .whole _ => True
  | .writing _ | .torn => False

def Cell.beginWrite (i : ι) (c : Cell ι α) : Cell ι α where
  content := match c.content with
    | .blank | .whole _ => .writing i
    | .writing _ | .torn => .torn
  begun := c.begun+1

def Cell.endWrite [DecidableEq ι] (i : ι) (x : α) (c : Cell ι α) : Cell ι α where
  content := match c.content with
    | .writing j => if j = i then .whole x else .torn
    | .blank | .whole _ | .torn => .torn
  begun := c.begun

def Cell.read (before after : Cell ι α) : Option α :=
  if before.begun = after.begun then
    match before.content with
    | .whole x => some x
    | .blank | .writing _ | .torn => none
  else none

def Content.rename (f : ι → κ) : Content ι α → Content κ α
  | .blank => .blank
  | .writing i => .writing (f i)
  | .whole x => .whole x
  | .torn => .torn

def Cell.rename (f : ι → κ) (c : Cell ι α) : Cell κ α := ⟨c.content.rename f,c.begun⟩

@[simp] theorem settled_blank : (Content.blank : Content ι α).Settled := trivial

@[simp] theorem settled_whole (x : α) : (Content.whole x : Content ι α).Settled := trivial

theorem beginWrite_settled (i : ι) (c : Cell ι α) (h : c.content.Settled) :
    (c.beginWrite i).content = .writing i := by
  unfold Cell.beginWrite
  cases hc : c.content <;> simp_all [Content.Settled]

theorem endWrite_own [DecidableEq ι] (i : ι) (x : α) (c : Cell ι α)
    (h : c.content = .writing i) : (c.endWrite i x).content = .whole x := by
  simp [Cell.endWrite,h]

theorem read_unchanged (c : Cell ι α) (x : α) (h : c.content = .whole x) :
    c.read c = some x := by
  simp [Cell.read,h]

section Only

variable {P : α → Prop} {i : ι} {c d : Cell ι α} {x : α}

def Cell.Only (P : α → Prop) (c : Cell ι α) : Prop := ∀ x, c.content = .whole x → P x

theorem only_empty (P : α → Prop) : (Cell.empty : Cell ι α).Only P := by
  rintro x ⟨⟩

theorem only_beginWrite (i : ι) (c : Cell ι α) : (c.beginWrite i).Only P := by
  intro x hx
  unfold Cell.beginWrite at hx
  cases hc : c.content <;> simp [hc] at hx

theorem only_endWrite [DecidableEq ι] (i : ι) (c : Cell ι α) (hx : P x) :
    (c.endWrite i x).Only P := by
  intro y hy
  unfold Cell.endWrite at hy
  cases hc : c.content with
  | writing j =>
    simp only [hc] at hy
    split_ifs at hy
    cases hy
    exact hx
  | _ => simp [hc] at hy

theorem only_read (hc : c.Only P) (h : c.read d = some x) : P x := by
  unfold Cell.read at h
  split_ifs at h
  cases hx : c.content with
  | whole y =>
    simp only [hx,Option.some.injEq] at h
    exact h ▸ hc y hx
  | _ => simp [hx] at h

end Only

section Rename

@[simp] theorem rename_empty (f : ι → κ) : (Cell.empty : Cell ι α).rename f = Cell.empty := rfl

theorem rename_beginWrite (f : ι → κ) (i : ι) (c : Cell ι α) :
    (c.beginWrite i).rename f = (c.rename f).beginWrite (f i) := by
  obtain ⟨c,n⟩ := c
  cases c <;> rfl

/-- Two writers may not come to bear one name. -/
theorem rename_endWrite [DecidableEq ι] [DecidableEq κ] {f : ι → κ} (hf : Function.Injective f)
    (i : ι) (x : α) (c : Cell ι α) :
    (c.endWrite i x).rename f = (c.rename f).endWrite (f i) x := by
  obtain ⟨c,n⟩ := c
  cases c with
  | writing j =>
    by_cases hj : j = i
    · simp [Cell.endWrite,Cell.rename,Content.rename,hj]
    · have hne : f j ≠ f i := fun h => hj (hf h)
      simp [Cell.endWrite,Cell.rename,Content.rename,hj,hne]
  | blank => rfl
  | whole y => rfl
  | torn => rfl

theorem read_rename (f : ι → κ) (c d : Cell ι α) :
    (c.rename f).read (d.rename f) = c.read d := by
  obtain ⟨c,n⟩ := c
  cases c <;> rfl

end Rename

end CopiedCell
