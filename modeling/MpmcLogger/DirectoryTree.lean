import Mathlib.Data.List.Infix
import Mathlib.Tactic

/-!
# Directories closed under parents

A directory is the list of names that leads to it from the root. Every directory
stands in an existing one. A path is walked one component at a time and only
through directories that exist; making a directory needs the one it stands in.
-/

set_option autoImplicit false

namespace DirectoryTree

variable {ν : Type*}

inductive Component (ν : Type*) where
  | here
  | up
  | name (x : ν)
  deriving DecidableEq, Repr

structure Dirs (ν : Type*) where
  has : List ν → Bool
  closed : ∀ d x, has (d++[x]) = true → has d = true

@[ext]
theorem Dirs.ext {t t' : Dirs ν} (h : ∀ d, t.has d = true ↔ t'.has d = true) : t = t' := by
  have hhas : t.has = t'.has := funext fun d => Bool.eq_iff_iff.mpr (h d)
  cases t
  cases t'
  cases hhas
  rfl

theorem root_closed (d : List ν) (x : ν) (h : (d++[x]).isEmpty = true) : d.isEmpty = true := by
  simp at h

def Dirs.root : Dirs ν := ⟨List.isEmpty,root_closed⟩

def enter (d : List ν) : Component ν → List ν
  | .here => d
  | .up => d.dropLast
  | .name x => d++[x]

def Dirs.walk (t : Dirs ν) (d : List ν) : List (Component ν) → Option (List ν)
  | [] => if t.has d then some d else none
  | c::cs => if t.has d then t.walk (enter d c) cs else none

theorem has_append (t : Dirs ν) (d e : List ν) (h : t.has (d++e) = true) : t.has d = true := by
  induction e using List.reverseRecOn with
  | nil => rwa [List.append_nil] at h
  | append_singleton e x ih => exact ih (t.closed _ x (by rwa [List.append_assoc]))

theorem walk_names (t : Dirs ν) (d xs : List ν) :
    t.walk d (xs.map .name) = if t.has (d++xs) then some (d++xs) else none := by
  induction xs generalizing d with
  | nil => simp [Dirs.walk]
  | cons x xs ih =>
    rw [List.map_cons,Dirs.walk,enter,ih,List.append_assoc,List.singleton_append]
    split_ifs with hd hx
    · rfl
    · rfl
    · exact absurd (has_append t d (x::xs) ‹_›) hd
    · rfl

section Growing

def Grown (t₀ : Dirs ν) (start xs : List ν) (t : Dirs ν) : Prop :=
  ∀ e, t.has e = true ↔ t₀.has e = true ∨ ∃ ys, ys <+: xs ∧ e = start++ys

variable {t₀ t t' : Dirs ν} {start xs : List ν}

theorem grown_start (h : t₀.has start = true) : Grown t₀ start [] t₀ := by
  intro e
  constructor
  · exact Or.inl
  · rintro (he | ⟨ys,hys,rfl⟩)
    · exact he
    · rwa [List.prefix_nil.mp hys,List.append_nil]

theorem Grown.has_ancestor (h : Grown t₀ start xs t) {ys : List ν} (hys : ys <+: xs) :
    t.has (start++ys) = true := (h _).mpr (Or.inr ⟨ys,hys,rfl⟩)

theorem Grown.twice (h : Grown t₀ start xs t) (h' : Grown t start xs t') :
    t' = t := by
  refine Dirs.ext fun e => ?_
  rw [h' e]
  constructor
  · rintro (he | ⟨ys,hys,rfl⟩)
    · exact he
    · exact h.has_ancestor hys
  · exact Or.inl

end Growing

section Making

variable [DecidableEq ν]

theorem add_closed (t : Dirs ν) {d : List ν} (h : t.has d = true) (x : ν) (e : List ν) (y : ν)
    (he : (decide (e++[y] = d++[x]) || t.has (e++[y])) = true) :
    (decide (e = d++[x]) || t.has e) = true := by
  rw [Bool.or_eq_true,decide_eq_true_eq] at he ⊢
  rcases he with he | he
  · rw [(List.append_inj' he rfl).1]
    exact Or.inr h
  · exact Or.inr (t.closed e y he)

def Dirs.add (t : Dirs ν) (d : List ν) (x : ν) : Dirs ν :=
  if h : t.has d = true then ⟨fun e => decide (e = d++[x]) || t.has e,add_closed t h x⟩ else t

def Dirs.make (t : Dirs ν) (start : List ν) (cs : List (Component ν)) : Dirs ν :=
  match cs.getLast? with
  | some (.name x) =>
    match t.walk start cs.dropLast with
    | some d => t.add d x
    | none => t
  | _ => t

theorem add_has {t : Dirs ν} {d : List ν} (h : t.has d = true) (x : ν) (e : List ν) :
    (t.add d x).has e = true ↔ t.has e = true ∨ e = d++[x] := by
  rw [Dirs.add,dif_pos h,Bool.or_eq_true,decide_eq_true_eq,or_comm]

@[simp] theorem make_nil (t : Dirs ν) (start : List ν) : t.make start [] = t := rfl

/-- Along names, making a directory needs no more than its parent. -/
theorem make_names (t : Dirs ν) (start xs : List ν) (x : ν) :
    t.make start ((xs++[x]).map .name) = t.add (start++xs) x := by
  have hlast : ((xs++[x]).map Component.name).getLast? = some (.name x) := by simp
  have hfront : ((xs++[x]).map Component.name).dropLast = xs.map .name := by simp
  rw [Dirs.make,hlast,hfront,walk_names]
  dsimp only
  by_cases h : t.has (start++xs) = true
  · rw [if_pos h]
  · rw [if_neg h,Dirs.add,dif_neg h]

variable {t₀ t : Dirs ν} {start xs : List ν}

theorem Grown.make_next (h : Grown t₀ start xs t) (x : ν) :
    Grown t₀ start (xs++[x]) (t.make start ((xs++[x]).map .name)) := by
  intro e
  rw [make_names,add_has (h.has_ancestor (List.prefix_refl xs)),h e,or_assoc]
  refine or_congr_right ⟨?_,?_⟩
  · rintro (⟨ys,hys,rfl⟩ | rfl)
    · exact ⟨ys,hys.trans (List.prefix_append _ _),rfl⟩
    · exact ⟨xs++[x],List.prefix_refl _,List.append_assoc _ _ _⟩
  · rintro ⟨ys,hys,rfl⟩
    rcases List.prefix_concat_iff.mp hys with rfl | hys
    · exact Or.inr (List.append_assoc _ _ _).symm
    · exact Or.inl ⟨ys,hys,rfl⟩

theorem Grown.make_again (h : Grown t₀ start xs t) : t.make start (xs.map .name) = t := by
  rcases List.eq_nil_or_concat' xs with rfl | ⟨ys,x,rfl⟩
  · exact make_nil t start
  · have hys := h.has_ancestor (List.prefix_append ys [x])
    have hlast := h.has_ancestor (List.prefix_refl (ys++[x]))
    rw [make_names]
    refine Dirs.ext fun e => ?_
    rw [add_has hys]
    constructor
    · rintro (he | rfl)
      · exact he
      · rwa [List.append_assoc]
    · exact Or.inl

end Making

end DirectoryTree
