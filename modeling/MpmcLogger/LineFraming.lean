import Mathlib.Data.List.Basic
import Mathlib.Data.List.Flatten
import Mathlib.Tactic

/-!
# Lines in a stream

A stream is cut after every separator. Lines that end in a separator come back
from their stream exactly when they hold no other one.
-/

set_option autoImplicit false

namespace LineFraming

variable {α : Type*} [DecidableEq α]

def splitAfter (sep : α) : List α → List (List α)
  | [] => []
  | a::as =>
    if a = sep then [a]::splitAfter sep as
    else
      match splitAfter sep as with
      | [] => [[a]]
      | p::ps => (a::p)::ps

variable {sep : α}

theorem splitAfter_line {body : List α} (h : sep ∉ body) (rest : List α) :
    splitAfter sep (body++sep::rest) = (body++[sep])::splitAfter sep rest := by
  induction body with
  | nil => exact if_pos rfl
  | cons a body ih =>
    obtain ⟨hne,hbody⟩ := List.ne_and_not_mem_of_not_mem_cons h
    rw [List.cons_append,splitAfter,if_neg hne.symm,ih hbody]
    rfl

theorem separator_last {xs p : List α} (h : p ∈ splitAfter sep xs) : sep ∉ p.dropLast := by
  induction xs generalizing p with
  | nil => exact absurd h List.not_mem_nil
  | cons a as ih =>
    rw [splitAfter] at h
    split_ifs at h with ha
    · rcases List.mem_cons.mp h with rfl | h
      · simp
      · exact ih h
    · split at h
      · obtain rfl := List.mem_singleton.mp h
        simp
      · rename_i p' ps hp
        rcases List.mem_cons.mp h with rfl | h
        · have hrest : sep ∉ p'.dropLast := ih (by rw [hp]; exact List.mem_cons_self)
          cases p' with
          | nil => simp
          | cons b bs =>
            rw [List.dropLast_cons_cons]
            exact fun hm => (List.mem_cons.mp hm).elim (fun h => ha h.symm) hrest
        · exact ih (by rw [hp]; exact List.mem_cons_of_mem _ h)

def Ended (sep : α) (l : List α) : Prop := ∃ body, l = body++[sep]

/-- Lines come back from their stream if and only if none has a separator inside. -/
theorem splitAfter_flatten_iff {ls : List (List α)} (h : ∀ l ∈ ls, Ended sep l) :
    splitAfter sep ls.flatten = ls ↔ ∀ l ∈ ls, sep ∉ l.dropLast := by
  constructor
  · intro hsplit l hl
    rw [← hsplit] at hl
    exact separator_last hl
  · intro hclean
    induction ls with
    | nil => rfl
    | cons l ls ih =>
      obtain ⟨body,rfl⟩ := h l List.mem_cons_self
      have hbody : sep ∉ body := by simpa using hclean _ List.mem_cons_self
      have hrest := ih (fun l hl => h l (List.mem_cons_of_mem _ hl))
        fun l hl => hclean l (List.mem_cons_of_mem _ hl)
      rw [List.flatten_cons,List.append_assoc,List.singleton_append,splitAfter_line hbody,hrest]

theorem flatten_injective {ls ms : List (List α)} (hl : ∀ l ∈ ls, Ended sep l)
    (hm : ∀ l ∈ ms, Ended sep l) (hls : ∀ l ∈ ls, sep ∉ l.dropLast)
    (hms : ∀ l ∈ ms, sep ∉ l.dropLast) (h : ls.flatten = ms.flatten) : ls = ms := by
  rw [← (splitAfter_flatten_iff hl).mpr hls,h]
  exact (splitAfter_flatten_iff hm).mpr hms

end LineFraming
