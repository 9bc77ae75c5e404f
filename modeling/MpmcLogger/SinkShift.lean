import Mathlib
import MpmcLogger.SinkAlignment
import MpmcLogger.SinkGenerations

/-!
# Rotation as a shift

The directory before and after `rotate_files`: every file moves one place up,
the one in the last place is lost. Over any number of rotations the places hold
the files rotated last, newest first. Whatever the outcome of its calls, a
rotation touches no other name; how many calls it makes, and how many places
there are, depends on a loop counter that wraps when no file is to be kept.
-/

set_option autoImplicit false

namespace MpmcLogger.SinkShift
open MachineWord FileStore MpmcLogger.SinkMachine MpmcLogger.SinkSteps MpmcLogger.SinkBounds
open MpmcLogger.SinkAlignment MpmcLogger.SinkGenerations

section Names

variable {os : Os} {fs : Store String UInt8} {base r : String}

theorem rotatedName_inj {i j : ℕ} (h : rotatedName base i = rotatedName base j) : i = j :=
  Nat.repr_inj.mp ((String.append_right_inj _).mp h)

theorem perform_ok (hm : ∀ c, os.moveOk c = true) (c : FsCall) : os.perform fs c = c.run fs := by
  rw [Os.perform,hm,if_pos rfl]

def touched : FsCall → List String
  | .unlink p => [p]
  | .rename p q => [p,q]

theorem performs_other (cs : List FsCall) (h : ∀ c ∈ cs, r ∉ touched c) :
    (cs.foldl os.perform fs).names r = fs.names r := by
  induction cs generalizing fs with
  | nil => rfl
  | cons c cs ih =>
    obtain ⟨hc,hcs⟩ := List.forall_mem_cons.mp h
    rw [List.foldl_cons,ih hcs]
    unfold Os.perform
    split_ifs
    · cases c with
      | unlink p =>
        rw [touched,List.mem_singleton] at hc
        exact (unlink_names p r).trans (if_neg hc)
      | rename p q =>
        simp only [touched,List.mem_cons,List.not_mem_nil,or_false,not_or] at hc
        exact rename_other hc.1 hc.2
    · rfl

theorem performs_read (cs : List FsCall) :
    (cs.foldl os.perform fs).read r = ((cs.foldl os.perform fs).names r).map fs.files := by
  rw [Store.read,(performs_files os cs fs).1]

theorem mem_shiftCalls {c : FsCall} {k : ℕ} : c ∈ shiftCalls base k ↔
    ∃ i, 1 ≤ i ∧ i ≤ k ∧ c = .rename (rotatedName base i) (rotatedName base (u64 (i+1))) := by
  induction k with
  | zero => exact ⟨fun h => absurd h List.not_mem_nil,fun ⟨i,h1,h0,_⟩ => by omega⟩
  | succ k ih =>
    rw [shiftCalls,List.mem_cons,ih]
    constructor
    · rintro (rfl | ⟨i,h1,hk,rfl⟩)
      · exact ⟨k+1,by omega,le_rfl,rfl⟩
      · exact ⟨i,h1,by omega,rfl⟩
    · rintro ⟨i,h1,hk,rfl⟩
      rcases Nat.lt_succ_iff_lt_or_eq.mp (Nat.lt_succ_of_le hk) with hlt | rfl
      · exact Or.inr ⟨i,h1,by omega,rfl⟩
      · exact Or.inl rfl

theorem length_shiftCalls (base : String) (k : ℕ) : (shiftCalls base k).length = k := by
  induction k with
  | zero => rfl
  | succ k ih => rw [shiftCalls,List.length_cons,ih]

theorem length_rotateCalls (g : Settings) :
    (rotateCalls g).length = sub64 g.maxRotated 1+2 := by
  simp [rotateCalls,length_shiftCalls]

theorem shift_other (k : ℕ) (hk : k+1 < 2^64) (hr : ∀ j, 1 ≤ j → j ≤ k+1 → r ≠ rotatedName base j) :
    ((shiftCalls base k).foldl os.perform fs).names r = fs.names r := by
  apply performs_other
  intro c hc
  obtain ⟨i,h1,hi,rfl⟩ := mem_shiftCalls.mp hc
  rw [u64_of_lt (by omega)]
  simpa [touched] using ⟨hr i h1 (by omega),hr (i+1) (by omega) (by omega)⟩

theorem shift_names (hm : ∀ c, os.moveOk c = true) (k : ℕ) (hk : k+1 < 2^64)
    (habs : fs.names (rotatedName base (k+1)) = none) :
    ((shiftCalls base k).foldl os.perform fs).names (rotatedName base 1) = none ∧
    ∀ j, 1 ≤ j → j ≤ k → ((shiftCalls base k).foldl os.perform fs).names
      (rotatedName base (j+1)) = fs.names (rotatedName base j) := by
  induction k generalizing fs with
  | zero => exact ⟨habs,fun j h1 h0 => by omega⟩
  | succ k ih =>
    have hne : ∀ {i j : ℕ}, i ≠ j → rotatedName base i ≠ rotatedName base j :=
      fun hij h => hij (rotatedName_inj h)
    have hstep : ∀ r, (os.perform fs (.rename (rotatedName base (k+1))
        (rotatedName base (u64 (k+2))))).names r =
        if r = rotatedName base (k+2) then fs.names (rotatedName base (k+1))
        else if r = rotatedName base (k+1) then none else fs.names r := by
      intro r
      rw [perform_ok hm,u64_of_lt hk]
      exact rename_onto_absent habs r
    have hvacated : (os.perform fs (.rename (rotatedName base (k+1))
        (rotatedName base (u64 (k+2))))).names (rotatedName base (k+1)) = none := by
      rw [hstep,if_neg (hne (by omega)),if_pos rfl]
    obtain ⟨h1,hup⟩ := ih (by omega) hvacated
    rw [shiftCalls,List.foldl_cons]
    refine ⟨h1,fun j hj hjk => ?_⟩
    rcases Nat.lt_succ_iff_lt_or_eq.mp (Nat.lt_succ_of_le hjk) with hlt | rfl
    · rw [hup j hj (by omega),hstep,if_neg (hne (by omega)),if_neg (hne (by omega))]
    · rw [shift_other k (by omega) fun i _ hi => hne (by omega),hstep,if_pos rfl]

theorem rotate_other (g : Settings) (hN : 1 ≤ g.maxRotated) (hbase : r ≠ g.basePath)
    (hr : ∀ j, 1 ≤ j → j ≤ g.maxRotated → r ≠ rotatedName g.basePath j) :
    ((rotateCalls g).foldl os.perform fs).names r = fs.names r := by
  have hfits := g.rotated_fits
  apply performs_other
  intro c hc
  simp only [rotateCalls,List.mem_cons,List.mem_append,mem_shiftCalls,List.not_mem_nil,
    or_false,sub64_of_le hN] at hc
  rcases hc with rfl | ⟨i,h1,hi,rfl⟩ | rfl
  · simpa [touched] using hr _ hN le_rfl
  · rw [u64_of_lt (by omega)]
    simpa [touched] using ⟨hr i h1 (by omega),hr (i+1) (by omega) (by omega)⟩
  · simpa [touched] using ⟨hbase,hr 1 le_rfl hN⟩

/-- A rotation is a shift: the oldest file is dropped, the base name is free. -/
theorem rotate_names (hm : ∀ c, os.moveOk c = true) (g : Settings) (hN : 1 ≤ g.maxRotated) :
    let fs' := (rotateCalls g).foldl os.perform fs
    fs'.names g.basePath = none ∧
    fs'.names (rotatedName g.basePath 1) = fs.names g.basePath ∧
    ∀ j, 1 ≤ j → j < g.maxRotated →
      fs'.names (rotatedName g.basePath (j+1)) = fs.names (rotatedName g.basePath j) := by
  intro fs'
  have hfits := g.rotated_fits
  have hne : ∀ {i j : ℕ}, i ≠ j → rotatedName g.basePath i ≠ rotatedName g.basePath j :=
    fun hij h => hij (rotatedName_inj h)
  have hbase : ∀ i, g.basePath ≠ rotatedName g.basePath i := rotatedName_ne g.basePath
  let fs₁ := fs.unlink (rotatedName g.basePath g.maxRotated)
  let fs₂ := (shiftCalls g.basePath (g.maxRotated-1)).foldl os.perform fs₁
  have hfs' : fs' = fs₂.rename g.basePath (rotatedName g.basePath 1) := by
    simp only [fs',rotateCalls,List.foldl_cons,List.foldl_append,List.foldl_nil,
      sub64_of_le hN,perform_ok hm,FsCall.run,fs₂,fs₁]
  have habs : fs₁.names (rotatedName g.basePath (g.maxRotated-1+1)) = none := by
    rw [Nat.sub_add_cancel hN,unlink_names,if_pos rfl]
  obtain ⟨h1,hup⟩ := shift_names hm (g.maxRotated-1) (by omega) habs
  have hlast : ∀ r, (fs₂.rename g.basePath (rotatedName g.basePath 1)).names r =
      if r = rotatedName g.basePath 1 then fs₂.names g.basePath
      else if r = g.basePath then none else fs₂.names r := rename_onto_absent h1
  rw [hfs']
  refine ⟨?_,?_,fun j hj hjN => ?_⟩
  · rw [hlast,if_neg (hbase 1),if_pos rfl]
  · rw [hlast,if_pos rfl,shift_other _ (by omega) fun i _ _ => hbase i,unlink_names,
      if_neg (hbase _)]
  · rw [hlast,if_neg (hne (by omega)),if_neg (hbase _).symm,hup j hj (by omega),unlink_names,
      if_neg (hne (by omega))]

end Names

abbrev Directory := String → Option Bytes

structure Shifted (g : Settings) (d d' : Directory) : Prop where
  current : d' g.basePath = none
  first : d' (rotatedName g.basePath 1) = d g.basePath
  up : ∀ j, 1 ≤ j → j < g.maxRotated →
    d' (rotatedName g.basePath (j+1)) = d (rotatedName g.basePath j)
  other : ∀ p, p ≠ g.basePath → (∀ j, 1 ≤ j → j ≤ g.maxRotated → p ≠ rotatedName g.basePath j) →
    d' p = d p

/-- Rotations one after another; between them anything may happen to the current
file and to nothing else. The list has what each rotation found, newest first. -/
inductive Rotations (ok : Os → Prop) (s₀ : State) : List (Option Bytes) → State → Prop
  | start : Rotations ok s₀ [] s₀
  | next {s t : State} {os : Os} {cs : List (Option Bytes)} (r : Rotations ok s₀ cs s)
      (hset : t.settings = s.settings)
      (hkeep : ∀ p, p ≠ s.settings.basePath → t.fs.read p = s.fs.read p) (hos : ok os) :
      Rotations ok s₀ (t.fs.read s.settings.basePath::cs) (t.rotateFiles os)

def Moves (os : Os) : Prop := ∀ c, os.moveOk c = true

section Runs

variable {ok : Os → Prop} {s₀ s : State} {cs : List (Option Bytes)}

theorem rotateFiles_shifted {os : Os} (hm : Moves os) (s : State)
    (hN : 1 ≤ s.settings.maxRotated) :
    Shifted s.settings s.fs.read (s.rotateFiles os).fs.read := by
  obtain ⟨hcurrent,hfirst,hup⟩ := @rotate_names os s.fs hm s.settings hN
  refine ⟨?_,?_,fun j hj hjN => ?_,fun p hp hplaces => ?_⟩ <;> rw [rotate_fs,performs_read]
  · rw [hcurrent]
    rfl
  · rw [hfirst]
    rfl
  · rw [hup j hj hjN]
    rfl
  · rw [rotate_other s.settings hN hp hplaces]
    rfl

theorem rotations_settings (r : Rotations ok s₀ cs s) : s.settings = s₀.settings := by
  induction r with
  | start => rfl
  | next _ hset _ _ ih => exact hset.trans ih

theorem rotations_other (r : Rotations ok s₀ cs s) (hN : 1 ≤ s₀.settings.maxRotated) {p : String}
    (hp : p ≠ s₀.settings.basePath)
    (hplaces : ∀ j, 1 ≤ j → j ≤ s₀.settings.maxRotated → p ≠ rotatedName s₀.settings.basePath j) :
    s.fs.read p = s₀.fs.read p := by
  induction r with
  | start => rfl
  | @next s t os cs r hset hkeep hos ih =>
    have hsame := rotations_settings r
    rw [hsame] at hset hkeep
    rw [rotate_fs,performs_read,hset,rotate_other _ hN hp hplaces]
    exact (hkeep p hp).trans ih

/-- The places hold what the last rotations found, and behind it what was there
at the beginning, moved up by the number of rotations. -/
theorem rotations_places (r : Rotations Moves s₀ cs s) (hN : 1 ≤ s₀.settings.maxRotated) (j : ℕ)
    (hj : j < s₀.settings.maxRotated) : s.fs.read (rotatedName s₀.settings.basePath (j+1)) =
      if j < cs.length then cs[j]?.join
      else s₀.fs.read (rotatedName s₀.settings.basePath (j+1-cs.length)) := by
  induction r generalizing j with
  | start => simp
  | @next s t os cs r hset hkeep hos ih =>
    have hsame := rotations_settings r
    rw [hsame] at hset hkeep
    have hshift := rotateFiles_shifted hos t (by rwa [hset])
    rw [hset] at hshift
    cases j with
    | zero =>
      rw [hshift.first,hsame]
      simp
    | succ j =>
      rw [hshift.up (j+1) (by omega) hj,hkeep _ (rotatedName_ne _ _).symm,ih j (by omega)]
      simp [Nat.add_sub_add_right]

theorem rotations_written (r : Rotations ok s₀ cs s)
    (hfree : s.fs.names s.settings.basePath = none) (c : Bytes) (os : Os) (hos : ok os) :
    Rotations ok s₀ (some c::cs)
      (State.rotateFiles os { s with fs := s.fs.write s.settings.basePath c }) := by
  let t : State := { s with fs := s.fs.write s.settings.basePath c }
  have hread : ∀ p, t.fs.read p = if p = s.settings.basePath then some c else s.fs.read p :=
    write_read hfree c
  have hnext := r.next (t := t) rfl (fun p hp => (hread p).trans (if_neg hp)) hos
  rwa [hread,if_pos rfl] at hnext

/-- Where the base name is free, any files can be rotated one after another. -/
theorem rotations_possible (h : s₀.fs.names s₀.settings.basePath = none) (cs : List Bytes) :
    ∃ s, Rotations Moves s₀ (cs.map some) s ∧ s.fs.names s.settings.basePath = none := by
  induction cs with
  | nil => exact ⟨s₀,.start,h⟩
  | cons c cs ih =>
    obtain ⟨s,r,hfree⟩ := ih
    exact ⟨_,rotations_written r hfree c .succeeds fun _ => rfl,
      rotate_frees_base .succeeds (fun _ => rfl) _ _⟩

end Runs

/-- One rotation shifts the directory, whatever it holds. After any number of
rotations, each of a new file, the first places hold the files rotated last, the
further ones those of the beginning, and every other name is unchanged. -/
theorem rotation_shifts (s₀ : State) (hN : 1 ≤ s₀.settings.maxRotated) :
    (∀ os, Moves os → Shifted s₀.settings s₀.fs.read (s₀.rotateFiles os).fs.read) ∧
    ∀ (cs : List Bytes) (s : State), Rotations Moves s₀ (cs.map some) s →
      (∀ j, 1 ≤ j → j ≤ min cs.length s₀.settings.maxRotated →
        s.fs.read (rotatedName s₀.settings.basePath j) = cs[j-1]?) ∧
      (∀ j, cs.length < j → j ≤ s₀.settings.maxRotated →
        s.fs.read (rotatedName s₀.settings.basePath j) =
          s₀.fs.read (rotatedName s₀.settings.basePath (j-cs.length))) ∧
      ∀ p, p ≠ s₀.settings.basePath →
        (∀ j, 1 ≤ j → j ≤ s₀.settings.maxRotated → p ≠ rotatedName s₀.settings.basePath j) →
        s.fs.read p = s₀.fs.read p := by
  refine ⟨fun os hm => rotateFiles_shifted hm s₀ hN,fun cs s r => ?_⟩
  have hplaces := rotations_places r hN
  rw [List.length_map] at hplaces
  refine ⟨fun j hj hle => ?_,fun j hlt hle => ?_,fun p => rotations_other r hN⟩
  · obtain ⟨i,rfl⟩ := Nat.exists_eq_succ_of_ne_zero (Nat.one_le_iff_ne_zero.mp hj)
    have hi : i < cs.length := by omega
    rw [Nat.succ_eq_add_one,hplaces i (by omega),if_pos hi]
    simp [hi]
  · obtain ⟨i,rfl⟩ := Nat.exists_eq_succ_of_ne_zero (Nat.ne_of_gt (Nat.zero_lt_of_lt hlt))
    rw [Nat.succ_eq_add_one,hplaces i (by omega),if_neg (by omega)]

def unopened (g : Settings) : State := ⟨.empty,g,none,none,0,0,0,0⟩

/-- Two files kept, two rotations. -/
theorem rotation_shifts_twice :
    let g := appLog 64 64 2
    ∃ s, Rotations Moves (unopened g) [some [2],some [1]] s ∧
      s.fs.read (rotatedName g.basePath 1) = some [2] ∧
      s.fs.read (rotatedName g.basePath 2) = some [1] := by
  intro g
  let s₀ := unopened g
  have hfree : s₀.fs.names s₀.settings.basePath = none := rfl
  obtain ⟨s,r,-⟩ := rotations_possible hfree [[2],[1]]
  obtain ⟨hplaces,-,-⟩ := (rotation_shifts s₀ (by decide)).2 [[2],[1]] s r
  exact ⟨s,r,hplaces 1 le_rfl (by decide),hplaces 2 (by decide) (by decide)⟩

def kept (s : State) : Set ℕ := {j | (s.fs.read (rotatedName s.settings.basePath j)).isSome}

section Places

variable {s₀ s : State} {cs : List (Option Bytes)}

/-- With the counter wrapped the loop makes 2^64-1 turns. -/
theorem work_bounded_iff (g : Settings) :
    (rotateCalls g).length ≤ g.maxRotated+1 ↔ 1 ≤ g.maxRotated := by
  rw [length_rotateCalls]
  unfold sub64
  split_ifs <;> omega

/-- Whatever succeeds, only the places 1 to `max_rotated` are ever filled. -/
theorem kept_places (h : kept s₀ = ∅) (hN : 1 ≤ s₀.settings.maxRotated)
    (r : Rotations (fun _ => True) s₀ cs s) : kept s ⊆ Set.Icc 1 s₀.settings.maxRotated := by
  intro j hj
  by_contra hout
  have hsame : s.fs.read (rotatedName s₀.settings.basePath j) =
      s₀.fs.read (rotatedName s₀.settings.basePath j) := by
    refine rotations_other r hN (rotatedName_ne _ _).symm fun i h1 hi heq => hout ?_
    rw [rotatedName_inj heq]
    exact ⟨h1,hi⟩
  have hpresent : (s.fs.read (rotatedName s.settings.basePath j)).isSome = true := hj
  rw [rotations_settings r,hsame] at hpresent
  have hin : j ∈ kept s₀ := hpresent
  rw [h] at hin
  exact hin

theorem rotate_first (os : Os) (hm : Moves os) (g : Settings) {fs : Store String UInt8} {i : ℕ}
    (hi : fs.names g.basePath = some i) :
    ((rotateCalls g).foldl os.perform fs).names (rotatedName g.basePath 1) = some i := by
  let cs := FsCall.unlink (rotatedName g.basePath g.maxRotated)::
    shiftCalls g.basePath (sub64 g.maxRotated 1)
  have hbase : (cs.foldl os.perform fs).names g.basePath = some i := by
    rw [performs_other cs,hi]
    intro c hc
    have hne := rotatedName_ne g.basePath
    rcases List.mem_cons.mp hc with rfl | hc
    · simpa [touched] using hne _
    · obtain ⟨i,-,-,rfl⟩ := mem_shiftCalls.mp hc
      simpa [touched] using ⟨hne _,hne _⟩
  have hcalls : rotateCalls g = cs++[.rename g.basePath (rotatedName g.basePath 1)] := rfl
  rw [hcalls,List.foldl_append,List.foldl_cons,List.foldl_nil,perform_ok hm,FsCall.run,
    rename_names hbase,if_pos rfl]

theorem kept_unopened (g : Settings) : kept (unopened g) = ∅ :=
  Set.eq_empty_of_forall_notMem fun _ hj => Bool.false_ne_true hj

/-- A sink that is to keep nothing keeps the file it rotates all the same. -/
theorem kept_first (g : Settings) :
    ∃ s, Rotations (fun _ => True) (unopened g) [some []] s ∧ 1 ∈ kept s := by
  let fs := (Store.empty : Store String UInt8).write g.basePath []
  have hnames : fs.names g.basePath = some 0 := create_names (s := .empty) g.basePath
  have hfirst := rotate_first .succeeds (fun _ => rfl) g hnames
  refine ⟨_,rotations_written .start rfl [] .succeeds trivial,?_⟩
  show (((rotateCalls g).foldl Os.succeeds.perform fs).read (rotatedName g.basePath 1)).isSome
  rw [performs_read,hfirst]
  rfl

end Places

/-- A rotation makes at most `max_rotated` + 1 calls, and at most `max_rotated`
rotated files are ever kept, if and only if `max_rotated` is not zero. -/
theorem rotation_bounded_iff (g : Settings) :
    ((rotateCalls g).length ≤ g.maxRotated+1 ↔ 1 ≤ g.maxRotated) ∧
    ((∀ s₀ s cs, s₀.settings = g → kept s₀ = ∅ → Rotations (fun _ => True) s₀ cs s →
      (kept s).encard ≤ g.maxRotated) ↔ 1 ≤ g.maxRotated) := by
  refine ⟨work_bounded_iff g,fun h => ?_,?_⟩
  · obtain ⟨s,r,hfirst⟩ := kept_first g
    have hle := h (unopened g) s _ rfl (kept_unopened g) r
    by_contra h0
    rw [Nat.lt_one_iff.mp (not_le.mp h0),Nat.cast_zero,nonpos_iff_eq_zero,
      Set.encard_eq_zero] at hle
    rw [hle] at hfirst
    exact hfirst
  · rintro hN s₀ s cs rfl hbare r
    have hcard : (Set.Icc 1 s₀.settings.maxRotated).encard = s₀.settings.maxRotated := by
      rw [← Finset.coe_Icc,Set.encard_coe_eq_coe_finsetCard,Nat.card_Icc,Nat.add_sub_cancel]
    exact (Set.encard_le_encard (kept_places hbare hN r)).trans_eq hcard

/-- No file is to be kept: the loop counter wraps, one rotation makes 2^64+1
calls, and the rotated file stays. -/
theorem rotation_unbounded :
    let g := appLog 64 64 0
    (rotateCalls g).length = 2^64+1 ∧
      ∃ s, Rotations (fun _ => True) (unopened g) [some []] s ∧ 1 ∈ kept s := by
  intro g
  refine ⟨?_,kept_first g⟩
  rw [length_rotateCalls]
  decide

end MpmcLogger.SinkShift
