import MpmcLogger.DirectoryTree
import MpmcLogger.MachineWord
import Mathlib.Data.List.TakeWhile

/-!
# The directories of the sink

The sink makes the directories of its path by one `mkdir` at every slash and at
the last character, with what it has read of the path so far. The result of
`mkdir` is not looked at: a directory may be there already. Relative paths start
at the working directory.
-/

set_option autoImplicit false

namespace MpmcLogger.SinkDirectory
open DirectoryTree MachineWord

abbrev Path := List Char

abbrev Name := List Char

def nul : Char := Char.ofNat 0

def cStr (p : Path) : Path := p.takeWhile (· ≠ nul)

structure Parts where
  done : List Name
  last : Name

def Parts.read (s : Parts) (ch : Char) : Parts :=
  if ch = '/' then ⟨if s.last = [] then s.done else s.done++[s.last],[]⟩
  else ⟨s.done,s.last++[ch]⟩

def Parts.names (s : Parts) : List Name := if s.last = [] then s.done else s.done++[s.last]

def parts (p : Path) : Parts := p.foldl Parts.read ⟨[],[]⟩

def names (p : Path) : List Name := (parts p).names

def component (x : Name) : Component Name :=
  if x = ['.'] then .here else if x = ['.','.'] then .up else .name x

def startOf (cwd : List Name) (p : Path) : List Name := if p.head? = some '/' then [] else cwd

def mkdir (cwd : List Name) (t : Dirs Name) (p : Path) : Dirs Name :=
  t.make (startOf cwd (cStr p)) ((names (cStr p)).map component)

def ensureLoop (cwd : List Name) (size i : ℕ) (accumulated : Path) :
    List Char → Dirs Name → Dirs Name
  | [], t => t
  | ch::rest, t =>
    let accumulated := accumulated++[ch]
    ensureLoop cwd size (i+1) accumulated rest
      (if ch = '/' ∨ i = sub64 size 1 then mkdir cwd t accumulated else t)

def ensureDirectory (cwd : List Name) (t : Dirs Name) (path : Path) : Dirs Name :=
  ensureLoop cwd path.length 0 [] path t

def parentPath (basePath : Path) : Option Path :=
  match basePath.reverse.dropWhile (· ≠ '/') with
  | [] => none
  | _::before => some before.reverse

def makeParent (cwd : List Name) (t : Dirs Name) (basePath : Path) : Dirs Name :=
  match parentPath basePath with
  | some p => ensureDirectory cwd t p
  | none => t

def Plain (p : Path) : Prop := ∀ x ∈ names p, x ≠ ['.'] ∧ x ≠ ['.','.']

theorem component_plain {xs : List Name} (h : ∀ x ∈ xs, x ≠ ['.'] ∧ x ≠ ['.','.']) :
    xs.map component = xs.map .name := by
  refine List.map_congr_left fun x hx => ?_
  rw [component,if_neg (h x hx).1,if_neg (h x hx).2]

section Reading

theorem parts_snoc (p : Path) (ch : Char) : parts (p++[ch]) = (parts p).read ch :=
  List.foldl_concat ..

theorem names_snoc (p : Path) (ch : Char) : names (p++[ch]) = (parts p).done ∨
    ∃ x, names (p++[ch]) = (parts p).done++[x] := by
  rw [names,parts_snoc,Parts.read,Parts.names]
  by_cases hs : ch = '/'
  · rw [if_pos hs,if_pos rfl]
    dsimp only
    split_ifs
    · exact Or.inl rfl
    · exact Or.inr ⟨_,rfl⟩
  · rw [if_neg hs,if_neg (by simp)]
    exact Or.inr ⟨_,rfl⟩

theorem names_done (p : Path) : names p = (parts p).done ∨ ∃ x, names p = (parts p).done++[x] := by
  unfold names Parts.names
  split_ifs
  · exact Or.inl rfl
  · exact Or.inr ⟨_,rfl⟩

theorem done_slash (p : Path) : (parts (p++['/'])).done = names (p++['/']) := by
  rw [names,parts_snoc,Parts.read,if_pos rfl]
  rfl

theorem done_other (p : Path) {ch : Char} (h : ch ≠ '/') :
    (parts (p++[ch])).done = (parts p).done := by
  rw [parts_snoc,Parts.read,if_neg h]

theorem done_prefix (p rest : Path) : (parts p).done <+: names (p++rest) := by
  induction rest generalizing p with
  | nil =>
    rw [List.append_nil]
    rcases names_done p with h | ⟨x,h⟩
    · rw [h]
    · rw [h]
      exact List.prefix_append _ _
  | cons ch rest ih =>
    have hnext := ih (p++[ch])
    rw [List.append_assoc,List.singleton_append] at hnext
    refine List.IsPrefix.trans ?_ hnext
    by_cases h : ch = '/'
    · subst h
      rw [done_slash]
      rcases names_snoc p '/' with h | ⟨x,h⟩
      · rw [h]
      · rw [h]
        exact List.prefix_append _ _
    · rw [done_other p h]

end Reading

section Strings

theorem cStr_self {p : Path} (h : nul ∉ p) : cStr p = p := by
  refine List.takeWhile_eq_self_iff.mpr fun ch hch => ?_
  simp only [decide_eq_true_eq]
  rintro rfl
  exact h hch

theorem cStr_cut {p : Path} (h : nul ∈ p) (q : Path) : cStr (p++q) = cStr p := by
  unfold cStr
  rw [List.takeWhile_append,if_neg]
  intro hlen
  have hself := List.takeWhile_eq_self_iff.mp ((List.takeWhile_prefix _).eq_of_length hlen) nul h
  simp at hself

theorem cStr_whole {p : Path} (h : nul ∉ p) (q : Path) : cStr (p++q) = p++cStr q := by
  have hself := cStr_self h
  unfold cStr at hself ⊢
  rw [List.takeWhile_append,hself,if_pos rfl]

theorem cStr_snoc (p : Path) (ch : Char) :
    cStr (p++[ch]) = cStr p ∨ nul ∉ p ∧ cStr (p++[ch]) = cStr p++[ch] := by
  by_cases h : nul ∈ p
  · exact Or.inl (cStr_cut h _)
  · rw [cStr_whole h,cStr_self h]
    by_cases hch : ch = nul
    · exact Or.inl (by simp [cStr,hch])
    · exact Or.inr ⟨h,by simp [cStr,hch]⟩

theorem head_cStr {p : Path} (hp : p ≠ []) (q : Path) : (cStr (p++q)).head? = (cStr p).head? := by
  obtain ⟨ch,rest,rfl⟩ := List.exists_cons_of_ne_nil hp
  by_cases hch : ch = nul <;> simp [cStr,hch]

theorem names_slash_initial (p rest : Path) :
    names (cStr (p++['/'])) <+: names (cStr (p++['/']++rest)) := by
  by_cases h : nul ∈ p++['/']
  · rw [cStr_cut h]
  · rw [cStr_whole h,cStr_self h,← done_slash]
    exact done_prefix _ _

theorem names_slash (p : Path) : names (cStr (p++['/'])) = names (cStr p) := by
  by_cases h : nul ∈ p
  · rw [cStr_cut h]
  · rw [cStr_whole h,cStr_self h]
    exact (congrArg Parts.names (parts_snoc p '/')).trans rfl

end Strings

section Loop

variable {cwd start : List Name} {t₀ t : Dirs Name} {p : Path} {ch : Char}

def Reached (t₀ : Dirs Name) (start : List Name) (p : Path) (t : Dirs Name) : Prop :=
  ∃ xs, Grown t₀ start xs t ∧ (xs = (parts (cStr p)).done ∨ nul ∈ p ∧ xs = names (cStr p))

theorem mkdir_grown (h : Reached t₀ start p t) (hs : startOf cwd (cStr (p++[ch])) = start)
    (hplain : Plain (cStr (p++[ch]))) :
    Grown t₀ start (names (cStr (p++[ch]))) (mkdir cwd t (p++[ch])) := by
  obtain ⟨xs,hg,hxs⟩ := h
  have hnext : names (cStr (p++[ch])) = xs ∨ ∃ x, names (cStr (p++[ch])) = xs++[x] := by
    rcases hxs with rfl | ⟨hnul,rfl⟩
    · rcases cStr_snoc p ch with h | ⟨-,h⟩
      · rw [h]
        exact names_done _
      · rw [h]
        exact names_snoc _ _
    · rw [cStr_cut hnul]
      exact Or.inl rfl
  rw [mkdir,hs,component_plain hplain]
  rcases hnext with h | ⟨x,h⟩
  · rw [h,hg.make_again]
    exact hg
  · rw [h]
    exact hg.make_next x

theorem reached_slash (h : Grown t₀ start (names (cStr (p++['/']))) t) :
    Reached t₀ start (p++['/']) t := by
  refine ⟨_,h,?_⟩
  by_cases hnul : nul ∈ p++['/']
  · exact Or.inr ⟨hnul,rfl⟩
  · rw [cStr_self hnul]
    exact Or.inl (done_slash p).symm

theorem reached_other (h : Reached t₀ start p t) (hch : ch ≠ '/') :
    Reached t₀ start (p++[ch]) t := by
  obtain ⟨xs,hg,rfl | ⟨hnul,rfl⟩⟩ := h
  · refine ⟨_,hg,Or.inl ?_⟩
    rcases cStr_snoc p ch with h | ⟨-,h⟩
    · rw [h]
    · rw [h,done_other _ hch]
  · exact ⟨_,hg,Or.inr ⟨List.mem_append_left _ hnul,by rw [cStr_cut hnul]⟩⟩

/-- From anywhere inside the path the loop makes all its directories. -/
theorem ensureLoop_grown (rest : Path) (hplain : Plain (cStr (p++ch::rest)))
    (hs : startOf cwd (cStr (p++ch::rest)) = start) (h : Reached t₀ start p t) :
    Grown t₀ start (names (cStr (p++ch::rest)))
      (ensureLoop cwd (p++ch::rest).length p.length p (ch::rest) t) := by
  induction rest generalizing p ch t with
  | nil =>
    have hlast : ch = '/' ∨ p.length = sub64 (p++[ch]).length 1 := by
      rw [List.length_append,List.length_singleton,sub64_of_le (Nat.le_add_left 1 _)]
      exact Or.inr rfl
    rw [ensureLoop,if_pos hlast,ensureLoop]
    exact mkdir_grown h hs hplain
  | cons next rest ih =>
    have hsplit : p++ch::next::rest = p++[ch]++next::rest := by
      rw [List.append_assoc,List.singleton_append]
    have hstart : startOf cwd (cStr (p++[ch])) = start := by
      rw [← hs,hsplit,startOf,startOf,head_cStr (by simp) (next::rest)]
    have hinside : p.length ≠ sub64 (p++ch::next::rest).length 1 := by
      rw [List.length_append,List.length_cons,List.length_cons,sub64_of_le (by omega)]
      omega
    have hreached : Reached t₀ start (p++[ch])
        (if ch = '/' ∨ p.length = sub64 (p++ch::next::rest).length 1 then mkdir cwd t (p++[ch])
          else t) := by
      split_ifs with hch
      · obtain rfl := hch.resolve_right hinside
        refine reached_slash (mkdir_grown h hstart fun x hx => hplain x ?_)
        rw [hsplit]
        exact (names_slash_initial p _).mem hx
      · exact reached_other h (not_or.mp hch).1
    rw [ensureLoop]
    rw [hsplit] at hplain hs hreached ⊢
    have hnext := ih hplain hs hreached
    have hlen : (p++[ch]).length = p.length+1 := by simp
    rwa [hlen] at hnext

end Loop

section Directories

variable {cwd : List Name} {t : Dirs Name} {path : Path}

theorem ensureDirectory_grown (hplain : Plain (cStr path))
    (hstart : t.has (startOf cwd (cStr path)) = true) :
    Grown t (startOf cwd (cStr path)) (names (cStr path)) (ensureDirectory cwd t path) := by
  cases path with
  | nil => exact grown_start hstart
  | cons ch rest =>
    exact ensureLoop_grown (p := []) rest hplain rfl ⟨[],grown_start hstart,Or.inl rfl⟩

end Directories

/-- Where the start exists, exactly the directories along the path are added, and
making them again changes nothing. -/
theorem directories_ensured (cwd : List Name) (t : Dirs Name) (path : Path)
    (hplain : Plain (cStr path)) (hstart : t.has (startOf cwd (cStr path)) = true) :
    (∀ xs, xs <+: names (cStr path) →
      (ensureDirectory cwd t path).has (startOf cwd (cStr path)++xs) = true) ∧
    (∀ d, (ensureDirectory cwd t path).has d = true → t.has d = true ∨
      ∃ xs, xs <+: names (cStr path) ∧ d = startOf cwd (cStr path)++xs) ∧
    (∀ d, t.has d = true → (ensureDirectory cwd t path).has d = true) ∧
    ensureDirectory cwd (ensureDirectory cwd t path) path = ensureDirectory cwd t path := by
  have hgrown := ensureDirectory_grown hplain hstart
  have hagain := ensureDirectory_grown hplain ((hgrown _).mpr (Or.inl hstart))
  exact ⟨fun xs hxs => hgrown.has_ancestor hxs,fun d => (hgrown d).mp,
    fun d hd => (hgrown d).mpr (Or.inl hd),hgrown.twice hagain⟩

/-- A relative path with slashes to spare, in an existing working directory. -/
theorem directories_ensured_relative :
    let cwd := ["srv".toList]
    let t := ensureDirectory cwd (Dirs.root.add [] "srv".toList) "logs//app/".toList
    t.has ["srv".toList,"logs".toList,"app".toList] = true ∧ t.has ["logs".toList] = false ∧
      ensureDirectory cwd t "logs//app/".toList = t := by
  intro cwd t
  have hnames : names (cStr "logs//app/".toList) = ["logs".toList,"app".toList] := by decide
  obtain ⟨hall,-,-,hagain⟩ := directories_ensured cwd (Dirs.root.add [] "srv".toList)
    "logs//app/".toList (by unfold Plain; rw [hnames]; decide) (by decide)
  exact ⟨hall ["logs".toList,"app".toList] (by rw [hnames]),by decide,hagain⟩

section Parents

variable {base p x : Path}

theorem parentPath_some (h : parentPath base = some p) : ∃ x, base = p++('/'::x) ∧ '/' ∉ x := by
  unfold parentPath at h
  split at h
  · cases h
  · rename_i ch before hdrop
    obtain rfl := Option.some.inj h
    have hhead := List.head?_dropWhile_not (fun ch => decide (ch ≠ '/')) base.reverse
    rw [hdrop] at hhead
    obtain rfl : ch = '/' := by simpa using hhead
    refine ⟨(base.reverse.takeWhile fun ch => decide (ch ≠ '/')).reverse,?_,fun hin => ?_⟩
    · have hsplit := congrArg List.reverse
        (List.takeWhile_append_dropWhile (p := fun ch => decide (ch ≠ '/')) (l := base.reverse))
      rw [hdrop] at hsplit
      simpa using hsplit.symm
    · have hslash := List.mem_takeWhile_imp (List.mem_reverse.mp hin)
      simp at hslash

theorem parentPath_none (h : parentPath base = none) : '/' ∉ base := by
  unfold parentPath at h
  split at h
  · rename_i hdrop
    intro hin
    have hslash := List.dropWhile_eq_nil_iff.mp hdrop '/' (List.mem_reverse.mpr hin)
    simp at hslash
  · cases h

theorem done_name (p : Path) (hx : '/' ∉ x) : (parts (p++x)).done = (parts p).done := by
  induction x using List.reverseRecOn with
  | nil => rw [List.append_nil]
  | append_singleton x ch ih =>
    rw [List.mem_append,not_or,List.mem_singleton] at hx
    rw [← List.append_assoc,done_other _ (Ne.symm hx.2),ih hx.1]

theorem dropLast_names (p : Path) : (names p).dropLast <+: (parts p).done := by
  rcases names_done p with h | ⟨x,h⟩
  · rw [h]
    exact List.dropLast_prefix _
  · rw [h,List.dropLast_concat]

theorem dropLast_prefix (hx : '/' ∉ x) :
    (names (cStr (p++('/'::x)))).dropLast <+: names (cStr p) := by
  by_cases h : nul ∈ p
  · rw [cStr_cut h]
    exact List.dropLast_prefix _
  · have hcut : '/' ∉ cStr x := fun hin => hx ((List.takeWhile_prefix _).mem hin)
    have hwhole : cStr (p++('/'::x)) = p++['/']++cStr x := by
      rw [cStr_whole h,List.append_assoc]
      rfl
    have hdone : (parts (p++['/']++cStr x)).done = names p := by
      rw [done_name _ hcut,parts_snoc]
      rfl
    rw [hwhole,cStr_self h,← hdone]
    exact dropLast_names _

/-- The constructor leaves the directory behind in which it opens its file. -/
theorem parent_made (cwd : List Name) (t : Dirs Name) (basePath : Path)
    (hplain : Plain (cStr basePath)) (hcwd : t.has cwd = true) :
    (makeParent cwd t basePath).has
      (startOf cwd (cStr basePath)++(names (cStr basePath)).dropLast) = true := by
  have hroot : t.has [] = true := has_append t [] cwd hcwd
  have hstart : ∀ p, t.has (startOf cwd p) = true := by
    intro p
    unfold startOf
    split_ifs
    · exact hroot
    · exact hcwd
  unfold makeParent
  cases hparent : parentPath basePath with
  | none =>
    have hnone : '/' ∉ cStr basePath := fun hin =>
      parentPath_none hparent ((List.takeWhile_prefix _).mem hin)
    have hdone := dropLast_names (cStr basePath)
    rw [← List.nil_append (cStr basePath),done_name [] hnone,List.nil_append] at hdone
    rw [List.prefix_nil.mp hdone,List.append_nil]
    exact hstart _
  | some p =>
    obtain ⟨x,rfl,hx⟩ := parentPath_some hparent
    have hnames := dropLast_prefix (p := p) hx
    rcases List.eq_nil_or_concat' p with rfl | ⟨q,ch,rfl⟩
    · rw [List.prefix_nil.mp hnames,List.append_nil]
      exact hstart _
    · have hs : startOf cwd (cStr (q++[ch]++('/'::x))) = startOf cwd (cStr (q++[ch])) := by
        rw [startOf,startOf,head_cStr (by simp)]
      have hinit := names_slash_initial (q++[ch]) x
      rw [names_slash,List.append_assoc,List.singleton_append] at hinit
      rw [hs]
      exact (ensureDirectory_grown (fun y hy => hplain y (hinit.mem hy)) (hstart _)).has_ancestor
        hnames

end Parents

end MpmcLogger.SinkDirectory
