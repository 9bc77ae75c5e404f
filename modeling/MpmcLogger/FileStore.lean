import Mathlib.Logic.Function.Basic
import Mathlib.Data.List.Basic
import Mathlib.Tactic

/-!
# Named files and the bytes they hold

A directory maps names to files; a file keeps its content under its number
when a name is moved or removed, as an open descriptor sees it. Contents are
lists. Resizing cuts a content or extends it with zeros, patching replaces a
range and never changes the length: what would fall behind the end is lost.
-/

set_option autoImplicit false

namespace FileStore

variable {ν α : Type*}

def resize [Zero α] (n : ℕ) (bs : List α) : List α := bs.take n++List.replicate (n-bs.length) 0

def patch (pos : ℕ) (data bs : List α) : List α :=
  bs.take pos++data.take (bs.length-pos)++bs.drop (pos+data.length)

@[simp] theorem length_resize [Zero α] (n : ℕ) (bs : List α) : (resize n bs).length = n := by
  simp only [resize,List.length_append,List.length_take,List.length_replicate]
  omega

theorem isPrefix_resize [Zero α] {n : ℕ} {p bs : List α} (h : p <+: bs) (hn : p.length ≤ n) :
    p <+: resize n bs := by
  obtain ⟨rest,rfl⟩ := h
  rw [resize,List.take_append,List.take_of_length_le hn,List.append_assoc]
  exact List.prefix_append _ _

@[simp] theorem length_patch (pos : ℕ) (data bs : List α) :
    (patch pos data bs).length = bs.length := by
  simp only [patch,List.length_append,List.length_take,List.length_drop]
  omega

theorem isPrefix_patch {pos : ℕ} {p data bs : List α} (h : p <+: bs) (hpos : p.length ≤ pos) :
    p <+: patch pos data bs := by
  obtain ⟨rest,rfl⟩ := h
  rw [patch,List.take_append,List.take_of_length_le hpos,List.append_assoc,List.append_assoc]
  exact List.prefix_append _ _

theorem patch_slice {pos : ℕ} {data bs : List α} (h : pos+data.length ≤ bs.length) :
    ((patch pos data bs).drop pos).take data.length = data := by
  have hpos : (bs.take pos).length = pos := by
    rw [List.length_take]
    omega
  have hdata : data.take (bs.length-pos) = data := List.take_of_length_le (by omega)
  rw [patch,hdata,List.append_assoc,List.drop_left' hpos,List.take_left' rfl]

theorem patch_append (p data old rest : List α) (h : data.length = old.length) :
    patch p.length data (p++old++rest) = p++data++rest := by
  have hfit : data.length ≤ (p++old++rest).length-p.length := by
    simp only [List.length_append]
    omega
  rw [patch,List.take_of_length_le hfit,h,← List.length_append,List.drop_left]
  simp

/-- Patching the zeros behind a content writes the data there. -/
theorem patch_zeros [Zero α] (p data : List α) (k : ℕ) (h : data.length ≤ k) :
    patch p.length data (p++List.replicate k 0) =
      p++data++List.replicate (k-data.length) 0 := by
  have hsplit : List.replicate k (0 : α) =
      List.replicate data.length 0++List.replicate (k-data.length) 0 := by
    rw [← List.replicate_add]
    congr 1
    omega
  rw [hsplit,← List.append_assoc]
  exact patch_append p data _ _ (by simp)

theorem resize_zeros [Zero α] (p : List α) (n k : ℕ) :
    resize (p.length+n) (p++List.replicate k 0) = p++List.replicate n 0 := by
  rw [resize,List.take_append,List.take_of_length_le (by omega),List.take_replicate,
    List.append_assoc,List.replicate_append_replicate,List.length_append,List.length_replicate]
  congr 2
  omega

structure Store (ν α : Type*) where
  names : ν → Option ℕ
  files : ℕ → List α
  next : ℕ
  closed : ∀ p i, names p = some i → i < next

def Store.empty : Store ν α := ⟨fun _ => none,fun _ => [],0,by simp⟩

def Store.put (s : Store ν α) (i : ℕ) (bs : List α) : Store ν α :=
  { s with files := Function.update s.files i bs }

def Store.read (s : Store ν α) (p : ν) : Option (List α) := (s.names p).map s.files

section Operations

variable [DecidableEq ν]

theorem closed_update {names : ν → Option ℕ} {next n : ℕ} (h : ∀ p i, names p = some i → i < next)
    (hn : next ≤ n) (p : ν) {o : Option ℕ} (ho : ∀ i, o = some i → i < n) (q : ν) (i : ℕ)
    (hq : Function.update names p o q = some i) : i < n := by
  rw [Function.update_apply] at hq
  split_ifs at hq
  · exact ho i hq
  · exact (h q i hq).trans_le hn

def Store.create (s : Store ν α) (p : ν) : Store ν α × ℕ :=
  match s.names p with
  | some i => (s,i)
  | none =>
      ({ names := Function.update s.names p (some s.next)
         files := Function.update s.files s.next []
         next := s.next+1
         closed := closed_update s.closed (Nat.le_succ _) p (by simp) },s.next)

def Store.write (s : Store ν α) (p : ν) (bs : List α) : Store ν α :=
  (s.create p).1.put (s.create p).2 bs

def Store.unlink (s : Store ν α) (p : ν) : Store ν α :=
  { s with
    names := Function.update s.names p none
    closed := closed_update s.closed le_rfl p (by simp) }

def Store.rename (s : Store ν α) (p q : ν) : Store ν α :=
  if (s.names p).isSome then
    { s with
      names := Function.update (Function.update s.names p none) q (s.names p)
      closed := closed_update (closed_update s.closed le_rfl p (by simp)) le_rfl q (s.closed p) }
  else s

end Operations

section Lemmas

variable {s : Store ν α}

@[simp] theorem put_names (i : ℕ) (bs : List α) : (s.put i bs).names = s.names := rfl

@[simp] theorem put_next (i : ℕ) (bs : List α) : (s.put i bs).next = s.next := rfl

@[simp] theorem put_files (i j : ℕ) (bs : List α) :
    (s.put i bs).files j = if j = i then bs else s.files j := Function.update_apply _ _ _ _

variable [DecidableEq ν]

@[simp] theorem unlink_files (p : ν) : (s.unlink p).files = s.files := rfl

@[simp] theorem unlink_next (p : ν) : (s.unlink p).next = s.next := rfl

theorem unlink_names (p q : ν) : (s.unlink p).names q = if q = p then none else s.names q :=
  Function.update_apply _ _ _ _

@[simp] theorem rename_files (p q : ν) : (s.rename p q).files = s.files := by
  unfold Store.rename
  split <;> rfl

@[simp] theorem rename_next (p q : ν) : (s.rename p q).next = s.next := by
  unfold Store.rename
  split <;> rfl

theorem rename_absent {p : ν} (q : ν) (h : s.names p = none) : s.rename p q = s := by
  simp [Store.rename,h]

/-- A rename moves the file of `p` to `q`, leaves `p` absent and other names alone. -/
theorem rename_names {p q : ν} {i : ℕ} (h : s.names p = some i) (r : ν) :
    (s.rename p q).names r = if r = q then some i else if r = p then none else s.names r := by
  simp [Store.rename,h,Function.update_apply]

theorem rename_other {p q r : ν} (hp : r ≠ p) (hq : r ≠ q) :
    (s.rename p q).names r = s.names r := by
  cases h : s.names p with
  | some i => rw [rename_names h,if_neg hq,if_neg hp]
  | none => rw [rename_absent q h]

theorem rename_onto_absent {p q : ν} (hq : s.names q = none) (r : ν) :
    (s.rename p q).names r = if r = q then s.names p else if r = p then none else s.names r := by
  cases hp : s.names p with
  | some i => rw [rename_names hp]
  | none =>
    rw [rename_absent q hp]
    split_ifs with h1 h2
    · rw [h1,hq]
    · rw [h2,hp]
    · rfl

theorem create_present {p : ν} {i : ℕ} (h : s.names p = some i) : s.create p = (s,i) := by
  unfold Store.create
  split
  · rename_i j hj
    rw [h] at hj
    rw [Option.some.inj hj]
  · rename_i hj
    simp [h] at hj

/-- Where the name is absent a new empty file appears under it, nothing else. -/
theorem create_absent {p : ν} (h : s.names p = none) : (s.create p).2 = s.next ∧
    (s.create p).1.names = Function.update s.names p (some s.next) ∧
    (s.create p).1.files = Function.update s.files s.next [] ∧
    (s.create p).1.next = s.next+1 := by
  unfold Store.create
  split
  · rename_i j hj
    simp [h] at hj
  · exact ⟨rfl,rfl,rfl,rfl⟩

theorem create_files (p : ν) {j : ℕ} (hj : j < s.next) : (s.create p).1.files j = s.files j := by
  cases hp : s.names p with
  | some i => rw [create_present hp]
  | none =>
    rw [(create_absent hp).2.2.1]
    exact Function.update_of_ne hj.ne _ _

theorem create_next (p : ν) : s.next ≤ (s.create p).1.next := by
  cases hp : s.names p with
  | some i => rw [create_present hp]
  | none =>
    rw [(create_absent hp).2.2.2]
    exact Nat.le_succ _

theorem create_lt (p : ν) : (s.create p).2 < (s.create p).1.next := by
  cases hp : s.names p with
  | some i =>
    rw [create_present hp]
    exact s.closed p i hp
  | none =>
    rw [(create_absent hp).1,(create_absent hp).2.2.2]
    exact Nat.lt_succ_self _

theorem create_names (p : ν) : (s.create p).1.names p = some (s.create p).2 := by
  cases hp : s.names p with
  | some i =>
    rw [create_present hp]
    exact hp
  | none =>
    rw [(create_absent hp).1,(create_absent hp).2.1]
    exact Function.update_self _ _ _

theorem create_content (p : ν) : (s.create p).1.files (s.create p).2 = (s.read p).getD [] := by
  unfold Store.read
  cases hp : s.names p with
  | some i =>
    rw [create_present hp]
    rfl
  | none =>
    rw [(create_absent hp).1,(create_absent hp).2.2.1]
    exact Function.update_self _ _ _

theorem create_other (p : ν) {q : ν} (hq : q ≠ p) : (s.create p).1.names q = s.names q := by
  cases hp : s.names p with
  | some i => rw [create_present hp]
  | none =>
    rw [(create_absent hp).2.1]
    exact Function.update_of_ne hq _ _

theorem write_read {p : ν} (h : s.names p = none) (bs : List α) (q : ν) :
    (s.write p bs).read q = if q = p then some bs else s.read q := by
  obtain ⟨hnew,-,hfiles,-⟩ := create_absent h
  unfold Store.write Store.read
  rw [put_names]
  by_cases hq : q = p
  · rw [hq,if_pos rfl,create_names]
    simp
  · rw [if_neg hq,create_other p hq]
    refine Option.map_congr fun i hi => ?_
    have hne : i ≠ s.next := (s.closed q i hi).ne
    rw [put_files,hnew,if_neg hne,hfiles,Function.update_of_ne hne]

end Lemmas

end FileStore
