import MpmcLogger.Formatter
import MpmcLogger.RecordFile

/-!
# The log reader

The reader takes one record of 128 bytes after the other, skips what its filters
reject and prints the rest, up to its limit. A record cut short at the end of
the file ends the loop. Without filters and limit it prints every record.
-/

set_option autoImplicit false

namespace MpmcLogger.LogReader
open MachineWord MpmcLogger.EntryLayout MpmcLogger.Formatter MpmcLogger.RecordFile

structure ReaderOptions where
  minLevel : LogLevel := .trace
  filterTid : Option UInt32 := none
  limit : ℕ := 0

structure Reading where
  fmt : TextFormatter
  printed : List (LogEntry × Bytes)
  count : ℕ
  total : ℕ

def Reading.start (datePrefix : DatePrefix) : Reading := ⟨⟨.fresh datePrefix⟩,[],0,0⟩

def ReaderOptions.skips (o : ReaderOptions) (e : LogEntry) : Prop :=
  e.level.value < o.minLevel.value ∨ ∃ tid, o.filterTid = some tid ∧ e.threadId ≠ tid

instance (o : ReaderOptions) (e : LogEntry) : Decidable (o.skips e) :=
  match h : o.filterTid with
  | none => decidable_of_iff (e.level.value < o.minLevel.value) (by simp [ReaderOptions.skips,h])
  | some tid => decidable_of_iff (e.level.value < o.minLevel.value ∨ e.threadId ≠ tid)
      (by simp [ReaderOptions.skips,h])

section Loop

variable (date : ℕ → DatePrefix)

def Reading.print (r : Reading) (e : LogEntry) : Reading :=
  let w := r.fmt.format date e TextFormatter.maxFormattedSize
  ⟨w.1,if 0 < w.2.length then r.printed++[(e,w.2)] else r.printed,r.count+1,r.total⟩

def readLoop (o : ReaderOptions) (bs : Bytes) (r : Reading) : Reading :=
  if h : 128 ≤ bs.length then
    let e := LogEntry.ofBytes (bs.take 128) (by rw [List.length_take,min_eq_left h])
    let r := { r with total := r.total+1 }
    if o.skips e then readLoop o (bs.drop 128) r
    else
      let r := r.print date e
      if 0 < o.limit ∧ o.limit ≤ r.count then r else readLoop o (bs.drop 128) r
  else r
termination_by bs.length
decreasing_by all_goals rw [List.length_drop]; omega

def logReader (o : ReaderOptions) (datePrefix : DatePrefix) (bs : Bytes) : Reading :=
  readLoop date o bs (.start datePrefix)

def readRecords (o : ReaderOptions) : List LogEntry → Reading → Reading
  | [], r => r
  | e::es, r =>
    let r := { r with total := r.total+1 }
    if o.skips e then readRecords o es r
    else
      let r := r.print date e
      if 0 < o.limit ∧ o.limit ≤ r.count then r else readRecords o es r

theorem readLoop_records (o : ReaderOptions) (bs : Bytes) (r : Reading) :
    readLoop date o bs r = readRecords date o (records bs) r := by
  fun_induction readLoop date o bs r with
  | case1 bs r h e r' hs ih =>
    rw [records_next h,ih]
    exact (if_pos hs).symm
  | case2 bs r h e r' hs r'' hlim =>
    rw [records_next h,readRecords]
    exact (if_pos hlim).symm.trans (if_neg hs).symm
  | case3 bs r h e r' hs r'' hlim ih =>
    rw [records_next h,ih]
    exact (if_neg hlim).symm.trans (if_neg hs).symm
  | case4 bs r h =>
    rw [records_short (not_le.mp h)]
    rfl

theorem print_line (r : Reading) (e : LogEntry) : r.print date e =
    let w := r.fmt.format date e TextFormatter.maxFormattedSize
    ⟨w.1,r.printed++[(e,w.2)],r.count+1,r.total⟩ := by
  have hpos := text_format_pos date r.fmt e (le_refl _)
  simp [Reading.print,List.length_pos_iff.mpr hpos]

theorem readRecords_total {o : ReaderOptions} (hl : o.limit = 0) (es : List LogEntry)
    (r : Reading) : (readRecords date o es r).total = r.total+es.length := by
  have hlimit : ∀ n, ¬(0 < o.limit ∧ o.limit ≤ n) := fun n => by omega
  induction es generalizing r with
  | nil => rfl
  | cons e es ih =>
    simp only [readRecords,if_neg (hlimit _),List.length_cons]
    split_ifs
    · rw [ih]
      dsimp only
      omega
    · rw [ih,print_line]
      dsimp only
      omega

theorem readLoop_total {o : ReaderOptions} (hl : o.limit = 0) (bs : Bytes) (r : Reading) :
    (readLoop date o bs r).total = r.total+bs.length/128 := by
  rw [readLoop_records,readRecords_total date hl,length_records]

/-- Without filters and limit all records are printed, in order. -/
theorem readRecords_printed (es : List LogEntry) (r : Reading) :
    (readRecords date {} es r).printed.map Prod.fst = r.printed.map Prod.fst++es := by
  induction es generalizing r with
  | nil => exact (List.append_nil _).symm
  | cons e es ih =>
    have hs : ¬({} : ReaderOptions).skips e := by
      rintro (h | ⟨tid,h,-⟩)
      · exact absurd h (by simp [LogLevel.trace])
      · cases h
    simp only [readRecords,if_neg hs,lt_irrefl,false_and,if_false,ih,print_line]
    simp

theorem logReader_entries (p : DatePrefix) (es : List LogEntry) :
    (logReader date {} p (es.flatMap LogEntry.toBytes)).printed.map Prod.fst = es ∧
    (logReader date {} p (es.flatMap LogEntry.toBytes)).total = es.length := by
  rw [logReader,readLoop_records,records_entries]
  exact ⟨readRecords_printed date es _,(readRecords_total date rfl es _).trans (Nat.zero_add _)⟩

end Loop

end MpmcLogger.LogReader
