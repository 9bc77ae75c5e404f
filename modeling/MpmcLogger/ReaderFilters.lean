import MpmcLogger.LogReader
import MpmcLogger.DrainOutput

/-!
# What the log reader shows

The reader's loop with its two skips, its counter and its early exit prints the
first of the matching records of any file, with the lines that one formatter
makes of just these records.
-/

set_option autoImplicit false

namespace MpmcLogger.ReaderFilters
open MachineWord MpmcLogger.EntryLayout MpmcLogger.Formatter MpmcLogger.LoggerMachine
open MpmcLogger.DrainOutput MpmcLogger.LogReader MpmcLogger.RecordFile

def Matches (o : ReaderOptions) (e : LogEntry) : Prop :=
  o.minLevel.value ≤ e.level.value ∧ ∀ tid ∈ o.filterTid, e.threadId = tid

theorem matches_iff (o : ReaderOptions) (e : LogEntry) : Matches o e ↔ ¬o.skips e := by
  simp only [Matches,ReaderOptions.skips,not_or,not_exists,not_and,not_not,UInt8.not_lt,
    Option.mem_def]

instance (o : ReaderOptions) : DecidablePred (Matches o) := fun e =>
  decidable_of_iff _ (matches_iff o e).symm

def shownFrom (o : ReaderOptions) (count : ℕ) (es : List LogEntry) : List LogEntry :=
  if o.limit = 0 then es.filter (Matches o) else (es.filter (Matches o)).take (o.limit-count)

def shown (o : ReaderOptions) (es : List LogEntry) : List LogEntry :=
  if o.limit = 0 then es.filter (Matches o) else (es.filter (Matches o)).take o.limit

section Shown

variable {o : ReaderOptions} {e : LogEntry} {count : ℕ}

theorem shownFrom_skips (h : o.skips e) (es : List LogEntry) :
    shownFrom o count (e::es) = shownFrom o count es := by
  have hno : ¬Matches o e := fun hm => (matches_iff o e).mp hm h
  simp [shownFrom,hno]

theorem shownFrom_prints (h : ¬o.skips e) (hl : o.limit = 0 ∨ count < o.limit)
    (es : List LogEntry) : shownFrom o count (e::es) = e::shownFrom o (count+1) es := by
  have hyes : Matches o e := (matches_iff o e).mpr h
  unfold shownFrom
  rw [List.filter_cons_of_pos (by simpa using hyes)]
  split_ifs with h0
  · rfl
  · obtain ⟨k,hk⟩ : ∃ k, o.limit-count = k+1 := Nat.exists_eq_succ_of_ne_zero (by omega)
    rw [hk,List.take_succ_cons]
    congr 2
    omega

theorem shownFrom_full (h0 : 0 < o.limit) (h : o.limit ≤ count) (es : List LogEntry) :
    shownFrom o count es = [] := by
  rw [shownFrom,if_neg (by omega),Nat.sub_eq_zero_of_le h,List.take_zero]

end Shown

section Loop

variable {date : ℕ → DatePrefix}

/-- Wherever the loop stands, it goes on to show what is still to be shown. -/
theorem readRecords_shown (o : ReaderOptions) (es : List LogEntry) (r : Reading)
    (hl : o.limit = 0 ∨ r.count < o.limit) :
    (readRecords date o es r).printed =
      r.printed++(formatAll date .text (some r.fmt) (shownFrom o r.count es)).2 ∧
    (readRecords date o es r).count = r.count+(shownFrom o r.count es).length := by
  induction es generalizing r with
  | nil => simp [readRecords,shownFrom,formatAll]
  | cons e es ih =>
    by_cases hs : o.skips e
    · have hnext := ih { r with total := r.total+1 } hl
      rw [shownFrom_skips hs,readRecords,if_pos hs]
      exact hnext
    · rw [shownFrom_prints hs hl,readRecords,if_neg hs,print_line]
      simp only [formatAll,formatEntry,List.length_cons]
      split_ifs with hlim
      · rw [shownFrom_full hlim.1 hlim.2]
        simp [formatAll]
      · obtain ⟨hp,hc⟩ := ih
          ⟨(r.fmt.format date e TextFormatter.maxFormattedSize).1,
            r.printed++[(e,(r.fmt.format date e TextFormatter.maxFormattedSize).2)],r.count+1,
            r.total+1⟩ (by dsimp only at hlim ⊢; omega)
        rw [hp,hc]
        refine ⟨?_,by dsimp only; omega⟩
        simp [List.append_assoc]

theorem formatted_line (f : TextFormatter) (es : List LogEntry) :
    ∀ x ∈ (formatAll date .text (some f) es).2, x.2 ≠ [] ∧
      ∃ g : TextFormatter, x.2 = (g.format date x.1 TextFormatter.maxFormattedSize).2 := by
  induction es generalizing f with
  | nil => exact fun x hx => absurd hx List.not_mem_nil
  | cons e es ih =>
    intro x hx
    rcases List.mem_cons.mp hx with rfl | hx
    · exact ⟨text_format_pos date f e (le_refl _),f,rfl⟩
    · exact ih _ x hx

end Loop

/-- Of any bytes the reader prints, in order, the first matching ones up to the
limit among the records at the multiples of 128, counts these, and prints for
each the line that one formatter makes of it after those before; no line is
empty. -/
theorem matching_shown (date : ℕ → DatePrefix) (o : ReaderOptions) (p : DatePrefix)
    (bs : Bytes) :
    let r := logReader date o p bs
    (records bs).length = bs.length/128 ∧
    (∀ i h, (records bs)[i]? = some (firstRecord (bs.drop (128*i)) h)) ∧
    r.printed.map Prod.fst = shown o (records bs) ∧ r.count = (shown o (records bs)).length ∧
    r.printed = (formatAll date .text (some ⟨.fresh p⟩) (shown o (records bs))).2 ∧
    ∀ x ∈ r.printed, x.2 ≠ [] ∧
      ∃ f : TextFormatter, x.2 = (f.format date x.1 TextFormatter.maxFormattedSize).2 := by
  intro r
  have hstart : shownFrom o 0 (records bs) = shown o (records bs) := rfl
  have hloop : r = readRecords date o (records bs) (.start p) := readLoop_records date o bs _
  obtain ⟨hp,hc⟩ := @readRecords_shown date o (records bs) (.start p)
    (Nat.eq_zero_or_pos _)
  rw [← hloop] at hp hc
  have hp : r.printed = (formatAll date .text (some ⟨.fresh p⟩) (shown o (records bs))).2 := hp
  refine ⟨length_records bs,getElem?_records bs,?_,?_,hp,?_⟩
  · rw [hp]
    exact formatAll_entries _ _ _ _
  · rw [hc,← hstart]
    exact Nat.zero_add _
  · rw [hp]
    exact formatted_line _ _

end MpmcLogger.ReaderFilters
