import MpmcLogger.LineFraming
import MpmcLogger.DateCache
import MpmcLogger.DrainOutput
import MpmcLogger.LogMacro

/-!
# The text log as a stream of lines

In text mode the drain loop appends a line for each entry. The payload is copied
as it is, so a newline inside it ends a line early, as would one in a date prefix
that nobody has written. Nothing else in a line can be a newline.
-/

set_option autoImplicit false

namespace MpmcLogger.TextFraming
open MachineWord LineFraming MpmcLogger.EntryLayout MpmcLogger.Formatter MpmcLogger.TextBuffer
open MpmcLogger.DrainOutput MpmcLogger.LogMacro

def newline : UInt8 := 10

section Streams

variable (date : ℕ → DatePrefix)

def linesFrom (f : TextFormatter) (es : List LogEntry) : List Bytes :=
  (formatAll date .text (some f) es).2.map Prod.snd

def textLines (p : DatePrefix) (es : List LogEntry) : List Bytes := linesFrom date ⟨.fresh p⟩ es

def textStream (p : DatePrefix) (es : List LogEntry) : Bytes := (textLines date p es).flatten

end Streams

def Unbroken (p : DatePrefix) (es : List LogEntry) : Prop :=
  (∀ e ∈ es, newline ∉ shownPayload e) ∧
    ∀ e ∈ es.head?, e.timestampNs.toNat < 1000000000 → newline ∉ p.val

instance (p : DatePrefix) (es : List LogEntry) : Decidable (Unbroken p es) :=
  inferInstanceAs (Decidable (_ ∧ _))

theorem newline_digits {bs : Bytes} (h : ∀ b ∈ bs, Decimal.IsDigit b) : newline ∉ bs :=
  fun hm => absurd (h _ hm) (by decide)

theorem newline_level (level : LogLevel) : newline ∉ ascii (levelToString level) := by
  have hall : ∀ s ∈ "?????"::levelNames, newline ∉ ascii s := by decide
  exact hall _ (levelToString_mem level)

theorem line_ended (stamp level : Bytes) (tid : ℕ) (shown : Bytes) :
    Ended newline (line stamp level tid shown) := ⟨_,rfl⟩

theorem newline_line (stamp : Bytes) (level : LogLevel) (tid : ℕ) (shown : Bytes) :
    newline ∉ (line stamp (ascii (levelToString level)) tid shown).dropLast ↔
      newline ∉ stamp ∧ newline ∉ shown := by
  have hdrop : (line stamp (ascii (levelToString level)) tid shown).dropLast =
      ascii "["++stamp++ascii "] ["++ascii (levelToString level)++ascii "] [tid:"++
        Decimal.numeral tid++ascii "] "++shown := List.dropLast_concat
  have htid : newline ∉ Decimal.numeral tid := newline_digits fun _ => Decimal.numeral_isDigit
  have hfixed : newline ∉ ascii "[" ∧ newline ∉ ascii "] [" ∧ newline ∉ ascii "] [tid:" ∧
      newline ∉ ascii "] " := by decide
  rw [hdrop]
  simp only [List.mem_append,not_or,newline_level,htid,hfixed,not_false_eq_true,true_and,and_true]

section Lines

variable {date : ℕ → DatePrefix}

theorem newline_stamp (f : CachedDateFormatter) (wallNs : UInt64) :
    newline ∈ (f.format date wallNs).2 ↔
      newline ∈ (f.refresh date (wallNs.toNat/1000000000)).datePrefix.val := by
  have hpoint : newline ∉ ascii "." := by decide
  have hdigits : newline ∉ Decimal.padded 9 (wallNs.toNat % 1000000000) :=
    newline_digits fun _ => Decimal.padded_isDigit
  rw [format_padded]
  simp only [List.mem_append,hpoint,hdigits,or_false]

theorem newline_refresh (hdate : ∀ s, newline ∉ (date s).val) (f : CachedDateFormatter) (s : ℕ) :
    newline ∈ (f.refresh date s).datePrefix.val ↔
      s = f.cachedSec ∧ newline ∈ f.datePrefix.val := by
  unfold CachedDateFormatter.refresh
  split_ifs with h
  · simp [hdate,h]
  · simp [not_not.mp h]

theorem linesFrom_cons (f : TextFormatter) (e : LogEntry) (es : List LogEntry) :
    linesFrom date f (e::es) =
      line (f.dateFmt.format date e.timestampNs).2 (ascii (levelToString e.level))
        e.threadId.toNat (shownPayload e)::
      linesFrom date ⟨f.dateFmt.refresh date (e.timestampNs.toNat/1000000000)⟩ es := by
  simp only [linesFrom,formatAll,formatEntry,format_line f e le_rfl,List.map_cons]
  rfl

theorem linesFrom_ended (f : TextFormatter) (es : List LogEntry) :
    ∀ l ∈ linesFrom date f es, Ended newline l := by
  induction es generalizing f with
  | nil => exact fun l hl => absurd hl List.not_mem_nil
  | cons e es ih =>
    intro l hl
    rw [linesFrom_cons] at hl
    rcases List.mem_cons.mp hl with rfl | hl
    · exact line_ended _ _ _ _
    · exact ih _ l hl

/-- The lines hold no newline inside if no payload shows one and the prefix in
the cache has none, or is replaced at once. -/
theorem linesFrom_clean (hdate : ∀ s, newline ∉ (date s).val) (f : TextFormatter)
    (es : List LogEntry) : (∀ l ∈ linesFrom date f es, newline ∉ l.dropLast) ↔
      (∀ e ∈ es, newline ∉ shownPayload e) ∧ ∀ e ∈ es.head?,
        e.timestampNs.toNat/1000000000 = f.dateFmt.cachedSec → newline ∉ f.dateFmt.datePrefix.val := by
  induction es generalizing f with
  | nil => simp [linesFrom,formatAll]
  | cons e es ih =>
    have hrefresh := newline_refresh hdate f.dateFmt (e.timestampNs.toNat/1000000000)
    rw [linesFrom_cons,List.forall_mem_cons,newline_line,newline_stamp,ih,List.forall_mem_cons]
    simp only [List.head?_cons,Option.mem_some_iff,forall_eq']
    constructor
    · rintro ⟨⟨hclean,hshown⟩,hes,-⟩
      exact ⟨⟨hshown,hes⟩,fun hsec hin => hclean (hrefresh.mpr ⟨hsec,hin⟩)⟩
    · rintro ⟨⟨hshown,hes⟩,hsec⟩
      have hclean : newline ∉ (f.dateFmt.refresh date
          (e.timestampNs.toNat/1000000000)).datePrefix.val :=
        fun hin => hsec (hrefresh.mp hin).1 (hrefresh.mp hin).2
      exact ⟨⟨hclean,hshown⟩,hes,fun _ _ _ => hclean⟩

theorem textLines_clean (hdate : ∀ s, newline ∉ (date s).val) (p : DatePrefix)
    (es : List LogEntry) :
    (∀ l ∈ textLines date p es, newline ∉ l.dropLast) ↔ Unbroken p es := by
  rw [textLines,linesFrom_clean hdate,Unbroken]
  refine and_congr_right fun _ => forall_congr' fun e => imp_congr_right fun _ => ?_
  have hsec : e.timestampNs.toNat/1000000000 = 0 ↔ e.timestampNs.toNat < 1000000000 := by omega
  show (e.timestampNs.toNat/1000000000 = 0 → newline ∉ p.val) ↔ _
  rw [hsec]

end Lines

/-- A text log splits into the lines of its entries if and only if no entry shows
a newline (and no prefix that nobody wrote does). Two such logs with one stream
have the same lines. -/
theorem stream_framed_iff (date : ℕ → DatePrefix) (hdate : ∀ s, newline ∉ (date s).val)
    (p : DatePrefix) (es : List LogEntry) :
    (splitAfter newline (textStream date p es) = textLines date p es ↔ Unbroken p es) ∧
    ∀ p' es', Unbroken p es → Unbroken p' es' → textStream date p es = textStream date p' es' →
      textLines date p es = textLines date p' es' := by
  constructor
  · exact (splitAfter_flatten_iff (linesFrom_ended _ es)).trans (textLines_clean hdate p es)
  · intro p' es' h h' hstream
    exact flatten_injective (linesFrom_ended _ _) (linesFrom_ended _ _)
      ((textLines_clean hdate p es).mpr h) ((textLines_clean hdate p' es').mpr h') hstream

def noted (s : String) : LogEntry := (LogCall.mk 0 0 .info 0 (ascii s)).entry (filled 0)

theorem stream_framed_two :
    splitAfter newline (textStream (fun _ => epochPrefix) epochPrefix [noted "A",noted "B"]) =
      textLines (fun _ => epochPrefix) epochPrefix [noted "A",noted "B"] :=
  (stream_framed_iff (fun _ => epochPrefix) (fun _ => by decide) epochPrefix [noted "A",noted "B"]).1.mpr
    (by decide +kernel)

/-- One entry whose text imitates the beginning of a line writes two lines: the
stream is that of two entries. -/
theorem newline_forges_line :
    let e := noted "A\n[1970-01-01 00:00:00.000000000] [INFO ] [tid:0] B"
    textStream (fun _ => epochPrefix) epochPrefix [e] =
      textStream (fun _ => epochPrefix) epochPrefix [noted "A",noted "B"] ∧
    textLines (fun _ => epochPrefix) epochPrefix [e] ≠
      textLines (fun _ => epochPrefix) epochPrefix [noted "A",noted "B"] ∧
    (splitAfter newline (textStream (fun _ => epochPrefix) epochPrefix [e])).length = 2 := by
  decide +kernel

end MpmcLogger.TextFraming
