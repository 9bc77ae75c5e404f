import MpmcLogger.ReaderFilters
import MpmcLogger.Decimal
import MpmcLogger.LogMacro

/-!
# The command line of the log reader

Behind the name of the file stand pairs of an option and its value; a pair that
is no option is passed over, and so is a name without a value. What the last pair
of an option says holds. Numbers are read by `atoi`, which is undefined outside of
an `int`, and then converted: a negative limit becomes one beyond any file.
-/

set_option autoImplicit false

namespace MpmcLogger.ReaderCommand
open MachineWord Decimal MpmcLogger.EntryLayout MpmcLogger.Formatter MpmcLogger.RecordFile
open MpmcLogger.LogReader MpmcLogger.ReaderFilters MpmcLogger.LoggerMachine
open MpmcLogger.DrainOutput MpmcLogger.LogMacro

def isSpace (b : UInt8) : Bool := b = 32 ∨ 9 ≤ b ∧ b ≤ 13

def leading (bs : Bytes) : ℤ := read (bs.takeWhile fun b => decide (IsDigit b))

def number (bs : Bytes) : ℤ :=
  match bs.dropWhile isSpace with
  | 45::ds => -leading ds
  | 43::ds => leading ds
  | ds => leading ds

def atoi (bs : Bytes) : Option ℤ :=
  if -2^31 ≤ number bs ∧ number bs < 2^31 then some (number bs) else none

def parseLevel (s : Bytes) : LogLevel × Bytes :=
  if s = ascii "TRACE" then (.trace,[])
  else if s = ascii "DEBUG" then (.debug,[])
  else if s = ascii "INFO" then (.info,[])
  else if s = ascii "WARN" then (.warn,[])
  else if s = ascii "ERROR" then (.error,[])
  else if s = ascii "FATAL" then (.fatal,[])
  else (.trace,ascii "Unknown level: "++s++ascii "\n")

structure CommandLine where
  filename : Bytes
  options : ReaderOptions
  errors : Bytes

def parsePair (name value : Bytes) (c : CommandLine) : Option CommandLine :=
  if name = ascii "--level" then
    some { c with
      options := { c.options with minLevel := (parseLevel value).1 }
      errors := c.errors++(parseLevel value).2 }
  else if name = ascii "--thread" then (atoi value).map fun n =>
    { c with options := { c.options with filterTid := some (UInt32.ofNat (n % 2^32).toNat) } }
  else if name = ascii "--limit" then (atoi value).map fun n =>
    { c with options := { c.options with limit := (n % 2^64).toNat } }
  else some c

def parsePairs : List Bytes → CommandLine → Option CommandLine
  | name::value::rest, c => (parsePair name value c).bind (parsePairs rest)
  | _, c => some c

structure Finished where
  code : ℕ
  out : Bytes
  err : Bytes

def usage (program : Bytes) : Bytes :=
  ascii "Usage: "++program++ascii " <logfile> [--level LEVEL] [--thread TID] [--limit N]\n"

def summary (count total : ℕ) : Bytes :=
  ascii "\n--- "++numeral count++ascii " entries displayed out of "++numeral total++
    ascii " total ---\n"

section Program

variable (date : ℕ → DatePrefix) (p : DatePrefix) (files : Bytes → Option Bytes)

def display (c : CommandLine) : Finished :=
  match files c.filename with
  | none => ⟨1,[],c.errors++ascii "Error: cannot open "++c.filename++ascii "\n"⟩
  | some bs =>
    let r := logReader date c.options p bs
    ⟨0,(r.printed.map Prod.snd).flatten,c.errors++summary r.count r.total⟩

def main : List Bytes → Option Finished
  -- no result where a number does not fit its type
  | _::filename::rest => (parsePairs rest ⟨filename,{},[]⟩).map (display date p files)
  | argv => some ⟨1,[],usage (argv.headD [])⟩

end Program

def lastValue (option : Bytes) : List Bytes → Option Bytes
  | name::value::rest => (lastValue option rest).or (if name = option then some value else none)
  | _ => none

def NumbersFit : List Bytes → Prop
  | name::value::rest =>
    (name = ascii "--thread" ∨ name = ascii "--limit" → (atoi value).isSome = true) ∧
      NumbersFit rest
  | _ => True

def levelAsked (args : List Bytes) : LogLevel :=
  ((lastValue (ascii "--level") args).map fun v => (parseLevel v).1).getD .trace

def Asked (args : List Bytes) (e : LogEntry) : Prop :=
  (levelAsked args).value ≤ e.level.value ∧
  ∀ v, lastValue (ascii "--thread") args = some v → (e.threadId.toNat : ℤ) = number v % 2^32

instance (args : List Bytes) : DecidablePred (Asked args) := fun e =>
  match h : lastValue (ascii "--thread") args with
  | none => decidable_of_iff ((levelAsked args).value ≤ e.level.value) (by simp [Asked,h])
  | some v => decidable_of_iff ((levelAsked args).value ≤ e.level.value ∧
      (e.threadId.toNat : ℤ) = number v % 2^32) (by simp [Asked,h])

def limited {α : Type*} (args : List Bytes) (xs : List α) : List α :=
  match lastValue (ascii "--limit") args with
  | none => xs
  | some v => if 0 < number v then xs.take (number v).toNat else xs

section Options

variable {args : List Bytes} {c c' : CommandLine} {name value : Bytes}

theorem lastValue_next {α : Type*} (option name value : Bytes) (rest : List Bytes)
    (f : Bytes → α) (x : α) : ((lastValue option (name::value::rest)).map f).getD x =
      ((lastValue option rest).map f).getD (if name = option then f value else x) := by
  rw [lastValue]
  cases lastValue option rest with
  | some v => rfl
  | none => split_ifs <;> rfl

def threadAsked (v : Bytes) : Option UInt32 := some (UInt32.ofNat (number v % 2^32).toNat)

def limitAsked (v : Bytes) : ℕ := (number v % 2^64).toNat

structure Sets (name value : Bytes) (c c' : CommandLine) : Prop where
  filename : c'.filename = c.filename
  level : c'.options.minLevel =
    if name = ascii "--level" then (parseLevel value).1 else c.options.minLevel
  thread : c'.options.filterTid =
    if name = ascii "--thread" then threadAsked value else c.options.filterTid
  limit : c'.options.limit = if name = ascii "--limit" then limitAsked value else c.options.limit

theorem atoi_number {n : ℤ} (h : atoi value = some n) : n = number value := by
  unfold atoi at h
  split_ifs at h
  exact (Option.some.inj h).symm

theorem parsePair_sets (h : parsePair name value c = some c') : Sets name value c c' := by
  have hlt : ascii "--level" ≠ ascii "--thread" := by decide
  have hll : ascii "--level" ≠ ascii "--limit" := by decide
  have htl : ascii "--thread" ≠ ascii "--limit" := by decide
  unfold parsePair at h
  split_ifs at h with hlevel hthread hlimit
  · cases h
    subst hlevel
    exact ⟨rfl,(if_pos rfl).symm,(if_neg hlt).symm,(if_neg hll).symm⟩
  · obtain ⟨n,hn,rfl⟩ := Option.map_eq_some_iff.mp h
    obtain rfl := atoi_number hn
    subst hthread
    exact ⟨rfl,(if_neg hlt.symm).symm,(if_pos rfl).symm,(if_neg htl).symm⟩
  · obtain ⟨n,hn,rfl⟩ := Option.map_eq_some_iff.mp h
    obtain rfl := atoi_number hn
    subst hlimit
    exact ⟨rfl,(if_neg hll.symm).symm,(if_neg htl.symm).symm,(if_pos rfl).symm⟩
  · cases h
    exact ⟨rfl,(if_neg hlevel).symm,(if_neg hthread).symm,(if_neg hlimit).symm⟩

structure AsAsked (args : List Bytes) (c c' : CommandLine) : Prop where
  filename : c'.filename = c.filename
  level : c'.options.minLevel =
    ((lastValue (ascii "--level") args).map fun v => (parseLevel v).1).getD c.options.minLevel
  thread : c'.options.filterTid =
    ((lastValue (ascii "--thread") args).map threadAsked).getD c.options.filterTid
  limit : c'.options.limit =
    ((lastValue (ascii "--limit") args).map limitAsked).getD c.options.limit

theorem parsePairs_asked (h : parsePairs args c = some c') : AsAsked args c c' := by
  induction args using lastValue.induct generalizing c with
  | case1 name value rest ih =>
    obtain ⟨d,hd,hrest⟩ := Option.bind_eq_some_iff.mp h
    have hs := parsePair_sets hd
    have ha := ih hrest
    refine ⟨ha.filename.trans hs.filename,?_,?_,?_⟩
    · rw [lastValue_next,ha.level,hs.level]
    · rw [lastValue_next,ha.thread,hs.thread]
    · rw [lastValue_next,ha.limit,hs.limit]
  | case2 args hshort =>
    have hnone : ∀ option, lastValue option args = none := by
      intro option
      rw [lastValue]
      exact hshort
    obtain rfl : c = c' := by
      rw [parsePairs] at h
      · exact Option.some.inj h
      · exact hshort
    constructor <;> simp [hnone]

theorem parsePair_defined (h : name = ascii "--thread" ∨ name = ascii "--limit" →
    (atoi value).isSome = true) (c : CommandLine) : ∃ c', parsePair name value c = some c' := by
  unfold parsePair
  split_ifs with hlevel hthread hlimit
  · exact ⟨_,rfl⟩
  · obtain ⟨n,hn⟩ := Option.isSome_iff_exists.mp (h (Or.inl hthread))
    exact ⟨_,by rw [hn]; rfl⟩
  · obtain ⟨n,hn⟩ := Option.isSome_iff_exists.mp (h (Or.inr hlimit))
    exact ⟨_,by rw [hn]; rfl⟩
  · exact ⟨c,rfl⟩

theorem parsePairs_defined (h : NumbersFit args) (c : CommandLine) :
    ∃ c', parsePairs args c = some c' := by
  induction args using lastValue.induct generalizing c with
  | case1 name value rest ih =>
    obtain ⟨d,hd⟩ := parsePair_defined h.1 c
    obtain ⟨c',hc⟩ := ih h.2 d
    exact ⟨c',by rw [parsePairs,hd,Option.bind_some,hc]⟩
  | case2 args hshort =>
    refine ⟨c,?_⟩
    rw [parsePairs]
    exact hshort

end Options

section Selection

variable {args : List Bytes} {filename : Bytes} {c : CommandLine}

theorem word_eq (n : ℤ) (tid : UInt32) :
    tid = UInt32.ofNat (n % 2^32).toNat ↔ (tid.toNat : ℤ) = n % 2^32 := by
  have hpos := Int.emod_nonneg n (by decide : (2^32 : ℤ) ≠ 0)
  have hlt := Int.emod_lt_of_pos n (by decide : (0 : ℤ) < 2^32)
  rw [← UInt32.toNat_inj,UInt32.toNat_ofNat_of_lt' (by show _ < 2^32; omega)]
  omega

theorem matches_asked (h : AsAsked args ⟨filename,{},[]⟩ c) (e : LogEntry) :
    Matches c.options e ↔ Asked args e := by
  unfold Matches Asked
  rw [h.level,h.thread]
  apply and_congr Iff.rfl
  cases lastValue (ascii "--thread") args with
  | none => simp
  | some v =>
    simp only [threadAsked,Option.map_some,Option.getD_some,Option.mem_def,Option.some.injEq,
      forall_eq']
    exact word_eq _ _

theorem lastValue_fits {option v : Bytes} (h : NumbersFit args)
    (ho : option = ascii "--thread" ∨ option = ascii "--limit")
    (hv : lastValue option args = some v) : -2^31 ≤ number v ∧ number v < 2^31 := by
  induction args using lastValue.induct with
  | case1 name value rest ih =>
    rw [lastValue] at hv
    rcases Option.or_eq_some_iff.mp hv with hv | ⟨-,hv⟩
    · exact ih h.2 hv
    · split_ifs at hv with hname
      obtain rfl := Option.some.inj hv
      obtain ⟨n,hn⟩ := Option.isSome_iff_exists.mp (h.1 (hname ▸ ho))
      unfold atoi at hn
      split_ifs at hn with hrange
      exact hrange
  | case2 args hshort =>
    rw [lastValue] at hv
    · cases hv
    · exact hshort

/-- A negative limit is converted to one that no file reaches. -/
theorem shown_limited (h : AsAsked args ⟨filename,{},[]⟩ c) (hfit : NumbersFit args)
    {es : List LogEntry} (hes : es.length < 2^63) :
    shown c.options es = limited args (es.filter fun e => decide (Asked args e)) := by
  have hfilter : es.filter (fun e => decide (Matches c.options e)) =
      es.filter fun e => decide (Asked args e) :=
    List.filter_congr fun e _ => decide_eq_decide.mpr (matches_asked h e)
  have hlen := es.length_filter_le fun e => decide (Asked args e)
  cases hv : lastValue (ascii "--limit") args with
  | none =>
    have hlimit : c.options.limit = 0 := by
      rw [h.limit,hv]
      rfl
    rw [shown,if_pos hlimit,hfilter,limited,hv]
  | some v =>
    have hlimit : c.options.limit = (number v % 2^64).toNat := by
      rw [h.limit,hv]
      rfl
    obtain ⟨hlo,hhi⟩ := lastValue_fits hfit (Or.inr rfl) hv
    rw [shown,hfilter,limited,hv,hlimit]
    rcases lt_trichotomy (number v) 0 with hn | hn | hn
    · have hmod : number v % 2^64 = number v+2^64 := by omega
      rw [hmod,if_neg (by omega),List.take_of_length_le (by omega)]
      exact (if_neg (by omega)).symm
    · rw [hn,if_pos (by decide)]
      exact (if_neg (by omega)).symm
    · have hmod : number v % 2^64 = number v := by omega
      rw [hmod,if_neg (by omega)]
      exact (if_pos hn).symm

end Selection

/-- Every command line whose numbers are those of an `int`, with any order of its
options, any repeated, unknown or incomplete, on any directory: where the file
opens, the reader prints the lines of the records asked for, as many as asked for,
and reports their number; where it does not, it prints none and fails. -/
theorem command_displays (date : ℕ → DatePrefix) (p : DatePrefix) (files : Bytes → Option Bytes)
    (program filename : Bytes) (args : List Bytes) (hfit : NumbersFit args)
    (hsize : ∀ bs, files filename = some bs → bs.length < 2^63) :
    ∃ fin, main date p files (program::filename::args) = some fin ∧
    match files filename with
    | none => fin.code = 1 ∧ fin.out = []
    | some bs =>
      let es := limited args ((records bs).filter fun e => decide (Asked args e))
      fin.code = 0 ∧
      fin.out = ((formatAll date .text (some ⟨.fresh p⟩) es).2.map Prod.snd).flatten ∧
      ∃ errors total, fin.err = errors++summary es.length total := by
  obtain ⟨c,hc⟩ := parsePairs_defined hfit ⟨filename,{},[]⟩
  have ha := parsePairs_asked hc
  refine ⟨display date p files c,by rw [main,hc]; rfl,?_⟩
  unfold display
  rw [ha.filename]
  cases hf : files filename with
  | none => exact ⟨rfl,rfl⟩
  | some bs =>
    have hlen : (records bs).length < 2^63 := by
      have := hsize bs hf
      rw [length_records]
      omega
    obtain ⟨hp,hcount⟩ := @readRecords_shown date c.options (records bs) (.start p)
      (Nat.eq_zero_or_pos _)
    rw [← readLoop_records] at hp hcount
    have hshown : shownFrom c.options 0 (records bs) =
        limited args ((records bs).filter fun e => decide (Asked args e)) :=
      shown_limited ha hfit hlen
    refine ⟨rfl,?_,c.errors,(logReader date c.options p bs).total,?_⟩
    · rw [← hshown]
      exact congrArg (fun ls => (ls.map Prod.snd).flatten) hp
    · rw [← hshown]
      exact congrArg (fun n => c.errors++summary n _) (hcount.trans (Nat.zero_add _))

def warnArgs : List Bytes :=
  [ascii "--limit",ascii "1",ascii "--level",ascii "WARN",ascii "--limit",ascii " +2x"]

def entryAt (level : LogLevel) : LogEntry := ⟨0,7,level,0,0,(filled 0).1,(filled 0).2⟩

def fourEntries : List LogEntry := [entryAt .warn,entryAt .info,entryAt .error,entryAt .fatal]

/-- Of four records the reader prints the first two that are of level WARN or higher. -/
theorem command_displays_two : ∃ fin, main zeroDate (constPrefix 0)
      (fun _ => some (fourEntries.flatMap LogEntry.toBytes))
      (ascii "log_reader"::ascii "app.log"::warnArgs) = some fin ∧ fin.code = 0 ∧
    fin.out = ((formatAll zeroDate .text (some freshFormatter)
      [entryAt .warn,entryAt .error]).2.map Prod.snd).flatten := by
  have hfit : NumbersFit warnArgs := by
    simp only [warnArgs,NumbersFit]
    decide +kernel
  have hlen : (fourEntries.flatMap LogEntry.toBytes).length < 2^63 := by
    simp [fourEntries,length_toBytes]
  obtain ⟨fin,hfin,hcode,hout,-⟩ := command_displays zeroDate (constPrefix 0)
    (fun _ => some (fourEntries.flatMap LogEntry.toBytes)) (ascii "log_reader") (ascii "app.log")
    warnArgs hfit fun bs hbs => Option.some.inj hbs ▸ hlen
  have hasked : limited warnArgs (fourEntries.filter fun e => decide (Asked warnArgs e)) =
      [entryAt .warn,entryAt .error] := by decide +kernel
  rw [records_entries,hasked] at hout
  exact ⟨fin,hfin,hcode,hout⟩

end MpmcLogger.ReaderCommand
