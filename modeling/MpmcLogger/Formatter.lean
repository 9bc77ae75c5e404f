import MpmcLogger.EntryLayout

/-!
# Formatters

The binary formatter copies a record; the text formatter renders it as a line,
with the date of its second taken from a cache. What `localtime_r` and
`strftime` make of a second is a parameter: 19 bytes, without the terminator.
Buffers are written from the front without gaps, so that a formatter is given by
the bytes it leaves; when it returns zero it leaves none.
-/

set_option autoImplicit false

namespace MpmcLogger.Formatter
open MachineWord MpmcLogger.EntryLayout

namespace BinaryFormatter

def maxFormattedSize : ℕ := 128

def format (e : LogEntry) (bufSize : ℕ) : Bytes := if bufSize < 128 then [] else e.toBytes

end BinaryFormatter

def ascii (s : String) : Bytes := s.toList.map fun c => UInt8.ofNat c.toNat

def levelNames : List String := ["TRACE","DEBUG","INFO ","WARN ","ERROR","FATAL","OFF  "]

def levelToString (level : LogLevel) : String := (levelNames[level.value.toNat]?).getD "?????"

theorem levelToString_mem (level : LogLevel) : levelToString level ∈ "?????"::levelNames := by
  unfold levelToString
  cases h : levelNames[level.value.toNat]? with
  | none => exact List.mem_cons_self
  | some s => exact List.mem_cons_of_mem _ (List.mem_of_getElem? h)

def digit (n : ℕ) : UInt8 := UInt8.ofNat (48+n % 10)

def writeDigits (val : ℕ) (acc : Bytes) : Bytes :=
  if val = 0 then acc else writeDigits (val/10) (digit val::acc)
termination_by val

def fastU32ToStr (val : UInt32) : Bytes :=
  if val = 0 then [digit 0] else writeDigits val.toNat []

abbrev DatePrefix := {bs : Bytes // bs.length = 19}

structure CachedDateFormatter where
  cachedSec : ℕ
  datePrefix : DatePrefix

def CachedDateFormatter.fresh (datePrefix : DatePrefix) : CachedDateFormatter := ⟨0,datePrefix⟩

def writeSuffix : ℕ → ℕ → Bytes → Bytes
  | 0, _, acc => acc
  | i+1, ns, acc => writeSuffix i (ns/10) (digit ns::acc)

section Date

variable (date : ℕ → DatePrefix)

def CachedDateFormatter.refresh (f : CachedDateFormatter) (sec : ℕ) : CachedDateFormatter :=
  if sec ≠ f.cachedSec then ⟨sec,date sec⟩ else f

def CachedDateFormatter.format (f : CachedDateFormatter) (wallNs : UInt64) :
    CachedDateFormatter × Bytes :=
  let t := f.refresh date (wallNs.toNat/1000000000)
  (t,t.datePrefix.val++ascii "."++writeSuffix 9 (wallNs.toNat % 1000000000) [])

structure TextFormatter where
  dateFmt : CachedDateFormatter

namespace TextFormatter

def maxFormattedSize : ℕ := 256

def format (f : TextFormatter) (e : LogEntry) (bufSize : ℕ) : TextFormatter × Bytes :=
  if bufSize < maxFormattedSize then (f,[])
  else
    let r := f.dateFmt.format date e.timestampNs
    (⟨r.1⟩,ascii "["++r.2++ascii "] ["++(ascii (levelToString e.level)).take 5++ascii "] [tid:"++
      fastU32ToStr e.threadId++ascii "] "++e.payload.take (min e.payloadLen.toNat 112)++
      ascii "\n")

end TextFormatter

end Date

@[simp] theorem binary_format (e : LogEntry) {bufSize : ℕ} (h : 128 ≤ bufSize) :
    BinaryFormatter.format e bufSize = e.toBytes := if_neg (not_lt.mpr h)

theorem text_format_pos (date : ℕ → DatePrefix) (f : TextFormatter) (e : LogEntry) {bufSize : ℕ}
    (h : TextFormatter.maxFormattedSize ≤ bufSize) : (f.format date e bufSize).2 ≠ [] := by
  rw [TextFormatter.format,if_neg (not_lt.mpr h)]
  simp [ascii]

example : fastU32ToStr 1205 = ascii "1205" := by
  simp [fastU32ToStr,writeDigits]
  decide

end MpmcLogger.Formatter
