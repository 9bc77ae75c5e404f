import MpmcLogger.EntryLayout
import Mathlib.Tactic

/-!
# Files of records

A file of any bytes is read as the records of 128 bytes it holds entire; what is
left at its end is no record. Every loop of a tool over such a file is a loop
over these records.
-/

set_option autoImplicit false

namespace MpmcLogger.RecordFile
open MachineWord MpmcLogger.EntryLayout

theorem length_first {bs : Bytes} (h : 128 ≤ bs.length) : (bs.take 128).length = 128 := by
  rw [List.length_take,min_eq_left h]

def firstRecord (bs : Bytes) (h : 128 ≤ bs.length) : LogEntry :=
  LogEntry.ofBytes (bs.take 128) (length_first h)

def records (bs : Bytes) : List LogEntry :=
  if h : 128 ≤ bs.length then firstRecord bs h::records (bs.drop 128) else []
termination_by bs.length
decreasing_by rw [List.length_drop]; omega

theorem records_short {bs : Bytes} (h : bs.length < 128) : records bs = [] := by
  rw [records,dif_neg (not_le.mpr h)]

theorem records_next {bs : Bytes} (h : 128 ≤ bs.length) :
    records bs = firstRecord bs h::records (bs.drop 128) := by
  rw [records,dif_pos h]

theorem length_records (bs : Bytes) : (records bs).length = bs.length/128 := by
  fun_induction records bs with
  | case1 bs h ih =>
    rw [List.length_cons,ih,List.length_drop]
    omega
  | case2 bs h =>
    rw [List.length_nil]
    omega

theorem getElem?_records (bs : Bytes) (i : ℕ) (h : 128 ≤ (bs.drop (128*i)).length) :
    (records bs)[i]? = some (firstRecord (bs.drop (128*i)) h) := by
  induction i generalizing bs with
  | zero =>
    have h0 : 128 ≤ bs.length := by simpa using h
    rw [records_next h0]
    rfl
  | succ i ih =>
    have hlen : 128*(i+1)+128 ≤ bs.length := by
      rw [List.length_drop] at h
      omega
    have hdrop : (bs.drop 128).drop (128*i) = bs.drop (128*(i+1)) := by
      rw [List.drop_drop]
      congr 1
      omega
    have hnext := ih (bs.drop 128) (by rw [hdrop]; exact h)
    rw [records_next (by omega),List.getElem?_cons_succ,hnext]
    simp only [hdrop]

theorem records_entry (e : LogEntry) (rest : Bytes) :
    records (e.toBytes++rest) = e::records rest := by
  have hlen := length_toBytes e
  have hle : 128 ≤ (e.toBytes++rest).length := by
    rw [List.length_append,hlen]
    omega
  have htake : (e.toBytes++rest).take 128 = e.toBytes := List.take_left' hlen
  rw [records_next hle,List.drop_left' hlen]
  simp only [firstRecord,htake,ofBytes_toBytes]

theorem records_entries (es : List LogEntry) : records (es.flatMap LogEntry.toBytes) = es := by
  induction es with
  | nil => exact records_short (by decide)
  | cons e es ih => rw [List.flatMap_cons,records_entry,ih]

end MpmcLogger.RecordFile
