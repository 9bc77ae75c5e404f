import MpmcLogger.LittleEndian
import MpmcLogger.MachineWord

/-!
# Log entries

An entry is a record of 128 bytes: timestamp, thread, level, category, payload
length and a payload of 112 bytes, in this order and little-endian. Every such
string of bytes is an entry; levels and lengths are checked by nobody.
-/

set_option autoImplicit false

namespace MpmcLogger.EntryLayout
open MachineWord LittleEndian

structure LogLevel where
  -- any byte may stand where a level is read
  value : UInt8
  deriving DecidableEq, Repr

namespace LogLevel

def trace : LogLevel := ⟨0⟩
def debug : LogLevel := ⟨1⟩
def info : LogLevel := ⟨2⟩
def warn : LogLevel := ⟨3⟩
def error : LogLevel := ⟨4⟩
def fatal : LogLevel := ⟨5⟩
def off : LogLevel := ⟨6⟩

end LogLevel

structure LogEntry where
  timestampNs : UInt64
  threadId : UInt32
  level : LogLevel
  category : UInt8
  payloadLen : UInt16
  payload : Bytes
  payload_length : payload.length = 112
  deriving DecidableEq, Repr

def LogEntry.toBytes (e : LogEntry) : Bytes :=
  bytes 8 e.timestampNs.toNat++(bytes 4 e.threadId.toNat++(bytes 1 e.level.value.toNat++
    (bytes 1 e.category.toNat++(bytes 2 e.payloadLen.toNat++e.payload))))

def field (off w : ℕ) (bs : Bytes) : ℕ := value ((bs.drop off).take w)

def LogEntry.ofBytes (bs : Bytes) (h : bs.length = 128) : LogEntry where
  timestampNs := UInt64.ofNat (field 0 8 bs)
  threadId := UInt32.ofNat (field 8 4 bs)
  level := ⟨UInt8.ofNat (field 12 1 bs)⟩
  category := UInt8.ofNat (field 13 1 bs)
  payloadLen := UInt16.ofNat (field 14 2 bs)
  payload := bs.drop 16
  payload_length := by rw [List.length_drop,h]

@[simp] theorem length_toBytes (e : LogEntry) : e.toBytes.length = 128 := by
  simp [LogEntry.toBytes,e.payload_length]

theorem field_front {w : ℕ} {p : Bytes} (rest : Bytes) (h : p.length = w) :
    field 0 w (p++rest) = value p := by
  subst h
  simp [field]

theorem field_behind {n : ℕ} {p : Bytes} (off w : ℕ) (rest : Bytes) (h : p.length = n) :
    field (n+off) w (p++rest) = field off w rest := by
  subst h
  simp [field]

theorem field_bytes {w n : ℕ} (rest : Bytes) (h : n < 256^w) :
    field 0 w (bytes w n++rest) = n := by
  rw [field_front _ (length_bytes ..),value_bytes h]

/-- What was written is read back. -/
theorem ofBytes_toBytes (e : LogEntry) : LogEntry.ofBytes e.toBytes (length_toBytes e) = e := by
  have hskip : ∀ (n off w k : ℕ) (rest : Bytes),
      field (n+off) w (bytes n k++rest) = field off w rest :=
    fun n off w k rest => field_behind off w rest (length_bytes ..)
  have hts : field 0 8 e.toBytes = e.timestampNs.toNat := field_bytes _ e.timestampNs.toNat_lt
  have htid : field 8 4 e.toBytes = e.threadId.toNat :=
    (hskip 8 0 4 _ _).trans (field_bytes _ e.threadId.toNat_lt)
  have hlevel : field 12 1 e.toBytes = e.level.value.toNat :=
    (hskip 8 4 1 _ _).trans ((hskip 4 0 1 _ _).trans (field_bytes _ e.level.value.toNat_lt))
  have hcategory : field 13 1 e.toBytes = e.category.toNat :=
    (hskip 8 5 1 _ _).trans ((hskip 4 1 1 _ _).trans ((hskip 1 0 1 _ _).trans
      (field_bytes _ e.category.toNat_lt)))
  have hlen : field 14 2 e.toBytes = e.payloadLen.toNat :=
    (hskip 8 6 2 _ _).trans ((hskip 4 2 2 _ _).trans ((hskip 1 1 2 _ _).trans
      ((hskip 1 0 2 _ _).trans (field_bytes _ e.payloadLen.toNat_lt))))
  have hpayload : e.toBytes.drop 16 = e.payload := by
    simp only [LogEntry.toBytes,← List.append_assoc]
    apply List.drop_left'
    simp
  simp only [LogEntry.ofBytes,hts,htid,hlevel,hcategory,hlen,hpayload,UInt64.ofNat_toNat,
    UInt32.ofNat_toNat,UInt8.ofNat_toNat,UInt16.ofNat_toNat]

theorem bytes_field {off w : ℕ} {bs : Bytes} (h : off+w ≤ bs.length) :
    bytes w (field off w bs % 256^w)++bs.drop (off+w) = bs.drop off := by
  have hlen : ((bs.drop off).take w).length = w := by
    rw [List.length_take,List.length_drop]
    omega
  have hlt : field off w bs < 256^w := (value_lt _).trans_eq (by rw [hlen])
  rw [Nat.mod_eq_of_lt hlt,field,bytes_value hlen,← List.drop_drop,List.take_append_drop]

theorem toBytes_ofBytes (bs : Bytes) (h : bs.length = 128) :
    (LogEntry.ofBytes bs h).toBytes = bs := by
  have hword : ∀ off w, off+w ≤ 128 →
      bytes w (field off w bs % 256^w)++bs.drop (off+w) = bs.drop off :=
    fun off w hle => bytes_field (hle.trans_eq h.symm)
  calc (LogEntry.ofBytes bs h).toBytes
      = bytes 8 (field 0 8 bs % 256^8)++(bytes 4 (field 8 4 bs % 256^4)++
          (bytes 1 (field 12 1 bs % 256^1)++(bytes 1 (field 13 1 bs % 256^1)++
            (bytes 2 (field 14 2 bs % 256^2)++bs.drop 16)))) := by
        simp [LogEntry.toBytes,LogEntry.ofBytes]
    _ = bs := by
        rw [hword 14 2 (by omega),hword 13 1 (by omega),hword 12 1 (by omega),
          hword 8 4 (by omega),hword 0 8 (by omega),List.drop_zero]

end MpmcLogger.EntryLayout
