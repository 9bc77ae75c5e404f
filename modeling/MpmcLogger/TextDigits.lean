import MpmcLogger.TextBuffer

/-!
# The digits of a text line

The thread id is written backwards until nothing is left of it, the nanoseconds
in nine steps. Read forwards, both are the number again; the nanoseconds always
take nine places, so that their bytes are in their order.
-/

set_option autoImplicit false

namespace MpmcLogger.TextDigits
open MachineWord StoreRegion MpmcLogger.Formatter MpmcLogger.TextBuffer

def suffix (buf : ℤ) (o : DateStored) : Bytes := o.buf.load (buf+20) 9

section Suffixes

variable {date : ℕ → DatePrefix}

theorem suffix_padded (f : CachedDateFormatter) (wallNs : UInt64) (buf : ℤ) (r : Region UInt8) :
    suffix buf (storeDate date f wallNs buf r) =
      Decimal.padded 9 (wallNs.toNat % 1000000000) := by
  have hns := nanos_lt wallNs
  have hload := (suffixLoop_wrote buf 9 (wallNs.toNat % 1000000000) hns
    ((r.copy buf (f.refresh date (wallNs.toNat/1000000000)).datePrefix.val).store (buf+19) 46)).load
  rwa [Decimal.length_padded hns] at hload

theorem suffix_lt_iff (f f' : CachedDateFormatter) (w w' : UInt64) (buf buf' : ℤ)
    (r r' : Region UInt8) :
    suffix buf (storeDate date f w buf r) < suffix buf' (storeDate date f' w' buf' r') ↔
      w.toNat % 1000000000 < w'.toNat % 1000000000 := by
  have hlen : (Decimal.padded 9 (w.toNat % 1000000000)).length =
      (Decimal.padded 9 (w'.toNat % 1000000000)).length := by
    rw [Decimal.length_padded (nanos_lt w),Decimal.length_padded (nanos_lt w')]
  rw [suffix_padded,suffix_padded,Decimal.lt_iff_read_lt hlen (fun _ => Decimal.padded_isDigit)
    (fun _ => Decimal.padded_isDigit),Decimal.read_padded,Decimal.read_padded]

end Suffixes

/-- A thread id of 1 to 10 digits stands right before the end, without a leading
zero, and nothing else is written; the nine digits behind a point read as the
nanoseconds and are in their order, which within a second is that of time. -/
theorem digits_exact (date : ℕ → DatePrefix) :
    (∀ (v : UInt32) (bufEnd : ℤ) (r : Region UInt8), ∃ ds : Bytes,
      (fastU32ToStr v bufEnd r).1 = bufEnd-ds.length ∧
      Wrote r (bufEnd-ds.length) ds (fastU32ToStr v bufEnd r).2 ∧
      1 ≤ ds.length ∧ ds.length ≤ 10 ∧ (∀ b ∈ ds, Decimal.IsDigit b) ∧
      (ds.head? = some (Decimal.char 0) → v = 0) ∧ Decimal.read ds = v.toNat) ∧
    (∀ (n : ℕ) (buf : ℤ) (r : Region UInt8), n < 10^9 → ∃ ds : Bytes,
      Wrote r (buf+20) ds (suffixLoop buf 9 n r) ∧ ds.length = 9 ∧
      (∀ b ∈ ds, Decimal.IsDigit b) ∧ Decimal.read ds = n) ∧
    ∀ (f f' : CachedDateFormatter) (w w' : UInt64) (buf buf' : ℤ) (r r' : Region UInt8),
      let s := suffix buf (storeDate date f w buf r)
      let s' := suffix buf' (storeDate date f' w' buf' r')
      (s < s' ↔ w.toNat % 1000000000 < w'.toNat % 1000000000) ∧
      (w.toNat/1000000000 = w'.toNat/1000000000 → (s < s' ↔ w < w')) := by
  refine ⟨fun v bufEnd r => ?_,fun n buf r hn => ?_,fun f f' w w' buf buf' r r' => ?_⟩
  · obtain ⟨hend,hwrote⟩ := fastU32ToStr_wrote v bufEnd r
    have hstart : (fastU32ToStr v bufEnd r).1 = bufEnd-(Decimal.numeral v.toNat).length := by omega
    refine ⟨Decimal.numeral v.toNat,hstart,hstart ▸ hwrote,?_,numeral_length_le v,
      fun _ => Decimal.numeral_isDigit,fun h => ?_,Decimal.read_numeral _⟩
    · rw [Decimal.length_numeral]
      omega
    · exact UInt32.toNat_inj.mp (Decimal.numeral_head h)
  · exact ⟨Decimal.padded 9 n,suffixLoop_wrote buf 9 n hn r,Decimal.length_padded hn,
      fun _ => Decimal.padded_isDigit,Decimal.read_padded 9 n⟩
  · have hns := @suffix_lt_iff date f f' w w' buf buf' r r'
    refine ⟨hns,fun hsec => hns.trans ?_⟩
    rw [UInt64.lt_iff_toNat_lt]
    omega

/-- The largest thread id, the largest nanoseconds, and two timestamps of which
the later one has the larger digits. -/
theorem digits_exact_largest :
    (∃ ds : Bytes, Wrote (.fresh fun _ => 0) (12-ds.length) ds
      (fastU32ToStr 4294967295 12 (.fresh fun _ => 0)).2 ∧ Decimal.read ds = 4294967295) ∧
    (∃ ds : Bytes, Wrote (.fresh fun _ => 0) 20 ds (suffixLoop 0 9 999999999 (.fresh fun _ => 0)) ∧
      Decimal.read ds = 999999999) ∧
    suffix 0 (storeDate (fun _ => epochPrefix) (.fresh epochPrefix) 1000000009 0
        (.fresh fun _ => 0)) <
      suffix 0 (storeDate (fun _ => epochPrefix) (.fresh epochPrefix) 1000000010 0
        (.fresh fun _ => 0)) := by
  obtain ⟨htid,hns,horder⟩ := digits_exact fun _ => epochPrefix
  obtain ⟨ds,-,hwrote,-,-,-,-,hread⟩ := htid 4294967295 12 (.fresh fun _ => 0)
  obtain ⟨es,hes,-,-,hread'⟩ := hns 999999999 0 (.fresh fun _ => 0) (by decide)
  refine ⟨⟨ds,hwrote,hread⟩,⟨es,hes,hread'⟩,?_⟩
  exact ((horder _ _ 1000000009 1000000010 0 0 _ _).2 (by decide)).mpr (by decide)

end MpmcLogger.TextDigits
