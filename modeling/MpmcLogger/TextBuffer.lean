import MpmcLogger.Formatter
import MpmcLogger.Decimal
import MpmcLogger.StoreRegion

/-!
# The text formatter on its buffers

The same formatter store by store: a pointer runs through the caller's buffer,
the digits of the thread id are built backwards in a scratch buffer of 12 bytes.
It leaves the line of `TextFormatter.format` at the front of the buffer, stores
nowhere else, and the line can be taken apart again.
-/

set_option autoImplicit false

namespace MpmcLogger.TextBuffer
open MachineWord StoreRegion MpmcLogger.EntryLayout MpmcLogger.Formatter

structure Cursor where
  p : ℤ
  buf : Region UInt8

def Cursor.put (c : Cursor) (b : UInt8) : Cursor := ⟨c.p+1,c.buf.store c.p b⟩

def Cursor.puts (c : Cursor) (s : String) : Cursor := (ascii s).foldl Cursor.put c

def Cursor.memcpy (c : Cursor) (bs : Bytes) : Cursor := ⟨c.p+bs.length,c.buf.copy c.p bs⟩

def digitLoop (val : ℕ) (bufEnd : ℤ) (r : Region UInt8) : ℤ × Region UInt8 :=
  if val = 0 then (bufEnd,r)
  else digitLoop (val/10) (bufEnd-1) (r.store (bufEnd-1) (digit val))
termination_by val

def fastU32ToStr (val : UInt32) (bufEnd : ℤ) (r : Region UInt8) : ℤ × Region UInt8 :=
  if val = 0 then (bufEnd-1,r.store (bufEnd-1) (digit 0)) else digitLoop val.toNat bufEnd r

def suffixLoop (buf : ℤ) : ℕ → ℕ → Region UInt8 → Region UInt8
  | 0, _, r => r
  | i+1, nsPart, r => suffixLoop buf i (nsPart/10) (r.store (buf+20+i) (digit nsPart))

section Formatters

variable (date : ℕ → DatePrefix)

structure DateStored where
  fmt : CachedDateFormatter
  returned : ℕ
  buf : Region UInt8

def storeDate (f : CachedDateFormatter) (wallNs : UInt64) (buf : ℤ) (r : Region UInt8) :
    DateStored :=
  let t := f.refresh date (wallNs.toNat/1000000000)
  let r := r.copy buf t.datePrefix.val
  let r := r.store (buf+19) 46
  ⟨t,29,suffixLoop buf 9 (wallNs.toNat % 1000000000) r⟩

structure LineStored where
  fmt : TextFormatter
  returned : ℕ
  buf : Region UInt8
  tidBuf : Region UInt8

def storeThreadId (c : Cursor) (tid : UInt32) (tidBuf : Region UInt8) : Cursor × Region UInt8 :=
  let t := fastU32ToStr tid 12 tidBuf
  (c.memcpy (t.2.load t.1 (12-t.1).toNat),t.2)

def storePayload (c : Cursor) (e : LogEntry) : Cursor :=
  let payloadLen := if 112 < e.payloadLen.toNat then 112 else e.payloadLen.toNat
  if 0 < payloadLen then c.memcpy (e.payload.take payloadLen) else c

def storeLine (f : TextFormatter) (e : LogEntry) (bufSize : ℕ) (buf tidBuf : Region UInt8) :
    LineStored :=
  if bufSize < TextFormatter.maxFormattedSize then ⟨f,0,buf,tidBuf⟩
  else
    let c := (Cursor.mk 0 buf).puts "["
    let d := storeDate date f.dateFmt e.timestampNs c.p c.buf
    let c := (Cursor.mk (c.p+d.returned) d.buf).puts "] ["
    let c := (c.memcpy ((ascii (levelToString e.level)).take 5)).puts "] [tid:"
    let t := storeThreadId c e.threadId tidBuf
    let c := (storePayload (t.1.puts "] ") e).puts "\n"
    ⟨⟨d.fmt⟩,c.p.toNat,c.buf,t.2⟩

end Formatters

def Passed (c : Cursor) (bs : Bytes) (c' : Cursor) : Prop :=
  c'.p = c.p+bs.length ∧ Wrote c.buf c.p bs c'.buf

theorem Passed.append {c c' c'' : Cursor} {bs cs : Bytes} (h : Passed c bs c')
    (h' : Passed c' cs c'') : Passed c (bs++cs) c'' := by
  refine ⟨?_,h.2.append (h.1 ▸ h'.2)⟩
  rw [h'.1,h.1,List.length_append]
  omega

theorem passed_memcpy (c : Cursor) (bs : Bytes) : Passed c bs (c.memcpy bs) :=
  ⟨rfl,wrote_copy _ _ _⟩

theorem passed_puts (c : Cursor) (s : String) : Passed c (ascii s) (c.puts s) := by
  unfold Cursor.puts
  generalize ascii s = bs
  induction bs generalizing c with
  | nil => exact ⟨by simp,wrote_nil _ _⟩
  | cons b bs ih =>
    have hfirst : Passed c [b] (c.put b) := ⟨rfl,wrote_store _ _ _⟩
    exact hfirst.append (ih _)

theorem digitLoop_wrote (val : ℕ) (bufEnd : ℤ) (r : Region UInt8) :
    (digitLoop val bufEnd r).1+(Decimal.digits val).length = bufEnd ∧
    Wrote r (digitLoop val bufEnd r).1 (Decimal.digits val) (digitLoop val bufEnd r).2 := by
  induction val using Nat.strong_induction_on generalizing bufEnd r with
  | _ val ih =>
    rw [digitLoop]
    split_ifs with h
    · subst h
      exact ⟨by simp,wrote_nil r bufEnd⟩
    · have hpos : 0 < val := Nat.pos_of_ne_zero h
      obtain ⟨hend,hw⟩ := ih (val/10) (by omega) (bufEnd-1) (r.store (bufEnd-1) (digit val))
      rw [Decimal.digits_pos hpos]
      refine ⟨?_,Wrote.prepend ?_ hw⟩
      · rw [List.length_append,List.length_singleton]
        omega
      · rw [hend]
        exact wrote_store _ _ _

theorem fastU32ToStr_wrote (val : UInt32) (bufEnd : ℤ) (r : Region UInt8) :
    (fastU32ToStr val bufEnd r).1+(Decimal.numeral val.toNat).length = bufEnd ∧
    Wrote r (fastU32ToStr val bufEnd r).1 (Decimal.numeral val.toNat)
      (fastU32ToStr val bufEnd r).2 := by
  unfold fastU32ToStr Decimal.numeral
  by_cases h : val = 0
  · subst h
    simp only [if_true,UInt32.toNat_zero,List.length_singleton]
    exact ⟨by simp,wrote_store _ _ _⟩
  · have hne : val.toNat ≠ 0 := fun h0 => h (UInt32.toNat_inj.mp (by simpa using h0))
    rw [if_neg h,if_neg hne]
    exact digitLoop_wrote _ _ _

theorem numeral_length_le (val : UInt32) : (Decimal.numeral val.toNat).length ≤ 10 := by
  rw [Decimal.length_numeral]
  have h : Nat.log 10 val.toNat < 10 :=
    Nat.log_lt_of_lt_pow' (by decide) (val.toNat_lt.trans (by decide))
  exact h

theorem suffixLoop_wrote (buf : ℤ) (i ns : ℕ) (h : ns < 10^i) (r : Region UInt8) :
    Wrote r (buf+20) (Decimal.padded i ns) (suffixLoop buf i ns r) := by
  induction i generalizing ns r with
  | zero =>
    obtain rfl : ns = 0 := by omega
    exact wrote_nil r _
  | succ i ih =>
    have hdiv : ns/10 < 10^i := by
      apply Nat.div_lt_of_lt_mul
      rwa [← pow_succ']
    rw [Decimal.padded_succ]
    refine Wrote.prepend ?_ (ih (ns/10) hdiv _)
    rw [Decimal.length_padded hdiv]
    exact wrote_store _ _ _

theorem writeSuffix_padded {i ns : ℕ} (h : ns < 10^i) (acc : Bytes) :
    writeSuffix i ns acc = Decimal.padded i ns++acc := by
  induction i generalizing ns acc with
  | zero =>
    obtain rfl : ns = 0 := by omega
    rfl
  | succ i ih =>
    have hdiv : ns/10 < 10^i := by
      apply Nat.div_lt_of_lt_mul
      rwa [← pow_succ']
    rw [writeSuffix,ih hdiv,Decimal.padded_succ,List.append_assoc]
    rfl

theorem writeDigits_digits (val : ℕ) (acc : Bytes) :
    writeDigits val acc = Decimal.digits val++acc := by
  induction val using Nat.strong_induction_on generalizing acc with
  | _ val ih =>
    rw [writeDigits]
    split_ifs with h
    · rw [h]
      rfl
    · have hpos : 0 < val := Nat.pos_of_ne_zero h
      rw [ih (val/10) (by omega),Decimal.digits_pos hpos,List.append_assoc]
      rfl

theorem fastU32ToStr_numeral (val : UInt32) :
    Formatter.fastU32ToStr val = Decimal.numeral val.toNat := by
  unfold Formatter.fastU32ToStr Decimal.numeral
  by_cases h : val = 0
  · subst h
    rfl
  · have hne : val.toNat ≠ 0 := fun h0 => h (UInt32.toNat_inj.mp (by simpa using h0))
    rw [if_neg h,if_neg hne,writeDigits_digits,List.append_nil]

section Lines

variable {date : ℕ → DatePrefix}

theorem nanos_lt (wallNs : UInt64) : wallNs.toNat % 1000000000 < 10^9 :=
  Nat.mod_lt _ (by decide)

theorem format_padded (f : CachedDateFormatter) (wallNs : UInt64) :
    (f.format date wallNs).2 = (f.refresh date (wallNs.toNat/1000000000)).datePrefix.val++
      ascii "."++Decimal.padded 9 (wallNs.toNat % 1000000000) := by
  rw [CachedDateFormatter.format,writeSuffix_padded (nanos_lt wallNs),List.append_nil]

theorem length_format (f : CachedDateFormatter) (wallNs : UInt64) :
    (f.format date wallNs).2.length = 29 := by
  have hdate := (f.refresh date (wallNs.toNat/1000000000)).datePrefix.property
  rw [format_padded,List.length_append,List.length_append,hdate,
    Decimal.length_padded (nanos_lt wallNs)]
  rfl

theorem storeDate_wrote (f : CachedDateFormatter) (wallNs : UInt64) (buf : ℤ)
    (r : Region UInt8) :
    Wrote r buf (f.format date wallNs).2 (storeDate date f wallNs buf r).buf := by
  let t := f.refresh date (wallNs.toNat/1000000000)
  have hlen : t.datePrefix.val.length = 19 := t.datePrefix.property
  have hpoint : Wrote r buf (t.datePrefix.val++ascii ".")
      ((r.copy buf t.datePrefix.val).store (buf+19) 46) := by
    refine (wrote_copy r buf _).append ?_
    rw [hlen]
    exact wrote_store _ _ _
  rw [format_padded]
  refine hpoint.append ?_
  rw [List.length_append,hlen]
  exact suffixLoop_wrote buf 9 _ (nanos_lt wallNs) _

def line (stamp level : Bytes) (tid : ℕ) (shown : Bytes) : Bytes :=
  ascii "["++stamp++ascii "] ["++level++ascii "] [tid:"++Decimal.numeral tid++ascii "] "++
    shown++ascii "\n"

def shownPayload (e : LogEntry) : Bytes := e.payload.take (min e.payloadLen.toNat 112)

theorem length_level (level : LogLevel) : (ascii (levelToString level)).length = 5 := by
  have hall : ∀ s ∈ "?????"::levelNames, (ascii s).length = 5 := by decide
  exact hall _ (levelToString_mem level)

theorem length_shownPayload (e : LogEntry) :
    (shownPayload e).length = min e.payloadLen.toNat 112 := by
  rw [shownPayload,List.length_take,e.payload_length]
  omega

theorem length_line {stamp level : Bytes} (hs : stamp.length = 29) (hl : level.length = 5)
    (tid : ℕ) (shown : Bytes) :
    (line stamp level tid shown).length = 48+(Nat.log 10 tid+1)+shown.length := by
  have hfixed : (ascii "[").length = 1 ∧ (ascii "] [").length = 3 ∧
      (ascii "] [tid:").length = 7 ∧ (ascii "] ").length = 2 ∧ (ascii "\n").length = 1 := by
    decide
  simp only [line,List.length_append,hs,hl,Decimal.length_numeral,hfixed]
  omega

theorem format_line (f : TextFormatter) (e : LogEntry) {bufSize : ℕ}
    (h : TextFormatter.maxFormattedSize ≤ bufSize) : f.format date e bufSize =
      (⟨(f.dateFmt.format date e.timestampNs).1⟩,
        line (f.dateFmt.format date e.timestampNs).2 (ascii (levelToString e.level))
          e.threadId.toNat (shownPayload e)) := by
  have hlevel : (ascii (levelToString e.level)).take 5 = ascii (levelToString e.level) :=
    List.take_of_length_le (length_level _).le
  rw [TextFormatter.format,if_neg (not_lt.mpr h)]
  simp only [hlevel,fastU32ToStr_numeral,line,shownPayload,List.append_assoc]

theorem storeThreadId_passed (c : Cursor) (tid : UInt32) (tidBuf : Region UInt8) :
    Passed c (Decimal.numeral tid.toNat) (storeThreadId c tid tidBuf).1 ∧
    Wrote tidBuf (12-(Decimal.numeral tid.toNat).length) (Decimal.numeral tid.toNat)
      (storeThreadId c tid tidBuf).2 := by
  obtain ⟨hend,hdigits⟩ := fastU32ToStr_wrote tid 12 tidBuf
  let t := fastU32ToStr tid 12 tidBuf
  have hstart : t.1 = 12-(Decimal.numeral tid.toNat).length := by
    rw [← hend]
    simp [t]
  have hload : t.2.load t.1 (12-t.1).toNat = Decimal.numeral tid.toNat := by
    have hlen : (12-t.1).toNat = (Decimal.numeral tid.toNat).length := by omega
    rw [hlen]
    exact hdigits.load
  constructor
  · have h := passed_memcpy c (t.2.load t.1 (12-t.1).toNat)
    nth_rewrite 1 [hload] at h
    exact h
  · rw [← hstart]
    exact hdigits

theorem storePayload_passed (c : Cursor) (e : LogEntry) :
    Passed c (shownPayload e) (storePayload c e) := by
  have hmin : (if 112 < e.payloadLen.toNat then 112 else e.payloadLen.toNat) =
      min e.payloadLen.toNat 112 := by
    split_ifs <;> omega
  unfold storePayload shownPayload
  simp only [hmin]
  split_ifs with hpos
  · exact passed_memcpy _ _
  · have hzero : min e.payloadLen.toNat 112 = 0 := by omega
    rw [hzero]
    exact ⟨by simp,wrote_nil _ _⟩

/-- The stores leave the line at the front of the buffer, and the digits of the
thread at the end of the scratch buffer. -/
theorem storeLine_wrote (f : TextFormatter) (e : LogEntry) {bufSize : ℕ}
    (h : TextFormatter.maxFormattedSize ≤ bufSize) (buf tidBuf : Region UInt8) :
    (storeLine date f e bufSize buf tidBuf).fmt = (f.format date e bufSize).1 ∧
    (storeLine date f e bufSize buf tidBuf).returned = (f.format date e bufSize).2.length ∧
    Wrote buf 0 (f.format date e bufSize).2 (storeLine date f e bufSize buf tidBuf).buf ∧
    Wrote tidBuf (12-(Decimal.numeral e.threadId.toNat).length)
      (Decimal.numeral e.threadId.toNat) (storeLine date f e bufSize buf tidBuf).tidBuf := by
  rw [format_line f e h,storeLine,if_neg (not_lt.mpr h)]
  let c₀ := (Cursor.mk 0 buf).puts "["
  let d := storeDate date f.dateFmt e.timestampNs c₀.p c₀.buf
  let c₁ := Cursor.mk (c₀.p+d.returned) d.buf
  let c₂ := ((c₁.puts "] [").memcpy ((ascii (levelToString e.level)).take 5)).puts "] [tid:"
  let t := storeThreadId c₂ e.threadId tidBuf
  let c₃ := storePayload (t.1.puts "] ") e
  have hstamp : Passed c₀ (f.dateFmt.format date e.timestampNs).2 c₁ := by
    refine ⟨?_,storeDate_wrote f.dateFmt e.timestampNs c₀.p c₀.buf⟩
    rw [length_format]
    rfl
  have hlevel : Passed c₁ (ascii "] ["++(ascii (levelToString e.level)++ascii "] [tid:")) c₂ := by
    have htake := passed_memcpy (c₁.puts "] [") ((ascii (levelToString e.level)).take 5)
    nth_rewrite 1 [List.take_of_length_le (length_level _).le] at htake
    exact (passed_puts c₁ _).append (htake.append (passed_puts _ _))
  obtain ⟨htid,hscratch⟩ := storeThreadId_passed c₂ e.threadId tidBuf
  have hshown : Passed t.1 (ascii "] "++shownPayload e) c₃ :=
    (passed_puts _ _).append (storePayload_passed _ e)
  have hline : Passed (Cursor.mk 0 buf) (line (f.dateFmt.format date e.timestampNs).2
      (ascii (levelToString e.level)) e.threadId.toNat (shownPayload e)) (c₃.puts "\n") := by
    simpa only [line,List.append_assoc] using (((((passed_puts _ "[").append hstamp).append
      hlevel).append htid).append hshown).append (passed_puts c₃ "\n")
  refine ⟨rfl,?_,hline.2,hscratch⟩
  have hp := hline.1
  simp only [zero_add] at hp
  exact congrArg Int.toNat hp

def epochPrefix : DatePrefix := ⟨ascii "1970-01-01 00:00:00",by decide⟩

structure Parsed where
  stamp : Bytes
  level : Bytes
  threadId : ℕ
  payload : Bytes
  deriving DecidableEq

def parseLine (bs : Bytes) : Parsed :=
  let rest := bs.drop 45
  let tid := rest.takeWhile fun b => decide (Decimal.IsDigit b)
  ⟨(bs.drop 1).take 29,(bs.drop 33).take 5,Decimal.read tid,(rest.drop (tid.length+2)).dropLast⟩

theorem takeWhile_numeral (n : ℕ) (rest : Bytes) :
    (Decimal.numeral n++(ascii "] "++rest)).takeWhile (fun b => decide (Decimal.IsDigit b)) =
      Decimal.numeral n := by
  rw [List.takeWhile_append_of_pos fun b hb => decide_eq_true (Decimal.numeral_isDigit hb)]
  have hstop : (ascii "] "++rest).takeWhile (fun b => decide (Decimal.IsDigit b)) = [] := rfl
  rw [hstop,List.append_nil]

theorem parse_line {stamp level : Bytes} (hs : stamp.length = 29) (hl : level.length = 5)
    (tid : ℕ) (shown : Bytes) : parseLine (line stamp level tid shown) = ⟨stamp,level,tid,shown⟩ := by
  let tail := Decimal.numeral tid++(ascii "] "++(shown++ascii "\n"))
  have hone : (line stamp level tid shown).drop 1 =
      stamp++(ascii "] ["++(level++(ascii "] [tid:"++tail))) := by
    simp only [line,List.append_assoc]
    rfl
  have hlevel : (line stamp level tid shown).drop 33 = level++(ascii "] [tid:"++tail) := by
    have h : (stamp++ascii "] [").length = 32 := by
      rw [List.length_append,hs]
      rfl
    rw [show 33 = 1+32 from rfl,← List.drop_drop,hone,← List.append_assoc,List.drop_left' h]
  have htail : (line stamp level tid shown).drop 45 = tail := by
    have h : (level++ascii "] [tid:").length = 12 := by
      rw [List.length_append,hl]
      rfl
    rw [show 45 = 33+12 from rfl,← List.drop_drop,hlevel,← List.append_assoc,List.drop_left' h]
  have hshown : tail.drop ((Decimal.numeral tid).length+2) = shown++ascii "\n" := by
    rw [← List.drop_drop,List.drop_left]
    rfl
  have hlast : (shown++ascii "\n").dropLast = shown := List.dropLast_concat
  simp only [parseLine,htail,hone,hlevel,List.take_left' hs,List.take_left' hl]
  rw [takeWhile_numeral tid (shown++ascii "\n"),Decimal.read_numeral,hshown,hlast]

/-- For any record, any state of the cache and any size of the buffer: a small
buffer is left alone; in another the line lies from the front on without a gap,
nothing is stored outside it, the scratch buffer is not left either, and stamp,
level, thread and payload can be read off the line. -/
theorem line_bounded (date : ℕ → DatePrefix) (f : TextFormatter) (bs : Bytes)
    (h : bs.length = 128) (bufSize : ℕ) (init scratch : ℤ → UInt8) :
    let e := LogEntry.ofBytes bs h
    let o := storeLine date f e bufSize (.fresh init) (.fresh scratch)
    (bufSize < 256 → o.returned = 0 ∧ o.buf = .fresh init ∧ o.tidBuf = .fresh scratch) ∧
    (256 ≤ bufSize →
      o.returned = 48+(Nat.log 10 e.threadId.toNat+1)+min e.payloadLen.toNat 112 ∧
      o.returned ≤ 170 ∧ (∀ i : ℤ, i ∈ o.buf.stored ↔ 0 ≤ i ∧ i < o.returned) ∧
      (∀ i ∈ o.tidBuf.stored, 0 ≤ i ∧ i < 12) ∧
      parseLine (o.buf.load 0 o.returned) = ⟨(f.dateFmt.format date e.timestampNs).2,
        ascii (levelToString e.level),e.threadId.toNat,
        e.payload.take (min e.payloadLen.toNat 112)⟩) := by
  intro e o
  constructor
  · intro hsmall
    have ho : o = ⟨f,0,.fresh init,.fresh scratch⟩ := if_pos hsmall
    rw [ho]
    exact ⟨rfl,rfl,rfl⟩
  · intro hlarge
    obtain ⟨-,hret,hbuf,htid⟩ := @storeLine_wrote date f e _ hlarge (.fresh init)
      (.fresh scratch)
    have hstamp := @length_format date f.dateFmt e.timestampNs
    have hdigits := numeral_length_le e.threadId
    rw [format_line f e hlarge] at hret hbuf
    have hlen : o.returned = 48+(Nat.log 10 e.threadId.toNat+1)+min e.payloadLen.toNat 112 := by
      rw [← length_shownPayload]
      exact hret.trans (length_line hstamp (length_level _) _ _)
    refine ⟨hlen,?_,fun i => ?_,fun i hi => ?_,?_⟩
    · rw [Decimal.length_numeral] at hdigits
      omega
    · rw [hbuf.stores,zero_add,← hret]
      simp [Region.fresh,o]
    · rw [htid.stores] at hi
      simp only [Region.fresh,List.not_mem_nil,false_or] at hi
      omega
    · have hload : o.buf.load 0 o.returned = _ := hret ▸ hbuf.load
      rw [hload]
      exact parse_line hstamp (length_level _) _ _

end Lines

/-- The record of 128 bytes 255: level, length and thread id at their largest. -/
theorem line_bounded_full_record :
    let e := LogEntry.ofBytes (List.replicate 128 255) rfl
    let o := storeLine (fun _ => epochPrefix) ⟨.fresh epochPrefix⟩ e 256 (.fresh fun _ => 0)
      (.fresh fun _ => 0)
    o.returned = 170 ∧ (parseLine (o.buf.load 0 o.returned)).level = ascii "?????" ∧
      (parseLine (o.buf.load 0 o.returned)).threadId = 4294967295 := by
  intro e o
  obtain ⟨hret,-,-,-,hparsed⟩ := (line_bounded (fun _ => epochPrefix) ⟨.fresh epochPrefix⟩
    (List.replicate 128 255) rfl 256 (fun _ => 0) (fun _ => 0)).2 le_rfl
  have htid : e.threadId.toNat = 4294967295 := by decide
  have hlen : e.payloadLen.toNat = 65535 := by decide
  refine ⟨?_,?_,?_⟩
  · refine hret.trans ?_
    rw [htid,hlen]
    decide +kernel
  · rw [hparsed]
    decide
  · rw [hparsed]
    exact htid

end MpmcLogger.TextBuffer
