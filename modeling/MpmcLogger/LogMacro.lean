import MpmcLogger.Formatter

/-!
# The logging macro

The macro builds an entry on the stack, has `snprintf` write the message into its
payload and stores a length. The message arrives with a terminator behind it, for
which the length makes no allowance. What the stack held before remains behind
the terminator.
-/

set_option autoImplicit false

namespace MpmcLogger.LogMacro
open MachineWord MpmcLogger.EntryLayout MpmcLogger.Formatter

abbrev Payload := {bs : Bytes // bs.length = 112}

def snprintf (buf message : Bytes) : Bytes × ℤ :=
  let k := min message.length (buf.length-1)
  (message.take k++0::buf.drop (k+1),message.length)

def payloadLen (n : ℤ) : UInt16 :=
  if 0 < n then if n < 112 then UInt16.ofNat n.toNat else 112 else 0

structure LogCall where
  timestampNs : UInt64
  threadId : UInt32
  level : LogLevel
  category : UInt8
  message : Bytes

theorem length_snprintf {buf : Bytes} (message : Bytes) (h : 0 < buf.length) :
    (snprintf buf message).1.length = buf.length := by
  simp [snprintf]
  omega

def LogCall.entry (c : LogCall) (stack : Payload) : LogEntry where
  timestampNs := c.timestampNs
  threadId := c.threadId
  level := c.level
  category := c.category
  payloadLen := payloadLen (snprintf stack.val c.message).2
  payload := (snprintf stack.val c.message).1
  payload_length := by
    rw [length_snprintf _ (by rw [stack.property]; decide)]
    exact stack.property

def lineHeader (date : ℕ → DatePrefix) (f : TextFormatter) (c : LogCall) : Bytes :=
  ascii "["++(f.dateFmt.format date c.timestampNs).2++ascii "] ["++
    (ascii (levelToString c.level)).take 5++ascii "] [tid:"++fastU32ToStr c.threadId++ascii "] "

section Message

variable (c : LogCall) (stack : Payload)

theorem entry_payload : (c.entry stack).payload =
    c.message.take (min c.message.length 111)++
      0::stack.val.drop (min c.message.length 111+1) := by
  show (snprintf stack.val c.message).1 = _
  simp [snprintf,stack.property]

theorem entry_payloadLen : (c.entry stack).payloadLen.toNat = min c.message.length 112 := by
  show (payloadLen (c.message.length : ℤ)).toNat = _
  unfold payloadLen
  by_cases h0 : c.message.length = 0
  · simp [h0]
  · by_cases h : c.message.length < 112
    · rw [if_pos (by omega),if_pos (by omega),Int.toNat_natCast,UInt16.toNat_ofNat_of_lt' (by
        show c.message.length < 65536
        omega)]
      omega
    · rw [if_pos (by omega),if_neg (by omega)]
      show 112 = _
      omega

/-- What the formatter takes from the payload: a message too long for the payload
goes with its terminator. -/
theorem entry_text : (c.entry stack).payload.take (min (c.entry stack).payloadLen.toNat 112) =
    if c.message.length ≤ 111 then c.message else c.message.take 111++[0] := by
  rw [entry_payload,entry_payloadLen]
  split_ifs with h
  · rw [min_eq_left h,List.take_length,min_eq_left (by omega : c.message.length ≤ 112),
      min_eq_left (by omega : c.message.length ≤ 112),List.take_left' rfl]
  · have hstack : stack.val.drop 112 = [] := List.drop_eq_nil_of_le stack.property.le
    rw [min_eq_right (by omega : 111 ≤ c.message.length),
      min_eq_right (by omega : 112 ≤ c.message.length),min_self,hstack]
    apply List.take_of_length_le
    simp

theorem format_entry (date : ℕ → DatePrefix) (f : TextFormatter) {bufSize : ℕ}
    (h : TextFormatter.maxFormattedSize ≤ bufSize) :
    (f.format date (c.entry stack) bufSize).2 = lineHeader date f c++
      (c.entry stack).payload.take (min (c.entry stack).payloadLen.toNat 112)++ascii "\n" := by
  rw [TextFormatter.format,if_neg (not_lt.mpr h)]
  rfl

/-- The line shows the first 111 bytes of the message and no terminator. -/
def Verbatim (line header message : Bytes) : Prop :=
  ∃ text, line = header++text++ascii "\n" ∧ text = message.take (min message.length 111) ∧
    0 ∉ text

end Message

/-- For every thread, level, timestamp and prior content of the stack: a message
of text reaches its line as its own first 111 bytes if and only if it has no more. -/
theorem message_verbatim_iff (date : ℕ → DatePrefix) (f : TextFormatter) (c : LogCall)
    (stack : Payload) (hm : 0 ∉ c.message) :
    Verbatim (f.format date (c.entry stack) TextFormatter.maxFormattedSize).2
      (lineHeader date f c) c.message ↔ c.message.length ≤ 111 := by
  rw [format_entry c stack date f le_rfl,entry_text]
  constructor
  · rintro ⟨text,hline,htext,-⟩
    by_contra hlong
    rw [if_neg hlong] at hline
    have heq := List.append_cancel_left (List.append_cancel_right hline)
    have hlen := congrArg List.length (heq.trans htext)
    simp at hlen
    omega
  · intro h
    rw [if_pos h,Verbatim]
    refine ⟨c.message,rfl,?_,hm⟩
    rw [min_eq_left h,List.take_length]

def filled (b : UInt8) : Payload := ⟨List.replicate 112 b,List.length_replicate⟩

def letters (n : ℕ) : LogCall := ⟨0,7,.info,0,List.replicate n 65⟩

def constPrefix (b : UInt8) : DatePrefix := ⟨List.replicate 19 b,List.length_replicate⟩

def zeroDate (_ : ℕ) : DatePrefix := constPrefix 48

def freshFormatter : TextFormatter := ⟨.fresh (constPrefix 0)⟩

theorem letters_text (n : ℕ) : 0 ∉ (letters n).message := by
  intro h
  have := List.eq_of_mem_replicate h
  cases this

theorem message_verbatim_two : Verbatim
    (freshFormatter.format zeroDate ((letters 2).entry (filled 0))
      TextFormatter.maxFormattedSize).2
    (lineHeader zeroDate freshFormatter (letters 2)) (letters 2).message :=
  (message_verbatim_iff zeroDate freshFormatter (letters 2) (filled 0) (letters_text 2)).mpr
    (by decide)

/-- A message of 112 bytes: its line has 111 of them and a zero byte. -/
theorem terminator_shown :
    ((letters 112).entry (filled 0)).payload.take
      (min ((letters 112).entry (filled 0)).payloadLen.toNat 112) = List.replicate 111 65++[0] ∧
    ¬Verbatim
      (freshFormatter.format zeroDate ((letters 112).entry (filled 0))
        TextFormatter.maxFormattedSize).2
      (lineHeader zeroDate freshFormatter (letters 112)) (letters 112).message := by
  have hlen : (letters 112).message.length = 112 := List.length_replicate
  have htext := entry_text (letters 112) (filled 0)
  rw [hlen,if_neg (by decide)] at htext
  refine ⟨htext,?_⟩
  rintro ⟨text,hline,-,hzero⟩
  rw [format_entry _ _ _ _ le_rfl,htext] at hline
  have heq := List.append_cancel_left (List.append_cancel_right hline)
  rw [← heq] at hzero
  exact hzero (List.mem_append_right _ (List.mem_singleton_self 0))

end MpmcLogger.LogMacro
