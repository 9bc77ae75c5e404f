import MpmcLogger.LogMacro
import MpmcLogger.LoggerMachine
import MpmcLogger.QueueDelivery

/-!
# What a record carries besides its message

The record in the log file is the entry as it was pushed, all of its payload
included. Behind the terminator of the message that is whatever the stack held
when the entry was built; only a message that leaves no room there determines
its record.
-/

set_option autoImplicit false

namespace MpmcLogger.RecordResidue
open Interleaving MachineWord MpmcLogger.QueueMachine MpmcLogger.QueueHistory
open MpmcLogger.QueueInvariant MpmcLogger.QueueDelivery MpmcLogger.EntryLayout
open MpmcLogger.Formatter MpmcLogger.LoggerMachine MpmcLogger.LogMacro

/-- In some run of the logger's queue, with any threads taking part, entry `e` is
pushed at position `k`, and the pop a consumer makes there yields the entry whose
record is `out`. -/
def Recorded (e : LogEntry) (out : Bytes) : Prop :=
  ∃ n own c tr t k cid x, n ≤ maxConsumers ∧
    (machine LogEntry queueSize).Run (JoinedFirst own) (Config.start n) c tr ∧
    Event.pushed t k e ∈ tr ∧ (pops cid tr)[k]? = some (some x) ∧
    out = BinaryFormatter.format x TextFormatter.maxFormattedSize

theorem recorded_bytes {e : LogEntry} {out : Bytes} (h : Recorded e out) : out = e.toBytes := by
  obtain ⟨n,own,c,tr,t,k,cid,x,hn,r,hpushed,hpop,rfl⟩ := h
  have hclaim := (run_base begun_start r hn).sound.pushed t k e hpushed
  rw [(run_delivered begun_start r hn).1.pops cid,List.getElem?_map,List.getElem?_take] at hpop
  have hx : x = e := by
    split_ifs at hpop with hk
    · rw [hclaim] at hpop
      exact (Option.some.inj (Option.some.inj hpop)).symm
    · cases hpop
  rw [hx]
  exact binary_format e (by decide)

def pushedOnce (s : Slot LogEntry) : Queue LogEntry :=
  ({ Queue.registered 1 with head := 1 } : Queue LogEntry).setSlot 0 s

theorem pushedOnce_slot (s : Slot LogEntry) : (pushedOnce s).slots (queueSize.index 0) = s := by
  rw [pushedOnce,setSlot_slots]
  exact if_pos (by decide)

theorem pushedOnce_set (s s' : Slot LogEntry) :
    (pushedOnce s).setSlot (queueSize.index 0) s' = pushedOnce s' := by
  show Queue.setSlot _ 0 s' = _
  simp only [pushedOnce,Queue.setSlot]
  rw [Function.update_idem]

section Alone

variable (own : ConsumerId → ℕ) (e : LogEntry)

theorem push_alone : ∃ tr, (machine LogEntry queueSize).Run (JoinedFirst own) (Config.start 1)
    (Config.alone 1 (pushedOnce ⟨0,⟨.whole e,1⟩⟩) .idle) tr ∧ Event.pushed 1 0 e ∈ tr ∧
      pops 0 tr = [] := by
  have hgo : ∀ d : Config LogEntry, JoinedFirst own d 1 .go := fun _ => ⟨trivial,by simp⟩
  have hcall : ∀ d : Config LogEntry, JoinedFirst own d 1 (.call (.push e)) :=
    fun _ => ⟨trivial,by simp⟩
  have hroom : advance queueSize 1 (Queue.registered 1) (.pushLoadMinTail e 0) =
      some (Queue.registered 1,.pushCas e 0,[]) := by
    rw [advance,if_neg (by decide)]
  have hslots : Function.update (fun _ : ℕ => (⟨invalidPos,.empty⟩ : Slot LogEntry)) 0
      ⟨invalidPos,.empty⟩ = fun _ => ⟨invalidPos,.empty⟩ := Function.update_eq_self _ _
  have hcas : advance queueSize 1 (Queue.registered 1) (.pushCas e 0) =
      some (pushedOnce ⟨invalidPos,.empty⟩,.pushCopyBegin e 0,[.claimed 1 0 e]) := by
    rw [advance,if_pos (by rfl)]
    simp only [pushedOnce,Queue.setSlot,Queue.registered,hslots]
    rfl
  have hbegin : advance queueSize 1 (pushedOnce ⟨invalidPos,.empty⟩) (.pushCopyBegin e 0) =
      some (pushedOnce ⟨invalidPos,⟨.writing 1,1⟩⟩,.pushCopyEnd e 0,[]) := by
    simp only [advance,pushedOnce_slot,pushedOnce_set]
    rfl
  have hend : advance queueSize 1 (pushedOnce ⟨invalidPos,⟨.writing 1,1⟩⟩) (.pushCopyEnd e 0) =
      some (pushedOnce ⟨invalidPos,⟨.whole e,1⟩⟩,.pushPublish e 0,[]) := by
    simp only [advance,pushedOnce_slot,pushedOnce_set]
    rfl
  have hpublish : advance queueSize 1 (pushedOnce ⟨invalidPos,⟨.whole e,1⟩⟩) (.pushPublish e 0) =
      some (pushedOnce ⟨0,⟨.whole e,1⟩⟩,.idle,[.pushed 1 0 e]) := by
    simp only [advance,pushedOnce_slot,pushedOnce_set]
  have r₀ : (machine LogEntry queueSize).Run (JoinedFirst own) (Config.start 1)
      (Config.alone 1 (Queue.registered 1) .idle) [] := by
    rw [alone_idle]
    exact .start
  have r₁ := alone_next r₀ (hcall _) rfl
  have r₂ := alone_next r₁ (hgo _) rfl
  have r₃ := alone_next r₂ (hgo _) hroom
  have r₄ := alone_next r₃ (hgo _) hcas
  have r₅ := alone_next r₄ (hgo _) hbegin
  have r₆ := alone_next r₅ (hgo _) hend
  have r₇ := alone_next r₆ (hgo _) hpublish
  exact ⟨_,r₇,by simp,rfl⟩

theorem pop_alone (hown : own 0 = 0) {c₀ : Config LogEntry} {tr : List (Event LogEntry)}
    (r : (machine LogEntry queueSize).Run (JoinedFirst own) c₀
      (Config.alone 0 (pushedOnce ⟨0,⟨.whole e,1⟩⟩) .idle) tr) :
    ∃ c es, (machine LogEntry queueSize).Run (JoinedFirst own) c₀ c (tr++es) ∧
      pops 0 es = [some e] := by
  have hgo : ∀ d : Config LogEntry, JoinedFirst own d 0 .go := fun _ => ⟨trivial,by simp⟩
  have hcall : ∀ d : Config LogEntry, JoinedFirst own d 0 (.call (.pop 0)) :=
    fun _ => ⟨hown,by simp⟩
  have hactive : advance queueSize 0 (pushedOnce ⟨0,⟨.whole e,1⟩⟩) (.popLoadActive 0) =
      some (pushedOnce ⟨0,⟨.whole e,1⟩⟩,.popLoadTail 0,[]) := by
    rw [advance]
    exact if_pos rfl
  have hsequence : advance queueSize 0 (pushedOnce ⟨0,⟨.whole e,1⟩⟩) (.popLoadSequence 0 0) =
      some (pushedOnce ⟨0,⟨.whole e,1⟩⟩,.popCopyBegin 0 0,[]) := by
    rw [advance,pushedOnce_slot,if_pos rfl]
  have hread : advance queueSize 0 (pushedOnce ⟨0,⟨.whole e,1⟩⟩) (.popCopyEnd 0 0 ⟨.whole e,1⟩) =
      some (pushedOnce ⟨0,⟨.whole e,1⟩⟩,.popStoreTail 0 0 (some e),[]) := by
    rw [advance,pushedOnce_slot]
    rfl
  have hbegin : advance queueSize 0 (pushedOnce ⟨0,⟨.whole e,1⟩⟩) (.popCopyBegin 0 0) =
      some (pushedOnce ⟨0,⟨.whole e,1⟩⟩,.popCopyEnd 0 0 ⟨.whole e,1⟩,[]) := by
    rw [advance,pushedOnce_slot]
  have r₁ := alone_next r (hcall _) rfl
  have r₂ := alone_next r₁ (hgo _) hactive
  have r₃ := alone_next r₂ (hgo _) rfl
  have r₄ := alone_next r₃ (hgo _) hsequence
  have r₅ := alone_next r₄ (hgo _) hbegin
  have r₆ := alone_next r₅ (hgo _) hread
  have r₇ := alone_next r₆ (hgo _) rfl
  simp only [List.append_assoc] at r₇
  exact ⟨_,_,r₇,rfl⟩

end Alone

/-- Every entry is recorded in some run, as thread 1 may push it into the empty queue. -/
theorem recorded_alone (e : LogEntry) : Recorded e e.toBytes := by
  obtain ⟨tr,r,hpushed,hnone⟩ := push_alone (fun _ => 0) e
  rw [alone_idle,← alone_idle 0] at r
  obtain ⟨c,es,r',hpop⟩ := pop_alone _ e rfl r
  have hfirst : (pops 0 (tr++es))[0]? = some (some e) := by
    rw [pops_append,hnone,hpop]
    rfl
  have hbytes : e.toBytes = BinaryFormatter.format e TextFormatter.maxFormattedSize :=
    (binary_format e (by decide)).symm
  exact ⟨1,_,c,tr++es,1,0,0,e,by decide,r',List.mem_append_left _ hpushed,hfirst,hbytes⟩

def RecordsAgree (c : LogCall) : Prop :=
  ∀ s₁ s₂ : Payload, ∀ out₁ out₂ : Bytes,
    Recorded (c.entry s₁) out₁ → Recorded (c.entry s₂) out₂ → out₁ = out₂

theorem entry_long {c : LogCall} (h : 111 ≤ c.message.length) (s : Payload) :
    c.entry s = c.entry (filled 0) := by
  have hnone : ∀ s : Payload, s.val.drop 112 = [] := fun s =>
    List.drop_eq_nil_of_le s.property.le
  have hpayload : ∀ s : Payload, (c.entry s).payload = c.message.take 111++[0] := by
    intro s
    rw [entry_payload,min_eq_right h,hnone]
  have hp := (hpayload s).trans (hpayload (filled 0)).symm
  show (⟨_,_,_,_,_,(c.entry s).payload,_⟩ : LogEntry) = ⟨_,_,_,_,_,(c.entry (filled 0)).payload,_⟩
  congr 1

theorem entry_short {c : LogCall} (h : c.message.length < 111) (b : UInt8) :
    (c.entry (filled b)).payload.getLast? = some b := by
  have hrest : (filled b).val.drop (c.message.length+1) =
      List.replicate (110-c.message.length) b++[b] := by
    rw [filled,List.drop_replicate,← List.replicate_succ']
    congr 1
    omega
  rw [entry_payload,min_eq_left h.le,hrest,← List.cons_append,← List.append_assoc]
  exact List.getLast?_concat

theorem records_differ {c : LogCall} (h : c.message.length < 111) :
    (c.entry (filled 0)).toBytes ≠ (c.entry (filled 1)).toBytes := by
  intro hbytes
  have hentry : c.entry (filled 0) = c.entry (filled 1) := by
    rw [← ofBytes_toBytes (c.entry (filled 0)),← ofBytes_toBytes (c.entry (filled 1))]
    simp only [hbytes]
  have hlast := congrArg (fun e => e.payload.getLast?) hentry
  simp only [entry_short h] at hlast
  cases hlast

/-- Whatever the stacks held, two executions of a log call leave the same record
if and only if the message fills the payload. -/
theorem records_agree_iff (c : LogCall) : RecordsAgree c ↔ 111 ≤ c.message.length := by
  constructor
  · intro h
    by_contra hshort
    apply records_differ (not_le.mp hshort)
    exact h (filled 0) (filled 1) _ _ (recorded_alone _) (recorded_alone _)
  · intro h s₁ s₂ out₁ out₂ h₁ h₂
    rw [recorded_bytes h₁,recorded_bytes h₂,entry_long h s₁,entry_long h s₂]

/-- The message AA on two stacks: the records differ. -/
theorem residue_recorded : ∃ out₁ out₂, Recorded ((letters 2).entry (filled 0)) out₁ ∧
    Recorded ((letters 2).entry (filled 1)) out₂ ∧ out₁ ≠ out₂ :=
  ⟨_,_,recorded_alone _,recorded_alone _,records_differ (by decide)⟩

end MpmcLogger.RecordResidue
