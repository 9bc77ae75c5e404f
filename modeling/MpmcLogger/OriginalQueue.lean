import MpmcLogger.QueueCalls

/-!
# The queue it was adapted from

The original queue scans with one accumulator and stores the minimum inside the
scan; the queue of the logger has four accumulators, and its callers store. Call
by call the two cannot be told apart, but for the text of the exception. The
spurious failures of the compare-and-swap are a number that comes with the call.
The items of the original are market data; here they are of any type. The lock
that its constructor clears is declared nowhere, and left out.
-/

set_option autoImplicit false

namespace MpmcLogger.OriginalQueue
open CopiedCell RingIndex MachineWord MpmcLogger.QueueMachine MpmcLogger.QueueInvariant
open MpmcLogger.QueueRelation

variable {T : Type*}

structure OriginalSlot (T : Type*) where
  sequence : ℕ
  data : Option T

structure MpmcQueue (T : Type*) where
  consumers : ConsumerId → ConsumerInfo
  head : ℕ
  numConsumers : ℕ
  minTail : ℕ
  slots : ℕ → OriginalSlot T

def MpmcQueue.new : MpmcQueue T where
  consumers _ := ⟨0,false⟩
  head := 0
  numConsumers := 0
  minTail := 0
  slots _ := ⟨invalidPos,none⟩

def MpmcQueue.setConsumer (o : MpmcQueue T) (c : ConsumerId) (i : ConsumerInfo) : MpmcQueue T :=
  { o with consumers := Function.update o.consumers c i }

def scanRound (o : MpmcQueue T) (mini : ℕ) (c : ConsumerId) : ℕ :=
  if !(o.consumers c).active then mini else min mini (o.consumers c).tail

def computeMinTail (o : MpmcQueue T) : MpmcQueue T × ℕ :=
  let mini := (List.finRange maxConsumers).foldl (scanRound o) invalidPos
  let mini := if mini = invalidPos then 0 else mini
  ({ o with minTail := mini },mini)

def recomputeAndStoreMinTail (o : MpmcQueue T) : MpmcQueue T :=
  let r := computeMinTail o
  { r.1 with minTail := r.2 }

def check (S : RingSize) (o : MpmcQueue T) : MpmcQueue T × Bool :=
  if u64 (o.minTail+S.size) ≤ o.head then
    let r := computeMinTail o
    let p := if r.2 ≠ o.minTail then ({ r.1 with minTail := r.2 },r.2) else (r.1,o.minTail)
    (p.1,decide (u64 (p.2+S.size) ≤ o.head))
  else (o,false)

def enqueue (S : RingSize) (o : MpmcQueue T) (x : T) : MpmcQueue T :=
  { o with
    head := u64 (o.head+1)
    slots := Function.update o.slots (S.index o.head) ⟨o.head,some x⟩ }

def push (S : RingSize) (x : T) : ℕ → MpmcQueue T → MpmcQueue T × Bool
  | 0, o =>
    let r := check S o
    if r.2 then (r.1,false) else (enqueue S r.1 x,true)
  | spurious+1, o =>
    -- this compare-and-swap fails, and the loop begins again
    let r := check S o
    if r.2 then (r.1,false) else push S x spurious r.1

def pop (S : RingSize) (o : MpmcQueue T) (c : ConsumerId) : MpmcQueue T × Option (Option T) :=
  if !(o.consumers c).active then (o,none)
  else
    let tail := (o.consumers c).tail
    let s := o.slots (S.index tail)
    if s.sequence ≠ tail then (o,none)
    else (o.setConsumer c { o.consumers c with tail := u64 (tail+1) },some s.data)

def regConsumer (o : MpmcQueue T) : MpmcQueue T × Except String ConsumerId :=
  let p := { o with numConsumers := u32 (o.numConsumers+1) }
  if hi : o.numConsumers < maxConsumers then
    let c : ConsumerId := ⟨o.numConsumers,hi⟩
    let r := p.setConsumer c { p.consumers c with tail := p.head }
    (r.setConsumer c { r.consumers c with active := true },.ok c)
  else (p,.error "Too many consumers")

def delConsumer (o : MpmcQueue T) (c : ConsumerId) : MpmcQueue T :=
  o.setConsumer c { o.consumers c with active := false }

def perform (S : RingSize) (spurious : ℕ) (o : MpmcQueue T) : Op T → MpmcQueue T × Answer T
  | .push x => ((push S x spurious o).1,.pushed (push S x spurious o).2)
  | .pop c => ((pop S o c).1,match (pop S o c).2 with | some x => .popped x | none => .empty)
  | .registerConsumer =>
    ((regConsumer o).1,match (regConsumer o).2 with | .ok c => .registered c | .error _ => .threw)
  | .unregisterConsumer c => (delConsumer o c,.unregistered)
  | .recomputeAndStoreMinTail => (recomputeAndStoreMinTail o,.recomputed)

def runCalls (S : RingSize) (o : MpmcQueue T) : List (Op T × ℕ) → MpmcQueue T × List (Answer T)
  | [] => (o,[])
  | (op,spurious)::cs =>
    let r := perform S spurious o op
    let rest := runCalls S r.1 cs
    (rest.1,r.2::rest.2)

def content : Option T → Content ℕ T
  | none => .blank
  | some x => .whole x

structure Agree (q : Queue T) (o : MpmcQueue T) : Prop where
  consumers : q.consumers = o.consumers
  head : q.head = o.head
  numConsumers : q.numConsumers = o.numConsumers
  minTail : q.minTail = o.minTail
  sequence : ∀ i, (q.slots i).sequence = (o.slots i).sequence
  data : ∀ i, (q.slots i).data.content = content (o.slots i).data

variable {S : RingSize} {q : Queue T} {o : MpmcQueue T}

theorem read_content {cell : Cell ℕ T} {d : Option T} (h : cell.content = content d) :
    cell.read cell = d := by
  unfold Cell.read
  rw [if_pos rfl,h]
  cases d <;> rfl

section Scan

theorem foldl_scanRound (h : Agree q o) (cs : List ConsumerId) (m : Mins) :
    (cs.foldl (QueueCalls.look q) m).least = cs.foldl (scanRound o) m.least := by
  induction cs generalizing m with
  | nil => rfl
  | cons c cs ih =>
    rw [List.foldl_cons,List.foldl_cons,ih]
    congr 1
    unfold QueueCalls.look scanRound
    rw [h.consumers]
    cases (o.consumers c).active with
    | true => exact least_lower m c _
    | false => rfl

theorem computeMinTail_eq (h : Agree q o) :
    computeMinTail o = ({ o with minTail := QueueCalls.computeMinTail q },
      QueueCalls.computeMinTail q) := by
  have hmin := foldl_scanRound h (List.finRange maxConsumers) .start
  rw [least_start] at hmin
  simp only [computeMinTail,QueueCalls.computeMinTail,Mins.result,hmin]

end Scan

section Calls

theorem agree_minTail (h : Agree q o) (b : ℕ) :
    Agree { q with minTail := b } { o with minTail := b } :=
  ⟨h.consumers,h.head,h.numConsumers,rfl,h.sequence,h.data⟩

theorem agree_consumer (h : Agree q o) (c : ConsumerId) {i j : ConsumerInfo} (hij : i = j) :
    Agree (q.setConsumer c i) (o.setConsumer c j) := by
  refine ⟨?_,h.head,h.numConsumers,h.minTail,h.sequence,h.data⟩
  show Function.update q.consumers c i = Function.update o.consumers c j
  rw [h.consumers,hij]

/-- The check leaves the new minimum behind, wherever it was stored. -/
theorem check_full (h : Agree q o) (hfull : QueueCalls.Full S q) :
    check S o = ({ o with minTail := QueueCalls.computeMinTail q },
      decide (QueueCalls.Full S { q with minTail := QueueCalls.computeMinTail q })) := by
  have hfull : u64 (o.minTail+S.size) ≤ o.head := by
    rw [← h.minTail,← h.head]
    exact hfull
  rw [check,if_pos hfull,computeMinTail_eq h,← h.head]
  dsimp only
  split_ifs with hne
  · rfl
  · rw [← not_not.mp hne]
    rfl

theorem check_room (h : Agree q o) (hroom : ¬QueueCalls.Full S q) : check S o = (o,false) := by
  refine if_neg fun hfull => hroom ?_
  rw [← h.minTail,← h.head] at hfull
  exact hfull

theorem push_gives_up {p : MpmcQueue T} (h : check S o = (p,true)) (x : T) (k : ℕ) :
    push S x k o = (p,false) := by
  cases k <;> simp only [push,h,if_true]

theorem agree_enqueue (h : Agree q o) (x : T) :
    Agree (QueueCalls.enqueue S q x) (enqueue S o x) := by
  refine ⟨h.consumers,congrArg (fun n => u64 (n+1)) h.head,h.numConsumers,h.minTail,fun i => ?_,
    fun i => ?_⟩ <;>
  simp only [QueueCalls.enqueue,QueueCalls.deposit,setSlot_slots,enqueue,Function.update_apply,
    h.head]
  · split_ifs
    · rfl
    · exact h.sequence i
  · split_ifs
    · rfl
    · exact h.data i

theorem push_room (h : Agree q o) (hroom : ¬QueueCalls.Full S q) (x : T) (k : ℕ) :
    push S x k o = (enqueue S o x,true) := by
  induction k with
  | zero => simp [push,check_room h hroom]
  | succ k ih => simpa [push,check_room h hroom] using ih

theorem push_agree (h : Agree q o) (x : T) (k : ℕ) :
    (QueueCalls.push S q x).2 = (push S x k o).2 ∧
      Agree (QueueCalls.push S q x).1 (push S x k o).1 := by
  by_cases hfull : QueueCalls.Full S q
  · have hmin := agree_minTail h (QueueCalls.computeMinTail q)
    have hcheck := check_full h hfull
    rw [QueueCalls.push_full hfull,QueueCalls.pushChecked]
    split_ifs with hstill
    · rw [push_gives_up (hcheck.trans (by rw [decide_eq_true hstill]))]
      exact ⟨rfl,hmin⟩
    · rw [decide_eq_false hstill] at hcheck
      have hpush : push S x k o =
          (enqueue S { o with minTail := QueueCalls.computeMinTail q } x,true) := by
        cases k with
        | zero => simp [push,hcheck]
        | succ k => simpa [push,hcheck] using push_room hmin hstill x k
      rw [hpush]
      exact ⟨rfl,agree_enqueue hmin x⟩
  · rw [QueueCalls.push_room hfull,push_room h hfull]
    exact ⟨rfl,agree_enqueue h x⟩

theorem pop_agree (h : Agree q o) (c : ConsumerId) :
    (QueueCalls.pop S q c).2 = (pop S o c).2 ∧ Agree (QueueCalls.pop S q c).1 (pop S o c).1 := by
  unfold QueueCalls.pop QueueCalls.popAt pop
  dsimp only
  rw [h.consumers,h.sequence]
  by_cases hactive : (o.consumers c).active = true
  · have hpast : ¬(!(o.consumers c).active) = true := by simp [hactive]
    rw [if_pos hactive,if_neg hpast]
    by_cases hready : (o.slots (S.index (o.consumers c).tail)).sequence = (o.consumers c).tail
    · rw [if_pos hready,if_neg (not_not.mpr hready),read_content (h.data _)]
      exact ⟨rfl,agree_consumer h c rfl⟩
    · rw [if_neg hready,if_pos hready]
      exact ⟨rfl,h⟩
  · have hpast : (!(o.consumers c).active) = true := by simp [hactive]
    rw [if_neg hactive,if_pos hpast]
    exact ⟨rfl,h⟩

theorem register_agree (h : Agree q o) :
    Agree (QueueCalls.registerConsumer q).1 (regConsumer o).1 ∧
    ((∃ c, (QueueCalls.registerConsumer q).2 = .ok c ∧ (regConsumer o).2 = .ok c) ∨
      ∃ e e', (QueueCalls.registerConsumer q).2 = .error e ∧ (regConsumer o).2 = .error e') := by
  have hcount : Agree { q with numConsumers := u32 (q.numConsumers+1) }
      { o with numConsumers := u32 (o.numConsumers+1) } :=
    ⟨h.consumers,h.head,congrArg (fun n => u32 (n+1)) h.numConsumers,h.minTail,h.sequence,h.data⟩
  unfold QueueCalls.registerConsumer regConsumer
  dsimp only
  by_cases hi : q.numConsumers < maxConsumers
  · have hi' : o.numConsumers < maxConsumers := h.numConsumers ▸ hi
    have hc : (⟨q.numConsumers,hi⟩ : ConsumerId) = ⟨o.numConsumers,hi'⟩ := Fin.ext h.numConsumers
    rw [dif_pos hi,dif_pos hi',hc]
    refine ⟨?_,Or.inl ⟨_,rfl,rfl⟩⟩
    have htail := agree_consumer hcount ⟨o.numConsumers,hi'⟩
      (i := { q.consumers ⟨o.numConsumers,hi'⟩ with tail := q.head })
      (j := { o.consumers ⟨o.numConsumers,hi'⟩ with tail := o.head }) (by rw [h.consumers,h.head])
    exact agree_consumer htail _ (by rw [htail.consumers])
  · rw [dif_neg hi,dif_neg (h.numConsumers ▸ hi)]
    exact ⟨hcount,Or.inr ⟨_,_,rfl,rfl⟩⟩

theorem perform_agree (h : Agree q o) (op : Op T) (k : ℕ) :
    (QueueCalls.perform S q op).2 = (perform S k o op).2 ∧
      Agree (QueueCalls.perform S q op).1 (perform S k o op).1 := by
  cases op with
  | push x =>
    obtain ⟨hres,hq⟩ := push_agree (S := S) h x k
    exact ⟨congrArg Answer.pushed hres,hq⟩
  | pop c =>
    obtain ⟨hres,hq⟩ := pop_agree (S := S) h c
    refine ⟨?_,hq⟩
    rw [QueueCalls.perform,QueueCalls.popAnswer,perform]
    cases hp : (pop S o c).2 with
    | none => rw [hres,hp]
    | some x => rw [hres,hp]
  | registerConsumer =>
    obtain ⟨hq,⟨c,hc,hc'⟩ | ⟨e,e',he,he'⟩⟩ := register_agree h
    · refine ⟨?_,hq⟩
      simp only [QueueCalls.perform,QueueCalls.registerAnswer,perform,hc,hc']
    · refine ⟨?_,hq⟩
      simp only [QueueCalls.perform,QueueCalls.registerAnswer,perform,he,he']
  | unregisterConsumer c => exact ⟨rfl,agree_consumer h c (by rw [h.consumers])⟩
  | recomputeAndStoreMinTail =>
    refine ⟨rfl,?_⟩
    simp only [perform,recomputeAndStoreMinTail,computeMinTail_eq h]
    exact agree_minTail h _

theorem agree_new : Agree (.new : Queue T) .new where
  consumers := rfl
  head := rfl
  numConsumers := rfl
  minTail := rfl
  sequence _ := rfl
  data _ := rfl

/-- From agreeing queues on, any calls have the same answers and keep the agreement. -/
theorem runCalls_agree (h : Agree q o) (cs : List (Op T × ℕ)) :
    (QueueCalls.runCalls S q (cs.map Prod.fst)).2 = (runCalls S o cs).2 ∧
      Agree (QueueCalls.runCalls S q (cs.map Prod.fst)).1 (runCalls S o cs).1 := by
  induction cs generalizing q o with
  | nil => exact ⟨rfl,h⟩
  | cons c cs ih =>
    obtain ⟨op,k⟩ := c
    obtain ⟨hres,hq⟩ := perform_agree (S := S) h op k
    obtain ⟨hrest,hend⟩ := ih hq
    refine ⟨?_,hend⟩
    simp only [List.map_cons,QueueCalls.runCalls,runCalls,hres,hrest]

end Calls

/-- Any calls one after another have the same answers from both queues, and leave
the same head, tails, flags, cached minimum, sequences and items behind. -/
theorem original_simulated (S : RingSize) (cs : List (Op T × ℕ)) :
    (QueueCalls.runCalls S .new (cs.map Prod.fst)).2 = (runCalls S .new cs).2 ∧
      Agree (QueueCalls.runCalls S .new (cs.map Prod.fst)).1 (runCalls S .new cs).1 :=
  runCalls_agree agree_new cs

/-- So does the machine, one shared access at a time, whenever no call is in progress. -/
theorem steps_agree (S : RingSize) (c : Config T) (tr : List (Event T))
    (r : (machine T S).Run QueueCalls.NonOverlapping (Config.start 0) c tr)
    (idle : ∀ t, c.locals t = .idle) (cs : List (Op T × ℕ)) (h : cs.map Prod.fst = calls tr) :
    answers tr = (runCalls S .new cs).2 ∧ Agree c.shared (runCalls S .new cs).1 := by
  have hsame := runCalls_agree (S := S) agree_new cs
  rwa [h,QueueCalls.run_calls S c tr r idle] at hsame

end MpmcLogger.OriginalQueue
