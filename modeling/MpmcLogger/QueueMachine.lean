import MpmcLogger.Interleaving
import MpmcLogger.CopiedCell
import MpmcLogger.RingIndex
import MpmcLogger.MachineWord

/-!
# The broadcast ring queue, one shared access at a time

Every atomic load, store and compare-and-swap of the queue is one step of the
calling thread; the copies into and out of a slot have a begin and an end.
Positions, tails and the cached minimum are 64-bit words, consumer tickets are
32-bit words. Prefetches and memory orders leave no trace in this model.
-/

set_option autoImplicit false

namespace MpmcLogger.QueueMachine
open Interleaving CopiedCell RingIndex MachineWord

variable {T : Type*}

def maxConsumers : ℕ := 32

instance : NeZero maxConsumers := ⟨by decide⟩

def invalidPos : ℕ := 2^64-1

structure RingSize extends Ring where
  meaningful : 16 ≤ size
  fits : size < 2^64

def ring16 : RingSize := ⟨⟨16,by decide,by decide⟩,by decide,by decide⟩

abbrev ConsumerId := Fin maxConsumers

structure Slot (T : Type*) where
  sequence : ℕ
  data : Cell ℕ T

structure ConsumerInfo where
  tail : ℕ
  active : Bool
  deriving DecidableEq, Repr

structure Queue (T : Type*) where
  consumers : ConsumerId → ConsumerInfo
  head : ℕ
  numConsumers : ℕ
  minTail : ℕ
  slots : ℕ → Slot T

def Queue.registered (n : ℕ) : Queue T where
  consumers c := ⟨0,decide (c.val < n)⟩
  head := 0
  numConsumers := n
  minTail := 0
  slots _ := ⟨invalidPos,Cell.empty⟩

def Queue.new : Queue T := Queue.registered 0

structure Mins where
  min0 : ℕ
  min1 : ℕ
  min2 : ℕ
  min3 : ℕ
  deriving DecidableEq, Repr

def Mins.start : Mins := ⟨invalidPos,invalidPos,invalidPos,invalidPos⟩

def Mins.lower (m : Mins) (i t : ℕ) : Mins :=
  match i % 4 with
  | 0 => { m with min0 := min m.min0 t }
  | 1 => { m with min1 := min m.min1 t }
  | 2 => { m with min2 := min m.min2 t }
  | _ => { m with min3 := min m.min3 t }

def Mins.least (m : Mins) : ℕ := min (min m.min0 m.min1) (min m.min2 m.min3)

def Mins.result (m : Mins) : ℕ := if m.least = invalidPos then 0 else m.least

inductive Op (T : Type*) where
  | push (item : T)
  | pop (c : ConsumerId)
  | registerConsumer
  | unregisterConsumer (c : ConsumerId)
  | recomputeAndStoreMinTail
  deriving DecidableEq, Repr

inductive Caller (T : Type*) where
  | push (item : T) (head minTail : ℕ)
  | recompute
  deriving DecidableEq, Repr

inductive Local (T : Type*) where
  | idle
  | pushLoadHead (item : T)
  | pushLoadMinTail (item : T) (head : ℕ)
  | scanActive (caller : Caller T) (i : ℕ) (mins : Mins)
  | scanTail (caller : Caller T) (c : ConsumerId) (mins : Mins)
  | storeMinTail (caller : Caller T) (newMin : ℕ)
  | pushCas (item : T) (head : ℕ)
  | pushCopyBegin (item : T) (head : ℕ)
  | pushCopyEnd (item : T) (head : ℕ)
  | pushPublish (item : T) (head : ℕ)
  | popLoadActive (c : ConsumerId)
  | popLoadTail (c : ConsumerId)
  | popLoadSequence (c : ConsumerId) (tail : ℕ)
  | popCopyBegin (c : ConsumerId) (tail : ℕ)
  | popCopyEnd (c : ConsumerId) (tail : ℕ) (before : Cell ℕ T)
  | popStoreTail (c : ConsumerId) (tail : ℕ) (item : Option T)
  | registerFetchAdd
  | registerLoadHead (c : ConsumerId)
  | registerStoreTail (c : ConsumerId) (head : ℕ)
  | registerStoreActive (c : ConsumerId)
  | unregisterStoreActive (c : ConsumerId)
  deriving DecidableEq, Repr

/-- What an observer of a run sees. `claimed` is the winning compare-and-swap,
`popped` carries the copied item, or nothing when the copy was torn. -/
inductive Event (T : Type*) where
  | called (t : ℕ) (op : Op T)
  | claimed (t pos : ℕ) (item : T)
  | casFailed (t : ℕ)
  | pushed (t pos : ℕ) (item : T)
  | rejected (t : ℕ) (item : T)
  | popped (t : ℕ) (c : ConsumerId) (item : Option T)
  | empty (t : ℕ) (c : ConsumerId)
  | ticket (t id : ℕ)
  | registered (t : ℕ) (c : ConsumerId)
  | threw (t : ℕ) (what : String)
  | unregistered (t : ℕ) (c : ConsumerId)
  | recomputed (t : ℕ)
  deriving DecidableEq, Repr

inductive Move (T : Type*) where
  | call (op : Op T)
  | go
  | spurious
  deriving DecidableEq, Repr

def tooManyConsumers : String := "MPMCQueue: too many consumers (max 32)"

def Op.entry : Op T → Local T
  | .push x => .pushLoadHead x
  | .pop c => .popLoadActive c
  | .registerConsumer => .registerFetchAdd
  | .unregisterConsumer c => .unregisterStoreActive c
  | .recomputeAndStoreMinTail => .scanActive .recompute 0 .start

def Queue.setConsumer (q : Queue T) (c : ConsumerId) (i : ConsumerInfo) : Queue T :=
  { q with consumers := Function.update q.consumers c i }

def Queue.setSlot (q : Queue T) (i : ℕ) (s : Slot T) : Queue T :=
  { q with slots := Function.update q.slots i s }

@[simp] theorem setConsumer_consumers (q : Queue T) (c d : ConsumerId) (i : ConsumerInfo) :
    (q.setConsumer c i).consumers d = if d = c then i else q.consumers d :=
  Function.update_apply _ _ _ _

theorem setFlag_tail (q : Queue T) (c d : ConsumerId) (b : Bool) :
    ((q.setConsumer c { q.consumers c with active := b }).consumers d).tail =
      (q.consumers d).tail := by
  by_cases hd : d = c <;> simp [hd]

@[simp] theorem setConsumer_head (q : Queue T) (c : ConsumerId) (i : ConsumerInfo) :
    (q.setConsumer c i).head = q.head := rfl

@[simp] theorem setConsumer_minTail (q : Queue T) (c : ConsumerId) (i : ConsumerInfo) :
    (q.setConsumer c i).minTail = q.minTail := rfl

@[simp] theorem setConsumer_numConsumers (q : Queue T) (c : ConsumerId) (i : ConsumerInfo) :
    (q.setConsumer c i).numConsumers = q.numConsumers := rfl

@[simp] theorem setConsumer_slots (q : Queue T) (c : ConsumerId) (i : ConsumerInfo) :
    (q.setConsumer c i).slots = q.slots := rfl

@[simp] theorem setSlot_slots (q : Queue T) (i k : ℕ) (s : Slot T) :
    (q.setSlot i s).slots k = if k = i then s else q.slots k :=
  Function.update_apply _ _ _ _

theorem setData_sequence (q : Queue T) (i j : ℕ) (d : Cell ℕ T) :
    ((q.setSlot i { q.slots i with data := d }).slots j).sequence = (q.slots j).sequence := by
  by_cases hj : j = i <;> simp [hj]

@[simp] theorem setSlot_consumers (q : Queue T) (i : ℕ) (s : Slot T) :
    (q.setSlot i s).consumers = q.consumers := rfl

@[simp] theorem setSlot_head (q : Queue T) (i : ℕ) (s : Slot T) :
    (q.setSlot i s).head = q.head := rfl

@[simp] theorem setSlot_minTail (q : Queue T) (i : ℕ) (s : Slot T) :
    (q.setSlot i s).minTail = q.minTail := rfl

@[simp] theorem setSlot_numConsumers (q : Queue T) (i : ℕ) (s : Slot T) :
    (q.setSlot i s).numConsumers = q.numConsumers := rfl

def fullCheck (S : RingSize) (t : ℕ) (x : T) (head minTail : ℕ) : Local T × List (Event T) :=
  if u64 (minTail+S.size) ≤ head then (.idle,[.rejected t x]) else (.pushCas x head,[])

def afterScan (S : RingSize) (t : ℕ) (m : Mins) : Caller T → Local T × List (Event T)
  | .push x head minTail =>
      if m.result ≠ minTail then (.storeMinTail (.push x head minTail) m.result,[])
      else fullCheck S t x head minTail
  | .recompute => (.storeMinTail .recompute m.result,[])

def afterStore (S : RingSize) (t : ℕ) (newMin : ℕ) : Caller T → Local T × List (Event T)
  | .push x head _ => fullCheck S t x head newMin
  | .recompute => (.idle,[.recomputed t])

def advance (S : RingSize) (t : ℕ) (q : Queue T) : Local T →
    Option (Queue T × Local T × List (Event T))
  | .idle => none
  | .pushLoadHead x => some (q,.pushLoadMinTail x q.head,[])
  | .pushLoadMinTail x head =>
      if u64 (q.minTail+S.size) ≤ head then
        some (q,.scanActive (.push x head q.minTail) 0 .start,[])
      else some (q,.pushCas x head,[])
  | .scanActive k i m =>
      if hi : i < maxConsumers then
        if (q.consumers ⟨i,hi⟩).active then some (q,.scanTail k ⟨i,hi⟩ m,[])
        else some (q,.scanActive k (i+1) m,[])
      else some (q,afterScan S t m k)
  | .scanTail k c m => some (q,.scanActive k (c+1) (m.lower c (q.consumers c).tail),[])
  | .storeMinTail k newMin => some ({ q with minTail := newMin },afterStore S t newMin k)
  | .pushCas x head =>
      if q.head = head then
        some ({ q with head := u64 (head+1) },.pushCopyBegin x head,[.claimed t head x])
      else some (q,.pushLoadHead x,[.casFailed t])
  | .pushCopyBegin x head =>
      let s := q.slots (S.index head)
      some (q.setSlot (S.index head) { s with data := s.data.beginWrite t },
        .pushCopyEnd x head,[])
  | .pushCopyEnd x head =>
      let s := q.slots (S.index head)
      some (q.setSlot (S.index head) { s with data := s.data.endWrite t x },
        .pushPublish x head,[])
  | .pushPublish x head =>
      let s := q.slots (S.index head)
      some (q.setSlot (S.index head) { s with sequence := head },.idle,[.pushed t head x])
  | .popLoadActive c =>
      if (q.consumers c).active then some (q,.popLoadTail c,[]) else some (q,.idle,[.empty t c])
  | .popLoadTail c => some (q,.popLoadSequence c (q.consumers c).tail,[])
  | .popLoadSequence c tail =>
      if (q.slots (S.index tail)).sequence = tail then some (q,.popCopyBegin c tail,[])
      else some (q,.idle,[.empty t c])
  | .popCopyBegin c tail => some (q,.popCopyEnd c tail (q.slots (S.index tail)).data,[])
  | .popCopyEnd c tail before =>
      some (q,.popStoreTail c tail (before.read (q.slots (S.index tail)).data),[])
  | .popStoreTail c tail x =>
      some (q.setConsumer c { q.consumers c with tail := u64 (tail+1) },.idle,[.popped t c x])
  | .registerFetchAdd =>
      if hi : q.numConsumers < maxConsumers then
        some ({ q with numConsumers := u32 (q.numConsumers+1) },
          .registerLoadHead ⟨q.numConsumers,hi⟩,[.ticket t q.numConsumers])
      else some ({ q with numConsumers := u32 (q.numConsumers+1) },.idle,
        [.ticket t q.numConsumers,.threw t tooManyConsumers])
  | .registerLoadHead c => some (q,.registerStoreTail c q.head,[])
  | .registerStoreTail c head =>
      some (q.setConsumer c { q.consumers c with tail := head },.registerStoreActive c,[])
  | .registerStoreActive c =>
      some (q.setConsumer c { q.consumers c with active := true },.idle,[.registered t c])
  | .unregisterStoreActive c =>
      some (q.setConsumer c { q.consumers c with active := false },.idle,[.unregistered t c])

/-- An idle thread may call an operation; `compare_exchange_weak` may also fail
without reason. -/
def act (S : RingSize) (t : ℕ) : Move T → Queue T → Local T →
    Option (Queue T × Local T × List (Event T))
  | .call op, q, .idle => some (q,op.entry,[.called t op])
  | .spurious, q, .pushCas x _ => some (q,.pushLoadHead x,[.casFailed t])
  | .go, q, l => advance S t q l
  | _, _, _ => none

def machine (T : Type*) (S : RingSize) : System ℕ (Move T) (Queue T) (Local T) (Event T) :=
  ⟨act S⟩

abbrev Config (T : Type*) := Conf ℕ (Queue T) (Local T)

def Config.start (n : ℕ) : Config T := ⟨Queue.registered n,fun _ => .idle⟩

def callAlone (t : ℕ) (op : Op T) (k : ℕ) : List (ℕ × Move T) :=
  (t,.call op)::List.replicate k (t,.go)

end MpmcLogger.QueueMachine
