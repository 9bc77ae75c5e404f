import MpmcLogger.QueueMachine
import MpmcLogger.Formatter

/-!
# The logger

Any thread may initialise the logger, push entries into its queue or shut it
down; one thread drains the queue into the sink. A step is one access to what
the threads share, those of the queue included. Pauses and yields leave no
trace. The sink is represented by the outcome of its construction and by the
writes it receives; its flush plays no part. A use of something that is not
there, or no longer, has no step.
-/

set_option autoImplicit false

namespace MpmcLogger.LoggerMachine
open Interleaving MachineWord MpmcLogger.QueueMachine MpmcLogger.EntryLayout MpmcLogger.Formatter

def queueSize : RingSize := ⟨⟨2^20,by decide,by decide⟩,by decide,by decide⟩

inductive OutputFormat where
  | binary
  | text
  deriving DecidableEq, Repr

structure LoggerConfig where
  outputFormat : OutputFormat := .binary
  minLevel : LogLevel := .trace
  drainBatchSize : ℕ := 256
  spinCountBeforeYield : ℕ := 1000

/-- A call of `init` with what its steps meet: the error of the sink's
constructor, and the memory of a new formatter. -/
structure InitCall where
  config : LoggerConfig
  sinkError : Option String
  datePrefix : DatePrefix

structure Logger where
  queue : Option (Queue LogEntry)
  consumerId : ConsumerId
  sink : Bool
  textFmt : Option TextFormatter
  outputFormat : OutputFormat
  drainSpawned : Bool
  drainEnded : Bool
  stop : Bool
  running : Bool
  initialized : Bool
  minLevel : LogLevel
  drainBatchSize : ℕ
  spinCountBeforeYield : ℕ
  entriesPushed : ℕ
  entriesDropped : ℕ
  entriesDrained : ℕ

inductive Phase where
  | batch (i : ℕ) (gotAny : Bool) (consecutiveEmpty : ℕ)
  | final
  deriving DecidableEq, Repr

/-- Where the drain thread stands in `drain_loop`. An entry copied while its
slot was written is `none`. -/
inductive DrainPc where
  | waiting
  | loop (consecutiveEmpty : ℕ)
  | batch (i : ℕ) (gotAny : Bool) (consecutiveEmpty : ℕ)
  | stragglers
  | pop (ph : Phase) (l : Local LogEntry)
  | count (ph : Phase) (item : Option LogEntry)
  | hand (ph : Phase) (item : Option LogEntry)
  | testStop (consecutiveEmpty : ℕ)
  | left

inductive InitPc where
  | test
  | storeLevel
  | storeConfig
  | createQueue
  | register (l : Local LogEntry)
  | createSink
  | createFormatter
  | storeRunning
  | spawn
  | storeInitialized

inductive ShutdownPc where
  | exchange
  | storeRunning
  | requestStop
  | join
  | unregister (l : Local LogEntry)
  | resetQueue
  | resetSink
  | resetFormatter

inductive Thread where
  | idle
  | pushTest (e : LogEntry)
  | push (l : Local LogEntry)
  | init (c : InitCall) (pc : InitPc)
  | shutdown (pc : ShutdownPc)
  | drain (pc : DrainPc)

inductive LoggerEvent where
  | queue (e : Event LogEntry)
  | refused (t : ℕ) (e : LogEntry)
  | created
  | destroyed
  | counted
  | sinkWrite (item : Option (LogEntry × Bytes))
  | initReturned (t : ℕ)
  | initThrew (t : ℕ) (what : String)
  | shutdownCalled (t : ℕ)
  | shutdownReturned (t : ℕ)

inductive LoggerMove where
  | push (e : LogEntry)
  | init (c : InitCall)
  | shutdown
  | go
  | spurious

def Logger.onQueue (S : RingSize) (t : ℕ) (m : Move LogEntry) (s : Logger) (l : Local LogEntry) :
    Option (Logger × Local LogEntry × List (Event LogEntry)) :=
  match s.queue with
  | none => none
  | some q => (act S t m q l).map fun r => ({ s with queue := some r.1 },r.2.1,r.2.2)

def leaveBatch (gotAny : Bool) (consecutiveEmpty : ℕ) : DrainPc :=
  if gotAny then .loop 0 else .testStop consecutiveEmpty

def Phase.popped : Phase → DrainPc
  | .batch i _ n => .batch (i+1) true n
  | .final => .stragglers

def Phase.missed : Phase → DrainPc
  | .batch _ gotAny n => leaveBatch gotAny n
  | .final => .left

def afterPop (ph : Phase) (l : Local LogEntry) (es : List (Event LogEntry)) : DrainPc :=
  match l, es with
  | .idle, [.popped _ _ item] => .count ph item
  | .idle, _ => ph.missed
  | l, _ => .pop ph l

def backoff (spinCount consecutiveEmpty : ℕ) : ℕ :=
  let n := u64 (consecutiveEmpty+1)
  if n < spinCount then n else spinCount

section Act

variable (S : RingSize) (date : ℕ → DatePrefix) (t : ℕ)

def Logger.format (s : Logger) (e : LogEntry) : Option (Option TextFormatter × Bytes) :=
  match s.outputFormat with
  | .binary => some (s.textFmt,BinaryFormatter.format e TextFormatter.maxFormattedSize)
  | .text => s.textFmt.map fun f =>
      let r := f.format date e TextFormatter.maxFormattedSize
      (some r.1,r.2)

def Logger.callPop (ph : Phase) (s : Logger) : Option (Logger × DrainPc × List LoggerEvent) :=
  (s.onQueue S t (.call (.pop s.consumerId)) .idle).map fun r =>
    (r.1,.pop ph r.2.1,r.2.2.map .queue)

def Logger.hand (ph : Phase) (s : Logger) :
    Option LogEntry → Option (Logger × DrainPc × List LoggerEvent)
  | none => some (s,ph.popped,[.sinkWrite none])
  | some e => (s.format date e).map fun r => ({ s with textFmt := r.1 },ph.popped,
      if 0 < r.2.length ∧ s.sink = true then [.sinkWrite (some (e,r.2))] else [])

def drainLoop (s : Logger) : DrainPc → Option (Logger × DrainPc × List LoggerEvent)
  | .waiting => if s.drainSpawned then some ({ s with drainSpawned := false },.loop 0,[]) else none
  | .loop n => some (s,.batch 0 false n,[])
  | .batch i gotAny n =>
    if i < s.drainBatchSize then s.callPop S t (.batch i gotAny n)
    else some (s,leaveBatch gotAny n,[])
  | .stragglers => s.callPop S t .final
  | .pop ph l =>
    (s.onQueue S t .go l).map fun r => (r.1,afterPop ph r.2.1 r.2.2,r.2.2.map .queue)
  | .count ph item =>
    some ({ s with entriesDrained := u64 (s.entriesDrained+1) },.hand ph item,[.counted])
  | .hand ph item => s.hand date ph item
  | .testStop n =>
    if s.stop then some (s,.stragglers,[])
    else some (s,.loop (backoff s.spinCountBeforeYield n),[])
  | .left => some ({ s with drainEnded := true },.waiting,[])

def Logger.dropQueue (s : Logger) : List LoggerEvent :=
  if s.queue.isSome then [.destroyed] else []

def afterRegister (c : InitCall) (s : Logger) (l : Local LogEntry) (es : List (Event LogEntry)) :
    Logger × Thread × List LoggerEvent :=
  match l, es with
  | .idle, [.registered _ d] =>
    ({ s with consumerId := d },.init c .createSink,es.map .queue)
  | .idle, [.ticket _ _,.threw _ what] => (s,.idle,es.map .queue++[.initThrew t what])
  | l, _ => (s,.init c (.register l),es.map .queue)

def init (c : InitCall) (s : Logger) : InitPc → Option (Logger × Thread × List LoggerEvent)
  | .test =>
    if s.initialized then some (s,.idle,[.initReturned t]) else some (s,.init c .storeLevel,[])
  | .storeLevel => some ({ s with minLevel := c.config.minLevel },.init c .storeConfig,[])
  | .storeConfig =>
    some ({ s with
      outputFormat := c.config.outputFormat
      drainBatchSize := c.config.drainBatchSize
      spinCountBeforeYield := c.config.spinCountBeforeYield },.init c .createQueue,[])
  | .createQueue =>
    some ({ s with queue := some .new },.init c (.register .registerFetchAdd),
      s.dropQueue++[.created,.queue (.called t .registerConsumer)])
  | .register l => (s.onQueue S t .go l).map fun r => afterRegister t c r.1 r.2.1 r.2.2
  | .createSink =>
    match c.sinkError with
    | some what => some (s,.idle,[.initThrew t what])
    | none => some ({ s with sink := true },.init c .createFormatter,[])
  | .createFormatter =>
    if s.outputFormat = .text then
      some ({ s with textFmt := some ⟨.fresh c.datePrefix⟩ },.init c .storeRunning,[])
    else some (s,.init c .storeRunning,[])
  | .storeRunning => some ({ s with running := true },.init c .spawn,[])
  | .spawn =>
    some ({ s with drainSpawned := true, drainEnded := false, stop := false },
      .init c .storeInitialized,[])
  | .storeInitialized => some ({ s with initialized := true },.idle,[.initReturned t])

def shutdown (s : Logger) : ShutdownPc → Option (Logger × Thread × List LoggerEvent)
  | .exchange =>
    if s.initialized then some ({ s with initialized := false },.shutdown .storeRunning,[])
    else some (s,.idle,[.shutdownReturned t])
  | .storeRunning => some ({ s with running := false },.shutdown .requestStop,[])
  | .requestStop => some ({ s with stop := true },.shutdown .join,[])
  | .join =>
    if s.drainEnded then
      (s.onQueue S t (.call (.unregisterConsumer s.consumerId)) .idle).map fun r =>
        (r.1,.shutdown (.unregister r.2.1),r.2.2.map .queue)
    else none
  | .unregister l =>
    (s.onQueue S t .go l).map fun r => (r.1,.shutdown .resetQueue,r.2.2.map .queue)
  | .resetQueue => some ({ s with queue := none },.shutdown .resetSink,s.dropQueue)
  | .resetSink => some ({ s with sink := false },.shutdown .resetFormatter,[])
  | .resetFormatter => some ({ s with textFmt := none },.idle,[.shutdownReturned t])

def pushing : Local LogEntry → Thread
  | .idle => .idle
  | l => .push l

def Logger.pushStep (m : Move LogEntry) (s : Logger) (l : Local LogEntry) :
    Option (Logger × Thread × List LoggerEvent) :=
  (s.onQueue S t m l).map fun r => (r.1,pushing r.2.1,r.2.2.map .queue)

def loggerAct : LoggerMove → Logger → Thread → Option (Logger × Thread × List LoggerEvent)
  | .push e, s, .idle => some (s,.pushTest e,[])
  | .init c, s, .idle => some (s,.init c .test,[])
  | .shutdown, s, .idle => some (s,.shutdown .exchange,[.shutdownCalled t])
  | .spurious, s, .push l => s.pushStep S t .spurious l
  | .go, s, .push l => s.pushStep S t .go l
  | .go, s, .pushTest e =>
    match s.queue with
    | none => some (s,.idle,[.refused t e])
    | some _ => s.pushStep S t (.call (.push e)) .idle
  | .go, s, .init c pc => init S t c s pc
  | .go, s, .shutdown pc => shutdown S t s pc
  | .go, s, .drain pc => (drainLoop S date t s pc).map fun r => (r.1,.drain r.2.1,r.2.2)
  | _, _, _ => none

end Act

def logger (S : RingSize) (date : ℕ → DatePrefix) :
    System ℕ LoggerMove Logger Thread LoggerEvent := ⟨loggerAct S date⟩

abbrev LoggerConf := Conf ℕ Logger Thread

def Logger.fresh : Logger where
  queue := none
  consumerId := 0
  sink := false
  textFmt := none
  outputFormat := .binary
  drainSpawned := false
  drainEnded := false
  stop := false
  running := false
  initialized := false
  minLevel := .trace
  drainBatchSize := 256
  spinCountBeforeYield := 1000
  entriesPushed := 0
  entriesDropped := 0
  entriesDrained := 0

def LoggerConf.start (d : ℕ) : LoggerConf where
  shared := .fresh
  -- thread `d` runs the drain loops, one after another
  locals t := if t = d then .drain .waiting else .idle

def Unguarded : Guard ℕ LoggerMove Logger Thread := fun _ _ _ => True

def Settled : Guard ℕ LoggerMove Logger Thread := fun _ _ m => ∀ c, m ≠ .init c

end MpmcLogger.LoggerMachine
