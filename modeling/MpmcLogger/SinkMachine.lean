import MpmcLogger.MachineWord
import MpmcLogger.FileStore

/-!
# The memory-mapped sink

A sink writes by copying into a mapped region at the end of its file; when the
region is full it unmaps it, rotates the file if that has grown too large, and
maps the next region. The outcome of every call into the operating system is a
parameter of the operation that makes it. A copy that would leave the mapping
is a fault, an exception that reaches `noexcept` terminates the process; both
end a run. Creating the parent directories, `msync`, `madvise` and the closing
of descriptors change no file content and are left out.
-/

set_option autoImplicit false

namespace MpmcLogger.SinkMachine
open MachineWord FileStore

structure Settings where
  basePath : String
  regionSize : ℕ
  maxFileSize : ℕ
  maxRotated : ℕ
  region_fits : regionSize < 2^64
  file_fits : maxFileSize < 2^64
  rotated_fits : maxRotated < 2^64

structure Mapping where
  file : ℕ
  offset : ℕ
  length : ℕ

structure World where
  fs : Store String UInt8
  maps : ℕ → Option Mapping
  nextPtr : ℕ

def World.empty : World := ⟨.empty,fun _ => none,0⟩

structure State extends World where
  settings : Settings
  fd : Option ℕ
  mmapPtr : Option ℕ
  mmapOffset : ℕ
  fileOffset : ℕ
  totalBytesWritten : ℕ
  rotationCount : ℕ

inductive FsCall where
  | unlink (path : String)
  | rename (source target : String)
  deriving DecidableEq, Repr

/-- The outcomes of the system calls inside one operation: a failing `open`
carries the text of its error, `ftruncate` depends on the new length, `mmap` on
length and offset. -/
structure Os where
  openError : Option String
  fstatOk : Bool
  ftruncateOk : ℕ → Bool
  mmapOk : ℕ → ℕ → Bool
  moveOk : FsCall → Bool

def Os.succeeds : Os := ⟨none,true,fun _ => true,fun _ _ => true,fun _ => true⟩

/-- Every call succeeds but a mapping of nothing or off the page boundary. -/
def pageOs (P : ℕ) : Os := { Os.succeeds with mmapOk := fun len off => decide (0 < len ∧ P ∣ off) }

inductive Event where
  | opened (file : ℕ) (before : Bytes)
  | stored (data : Bytes)
  deriving DecidableEq, Repr

def FsCall.run : FsCall → Store String UInt8 → Store String UInt8
  | .unlink p, fs => fs.unlink p
  | .rename p q, fs => fs.rename p q

def Os.perform (os : Os) (fs : Store String UInt8) (c : FsCall) : Store String UInt8 :=
  if os.moveOk c then c.run fs else fs

def rotatedName (base : String) (i : ℕ) : String := base++"."++toString i

def shiftCalls (base : String) : ℕ → List FsCall
  | 0 => []
  | i+1 => .rename (rotatedName base (i+1)) (rotatedName base (u64 (i+2)))::shiftCalls base i

def rotateCalls (g : Settings) : List FsCall :=
  -- the counter starts at `max_rotated_ - 1` in the arithmetic of `size_t`
  .unlink (rotatedName g.basePath g.maxRotated)::
    (shiftCalls g.basePath (sub64 g.maxRotated 1)++
      [.rename g.basePath (rotatedName g.basePath 1)])

def openFailed (path what : String) : String := "MMapSink: failed to open "++path++": "++what

def State.openFile (os : Os) (s : State) : Except String (State × List Event) :=
  match os.openError with
  | some what => .error (openFailed s.settings.basePath what)
  | none =>
    let r := s.fs.create s.settings.basePath
    let t := { s with fs := r.1, fd := some r.2 }
    .ok (if os.fstatOk then { t with fileOffset := (r.1.files r.2).length } else t,
      [.opened r.2 (r.1.files r.2)])

def State.closeFile (s : State) : State := { s with fd := none, fileOffset := 0 }

def State.mapRegion (os : Os) (s : State) : State :=
  match s.fd with
  | none => s
  | some i =>
    let newFileEnd := u64 (s.fileOffset+s.settings.regionSize)
    if os.ftruncateOk newFileEnd then
      let t := { s with fs := s.fs.put i (resize newFileEnd (s.fs.files i)) }
      if os.mmapOk s.settings.regionSize s.fileOffset then
        { t with
          maps := Function.update s.maps s.nextPtr
            (some ⟨i,s.fileOffset,s.settings.regionSize⟩)
          nextPtr := s.nextPtr+1
          mmapPtr := some s.nextPtr
          mmapOffset := 0 }
      else { t with mmapPtr := none }
    else s

def State.unmapRegion (s : State) : State :=
  match s.mmapPtr with
  | some p => { s with maps := Function.update s.maps p none, mmapPtr := none, mmapOffset := 0 }
  | none => { s with mmapOffset := 0 }

def State.rotateFiles (os : Os) (s : State) : State :=
  { s with
    rotationCount := u64 (s.rotationCount+1)
    fs := (rotateCalls s.settings).foldl os.perform s.fs }

def State.rotates (s : State) (len : ℕ) : Prop :=
  s.settings.maxFileSize < u64 (s.fileOffset+len)

instance (s : State) (len : ℕ) : Decidable (s.rotates len) :=
  inferInstanceAs (Decidable (_ < _))

def State.turnover (os : Os) (len : ℕ) (s : State) : Except String (State × List Event) :=
  let t := s.unmapRegion
  if t.rotates len then do
    let r ← (t.closeFile.rotateFiles os).openFile os
    return (r.1.mapRegion os,r.2)
  else return (t.mapRegion os,[])

inductive Prepared where
  | refused (s : State) (es : List Event)
  | ready (s : State) (es : List Event)
  | terminated (what : String)

def State.overflows (s : State) (len : ℕ) : Prop :=
  s.settings.regionSize < u64 (s.mmapOffset+len)

instance (s : State) (len : ℕ) : Decidable (s.overflows len) :=
  inferInstanceAs (Decidable (_ < _))

def State.prepare (os : Os) (data : Bytes) (s : State) : Prepared :=
  if data.length = 0 ∨ s.mmapPtr = none then .refused s []
  else if s.overflows data.length then
    match s.turnover os data.length with
    | .error what => .terminated what
    | .ok (t,es) => if t.mmapPtr = none then .refused t es else .ready t es
  else .ready s []

def State.mapping (s : State) : Option Mapping := s.mmapPtr.bind s.maps

inductive Result where
  | returned (n : ℕ) (s : State) (es : List Event)
  | fault
  | terminated (what : String)

def State.memcpy (data : Bytes) (s : State) (es : List Event) : Result :=
  match s.mapping with
  | none => .fault
  | some m =>
    if s.mmapOffset+data.length ≤ m.length then
      .returned data.length
        { s with
          fs := s.fs.put m.file (patch (m.offset+s.mmapOffset) data (s.fs.files m.file))
          mmapOffset := u64 (s.mmapOffset+data.length)
          fileOffset := u64 (s.fileOffset+data.length)
          totalBytesWritten := u64 (s.totalBytesWritten+data.length) }
        (es++[.stored data])
    else .fault

def State.write (os : Os) (data : Bytes) (s : State) : Result :=
  match s.prepare os data with
  | .refused t es => .returned 0 t es
  | .ready t es => t.memcpy data es
  | .terminated what => .terminated what

def construct (g : Settings) (os : Os) (w : World) : Except String (State × List Event) := do
  -- the parent directories are there already
  let r ← State.openFile os ⟨w,g,none,none,0,0,0,0⟩
  return (r.1.mapRegion os,r.2)

def State.destroy (s : State) : World := s.unmapRegion.closeFile.toWorld

structure Call where
  os : Os
  data : Bytes

inductive Run (ok : State → Call → ℕ → State → Prop) (s₀ : State) : State → List Event → Prop
  | start : Run ok s₀ s₀ []
  | next {s s' : State} {c : Call} {n : ℕ} {tr es : List Event} (r : Run ok s₀ s tr)
      (h : s.write c.os c.data = .returned n s' es) (g : ok s c n s') : Run ok s₀ s' (tr++es)

structure Written where
  call : Call
  result : ℕ
  events : List Event

inductive Writes (ok : State → Call → ℕ → State → Prop) (s₀ : State) : List Written → State → Prop
  | start : Writes ok s₀ [] s₀
  | next {s s' : State} {c : Call} {n : ℕ} {ws : List Written} {es : List Event}
      (r : Writes ok s₀ ws s) (h : s.write c.os c.data = .returned n s' es) (g : ok s c n s') :
      Writes ok s₀ (ws++[⟨c,n,es⟩]) s'

def trace (ws : List Written) : List Event := ws.flatMap Written.events

def State.writes (check : State → Call → Bool) : State → List Call → Option (List Written × State)
  | s, [] => some ([],s)
  | s, c::cs =>
    match s.write c.os c.data with
    | .returned n t es =>
      if check s c then (t.writes check cs).map fun r => (⟨c,n,es⟩::r.1,r.2) else none
    | .fault | .terminated _ => none

end MpmcLogger.SinkMachine
