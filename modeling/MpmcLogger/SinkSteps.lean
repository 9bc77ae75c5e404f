import MpmcLogger.SinkMachine
import Mathlib.Tactic

/-!
# The steps of the sink, inverted

Opening, mapping and writing are inverted once each, with the conditions of
every branch. The invariants of later modules use these and the field lemmas of
the operations, never the code of a write.
-/

set_option autoImplicit false

namespace MpmcLogger.SinkSteps
open MachineWord FileStore MpmcLogger.SinkMachine

variable {os : Os} {s t : State} {es : List Event} {data : Bytes}

@[simp] theorem unmap_fs (s : State) : s.unmapRegion.fs = s.fs := by
  unfold State.unmapRegion
  split <;> rfl

@[simp] theorem unmap_settings (s : State) : s.unmapRegion.settings = s.settings := by
  unfold State.unmapRegion
  split <;> rfl

@[simp] theorem unmap_fd (s : State) : s.unmapRegion.fd = s.fd := by
  unfold State.unmapRegion
  split <;> rfl

@[simp] theorem unmap_fileOffset (s : State) : s.unmapRegion.fileOffset = s.fileOffset := by
  unfold State.unmapRegion
  split <;> rfl

@[simp] theorem unmap_mmapPtr (s : State) : s.unmapRegion.mmapPtr = none := by
  unfold State.unmapRegion
  split
  · rfl
  · assumption

@[simp] theorem unmap_mmapOffset (s : State) : s.unmapRegion.mmapOffset = 0 := by
  unfold State.unmapRegion
  split <;> rfl

@[simp] theorem unmap_rotationCount (s : State) :
    s.unmapRegion.rotationCount = s.rotationCount := by
  unfold State.unmapRegion
  cases s.mmapPtr <;> rfl

@[simp] theorem unmap_total (s : State) :
    s.unmapRegion.totalBytesWritten = s.totalBytesWritten := by
  unfold State.unmapRegion
  cases s.mmapPtr <;> rfl

@[simp] theorem close_fs (s : State) : s.closeFile.fs = s.fs := rfl

@[simp] theorem close_settings (s : State) : s.closeFile.settings = s.settings := rfl

@[simp] theorem close_fd (s : State) : s.closeFile.fd = none := rfl

@[simp] theorem close_fileOffset (s : State) : s.closeFile.fileOffset = 0 := rfl

@[simp] theorem close_mmapPtr (s : State) : s.closeFile.mmapPtr = s.mmapPtr := rfl

@[simp] theorem close_mmapOffset (s : State) : s.closeFile.mmapOffset = s.mmapOffset := rfl

@[simp] theorem rotate_fs (os : Os) (s : State) :
    (s.rotateFiles os).fs = (rotateCalls s.settings).foldl os.perform s.fs := rfl

@[simp] theorem rotate_settings (os : Os) (s : State) :
    (s.rotateFiles os).settings = s.settings := rfl

@[simp] theorem rotate_fd (os : Os) (s : State) : (s.rotateFiles os).fd = s.fd := rfl

@[simp] theorem rotate_fileOffset (os : Os) (s : State) :
    (s.rotateFiles os).fileOffset = s.fileOffset := rfl

@[simp] theorem rotate_mmapPtr (os : Os) (s : State) :
    (s.rotateFiles os).mmapPtr = s.mmapPtr := rfl

@[simp] theorem rotate_mmapOffset (os : Os) (s : State) :
    (s.rotateFiles os).mmapOffset = s.mmapOffset := rfl

def rotated (os : Os) (s : State) : State := s.unmapRegion.closeFile.rotateFiles os

@[simp] theorem rotated_fs (os : Os) (s : State) :
    (rotated os s).fs = (rotateCalls s.settings).foldl os.perform s.fs := by
  simp [rotated]

@[simp] theorem rotated_settings (os : Os) (s : State) : (rotated os s).settings = s.settings := by
  simp [rotated]

@[simp] theorem rotated_mmapPtr (os : Os) (s : State) : (rotated os s).mmapPtr = none := by
  simp [rotated]

@[simp] theorem rotated_mmapOffset (os : Os) (s : State) : (rotated os s).mmapOffset = 0 := by
  simp [rotated]

@[simp] theorem rotated_rotationCount (os : Os) (s : State) :
    (rotated os s).rotationCount = u64 (s.rotationCount+1) := by
  show u64 (s.unmapRegion.rotationCount+1) = _
  rw [unmap_rotationCount]

@[simp] theorem rotated_total (os : Os) (s : State) :
    (rotated os s).totalBytesWritten = s.totalBytesWritten := by
  show s.unmapRegion.totalBytesWritten = _
  rw [unmap_total]

@[simp] theorem rotated_fd (os : Os) (s : State) : (rotated os s).fd = none := rfl

structure Opened (os : Os) (s : State) (i : ℕ) (t : State) (es : List Event) : Prop where
  permitted : os.openError = none
  created : t.fs = (s.fs.create s.settings.basePath).1
  number : i = (s.fs.create s.settings.basePath).2
  fd : t.fd = some i
  settings : t.settings = s.settings
  mmapPtr : t.mmapPtr = s.mmapPtr
  mmapOffset : t.mmapOffset = s.mmapOffset
  fileOffset : t.fileOffset = if os.fstatOk then (t.fs.files i).length else s.fileOffset
  rotationCount : t.rotationCount = s.rotationCount
  total : t.totalBytesWritten = s.totalBytesWritten
  events : es = [.opened i (t.fs.files i)]

theorem openFile_ok (h : s.openFile os = .ok (t,es)) : ∃ i, Opened os s i t es := by
  unfold State.openFile at h
  split at h
  · cases h
  · rename_i hopen
    refine ⟨_,hopen,?_,rfl,?_,?_,?_,?_,?_,?_,?_,?_⟩ <;> cases h <;>
      by_cases hf : os.fstatOk = true <;> simp [hf]

theorem openFile_permitted (s : State) (h : os.openError = none) :
    ∃ i t es, s.openFile os = .ok (t,es) ∧ Opened os s i t es := by
  have hok : ∃ r, s.openFile os = .ok r := by
    unfold State.openFile
    rw [h]
    exact ⟨_,rfl⟩
  obtain ⟨⟨t,es⟩,hr⟩ := hok
  obtain ⟨i,ho⟩ := openFile_ok hr
  exact ⟨i,t,es,hr,ho⟩

def newFileEnd (s : State) : ℕ := u64 (s.fileOffset+s.settings.regionSize)

def extended (s : State) (i : ℕ) : State :=
  { s with fs := s.fs.put i (resize (newFileEnd s) (s.fs.files i)) }

def mapped (s : State) (i : ℕ) : State :=
  { extended s i with
    maps := Function.update s.maps s.nextPtr (some ⟨i,s.fileOffset,s.settings.regionSize⟩)
    nextPtr := s.nextPtr+1
    mmapPtr := some s.nextPtr
    mmapOffset := 0 }

inductive MapStep (os : Os) (s : State) (i : ℕ) : State → Prop
  | notExtended (h : os.ftruncateOk (newFileEnd s) = false) : MapStep os s i s
  | notMapped (he : os.ftruncateOk (newFileEnd s) = true)
      (h : os.mmapOk s.settings.regionSize s.fileOffset = false) :
      MapStep os s i { extended s i with mmapPtr := none }
  | mapped (he : os.ftruncateOk (newFileEnd s) = true)
      (h : os.mmapOk s.settings.regionSize s.fileOffset = true) : MapStep os s i (mapped s i)

theorem mapRegion_eq (os : Os) {i : ℕ} (h : s.fd = some i) : s.mapRegion os =
    if os.ftruncateOk (newFileEnd s) = true then
      if os.mmapOk s.settings.regionSize s.fileOffset = true then mapped s i
      else { extended s i with mmapPtr := none }
    else s := by
  cases s
  obtain rfl := h
  rfl

theorem mapRegion_step (os : Os) {i : ℕ} (h : s.fd = some i) :
    MapStep os s i (s.mapRegion os) := by
  rw [mapRegion_eq os h]
  split_ifs with he hm
  · exact .mapped he hm
  · exact .notMapped he (by simpa using hm)
  · exact .notExtended (by simpa using he)

theorem mapRegion_cases {P : State → Prop} (os : Os) (s : State) (same : s.fd = none → P s)
    (step : ∀ i u, s.fd = some i → MapStep os s i u → P u) : P (s.mapRegion os) := by
  cases hfd : s.fd with
  | none =>
    have hs : s.mapRegion os = s := by
      unfold State.mapRegion
      rw [hfd]
    rw [hs]
    exact same hfd
  | some i => exact step i _ hfd (mapRegion_step os hfd)

@[simp] theorem mapRegion_fd (os : Os) (s : State) : (s.mapRegion os).fd = s.fd := by
  refine mapRegion_cases (P := fun u => u.fd = s.fd) os s (fun _ => rfl) fun i u hfd hstep => ?_
  cases hstep <;> rfl

@[simp] theorem mapRegion_settings (os : Os) (s : State) :
    (s.mapRegion os).settings = s.settings := by
  refine mapRegion_cases (P := fun u => u.settings = s.settings) os s (fun _ => rfl)
    fun i u _ hstep => ?_
  cases hstep <;> rfl

@[simp] theorem mapRegion_fileOffset (os : Os) (s : State) :
    (s.mapRegion os).fileOffset = s.fileOffset := by
  refine mapRegion_cases (P := fun u => u.fileOffset = s.fileOffset) os s (fun _ => rfl)
    fun i u _ hstep => ?_
  cases hstep <;> rfl

@[simp] theorem mapRegion_total (os : Os) (s : State) :
    (s.mapRegion os).totalBytesWritten = s.totalBytesWritten := by
  refine mapRegion_cases (P := fun u => u.totalBytesWritten = s.totalBytesWritten) os s
    (fun _ => rfl) fun i u _ hstep => ?_
  cases hstep <;> rfl

@[simp] theorem mapRegion_next (os : Os) (s : State) :
    (s.mapRegion os).fs.next = s.fs.next := by
  refine mapRegion_cases (P := fun u => u.fs.next = s.fs.next) os s (fun _ => rfl)
    fun i u _ hstep => ?_
  cases hstep <;> rfl

inductive PrepareStep (os : Os) (data : Bytes) (s : State) : Prepared → Prop
  | refused (h : data.length = 0 ∨ s.mmapPtr = none) : PrepareStep os data s (.refused s [])
  | fits (hd : data.length ≠ 0) (hp : s.mmapPtr ≠ none) (hf : ¬s.overflows data.length) :
      PrepareStep os data s (.ready s [])
  | stays (hd : data.length ≠ 0) (hp : s.mmapPtr ≠ none) (hf : s.overflows data.length)
      (hr : ¬s.rotates data.length) (hm : (s.unmapRegion.mapRegion os).mmapPtr ≠ none) :
      PrepareStep os data s (.ready (s.unmapRegion.mapRegion os) [])
  | unmapped (hd : data.length ≠ 0) (hp : s.mmapPtr ≠ none) (hf : s.overflows data.length)
      (hr : ¬s.rotates data.length) (hm : (s.unmapRegion.mapRegion os).mmapPtr = none) :
      PrepareStep os data s (.refused (s.unmapRegion.mapRegion os) [])
  | reopened (hd : data.length ≠ 0) (hp : s.mmapPtr ≠ none) (hf : s.overflows data.length)
      (hr : s.rotates data.length) {i : ℕ} {u : State} {es : List Event}
      (ho : Opened os (rotated os s) i u es) (hm : (u.mapRegion os).mmapPtr ≠ none) :
      PrepareStep os data s (.ready (u.mapRegion os) es)
  | unmappedAfter (hd : data.length ≠ 0) (hp : s.mmapPtr ≠ none) (hf : s.overflows data.length)
      (hr : s.rotates data.length) {i : ℕ} {u : State} {es : List Event}
      (ho : Opened os (rotated os s) i u es) (hm : (u.mapRegion os).mmapPtr = none) :
      PrepareStep os data s (.refused (u.mapRegion os) es)
  | terminated (hd : data.length ≠ 0) (hp : s.mmapPtr ≠ none) (hf : s.overflows data.length)
      (hr : s.rotates data.length) {what : String} (ho : os.openError = some what) :
      PrepareStep os data s (.terminated (openFailed s.settings.basePath what))

theorem rotates_unmap (len : ℕ) : s.unmapRegion.rotates len ↔ s.rotates len := by
  simp [State.rotates]

theorem turnover_stays (len : ℕ) (h : ¬s.rotates len) :
    s.turnover os len = .ok (s.unmapRegion.mapRegion os,[]) := by
  unfold State.turnover
  simp only [rotates_unmap,h,if_false]
  rfl

theorem turnover_rotates (len : ℕ) (h : s.rotates len) : s.turnover os len =
    ((rotated os s).openFile os).map fun r => (r.1.mapRegion os,r.2) := by
  unfold State.turnover
  simp only [rotates_unmap,h,if_true]
  rfl

theorem prepare_step (os : Os) (data : Bytes) (s : State) :
    PrepareStep os data s (s.prepare os data) := by
  unfold State.prepare
  by_cases h0 : data.length = 0 ∨ s.mmapPtr = none
  · rw [if_pos h0]
    exact .refused h0
  · rw [if_neg h0]
    obtain ⟨hd,hp⟩ := not_or.mp h0
    by_cases hf : s.overflows data.length
    · rw [if_pos hf]
      by_cases hr : s.rotates data.length
      · rw [turnover_rotates _ hr]
        cases ho : os.openError with
        | some what =>
          have he : (rotated os s).openFile os = .error (openFailed s.settings.basePath what) := by
            unfold State.openFile
            simp only [ho,rotated_settings]
          rw [he]
          exact .terminated hd hp hf hr ho
        | none =>
          obtain ⟨i,u,es,hu,hopened⟩ := openFile_permitted (rotated os s) ho
          rw [hu]
          simp only [Except.map]
          split_ifs with hm
          · exact .unmappedAfter hd hp hf hr hopened hm
          · exact .reopened hd hp hf hr hopened hm
      · rw [turnover_stays _ hr]
        simp only
        split_ifs with hm
        · exact .unmapped hd hp hf hr hm
        · exact .stays hd hp hf hr hm
    · rw [if_neg hf]
      exact .fits hd hp hf

def Prepared.arrived : Prepared → Option (State × List Event)
  | .refused t es | .ready t es => some (t,es)
  | .terminated _ => none

/-- A write arrives in its own state, in a new region, or in a new file. -/
theorem prepare_arrived (h : Prepared.arrived (s.prepare os data) = some (t,es)) :
    t = s ∧ es = [] ∨ t = s.unmapRegion.mapRegion os ∧ es = [] ∨
      ∃ i u, Opened os (rotated os s) i u es ∧ t = u.mapRegion os := by
  have hstep := prepare_step os data s
  generalize s.prepare os data = p at hstep h
  cases hstep with
  | refused _ =>
    cases h
    exact Or.inl ⟨rfl,rfl⟩
  | fits _ _ _ =>
    cases h
    exact Or.inl ⟨rfl,rfl⟩
  | stays _ _ _ _ _ =>
    cases h
    exact Or.inr (Or.inl ⟨rfl,rfl⟩)
  | unmapped _ _ _ _ _ =>
    cases h
    exact Or.inr (Or.inl ⟨rfl,rfl⟩)
  | reopened _ _ _ _ ho _ =>
    cases h
    exact Or.inr (Or.inr ⟨_,_,ho,rfl⟩)
  | unmappedAfter _ _ _ _ ho _ =>
    cases h
    exact Or.inr (Or.inr ⟨_,_,ho,rfl⟩)
  | terminated _ _ _ _ _ => cases h

theorem arrived_fits (hf : ¬s.overflows data.length)
    (ha : Prepared.arrived (s.prepare os data) = some (t,es)) : t = s := by
  have hstep := prepare_step os data s
  generalize s.prepare os data = p at hstep ha
  cases hstep with
  | refused _ =>
    cases ha
    rfl
  | fits _ _ _ =>
    cases ha
    rfl
  | stays _ _ h _ _ => exact absurd h hf
  | unmapped _ _ h _ _ => exact absurd h hf
  | reopened _ _ h _ _ _ => exact absurd h hf
  | unmappedAfter _ _ h _ _ _ => exact absurd h hf
  | terminated _ _ h _ _ => exact absurd h hf

def copied (data : Bytes) (s : State) (m : Mapping) : State :=
  { s with
    fs := s.fs.put m.file (patch (m.offset+s.mmapOffset) data (s.fs.files m.file))
    mmapOffset := u64 (s.mmapOffset+data.length)
    fileOffset := u64 (s.fileOffset+data.length)
    totalBytesWritten := u64 (s.totalBytesWritten+data.length) }

theorem memcpy_within {m : Mapping} (hm : s.mapping = some m)
    (hfit : s.mmapOffset+data.length ≤ m.length) :
    s.memcpy data es = .returned data.length (copied data s m) (es++[.stored data]) := by
  simp only [State.memcpy,hm,if_pos hfit]
  rfl

theorem memcpy_returned {n : ℕ} {fs : List Event} (h : s.memcpy data es = .returned n t fs) :
    ∃ m, s.mapping = some m ∧ s.mmapOffset+data.length ≤ m.length ∧ n = data.length ∧
      t = copied data s m ∧ fs = es++[.stored data] := by
  unfold State.memcpy at h
  split at h
  · cases h
  · rename_i m hm
    split_ifs at h with hfit
    cases h
    exact ⟨m,hm,hfit,rfl,rfl,rfl⟩

theorem write_returned {n : ℕ} (h : s.write os data = .returned n t es) :
    (s.prepare os data = .refused t es ∧ n = 0) ∨
    ∃ u fs m, s.prepare os data = .ready u fs ∧ u.mapping = some m ∧
      u.mmapOffset+data.length ≤ m.length ∧ n = data.length ∧ t = copied data u m ∧
      es = fs++[.stored data] := by
  unfold State.write at h
  cases hp : s.prepare os data with
  | refused u fs =>
    rw [hp] at h
    cases h
    exact Or.inl ⟨rfl,rfl⟩
  | ready u fs =>
    rw [hp] at h
    obtain ⟨m,hm⟩ := memcpy_returned h
    exact Or.inr ⟨u,fs,m,rfl,hm⟩
  | terminated what =>
    rw [hp] at h
    cases h

theorem construct_ok {g : Settings} {w : World} (h : construct g os w = .ok (t,es)) :
    ∃ i u, Opened os ⟨w,g,none,none,0,0,0,0⟩ i u es ∧ t = u.mapRegion os := by
  unfold construct at h
  cases hr : State.openFile os ⟨w,g,none,none,0,0,0,0⟩ with
  | error what =>
    rw [hr] at h
    cases h
  | ok r =>
    rw [hr] at h
    cases h
    obtain ⟨i,ho⟩ := openFile_ok hr
    exact ⟨i,r.1,ho,rfl⟩

theorem run_weaken {ok ok' : State → Call → ℕ → State → Prop} {tr : List Event}
    (hok : ∀ s c n t, ok s c n t → ok' s c n t) (r : Run ok s t tr) : Run ok' s t tr := by
  induction r with
  | start => exact .start
  | next r h g ih => exact ih.next h (hok _ _ _ _ g)

theorem trace_append (ws ws' : List Written) : trace (ws++ws') = trace ws++trace ws' :=
  List.flatMap_append

@[simp] theorem trace_one (w : Written) : trace [w] = w.events := List.append_nil _

theorem writes_run {ok : State → Call → ℕ → State → Prop} {ws : List Written}
    (r : Writes ok s ws t) : Run ok s t (trace ws) := by
  induction r with
  | start => exact .start
  | next r h g ih =>
    rw [trace_append,trace_one]
    exact ih.next h g

theorem writes_nil {ok : State → Call → ℕ → State → Prop} {ws : List Written}
    (r : Writes ok s ws t) (h : ws = []) : t = s := by
  cases r with
  | start => rfl
  | next _ _ _ => exact absurd h (by simp)

theorem writes_one {ok : State → Call → ℕ → State → Prop} {w : Written} (r : Writes ok s [w] t) :
    s.write w.call.os w.call.data = .returned w.result t w.events ∧ ok s w.call w.result t := by
  generalize hws : [w] = ws at r
  cases r with
  | start => cases hws
  | next r h g =>
    obtain ⟨hnil,hw⟩ := List.append_inj' ((List.nil_append [w]).trans hws) rfl
    obtain rfl := writes_nil r hnil.symm
    obtain rfl := List.singleton_inj.mp hw
    exact ⟨h,g⟩

def constructed (g : Settings) (os : Os) (w : World) : Option State :=
  match construct g os w with
  | .ok r => some r.1
  | .error _ => none

def Prepared.copying : Prepared → Option State
  | .ready t _ => some t
  | .refused .. | .terminated _ => none

def Result.after : Result → Option (ℕ × State)
  | .returned n t _ => some (n,t)
  | .fault | .terminated _ => none

theorem constructed_some {g : Settings} {w : World} (h : constructed g os w = some s) :
    ∃ es, construct g os w = .ok (s,es) := by
  unfold constructed at h
  cases hc : construct g os w with
  | error what => simp [hc] at h
  | ok r =>
    rw [hc] at h
    obtain rfl := Option.some.inj h
    exact ⟨r.2,rfl⟩

theorem copying_some {p : Prepared} (h : Prepared.copying p = some t) : ∃ es, p = .ready t es := by
  cases p with
  | ready u es =>
    obtain rfl := Option.some.inj h
    exact ⟨es,rfl⟩
  | _ => simp [Prepared.copying] at h

theorem after_some {r : Result} {n : ℕ} (h : Result.after r = some (n,t)) :
    ∃ es, r = .returned n t es := by
  cases r with
  | returned m u es =>
    obtain ⟨rfl,rfl⟩ := Prod.mk.inj (Option.some.inj h)
    exact ⟨es,rfl⟩
  | _ => simp [Result.after] at h

theorem built_some {g : Settings} {w : World} (h : (construct g os w).toOption = some (s,es)) :
    construct g os w = .ok (s,es) := by
  cases hc : construct g os w with
  | error what =>
    rw [hc] at h
    cases h
  | ok r =>
    rw [hc] at h
    cases h
    rfl

theorem writes_some {ok : State → Call → ℕ → State → Prop} {check : State → Call → Bool}
    {s₀ : State} {ws ws₀ : List Written} {cs : List Call}
    (hok : ∀ s c n t, c ∈ cs → check s c = true → ok s c n t) (r : Writes ok s₀ ws₀ s)
    (h : s.writes check cs = some (ws,t)) :
    Writes ok s₀ (ws₀++ws) t ∧ ws.map Written.call = cs := by
  induction cs generalizing s ws ws₀ with
  | nil =>
    obtain ⟨rfl,rfl⟩ := Prod.mk.inj (Option.some.inj h)
    exact ⟨by simpa using r,rfl⟩
  | cons c cs ih =>
    unfold State.writes at h
    split at h
    · rename_i n u es hw
      split_ifs at h with hc
      obtain ⟨⟨ws',t'⟩,hr,he⟩ := Option.map_eq_some_iff.mp h
      obtain ⟨rfl,rfl⟩ := Prod.mk.inj he
      obtain ⟨hall,hcalls⟩ := ih (fun s c n t hmem => hok s c n t (List.mem_cons_of_mem _ hmem))
        (r.next hw (hok s c n u List.mem_cons_self hc)) hr
      rw [List.append_assoc] at hall
      exact ⟨hall,congrArg (c::·) hcalls⟩
    · cases h
    · cases h

end MpmcLogger.SinkSteps
