import MpmcLogger.SinkBounds

/-!
# File generations

A generation begins when the sink opens its file and ends at the rotation that
closes it. The current file holds what it held when opened, then the records of
its generation, then zeros up to the end of the mapped region. A beginning of a
file is secure when the sink writes only behind it; every operation keeps what
is secure, whichever of its system calls fail.
-/

set_option autoImplicit false

namespace MpmcLogger.SinkGenerations
open MachineWord FileStore MpmcLogger.SinkMachine MpmcLogger.SinkSteps MpmcLogger.SinkBounds

structure Generation where
  file : ℕ
  before : Bytes
  records : List Bytes
  deriving BEq, ReflBEq, LawfulBEq

def Generation.bytes (g : Generation) : Bytes := g.before++g.records.flatten

def record : List Generation → Event → List Generation
  | gs, .opened i before => ⟨i,before,[]⟩::gs
  | [], .stored _ => []
  | g::gs, .stored data => { g with records := g.records++[data] }::gs

def generations (tr : List Event) : List Generation := tr.foldl record []

variable {os : Os} {s t : State} {es tr : List Event} {data body : Bytes} {i j k : ℕ}

theorem generations_append (tr es : List Event) :
    generations (tr++es) = es.foldl record (generations tr) := List.foldl_append

def opening : List Generation → Event → List Generation
  | gs, .opened i before => ⟨i,before,[]⟩::gs
  | gs, .stored _ => gs

def logged (gs : List Generation) (w : Written) : List Generation :=
  match w.events.foldl opening gs with
  | [] => []
  | g::gs =>
    if w.result = w.call.data.length then
      { g with records := g.records++[w.call.data] }::gs
    else g::gs

/-- The generations by the calls made and the values they returned; `es` is what
the constructor opened. -/
def history (es : List Event) (ws : List Written) : List Generation :=
  ws.foldl logged (es.foldl opening [])

def Generation.compact (g : Generation) : Generation :=
  -- data of length zero is accepted by returning zero
  { g with records := g.records.filter fun r => !r.isEmpty }

@[simp] theorem compact_file (g : Generation) : g.compact.file = g.file := rfl

@[simp] theorem compact_before (g : Generation) : g.compact.before = g.before := rfl

@[simp] theorem compact_flatten (g : Generation) : g.compact.records.flatten = g.records.flatten :=
  List.flatten_filter_not_isEmpty

@[simp] theorem compact_bytes (g : Generation) : g.compact.bytes = g.bytes := by
  simp [Generation.bytes]

section History

variable {ok : State → Call → ℕ → State → Prop} {ws : List Written} {c : Call} {n : ℕ}

theorem history_append (es : List Event) (ws : List Written) (w : Written) :
    history es (ws++[w]) = logged (history es ws) w := List.foldl_append

theorem arrived_events (h : Prepared.arrived (s.prepare os data) = some (t,es)) :
    es = [] ∨ ∃ i before, es = [.opened i before] := by
  rcases prepare_arrived h with ⟨-,rfl⟩ | ⟨-,rfl⟩ | ⟨i,u,ho,-⟩
  · exact Or.inl rfl
  · exact Or.inl rfl
  · exact Or.inr ⟨_,_,ho.events⟩

theorem opened_compact (h : es = [] ∨ ∃ i before, es = [.opened i before])
    (gs : List Generation) :
    es.foldl record (gs.map Generation.compact) = (es.foldl opening gs).map Generation.compact := by
  rcases h with rfl | ⟨i,before,rfl⟩
  · rfl
  · cases gs <;> rfl

/-- What a write returns decides what is seen stored: its data, if that is not empty. -/
theorem write_compact (h : s.write c.os c.data = .returned n t es) (gs : List Generation) :
    es.foldl record (gs.map Generation.compact) =
      (logged gs ⟨c,n,es⟩).map Generation.compact := by
  rcases write_returned h with ⟨hr,rfl⟩ | ⟨u,fs,m,hr,-,-,rfl,-,rfl⟩
  · have harr : Prepared.arrived (s.prepare c.os c.data) = some (t,es) := by rw [hr]; rfl
    rw [opened_compact (arrived_events harr)]
    unfold logged
    cases es.foldl opening gs with
    | nil => rfl
    | cons g gs =>
      by_cases h0 : 0 = c.data.length
      · have hnil : c.data = [] := List.length_eq_zero_iff.mp h0.symm
        simp [hnil,Generation.compact]
      · simp [h0]
  · have harr : Prepared.arrived (s.prepare c.os c.data) = some (u,fs) := by rw [hr]; rfl
    have hne : c.data ≠ [] := by
      have hstep := prepare_step c.os c.data s
      rw [hr] at hstep
      cases hstep <;> exact List.ne_nil_of_length_pos (by omega)
    have hopening : (fs++[Event.stored c.data]).foldl opening gs = fs.foldl opening gs :=
      List.foldl_append
    rw [List.foldl_append,opened_compact (arrived_events harr)]
    simp only [logged,hopening]
    cases fs.foldl opening gs with
    | nil => rfl
    | cons g gs => simp [record,Generation.compact,hne]

theorem history_compact {g : Settings} {w : World} (h : construct g os w = .ok (s,es))
    (r : Writes ok s ws t) :
    generations (es++trace ws) = (history es ws).map Generation.compact := by
  induction r with
  | start =>
    obtain ⟨i,u,ho,-⟩ := construct_ok h
    rw [trace,List.flatMap_nil,List.append_nil,ho.events]
    rfl
  | @next s s' c n ws es' r hw _ ih =>
    rw [trace_append,trace_one,← List.append_assoc,generations_append,ih,history_append]
    exact write_compact hw _

theorem opening_records (es : List Event) {gs : List Generation} {d : Generation} {r : Bytes}
    (hd : d ∈ es.foldl opening gs) (hr : r ∈ d.records) : ∃ e ∈ gs, r ∈ e.records := by
  induction es generalizing gs with
  | nil => exact ⟨d,hd,hr⟩
  | cons ev es ih =>
    obtain ⟨e,he,hr⟩ := ih hd
    cases ev with
    | opened i before =>
      rcases List.mem_cons.mp he with rfl | he
      · cases hr
      · exact ⟨e,he,hr⟩
    | stored data => exact ⟨e,he,hr⟩

theorem logged_records {gs : List Generation} {w : Written} {d : Generation} {r : Bytes}
    (hd : d ∈ logged gs w) (hr : r ∈ d.records) :
    (∃ e ∈ gs, r ∈ e.records) ∨ w.call.data = r ∧ w.result = r.length := by
  unfold logged at hd
  split at hd
  · cases hd
  · next e es hes =>
    have hold : ∀ d' ∈ e::es, r ∈ d'.records → ∃ e ∈ gs, r ∈ e.records := fun d' hd' hr' =>
      opening_records w.events (by rwa [hes]) hr'
    split_ifs at hd with hn
    · rcases List.mem_cons.mp hd with rfl | hd
      · rcases List.mem_append.mp hr with hr | hr
        · exact Or.inl (hold e List.mem_cons_self hr)
        · obtain rfl := List.mem_singleton.mp hr
          exact Or.inr ⟨rfl,hn⟩
      · exact Or.inl (hold d (List.mem_cons_of_mem _ hd) hr)
    · exact Or.inl (hold d hd hr)

end History

structure Laid (s : State) (i : ℕ) (body : Bytes) (k : ℕ) : Prop where
  fd : s.fd = some i
  content : s.fs.files i = body++List.replicate k 0
  position : s.fileOffset = body.length
  live : ∀ m, s.mapping = some m →
    m.file = i ∧ m.offset+s.mmapOffset = s.fileOffset ∧ s.mmapOffset+k = m.length

structure Secure (s : State) (j : ℕ) (p : Bytes) : Prop where
  created : j < s.fs.next
  kept : p <+: s.fs.files j
  behind : s.fd = some j → p.length ≤ s.fileOffset

def Roomy (s : State) : Prop := s.fileOffset+s.settings.regionSize < 2^64

instance decidableRoomy (s : State) : Decidable (Roomy s) := inferInstanceAs (Decidable (_ < _))

section Operations

@[simp] theorem unmap_mapping (s : State) : s.unmapRegion.mapping = none := by
  simp [State.mapping]

theorem unmapped_mapping (h : s.mmapPtr = none) : s.mapping = none := by
  simp [State.mapping,h]

theorem laid_unmap (h : Laid s i body k) : Laid s.unmapRegion i body k :=
  ⟨by simpa using h.fd,by simpa using h.content,by simpa using h.position,by simp⟩

theorem newFileEnd_roomy (h : Roomy s) :
    newFileEnd s = s.fileOffset+s.settings.regionSize := by
  unfold Roomy at h
  exact u64_of_lt (by omega)

/-- However its calls end, mapping a region changes only the zeros. -/
theorem laid_map (os : Os) (h : Laid s i body k) (hr : Roomy s) :
    ∃ k', Laid (s.mapRegion os) i body k' := by
  have hfile : resize (newFileEnd s) (s.fs.files i) =
      body++List.replicate s.settings.regionSize 0 := by
    rw [newFileEnd_roomy hr,h.content,h.position]
    exact resize_zeros _ _ _
  have hstep := mapRegion_step os h.fd
  generalize s.mapRegion os = u at hstep ⊢
  cases hstep with
  | notExtended _ => exact ⟨k,h⟩
  | notMapped _ _ =>
    refine ⟨s.settings.regionSize,h.fd,?_,h.position,?_⟩
    · simpa [extended] using hfile
    · simp [State.mapping]
  | mapped _ _ =>
    refine ⟨s.settings.regionSize,h.fd,?_,h.position,?_⟩
    · simpa [mapped,extended] using hfile
    · intro m hm
      rw [mapped_mapping] at hm
      obtain rfl := Option.some.inj hm
      exact ⟨rfl,rfl,Nat.zero_add _⟩

theorem laid_opened (ho : Opened os s i t es) (hf : os.fstatOk = true) (hp : s.mmapPtr = none) :
    Laid t i (t.fs.files i) 0 := by
  refine ⟨ho.fd,by simp,?_,?_⟩
  · rw [ho.fileOffset,if_pos hf]
  · intro m hm
    rw [unmapped_mapping (ho.mmapPtr.trans hp)] at hm
    cases hm

theorem live_length {m : Mapping} (hb : Bounded s) (hm : s.mapping = some m) :
    m.length = s.settings.regionSize := by
  have hp : s.mmapPtr ≠ none := fun hnone => by
    rw [unmapped_mapping hnone] at hm
    cases hm
  obtain ⟨m',hm',hlen⟩ := hb.live hp
  obtain rfl := Option.some.inj (hm.symm.trans hm')
  exact hlen

theorem copied_offsets {m : Mapping} (hb : Bounded s) (hr : Roomy s) (hm : s.mapping = some m)
    (hfit : s.mmapOffset+data.length ≤ m.length) :
    (copied data s m).mmapOffset = s.mmapOffset+data.length ∧
      (copied data s m).fileOffset = s.fileOffset+data.length := by
  have hlen := live_length hb hm
  unfold Roomy at hr
  exact ⟨u64_of_lt (by omega),u64_of_lt (by omega)⟩

theorem laid_copied {m : Mapping} (h : Laid s i body k) (hb : Bounded s) (hr : Roomy s)
    (hm : s.mapping = some m) (hfit : s.mmapOffset+data.length ≤ m.length) :
    Laid (copied data s m) i (body++data) (k-data.length) := by
  obtain ⟨hfile,hoff,hk⟩ := h.live m hm
  obtain ⟨hmoff,hpos⟩ := copied_offsets hb hr hm hfit
  refine ⟨h.fd,?_,?_,?_⟩
  · show (s.fs.put m.file _).files i = _
    rw [put_files,if_pos hfile.symm,hfile,hoff,h.position,h.content]
    exact patch_zeros _ _ _ (by omega)
  · rw [hpos,h.position,List.length_append]
  · intro m' hm'
    obtain rfl : m = m' := Option.some.inj (hm.symm.trans hm')
    refine ⟨hfile,?_,?_⟩
    · rw [hmoff,hpos]
      omega
    · rw [hmoff]
      omega

theorem perform_files (os : Os) (fs : Store String UInt8) (c : FsCall) :
    (os.perform fs c).files = fs.files ∧ (os.perform fs c).next = fs.next := by
  unfold Os.perform
  split
  · cases c <;> simp [FsCall.run]
  · exact ⟨rfl,rfl⟩

theorem performs_files (os : Os) (cs : List FsCall) (fs : Store String UInt8) :
    (cs.foldl os.perform fs).files = fs.files ∧ (cs.foldl os.perform fs).next = fs.next := by
  induction cs generalizing fs with
  | nil => exact ⟨rfl,rfl⟩
  | cons c cs ih =>
    obtain ⟨hf,hn⟩ := ih (os.perform fs c)
    obtain ⟨hf',hn'⟩ := perform_files os fs c
    exact ⟨hf.trans hf',hn.trans hn'⟩

variable {p : Bytes}

theorem secure_unmap (h : Secure s j p) : Secure s.unmapRegion j p :=
  ⟨by simpa using h.created,by simpa using h.kept,by simpa using h.behind⟩

theorem secure_rotated (os : Os) (h : Secure s j p) : Secure (rotated os s) j p := by
  obtain ⟨hf,hn⟩ := performs_files os (rotateCalls s.settings) s.fs
  exact ⟨by simpa [hn] using h.created,by simpa [hf] using h.kept,by simp⟩

theorem secure_opened (ho : Opened os s i t es) (hf : os.fstatOk = true) (h : Secure s j p) :
    Secure t j p := by
  have hkept : p <+: t.fs.files j := by
    rw [ho.created,create_files _ h.created]
    exact h.kept
  refine ⟨?_,hkept,?_⟩
  · rw [ho.created]
    exact h.created.trans_le (create_next _)
  · intro hfd
    obtain rfl : i = j := Option.some.inj (ho.fd.symm.trans hfd)
    rw [ho.fileOffset,if_pos hf]
    exact hkept.length_le

theorem secure_map (os : Os) (hfd : s.fd = some i) (hr : Roomy s) (h : Secure s j p) :
    Secure (s.mapRegion os) j p := by
  have hoff := mapRegion_fileOffset os s
  have hnext := mapRegion_next os s
  have hresize : p <+: (extended s i).fs.files j := by
    by_cases hj : j = i
    · subst hj
      have hle : p.length ≤ newFileEnd s := by
        rw [newFileEnd_roomy hr]
        exact (h.behind hfd).trans (Nat.le_add_right _ _)
      simpa [extended] using isPrefix_resize h.kept hle
    · simpa [extended,hj] using h.kept
  refine ⟨by rw [hnext]; exact h.created,?_,?_⟩
  · have hstep := mapRegion_step os hfd
    generalize s.mapRegion os = u at hstep ⊢
    cases hstep with
    | notExtended _ => exact h.kept
    | notMapped _ _ => exact hresize
    | mapped _ _ => exact hresize
  · rw [hoff,mapRegion_fd]
    exact h.behind

theorem secure_copied {m : Mapping} (hl : Laid s i body k) (hm : s.mapping = some m)
    (hle : s.fileOffset ≤ (copied data s m).fileOffset) (h : Secure s j p) :
    Secure (copied data s m) j p := by
  obtain ⟨hfile,hoff,-⟩ := hl.live m hm
  refine ⟨h.created,?_,fun hfd => (h.behind hfd).trans hle⟩
  show p <+: (s.fs.put m.file _).files j
  rw [put_files,hfile,hoff]
  split_ifs with hj
  · subst hj
    exact isPrefix_patch h.kept (h.behind hl.fd)
  · exact h.kept

theorem secure_current (h : Laid s i body k) (hi : i < s.fs.next) : Secure s i body := by
  refine ⟨hi,?_,fun _ => h.position.ge⟩
  rw [h.content]
  exact List.prefix_append _ _

end Operations

/-- The guard of a run on files that nobody else modifies: `fstat` reports the
true size, no data is longer than a region, and the end of the next region
never wraps around. -/
def Attended (s : State) (c : Call) (_ : ℕ) (_ : State) : Prop :=
  c.os.fstatOk = true ∧ c.data.length ≤ s.settings.regionSize ∧ Roomy s ∧
  ∀ t es, Prepared.arrived (s.prepare c.os c.data) = some (t,es) → Roomy t

structure Kept (s : State) (tr : List Event) (g : Generation) (gs : List Generation) (k : ℕ) :
    Prop where
  history : generations tr = g::gs
  laid : Laid s g.file g.bytes k
  created : g.file < s.fs.next
  older : ∀ h ∈ gs, Secure s h.file h.bytes

section Steps

variable {g : Generation} {gs : List Generation}

theorem kept_secure (hk : Kept s tr g gs k) {h : Generation} (hh : h ∈ g::gs) :
    Secure s h.file h.bytes := by
  rcases List.mem_cons.mp hh with rfl | hh
  · exact secure_current hk.laid hk.created
  · exact hk.older h hh

theorem roomy_mapRegion (os : Os) (s : State) : Roomy (s.mapRegion os) ↔ Roomy s := by
  unfold Roomy
  rw [mapRegion_fileOffset,mapRegion_settings]

/-- On the way to its copy a write keeps the generations, or starts a new one. -/
theorem arrived_kept (hk : Kept s tr g gs k) (hf : os.fstatOk = true) (hs : Roomy s)
    (h : Prepared.arrived (s.prepare os data) = some (t,es)) (ht : Roomy t) :
    (∃ g' gs' k', Kept t (tr++es) g' gs' k') ∧ ∀ j p, Secure s j p → Secure t j p := by
  rcases prepare_arrived h with ⟨rfl,rfl⟩ | ⟨rfl,rfl⟩ | ⟨i,u,ho,rfl⟩
  · exact ⟨⟨g,gs,k,by simpa using hk⟩,fun _ _ h => h⟩
  · have hroomy : Roomy s.unmapRegion := by
      unfold Roomy at *
      simpa using hs
    have hfd : s.unmapRegion.fd = some g.file := by simpa using hk.laid.fd
    have hsec : ∀ j p, Secure s j p → Secure (s.unmapRegion.mapRegion os) j p :=
      fun j p h => secure_map os hfd hroomy (secure_unmap h)
    obtain ⟨k',hlaid⟩ := laid_map os (laid_unmap hk.laid) hroomy
    refine ⟨⟨g,gs,k',by simpa using hk.history,hlaid,?_,fun h hh => hsec _ _ (hk.older h hh)⟩,hsec⟩
    rw [mapRegion_next]
    simpa using hk.created
  · have hroomy : Roomy u := (roomy_mapRegion os u).mp ht
    have hsec : ∀ j p, Secure s j p → Secure (u.mapRegion os) j p := fun j p h =>
      secure_map os ho.fd hroomy (secure_opened ho hf (secure_rotated os h))
    obtain ⟨k',hlaid⟩ := laid_map os (laid_opened ho hf (rotated_mmapPtr os s)) hroomy
    refine ⟨⟨⟨i,u.fs.files i,[]⟩,g::gs,k',?_,by simpa [Generation.bytes] using hlaid,?_,?_⟩,hsec⟩
    · rw [generations_append,hk.history,ho.events]
      rfl
    · rw [mapRegion_next,ho.created,ho.number]
      exact create_lt _
    · exact fun h hh => hsec _ _ (kept_secure hk hh)

theorem copied_kept {m : Mapping} (hk : Kept s tr g gs k) (hb : Bounded s) (hr : Roomy s)
    (hm : s.mapping = some m) (hfit : s.mmapOffset+data.length ≤ m.length) :
    (∃ g' gs' k', Kept (copied data s m) (tr++[.stored data]) g' gs' k') ∧
      ∀ j p, Secure s j p → Secure (copied data s m) j p := by
  have hoff := (copied_offsets hb hr hm hfit).2
  have hsec : ∀ j p, Secure s j p → Secure (copied data s m) j p := fun j p =>
    secure_copied hk.laid hm (by omega)
  have hbytes : ({ g with records := g.records++[data] } : Generation).bytes = g.bytes++data := by
    simp [Generation.bytes]
  refine ⟨⟨{ g with records := g.records++[data] },gs,k-data.length,?_,?_,hk.created,?_⟩,hsec⟩
  · rw [generations_append,hk.history]
    rfl
  · rw [hbytes]
    exact laid_copied hk.laid hb hr hm hfit
  · exact fun h hh => hsec _ _ (hk.older h hh)

theorem write_kept {n : ℕ} {c : Call} (hk : Kept s tr g gs k) (hb : Bounded s)
    (hg : Attended s c n t) (h : s.write c.os c.data = .returned n t es) :
    (∃ g' gs' k', Kept t (tr++es) g' gs' k') ∧ ∀ j p, Secure s j p → Secure t j p := by
  obtain ⟨hf,-,hs,harr⟩ := hg
  rcases write_returned h with ⟨hr,-⟩ | ⟨u,fs,m,hr,hm,hfit,-,rfl,rfl⟩
  · have ha : Prepared.arrived (s.prepare c.os c.data) = some (t,es) := by rw [hr]; rfl
    exact arrived_kept hk hf hs ha (harr t es ha)
  · have ha : Prepared.arrived (s.prepare c.os c.data) = some (u,fs) := by rw [hr]; rfl
    have hroomy := harr u fs ha
    obtain ⟨⟨g',gs',k',hk'⟩,hsec⟩ := arrived_kept hk hf hs ha hroomy
    obtain ⟨hnew,hsec'⟩ := copied_kept hk' (prepare_ready hb hr).1 hroomy hm hfit
    rw [← List.append_assoc]
    exact ⟨hnew,fun j p h => hsec' j p (hsec j p h)⟩

theorem construct_kept {g : Settings} {w : World} (h : construct g os w = .ok (s,es))
    (hf : os.fstatOk = true) (hr : Roomy s) : ∃ g gs k, Kept s es g gs k := by
  obtain ⟨i,u,ho,rfl⟩ := construct_ok h
  have hroomy : Roomy u := (roomy_mapRegion os u).mp hr
  obtain ⟨k,hlaid⟩ := laid_map os (laid_opened ho hf rfl) hroomy
  refine ⟨⟨i,u.fs.files i,[]⟩,[],k,?_,by simpa [Generation.bytes] using hlaid,?_,by simp⟩
  · rw [ho.events]
    rfl
  · rw [mapRegion_next,ho.created,ho.number]
    exact create_lt _

end Steps

/-- From a state that keeps its generations every run keeps them, and with them
everything secure. -/
theorem run_kept {s s' : State} {tr tr' : List Event} (hb : Bounded s)
    (hk : ∃ g gs k, Kept s tr g gs k) (r : Run Attended s s' tr') :
    Bounded s' ∧ (∃ g gs k, Kept s' (tr++tr') g gs k) ∧ ∀ j p, Secure s j p → Secure s' j p := by
  induction r with
  | start => exact ⟨hb,by simpa using hk,fun _ _ h => h⟩
  | next r hw g ih =>
    obtain ⟨hb',⟨g₁,gs,k,hk'⟩,hsec⟩ := ih
    obtain ⟨hnew,hsec'⟩ := write_kept hk' hb' g hw
    rw [← List.append_assoc]
    exact ⟨(write_bounded hb' hw).1,hnew,fun j p h => hsec' j p (hsec j p h)⟩

/-- Whatever system calls fail, the files being modified by nobody else: at every
point of a run of writes, and ever after, the file of each generation begins with
what it held when opened followed by the data of the writes that returned their
size while the generation was current; and the file offset is the end of these
in the current file. -/
theorem generations_kept (g : Settings) (os : Os) (w : World) (s₀ s s' : State)
    (es : List Event) (ws ws' : List Written) (h : construct g os w = .ok (s₀,es))
    (hf : os.fstatOk = true) (h₀ : Roomy s₀) (r : Writes Attended s₀ ws s)
    (r' : Writes Attended s ws' s') :
    (∀ h ∈ history es ws, h.before++h.records.flatten <+: s'.fs.files h.file) ∧
    ∃ h hs, history es ws = h::hs ∧ s.fd = some h.file ∧
      s.fileOffset = h.before.length+h.records.flatten.length := by
  have hcompact := history_compact h r
  obtain ⟨hb,⟨c,cs,k,hk⟩,-⟩ :=
    run_kept (construct_bounded h).1 (construct_kept h hf h₀) (writes_run r)
  obtain ⟨-,-,hsec⟩ := run_kept hb ⟨c,cs,k,hk⟩ (writes_run r')
  have hhist := hk.history
  rw [hcompact] at hhist
  constructor
  · intro d hd
    have hmem : d.compact ∈ c::cs := by
      rw [← hhist]
      exact List.mem_map_of_mem hd
    simpa [Generation.bytes] using (hsec _ _ (kept_secure hk hmem)).kept
  · obtain ⟨d,ds,hd,rfl,-⟩ := List.map_eq_cons_iff.mp hhist
    refine ⟨d,ds,hd,hk.laid.fd,?_⟩
    rw [hk.laid.position,compact_bytes,Generation.bytes,List.length_append]

def attends (s : State) (c : Call) : Bool :=
  c.os.fstatOk && decide (c.data.length ≤ s.settings.regionSize) && decide (Roomy s) &&
    (Prepared.arrived (s.prepare c.os c.data)).all fun r => decide (Roomy r.1)

theorem attended_of_check (s : State) (c : Call) (n : ℕ) (t : State) (h : attends s c = true) :
    Attended s c n t := by
  simp only [attends,Bool.and_eq_true,decide_eq_true_eq] at h
  obtain ⟨⟨⟨hf,hlen⟩,hs⟩,hr⟩ := h
  refine ⟨hf,hlen,hs,fun u es hu => ?_⟩
  rw [hu] at hr
  exact of_decide_eq_true hr

def pageAndRecord : List Call :=
  [⟨pageOs 4096,page⟩,⟨pageOs 4096,record128⟩]

/-- A page and a record, the file being opened empty and the region turned over between. -/
theorem generations_kept_turnover : ∃ (s₀ s : State) (es : List Event) (ws : List Written),
    construct pageSettings (pageOs 4096) .empty = .ok (s₀,es) ∧ Writes Attended s₀ ws s ∧
    ws.map Written.call = pageAndRecord ∧ ws.map Written.result = [4096,128] ∧
    history es ws = [⟨0,[],pageAndRecord.map Call.data⟩] ∧ s.fileOffset = 4224 ∧
    page++record128 <+: s.fs.files 0 := by
  have hv : (construct pageSettings (pageOs 4096) .empty).toOption.any fun r =>
      decide (Roomy r.1) && (r.1.writes attends pageAndRecord).any fun q =>
        decide (q.1.map Written.result = [4096,128] ∧ q.2.fileOffset = 4224) &&
          history r.2 q.1 == [⟨0,[],pageAndRecord.map Call.data⟩] := by
    decide +kernel
  obtain ⟨⟨s₀,es⟩,h,hv⟩ := (Option.any_eq_true _ _).mp hv
  obtain ⟨hroomy,hv⟩ := Bool.and_eq_true_iff.mp hv
  obtain ⟨⟨ws,s⟩,hs,hv⟩ := (Option.any_eq_true _ _).mp hv
  obtain ⟨hv,hhist⟩ := Bool.and_eq_true_iff.mp hv
  obtain ⟨hres,hoff⟩ := of_decide_eq_true hv
  have hhist := eq_of_beq hhist
  obtain ⟨r,hcalls⟩ := writes_some (fun s c n t _ => attended_of_check s c n t) .start hs
  rw [List.nil_append] at r
  obtain ⟨hall,-⟩ := generations_kept pageSettings (pageOs 4096) .empty s₀ s s es ws []
    (built_some h) rfl (of_decide_eq_true hroomy) r .start
  refine ⟨s₀,s,es,ws,built_some h,r,hcalls,hres,hhist,hoff,?_⟩
  have hfile := hall ⟨0,[],pageAndRecord.map Call.data⟩ (by rw [hhist]; exact List.mem_cons_self)
  exact hfile

end MpmcLogger.SinkGenerations
