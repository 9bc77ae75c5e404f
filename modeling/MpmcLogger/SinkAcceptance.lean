import MpmcLogger.SinkAlignment

/-!
# Which writes a sink accepts

Whether a write is accepted can be read off the state before it and the outcomes
of its system calls: it fits the region, or the calls that provide the next
region all succeed. Over a sequence of writes the sink counts those it accepted,
up to one that ends the process.
-/

set_option autoImplicit false

namespace MpmcLogger.SinkAcceptance
open MachineWord FileStore MpmcLogger.SinkMachine MpmcLogger.SinkSteps MpmcLogger.SinkBounds
open MpmcLogger.SinkAlignment

def Maps (os : Os) (s : State) (off : ℕ) : Prop :=
  os.ftruncateOk (u64 (off+s.settings.regionSize)) = true ∧
    os.mmapOk s.settings.regionSize off = true

def reopenedOffset (os : Os) (s : State) : ℕ :=
  if os.fstatOk then
    ((((rotateCalls s.settings).foldl os.perform s.fs).read s.settings.basePath).getD []).length
  else 0

def Provides (os : Os) (s : State) (len : ℕ) : Prop :=
  if s.rotates len then os.openError = none ∧ Maps os s (reopenedOffset os s)
  else Maps os s s.fileOffset

def Accepting (os : Os) (s : State) (len : ℕ) : Prop :=
  s.mmapPtr ≠ none ∧ (s.overflows len → Provides os s len)

variable {os : Os} {s t : State} {es : List Event} {data : Bytes} {i : ℕ}

theorem mapRegion_maps (os : Os) (hfd : s.fd = some i) (hp : s.mmapPtr = none) :
    (s.mapRegion os).mmapPtr ≠ none ↔ Maps os s s.fileOffset := by
  have hstep := mapRegion_step os hfd
  generalize s.mapRegion os = u at hstep ⊢
  cases hstep with
  | notExtended h =>
    constructor
    · intro hne
      exact absurd hp hne
    · rintro ⟨he,-⟩
      rw [newFileEnd,he] at h
      cases h
  | notMapped he h =>
    constructor
    · intro hne
      exact absurd rfl hne
    · rintro ⟨-,hm⟩
      rw [h] at hm
      cases hm
  | mapped he h => exact ⟨fun _ => ⟨he,h⟩,fun _ => by simp [mapped]⟩

theorem opened_offset (ho : Opened os (rotated os s) i t es) :
    t.fileOffset = reopenedOffset os s := by
  have hfile : t.fs.files i =
      (((rotateCalls s.settings).foldl os.perform s.fs).read s.settings.basePath).getD [] := by
    rw [ho.created,ho.number,create_content,rotated_fs,rotated_settings]
  rw [ho.fileOffset,hfile]
  rfl

def Open (s : State) : Prop := ∃ i, s.fd = some i

theorem opened_maps (ho : Opened os (rotated os s) i t es) :
    (t.mapRegion os).mmapPtr ≠ none ↔ Maps os s (reopenedOffset os s) := by
  obtain ⟨hp,-,hset⟩ := opened_unmapped ho
  rw [mapRegion_maps os ho.fd hp,opened_offset ho]
  unfold Maps
  rw [hset]

theorem stays_maps (os : Os) (hfd : Open s) :
    (s.unmapRegion.mapRegion os).mmapPtr ≠ none ↔ Maps os s s.fileOffset := by
  obtain ⟨i,hi⟩ := hfd
  have h := mapRegion_maps os (s := s.unmapRegion) (i := i) (by simpa using hi) (by simp)
  unfold Maps at *
  simpa using h

theorem prepare_ready_iff (hfd : Open s) (hd : 0 < data.length) :
    (∃ t es, s.prepare os data = .ready t es) ↔
      Accepting os s data.length := by
  have hstep := prepare_step os data s
  have hstays := stays_maps os hfd
  unfold Accepting Provides
  generalize s.prepare os data = p at hstep ⊢
  cases hstep with
  | refused h =>
    rcases h with h | h
    · omega
    · simp [h]
  | fits _ hp hf => exact ⟨fun _ => ⟨hp,fun h => absurd h hf⟩,fun _ => ⟨_,_,rfl⟩⟩
  | stays _ hp hf hr hm =>
    rw [if_neg hr]
    exact ⟨fun _ => ⟨hp,fun _ => hstays.mp hm⟩,fun _ => ⟨_,_,rfl⟩⟩
  | unmapped _ hp hf hr hm =>
    rw [if_neg hr]
    constructor
    · rintro ⟨_,_,h⟩
      cases h
    · exact fun h => absurd hm (hstays.mpr (h.2 hf))
  | reopened _ hp hf hr ho hm =>
    rw [if_pos hr]
    exact ⟨fun _ => ⟨hp,fun _ => ⟨ho.permitted,(opened_maps ho).mp hm⟩⟩,fun _ => ⟨_,_,rfl⟩⟩
  | unmappedAfter _ hp hf hr ho hm =>
    rw [if_pos hr]
    constructor
    · rintro ⟨_,_,h⟩
      cases h
    · exact fun h => absurd hm ((opened_maps ho).mpr (h.2 hf).2)
  | terminated _ hp hf hr ho =>
    rw [if_pos hr]
    constructor
    · rintro ⟨_,_,h⟩
      cases h
    · intro h
      rw [(h.2 hf).1] at ho
      cases ho

theorem write_accepting_iff (os : Os) (hb : Bounded s) (hfd : Open s) (hd : 0 < data.length)
    (hin : InRange s data.length) :
    (∃ t es, s.write os data = .returned data.length t es) ↔ Accepting os s data.length := by
  constructor
  · rintro ⟨t,es,h⟩
    rcases write_returned h with ⟨-,h0⟩ | ⟨u,fs,m,hr,hm,hfit,-,-,-⟩
    · omega
    · exact (prepare_ready_iff hfd hd).mp ⟨_,_,hr⟩
  · intro hacc
    obtain ⟨u,fs,hr⟩ := (prepare_ready_iff hfd hd).mpr hacc
    obtain ⟨hu,hset,hp,-⟩ := prepare_ready hb hr
    obtain ⟨m,hm,hlen⟩ := hu.live hp
    have hfit : u.mmapOffset+data.length ≤ m.length := by
      rw [hlen,hset]
      exact (ready_fits hb hr).mpr hin
    have hwrite : s.write os data = u.memcpy data fs := by
      unfold State.write
      rw [hr]
    exact ⟨copied data u m,fs++[.stored data],hwrite.trans (memcpy_within hm hfit)⟩

theorem arrived_open (hfd : Open s) (h : Prepared.arrived (s.prepare os data) = some (t,es)) :
    Open t := by
  rcases prepare_arrived h with ⟨rfl,-⟩ | ⟨rfl,-⟩ | ⟨i,u,ho,rfl⟩
  · exact hfd
  · obtain ⟨i,hi⟩ := hfd
    exact ⟨i,by rw [mapRegion_fd,unmap_fd,hi]⟩
  · exact ⟨i,by rw [mapRegion_fd,ho.fd]⟩

theorem write_open {n : ℕ} (hfd : Open s) (h : s.write os data = .returned n t es) : Open t := by
  rcases write_returned h with ⟨hr,-⟩ | ⟨u,fs,m,hr,-,-,-,rfl,-⟩
  · exact arrived_open hfd (show Prepared.arrived _ = some (t,es) by rw [hr]; rfl)
  · exact arrived_open (t := u) hfd (show Prepared.arrived _ = some (u,fs) by rw [hr]; rfl)

theorem construct_open {g : Settings} {w : World} (h : construct g os w = .ok (s,es)) : Open s := by
  obtain ⟨i,u,ho,rfl⟩ := construct_ok h
  exact ⟨i,by rw [mapRegion_fd,ho.fd]⟩

def acceptedCount : State → List Call → ℕ
  | _, [] => 0
  | s, c::cs =>
    match s.write c.os c.data with
    | .returned n t _ => (if n = c.data.length then 1 else 0)+acceptedCount t cs
    | .fault | .terminated _ => 0

def AcceptsEach : State → List Call → Prop
  | _, [] => True
  | s, c::cs => Accepting c.os s c.data.length ∧
      ∀ n t es, s.write c.os c.data = .returned n t es → AcceptsEach t cs

theorem acceptedCount_le (s : State) (cs : List Call) : acceptedCount s cs ≤ cs.length := by
  induction cs generalizing s with
  | nil => exact le_rfl
  | cons c cs ih =>
    simp only [acceptedCount,List.length_cons]
    split
    · rename_i n t es _
      have := ih t
      split_ifs <;> omega
    · omega
    · omega

def Fits (g : Settings) (data : Bytes) : Prop :=
  data.length ≤ g.regionSize ∧ g.regionSize+data.length < 2^64

theorem acceptedCount_iff (hb : Bounded s) (hfd : Open s) (cs : List Call)
    (hcs : ∀ c ∈ cs, 0 < c.data.length) (hfit : ∀ c ∈ cs, Fits s.settings c.data) :
    acceptedCount s cs = cs.length ↔ AcceptsEach s cs := by
  induction cs generalizing s with
  | nil => exact ⟨fun _ => trivial,fun _ => rfl⟩
  | cons c cs ih =>
    obtain ⟨hlen,hsum⟩ := hfit c List.mem_cons_self
    have hoff := hb.offset
    have hstep := write_accepting_iff c.os hb hfd (hcs c List.mem_cons_self) ⟨hlen,by omega⟩
    have hrest : ∀ e ∈ cs, 0 < e.data.length := fun e he => hcs e (List.mem_cons_of_mem _ he)
    simp only [acceptedCount,AcceptsEach,List.length_cons]
    rw [← hstep]
    cases hw : s.write c.os c.data with
    | returned n t es =>
      obtain ⟨hb',hset⟩ := write_bounded hb hw
      have hnext := ih hb' (write_open hfd hw) hrest fun e he => by
        rw [hset]
        exact hfit e (List.mem_cons_of_mem _ he)
      have hle := acceptedCount_le t cs
      constructor
      · intro hcount
        have hn : n = c.data.length := by
          by_contra hne
          simp only [if_neg hne] at hcount
          omega
        subst hn
        simp only [if_true] at hcount
        refine ⟨⟨t,es,rfl⟩,?_⟩
        rintro m u fs ⟨⟩
        exact hnext.mp (by omega)
      · rintro ⟨⟨u,fs,he⟩,hall⟩
        cases he
        have := hnext.mpr (hall _ t es rfl)
        simp only [if_true]
        omega
    | fault =>
      constructor
      · intro h
        simp at h
      · rintro ⟨⟨_,_,he⟩,-⟩
        cases he
    | terminated what =>
      constructor
      · intro h
        simp at h
      · rintro ⟨⟨_,_,he⟩,-⟩
        cases he

end MpmcLogger.SinkAcceptance
