import MpmcLogger.SinkGenerations
import MpmcLogger.PageCache

/-!
# What a flush makes durable

A write only dirties pages of the region; a turnover asks for them to be written
back without waiting for it, and unmaps them. A flush waits, but for the bytes of
the current region alone. So after a flush everything logged survives a crash
exactly when every region was flushed before it was left.
-/

set_option autoImplicit false

namespace MpmcLogger.SinkDurability
open MachineWord FileStore PageCache MpmcLogger.SinkMachine MpmcLogger.SinkSteps
open MpmcLogger.SinkBounds MpmcLogger.SinkGenerations

structure Cached where
  sink : State
  dirty : Dirty ℕ

def touched (s t : State) (n f j : ℕ) : Bool :=
  decide ((s.fs.files f).length ≤ j ∧ j < (t.fs.files f).length) ||
  match t.mapping with
  | some m => inRange m.file (m.offset+t.mmapOffset-n) (m.offset+t.mmapOffset) f j
  | none => false

def Cached.wrote (c : Cached) (t : State) (n : ℕ) : Cached :=
  ⟨t,fun f j => c.dirty f j || touched c.sink t n f j⟩

def Cached.flush (ok : Bool) (c : Cached) : Cached :=
  match c.sink.mapping with
  | some m =>
    -- a failing `msync` is not looked at
    if 0 < c.sink.mmapOffset ∧ ok = true then
      { c with dirty := c.dirty.sync m.file m.offset (m.offset+c.sink.mmapOffset) }
    else c
  | none => c

inductive CachedRun (ok : Cached → Call → Prop) (c₀ : Cached) : Cached → List Written → Prop
  | start : CachedRun ok c₀ c₀ []
  | write {c : Cached} {t : State} {call : Call} {n : ℕ} {ws : List Written} {es : List Event}
      (r : CachedRun ok c₀ c ws) (h : c.sink.write call.os call.data = .returned n t es)
      (ha : Attended c.sink call n t) (g : ok c call) :
      CachedRun ok c₀ (c.wrote t n) (ws++[⟨call,n,es⟩])
  | flush {c : Cached} {ws : List Written} (b : Bool) (r : CachedRun ok c₀ c ws) :
      CachedRun ok c₀ (c.flush b) ws

def Synced (K : Set ℕ) (c : Cached) : Prop := ∀ m, c.sink.mapping = some m → m.file ∈ K →
  ∀ j, m.offset ≤ j → j < m.offset+c.sink.mmapOffset → c.dirty m.file j = false

def Tended (K : Set ℕ) (c : Cached) (call : Call) : Prop :=
  c.sink.overflows call.data.length → Synced K c

/-- Whatever a crash leaves, the records of these generations are in it, as far as
their files are in `K`. -/
def Durable (K : Set ℕ) (c : Cached) (gs : List Generation) : Prop :=
  ∀ disk, Crashed c.dirty c.sink.fs.files disk → ∀ h ∈ gs, h.file ∈ K →
    h.records.flatten <+: (disk h.file).drop h.before.length

def RecordByte (gs : List Generation) (f j : ℕ) : Prop :=
  ∃ h ∈ gs, h.file = f ∧ h.before.length ≤ j ∧ j < h.bytes.length

instance nontrivialByte : Nontrivial UInt8 := ⟨0,1,by decide⟩

section Records

variable {K : Set ℕ} {c : Cached} {gs : List Generation} {f j : ℕ} {tr es : List Event}

theorem length_bytes (h : Generation) :
    h.bytes.length = h.before.length+h.records.flatten.length := List.length_append

/-- The records survive exactly when none of their bytes is dirty. -/
theorem durable_iff (hk : ∀ h ∈ gs, h.bytes <+: c.sink.fs.files h.file) :
    Durable K c gs ↔ ∀ f ∈ K, ∀ j, RecordByte gs f j → c.dirty f j = false := by
  constructor
  · rintro hd f hf j ⟨h,hh,rfl,hlo,hhi⟩
    by_contra hdirty
    have hbytes := hk h hh
    obtain ⟨disk,hc,hne⟩ := crashed_lost (Bool.eq_true_of_not_eq_false hdirty) c.sink.fs.files
      (hhi.trans_le hbytes.length_le)
    rw [length_bytes] at hhi
    have hrec := (List.prefix_iff_getElem?.mp (hd disk hc h hh hf)) (j-h.before.length) (by omega)
    have hfile := (List.prefix_iff_getElem?.mp hbytes) j (by rw [length_bytes]; omega)
    apply hne
    rw [List.getElem?_drop,Nat.add_sub_cancel' hlo] at hrec
    rw [hrec,hfile,Option.some.injEq]
    simp only [Generation.bytes,List.getElem_append_right hlo]
  · intro hclean disk hc h hh hf
    apply List.prefix_iff_getElem?.mpr
    intro i hi
    have hlen : h.before.length+i < h.bytes.length := by
      rw [length_bytes]
      omega
    have hfile := (List.prefix_iff_getElem?.mp (hk h hh)) _ hlen
    rw [List.getElem?_drop,hc _ _ (hclean _ hf _ ⟨h,hh,rfl,Nat.le_add_right _ _,hlen⟩),hfile]
    simp only [Generation.bytes,List.getElem_append_right (Nat.le_add_right _ _),
      Nat.add_sub_cancel_left]

theorem durable_compact : Durable K c (gs.map Generation.compact) ↔ Durable K c gs := by
  simp [Durable]

theorem record_opened (i : ℕ) (before : Bytes)
    (h : RecordByte (generations (tr++[.opened i before])) f j) :
    RecordByte (generations tr) f j := by
  rw [generations_append] at h
  obtain ⟨h,hh,rfl,hlo,hhi⟩ := h
  rcases List.mem_cons.mp (show h ∈ ⟨i,before,[]⟩::generations tr by
    cases hg : generations tr <;> simpa [record,hg] using hh) with rfl | hh
  · simp [Generation.bytes] at hlo hhi
    omega
  · exact ⟨h,hh,rfl,hlo,hhi⟩

theorem record_later (es : List Event) (h : RecordByte gs f j) :
    RecordByte (es.foldl record gs) f j := by
  induction es generalizing gs with
  | nil => exact h
  | cons e es ih =>
    apply ih
    obtain ⟨d,hd,hfile,hlo,hhi⟩ := h
    cases e with
    | opened i before => exact ⟨d,List.mem_cons_of_mem _ hd,hfile,hlo,hhi⟩
    | stored data =>
      cases gs with
      | nil => cases hd
      | cons g gs =>
        rcases List.mem_cons.mp hd with rfl | hd
        · refine ⟨_,List.mem_cons_self,hfile,hlo,?_⟩
          rw [length_bytes] at hhi ⊢
          simp only [List.flatten_append,List.length_append]
          omega
        · exact ⟨d,List.mem_cons_of_mem _ hd,hfile,hlo,hhi⟩

end Records

section Steps

variable {os : Os} {s t u : State} {es fs tr : List Event} {data : Bytes} {g : Generation}
  {gs : List Generation} {n k f j : ℕ} {call : Call} {K : Set ℕ}

theorem touched_iff : touched s t n f j = true ↔
    (s.fs.files f).length ≤ j ∧ j < (t.fs.files f).length ∨
    ∃ m, t.mapping = some m ∧ f = m.file ∧ m.offset+t.mmapOffset-n ≤ j ∧
      j < m.offset+t.mmapOffset := by
  unfold touched
  cases t.mapping <;> simp

theorem flush_sink (b : Bool) (c : Cached) : (c.flush b).sink = c.sink := by
  unfold Cached.flush
  split
  · split_ifs <;> rfl
  · rfl

theorem flush_dirty {b : Bool} {c : Cached} (h : c.dirty f j = true) (hout : ∀ m,
    c.sink.mapping = some m → m.file = f → j < m.offset) : (c.flush b).dirty f j = true := by
  unfold Cached.flush
  split
  · rename_i m hm
    split_ifs
    · refine (sync_iff ..).mpr ⟨h,?_⟩
      rintro ⟨rfl,hlo,-⟩
      have := hout m hm rfl
      omega
    · exact h
  · exact h

theorem flush_clean {b : Bool} {c : Cached} (h : (c.flush b).dirty f j = true) :
    c.dirty f j = true := by
  unfold Cached.flush at h
  split at h
  · split_ifs at h
    · exact ((sync_iff ..).mp h).1
    · exact h
  · exact h

theorem flush_synced (K : Set ℕ) (c : Cached) : Synced K (c.flush true) := by
  intro m hm _ j hlo hhi
  rw [flush_sink] at hm hhi
  have hpos : 0 < c.sink.mmapOffset := by omega
  by_contra hd
  have hd := Bool.eq_true_of_not_eq_false hd
  simp only [Cached.flush,hm,hpos,and_self,if_true] at hd
  exact ((sync_iff ..).mp hd).2 ⟨rfl,hlo,hhi⟩

theorem write_stays (hb : Bounded s) (ha : Attended s call n t)
    (hf : ¬s.overflows call.data.length) (h : s.write call.os call.data = .returned n t es) :
    t.mapping = s.mapping ∧ s.mmapOffset ≤ t.mmapOffset := by
  rcases write_returned h with ⟨hr,-⟩ | ⟨u,fs,m,hr,hm,hfit,-,rfl,-⟩
  · have harr : Prepared.arrived (s.prepare call.os call.data) = some (t,es) := by rw [hr]; rfl
    rw [arrived_fits hf harr]
    exact ⟨rfl,le_rfl⟩
  · have harr : Prepared.arrived (s.prepare call.os call.data) = some (u,fs) := by rw [hr]; rfl
    obtain rfl := arrived_fits hf harr
    refine ⟨rfl,?_⟩
    rw [(copied_offsets hb ha.2.2.1 hm hfit).1]
    exact Nat.le_add_right _ _

/-- A region left mapped by a write is the one it found, or begins behind all that
was secure. -/
theorem write_arrives (hk : Kept s tr g gs k) (hb : Bounded s) (ha : Attended s call n t)
    (h : s.write call.os call.data = .returned n t es) {m : Mapping} (hm : t.mapping = some m) :
    ∃ u fs g' gs' k', Kept u (tr++fs) g' gs' k' ∧ (∀ f p, Secure s f p → Secure u f p) ∧
      u.mapping = some m ∧ t.mmapOffset = u.mmapOffset+n ∧
      (es = fs ∨ es = fs++[.stored call.data]) ∧
      (¬s.overflows call.data.length ∧ u = s ∧ fs = [] ∨
        s.overflows call.data.length ∧ m.offset = u.fileOffset) := by
  obtain ⟨hf,-,hs,hroomy⟩ := ha
  rcases write_returned h with ⟨hr,rfl⟩ | ⟨u,fs,m',hr,hm',hfit,rfl,rfl,rfl⟩
  · -- a refused turnover leaves no mapping behind
    have hstep := prepare_step call.os call.data s
    rw [hr] at hstep
    cases hstep with
    | refused h0 =>
      refine ⟨s,[],g,gs,k,by simpa using hk,fun _ _ h => h,hm,rfl,Or.inl rfl,Or.inl ⟨?_,rfl,rfl⟩⟩
      rcases h0 with h0 | hnone
      · have hoff := hb.offset
        have hle := u64_le s.mmapOffset
        unfold State.overflows
        rw [h0,Nat.add_zero]
        omega
      · rw [unmapped_mapping hnone] at hm
        cases hm
    | unmapped _ _ _ _ hnone =>
      rw [unmapped_mapping hnone] at hm
      cases hm
    | unmappedAfter _ _ _ _ _ hnone =>
      rw [unmapped_mapping hnone] at hm
      cases hm
  · have harr : Prepared.arrived (s.prepare call.os call.data) = some (u,fs) := by rw [hr]; rfl
    obtain ⟨⟨g',gs',k',hu⟩,hsec⟩ := arrived_kept hk hf hs harr (hroomy u fs harr)
    obtain ⟨hbu,-,-,hcase⟩ := prepare_ready hb hr
    obtain rfl : m' = m := Option.some.inj (hm'.symm.trans hm)
    refine ⟨u,fs,g',gs',k',hu,hsec,hm',(copied_offsets hbu (hroomy u fs harr) hm' hfit).1,
      Or.inr rfl,?_⟩
    rcases hcase with ⟨hfits,-⟩ | ⟨hover,h0⟩
    · have hstep := prepare_step call.os call.data s
      rw [hr] at hstep
      cases hstep with
      | fits _ _ _ => exact Or.inl ⟨hfits,rfl,rfl⟩
      | stays _ _ hover _ _ => exact absurd hover hfits
      | reopened _ _ hover _ _ _ => exact absurd hover hfits
    · obtain ⟨-,hoff,-⟩ := hu.laid.live m' hm'
      exact Or.inr ⟨hover,by omega⟩

theorem write_records (hk : Kept s tr g gs k) (hb : Bounded s) (ha : Attended s call n t)
    (h : s.write call.os call.data = .returned n t es)
    (hj : RecordByte (generations (tr++es)) f j) :
    RecordByte (generations tr) f j ∨
    ∃ m, t.mapping = some m ∧ f = m.file ∧ m.offset+t.mmapOffset-n ≤ j ∧
      j < m.offset+t.mmapOffset := by
  obtain ⟨hf,-,hs,hroomy⟩ := ha
  have harrived : ∀ u fs, Prepared.arrived (s.prepare call.os call.data) = some (u,fs) →
      RecordByte (generations (tr++fs)) f j → RecordByte (generations tr) f j := by
    intro u fs harr hbyte
    rcases prepare_arrived harr with ⟨-,rfl⟩ | ⟨-,rfl⟩ | ⟨i,v,ho,-⟩
    · simpa using hbyte
    · simpa using hbyte
    · rw [ho.events] at hbyte
      exact record_opened _ _ hbyte
  rcases write_returned h with ⟨hr,-⟩ | ⟨u,fs,m,hr,hm,hfit,rfl,rfl,rfl⟩
  · have harr : Prepared.arrived (s.prepare call.os call.data) = some (t,es) := by rw [hr]; rfl
    exact Or.inl (harrived t es harr hj)
  · have harr : Prepared.arrived (s.prepare call.os call.data) = some (u,fs) := by rw [hr]; rfl
    obtain ⟨⟨g',gs',k',hu⟩,-⟩ := arrived_kept hk hf hs harr (hroomy u fs harr)
    obtain ⟨hfile,hoff,-⟩ := hu.laid.live m hm
    have hmoff := (copied_offsets (prepare_ready hb hr).1 (hroomy u fs harr) hm hfit).1
    have hpos := hu.laid.position
    rw [← List.append_assoc,generations_append,hu.history] at hj
    obtain ⟨h,hh,rfl,hlo,hhi⟩ := hj
    rcases List.mem_cons.mp hh with rfl | hh
    · by_cases hold : j < g'.bytes.length
      · refine Or.inl (harrived u fs harr ?_)
        rw [hu.history]
        exact ⟨g',List.mem_cons_self,rfl,hlo,hold⟩
      · refine Or.inr ⟨m,hm,hfile.symm,?_,?_⟩
        · rw [hmoff]
          omega
        · have hlen : ({ g' with records := g'.records++[call.data] } : Generation).bytes.length =
              g'.bytes.length+call.data.length := by
            simp [Generation.bytes,Nat.add_assoc]
          rw [hlen] at hhi
          rw [hmoff]
          omega
    · refine Or.inl (harrived u fs harr ?_)
      rw [hu.history]
      exact ⟨h,List.mem_cons_of_mem _ hh,rfl,hlo,hhi⟩

structure Tracked (s : State) (tr : List Event) : Prop where
  bounded : Bounded s
  kept : ∃ g gs k, Kept s tr g gs k ∧ ∀ m, s.mapping = some m → g.before.length ≤ m.offset

theorem tracked_write (hs : Tracked s tr) (ha : Attended s call n t)
    (h : s.write call.os call.data = .returned n t es) : Tracked t (tr++es) := by
  obtain ⟨hb,g,gs,k,hk,hbefore⟩ := hs
  obtain ⟨⟨g₁,gs₁,k₁,hk₁⟩,-⟩ := write_kept hk hb ha h
  refine ⟨(write_bounded hb h).1,g₁,gs₁,k₁,hk₁,fun m hm => ?_⟩
  obtain ⟨u,fs,g',gs',k',hu,-,hmu,-,hes,hcase⟩ := write_arrives hk hb ha h hm
  have hg : g₁.before = g'.before := by
    have hhist := hk₁.history
    rcases hes with rfl | rfl
    · rw [hu.history] at hhist
      rw [(List.cons.inj hhist).1]
    · rw [← List.append_assoc,generations_append,hu.history] at hhist
      rw [← (List.cons.inj hhist).1]
  rw [hg]
  rcases hcase with ⟨-,rfl,rfl⟩ | ⟨-,hoff⟩
  · have hhist := hu.history
    rw [List.append_nil,hk.history] at hhist
    rw [← (List.cons.inj hhist).1]
    exact hbefore m hmu
  · rw [hoff,hu.laid.position,length_bytes]
    exact Nat.le_add_right _ _

theorem tracked_flush (b : Bool) {c : Cached} (h : Tracked c.sink tr) :
    Tracked (c.flush b).sink tr := by
  rw [flush_sink]
  exact h

def Tidy (K : Set ℕ) (c : Cached) (gs : List Generation) : Prop := ∀ f ∈ K, ∀ j, RecordByte gs f j →
  c.dirty f j = true → ∃ m, c.sink.mapping = some m ∧ f = m.file ∧ m.offset ≤ j ∧
    j < m.offset+c.sink.mmapOffset

theorem tidy_write {c : Cached} (hs : Tracked c.sink tr) (ha : Attended c.sink call n t)
    (hg : Tended K c call) (h : c.sink.write call.os call.data = .returned n t es)
    (ht : Tidy K c (generations tr)) : Tidy K (c.wrote t n) (generations (tr++es)) := by
  intro f hfK j hbyte hdirty
  obtain ⟨hb,g,gs,k,hk,-⟩ := hs
  have hcopied : (∃ m, t.mapping = some m ∧ f = m.file ∧ m.offset+t.mmapOffset-n ≤ j ∧
      j < m.offset+t.mmapOffset) → ∃ m, t.mapping = some m ∧ f = m.file ∧ m.offset ≤ j ∧
      j < m.offset+t.mmapOffset := by
    rintro ⟨m,hm,rfl,hlo,hhi⟩
    obtain ⟨u,_,_,_,_,-,-,-,hoff,-⟩ := write_arrives hk hb ha h hm
    exact ⟨m,hm,rfl,by omega,hhi⟩
  rcases write_records hk hb ha h hbyte with hold | hnew
  · rcases Bool.or_eq_true_iff.mp hdirty with hd | hd
    · obtain ⟨m,hm,rfl,hlo,hhi⟩ := ht f hfK j hold hd
      by_cases hover : c.sink.overflows call.data.length
      · rw [hg hover m hm hfK j hlo hhi] at hd
        cases hd
      · obtain ⟨hmap,hle⟩ := write_stays hb ha hover h
        exact ⟨m,hmap.trans hm,rfl,hlo,hhi.trans_le (Nat.add_le_add_left hle _)⟩
    · rcases touched_iff.mp hd with ⟨hlen,-⟩ | hd
      · -- an old record lies inside of its file
        rw [hk.history] at hold
        obtain ⟨d,hmem,rfl,-,hj⟩ := hold
        have := (kept_secure hk hmem).kept.length_le
        omega
      · exact hcopied hd
  · exact hcopied hnew

theorem tidy_flush (b : Bool) {c : Cached} (ht : Tidy K c gs) : Tidy K (c.flush b) gs := by
  intro f hf j hbyte hdirty
  rw [flush_sink]
  exact ht f hf j hbyte (flush_clean hdirty)

structure Lost (c : Cached) (f j : ℕ) : Prop where
  dirty : c.dirty f j = true
  written : ∃ p, Secure c.sink f p ∧ j < p.length
  left : ∀ m, c.sink.mapping = some m → m.file = f → j < m.offset

theorem lost_write {c : Cached} (hs : Tracked c.sink tr) (ha : Attended c.sink call n t)
    (h : c.sink.write call.os call.data = .returned n t es) (hl : Lost c f j) :
    Lost (c.wrote t n) f j := by
  obtain ⟨hb,g,gs,k,hk,-⟩ := hs
  obtain ⟨p,hp,hj⟩ := hl.written
  refine ⟨Bool.or_eq_true_iff.mpr (Or.inl hl.dirty),
    ⟨p,(write_kept hk hb ha h).2 f p hp,hj⟩,fun m hm hfile => ?_⟩
  obtain ⟨u,fs,g',gs',k',hu,hsec,hmu,-,-,hcase⟩ := write_arrives hk hb ha h hm
  rcases hcase with ⟨-,rfl,rfl⟩ | ⟨-,hoff⟩
  · exact hl.left m hmu hfile
  · rw [hoff]
    obtain ⟨hf',-⟩ := hu.laid.live m hmu
    refine hj.trans_le ((hsec f p hp).behind ?_)
    rw [hu.laid.fd,← hf',hfile]

/-- A write that leaves its region unflushed loses a byte of a record. -/
theorem lost_left {c : Cached} (hs : Tracked c.sink tr) (ha : Attended c.sink call n t)
    (h : c.sink.write call.os call.data = .returned n t es) (hg : ¬Tended K c call) :
    ∃ f ∈ K, ∃ j, Lost (c.wrote t n) f j ∧ RecordByte (generations tr) f j := by
  obtain ⟨hb,g,gs,k,hk,hbefore⟩ := hs
  simp only [Tended,Synced,Classical.not_imp,not_forall] at hg
  obtain ⟨hover,m,hm,hK,j,hlo,hhi,hd⟩ := hg
  obtain ⟨hfile,hoff,-⟩ := hk.laid.live m hm
  have hpos := hk.laid.position
  have hsecure := secure_current hk.laid hk.created
  have hj : j < g.bytes.length := by omega
  refine ⟨g.file,hfile ▸ hK,j,⟨?_,⟨g.bytes,(write_kept hk hb ha h).2 _ _ hsecure,hj⟩,fun m' hm' hf' => ?_⟩,?_⟩
  · rw [← hfile]
    exact Bool.or_eq_true_iff.mpr (Or.inl (Bool.eq_true_of_not_eq_false hd))
  · obtain ⟨u,fs,g',gs',k',hu,hsec,hmu,-,-,⟨hfits,-⟩ | ⟨-,hbegin⟩⟩ := write_arrives hk hb ha h hm'
    · exact absurd hover hfits
    · obtain ⟨hfu,-⟩ := hu.laid.live m' hmu
      rw [hbegin]
      refine hj.trans_le ((hsec _ _ hsecure).behind ?_)
      rw [hu.laid.fd,← hfu,hf']
  · rw [hk.history]
    exact ⟨g,List.mem_cons_self,rfl,(hbefore m hm).trans hlo,hj⟩

theorem lost_flush (b : Bool) {c : Cached} (hl : Lost c f j) : Lost (c.flush b) f j := by
  refine ⟨flush_dirty hl.dirty hl.left,?_,?_⟩ <;> rw [flush_sink]
  · exact hl.written
  · exact hl.left

end Steps

section Runs

variable {ok : Cached → Call → Prop} {c₀ c : Cached} {es : List Event} {ws : List Written}
  {K : Set ℕ}

theorem cached_writes (r : CachedRun ok c₀ c ws) : Writes Attended c₀.sink ws c.sink := by
  induction r with
  | start => exact .start
  | write _ hw ha _ ih => exact ih.next hw ha
  | flush b _ ih =>
    rw [flush_sink]
    exact ih

theorem run_tracked (h : Tracked c₀.sink es) (r : CachedRun ok c₀ c ws) :
    Tracked c.sink (es++trace ws) := by
  induction r with
  | start => simpa [trace] using h
  | write _ hw ha _ ih =>
    rw [trace_append,trace_one,← List.append_assoc]
    exact tracked_write ih ha hw
  | flush b _ ih => exact tracked_flush b ih

theorem run_tidy (h : Tracked c₀.sink es) (h₀ : Tidy K c₀ (generations es))
    (r : CachedRun (Tended K) c₀ c ws) : Tidy K c (generations (es++trace ws)) := by
  induction r with
  | start => simpa [trace] using h₀
  | write r hw ha hg ih =>
    rw [trace_append,trace_one,← List.append_assoc]
    exact tidy_write (run_tracked h r) ha hg hw ih
  | flush b _ ih => exact tidy_flush b ih

/-- A run flushes every region of `K` it leaves, or has lost a record there. -/
theorem run_tended (h : Tracked c₀.sink es) (r : CachedRun (fun _ _ => True) c₀ c ws) :
    CachedRun (Tended K) c₀ c ws ∨
      ∃ f ∈ K, ∃ j, Lost c f j ∧ RecordByte (generations (es++trace ws)) f j := by
  induction r with
  | start => exact Or.inl .start
  | @write c t call n ws fs r hw ha _ ih =>
    have hs := run_tracked h r
    rw [trace_append,trace_one,← List.append_assoc,generations_append]
    rcases ih with r' | ⟨f,hf,j,hl,hbyte⟩
    · by_cases hg : Tended K c call
      · exact Or.inl (r'.write hw ha hg)
      · obtain ⟨f,hf,j,hl,hbyte⟩ := lost_left hs ha hw hg
        exact Or.inr ⟨f,hf,j,hl,record_later fs hbyte⟩
    · exact Or.inr ⟨f,hf,j,lost_write hs ha hw hl,record_later fs hbyte⟩
  | flush b _ ih =>
    rcases ih with r' | ⟨f,hf,j,hl,hbyte⟩
    · exact Or.inl (r'.flush b)
    · exact Or.inr ⟨f,hf,j,lost_flush b hl,hbyte⟩

theorem construct_tracked {g : Settings} {os : Os} {w : World} {s : State}
    (h : construct g os w = .ok (s,es)) (hf : os.fstatOk = true) (hr : Roomy s) : Tracked s es := by
  obtain ⟨d,ds,k,hk⟩ := construct_kept h hf hr
  refine ⟨(construct_bounded h).1,d,ds,k,hk,fun m hm => ?_⟩
  obtain ⟨i,u,ho,rfl⟩ := construct_ok h
  obtain ⟨-,hoff,-⟩ := hk.laid.live m hm
  rw [(mapRegion_bounded os ho.mmapPtr ho.mmapOffset).2,hk.laid.position,length_bytes] at hoff
  omega

theorem construct_tidy {g : Settings} {os : Os} {w : World} {s : State} (d : Dirty ℕ)
    (h : construct g os w = .ok (s,es)) : Tidy K ⟨s,d⟩ (generations es) := by
  obtain ⟨i,u,ho,-⟩ := construct_ok h
  intro f _ j hbyte
  rw [ho.events] at hbyte
  have hnone : RecordByte (generations []) f j := record_opened i (u.fs.files i) hbyte
  obtain ⟨d,hd,-⟩ := hnone
  cases hd

end Runs

/-- Whatever was dirty before and whatever system calls fail, the files being modified
by nobody else, and for any files `K`, such as all ever opened or those that still have
a name: after a flush the data of every write to a file of `K` that returned its size
survives any crash exactly when each region of such a file was flushed before a write
left it. -/
theorem flushed_durable (g : Settings) (os : Os) (w : World) (s₀ : State) (d₀ : Dirty ℕ)
    (es : List Event) (ws : List Written) (c : Cached) (K : Set ℕ)
    (h : construct g os w = .ok (s₀,es)) (hf : os.fstatOk = true) (h₀ : Roomy s₀)
    (r : CachedRun (fun _ _ => True) ⟨s₀,d₀⟩ c ws) :
    Durable K (c.flush true) (history es ws) ↔ CachedRun (Tended K) ⟨s₀,d₀⟩ c ws := by
  have hstart : Tracked (Cached.mk s₀ d₀).sink es := construct_tracked h hf h₀
  obtain ⟨-,e,hs,k,hk,-⟩ := run_tracked hstart r
  have hfiles : ∀ d ∈ generations (es++trace ws),
      d.bytes <+: (c.flush true).sink.fs.files d.file := by
    intro d hd
    rw [hk.history] at hd
    rw [flush_sink]
    exact (kept_secure hk hd).kept
  rw [← durable_compact,← history_compact h (cached_writes r),durable_iff hfiles]
  constructor
  · intro hclean
    rcases run_tended hstart r with r' | ⟨f,hK,j,hl,hbyte⟩
    · exact r'
    · have hdirty := (lost_flush true hl).dirty
      rw [hclean f hK j hbyte] at hdirty
      cases hdirty
  · intro r' f hK j hbyte
    by_contra hd
    obtain ⟨m,hm,rfl,hlo,hhi⟩ := tidy_flush true (run_tidy hstart (construct_tidy d₀ h) r') f hK j
      hbyte (Bool.eq_true_of_not_eq_false hd)
    exact hd (flush_synced K c m hm hK j hlo hhi)

/-- A page and a record, the page flushed before the turnover. -/
theorem flushed_durable_turnover : ∃ (s₀ : State) (es : List Event) (ws : List Written)
    (c : Cached), construct pageSettings (pageOs 4096) .empty = .ok (s₀,es) ∧
    CachedRun (Tended Set.univ) ⟨s₀,fun _ _ => false⟩ c ws ∧
    ws.map Written.call = pageAndRecord ∧
    history es ws = [⟨0,[],pageAndRecord.map Call.data⟩] ∧
    Durable Set.univ (c.flush true) (history es ws) := by
  have hv : (construct pageSettings (pageOs 4096) .empty).toOption.any fun r =>
      decide (Roomy r.1) && (r.1.writes attends [⟨pageOs 4096,page⟩]).any fun p =>
        (p.2.writes attends [⟨pageOs 4096,record128⟩]).any fun q =>
          history r.2 (p.1++q.1) == [⟨0,[],pageAndRecord.map Call.data⟩] := by
    decide +kernel
  obtain ⟨⟨s₀,es⟩,h,hv⟩ := (Option.any_eq_true _ _).mp hv
  obtain ⟨hroomy,hv⟩ := Bool.and_eq_true_iff.mp hv
  obtain ⟨⟨vs,s⟩,h₁,hv⟩ := (Option.any_eq_true _ _).mp hv
  obtain ⟨⟨ws,t⟩,h₂,hhist⟩ := (Option.any_eq_true _ _).mp hv
  have hhist := eq_of_beq hhist
  have hok : ∀ (s : State) (c : Call) (n : ℕ) (t : State), attends s c = true → Attended s c n t :=
    fun s c n t => attended_of_check s c n t
  obtain ⟨r₁,hc₁⟩ := writes_some (fun s c n t _ => hok s c n t) .start h₁
  obtain ⟨r₂,hc₂⟩ := writes_some (fun s c n t _ => hok s c n t) .start h₂
  obtain ⟨v,rfl,hcall₁⟩ := List.map_eq_singleton_iff.mp hc₁
  obtain ⟨w,rfl,hcall₂⟩ := List.map_eq_singleton_iff.mp hc₂
  obtain ⟨hwrite₁,ha₁⟩ := writes_one r₁
  obtain ⟨hwrite₂,ha₂⟩ := writes_one r₂
  let c₁ : Cached := (Cached.wrote ⟨s₀,fun _ _ => false⟩ s v.result).flush true
  have hsink : c₁.sink = s := flush_sink true _
  have run : ∀ ok : Cached → Call → Prop, ok ⟨s₀,fun _ _ => false⟩ v.call → ok c₁ w.call →
      CachedRun ok ⟨s₀,fun _ _ => false⟩ (c₁.wrote t w.result) ([v]++[w]) := by
    intro ok g₁ g₂
    refine ((CachedRun.start.write hwrite₁ ha₁ g₁).flush true).write ?_ ?_ g₂
    · exact hsink.symm ▸ hwrite₂
    · exact hsink.symm ▸ ha₂
  have htended : CachedRun (Tended Set.univ) ⟨s₀,fun _ _ => false⟩ (c₁.wrote t w.result)
      ([v]++[w]) := run _ (fun _ _ _ _ _ _ _ => rfl) fun _ => flush_synced Set.univ _
  have h₀ := built_some h
  have hdurable := (flushed_durable pageSettings (pageOs 4096) .empty s₀ (fun _ _ => false) es _ _
    Set.univ h₀ rfl (of_decide_eq_true hroomy) (run _ trivial trivial)).mpr htended
  refine ⟨s₀,es,_,_,h₀,htended,?_,hhist,hdurable⟩
  show [v.call,w.call] = pageAndRecord
  rw [hcall₁,hcall₂]
  rfl

end MpmcLogger.SinkDurability
