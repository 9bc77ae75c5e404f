import MpmcLogger.SinkShift

/-!
# Logs across rotations

A rotation moves every rotated file one place up and the current file to the
first place. With regions of whole pages and records that divide a page, every
region is filled exactly, every mapping succeeds, and a file is full of records
when it is rotated: the files in order hold the newest generations, entire.
-/

set_option autoImplicit false

namespace MpmcLogger.SinkRotation
open MachineWord FileStore MpmcLogger.SinkMachine MpmcLogger.SinkSteps MpmcLogger.SinkBounds
open MpmcLogger.SinkAlignment MpmcLogger.SinkGenerations MpmcLogger.SinkShift

def Sized (s : State) : Prop := ∀ i, s.fd = some i → (s.fs.files i).length < 2^63

def Recording (P : ℕ) (s : State) (c : Call) (_ : ℕ) (_ : State) : Prop :=
  c.os = pageOs P ∧ c.data.length = 128 ∧ Sized s

structure Paged (P : ℕ) (g : Settings) : Prop where
  records : 128 ∣ P
  pages : P ∣ g.regionSize
  region : 0 < g.regionSize
  keeps : 1 ≤ g.maxRotated

structure Archived (s : State) (g h : Generation) : Prop where
  content : s.fs.files h.file = h.bytes
  created : h.file < s.fs.next
  closed : h.file ≠ g.file

structure Rotating (s : State) (tr : List Event) (g : Generation) (gs : List Generation) (k : ℕ) :
    Prop where
  history : generations tr = g::gs
  serving : Serving s
  laid : Laid s g.file g.bytes k
  created : g.file < s.fs.next
  current : s.fs.names s.settings.basePath = some g.file
  fresh : ∀ h ∈ g::gs, h.before = []
  whole : ∀ h ∈ g::gs, ∀ r ∈ h.records, r.length = 128
  older : ∀ h ∈ gs, Archived s g h
  names : ∀ j, 1 ≤ j → j ≤ s.settings.maxRotated →
    s.fs.names (rotatedName s.settings.basePath j) = (gs[j-1]?).map Generation.file
  boundary : 128 ∣ s.mmapOffset
  rotations : s.rotationCount = u64 gs.length
  aligned : ∀ m, s.mapping = some m → s.settings.regionSize ∣ m.offset

section Steps

variable {P : ℕ} {s t : State} {tr es : List Event} {data : Bytes} {g : Generation}
  {gs : List Generation} {k : ℕ}

theorem mapRegion_mapped {os : Os} {i : ℕ} (hfd : s.fd = some i) (hnone : s.mmapPtr = none)
    (hm : (s.mapRegion os).mmapPtr ≠ none) : s.mapRegion os = mapped s i := by
  have hstep := mapRegion_step os hfd
  generalize s.mapRegion os = u at hstep hm ⊢
  cases hstep with
  | notExtended _ => exact absurd hnone hm
  | notMapped _ _ => exact absurd rfl hm
  | mapped _ _ => rfl

theorem rotating_live (hr : Rotating s tr g gs k) : ∃ m, s.mapping = some m ∧
    m.length = s.settings.regionSize ∧ m.file = g.file ∧
    m.offset+s.mmapOffset = s.fileOffset ∧ s.mmapOffset+k = s.settings.regionSize ∧
    s.settings.regionSize ∣ m.offset := by
  obtain ⟨m,hm,hlen⟩ := hr.serving.bounded.live hr.serving.mapped
  obtain ⟨hfile,hoff,hk⟩ := hr.laid.live m hm
  exact ⟨m,hm,hlen,hfile,hoff,hk.trans hlen,hr.aligned m hm⟩

theorem rotating_roomy (hr : Rotating s tr g gs k) (hsize : Sized s) : Roomy s := by
  obtain ⟨m,-,-,-,hoff,hk,-⟩ := rotating_live hr
  have hlen := hsize g.file hr.laid.fd
  rw [hr.laid.content,List.length_append,List.length_replicate,← hr.laid.position] at hlen
  unfold Roomy
  omega

/-- A region with no room for another record is full to its last byte. -/
theorem full_region (hP : Paged P s.settings) (hr : Rotating s tr g gs k)
    (hover : s.overflows 128) :
    k = 0 ∧ s.settings.regionSize ∣ s.fileOffset := by
  obtain ⟨m,-,-,-,hoff,hk,hdvd⟩ := rotating_live hr
  have h128 : 128 ∣ s.settings.regionSize := hP.records.trans hP.pages
  have hle := u64_le (s.mmapOffset+128)
  unfold State.overflows at hover
  obtain ⟨a,ha⟩ := hr.boundary
  obtain ⟨b,hb⟩ := h128
  have hfull : s.mmapOffset = s.settings.regionSize := by omega
  refine ⟨by omega,?_⟩
  rw [← hoff,hfull]
  exact dvd_add hdvd (dvd_refl _)

theorem rotating_ready (hP : Paged P s.settings) (hr : Rotating s tr g gs k)
    (hd : data.length = 128) : ∃ t es, s.prepare (pageOs P) data = .ready t es := by
  apply (prepare_ready_iff hr.serving (by omega)).mpr
  intro hover
  rw [hd] at hover
  exact Or.inr (hP.pages.trans (full_region hP hr hover).2)

theorem rotating_stays (hr : Rotating s tr g gs k) (hroomy : Roomy s)
    (hdvd : s.settings.regionSize ∣ s.fileOffset)
    (hm : (s.unmapRegion.mapRegion (pageOs P)).mmapPtr ≠ none)
    (hserving : Serving (s.unmapRegion.mapRegion (pageOs P))) :
    (∃ k', Rotating (s.unmapRegion.mapRegion (pageOs P)) tr g gs k') ∧
      Roomy (s.unmapRegion.mapRegion (pageOs P)) := by
  have hfd : s.unmapRegion.fd = some g.file := by simpa using hr.laid.fd
  have hroomy' : Roomy s.unmapRegion := by
    unfold Roomy at *
    simpa using hroomy
  obtain ⟨k',hlaid⟩ := laid_map (pageOs P) (laid_unmap hr.laid) hroomy'
  refine ⟨?_,(roomy_mapRegion _ _).mpr hroomy'⟩
  rw [mapRegion_mapped hfd (unmap_mmapPtr s) hm] at *
  refine ⟨k',hr.history,hserving,hlaid,by simpa [mapped,extended] using hr.created,?_,hr.fresh,
    hr.whole,?_,?_,dvd_zero _,by simpa [mapped,extended] using hr.rotations,?_⟩
  · simpa [mapped,extended] using hr.current
  · intro h hh
    obtain ⟨hc,hlt,hne⟩ := hr.older h hh
    exact ⟨by simpa [mapped,extended,hne] using hc,by simpa [mapped,extended] using hlt,hne⟩
  · simpa [mapped,extended] using hr.names
  · intro m hm
    rw [mapped_mapping] at hm
    obtain rfl := Option.some.inj hm
    simpa [mapped,extended] using hdvd

/-- The file a rotation opens is new and empty; every older file stays as it is. -/
theorem reopened_files (hN : 1 ≤ s.settings.maxRotated) {i : ℕ} {u : State}
    (ho : Opened (pageOs P) (rotated (pageOs P) s) i u es) :
    i = s.fs.next ∧ u.fs.files i = [] ∧ i < u.fs.next ∧
      ∀ j, j < s.fs.next → u.fs.files j = s.fs.files j := by
  obtain ⟨hfree,-,-⟩ := @rotate_names (pageOs P) s.fs (fun _ => rfl) s.settings hN
  obtain ⟨hfiles,hnext⟩ := performs_files (pageOs P) (rotateCalls s.settings) s.fs
  have hcreated := ho.created
  have hnumber := ho.number
  have hempty : u.fs.files i = [] := opened_fresh ho (by simpa using hfree)
  rw [rotated_fs,rotated_settings] at hcreated hnumber
  refine ⟨?_,hempty,?_,fun j hj => ?_⟩
  · rw [hnumber,(create_absent hfree).1,hnext]
  · rw [hcreated,hnumber]
    exact create_lt _
  · rw [hcreated,create_files _ (by rw [hnext]; exact hj),hfiles]

/-- The base name is the new file's, every rotated name that of its predecessor. -/
theorem reopened_names (hN : 1 ≤ s.settings.maxRotated) {i : ℕ} {u : State}
    (ho : Opened (pageOs P) (rotated (pageOs P) s) i u es) :
    u.fs.names s.settings.basePath = some i ∧
    u.fs.names (rotatedName s.settings.basePath 1) = s.fs.names s.settings.basePath ∧
    ∀ j, 1 ≤ j → j < s.settings.maxRotated →
      u.fs.names (rotatedName s.settings.basePath (j+1)) =
        s.fs.names (rotatedName s.settings.basePath j) := by
  obtain ⟨-,hfirst,hup⟩ := @rotate_names (pageOs P) s.fs (fun _ => rfl) s.settings hN
  have hcreated := ho.created
  have hnumber := ho.number
  rw [rotated_fs,rotated_settings] at hcreated hnumber
  have hother : ∀ j, u.fs.names (rotatedName s.settings.basePath j) =
      ((rotateCalls s.settings).foldl (pageOs P).perform s.fs).names
        (rotatedName s.settings.basePath j) := by
    intro j
    rw [hcreated]
    exact create_other _ (rotatedName_ne _ _).symm
  refine ⟨?_,(hother 1).trans hfirst,fun j hj hlt => (hother (j+1)).trans (hup j hj hlt)⟩
  rw [hcreated,hnumber]
  exact create_names _

theorem rotating_reopened (hP : Paged P s.settings) (hr : Rotating s tr g gs 0) {i : ℕ} {u : State}
    (ho : Opened (pageOs P) (rotated (pageOs P) s) i u es)
    (hm : (u.mapRegion (pageOs P)).mmapPtr ≠ none)
    (hserving : Serving (u.mapRegion (pageOs P))) :
    (∃ k', Rotating (u.mapRegion (pageOs P)) (tr++es) ⟨i,[],[]⟩ (g::gs) k') ∧
      Roomy (u.mapRegion (pageOs P)) := by
  have hset : u.settings = s.settings := (opened_unmapped ho).2.2
  obtain ⟨hi,hempty,hcreated,hold⟩ := reopened_files hP.keeps ho
  obtain ⟨hbase,hfirst,hup⟩ := reopened_names hP.keeps ho
  have hroomy : Roomy u := by
    have hfits := u.settings.region_fits
    unfold Roomy
    rw [ho.fileOffset,hempty]
    simpa [pageOs,Os.succeeds] using hfits
  obtain ⟨k',hlaid⟩ := laid_map (pageOs P) (laid_opened ho rfl (rotated_mmapPtr _ s)) hroomy
  refine ⟨?_,(roomy_mapRegion _ _).mpr hroomy⟩
  rw [mapRegion_mapped ho.fd (opened_unmapped ho).1 hm] at *
  have harchived : ∀ h : Generation, s.fs.files h.file = h.bytes → h.file < s.fs.next →
      Archived (mapped u i) ⟨i,[],[]⟩ h := by
    intro h hc hlt
    have hne : h.file ≠ i := by omega
    exact ⟨by simpa [mapped,extended,hne] using (hold _ hlt).trans hc,
      by show h.file < u.fs.next; omega,hne⟩
  refine ⟨k',?_,hserving,?_,hcreated,?_,?_,?_,?_,?_,dvd_zero _,?_,?_⟩
  · rw [generations_append,hr.history,ho.events,hempty]
    rfl
  · rwa [hempty] at hlaid
  · show u.fs.names u.settings.basePath = some i
    rw [hset]
    exact hbase
  · intro h hh
    rcases List.mem_cons.mp hh with rfl | hh
    · rfl
    · exact hr.fresh h hh
  · intro h hh
    rcases List.mem_cons.mp hh with rfl | hh
    · simp
    · exact hr.whole h hh
  · intro h hh
    rcases List.mem_cons.mp hh with rfl | hh
    · exact harchived h (by simpa using hr.laid.content) hr.created
    · exact harchived h (hr.older h hh).content (hr.older h hh).created
  · show ∀ j, 1 ≤ j → j ≤ u.settings.maxRotated →
      u.fs.names (rotatedName u.settings.basePath j) = _
    rw [hset]
    intro j h1 hN
    obtain rfl | ⟨j,rfl⟩ : j = 1 ∨ ∃ i, j = i+2 := by
      rcases Nat.lt_or_ge j 2 with hj | hj
      · exact Or.inl (by omega)
      · exact Or.inr ⟨j-2,by omega⟩
    · rw [hfirst,hr.current]
      rfl
    · rw [hup (j+1) (by omega) (by omega),hr.names (j+1) (by omega) (by omega)]
      rfl
  · show u.rotationCount = u64 (gs.length+1)
    rw [ho.rotationCount,rotated_rotationCount,hr.rotations]
    exact Nat.mod_add_mod _ _ _
  · intro m hm
    rw [mapped_mapping] at hm
    obtain rfl := Option.some.inj hm
    show u.settings.regionSize ∣ u.fileOffset
    rw [ho.fileOffset,hempty]
    exact dvd_zero _

theorem ready_rotating (hP : Paged P s.settings) (hr : Rotating s tr g gs k) (hroomy : Roomy s)
    (hd : data.length = 128) (h : s.prepare (pageOs P) data = .ready t es) :
    (∃ g' gs' k', Rotating t (tr++es) g' gs' k') ∧ Roomy t := by
  have hserving := prepare_serving hr.serving h
  have hstep := prepare_step (pageOs P) data s
  rw [h] at hstep
  cases hstep with
  | fits _ _ _ => exact ⟨⟨g,gs,k,by simpa using hr⟩,hroomy⟩
  | stays _ _ hf hrot hm =>
    obtain ⟨-,hdvd⟩ := full_region hP hr (by rwa [hd] at hf)
    obtain ⟨⟨k',hk'⟩,hroomy'⟩ := rotating_stays hr hroomy hdvd hm hserving
    exact ⟨⟨g,gs,k',by simpa using hk'⟩,hroomy'⟩
  | reopened _ _ hf hrot ho hm =>
    obtain ⟨rfl,-⟩ := full_region hP hr (by rwa [hd] at hf)
    obtain ⟨⟨k',hk'⟩,hroomy'⟩ := rotating_reopened hP hr ho hm hserving
    exact ⟨⟨_,_,k',hk'⟩,hroomy'⟩

theorem copied_rotating (hr : Rotating s tr g gs k) (hroomy : Roomy s) (hd : data.length = 128)
    {m : Mapping} (hm : s.mapping = some m) (hfit : s.mmapOffset+data.length ≤ m.length) :
    ∃ g' gs' k', Rotating (copied data s m) (tr++[.stored data]) g' gs' k' := by
  obtain ⟨hfile,-,-⟩ := hr.laid.live m hm
  have hlaid := laid_copied hr.laid hr.serving.bounded hroomy hm hfit
  have hmoff := (copied_offsets hr.serving.bounded hroomy hm hfit).1
  have hbounded := copied_bounded hr.serving.bounded hm hr.serving.mapped hfit
  have hbytes : ({ g with records := g.records++[data] } : Generation).bytes = g.bytes++data := by
    simp [Generation.bytes]
  refine ⟨{ g with records := g.records++[data] },gs,k-data.length,?_,
    ⟨hbounded,hr.serving.mapped,hr.serving.opened,hr.serving.region⟩,by rwa [hbytes],hr.created,
    hr.current,?_,?_,?_,hr.names,?_,hr.rotations,hr.aligned⟩
  · rw [generations_append,hr.history]
    rfl
  · intro h hh
    rcases List.mem_cons.mp hh with rfl | hh
    · exact hr.fresh g (List.mem_cons_self ..)
    · exact hr.fresh h (List.mem_cons_of_mem _ hh)
  · intro h hh r hrec
    rcases List.mem_cons.mp hh with rfl | hh
    · rcases List.mem_append.mp hrec with hrec | hrec
      · exact hr.whole g (List.mem_cons_self ..) r hrec
      · obtain rfl := List.mem_singleton.mp hrec
        exact hd
    · exact hr.whole h (List.mem_cons_of_mem _ hh) r hrec
  · intro h hh
    obtain ⟨hc,hlt,hne⟩ := hr.older h hh
    refine ⟨?_,hlt,hne⟩
    show (s.fs.put m.file _).files h.file = _
    rw [put_files,hfile,if_neg hne]
    exact hc
  · rw [hmoff,hd]
    exact dvd_add hr.boundary (dvd_refl _)

/-- A record is stored, behind a turnover if need be. -/
theorem write_rotating (hP : Paged P s.settings) (hr : Rotating s tr g gs k)
    (hsize : Sized s) (hd : data.length = 128) :
    ∃ t es, s.write (pageOs P) data = .returned 128 t es ∧
      ∃ g' gs' k', Rotating t (tr++es) g' gs' k' := by
  have hroomy := rotating_roomy hr hsize
  obtain ⟨u,fs,hu⟩ := rotating_ready hP hr hd
  obtain ⟨⟨g',gs',k',hr'⟩,hroomy'⟩ := ready_rotating hP hr hroomy hd hu
  obtain ⟨m,hm,hlen,-⟩ := rotating_live hr'
  have hset : u.settings = s.settings := (prepare_ready hr.serving.bounded hu).2.1
  have hin : InRange s data.length := by
    obtain ⟨m₀,-,-,-,hoff,-⟩ := rotating_live hr
    have hbelow := hsize g.file hr.laid.fd
    rw [hr.laid.content,List.length_append,← hr.laid.position] at hbelow
    rw [hd]
    exact ⟨Nat.le_of_dvd hP.region (hP.records.trans hP.pages),by omega⟩
  have hfit : u.mmapOffset+data.length ≤ m.length := by
    rw [hlen,hset]
    exact (ready_fits hr.serving.bounded hu).mpr hin
  have hw : s.write (pageOs P) data = .returned 128 (copied data u m) (fs++[.stored data]) := by
    unfold State.write
    rw [hu,← hd]
    exact memcpy_within hm hfit
  refine ⟨_,_,hw,?_⟩
  rw [← List.append_assoc]
  exact copied_rotating hr' hroomy' hd hm hfit

theorem construct_rotating {g : Settings} {w : World} (hP : Paged P g)
    (habs : w.fs.names g.basePath = none)
    (hrot : ∀ j, 1 ≤ j → j ≤ g.maxRotated → w.fs.names (rotatedName g.basePath j) = none)
    (h : construct g (pageOs P) w = .ok (s,es)) :
    ∃ i k, es = [.opened i []] ∧ Rotating s es ⟨i,[],[]⟩ [] k := by
  obtain ⟨s',es',h',hserving,-⟩ := construct_serving (P := P) g hP.region w habs
  rw [h] at h'
  cases h'
  obtain ⟨i,u,ho,rfl⟩ := construct_ok h
  have hset : u.settings = g := ho.settings
  have hempty : u.fs.files i = [] := opened_fresh ho habs
  have hcreated : u.fs = (w.fs.create g.basePath).1 := ho.created
  have hnumber : i = (w.fs.create g.basePath).2 := ho.number
  have hoff : u.fileOffset = 0 := by
    rw [ho.fileOffset,hempty]
    rfl
  have hroomy : Roomy u := by
    have hfits := u.settings.region_fits
    unfold Roomy
    rwa [hoff,Nat.zero_add]
  have hes : es = [.opened i []] := by rw [ho.events,hempty]
  obtain ⟨k,hlaid⟩ := laid_map (pageOs P) (laid_opened ho rfl rfl) hroomy
  rw [hempty] at hlaid
  rw [mapRegion_mapped ho.fd ho.mmapPtr hserving.mapped] at *
  refine ⟨i,k,hes,?_,hserving,hlaid,?_,?_,by simp,by simp,by simp,?_,dvd_zero _,?_,?_⟩
  · rw [hes]
    rfl
  · show i < u.fs.next
    rw [hcreated,hnumber]
    exact create_lt _
  · show u.fs.names u.settings.basePath = some i
    rw [hset,hcreated,hnumber]
    exact create_names _
  · show ∀ j, 1 ≤ j → j ≤ u.settings.maxRotated →
      u.fs.names (rotatedName u.settings.basePath j) = none
    rw [hset,hcreated]
    intro j h1 hN
    rw [create_other _ (rotatedName_ne _ _).symm]
    exact hrot j h1 hN
  · exact ho.rotationCount
  · intro m hm
    rw [mapped_mapping] at hm
    obtain rfl := Option.some.inj hm
    show u.settings.regionSize ∣ u.fileOffset
    rw [hoff]
    exact dvd_zero _

/-- Every record is stored, and the sink goes on rotating. -/
theorem writes_rotating {s₀ : State} {es₀ : List Event} {ws : List Written}
    (hP : Paged P s₀.settings) (hr : ∃ g gs k, Rotating s₀ es₀ g gs k)
    (r : Writes (Recording P) s₀ ws s) :
    s.settings = s₀.settings ∧ (∀ w ∈ ws, w.result = 128 ∧ w.call.data.length = 128) ∧
      ∃ g gs k, Rotating s (es₀++trace ws) g gs k := by
  induction r with
  | start => exact ⟨rfl,by simp,by simpa [trace] using hr⟩
  | next r hw hc ih =>
    obtain ⟨hset,hall,g,gs,k,hk⟩ := ih
    obtain ⟨hos,hd,hsize⟩ := hc
    obtain ⟨t,fs,ht,hnew⟩ := write_rotating (by rwa [hset]) hk hsize hd
    rw [hos,ht] at hw
    cases hw
    obtain ⟨hb,hset'⟩ := write_bounded hk.serving.bounded ht
    refine ⟨hset'.trans hset,fun w hw => ?_,?_⟩
    · rcases List.mem_append.mp hw with hw | hw
      · exact hall w hw
      · obtain rfl := List.mem_singleton.mp hw
        exact ⟨rfl,hd⟩
    · rw [trace_append,trace_one,← List.append_assoc]
      exact hnew

theorem rotating_sized (hr : Rotating s tr g gs k)
    (hlow : s.fileOffset+s.settings.regionSize < 2^63) : Sized s := by
  obtain ⟨m,-,-,-,-,hk,-⟩ := rotating_live hr
  intro i hi
  obtain rfl : i = g.file := Option.some.inj (hi.symm.trans hr.laid.fd)
  rw [hr.laid.content,List.length_append,List.length_replicate,← hr.laid.position]
  omega

def Small (P : ℕ) (s : State) (c : Call) (_ : ℕ) (_ : State) : Prop :=
  c.os = pageOs P ∧ c.data.length = 128 ∧ s.fileOffset+s.settings.regionSize < 2^63

theorem recording_of_small {s₀ : State} {es₀ : List Event} {ws : List Written}
    (hP : Paged P s₀.settings) (hr : ∃ g gs k, Rotating s₀ es₀ g gs k)
    (r : Writes (Small P) s₀ ws s) : Writes (Recording P) s₀ ws s := by
  induction r with
  | start => exact .start
  | next r hw hc ih =>
    obtain ⟨-,-,g,gs,k,hk⟩ := writes_rotating hP hr ih
    exact ih.next hw ⟨hc.1,hc.2.1,rotating_sized hk hc.2.2⟩

end Steps

section Retained

def dataOf (ws : List Written) : Bytes := ws.flatMap fun w => w.call.data

def logBytes (gs : List Generation) : Bytes := gs.reverse.flatMap fun h => h.records.flatten

def retained (s : State) : Bytes :=
  ((List.range s.settings.maxRotated).reverse.flatMap fun j =>
    (s.fs.read (rotatedName s.settings.basePath (j+1))).getD [])++
  ((s.fs.read s.settings.basePath).getD []).take s.fileOffset

theorem logBytes_append (gs hs : List Generation) :
    logBytes (gs++hs) = logBytes hs++logBytes gs := by
  simp [logBytes]

theorem logBytes_take (gs : List Generation) (n : ℕ) : logBytes (gs.take n) <:+ logBytes gs := by
  refine ⟨logBytes (gs.drop n),?_⟩
  rw [← logBytes_append,List.take_append_drop]

@[simp] theorem logBytes_compact (gs : List Generation) :
    logBytes (gs.map Generation.compact) = logBytes gs := by
  simp [logBytes,← List.map_reverse,List.flatMap_map]

theorem opening_logBytes (es : List Event) (gs : List Generation) :
    logBytes (es.foldl opening gs) = logBytes gs ∧ (gs ≠ [] → es.foldl opening gs ≠ []) := by
  induction es generalizing gs with
  | nil => exact ⟨rfl,id⟩
  | cons e es ih =>
    obtain ⟨hbytes,hne⟩ := ih (opening gs e)
    cases e with
    | opened i before => exact ⟨hbytes.trans (by simp [opening,logBytes]),fun _ => hne (by simp [opening])⟩
    | stored data => exact ⟨hbytes,hne⟩

theorem logBytes_logged {gs : List Generation} {w : Written} (hgs : gs ≠ [])
    (hw : w.result = w.call.data.length) :
    logBytes (logged gs w) = logBytes gs++w.call.data ∧ logged gs w ≠ [] := by
  obtain ⟨hbytes,hne⟩ := opening_logBytes w.events gs
  unfold logged
  split
  · next hnil => exact absurd hnil (hne hgs)
  · next g' gs' hcons =>
    rw [if_pos hw,← hbytes,hcons]
    simp [logBytes]

theorem logBytes_history (es : List Event) (ws : List Written) (hes : es.foldl opening [] ≠ [])
    (h : ∀ w ∈ ws, w.result = w.call.data.length) :
    logBytes (history es ws) = dataOf ws ∧ history es ws ≠ [] := by
  induction ws using List.reverseRecOn with
  | nil => exact ⟨(opening_logBytes es []).1,hes⟩
  | append_singleton ws w ih =>
    obtain ⟨hbytes,hne⟩ := ih fun v hv => h v (List.mem_append_left _ hv)
    rw [history_append]
    obtain ⟨hlog,hlogged⟩ := logBytes_logged hne (h w (by simp))
    refine ⟨?_,hlogged⟩
    rw [hlog,hbytes]
    simp [dataOf]

theorem history_records {n : ℕ} {es : List Event} {ws : List Written}
    (h : ∀ w ∈ ws, w.call.data.length = n) :
    ∀ d ∈ history es ws, ∀ r ∈ d.records, r.length = n := by
  induction ws using List.reverseRecOn with
  | nil =>
    intro d hd r hr
    obtain ⟨e,he,-⟩ := opening_records es hd hr
    cases he
  | append_singleton ws w ih =>
    intro d hd r hr
    rw [history_append] at hd
    rcases logged_records hd hr with ⟨e,he,hr⟩ | ⟨rfl,-⟩
    · exact ih (fun v hv => h v (List.mem_append_left _ hv)) e he r hr
    · exact h w (by simp)

theorem logBytes_newest (gs : List Generation) (n : ℕ) :
    ((List.range n).reverse.flatMap fun j =>
      ((gs[j]?).map fun h => h.records.flatten).getD []) = logBytes (gs.take n) := by
  induction n with
  | zero => rfl
  | succ n ih =>
    rw [List.range_succ,List.reverse_append,List.flatMap_append,ih,List.take_add_one,
      logBytes_append]
    cases h : gs[n]? <;> simp [logBytes,h]

variable {s : State} {tr : List Event} {g : Generation} {gs : List Generation} {k : ℕ}

theorem archived_read (hr : Rotating s tr g gs k) {j : ℕ} (hj : j < s.settings.maxRotated) :
    s.fs.read (rotatedName s.settings.basePath (j+1)) =
      (gs[j]?).map fun h => h.records.flatten := by
  unfold Store.read
  rw [hr.names (j+1) (by omega) (by omega),Nat.add_sub_cancel]
  cases hg : gs[j]? with
  | none => rfl
  | some h =>
    have hh : h ∈ gs := List.mem_of_getElem? hg
    simp [(hr.older h hh).content,Generation.bytes,hr.fresh h (List.mem_cons_of_mem _ hh)]

theorem current_read (hr : Rotating s tr g gs k) :
    ((s.fs.read s.settings.basePath).getD []).take s.fileOffset = g.records.flatten := by
  have hbytes : g.bytes = g.records.flatten := by
    simp [Generation.bytes,hr.fresh g (List.mem_cons_self ..)]
  rw [Store.read,hr.current,hr.laid.position,← hbytes]
  simp [hr.laid.content]

theorem retained_newest (hr : Rotating s tr g gs k) :
    retained s = logBytes ((g::gs).take (s.settings.maxRotated+1)) := by
  have hold : ((List.range s.settings.maxRotated).reverse.flatMap fun j =>
      (s.fs.read (rotatedName s.settings.basePath (j+1))).getD []) =
      logBytes (gs.take s.settings.maxRotated) := by
    rw [← logBytes_newest]
    apply List.flatMap_congr
    intro j hj
    rw [archived_read hr (by simpa using hj)]
  unfold retained
  rw [hold,current_read hr]
  simp [logBytes]

/-- All calls succeed but mappings off the page boundary; the sink is constructed
in a directory without files of its names and given records of 128 bytes. Every
write returns 128. After any run the files from the oldest to the current one hold
a suffix of the data of all writes: the newest generations entire, as many as there
are names, and so all of it up to `max_rotated` rotations. Every file holds whole
records from its first byte on, and the next record is stored too. -/
theorem retained_suffix (P : ℕ) (g : Settings) (w : World) (s₀ s : State) (es : List Event)
    (ws : List Written) (hP : Paged P g) (habs : w.fs.names g.basePath = none)
    (hrot : ∀ j, 1 ≤ j → j ≤ g.maxRotated → w.fs.names (rotatedName g.basePath j) = none)
    (h : construct g (pageOs P) w = .ok (s₀,es)) (r : Writes (Recording P) s₀ ws s) :
    (∀ c ∈ ws, c.result = 128 ∧ c.call.data.length = 128) ∧
    (retained s <:+ dataOf ws ∧ retained s = logBytes ((history es ws).take (g.maxRotated+1)) ∧
      dataOf ws = logBytes (history es ws) ∧
      ((history es ws).length ≤ g.maxRotated+1 → retained s = dataOf ws)) ∧
    s.rotationCount = u64 ((history es ws).length-1) ∧
    ((s.fs.read g.basePath).map (·.take s.fileOffset) =
        ((history es ws)[0]?).map fun h => h.records.flatten) ∧
    (∀ j, 1 ≤ j → j ≤ g.maxRotated → s.fs.read (rotatedName g.basePath j) =
        ((history es ws)[j]?).map fun h => h.records.flatten) ∧
    (∀ h ∈ history es ws, ∀ rec ∈ h.records, rec.length = 128) ∧
    ∀ data : Bytes, data.length = 128 → Sized s →
      ∃ t fs, s.write (pageOs P) data = .returned 128 t fs := by
  have hset₀ : s₀.settings = g := (construct_bounded h).2
  have hcompact := history_compact h r
  obtain ⟨i,k₀,rfl,hr₀⟩ := construct_rotating hP habs hrot h
  obtain ⟨hset,hall,c,cs,k,hr⟩ := writes_rotating (by rwa [hset₀]) ⟨_,_,_,hr₀⟩ r
  rw [hset₀] at hset
  subst hset
  have hhist := hr.history
  rw [hcompact] at hhist
  obtain ⟨hdata,-⟩ := logBytes_history [.opened i []] ws (List.cons_ne_nil _ _)
    fun w hw => (hall w hw).1.trans (hall w hw).2.symm
  have hnewest := retained_newest hr
  rw [← hhist,← List.map_take,logBytes_compact] at hnewest
  have hlen : (history [.opened i []] ws).length = cs.length+1 := by
    simpa using congrArg List.length hhist
  have hflat : ∀ j : ℕ, ((c::cs)[j]?).map (fun h : Generation => h.records.flatten) =
      ((history [.opened i []] ws)[j]?).map fun h : Generation => h.records.flatten := by
    intro j
    rw [← hhist,List.getElem?_map,Option.map_map]
    congr 1
    funext d
    exact compact_flatten d
  refine ⟨hall,⟨?_,hnewest,hdata.symm,?_⟩,?_,?_,?_,history_records fun w hw => (hall w hw).2,?_⟩
  · rw [← hdata,hnewest]
    exact logBytes_take _ _
  · intro hN
    rw [← hdata,hnewest,List.take_of_length_le hN]
  · rw [hlen,Nat.add_sub_cancel]
    exact hr.rotations
  · have hc := current_read hr
    rw [Store.read,hr.current] at hc ⊢
    rw [← hflat]
    exact congrArg some hc
  · intro j h1 hN
    obtain ⟨j,rfl⟩ : ∃ i, j = i+1 := ⟨j-1,by omega⟩
    rw [← hflat]
    exact archived_read hr (by omega)
  · intro data hd hsize
    obtain ⟨t,fs,ht,-⟩ := write_rotating hP hr hsize hd
    exact ⟨t,fs,ht⟩

def rotatingSettings : Settings := appLog 4096 4096 1

def entry (b : UInt8) : Bytes := List.replicate 128 b

def manyRecords : List Call := (List.range 33).map fun i => ⟨pageOs 4096,entry (UInt8.ofNat i)⟩

def checkSmall (s : State) (c : Call) : Bool :=
  decide (c.data.length = 128 ∧ s.fileOffset+s.settings.regionSize < 2^63)

/-- A page of records and one more, one rotation: all are retained. -/
theorem retained_suffix_rotation : ∃ (s₀ s : State) (es : List Event) (ws : List Written),
    construct rotatingSettings (pageOs 4096) .empty = .ok (s₀,es) ∧
    Writes (Recording 4096) s₀ ws s ∧ ws.map Written.call = manyRecords ∧ s.rotationCount = 1 ∧
    retained s = manyRecords.flatMap Call.data := by
  have hv : (construct rotatingSettings (pageOs 4096) .empty).toOption.any fun r =>
      (r.1.writes checkSmall manyRecords).any fun q =>
        decide (q.2.rotationCount = 1 ∧ (history r.2 q.1).length = 2) := by
    decide +kernel
  obtain ⟨⟨s₀,es⟩,h,hv⟩ := (Option.any_eq_true _ _).mp hv
  obtain ⟨⟨ws,s⟩,hs,hv⟩ := (Option.any_eq_true _ _).mp hv
  obtain ⟨hcount,hlen⟩ := of_decide_eq_true hv
  have hP : Paged 4096 rotatingSettings := ⟨by decide,dvd_refl _,by decide,le_refl _⟩
  have h₀ := built_some h
  obtain ⟨i,k,-,hr⟩ := construct_rotating hP rfl (fun _ _ _ => rfl) h₀
  have hset : s₀.settings = rotatingSettings := (construct_bounded h₀).2
  have hstart : Writes (Small 4096) s₀ [] s₀ := .start
  obtain ⟨r,hcalls⟩ := writes_some (fun s c n t hc hcheck => by
    obtain ⟨j,-,rfl⟩ := List.mem_map.mp hc
    exact ⟨rfl,of_decide_eq_true hcheck⟩) hstart hs
  have r' := recording_of_small (by rwa [hset]) ⟨_,_,_,hr⟩ r
  obtain ⟨-,⟨-,-,-,hall⟩,-⟩ :=
    retained_suffix 4096 rotatingSettings .empty s₀ s es ws hP rfl (fun _ _ _ => rfl) h₀ r'
  refine ⟨s₀,s,es,ws,h₀,r',hcalls,hcount,?_⟩
  rw [hall (by rw [hlen]; decide),dataOf,← hcalls,List.flatMap_map]

end Retained

end MpmcLogger.SinkRotation
