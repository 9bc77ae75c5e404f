import MpmcLogger.LogReader
import MpmcLogger.SinkGenerations

/-!
# Binary logs and their reader

A sink is destroyed without cutting off the unused rest of its last region; the
next sink on the same path appends behind that rest. The reader sees the entries
of all sessions, and nothing between them, exactly when every session fills its
regions.
-/

set_option autoImplicit false

namespace MpmcLogger.SinkRoundTrip
open MachineWord FileStore MpmcLogger.EntryLayout MpmcLogger.Formatter MpmcLogger.LogReader
  MpmcLogger.SinkMachine MpmcLogger.SinkSteps MpmcLogger.SinkBounds MpmcLogger.SinkGenerations

inductive Logged (s₀ : State) : List LogEntry → State → Prop
  | start : Logged s₀ [] s₀
  | entry {es : List LogEntry} {s t : State} {e : LogEntry} {n : ℕ} {evs : List Event}
      (l : Logged s₀ es s) (hr : Roomy s) (hk : s.overflows 128 → ¬s.rotates 128)
      (h : s.write .succeeds (BinaryFormatter.format e TextFormatter.maxFormattedSize) =
        .returned n t evs) : Logged s₀ (es++[e]) t

inductive Sessions (g : Settings) (w₀ : World) : List (List LogEntry) → World → Prop
  | start : Sessions g w₀ [] w₀
  | session {ess : List (List LogEntry)} {es : List LogEntry} {w : World} {s t : State}
      {evs : List Event} (l : Sessions g w₀ ess w) (hc : construct g .succeeds w = .ok (s,evs))
      (hr : Roomy s) (h : Logged s es t) : Sessions g w₀ (ess++[es]) t.destroy

def logFile (g : Settings) (w : World) : Bytes := (w.fs.read g.basePath).getD []

def RoundTrip (date : ℕ → DatePrefix) (p : DatePrefix) (g : Settings) (ess : List (List LogEntry))
    (w : World) : Prop :=
  (logReader date {} p (logFile g w)).printed.map Prod.fst = ess.flatten ∧
  (logReader date {} p (logFile g w)).total = ess.flatten.length ∧
  (logFile g w).length = 128*ess.flatten.length

def Fills (g : Settings) (es : List LogEntry) : Prop :=
  0 < es.length ∧ 128 ∣ g.regionSize ∧ g.regionSize ∣ 128*es.length

structure Logging (g : Settings) (s : State) (i : ℕ) (body : Bytes) (k n a : ℕ) : Prop where
  laid : Laid s i body k
  bounded : Bounded s
  settings : s.settings = g
  current : s.fs.names g.basePath = some i
  live : s.mmapPtr ≠ none
  offset : s.mmapOffset = 128*a
  filled : ∃ t, n = g.regionSize/128*t+a

section Steps

variable {g : Settings} {s t : State} {i k n a : ℕ} {body data : Bytes} {es : List Event}

theorem logging_region (h : Logging g s i body k n a) : 128*a+k = g.regionSize ∧
    128*a ≤ s.fileOffset := by
  obtain ⟨m,hm,hlen⟩ := h.bounded.live h.live
  obtain ⟨-,hoff,hk⟩ := h.laid.live m hm
  rw [hlen,h.settings,h.offset] at hk
  rw [h.offset] at hoff
  exact ⟨hk,by omega⟩

theorem succeeds_map (hfd : s.fd = some i) : s.mapRegion .succeeds = mapped s i := by
  rw [mapRegion_eq _ hfd]
  rfl

/-- The zeros are gone exactly when the entries end with a region. -/
theorem logging_zeros (h : Logging g s i body k n a) (ha : a = 0 → n = 0)
    (hR : 128 ≤ g.regionSize) : k = 0 ↔ 0 < n ∧ 128 ∣ g.regionSize ∧ g.regionSize ∣ 128*n := by
  obtain ⟨hk,-⟩ := logging_region h
  obtain ⟨t,ht⟩ := h.filled
  constructor
  · rintro rfl
    have hq : g.regionSize/128 = a := by omega
    rw [hq] at ht
    have ha : 0 < a := by omega
    refine ⟨by omega,⟨a,by omega⟩,⟨t+1,?_⟩⟩
    rw [ht,← hk]
    ring
  · rintro ⟨hn,⟨q,hq⟩,⟨c,hc⟩⟩
    have hq' : g.regionSize/128 = q := by omega
    have hdvd : q ∣ n := by
      refine ⟨c,Nat.eq_of_mul_eq_mul_left (by decide : 0 < 128) ?_⟩
      rw [hc,hq,mul_assoc]
    rw [hq'] at ht
    rw [ht,Nat.dvd_add_right ⟨t,rfl⟩] at hdvd
    have hle : q ≤ a := Nat.le_of_dvd (Nat.pos_of_ne_zero fun h0 => by omega) hdvd
    omega

theorem logging_ready (h : Logging g s i body k n a) (hR : 128 ≤ g.regionSize) (hr : Roomy s)
    (hrot : s.overflows 128 → ¬s.rotates 128) (hd : data.length = 128) :
    ∃ u es k' a', s.prepare .succeeds data = .ready u es ∧ Logging g u i body k' n a' ∧ Roomy u ∧
      128*(a'+1) ≤ g.regionSize := by
  obtain ⟨hk,hpos⟩ := logging_region h
  have hset := h.settings
  have hwrites : ¬(data.length = 0 ∨ s.mmapPtr = none) := by
    rintro (h0 | h0)
    · omega
    · exact h.live h0
  have hfit : s.overflows 128 ↔ g.regionSize < 128*(a+1) := by
    unfold Roomy at hr
    unfold State.overflows
    rw [hset] at hr ⊢
    rw [h.offset,u64_of_lt (by omega)]
    rfl
  by_cases hover : s.overflows 128
  · have hfull : a = g.regionSize/128 := by
      have := hfit.mp hover
      omega
    have hfd : s.unmapRegion.fd = some i := by simpa using h.laid.fd
    have hroomy : Roomy s.unmapRegion := by
      unfold Roomy at *
      simpa using hr
    obtain ⟨k',hlaid⟩ := laid_map .succeeds (laid_unmap h.laid) hroomy
    rw [succeeds_map hfd] at hlaid
    have hprep : s.prepare .succeeds data = .ready (mapped s.unmapRegion i) [] := by
      unfold State.prepare
      rw [if_neg hwrites,hd,if_pos hover,turnover_stays _ (hrot hover),succeeds_map hfd]
      exact if_neg (Option.some_ne_none _)
    obtain ⟨t,ht⟩ := h.filled
    refine ⟨_,_,k',0,hprep,⟨hlaid,mapped_bounded _ i,?_,?_,Option.some_ne_none _,rfl,t+1,?_⟩,?_,hR⟩
    · simpa [mapped,extended] using hset
    · simpa [mapped,extended] using h.current
    · rw [ht,hfull]
      ring
    · unfold Roomy at *
      simpa [mapped,extended] using hr
  · refine ⟨s,[],k,a,?_,h,hr,not_lt.mp fun hlt => hover (hfit.mpr hlt)⟩
    unfold State.prepare
    rw [if_neg hwrites,hd,if_neg hover]

theorem logging_write (h : Logging g s i body k n a) (hR : 128 ≤ g.regionSize) (hr : Roomy s)
    (hrot : s.overflows 128 → ¬s.rotates 128) (hd : data.length = 128) :
    ∃ t es k' a', s.write .succeeds data = .returned 128 t es ∧
      Logging g t i (body++data) k' (n+1) (a'+1) := by
  obtain ⟨u,es,k',a',hprep,hu,hroomy,hfit⟩ := logging_ready h hR hr hrot hd
  obtain ⟨m,hm,hlen⟩ := hu.bounded.live hu.live
  have hcopy : u.mmapOffset+data.length ≤ m.length := by
    rw [hlen,hu.settings,hu.offset,hd]
    exact hfit
  refine ⟨copied data u m,es++[.stored data],_,a',?_,
    ⟨laid_copied hu.laid hu.bounded hroomy hm hcopy,copied_bounded hu.bounded hm hu.live hcopy,
      hu.settings,hu.current,hu.live,?_,?_⟩⟩
  · unfold State.write
    rw [hprep,← hd]
    exact memcpy_within hm hcopy
  · rw [(copied_offsets hu.bounded hroomy hm hcopy).1,hu.offset,hd]
    rfl
  · obtain ⟨t,ht⟩ := hu.filled
    exact ⟨t,by omega⟩

theorem logging_construct {w : World} (h : construct g .succeeds w = .ok (s,es)) (hr : Roomy s) :
    ∃ i k, Logging g s i (logFile g w) k 0 0 := by
  obtain ⟨i,u,ho,rfl⟩ := construct_ok h
  have hset : u.settings = g := ho.settings
  have hfs : u.fs = (w.fs.create g.basePath).1 := ho.created
  have hnumber : i = (w.fs.create g.basePath).2 := ho.number
  have hroomy : Roomy u := (roomy_mapRegion _ u).mp hr
  have hfile : u.fs.files i = logFile g w := by
    rw [hfs,hnumber]
    exact create_content _
  obtain ⟨k,hlaid⟩ := laid_map .succeeds (laid_opened ho rfl rfl) hroomy
  rw [succeeds_map ho.fd] at *
  rw [hfile] at hlaid
  refine ⟨i,k,hlaid,mapped_bounded u i,hset,?_,Option.some_ne_none _,rfl,0,rfl⟩
  show u.fs.names g.basePath = some i
  rw [hfs,hnumber]
  exact create_names _

theorem length_entries (es : List LogEntry) :
    (es.flatMap LogEntry.toBytes).length = 128*es.length := by
  induction es with
  | nil => rfl
  | cons e es ih =>
    rw [List.flatMap_cons,List.length_append,ih,length_toBytes,List.length_cons]
    ring

theorem logged_logging {ls : List LogEntry} (hR : 128 ≤ g.regionSize)
    (h : Logging g s i body k 0 0) (l : Logged s ls t) : ∃ k a,
      Logging g t i (body++ls.flatMap LogEntry.toBytes) k ls.length a ∧
        (a = 0 → ls.length = 0) := by
  induction l with
  | start => exact ⟨k,0,by simpa using h,fun _ => rfl⟩
  | @entry ls t u e n evs l hr hrot hw ih =>
    obtain ⟨k,a,ht,-⟩ := ih
    rw [binary_format e (by decide)] at hw
    obtain ⟨u',es',k',a',hu,hlog⟩ := logging_write ht hR hr hrot (length_toBytes e)
    rw [hw] at hu
    cases hu
    refine ⟨k',a'+1,?_,by simp⟩
    simpa using hlog

/-- A session leaves its entries behind what the file held, and zeros behind
them unless it fills its regions. -/
theorem session_content {w : World} {ls : List LogEntry} (hR : 128 ≤ g.regionSize)
    (hc : construct g .succeeds w = .ok (s,es)) (hr : Roomy s) (l : Logged s ls t) :
    ∃ k, logFile g t.destroy = logFile g w++ls.flatMap LogEntry.toBytes++List.replicate k 0 ∧
      (k = 0 ↔ Fills g ls) := by
  obtain ⟨i,k₀,h₀⟩ := logging_construct hc hr
  obtain ⟨k,a,h,ha⟩ := logged_logging hR h₀ l
  refine ⟨k,?_,logging_zeros h ha hR⟩
  have hfs : t.destroy.fs = t.fs := unmap_fs t
  rw [logFile,hfs,Store.read,h.current]
  exact h.laid.content

theorem logged_possible (hR : 128 ≤ g.regionSize) (h : Logging g s i body k 0 0)
    {ls : List LogEntry} (hsize : body.length+128*ls.length+g.regionSize < 2^64)
    (hlimit : body.length+128*ls.length ≤ g.maxFileSize) : ∃ t, Logged s ls t := by
  induction ls using List.reverseRecOn with
  | nil => exact ⟨s,.start⟩
  | append_singleton ls e ih =>
    rw [List.length_append,List.length_singleton] at hsize hlimit
    obtain ⟨t,l⟩ := ih (by omega) (by omega)
    obtain ⟨k',a,ht,-⟩ := logged_logging hR h l
    have hpos : t.fileOffset = body.length+128*ls.length := by
      rw [ht.laid.position,List.length_append,length_entries]
    have hroomy : Roomy t := by
      unfold Roomy
      rw [ht.settings,hpos]
      omega
    have hrot : ¬t.rotates 128 := by
      unfold State.rotates
      rw [ht.settings,hpos,u64_of_lt (by omega)]
      omega
    obtain ⟨u,evs,-,-,hw,-⟩ := logging_write ht hR hroomy (fun _ => hrot) (length_toBytes e)
    exact ⟨u,l.entry hroomy (fun _ => hrot) (by rw [binary_format e (by decide)]; exact hw)⟩

theorem session_possible (w : World) (ls : List LogEntry) (hR : 128 ≤ g.regionSize)
    (hsize : (logFile g w).length+128*ls.length+g.regionSize < 2^64)
    (hlimit : (logFile g w).length+128*ls.length ≤ g.maxFileSize) :
    ∃ s evs t, construct g .succeeds w = .ok (s,evs) ∧ Roomy s ∧ Logged s ls t := by
  have hopens : Os.succeeds.openError = none := rfl
  obtain ⟨i,u,evs,hu,ho⟩ := openFile_permitted ⟨w,g,none,none,0,0,0,0⟩ hopens
  have hc : construct g .succeeds w = .ok (u.mapRegion .succeeds,evs) := by
    unfold construct
    rw [hu]
    rfl
  have hfile : u.fs.files i = logFile g w := by
    rw [ho.created,ho.number]
    exact create_content _
  have hroomy : Roomy (u.mapRegion .succeeds) := by
    rw [roomy_mapRegion]
    unfold Roomy
    rw [ho.fileOffset,ho.settings,hfile]
    show (logFile g w).length+g.regionSize < 2^64
    omega
  obtain ⟨j,k,h⟩ := logging_construct hc hroomy
  obtain ⟨t,l⟩ := logged_possible hR h hsize hlimit
  exact ⟨_,_,t,hc,hroomy,l⟩

end Steps

section Sessions

variable {g : Settings} {w₀ w : World} {ess : List (List LogEntry)}

/-- Over all sessions the file is longer than its entries unless each of them
fills its regions; and then it holds the entries alone. -/
theorem sessions_content (hR : 128 ≤ g.regionSize) (h₀ : w₀.fs.names g.basePath = none)
    (h : Sessions g w₀ ess w) : ∃ k, (logFile g w).length = 128*ess.flatten.length+k ∧
      (k = 0 ↔ ∀ es ∈ ess, Fills g es) ∧
      (k = 0 → logFile g w = ess.flatten.flatMap LogEntry.toBytes) := by
  induction h with
  | start =>
    have hnone : logFile g w₀ = [] := by
      rw [logFile,Store.read,h₀]
      rfl
    refine ⟨0,?_,by simp,fun _ => hnone⟩
    rw [hnone]
    rfl
  | @session ess es w s t evs l hc hr hl ih =>
    obtain ⟨k,hlen,hiff,hcont⟩ := ih
    obtain ⟨k',hnew,hfills⟩ := session_content hR hc hr hl
    refine ⟨k+k',?_,?_,?_⟩
    · rw [hnew,List.length_append,List.length_append,hlen,length_entries,List.length_replicate,
        List.flatten_append,List.length_append,List.flatten_singleton]
      ring
    · rw [Nat.add_eq_zero_iff,hiff,hfills]
      simp [or_imp,forall_and]
    · intro h0
      obtain ⟨rfl,rfl⟩ := Nat.add_eq_zero_iff.mp h0
      rw [hnew,hcont rfl]
      simp

/-- On a path that is free at first, with regions of at least a record, all system
calls succeeding and no rotation: the log reader reads back the entries of all
sessions and nothing else if and only if every session writes entries, at least
one, up to the end of a region. -/
theorem sessions_round_trip (date : ℕ → DatePrefix) (p : DatePrefix) (g : Settings)
    (hR : 128 ≤ g.regionSize) (w₀ w : World) (ess : List (List LogEntry))
    (h₀ : w₀.fs.names g.basePath = none) (h : Sessions g w₀ ess w) :
    RoundTrip date p g ess w ↔ ∀ es ∈ ess, Fills g es := by
  obtain ⟨k,hlen,hiff,hcont⟩ := sessions_content hR h₀ h
  rw [← hiff]
  constructor
  · rintro ⟨-,-,hfile⟩
    omega
  · intro hk
    obtain ⟨hprinted,htotal⟩ := logReader_entries date p ess.flatten
    rw [← hcont hk] at hprinted htotal
    refine ⟨hprinted,htotal,?_⟩
    rw [hlen,hk,Nat.add_zero]

end Sessions

def sampleEntry : LogEntry :=
  ⟨1000000001,7,.info,0,5,ascii "hello"++List.replicate 107 0,by decide⟩

def pageOfEntries : List LogEntry := List.replicate 32 sampleEntry

theorem pageOfEntries_fills : Fills pageSettings pageOfEntries := by
  rw [Fills,pageOfEntries,List.length_replicate]
  exact ⟨by decide,by decide,by decide⟩

/-- Two sessions that fill a region each. -/
theorem sessions_round_trip_full : ∃ w,
    Sessions pageSettings .empty [pageOfEntries,pageOfEntries] w ∧
    ∀ (date : ℕ → DatePrefix) (p : DatePrefix),
      RoundTrip date p pageSettings [pageOfEntries,pageOfEntries] w := by
  have hlen : pageOfEntries.length = 32 := List.length_replicate
  have hR : 128 ≤ pageSettings.regionSize := by decide
  obtain ⟨s,_,t,hc,hr,l⟩ := session_possible .empty pageOfEntries hR
    (by rw [hlen]; decide) (by rw [hlen]; decide)
  have h₁ : Sessions pageSettings .empty [pageOfEntries] t.destroy := Sessions.start.session hc hr l
  obtain ⟨k,hfile,hk,-⟩ := sessions_content hR rfl h₁
  obtain rfl : k = 0 := hk.mpr fun es hes => by
    obtain rfl := List.mem_singleton.mp hes
    exact pageOfEntries_fills
  rw [List.flatten_singleton,hlen] at hfile
  obtain ⟨s',_,t',hc',hr',l'⟩ := session_possible t.destroy pageOfEntries hR
    (by rw [hlen,hfile]; decide) (by rw [hlen,hfile]; decide)
  have h₂ : Sessions pageSettings .empty [pageOfEntries,pageOfEntries] t'.destroy :=
    h₁.session hc' hr' l'
  refine ⟨t'.destroy,h₂,fun date p => ?_⟩
  apply (sessions_round_trip date p pageSettings hR .empty _ _ rfl h₂).mpr
  intro es hes
  obtain rfl : es = pageOfEntries := by simpa using hes
  exact pageOfEntries_fills

/-- One entry in a page: the reader counts 32 records in its file. -/
theorem padding_read_as_entries : ∃ w, Sessions pageSettings .empty [[sampleEntry]] w ∧
    ∀ (date : ℕ → DatePrefix) (p : DatePrefix),
      (logReader date {} p (logFile pageSettings w)).total = 32 ∧
      ¬RoundTrip date p pageSettings [[sampleEntry]] w := by
  have hv : (constructed pageSettings .succeeds .empty).any fun s =>
      decide (Roomy s ∧ ¬s.overflows 128) &&
      (Result.after (s.write .succeeds sampleEntry.toBytes)).any fun r =>
        decide ((logFile pageSettings r.2.destroy).length = 4096) := by decide +kernel
  obtain ⟨s,hs,hv⟩ := (Option.any_eq_true _ _).mp hv
  obtain ⟨hroom,hv⟩ := Bool.and_eq_true_iff.mp hv
  obtain ⟨⟨m,t⟩,ht,hlen⟩ := (Option.any_eq_true _ _).mp hv
  obtain ⟨hroomy,hover⟩ := of_decide_eq_true hroom
  obtain ⟨evs,hc⟩ := constructed_some hs
  obtain ⟨evs',hw⟩ := after_some ht
  have l : Logged s ([]++[sampleEntry]) t := by
    apply Logged.start.entry hroomy (fun h => absurd h hover)
    rw [binary_format _ (by decide)]
    exact hw
  refine ⟨t.destroy,Sessions.start.session hc hroomy l,fun date p => ?_⟩
  have htotal : (logReader date {} p (logFile pageSettings t.destroy)).total = 32 := by
    rw [logReader,readLoop_total date rfl,of_decide_eq_true hlen]
    rfl
  refine ⟨htotal,?_⟩
  rintro ⟨-,h,-⟩
  rw [htotal] at h
  exact absurd h (by decide)

end MpmcLogger.SinkRoundTrip
