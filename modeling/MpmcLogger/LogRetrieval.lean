import MpmcLogger.DrainOutput
import MpmcLogger.SinkRotation
import MpmcLogger.LogReader
import MpmcLogger.LogCalls

/-!
# From the callers to the reader

The entries of concurrent calls of the macros go through the level filter, the
queue, the drain loop, the binary formatter and a rotating sink into files, and the
log reader reads these files back, from the oldest rotated one to the current one.
What it prints is the newest part of the entries accepted, in order of position,
and then one empty record for each place left in the last region.
-/

set_option autoImplicit false

namespace MpmcLogger.LogRetrieval
open Interleaving MachineWord FileStore MpmcLogger.QueueMachine MpmcLogger.QueueHistory
open MpmcLogger.QueueInvariant MpmcLogger.QueueDelivery MpmcLogger.EntryLayout MpmcLogger.Formatter
open MpmcLogger.RecordFile MpmcLogger.LogReader MpmcLogger.LoggerMachine MpmcLogger.LoggerSetup
open MpmcLogger.LoggerDrain MpmcLogger.LoggerShutdown MpmcLogger.DrainOutput
open MpmcLogger.EntryOrigin MpmcLogger.LogMacro MpmcLogger.LogCalls
open MpmcLogger.SinkMachine MpmcLogger.SinkSteps
open MpmcLogger.SinkBounds MpmcLogger.SinkAlignment MpmcLogger.SinkGenerations
open MpmcLogger.SinkShift MpmcLogger.SinkRotation

def writeAll (os : Os) : List Bytes → State → Option State
  | [], s => some s
  | data::rest, s =>
    match s.write os data with
    | .returned n t _ => if n = data.length then writeAll os rest t else none
    | .fault | .terminated _ => none

def logFiles (g : Settings) : List String :=
  (List.range g.maxRotated).reverse.map (fun j => rotatedName g.basePath (j+1))++[g.basePath]

def readFile (date : ℕ → DatePrefix) (p : DatePrefix) : Option Bytes → List LogEntry
  | none => []
  | some bs => (logReader date {} p bs).printed.map Prod.fst

def readBack (date : ℕ → DatePrefix) (p : DatePrefix) (g : Settings) (w : World) : List LogEntry :=
  (logFiles g).flatMap fun path => readFile date p (w.fs.read path)

def zeroEntry : LogEntry := LogEntry.ofBytes (List.replicate 128 0) (List.length_replicate ..)

section Records

theorem records_append {a : Bytes} (h : 128 ∣ a.length) (b : Bytes) :
    records (a++b) = records a++records b := by
  obtain ⟨n,hn⟩ := h
  induction n generalizing a with
  | zero =>
    obtain rfl : a = [] := List.length_eq_zero_iff.mp (by omega)
    rw [records_short (by decide : ([] : Bytes).length < 128)]
    rfl
  | succ n ih =>
    have ha : 128 ≤ a.length := by omega
    have hab : 128 ≤ (a++b).length := by
      rw [List.length_append]
      omega
    have hfirst : firstRecord (a++b) hab = firstRecord a ha := by
      simp only [firstRecord,List.take_append_of_le_length ha]
    rw [records_next hab,records_next ha,hfirst,List.drop_append_of_le_length ha,
      ih (by rw [List.length_drop]; omega),List.cons_append]

theorem records_zeros (n : ℕ) :
    records (List.replicate (128*n) 0) = List.replicate n zeroEntry := by
  induction n with
  | zero => exact records_short (by decide)
  | succ n ih =>
    have hle : 128 ≤ (List.replicate (128*(n+1)) (0 : UInt8)).length := by
      rw [List.length_replicate]
      omega
    have hdrop : 128*(n+1)-128 = 128*n := by omega
    have hfirst : firstRecord (List.replicate (128*(n+1)) 0) hle = zeroEntry := by
      simp only [firstRecord,List.take_replicate,zeroEntry]
      congr 2
    rw [records_next hle,hfirst,List.drop_replicate,hdrop,ih]
    rfl

theorem logReader_records (date : ℕ → DatePrefix) (p : DatePrefix) (bs : Bytes) :
    (logReader date {} p bs).printed.map Prod.fst = records bs := by
  rw [logReader,readLoop_records]
  exact readRecords_printed date _ _

end Records

section Sink

variable {P : ℕ} {s t : State} {es tr : List SinkMachine.Event} {data : Bytes} {g : Generation}
  {gs : List Generation} {k : ℕ}

def RegionLow (s : State) : Prop := ∀ m, s.mapping = some m → m.offset ≤ s.settings.maxFileSize

theorem sized_of_low (hr : Rotating s tr g gs k) (hlow : RegionLow s)
    (hset : s.settings.maxFileSize+s.settings.regionSize < 2^63) : Sized s := by
  obtain ⟨m,hm,-,-,hoff,hk,-⟩ := rotating_live hr
  have hle := hlow m hm
  intro i hi
  obtain rfl : i = g.file := Option.some.inj (hi.symm.trans hr.laid.fd)
  rw [hr.laid.content,List.length_append,List.length_replicate,← hr.laid.position]
  omega

theorem low_fresh {i : ℕ} (hr : Rotating s tr ⟨i,[],[]⟩ gs k) : RegionLow s := by
  obtain ⟨m,hm,-,-,hoff,-⟩ := rotating_live hr
  have hpos : s.fileOffset = 0 := hr.laid.position
  intro n hn
  obtain rfl : m = n := Option.some.inj (hm.symm.trans hn)
  omega

theorem ready_low (hroomy : Roomy s) (hR : data.length ≤ s.settings.regionSize)
    (hlow : RegionLow s) (h : s.prepare (pageOs P) data = .ready t es) : RegionLow t := by
  have hstep := prepare_step (pageOs P) data s
  rw [h] at hstep
  clear h
  cases hstep with
  | fits _ _ _ => exact hlow
  | stays _ _ _ hrot hm =>
    intro m hmap
    unfold Roomy at hroomy
    unfold State.rotates at hrot
    rw [u64_of_lt (by omega)] at hrot
    have hfd : ∃ i, s.unmapRegion.fd = some i := by
      cases hc : s.unmapRegion.fd with
      | some i => exact ⟨i,rfl⟩
      | none =>
        rw [State.mapRegion,hc] at hm
        exact absurd (unmap_mmapPtr s) hm
    obtain ⟨i,hfd⟩ := hfd
    rw [mapRegion_mapped hfd (unmap_mmapPtr s) hm,mapped_mapping] at hmap
    obtain rfl := Option.some.inj hmap
    simp only [mapRegion_settings,unmap_settings,unmap_fileOffset]
    omega
  | @reopened _ _ _ _ i u es ho hm =>
    intro m hmap
    have hfree := rotate_frees_base (pageOs P) (fun _ => rfl) s.settings s.fs
    have hempty := opened_fresh ho (by simpa using hfree)
    rw [mapRegion_mapped ho.fd (opened_unmapped ho).1 hm,mapped_mapping] at hmap
    obtain rfl := Option.some.inj hmap
    rw [ho.fileOffset,hempty]
    exact Nat.zero_le _

/-- One record: it is stored, and the next finds the same conditions. -/
theorem write_record (hP : Paged P s.settings) (hr : Rotating s tr g gs k) (hlow : RegionLow s)
    (hset : s.settings.maxFileSize+s.settings.regionSize < 2^63) (hd : data.length = 128) :
    ∃ t es, s.write (pageOs P) data = .returned 128 t es ∧ t.settings = s.settings ∧
      RegionLow t ∧ ∃ g' gs' k', Rotating t (tr++es) g' gs' k' := by
  have hsize := sized_of_low hr hlow hset
  obtain ⟨t,es,hw,hnext⟩ := write_rotating hP hr hsize hd
  have hsettings := (write_bounded hr.serving.bounded hw).2
  refine ⟨t,es,hw,hsettings,?_,hnext⟩
  rcases write_returned hw with ⟨-,h0⟩ | ⟨u,fs,m,hu,hm,-,-,rfl,rfl⟩
  · cases h0
  · have hR : data.length ≤ s.settings.regionSize := by
      rw [hd]
      exact Nat.le_of_dvd hP.region (hP.records.trans hP.pages)
    have hu' := ready_low (rotating_roomy hr hsize) hR hlow hu
    exact fun n hn => hu' n hn

theorem writeAll_records {ds : List Bytes} {s₀ : State} {ws : List Written}
    (hP : Paged P s.settings) (r : Writes (Recording P) s₀ ws s)
    (hr : Rotating s (tr++trace ws) g gs k) (hlow : RegionLow s)
    (hset : s.settings.maxFileSize+s.settings.regionSize < 2^63)
    (hd : ∀ data ∈ ds, data.length = 128) :
    ∃ t vs, writeAll (pageOs P) ds s = some t ∧ t.settings = s.settings ∧
      Writes (Recording P) s₀ (ws++vs) t ∧ vs.map (fun w => w.call.data) = ds ∧
      ∃ g' gs' k', Rotating t (tr++trace (ws++vs)) g' gs' k' := by
  induction ds generalizing s g gs k ws with
  | nil => exact ⟨s,[],rfl,rfl,by simpa using r,rfl,g,gs,k,by simpa using hr⟩
  | cons data ds ih =>
    have hlen := hd data List.mem_cons_self
    obtain ⟨u,fs,hw,hsettings,hlow',g',gs',k',hr'⟩ := write_record hP hr hlow hset hlen
    have hnext := r.next (c := ⟨pageOs P,data⟩) hw ⟨rfl,hlen,sized_of_low hr hlow hset⟩
    obtain ⟨t,vs,ht,htset,hall,hds,hlast⟩ := ih (by rwa [hsettings]) hnext
      (by rw [trace_append,trace_one,← List.append_assoc]; exact hr') hlow' (by rwa [hsettings])
      fun e he => hd e (List.mem_cons_of_mem _ he)
    rw [List.append_assoc] at hall hlast
    refine ⟨t,⟨⟨pageOs P,data⟩,128,fs⟩::vs,?_,htset.trans hsettings,hall,congrArg (data::·) hds,hlast⟩
    simp only [writeAll,hw,hlen,if_true,ht]

end Sink

section Files

variable {s : State} {tr : List SinkMachine.Event} {g : Generation} {gs : List Generation} {k : ℕ}

theorem length_logBytes {gs : List Generation} (h : ∀ g ∈ gs, ∀ r ∈ g.records, r.length = 128) :
    128 ∣ (logBytes gs).length := by
  have hflat : ∀ rs : List Bytes, (∀ r ∈ rs, r.length = 128) → 128 ∣ rs.flatten.length := by
    intro rs hrs
    rw [List.length_flatten]
    apply List.dvd_sum
    intro n hn
    obtain ⟨r,hr,rfl⟩ := List.mem_map.mp hn
    rw [hrs r hr]
  rw [logBytes,List.length_flatMap]
  apply List.dvd_sum
  intro n hn
  obtain ⟨g,hg,rfl⟩ := List.mem_map.mp hn
  exact hflat _ (h g (List.mem_reverse.mp hg))

theorem readFile_newest (date : ℕ → DatePrefix) (p : DatePrefix) {gs : List Generation}
    (h : ∀ g ∈ gs, ∀ r ∈ g.records, r.length = 128) (n : ℕ) :
    ((List.range n).reverse.flatMap fun j =>
      readFile date p ((gs[j]?).map fun h => h.records.flatten)) =
      records (logBytes (gs.take n)) := by
  induction n with
  | zero =>
    rw [List.take_zero]
    exact (records_short (by decide)).symm
  | succ n ih =>
    rw [List.range_succ,List.reverse_append,List.flatMap_append,ih,List.take_add_one,
      logBytes_append]
    cases hg : gs[n]? with
    | none => simp [logBytes,hg,readFile]
    | some g =>
      have hwhole : ∀ b ∈ [g], ∀ r ∈ b.records, r.length = 128 := by
        intro b hb
        obtain rfl := List.mem_singleton.mp hb
        exact h b (List.mem_of_getElem? hg)
      rw [Option.toList_some,records_append (length_logBytes hwhole)]
      simp [logBytes,hg,readFile,logReader_records]

theorem current_whole (hr : Rotating s tr g gs k) :
    s.fs.read s.settings.basePath = some (g.records.flatten++List.replicate k 0) := by
  have hbytes : g.bytes = g.records.flatten := by
    simp [Generation.bytes,hr.fresh g List.mem_cons_self]
  rw [Store.read,hr.current,Option.map_some,hr.laid.content,hbytes]

theorem zeros_places {P : ℕ} (hP : Paged P s.settings) (hr : Rotating s tr g gs k) :
    ∃ n, k = 128*n ∧ s.mmapOffset+128*n = s.settings.regionSize := by
  obtain ⟨m,-,-,-,-,hk,-⟩ := rotating_live hr
  obtain ⟨a,ha⟩ := hP.records.trans hP.pages
  obtain ⟨b,hb⟩ := hr.boundary
  exact ⟨a-b,by omega,by omega⟩

/-- The reader prints the newest generations, and then the zeros. -/
theorem readBack_newest (date : ℕ → DatePrefix) (p : DatePrefix) (hr : Rotating s tr g gs k)
    {n : ℕ} (hk : k = 128*n) : readBack date p s.settings s.destroy =
      records (logBytes ((g::gs).take (s.settings.maxRotated+1)))++
        List.replicate n zeroEntry := by
  have hwhole := hr.whole
  have hfs : s.destroy.fs = s.fs := unmap_fs s
  have hold : ((List.range s.settings.maxRotated).reverse.flatMap fun j =>
      readFile date p (s.fs.read (rotatedName s.settings.basePath (j+1)))) =
      records (logBytes (gs.take s.settings.maxRotated)) := by
    rw [← readFile_newest date p fun h hh => hwhole h (List.mem_cons_of_mem _ hh)]
    apply List.flatMap_congr
    intro j hj
    rw [archived_read hr (by simpa using hj)]
  have hg : 128 ∣ g.records.flatten.length := by
    have hone : ∀ b ∈ [g], ∀ r ∈ b.records, r.length = 128 := by
      intro b hb
      obtain rfl := List.mem_singleton.mp hb
      exact hwhole b List.mem_cons_self
    simpa [logBytes] using length_logBytes hone
  have htake : 128 ∣ (logBytes (gs.take s.settings.maxRotated)).length :=
    length_logBytes fun h hh => hwhole h (List.mem_cons_of_mem _ (List.mem_of_mem_take hh))
  have hlog : logBytes (g::gs.take s.settings.maxRotated) =
      logBytes (gs.take s.settings.maxRotated)++g.records.flatten := by
    simp [logBytes]
  simp only [readBack,logFiles,hfs,List.flatMap_append,List.flatMap_map,hold,List.flatMap_cons,
    List.flatMap_nil,List.append_nil,current_whole hr]
  rw [readFile,logReader_records,records_append hg,hk,records_zeros,List.take_succ_cons,hlog,records_append htake,
    List.append_assoc]

/-- The newest generations hold the newest records; none is lost before every
rotated name is in use. -/
theorem newest_records (hr : Rotating s tr g gs k) {es : List LogEntry}
    (h : logBytes (g::gs) = es.flatMap LogEntry.toBytes) : ∃ lost,
      records (logBytes ((g::gs).take (s.settings.maxRotated+1))) = es.drop lost ∧
      (lost ≠ 0 → ∀ j, 1 ≤ j → j ≤ s.settings.maxRotated →
        s.fs.names (rotatedName s.settings.basePath j) ≠ none) := by
  have hwhole : ∀ b ∈ (g::gs).drop (s.settings.maxRotated+1), ∀ r ∈ b.records, r.length = 128 :=
    fun b hb => hr.whole b (List.mem_of_mem_drop hb)
  have hsplit : es = records (logBytes ((g::gs).drop (s.settings.maxRotated+1)))++
      records (logBytes ((g::gs).take (s.settings.maxRotated+1))) := by
    rw [← records_append (length_logBytes hwhole),← logBytes_append,List.take_append_drop,h,
      records_entries]
  refine ⟨(records (logBytes ((g::gs).drop (s.settings.maxRotated+1)))).length,?_,?_⟩
  · conv_rhs => rw [hsplit]
    rw [List.drop_left]
  · intro hlost j h1 hj hnone
    apply hlost
    rw [hr.names j h1 hj,Option.map_eq_none_iff,List.getElem?_eq_none_iff] at hnone
    rw [List.drop_eq_nil_of_le (by rw [List.length_cons]; omega)]
    exact congrArg List.length (records_short (by decide))

end Files

section Logger

variable {S : RingSize} {date : ℕ → DatePrefix} {d : ℕ} {call : InitCall} {c : LoggerConf}
  {tr : List LoggerEvent}

theorem formatAll_binary (f : Option TextFormatter) (es : List LogEntry) :
    (formatAll date .binary f es).2 = es.map fun e => (e,e.toBytes) := by
  induction es with
  | nil => rfl
  | cons e es ih =>
    rw [formatAll,List.map_cons,formatEntry,binary_format e (by decide)]
    exact congrArg _ ih

theorem accepted_published (r : (logger S date).Run (UntilLeft d) (initialised d call) c tr)
    (hstill : ∀ t, NotPushing (c.locals t)) (k : ℕ) (e : LogEntry) :
    (publishedFrom 0 (queueEvents tr))[k]? = some e ↔ ∃ t, Event.pushed t k e ∈ queueEvents tr := by
  obtain ⟨q,pc,h⟩ := run_draining (initialised_draining S d call) r
  have hs := (run_base begun_start h.run (by decide)).sound
  have hpub := still_published (by decide) h hstill
  rw [List.nil_append] at hs hpub
  rw [publishedFrom,List.drop_zero,List.getElem?_map,Option.map_eq_some_iff]
  constructor
  · rintro ⟨⟨t,x⟩,hk,rfl⟩
    obtain ⟨u,y,hy⟩ := hpub k (List.getElem?_eq_some_iff.mp hk).1
    obtain ⟨rfl,rfl⟩ := Prod.mk.inj (Option.some.inj ((hs.pushed u k y hy).symm.trans hk))
    exact ⟨u,hy⟩
  · rintro ⟨t,ht⟩
    exact ⟨_,hs.pushed t k e ht,rfl⟩

/-- The drain thread has written the binary form of every entry accepted. -/
theorem drained_binary (hfmt : call.config.outputFormat = .binary)
    (r : (logger S date).Run (UntilLeft d) (initialised d call) c tr)
    (hleft : c.locals d = .drain .left) (hstill : ∀ t, NotPushing (c.locals t)) :
    writes tr = (publishedFrom 0 (queueEvents tr)).map fun e => some (e,e.toBytes) := by
  have h₀ := initialised_draining S d call
  have hbinary : (initialised d call).shared.outputFormat = .binary := hfmt
  obtain ⟨hwrites,hentries⟩ :=
    writes_of_handed (left_handed (by decide) h₀ (by simp) r hleft hstill)
  obtain ⟨es,hsunk,-⟩ := (run_rendered h₀ (fun h => by rw [hbinary] at h; cases h) r).rendered
  rw [hbinary,formatAll_binary] at hsunk
  have hes : es = publishedFrom 0 (queueEvents tr) := by
    have hmap := congrArg (List.map Prod.fst) hsunk
    rw [List.map_map,show Prod.fst ∘ (fun e : LogEntry => (e,e.toBytes)) = id from rfl,
      List.map_id] at hmap
    exact hmap.symm.trans hentries
  rw [hwrites,← hes]
  exact (congrArg (List.map some) hsunk).trans (List.map_map ..)

end Logger

/-- A logger writing binary records to a sink in a directory without its files, all
calls succeeding but mappings off the page boundary: if at the step at which the drain
loop leaves no push is in progress, the reader prints, over all files from the oldest,
the newest of the entries accepted, in order of position, each entire, and one zero
record for each place left in the last region. None is lost before every rotated
name is in use; the entries of one thread are in the order of its calls; and each
came from a call whose level was at least the one set last, or came unfiltered. -/
theorem logged_read_back (S : RingSize) (date : ℕ → DatePrefix) (p : DatePrefix) (d : ℕ)
    (call : InitCall) (c : ApiConf) (tr : List ApiEvent) (P : ℕ) (g : Settings) (w : World)
    (s₀ : State) (es₀ : List SinkMachine.Event) (hfmt : call.config.outputFormat = .binary)
    (hP : Paged P g) (hsize : g.maxFileSize+g.regionSize < 2^63)
    (habs : w.fs.names g.basePath = none)
    (hrot : ∀ j, 1 ≤ j → j ≤ g.maxRotated → w.fs.names (rotatedName g.basePath j) = none)
    (hc : construct g (pageOs P) w = .ok (s₀,es₀))
    (r : (api S date).Run (UntilDrained d) (inCalls (initialised d call)) c tr)
    (hleft : threadOf (c.locals d) = .drain .left)
    (hstill : ∀ t, NotPushing (threadOf (c.locals t))) :
    let events := tr.filterMap inside
    let es := publishedFrom 0 (queueEvents events)
    (∀ k e, es[k]? = some e ↔ ∃ t, Event.pushed t k e ∈ queueEvents events) ∧
    (∀ t, (claimedBy t (queueEvents events)).Sublist (pushCallsBy t (queueEvents events))) ∧
    writes events = es.map (fun e => some (e,e.toBytes)) ∧
    (AllJudged call.config.minLevel tr ∧ ∀ e ∈ es, e ∈ submitted tr) ∧
    ∃ s, writeAll (pageOs P) (es.map LogEntry.toBytes) s₀ = some s ∧
      ∃ lost places, readBack date p g s.destroy =
          es.drop lost++List.replicate places zeroEntry ∧
        (lost ≠ 0 → ∀ j, 1 ≤ j → j ≤ g.maxRotated →
          s.fs.names (rotatedName g.basePath j) ≠ none) ∧
        s.mmapOffset+128*places = g.regionSize := by
  intro events es
  obtain ⟨b,rb,hb⟩ := run_below (initialised_below d call) r
  obtain ⟨q,pc,h⟩ := run_draining (initialised_draining S d call) rb
  have hbleft : b.locals d = .drain .left := (hb d).trans hleft
  have hbstill : ∀ t, NotPushing (b.locals t) := fun t => by
    rw [hb t]
    exact hstill t
  have hwrites : writes events = es.map fun e => some (e,e.toBytes) :=
    drained_binary hfmt rb hbleft hbstill
  refine ⟨accepted_published rb hbstill,fun t => ?_,hwrites,⟨?_,fun e he => ?_⟩,?_⟩
  · have horder := run_in_call_order h.run (fun _ => trivial) t
    rw [List.nil_append] at horder
    exact (List.sublist_append_left _ _).trans horder
  · have hopened : ∀ t, NotInit (threadOf ((inCalls (initialised d call)).locals t)) :=
      initialised_notInit d call
    exact (run_judged hopened (fun _ _ _ g => g.1) r).2.2
  · obtain ⟨hs,hl⟩ := initialised_carries (· ∈ submitted tr) d call
    refine written_submitted hs hl r (e,e.toBytes) ?_
    show _ ∈ (writes events).reduceOption
    rw [hwrites,List.reduceOption_mem_iff]
    exact List.mem_map.mpr ⟨e,he,rfl⟩
  · have hset₀ : s₀.settings = g := (construct_bounded hc).2
    obtain ⟨i,k₀,rfl,hr₀⟩ := construct_rotating hP habs hrot hc
    have hlen : ∀ data ∈ es.map LogEntry.toBytes, data.length = 128 := by
      simp [length_toBytes]
    have hstart : Writes (Recording P) s₀ [] s₀ := .start
    have hr₁ : Rotating s₀ ([.opened i []]++trace []) ⟨i,[],[]⟩ [] k₀ := by simpa [trace] using hr₀
    obtain ⟨s,ws,hs,hset,rs,hws,f,fs,k,hr⟩ := writeAll_records (by rwa [hset₀]) hstart hr₁
      (low_fresh hr₀) (by rwa [hset₀]) hlen
    rw [List.nil_append] at rs hr
    have hg : s.settings = g := hset.trans hset₀
    have hall : logBytes (f::fs) = es.flatMap LogEntry.toBytes := by
      obtain ⟨-,hres,-⟩ := writes_rotating (by rwa [hset₀]) ⟨_,_,_,hr₀⟩ rs
      obtain ⟨hdata,-⟩ := logBytes_history [.opened i []] ws (List.cons_ne_nil _ _)
        fun w hw => (hres w hw).1.trans (hres w hw).2.symm
      rw [← hr.history,history_compact hc rs,logBytes_compact,hdata,dataOf,
        List.flatMap_def,hws,List.flatMap_def]
    obtain ⟨places,hk,hplaces⟩ := zeros_places (by rwa [hg]) hr
    obtain ⟨lost,hnewest,hlost⟩ := newest_records hr hall
    have hread := readBack_newest date p hr hk
    rw [hnewest] at hread
    subst hg
    exact ⟨s,hs,lost,places,hread,hlost,hplaces⟩

def untilDrainedCheck (d : ℕ) (c : ApiConf) (_ : ℕ) (m : ApiMove) : Bool :=
  !(m matches .logger (.init _)) && !(threadOf (c.locals d) matches .drain .left)

theorem untilDrained_of_check (d : ℕ) (c : ApiConf) (t : ℕ) (m : ApiMove)
    (h : untilDrainedCheck d c t m = true) : UntilDrained d c t m := by
  unfold untilDrainedCheck at h
  constructor
  · rintro call rfl
    simp at h
  · intro hl
    simp [hl] at h

def threeCalls : List (ℕ × ApiMove) :=
  callMoves 1 (.log (lettersAt .info) (filled 0)) 1++
    callMoves 1 (.log (lettersAt .warn) (filled 0)) 8++
    callMoves 1 (.log (lettersAt .error) (filled 0)) 8++callMoves 3 (.logger .shutdown) 3++
    List.replicate 33 (0,.logger .go)

def twoLines : List LogEntry :=
  [(lettersAt .warn).entry (filled 0),(lettersAt .error).entry (filled 0)]

/-- Two entries are drained, written to a region of one page and read back. -/
theorem logged_read_back_two : ∃ (c : ApiConf) (tr : List ApiEvent) (s₀ s : State)
    (es₀ : List SinkMachine.Event) (lost places : ℕ),
    (api queueSize zeroDate).Run (UntilDrained 0) (inCalls (initialised 0 warnInit)) c tr ∧
    construct pageSettings (pageOs 4096) .empty = .ok (s₀,es₀) ∧
    publishedFrom 0 (queueEvents (tr.filterMap inside)) = twoLines ∧
    writeAll (pageOs 4096) (twoLines.map LogEntry.toBytes) s₀ = some s ∧
    readBack zeroDate (constPrefix 0) pageSettings s.destroy =
      twoLines.drop lost++List.replicate places zeroEntry := by
  have hv : ((api queueSize zeroDate).exec (untilDrainedCheck 0) (inCalls (initialised 0 warnInit))
      threeCalls).any (fun (r : ApiOutcome) =>
        decide (publishedFrom 0 (queueEvents (r.2.filterMap inside)) = twoLines) &&
        (hasLeft (threadOf (r.1.locals 0)) && (restsOrStops (threadOf (r.1.locals 1)) &&
          restsOrStops (threadOf (r.1.locals 3))))) = true := by
    decide +kernel
  obtain ⟨⟨c,tr⟩,he,hp⟩ := (Option.any_eq_true _ _).mp hv
  obtain ⟨hpub,hp⟩ := Bool.and_eq_true_iff.mp hp
  obtain ⟨hleft,hp⟩ := Bool.and_eq_true_iff.mp hp
  obtain ⟨h1,h3⟩ := Bool.and_eq_true_iff.mp hp
  have hstill : ∀ t, NotPushing (threadOf (c.locals t)) := by
    intro t
    by_cases ht : t = 0 ∨ t = 1 ∨ t = 3
    · rcases ht with rfl | rfl | rfl
      · rw [left_of_check hleft]
        trivial
      · exact notPushing_of_check h1
      · exact notPushing_of_check h3
    · have hnot : ∀ a ∈ threeCalls, a.1 ≠ t := by
        intro a ha
        have : a.1 = 0 ∨ a.1 = 1 ∨ a.1 = 3 := by
          simp only [threeCalls,callMoves,List.mem_append,List.mem_cons,List.mem_replicate] at ha
          rcases ha with ((((rfl | ⟨-,rfl⟩) | rfl | ⟨-,rfl⟩) | rfl | ⟨-,rfl⟩) | rfl | ⟨-,rfl⟩) |
            ⟨-,rfl⟩ <;> simp
        omega
      have hne : t ≠ 0 := fun h => ht (Or.inl h)
      rw [exec_untouched threeCalls hnot he]
      simp [inCalls,threadOf,initialised,hne,NotPushing]
  have hopen : (construct pageSettings (pageOs 4096) .empty).toOption.isSome = true := by
    decide +kernel
  obtain ⟨⟨s₀,es₀⟩,hc⟩ := Option.isSome_iff_exists.mp hopen
  have hrun : (api queueSize zeroDate).Run (UntilDrained 0) (inCalls (initialised 0 warnInit)) c tr :=
    by simpa using exec_run (untilDrained_of_check 0) threeCalls .start he
  obtain ⟨-,-,-,-,s,hwrite,lost,places,hread,-⟩ := logged_read_back queueSize zeroDate
    (constPrefix 0) 0 warnInit c tr 4096 pageSettings .empty s₀ es₀ rfl
    ⟨by decide,dvd_refl _,by decide,by decide⟩ (by decide) rfl (fun _ _ _ => rfl) (built_some hc)
    hrun (left_of_check hleft) hstill
  have hes := of_decide_eq_true hpub
  rw [hes] at hwrite hread
  exact ⟨c,tr,s₀,s,es₀,lost,places,hrun,built_some hc,hes,hwrite,hread⟩

end MpmcLogger.LogRetrieval
