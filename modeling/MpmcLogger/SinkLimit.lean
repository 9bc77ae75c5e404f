import MpmcLogger.SinkAlignment
import MpmcLogger.SinkGenerations

/-!
# The file size limit

The limit is compared only when a region is full, and only with the record that
did not fit. A file keeps to it as long as every write finds its region full or
stays below the limit by itself: one region may hold several limits.
-/

set_option autoImplicit false

namespace MpmcLogger.SinkLimit
open MachineWord FileStore MpmcLogger.SinkMachine MpmcLogger.SinkSteps MpmcLogger.SinkBounds
open MpmcLogger.SinkAlignment MpmcLogger.SinkGenerations

def Limited (s : State) (c : Call) (n : ℕ) (t : State) : Prop :=
  c.os = .succeeds ∧ n = c.data.length ∧ c.data.length ≤ s.settings.maxFileSize ∧ Attended s c n t

/-- The write compares its end with the limit, or does not reach it. -/
def Watched (s : State) (len : ℕ) : Prop :=
  s.overflows len ∨ s.fileOffset+len ≤ s.settings.maxFileSize

def Modest (limit : ℕ) (gs : List Generation) : Prop :=
  ∀ h ∈ gs, h.before = [] ∧ h.records.flatten.length ≤ limit

variable {os : Os} {s t : State} {es tr : List Event} {data : Bytes} {g : Generation}
  {gs : List Generation} {i k limit : ℕ}

theorem kept_offset (hk : Kept s tr g gs k) (hm : Modest limit (generations tr)) :
    s.fileOffset = g.records.flatten.length ∧ s.fileOffset ≤ limit := by
  have hg : g ∈ generations tr := by
    rw [hk.history]
    exact List.mem_cons_self ..
  obtain ⟨hb,hle⟩ := hm g hg
  have hoff : s.fileOffset = g.records.flatten.length := by
    rw [hk.laid.position,Generation.bytes,hb,List.nil_append]
  exact ⟨hoff,hoff ▸ hle⟩

theorem modest_opened (ho : Opened os s i t es) (habs : s.fs.names s.settings.basePath = none)
    (hm : Modest limit (generations tr)) : Modest limit (generations (tr++es)) := by
  rw [generations_append,ho.events]
  intro h hh
  rcases List.mem_cons.mp hh with rfl | hh
  · exact ⟨opened_fresh ho habs,Nat.zero_le _⟩
  · exact hm h hh

theorem modest_stored (hk : Kept s tr g gs k) (hm : Modest limit (generations tr))
    (hle : s.fileOffset+data.length ≤ limit) : Modest limit (generations (tr++[.stored data])) := by
  have hoff := (kept_offset hk hm).1
  rw [generations_append]
  rw [hk.history] at hm ⊢
  intro h hh
  rcases List.mem_cons.mp hh with rfl | hh
  · refine ⟨(hm g (List.mem_cons_self ..)).1,?_⟩
    show (g.records++[data]).flatten.length ≤ limit
    rw [List.flatten_append,List.length_append,List.flatten_singleton]
    omega
  · exact hm h (List.mem_cons_of_mem _ hh)

/-- Where a watched write copies, the copy ends below the limit. -/
theorem ready_modest (hs : Roomy s) (hlen : data.length ≤ s.settings.regionSize)
    (hmax : data.length ≤ s.settings.maxFileSize) (hw : Watched s data.length)
    (hm : Modest limit (generations tr)) (h : s.prepare .succeeds data = .ready t es) :
    t.fileOffset+data.length ≤ s.settings.maxFileSize ∧ Modest limit (generations (tr++es)) := by
  have hstep := prepare_step .succeeds data s
  rw [h] at hstep
  clear h
  cases hstep with
  | fits _ _ hf => exact ⟨hw.resolve_left hf,by simpa using hm⟩
  | stays _ _ _ hrot _ =>
    refine ⟨?_,by simpa using hm⟩
    unfold Roomy at hs
    unfold State.rotates at hrot
    rw [u64_of_lt (by omega)] at hrot
    rw [mapRegion_fileOffset,unmap_fileOffset]
    omega
  | reopened _ _ _ _ ho _ =>
    have habs : (rotated .succeeds s).fs.names (rotated .succeeds s).settings.basePath = none := by
      rw [rotated_fs,rotated_settings]
      exact rotate_frees_base .succeeds (fun _ => rfl) s.settings s.fs
    refine ⟨?_,modest_opened ho habs hm⟩
    rw [mapRegion_fileOffset,ho.fileOffset,
      if_pos (show Os.succeeds.fstatOk = true from rfl),opened_fresh ho habs]
    simpa using hmax

theorem write_modest {n : ℕ} {c : Call} (hk : Kept s tr g gs k)
    (hm : Modest s.settings.maxFileSize (generations tr)) (hg : Limited s c n t)
    (hw : Watched s c.data.length) (h : s.write c.os c.data = .returned n t es) :
    Modest s.settings.maxFileSize (generations (tr++es)) := by
  obtain ⟨hos,hn,hmax,hf,hlen,hs,harr⟩ := hg
  rcases write_returned h with ⟨hr,hn0⟩ | ⟨u,fs,m,hr,-,-,-,-,rfl⟩
  · have hstep := prepare_step c.os c.data s
    rw [hr] at hstep
    clear h hr
    cases hstep with
    | refused _ => simpa using hm
    | unmapped hd _ _ _ _ => omega
    | unmappedAfter hd _ _ _ _ _ => omega
  · have ha : Prepared.arrived (s.prepare c.os c.data) = some (u,fs) := by rw [hr]; rfl
    obtain ⟨⟨g',gs',k',hk'⟩,-⟩ := arrived_kept hk hf hs ha (harr u fs ha)
    rw [hos] at hr
    obtain ⟨hle,hm'⟩ := ready_modest hs hlen hmax hw hm hr
    rw [← List.append_assoc]
    exact modest_stored hk' hm' hle

/-- A write into its region compares nothing with the limit. -/
theorem modest_iff_watched {n : ℕ} {c : Call} (hb : Bounded s) (hk : Kept s tr g gs k)
    (hm : Modest s.settings.maxFileSize (generations tr)) (hg : Limited s c n t)
    (h : s.write c.os c.data = .returned n t es) :
    t.fileOffset ≤ s.settings.maxFileSize ↔ Watched s c.data.length := by
  have ⟨_,hn,_,hatt⟩ := hg
  have hle := (kept_offset hk hm).2
  constructor
  · intro ht
    by_contra hw
    obtain ⟨hf,hover⟩ := not_or.mp hw
    rcases write_returned h with ⟨hr,hn0⟩ | ⟨u,fs,m,hr,hmap,hfit,-,rfl,-⟩
    · omega
    · have ha : Prepared.arrived (s.prepare c.os c.data) = some (u,fs) := by rw [hr]; rfl
      obtain rfl := arrived_fits hf ha
      rw [(copied_offsets hb hatt.2.2.1 hmap hfit).2] at ht
      exact hover ht
  · intro hw
    obtain ⟨⟨g',gs',k',hk'⟩,-⟩ := write_kept hk hb hatt h
    exact (kept_offset hk' (write_modest hk hm hg hw h)).2

theorem construct_modest {g : Settings} {w : World} (habs : w.fs.names g.basePath = none)
    (h : construct g .succeeds w = .ok (s,es)) : Roomy s ∧ Modest limit (generations es) := by
  obtain ⟨i,u,ho,rfl⟩ := construct_ok h
  have hsize := g.region_fits
  constructor
  · apply (roomy_mapRegion .succeeds u).mpr
    unfold Roomy
    rw [ho.settings,ho.fileOffset,if_pos (show Os.succeeds.fstatOk = true from rfl),
      opened_fresh ho habs]
    simpa using hsize
  · have hm : Modest limit (generations []) := fun h hh => by cases hh
    exact modest_opened ho habs hm

def Observed (s : State) (c : Call) (n : ℕ) (t : State) : Prop :=
  Limited s c n t ∧ Watched s c.data.length

theorem run_modest {g : Settings} {w : World} {s₀ : State} (habs : w.fs.names g.basePath = none)
    (h : construct g .succeeds w = .ok (s₀,es)) (r : Run Observed s₀ s tr) :
    Bounded s ∧ s.settings = g ∧ (∃ c cs k, Kept s (es++tr) c cs k) ∧
      Modest g.maxFileSize (generations (es++tr)) := by
  induction r with
  | start =>
    obtain ⟨hb,hs⟩ := construct_bounded h
    obtain ⟨hr,hm⟩ := construct_modest habs h
    rw [List.append_nil]
    exact ⟨hb,hs,construct_kept h rfl hr,hm⟩
  | next r hw hg ih =>
    obtain ⟨hb,rfl,⟨c,cs,k,hk⟩,hm⟩ := ih
    obtain ⟨hb',hs'⟩ := write_bounded hb hw
    rw [← List.append_assoc]
    exact ⟨hb',hs',(write_kept hk hb hg.1.2.2.2 hw).1,write_modest hk hm hg.1 hg.2 hw⟩

/-- Every call succeeding, from a free path: while each write finds its region
full or ends below the limit, every file keeps to the limit; and the next write
exceeds it if and only if it does neither. -/
theorem limit_kept (g : Settings) (w : World) (habs : w.fs.names g.basePath = none)
    (s₀ s : State) (es tr : List Event) (h : construct g .succeeds w = .ok (s₀,es))
    (r : Run Observed s₀ s tr) :
    s.fileOffset ≤ g.maxFileSize ∧
    (∀ h ∈ generations (es++tr), h.before = [] ∧ h.records.flatten.length ≤ g.maxFileSize) ∧
    ∀ c n t fs, Limited s c n t → s.write c.os c.data = .returned n t fs →
      (t.fileOffset ≤ g.maxFileSize ↔ Watched s c.data.length) := by
  obtain ⟨hb,rfl,⟨c,cs,k,hk⟩,hm⟩ := run_modest habs h r
  exact ⟨(kept_offset hk hm).2,hm,fun c n t fs hg hw => modest_iff_watched hb hk hm hg hw⟩

def wideSettings : Settings := appLog 256 128 1

def record100 : Bytes := List.replicate 100 7

theorem first_record : ∃ (s₀ s t : State) (es tr fs : List Event),
    construct wideSettings .succeeds .empty = .ok (s₀,es) ∧ Run Observed s₀ s tr ∧
    s.fileOffset = 100 ∧ s.write .succeeds record100 = .returned 100 t fs ∧ t.fileOffset = 200 ∧
    Limited s ⟨.succeeds,record100⟩ 100 t := by
  obtain ⟨s₀,s,t,es,tr,fs,h₀,h₁,h₂,hm₀,ho₀,hm,ho,ht⟩ :
      ∃ (s₀ s t : State) (es tr fs : List Event),
      construct wideSettings .succeeds .empty = .ok (s₀,es) ∧
      s₀.write .succeeds record100 = .returned 100 s tr ∧
      s.write .succeeds record100 = .returned 100 t fs ∧
      s₀.mmapOffset = 0 ∧ s₀.fileOffset = 0 ∧ s.mmapOffset = 100 ∧ s.fileOffset = 100 ∧
      t.fileOffset = 200 :=
    ⟨_,_,_,_,_,_,rfl,rfl,rfl,rfl,rfl,rfl,rfl,rfl⟩
  obtain ⟨hb₀,hset₀⟩ := construct_bounded h₀
  have hset : s.settings = wideSettings := (write_bounded hb₀ h₁).2.trans hset₀
  have hlimited : ∀ u v : State, u.settings = wideSettings → u.mmapOffset ≤ 100 →
      u.fileOffset ≤ 100 → Limited u ⟨.succeeds,record100⟩ 100 v := by
    intro u v hu hoff hpos
    have hroomy : Roomy u := by
      unfold Roomy
      rw [hu]
      show u.fileOffset+256 < 2^64
      omega
    have hfits : ¬u.overflows record100.length := by
      unfold State.overflows
      rw [hu]
      show ¬256 < u64 (u.mmapOffset+100)
      rw [u64_of_lt (by omega)]
      omega
    refine ⟨rfl,rfl,?_,rfl,?_,hroomy,fun t es ha => ?_⟩
    · rw [hu]
      decide
    · rw [hu]
      decide
    · rw [arrived_fits hfits ha]
      exact hroomy
  have hw : Watched s₀ record100.length := by
    apply Or.inr
    rw [ho₀,hset₀]
    decide
  have r : Run Observed s₀ s ([]++tr) :=
    Run.start.next (c := ⟨.succeeds,record100⟩) h₁
      ⟨hlimited s₀ s hset₀ (by omega) (by omega),hw⟩
  exact ⟨s₀,s,t,es,_,fs,h₀,r,ho,h₂,ht,hlimited s t hset (by omega) (by omega)⟩

/-- The first record of 100 bytes keeps to the limit of 128. -/
theorem limit_kept_record : ∃ (s₀ s : State) (es tr : List Event),
    construct wideSettings .succeeds .empty = .ok (s₀,es) ∧ Run Observed s₀ s tr ∧
    s.fileOffset = 100 ∧ s.fileOffset ≤ wideSettings.maxFileSize := by
  obtain ⟨s₀,s,-,es,tr,-,h₀,r,ho,-⟩ := first_record
  exact ⟨s₀,s,es,tr,h₀,r,ho,(limit_kept wideSettings .empty rfl s₀ s es tr h₀ r).1⟩

/-- The second fits the region and takes the file beyond its limit. -/
theorem limit_exceeded : ∃ (s₀ s t : State) (es tr fs : List Event),
    construct wideSettings .succeeds .empty = .ok (s₀,es) ∧ Run Limited s₀ s tr ∧
    s.write .succeeds record100 = .returned 100 t fs ∧ Limited s ⟨.succeeds,record100⟩ 100 t ∧
    ¬t.fileOffset ≤ wideSettings.maxFileSize := by
  obtain ⟨s₀,s,t,es,tr,fs,h₀,r,-,h₂,ht,hg⟩ := first_record
  refine ⟨s₀,s,t,es,tr,fs,h₀,?_,h₂,hg,?_⟩
  · exact run_weaken (fun _ _ _ _ h => h.1) r
  · rw [ht]
    decide

end MpmcLogger.SinkLimit
