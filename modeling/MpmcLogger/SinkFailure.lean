import MpmcLogger.SinkAlignment
import MpmcLogger.SinkGenerations

/-!
# When the system calls of a write fail

A write ends in one of two ways its caller is told of, with its bytes in the
file or with none written, unless it reopens its file and cannot: that exception
ends the process. A write that was refused a region leaves the sink without one,
and no later write looks for another.
-/

set_option autoImplicit false

namespace MpmcLogger.SinkFailure
open MachineWord FileStore MpmcLogger.SinkMachine MpmcLogger.SinkSteps MpmcLogger.SinkBounds
open MpmcLogger.SinkAlignment MpmcLogger.SinkGenerations

variable {os : Os} {s t : State} {es tr : List Event} {data : Bytes} {i : ℕ}

def Covered (s : State) : Prop :=
  ∀ m, s.mapping = some m → m.offset+m.length ≤ (s.fs.files m.file).length

def Stored (data : Bytes) (t : State) : Prop :=
  ∃ m off, t.mapping = some m ∧ off+data.length = t.mmapOffset ∧
    ((t.fs.files m.file).drop (m.offset+off)).take data.length = data

theorem covered_unmapped (h : s.mmapPtr = none) : Covered s := by
  intro m hm
  rw [unmapped_mapping h] at hm
  cases hm

theorem covered_mapRegion (os : Os) (hp : s.mmapPtr = none) (hr : Roomy s) :
    Covered (s.mapRegion os) := by
  refine mapRegion_cases (P := Covered) os s (fun _ => covered_unmapped hp) fun i u _ hstep => ?_
  cases hstep with
  | notExtended h => exact covered_unmapped hp
  | notMapped he h => exact covered_unmapped rfl
  | mapped he h =>
    intro m hm
    rw [mapped_mapping] at hm
    obtain rfl := Option.some.inj hm
    simp [mapped,extended,newFileEnd_roomy hr]

theorem covered_copied {m : Mapping} (h : Covered s) (hm : s.mapping = some m) :
    Covered (copied data s m) := by
  intro m' hm'
  obtain rfl : m = m' := Option.some.inj (hm.symm.trans hm')
  have hle := h m hm
  simpa [copied] using hle

theorem arrived_covered (h : Covered s) (hs : Roomy s)
    (ha : Prepared.arrived (s.prepare os data) = some (t,es)) (ht : Roomy t) : Covered t := by
  rcases prepare_arrived ha with ⟨rfl,rfl⟩ | ⟨rfl,rfl⟩ | ⟨i,u,ho,rfl⟩
  · exact h
  · apply covered_mapRegion os (by simp)
    unfold Roomy at *
    simpa using hs
  · apply covered_mapRegion os (opened_unmapped ho).1
    exact (roomy_mapRegion os u).mp ht

theorem arrived_total (ha : Prepared.arrived (s.prepare os data) = some (t,es)) :
    t.totalBytesWritten = s.totalBytesWritten := by
  rcases prepare_arrived ha with ⟨rfl,rfl⟩ | ⟨rfl,rfl⟩ | ⟨i,u,ho,rfl⟩
  · rfl
  · rw [mapRegion_total,unmap_total]
  · rw [mapRegion_total,ho.total,rotated_total]

theorem stored_copied {m : Mapping} (hb : Bounded s) (hc : Covered s) (hm : s.mapping = some m)
    (hfit : s.mmapOffset+data.length ≤ m.length) : Stored data (copied data s m) := by
  have hlen := live_length hb hm
  have hsize := s.settings.region_fits
  have hend := hc m hm
  refine ⟨m,s.mmapOffset,hm,(u64_of_lt (by omega)).symm,?_⟩
  show (((s.fs.put m.file _).files m.file).drop _).take _ = _
  rw [put_files,if_pos rfl]
  exact patch_slice (by omega)

def Spacious (s : State) (c : Call) (_ : ℕ) (_ : State) : Prop :=
  Roomy s ∧ ∀ t es, Prepared.arrived (s.prepare c.os c.data) = some (t,es) → Roomy t

theorem write_covered {n : ℕ} {c : Call} (h : Covered s) (g : Spacious s c n t)
    (hw : s.write c.os c.data = .returned n t es) : Covered t := by
  rcases write_returned hw with ⟨hr,-⟩ | ⟨u,fs,m,hr,hm,-,-,rfl,-⟩
  · have ha : Prepared.arrived (s.prepare c.os c.data) = some (t,es) := by rw [hr]; rfl
    exact arrived_covered h g.1 ha (g.2 t es ha)
  · have ha : Prepared.arrived (s.prepare c.os c.data) = some (u,fs) := by rw [hr]; rfl
    exact covered_copied (arrived_covered h g.1 ha (g.2 u fs ha)) hm

theorem run_covered {g : Settings} {w : World} {s₀ : State} (h : construct g os w = .ok (s₀,es))
    (h₀ : Roomy s₀) (r : Run Spacious s₀ s tr) : Covered s := by
  induction r with
  | start =>
    obtain ⟨i,u,ho,rfl⟩ := construct_ok h
    exact covered_mapRegion os ho.mmapPtr ((roomy_mapRegion os u).mp h₀)
  | next r hw hg ih => exact write_covered ih hg hw

def Reported (os : Os) (data : Bytes) (s : State) : Prop :=
  ∃ n t es, s.write os data = .returned n t es ∧
    (n = data.length ∧ Stored data t ∨ n = 0 ∧ t.totalBytesWritten = s.totalBytesWritten)

def Survives (os : Os) (s : State) (len : ℕ) : Prop :=
  0 < len → s.mmapPtr ≠ none → s.mmapOffset+len < 2^64 ∧
    ¬(s.overflows len ∧ s.rotates len ∧ os.openError ≠ none)

theorem survives_of_returned {n : ℕ} (hb : Bounded s) (hlen : data.length ≤ s.settings.regionSize)
    (h : s.write os data = .returned n t es) : Survives os s data.length := by
  intro hpos hptr
  have hsize := s.settings.region_fits
  have hoff := hb.offset
  have hstep := prepare_step os data s
  have hwrap : s.overflows data.length → s.mmapOffset+data.length < 2^64 := by
    intro hf
    unfold State.overflows u64 at hf
    omega
  have hret := write_returned h
  clear h
  rcases hret with ⟨hr,-⟩ | ⟨u,fs,m,hr,hm,hfit,-,-,-⟩
  · rw [hr] at hstep
    cases hstep with
    | refused h =>
      rcases h with h | h
      · omega
      · exact absurd h hptr
    | unmapped hd hp hf hrot hm => exact ⟨hwrap hf,fun h => hrot h.2.1⟩
    | unmappedAfter hd hp hf hrot ho hm => exact ⟨hwrap hf,fun h => h.2.2 ho.permitted⟩
  · have hin : InRange s data.length := by
      obtain ⟨hu,hset,hp,-⟩ := prepare_ready hb hr
      apply (ready_fits hb hr).mp
      rw [← hset,← live_length hu hm]
      exact hfit
    rw [hr] at hstep
    cases hstep with
    | fits hd hp hf => exact ⟨hin.2,fun h => hf h.1⟩
    | stays hd hp hf hrot hm => exact ⟨hin.2,fun h => hrot h.2.1⟩
    | reopened hd hp hf hrot ho hm => exact ⟨hin.2,fun h => h.2.2 ho.permitted⟩

theorem reported_of_survives (hb : Bounded s) (hc : Covered s) (hs : Roomy s)
    (hlen : data.length ≤ s.settings.regionSize)
    (hroom : ∀ t es, Prepared.arrived (s.prepare os data) = some (t,es) → Roomy t)
    (h : Survives os s data.length) : Reported os data s := by
  have hstep := prepare_step os data s
  cases hr : s.prepare os data with
  | refused t es =>
    have hw : s.write os data = .returned 0 t es := by
      unfold State.write
      rw [hr]
    exact ⟨0,t,es,hw,Or.inr ⟨rfl,arrived_total (by rw [hr]; rfl)⟩⟩
  | terminated what =>
    rw [hr] at hstep
    cases hstep with
    | terminated hd hp hf hrot ho =>
      obtain ⟨-,hno⟩ := h (by omega) hp
      exact absurd ⟨hf,hrot,by simp [ho]⟩ hno
  | ready t es =>
    have ha : Prepared.arrived (s.prepare os data) = some (t,es) := by rw [hr]; rfl
    have hdo : data.length ≠ 0 ∧ s.mmapPtr ≠ none := by
      rw [hr] at hstep
      cases hstep with
      | fits hd hp hf => exact ⟨hd,hp⟩
      | stays hd hp hf hrot hm => exact ⟨hd,hp⟩
      | reopened hd hp hf hrot ho hm => exact ⟨hd,hp⟩
    have hin : InRange s data.length := ⟨hlen,(h (by omega) hdo.2).1⟩
    obtain ⟨ht,hset,hp,-⟩ := prepare_ready hb hr
    obtain ⟨m,hm,hml⟩ := ht.live hp
    have hfit : t.mmapOffset+data.length ≤ m.length := by
      rw [hml,hset]
      exact (ready_fits hb hr).mpr hin
    have hw : s.write os data = .returned data.length (copied data t m) (es++[.stored data]) := by
      unfold State.write
      rw [hr]
      exact memcpy_within hm hfit
    have hcov := arrived_covered hc hs ha (hroom t es ha)
    exact ⟨_,_,_,hw,Or.inl ⟨rfl,stored_copied ht hcov hm hfit⟩⟩

/-- In every state reached, whatever the system calls do: a write of at most a
region ends in one of the two outcomes promised, with its bytes stored or with
none counted, if and only if its offset does not wrap around and it does not
fail to open the file of a rotation. -/
theorem write_reported_iff (g : Settings) (os₀ : Os) (w : World) (s₀ s : State)
    (es tr : List Event) (h : construct g os₀ w = .ok (s₀,es)) (h₀ : Roomy s₀)
    (r : Run Spacious s₀ s tr) (os : Os) (data : Bytes) (hlen : data.length ≤ g.regionSize)
    (hs : Roomy s)
    (hroom : ∀ t es, Prepared.arrived (s.prepare os data) = some (t,es) → Roomy t) :
    Reported os data s ↔ Survives os s data.length := by
  obtain ⟨hb,rfl⟩ := run_bounded h r
  constructor
  · rintro ⟨n,t,fs,hw,-⟩
    exact survives_of_returned hb hlen hw
  · exact reported_of_survives hb (run_covered h h₀ r) hs hlen hroom

def fullSettings : Settings := appLog 64 64 1

def line : Bytes := List.replicate 48 7

def closedOs : Os := { Os.succeeds with openError := some "Too many open files" }

theorem line_written : ∃ (s₀ s t : State) (es tr fs : List Event),
    construct fullSettings .succeeds .empty = .ok (s₀,es) ∧ Roomy s₀ ∧ Run Spacious s₀ s tr ∧
    Roomy s ∧ s.mmapOffset = 48 ∧
    Prepared.arrived (s.prepare .succeeds line) = some (t,fs) ∧ Roomy t ∧
    s.write closedOs line = .terminated (openFailed "app.log" "Too many open files") := by
  obtain ⟨s₀,s,t,es,tr,fs,h₀,h₁,ho₀,ho,hm,ha,hset,hot,hw⟩ :
      ∃ (s₀ s t : State) (es tr fs : List Event),
      construct fullSettings .succeeds .empty = .ok (s₀,es) ∧
      s₀.write .succeeds line = .returned 48 s tr ∧
      s₀.fileOffset = 0 ∧ s.fileOffset = 48 ∧ s.mmapOffset = 48 ∧
      Prepared.arrived (s.prepare .succeeds line) = some (t,fs) ∧ t.settings = fullSettings ∧
      t.fileOffset = 0 ∧
      s.write closedOs line = .terminated (openFailed "app.log" "Too many open files") :=
    ⟨_,_,_,_,_,_,rfl,rfl,rfl,rfl,rfl,rfl,rfl,rfl,rfl⟩
  obtain ⟨hb₀,hset₀⟩ := construct_bounded h₀
  have hset₁ : s.settings = fullSettings := (write_bounded hb₀ h₁).2.trans hset₀
  have hroomy : ∀ u : State, u.settings = fullSettings → u.fileOffset ≤ 48 → Roomy u := by
    intro u hu hoff
    unfold Roomy
    rw [hu]
    show u.fileOffset+64 < 2^64
    omega
  have hr₀ := hroomy s₀ hset₀ (by omega)
  have hfits : ¬s₀.overflows line.length := by
    have h0 : s₀.mmapOffset = 0 := by
      cases h₀
      rfl
    unfold State.overflows
    rw [hset₀,h0]
    decide
  have g : Spacious s₀ ⟨.succeeds,line⟩ 48 s := by
    refine ⟨hr₀,fun u fs hu => ?_⟩
    rw [arrived_fits hfits hu]
    exact hr₀
  exact ⟨s₀,s,t,es,_,fs,h₀,hr₀,Run.start.next h₁ g,hroomy s hset₁ (by omega),hm,ha,
    hroomy t hset (by omega),hw⟩

/-- Where the file can be opened, the second line is stored in a new one. -/
theorem write_reported_rotation : ∃ (s₀ s : State) (es tr : List Event),
    construct fullSettings .succeeds .empty = .ok (s₀,es) ∧ Run Spacious s₀ s tr ∧
    s.mmapOffset = 48 ∧ Reported .succeeds line s := by
  obtain ⟨s₀,s,t,es,tr,fs,h₀,hr₀,r,hs,hm,ha,ht,-⟩ := line_written
  have hroom : ∀ u gs, Prepared.arrived (s.prepare .succeeds line) = some (u,gs) → Roomy u := by
    intro u gs hu
    obtain ⟨rfl,-⟩ := Prod.mk.inj (Option.some.inj (ha.symm.trans hu))
    exact ht
  refine ⟨s₀,s,es,tr,h₀,r,hm,(write_reported_iff fullSettings .succeeds .empty s₀ s es tr h₀ hr₀ r .succeeds line
    (by decide) hs hroom).mpr ?_⟩
  intro _ _
  rw [hm]
  exact ⟨by decide,fun h => h.2.2 rfl⟩

/-- The second line needs a new file; opening it fails, and the exception
reaches `noexcept`. -/
theorem failed_open_terminates : ∃ (s₀ s : State) (es tr : List Event),
    construct fullSettings .succeeds .empty = .ok (s₀,es) ∧ Run Spacious s₀ s tr ∧
    line.length ≤ fullSettings.regionSize ∧
    s.write closedOs line = .terminated (openFailed "app.log" "Too many open files") ∧
    ¬Reported closedOs line s := by
  obtain ⟨s₀,s,-,es,tr,-,h₀,-,r,-,-,-,-,hw⟩ := line_written
  refine ⟨s₀,s,es,tr,h₀,r,by decide,hw,?_⟩
  rintro ⟨n,t,fs,hn,-⟩
  rw [hw] at hn
  cases hn

section Refusal

variable {ok : State → Call → ℕ → State → Prop}

theorem write_unmapped (os : Os) (data : Bytes) (h : s.mmapPtr = none) :
    s.write os data = .returned 0 s [] := by
  have hp : s.prepare os data = .refused s [] := if_pos (Or.inr h)
  unfold State.write
  rw [hp]

/-- A write of something that returns zero leaves the sink without a region. -/
theorem unmapped_of_refused (hd : 1 ≤ data.length)
    (h : s.write os data = .returned 0 t es) : t.mmapPtr = none := by
  rcases write_returned h with ⟨hr,-⟩ | ⟨-,-,-,-,-,-,hn,-⟩
  · have hstep := prepare_step os data s
    rw [hr] at hstep
    clear h hr
    cases hstep with
    | refused h =>
      rcases h with h | h
      · omega
      · exact h
    | unmapped _ _ _ _ hm => exact hm
    | unmappedAfter _ _ _ _ _ hm => exact hm
  · omega

/-- Without a region no write changes anything. -/
theorem run_unmapped (h : s.mmapPtr = none) (r : Run ok s t tr) : t = s ∧ tr = [] := by
  induction r with
  | start => exact ⟨rfl,rfl⟩
  | next r hw _ ih =>
    obtain ⟨rfl,rfl⟩ := ih
    rw [write_unmapped _ _ h] at hw
    cases hw
    exact ⟨rfl,rfl⟩

end Refusal

/-- Whatever the system calls do: a write of something that returns zero leaves
the sink without a region, and from then on no sequence of writes changes it or
stores anything, even if every call could succeed. -/
theorem refusal_final (s t : State) (os : Os) (data : Bytes) (fs : List Event)
    (hd : 1 ≤ data.length) (hw : s.write os data = .returned 0 t fs) :
    t.mmapPtr = none ∧ ∀ u tr, Run (fun _ _ _ _ => True) t u tr →
      u = t ∧ tr = [] ∧ ∀ os' data', u.write os' data' = .returned 0 t [] := by
  have hp := unmapped_of_refused hd hw
  refine ⟨hp,fun u tr r => ?_⟩
  obtain ⟨rfl,rfl⟩ := run_unmapped hp r
  exact ⟨rfl,rfl,fun os' data' => write_unmapped os' data' hp⟩

def spacelessOs : Os := { Os.succeeds with ftruncateOk := fun _ => false }

theorem page_length : page.length = 4096 := List.length_replicate

theorem extension_refused : ∃ (s₀ s t : State) (es tr fs : List Event),
    construct pageSettings (pageOs 4096) .empty = .ok (s₀,es) ∧
    Run (fun _ _ _ _ => True) s₀ s tr ∧
    s.write spacelessOs page = .returned 0 t fs ∧ t.fileOffset = 4096 := by
  have hv : ((constructed pageSettings (pageOs 4096) .empty).any fun s =>
      (Result.after (s.write (pageOs 4096) page)).any fun r =>
        (Result.after (r.2.write spacelessOs page)).any fun r' =>
          decide (r'.1 = 0 ∧ r'.2.fileOffset = 4096)) = true := by decide +kernel
  obtain ⟨s₀,hs,hv⟩ := (Option.any_eq_true _ _).mp hv
  obtain ⟨⟨n,s⟩,h₁,hv⟩ := (Option.any_eq_true _ _).mp hv
  obtain ⟨⟨n',t⟩,h₂,hv⟩ := (Option.any_eq_true _ _).mp hv
  obtain ⟨rfl,ho⟩ := of_decide_eq_true hv
  obtain ⟨es,h₀⟩ := constructed_some hs
  obtain ⟨tr,h₁⟩ := after_some h₁
  obtain ⟨fs,h₂⟩ := after_some h₂
  exact ⟨s₀,s,t,es,[]++tr,fs,h₀,Run.start.next (c := ⟨pageOs 4096,page⟩) h₁ trivial,h₂,ho⟩

/-- The sink that found no space refuses the next page also when there is. -/
theorem refusal_final_space : ∃ (s t : State) (fs : List Event),
    s.write spacelessOs page = .returned 0 t fs ∧
    t.write (pageOs 4096) page = .returned 0 t [] := by
  obtain ⟨-,s,t,-,-,fs,-,-,hw,-⟩ := extension_refused
  have hd : 1 ≤ page.length := by
    rw [page_length]
    decide
  obtain ⟨-,hall⟩ := refusal_final s t spacelessOs page fs hd hw
  exact ⟨s,t,fs,hw,(hall t [] .start).2.2 _ _⟩

/-- The file offset is on a page boundary and every call would succeed, but
after one failed extension the next page is not stored. -/
theorem space_regained_unused : ∃ (s₀ s t : State) (es tr fs : List Event),
    construct pageSettings (pageOs 4096) .empty = .ok (s₀,es) ∧
    Run (fun _ _ _ _ => True) s₀ s tr ∧ s.write spacelessOs page = .returned 0 t fs ∧
    t.fileOffset = 4096 ∧ ∀ u gs, t.write (pageOs 4096) page ≠ .returned page.length u gs := by
  obtain ⟨s₀,s,t,es,tr,fs,h₀,r,hw,ho⟩ := extension_refused
  refine ⟨s₀,s,t,es,tr,fs,h₀,r,hw,ho,fun u gs hu => ?_⟩
  have hd : 1 ≤ page.length := by
    rw [page_length]
    decide
  rw [write_unmapped _ _ (unmapped_of_refused hd hw)] at hu
  have h0 := (Result.returned.inj hu).1
  rw [page_length] at h0
  omega

end MpmcLogger.SinkFailure
