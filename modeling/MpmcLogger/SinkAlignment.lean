import MpmcLogger.SinkBounds

/-!
# Mapping offsets and pages

On a system where only `mmap` can fail, and fails exactly off a page boundary,
a write succeeds in its region, or after a rotation, or if the bytes written to
the current file so far fill whole pages. Region turnovers leave the offset
wherever the last write that fitted ended.
-/

set_option autoImplicit false

namespace MpmcLogger.SinkAlignment
open MachineWord FileStore MpmcLogger.SinkMachine MpmcLogger.SinkSteps MpmcLogger.SinkBounds

variable {P : ℕ} {s t : State} {es : List Event} {data : Bytes}

structure Serving (s : State) : Prop where
  bounded : Bounded s
  mapped : s.mmapPtr ≠ none
  opened : ∃ i, s.fd = some i
  region : 0 < s.settings.regionSize

/-- The data fits the region; or a new region is needed and is mapped in a new
file or at a page boundary. -/
def Steady (P : ℕ) (s : State) (len : ℕ) : Prop :=
  s.mmapOffset+len ≤ s.settings.regionSize ∨
  s.overflows len ∧ (s.rotates len ∨ P ∣ s.fileOffset)

def Accepts (os : Os) : State → List Bytes → Prop
  | _, [] => True
  | s, d::ds => ∃ t es, s.write os d = .returned d.length t es ∧ Accepts os t ds

def SteadyAll (P : ℕ) : State → List Bytes → Prop
  | _, [] => True
  | s, d::ds => Steady P s d.length ∧
      ∀ n t es, s.write (pageOs P) d = .returned n t es → SteadyAll P t ds

theorem rotatedName_length (base : String) (i : ℕ) : base.length < (rotatedName base i).length := by
  have hdot : (".").length = 1 := rfl
  simp only [rotatedName,String.length_append,hdot]
  omega

theorem rotatedName_ne (base : String) (i : ℕ) : base ≠ rotatedName base i := fun h =>
  absurd (rotatedName_length base i) (by rw [← h]; exact lt_irrefl _)

theorem rotate_frees_base (os : Os) (hm : ∀ c, os.moveOk c = true) (g : Settings)
    (fs : Store String UInt8) : ((rotateCalls g).foldl os.perform fs).names g.basePath = none := by
  simp only [rotateCalls,List.foldl_cons,List.foldl_append,List.foldl_nil,Os.perform,hm,if_true,
    FsCall.run]
  generalize List.foldl _ _ _ = fs'
  cases hb : fs'.names g.basePath with
  | none => rw [rename_absent _ hb,hb]
  | some i => rw [rename_names hb,if_neg (rotatedName_ne _ 1),if_pos rfl]

theorem opened_fresh {os : Os} {i : ℕ} (ho : Opened os s i t es)
    (habs : s.fs.names s.settings.basePath = none) : t.fs.files i = [] := by
  obtain ⟨hnum,-,hfiles,-⟩ := create_absent habs
  rw [ho.created,ho.number,hnum,hfiles]
  exact Function.update_self _ _ _

theorem mapRegion_pages (hfd : ∃ i, s.fd = some i) (hR : 0 < s.settings.regionSize) :
    (s.mapRegion (pageOs P)).mmapPtr ≠ none ↔ P ∣ s.fileOffset := by
  obtain ⟨i,hfd⟩ := hfd
  have hstep := mapRegion_step (pageOs P) hfd
  generalize s.mapRegion (pageOs P) = u at hstep ⊢
  cases hstep with
  | notExtended h => simp [pageOs,Os.succeeds] at h
  | notMapped he h =>
    have hno : ¬P ∣ s.fileOffset := by
      simpa [pageOs,hR] using h
    simp [hno]
  | mapped he h =>
    have hyes : P ∣ s.fileOffset := by
      have := of_decide_eq_true (p := 0 < s.settings.regionSize ∧ P ∣ s.fileOffset) h
      exact this.2
    simp [mapped,hyes]

/-- The file a rotation opens is empty and can be mapped. -/
theorem reopened_mapped {i : ℕ} (ho : Opened (pageOs P) (rotated (pageOs P) s) i t es)
    (hR : 0 < s.settings.regionSize) : (t.mapRegion (pageOs P)).mmapPtr ≠ none := by
  obtain ⟨-,-,hs⟩ := opened_unmapped ho
  refine (mapRegion_pages ⟨i,ho.fd⟩ (by rw [hs]; exact hR)).mpr ?_
  have hfresh := opened_fresh ho (by
    have hfree := rotate_frees_base (pageOs P) (fun _ => rfl) s.settings s.fs
    simpa using hfree)
  rw [ho.fileOffset,hfresh]
  exact dvd_zero P

theorem prepare_serving (hs : Serving s) {t : State} (h : s.prepare (pageOs P) data = .ready t es) :
    Serving t := by
  obtain ⟨hb,hset,hp,-⟩ := prepare_ready hs.bounded h
  refine ⟨hb,hp,?_,by rw [hset]; exact hs.region⟩
  have hstep := prepare_step (pageOs P) data s
  rw [h] at hstep
  cases hstep with
  | fits hd hp hf => exact hs.opened
  | stays hd hp hf hr hm =>
    rw [mapRegion_fd,unmap_fd]
    exact hs.opened
  | reopened hd hp hf hr ho hm =>
    rw [mapRegion_fd]
    exact ⟨_,ho.fd⟩

theorem prepare_ready_iff (hs : Serving s) (h1 : 1 ≤ data.length) :
    (∃ t es, s.prepare (pageOs P) data = .ready t es) ↔
      (s.overflows data.length → s.rotates data.length ∨ P ∣ s.fileOffset) := by
  have hstep := prepare_step (pageOs P) data s
  have hpages := mapRegion_pages (P := P) (s := s.unmapRegion)
    (by rw [unmap_fd]; exact hs.opened) (by rw [unmap_settings]; exact hs.region)
  rw [unmap_fileOffset] at hpages
  generalize s.prepare (pageOs P) data = p at hstep ⊢
  cases hstep with
  | refused h =>
    rcases h with h | h
    · omega
    · exact absurd h hs.mapped
  | fits hd hp hf => exact ⟨fun _ h => absurd h hf,fun _ => ⟨_,_,rfl⟩⟩
  | stays hd hp hf hr hm => exact ⟨fun _ _ => Or.inr (hpages.mp hm),fun _ => ⟨_,_,rfl⟩⟩
  | unmapped hd hp hf hr hm =>
    have hno : ¬P ∣ s.fileOffset := fun h => hpages.mpr h hm
    simp [hf,hr,hno]
  | reopened hd hp hf hr ho hm => exact ⟨fun _ _ => Or.inl hr,fun _ => ⟨_,_,rfl⟩⟩
  | unmappedAfter hd hp hf hr ho hm => exact absurd hm (reopened_mapped ho hs.region)
  | terminated hd hp hf hr ho => cases ho

/-- One write of at most a region is accepted if and only if it is steady. -/
theorem write_accepted_iff (hs : Serving s) (h1 : 1 ≤ data.length)
    (hR : data.length ≤ s.settings.regionSize) :
    (∃ t es, s.write (pageOs P) data = .returned data.length t es) ↔ Steady P s data.length := by
  constructor
  · rintro ⟨t,es,h⟩
    rcases write_returned h with ⟨-,h0⟩ | ⟨u,fs,m,hr,hm,hfit,-,-,-⟩
    · omega
    · obtain ⟨hu,hset,hp,⟨hf,rfl⟩ | ⟨hf,-⟩⟩ := prepare_ready hs.bounded hr
      · obtain ⟨m',hm',hlen⟩ := hu.live hp
        obtain rfl : m' = m := Option.some.inj (hm'.symm.trans hm)
        exact Or.inl (by omega)
      · exact Or.inr ⟨hf,(prepare_ready_iff hs h1).mp ⟨_,_,hr⟩ hf⟩
  · intro hsteady
    have hready : ∃ t es, s.prepare (pageOs P) data = .ready t es := by
      apply (prepare_ready_iff hs h1).mpr
      intro hf
      rcases hsteady with hfit | ⟨-,h⟩
      · have hle := u64_le (s.mmapOffset+data.length)
        unfold State.overflows at hf
        omega
      · exact h
    obtain ⟨t,es,hr⟩ := hready
    obtain ⟨ht,hset,hp,hcase⟩ := prepare_ready hs.bounded hr
    obtain ⟨m,hm,hlen⟩ := ht.live hp
    have hfit : t.mmapOffset+data.length ≤ m.length := by
      rw [hlen,hset]
      rcases hcase with ⟨hf,rfl⟩ | ⟨hf,h0⟩
      · exact hsteady.resolve_right fun h => hf h.1
      · omega
    have hwrite : s.write (pageOs P) data = t.memcpy data es := by
      unfold State.write
      rw [hr]
    exact ⟨copied data t m,es++[.stored data],hwrite.trans (memcpy_within hm hfit)⟩

theorem write_serving (hs : Serving s) (h1 : 1 ≤ data.length)
    (h : s.write (pageOs P) data = .returned data.length t es) : Serving t := by
  obtain ⟨hb,hset⟩ := write_bounded hs.bounded h
  rcases write_returned h with ⟨-,h0⟩ | ⟨u,fs,m,hr,hm,hfit,-,rfl,-⟩
  · omega
  · have hu := prepare_serving hs hr
    exact ⟨hb,hu.mapped,hu.opened,hu.region⟩

theorem accepts_iff (hs : Serving s) (ds : List Bytes)
    (hds : ∀ d ∈ ds, 1 ≤ d.length ∧ d.length ≤ s.settings.regionSize) :
    Accepts (pageOs P) s ds ↔ SteadyAll P s ds := by
  induction ds generalizing s with
  | nil => exact Iff.rfl
  | cons d ds ih =>
    obtain ⟨h1,hR⟩ := hds d (List.mem_cons_self ..)
    have hstep := write_accepted_iff (P := P) hs h1 hR
    have hnext : ∀ t es, s.write (pageOs P) d = .returned d.length t es →
        (Accepts (pageOs P) t ds ↔ SteadyAll P t ds) := by
      intro t es h
      apply ih (write_serving hs h1 h)
      rw [(write_bounded hs.bounded h).2]
      exact fun e he => hds e (List.mem_cons_of_mem _ he)
    constructor
    · rintro ⟨t,es,h,hrest⟩
      refine ⟨hstep.mp ⟨t,es,h⟩,fun n t' es' h' => ?_⟩
      rw [h] at h'
      cases h'
      exact (hnext t es h).mp hrest
    · rintro ⟨hsteady,hrest⟩
      obtain ⟨t,es,h⟩ := hstep.mpr hsteady
      exact ⟨t,es,h,(hnext t es h).mpr (hrest _ t es h)⟩

theorem construct_serving (g : Settings) (hR : 0 < g.regionSize) (w : World)
    (habs : w.fs.names g.basePath = none) :
    ∃ s es, construct g (pageOs P) w = .ok (s,es) ∧ Serving s ∧ s.settings = g := by
  have hopen : (pageOs P).openError = none := rfl
  obtain ⟨i,u,es,hu,ho⟩ := openFile_permitted ⟨w,g,none,none,0,0,0,0⟩ hopen
  have hset : u.settings = g := ho.settings
  have hc : construct g (pageOs P) w = .ok (u.mapRegion (pageOs P),es) := by
    unfold construct
    rw [hu]
    rfl
  obtain ⟨hb,hs⟩ := construct_bounded hc
  refine ⟨_,es,hc,⟨hb,?_,⟨i,by rw [mapRegion_fd,ho.fd]⟩,by rw [hs]; exact hR⟩,hs⟩
  refine (mapRegion_pages ⟨i,ho.fd⟩ (by rw [hset]; exact hR)).mpr ?_
  rw [ho.fileOffset,opened_fresh ho habs]
  exact dvd_zero P

/-- On a system whose only failing call is a mapping off the page boundary, a
sink constructed on a free path accepts every one of a sequence of writes of at
most a region if and only if each of them is steady in the state before it. -/
theorem writes_accepted_iff (P : ℕ) (g : Settings) (hR : 0 < g.regionSize) (w : World)
    (habs : w.fs.names g.basePath = none) :
    ∃ s es, construct g (pageOs P) w = .ok (s,es) ∧ ∀ ds : List Bytes,
      (∀ d ∈ ds, 1 ≤ d.length ∧ d.length ≤ g.regionSize) →
      (Accepts (pageOs P) s ds ↔ SteadyAll P s ds) := by
  obtain ⟨s,es,h,hs,rfl⟩ := construct_serving (P := P) g hR w habs
  exact ⟨s,es,h,fun ds hds => accepts_iff hs ds hds⟩

/-- Two writes of a whole page each are accepted, so both are steady. -/
theorem writes_accepted_iff_whole_pages : ∃ s es,
    construct pageSettings (pageOs 4096) .empty = .ok (s,es) ∧
    Accepts (pageOs 4096) s [page,page] ∧ SteadyAll 4096 s [page,page] := by
  have hv : ((constructed pageSettings (pageOs 4096) .empty).any fun s =>
      (Result.after (s.write (pageOs 4096) page)).any fun r => decide (r.1 = 4096) &&
        (Result.after (r.2.write (pageOs 4096) page)).any fun r' =>
          decide (r'.1 = 4096)) = true := by decide +kernel
  obtain ⟨s,hs,hv⟩ := (Option.any_eq_true _ _).mp hv
  obtain ⟨⟨n,t⟩,ht,hv⟩ := (Option.any_eq_true _ _).mp hv
  obtain ⟨hn,hv⟩ := Bool.and_eq_true_iff.mp hv
  obtain ⟨⟨n',t'⟩,ht',hn'⟩ := (Option.any_eq_true _ _).mp hv
  obtain rfl : n = 4096 := of_decide_eq_true hn
  obtain rfl : n' = 4096 := of_decide_eq_true hn'
  obtain ⟨es,h⟩ := constructed_some hs
  obtain ⟨es₁,h₁⟩ := after_some ht
  obtain ⟨es₂,h₂⟩ := after_some ht'
  have hlen : page.length = 4096 := List.length_replicate
  have hacc : Accepts (pageOs 4096) s [page,page] := by
    refine ⟨t,es₁,?_,t',es₂,?_,trivial⟩
    · rw [hlen]
      exact h₁
    · rw [hlen]
      exact h₂
  obtain ⟨s',es',h',hiff⟩ := writes_accepted_iff 4096 pageSettings (by decide) .empty rfl
  obtain ⟨rfl,-⟩ := Prod.mk.inj (Except.ok.inj (h.symm.trans h'))
  refine ⟨s,es,h,hacc,(hiff [page,page] ?_).mp hacc⟩
  intro d hd
  obtain rfl : d = page := by simpa using hd
  rw [hlen]
  decide

/-- A region is filled to 4000 of its 4096 bytes; the next line of 100 bytes
needs a new region at file offset 4000, which cannot be mapped. -/
theorem line_across_page_refused : ∃ s es,
    construct pageSettings (pageOs 4096) .empty = .ok (s,es) ∧
    ¬Accepts (pageOs 4096) s [List.replicate 4000 7,List.replicate 100 7] := by
  have hv : ((constructed pageSettings (pageOs 4096) .empty).any fun s =>
      (Result.after (s.write (pageOs 4096) (List.replicate 4000 7))).any fun r =>
        (Result.after (r.2.write (pageOs 4096) (List.replicate 100 7))).any fun r' =>
          decide (r'.1 = 0)) = true := by decide +kernel
  obtain ⟨s,hs,hv⟩ := (Option.any_eq_true _ _).mp hv
  obtain ⟨⟨n,t⟩,ht,hv⟩ := (Option.any_eq_true _ _).mp hv
  obtain ⟨⟨n',t'⟩,ht',hn'⟩ := (Option.any_eq_true _ _).mp hv
  obtain rfl : n' = 0 := of_decide_eq_true hn'
  obtain ⟨es,h⟩ := constructed_some hs
  obtain ⟨es₁,h₁⟩ := after_some ht
  obtain ⟨es₂,h₂⟩ := after_some ht'
  refine ⟨s,es,h,?_⟩
  rintro ⟨u,fs,hu,v,gs,hv,-⟩
  rw [h₁] at hu
  cases hu
  rw [h₂,List.length_replicate] at hv
  cases hv

end MpmcLogger.SinkAlignment
