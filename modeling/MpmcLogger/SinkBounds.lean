import MpmcLogger.SinkSteps

/-!
# Copies inside the mapping

A write tests its bound before the turnover and copies after it, at offset zero
of a new region. The test is thus as good as the data is short: data longer
than a region passes from the turnover to the copy unchecked. The invariant is
kept by every outcome of the system calls.
-/

set_option autoImplicit false

namespace MpmcLogger.SinkBounds
open MachineWord FileStore MpmcLogger.SinkMachine MpmcLogger.SinkSteps

variable {os : Os} {s t : State} {es tr : List Event} {data : Bytes}

structure Bounded (s : State) : Prop where
  offset : s.mmapOffset ≤ s.settings.regionSize
  live : s.mmapPtr ≠ none → ∃ m, s.mapping = some m ∧ m.length = s.settings.regionSize

def InRange (s : State) (len : ℕ) : Prop :=
  len ≤ s.settings.regionSize ∧ s.mmapOffset+len < 2^64

theorem unmapped_bounded (hp : s.mmapPtr = none) (h0 : s.mmapOffset = 0) : Bounded s :=
  ⟨by omega,fun h => absurd hp h⟩

@[simp] theorem mapped_mapping (s : State) (i : ℕ) :
    (mapped s i).mapping = some ⟨i,s.fileOffset,s.settings.regionSize⟩ := by
  simp [State.mapping,mapped]

theorem mapped_bounded (s : State) (i : ℕ) : Bounded (mapped s i) :=
  ⟨Nat.zero_le _,fun _ => ⟨_,mapped_mapping s i,rfl⟩⟩

theorem mapRegion_bounded (os : Os) (hp : s.mmapPtr = none) (h0 : s.mmapOffset = 0) :
    Bounded (s.mapRegion os) ∧ (s.mapRegion os).mmapOffset = 0 := by
  refine mapRegion_cases (P := fun u => Bounded u ∧ u.mmapOffset = 0) os s
    (fun _ => ⟨unmapped_bounded hp h0,h0⟩) fun i u _ hstep => ?_
  cases hstep with
  | notExtended h => exact ⟨unmapped_bounded hp h0,h0⟩
  | notMapped he h => exact ⟨unmapped_bounded rfl h0,h0⟩
  | mapped he h => exact ⟨mapped_bounded s i,rfl⟩

theorem opened_unmapped {i : ℕ} (ho : Opened os (rotated os s) i t es) :
    t.mmapPtr = none ∧ t.mmapOffset = 0 ∧ t.settings = s.settings := by
  rw [ho.mmapPtr,ho.mmapOffset,ho.settings]
  simp

/-- A write reaches its copy in the old region, where the sum of offset and
length has passed the test, or at the beginning of a new one. -/
theorem prepare_ready (hb : Bounded s) (h : s.prepare os data = .ready t es) :
    Bounded t ∧ t.settings = s.settings ∧ t.mmapPtr ≠ none ∧
      (¬s.overflows data.length ∧ t = s ∨ s.overflows data.length ∧ t.mmapOffset = 0) := by
  have hstep := prepare_step os data s
  rw [h] at hstep
  cases hstep with
  | fits hd hp hf => exact ⟨hb,rfl,hp,Or.inl ⟨hf,rfl⟩⟩
  | stays hd hp hf hr hm =>
    obtain ⟨ht,h0⟩ := mapRegion_bounded (s := s.unmapRegion) os (by simp) (by simp)
    exact ⟨ht,by simp,hm,Or.inr ⟨hf,h0⟩⟩
  | reopened hd hp hf hr ho hm =>
    obtain ⟨hp,h0,hs⟩ := opened_unmapped ho
    obtain ⟨ht,h0⟩ := mapRegion_bounded os hp h0
    exact ⟨ht,(mapRegion_settings os _).trans hs,hm,Or.inr ⟨hf,h0⟩⟩

theorem prepare_refused (hb : Bounded s) (h : s.prepare os data = .refused t es) :
    Bounded t ∧ t.settings = s.settings := by
  have hstep := prepare_step os data s
  rw [h] at hstep
  cases hstep with
  | refused h => exact ⟨hb,rfl⟩
  | unmapped hd hp hf hr hm =>
    exact ⟨(mapRegion_bounded os (by simp) (by simp)).1,by simp⟩
  | unmappedAfter hd hp hf hr ho hm =>
    obtain ⟨hp,h0,hs⟩ := opened_unmapped ho
    exact ⟨(mapRegion_bounded os hp h0).1,(mapRegion_settings os _).trans hs⟩

/-- Where a write copies, it stays inside the region exactly when its data was
in range. -/
theorem ready_fits (hb : Bounded s) (h : s.prepare os data = .ready t es) :
    t.mmapOffset+data.length ≤ s.settings.regionSize ↔ InRange s data.length := by
  obtain ⟨-,-,-,⟨hf,rfl⟩ | ⟨hf,h0⟩⟩ := prepare_ready hb h
  · have hfits := t.settings.region_fits
    constructor
    · intro hle
      exact ⟨by omega,by omega⟩
    · rintro ⟨-,hlt⟩
      unfold State.overflows at hf
      rw [u64_of_lt hlt] at hf
      exact not_lt.mp hf
  · have hfits := s.settings.region_fits
    have hoff := hb.offset
    rw [h0,Nat.zero_add]
    constructor
    · intro hle
      refine ⟨hle,?_⟩
      -- a wrapped sum of two values below the region size is below it as well
      unfold State.overflows u64 at hf
      omega
    · exact fun hr => hr.1

theorem write_no_fault (hb : Bounded s) (hin : InRange s data.length) :
    s.write os data ≠ .fault := by
  unfold State.write
  cases hr : s.prepare os data with
  | refused t es => simp
  | terminated what => simp
  | ready t es =>
    obtain ⟨ht,hs,hp,-⟩ := prepare_ready hb hr
    obtain ⟨m,hm,hlen⟩ := ht.live hp
    have hfit := (ready_fits hb hr).mpr hin
    simp only
    rw [memcpy_within hm (by rw [hlen,hs]; exact hfit)]
    simp

theorem copied_bounded {m : Mapping} (hb : Bounded s) (hm : s.mapping = some m)
    (hp : s.mmapPtr ≠ none) (hfit : s.mmapOffset+data.length ≤ m.length) :
    Bounded (copied data s m) := by
  obtain ⟨m',hm',hlen⟩ := hb.live hp
  obtain rfl : m' = m := Option.some.inj (hm'.symm.trans hm)
  constructor
  · have hle := u64_le (s.mmapOffset+data.length)
    show u64 (s.mmapOffset+data.length) ≤ s.settings.regionSize
    omega
  · exact fun _ => ⟨m',hm,hlen⟩

theorem write_bounded {n : ℕ} (hb : Bounded s) (h : s.write os data = .returned n t es) :
    Bounded t ∧ t.settings = s.settings := by
  rcases write_returned h with ⟨hr,-⟩ | ⟨u,fs,m,hr,hm,hfit,-,rfl,-⟩
  · exact prepare_refused hb hr
  · obtain ⟨hu,hs,hp,-⟩ := prepare_ready hb hr
    exact ⟨copied_bounded hu hm hp hfit,hs⟩

theorem construct_bounded {g : Settings} {w : World} (h : construct g os w = .ok (s,es)) :
    Bounded s ∧ s.settings = g := by
  obtain ⟨i,u,ho,rfl⟩ := construct_ok h
  exact ⟨(mapRegion_bounded os ho.mmapPtr ho.mmapOffset).1,
    (mapRegion_settings os u).trans ho.settings⟩

theorem run_bounded {ok : State → Call → ℕ → State → Prop} {g : Settings} {w : World} {s₀ : State}
    (h : construct g os w = .ok (s₀,es)) (r : Run ok s₀ s tr) : Bounded s ∧ s.settings = g := by
  induction r with
  | start => exact construct_bounded h
  | next r hw _ ih =>
    obtain ⟨hb,hs⟩ := write_bounded ih.1 hw
    exact ⟨hb,hs.trans ih.2⟩

/-- Whatever the system calls do: while all data is in range the offset is inside
the region; and in every state reached the next write that copies does so into a
live mapping of the size of a region, inside it if and only if its data is in range. -/
theorem copies_in_bounds (g : Settings) (os : Os) (w : World) (s₀ s : State)
    (es tr : List Event) (h : construct g os w = .ok (s₀,es))
    (r : Run (fun _ _ _ _ => True) s₀ s tr) :
    (Run (fun s c _ _ => InRange s c.data.length) s₀ s tr → s.mmapOffset ≤ g.regionSize) ∧
    ∀ os data,
      (∀ t fs, s.prepare os data = .ready t fs →
        (∃ m, t.mapping = some m ∧ m.length = g.regionSize) ∧
        (t.mmapOffset+data.length ≤ g.regionSize ↔ InRange s data.length)) ∧
      (InRange s data.length → s.write os data ≠ .fault) := by
  obtain ⟨hb,rfl⟩ := run_bounded h r
  refine ⟨fun _ => hb.offset,fun os data => ⟨?_,?_⟩⟩
  · intro t fs hr
    obtain ⟨ht,hs,hp,-⟩ := prepare_ready hb hr
    rw [← hs]
    refine ⟨ht.live hp,?_⟩
    rw [hs]
    exact ready_fits hb hr
  · exact fun hin => write_no_fault hb hin

def appLog (regionSize maxFileSize maxRotated : UInt64) : Settings :=
  ⟨"app.log",regionSize.toNat,maxFileSize.toNat,maxRotated.toNat,regionSize.toNat_lt,
    maxFileSize.toNat_lt,maxRotated.toNat_lt⟩

def pageSettings : Settings := appLog 4096 (2^20) 8

def page : Bytes := List.replicate 4096 7

def record128 : Bytes := List.replicate 128 8

/-- A record after a page that filled its region is copied into the next one. -/
theorem copies_in_bounds_turnover : ∃ (s₀ s t : State) (es tr fs : List Event) (m : Mapping),
    construct pageSettings (pageOs 4096) .empty = .ok (s₀,es) ∧
    Run (fun s c _ _ => InRange s c.data.length) s₀ s tr ∧ s.mmapOffset = 4096 ∧
    s.prepare (pageOs 4096) record128 = .ready t fs ∧ t.mapping = some m ∧ m.length = 4096 ∧
    t.mmapOffset+128 ≤ 4096 := by
  have hv : (construct pageSettings (pageOs 4096) .empty).toOption.any fun r =>
      decide (r.1.mmapOffset = 0) && (Result.after (r.1.write (pageOs 4096) page)).any fun q =>
        decide (q.2.mmapOffset = 4096) &&
          (Prepared.copying (q.2.prepare (pageOs 4096) record128)).isSome := by
    decide +kernel
  obtain ⟨⟨s₀,es⟩,h,hv⟩ := (Option.any_eq_true _ _).mp hv
  obtain ⟨hoff₀,hv⟩ := Bool.and_eq_true_iff.mp hv
  obtain ⟨⟨n,s⟩,hs,hv⟩ := (Option.any_eq_true _ _).mp hv
  obtain ⟨hoff,hv⟩ := Bool.and_eq_true_iff.mp hv
  obtain ⟨t,ht⟩ := Option.isSome_iff_exists.mp hv
  obtain ⟨tr,h₁⟩ := after_some hs
  obtain ⟨fs,hr⟩ := copying_some ht
  have h₀ := built_some h
  have hset₀ := (construct_bounded h₀).2
  have hin₀ : InRange s₀ page.length := by
    unfold InRange page
    rw [hset₀,of_decide_eq_true hoff₀,List.length_replicate]
    decide
  have run : ∀ ok : State → Call → ℕ → State → Prop, ok s₀ ⟨pageOs 4096,page⟩ n s →
      Run ok s₀ s ([]++tr) := fun ok hok => Run.start.next (c := ⟨pageOs 4096,page⟩) h₁ hok
  obtain ⟨-,hall⟩ := copies_in_bounds pageSettings (pageOs 4096) .empty s₀ s es _ h₀
    (run _ trivial)
  obtain ⟨⟨m,hm,hlen⟩,hiff⟩ := (hall (pageOs 4096) record128).1 t fs hr
  have hin : InRange s record128.length := by
    unfold InRange record128
    rw [(run_bounded h₀ (run (fun _ _ _ _ => True) trivial)).2,of_decide_eq_true hoff,
      List.length_replicate]
    decide
  have hfit := hiff.mpr hin
  rw [record128,List.length_replicate] at hfit
  exact ⟨s₀,s,t,es,_,fs,m,h₀,run _ hin₀,of_decide_eq_true hoff,hr,hm,hlen,hfit⟩

def tinySettings : Settings := appLog 64 1024 1

/-- A record of 128 bytes written into regions of 64: the turnover finds no
room for it either, and the copy leaves the mapping. -/
theorem record_leaves_small_region : ∃ (s t : State) (es fs : List Event),
    construct tinySettings .succeeds .empty = .ok (s,es) ∧
    s.prepare .succeeds (List.replicate 128 7) = .ready t fs ∧
    ¬t.mmapOffset+(List.replicate 128 (7 : UInt8)).length ≤ tinySettings.regionSize := by
  have hv : ((constructed tinySettings .succeeds .empty).any fun s =>
      (Prepared.copying (s.prepare .succeeds (List.replicate 128 7))).any fun t =>
        decide (64 < t.mmapOffset+128)) = true := by decide +kernel
  obtain ⟨s,hs,hv⟩ := (Option.any_eq_true _ _).mp hv
  obtain ⟨t,ht,hv⟩ := (Option.any_eq_true _ _).mp hv
  obtain ⟨es,h₀⟩ := constructed_some hs
  obtain ⟨fs,hr⟩ := copying_some ht
  refine ⟨s,t,es,fs,h₀,hr,?_⟩
  rw [List.length_replicate]
  exact not_le.mpr (of_decide_eq_true hv)

end MpmcLogger.SinkBounds
