import MpmcLogger.TextBuffer

/-!
# The cached date

Within one second the date is formatted once; every other call copies the
prefix. The cache starts with second 0 and a prefix nobody has written, so that
it is valid from the first timestamp of another second on.
-/

set_option autoImplicit false

namespace MpmcLogger.DateCache
open MachineWord StoreRegion MpmcLogger.Formatter MpmcLogger.TextBuffer

structure DateCall where
  wallNs : UInt64
  buf : ℤ
  region : Region UInt8

section Sequences

variable (date : ℕ → DatePrefix)

def dateText (wallNs : UInt64) : Bytes :=
  (date (wallNs.toNat/1000000000)).val++ascii "."++Decimal.padded 9 (wallNs.toNat % 1000000000)

def formatDates : CachedDateFormatter → List DateCall → List (DateCall × DateStored)
  | _, [] => []
  | f, c::cs =>
    let o := storeDate date f c.wallNs c.buf c.region
    (c,o)::formatDates o.fmt cs

def Dated (r : DateCall × DateStored) : Prop :=
  r.2.returned = 29 ∧ Wrote r.1.region r.1.buf (dateText date r.1.wallNs) r.2.buf

def Valid (f : CachedDateFormatter) : Prop := f.datePrefix = date f.cachedSec

end Sequences

variable {date : ℕ → DatePrefix}

theorem refresh_second (f : CachedDateFormatter) (sec : ℕ) :
    (f.refresh date sec).cachedSec = sec := by
  unfold CachedDateFormatter.refresh
  split_ifs with h
  · rfl
  · exact (not_not.mp h).symm

theorem refresh_valid {f : CachedDateFormatter} {sec : ℕ}
    (h : sec = f.cachedSec → Valid date f) : Valid date (f.refresh date sec) := by
  unfold CachedDateFormatter.refresh
  split_ifs with hsec
  · rfl
  · exact h (not_not.mp hsec)

theorem format_text {f : CachedDateFormatter} {wallNs : UInt64}
    (h : Valid date (f.refresh date (wallNs.toNat/1000000000))) :
    (f.format date wallNs).2 = dateText date wallNs := by
  unfold Valid at h
  rw [refresh_second] at h
  rw [format_padded,dateText]
  exact congrArg (fun p : DatePrefix => p.val++_++_) h

theorem storeDate_dated {f : CachedDateFormatter} (c : DateCall)
    (h : c.wallNs.toNat/1000000000 = f.cachedSec → Valid date f) :
    Dated date (c,storeDate date f c.wallNs c.buf c.region) ∧
      Valid date (storeDate date f c.wallNs c.buf c.region).fmt := by
  have hvalid := refresh_valid h
  refine ⟨⟨rfl,?_⟩,hvalid⟩
  rw [← format_text hvalid]
  exact storeDate_wrote f c.wallNs c.buf c.region

/-- A valid cache stays valid and every call shows the uncached text. -/
theorem formatDates_dated {f : CachedDateFormatter} (h : Valid date f) (cs : List DateCall) :
    ∀ r ∈ formatDates date f cs, Dated date r := by
  induction cs generalizing f with
  | nil => exact fun r hr => absurd hr List.not_mem_nil
  | cons c cs ih =>
    obtain ⟨hdated,hvalid⟩ := storeDate_dated c fun _ => h
    intro r hr
    rcases List.mem_cons.mp hr with rfl | hr
    · exact hdated
    · exact ih hvalid r hr

theorem dated_prefix {f : CachedDateFormatter} {c : DateCall}
    (hsec : c.wallNs.toNat/1000000000 = f.cachedSec)
    (h : Dated date (c,storeDate date f c.wallNs c.buf c.region)) : Valid date f := by
  have hkeep : f.refresh date (c.wallNs.toNat/1000000000) = f := if_neg (not_not.mpr hsec)
  have hright := (date f.cachedSec).property
  have hlen : (dateText date c.wallNs).length = (f.format date c.wallNs).2.length := by
    rw [length_format,dateText,hsec,List.length_append,List.length_append,hright,
      Decimal.length_padded (nanos_lt c.wallNs)]
    rfl
  have hsame : dateText date c.wallNs = (f.format date c.wallNs).2 := by
    rw [← h.2.load,hlen]
    exact (storeDate_wrote f c.wallNs c.buf c.region).load
  rw [format_padded,hkeep,dateText,hsec] at hsame
  have hbytes := List.append_inj_left' (List.append_inj_left' hsame rfl) rfl
  exact (Subtype.ext hbytes).symm

/-- Every call of a fresh formatter shows its own date, whatever the prefix held,
unless the first timestamp lies in second 0; then the prefix must be its date. -/
theorem dates_agree_iff (date : ℕ → DatePrefix) (p : DatePrefix) (cs : List DateCall) :
    (∀ r ∈ formatDates date (.fresh p) cs, Dated date r) ↔
      ∀ c ∈ cs.head?, c.wallNs.toNat < 1000000000 → p = date 0 := by
  cases cs with
  | nil => simp [formatDates]
  | cons c cs =>
    simp only [List.head?_cons,Option.mem_some_iff,forall_eq']
    constructor
    · intro h hc
      have hsec : c.wallNs.toNat/1000000000 = 0 := Nat.div_eq_of_lt hc
      exact dated_prefix (f := .fresh p) hsec (h _ List.mem_cons_self)
    · intro h
      have hfirst : c.wallNs.toNat/1000000000 = 0 → p = date 0 := fun hsec =>
        h (by omega)
      obtain ⟨hdated,hvalid⟩ := storeDate_dated (f := .fresh p) c hfirst
      intro r hr
      rcases List.mem_cons.mp hr with rfl | hr
      · exact hdated
      · exact formatDates_dated hvalid cs r hr

/-- The first timestamp of a fresh formatter is 0: nineteen bytes 0 are shown. -/
theorem unset_prefix_shown : ∃ (p : DatePrefix) (c : DateCall), c.wallNs = 0 ∧
    ¬∀ r ∈ formatDates (fun _ => epochPrefix) (.fresh p) [c], Dated (fun _ => epochPrefix) r := by
  let p : DatePrefix := ⟨List.replicate 19 0,rfl⟩
  refine ⟨p,⟨0,0,.fresh fun _ => 0⟩,rfl,fun h => ?_⟩
  have hp : p = epochPrefix := dated_prefix (f := .fresh p) rfl (h _ List.mem_cons_self)
  exact absurd (congrArg Subtype.val hp) (by decide)

end MpmcLogger.DateCache
