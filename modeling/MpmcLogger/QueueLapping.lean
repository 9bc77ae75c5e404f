import MpmcLogger.QueueInvariant

/-!
# No active consumer is lapped

A bound looks behind consumer `d` when it is at most the tail of `d`. While
every bound in the queue and in every thread looks behind every active consumer
the head stays within one lap of every active tail. The one step that can spoil
this is the raise of a new consumer's flag, after the head was loaded and the
tail stored: the guard of the last theorem asks of the state before that step
that nothing already looks past the new tail.
-/

set_option autoImplicit false

namespace MpmcLogger.QueueLapping
open Interleaving CopiedCell RingIndex MachineWord MpmcLogger.QueueMachine MpmcLogger.QueueHistory
open MpmcLogger.QueueInvariant

variable {T : Type*}

structure Tracked (S : RingSize) (q : Queue T) : Prop where
  lap : ∀ d, (q.consumers d).active = true → q.head ≤ (q.consumers d).tail+S.size
  minTail : ∀ d, (q.consumers d).active = true → q.minTail ≤ (q.consumers d).tail

def Behind (S : RingSize) (d : ConsumerId) (b : ℕ) : Local T → Prop
  | .scanActive _ i m => d.val < i → m.least ≤ b
  | .scanTail _ c m => d.val < c.val → m.least ≤ b
  | .storeMinTail _ new => new ≤ b
  | .pushCas _ h => h < b+S.size
  | _ => True

/-- Nothing in the configuration looks past the stored tail of `d`. -/
def LooksBehind (S : RingSize) (c : Config T) (d : ConsumerId) : Prop :=
  c.shared.head ≤ (c.shared.consumers d).tail+S.size ∧
  c.shared.minTail ≤ (c.shared.consumers d).tail ∧
  ∀ j, Behind S d (c.shared.consumers d).tail (c.locals j)

theorem behind_mono {S : RingSize} {d : ConsumerId} {a b : ℕ} (hab : a ≤ b) {l : Local T}
    (h : Behind S d a l) : Behind S d b l := by
  cases l with
  | scanActive k i m => exact fun hi => (h hi).trans hab
  | scanTail k c m => exact fun hi => (h hi).trans hab
  | storeMinTail k new => exact le_trans h hab
  | pushCas x hd => exact lt_of_lt_of_le h (Nat.add_le_add_right hab _)
  | _ => trivial

section Steps

variable {S : RingSize} {n : ℕ} {own : ConsumerId → ℕ} {t : ℕ} {q q' : Queue T}
  {tr es : List (Event T)} {l l' : Local T} {m : Move T} {d : ConsumerId}

theorem tail_le_step (hs : Sound S n q tr) (hg : Good n own t q tr l)
    (hb : Within n (tr++es)) (he : Effect S t q l q' es) (hd : Joined n tr d) :
    (q.consumers d).tail ≤ (q'.consumers d).tail := by
  rcases tail_step hs hg hb he hd with ht | ⟨ht,-,-⟩ <;> omega

theorem room_behind {b h : ℕ} (hbd : b ≤ (q.consumers d).tail) (room : h < u64 (b+S.size)) :
    h < (q.consumers d).tail+S.size := by
  have hle : u64 (b+S.size) ≤ b+S.size := u64_le _
  omega

/-- A step of a thread keeps it behind every consumer that was active. -/
theorem behind_step (hp : Tracked S q) (hd : (q.consumers d).active = true)
    (hl : Behind S d (q.consumers d).tail l) (h : Step S t m q l q' l' es) :
    Behind S d (q.consumers d).tail l' := by
  cases h with
  | call q op => cases op <;> first | trivial | exact fun hi => absurd hi (Nat.not_lt_zero _)
  | needScan q x h full => exact fun hi => absurd hi (Nat.not_lt_zero _)
  | hasRoom q x h room => exact room_behind (hp.minTail d hd) room
  | sawActive q k i m hi active => exact hl
  | sawInactive q k i m hi inactive => exact fun hlt => hl (passed_inactive hd inactive hlt)
  | readTail q k c m => exact least_passed hl
  | scanChanged q k i m hi => exact (result_le_least m).trans (hl (d.isLt.trans_le hi))
  | scanRoom q x h i m hi room =>
    exact room_behind ((result_le_least m).trans (hl (d.isLt.trans_le hi))) room
  | storeRoom q x h old new room => exact room_behind hl room
  | _ => trivial

/-- What a raised flag may reveal: the guard holds of the consumer concerned. -/
theorem tracked_step (hs : Sound S n q tr) (hg : Good n own t q tr l)
    (hb : Within n (tr++es)) (he : Effect S t q l q' es) (hp : Tracked S q)
    (hl : ∀ d, (q.consumers d).active = true → Behind S d (q.consumers d).tail l)
    (hr : ∀ d, l = .registerStoreActive d →
      q.head ≤ (q.consumers d).tail+S.size ∧ q.minTail ≤ (q.consumers d).tail) :
    Tracked S q' := by
  have hold : ∀ d, (q.consumers d).active = true →
      q'.head ≤ (q.consumers d).tail+S.size ∧ q'.minTail ≤ (q.consumers d).tail := by
    intro d hd
    have hlap := hp.lap d hd
    have hmin := hp.minTail d hd
    cases he with
    | claim x hx =>
      subst hx
      have hle : u64 (q.head+1) ≤ q.head+1 := u64_le _
      have hlt : q.head < (q.consumers d).tail+S.size := hl d hd
      constructor
      · simp only
        omega
      · exact hmin
    | minTail k new hk h =>
      subst hk
      exact ⟨hlap,hl d hd⟩
    | _ => exact ⟨hlap,hmin⟩
  have hnew : ∀ d, l = .registerStoreActive d → (q'.consumers d).active = true →
      q'.head ≤ (q'.consumers d).tail+S.size ∧ q'.minTail ≤ (q'.consumers d).tail := by
    intro d hd hact
    have := hr d hd
    subst hd
    cases he with
    | raise e hd =>
      obtain rfl := Local.registerStoreActive.inj hd
      simpa using this
    | quiet h => exact this
    | _ => contradiction
  have hall : ∀ d, (q'.consumers d).active = true →
      q'.head ≤ (q'.consumers d).tail+S.size ∧ q'.minTail ≤ (q'.consumers d).tail := by
    intro d hd
    rcases active_step he hd with ha | ha
    · have ht := tail_le_step hs hg hb he (hs.active d ha)
      have := hold d ha
      omega
    · exact hnew d ha hd
  exact ⟨fun d hd => (hall d hd).1,fun d hd => (hall d hd).2⟩

end Steps

variable {S : RingSize} {n : ℕ} {own : ConsumerId → ℕ} {c : Config T} {tr : List (Event T)}
  {ok : Guard ℕ (Move T) (Queue T) (Local T)}

def BehindActive (S : RingSize) (q : Queue T) (l : Local T) : Prop :=
  ∀ d, (q.consumers d).active = true → Behind S d (q.consumers d).tail l

theorem run_tracked (hown : ∀ c t m, ok c t m → OwnedMove own t m)
    (hraise : ∀ c t m, ok c t m → Raises (LooksBehind S) c t)
    (r : (machine T S).Run ok (Config.start n) c tr) (hb : Bounded S n tr) :
    Tracked S c.shared ∧ ∀ t, BehindActive S c.shared (c.locals t) := by
  refine System.Run.thread_invariant (bounded_earlier S n) (G := fun q _ => Tracked S q)
    (A := fun _ q _ l => BehindActive S q l) ?_ ?_ ?_ r hb
  · exact ⟨⟨fun d _ => Nat.zero_le _,fun d _ => Nat.zero_le _⟩,fun t d _ => trivial⟩
  · intro c tr t m q l es r hb hp hl g ha
    obtain ⟨hs,hg⟩ := run_sound begun_start hown r (bounded_earlier S n _ _ hb)
    replace hb := bounded_within hb
    have hst := act_step ha
    have he := step_effect hst
    constructor
    · apply tracked_step hs (hg t) hb he hp (hl t)
      intro d hd
      have := hraise c t m g d hd
      exact ⟨this.1,this.2.1⟩
    · intro d hd
      rcases active_step he hd with hact | hact
      · exact behind_mono (tail_le_step hs (hg t) hb he (hs.active d hact))
          (behind_step hp hact (hl t d hact) hst)
      · rw [hact] at hst
        cases hst
        trivial
  · intro c tr t m q l es r hb hp hl g ha j hj d hd
    obtain ⟨hs,hg⟩ := run_sound begun_start hown r (bounded_earlier S n _ _ hb)
    replace hb := bounded_within hb
    have he := step_effect (act_step ha)
    rcases active_step he hd with hact | hact
    · exact behind_mono (tail_le_step hs (hg t) hb he (hs.active d hact)) (hl j d hact)
    · have ht : (q.consumers d).tail = (c.shared.consumers d).tail := by
        have hst := act_step ha
        rw [hact] at hst
        cases hst
        simp
      rw [ht]
      exact (hraise c t m g d hact).2.2 j

/-- With consumers joining at any time: as long as no flag is raised while
something looks past the new tail, every active consumer stays within one lap
of the head. -/
theorem active_within_lap (S : RingSize) (own : ConsumerId → ℕ) (c : Config T)
    (tr : List (Event T))
    (r : (machine T S).Run (Raising own (LooksBehind S)) (Config.start 0) c tr)
    (hb : Bounded S 0 tr) :
    ∀ d, (c.shared.consumers d).active = true →
      (c.shared.consumers d).tail ≤ c.shared.head ∧
      c.shared.head ≤ (c.shared.consumers d).tail+S.size := by
  obtain ⟨hs,-⟩ := run_sound begun_start (fun _ _ _ g => g.1) r hb
  obtain ⟨hp,-⟩ := run_tracked (fun _ _ _ g => g.1) (fun _ _ _ g => g.2) r hb
  exact fun d hd => ⟨hs.tail_le d,hp.lap d hd⟩

/-- One consumer registers, sixteen pushes fill the ring. -/
theorem active_within_lap_full_ring : ∃ (c : Config ℕ) (tr : List (Event ℕ)),
    (machine ℕ ring16).Run (Raising (fun _ => 2) (LooksBehind ring16)) (Config.start 0) c tr ∧
    c.shared.head = 16 ∧ (c.shared.consumers 0).active = true ∧
    c.shared.head ≤ (c.shared.consumers 0).tail+ring16.size := by
  obtain ⟨tr₀,r₀,hc₀,ht₀⟩ := setup_run (S := ring16) (T := ℕ) 2 1 (by decide)
    (untouched_raising (P := LooksBehind ring16) (fun _ => 2) 2 (by
      intro c d hu hl
      refine ⟨by simp [hu.head],by simp [hu.minTail],fun j => ?_⟩
      by_cases hj : j = 2
      · subst hj
        rw [hl]
        trivial
      · rw [hu.others j hj]
        trivial))
  obtain ⟨c,tr,r,hv⟩ := exec_any (machine ℕ ring16) (Config.start 1)
    (calm_raising fun _ => 2) ((List.range 16).flatMap fun i => callAlone 1 (.push i) 6)
    (fun r => decide (r.1.shared.head = 16 ∧ (r.1.shared.consumers 0).active = true ∧
      (claims r.2).length = 16 ∧ (tickets r.2).length = 0)) (by decide +kernel)
  obtain ⟨hh,ha,hc,ht⟩ := of_decide_eq_true hv
  have hb : Bounded ring16 0 (tr₀++tr) := by
    simp only [Bounded,claims_append,tickets_append,List.length_append,hc₀,ht₀,hc,ht]
    decide
  exact ⟨c,_,r₀.trans r,hh,ha,
    (active_within_lap ring16 (fun _ => 2) c _ (r₀.trans r) hb 0 ha).2⟩

/-- Consumer 1 loads head 0 and stalls; seventeen pushes pass while consumer 0
keeps up; the flag of consumer 1 then goes up at tail 0, a lap and one behind. -/
theorem stalled_registration_lapped : ∃ (c : Config ℕ) (tr : List (Event ℕ)),
    (machine ℕ ring16).Run (Owned fun _ => 2) (Config.start 0) c tr ∧ Bounded ring16 0 tr ∧
    (c.shared.consumers 1).active = true ∧ (c.shared.consumers 1).tail = 0 ∧
    c.shared.head = 17 ∧ ¬c.shared.head ≤ (c.shared.consumers 1).tail+ring16.size := by
  obtain ⟨c,tr,r,hv⟩ := exec_any (machine ℕ ring16) (Config.start 0)
    (owned_of_check fun _ => 2)
    (callAlone 2 .registerConsumer 4 ++ callAlone 3 .registerConsumer 2 ++
      (List.range 16).flatMap (fun i => callAlone 1 (.push i) 6 ++ callAlone 2 (.pop 0) 6) ++
      callAlone 1 (.push 16) 41 ++ List.replicate 2 (3,.go))
    (fun r => decide ((r.1.shared.consumers 1).active = true ∧
      (r.1.shared.consumers 1).tail = 0 ∧ r.1.shared.head = 17 ∧ (claims r.2).length = 17 ∧
      (tickets r.2).length = 2)) (by decide +kernel)
  obtain ⟨ha,ht,hh,hc,hn⟩ := of_decide_eq_true hv
  have hb : Bounded ring16 0 tr := by
    simp only [Bounded,hc,hn]
    decide
  refine ⟨c,tr,r,hb,ha,ht,hh,?_⟩
  rw [hh,ht]
  decide

end MpmcLogger.QueueLapping
