import MpmcLogger.QueueInvariant

/-!
# Slot exclusivity

The full check protects a slot only through the tails of active consumers, so
it is as good as those tails: a bound below which every position has been
published. The invariant of this module says that every cached, scanned or
stored bound is of that kind, hence that a claimed position has no unpublished
predecessor in its slot. A registration that raises its flag over a position
still being written breaks it, and the last theorem exhibits such a run.
-/

set_option autoImplicit false

namespace MpmcLogger.QueueExclusion
open Interleaving CopiedCell RingIndex MachineWord MpmcLogger.QueueMachine MpmcLogger.QueueHistory
open MpmcLogger.QueueInvariant

variable {T : Type*}

def Below (tr : List (Event T)) (b : ℕ) : Prop := ∀ k, k < b → Published tr k

structure Separated (S : RingSize) (q : Queue T) (tr : List (Event T)) : Prop where
  active : ∀ c, (q.consumers c).active = true → Below tr (q.consumers c).tail
  minTail : Below tr q.minTail
  lap : ∀ k, k+S.size < q.head → Published tr k

def Cleared (S : RingSize) (q : Queue T) (tr : List (Event T)) : Local T → Prop
  | .scanActive _ _ m => m.least ≠ invalidPos → Below tr m.least
  | .scanTail _ c m => (m.least ≠ invalidPos → Below tr m.least) ∧
      Below tr (q.consumers c).tail
  | .storeMinTail _ new => Below tr new
  | .pushCas _ h => ∀ k, k+S.size ≤ h → Published tr k
  | _ => True

/-- No thread holds a claimed position below the tail of `d`. -/
def PublishedBelow (c : Config T) (d : ConsumerId) : Prop :=
  ∀ j k x, holds (c.locals j) = some (k,x) → (c.shared.consumers d).tail ≤ k

theorem below_zero (tr : List (Event T)) : Below tr 0 := fun _ h => absurd h (Nat.not_lt_zero _)

theorem below_append {tr es : List (Event T)} {b : ℕ} (h : Below tr b) : Below (tr++es) b :=
  fun k hk => (published_append _ _ _).mpr (Or.inl (h k hk))

theorem below_succ {tr : List (Event T)} {b : ℕ} (h : Below tr b) (hb : Published tr b) :
    Below tr (b+1) := by
  intro k hk
  rcases Nat.lt_succ_iff_lt_or_eq.mp hk with hk | rfl
  · exact h k hk
  · exact hb

theorem below_min {tr : List (Event T)} {a b : ℕ} (hb : Below tr b) : Below tr (min a b) :=
  fun k hk => hb k (hk.trans_le (Nat.min_le_right _ _))

theorem below_result {tr : List (Event T)} {m : Mins}
    (h : m.least ≠ invalidPos → Below tr m.least) : Below tr m.result := by
  by_cases hm : m.least = invalidPos
  · rw [result_of_start hm]
    exact below_zero tr
  · rw [result_of_ne hm]
    exact h hm

section Steps

variable {S : RingSize} {n : ℕ} {own : ConsumerId → ℕ} {t j : ℕ} {q q' : Queue T}
  {tr es : List (Event T)} {l l' : Local T} {m : Move T}

theorem below_tail_step (hs : Sound S n q tr) (hg : Good n own t q tr l)
    (hb : Within n (tr++es)) (he : Effect S t q l q' es) {c : ConsumerId}
    (hc : Joined n tr c) (h : Below tr (q.consumers c).tail) :
    Below (tr++es) (q'.consumers c).tail := by
  rcases tail_step hs hg hb he hc with ht | ⟨ht,hp,-⟩
  · rw [ht]
    exact below_append h
  · rw [ht]
    exact below_append (below_succ h hp)

theorem separated_step (hs : Sound S n q tr) (hg : Good n own t q tr l)
    (hb : Within n (tr++es)) (he : Effect S t q l q' es) (hp : Separated S q tr)
    (hl : Cleared S q tr l) (hr : ∀ c, l = .registerStoreActive c →
      Below tr (q.consumers c).tail) : Separated S q' (tr++es) where
  active c hc := by
    rcases active_step he hc with ha | ha
    · exact below_tail_step hs hg hb he (hs.active c ha) (hp.active c ha)
    · have hk := hr c ha
      subst ha
      cases he with
      | raise d hd =>
        obtain rfl := Local.registerStoreActive.inj hd
        simpa using below_append hk
      | quiet h => exact below_append hk
      | _ => contradiction
  minTail := by
    cases he with
    | minTail k new hk h =>
      subst hk
      exact below_append hl
    | _ => exact below_append hp.minTail
  lap k hk := by
    refine (published_append _ _ _).mpr (Or.inl ?_)
    cases he with
    | claim x hx =>
      subst hx
      have hle : u64 (q.head+1) ≤ q.head+1 := u64_le _
      exact hl k (by simp only at hk; omega)
    | _ => exact hp.lap k hk

theorem cleared_stable (hs : Sound S n q tr) (hg : Good n own t q tr l)
    (hb : Within n (tr++es)) (he : Effect S t q l q' es) (hj : Good n own j q tr l')
    (h : Cleared S q tr l') : Cleared S q' (tr++es) l' := by
  have hpub : ∀ k, Published tr k → Published (tr++es) k := fun k hk =>
    (published_append _ _ _).mpr (Or.inl hk)
  cases l' with
  | scanActive k i m => exact fun hm => below_append (h hm)
  | scanTail k c m =>
    exact ⟨fun hm => below_append (h.1 hm),below_tail_step hs hg hb he hj.ok.2.2 h.2⟩
  | storeMinTail k new => exact below_append h
  | pushCas x hd => exact fun k hk => hpub k (h k hk)
  | _ => trivial

/-- A push that found room below a cleared bound may claim its position. -/
theorem room_cleared {b h : ℕ} (hclear : Below tr b) (room : h < u64 (b+S.size)) :
    ∀ k, k+S.size ≤ h → Published tr k := by
  have hle : u64 (b+S.size) ≤ b+S.size := u64_le _
  exact fun k hk => hclear k (by omega)

theorem cleared_step (hp : Separated S q tr) (hl : Cleared S q tr l)
    (h : Step S t m q l q' l' es) : Cleared S q' (tr++es) l' := by
  cases h with
  | call q op => cases op <;> first | trivial | exact fun hm => absurd least_start hm
  | needScan q x h full => exact fun hm => absurd least_start hm
  | hasRoom q x h room =>
    rw [List.append_nil]
    exact room_cleared hp.minTail room
  | sawActive q k i m hi active =>
    rw [List.append_nil]
    exact ⟨hl,hp.active _ active⟩
  | sawInactive q k i m hi inactive =>
    rw [List.append_nil]
    exact hl
  | readTail q k c m =>
    rw [List.append_nil]
    intro _
    rw [least_lower]
    exact below_min hl.2
  | scanChanged q k i m hi =>
    rw [List.append_nil]
    exact below_result hl
  | scanRoom q x h i m hi room =>
    rw [List.append_nil]
    exact room_cleared (below_result hl) room
  | storeRoom q x h old new room =>
    rw [List.append_nil]
    exact room_cleared hl room
  | _ => trivial

/-- A position below the head that no thread holds has been published. -/
theorem published_of_free (hs : Sound S n q tr) {ls : ℕ → Local T}
    (hg : ∀ t, Good n own t q tr (ls t)) {b : ℕ} (hb : b ≤ q.head)
    (hfree : ∀ t k x, holds (ls t) = some (k,x) → b ≤ k) : Below tr b := by
  intro k hk
  rw [hs.head_eq] at hb
  obtain ⟨⟨t,x⟩,hc⟩ : ∃ a, (claims tr)[k]? = some a :=
    ⟨_,List.getElem?_eq_getElem (hk.trans_le hb)⟩
  by_contra hn
  have := hfree t k x (((hg t).inflight k x).mpr ⟨hc,hn⟩)
  omega

/-- Of two unpublished positions in one slot the later could not be claimed. -/
theorem distinct_slots (hs : Sound S n q tr) (hp : Separated S q tr)
    (ht : Good n own t q tr l) (hj : Good n own j q tr l') (hne : t ≠ j) {k h : ℕ} {x y : T}
    (hk : holds l = some (k,x)) (hh : holds l' = some (h,y)) : S.index k ≠ S.index h := by
  have hck := held_claim ht.inflight hk
  have hch := held_claim hj.inflight hh
  have hlt {t k x} (hc : (claims tr)[k]? = some (t,x)) : k < q.head := by
    rw [hs.head_eq]
    exact (List.getElem?_eq_some_iff.mp hc).1
  intro hi
  rcases lt_trichotomy k h with hkh | rfl | hkh
  · have := lap_of_index_eq S.toRing hkh hi
    exact hck.2 (hp.lap k (this.trans_lt (hlt hch.1)))
  · exact hne (Prod.mk.inj (Option.some.inj (hck.1.symm.trans hch.1))).1
  · have := lap_of_index_eq S.toRing hkh hi.symm
    exact hch.2 (hp.lap h (this.trans_lt (hlt hck.1)))

theorem sequence_step (hs : Sound S n q tr) (hg : Good n own t q tr l) (hb : Within n tr)
    (hp : Separated S q tr) (he : Effect S t q l q' es) (i : ℕ)
    (hi : (q.slots i).sequence ≠ invalidPos) :
    (q.slots i).sequence ≤ (q'.slots i).sequence ∧ (q'.slots i).sequence ≠ invalidPos := by
  cases he with
  | publish x h hl =>
    subst hl
    obtain ⟨hc,hn⟩ := held_claim hg.inflight (l := .pushPublish x h) rfl
    by_cases hih : i = S.index h
    · subst hih
      have hlt : h < q.head := by
        rw [hs.head_eq]
        exact (List.getElem?_eq_some_iff.mp hc).1
      have hv : h < invalidPos := by
        have := hb.1
        rw [← hs.head_eq] at this
        unfold invalidPos
        omega
      simp only [setSlot_slots,if_true]
      refine ⟨?_,by omega⟩
      obtain ⟨hpub,hx⟩ := (hs.sequence (S.index h)).resolve_left hi
      by_contra hgt
      have := lap_of_index_eq S.toRing (not_le.mp hgt) hx.symm
      exact hn (hp.lap h (this.trans_lt (published_lt hs hpub)))
    · simpa [hih] using hi
  | copyBegin x h hl =>
    rw [setData_sequence]
    exact ⟨le_rfl,hi⟩
  | copyEnd x h hl =>
    rw [setData_sequence]
    exact ⟨le_rfl,hi⟩
  | _ => exact ⟨le_rfl,hi⟩

end Steps

variable {S : RingSize} {n : ℕ} {own : ConsumerId → ℕ} {c c' : Config T}
  {tr es : List (Event T)} {ok : Guard ℕ (Move T) (Queue T) (Local T)}

theorem run_separated (hown : ∀ c t m, ok c t m → OwnedMove own t m)
    (hraise : ∀ c t m, ok c t m → Raises PublishedBelow c t)
    (r : (machine T S).Run ok (Config.start n) c tr) (hb : Bounded S n tr) :
    Separated S c.shared tr ∧ ∀ t, Cleared S c.shared tr (c.locals t) := by
  refine System.Run.thread_invariant (bounded_earlier S n)
    (A := fun _ => Cleared S) ?_ ?_ ?_ r hb
  · exact ⟨⟨fun c _ => below_zero _,below_zero _,fun k h => absurd h (Nat.not_lt_zero _)⟩,
      fun t => trivial⟩
  · intro c tr t m q l es r hb hp hl g ha
    obtain ⟨hs,hg⟩ := run_sound begun_start hown r (bounded_earlier S n _ _ hb)
    have hst := act_step ha
    refine ⟨separated_step hs (hg t) (bounded_within hb) (step_effect hst) hp (hl t) fun d hd => ?_,
      cleared_step hp (hl t) hst⟩
    exact published_of_free hs hg (hs.tail_le d) (hraise c t m g d hd)
  · intro c tr t m q l es r hb hp hl g ha j hj
    obtain ⟨hs,hg⟩ := run_sound begun_start hown r (bounded_earlier S n _ _ hb)
    exact cleared_stable hs (hg t) (bounded_within hb) (step_effect (act_step ha)) (hg j) (hl j)

theorem sequence_mono (hown : ∀ c t m, ok c t m → OwnedMove own t m)
    (hraise : ∀ c t m, ok c t m → Raises PublishedBelow c t)
    (r : (machine T S).Run ok (Config.start n) c tr) (r' : (machine T S).Run ok c c' es)
    (hb : Bounded S n (tr++es)) (i : ℕ) (hi : (c.shared.slots i).sequence ≠ invalidPos) :
    (c.shared.slots i).sequence ≤ (c'.shared.slots i).sequence ∧
      (c'.shared.slots i).sequence ≠ invalidPos := by
  induction r' with
  | start => exact ⟨le_rfl,hi⟩
  | next r' g h ih =>
    rw [← List.append_assoc] at hb
    obtain ⟨hle,hne⟩ := ih (bounded_earlier S n _ _ hb)
    obtain ⟨q,l,ha,rfl⟩ := step_some h
    have hrun := r.trans r'
    have hb' := bounded_earlier S n _ _ hb
    obtain ⟨hs,hg⟩ := run_sound begun_start hown hrun hb'
    obtain ⟨hp,-⟩ := run_separated hown hraise hrun hb'
    obtain ⟨hle',hne'⟩ :=
      sequence_step hs (hg _) (bounded_within hb') hp (step_effect (act_step ha)) i hne
    exact ⟨hle.trans hle',hne'⟩

/-- With consumers joining at any time: as long as no flag is raised over a
position still being written, two claimed and unpublished positions never share
a slot, and a slot's sequence never falls once it has left the marker. -/
theorem slots_exclusive (S : RingSize) (own : ConsumerId → ℕ) (c : Config T)
    (tr : List (Event T))
    (r : (machine T S).Run (Raising own PublishedBelow) (Config.start 0) c tr)
    (hb : Bounded S 0 tr) :
    (∀ t j k h x y, t ≠ j → holds (c.locals t) = some (k,x) →
      holds (c.locals j) = some (h,y) → S.index k ≠ S.index h) ∧
    ∀ c' es, (machine T S).Run (Raising own PublishedBelow) c c' es → Bounded S 0 (tr++es) →
      ∀ i, (c.shared.slots i).sequence ≠ invalidPos →
        (c.shared.slots i).sequence ≤ (c'.shared.slots i).sequence ∧
        (c'.shared.slots i).sequence ≠ invalidPos := by
  obtain ⟨hs,hg⟩ := run_sound begun_start (fun _ _ _ g => g.1) r hb
  obtain ⟨hp,-⟩ := run_separated (fun _ _ _ g => g.1) (fun _ _ _ g => g.2) r hb
  constructor
  · intro t j k h x y hne hk hh
    exact distinct_slots hs hp (hg t) (hg j) hne hk hh
  · intro c' es r' hb' i hi
    exact sequence_mono (fun _ _ _ g => g.1) (fun _ _ _ g => g.2) r r' hb' i hi

/-- One registration, then two pushes that claim their positions and stall. -/
theorem slots_exclusive_two_pushes : ∃ (c : Config ℕ) (tr : List (Event ℕ)),
    (machine ℕ ring16).Run (Raising (fun _ => 2) PublishedBelow) (Config.start 0) c tr ∧
    holds (c.locals 0) = some (0,100) ∧ holds (c.locals 1) = some (1,101) ∧
      (c.shared.consumers 0).active = true ∧ ring16.index 0 ≠ ring16.index 1 := by
  obtain ⟨tr₀,r₀,hc₀,ht₀⟩ := setup_run (S := ring16) (T := ℕ) 2 1 (by decide)
    (untouched_raising (P := PublishedBelow) (fun _ => 2) 2
      fun c d hu _ j k x _ => by simp [hu.tails d])
  obtain ⟨c,tr,r,hv⟩ := exec_any (machine ℕ ring16) (Config.start 1)
    (calm_raising fun _ => 2) (callAlone 0 (.push 100) 3 ++ callAlone 1 (.push 101) 3)
    (fun r => decide (holds (r.1.locals 0) = some (0,100) ∧ holds (r.1.locals 1) = some (1,101) ∧
      (r.1.shared.consumers 0).active = true ∧ (claims r.2).length = 2 ∧
      (tickets r.2).length = 0)) (by decide +kernel)
  obtain ⟨h0,h1,ha,hc,ht⟩ := of_decide_eq_true hv
  have hb : Bounded ring16 0 (tr₀++tr) := by
    simp only [Bounded,claims_append,tickets_append,List.length_append,hc₀,ht₀,hc,ht]
    decide
  exact ⟨c,_,r₀.trans r,h0,h1,ha,
    (slots_exclusive ring16 (fun _ => 2) c _ (r₀.trans r) hb).1 0 1 0 1 100 101 (by decide) h0 h1⟩

/-- A push stalls after claiming position 0 while fifteen later ones complete;
a consumer registers at 16 with no other consumer active; the next push then
claims position 16, whose slot the first one is still writing. Publishing in
that order the slot's sequence falls from 16 to 0. -/
theorem stalled_push_shares_slot : ∃ (c c' c'' : Config ℕ) (tr es fs : List (Event ℕ)),
    (machine ℕ ring16).Run (Owned fun _ => 2) (Config.start 0) c tr ∧
    (machine ℕ ring16).Run (Owned fun _ => 2) c c' es ∧
    (machine ℕ ring16).Run (Owned fun _ => 2) c' c'' fs ∧ Bounded ring16 0 (tr++es++fs) ∧
    holds (c.locals 0) = some (0,100) ∧ holds (c.locals 1) = some (16,116) ∧
    ring16.index 0 = ring16.index 16 ∧
    (c'.shared.slots 0).sequence = 16 ∧ (c''.shared.slots 0).sequence = 0 := by
  have hchk := owned_of_check (T := ℕ) fun _ => 2
  obtain ⟨c,tr,r,hv⟩ := exec_any (machine ℕ ring16) (Config.start 0) hchk
    (callAlone 0 (.push 100) 3 ++
      (List.range 15).flatMap (fun i => callAlone 1 (.push (101+i)) 6) ++
      callAlone 2 .registerConsumer 4 ++ callAlone 1 (.push 116) 38)
    (fun r => decide (holds (r.1.locals 0) = some (0,100) ∧ holds (r.1.locals 1) = some (16,116) ∧
      (claims r.2).length = 17 ∧ (tickets r.2).length = 1) &&
      ((machine ℕ ring16).exec (ownedCheck fun _ => 2) r.1 (List.replicate 3 (1,.go))).any
        fun (r' : Config ℕ × List (Event ℕ)) =>
        decide ((r'.1.shared.slots 0).sequence = 16 ∧ claims r'.2 = [] ∧ tickets r'.2 = []) &&
        ((machine ℕ ring16).exec (ownedCheck fun _ => 2) r'.1 (List.replicate 3 (0,.go))).any
          fun (r'' : Config ℕ × List (Event ℕ)) => decide ((r''.1.shared.slots 0).sequence = 0 ∧
            claims r''.2 = [] ∧ tickets r''.2 = []))
    (by decide +kernel)
  obtain ⟨hv,h'⟩ := Bool.and_eq_true_iff.mp hv
  obtain ⟨h0,h1,hc,ht⟩ := of_decide_eq_true hv
  obtain ⟨c',es,r',hv'⟩ := exec_any _ _ hchk _ _ h'
  obtain ⟨hv',h''⟩ := Bool.and_eq_true_iff.mp hv'
  obtain ⟨hq',hc',ht'⟩ := of_decide_eq_true hv'
  obtain ⟨c'',fs,r'',hv''⟩ := exec_any _ _ hchk _ _ h''
  obtain ⟨hq'',hc'',ht''⟩ := of_decide_eq_true hv''
  refine ⟨c,c',c'',tr,es,fs,r,r',r'',?_,h0,h1,by decide,hq',hq''⟩
  simp only [Bounded,claims_append,tickets_append,List.length_append,hc,ht,hc',ht',hc'',ht'']
  decide

end MpmcLogger.QueueExclusion
