import MpmcLogger.QueueDelivery

/-!
# Delivery to consumers that join at any time

A consumer enters at a head that its registration loaded. As long as no flag is
raised over a position still being written, or while something already looks
past the new tail, its pops are the claimed items from that position on, whole,
in order and without a gap. What was claimed before its ticket it never sees,
what is claimed after its registration it never misses.
-/

set_option autoImplicit false

namespace MpmcLogger.QueueJoining
open Interleaving CopiedCell RingIndex MachineWord MpmcLogger.QueueMachine MpmcLogger.QueueHistory
open MpmcLogger.QueueInvariant MpmcLogger.QueueExclusion MpmcLogger.QueueLapping
open MpmcLogger.QueueDelivery

variable {T : Type*}

def Raisable (S : RingSize) (c : Config T) (d : ConsumerId) : Prop :=
  PublishedBelow c d ∧ LooksBehind S c d

def Bare : Local T → Prop
  | .scanActive .. | .scanTail .. | .storeMinTail .. | .pushCas .. | .pushCopyBegin ..
  | .pushCopyEnd .. | .pushPublish .. => False
  | _ => True

/-- A registration that no push and no scan overlaps may raise its flag. -/
theorem bare_raisable {S : RingSize} {c : Config T} {d : ConsumerId} (hl : ∀ j, Bare (c.locals j))
    (hh : c.shared.head ≤ (c.shared.consumers d).tail)
    (hm : c.shared.minTail ≤ (c.shared.consumers d).tail) : Raisable S c d := by
  refine ⟨fun j k x hk => ?_,hh.trans (Nat.le_add_right _ _),hm,fun j => ?_⟩
  · have := hl j
    generalize c.locals j = l at *
    cases l <;> first | exact this.elim | cases hk
  · have := hl j
    generalize c.locals j = l at *
    cases l <;> first | exact this.elim | trivial

def TicketBelow (tr : List (Event T)) (d : ConsumerId) (b : ℕ) : Prop :=
  ∀ pre post t, tr = pre++.ticket t d.val::post → (claims pre).length ≤ b

/-- Consumer `d` has entered at position `start`: not below the claims before its
ticket, not above those before the return of its registration. -/
structure Entered (q : Queue T) (tr : List (Event T)) (d : ConsumerId) (start : ℕ) : Prop where
  ticket : TicketBelow tr d start
  registered : ∀ pre post t, tr = pre++.registered t d::post → start ≤ (claims pre).length
  le_tail : start ≤ (q.consumers d).tail
  pops : pops d tr = received q tr d start

structure Joins (S : RingSize) (q : Queue T) (tr : List (Event T)) : Prop extends
    Stored S q tr where
  entered : ∀ d, Registered tr d → ∃ start, Entered q tr d start
  silent : ∀ d, ¬Registered tr d → pops d tr = []

def Entering (q : Queue T) (tr : List (Event T)) : Local T → Prop
  | .registerStoreTail d h => TicketBelow tr d h
  | .registerStoreActive d => TicketBelow tr d (q.consumers d).tail
  | _ => True

theorem split_append {α : Type*} {xs ys pre post : List α} {a : α} (h : xs++ys = pre++a::post) :
    (∃ post', xs = pre++a::post') ∨ ∃ pre', pre = xs++pre' ∧ ys = pre'++a::post := by
  rcases List.append_eq_append_iff.mp h with hright | ⟨bs,hxs,hcons⟩
  · exact Or.inr hright
  · cases bs with
    | nil => exact Or.inr ⟨[],by simpa using hxs.symm,by simpa using hcons.symm⟩
    | cons b bs =>
      obtain ⟨rfl,-⟩ := List.cons.inj hcons
      exact Or.inl ⟨bs,hxs⟩

section Steps

variable {S : RingSize} {n : ℕ} {own : ConsumerId → ℕ} {t j : ℕ} {c : Config T} {q q' : Queue T}
  {tr es : List (Event T)} {l l' : Local T} {m : Move T} {d : ConsumerId} {b start : ℕ}

theorem ticketBelow_append (h : TicketBelow tr d b) (hno : ∀ u, Event.ticket u d.val ∉ es) :
    TicketBelow (tr++es) d b := by
  intro pre post u heq
  rcases split_append heq with ⟨post',hpre⟩ | ⟨pre',-,hes⟩
  · exact h pre post' u hpre
  · exact absurd (by rw [hes]; simp) (hno u)

theorem ticket_new (he : Effect S t q l q' es) {u i : ℕ} (h : Event.ticket u i ∈ es) :
    i = q.numConsumers := by
  cases he with
  | quiet hq => exact absurd trivial (hq _ h)
  | minTail _ _ _ hq => exact absurd trivial (hq _ h)
  | drop _ _ hq => exact absurd trivial (hq _ h)
  | ticket => simpa using (Event.ticket.inj (List.mem_singleton.mp h)).2
  | refuse =>
    simp only [List.mem_cons,Event.ticket.injEq,reduceCtorEq,List.not_mem_nil,or_false] at h
    exact h.2
  | _ => simp at h

theorem ticket_kept (he : Effect S t q l q' es) (hd : d.val < q.numConsumers)
    (h : TicketBelow tr d b) : TicketBelow (tr++es) d b :=
  ticketBelow_append h fun _ hu => hd.ne (ticket_new he hu)

theorem ticketed_lt (hs : Sound S n q tr) (h : Ticketed n tr t d) : d.val < q.numConsumers := by
  obtain ⟨hn,hget,-⟩ := h
  have := (List.getElem?_eq_some_iff.mp hget).1
  rw [hs.tickets_eq]
  omega

/-- No other thread moves the tail of a consumer whose registration is under way. -/
theorem joining_tail_kept (hg : Good n own t q tr l) (hj : Joining n q tr j d) (hne : j ≠ t)
    (he : Effect S t q l q' es) : (q'.consumers d).tail = (q.consumers d).tail := by
  have hok := hg.ok
  cases he with
  | deliver e tail x hl =>
    subst hl
    have hde : d ≠ e := by
      rintro rfl
      exact absurd hok.1.2 (by simp [hj.2])
    simp [hde]
  | storeTail e h hl =>
    subst hl
    have hde : d ≠ e := by
      rintro rfl
      exact hne (ticketed_unique hj.1 hok.1.1)
    simp [hde]
  | raise e hl => exact setFlag_tail q e d true
  | drop e hl h => exact setFlag_tail q e d false
  | _ => rfl

theorem entering_step (hs : Sound S n q tr) (hl : Entering q tr l)
    (h : Step S t m q l q' l' es) : Entering q' (tr++es) l' := by
  cases h with
  | call q op => cases op <;> trivial
  | registerHead q d =>
    rintro pre post u heq
    -- the head counts the claims of the whole history
    rw [List.append_nil] at heq
    rw [hs.head_eq,heq,claims_append,List.length_append]
    exact Nat.le_add_right _ _
  | registerTail q d h => simpa [Entering] using hl
  | _ => trivial

theorem entering_stable (hs : Sound S n q tr) (hg : Good n own t q tr l)
    (hj : Good n own j q tr l') (hne : j ≠ t) (he : Effect S t q l q' es)
    (hl : Entering q tr l') : Entering q' (tr++es) l' := by
  have hok := hj.ok
  cases l' with
  | registerStoreTail d h => exact ticket_kept he (ticketed_lt hs hok.1.1) hl
  | registerStoreActive d =>
    show TicketBelow (tr++es) d (q'.consumers d).tail
    rw [joining_tail_kept hg hok hne he]
    exact ticket_kept he (ticketed_lt hs hok.1) hl
  | _ => trivial

/-- A consumer that has entered goes on from where it entered. -/
theorem entered_step (hb : Ground S 0 own c tr) (hbd : Within 0 (tr++es))
    (hl : Copying S t c.shared tr (c.locals t)) (he : Effect S t c.shared (c.locals t) q' es)
    (hd : Registered tr d) (h : Entered c.shared tr d start) : Entered q' (tr++es) d start := by
  have hs := hb.sound
  refine ⟨ticket_kept he ?_ h.ticket,fun pre post u heq => ?_,?_,?_⟩
  · rw [hs.tickets_eq]
    exact (hs.registered d hd).2
  · rcases split_append heq with ⟨post',hpre⟩ | ⟨pre',rfl,-⟩
    · exact h.registered pre post' u hpre
    · rw [claims_append,List.length_append,← hs.head_eq]
      exact h.le_tail.trans ((hs.tail_le d).trans (Nat.le_add_right _ _))
  · exact h.le_tail.trans (tail_le_step hs (hb.good t) hbd he (Or.inr hd))
  · refine received_step hb hbd hl he (fun k hk => ?_) h.le_tail h.pops
    have hok := (hb.good t).ok
    rw [hk] at hok
    exact hok.1.1.not_joined (Or.inr hd)

theorem registered_new (he : Effect S t q l q' es) (h : Registered es d) :
    l = .registerStoreActive d ∧ es = [.registered t d] ∧
      (q'.consumers d).tail = (q.consumers d).tail := by
  cases he with
  | quiet hq => exact absurd h (registered_quiet hq d)
  | minTail _ _ _ hq => exact absurd h (registered_quiet hq d)
  | drop _ _ hq => exact absurd h (registered_quiet hq d)
  | raise e hl =>
    obtain rfl := (registered_registered t e d).mp h
    exact ⟨hl,rfl,setFlag_tail q d d true⟩
  | refuse => simp [Registered] at h
  | _ => simp at h

theorem entered_new (hs : Sound S n q tr) (hl : Entering q tr l) (hsilent : pops d tr = [])
    (hd : ¬Registered tr d) (he : Effect S t q l q' es) (hr : Registered es d) :
    Entered q' (tr++es) d (q.consumers d).tail := by
  obtain ⟨rfl,rfl,htail⟩ := registered_new he hr
  refine ⟨ticketBelow_append hl (by simp),fun pre post u heq => ?_,htail.ge,?_⟩
  · rcases split_append heq with ⟨post',rfl⟩ | ⟨pre',rfl,-⟩
    · exact absurd ⟨u,by simp⟩ hd
    · rw [claims_append,List.length_append,← hs.head_eq]
      exact (hs.tail_le d).trans (Nat.le_add_right _ _)
  · have hnone : ((claims (tr++[.registered t d])).take (q.consumers d).tail).drop
        (q.consumers d).tail = [] := List.drop_eq_nil_of_le (List.length_take_le _ _)
    rw [pops_append,hsilent,received,htail,hnone]
    rfl

theorem pops_new (hs : Sound S 0 q tr) (hg : Good 0 own t q tr l) (he : Effect S t q l q' es)
    (hd : ¬Registered tr d) : pops d es = [] := by
  have hok := hg.ok
  cases he with
  | quiet h => exact pops_quiet h d
  | minTail _ _ _ h => exact pops_quiet h d
  | drop _ _ h => exact pops_quiet h d
  | deliver e tail x hl =>
    subst hl
    have hed : e ≠ d := by
      rintro rfl
      exact hd ((hs.active e hok.1.2).resolve_left (Nat.not_lt_zero _))
    simp [pops,hed]
  | _ => rfl

theorem joins_step (hb : Ground S 0 own c tr) (hbd : Within 0 (tr++es)) (h : Joins S c.shared tr)
    (hl : Copying S t c.shared tr (c.locals t)) (hen : Entering c.shared tr (c.locals t))
    (he : Effect S t c.shared (c.locals t) q' es) : Joins S q' (tr++es) where
  toStored := stored_step hb h.toStored hbd hl he
  entered d hr := by
    by_cases hd : Registered tr d
    · obtain ⟨start,hstart⟩ := h.entered d hd
      exact ⟨start,entered_step hb hbd hl he hd hstart⟩
    · have hnew := ((registered_append tr es d).mp hr).resolve_left hd
      exact ⟨_,entered_new hb.sound hen (h.silent d hd) hd he hnew⟩
  silent d hr := by
    have hd : ¬Registered tr d := fun hd => hr ((registered_append tr es d).mpr (Or.inl hd))
    rw [pops_append,h.silent d hd,pops_new hb.sound (hb.good t) he hd,List.append_nil]

end Steps

variable {S : RingSize} {own : ConsumerId → ℕ} {c : Config T} {tr : List (Event T)}

theorem run_ground (r : (machine T S).Run (Raising own (Raisable S)) (Config.start 0) c tr)
    (hb : Bounded S 0 tr) : Ground S 0 own c tr := by
  have hown : ∀ (c : Config T) t m, Raising own (Raisable S) c t m → OwnedMove own t m :=
    fun _ _ _ g => g.1
  obtain ⟨hs,hg⟩ := run_sound begun_start hown r hb
  obtain ⟨hp,hc⟩ := run_separated hown (fun _ _ _ g d hd => (g.2 d hd).1) r hb
  obtain ⟨ht,hl⟩ := run_tracked hown (fun _ _ _ g d hd => (g.2 d hd).2) r hb
  exact ⟨hs,hg,hp,hc,ht,hl⟩

theorem run_joins (r : (machine T S).Run (Raising own (Raisable S)) (Config.start 0) c tr)
    (hb : Bounded S 0 tr) : Joins S c.shared tr ∧
      ∀ t, Copying S t c.shared tr (c.locals t) ∧ Entering c.shared tr (c.locals t) := by
  apply System.Run.thread_invariant (bounded_earlier S 0) (G := Joins S)
    (A := fun t q tr l => Copying S t q tr l ∧ Entering q tr l) ?_ ?_ ?_ r hb
  · refine ⟨⟨⟨fun t k x hk => ?_,fun _ _ _ => rfl⟩,fun d hd => ?_,fun d _ => rfl⟩,
      fun t => ⟨trivial,trivial⟩⟩
    · simp at hk
    · exact absurd hd (registered_nil d)
  · intro c tr t m q l es r hb hj hl g ha
    have hground := run_ground r (bounded_earlier S 0 _ _ hb)
    have hst := act_step ha
    exact ⟨joins_step hground (bounded_within hb) hj (hl t).1 (hl t).2 (step_effect hst),
      copying_step hground hj.toStored (hl t).1 hst,entering_step hground.sound (hl t).2 hst⟩
  · intro c tr t m q l es r hb hj hl g ha j hne
    have hground := run_ground r (bounded_earlier S 0 _ _ hb)
    have he := step_effect (act_step ha)
    exact ⟨copying_stable hground he hne (hl j).1,
      entering_stable hground.sound (hground.good t) (hground.good j) hne he (hl j).2⟩

/-- Broadcast to consumers that join at any time. As long as every flag goes up
where nothing writes below the new tail or looks past it, each registered
consumer has popped, whole and in order, exactly the items claimed from some
position of its registration up to its tail; no other consumer has popped
anything; and the claims of one producer are in the order of its calls. -/
theorem joining_broadcast (S : RingSize) (own : ConsumerId → ℕ) (c : Config T)
    (tr : List (Event T))
    (r : (machine T S).Run (Raising own (Raisable S)) (Config.start 0) c tr)
    (hb : Bounded S 0 tr) :
    (∀ d, Registered tr d → ∃ start, Entered c.shared tr d start) ∧
    (∀ d, ¬Registered tr d → pops d tr = []) ∧
    ∀ t, (claimedBy t tr).Sublist (pushCallsBy t tr) := by
  obtain ⟨hj,-⟩ := run_joins r hb
  refine ⟨hj.entered,hj.silent,fun t => ?_⟩
  have h := run_in_call_order r (fun _ => trivial) t
  exact (List.sublist_append_left _ _).trans h

def joiningCheck (c : Config T) (t : ℕ) (m : Move T) : Bool :=
  decide (OwnedMove (fun _ => 0) t m) &&
  match c.locals t with
  | .registerStoreActive d => decide (c.shared.head ≤ (c.shared.consumers d).tail ∧
      c.shared.minTail ≤ (c.shared.consumers d).tail)
  | _ => true

theorem raising_of_check (c : Config T) (m : Move T) (hc : ∀ j, j ≠ 0 → c.locals j = .idle)
    (h : joiningCheck c 0 m = true) : Raising (fun _ => 0) (Raisable S) c 0 m := by
  obtain ⟨ho,hr⟩ := Bool.and_eq_true_iff.mp h
  refine ⟨of_decide_eq_true ho,fun d hd => ?_⟩
  rw [hd] at hr
  obtain ⟨hh,hm⟩ := of_decide_eq_true hr
  refine bare_raisable (fun j => ?_) hh hm
  by_cases hj : j = 0
  · rw [hj,hd]
    trivial
  · rw [hc j hj]
    trivial

/-- A consumer joins between two pushes and receives the second item only. -/
theorem joining_broadcast_late : ∃ (c : Config ℕ) (tr : List (Event ℕ)),
    (machine ℕ ring16).Run (Raising (fun _ => 0) (Raisable ring16)) (Config.start 0) c tr ∧
    claims tr = [(0,100),(0,101)] ∧ pops 0 tr = [some 101] ∧
    ∃ start, Entered c.shared tr 0 start := by
  let as : List (ℕ × Move ℕ) := callAlone 0 (.push 100) 6++callAlone 0 .registerConsumer 4++
    callAlone 0 (.push 101) 6++callAlone 0 (.pop 0) 6
  have hv : ((machine ℕ ring16).exec joiningCheck (Config.start 0) as).any (fun r => decide (
      claims r.2 = [(0,100),(0,101)] ∧ tickets r.2 = [0] ∧ pops 0 r.2 = [some 101] ∧
      Event.registered 0 0 ∈ r.2)) = true := by
    decide +kernel
  obtain ⟨⟨c,tr⟩,he,hp⟩ := (Option.any_eq_true _ _).mp hv
  obtain ⟨hc,ht,hpops,hr⟩ := of_decide_eq_true hp
  have hone : ∀ a ∈ as, a.1 = 0 := by simp [as,callAlone]
  have r : (machine ℕ ring16).Run (Raising (fun _ => 0) (Raisable ring16)) (Config.start 0) c tr :=
    exec_alone raising_of_check as hone .start (fun _ _ => rfl) he
  have hb : Bounded ring16 0 tr := by
    simp only [Bounded,hc,ht]
    decide
  exact ⟨c,tr,r,hc,hpops,(joining_broadcast ring16 (fun _ => 0) c tr r hb).1 0 ⟨0,hr⟩⟩

end MpmcLogger.QueueJoining
