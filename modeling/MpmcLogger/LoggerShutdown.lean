import MpmcLogger.LoggerDrain

/-!
# What a shutdown drains

The drain loop ends at the first position that is not published. An entry
accepted before the shutdown reaches the sink if no position before its own is
held by a push that has claimed it and not published it yet; otherwise the loop
ends in front of the gap and the entry is left in the queue.
-/

set_option autoImplicit false

namespace MpmcLogger.LoggerShutdown
open Interleaving MachineWord MpmcLogger.QueueMachine MpmcLogger.QueueHistory
open MpmcLogger.QueueInvariant MpmcLogger.QueueExclusion MpmcLogger.QueueDelivery
open MpmcLogger.QueueFailure MpmcLogger.EntryLayout MpmcLogger.Formatter
open MpmcLogger.LoggerMachine MpmcLogger.LoggerSetup MpmcLogger.LoggerDrain

/-- An accepted entry was popped, when the consumer's tail is at a position that
is not published and no push holds one before the entry. -/
theorem accepted_popped {T : Type*} {S : RingSize} {n : ℕ} {own : ConsumerId → ℕ} {c : Config T}
    {tr : List (Event T)} {cid : ConsumerId} {t k : ℕ} {x : T}
    (r : (machine T S).Run (JoinedFirst own) (Config.start n) c tr) (hn : n ≤ maxConsumers)
    (hunpub : ¬Published tr (c.shared.consumers cid).tail) (hx : Event.pushed t k x ∈ tr)
    (hfree : ∀ u p y, holds (c.locals u) = some (p,y) → k < p) :
    (pops cid tr)[k]? = some (some x) := by
  have hbase := run_base begun_start r hn
  have hpushed := hbase.sound.pushed t k x hx
  have hlt : k < (c.shared.consumers cid).tail := by
    by_contra hge
    have hne : (c.shared.consumers cid).tail ≠ k := by
      rintro rfl
      exact hunpub ⟨t,x,hx⟩
    -- the position at the tail lies below an accepted one, so a push holds it
    have hlen := (List.getElem?_eq_some_iff.mp hpushed).1
    have htail : (c.shared.consumers cid).tail < (claims tr).length := by omega
    obtain ⟨⟨v,y⟩,hc⟩ : ∃ a, _ = some a := ⟨_,List.getElem?_eq_getElem htail⟩
    have := hfree v _ y (((hbase.good v).inflight _ y).mpr ⟨hc,hunpub⟩)
    omega
  rw [(run_delivered begun_start r hn).1.pops cid,List.getElem?_map,List.getElem?_take,if_pos hlt,
    hpushed]
  rfl

section Leaving

variable {S : RingSize} {date : ℕ → DatePrefix} {n : ℕ} {own : ConsumerId → ℕ}
  {cid : ConsumerId} {d : ℕ} {tr₀ : List (Event LogEntry)} {c c' : LoggerConf}
  {tr es : List LoggerEvent} {q : Queue LogEntry} {pc : DrainPc}

/-- When the loop is left, the position at the tail of its consumer is unpublished
and everything below it was handed to the sink. -/
theorem leaving (h : Draining S n own cid d tr₀ c tr q pc)
    (hn : n ≤ maxConsumers)
    (hstep : (logger S date).step c d .go = some (c',es)) (hleft : c'.locals d = .drain .left) :
    es = [.queue (.empty d cid)] ∧ ¬Published (tr₀++queueEvents tr) (q.consumers cid).tail ∧
      pops cid tr₀++handed tr =
        ((claims (tr₀++queueEvents tr)).take (q.consumers cid).tail).map fun a => some a.2 := by
  have hpc : pc ≠ .left := by
    rintro rfl
    obtain ⟨s,l,ha,rfl⟩ := step_some hstep
    rw [h.drain] at ha
    cases ha
    simp at hleft
  have g : UntilLeft d c d .go := ⟨by simp,by simpa [h.drain] using hpc⟩
  obtain ⟨ht,-⟩ | ⟨-,-,hloop,-,pc',s,rfl,hu,-⟩ := draining_step h g hstep
  · exact absurd rfl ht
  obtain rfl : pc' = .left := by simpa using hleft
  obtain ⟨l,q',rfl,ha,hes⟩ := left_step hloop h.queue hu
  have hst : Step S d .go q (queueLocal (c.locals d)) q' .idle [.empty d cid] := by
    rw [h.drain]
    exact act_step ha
  refine ⟨hes,?_,?_⟩
  · exact (empty_unpublished begun_start h.run hn hst (by simp) h.active).2
  · simpa [inHand] using draining_pops h hn

end Leaving

def Drained (cid : ConsumerId) (tr₀ : List (Event LogEntry)) (tr₁ tr : List LoggerEvent) : Prop :=
  ∀ t k x, Event.pushed t k x ∈ tr₀++queueEvents tr₁ →
    (pops cid tr₀++handed tr)[k]? = some (some x)

def Unobstructed (tr₀ : List (Event LogEntry)) (tr₁ : List LoggerEvent) (c : LoggerConf) : Prop :=
  ∀ t k x, Event.pushed t k x ∈ tr₀++queueEvents tr₁ →
    ∀ u p y, holds (queueLocal (c.locals u)) = some (p,y) → k < p

/-- Any number of threads push while one shuts the logger down. At the step that
leaves the drain loop every entry accepted before the shutdown was handed to the
sink if and only if no push then holds a position before one of them. -/
theorem shutdown_drains (S : RingSize) (date : ℕ → DatePrefix) (n : ℕ) (own : ConsumerId → ℕ)
    (cid : ConsumerId) (d t : ℕ) (tr₀ : List (Event LogEntry)) (c₀ c c' : LoggerConf)
    (tr₁ tr₂ es : List LoggerEvent) (q₀ : Queue LogEntry)
    (h₀ : Draining S n own cid d tr₀ c₀ [] q₀ (.loop 0))
    (r : (logger S date).Run (UntilLeft d) c₀ c (tr₁++.shutdownCalled t::tr₂))
    (hn : n ≤ maxConsumers)
    (hstep : (logger S date).step c d .go = some (c',es)) (hleft : c'.locals d = .drain .left) :
    Drained cid tr₀ tr₁ (tr₁++.shutdownCalled t::tr₂) ↔ Unobstructed tr₀ tr₁ c := by
  obtain ⟨q,pc,h⟩ := run_draining h₀ r
  obtain ⟨-,hunpub,hpops⟩ := leaving h hn hstep hleft
  have hbase := run_base begun_start h.run hn
  have hmem : ∀ {u k x}, Event.pushed u k x ∈ tr₀++queueEvents tr₁ →
      Event.pushed u k x ∈ tr₀++queueEvents (tr₁++.shutdownCalled t::tr₂) := by
    intro u k x hx
    rw [queueEvents_append,← List.append_assoc]
    exact List.mem_append_left _ hx
  constructor
  · intro hd u k x hx v p y hp
    obtain ⟨-,hnp⟩ := held_claim (hbase.good v).inflight hp
    have htail : (q.consumers cid).tail ≤ p := by
      by_contra hlt
      exact hnp (hbase.separated.active cid h.active p (not_le.mp hlt))
    have hk := hd u k x hx
    rw [hpops] at hk
    have := (List.getElem?_eq_some_iff.mp hk).1
    rw [List.length_map,List.length_take] at this
    omega
  · intro hun u k x hx
    rw [hpops,← (run_delivered begun_start h.run hn).1.pops cid]
    exact accepted_popped h.run hn hunpub (hmem hx) (hun u k x hx)

def binaryInit : InitCall := ⟨{},none,⟨List.replicate 19 0,rfl⟩⟩

def noDate (_ : ℕ) : DatePrefix := ⟨List.replicate 19 0,rfl⟩

def emptyEntry : LogEntry := ⟨0,0,.info,0,0,List.replicate 112 0,rfl⟩

abbrev LoggerOutcome := LoggerConf × List LoggerEvent

theorem shutdown_schedule (as bs : List (ℕ × LoggerMove))
    (p : List LoggerEvent → List LoggerEvent → LoggerConf → LoggerConf → Bool)
    (h : ((logger queueSize noDate).exec (untilLeftCheck 0) (initialised 0 binaryInit) as).any
      (fun (r₁ : LoggerOutcome) => untilLeftCheck 0 r₁.1 3 .shutdown &&
        ((logger queueSize noDate).step r₁.1 3 .shutdown).any fun (r₂ : LoggerOutcome) =>
        ((logger queueSize noDate).exec (untilLeftCheck 0) r₂.1 bs).any fun (r₃ : LoggerOutcome) =>
        ((logger queueSize noDate).step r₃.1 0 .go).any fun (r₄ : LoggerOutcome) =>
          p r₁.2 r₃.2 r₃.1 r₄.1) = true) :
    ∃ c c' tr₁ tr₂ es, (logger queueSize noDate).Run (UntilLeft 0) (initialised 0 binaryInit) c
        (tr₁++.shutdownCalled 3::tr₂) ∧
      (logger queueSize noDate).step c 0 .go = some (c',es) ∧ p tr₁ tr₂ c c' = true := by
  obtain ⟨c₁,tr₁,r₁,h⟩ := exec_any _ _ (untilLeft_of_check 0) as _ h
  obtain ⟨g,h⟩ := Bool.and_eq_true_iff.mp h
  obtain ⟨⟨c₂,es₂⟩,h₂,h⟩ := (Option.any_eq_true _ _).mp h
  obtain ⟨⟨c₃,tr₂⟩,h₃,h⟩ := (Option.any_eq_true _ _).mp h
  obtain ⟨⟨c₄,es⟩,h₄,hp⟩ := (Option.any_eq_true _ _).mp h
  have hcall : es₂ = [.shutdownCalled 3] := by
    obtain ⟨s,l,ha,-⟩ := step_some h₂
    generalize c₁.locals 3 = k at ha
    cases k <;> cases ha
    rfl
  subst hcall
  have r₂ := exec_run (untilLeft_of_check 0) bs (r₁.next (untilLeft_of_check 0 _ _ _ g) h₂) h₃
  rw [List.append_assoc] at r₂
  exact ⟨c₃,c₄,tr₁,tr₂,es,r₂,h₄,hp⟩

def pushMoves (t k : ℕ) : List (ℕ × LoggerMove) := (t,.push emptyEntry)::List.replicate k (t,.go)

def stopMoves (k : ℕ) : List (ℕ × LoggerMove) := List.replicate 3 (3,.go)++List.replicate k (0,.go)

def hasLeft : Thread → Bool
  | .drain .left => true
  | _ => false

theorem left_of_check {l : Thread} (h : hasLeft l = true) : l = .drain .left := by
  unfold hasLeft at h
  split at h
  · rfl
  · cases h

def deliveredCheck (tr₁ tr : List LoggerEvent) : Bool :=
  (queueEvents tr₁).all fun
    | .pushed _ k x => decide ((handed tr)[k]? = some (some x))
    | _ => true

theorem drained_of_check {tr₁ tr : List LoggerEvent} (h : deliveredCheck tr₁ tr = true) :
    Drained 0 [] tr₁ tr := by
  intro t k x hx
  simpa using List.all_eq_true.mp h _ hx

/-- One entry is accepted before the shutdown, and no push is then in progress. -/
theorem shutdown_drains_one_entry : ∃ (c : LoggerConf) (tr₁ tr₂ : List LoggerEvent),
    (logger queueSize noDate).Run (UntilLeft 0) (initialised 0 binaryInit) c
      (tr₁++.shutdownCalled 3::tr₂) ∧
    Event.pushed 1 0 emptyEntry ∈ queueEvents tr₁ ∧ Unobstructed [] tr₁ c ∧
    Drained 0 [] tr₁ (tr₁++.shutdownCalled 3::tr₂) := by
  obtain ⟨c,c',tr₁,tr₂,es,r,hstep,hp⟩ := shutdown_schedule (pushMoves 1 7) (stopMoves 23)
    (fun tr₁ tr₂ _ c' => decide (Event.pushed 1 0 emptyEntry ∈ queueEvents tr₁) &&
      (deliveredCheck tr₁ (tr₁++.shutdownCalled 3::tr₂) && hasLeft (c'.locals 0)))
    (by decide +kernel)
  obtain ⟨hpush,hv⟩ := Bool.and_eq_true_iff.mp hp
  replace hpush := of_decide_eq_true hpush
  obtain ⟨hdel,hleft⟩ := Bool.and_eq_true_iff.mp hv
  have hd : Drained 0 [] tr₁ (tr₁++.shutdownCalled 3::tr₂) := drained_of_check hdel
  exact ⟨c,tr₁,tr₂,r,hpush,(shutdown_drains queueSize noDate 1 (fun _ => 0) 0 0 3 []
    (initialised 0 binaryInit) c c' tr₁ tr₂ es (Queue.registered 1)
    (initialised_draining queueSize 0 binaryInit) r (by decide) hstep
    (left_of_check hleft)).mp hd,hd⟩

/-- The push of thread 1 stalls at position 0, that of thread 2 is accepted at
position 1 and never handed to the sink. -/
theorem stalled_push_loses_entry : ∃ (c c' : LoggerConf) (tr₁ tr₂ es : List LoggerEvent),
    Draining queueSize 1 (fun _ => 0) 0 0 [] (initialised 0 binaryInit) [] (Queue.registered 1)
      (.loop 0) ∧
    (logger queueSize noDate).Run (UntilLeft 0) (initialised 0 binaryInit) c
      (tr₁++.shutdownCalled 3::tr₂) ∧
    (logger queueSize noDate).step c 0 .go = some (c',es) ∧ c'.locals 0 = .drain .left ∧
    Event.pushed 2 1 emptyEntry ∈ queueEvents tr₁ ∧ handed (tr₁++.shutdownCalled 3::tr₂) = [] ∧
    ¬Drained 0 [] tr₁ (tr₁++.shutdownCalled 3::tr₂) := by
  obtain ⟨c,c',tr₁,tr₂,es,r,hstep,hp⟩ := shutdown_schedule (pushMoves 1 4++pushMoves 2 7)
    (stopMoves 9) (fun tr₁ tr₂ _ c' => decide (Event.pushed 2 1 emptyEntry ∈ queueEvents tr₁ ∧
      handed tr₁ = [] ∧ handed tr₂ = []) && hasLeft (c'.locals 0)) (by decide +kernel)
  obtain ⟨hp,hleft⟩ := Bool.and_eq_true_iff.mp hp
  obtain ⟨hpush,h₁,h₂⟩ := of_decide_eq_true hp
  have hnone : handed (tr₁++.shutdownCalled 3::tr₂) = [] := by
    rw [handed_append,h₁]
    exact h₂
  refine ⟨c,c',tr₁,tr₂,es,initialised_draining queueSize 0 binaryInit,r,hstep,
    left_of_check hleft,hpush,hnone,?_⟩
  intro hd
  have := hd 2 1 emptyEntry hpush
  rw [hnone] at this
  cases this

end MpmcLogger.LoggerShutdown
