import MpmcLogger.DrainOutput

/-!
# The counters of the logger

Two of the three counters of the logger are never written. A thread inside a
push stays there until it returns an answer, and before the first push the drain
thread finds nothing to count: the counters agree with the answers as long as
there are none.
-/

set_option autoImplicit false

namespace MpmcLogger.LoggerAccounting
open Interleaving MachineWord MpmcLogger.QueueMachine MpmcLogger.QueueHistory
open MpmcLogger.EntryLayout MpmcLogger.Formatter MpmcLogger.LoggerMachine MpmcLogger.LoggerDrain
open MpmcLogger.LoggerShutdown MpmcLogger.DrainOutput

def isAccepted : LoggerEvent → Bool
  | .queue (.pushed ..) => true
  | _ => false

def isDeclined : LoggerEvent → Bool
  | .queue (.rejected ..) | .refused .. => true
  | _ => false

def accepted (tr : List LoggerEvent) : ℕ := tr.countP isAccepted

def declined (tr : List LoggerEvent) : ℕ := tr.countP isDeclined

def Answered (tr : List LoggerEvent) : Prop := ∃ e ∈ tr, (isAccepted e || isDeclined e) = true

def Balanced (s : Logger) (tr : List LoggerEvent) : Prop :=
  s.entriesPushed = accepted tr ∧ s.entriesDropped = declined tr ∧
    s.entriesDrained ≤ s.entriesPushed

theorem answered_append {tr : List LoggerEvent} (es : List LoggerEvent) (h : Answered tr) :
    Answered (tr++es) := by
  obtain ⟨e,he,hv⟩ := h
  exact ⟨e,List.mem_append_left _ he,hv⟩

theorem answered_of_new (tr : List LoggerEvent) {es : List LoggerEvent} (h : Answered es) :
    Answered (tr++es) := by
  obtain ⟨e,he,hv⟩ := h
  exact ⟨e,List.mem_append_right _ he,hv⟩

theorem answered_iff (tr : List LoggerEvent) :
    Answered tr ↔ ¬(accepted tr = 0 ∧ declined tr = 0) := by
  simp only [Answered,accepted,declined,List.countP_eq_zero,Bool.or_eq_true]
  grind

section Counters

variable {S : RingSize} {date : ℕ → DatePrefix} {t : ℕ} {s s' : Logger} {es : List LoggerEvent}

def counters (s : Logger) : ℕ × ℕ := (s.entriesPushed,s.entriesDropped)

theorem onQueue_counters {m : Move LogEntry} {l l' : Local LogEntry} {fs : List (Event LogEntry)}
    (h : s.onQueue S t m l = some (s',l',fs)) : counters s' = counters s := by
  obtain ⟨q,q',-,-,rfl⟩ := onQueue_acts h
  rfl

theorem onQueue_map_counters {α : Type*} {m : Move LogEntry} {l : Local LogEntry} {x : α}
    {f : Logger × Local LogEntry × List (Event LogEntry) → Logger × α}
    (h : (s.onQueue S t m l).map f = some (s',x)) (hf : ∀ r, counters (f r).1 = counters r.1) :
    counters s' = counters s := by
  obtain ⟨r,hr,he⟩ := Option.map_eq_some_iff.mp h
  have hs' : s' = (f r).1 := by rw [he]
  rw [hs',hf]
  exact onQueue_counters hr

theorem drainLoop_counters {pc pc' : DrainPc} (h : drainLoop S date t s pc = some (s',pc',es)) :
    counters s' = counters s := by
  cases pc with
  | pop ph l => exact onQueue_map_counters h fun _ => rfl
  | stragglers => exact onQueue_map_counters h fun _ => rfl
  | batch i gotAny n =>
    simp only [drainLoop] at h
    split_ifs at h
    · exact onQueue_map_counters h fun _ => rfl
    · cases h
      rfl
  | hand ph item =>
    cases item with
    | none =>
      cases h
      rfl
    | some e =>
      obtain ⟨r,-,he⟩ := Option.map_eq_some_iff.mp h
      cases he
      rfl
  | waiting =>
    simp only [drainLoop] at h
    split_ifs at h
    cases h
    rfl
  | testStop n =>
    simp only [drainLoop] at h
    split_ifs at h <;> cases h <;> rfl
  | loop n | count ph item | left =>
    cases h
    rfl

theorem init_counters {c : InitCall} {pc : InitPc} {l' : Thread}
    (h : init S t c s pc = some (s',l',es)) : counters s' = counters s := by
  cases pc with
  | register l =>
    apply onQueue_map_counters h
    rintro ⟨u,k,fs⟩
    simp only [afterRegister]
    split <;> rfl
  | createSink =>
    simp only [init] at h
    split at h <;> cases h <;> rfl
  | test | createFormatter =>
    simp only [init] at h
    split_ifs at h <;> cases h <;> rfl
  | storeLevel | storeConfig | createQueue | storeRunning | spawn | storeInitialized =>
    cases h
    rfl

theorem shutdown_counters {pc : ShutdownPc} {l' : Thread}
    (h : shutdown S t s pc = some (s',l',es)) : counters s' = counters s := by
  cases pc with
  | exchange =>
    simp only [shutdown] at h
    split_ifs at h <;> cases h <;> rfl
  | join =>
    simp only [shutdown] at h
    split_ifs at h
    exact onQueue_map_counters h fun _ => rfl
  | unregister l => exact onQueue_map_counters h fun _ => rfl
  | storeRunning | requestStop | resetQueue | resetSink | resetFormatter =>
    cases h
    rfl

theorem step_counters {m : LoggerMove} {l l' : Thread}
    (h : loggerAct S date t m s l = some (s',l',es)) : counters s' = counters s := by
  cases l with
  | idle =>
    cases m <;> cases h <;> rfl
  | pushTest e =>
    cases m with
    | go =>
      simp only [loggerAct] at h
      cases hq : s.queue with
      | none =>
        simp only [hq] at h
        cases h
        rfl
      | some q =>
        simp only [hq] at h
        exact onQueue_map_counters h fun _ => rfl
    | _ => cases h
  | push k =>
    cases m with
    | go | spurious => exact onQueue_map_counters h fun _ => rfl
    | _ => cases h
  | init c pc =>
    cases m with
    | go => exact init_counters h
    | _ => cases h
  | shutdown pc =>
    cases m with
    | go => exact shutdown_counters h
    | _ => cases h
  | drain pc =>
    cases m with
    | go =>
      obtain ⟨⟨u,pc',fs⟩,hu,he⟩ := Option.map_eq_some_iff.mp h
      cases he
      exact drainLoop_counters hu
    | _ => cases h

end Counters

section Pushing

variable {S : RingSize} {date : ℕ → DatePrefix} {t : ℕ} {s s' : Logger} {es : List LoggerEvent}

def Pushing : Thread → Prop
  | .pushTest _ => True
  | .push l => InPush l
  | _ => False

theorem push_answered {q q' : Queue LogEntry} {l l' : Local LogEntry} {m : Move LogEntry}
    {fs : List (Event LogEntry)} (hl : InPush l) (hend : l' = .idle) (h : Step S t m q l q' l' fs) :
    Answered (fs.map .queue) := by
  have hanswer : ∀ e : Event LogEntry, (isAccepted (.queue e) || isDeclined (.queue e)) = true →
      Answered ([e].map .queue) := fun e he => ⟨.queue e,List.mem_singleton_self _,he⟩
  cases h with
  | scanFull q x h i ms hi full => exact hanswer _ rfl
  | storeFull q x h old new full => exact hanswer _ rfl
  | publish q x h => exact hanswer _ rfl
  | _ => first | exact hl.elim | cases hend

theorem pushStep_pushing {m : Move LogEntry} {l : Local LogEntry} {l' : Thread}
    (hl : InPush l ∨ l = .idle ∧ ∃ e, m = .call (.push e))
    (h : s.pushStep S t m l = some (s',l',es)) : Pushing l' ∨ Answered es := by
  obtain ⟨⟨u,k,fs⟩,hu,he⟩ := Option.map_eq_some_iff.mp h
  cases he
  obtain ⟨q,q',-,ha,-⟩ := onQueue_acts hu
  have hpushing : ∀ k, InPush k → Pushing (pushing k) := by
    intro k hk
    cases k <;> exact hk
  rcases hl with hin | ⟨rfl,e,rfl⟩
  · rcases (inPush_step hin (act_step ha)).1 with rfl | hk
    · exact Or.inr (push_answered hin rfl (act_step ha))
    · exact Or.inl (hpushing k hk)
  · cases ha
    exact Or.inl (hpushing _ trivial)

theorem pushing_step {m : LoggerMove} {l l' : Thread} (hl : Pushing l)
    (h : loggerAct S date t m s l = some (s',l',es)) : Pushing l' ∨ Answered es := by
  cases l with
  | pushTest e =>
    cases m with
    | go =>
      simp only [loggerAct] at h
      cases hq : s.queue with
      | none =>
        simp only [hq] at h
        cases h
        exact Or.inr ⟨.refused t e,List.mem_singleton_self _,rfl⟩
      | some q =>
        simp only [hq] at h
        exact pushStep_pushing (Or.inr ⟨rfl,e,rfl⟩) h
    | _ => cases h
  | push k =>
    cases m with
    | go | spurious => exact pushStep_pushing (Or.inl hl) h
    | _ => cases h
  | _ => exact hl.elim

end Pushing

section Pristine

structure Untouched (q : Queue LogEntry) : Prop where
  slots : ∀ i, (q.slots i).sequence = invalidPos
  head : q.head = 0
  tails : ∀ c, (q.consumers c).tail = 0

def Dormant : Local LogEntry → Prop
  | .idle | .popLoadActive _ | .popLoadTail _ | .registerFetchAdd | .registerLoadHead _
  | .registerStoreActive _ | .unregisterStoreActive _ => True
  | .popLoadSequence _ tail => tail = 0
  | .registerStoreTail _ head => head = 0
  | _ => False

theorem untouched_new : Untouched Queue.new := ⟨fun _ => rfl,rfl,fun _ => rfl⟩

theorem untouched_setConsumer {q : Queue LogEntry} {c : ConsumerId} {i : ConsumerInfo}
    (h : Untouched q) (hi : i.tail = 0) : Untouched (q.setConsumer c i) := by
  refine ⟨h.slots,h.head,fun e => ?_⟩
  rw [setConsumer_consumers]
  split_ifs
  · exact hi
  · exact h.tails e

/-- Nothing is popped from a queue that nothing was pushed into. -/
theorem dormant_step {S : RingSize} {t : ℕ} {m : Move LogEntry} {q q' : Queue LogEntry}
    {l l' : Local LogEntry} {fs : List (Event LogEntry)} (hl : Dormant l) (hq : Untouched q)
    (hm : ∀ op, m = .call op → Dormant op.entry) (h : Step S t m q l q' l' fs) :
    Untouched q' ∧ Dormant l' ∧ ∀ u c x, fs ≠ [.popped u c x] := by
  have hempty : ∀ tail : ℕ, tail = 0 → (q.slots (S.index tail)).sequence ≠ tail := by
    rintro tail rfl
    rw [hq.slots]
    decide
  cases h with
  | call q op => exact ⟨hq,hm op rfl,by simp⟩
  | popActive q c active => exact ⟨hq,trivial,by simp⟩
  | popInactive q c inactive => exact ⟨hq,trivial,by simp⟩
  | popTail q c => exact ⟨hq,hq.tails c,by simp⟩
  | popReady q c tail ready => exact absurd ready (hempty tail hl)
  | popNotReady q c tail notReady => exact ⟨hq,trivial,by simp⟩
  | registerTicket q hi => exact ⟨⟨hq.slots,hq.head,hq.tails⟩,trivial,by simp⟩
  | registerThrow q hi => exact ⟨⟨hq.slots,hq.head,hq.tails⟩,trivial,by simp⟩
  | registerHead q c => exact ⟨hq,hq.head,by simp⟩
  | registerTail q c h => exact ⟨untouched_setConsumer hq hl,trivial,by simp⟩
  | registerActive q c => exact ⟨untouched_setConsumer hq (hq.tails c),trivial,by simp⟩
  | unregister q c => exact ⟨untouched_setConsumer hq (hq.tails c),trivial,by simp⟩
  | _ => exact hl.elim

def Sleeping : Thread → Prop
  | .pushTest _ | .push _ | .drain (.count ..) | .drain (.hand ..) => False
  | .init _ (.register l) | .shutdown (.unregister l) | .drain (.pop _ l) => Dormant l
  | _ => True

structure Unused (s : Logger) : Prop where
  drained : s.entriesDrained = 0
  queue : ∀ q, s.queue = some q → Untouched q

variable {S : RingSize} {date : ℕ → DatePrefix} {t : ℕ} {s s' : Logger} {es : List LoggerEvent}

theorem onQueue_unused {m : Move LogEntry} {l l' : Local LogEntry} {fs : List (Event LogEntry)}
    (hs : Unused s) (hl : Dormant l) (hm : ∀ op, m = .call op → Dormant op.entry)
    (h : s.onQueue S t m l = some (s',l',fs)) :
    Unused s' ∧ Dormant l' ∧ ∀ u c x, fs ≠ [.popped u c x] := by
  obtain ⟨q,q',hq,ha,rfl⟩ := onQueue_acts h
  obtain ⟨hq',hl',hne⟩ := dormant_step hl (hs.queue q hq) hm (act_step ha)
  refine ⟨⟨hs.drained,fun r hr => ?_⟩,hl',hne⟩
  obtain rfl := Option.some.inj hr
  exact hq'

theorem sleeping_missed (ph : Phase) : Sleeping (.drain ph.missed) := by
  cases ph with
  | final => trivial
  | batch i gotAny n => cases gotAny <;> trivial

theorem sleeping_afterPop {ph : Phase} {l : Local LogEntry} {fs : List (Event LogEntry)}
    (hl : Dormant l) (hne : ∀ u c x, fs ≠ [.popped u c x]) :
    Sleeping (.drain (afterPop ph l fs)) := by
  unfold afterPop
  split
  · exact absurd rfl (hne _ _ _)
  · exact sleeping_missed ph
  · exact hl

theorem drainLoop_unused {pc pc' : DrainPc} (hs : Unused s) (hl : Sleeping (.drain pc))
    (h : drainLoop S date t s pc = some (s',pc',es)) : Unused s' ∧ Sleeping (.drain pc') := by
  have hcall : ∀ ph, s.callPop S t ph = some (s',pc',es) → Unused s' ∧ Sleeping (.drain pc') := by
    intro ph hc
    obtain ⟨⟨u,k,fs⟩,hu,he⟩ := Option.map_eq_some_iff.mp hc
    cases he
    obtain ⟨hs',hk,-⟩ := onQueue_unused (l := .idle) hs trivial (by rintro op ⟨⟩; trivial) hu
    exact ⟨hs',hk⟩
  cases pc with
  | pop ph l =>
    obtain ⟨⟨u,k,fs⟩,hu,he⟩ := Option.map_eq_some_iff.mp h
    cases he
    obtain ⟨hs',hk,hne⟩ := onQueue_unused hs hl (by rintro op ⟨⟩) hu
    exact ⟨hs',sleeping_afterPop hk hne⟩
  | stragglers => exact hcall _ h
  | batch i gotAny n =>
    simp only [drainLoop] at h
    split_ifs at h
    · exact hcall _ h
    · cases h
      cases gotAny <;> exact ⟨hs,trivial⟩
  | waiting =>
    simp only [drainLoop] at h
    split_ifs at h
    cases h
    exact ⟨⟨hs.drained,hs.queue⟩,trivial⟩
  | testStop n =>
    simp only [drainLoop] at h
    split_ifs at h <;> cases h <;> exact ⟨hs,trivial⟩
  | loop n =>
    cases h
    exact ⟨hs,trivial⟩
  | left =>
    cases h
    exact ⟨⟨hs.drained,hs.queue⟩,trivial⟩
  | count ph item | hand ph item => exact hl.elim

theorem init_unused {c : InitCall} {pc : InitPc} {l' : Thread} (hs : Unused s)
    (hl : Sleeping (.init c pc)) (h : init S t c s pc = some (s',l',es)) :
    Unused s' ∧ Sleeping l' := by
  cases pc with
  | register l =>
    obtain ⟨⟨u,k,fs⟩,hu,he⟩ := Option.map_eq_some_iff.mp h
    obtain ⟨hs',hk,-⟩ := onQueue_unused hs hl (by rintro op ⟨⟩) hu
    simp only [afterRegister] at he
    split at he
    · cases he
      exact ⟨⟨hs'.drained,hs'.queue⟩,trivial⟩
    · cases he
      exact ⟨hs',trivial⟩
    · cases he
      exact ⟨hs',hk⟩
  | createQueue =>
    cases h
    refine ⟨⟨hs.drained,fun q hq => ?_⟩,trivial⟩
    obtain rfl := Option.some.inj hq
    exact untouched_new
  | createSink =>
    simp only [init] at h
    split at h <;> cases h <;> exact ⟨⟨hs.drained,hs.queue⟩,trivial⟩
  | test | createFormatter =>
    simp only [init] at h
    split_ifs at h <;> cases h <;> exact ⟨⟨hs.drained,hs.queue⟩,trivial⟩
  | storeLevel | storeConfig | storeRunning | spawn | storeInitialized =>
    cases h
    exact ⟨⟨hs.drained,hs.queue⟩,trivial⟩

theorem shutdown_unused {pc : ShutdownPc} {l' : Thread} (hs : Unused s)
    (hl : Sleeping (.shutdown pc)) (h : shutdown S t s pc = some (s',l',es)) :
    Unused s' ∧ Sleeping l' := by
  cases pc with
  | exchange =>
    simp only [shutdown] at h
    split_ifs at h <;> cases h <;> exact ⟨⟨hs.drained,hs.queue⟩,trivial⟩
  | join =>
    simp only [shutdown] at h
    split_ifs at h
    obtain ⟨⟨u,k,fs⟩,hu,he⟩ := Option.map_eq_some_iff.mp h
    cases he
    obtain ⟨hs',hk,-⟩ := onQueue_unused (l := .idle) hs trivial (by rintro op ⟨⟩; trivial) hu
    exact ⟨hs',hk⟩
  | unregister l =>
    obtain ⟨⟨u,k,fs⟩,hu,he⟩ := Option.map_eq_some_iff.mp h
    cases he
    exact ⟨(onQueue_unused hs hl (by rintro op ⟨⟩) hu).1,trivial⟩
  | resetQueue =>
    cases h
    exact ⟨⟨hs.drained,by rintro q ⟨⟩⟩,trivial⟩
  | storeRunning | requestStop | resetSink | resetFormatter =>
    cases h
    exact ⟨⟨hs.drained,hs.queue⟩,trivial⟩

/-- A step that begins no push leaves the logger unused. -/
theorem sleeping_step {m : LoggerMove} {l l' : Thread} (hs : Unused s) (hl : Sleeping l)
    (hm : ∀ e, m ≠ .push e) (h : loggerAct S date t m s l = some (s',l',es)) :
    Unused s' ∧ Sleeping l' := by
  cases l with
  | idle =>
    cases m with
    | push e => exact absurd rfl (hm e)
    | init c | shutdown =>
      cases h
      exact ⟨hs,trivial⟩
    | go | spurious => cases h
  | pushTest e | push k => exact hl.elim
  | init c pc =>
    cases m with
    | go => exact init_unused hs hl h
    | _ => cases h
  | shutdown pc =>
    cases m with
    | go => exact shutdown_unused hs hl h
    | _ => cases h
  | drain pc =>
    cases m with
    | go =>
      obtain ⟨⟨u,pc',fs⟩,hu,he⟩ := Option.map_eq_some_iff.mp h
      cases he
      exact drainLoop_unused hs hl hu
    | _ => cases h

end Pristine

def Sorted (c : LoggerConf) (tr : List LoggerEvent) : Prop :=
  Answered tr ∨ (∃ t, Pushing (c.locals t)) ∨ Unused c.shared ∧ ∀ t, Sleeping (c.locals t)

section Runs

variable {S : RingSize} {date : ℕ → DatePrefix} {d t : ℕ} {c c' : LoggerConf} {m : LoggerMove}
  {tr es : List LoggerEvent}

theorem sorted_step (h : Sorted c tr) (hstep : (logger S date).step c t m = some (c',es)) :
    Sorted c' (tr++es) := by
  obtain ⟨s,l,ha,rfl⟩ := step_some hstep
  rcases h with h | ⟨u,hu⟩ | ⟨hs,hl⟩
  · exact Or.inl (answered_append es h)
  · by_cases hut : u = t
    · subst hut
      rcases pushing_step hu ha with hl | hans
      · exact Or.inr (Or.inl ⟨u,by simpa using hl⟩)
      · exact Or.inl (answered_of_new tr hans)
    · exact Or.inr (Or.inl ⟨u,by simpa [Function.update_of_ne hut] using hu⟩)
  · by_cases hm : ∃ e, m = .push e
    · obtain ⟨e,rfl⟩ := hm
      have hpush : l = .pushTest e := by
        generalize c.locals t = k at ha
        cases k <;> cases ha
        rfl
      exact Or.inr (Or.inl ⟨t,by simp [hpush,Pushing]⟩)
    · obtain ⟨hs',hl'⟩ := sleeping_step hs (hl t) (fun e he => hm ⟨e,he⟩) ha
      refine Or.inr (Or.inr ⟨hs',fun u => ?_⟩)
      by_cases hut : u = t
      · subst hut
        simpa using hl'
      · simpa [Function.update_of_ne hut] using hl u

theorem run_sorted (r : (logger S date).Run Unguarded (LoggerConf.start d) c tr) : Sorted c tr := by
  induction r with
  | start =>
    refine Or.inr (Or.inr ⟨⟨rfl,by rintro q ⟨⟩⟩,fun t => ?_⟩)
    by_cases ht : t = d <;> simp [LoggerConf.start,ht,Sleeping]
  | next r _ hstep ih => exact sorted_step ih hstep

theorem run_counters (r : (logger S date).Run Unguarded (LoggerConf.start d) c tr) :
    counters c.shared = (0,0) := by
  induction r with
  | start => rfl
  | next r _ hstep ih =>
    obtain ⟨s,l,ha,rfl⟩ := step_some hstep
    exact (step_counters ha).trans ih

end Runs

/-- Any threads calling anything, over any number of lifecycles: in a state in
which no push is in progress the counters tell what the pushes answered, and no
more was drained than accepted, if and only if no push has answered yet. -/
theorem balanced_iff (S : RingSize) (date : ℕ → DatePrefix) (d : ℕ) (c : LoggerConf)
    (tr : List LoggerEvent) (r : (logger S date).Run Unguarded (LoggerConf.start d) c tr)
    (h : ∀ t, NotPushing (c.locals t)) :
    Balanced c.shared tr ↔ accepted tr = 0 ∧ declined tr = 0 := by
  obtain ⟨hpushed,hdropped⟩ := Prod.mk.inj (run_counters r)
  constructor
  · rintro ⟨ha,hd,-⟩
    exact ⟨ha.symm.trans hpushed,hd.symm.trans hdropped⟩
  · rintro ⟨ha,hd⟩
    refine ⟨hpushed.trans ha.symm,hdropped.trans hd.symm,?_⟩
    rcases run_sorted r with hans | ⟨t,ht⟩ | ⟨hs,-⟩
    · exact absurd ⟨ha,hd⟩ ((answered_iff tr).mp hans)
    · have := h t
      generalize c.locals t = l at this ht
      cases l <;> first | exact this.elim | exact ht.elim
    · rw [hs.drained]
      exact Nat.zero_le _

theorem solo_schedule (as : List (ℕ × LoggerMove)) (hone : ∀ a ∈ as, a.1 = 1)
    (p : Logger → List LoggerEvent → Bool)
    (h : ((logger queueSize noDate).exec (fun _ _ _ => true) (LoggerConf.start 0) as).any
      (fun (r : LoggerOutcome) =>
        restsOrStops (r.1.locals 1) && p r.1.shared r.2) = true) :
    ∃ c tr, (logger queueSize noDate).Run Unguarded (LoggerConf.start 0) c tr ∧
      (∀ t, NotPushing (c.locals t)) ∧ p c.shared tr = true := by
  obtain ⟨⟨c,tr⟩,he,hv⟩ := (Option.any_eq_true _ _).mp h
  obtain ⟨hidle,hp⟩ := Bool.and_eq_true_iff.mp hv
  have r : (logger queueSize noDate).Run Unguarded (LoggerConf.start 0) c tr :=
    exec_run (fun _ _ _ _ => trivial) as .start he
  refine ⟨c,tr,r,fun t => ?_,hp⟩
  by_cases ht : t = 1
  · subst ht
    exact notPushing_of_check hidle
  · rw [exec_untouched as (fun a ha hat => ht (hat.symm.trans (hone a ha))) he]
    by_cases h0 : t = 0 <;> simp [LoggerConf.start,h0,NotPushing]

def initMoves : List (ℕ × LoggerMove) := (1,.init binaryInit)::List.replicate 13 (1,.go)

/-- After the initialisation, before any push. -/
theorem balanced_initialised : ∃ (c : LoggerConf) (tr : List LoggerEvent),
    (logger queueSize noDate).Run Unguarded (LoggerConf.start 0) c tr ∧
    c.shared.initialized = true ∧ Balanced c.shared tr := by
  obtain ⟨c,tr,r,hn,hp⟩ := solo_schedule initMoves (by simp [initMoves])
    (fun s tr => decide (s.initialized = true ∧ accepted tr = 0 ∧ declined tr = 0))
    (by decide +kernel)
  obtain ⟨hi,hnone⟩ := of_decide_eq_true hp
  exact ⟨c,tr,r,hi,(balanced_iff queueSize noDate 0 c tr r hn).mpr hnone⟩

/-- One push is accepted and not counted. -/
theorem push_not_counted : ∃ (c : LoggerConf) (tr : List LoggerEvent),
    (logger queueSize noDate).Run Unguarded (LoggerConf.start 0) c tr ∧
    (∀ t, NotPushing (c.locals t)) ∧ accepted tr = 1 ∧ c.shared.entriesPushed = 0 ∧
    ¬Balanced c.shared tr := by
  obtain ⟨c,tr,r,hn,hp⟩ := solo_schedule (initMoves++pushMoves 1 7)
    (by simp [initMoves,pushMoves]) (fun s tr => decide (accepted tr = 1 ∧ s.entriesPushed = 0))
    (by decide +kernel)
  obtain ⟨ha,hs⟩ := of_decide_eq_true hp
  refine ⟨c,tr,r,hn,ha,hs,fun hb => ?_⟩
  have := hb.1
  omega

end MpmcLogger.LoggerAccounting
