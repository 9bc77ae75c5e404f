import MpmcLogger.LoggerShutdown
import Mathlib.Data.List.DropRight

/-!
# Whole lives of the logger

One thread initialises the logger, pushes entries and shuts it down, in any order
and any number of times, beside the drain thread. As long as no sink fails to be
constructed the logger has a queue exactly while it is initialised, and no queue
is destroyed before its entries were popped.
-/

set_option autoImplicit false

namespace MpmcLogger.LoggerLifecycle
open Interleaving MachineWord MpmcLogger.QueueMachine MpmcLogger.QueueHistory
open MpmcLogger.QueueInvariant MpmcLogger.QueueExclusion MpmcLogger.QueueDelivery
open MpmcLogger.QueueFailure MpmcLogger.EntryLayout MpmcLogger.Formatter
open MpmcLogger.LoggerMachine MpmcLogger.LoggerDrain MpmcLogger.LoggerShutdown

def life (tr : List LoggerEvent) : List LoggerEvent := tr.rtakeWhile fun e => !(e matches .created)

def Popped (es : List (Event LogEntry)) : Prop :=
  ∀ t k x, Event.pushed t k x ∈ es → (pops 0 es)[k]? = some (some x)

def Emptied (tr : List LoggerEvent) : Prop :=
  ∀ tr₁, tr₁++[.destroyed] <+: tr → Popped (queueEvents (life tr₁))

def OneCaller (u d : ℕ) : Guard ℕ LoggerMove Logger Thread := fun _ t _ => t = u ∨ t = d

/-- Only thread `u` calls, and the sinks it constructs do not fail. -/
def Succeeding (u d : ℕ) : Guard ℕ LoggerMove Logger Thread := fun c t m =>
  OneCaller u d c t m ∧ ∀ call, c.locals t = .init call .createSink → call.sinkError = none

section Histories

variable {tr es : List LoggerEvent}

theorem life_append (h : .created ∉ es) : life (tr++es) = life tr++es := by
  have hes : ∀ e ∈ es.reverse, (!(e matches LoggerEvent.created)) = true := by
    intro e he
    cases e <;> first | rfl | exact absurd (List.mem_reverse.mp he) h
  rw [life,List.rtakeWhile,List.reverse_append,List.takeWhile_append_of_pos hes,
    List.reverse_append,List.reverse_reverse]
  rfl

theorem life_created (h : .created ∉ es) : life (tr++.created::es) = es := by
  have hlast : life (tr++[.created]) = [] := List.rtakeWhile_concat_neg _ _ _ (by decide)
  rw [List.append_cons,life_append h,hlast,List.nil_append]

theorem emptied_nil : Emptied [] := by
  intro tr₁ h
  have := List.prefix_nil.mp h
  simp at this

theorem emptied_append (h : Emptied tr) (hes : .destroyed ∉ es) : Emptied (tr++es) := by
  induction es using List.reverseRecOn with
  | nil => simpa using h
  | append_singleton es e ih =>
    intro tr₁ hpre
    rw [← List.append_assoc] at hpre
    rcases List.prefix_concat_iff.mp hpre with heq | hpre
    · have he : LoggerEvent.destroyed = e := by simpa using congrArg List.getLast? heq
      exact absurd (List.mem_append_right es (he ▸ List.mem_singleton_self e)) hes
    · exact ih (fun hmem => hes (List.mem_append_left _ hmem)) tr₁ hpre

theorem emptied_destroyed (h : Emptied tr) (hp : Popped (queueEvents (life tr))) :
    Emptied (tr++[.destroyed]) := by
  intro tr₁ hpre
  rcases List.prefix_concat_iff.mp hpre with heq | hpre
  · obtain rfl := List.append_cancel_right heq
    exact hp
  · exact h tr₁ hpre

end Histories

def duo (u d : ℕ) (l : Thread) (pc : DrainPc) (t : ℕ) : Thread :=
  if t = u then l else if t = d then .drain pc else .idle

section Duo

variable {S : RingSize} {date : ℕ → DatePrefix} {u d : ℕ} {s : Logger} {l l' : Thread}
  {pc pc' : DrainPc} {c : LoggerConf} {es : List LoggerEvent} {m : LoggerMove}

theorem duo_caller : duo u d l pc u = l := if_pos rfl

theorem duo_drain (h : u ≠ d) : duo u d l pc d = .drain pc := by
  rw [duo,if_neg h.symm,if_pos rfl]

theorem update_caller : Function.update (duo u d l pc) u l' = duo u d l' pc := by
  funext t
  by_cases ht : t = u <;> simp [duo,ht]

theorem update_drain (h : u ≠ d) :
    Function.update (duo u d l pc) d (.drain pc') = duo u d l pc' := by
  funext t
  by_cases ht : t = d
  · subst ht
    simp [duo,h.symm]
  · simp [duo,ht]

theorem start_duo (h : u ≠ d) : (LoggerConf.start d).locals = duo u d .idle .waiting := by
  funext t
  by_cases ht : t = u <;> simp [LoggerConf.start,duo,ht,h]

theorem caller_step (h : (logger S date).step ⟨s,duo u d l pc⟩ u m = some (c,es)) :
    ∃ s' l', loggerAct S date u m s l = some (s',l',es) ∧ c = ⟨s',duo u d l' pc⟩ := by
  obtain ⟨s',l',ha,rfl⟩ := step_some h
  have hact : loggerAct S date u m s l = some (s',l',es) := by rwa [← duo_caller (l := l)]
  exact ⟨s',l',hact,by rw [update_caller]⟩

theorem drain_thread_step (hud : u ≠ d)
    (h : (logger S date).step ⟨s,duo u d l pc⟩ d m = some (c,es)) :
    ∃ s' pc', drainLoop S date d s pc = some (s',pc',es) ∧ c = ⟨s',duo u d l pc'⟩ := by
  obtain ⟨s',k,ha,rfl⟩ := step_some h
  have hact : loggerAct S date d m s (.drain pc) = some (s',k,es) := by rwa [← duo_drain hud]
  cases m with
  | go =>
    obtain ⟨⟨v,pc',fs⟩,hv,he⟩ := Option.map_eq_some_iff.mp hact
    obtain ⟨rfl,rfl,rfl⟩ := Prod.mk.inj he |>.imp_right Prod.mk.inj
    exact ⟨v,pc',hv,by rw [update_drain hud]⟩
  | _ => cases hact

end Duo

def standing : Thread → Option (Bool × Bool)
  | .idle | .pushTest _ | .push _ | .init _ .test | .shutdown .exchange => some (true,false)
  | .init _ .storeInitialized | .shutdown .storeRunning | .shutdown .requestStop =>
    some (false,false)
  | .shutdown .join => some (false,true)
  | _ => none

def Final : DrainPc → Prop
  | .stragglers | .left => True
  | .pop ph _ | .count ph _ | .hand ph _ => ph = .final
  | .waiting | .loop _ | .batch .. | .testStop _ => False

def Ordinary : LoggerEvent → Prop
  | .created | .destroyed | .initThrew .. => False
  | _ => True

structure Serving (S : RingSize) (u d : ℕ) (s : Logger) (l : Thread) (pc : DrainPc)
    (q : Queue LogEntry) (es : List (Event LogEntry)) : Prop where
  queue : s.queue = some q
  run : (machine LogEntry S).Run (JoinedFirst fun _ => d) (Config.start 1)
    ⟨q,fun t => queueLocal (duo u d l pc t)⟩ es
  active : (q.consumers 0).active = true
  consumer : s.consumerId = 0
  sink : s.sink = true
  notEnded : s.drainEnded = false
  caller : standing l = some (s.initialized,s.stop)
  pushing : ∀ k, l = .push k → InPush k
  drain : pc = .waiting ∧ s.drainSpawned = true ∨ Looping 0 pc ∧ s.drainSpawned = false
  final : Final pc → s.stop = true

section Serve

variable {S : RingSize} {date : ℕ → DatePrefix} {u d : ℕ} {s s' : Logger} {l l' : Thread}
  {pc pc' : DrainPc} {q q' : Queue LogEntry} {es : List (Event LogEntry)}
  {fs : List LoggerEvent} {m : LoggerMove}

theorem final_popped {ph : Phase} (h : Final ph.popped) : ph = .final := by
  cases ph with
  | batch i gotAny n => exact h.elim
  | final => rfl

theorem final_missed {ph : Phase} (h : Final ph.missed) : ph = .final := by
  cases ph with
  | batch i gotAny n => cases gotAny <;> exact h.elim
  | final => rfl

theorem final_afterPop {ph : Phase} {k : Local LogEntry} (h : Final (afterPop ph k es)) :
    ph = .final := by
  unfold afterPop at h
  split at h
  · exact h
  · exact final_missed h
  · exact h

/-- The loop begins its final drain only when it sees the request to stop. -/
theorem final_step (h : drainLoop S date d s pc = some (s',pc',fs)) (hf : Final pc') :
    Final pc ∨ s.stop = true := by
  cases pc with
  | stragglers => exact Or.inl trivial
  | left => exact Or.inl trivial
  | loop n =>
    cases h
    exact hf.elim
  | waiting =>
    simp only [drainLoop] at h
    split_ifs at h
    cases h
    exact hf.elim
  | batch i gotAny n =>
    simp only [drainLoop] at h
    split_ifs at h
    · obtain ⟨r,-,he⟩ := Option.map_eq_some_iff.mp h
      cases he
      cases hf
    · cases gotAny <;> cases h <;> exact hf.elim
  | testStop n =>
    simp only [drainLoop] at h
    split_ifs at h with hs
    · exact Or.inr hs
    · cases h
      exact hf.elim
  | pop ph k =>
    obtain ⟨r,-,he⟩ := Option.map_eq_some_iff.mp h
    cases he
    exact Or.inl (final_afterPop hf)
  | count ph item =>
    cases h
    exact Or.inl hf
  | hand ph item =>
    left
    apply final_popped
    cases item with
    | none =>
      cases h
      exact hf
    | some e =>
      obtain ⟨r,-,he⟩ := Option.map_eq_some_iff.mp h
      cases he
      exact hf

theorem serving_move (h : Serving S u d s l pc q es)
    (hmove : QueueMove S (fun _ => d) u l l' fs q q') {b r i : Bool}
    (hs : s' = { s with queue := some q', stop := b, running := r, initialized := i })
    (hactive : q'.consumers = q.consumers) (hcaller : standing l' = some (i,b))
    (hpush : ∀ k, l' = .push k → InPush k) (hstop : s.stop = true → b = true) :
    Serving S u d s' l' pc q' (es++queueEvents fs) where
  queue := by rw [hs]
  run := by
    have hu : duo u d l pc u = l := duo_caller
    rw [← hu] at hmove
    have hrun := queueMove_run (c := ⟨s,duo u d l pc⟩) h.run hmove
    rwa [update_caller] at hrun
  active := by
    rw [hactive]
    exact h.active
  consumer := by
    rw [hs]
    exact h.consumer
  sink := by
    rw [hs]
    exact h.sink
  notEnded := by
    rw [hs]
    exact h.notEnded
  caller := by
    rw [hs]
    exact hcaller
  pushing := hpush
  drain := by
    rw [hs]
    exact h.drain
  final hf := by
    rw [hs]
    exact hstop (h.final hf)

theorem serving_still (h : Serving S u d s l pc q es) {b r i : Bool}
    (hs : s' = { s with stop := b, running := r, initialized := i })
    (hloc : queueLocal l' = queueLocal l) (hes : queueEvents fs = [])
    (hcaller : standing l' = some (i,b)) (hpush : ∀ k, l' = .push k → InPush k)
    (hstop : s.stop = true → b = true) :
    ∃ q', Serving S u d s' l' pc q' (es++queueEvents fs) := by
  have hqueue : s' = { s with queue := some q, stop := b, running := r, initialized := i } := by
    rw [hs,← h.queue]
  exact ⟨q,serving_move h (.still hloc hes) hqueue rfl hcaller hpush hstop⟩

theorem standing_pushing (k : Local LogEntry) : standing (pushing k) = some (true,false) := by
  cases k <;> rfl

theorem serving_push {m : Move LogEntry} (h : Serving S u d s l pc q es)
    (hl : standing l = some (true,false))
    (hm : InPush (queueLocal l) ∧ (m = .go ∨ m = .spurious) ∨
      queueLocal l = .idle ∧ ∃ e, m = .call (.push e))
    (ha : s.pushStep S u m (queueLocal l) = some (s',l',fs)) :
    ∃ q', Serving S u d s' l' pc q' (es++queueEvents fs) := by
  obtain ⟨q',ho⟩ : ∃ q', OutsideStep S (fun _ => d) u s s' l l' fs q q' :=
    pushStep_outside h.queue hm ha
  obtain ⟨⟨v,k,gs⟩,hv,he⟩ := Option.map_eq_some_iff.mp ha
  obtain ⟨rfl,rfl,rfl⟩ := Prod.mk.inj he |>.imp_right Prod.mk.inj
  obtain ⟨q'',-,rfl⟩ := onQueue_some h.queue hv
  obtain rfl : q'' = q' := Option.some.inj ho.queue
  have hstands := h.caller
  rw [hl] at hstands
  apply Exists.intro q''
  apply serving_move h ho.move (r := s.running) (i := s.initialized) rfl ho.consumers
  · rw [standing_pushing,hstands]
  · intro j hj
    have hout := ho.outside
    rw [hj] at hout
    exact hout
  · exact id

theorem serving_caller (h : Serving S u d s l pc q es)
    (ha : loggerAct S date u m s l = some (s',l',fs)) :
    ∃ q', Serving S u d s' l' pc q' (es++queueEvents fs) := by
  have hcaller := h.caller
  cases l with
  | idle =>
    cases m with
    | push e =>
      cases ha
      exact serving_still h rfl rfl rfl hcaller (by simp) id
    | init call =>
      cases ha
      exact serving_still h rfl rfl rfl hcaller (by simp) id
    | shutdown =>
      cases ha
      exact serving_still h rfl rfl rfl hcaller (by simp) id
    | go => cases ha
    | spurious => cases ha
  | pushTest e =>
    cases m with
    | go =>
      simp only [loggerAct,h.queue] at ha
      exact serving_push h rfl (Or.inr ⟨rfl,e,rfl⟩) ha
    | _ => cases ha
  | push k =>
    have hk : InPush k := h.pushing k rfl
    cases m with
    | go => exact serving_push h rfl (Or.inl ⟨hk,Or.inl rfl⟩) ha
    | spurious => exact serving_push h rfl (Or.inl ⟨hk,Or.inr rfl⟩) ha
    | _ => cases ha
  | init call ipc =>
    cases m with
    | go =>
      cases ipc with
      | test =>
        obtain ⟨hi,hs⟩ := Prod.mk.inj (Option.some.inj hcaller)
        simp only [loggerAct,init,← hi] at ha
        cases ha
        exact serving_still h rfl rfl rfl hcaller (by simp) id
      | storeInitialized =>
        obtain ⟨-,hs⟩ := Prod.mk.inj (Option.some.inj hcaller)
        cases ha
        exact serving_still h rfl rfl rfl (by rw [← hs]; rfl) (by simp) id
      | _ => cases hcaller
    | _ => cases ha
  | shutdown spc =>
    cases m with
    | go =>
      cases spc with
      | exchange =>
        obtain ⟨hi,hs⟩ := Prod.mk.inj (Option.some.inj hcaller)
        simp only [loggerAct,shutdown,← hi] at ha
        cases ha
        exact serving_still h rfl rfl rfl (by rw [← hs]; rfl) (by simp) id
      | storeRunning =>
        cases ha
        exact serving_still h rfl rfl rfl hcaller (by simp) id
      | requestStop =>
        obtain ⟨hi,-⟩ := Prod.mk.inj (Option.some.inj hcaller)
        cases ha
        exact serving_still h rfl rfl rfl (by rw [← hi]; rfl) (by simp) fun _ => rfl
      | join =>
        simp only [loggerAct,shutdown,h.notEnded] at ha
        cases ha
      | _ => cases hcaller
    | _ => cases ha
  | drain dpc => cases hcaller

theorem ordinary_map (gs : List (Event LogEntry)) : ∀ e ∈ gs.map LoggerEvent.queue, Ordinary e := by
  intro e he
  obtain ⟨g,-,rfl⟩ := List.mem_map.mp he
  trivial

theorem drain_ordinary (h : drainLoop S date d s pc = some (s',pc',fs)) : ∀ e ∈ fs, Ordinary e := by
  intro e he
  have hemits := drainLoop_emits h e he
  cases e with
  | created | destroyed | initThrew t what => cases pc <;> exact hemits.elim
  | _ => trivial

theorem caller_ordinary {p : Bool × Bool} (hl : standing l = some p)
    (h : loggerAct S date u m s l = some (s',l',fs)) : ∀ e ∈ fs, Ordinary e := by
  intro e he
  have hemits := act_emits h e he
  cases e with
  | created | destroyed | initThrew t what =>
    cases l with
    | init call ipc => cases ipc <;> first | exact hemits.elim | cases hl
    | shutdown spc => cases spc <;> first | exact hemits.elim | cases hl
    | drain dpc => cases hl
    | _ => exact hemits.elim
  | _ => trivial

structure Emptying (s : Logger) (l : Thread) (es : List (Event LogEntry)) : Prop where
  queue : s.queue.isSome = true
  caller : l = .shutdown .join
  popped : Popped es
  spawned : s.drainSpawned = false
  initialized : s.initialized = false
  notEnded : s.drainEnded = false

theorem standing_stop {i : Bool} (h : standing l = some (i,true)) :
    l = .shutdown .join ∧ i = false := by
  cases l with
  | init call ipc => cases ipc <;> cases h
  | shutdown spc =>
    cases spc <;> cases h
    exact ⟨rfl,rfl⟩
  | _ => cases h

theorem serving_left (hud : u ≠ d) (h : Serving S u d s l pc q es) (hloop : Looping 0 pc)
    (hspawn : s.drainSpawned = false)
    (hd : drainLoop S date d s pc = some (s',.left,fs)) : Emptying s' l (es++queueEvents fs) := by
  have hcaller := h.caller
  have hstop : s.stop = true := (final_step hd trivial).elim h.final id
  rw [hstop] at hcaller
  obtain ⟨rfl,hi⟩ := standing_stop hcaller
  obtain ⟨q₁,hs⟩ : ∃ q₁, DrainStep date S (fun _ => d) 0 d s s' pc .left fs q q₁ :=
    drain_step hloop h.queue h.consumer rfl h.sink hd
  obtain ⟨n,f,hframe⟩ := hs.frame
  obtain ⟨k,q',rfl,ha,rfl⟩ := left_step hloop h.queue hd
  have hst : Step S d .go q (queueLocal (duo u d (.shutdown .join) (.pop .final k) d)) q' .idle
      [.empty d 0] := by
    rw [duo_drain hud]
    exact act_step ha
  obtain ⟨hk,hunpub⟩ := empty_unpublished begun_start h.run (by decide) hst (by simp) h.active
  simp only [duo_drain hud] at hk
  replace hk : k = .popLoadSequence 0 (q.consumers 0).tail := hk
  -- neither thread is inside a push
  have hfree : ∀ t, holds (queueLocal (duo u d (.shutdown .join) (.pop .final k) t)) = none := by
    intro t
    unfold duo
    split_ifs
    · rfl
    · rw [hk]
      rfl
    · rfl
  have hpopped : Popped (es++[.empty d 0]) := by
    intro t p x hx
    have hmem : Event.pushed t p x ∈ es := by simpa using hx
    rw [pops_append]
    show (pops 0 es++[])[p]? = _
    rw [List.append_nil]
    apply accepted_popped h.run (by decide) hunpub hmem
    intro v p' y hv
    rw [hfree v] at hv
    cases hv
  rw [hframe]
  exact ⟨rfl,rfl,hpopped,hspawn,hi,h.notEnded⟩

theorem serving_advance (hud : u ≠ d) (h : Serving S u d s l pc q es)
    (hmove : QueueMove S (fun _ => d) d (.drain pc) (.drain pc') fs q q') {b : Bool} {n : ℕ}
    {f : Option TextFormatter}
    (hs : s' = { s with queue := some q', drainSpawned := b, entriesDrained := n, textFmt := f })
    (hactive : ∀ c, (q'.consumers c).active = (q.consumers c).active) (hloop : Looping 0 pc')
    (hspawn : b = false) (hfinal : Final pc' → Final pc ∨ s.stop = true) :
    Serving S u d s' l pc' q' (es++queueEvents fs) where
  queue := by rw [hs]
  run := by
    have hpc : duo u d l pc d = .drain pc := duo_drain hud
    rw [← hpc] at hmove
    have hrun := queueMove_run (c := ⟨s,duo u d l pc⟩) h.run hmove
    rwa [update_drain hud] at hrun
  active := by
    rw [hactive]
    exact h.active
  consumer := by
    rw [hs]
    exact h.consumer
  sink := by
    rw [hs]
    exact h.sink
  notEnded := by
    rw [hs]
    exact h.notEnded
  caller := by
    rw [hs]
    exact h.caller
  pushing := h.pushing
  drain := by
    rw [hs]
    exact Or.inr ⟨hloop,hspawn⟩
  final hf := by
    rw [hs]
    exact (hfinal hf).elim h.final id

theorem serving_drain (hud : u ≠ d) (h : Serving S u d s l pc q es)
    (hd : drainLoop S date d s pc = some (s',pc',fs)) :
    (∃ q', Serving S u d s' l pc' q' (es++queueEvents fs)) ∨
      pc' = .left ∧ Emptying s' l (es++queueEvents fs) := by
  have hfinal : Final pc' → Final pc ∨ s.stop = true := final_step hd
  rcases h.drain with ⟨rfl,hspawn⟩ | ⟨hloop,hspawn⟩
  · simp only [drainLoop,hspawn,if_true] at hd
    cases hd
    have hs : { s with drainSpawned := false } =
        { s with queue := some q, drainSpawned := false } := by rw [← h.queue]
    exact Or.inl ⟨q,serving_advance hud h (.still rfl rfl) hs (fun _ => rfl) trivial rfl hfinal⟩
  · obtain ⟨q',hs⟩ : ∃ q', DrainStep date S (fun _ => d) 0 d s s' pc pc' fs q q' :=
      drain_step hloop h.queue h.consumer rfl h.sink hd
    rcases hs.looping with hloop' | rfl
    · obtain ⟨n,f,hf⟩ := hs.frame
      exact Or.inl ⟨q',serving_advance hud h hs.move hf hs.active hloop' hspawn hfinal⟩
    · exact Or.inr ⟨rfl,serving_left hud h hloop hspawn hd⟩

end Serve

def Resting (s : Logger) : Prop := s.drainSpawned = false ∧ s.initialized = false

def Down : Thread → Prop
  | .idle | .pushTest _ | .init _ .test | .init _ .storeLevel | .init _ .storeConfig
  | .init _ .createQueue | .shutdown .exchange | .shutdown .resetSink
  | .shutdown .resetFormatter => True
  | _ => False

inductive Enrolling : Local LogEntry → Queue LogEntry → Prop
  | ticket : Enrolling .registerFetchAdd .new
  | head : Enrolling (.registerLoadHead 0) { Queue.new with numConsumers := 1 }
  | tail : Enrolling (.registerStoreTail 0 0) { Queue.new with numConsumers := 1 }
  | active : Enrolling (.registerStoreActive 0)
      (({ Queue.new with numConsumers := 1 } : Queue LogEntry).setConsumer 0 ⟨0,false⟩)

def Equipping (sink : Bool) : InitPc → Prop
  | .createSink => True
  | .createFormatter | .storeRunning | .spawn => sink = true
  | _ => False

def Closing : Thread → Prop
  | .shutdown .join | .shutdown (.unregister (.unregisterStoreActive _)) | .shutdown .resetQueue =>
    True
  | _ => False

def Bare (es : List (Event LogEntry)) : Prop :=
  pops 0 es = [] ∧ ∀ t k x, Event.pushed t k x ∉ es

inductive Stage (S : RingSize) (u d : ℕ) : Logger → Thread → DrainPc → List LoggerEvent → Prop
  | down {s : Logger} {l : Thread} {tr : List LoggerEvent} (h : Resting s) (hq : s.queue = none)
      (hl : Down l) : Stage S u d s l .waiting tr
  | enrolling {s : Logger} {call : InitCall} {k : Local LogEntry} {q : Queue LogEntry}
      {tr : List LoggerEvent} (h : Resting s) (hq : s.queue = some q) (hk : Enrolling k q)
      (hb : Bare (queueEvents (life tr))) : Stage S u d s (.init call (.register k)) .waiting tr
  | equipping {s : Logger} {call : InitCall} {ipc : InitPc} {tr : List LoggerEvent} (h : Resting s)
      (hq : s.queue = some (Queue.registered 1)) (hid : s.consumerId = 0)
      (hpc : Equipping s.sink ipc) (hb : Bare (queueEvents (life tr))) :
      Stage S u d s (.init call ipc) .waiting tr
  | serving {s : Logger} {l : Thread} {pc : DrainPc} {q : Queue LogEntry} {tr : List LoggerEvent}
      {reg es : List (Event LogEntry)} (he : queueEvents (life tr) = reg++es) (hb : Bare reg)
      (h : Serving S u d s l pc q es) : Stage S u d s l pc tr
  | left {s : Logger} {tr : List LoggerEvent} (h : Resting s) (hend : s.drainEnded = false)
      (hq : s.queue.isSome = true) (hp : Popped (queueEvents (life tr))) :
      Stage S u d s (.shutdown .join) .left tr
  | closing {s : Logger} {l : Thread} {tr : List LoggerEvent} (h : Resting s)
      (hq : s.queue.isSome = true) (hl : Closing l) (hp : Popped (queueEvents (life tr))) :
      Stage S u d s l .waiting tr

section Stages

variable {S : RingSize} {date : ℕ → DatePrefix} {u d : ℕ} {s s' : Logger} {l l' : Thread}
  {pc pc' : DrainPc} {tr : List LoggerEvent} {es : List (Event LogEntry)}
  {fs : List LoggerEvent} {m : LoggerMove}

theorem life_ordinary (h : ∀ e ∈ fs, Ordinary e) : life (tr++fs) = life tr++fs :=
  life_append fun hmem => h _ hmem

theorem life_served {reg : List (Event LogEntry)} (he : queueEvents (life tr) = reg++es)
    (h : ∀ e ∈ fs, Ordinary e) : queueEvents (life (tr++fs)) = reg++(es++queueEvents fs) := by
  rw [life_ordinary h,queueEvents_append,he,List.append_assoc]

theorem bare_append {fs : List (Event LogEntry)} (h : Bare es) (h' : Bare fs) :
    Bare (es++fs) := by
  constructor
  · rw [pops_append,h.1,h'.1]
    rfl
  · intro t k x hx
    rcases List.mem_append.mp hx with hx | hx
    · exact h.2 t k x hx
    · exact h'.2 t k x hx

theorem popped_bare {fs : List (Event LogEntry)} (h : Popped es) (hf : Bare fs) :
    Popped (es++fs) := by
  intro t k x hx
  rcases List.mem_append.mp hx with hx | hx
  · rw [pops_append,hf.1,List.append_nil]
    exact h t k x hx
  · exact absurd hx (hf.2 t k x)

theorem bare_popped {fs : List (Event LogEntry)} (h : Bare es) (hf : Popped fs) :
    Popped (es++fs) := by
  intro t k x hx
  rcases List.mem_append.mp hx with hx | hx
  · exact absurd hx (h.2 t k x)
  · rw [pops_append,h.1,List.nil_append]
    exact hf t k x hx

theorem down_step (h : Resting s) (hq : s.queue = none) (hl : Down l)
    (ha : loggerAct S date u m s l = some (s',l',fs)) :
    Stage S u d s' l' .waiting (tr++fs) := by
  cases l with
  | idle =>
    cases m with
    | go => cases ha
    | spurious => cases ha
    | _ =>
      cases ha
      exact .down h hq trivial
  | pushTest e =>
    cases m with
    | go =>
      simp only [loggerAct,hq] at ha
      cases ha
      exact .down h hq trivial
    | _ => cases ha
  | init call ipc =>
    cases m with
    | go =>
      cases ipc with
      | test =>
        simp only [loggerAct,init,h.2] at ha
        cases ha
        exact .down h hq trivial
      | storeLevel =>
        cases ha
        exact .down h hq trivial
      | storeConfig =>
        cases ha
        exact .down h hq trivial
      | createQueue =>
        simp only [loggerAct,init,Logger.dropQueue,hq] at ha
        cases ha
        refine .enrolling h rfl .ticket ?_
        show Bare (queueEvents (life (tr++.created::[.queue (.called u .registerConsumer)])))
        rw [life_created (by simp)]
        exact ⟨rfl,by simp [queueEvents]⟩
      | _ => exact hl.elim
    | _ => cases ha
  | shutdown spc =>
    cases m with
    | go =>
      cases spc with
      | exchange =>
        simp only [loggerAct,shutdown,h.2] at ha
        cases ha
        exact .down h hq trivial
      | resetSink =>
        cases ha
        exact .down h hq trivial
      | resetFormatter =>
        cases ha
        exact .down h hq trivial
      | _ => exact hl.elim
    | _ => cases ha
  | _ => exact hl.elim

theorem enrolling_advance {k k' : Local LogEntry} {q q' : Queue LogEntry} (hk : Enrolling k q)
    (ha : advance S u q k = some (q',k',es)) : Bare es ∧ (Enrolling k' q' ∧ k' ≠ .idle ∨
      k' = .idle ∧ q' = Queue.registered 1 ∧ es = [.registered u 0]) := by
  cases hk with
  | ticket =>
    cases ha
    exact ⟨⟨rfl,by simp⟩,Or.inl ⟨.head,by simp⟩⟩
  | head =>
    cases ha
    exact ⟨⟨rfl,by simp⟩,Or.inl ⟨.tail,by simp⟩⟩
  | tail =>
    cases ha
    exact ⟨⟨rfl,by simp⟩,Or.inl ⟨.active,by simp⟩⟩
  | active =>
    cases ha
    refine ⟨⟨rfl,by simp⟩,Or.inr ⟨rfl,?_,rfl⟩⟩
    rw [← raise_registered 0 (by decide)]
    simp [Queue.setConsumer,Queue.new,Queue.registered,u32]

theorem enrolling_step {call : InitCall} {k : Local LogEntry} {q : Queue LogEntry} (h : Resting s)
    (hq : s.queue = some q) (hk : Enrolling k q) (hb : Bare (queueEvents (life tr)))
    (ha : loggerAct S date u m s (.init call (.register k)) = some (s',l',fs)) :
    Stage S u d s' l' .waiting (tr++fs) ∧ ∀ e ∈ fs, Ordinary e := by
  cases m with
  | go =>
    obtain ⟨⟨v,k',gs⟩,hv,he⟩ := Option.map_eq_some_iff.mp ha
    obtain ⟨q',hact,rfl⟩ := onQueue_some hq hv
    obtain ⟨hgs,hnext⟩ := enrolling_advance hk hact
    have hlife : Bare (queueEvents (life (tr++gs.map .queue))) := by
      rw [life_ordinary (ordinary_map gs),queueEvents_append,queueEvents_map]
      exact bare_append hb hgs
    rcases hnext with ⟨hk',hne⟩ | ⟨rfl,rfl,rfl⟩
    · have hafter : afterRegister u call { s with queue := some q' } k' gs =
          ({ s with queue := some q' },.init call (.register k'),gs.map .queue) := by
        cases k' <;> first | rfl | exact absurd rfl hne
      rw [hafter] at he
      cases he
      exact ⟨.enrolling h rfl hk' hlife,ordinary_map _⟩
    · cases he
      exact ⟨.equipping h rfl rfl trivial hlife,ordinary_map _⟩
  | _ => cases ha

theorem serving_start {call : InitCall} (hq : s.queue = some (Queue.registered 1))
    (hid : s.consumerId = 0) (hsink : s.sink = true) (hi : s.initialized = false) :
    Serving S u d { s with drainSpawned := true, drainEnded := false, stop := false }
      (.init call .storeInitialized) .waiting (Queue.registered 1) [] where
  queue := hq
  run := by
    have hlocals : (fun t => queueLocal (duo u d (.init call .storeInitialized) .waiting t)) =
        (Config.start 1 : Config LogEntry).locals := by
      funext t
      unfold duo
      split_ifs <;> rfl
    rw [hlocals]
    exact .start
  active := rfl
  consumer := hid
  sink := hsink
  notEnded := rfl
  caller := by
    rw [hi]
    rfl
  pushing := by simp
  drain := Or.inl ⟨rfl,rfl⟩
  final hf := hf.elim

theorem equipping_step {call : InitCall} {ipc : InitPc} (h : Resting s)
    (hq : s.queue = some (Queue.registered 1)) (hid : s.consumerId = 0)
    (hpc : Equipping s.sink ipc) (hb : Bare (queueEvents (life tr)))
    (ha : loggerAct S date u m s (.init call ipc) = some (s',l',fs))
    (hfs : ∀ what, .initThrew u what ∉ fs) :
    Stage S u d s' l' .waiting (tr++fs) := by
  cases m with
  | go =>
    cases ipc with
    | createSink =>
      cases he : call.sinkError with
      | none =>
        simp only [loggerAct,init,he] at ha
        cases ha
        rw [List.append_nil]
        exact .equipping h hq hid rfl hb
      | some what =>
        simp only [loggerAct,init,he] at ha
        cases ha
        exact absurd (List.mem_singleton_self _) (hfs what)
    | createFormatter =>
      simp only [loggerAct,init] at ha
      split_ifs at ha <;> cases ha <;> rw [List.append_nil] <;>
        exact .equipping h hq hid hpc hb
    | storeRunning =>
      cases ha
      rw [List.append_nil]
      exact .equipping h hq hid hpc hb
    | spawn =>
      cases ha
      rw [List.append_nil]
      exact .serving (List.append_nil _).symm hb (serving_start hq hid hpc h.2)
    | _ => exact hpc.elim
  | _ => cases ha

theorem closing_step (h : Resting s) (hq : s.queue.isSome = true) (hl : Closing l)
    (hp : Popped (queueEvents (life tr))) (ha : loggerAct S date u m s l = some (s',l',fs)) :
    Stage S u d s' l' .waiting (tr++fs) := by
  obtain ⟨q,hq⟩ := Option.isSome_iff_exists.mp hq
  have hkeep : ∀ {gs : List (Event LogEntry)}, Bare gs → Popped (queueEvents (life
      (tr++gs.map LoggerEvent.queue))) := by
    intro gs hgs
    rw [life_ordinary (ordinary_map gs),queueEvents_append,queueEvents_map]
    exact popped_bare hp hgs
  cases l with
  | shutdown spc =>
    cases m with
    | go =>
      cases spc with
      | join =>
        simp only [loggerAct,shutdown] at ha
        split_ifs at ha
        obtain ⟨⟨v,k,gs⟩,hv,he⟩ := Option.map_eq_some_iff.mp ha
        obtain ⟨q',hact,rfl⟩ := onQueue_some hq hv
        cases hact
        cases he
        exact .closing h rfl trivial (hkeep ⟨rfl,by simp⟩)
      | unregister k =>
        obtain ⟨⟨v,k',gs⟩,hv,he⟩ := Option.map_eq_some_iff.mp ha
        obtain ⟨q',hact,rfl⟩ := onQueue_some hq hv
        cases k with
        | unregisterStoreActive c =>
          cases hact
          cases he
          exact .closing h rfl trivial (hkeep ⟨rfl,by simp⟩)
        | _ => exact hl.elim
      | resetQueue =>
        simp only [loggerAct,shutdown,Logger.dropQueue,hq] at ha
        cases ha
        exact .down h rfl trivial
      | _ => exact hl.elim
    | _ => cases ha
  | _ => exact hl.elim

theorem stage_caller (h : Stage S u d s l pc tr)
    (ha : loggerAct S date u m s l = some (s',l',fs)) (hfs : ∀ what, .initThrew u what ∉ fs) :
    Stage S u d s' l' pc (tr++fs) := by
  cases h with
  | down h hq hl => exact down_step h hq hl ha
  | enrolling h hq hk hb => exact (enrolling_step h hq hk hb ha).1
  | equipping h hq hid hpc hb => exact equipping_step h hq hid hpc hb ha hfs
  | serving he hb h =>
    obtain ⟨q',hs⟩ := serving_caller h ha
    exact .serving (life_served he (caller_ordinary h.caller ha)) hb hs
  | left h hend hq hp =>
    cases m with
    | go =>
      simp only [loggerAct,shutdown,hend] at ha
      cases ha
    | _ => cases ha
  | closing h hq hl hp => exact closing_step h hq hl hp ha

theorem equipping_emits {call : InitCall} {ipc : InitPc} {b : Bool} (h : Equipping b ipc) :
    ¬Emits (.init call ipc) .destroyed := by
  intro hemits
  cases ipc <;> first | exact hemits.elim | exact h.elim

theorem stage_destroyed (h : Stage S u d s l pc tr)
    (ha : loggerAct S date u m s l = some (s',l',fs)) (hmem : .destroyed ∈ fs) :
    fs = [.destroyed] ∧ Popped (queueEvents (life tr)) := by
  have hemits : Emits l .destroyed := act_emits ha _ hmem
  cases h with
  | down h hq hl =>
    cases l with
    | init call ipc =>
      cases ipc with
      | createQueue =>
        cases m with
        | go =>
          simp only [loggerAct,init,Logger.dropQueue,hq] at ha
          cases ha
          simp at hmem
        | _ => cases ha
      | _ => exact hemits.elim
    | shutdown spc => cases spc <;> first | exact hemits.elim | exact hl.elim
    | drain dpc => exact hl.elim
    | _ => exact hemits.elim
  | enrolling h hq hk hb => exact hemits.elim
  | equipping h hq hid hpc hb => exact (equipping_emits hpc hemits).elim
  | serving he hb h => exact (caller_ordinary h.caller ha _ hmem).elim
  | left h hend hq hp => exact hemits.elim
  | closing h hq hl hp =>
    cases l with
    | shutdown spc =>
      cases spc with
      | resetQueue =>
        cases m with
        | go =>
          simp only [loggerAct,shutdown,Logger.dropQueue,hq] at ha
          cases ha
          exact ⟨rfl,hp⟩
        | _ => cases ha
      | _ => exact hemits.elim
    | _ => exact hl.elim

theorem stage_drain (hud : u ≠ d) (h : Stage S u d s l pc tr)
    (hd : drainLoop S date d s pc = some (s',pc',fs)) : Stage S u d s' l pc' (tr++fs) := by
  have hrest : Resting s → pc ≠ .waiting := by
    rintro hr rfl
    have hnone : drainLoop S date d s .waiting = none := by simp [drainLoop,hr.1]
    rw [hnone] at hd
    cases hd
  cases h with
  | down h => exact absurd rfl (hrest h)
  | enrolling h => exact absurd rfl (hrest h)
  | equipping h => exact absurd rfl (hrest h)
  | closing h => exact absurd rfl (hrest h)
  | serving he hb h =>
    have hlife := life_served he (drain_ordinary hd)
    rcases serving_drain hud h hd with ⟨q',hs⟩ | ⟨rfl,hs⟩
    · exact .serving hlife hb hs
    · obtain rfl := hs.caller
      apply Stage.left ⟨hs.spawned,hs.initialized⟩ hs.notEnded hs.queue
      rw [hlife]
      exact bare_popped hb hs.popped
  | left h hend hq hp =>
    cases hd
    rw [List.append_nil]
    exact .closing h hq trivial hp

theorem threw_from {t : ℕ} {what : String} (ha : loggerAct S date u m s l = some (s',l',fs))
    (hw : .initThrew t what ∈ fs) :
    (∃ call, l = .init call .createSink ∧ call.sinkError = some what ∧ s' = s ∧ l' = .idle) ∨
      ∃ call k, l = .init call (.register k) := by
  have hemits : Emits l (.initThrew t what) := act_emits ha _ hw
  cases l with
  | init call ipc =>
    cases ipc with
    | register k => exact Or.inr ⟨call,k,rfl⟩
    | createSink =>
      have herror : call.sinkError = some what := hemits
      cases m with
      | go =>
        simp only [loggerAct,init,herror] at ha
        cases ha
        exact Or.inl ⟨call,rfl,herror,rfl,rfl⟩
      | _ => cases ha
    | _ => exact hemits.elim
  | drain dpc => cases dpc <;> exact hemits.elim
  | shutdown spc => cases spc <;> exact hemits.elim
  | _ => exact hemits.elim

/-- The caller's initialisation throws where it constructs the sink, beside a queue. -/
theorem stage_threw {what : String} (h : Stage S u d s l pc tr)
    (ha : loggerAct S date u m s l = some (s',l',fs)) (hw : .initThrew u what ∈ fs) :
    (∃ call, l = .init call .createSink ∧ call.sinkError = some what) ∧ s' = s ∧ l' = .idle ∧
      s.queue = some (Queue.registered 1) ∧ Resting s := by
  rcases threw_from ha hw with ⟨call,rfl,he,rfl,rfl⟩ | ⟨call,k,rfl⟩
  · refine ⟨⟨call,rfl,he⟩,rfl,rfl,?_⟩
    cases h with
    | down h hq hl => exact hl.elim
    | equipping h hq hid hpc hb => exact ⟨hq,h⟩
    | serving hes hb h => cases h.caller
    | closing h hq hl hp => exact hl.elim
  · cases h with
    | down h hq hl => exact hl.elim
    | enrolling h hq hk hb => exact ((enrolling_step (d := d) h hq hk hb ha).2 _ hw).elim
    | equipping h hq hid hpc hb => exact hpc.elim
    | serving hes hb h => cases h.caller
    | closing h hq hl hp => exact hl.elim

end Stages

def FailedInit (S : RingSize) (date : ℕ → DatePrefix) (u : ℕ)
    (ok : Guard ℕ LoggerMove Logger Thread) (c₀ c c' : LoggerConf) : Prop :=
  ∃ call c₁ c₂ tr es tr' es' what, (logger S date).Run ok c₀ c tr ∧
    ok c u (.init call) ∧ (logger S date).step c u (.init call) = some (c₁,es) ∧
    (logger S date).Run ok c₁ c₂ tr' ∧ .initReturned u ∉ tr' ∧ (∀ w, .initThrew u w ∉ tr') ∧
    ok c₂ u .go ∧ (logger S date).step c₂ u .go = some (c',es') ∧ .initThrew u what ∈ es'

section Runs

variable {S : RingSize} {date : ℕ → DatePrefix} {u d : ℕ} {c c' : LoggerConf}
  {tr : List LoggerEvent}

theorem emptied_next {fs : List LoggerEvent} (h : Emptied tr)
    (hes : .destroyed ∈ fs → fs = [.destroyed] ∧ Popped (queueEvents (life tr))) :
    Emptied (tr++fs) := by
  by_cases hmem : .destroyed ∈ fs
  · obtain ⟨rfl,hp⟩ := hes hmem
    exact emptied_destroyed h hp
  · exact emptied_append h hmem

theorem run_staged (hud : u ≠ d) (r : (logger S date).Run (OneCaller u d) (LoggerConf.start d) c tr)
    (hno : ∀ what, .initThrew u what ∉ tr) :
    ∃ s l pc, c = ⟨s,duo u d l pc⟩ ∧ Stage S u d s l pc tr ∧ Emptied tr := by
  induction r with
  | start =>
    have hstart : LoggerConf.start d = ⟨.fresh,duo u d .idle .waiting⟩ := by
      rw [← start_duo hud]
      rfl
    exact ⟨_,_,_,hstart,.down ⟨rfl,rfl⟩ rfl trivial,emptied_nil⟩
  | @next _ _ tr es _ _ r g hstep ih =>
    obtain ⟨s,l,pc,rfl,hstage,hemptied⟩ := ih fun what hw => hno what (List.mem_append_left _ hw)
    have hes : ∀ what, .initThrew u what ∉ es := fun what hw =>
      hno what (List.mem_append_right _ hw)
    rcases g with rfl | rfl
    · obtain ⟨s',l',ha,rfl⟩ := caller_step hstep
      exact ⟨s',l',pc,rfl,stage_caller hstage ha hes,
        emptied_next hemptied (stage_destroyed hstage ha)⟩
    · obtain ⟨s',pc',hd,rfl⟩ := drain_thread_step hud hstep
      have hes' := drain_ordinary hd
      exact ⟨s',l,pc',rfl,stage_drain hud hstage hd,
        emptied_append hemptied fun hmem => hes' _ hmem⟩

/-- A sink that is constructed lets no initialisation throw. -/
theorem run_succeeding (hud : u ≠ d)
    (r : (logger S date).Run (Succeeding u d) (LoggerConf.start d) c tr) :
    ∀ what, .initThrew u what ∉ tr := by
  induction r with
  | start => simp
  | @next _ _ tr es _ _ r g hstep ih =>
    intro what hw
    obtain ⟨s,l,pc,rfl,hstage,-⟩ := run_staged hud (r.mono fun _ _ _ g => g.1) ih
    have hes : .initThrew u what ∈ es := (List.mem_append.mp hw).resolve_left (ih what)
    rcases g.1 with rfl | rfl
    · obtain ⟨s',l',ha,rfl⟩ := caller_step hstep
      obtain ⟨⟨call,rfl,herror⟩,-⟩ := stage_threw hstage ha hes
      have hnone := g.2 call duo_caller
      rw [herror] at hnone
      cases hnone
    · obtain ⟨s',pc',hd,rfl⟩ := drain_thread_step hud hstep
      exact drain_ordinary hd _ hes

/-- Between calls the logger has a queue exactly when it is initialised. -/
theorem staged_queue {s : Logger} {pc : DrainPc} (h : Stage S u d s .idle pc tr) :
    s.queue = none ↔ s.initialized = false := by
  cases h with
  | down h hq hl => exact ⟨fun _ => h.2,fun _ => hq⟩
  | serving he hb h =>
    obtain ⟨hi,-⟩ := Prod.mk.inj (Option.some.inj h.caller)
    rw [h.queue,← hi]
    exact ⟨nofun,nofun⟩
  | closing h hq hl hp => exact hl.elim

/-- The first exception leaves a queue to a logger that is not initialised. -/
theorem threw_queue {es : List LoggerEvent} {what : String} (hud : u ≠ d)
    (r : (logger S date).Run (OneCaller u d) (LoggerConf.start d) c tr)
    (hno : ∀ w, .initThrew u w ∉ tr) (hstep : (logger S date).step c u .go = some (c',es))
    (hw : .initThrew u what ∈ es) :
    c'.locals u = .idle ∧ c'.shared.queue ≠ none ∧ c'.shared.initialized = false := by
  obtain ⟨s,l,pc,rfl,hstage,-⟩ := run_staged hud r hno
  obtain ⟨s',l',ha,rfl⟩ := caller_step hstep
  obtain ⟨-,rfl,rfl,hq,hrest⟩ := stage_threw hstage ha hw
  refine ⟨duo_caller,?_,hrest.2⟩
  show s'.queue ≠ none
  rw [hq]
  exact nofun

theorem no_failed_init (hud : u ≠ d) :
    ¬FailedInit S date u (Succeeding u d) (LoggerConf.start d) c c' := by
  rintro ⟨call,c₁,c₂,tr,es,tr',es',what,r,g,hcall,r',-,-,g',hthrow,hw⟩
  exact run_succeeding hud (((r.next g hcall).trans r').next g' hthrow) what
    (List.mem_append_right _ hw)

end Runs

/-- One thread initialises, pushes and shuts down in any order. In every run in
which no sink fails to be constructed, no initialisation fails, the logger has a
queue between calls exactly when it is initialised, and every entry was popped
before its queue was destroyed. The first failure ends this: it leaves a queue to
a logger that is not initialised. -/
theorem lifecycle_kept (S : RingSize) (date : ℕ → DatePrefix) (u d : ℕ) (hud : u ≠ d) :
    (∀ c c', ¬FailedInit S date u (Succeeding u d) (LoggerConf.start d) c c') ∧
    (∀ c tr, (logger S date).Run (Succeeding u d) (LoggerConf.start d) c tr →
      (c.locals u = .idle → (c.shared.queue = none ↔ c.shared.initialized = false)) ∧
      Emptied tr) ∧
    ∀ c c' tr es what, (logger S date).Run (OneCaller u d) (LoggerConf.start d) c tr →
      (∀ w, .initThrew u w ∉ tr) → (logger S date).step c u .go = some (c',es) →
      .initThrew u what ∈ es →
      c'.locals u = .idle ∧ c'.shared.queue ≠ none ∧ c'.shared.initialized = false := by
  refine ⟨fun c c' => no_failed_init hud,?_,?_⟩
  · intro c tr r
    obtain ⟨s,l,pc,rfl,hstage,hemptied⟩ :=
      run_staged hud (r.mono fun _ _ _ g => g.1) (run_succeeding hud r)
    refine ⟨fun hidle => ?_,hemptied⟩
    have hl : duo u d l pc u = .idle := hidle
    rw [duo_caller] at hl
    rw [hl] at hstage
    exact staged_queue hstage
  · intro c c' tr es what r hno hstep hw
    exact threw_queue hud r hno hstep hw

def succeedingCheck (u d : ℕ) (c : LoggerConf) (t : ℕ) (_ : LoggerMove) : Bool :=
  (decide (t = u) || decide (t = d)) && match c.locals t with
    | .init call .createSink => call.sinkError.isNone
    | _ => true

theorem succeeding_of_check (u d : ℕ) (c : LoggerConf) (t : ℕ) (m : LoggerMove)
    (h : succeedingCheck u d c t m = true) : Succeeding u d c t m := by
  obtain ⟨ht,hsink⟩ := Bool.and_eq_true_iff.mp h
  constructor
  · simpa [OneCaller] using ht
  · intro call hcall
    rw [hcall] at hsink
    exact Option.isNone_iff_eq_none.mp hsink

def oneLife : List (ℕ × LoggerMove) :=
  (1,.init binaryInit)::List.replicate 13 (1,.go)++pushMoves 1 7++
    (1,.shutdown)::List.replicate 3 (1,.go)++List.replicate 26 (0,.go)++List.replicate 3 (1,.go)

theorem lifecycle_kept_one_life : ∃ c tr,
    (logger queueSize noDate).Run (Succeeding 1 0) (LoggerConf.start 0) c tr ∧
    Event.pushed 1 0 emptyEntry ∈ queueEvents tr ∧ c.shared.queue = none ∧ Emptied tr := by
  obtain ⟨c,tr,r,h⟩ := exec_any (logger queueSize noDate) (LoggerConf.start 0)
    (succeeding_of_check 1 0) oneLife
    (fun p => decide (Event.pushed 1 0 emptyEntry ∈ queueEvents p.2) && p.1.shared.queue.isNone)
    (by decide +kernel)
  obtain ⟨hpush,hq⟩ := Bool.and_eq_true_iff.mp h
  have hkept := (lifecycle_kept queueSize noDate 1 0 (by decide)).2.1 c tr r
  exact ⟨c,tr,r,of_decide_eq_true hpush,Option.isNone_iff_eq_none.mp hq,hkept.2⟩

def oneCallerCheck (u d : ℕ) (_ : LoggerConf) (t : ℕ) (_ : LoggerMove) : Bool :=
  decide (t = u) || decide (t = d)

theorem oneCaller_of_check (u d : ℕ) (c : LoggerConf) (t : ℕ) (m : LoggerMove)
    (h : oneCallerCheck u d c t m = true) : OneCaller u d c t m := by
  simpa [oneCallerCheck,OneCaller] using h

def failingInit : InitCall :=
  ⟨{ minLevel := .warn },some "MMapSink: failed to open app.log: Permission denied",
    binaryInit.datePrefix⟩

def atCreateSink : Thread → Bool
  | .init call .createSink => call.sinkError.isSome
  | _ => false

theorem createSink_throws (S : RingSize) (date : ℕ → DatePrefix) {c : LoggerConf} {t : ℕ}
    (h : atCreateSink (c.locals t) = true) : ∃ what,
    (logger S date).step c t .go =
      some (⟨c.shared,Function.update c.locals t .idle⟩,[.initThrew t what]) := by
  unfold atCreateSink at h
  split at h
  · next call hl =>
    obtain ⟨what,he⟩ := Option.isSome_iff_exists.mp h
    exact ⟨what,by simp [System.step,logger,hl,loggerAct,init,he]⟩
  · cases h

def atCreateQueue : Thread → Bool
  | .init _ .createQueue => true
  | _ => false

theorem createQueue_destroys (S : RingSize) (date : ℕ → DatePrefix) {c : LoggerConf} {t : ℕ}
    (h : atCreateQueue (c.locals t) = true) (hq : c.shared.queue.isSome = true) : ∃ c' es,
    (logger S date).step c t .go = some (c',.destroyed::es) := by
  unfold atCreateQueue at h
  split at h
  · next call hl =>
    simp [System.step,logger,hl,loggerAct,init,Logger.dropQueue,hq]
  · cases h

def endsInit : LoggerEvent → Bool
  | .initReturned _ | .initThrew .. => true
  | _ => false

theorem failed_init_changes : ∃ c,
    FailedInit queueSize noDate 1 (OneCaller 1 0) (LoggerConf.start 0) (LoggerConf.start 0) c ∧
    c.shared.queue ≠ none ∧ c.shared.minLevel = .warn := by
  obtain ⟨c,tr,r,h⟩ := exec_any (logger queueSize noDate)
    ⟨.fresh,Function.update (LoggerConf.start 0).locals 1 (.init failingInit .test)⟩
    (oneCaller_of_check 1 0) (List.replicate 8 (1,.go))
    (fun p => atCreateSink (p.1.locals 1) && (p.1.shared.queue.isSome &&
      (decide (p.1.shared.minLevel = .warn) &&
        p.2.all fun e => !endsInit e))) (by decide +kernel)
  obtain ⟨hl,h⟩ := Bool.and_eq_true_iff.mp h
  obtain ⟨hq,h⟩ := Bool.and_eq_true_iff.mp h
  obtain ⟨hlevel,htr⟩ := Bool.and_eq_true_iff.mp h
  obtain ⟨what,hthrow⟩ := createSink_throws queueSize noDate hl
  refine ⟨_,⟨failingInit,_,c,[],[],tr,_,what,.start,Or.inl rfl,rfl,r,?_,?_,Or.inl rfl,hthrow,
    List.mem_singleton_self _⟩,?_,of_decide_eq_true hlevel⟩
  · intro hmem
    simpa [endsInit] using List.all_eq_true.mp htr _ hmem
  · intro w hmem
    simpa [endsInit] using List.all_eq_true.mp htr _ hmem
  · exact Option.isSome_iff_ne_none.mp hq

/-- After it, an entry is accepted and destroyed with its queue by the next one. -/
theorem failed_init_loses : ∃ c tr,
    (logger queueSize noDate).Run (OneCaller 1 0) (LoggerConf.start 0) c tr ∧
    Event.pushed 1 0 emptyEntry ∈ queueEvents tr ∧ ¬Emptied tr := by
  obtain ⟨c,tr,r,h⟩ := exec_any (logger queueSize noDate) (LoggerConf.start 0)
    (oneCaller_of_check 1 0)
    ((1,.init failingInit)::List.replicate 9 (1,.go)++pushMoves 1 7++
      (1,.init failingInit)::List.replicate 3 (1,.go))
    (fun p => atCreateQueue (p.1.locals 1) && (p.1.shared.queue.isSome &&
      decide (Event.pushed 1 0 emptyEntry ∈ queueEvents p.2 ∧
        Event.pushed 1 0 emptyEntry ∈ queueEvents (life p.2) ∧
        pops 0 (queueEvents (life p.2)) = []))) (by decide +kernel)
  obtain ⟨hl,h⟩ := Bool.and_eq_true_iff.mp h
  obtain ⟨hq,h⟩ := Bool.and_eq_true_iff.mp h
  obtain ⟨hpush,hlife,hnone⟩ := of_decide_eq_true h
  obtain ⟨c',es,hstep⟩ := createQueue_destroys queueSize noDate hl hq
  refine ⟨c',_,r.next (Or.inl rfl) hstep,?_,?_⟩
  · rw [queueEvents_append]
    exact List.mem_append_left _ hpush
  · intro h
    have hlost := h tr (by simp) 1 0 emptyEntry hlife
    rw [hnone] at hlost
    cases hlost

/-- A failed initialisation has changed the level and left a queue, and what this
queue accepts is lost. -/
theorem failed_init_kept : (∃ c,
    FailedInit queueSize noDate 1 (OneCaller 1 0) (LoggerConf.start 0) (LoggerConf.start 0) c ∧
      c.shared.queue ≠ (LoggerConf.start 0).shared.queue ∧
      c.shared.minLevel ≠ (LoggerConf.start 0).shared.minLevel) ∧
    ∃ c tr, (logger queueSize noDate).Run (OneCaller 1 0) (LoggerConf.start 0) c tr ∧
      Event.pushed 1 0 emptyEntry ∈ queueEvents tr ∧ ¬Emptied tr := by
  obtain ⟨c,h,hq,hlevel⟩ := failed_init_changes
  refine ⟨⟨c,h,hq,?_⟩,failed_init_loses⟩
  rw [hlevel]
  exact nofun

end MpmcLogger.LoggerLifecycle
