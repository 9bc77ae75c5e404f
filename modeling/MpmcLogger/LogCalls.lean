import MpmcLogger.EntryOrigin
import MpmcLogger.LogMacro

/-!
# The calls of a program

Between a thread of the program and the queue stand the macros. An expansion
reads the minimum level once, builds its entry and pushes it; the raw macro pushes
the entry it is given. Any thread may change the level at any time.
-/

set_option autoImplicit false

namespace MpmcLogger.LogCalls
open Interleaving CopiedCell MachineWord MpmcLogger.QueueMachine MpmcLogger.QueueHistory
open MpmcLogger.EntryLayout MpmcLogger.Formatter MpmcLogger.LoggerMachine MpmcLogger.LoggerSetup
open MpmcLogger.LoggerDrain MpmcLogger.EntryOrigin MpmcLogger.LogMacro

def ShouldLog (s : Logger) (level : LogLevel) : Prop := s.minLevel.value ≤ level.value

instance (s : Logger) (level : LogLevel) : Decidable (ShouldLog s level) :=
  inferInstanceAs (Decidable (_ ≤ _))

/-- The logging macro comes with what the stack held where it builds its entry. -/
inductive ApiMove where
  | log (call : LogCall) (stack : Payload)
  | raw (e : LogEntry)
  | setLevel (level : LogLevel)
  | logger (m : LoggerMove)

inductive ApiThread where
  | inLogger (l : Thread)
  | testLevel (call : LogCall) (stack : Payload)
  | storeLevel (level : LogLevel)

inductive ApiEvent where
  | logger (e : LoggerEvent)
  | passed (t : ℕ) (e : LogEntry) (minLevel : LogLevel)
  | filtered (t : ℕ) (call : LogCall) (minLevel : LogLevel)
  | raw (t : ℕ) (e : LogEntry)
  | levelSet (t : ℕ) (level : LogLevel)

section Act

variable (S : RingSize) (date : ℕ → DatePrefix) (t : ℕ)

def apiAct : ApiMove → Logger → ApiThread → Option (Logger × ApiThread × List ApiEvent)
  | .log call stack, s, .inLogger .idle => some (s,.testLevel call stack,[])
  | .raw e, s, .inLogger .idle => some (s,.inLogger (.pushTest e),[.raw t e])
  | .setLevel level, s, .inLogger .idle => some (s,.storeLevel level,[])
  | .logger .go, s, .testLevel call stack =>
    if ShouldLog s call.level then
      some (s,.inLogger (.pushTest (call.entry stack)),[.passed t (call.entry stack) s.minLevel])
    else some (s,.inLogger .idle,[.filtered t call s.minLevel])
  | .logger .go, s, .storeLevel level =>
    some ({ s with minLevel := level },.inLogger .idle,[.levelSet t level])
  | .logger (.push _), _, _ => none
  | .logger m, s, .inLogger l => (loggerAct S date t m s l).map fun r =>
      (r.1,.inLogger r.2.1,r.2.2.map .logger)
  | _, _, _ => none

end Act

def api (S : RingSize) (date : ℕ → DatePrefix) : System ℕ ApiMove Logger ApiThread ApiEvent :=
  ⟨apiAct S date⟩

abbrev ApiConf := Conf ℕ Logger ApiThread

def inCalls (c : LoggerConf) : ApiConf := ⟨c.shared,fun t => .inLogger (c.locals t)⟩

def inside : ApiEvent → Option LoggerEvent
  | .logger e => some e
  | _ => none

def submitted (tr : List ApiEvent) : List LogEntry :=
  tr.filterMap fun | .passed _ e _ | .raw _ e => some e | _ => none

@[simp] theorem submitted_append (tr es : List ApiEvent) :
    submitted (tr++es) = submitted tr++submitted es := List.filterMap_append

@[simp] theorem inside_map (es : List LoggerEvent) : (es.map ApiEvent.logger).filterMap inside = es := by
  induction es with
  | nil => rfl
  | cons e es ih => exact congrArg (e::·) ih

@[simp] theorem submitted_map (es : List LoggerEvent) : submitted (es.map .logger) = [] := by
  induction es with
  | nil => rfl
  | cons e es ih => exact ih

section Steps

variable {S : RingSize} {date : ℕ → DatePrefix} {t : ℕ} {m : ApiMove} {s s' : Logger}
  {l l' : ApiThread} {es : List ApiEvent}

inductive ApiStep (S : RingSize) (date : ℕ → DatePrefix) (t : ℕ) :
    ApiMove → Logger → ApiThread → Logger → ApiThread → List ApiEvent → Prop
  | log (s : Logger) (call : LogCall) (stack : Payload) :
      ApiStep S date t (.log call stack) s (.inLogger .idle) s (.testLevel call stack) []
  | raw (s : Logger) (e : LogEntry) :
      ApiStep S date t (.raw e) s (.inLogger .idle) s (.inLogger (.pushTest e)) [.raw t e]
  | setLevel (s : Logger) (level : LogLevel) :
      ApiStep S date t (.setLevel level) s (.inLogger .idle) s (.storeLevel level) []
  | passes (s : Logger) (call : LogCall) (stack : Payload) (h : ShouldLog s call.level) :
      ApiStep S date t (.logger .go) s (.testLevel call stack) s
        (.inLogger (.pushTest (call.entry stack))) [.passed t (call.entry stack) s.minLevel]
  | filters (s : Logger) (call : LogCall) (stack : Payload) (h : ¬ShouldLog s call.level) :
      ApiStep S date t (.logger .go) s (.testLevel call stack) s (.inLogger .idle)
        [.filtered t call s.minLevel]
  | stores (s : Logger) (level : LogLevel) :
      ApiStep S date t (.logger .go) s (.storeLevel level) { s with minLevel := level }
        (.inLogger .idle) [.levelSet t level]
  | within (s s' : Logger) (m : LoggerMove) (l l' : Thread) (es : List LoggerEvent)
      (hm : ∀ e, m ≠ .push e) (h : loggerAct S date t m s l = some (s',l',es)) :
      ApiStep S date t (.logger m) s (.inLogger l) s' (.inLogger l') (es.map .logger)

theorem within_step {m : LoggerMove} {l : Thread} (hm : ∀ e, m ≠ .push e)
    (h : (loggerAct S date t m s l).map (fun r => (r.1,ApiThread.inLogger r.2.1,
      r.2.2.map ApiEvent.logger)) = some (s',l',es)) :
    ApiStep S date t (.logger m) s (.inLogger l) s' l' es := by
  obtain ⟨⟨u,k,fs⟩,hu,he⟩ := Option.map_eq_some_iff.mp h
  cases he
  exact .within s u m l k fs hm hu

theorem api_step (h : apiAct S date t m s l = some (s',l',es)) :
    ApiStep S date t m s l s' l' es := by
  cases l with
  | inLogger k =>
    cases m with
    | logger m =>
      cases m with
      | push e => cases k <;> cases h
      | _ => cases k <;> exact within_step (by simp) h
    | log call stack =>
      cases k with
      | idle =>
        cases h
        exact .log s call stack
      | _ => cases h
    | raw e =>
      cases k with
      | idle =>
        cases h
        exact .raw s e
      | _ => cases h
    | setLevel level =>
      cases k with
      | idle =>
        cases h
        exact .setLevel s level
      | _ => cases h
  | testLevel call stack =>
    cases m with
    | logger m =>
      cases m with
      | go =>
        simp only [apiAct] at h
        split_ifs at h with hp
        · cases h
          exact .passes s call stack hp
        · cases h
          exact .filters s call stack hp
      | _ => cases h
    | _ => cases h
  | storeLevel level =>
    cases m with
    | logger m =>
      cases m with
      | go =>
        cases h
        exact .stores s level
      | _ => cases h
    | _ => cases h

end Steps

section Level

variable {S : RingSize} {date : ℕ → DatePrefix} {t : ℕ} {v : LogLevel} {s : Logger}

def atLevel (v : LogLevel) (s : Logger) : Logger := { s with minLevel := v }

def stepAt {α : Type*} (v : LogLevel) (r : Logger × α) : Logger × α := (atLevel v r.1,r.2)

theorem onQueue_level {m : Move LogEntry} {l : Local LogEntry} :
    (atLevel v s).onQueue S t m l = (s.onQueue S t m l).map (stepAt v) := by
  unfold Logger.onQueue atLevel
  cases s.queue with
  | none => rfl
  | some q => simp [Function.comp_def,stepAt,atLevel]

theorem drainLoop_level (pc : DrainPc) :
    drainLoop S date t (atLevel v s) pc = (drainLoop S date t s pc).map (stepAt v) := by
  have hcall : ∀ ph, (atLevel v s).callPop S t ph = (s.callPop S t ph).map (stepAt v) := by
    intro ph
    unfold Logger.callPop
    rw [show (atLevel v s).consumerId = s.consumerId from rfl,onQueue_level]
    simp [Function.comp_def,stepAt]
  cases pc with
  | pop ph l => simp [drainLoop,onQueue_level,Function.comp_def,stepAt]
  | stragglers => exact hcall .final
  | batch i gotAny n =>
    simp only [drainLoop,hcall]
    rw [show (atLevel v s).drainBatchSize = s.drainBatchSize from rfl]
    split_ifs <;> rfl
  | waiting =>
    simp only [drainLoop]
    rw [show (atLevel v s).drainSpawned = s.drainSpawned from rfl]
    split_ifs <;> rfl
  | testStop n =>
    simp only [drainLoop]
    rw [show (atLevel v s).stop = s.stop from rfl]
    split_ifs <;> rfl
  | hand ph item =>
    cases item with
    | none => rfl
    | some e =>
      simp only [drainLoop,Logger.hand,Option.map_map]
      rfl
  | loop n | count ph item | left => rfl

theorem shutdown_level (pc : ShutdownPc) :
    shutdown S t (atLevel v s) pc = (shutdown S t s pc).map (stepAt v) := by
  cases pc with
  | exchange =>
    simp only [shutdown]
    rw [show (atLevel v s).initialized = s.initialized from rfl]
    split_ifs <;> rfl
  | join =>
    simp only [shutdown]
    rw [show (atLevel v s).drainEnded = s.drainEnded from rfl,
      show (atLevel v s).consumerId = s.consumerId from rfl,onQueue_level]
    split_ifs
    · simp [Function.comp_def,stepAt]
    · rfl
  | unregister l => simp [shutdown,onQueue_level,Function.comp_def,stepAt]
  | storeRunning | requestStop | resetQueue | resetSink | resetFormatter => rfl

def NotInit : Thread → Prop
  | .init _ _ => False
  | _ => True

theorem loggerAct_level {m : LoggerMove} {l : Thread} (hl : NotInit l) :
    loggerAct S date t m (atLevel v s) l = (loggerAct S date t m s l).map (stepAt v) := by
  have hpush : ∀ (m : Move LogEntry) (k : Local LogEntry),
      (atLevel v s).pushStep S t m k = (s.pushStep S t m k).map (stepAt v) := by
    intro m k
    simp [Logger.pushStep,onQueue_level,Function.comp_def,stepAt]
  cases l with
  | idle => cases m <;> rfl
  | pushTest e =>
    cases m with
    | go =>
      simp only [loggerAct]
      rw [show (atLevel v s).queue = s.queue from rfl]
      cases s.queue with
      | none => rfl
      | some q => exact hpush _ _
    | _ => rfl
  | push k =>
    cases m with
    | go | spurious => exact hpush _ _
    | _ => rfl
  | init c pc => exact hl.elim
  | shutdown pc =>
    cases m with
    | go => exact shutdown_level pc
    | _ => rfl
  | drain pc =>
    cases m with
    | go =>
      simp only [loggerAct,drainLoop_level,Option.map_map]
      rfl
    | _ => rfl

end Level

def threadOf : ApiThread → Thread
  | .inLogger l => l
  | _ => .idle

def levelAfter (v : LogLevel) : List ApiEvent → LogLevel
  | [] => v
  | .levelSet _ w::tr => levelAfter w tr
  | _::tr => levelAfter v tr

def Judged (v : LogLevel) : ApiEvent → Prop
  | .passed _ e w => w = v ∧ v.value ≤ e.level.value
  | .filtered _ call w => w = v ∧ call.level.value < v.value
  | _ => True

def AllJudged (v : LogLevel) : List ApiEvent → Prop
  | [] => True
  | e::tr => Judged v e ∧ AllJudged (levelAfter v [e]) tr

section Judgement

variable (v : LogLevel)

theorem levelAfter_cons (e : ApiEvent) (tr : List ApiEvent) :
    levelAfter v (e::tr) = levelAfter (levelAfter v [e]) tr := by
  cases e <;> rfl

theorem levelAfter_append (tr es : List ApiEvent) :
    levelAfter v (tr++es) = levelAfter (levelAfter v tr) es := by
  induction tr generalizing v with
  | nil => rfl
  | cons e tr ih => rw [List.cons_append,levelAfter_cons,ih,← levelAfter_cons]

theorem allJudged_append (tr es : List ApiEvent) :
    AllJudged v (tr++es) ↔ AllJudged v tr ∧ AllJudged (levelAfter v tr) es := by
  induction tr generalizing v with
  | nil => exact ⟨fun h => ⟨trivial,h⟩,And.right⟩
  | cons e tr ih => rw [List.cons_append,AllJudged,AllJudged,ih,levelAfter_cons v e tr,and_assoc]

theorem judged_within (es : List LoggerEvent) :
    levelAfter v (es.map .logger) = v ∧ AllJudged v (es.map .logger) := by
  induction es with
  | nil => exact ⟨rfl,trivial⟩
  | cons e es ih => exact ⟨ih.1,trivial,ih.2⟩

end Judgement

/-- Levels never set below `u` let nothing below `u` pass. -/
theorem judged_floor {u v w : LogLevel} {tr : List ApiEvent} {t : ℕ} {e : LogEntry}
    (hj : AllJudged v tr) (hv : u.value ≤ v.value)
    (hset : ∀ t w, .levelSet t w ∈ tr → u.value ≤ w.value) (he : .passed t e w ∈ tr) :
    u.value ≤ e.level.value := by
  induction tr generalizing v with
  | nil => cases he
  | cons f tr ih =>
    have hrest : ∀ t w, .levelSet t w ∈ tr → u.value ≤ w.value := fun t w h =>
      hset t w (List.mem_cons_of_mem _ h)
    have hnext : u.value ≤ (levelAfter v [f]).value := by
      cases f with
      | levelSet t w => exact hset t w List.mem_cons_self
      | _ => exact hv
    rcases List.mem_cons.mp he with rfl | he
    · exact UInt8.le_trans hv hj.1.2
    · exact ih hj.2 hnext hrest he

section Runs

variable {P : LogEntry → Prop} {S : RingSize} {date : ℕ → DatePrefix} {c₀ c c' : ApiConf}
  {ok : Guard ℕ ApiMove Logger ApiThread} {tr es : List ApiEvent} {t d : ℕ} {m : ApiMove}
  {s s' : Logger} {l l' : ApiThread} {call : InitCall}

theorem carries_api (hs : QueueStores P s) (hl : Carries P (threadOf l))
    (hp : ∀ e ∈ submitted es, P e) (h : ApiStep S date t m s l s' l' es) :
    QueueStores P s' ∧ Carries P (threadOf l') ∧ Writes P (es.filterMap inside) := by
  cases h with
  | raw s e => exact ⟨hs,hp e (List.mem_singleton_self e),writes_none rfl⟩
  | passes s call stack h => exact ⟨hs,hp _ (List.mem_singleton_self _),writes_none rfl⟩
  | within s s' m l l' es hm h =>
    rw [inside_map]
    refine carries_step ?_ hs hl h
    cases m with
    | push e => exact absurd rfl (hm e)
    | _ => trivial
  | _ => exact ⟨hs,trivial,writes_none rfl⟩

/-- Where nothing was held but entries of `P` and none but these are submitted,
none but these are written. -/
theorem run_carries (hs : QueueStores P c₀.shared) (hl : ∀ t, Carries P (threadOf (c₀.locals t)))
    (r : (api S date).Run ok c₀ c tr) (hp : ∀ e ∈ submitted tr, P e) :
    QueueStores P c.shared ∧ (∀ t, Carries P (threadOf (c.locals t))) ∧
      Writes P (tr.filterMap inside) := by
  induction r with
  | start => exact ⟨hs,hl,writes_none rfl⟩
  | @next c c' tr es t m r g h ih =>
    rw [submitted_append] at hp
    obtain ⟨hs,hl,hw⟩ := ih fun e he => hp e (List.mem_append_left _ he)
    obtain ⟨s',l',ha,rfl⟩ := step_some h
    obtain ⟨hs',hl',hw'⟩ := carries_api hs (hl t) (fun e he => hp e (List.mem_append_right _ he))
      (api_step ha)
    refine ⟨hs',?_,fun x hx => ?_⟩
    · exact (Function.forall_update_iff _ fun _ l => Carries P (threadOf l)).mpr
        ⟨hl',fun j _ => hl j⟩
    · rw [List.filterMap_append,sunk_append] at hx
      exact (List.mem_append.mp hx).elim (hw x) (hw' x)

theorem written_submitted (hs : QueueStores (· ∈ submitted tr) c₀.shared)
    (hl : ∀ t, Carries (· ∈ submitted tr) (threadOf (c₀.locals t)))
    (r : (api S date).Run ok c₀ c tr) : ∀ x ∈ sunk (tr.filterMap inside), x.1 ∈ submitted tr :=
  (run_carries hs hl r fun _ he => he).2.2

theorem notInit_shutdown {pc : ShutdownPc} {k : Thread} {fs : List LoggerEvent}
    (h : shutdown S t s pc = some (s',k,fs)) : NotInit k := by
  cases pc with
  | exchange =>
    simp only [shutdown] at h
    split_ifs at h <;> cases h <;> trivial
  | join =>
    simp only [shutdown] at h
    split_ifs at h
    obtain ⟨r,-,he⟩ := Option.map_eq_some_iff.mp h
    cases he
    trivial
  | unregister l =>
    obtain ⟨r,-,he⟩ := Option.map_eq_some_iff.mp h
    cases he
    trivial
  | storeRunning | requestStop | resetQueue | resetSink | resetFormatter =>
    cases h
    trivial

theorem notInit_step {m : LoggerMove} {k k' : Thread} {fs : List LoggerEvent} (hk : NotInit k)
    (hm : ∀ call, m ≠ .init call) (h : loggerAct S date t m s k = some (s',k',fs)) :
    NotInit k' := by
  have hpush : ∀ {m : Move LogEntry} {l : Local LogEntry},
      s.pushStep S t m l = some (s',k',fs) → NotInit k' := by
    intro m l hp
    obtain ⟨r,-,he⟩ := Option.map_eq_some_iff.mp hp
    cases he
    unfold pushing
    split <;> trivial
  cases k with
  | idle =>
    cases m with
    | init call => exact absurd rfl (hm call)
    | _ => cases h <;> trivial
  | pushTest e =>
    cases m with
    | go =>
      simp only [loggerAct] at h
      split at h
      · cases h
        trivial
      · exact hpush h
    | _ => cases h
  | push l =>
    cases m with
    | go | spurious => exact hpush h
    | _ => cases h
  | init call pc => exact hk.elim
  | shutdown pc =>
    cases m with
    | go => exact notInit_shutdown h
    | _ => cases h
  | drain pc =>
    cases m with
    | go =>
      obtain ⟨r,-,he⟩ := Option.map_eq_some_iff.mp h
      cases he
      trivial
    | _ => cases h

theorem minLevel_step {m : LoggerMove} {k k' : Thread} {fs : List LoggerEvent} (hk : NotInit k)
    (h : loggerAct S date t m s k = some (s',k',fs)) : s'.minLevel = s.minLevel := by
  have hlevel := @loggerAct_level S date t s.minLevel s m k hk
  rw [show atLevel s.minLevel s = s from rfl,h] at hlevel
  exact (congrArg Logger.minLevel (Prod.mk.inj (Option.some.inj hlevel)).1).trans rfl

def Opened : Guard ℕ ApiMove Logger ApiThread := fun _ _ m => ∀ call, m ≠ .logger (.init call)

theorem judged_api (hk : NotInit (threadOf l)) (hm : ∀ call, m ≠ .logger (.init call))
    (h : ApiStep S date t m s l s' l' es) : s'.minLevel = levelAfter s.minLevel es ∧
      NotInit (threadOf l') ∧ AllJudged s.minLevel es := by
  cases h with
  | passes s call stack h => exact ⟨rfl,trivial,⟨rfl,h⟩,trivial⟩
  | filters s call stack h => exact ⟨rfl,trivial,⟨rfl,UInt8.not_le.mp h⟩,trivial⟩
  | within s s' m l l' es _ h =>
    obtain ⟨hv,hj⟩ := judged_within s.minLevel es
    exact ⟨(minLevel_step hk h).trans hv.symm,
      notInit_step hk (fun call he => hm call (congrArg _ he)) h,hj⟩
  | raw s e => exact ⟨rfl,trivial,trivial,trivial⟩
  | stores s level => exact ⟨rfl,trivial,trivial,trivial⟩
  | _ => exact ⟨rfl,trivial,trivial⟩

theorem run_judged (hl : ∀ t, NotInit (threadOf (c₀.locals t)))
    (hok : ∀ c t m, ok c t m → Opened c t m) (r : (api S date).Run ok c₀ c tr) :
    c.shared.minLevel = levelAfter c₀.shared.minLevel tr ∧
      (∀ t, NotInit (threadOf (c.locals t))) ∧ AllJudged c₀.shared.minLevel tr := by
  induction r with
  | start => exact ⟨rfl,hl,trivial⟩
  | @next c c' tr es t m r g h ih =>
    obtain ⟨hv,hl,hj⟩ := ih
    obtain ⟨s',l',ha,rfl⟩ := step_some h
    obtain ⟨hv',hl',hj'⟩ := judged_api (hl t) (hok _ _ _ g) (api_step ha)
    refine ⟨?_,?_,?_⟩
    · rw [levelAfter_append,← hv]
      exact hv'
    · exact (Function.forall_update_iff _ fun _ l => NotInit (threadOf l)).mpr
        ⟨hl',fun j _ => hl j⟩
    · rw [allJudged_append,← hv]
      exact ⟨hj,hj'⟩

structure Below (c : ApiConf) (e : LoggerConf) : Prop where
  shared : ∃ v, e.shared = atLevel v c.shared
  locals : ∀ t, e.locals t = threadOf (c.locals t)
  opened : ∀ t, NotInit (e.locals t)

def UntilDrained (d : ℕ) : Guard ℕ ApiMove Logger ApiThread :=
  fun c t m => Opened c t m ∧ threadOf (c.locals d) ≠ .drain .left

theorem below_update {e : LoggerConf} {v : LogLevel} {k : Thread} (hb : Below c e)
    (hk : NotInit k) (hl : k = threadOf l') :
    Below ⟨s',Function.update c.locals t l'⟩ ⟨atLevel v s',Function.update e.locals t k⟩ where
  shared := ⟨v,rfl⟩
  locals j := by
    by_cases hj : j = t
    · subst hj
      simpa using hl
    · simpa [Function.update_of_ne hj] using hb.locals j
  opened := (Function.forall_update_iff _ fun _ l => NotInit l).mpr ⟨hk,fun j _ => hb.opened j⟩

theorem below_acts {e : LoggerConf} {m : LoggerMove} {fs : List LoggerEvent} {k : Thread}
    (hb : Below c e) (g : UntilLeft d e t m)
    (h : loggerAct S date t m c.shared (threadOf (c.locals t)) = some (s',k,fs))
    (hl : k = threadOf l') : ∃ e', (logger S date).Run (UntilLeft d) e e' fs ∧
      Below ⟨s',Function.update c.locals t l'⟩ e' := by
  obtain ⟨v,hv⟩ := hb.shared
  rw [← hb.locals t] at h
  have hact : loggerAct S date t m e.shared (e.locals t) = some (atLevel v s',k,fs) := by
    rw [hv,loggerAct_level (hb.opened t),h]
    rfl
  have r : (logger S date).Run (UntilLeft d) e
      ⟨atLevel v s',Function.update e.locals t k⟩ ([]++fs) := by
    apply System.Run.start.next (i := t) (m := m) g
    simp [System.step,logger,hact]
  exact ⟨_,r,below_update hb (notInit_step (hb.opened t) g.1 h) hl⟩

theorem below_rests {e : LoggerConf} (hb : Below c e) (hs : ∃ v, s' = atLevel v c.shared)
    (hl : threadOf l' = threadOf (c.locals t)) :
    Below ⟨s',Function.update c.locals t l'⟩ e where
  shared := by
    obtain ⟨v,rfl⟩ := hs
    obtain ⟨w,hw⟩ := hb.shared
    exact ⟨w,hw⟩
  locals j := by
    by_cases hj : j = t
    · subst hj
      simpa [hl] using hb.locals j
    · simpa [Function.update_of_ne hj] using hb.locals j
  opened := hb.opened

theorem below_step {e : LoggerConf} (hb : Below c e) (g : UntilDrained d c t m)
    (hs : c.shared = s) (hl : c.locals t = l) (h : ApiStep S date t m s l s' l' es) : ∃ e' fs,
      (logger S date).Run (UntilLeft d) e e' fs ∧ Below ⟨s',Function.update c.locals t l'⟩ e' ∧
        fs.filterMap some = es.filterMap inside := by
  have hleft : e.locals d ≠ .drain .left := by
    rw [hb.locals d]
    exact g.2
  have hidle : ∀ v, s' = atLevel v s → threadOf l' = threadOf l → es.filterMap inside = [] →
      ∃ e' fs, (logger S date).Run (UntilLeft d) e e' fs ∧
        Below ⟨s',Function.update c.locals t l'⟩ e' ∧ fs.filterMap some = es.filterMap inside :=
    fun v hv hk hes => ⟨e,[],.start,below_rests hb ⟨v,hs ▸ hv⟩ (hl ▸ hk),hes.symm⟩
  have hpush : ∀ x, s' = s → threadOf l = .idle → l' = .inLogger (.pushTest x) →
      es.filterMap inside = [] → ∃ e' fs, (logger S date).Run (UntilLeft d) e e' fs ∧
        Below ⟨s',Function.update c.locals t l'⟩ e' ∧ fs.filterMap some = es.filterMap inside := by
    rintro x rfl hk rfl hes
    have hact : loggerAct S date t (.push x) c.shared (threadOf (c.locals t)) =
        some (s',.pushTest x,[]) := by
      rw [hs,hl,hk]
      rfl
    obtain ⟨e',r,hb'⟩ := @below_acts _ _ _ t d s' (.inLogger (.pushTest x)) _ _ _ _ hb
      ⟨by simp,hleft⟩ hact rfl
    exact ⟨e',[],r,hb',hes.symm⟩
  cases h with
  | raw _ x => exact hpush x rfl rfl rfl rfl
  | passes _ call stack h => exact hpush _ rfl rfl rfl rfl
  | stores _ level => exact hidle level rfl rfl rfl
  | within _ _ m k k' fs hm h =>
    have hact : loggerAct S date t m c.shared (threadOf (c.locals t)) = some (s',k',fs) := by
      rw [hs,hl]
      exact h
    obtain ⟨e',r,hb'⟩ := @below_acts _ _ _ t d s' (.inLogger k') _ _ _ _ hb
      ⟨fun call he => g.1 call (congrArg _ he),hleft⟩ hact rfl
    exact ⟨e',fs,r,hb',by rw [inside_map,List.filterMap_some]⟩
  | _ => exact hidle s.minLevel rfl rfl rfl

/-- Below every run of the calls there is one of the logger with the same events. -/
theorem run_below {e : LoggerConf} (hb : Below c₀ e) (r : (api S date).Run (UntilDrained d) c₀ c tr) :
    ∃ e', (logger S date).Run (UntilLeft d) e e' (tr.filterMap inside) ∧
      ∀ t, e'.locals t = threadOf (c.locals t) := by
  have hsim : ∃ e' fs, (logger S date).Run (UntilLeft d) e e' fs ∧ Below c e' ∧
      fs.filterMap some = tr.filterMap inside := by
    refine r.simulated hb fun hb g h => ?_
    obtain ⟨s',l',ha,rfl⟩ := step_some h
    exact below_step hb g rfl rfl (api_step ha)
  obtain ⟨e',fs,r',hb',hfs⟩ := hsim
  rw [List.filterMap_some] at hfs
  exact ⟨e',hfs ▸ r',hb'.locals⟩

end Runs

theorem initialised_carries (P : LogEntry → Prop) (d : ℕ) (call : InitCall) :
    QueueStores P (inCalls (initialised d call)).shared ∧
      ∀ t, Carries P (threadOf ((inCalls (initialised d call)).locals t)) := by
  refine ⟨fun q hq => ?_,fun t => ?_⟩
  · obtain rfl := Option.some.inj hq
    exact fun i => only_empty P
  · by_cases ht : t = d <;> simp [inCalls,initialised,threadOf,ht,Carries]

theorem initialised_notInit (d : ℕ) (call : InitCall) (t : ℕ) :
    NotInit ((initialised d call).locals t) := by
  by_cases ht : t = d <;> simp [initialised,ht,NotInit]

theorem initialised_below (d : ℕ) (call : InitCall) :
    Below (inCalls (initialised d call)) (initialised d call) :=
  ⟨⟨call.config.minLevel,rfl⟩,fun _ => rfl,initialised_notInit d call⟩

/-- Whatever the threads do once the logger is initialised, its shutdown included: a
call passes exactly when its level is at least the one set last, or configured; all
that is ever written was given to the logger, by a call that passed or unfiltered;
and nothing written is below a level that neither the configuration, nor any
change, nor any unfiltered entry is below. -/
theorem levels_respected (S : RingSize) (date : ℕ → DatePrefix) (d : ℕ) (call : InitCall)
    (c : ApiConf) (tr : List ApiEvent)
    (r : (api S date).Run Opened (inCalls (initialised d call)) c tr) :
    AllJudged call.config.minLevel tr ∧
    (∀ x ∈ sunk (tr.filterMap inside), x.1 ∈ submitted tr) ∧
    ∀ u : LogLevel, u.value ≤ call.config.minLevel.value →
      (∀ t w, .levelSet t w ∈ tr → u.value ≤ w.value) →
      (∀ t e, .raw t e ∈ tr → u.value ≤ e.level.value) →
      ∀ x ∈ sunk (tr.filterMap inside), u.value ≤ x.1.level.value := by
  obtain ⟨hs,hl⟩ := initialised_carries (· ∈ submitted tr) d call
  have hopened : ∀ t, NotInit (threadOf ((inCalls (initialised d call)).locals t)) :=
    initialised_notInit d call
  obtain ⟨-,-,hj⟩ := run_judged hopened (fun _ _ _ g => g) r
  have hsub := written_submitted hs hl r
  refine ⟨hj,hsub,fun u hv hset hraw x hx => ?_⟩
  obtain ⟨e,he,hx⟩ := List.mem_filterMap.mp (hsub x hx)
  cases e with
  | passed t e w =>
    obtain rfl := Option.some.inj hx
    exact judged_floor hj hv hset he
  | raw t e =>
    obtain rfl := Option.some.inj hx
    exact hraw t _ he
  | _ => cases hx

def openedCheck (_ : ApiConf) (_ : ℕ) (m : ApiMove) : Bool := !(m matches .logger (.init _))

theorem opened_of_check (c : ApiConf) (t : ℕ) (m : ApiMove) (h : openedCheck c t m = true) :
    Opened c t m := by
  rintro call rfl
  simp [openedCheck] at h

abbrev ApiOutcome := ApiConf × List ApiEvent

def warnInit : InitCall := ⟨{ minLevel := .warn },none,constPrefix 0⟩

def lettersAt (level : LogLevel) : LogCall := { letters 2 with level := level }

def callMoves (t : ℕ) (m : ApiMove) (k : ℕ) : List (ℕ × ApiMove) :=
  (t,m)::List.replicate k (t,.logger .go)

def levelMoves : List (ℕ × ApiMove) :=
  callMoves 1 (.log (lettersAt .info) (filled 0)) 1++callMoves 2 (.setLevel .error) 1++
    callMoves 1 (.log (lettersAt .error) (filled 0)) 8

def floorCheck (u : LogLevel) (tr : List ApiEvent) : Bool := tr.all fun
  | .levelSet _ w => decide (u.value ≤ w.value)
  | .raw _ _ => false
  | _ => true

/-- One of two calls passes and is written; nothing below WARN is. -/
theorem levels_respected_two : ∃ (c : ApiConf) (tr : List ApiEvent),
    (api queueSize zeroDate).Run Opened (inCalls (initialised 0 warnInit)) c tr ∧
    (sunk (tr.filterMap inside)).map Prod.fst = [(lettersAt .error).entry (filled 0)] ∧
    (∃ e ∈ tr, (e matches .filtered 1 _ _) = true) ∧
    ∀ x ∈ sunk (tr.filterMap inside), LogLevel.warn.value ≤ x.1.level.value := by
  have hv : ((api queueSize zeroDate).exec openedCheck (inCalls (initialised 0 warnInit))
      (levelMoves++List.replicate 12 (0,.logger .go))).any (fun (r : ApiOutcome) =>
        decide ((sunk (r.2.filterMap inside)).map Prod.fst =
          [(lettersAt .error).entry (filled 0)]) &&
        (r.2.any (· matches .filtered 1 _ _) && floorCheck .warn r.2)) = true := by
    decide +kernel
  obtain ⟨c,tr,r,hp⟩ := exec_any _ _ opened_of_check _ _ hv
  obtain ⟨hsunk,hp⟩ := Bool.and_eq_true_iff.mp hp
  obtain ⟨hfiltered,hfloor⟩ := Bool.and_eq_true_iff.mp hp
  obtain ⟨-,-,hall⟩ := levels_respected queueSize zeroDate 0 warnInit c tr r
  have hevents := List.all_eq_true.mp hfloor
  refine ⟨c,tr,r,of_decide_eq_true hsunk,List.any_eq_true.mp hfiltered,hall .warn (by decide) ?_ ?_⟩
  · exact fun t w he => of_decide_eq_true (hevents _ he)
  · exact fun t e he => absurd (hevents _ he) (by simp)

end MpmcLogger.LogCalls
