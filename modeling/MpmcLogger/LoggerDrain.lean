import MpmcLogger.QueueFailure
import MpmcLogger.LoggerSetup
import Mathlib.Data.List.ReduceOption

/-!
# The drain loop as a consumer of the queue

As long as the drain loop is not left the logger runs its queue: every step of
the logger is a step of the queue machine or leaves the queue alone. The entries
handed to the sink, with the one in hand, are then the pops of its consumer.
-/

set_option autoImplicit false

namespace MpmcLogger.LoggerDrain
open Interleaving MachineWord MpmcLogger.QueueMachine MpmcLogger.QueueHistory
open MpmcLogger.QueueInvariant MpmcLogger.QueueDelivery MpmcLogger.EntryLayout
open MpmcLogger.Formatter MpmcLogger.LoggerMachine MpmcLogger.LoggerSetup

def queueEvents (tr : List LoggerEvent) : List (Event LogEntry) :=
  tr.filterMap fun | .queue e => some e | _ => none

def writes (tr : List LoggerEvent) : List (Option (LogEntry × Bytes)) :=
  tr.filterMap fun | .sinkWrite item => some item | _ => none

def handed (tr : List LoggerEvent) : List (Option LogEntry) := (writes tr).map (Option.map Prod.fst)

def sunk (tr : List LoggerEvent) : List (LogEntry × Bytes) := (writes tr).reduceOption

@[simp] theorem queueEvents_append (tr es : List LoggerEvent) :
    queueEvents (tr++es) = queueEvents tr++queueEvents es := List.filterMap_append

@[simp] theorem writes_append (tr es : List LoggerEvent) :
    writes (tr++es) = writes tr++writes es := List.filterMap_append

@[simp] theorem handed_append (tr es : List LoggerEvent) :
    handed (tr++es) = handed tr++handed es := by
  simp [handed]

@[simp] theorem sunk_append (tr es : List LoggerEvent) : sunk (tr++es) = sunk tr++sunk es := by
  simp [sunk,List.reduceOption_append]

@[simp] theorem queueEvents_nil : queueEvents [] = [] := rfl

@[simp] theorem handed_nil : handed [] = [] := rfl

@[simp] theorem sunk_nil : sunk [] = [] := rfl

@[simp] theorem queueEvents_map (es : List (Event LogEntry)) :
    queueEvents (es.map .queue) = es := by
  induction es with
  | nil => rfl
  | cons e es ih => exact congrArg (e::·) ih

@[simp] theorem writes_map (es : List (Event LogEntry)) : writes (es.map .queue) = [] := by
  induction es with
  | nil => rfl
  | cons e es ih => exact ih

@[simp] theorem handed_map (es : List (Event LogEntry)) : handed (es.map .queue) = [] := by
  simp [handed]

@[simp] theorem sunk_map (es : List (Event LogEntry)) : sunk (es.map .queue) = [] := by
  simp [sunk,List.reduceOption]

def queueLocal : Thread → Local LogEntry
  | .push l | .drain (.pop _ l) => l
  | _ => .idle

section QueueSteps

variable {T : Type*} {S : RingSize} {t : ℕ} {m : Move T} {q q' : Queue T} {l l' : Local T}
  {es : List (Event T)}

def InPush : Local T → Prop
  | .pushLoadHead _ | .pushLoadMinTail .. | .scanActive (.push ..) .. | .scanTail (.push ..) ..
  | .storeMinTail (.push ..) _ | .pushCas .. | .pushCopyBegin .. | .pushCopyEnd ..
  | .pushPublish .. => True
  | _ => False

def InPop (c : ConsumerId) : Local T → Prop
  | .popLoadActive d | .popLoadTail d | .popLoadSequence d _ | .popCopyBegin d _
  | .popCopyEnd d _ _ | .popStoreTail d _ _ => d = c
  | _ => False

theorem inPush_step (hl : InPush l) (h : Step S t m q l q' l' es) :
    (l' = .idle ∨ InPush l') ∧ (∀ c, pops c es = []) ∧ q'.consumers = q.consumers := by
  cases h with
  | sawActive q k i ms hi active => cases k <;> exact ⟨Or.inr hl,fun _ => rfl,rfl⟩
  | sawInactive q k i ms hi inactive => cases k <;> exact ⟨Or.inr hl,fun _ => rfl,rfl⟩
  | readTail q k c ms => cases k <;> exact ⟨Or.inr hl,fun _ => rfl,rfl⟩
  | scanChanged q k i ms hi => cases k <;> exact ⟨Or.inr hl,fun _ => rfl,rfl⟩
  | scanFull q x h i ms hi full => exact ⟨Or.inl rfl,fun _ => rfl,rfl⟩
  | storeFull q x h old new full => exact ⟨Or.inl rfl,fun _ => rfl,rfl⟩
  | publish q x h => exact ⟨Or.inl rfl,fun _ => rfl,rfl⟩
  | _ => first
    | exact ⟨Or.inr trivial,fun _ => rfl,rfl⟩
    | exact hl.elim

/-- A pop goes on, finds its slot unready, or ends with the item it copied. -/
theorem inPop_step {c : ConsumerId} (hl : InPop c l) (h : Step S t m q l q' l' es) :
    (InPop c l' ∧ es = [] ∨ l' = .idle ∧ es = [.empty t c] ∨
      ∃ x, l' = .idle ∧ es = [.popped t c x]) ∧
    ∀ d, (q'.consumers d).active = (q.consumers d).active := by
  cases h with
  | popInactive q d inactive =>
    obtain rfl : d = c := hl
    exact ⟨Or.inr (Or.inl ⟨rfl,rfl⟩),fun _ => rfl⟩
  | popNotReady q d tail notReady =>
    obtain rfl : d = c := hl
    exact ⟨Or.inr (Or.inl ⟨rfl,rfl⟩),fun _ => rfl⟩
  | popDone q d tail x =>
    obtain rfl : d = c := hl
    refine ⟨Or.inr (Or.inr ⟨x,rfl,rfl⟩),fun e => ?_⟩
    by_cases he : e = d <;> simp [he]
  | popActive q d active => exact ⟨Or.inl ⟨hl,rfl⟩,fun _ => rfl⟩
  | popTail q d => exact ⟨Or.inl ⟨hl,rfl⟩,fun _ => rfl⟩
  | popReady q d tail ready => exact ⟨Or.inl ⟨hl,rfl⟩,fun _ => rfl⟩
  | popBegin q d tail => exact ⟨Or.inl ⟨hl,rfl⟩,fun _ => rfl⟩
  | popEnd q d tail before => exact ⟨Or.inl ⟨hl,rfl⟩,fun _ => rfl⟩
  | _ => exact hl.elim

end QueueSteps

def Outside : Thread → Prop
  | .idle | .pushTest _ | .shutdown .exchange | .shutdown .storeRunning | .shutdown .requestStop
  | .shutdown .join => True
  | .push l => InPush l
  | _ => False

def Looping (c : ConsumerId) : DrainPc → Prop
  | .pop _ l => InPop c l
  | .waiting | .left => False
  | _ => True

def Emits : Thread → LoggerEvent → Prop
  | _, .queue _ => True
  | .idle, .shutdownCalled _ | .pushTest _, .refused .. | .drain (.count ..), .counted
  | .drain (.hand ..), .sinkWrite _ | .init _ .createQueue, .created
  | .init _ .createQueue, .destroyed | .shutdown .resetQueue, .destroyed
  | .init _ .test, .initReturned _ | .init _ .storeInitialized, .initReturned _
  | .init _ (.register _), .initThrew .. | .shutdown .exchange, .shutdownReturned _
  | .shutdown .resetFormatter, .shutdownReturned _ => True
  | .init call .createSink, .initThrew _ what => call.sinkError = some what
  | _, _ => False

def inHand : DrainPc → List (Option LogEntry)
  | .count _ item | .hand _ item => [item]
  | _ => []

inductive QueueMove (S : RingSize) (own : ConsumerId → ℕ) (t : ℕ) (l l' : Thread)
    (es : List LoggerEvent) (q : Queue LogEntry) : Queue LogEntry → Prop
  | still (hl : queueLocal l' = queueLocal l) (he : queueEvents es = []) :
      QueueMove S own t l l' es q q
  | moved {q' : Queue LogEntry} (m : Move LogEntry)
      (ha : act S t m q (queueLocal l) = some (q',queueLocal l',queueEvents es))
      (hm : OwnedMove own t m ∧ m ≠ .call .registerConsumer) : QueueMove S own t l l' es q q'

structure OutsideStep (S : RingSize) (own : ConsumerId → ℕ) (t : ℕ) (s s' : Logger)
    (l l' : Thread) (es : List LoggerEvent) (q q' : Queue LogEntry) : Prop where
  queue : s'.queue = some q'
  move : QueueMove S own t l l' es q q'
  outside : Outside l'
  frame : ∃ b r i, s' = { s with queue := some q', stop := b, running := r, initialized := i } ∧
    (s.stop = true → b = true)
  handed : handed es = []
  pops : ∀ c, pops c (queueEvents es) = []
  consumers : q'.consumers = q.consumers

def Formats (date : ℕ → DatePrefix) (s s' : Logger) (es : List LoggerEvent) : Prop :=
  sunk es = [] ∧ s'.textFmt = s.textFmt ∨
    ∃ e r, s.format date e = some r ∧ sunk es = [(e,r.2)] ∧ s'.textFmt = r.1

structure DrainStep (date : ℕ → DatePrefix) (S : RingSize) (own : ConsumerId → ℕ)
    (c : ConsumerId) (t : ℕ) (s s' : Logger) (pc pc' : DrainPc) (es : List LoggerEvent)
    (q q' : Queue LogEntry) : Prop where
  queue : s'.queue = some q'
  move : QueueMove S own t (.drain pc) (.drain pc') es q q'
  looping : Looping c pc' ∨ pc' = .left
  frame : ∃ n f, s' = { s with queue := some q', entriesDrained := n, textFmt := f }
  handed : handed es++inHand pc' = inHand pc++pops c (queueEvents es)
  formats : Formats date s s' es
  active : ∀ d, (q'.consumers d).active = (q.consumers d).active

section Steps

variable {S : RingSize} {date : ℕ → DatePrefix} {own : ConsumerId → ℕ} {t : ℕ} {s s' : Logger}
  {q q' : Queue LogEntry} {es : List LoggerEvent}

theorem onQueue_acts {m : Move LogEntry} {l l' : Local LogEntry} {es : List (Event LogEntry)}
    (h : s.onQueue S t m l = some (s',l',es)) : ∃ q q', s.queue = some q ∧
      act S t m q l = some (q',l',es) ∧ s' = { s with queue := some q' } := by
  unfold Logger.onQueue at h
  cases hq : s.queue with
  | none => simp [hq] at h
  | some q =>
    rw [hq] at h
    obtain ⟨⟨q',l,fs⟩,ha,he⟩ := Option.map_eq_some_iff.mp h
    cases he
    exact ⟨q,q',rfl,ha,rfl⟩

theorem onQueue_some {m : Move LogEntry} {l l' : Local LogEntry} {es : List (Event LogEntry)}
    (hq : s.queue = some q) (h : s.onQueue S t m l = some (s',l',es)) :
    ∃ q', act S t m q l = some (q',l',es) ∧ s' = { s with queue := some q' } := by
  obtain ⟨q₀,q',hq₀,ha,hs⟩ := onQueue_acts h
  obtain rfl : q₀ = q := Option.some.inj (hq₀.symm.trans hq)
  exact ⟨q',ha,hs⟩

theorem onQueue_emits {α : Type*} {m : Move LogEntry} {l : Local LogEntry} {x : Logger} {y : α}
    {f : Logger × Local LogEntry × List (Event LogEntry) → Logger × α × List LoggerEvent}
    (h : (s.onQueue S t m l).map f = some (x,y,es)) (hf : ∀ r, (f r).2.2 = r.2.2.map .queue) :
    ∀ e ∈ es, ∃ g, e = .queue g := by
  obtain ⟨r,-,he⟩ := Option.map_eq_some_iff.mp h
  have hes : es = r.2.2.map .queue := by rw [← hf,he]
  intro e hmem
  rw [hes] at hmem
  obtain ⟨g,-,rfl⟩ := List.mem_map.mp hmem
  exact ⟨g,rfl⟩

theorem drainLoop_emits {pc pc' : DrainPc} (h : drainLoop S date t s pc = some (s',pc',es)) :
    ∀ e ∈ es, Emits (.drain pc) e := by
  have hqueue : (∀ e ∈ es, ∃ g, e = .queue g) → ∀ e ∈ es, Emits (.drain pc) e := by
    intro hes e hmem
    obtain ⟨g,rfl⟩ := hes e hmem
    trivial
  cases pc with
  | pop ph l => exact hqueue (onQueue_emits h fun _ => rfl)
  | stragglers => exact hqueue (onQueue_emits h fun _ => rfl)
  | batch i gotAny n =>
    simp only [drainLoop] at h
    split_ifs at h
    · exact hqueue (onQueue_emits h fun _ => rfl)
    · cases h
      simp
  | hand ph item =>
    cases item with
    | none =>
      cases h
      simp [Emits]
    | some e =>
      obtain ⟨r,-,he⟩ := Option.map_eq_some_iff.mp h
      cases he
      split_ifs <;> simp [Emits]
  | waiting =>
    simp only [drainLoop] at h
    split_ifs at h
    cases h
    simp
  | testStop n =>
    simp only [drainLoop] at h
    split_ifs at h <;> cases h <;> simp
  | loop n | count ph item | left =>
    cases h
    simp [Emits]

theorem init_emits {c : InitCall} {pc : InitPc} {l' : Thread}
    (h : init S t c s pc = some (s',l',es)) : ∀ e ∈ es, Emits (.init c pc) e := by
  cases pc with
  | register l =>
    obtain ⟨⟨u,k,fs⟩,-,he⟩ := Option.map_eq_some_iff.mp h
    simp only [afterRegister] at he
    split at he <;> cases he <;> simp [Emits]
  | createQueue =>
    cases h
    unfold Logger.dropQueue
    split_ifs <;> simp [Emits]
  | createSink =>
    simp only [init] at h
    split at h <;> cases h <;> simp_all [Emits]
  | test | createFormatter =>
    simp only [init] at h
    split_ifs at h <;> cases h <;> simp [Emits]
  | storeLevel | storeConfig | storeRunning | spawn | storeInitialized =>
    cases h
    simp [Emits]

theorem shutdown_emits {pc : ShutdownPc} {l' : Thread}
    (h : shutdown S t s pc = some (s',l',es)) : ∀ e ∈ es, Emits (.shutdown pc) e := by
  have hqueue : (∀ e ∈ es, ∃ g, e = .queue g) → ∀ e ∈ es, Emits (.shutdown pc) e := by
    intro hes e hmem
    obtain ⟨g,rfl⟩ := hes e hmem
    trivial
  cases pc with
  | exchange =>
    simp only [shutdown] at h
    split_ifs at h <;> cases h <;> simp [Emits]
  | join =>
    simp only [shutdown] at h
    split_ifs at h
    exact hqueue (onQueue_emits h fun _ => rfl)
  | unregister l => exact hqueue (onQueue_emits h fun _ => rfl)
  | resetQueue =>
    cases h
    unfold Logger.dropQueue
    split_ifs <;> simp [Emits]
  | storeRunning | requestStop | resetSink | resetFormatter =>
    cases h
    simp [Emits]

theorem act_emits {m : LoggerMove} {l l' : Thread}
    (h : loggerAct S date t m s l = some (s',l',es)) : ∀ e ∈ es, Emits l e := by
  have hqueue : (∀ e ∈ es, ∃ g, e = .queue g) → ∀ e ∈ es, Emits l e := by
    intro hes e hmem
    obtain ⟨g,rfl⟩ := hes e hmem
    cases l <;> trivial
  cases l with
  | idle => cases m <;> cases h <;> simp [Emits]
  | pushTest e =>
    cases m with
    | go =>
      simp only [loggerAct] at h
      split at h
      · cases h
        simp [Emits]
      · exact hqueue (onQueue_emits h fun _ => rfl)
    | _ => cases h
  | push k =>
    cases m with
    | go | spurious => exact hqueue (onQueue_emits h fun _ => rfl)
    | _ => cases h
  | init c pc =>
    cases m with
    | go => exact init_emits h
    | _ => cases h
  | shutdown pc =>
    cases m with
    | go => exact shutdown_emits h
    | _ => cases h
  | drain pc =>
    cases m with
    | go =>
      obtain ⟨r,hr,he⟩ := Option.map_eq_some_iff.mp h
      cases he
      exact drainLoop_emits hr
    | _ => cases h

theorem queueLocal_pushing (k : Local LogEntry) : queueLocal (pushing k) = k := by
  cases k <;> rfl

theorem pushStep_outside {l l' : Thread} {m : Move LogEntry} (hq : s.queue = some q)
    (hm : InPush (queueLocal l) ∧ (m = .go ∨ m = .spurious) ∨
      queueLocal l = .idle ∧ ∃ e, m = .call (.push e))
    (h : s.pushStep S t m (queueLocal l) = some (s',l',es)) :
    ∃ q', OutsideStep S own t s s' l l' es q q' := by
  obtain ⟨⟨u,k,fs⟩,hu,he⟩ := Option.map_eq_some_iff.mp h
  obtain ⟨rfl,rfl,rfl⟩ := Prod.mk.inj he |>.imp_right Prod.mk.inj
  obtain ⟨q',ha,rfl⟩ := onQueue_some hq hu
  have howned : OwnedMove own t m ∧ m ≠ .call .registerConsumer := by
    rcases hm with ⟨-,rfl | rfl⟩ | ⟨-,e,rfl⟩ <;> exact ⟨trivial,by simp⟩
  have hmove : QueueMove S own t l (pushing k) (fs.map .queue) q q' := by
    apply QueueMove.moved m _ howned
    rw [queueLocal_pushing,queueEvents_map]
    exact ha
  have hstep : (k = .idle ∨ InPush k) ∧ (∀ c, pops c fs = []) ∧ q'.consumers = q.consumers := by
    rcases hm with ⟨hin,-⟩ | ⟨hidle,e,rfl⟩
    · exact inPush_step hin (act_step ha)
    · rw [hidle] at ha
      cases ha
      exact ⟨Or.inr trivial,fun _ => rfl,rfl⟩
  obtain ⟨hk,hpops,hcons⟩ := hstep
  have hout : Outside (pushing k) := by
    rcases hk with rfl | hk
    · trivial
    · cases k <;> first | exact trivial | exact hk
  exact ⟨q',rfl,hmove,hout,⟨_,_,_,rfl,id⟩,by simp,by simpa using hpops,hcons⟩

theorem outside_step {l l' : Thread} {m : LoggerMove} (hl : Outside l) (hq : s.queue = some q)
    (hend : s.drainEnded = false) (hm : ∀ c, m ≠ .init c)
    (h : loggerAct S date t m s l = some (s',l',es)) :
    ∃ q', OutsideStep S own t s s' l l' es q q' := by
  -- all but the steps inside a push leave the queue alone
  have hstill : ∀ u k fs, some (s',l',es) = some (u,k,fs) → Outside k →
      (∃ b r i, u = { s with queue := some q, stop := b, running := r, initialized := i } ∧
        (s.stop = true → b = true)) →
      queueLocal k = queueLocal l → queueEvents fs = [] → handed fs = [] →
      ∃ q', OutsideStep S own t s s' l l' es q q' := by
    rintro u k fs he hk hf hloc hes hh
    obtain ⟨rfl,rfl,rfl⟩ := Prod.mk.inj (Option.some.inj he) |>.imp_right Prod.mk.inj
    have hqueue : s'.queue = some q := by
      obtain ⟨b,r,i,rfl,-⟩ := hf
      rfl
    exact ⟨q,hqueue,.still hloc hes,hk,hf,hh,fun c => by rw [hes]; rfl,rfl⟩
  have hself : s = { s with queue := some q } := by rw [← hq]
  have hsame : ∃ b r i, s = { s with queue := some q, stop := b, running := r, initialized := i } ∧
      (s.stop = true → b = true) := ⟨_,_,_,hself,id⟩
  cases l with
  | idle =>
    cases m with
    | push e => exact hstill _ _ _ h.symm trivial hsame rfl rfl rfl
    | shutdown => exact hstill _ _ _ h.symm trivial hsame rfl rfl rfl
    | init c => exact absurd rfl (hm c)
    | go => cases h
    | spurious => cases h
  | pushTest e =>
    cases m with
    | go =>
      simp only [loggerAct,hq] at h
      exact pushStep_outside (l := .pushTest e) hq (Or.inr ⟨rfl,e,rfl⟩) h
    | _ => cases h
  | push k =>
    cases m with
    | go => exact pushStep_outside (l := .push k) hq (Or.inl ⟨hl,Or.inl rfl⟩) h
    | spurious => exact pushStep_outside (l := .push k) hq (Or.inl ⟨hl,Or.inr rfl⟩) h
    | _ => cases h
  | init c pc => exact hl.elim
  | drain pc => exact hl.elim
  | shutdown pc =>
    cases m with
    | go =>
      cases pc with
      | exchange =>
        simp only [loggerAct,shutdown] at h
        split_ifs at h
        · exact hstill _ _ _ h.symm trivial ⟨_,_,false,by rw [← hq],id⟩ rfl rfl rfl
        · exact hstill _ _ _ h.symm trivial hsame rfl rfl rfl
      | storeRunning => exact hstill _ _ _ h.symm trivial ⟨_,false,_,by rw [← hq],id⟩ rfl rfl rfl
      | requestStop =>
        exact hstill _ _ _ h.symm trivial ⟨true,_,_,by rw [← hq],fun _ => rfl⟩ rfl rfl rfl
      | join =>
        simp only [loggerAct,shutdown,hend] at h
        cases h
      | _ => exact hl.elim
    | _ => cases h

theorem format_pos {e : LogEntry} {r : Option TextFormatter × Bytes}
    (h : s.format date e = some r) : 0 < r.2.length := by
  unfold Logger.format at h
  cases hf : s.outputFormat with
  | binary =>
    simp only [hf,Option.some.injEq] at h
    subst h
    have hlen : 128 ≤ TextFormatter.maxFormattedSize := by decide
    simp [hlen]
  | text =>
    simp only [hf] at h
    obtain ⟨f,-,rfl⟩ := Option.map_eq_some_iff.mp h
    exact List.length_pos_iff.mpr (text_format_pos date f e le_rfl)

theorem looping_missed (c : ConsumerId) (ph : Phase) :
    Looping c ph.missed ∨ ph.missed = .left := by
  cases ph with
  | final => exact Or.inr rfl
  | batch i gotAny n => cases gotAny <;> exact Or.inl trivial

theorem inHand_missed (ph : Phase) : inHand ph.missed = [] := by
  cases ph with
  | final => rfl
  | batch i gotAny n => cases gotAny <;> rfl

theorem queueLocal_missed (ph : Phase) : queueLocal (.drain ph.missed) = .idle := by
  cases ph with
  | final => rfl
  | batch i gotAny n => cases gotAny <;> rfl

theorem looping_popped (c : ConsumerId) (ph : Phase) : Looping c ph.popped := by
  cases ph <;> trivial

theorem inHand_popped (ph : Phase) : inHand ph.popped = [] := by
  cases ph <;> rfl

theorem queueLocal_popped (ph : Phase) : queueLocal (.drain ph.popped) = .idle := by
  cases ph <;> rfl

theorem afterPop_pending {c : ConsumerId} {l : Local LogEntry} (ph : Phase) (hl : InPop c l) :
    afterPop ph l [] = .pop ph l := by
  cases l <;> first | rfl | exact hl.elim

theorem drain_still {c : ConsumerId} {pc pc' : DrainPc}
    (hloc : queueLocal (.drain pc') = queueLocal (.drain pc)) (hes : queueEvents es = [])
    (hloop : Looping c pc')
    (hf : ∃ n f, s' = { s with queue := some q, entriesDrained := n, textFmt := f })
    (hh : handed es++inHand pc' = inHand pc) (hfmt : Formats date s s' es) :
    ∃ q', DrainStep date S own c t s s' pc pc' es q q' := by
  have hqueue : s'.queue = some q := by
    obtain ⟨n,f,rfl⟩ := hf
    rfl
  have hpops : handed es++inHand pc' = inHand pc++pops c (queueEvents es) := by
    rw [hes,hh]
    simp
  exact ⟨q,hqueue,.still hloc hes,Or.inl hloop,hf,hpops,hfmt,fun _ => rfl⟩

theorem callPop_step {c : ConsumerId} {ph : Phase} {pc pc' : DrainPc} (hq : s.queue = some q)
    (hid : s.consumerId = c) (hown : own c = t) (hloc : queueLocal (.drain pc) = .idle)
    (hhand : inHand pc = []) (h : s.callPop S t ph = some (s',pc',es)) :
    ∃ q', DrainStep date S own c t s s' pc pc' es q q' := by
  obtain ⟨⟨u,k,fs⟩,hu,he⟩ := Option.map_eq_some_iff.mp h
  obtain ⟨rfl,rfl,rfl⟩ := Prod.mk.inj he |>.imp_right Prod.mk.inj
  obtain ⟨q',ha,rfl⟩ := onQueue_some hq hu
  rw [hid] at ha
  cases ha
  have hmove : QueueMove S own t (.drain pc) (.drain (.pop ph (.popLoadActive c)))
      [.queue (.called t (.pop c))] q q := by
    apply QueueMove.moved (.call (.pop c)) _ ⟨hown,by simp⟩
    rw [hloc]
    rfl
  have hpops : handed [.queue (.called t (.pop c))]++inHand (.pop ph (.popLoadActive c)) =
      inHand pc++pops c [.called t (.pop c)] := by
    rw [hhand]
    rfl
  exact ⟨q,rfl,hmove,Or.inl rfl,⟨_,_,rfl⟩,hpops,Or.inl ⟨rfl,rfl⟩,fun _ => rfl⟩

theorem pop_step {c : ConsumerId} {ph : Phase} {l : Local LogEntry} {pc' : DrainPc}
    (hq : s.queue = some q) (hl : InPop c l)
    (h : drainLoop S date t s (.pop ph l) = some (s',pc',es)) :
    ∃ q', DrainStep date S own c t s s' (.pop ph l) pc' es q q' := by
  obtain ⟨⟨u,k,fs⟩,hu,he⟩ := Option.map_eq_some_iff.mp h
  obtain ⟨rfl,rfl,rfl⟩ := Prod.mk.inj he |>.imp_right Prod.mk.inj
  obtain ⟨q',ha,rfl⟩ := onQueue_some hq hu
  obtain ⟨hout,hact⟩ := inPop_step hl (act_step ha)
  -- what remains of the pop is where its thread stands in the queue
  have hmove : ∀ pc', queueLocal (.drain pc') = k →
      QueueMove S own t (.drain (.pop ph l)) (.drain pc') (fs.map .queue) q q' := by
    intro pc' hk
    apply QueueMove.moved .go _ ⟨trivial,by simp⟩
    rw [hk,queueEvents_map]
    exact ha
  have hfmt : Formats date s { s with queue := some q' } (fs.map .queue) :=
    Or.inl ⟨sunk_map fs,rfl⟩
  refine ⟨q',rfl,?_,?_,⟨_,_,rfl⟩,?_,hfmt,hact⟩
  · rcases hout with ⟨hk,rfl⟩ | ⟨rfl,rfl⟩ | ⟨x,rfl,rfl⟩
    · rw [afterPop_pending ph hk]
      exact hmove _ rfl
    · exact hmove _ (queueLocal_missed ph)
    · exact hmove _ rfl
  · rcases hout with ⟨hk,rfl⟩ | ⟨rfl,rfl⟩ | ⟨x,rfl,rfl⟩
    · rw [afterPop_pending ph hk]
      exact Or.inl hk
    · exact looping_missed c ph
    · exact Or.inl trivial
  · rw [handed_map,queueEvents_map]
    rcases hout with ⟨hk,rfl⟩ | ⟨rfl,rfl⟩ | ⟨x,rfl,rfl⟩
    · rw [afterPop_pending ph hk]
      rfl
    · exact inHand_missed ph
    · simp [afterPop,inHand,pops]

theorem hand_step {c : ConsumerId} {ph : Phase} {item : Option LogEntry} {pc' : DrainPc}
    (hq : s.queue = some q) (hsink : s.sink = true)
    (h : s.hand date ph item = some (s',pc',es)) :
    ∃ q', DrainStep date S own c t s s' (.hand ph item) pc' es q q' := by
  have hself : s = { s with queue := some q } := by rw [← hq]
  cases item with
  | none =>
    obtain ⟨rfl,rfl,rfl⟩ := Prod.mk.inj (Option.some.inj h) |>.imp_right Prod.mk.inj
    apply drain_still (queueLocal_popped ph) rfl (looping_popped c ph) ⟨_,_,hself⟩
    · rw [inHand_popped]
      rfl
    · exact Or.inl ⟨rfl,rfl⟩
  | some e =>
    obtain ⟨r,hr,he⟩ := Option.map_eq_some_iff.mp h
    rw [if_pos ⟨format_pos hr,hsink⟩] at he
    obtain ⟨rfl,rfl,rfl⟩ := Prod.mk.inj he |>.imp_right Prod.mk.inj
    apply drain_still (queueLocal_popped ph) rfl (looping_popped c ph) ⟨_,r.1,by rw [← hq]⟩
    · rw [inHand_popped]
      rfl
    · exact Or.inr ⟨e,r,hr,rfl,rfl⟩

theorem drain_step {c : ConsumerId} {pc pc' : DrainPc} (hc : Looping c pc)
    (hq : s.queue = some q) (hid : s.consumerId = c) (hown : own c = t) (hsink : s.sink = true)
    (h : drainLoop S date t s pc = some (s',pc',es)) :
    ∃ q', DrainStep date S own c t s s' pc pc' es q q' := by
  have hself : s = { s with queue := some q } := by rw [← hq]
  have hstill : ∀ pc₁, some (s',pc',es) = some (s,pc₁,[]) → Looping c pc₁ →
      queueLocal (.drain pc₁) = queueLocal (.drain pc) → inHand pc₁ = inHand pc →
      ∃ q', DrainStep date S own c t s s' pc pc' es q q' := by
    intro pc₁ he hloop hloc hhand
    obtain ⟨rfl,rfl,rfl⟩ := Prod.mk.inj (Option.some.inj he) |>.imp_right Prod.mk.inj
    exact drain_still hloc rfl hloop ⟨_,_,hself⟩ hhand (Or.inl ⟨rfl,rfl⟩)
  cases pc with
  | waiting => exact hc.elim
  | left => exact hc.elim
  | loop n => exact hstill _ h.symm trivial rfl rfl
  | batch i gotAny n =>
    simp only [drainLoop] at h
    split_ifs at h
    · exact callPop_step hq hid hown rfl rfl h
    · cases gotAny <;> exact hstill _ h.symm trivial rfl rfl
  | stragglers => exact callPop_step hq hid hown rfl rfl h
  | pop ph l => exact pop_step hq hc h
  | count ph item =>
    obtain ⟨rfl,rfl,rfl⟩ := Prod.mk.inj (Option.some.inj h) |>.imp_right Prod.mk.inj
    exact drain_still rfl rfl trivial ⟨_,_,by rw [← hq]⟩ rfl (Or.inl ⟨rfl,rfl⟩)
  | hand ph item => exact hand_step hq hsink h
  | testStop n =>
    simp only [drainLoop] at h
    split_ifs at h <;> exact hstill _ h.symm trivial rfl rfl

end Steps

def UntilLeft (d : ℕ) : Guard ℕ LoggerMove Logger Thread :=
  fun c _ m => (∀ call, m ≠ .init call) ∧ c.locals d ≠ .drain .left

/-- Thread `d` drains consumer `cid` of the queue. The queue was brought by
`tr₀` to where it was when the run began. -/
structure Draining (S : RingSize) (n : ℕ) (own : ConsumerId → ℕ) (cid : ConsumerId) (d : ℕ)
    (tr₀ : List (Event LogEntry)) (c : LoggerConf) (tr : List LoggerEvent) (q : Queue LogEntry)
    (pc : DrainPc) : Prop where
  queue : c.shared.queue = some q
  run : (machine LogEntry S).Run (JoinedFirst own) (Config.start n)
    ⟨q,fun t => queueLocal (c.locals t)⟩ (tr₀++queueEvents tr)
  owner : own cid = d
  active : (q.consumers cid).active = true
  consumer : c.shared.consumerId = cid
  sink : c.shared.sink = true
  notEnded : c.shared.drainEnded = false
  drain : c.locals d = .drain pc
  looping : Looping cid pc ∨ pc = .left
  others : ∀ t, t ≠ d → Outside (c.locals t)
  handed : handed tr++inHand pc = pops cid (queueEvents tr)

section Runs

variable {S : RingSize} {date : ℕ → DatePrefix} {n : ℕ} {own : ConsumerId → ℕ}
  {cid : ConsumerId} {d t : ℕ} {tr₀ : List (Event LogEntry)} {c c' : LoggerConf}
  {tr es : List LoggerEvent} {q q' : Queue LogEntry} {pc : DrainPc} {m : LoggerMove}

theorem queueMove_run {l : Thread} {fs : List (Event LogEntry)}
    (r : (machine LogEntry S).Run (JoinedFirst own) (Config.start n)
      ⟨q,fun t => queueLocal (c.locals t)⟩ fs)
    (h : QueueMove S own t (c.locals t) l es q q') :
    (machine LogEntry S).Run (JoinedFirst own) (Config.start n)
      ⟨q',fun j => queueLocal (Function.update c.locals t l j)⟩ (fs++queueEvents es) := by
  have hlocals : (fun j => queueLocal (Function.update c.locals t l j)) =
      Function.update (fun j => queueLocal (c.locals j)) t (queueLocal l) := by
    funext j
    by_cases hj : j = t
    · subst hj
      simp
    · simp [Function.update_of_ne hj]
  rw [hlocals]
  cases h with
  | still hl he =>
    rw [he,List.append_nil,hl,Function.update_eq_self]
    exact r
  | moved m ha hm =>
    apply r.next (i := t) (m := m) hm
    simp [System.step,machine,ha]

theorem draining_outside (h : Draining S n own cid d tr₀ c tr q pc) (ht : t ≠ d) {s : Logger}
    {l : Thread} (hs : OutsideStep S own t c.shared s (c.locals t) l es q q') :
    Draining S n own cid d tr₀ ⟨s,Function.update c.locals t l⟩ (tr++es) q' pc where
  queue := hs.queue
  run := by
    rw [queueEvents_append,← List.append_assoc]
    exact queueMove_run h.run hs.move
  owner := h.owner
  active := by
    rw [hs.consumers]
    exact h.active
  consumer := by
    obtain ⟨b,r,i,rfl,-⟩ := hs.frame
    exact h.consumer
  sink := by
    obtain ⟨b,r,i,rfl,-⟩ := hs.frame
    exact h.sink
  notEnded := by
    obtain ⟨b,r,i,rfl,-⟩ := hs.frame
    exact h.notEnded
  drain := by simpa [Function.update_of_ne ht.symm] using h.drain
  looping := h.looping
  others j hj := by
    by_cases hjt : j = t
    · subst hjt
      simpa using hs.outside
    · simpa [Function.update_of_ne hjt] using h.others j hj
  handed := by
    rw [handed_append,queueEvents_append,pops_append,hs.handed,hs.pops,List.append_nil,
      List.append_nil]
    exact h.handed

theorem draining_drain (h : Draining S n own cid d tr₀ c tr q pc) {s : Logger} {pc' : DrainPc}
    (hs : DrainStep date S own cid d c.shared s pc pc' es q q') :
    Draining S n own cid d tr₀ ⟨s,Function.update c.locals d (.drain pc')⟩ (tr++es) q' pc' where
  queue := hs.queue
  run := by
    have hmove := hs.move
    rw [← h.drain] at hmove
    rw [queueEvents_append,← List.append_assoc]
    exact queueMove_run h.run hmove
  owner := h.owner
  active := by
    rw [hs.active]
    exact h.active
  consumer := by
    obtain ⟨n,f,rfl⟩ := hs.frame
    exact h.consumer
  sink := by
    obtain ⟨n,f,rfl⟩ := hs.frame
    exact h.sink
  notEnded := by
    obtain ⟨n,f,rfl⟩ := hs.frame
    exact h.notEnded
  drain := by simp
  looping := hs.looping
  others j hj := by simpa [Function.update_of_ne hj] using h.others j hj
  handed := by
    rw [handed_append,queueEvents_append,pops_append,List.append_assoc,hs.handed,
      ← List.append_assoc,h.handed]

theorem draining_step (h : Draining S n own cid d tr₀ c tr q pc) (g : UntilLeft d c t m)
    (hstep : (logger S date).step c t m = some (c',es)) :
    (t ≠ d ∧ ∃ q' l s, c' = ⟨s,Function.update c.locals t l⟩ ∧
      OutsideStep S own t c.shared s (c.locals t) l es q q') ∨
    (t = d ∧ m = .go ∧ Looping cid pc ∧ ∃ q' pc' s,
      c' = ⟨s,Function.update c.locals d (.drain pc')⟩ ∧
      drainLoop S date d c.shared pc = some (s,pc',es) ∧
      DrainStep date S own cid d c.shared s pc pc' es q q') := by
  obtain ⟨s,l,ha,rfl⟩ := step_some hstep
  by_cases ht : t = d
  · subst ht
    rw [h.drain] at ha
    have hloop : Looping cid pc := h.looping.resolve_right fun hl => g.2 (by rw [h.drain,hl])
    cases m with
    | go =>
      obtain ⟨⟨u,pc',fs⟩,hu,he⟩ := Option.map_eq_some_iff.mp ha
      obtain ⟨rfl,rfl,rfl⟩ := Prod.mk.inj he |>.imp_right Prod.mk.inj
      obtain ⟨q',hq'⟩ := drain_step hloop h.queue h.consumer h.owner h.sink hu
      exact Or.inr ⟨rfl,rfl,hloop,q',pc',u,rfl,hu,hq'⟩
    | _ => cases ha
  · obtain ⟨q',hq'⟩ : ∃ q', OutsideStep S own t c.shared s (c.locals t) l es q q' :=
      outside_step (h.others t ht) h.queue h.notEnded g.1 ha
    exact Or.inl ⟨ht,q',l,s,rfl,hq'⟩

theorem draining_next (h : Draining S n own cid d tr₀ c tr q pc) (g : UntilLeft d c t m)
    (hstep : (logger S date).step c t m = some (c',es)) :
    ∃ q' pc', Draining S n own cid d tr₀ c' (tr++es) q' pc' := by
  rcases draining_step h g hstep with ⟨ht,q',l,s,rfl,hs⟩ | ⟨-,-,-,q',pc',s,rfl,-,hs⟩
  · exact ⟨q',pc,draining_outside h ht hs⟩
  · exact ⟨q',pc',draining_drain h hs⟩

theorem run_draining {c₀ : LoggerConf} {q₀ : Queue LogEntry} {pc₀ : DrainPc}
    (h₀ : Draining S n own cid d tr₀ c₀ [] q₀ pc₀)
    (r : (logger S date).Run (UntilLeft d) c₀ c tr) :
    ∃ q pc, Draining S n own cid d tr₀ c tr q pc := by
  induction r with
  | start => exact ⟨q₀,pc₀,h₀⟩
  | next r g hstep ih =>
    obtain ⟨q,pc,h⟩ := ih
    exact draining_next h g hstep

/-- The pops before the run with the entries handed over since are the claims
below the tail of the consumer, up to the one in hand. -/
theorem draining_pops (h : Draining S n own cid d tr₀ c tr q pc)
    (hn : n ≤ maxConsumers) :
    pops cid tr₀++(handed tr++inHand pc) =
      ((claims (tr₀++queueEvents tr)).take (q.consumers cid).tail).map fun a => some a.2 := by
  rw [h.handed,← pops_append]
  exact (run_delivered begun_start h.run hn).1.pops cid

theorem missed_left {ph : Phase} (h : ph.missed = .left) : ph = .final := by
  cases ph with
  | final => rfl
  | batch i gotAny n => cases gotAny <;> cases h

/-- The loop is left only from a final pop that finds nothing. -/
theorem left_step {s s' : Logger} (hc : Looping cid pc) (hq : s.queue = some q)
    (h : drainLoop S date d s pc = some (s',.left,es)) :
    ∃ l q', pc = .pop .final l ∧ act S d .go q l = some (q',.idle,[.empty d cid]) ∧
      es = [.queue (.empty d cid)] := by
  cases pc with
  | waiting => exact hc.elim
  | left => exact hc.elim
  | pop ph l =>
    obtain ⟨⟨u,k,fs⟩,hu,he⟩ := Option.map_eq_some_iff.mp h
    obtain ⟨rfl,hleft,rfl⟩ := Prod.mk.inj he |>.imp_right Prod.mk.inj
    obtain ⟨q',ha,rfl⟩ := onQueue_some hq hu
    obtain ⟨⟨hk,rfl⟩ | ⟨rfl,rfl⟩ | ⟨x,rfl,rfl⟩,-⟩ := inPop_step hc (act_step ha)
    · rw [afterPop_pending ph hk] at hleft
      cases hleft
    · obtain rfl := missed_left hleft
      exact ⟨l,q',rfl,ha,rfl⟩
    · cases hleft
  | batch i gotAny n =>
    simp only [drainLoop] at h
    split_ifs at h
    · obtain ⟨r,-,he⟩ := Option.map_eq_some_iff.mp h
      cases he
    · cases gotAny <;> cases h
  | stragglers =>
    obtain ⟨r,-,he⟩ := Option.map_eq_some_iff.mp h
    cases he
  | hand ph item =>
    have hne : ph.popped ≠ .left := by
      cases ph <;> exact fun h => by cases h
    cases item with
    | none => exact absurd (Prod.mk.inj (Prod.mk.inj (Option.some.inj h)).2).1 hne
    | some e =>
      obtain ⟨r,-,he⟩ := Option.map_eq_some_iff.mp h
      exact absurd (Prod.mk.inj (Prod.mk.inj he).2).1 hne
  | testStop n =>
    simp only [drainLoop] at h
    split_ifs at h <;> cases h
  | loop n => cases h
  | count ph item => cases h

end Runs

theorem initialised_draining (S : RingSize) (d : ℕ) (c : InitCall) :
    Draining S 1 (fun _ => d) 0 d [] (initialised d c) [] (Queue.registered 1) (.loop 0) where
  queue := rfl
  run := by
    have hlocals : (fun t => queueLocal ((initialised d c).locals t)) =
        (Config.start 1 : Config LogEntry).locals := by
      funext t
      by_cases ht : t = d <;> simp [initialised,queueLocal,ht,Config.start]
    rw [hlocals]
    exact .start
  owner := rfl
  active := rfl
  consumer := rfl
  sink := rfl
  notEnded := rfl
  drain := by simp [initialised]
  looping := Or.inl trivial
  others t ht := by simp [initialised,ht,Outside]
  handed := rfl

def untilLeftCheck (d : ℕ) (c : LoggerConf) (_ : ℕ) (m : LoggerMove) : Bool :=
  !(m matches .init _) && !(c.locals d matches .drain .left)

theorem untilLeft_of_check (d : ℕ) (c : LoggerConf) (t : ℕ) (m : LoggerMove)
    (h : untilLeftCheck d c t m = true) : UntilLeft d c t m := by
  unfold untilLeftCheck at h
  constructor
  · rintro call rfl
    simp at h
  · intro hl
    simp [hl] at h

end MpmcLogger.LoggerDrain
