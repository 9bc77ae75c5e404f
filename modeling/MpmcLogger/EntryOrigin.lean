import MpmcLogger.LoggerDrain

/-!
# Where the written entries come from

Whatever threads do, registrations and shutdowns at any time included, the queue
hands out nothing but items of pushes: a property of all items pushed is one of
every item held by a slot or by a call in progress, and so of all items popped.
The logger adds no entry of its own between a push and the sink.
-/

set_option autoImplicit false

namespace MpmcLogger.EntryOrigin
open Interleaving CopiedCell MachineWord MpmcLogger.QueueMachine MpmcLogger.QueueHistory
open MpmcLogger.EntryLayout MpmcLogger.Formatter MpmcLogger.LoggerMachine MpmcLogger.LoggerDrain

section Queue

variable {T : Type*} {P : T → Prop} {S : RingSize} {t : ℕ} {m : Move T} {q q' : Queue T}
  {l l' : Local T} {es : List (Event T)}

def CallerHolds (P : T → Prop) : Caller T → Prop
  | .push x _ _ => P x
  | .recompute => True

def Holds (P : T → Prop) : Local T → Prop
  | .pushLoadHead x | .pushLoadMinTail x _ | .pushCas x _ | .pushCopyBegin x _
  | .pushCopyEnd x _ | .pushPublish x _ => P x
  | .scanActive k _ _ | .scanTail k _ _ | .storeMinTail k _ => CallerHolds P k
  | .popCopyEnd _ _ before => before.Only P
  | .popStoreTail _ _ item => ∀ x ∈ item, P x
  | _ => True

def Stores (P : T → Prop) (q : Queue T) : Prop := ∀ i, (q.slots i).data.Only P

def Pushes (P : T → Prop) : Move T → Prop
  | .call (.push x) => P x
  | _ => True

theorem stores_setSlot {i : ℕ} {s : Slot T} (hq : Stores P q) (hs : s.data.Only P) :
    Stores P (q.setSlot i s) := by
  intro k
  rw [setSlot_slots]
  split_ifs
  · exact hs
  · exact hq k

theorem holds_entry {op : Op T} (h : Pushes P (.call op)) : Holds P op.entry := by
  cases op <;> exact h

theorem holds_step (hm : Pushes P m) (hq : Stores P q) (hl : Holds P l)
    (h : Step S t m q l q' l' es) : Stores P q' ∧ Holds P l' := by
  cases h with
  | call q op => exact ⟨hq,holds_entry hm⟩
  | copyBegin q x h => exact ⟨stores_setSlot hq (only_beginWrite _ _),hl⟩
  | copyEnd q x h => exact ⟨stores_setSlot hq (only_endWrite _ _ hl),hl⟩
  | publish q x h => exact ⟨stores_setSlot hq (hq _),trivial⟩
  | popBegin q c tail => exact ⟨hq,hq _⟩
  | popEnd q c tail before => exact ⟨hq,fun x hx => only_read hl hx⟩
  | _ => exact ⟨hq,by first | exact hl | trivial⟩

theorem popped_step (hl : Holds P l) (h : Step S t m q l q' l' es) {u : ℕ} {c : ConsumerId} {x : T}
    (he : .popped u c (some x) ∈ es) : P x := by
  cases h with
  | popDone q c tail item =>
    obtain ⟨-,-,rfl⟩ : u = t ∧ tail = tail ∧ item = some x := by simp_all
    exact hl x rfl
  | _ => simp at he

end Queue

section Logger

variable {P : LogEntry → Prop} {S : RingSize} {date : ℕ → DatePrefix} {t : ℕ} {s s' : Logger}
  {es : List LoggerEvent}

def Carries (P : LogEntry → Prop) : Thread → Prop
  | .pushTest e => P e
  | .push l | .init _ (.register l) | .shutdown (.unregister l) | .drain (.pop _ l) => Holds P l
  | .drain (.count _ item) | .drain (.hand _ item) => ∀ e ∈ item, P e
  | _ => True

def QueueStores (P : LogEntry → Prop) (s : Logger) : Prop := ∀ q, s.queue = some q → Stores P q

def Writes (P : LogEntry → Prop) (es : List LoggerEvent) : Prop := ∀ x ∈ sunk es, P x.1

theorem writes_none (h : sunk es = []) : Writes P es := by
  intro x hx
  rw [h] at hx
  cases hx

theorem writes_dropQueue (s : Logger) : Writes P s.dropQueue := by
  unfold Logger.dropQueue
  split_ifs <;> exact writes_none rfl

theorem onQueue_carries {m : Move LogEntry} {l l' : Local LogEntry} {fs : List (Event LogEntry)}
    (h : s.onQueue S t m l = some (s',l',fs)) (hm : Pushes P m) (hs : QueueStores P s)
    (hl : Holds P l) : QueueStores P s' ∧ Holds P l' ∧
      ∀ u c x, .popped u c (some x) ∈ fs → P x := by
  obtain ⟨q,q',hq,ha,rfl⟩ := onQueue_acts h
  obtain ⟨hq',hl'⟩ := holds_step hm (hs q hq) hl (act_step ha)
  refine ⟨fun r hr => ?_,hl',fun u c x => popped_step hl (act_step ha)⟩
  obtain rfl := Option.some.inj hr
  exact hq'

theorem carries_missed (ph : Phase) : Carries P (.drain ph.missed) := by
  cases ph with
  | final => trivial
  | batch i gotAny n => cases gotAny <;> trivial

theorem carries_popped (ph : Phase) : Carries P (.drain ph.popped) := by
  cases ph <;> trivial

theorem carries_afterPop {ph : Phase} {l : Local LogEntry} {fs : List (Event LogEntry)}
    (hl : Holds P l) (hfs : ∀ u c x, .popped u c (some x) ∈ fs → P x) :
    Carries P (.drain (afterPop ph l fs)) := by
  unfold afterPop
  split
  · rintro x rfl
    exact hfs _ _ x List.mem_cons_self
  · exact carries_missed ph
  · exact hl

theorem drainLoop_carries {pc pc' : DrainPc} (hs : QueueStores P s) (hl : Carries P (.drain pc))
    (h : drainLoop S date t s pc = some (s',pc',es)) :
    QueueStores P s' ∧ Carries P (.drain pc') ∧ Writes P es := by
  have hcall : ∀ ph, s.callPop S t ph = some (s',pc',es) →
      QueueStores P s' ∧ Carries P (.drain pc') ∧ Writes P es := by
    intro ph hc
    obtain ⟨⟨u,k,fs⟩,hu,he⟩ := Option.map_eq_some_iff.mp hc
    cases he
    obtain ⟨hs',hk,-⟩ := onQueue_carries (P := P) hu trivial hs trivial
    exact ⟨hs',hk,writes_none (sunk_map fs)⟩
  cases pc with
  | pop ph l =>
    obtain ⟨⟨u,k,fs⟩,hu,he⟩ := Option.map_eq_some_iff.mp h
    cases he
    obtain ⟨hs',hk,hfs⟩ := onQueue_carries hu trivial hs hl
    exact ⟨hs',carries_afterPop hk hfs,writes_none (sunk_map fs)⟩
  | stragglers => exact hcall _ h
  | batch i gotAny n =>
    simp only [drainLoop] at h
    split_ifs at h
    · exact hcall _ h
    · cases h
      exact ⟨hs,carries_missed (.batch i gotAny n),writes_none rfl⟩
  | waiting =>
    simp only [drainLoop] at h
    split_ifs at h
    cases h
    exact ⟨hs,trivial,writes_none rfl⟩
  | testStop n =>
    simp only [drainLoop] at h
    split_ifs at h <;> cases h <;> exact ⟨hs,trivial,writes_none rfl⟩
  | loop n | left =>
    cases h
    exact ⟨hs,trivial,writes_none rfl⟩
  | count ph item =>
    cases h
    exact ⟨hs,hl,writes_none rfl⟩
  | hand ph item =>
    cases item with
    | none =>
      cases h
      exact ⟨hs,carries_popped ph,writes_none rfl⟩
    | some e =>
      obtain ⟨r,-,he⟩ := Option.map_eq_some_iff.mp h
      cases he
      refine ⟨hs,carries_popped ph,?_⟩
      split_ifs
      · intro x hx
        obtain rfl := List.mem_singleton.mp hx
        exact hl e rfl
      · exact writes_none rfl

theorem init_carries {c : InitCall} {pc : InitPc} {l' : Thread} (hs : QueueStores P s)
    (hl : Carries P (.init c pc)) (h : init S t c s pc = some (s',l',es)) :
    QueueStores P s' ∧ Carries P l' ∧ Writes P es := by
  cases pc with
  | register l =>
    obtain ⟨⟨u,k,fs⟩,hu,he⟩ := Option.map_eq_some_iff.mp h
    obtain ⟨hs',hk,-⟩ := onQueue_carries hu trivial hs hl
    simp only [afterRegister] at he
    split at he
    · cases he
      exact ⟨hs',trivial,writes_none (sunk_map _)⟩
    · cases he
      exact ⟨hs',trivial,writes_none rfl⟩
    · cases he
      exact ⟨hs',hk,writes_none (sunk_map fs)⟩
  | createQueue =>
    cases h
    refine ⟨fun q hq => ?_,trivial,?_⟩
    · obtain rfl := Option.some.inj hq
      exact fun i => only_empty P
    · intro x hx
      rw [sunk_append] at hx
      exact (List.mem_append.mp hx).elim (writes_dropQueue s x) (writes_none rfl x)
  | createSink =>
    simp only [init] at h
    split at h <;> cases h
    · exact ⟨hs,trivial,writes_none rfl⟩
    · exact ⟨hs,trivial,writes_none rfl⟩
  | test | createFormatter =>
    simp only [init] at h
    split_ifs at h <;> cases h <;> exact ⟨hs,trivial,writes_none rfl⟩
  | storeLevel | storeConfig | storeRunning | spawn | storeInitialized =>
    cases h
    exact ⟨hs,trivial,writes_none rfl⟩

theorem shutdown_carries {pc : ShutdownPc} {l' : Thread} (hs : QueueStores P s)
    (hl : Carries P (.shutdown pc)) (h : shutdown S t s pc = some (s',l',es)) :
    QueueStores P s' ∧ Carries P l' ∧ Writes P es := by
  cases pc with
  | exchange =>
    simp only [shutdown] at h
    split_ifs at h <;> cases h <;> exact ⟨hs,trivial,writes_none rfl⟩
  | join =>
    simp only [shutdown] at h
    split_ifs at h
    obtain ⟨⟨u,k,fs⟩,hu,he⟩ := Option.map_eq_some_iff.mp h
    cases he
    obtain ⟨hs',hk,-⟩ := onQueue_carries (P := P) hu trivial hs trivial
    exact ⟨hs',hk,writes_none (sunk_map fs)⟩
  | unregister l =>
    obtain ⟨⟨u,k,fs⟩,hu,he⟩ := Option.map_eq_some_iff.mp h
    cases he
    exact ⟨(onQueue_carries hu trivial hs hl).1,trivial,writes_none (sunk_map fs)⟩
  | resetQueue =>
    cases h
    exact ⟨by rintro q ⟨⟩,trivial,writes_dropQueue s⟩
  | storeRunning | requestStop | resetSink | resetFormatter =>
    cases h
    exact ⟨hs,trivial,writes_none rfl⟩

theorem carries_pushing {l : Local LogEntry} (h : Holds P l) : Carries P (pushing l) := by
  cases l <;> exact h

def Submits (P : LogEntry → Prop) : LoggerMove → Prop
  | .push e => P e
  | _ => True

/-- A step of any thread carries entries on, and writes none but those carried. -/
theorem carries_step {m : LoggerMove} {l l' : Thread} (hm : Submits P m) (hs : QueueStores P s)
    (hl : Carries P l) (h : loggerAct S date t m s l = some (s',l',es)) :
    QueueStores P s' ∧ Carries P l' ∧ Writes P es := by
  have hpush : ∀ {m : Move LogEntry} {k : Local LogEntry}, Pushes P m → Holds P k →
      s.pushStep S t m k = some (s',l',es) → QueueStores P s' ∧ Carries P l' ∧ Writes P es := by
    intro m k hm hk hp
    obtain ⟨⟨u,k',fs⟩,hu,he⟩ := Option.map_eq_some_iff.mp hp
    cases he
    obtain ⟨hs',hk',-⟩ := onQueue_carries hu hm hs hk
    exact ⟨hs',carries_pushing hk',writes_none (sunk_map fs)⟩
  cases l with
  | idle =>
    cases m with
    | push e =>
      cases h
      exact ⟨hs,hm,writes_none rfl⟩
    | init c | shutdown =>
      cases h
      exact ⟨hs,trivial,writes_none rfl⟩
    | go | spurious => cases h
  | pushTest e =>
    cases m with
    | go =>
      simp only [loggerAct] at h
      cases hq : s.queue with
      | none =>
        simp only [hq] at h
        cases h
        exact ⟨hs,trivial,writes_none rfl⟩
      | some q =>
        simp only [hq] at h
        exact hpush (m := .call (.push e)) (k := .idle) hl trivial h
    | _ => cases h
  | push k =>
    cases m with
    | go => exact hpush (m := .go) trivial hl h
    | spurious => exact hpush (m := .spurious) trivial hl h
    | _ => cases h
  | init c pc =>
    cases m with
    | go => exact init_carries hs hl h
    | _ => cases h
  | shutdown pc =>
    cases m with
    | go => exact shutdown_carries hs hl h
    | _ => cases h
  | drain pc =>
    cases m with
    | go =>
      obtain ⟨⟨u,pc',fs⟩,hu,he⟩ := Option.map_eq_some_iff.mp h
      cases he
      exact drainLoop_carries hs hl hu
    | _ => cases h

end Logger

end MpmcLogger.EntryOrigin
