import MpmcLogger.QueueHistory
import MpmcLogger.LoggerMachine

/-!
# An initialised logger

An initialisation that runs alone and throws nothing leaves a new queue with one
consumer, that of the drain thread, whose loop is about to begin.
-/

set_option autoImplicit false

namespace MpmcLogger.LoggerSetup
open Interleaving MachineWord MpmcLogger.QueueMachine MpmcLogger.QueueHistory
open MpmcLogger.EntryLayout MpmcLogger.Formatter MpmcLogger.LoggerMachine

def initialised (d : ℕ) (c : InitCall) : LoggerConf where
  shared := { Logger.fresh with
    queue := some (Queue.registered 1)
    sink := true
    textFmt := if c.config.outputFormat = .text then some ⟨.fresh c.datePrefix⟩ else none
    outputFormat := c.config.outputFormat
    running := true
    initialized := true
    minLevel := c.config.minLevel
    drainBatchSize := c.config.drainBatchSize
    spinCountBeforeYield := c.config.spinCountBeforeYield }
  locals t := if t = d then .drain (.loop 0) else .idle

section Setup

variable {S : RingSize} {date : ℕ → DatePrefix} {c₀ : LoggerConf} {s s' : Logger} {l l' : Thread}
  {f : ℕ → Thread} {t : ℕ} {tr es : List LoggerEvent}

theorem act_next {m : LoggerMove}
    (r : (logger S date).Run Unguarded c₀ ⟨s,Function.update f t l⟩ tr)
    (h : loggerAct S date t m s l = some (s',l',es)) :
    (logger S date).Run Unguarded c₀ ⟨s',Function.update f t l'⟩ (tr++es) := by
  apply r.next (i := t) (m := m) trivial
  simp [System.step,logger,h]

theorem register_next {c : InitCall} {q q' : Queue LogEntry} {k k' : Local LogEntry}
    {fs : List (Event LogEntry)}
    (r : (logger S date).Run Unguarded c₀
      ⟨{ s with queue := some q },Function.update f t (.init c (.register k))⟩ tr)
    (h : advance S t q k = some (q',k',fs)) (hk : k' ≠ .idle) :
    ∃ tr', (logger S date).Run Unguarded c₀
      ⟨{ s with queue := some q' },Function.update f t (.init c (.register k'))⟩ tr' := by
  have hafter : afterRegister t c { s with queue := some q' } k' fs =
      ({ s with queue := some q' },.init c (.register k'),fs.map .queue) := by
    cases k' <;> first | rfl | exact absurd rfl hk
  have hact : loggerAct S date t .go { s with queue := some q } (.init c (.register k)) =
      some ({ s with queue := some q' },.init c (.register k'),fs.map .queue) := by
    simp [loggerAct,init,Logger.onQueue,act,h,hafter]
  exact ⟨_,act_next r hact⟩

theorem registered_next {c : InitCall} {q q' : Queue LogEntry} {k : Local LogEntry}
    {id : ConsumerId}
    (r : (logger S date).Run Unguarded c₀
      ⟨{ s with queue := some q },Function.update f t (.init c (.register k))⟩ tr)
    (h : advance S t q k = some (q',.idle,[.registered t id])) :
    ∃ tr', (logger S date).Run Unguarded c₀
      ⟨{ s with queue := some q', consumerId := id },
        Function.update f t (.init c .createSink)⟩ tr' := by
  have hact : loggerAct S date t .go { s with queue := some q } (.init c (.register k)) =
      some ({ s with queue := some q', consumerId := id },.init c .createSink,
        [.queue (.registered t id)]) := by
    simp [loggerAct,init,Logger.onQueue,act,h,afterRegister]
  exact ⟨_,act_next r hact⟩

theorem init_registers {c : InitCall}
    (r : (logger S date).Run Unguarded c₀ ⟨s,Function.update f t (.init c .createQueue)⟩ tr) :
    ∃ tr', (logger S date).Run Unguarded c₀
      ⟨{ s with queue := some (Queue.registered 1), consumerId := 0 },
        Function.update f t (.init c .createSink)⟩ tr' := by
  let q : Queue LogEntry := { Queue.new with numConsumers := u32 (0+1) }
  have r₁ := act_next (m := .go) r rfl
  have hticket : advance S t (Queue.new : Queue LogEntry) .registerFetchAdd =
      some (q,.registerLoadHead 0,[.ticket t 0]) := rfl
  obtain ⟨_,r₂⟩ := register_next r₁ hticket (by simp)
  obtain ⟨_,r₃⟩ := register_next r₂ rfl (by simp)
  obtain ⟨_,r₄⟩ := register_next r₃ rfl (by simp)
  apply registered_next r₄
  rw [← raise_registered 0 (by decide)]
  simp [advance,Queue.setConsumer,Queue.new,Queue.registered,q]

theorem init_configures {c : InitCall} (hs : s.initialized = false)
    (r : (logger S date).Run Unguarded c₀ ⟨s,Function.update f t .idle⟩ tr) :
    ∃ tr', (logger S date).Run Unguarded c₀
      ⟨{ s with
          minLevel := c.config.minLevel
          outputFormat := c.config.outputFormat
          drainBatchSize := c.config.drainBatchSize
          spinCountBeforeYield := c.config.spinCountBeforeYield },
        Function.update f t (.init c .createQueue)⟩ tr' := by
  have htest : loggerAct S date t .go s (.init c .test) = some (s,.init c .storeLevel,[]) := by
    simp [loggerAct,init,hs]
  have r₁ := act_next (m := .init c) r rfl
  have r₂ := act_next r₁ htest
  have r₃ := act_next (m := .go) r₂ rfl
  exact ⟨_,act_next (m := .go) r₃ rfl⟩

theorem init_spawns {c : InitCall} (hc : c.sinkError = none)
    (r : (logger S date).Run Unguarded c₀ ⟨s,Function.update f t (.init c .createSink)⟩ tr) :
    ∃ tr', (logger S date).Run Unguarded c₀
      ⟨{ s with
          sink := true
          textFmt := if s.outputFormat = .text then some ⟨.fresh c.datePrefix⟩ else s.textFmt
          running := true
          drainSpawned := true
          drainEnded := false
          stop := false
          initialized := true },Function.update f t .idle⟩ tr' := by
  have hsink : loggerAct S date t .go s (.init c .createSink) =
      some ({ s with sink := true },.init c .createFormatter,[]) := by
    simp [loggerAct,init,hc]
  have hfmt : loggerAct S date t .go { s with sink := true } (.init c .createFormatter) =
      some ({ s with
        sink := true
        textFmt := if s.outputFormat = .text then some ⟨.fresh c.datePrefix⟩ else s.textFmt },
        .init c .storeRunning,[]) := by
    simp only [loggerAct,init]
    split_ifs <;> rfl
  have r₁ := act_next r hsink
  have r₂ := act_next r₁ hfmt
  have r₃ := act_next (m := .go) r₂ rfl
  have r₄ := act_next (m := .go) r₃ rfl
  exact ⟨_,act_next (m := .go) r₄ rfl⟩

theorem init_run (S : RingSize) (date : ℕ → DatePrefix) (d t : ℕ) (ht : t ≠ d) (c : InitCall)
    (hc : c.sinkError = none) :
    ∃ tr, (logger S date).Run Unguarded (LoggerConf.start d) (initialised d c) tr := by
  have hidle : (LoggerConf.start d).locals t = .idle := if_neg ht
  have r₀ : (logger S date).Run Unguarded (LoggerConf.start d)
      ⟨.fresh,Function.update (LoggerConf.start d).locals t .idle⟩ [] := by
    rw [← hidle,Function.update_eq_self]
    exact .start
  obtain ⟨_,r₁⟩ := init_configures (c := c) rfl r₀
  obtain ⟨_,r₂⟩ := init_registers r₁
  obtain ⟨_,r₃⟩ := init_spawns hc r₂
  rw [← hidle,Function.update_eq_self] at r₃
  have hlocals : Function.update (LoggerConf.start d).locals d (.drain (.loop 0)) =
      (initialised d c).locals := by
    funext j
    by_cases hj : j = d
    · subst hj
      simp [initialised]
    · simp [LoggerConf.start,initialised,hj]
  have hact : ∀ s : Logger, s.drainSpawned = true →
      (logger S date).step ⟨s,(LoggerConf.start d).locals⟩ d .go =
        some (⟨{ s with drainSpawned := false },(initialised d c).locals⟩,[]) := by
    intro s hs
    simp [System.step,logger,LoggerConf.start,loggerAct,drainLoop,hs,← hlocals]
  exact ⟨_,r₃.next trivial (hact _ rfl)⟩
end Setup

end MpmcLogger.LoggerSetup
