import MpmcLogger.DrainOutput
import MpmcLogger.SinkAcceptance
import MpmcLogger.SinkFailure

/-!
# Counting what was drained

The drain loop counts an entry when it has popped it and writes it afterwards,
whatever comes of the write. Between two entries the count is thus the number of
writes made, and it is the number of writes accepted exactly when the sink
accepts every one of them.
-/

set_option autoImplicit false

namespace MpmcLogger.DrainAcceptance
open Interleaving MachineWord MpmcLogger.QueueMachine MpmcLogger.QueueHistory
open MpmcLogger.EntryLayout MpmcLogger.Formatter MpmcLogger.LoggerMachine MpmcLogger.LoggerDrain
open MpmcLogger.LoggerSetup MpmcLogger.LoggerShutdown MpmcLogger.DrainOutput
open MpmcLogger.SinkMachine MpmcLogger.SinkSteps MpmcLogger.SinkBounds MpmcLogger.SinkFailure
open MpmcLogger.SinkAcceptance

def counted (tr : List LoggerEvent) : ℕ := tr.countP fun | .counted => true | _ => false

def pending : DrainPc → ℕ
  | .hand _ _ => 1
  | _ => 0

def BetweenEntries : Thread → Prop
  | .drain (.hand _ _) => False
  | _ => True

@[simp] theorem counted_append (tr es : List LoggerEvent) :
    counted (tr++es) = counted tr+counted es := List.countP_append

@[simp] theorem counted_nil : counted [] = 0 := rfl

@[simp] theorem counted_map (es : List (Event LogEntry)) : counted (es.map .queue) = 0 := by
  induction es with
  | nil => rfl
  | cons e es ih => exact ih

section Steps

variable {S : RingSize} {date : ℕ → DatePrefix} {t : ℕ} {s s' : Logger} {pc pc' : DrainPc}
  {es : List LoggerEvent}

theorem onQueue_drained {m : Move LogEntry} {l l' : Local LogEntry} {fs : List (Event LogEntry)}
    (h : s.onQueue S t m l = some (s',l',fs)) : s'.entriesDrained = s.entriesDrained := by
  obtain ⟨q,q',-,-,rfl⟩ := onQueue_acts h
  rfl

theorem pending_missed (ph : Phase) : pending ph.missed = 0 := by
  cases ph with
  | final => rfl
  | batch i gotAny n => cases gotAny <;> rfl

theorem pending_popped (ph : Phase) : pending ph.popped = 0 := by
  cases ph <;> rfl

theorem pending_afterPop (ph : Phase) (l : Local LogEntry) (fs : List (Event LogEntry)) :
    pending (afterPop ph l fs) = 0 := by
  unfold afterPop
  split
  · rfl
  · exact pending_missed ph
  · rfl

structure Counts (s s' : Logger) (pc pc' : DrainPc) (es : List LoggerEvent) : Prop where
  handing : counted es+pending pc = (handed es).length+pending pc'
  drained : s'.entriesDrained = s.entriesDrained ∧ counted es = 0 ∨
    s'.entriesDrained = u64 (s.entriesDrained+1) ∧ counted es = 1

theorem drain_counts (hs : s.sink = true) (h : drainLoop S date t s pc = some (s',pc',es)) :
    Counts s s' pc pc' es := by
  have hcall : ∀ ph, pending pc = 0 → s.callPop S t ph = some (s',pc',es) →
      Counts s s' pc pc' es := by
    intro ph hpc hc
    obtain ⟨⟨u,k,fs⟩,hu,he⟩ := Option.map_eq_some_iff.mp hc
    cases he
    refine ⟨?_,Or.inl ⟨onQueue_drained hu,counted_map fs⟩⟩
    rw [counted_map,handed_map,hpc]
    rfl
  cases pc with
  | pop ph l =>
    obtain ⟨⟨u,k,fs⟩,hu,he⟩ := Option.map_eq_some_iff.mp h
    cases he
    refine ⟨?_,Or.inl ⟨onQueue_drained hu,counted_map fs⟩⟩
    rw [counted_map,handed_map,pending_afterPop]
    rfl
  | stragglers => exact hcall _ rfl h
  | batch i gotAny n =>
    simp only [drainLoop] at h
    split_ifs at h
    · exact hcall _ rfl h
    · cases h
      cases gotAny <;> exact ⟨rfl,Or.inl ⟨rfl,rfl⟩⟩
  | count ph item =>
    cases h
    exact ⟨rfl,Or.inr ⟨rfl,rfl⟩⟩
  | hand ph item =>
    cases item with
    | none =>
      cases h
      exact ⟨by rw [pending_popped]; rfl,Or.inl ⟨rfl,rfl⟩⟩
    | some e =>
      obtain ⟨r,hr,he⟩ := Option.map_eq_some_iff.mp h
      have hpos := format_pos hr
      simp only [hpos,hs,and_self,if_true] at he
      cases he
      exact ⟨by rw [pending_popped]; rfl,Or.inl ⟨rfl,rfl⟩⟩
  | waiting =>
    simp only [drainLoop] at h
    split_ifs at h
    cases h
    exact ⟨rfl,Or.inl ⟨rfl,rfl⟩⟩
  | testStop n =>
    simp only [drainLoop] at h
    split_ifs at h <;> cases h <;> exact ⟨rfl,Or.inl ⟨rfl,rfl⟩⟩
  | loop n | left =>
    cases h
    exact ⟨rfl,Or.inl ⟨rfl,rfl⟩⟩

theorem outside_counted {m : LoggerMove} {l l' : Thread} (hl : Outside l)
    (h : loggerAct S date t m s l = some (s',l',es)) : counted es = 0 := by
  apply List.countP_eq_zero.mpr
  intro e he
  have hemits := act_emits h e he
  cases e with
  | counted =>
    cases l with
    | init c pc => exact hl.elim
    | drain pc => exact hl.elim
    | shutdown pc => cases pc <;> exact hemits.elim
    | _ => exact hemits.elim
  | _ => exact Bool.false_ne_true

end Steps

structure Tallied (d : ℕ) (n₀ : ℕ) (c : LoggerConf) (tr : List LoggerEvent) : Prop where
  drained : u64 c.shared.entriesDrained = u64 (n₀+counted tr)
  handing : ∀ pc, c.locals d = .drain pc → counted tr = (handed tr).length+pending pc
  nonempty : ∀ x ∈ sunk tr, 0 < x.2.length

section Runs

variable {S : RingSize} {date : ℕ → DatePrefix} {n : ℕ} {own : ConsumerId → ℕ}
  {cid : ConsumerId} {d t n₀ : ℕ} {tr₀ : List (Event LogEntry)} {c c' c₀ : LoggerConf}
  {tr es : List LoggerEvent} {q q' q₀ : Queue LogEntry} {pc pc' : DrainPc} {s : Logger} {l : Thread}

theorem tallied_outside (h : Tallied d n₀ c tr) (ht : t ≠ d)
    (hs : OutsideStep S own t c.shared s (c.locals t) l es q q') (hc : counted es = 0) :
    Tallied d n₀ ⟨s,Function.update c.locals t l⟩ (tr++es) where
  drained := by
    obtain ⟨b,r,i,rfl,-⟩ := hs.frame
    rw [counted_append,hc]
    exact h.drained
  handing pc hpc := by
    rw [counted_append,hc,handed_append,hs.handed,List.append_nil]
    exact h.handing pc (by simpa [Function.update_of_ne ht.symm] using hpc)
  nonempty := by
    rw [sunk_append,sunk_of_handed hs.handed,List.append_nil]
    exact h.nonempty

theorem tallied_drain (h : Tallied d n₀ c tr) (hpc : c.locals d = .drain pc)
    (hs : DrainStep date S own cid d c.shared s pc pc' es q q')
    (hc : Counts c.shared s pc pc' es) :
    Tallied d n₀ ⟨s,Function.update c.locals d (.drain pc')⟩ (tr++es) where
  drained := by
    have hd := h.drained
    rw [counted_append]
    rcases hc.drained with ⟨he,h0⟩ | ⟨he,h1⟩
    · rw [he,h0]
      exact hd
    · rw [he,h1]
      unfold u64 at *
      omega
  handing pc₁ h₁ := by
    obtain rfl : pc' = pc₁ := by simpa using h₁
    have := h.handing pc hpc
    have := hc.handing
    rw [counted_append,handed_append,List.length_append]
    omega
  nonempty x hx := by
    rw [sunk_append] at hx
    rcases List.mem_append.mp hx with hx | hx
    · exact h.nonempty x hx
    · rcases hs.formats with ⟨hnone,-⟩ | ⟨e,r,hr,hsunk,-⟩
      · rw [hnone] at hx
        cases hx
      · rw [hsunk] at hx
        obtain rfl := List.mem_singleton.mp hx
        exact format_pos hr

theorem run_tallied (h₀ : Draining S n own cid d tr₀ c₀ [] q₀ (.loop 0))
    (r : (logger S date).Run (UntilLeft d) c₀ c tr) :
    Tallied d c₀.shared.entriesDrained c tr := by
  induction r with
  | start =>
    refine ⟨rfl,fun pc hpc => ?_,by simp⟩
    rw [h₀.drain] at hpc
    obtain rfl := Thread.drain.inj hpc
    rfl
  | @next c c' tr es t m r g hstep ih =>
    obtain ⟨q,pc,h⟩ := run_draining h₀ r
    rcases draining_step h g hstep with ⟨ht,q',l,s,rfl,hs⟩ | ⟨rfl,-,-,q',pc',s,rfl,hu,hs⟩
    · obtain ⟨s',l',ha,he⟩ := step_some hstep
      exact tallied_outside ih ht hs (outside_counted (h.others t ht) ha)
    · exact tallied_drain ih h.drain hs (drain_counts h.sink hu)

/-- No copy out of the ring is torn. -/
theorem sunk_length (h : Draining S n own cid d tr₀ c tr q pc) (hn : n ≤ maxConsumers) :
    (sunk tr).length = (handed tr).length := by
  have hall : ∀ x ∈ handed tr, x.isSome = true := by
    intro x hx
    have hmem : x ∈ pops cid tr₀++(handed tr++inHand pc) :=
      List.mem_append_right _ (List.mem_append_left _ hx)
    rw [draining_pops h hn] at hmem
    obtain ⟨a,-,rfl⟩ := List.mem_map.mp hmem
    rfl
  unfold sunk handed at *
  rw [List.length_map]
  apply List.reduceOption_length_eq_iff.mpr
  intro w hw
  have := hall _ (List.mem_map_of_mem hw)
  simpa using this

end Runs

/-- The drain loop in either format, its writes going to a newly constructed
sink whose system calls may fail in any way. Where no entry is between its count
and its write, the entries counted are those handed to the sink; if a region holds
each formatted entry, their number is that of the writes the sink accepted exactly
when every write found its region. -/
theorem counted_accepted_iff (S : RingSize) (date : ℕ → DatePrefix) (n : ℕ)
    (own : ConsumerId → ℕ) (cid : ConsumerId) (d : ℕ) (tr₀ : List (Event LogEntry))
    (c₀ c : LoggerConf) (tr : List LoggerEvent) (q₀ : Queue LogEntry)
    (h₀ : Draining S n own cid d tr₀ c₀ [] q₀ (.loop 0)) (hn : n ≤ maxConsumers)
    (r : (logger S date).Run (UntilLeft d) c₀ c tr) (hset : BetweenEntries (c.locals d))
    (g : Settings) (os : Os) (w : World) (s₀ : State) (es : List SinkMachine.Event)
    (h : construct g os w = .ok (s₀,es)) (cs : List Call)
    (hcs : cs.map Call.data = (sunk tr).map Prod.snd) :
    u64 c.shared.entriesDrained = u64 (c₀.shared.entriesDrained+counted tr) ∧
    counted tr = (sunk tr).length ∧
    ((∀ e ∈ cs, Fits g e.data) → (counted tr = acceptedCount s₀ cs ↔ AcceptsEach s₀ cs)) := by
  obtain ⟨q,pc,hd⟩ := run_draining h₀ r
  have ht := run_tallied h₀ r
  have hpending : pending pc = 0 := by
    rw [hd.drain] at hset
    cases pc <;> first | rfl | exact hset.elim
  have hsunk : counted tr = (sunk tr).length := by
    rw [sunk_length hd hn,ht.handing pc hd.drain,hpending,Nat.add_zero]
  have hlen : counted tr = cs.length := by
    have hcalls := congrArg List.length hcs
    rw [List.length_map,List.length_map] at hcalls
    omega
  have hpos : ∀ e ∈ cs, 0 < e.data.length := by
    intro e he
    have hmem : e.data ∈ (sunk tr).map Prod.snd := by
      rw [← hcs]
      exact List.mem_map_of_mem he
    obtain ⟨x,hx,hxe⟩ := List.mem_map.mp hmem
    rw [← hxe]
    exact ht.nonempty x hx
  refine ⟨ht.drained,hsunk,fun hfit => ?_⟩
  obtain ⟨hb,hset⟩ := construct_bounded h
  rw [hlen,← acceptedCount_iff hb (construct_open h) cs hpos (by rwa [hset])]
  exact eq_comm

def recordSettings : Settings := appLog 128 (2^20) 8

def atBatch : Thread → Bool
  | .drain (.batch ..) => true
  | _ => false

theorem two_entries_drained : ∃ (c : LoggerConf) (tr : List LoggerEvent),
    (logger queueSize noDate).Run (UntilLeft 0) (initialised 0 binaryInit) c tr ∧
    BetweenEntries (c.locals 0) ∧ counted tr = 2 ∧
    (sunk tr).map Prod.snd = [emptyEntry.toBytes,emptyEntry.toBytes] := by
  obtain ⟨c,tr,r,hp⟩ := exec_any (logger queueSize noDate) (initialised 0 binaryInit)
    (untilLeft_of_check 0) (pushMoves 1 7++pushMoves 1 7++List.replicate 19 (0,.go))
    (fun r => decide (counted r.2 = 2 ∧
      (sunk r.2).map Prod.snd = [emptyEntry.toBytes,emptyEntry.toBytes]) &&
      atBatch (r.1.locals 0)) (by decide +kernel)
  obtain ⟨hp,hpc⟩ := Bool.and_eq_true_iff.mp hp
  obtain ⟨hc,hs⟩ := of_decide_eq_true hp
  refine ⟨c,tr,r,?_,hc,hs⟩
  unfold atBatch at hpc
  split at hpc
  · next he =>
    rw [he]
    trivial
  · cases hpc

def recordCalls (os : Os) : List Call := [⟨pageOs 4096,emptyEntry.toBytes⟩,⟨os,emptyEntry.toBytes⟩]

theorem records_accepted (g : Settings) (os : Os) (k : ℕ)
    (h : (construct g (pageOs 4096) .empty).toOption.any fun r =>
      decide (acceptedCount r.1 (recordCalls os) = k)) :
    ∃ s es, construct g (pageOs 4096) .empty = .ok (s,es) ∧
      acceptedCount s (recordCalls os) = k := by
  obtain ⟨⟨s,es⟩,hs,hk⟩ := (Option.any_eq_true _ _).mp h
  exact ⟨s,es,built_some hs,of_decide_eq_true hk⟩

/-- In a region of one page both entries are counted and stored. -/
theorem counted_accepted_two : ∃ (c : LoggerConf) (tr : List LoggerEvent) (s : State)
    (es : List SinkMachine.Event),
    (logger queueSize noDate).Run (UntilLeft 0) (initialised 0 binaryInit) c tr ∧
    construct pageSettings (pageOs 4096) .empty = .ok (s,es) ∧ counted tr = 2 ∧
    acceptedCount s (recordCalls (pageOs 4096)) = 2 ∧
    AcceptsEach s (recordCalls (pageOs 4096)) := by
  obtain ⟨c,tr,r,hset,hc,hs⟩ := two_entries_drained
  obtain ⟨s,es,he,hk⟩ := records_accepted pageSettings (pageOs 4096) 2 (by decide +kernel)
  have hfit : ∀ e ∈ recordCalls (pageOs 4096), Fits pageSettings e.data := by
    intro e he
    obtain rfl : e = ⟨pageOs 4096,emptyEntry.toBytes⟩ := by simpa [recordCalls] using he
    unfold Fits
    rw [length_toBytes]
    decide
  obtain ⟨-,-,hiff⟩ := counted_accepted_iff queueSize noDate 1 (fun _ => 0) 0 0 []
    (initialised 0 binaryInit) c tr (Queue.registered 1)
    (initialised_draining queueSize 0 binaryInit) (by decide) r hset pageSettings (pageOs 4096)
    .empty s es he (recordCalls (pageOs 4096)) hs.symm
  exact ⟨c,tr,s,es,r,he,hc,hk,(hiff hfit).mp (hc.trans hk.symm)⟩

/-- The file cannot be extended for the second record: two entries are counted,
one is stored. -/
theorem counted_not_stored : ∃ (c : LoggerConf) (tr : List LoggerEvent) (s : State)
    (es : List SinkMachine.Event),
    (logger queueSize noDate).Run (UntilLeft 0) (initialised 0 binaryInit) c tr ∧
    BetweenEntries (c.locals 0) ∧ construct recordSettings (pageOs 4096) .empty = .ok (s,es) ∧
    (recordCalls spacelessOs).map Call.data = (sunk tr).map Prod.snd ∧ counted tr = 2 ∧
    acceptedCount s (recordCalls spacelessOs) = 1 := by
  obtain ⟨c,tr,r,hset,hc,hs⟩ := two_entries_drained
  obtain ⟨s,es,he,hk⟩ := records_accepted recordSettings spacelessOs 1 (by decide +kernel)
  exact ⟨c,tr,s,es,r,hset,he,hs.symm,hc,hk⟩

end MpmcLogger.DrainAcceptance
