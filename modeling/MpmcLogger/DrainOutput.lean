import MpmcLogger.LoggerShutdown

/-!
# What the drain loop writes, and that it ends

Once the stop is requested and no push is in progress or begins, the measure of
this module falls with every step of the drain thread: an entry still to be read
outweighs the way from a pop back to the next one. When the loop is left, the
entries published from the initial tail on have been written, each once and in
order, as one formatter renders them.
-/

set_option autoImplicit false

namespace MpmcLogger.DrainOutput
open Interleaving MachineWord MpmcLogger.QueueMachine MpmcLogger.QueueHistory
open MpmcLogger.QueueInvariant MpmcLogger.QueueExclusion MpmcLogger.QueueDelivery
open MpmcLogger.EntryLayout MpmcLogger.Formatter MpmcLogger.LoggerMachine
open MpmcLogger.LoggerSetup MpmcLogger.LoggerDrain MpmcLogger.LoggerShutdown

section Formatting

variable (date : ℕ → DatePrefix)

def formatEntry : OutputFormat → Option TextFormatter → LogEntry → Option TextFormatter × Bytes
  | .binary, f, e => (f,BinaryFormatter.format e TextFormatter.maxFormattedSize)
  | .text, none, _ => (none,[])
  | .text, some f, e =>
    let r := f.format date e TextFormatter.maxFormattedSize
    (some r.1,r.2)

def formatAll (fmt : OutputFormat) :
    Option TextFormatter → List LogEntry → Option TextFormatter × List (LogEntry × Bytes)
  | f, [] => (f,[])
  | f, e::es =>
    let r := formatEntry date fmt f e
    let rest := formatAll fmt r.1 es
    (rest.1,(e,r.2)::rest.2)

theorem formatAll_snoc (fmt : OutputFormat) (f : Option TextFormatter) (es : List LogEntry)
    (e : LogEntry) : formatAll date fmt f (es++[e]) =
      ((formatEntry date fmt (formatAll date fmt f es).1 e).1,(formatAll date fmt f es).2++
        [(e,(formatEntry date fmt (formatAll date fmt f es).1 e).2)]) := by
  induction es generalizing f with
  | nil => rfl
  | cons a es ih => simp only [List.cons_append,formatAll,ih]

@[simp] theorem formatAll_entries (fmt : OutputFormat) (f : Option TextFormatter)
    (es : List LogEntry) : (formatAll date fmt f es).2.map Prod.fst = es := by
  induction es generalizing f with
  | nil => rfl
  | cons e es ih => simp [formatAll,ih]

theorem format_formatEntry {s : Logger} {e : LogEntry} {r : Option TextFormatter × Bytes}
    (h : s.format date e = some r) : formatEntry date s.outputFormat s.textFmt e = r := by
  unfold Logger.format at h
  cases hf : s.outputFormat with
  | binary =>
    rw [hf] at h
    exact Option.some.inj h
  | text =>
    rw [hf] at h
    obtain ⟨f,hs,rfl⟩ := Option.map_eq_some_iff.mp h
    rw [hs]
    rfl

end Formatting

structure Rendered (date : ℕ → DatePrefix) (fmt : OutputFormat) (f₀ : Option TextFormatter)
    (s : Logger) (tr : List LoggerEvent) : Prop where
  format : s.outputFormat = fmt
  furnished : fmt = .text → s.textFmt.isSome = true
  rendered : ∃ es, sunk tr = (formatAll date fmt f₀ es).2 ∧
    s.textFmt = (formatAll date fmt f₀ es).1

theorem rendered_start (date : ℕ → DatePrefix) {s : Logger}
    (h : s.outputFormat = .text → s.textFmt.isSome = true) :
    Rendered date s.outputFormat s.textFmt s [] := ⟨rfl,h,[],rfl,rfl⟩

section Steps

variable {S : RingSize} {date : ℕ → DatePrefix} {n : ℕ} {own : ConsumerId → ℕ}
  {cid : ConsumerId} {d t : ℕ} {tr₀ : List (Event LogEntry)} {c c' : LoggerConf}
  {tr es : List LoggerEvent} {q q' : Queue LogEntry} {pc pc' : DrainPc} {m : LoggerMove}
  {s s' : Logger} {l l' : Thread} {fmt : OutputFormat} {f₀ : Option TextFormatter}

theorem sunk_of_handed (h : handed es = []) : sunk es = [] := by
  have hw : writes es = [] := List.map_eq_nil_iff.mp h
  rw [sunk,hw]
  rfl

theorem rendered_outside (h : Rendered date fmt f₀ s tr)
    (hs : OutsideStep S own t s s' l l' es q q') : Rendered date fmt f₀ s' (tr++es) := by
  obtain ⟨b,r,i,rfl,-⟩ := hs.frame
  refine ⟨h.format,h.furnished,?_⟩
  rw [sunk_append,sunk_of_handed hs.handed,List.append_nil]
  exact h.rendered

theorem formatEntry_furnished {f : Option TextFormatter} {e : LogEntry} (hf : f.isSome = true) :
    (formatEntry date .text f e).1.isSome = true := by
  obtain ⟨g,rfl⟩ := Option.isSome_iff_exists.mp hf
  rfl

theorem rendered_drain (h : Rendered date fmt f₀ s tr)
    (hs : DrainStep date S own cid d s s' pc pc' es q q') :
    Rendered date fmt f₀ s' (tr++es) := by
  have hformat : s'.outputFormat = fmt := by
    obtain ⟨n,f,rfl⟩ := hs.frame
    exact h.format
  obtain ⟨es₀,hsunk,hfmt⟩ := h.rendered
  rcases hs.formats with ⟨hnone,hsame⟩ | ⟨e,r,hr,hone,hnext⟩
  · refine ⟨hformat,by rw [hsame]; exact h.furnished,es₀,?_,by rw [hsame,hfmt]⟩
    rw [sunk_append,hnone,List.append_nil,hsunk]
  · have hentry := format_formatEntry date hr
    rw [h.format] at hentry
    refine ⟨hformat,?_,es₀++[e],?_,?_⟩
    · intro ht
      rw [hnext,← hentry,ht]
      exact formatEntry_furnished (h.furnished ht)
    · rw [sunk_append,hone,hsunk,formatAll_snoc,← hfmt,hentry]
    · rw [formatAll_snoc,← hfmt,hentry,hnext]

end Steps

def popRank : Local LogEntry → ℕ
  | .popLoadActive _ => 6
  | .popLoadTail _ => 5
  | .popLoadSequence .. => 4
  | .popCopyBegin .. => 3
  | .popCopyEnd .. => 2
  | .popStoreTail .. => 1
  | _ => 0

def weight : DrainPc → ℕ
  | .count _ _ => 26
  | .hand _ _ => 25
  | .batch _ true _ => 24
  | .pop (.batch _ true _) l => 17+popRank l
  | .loop _ => 17
  | .batch _ false _ => 16
  | .pop (.batch _ false _) l => 9+popRank l
  | .testStop _ => 8
  | .stragglers => 7
  | .pop .final l => popRank l
  | .waiting | .left => 0

def work (cid : ConsumerId) (q : Queue LogEntry) (pc : DrainPc) : ℕ :=
  27*(q.head-(q.consumers cid).tail)+weight pc

section Lowering

variable {S : RingSize} {date : ℕ → DatePrefix} {n : ℕ} {own : ConsumerId → ℕ}
  {cid : ConsumerId} {d t : ℕ} {tr₀ : List (Event LogEntry)} {c c' : LoggerConf}
  {tr es : List LoggerEvent} {q q' : Queue LogEntry} {pc pc' : DrainPc} {m : LoggerMove}
  {s s' : Logger} {l l' : Local LogEntry} {fs : List (Event LogEntry)}

theorem popRank_pos (hl : InPop cid l) : 0 < popRank l := by
  cases l <;> first | exact hl.elim | simp [popRank]

/-- A step inside a pop comes closer to its end, ends it empty-handed, or is the
one that moves the tail. -/
theorem popRank_step (hl : InPop cid l) (h : Step S t .go q l q' l' fs) :
    q' = q ∧ (InPop cid l' ∧ fs = [] ∧ popRank l' < popRank l ∨ l' = .idle ∧ fs = [.empty t cid]) ∨
    ∃ tail x, l = .popStoreTail cid tail x ∧ l' = .idle ∧ fs = [.popped t cid x] ∧
      q' = q.setConsumer cid { q.consumers cid with tail := u64 (tail+1) } := by
  cases h with
  | popInactive q e inactive =>
    obtain rfl : e = cid := hl
    exact Or.inl ⟨rfl,Or.inr ⟨rfl,rfl⟩⟩
  | popNotReady q e tail notReady =>
    obtain rfl : e = cid := hl
    exact Or.inl ⟨rfl,Or.inr ⟨rfl,rfl⟩⟩
  | popDone q e tail x =>
    obtain rfl : e = cid := hl
    exact Or.inr ⟨tail,x,rfl,rfl,rfl,rfl⟩
  | popActive q e active => exact Or.inl ⟨rfl,Or.inl ⟨hl,rfl,by simp [popRank]⟩⟩
  | popTail q e => exact Or.inl ⟨rfl,Or.inl ⟨hl,rfl,by simp [popRank]⟩⟩
  | popReady q e tail ready => exact Or.inl ⟨rfl,Or.inl ⟨hl,rfl,by simp [popRank]⟩⟩
  | popBegin q e tail => exact Or.inl ⟨rfl,Or.inl ⟨hl,rfl,by simp [popRank]⟩⟩
  | popEnd q e tail before => exact Or.inl ⟨rfl,Or.inl ⟨hl,rfl,by simp [popRank]⟩⟩
  | _ => exact hl.elim

theorem weight_pending (ph : Phase) (h : popRank l' < popRank l) :
    weight (.pop ph l') < weight (.pop ph l) := by
  cases ph with
  | final => exact h
  | batch i gotAny n => cases gotAny <;> simp [weight,h]

theorem weight_missed (ph : Phase) (hl : InPop cid l) : weight ph.missed < weight (.pop ph l) := by
  have hpos := popRank_pos hl
  cases ph with
  | final => exact hpos
  | batch i gotAny n => cases gotAny <;> simp [Phase.missed,leaveBatch,weight] <;> omega

theorem weight_popped (ph : Phase) (item : Option LogEntry) :
    weight ph.popped < weight (.hand ph item) := by
  cases ph <;> simp [Phase.popped,weight]

theorem weight_called (i : ℕ) (gotAny : Bool) (n : ℕ) (e : ConsumerId) :
    weight (.pop (.batch i gotAny n) (.popLoadActive e)) < weight (.batch i gotAny n) := by
  cases gotAny <;> simp [weight,popRank]

theorem weight_leaveBatch (i : ℕ) (gotAny : Bool) (n : ℕ) :
    weight (leaveBatch gotAny n) < weight (.batch i gotAny n) := by
  cases gotAny <;> simp [leaveBatch,weight]

/-- Inside a pop an entry taken outweighs the way back to the next one. -/
theorem pop_lowers {ph : Phase} (h : Draining S n own cid d tr₀ c tr q (.pop ph l))
    (hn : n ≤ maxConsumers) (ha : act S d .go q l = some (q',l',fs)) :
    work cid q' (afterPop ph l' fs) < work cid q (.pop ph l) := by
  have hl : InPop cid l := h.looping.resolve_right (by simp)
  rcases popRank_step hl (act_step ha) with
    ⟨rfl,⟨hk,rfl,hlt⟩ | ⟨rfl,rfl⟩⟩ | ⟨tail,x,rfl,rfl,rfl,rfl⟩
  · rw [afterPop_pending ph hk]
    exact Nat.add_lt_add_left (weight_pending ph hlt) _
  · exact Nat.add_lt_add_left (weight_missed ph hl) _
  · have hbase := run_base begun_start h.run hn
    have hok : LocalOk n own d q (tr₀++queueEvents tr) (queueLocal (c.locals d)) :=
      (hbase.good d).ok
    rw [h.drain] at hok
    obtain ⟨-,htail,hpub⟩ := hok
    have hlt := published_lt hbase.sound hpub
    have hhead := run_claims_lt (begun_start : Begun n own _) h.run
    rw [← hbase.sound.head_eq] at hhead
    have hu : u64 (tail+1) = tail+1 := u64_of_lt (by simp only at *; omega)
    have hpos := popRank_pos hl
    have hw : weight (.pop ph (.popStoreTail cid tail x)) > 0 := by
      cases ph with
      | final => exact hpos
      | batch i gotAny n => cases gotAny <;> simp [weight]
    simp only [work,afterPop,weight,setConsumer_head,setConsumer_consumers,if_true,hu] at *
    omega

theorem drain_lowers (h : Draining S n own cid d tr₀ c tr q pc) (hn : n ≤ maxConsumers)
    (hloop : Looping cid pc) (hstop : c.shared.stop = true)
    (hu : drainLoop S date d c.shared pc = some (s',pc',es)) (hq : s'.queue = some q') :
    work cid q' pc' < work cid q pc := by
  have hsame : s'.queue = c.shared.queue → weight pc' < weight pc →
      work cid q' pc' < work cid q pc := by
    intro hs hw
    obtain rfl : q' = q := by
      rw [hq,h.queue] at hs
      exact Option.some.inj hs
    exact Nat.add_lt_add_left hw _
  have hcall : ∀ ph, c.shared.callPop S d ph = some (s',pc',es) →
      weight (.pop ph (.popLoadActive cid)) < weight pc → work cid q' pc' < work cid q pc := by
    intro ph hp hw
    obtain ⟨⟨u,k,fs⟩,hr,he⟩ := Option.map_eq_some_iff.mp hp
    obtain ⟨rfl,rfl,rfl⟩ := Prod.mk.inj he |>.imp_right Prod.mk.inj
    obtain ⟨q₁,ha,rfl⟩ := onQueue_some h.queue hr
    rw [h.consumer] at ha
    cases ha
    exact hsame h.queue.symm hw
  cases pc with
  | waiting => exact hloop.elim
  | left => exact hloop.elim
  | loop i =>
    cases hu
    exact hsame rfl (by simp [weight])
  | batch i gotAny k =>
    simp only [drainLoop] at hu
    split_ifs at hu
    · exact hcall _ hu (weight_called i gotAny k cid)
    · cases hu
      exact hsame rfl (weight_leaveBatch i gotAny k)
  | stragglers => exact hcall _ hu (by simp [weight,popRank])
  | pop ph l =>
    obtain ⟨⟨u,k,fs⟩,hr,he⟩ := Option.map_eq_some_iff.mp hu
    obtain ⟨rfl,rfl,rfl⟩ := Prod.mk.inj he |>.imp_right Prod.mk.inj
    obtain ⟨q₁,ha,rfl⟩ := onQueue_some h.queue hr
    obtain rfl := Option.some.inj hq
    exact pop_lowers h hn ha
  | count ph item =>
    cases hu
    exact hsame rfl (by simp [weight])
  | hand ph item =>
    cases item with
    | none =>
      cases hu
      exact hsame rfl (weight_popped ph none)
    | some e =>
      obtain ⟨r,-,he⟩ := Option.map_eq_some_iff.mp hu
      cases he
      exact hsame rfl (weight_popped ph (some e))
  | testStop k =>
    simp only [drainLoop,hstop,if_true] at hu
    cases hu
    exact hsame rfl (by simp [weight])

theorem drain_enabled (h : Draining S n own cid d tr₀ c tr q pc) (hloop : Looping cid pc)
    (hf : c.shared.outputFormat = .text → c.shared.textFmt.isSome = true) :
    ∃ r, drainLoop S date d c.shared pc = some r := by
  have hcall : ∀ ph, ∃ r, c.shared.callPop S d ph = some r := by
    intro ph
    simp [Logger.callPop,Logger.onQueue,h.queue,act]
  cases pc with
  | waiting => exact hloop.elim
  | left => exact hloop.elim
  | loop i => exact ⟨_,rfl⟩
  | batch i gotAny k =>
    simp only [drainLoop]
    split_ifs
    · exact hcall _
    · exact ⟨_,rfl⟩
  | stragglers => exact hcall _
  | pop ph l =>
    obtain ⟨r,hr⟩ : ∃ r, advance S d q l = some r := by
      cases l with
      | popLoadActive e => simp only [advance]; split_ifs <;> exact ⟨_,rfl⟩
      | popLoadSequence e tail => simp only [advance]; split_ifs <;> exact ⟨_,rfl⟩
      | popLoadTail e => exact ⟨_,rfl⟩
      | popCopyBegin e tail => exact ⟨_,rfl⟩
      | popCopyEnd e tail before => exact ⟨_,rfl⟩
      | popStoreTail e tail x => exact ⟨_,rfl⟩
      | _ => exact hloop.elim
    simp [drainLoop,Logger.onQueue,h.queue,act,hr]
  | count ph item => exact ⟨_,rfl⟩
  | hand ph item =>
    cases item with
    | none => exact ⟨_,rfl⟩
    | some e =>
      cases hfmt : c.shared.outputFormat with
      | binary => simp [drainLoop,Logger.hand,Logger.format,hfmt]
      | text =>
        obtain ⟨f,hs⟩ := Option.isSome_iff_exists.mp (hf hfmt)
        simp [drainLoop,Logger.hand,Logger.format,hfmt,hs]
  | testStop k =>
    simp only [drainLoop]
    split_ifs <;> exact ⟨_,rfl⟩

def NotPushing : Thread → Prop
  | .pushTest _ | .push _ => False
  | _ => True

theorem still_step {k k' : Thread} (hk : Outside k) (hp : NotPushing k)
    (hend : s.drainEnded = false) {mv : LoggerMove}
    (hm : (∀ call, mv ≠ .init call) ∧ ∀ e, mv ≠ .push e)
    (h : loggerAct S date t mv s k = some (s',k',es)) :
    NotPushing k' ∧ s'.queue = s.queue ∧ queueEvents es = [] := by
  cases k with
  | pushTest e => exact hp.elim
  | push l => exact hp.elim
  | init call k => exact hk.elim
  | drain k => exact hk.elim
  | idle =>
    cases mv with
    | push e => exact absurd rfl (hm.2 e)
    | init call => exact absurd rfl (hm.1 call)
    | shutdown =>
      cases h
      exact ⟨trivial,rfl,rfl⟩
    | _ => cases h
  | shutdown k =>
    cases mv with
    | go =>
      cases k with
      | exchange =>
        simp only [loggerAct,shutdown] at h
        split_ifs at h <;> cases h <;> exact ⟨trivial,rfl,rfl⟩
      | storeRunning =>
        cases h
        exact ⟨trivial,rfl,rfl⟩
      | requestStop =>
        cases h
        exact ⟨trivial,rfl,rfl⟩
      | join =>
        simp only [loggerAct,shutdown,hend] at h
        cases h
      | _ => exact hk.elim
    | _ => cases h

end Lowering

def Stopping (d : ℕ) : Guard ℕ LoggerMove Logger Thread :=
  fun c t m => UntilLeft d c t m ∧ ∀ e, m ≠ .push e

structure Stopped (S : RingSize) (date : ℕ → DatePrefix) (n : ℕ) (own : ConsumerId → ℕ)
    (cid : ConsumerId) (d : ℕ) (tr₀ : List (Event LogEntry)) (fmt : OutputFormat)
    (f₀ : Option TextFormatter) (cl : List (ℕ × LogEntry)) (c : LoggerConf)
    (tr : List LoggerEvent) : Prop where
  draining : ∃ q pc, Draining S n own cid d tr₀ c tr q pc
  stop : c.shared.stop = true
  still : ∀ t, NotPushing (c.locals t)
  rendered : Rendered date fmt f₀ c.shared tr
  claims : claims (tr₀++queueEvents tr) = cl

def confWork (cid : ConsumerId) (d : ℕ) (c : LoggerConf) : ℕ :=
  match c.shared.queue, c.locals d with
  | some q, .drain pc => work cid q pc
  | _, _ => 0

section Stopping

variable {S : RingSize} {date : ℕ → DatePrefix} {n : ℕ} {own : ConsumerId → ℕ}
  {cid : ConsumerId} {d t : ℕ} {tr₀ : List (Event LogEntry)} {c c' : LoggerConf}
  {tr es : List LoggerEvent} {q q' : Queue LogEntry} {pc pc' : DrainPc} {m : LoggerMove}
  {fmt : OutputFormat} {f₀ : Option TextFormatter} {cl : List (ℕ × LogEntry)}

theorem confWork_draining (h : Draining S n own cid d tr₀ c tr q pc) :
    confWork cid d c = work cid q pc := by
  simp [confWork,h.queue,h.drain]

theorem inPop_claims {l l' : Local LogEntry} {fs : List (Event LogEntry)} (hl : InPop cid l)
    (h : Step S t .go q l q' l' fs) : claims fs = [] := by
  rcases popRank_step hl h with ⟨-,⟨-,rfl,-⟩ | ⟨-,rfl⟩⟩ | ⟨tail,x,-,-,rfl,-⟩ <;> rfl

theorem drain_claims {s s' : Logger} (hloop : Looping cid pc) (hq : s.queue = some q)
    (hu : drainLoop S date d s pc = some (s',pc',es)) : claims (queueEvents es) = [] := by
  have hcall : ∀ ph, s.callPop S d ph = some (s',pc',es) → claims (queueEvents es) = [] := by
    intro ph hp
    obtain ⟨⟨u,k,fs⟩,hr,he⟩ := Option.map_eq_some_iff.mp hp
    obtain ⟨rfl,rfl,rfl⟩ := Prod.mk.inj he |>.imp_right Prod.mk.inj
    obtain ⟨q₁,ha,rfl⟩ := onQueue_some hq hr
    cases ha
    rfl
  cases pc with
  | waiting => exact hloop.elim
  | left => exact hloop.elim
  | batch i gotAny k =>
    simp only [drainLoop] at hu
    split_ifs at hu
    · exact hcall _ hu
    · cases hu
      rfl
  | stragglers => exact hcall _ hu
  | pop ph l =>
    obtain ⟨⟨u,k,fs⟩,hr,he⟩ := Option.map_eq_some_iff.mp hu
    obtain ⟨rfl,rfl,rfl⟩ := Prod.mk.inj he |>.imp_right Prod.mk.inj
    obtain ⟨q₁,ha,rfl⟩ := onQueue_some hq hr
    rw [queueEvents_map]
    exact inPop_claims hloop (act_step ha)
  | hand ph item =>
    cases item with
    | none =>
      cases hu
      rfl
    | some e =>
      obtain ⟨r,-,he⟩ := Option.map_eq_some_iff.mp hu
      cases he
      split_ifs <;> rfl
  | testStop k =>
    simp only [drainLoop] at hu
    split_ifs at hu <;> cases hu <;> rfl
  | loop i =>
    cases hu
    rfl
  | count ph item =>
    cases hu
    rfl

theorem stopped_own (hn : n ≤ maxConsumers) (h : Stopped S date n own cid d tr₀ fmt f₀ cl c tr)
    (g : Stopping d c d m) (hstep : (logger S date).step c d m = some (c',es)) :
    Stopped S date n own cid d tr₀ fmt f₀ cl c' (tr++es) ∧
      confWork cid d c' < confWork cid d c := by
  obtain ⟨q,pc,hd⟩ := h.draining
  obtain ⟨ht,-⟩ | ⟨-,rfl,hloop,q',pc',s,rfl,hu,hs⟩ := draining_step hd g.1 hstep
  · exact absurd rfl ht
  have hnext := draining_drain hd hs
  refine ⟨⟨⟨q',pc',hnext⟩,?_,fun t => ?_,rendered_drain h.rendered hs,?_⟩,?_⟩
  · obtain ⟨k,f,rfl⟩ := hs.frame
    exact h.stop
  · by_cases ht : t = d
    · subst ht
      simp [NotPushing]
    · simpa [Function.update_of_ne ht] using h.still t
  · rw [queueEvents_append,← List.append_assoc,claims_append,drain_claims hloop hd.queue hu,
      List.append_nil]
    exact h.claims
  · rw [confWork_draining hnext,confWork_draining hd]
    exact drain_lowers hd hn hloop h.stop hu hs.queue

theorem stopped_other (h : Stopped S date n own cid d tr₀ fmt f₀ cl c tr) (ht : t ≠ d)
    (g : Stopping d c t m) (hstep : (logger S date).step c t m = some (c',es)) :
    Stopped S date n own cid d tr₀ fmt f₀ cl c' (tr++es) ∧
      confWork cid d c' ≤ confWork cid d c := by
  obtain ⟨q,pc,hd⟩ := h.draining
  obtain ⟨s,l,ha,rfl⟩ := step_some hstep
  obtain ⟨q',hs⟩ : ∃ q', OutsideStep S own t c.shared s (c.locals t) l es q q' :=
    outside_step (hd.others t ht) hd.queue hd.notEnded g.1.1 ha
  obtain ⟨hnp,hq,hes⟩ := still_step (hd.others t ht) (h.still t) hd.notEnded ⟨g.1.1,g.2⟩ ha
  obtain rfl : q' = q := by
    rw [hs.queue,hd.queue] at hq
    exact Option.some.inj hq
  have hnext := draining_outside hd ht hs
  refine ⟨⟨⟨q',pc,hnext⟩,?_,fun j => ?_,rendered_outside h.rendered hs,?_⟩,?_⟩
  · obtain ⟨b,r,i,rfl,hb⟩ := hs.frame
    exact hb h.stop
  · by_cases hj : j = t
    · subst hj
      simpa using hnp
    · simpa [Function.update_of_ne hj] using h.still j
  · rw [queueEvents_append,hes,List.append_nil]
    exact h.claims
  · rw [confWork_draining hnext,confWork_draining hd]

theorem run_rendered {c₀ : LoggerConf} {q₀ : Queue LogEntry} {pc₀ : DrainPc}
    (h₀ : Draining S n own cid d tr₀ c₀ [] q₀ pc₀)
    (hf : c₀.shared.outputFormat = .text → c₀.shared.textFmt.isSome = true)
    (r : (logger S date).Run (UntilLeft d) c₀ c tr) :
    Rendered date c₀.shared.outputFormat c₀.shared.textFmt c.shared tr := by
  induction r with
  | start => exact rendered_start date hf
  | next r g hstep ih =>
    obtain ⟨q,pc,h⟩ := run_draining h₀ r
    rcases draining_step h g hstep with ⟨-,q',l,s,rfl,hs⟩ | ⟨-,-,-,q',pc',s,rfl,-,hs⟩
    · exact rendered_outside ih hs
    · exact rendered_drain ih hs

theorem left_last {c₀ : LoggerConf} {q₀ : Queue LogEntry} {pc₀ : DrainPc}
    (h₀ : Draining S n own cid d tr₀ c₀ [] q₀ pc₀) (hpc : pc₀ ≠ .left)
    (r : (logger S date).Run (UntilLeft d) c₀ c tr) (hleft : c.locals d = .drain .left) :
    ∃ c' tr' es, (logger S date).Run (UntilLeft d) c₀ c' tr' ∧
      (logger S date).step c' d .go = some (c,es) ∧ tr = tr'++es := by
  cases r with
  | start =>
    rw [h₀.drain] at hleft
    exact absurd (Thread.drain.inj hleft) hpc
  | @next c' _ tr' es t m r g hstep =>
    obtain ⟨q,pc,h⟩ := run_draining h₀ r
    rcases draining_step h g hstep with ⟨ht,q',l,s,rfl,hs⟩ | ⟨rfl,rfl,-⟩
    · exact absurd (by simpa [Function.update_of_ne ht.symm] using hleft) g.2
    · exact ⟨c',tr',es,r,hstep,rfl⟩

/-- With no push in progress every claimed position is published. -/
theorem still_published (hn : n ≤ maxConsumers) (h : Draining S n own cid d tr₀ c tr q pc)
    (hs : ∀ t, NotPushing (c.locals t)) :
    Below (tr₀++queueEvents tr) (claims (tr₀++queueEvents tr)).length := by
  have hbase := run_base begun_start h.run hn
  rw [← hbase.sound.head_eq]
  apply published_of_free hbase.sound hbase.good le_rfl
  intro t k x hk
  -- neither the drain thread nor one outside a push holds a position
  have hnone : holds (queueLocal (c.locals t)) = none := by
    by_cases ht : t = d
    · subst ht
      rw [h.drain]
      rcases h.looping with hloop | rfl
      · cases pc with
        | pop ph l => cases l <;> first | rfl | exact hloop.elim
        | _ => rfl
      · rfl
    · have hout := h.others t ht
      have hnp := hs t
      generalize c.locals t = l at hout hnp
      cases l <;> first | rfl | exact hnp.elim | exact hout.elim
  exact absurd (hk.symm.trans hnone) (by simp)

theorem writes_of_handed {ws : List (Option (LogEntry × Bytes))} {es : List LogEntry}
    (h : ws.map (Option.map Prod.fst) = es.map some) :
    ws = ws.reduceOption.map some ∧ ws.reduceOption.map Prod.fst = es := by
  induction ws generalizing es with
  | nil =>
    cases es with
    | nil => exact ⟨rfl,rfl⟩
    | cons e es => cases h
  | cons w ws ih =>
    cases es with
    | nil => cases h
    | cons e es =>
      obtain ⟨hw,hrest⟩ := List.cons.inj h
      obtain ⟨a,rfl,rfl⟩ := Option.map_eq_some_iff.mp hw
      obtain ⟨h₁,h₂⟩ := ih hrest
      simp only [List.reduceOption_cons_of_some,List.map_cons,← h₁,h₂,and_self]

theorem left_handed {c₀ : LoggerConf} {q₀ : Queue LogEntry} {pc₀ : DrainPc}
    (hn : n ≤ maxConsumers) (h₀ : Draining S n own cid d tr₀ c₀ [] q₀ pc₀) (hpc : pc₀ ≠ .left)
    (r : (logger S date).Run (UntilLeft d) c₀ c tr)
    (hleft : c.locals d = .drain .left) (hs : ∀ t, NotPushing (c.locals t)) :
    handed tr = (((claims (tr₀++queueEvents tr)).drop (q₀.consumers cid).tail).map Prod.snd).map
      some := by
  obtain ⟨q',pc',h'⟩ := run_draining h₀ r
  obtain ⟨c',tr',es,r',hstep,rfl⟩ := left_last h₀ hpc r hleft
  obtain ⟨q,pc,h⟩ := run_draining h₀ r'
  obtain ⟨rfl,hunpub,hpops⟩ := leaving h hn hstep hleft
  have hall := still_published hn h' hs
  have hclaims : claims (tr₀++queueEvents (tr'++[.queue (.empty d cid)])) =
      claims (tr₀++queueEvents tr') := by
    simp [queueEvents,claims]
  have hpub : ∀ k, Published (tr₀++queueEvents (tr'++[.queue (.empty d cid)])) k →
      Published (tr₀++queueEvents tr') k := by
    intro k hk
    rw [queueEvents_append,← List.append_assoc,published_append] at hk
    exact hk.resolve_right (by simp [queueEvents,Published])
  have hge : (claims (tr₀++queueEvents tr')).length ≤ (q.consumers cid).tail := by
    by_contra hlt
    exact hunpub (hpub _ (hall _ (by rw [hclaims]; omega)))
  rw [List.take_of_length_le hge] at hpops
  have hstart := (run_delivered begun_start h₀.run hn).1.pops cid
  have hlen : (pops cid tr₀).length = (q₀.consumers cid).tail := by
    have hle := (run_base begun_start h₀.run hn).sound.tail_le cid
    rw [(run_base begun_start h₀.run hn).sound.head_eq] at hle
    simp only [queueEvents_nil,List.append_nil] at hstart hle
    rw [hstart,List.length_map,List.length_take]
    exact Nat.min_eq_left hle
  rw [hclaims,handed_append]
  have hdrop := congrArg (List.drop (q₀.consumers cid).tail) hpops
  rw [List.drop_left' hlen,← List.map_drop] at hdrop
  have hnone : handed [.queue (.empty d cid)] = [] := rfl
  rw [hnone,List.append_nil,hdrop,List.map_map]
  rfl

end Stopping

def publishedFrom (b : ℕ) (tr : List (Event LogEntry)) : List LogEntry :=
  ((claims tr).drop b).map Prod.snd

/-- The drain loop from an initialised logger on, with any configuration. From
the stop request on no push is in progress or begins; then every position
claimed was published, the drain thread takes at most `k` more steps and can
take one until it has left the loop. By then it has written exactly the entries
published from the initial tail on, each once and in order, as the one formatter
renders them: neither the batch size nor the moment of the request matters. -/
theorem drain_output (S : RingSize) (date : ℕ → DatePrefix) (n : ℕ) (own : ConsumerId → ℕ)
    (cid : ConsumerId) (d : ℕ) (tr₀ : List (Event LogEntry)) (c₀ c₁ : LoggerConf)
    (tr₁ : List LoggerEvent) (q₀ : Queue LogEntry)
    (h₀ : Draining S n own cid d tr₀ c₀ [] q₀ (.loop 0)) (hn : n ≤ maxConsumers)
    (hf : c₀.shared.outputFormat = .text → c₀.shared.textFmt.isSome = true)
    (r₁ : (logger S date).Run (UntilLeft d) c₀ c₁ tr₁) (hstop : c₁.shared.stop = true)
    (hstill : ∀ t, NotPushing (c₁.locals t)) :
    (∀ t k x, Event.pushed t k x ∈ tr₀++queueEvents tr₁ ↔
      (claims (tr₀++queueEvents tr₁))[k]? = some (t,x)) ∧
    ∃ k, ∀ c tr j, (logger S date).Turns (Stopping d) d c₁ c tr j → j ≤ k ∧
      (c.locals d ≠ .drain .left → ∃ r, (logger S date).step c d .go = some r) ∧
      (c.locals d = .drain .left → writes (tr₁++tr) =
        (formatAll date c₀.shared.outputFormat c₀.shared.textFmt
          (publishedFrom (q₀.consumers cid).tail (tr₀++queueEvents tr₁))).2.map some) := by
  obtain ⟨q₁,pc₁,h₁⟩ := run_draining h₀ r₁
  constructor
  · intro t k x
    have hs := (run_base begun_start h₁.run hn).sound
    refine ⟨hs.pushed t k x,fun hk => ?_⟩
    obtain ⟨u,y,hy⟩ := still_published hn h₁ hstill k (List.getElem?_eq_some_iff.mp hk).1
    obtain ⟨rfl,rfl⟩ := Prod.mk.inj (Option.some.inj ((hs.pushed u k y hy).symm.trans hk))
    exact hy
  · refine ⟨confWork cid d c₁,fun c tr j r => ?_⟩
    have hturns : Stopped S date n own cid d tr₀ c₀.shared.outputFormat c₀.shared.textFmt
        (claims (tr₀++queueEvents tr₁)) c (tr₁++tr) ∧ j+confWork cid d c ≤ confWork cid d c₁ := by
      apply System.Turns.lowers (P := fun c tr => Stopped S date n own cid d tr₀
        c₀.shared.outputFormat c₀.shared.textFmt (claims (tr₀++queueEvents tr₁)) c (tr₁++tr))
        ?_ ?_ ?_ r
      · rw [List.append_nil]
        exact ⟨⟨q₁,pc₁,h₁⟩,hstop,hstill,run_rendered h₀ hf r₁,rfl⟩
      · intro c tr m c' es h g hstep
        rw [← List.append_assoc]
        exact stopped_own hn h g hstep
      · intro c tr t m c' es h ht g hstep
        rw [← List.append_assoc]
        exact stopped_other h ht g hstep
    obtain ⟨hs,hj⟩ := hturns
    obtain ⟨q,pc,h⟩ := hs.draining
    refine ⟨by omega,fun hne => ?_,fun hleft => ?_⟩
    · have hloop : Looping cid pc := h.looping.resolve_right fun hpc => hne (by rw [h.drain,hpc])
      have hformatter : c.shared.outputFormat = .text → c.shared.textFmt.isSome = true := by
        rw [hs.rendered.format]
        exact hs.rendered.furnished
      obtain ⟨⟨s,pc',es⟩,hu⟩ : ∃ r, drainLoop S date d c.shared pc = some r :=
        drain_enabled h hloop hformatter
      refine ⟨(⟨s,Function.update c.locals d (.drain pc')⟩,es),?_⟩
      simp [System.step,logger,h.drain,loggerAct,hu]
    · have rall := r₁.trans (r.run.mono fun _ _ _ g => g.1)
      have hhanded := left_handed hn h₀ (by simp) rall hleft hs.still
      rw [hs.claims] at hhanded
      obtain ⟨hwrites,hentries⟩ := writes_of_handed hhanded
      obtain ⟨es,hsunk,-⟩ := hs.rendered.rendered
      obtain rfl : es = publishedFrom (q₀.consumers cid).tail (tr₀++queueEvents tr₁) := by
        have hmap := congrArg (List.map Prod.fst) hsunk
        rw [formatAll_entries] at hmap
        exact hmap.symm.trans hentries
      rw [hwrites,← hsunk]
      rfl

def stoppingCheck (d : ℕ) (c : LoggerConf) (t : ℕ) (m : LoggerMove) : Bool :=
  untilLeftCheck d c t m && !(m matches .push _)

theorem stopping_of_check (d : ℕ) (c : LoggerConf) (t : ℕ) (m : LoggerMove)
    (h : stoppingCheck d c t m = true) : Stopping d c t m := by
  obtain ⟨hu,hp⟩ := Bool.and_eq_true_iff.mp h
  refine ⟨untilLeft_of_check d c t m hu,?_⟩
  rintro e rfl
  simp at hp

def restsOrStops : Thread → Bool
  | .idle | .shutdown _ => true
  | _ => false

theorem notPushing_of_check {l : Thread} (h : restsOrStops l = true) : NotPushing l := by
  cases l <;> trivial

/-- One entry is pushed and the stop requested before the first step of the loop;
24 steps of the drain thread write the record of the entry and leave the loop. -/
theorem drain_output_one_entry : ∃ (c₁ c : LoggerConf) (tr₁ tr : List LoggerEvent),
    (logger queueSize noDate).Run (UntilLeft 0) (initialised 0 binaryInit) c₁ tr₁ ∧
    (logger queueSize noDate).Turns (Stopping 0) 0 c₁ c tr 24 ∧ c.locals 0 = .drain .left ∧
    writes (tr₁++tr) = [some (emptyEntry,emptyEntry.toBytes)] := by
  let as : List (ℕ × LoggerMove) := pushMoves 1 7++(3,.shutdown)::List.replicate 3 (3,.go)
  have hv : ((logger queueSize noDate).exec (untilLeftCheck 0) (initialised 0 binaryInit) as).any
      (fun (r₁ : LoggerOutcome) =>
        decide (r₁.1.shared.stop = true ∧ publishedFrom 0 (queueEvents r₁.2) = [emptyEntry]) &&
        (restsOrStops (r₁.1.locals 1) && restsOrStops (r₁.1.locals 3)) &&
        ((logger queueSize noDate).exec (stoppingCheck 0) r₁.1 (List.replicate 24 (0,.go))).any
          fun (r₂ : LoggerOutcome) => hasLeft (r₂.1.locals 0)) = true := by
    decide +kernel
  obtain ⟨⟨c₁,tr₁⟩,h₁,hp⟩ := (Option.any_eq_true _ _).mp hv
  obtain ⟨hp,h₂⟩ := Bool.and_eq_true_iff.mp hp
  obtain ⟨⟨c,tr⟩,h₂,hleft⟩ := (Option.any_eq_true _ _).mp h₂
  obtain ⟨hp,hidle⟩ := Bool.and_eq_true_iff.mp hp
  obtain ⟨hstop,hpub⟩ := of_decide_eq_true hp
  obtain ⟨h1,h3⟩ := Bool.and_eq_true_iff.mp hidle
  have hstill : ∀ t, NotPushing (c₁.locals t) := by
    intro t
    by_cases ht : t = 1 ∨ t = 3
    · rcases ht with rfl | rfl
      · exact notPushing_of_check h1
      · exact notPushing_of_check h3
    · have hnot : ∀ a ∈ as, a.1 ≠ t := by
        intro a ha
        have : a.1 = 1 ∨ a.1 = 3 := by
          simp only [as,pushMoves,List.mem_append,List.mem_cons,List.mem_replicate] at ha
          rcases ha with (rfl | ⟨-,rfl⟩) | rfl | ⟨-,rfl⟩ <;> simp
        omega
      rw [exec_untouched as hnot h₁]
      by_cases ht : t = 0 <;> simp [initialised,ht,NotPushing]
  have r₁ := exec_run (untilLeft_of_check 0) as .start h₁
  have r := exec_turns (stopping_of_check 0) 24 .start h₂
  obtain ⟨-,k,hk⟩ := drain_output queueSize noDate 1 (fun _ => 0) 0 0 [] (initialised 0 binaryInit)
    c₁ tr₁ (Queue.registered 1) (initialised_draining queueSize 0 binaryInit) (by decide)
    (by simp [initialised,binaryInit]) r₁ hstop hstill
  obtain ⟨-,-,hw⟩ := hk c tr 24 r
  have hwrites := hw (left_of_check hleft)
  rw [List.nil_append,show (((Queue.registered 1 : Queue LogEntry).consumers 0).tail) = 0 from rfl,
    hpub] at hwrites
  refine ⟨c₁,c,tr₁,tr,r₁,r,left_of_check hleft,hwrites.trans ?_⟩
  simp [formatAll,formatEntry,initialised,binaryInit,TextFormatter.maxFormattedSize]

end MpmcLogger.DrainOutput
