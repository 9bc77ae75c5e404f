import MpmcLogger.QueueDelivery

/-!
# Failing pushes and pops

A push gives up after a scan of the consumers, one flag and one tail at a time,
with a head it loaded before. The invariant of the call remembers where its
accumulators come from: each is bounded below by a tail some consumer had, while
active, at an instant of the same call. A pop gives up on the sequence of one
slot, which for a published tail would have been that tail.
-/

set_option autoImplicit false

namespace MpmcLogger.QueueFailure
open Interleaving CopiedCell RingIndex MachineWord MpmcLogger.QueueMachine MpmcLogger.QueueHistory
open MpmcLogger.QueueInvariant MpmcLogger.QueueSetup MpmcLogger.QueueExclusion
open MpmcLogger.QueueLapping MpmcLogger.QueueDelivery

variable {T : Type*}

def During (own : ConsumerId → ℕ) (t : ℕ) : Guard ℕ (Move T) (Queue T) (Local T) :=
  fun c j m => JoinedFirst own c j m ∧ c.locals t ≠ .idle

def Seen (cs : List (Config T)) (h b : ℕ) : Prop :=
  ∃ c ∈ cs, ∃ e, (c.shared.consumers e).active = true ∧ h ≤ c.shared.head ∧
    (c.shared.consumers e).tail ≤ b

def Scanned (d : ConsumerId) (cs : List (Config T)) (h i : ℕ) (m : Mins) : Prop :=
  (m.least ≠ invalidPos → Seen cs h m.least) ∧ (d.val < i → m.least ≠ invalidPos)

def Watched (d : ConsumerId) (cs : List (Config T)) (q : Queue T) : Local T → Prop
  | .scanActive (.push _ h _) i m => Scanned d cs h i m
  | .scanTail (.push _ h _) e m => Scanned d cs h e m ∧ Seen cs h (q.consumers e).tail
  | .storeMinTail (.push _ h _) new => Seen cs h new
  | _ => True

theorem seen_mono {cs cs' : List (Config T)} {h b b' : ℕ} (hs : Seen cs h b)
    (hcs : ∀ c ∈ cs, c ∈ cs') (hb : b ≤ b') : Seen cs' h b' := by
  obtain ⟨c,hc,e,ha,hh,ht⟩ := hs
  exact ⟨c,hcs c hc,e,ha,hh,ht.trans hb⟩

theorem scanned_mono {d : ConsumerId} {cs cs' : List (Config T)} {h i : ℕ} {m : Mins}
    (hs : Scanned d cs h i m) (hcs : ∀ c ∈ cs, c ∈ cs') : Scanned d cs' h i m :=
  ⟨fun hm => seen_mono (hs.1 hm) hcs le_rfl,hs.2⟩

theorem scanned_start (d : ConsumerId) (cs : List (Config T)) (h : ℕ) :
    Scanned d cs h 0 .start :=
  ⟨fun hm => absurd least_start hm,fun hd => absurd hd (Nat.not_lt_zero _)⟩

/-- A finished scan that met an active consumer yields a tail it has seen. -/
theorem scanned_result {d : ConsumerId} {cs : List (Config T)} {h i : ℕ} {m : Mins}
    (hs : Scanned d cs h i m) (hi : maxConsumers ≤ i) : Seen cs h m.result := by
  have hm := hs.2 (d.isLt.trans_le hi)
  rw [result_of_ne hm]
  exact hs.1 hm

section Steps

variable {S : RingSize} {n : ℕ} {own : ConsumerId → ℕ} {t j : ℕ} {c : Config T} {q q' : Queue T}
  {tr es : List (Event T)} {l l' : Local T} {m : Move T} {d : ConsumerId} {cs : List (Config T)}

theorem watched_step (hs : Sound S n c.shared tr) (hb : Bounded S n tr)
    (hg : Good n own t c.shared tr (c.locals t)) (hc : c ∈ cs)
    (hd : (c.shared.consumers d).active = true) (hw : Watched d cs c.shared (c.locals t))
    (h : Step S t m c.shared (c.locals t) q' l' es) : Watched d cs q' l' := by
  have hok := hg.ok
  generalize hq : c.shared = q at *
  generalize c.locals t = l at *
  cases h with
  | call q op => cases op <;> trivial
  | needScan q x h full => exact scanned_start d cs h
  | sawActive q k i ms hi active =>
    cases k with
    | recompute => trivial
    | push x h mt =>
      -- the instant of this step is the one at which the consumer was active
      exact ⟨hw,c,hc,⟨i,hi⟩,by rw [hq]; exact active,by rw [hq]; exact hok.1,by rw [hq]⟩
  | sawInactive q k i ms hi inactive =>
    cases k with
    | recompute => trivial
    | push x h mt =>
      exact ⟨hw.1,fun hlt => hw.2 (passed_inactive hd inactive hlt)⟩
  | readTail q k e ms =>
    cases k with
    | recompute => trivial
    | push x h mt =>
      have hlt := lt_invalidPos hs.tracked hb (hs.tail_le e)
      obtain ⟨hscan,hseen⟩ := hw
      show Scanned d cs h (e+1) _
      constructor
      · intro _
        rw [least_lower]
        rcases Nat.le_total ms.least (q'.consumers e).tail with hle | hle
        · rw [Nat.min_eq_left hle]
          exact hscan.1 (by omega)
        · rw [Nat.min_eq_right hle]
          exact hseen
      · intro _
        rw [least_lower]
        omega
  | scanChanged q k i ms hi =>
    cases k with
    | recompute => trivial
    | push x h mt => exact scanned_result hw hi
  | _ => trivial

theorem watched_stable (hs : Sound S n q tr) (hg : Good n own t q tr l)
    (hb : Within n (tr++es)) (he : Effect S t q l q' es) (hj : Good n own j q tr l')
    (hw : Watched d cs q l') : Watched d cs q' l' := by
  cases l' with
  | scanTail k e ms =>
    cases k with
    | recompute => trivial
    | push x h mt =>
      exact ⟨hw.1,seen_mono hw.2 (fun _ h => h) (tail_le_step hs hg hb he hj.ok.2.2)⟩
  | scanActive k i ms => cases k <;> exact hw
  | storeMinTail k new => cases k <;> exact hw
  | _ => exact hw

theorem watched_mono {cs' : List (Config T)} (hcs : ∀ c ∈ cs, c ∈ cs') (hw : Watched d cs q l) :
    Watched d cs' q l := by
  cases l with
  | scanActive k i ms =>
    cases k with
    | recompute => trivial
    | push x h mt => exact scanned_mono hw hcs
  | scanTail k e ms =>
    cases k with
    | recompute => trivial
    | push x h mt => exact ⟨scanned_mono hw.1 hcs,seen_mono hw.2 hcs le_rfl⟩
  | storeMinTail k new =>
    cases k with
    | recompute => trivial
    | push x h mt => exact seen_mono hw hcs le_rfl
  | _ => trivial

/-- A push whose bound leaves no room has seen a consumer a full lap behind. -/
theorem full_seen (hs : Sound S n q tr) (hb : Bounded S n tr) {h b : ℕ} (hle : b ≤ q.head)
    (hseen : Seen cs h b) (full : u64 (b+S.size) ≤ h) :
    ∃ c ∈ cs, ∃ e, (c.shared.consumers e).active = true ∧
      (c.shared.consumers e).tail+S.size ≤ c.shared.head := by
  obtain ⟨c,hc,e,ha,hh,ht⟩ := hseen
  rw [u64_add_size hs hb hle] at full
  exact ⟨c,hc,e,ha,by omega⟩

theorem rejected_seen (hs : Sound S n q tr) (hb : Bounded S n tr) (hg : Good n own t q tr l)
    (hw : Watched d cs q l) (h : Step S t m q l q' l' es) {x : T}
    (hrej : Event.rejected t x ∈ es) :
    ∃ c ∈ cs, ∃ e, (c.shared.consumers e).active = true ∧
      (c.shared.consumers e).tail+S.size ≤ c.shared.head := by
  have hok := hg.ok
  cases h with
  | scanFull q y h i ms hi full =>
    exact full_seen hs hb (result_le hok.2) (scanned_result hw hi) full
  | storeFull q y h old new full => exact full_seen hs hb hok.2 hw full
  | _ => simp at hrej

end Steps

variable {S : RingSize} {n : ℕ} {own : ConsumerId → ℕ} {t : ℕ} {c₀ c c' : Config T}
  {tr es : List (Event T)} {cs : List (Config T)} {d : ConsumerId}

/-- Along a call that begins in `c` a push knows where its accumulators come from. -/
theorem watched_path (h₀ : Begun n own c₀)
    (r : (machine T S).Run (JoinedFirst own) c₀ c tr) (hw : Watched d [c] c.shared (c.locals t))
    (p : (machine T S).Path (JoinedFirst own) c cs c' es) (hb : Bounded S n (tr++es))
    (hd : ∀ c ∈ cs, (c.shared.consumers d).active = true) :
    Watched d cs c'.shared (c'.locals t) := by
  induction p with
  | here => exact hw
  | @more cs c₁ c₂ fs es j m p g h ih =>
    rw [← List.append_assoc] at hb
    have hb' := bounded_earlier S n _ _ hb
    obtain ⟨hs,hg⟩ := run_sound h₀ (fun _ _ _ g => g.1) (p.run r) hb'
    have hold := ih hb' fun c hc => hd c (List.mem_append_left _ hc)
    have hact := hd c₁ (List.mem_append_left _ p.last_mem)
    obtain ⟨q,l,ha,rfl⟩ := step_some h
    have hst := act_step ha
    have hnext : Watched d cs q (Function.update c₁.locals j l t) := by
      by_cases hj : t = j
      · subst hj
        simpa using watched_step hs hb' (hg t) p.last_mem hact hold hst
      · rw [Function.update_of_ne hj]
        exact watched_stable hs (hg j) (bounded_within hb) (step_effect hst) (hg t) hold
    exact watched_mono (fun c hc => List.mem_append_left _ hc) hnext

/-- The pop of an active consumer gives up only on the sequence of its tail. -/
theorem empty_unpublished (h₀ : Begun n own c₀)
    (r : (machine T S).Run (JoinedFirst own) c₀ c tr) (hn : n ≤ maxConsumers) {m : Move T} {q : Queue T} {l : Local T}
    (h : Step S t m c.shared (c.locals t) q l es) (he : Event.empty t d ∈ es)
    (hd : (c.shared.consumers d).active = true) :
    c.locals t = .popLoadSequence d (c.shared.consumers d).tail ∧
      ¬Published tr (c.shared.consumers d).tail := by
  have hbase := run_base h₀ r hn
  obtain ⟨hdel,-⟩ := run_delivered h₀ r hn
  have hs := hbase.sound
  have hlap := hbase.tracked.lap d hd
  have hok := (hbase.good t).ok
  generalize c.locals t = l₀ at *
  generalize c.shared = q₀ at *
  cases h with
  | popInactive q e inactive =>
    obtain ⟨-,rfl⟩ : t = t ∧ d = e := by simpa using he
    simp [hd] at inactive
  | popNotReady q e tail notReady =>
    obtain ⟨-,rfl⟩ : t = t ∧ d = e := by simpa using he
    obtain ⟨-,rfl⟩ := hok
    refine ⟨rfl,fun hp => notReady ?_⟩
    obtain ⟨u,x,hx⟩ := hp
    exact (hdel.current u _ x (hs.pushed u _ x hx) ⟨u,x,hx⟩ hlap).1
  | _ => simp at he

/-- Failures are genuine, all registrations having finished before. (a) A push
that returns false while consumer `d` was active throughout the call: at some
instant of the call an active consumer was a whole lap behind the head. (b) A
pop of an active consumer returns false only from its load of the sequence, and
then the position of its tail was not yet claimed, or claimed and unpublished. -/
theorem failures_genuine (S : RingSize) (own : ConsumerId → ℕ) (c₀ c : Config T)
    (tr₀ tr : List (Event T))
    (r₀ : (machine T S).Run (Registering own) (Config.start 0) c₀ tr₀)
    (hwait : ∀ t, Waits (c₀.locals t)) (hn : (tickets tr₀).length ≤ maxConsumers)
    (r : (machine T S).Run (JoinedFirst own) c₀ c tr) (hb : (claims tr).length < 2^64-S.size) :
    (∀ t x c₁ es₁ cs c₂ es d m c₃ es₂,
      (machine T S).step c t (.call (.push x)) = some (c₁,es₁) →
      (machine T S).Path (During own t) c₁ cs c₂ es →
      (claims (tr++es₁++es)).length < 2^64-S.size →
      (∀ c ∈ cs, (c.shared.consumers d).active = true) →
      (machine T S).step c₂ t m = some (c₃,es₂) → Event.rejected t x ∈ es₂ →
      ∃ c ∈ cs, ∃ e, (c.shared.consumers e).active = true ∧
        (c.shared.consumers e).tail+S.size ≤ c.shared.head) ∧
    ∀ t d m c' es, (machine T S).step c t m = some (c',es) → Event.empty t d ∈ es →
      (c.shared.consumers d).active = true →
      c.locals t = .popLoadSequence d (c.shared.consumers d).tail ∧
      (c.shared.head = (c.shared.consumers d).tail ∨
        ∃ u x, Event.claimed u (c.shared.consumers d).tail x ∈ tr ∧
          ¬Published tr (c.shared.consumers d).tail) := by
  have h₀ := registered_begun r₀ hwait hn
  constructor
  · intro t x c₁ es₁ cs c₂ es d m c₃ es₂ hcall p hb' hd hstep hrej
    have g : JoinedFirst own c t (.call (.push x)) := ⟨trivial,by simp⟩
    have r₁ := r.next g hcall
    have p' := p.mono fun _ _ _ g => g.1
    have r₂ := p'.run r₁
    have hbd := joined_bounded h₀ r₂ hn hb'
    have hentry : c₁.locals t = .pushLoadHead x := by
      obtain ⟨q,l,ha,rfl⟩ := step_some hcall
      have hst := act_step ha
      generalize c.locals t = l₀ at hst
      cases hst
      simp [Op.entry]
    have hw := watched_path (t := t) (d := d) h₀ r₁ (by rw [hentry]; trivial) p' hbd hd
    obtain ⟨hs,hg⟩ := run_sound h₀ (fun _ _ _ g => g.1) r₂ hbd
    obtain ⟨q,l,ha,-⟩ := step_some hstep
    exact rejected_seen hs hbd (hg t) hw (act_step ha) hrej
  · intro t d m c' es hstep he hd
    have hbd := joined_bounded h₀ r hn hb
    obtain ⟨q,l,ha,-⟩ := step_some hstep
    obtain ⟨hl,hp⟩ := empty_unpublished h₀ r hn (act_step ha) he hd
    obtain ⟨hs,-⟩ := run_sound h₀ (fun _ _ _ g => g.1) r hbd
    refine ⟨hl,?_⟩
    rcases (hs.tail_le d).eq_or_lt with heq | hlt
    · exact Or.inl heq.symm
    · have hlen : (c.shared.consumers d).tail < (claims tr).length := by
        rw [← hs.head_eq]
        exact hlt
      have hget := List.getElem?_eq_getElem hlen
      exact Or.inr ⟨_,_,claimed_of_claims h₀ r hn hget,hp⟩

def duringCheck (own : ConsumerId → ℕ) (t : ℕ) (d : ConsumerId) (c : Config T) (j : ℕ)
    (m : Move T) : Bool :=
  joinedCheck own c j m && !(c.locals t matches .idle) && (c.shared.consumers d).active

theorem during_of_check (own : ConsumerId → ℕ) (t : ℕ) (d : ConsumerId) (c : Config T) (j : ℕ)
    (m : Move T) (h : duringCheck own t d c j m = true) :
    During own t c j m ∧ (c.shared.consumers d).active = true := by
  simp only [duringCheck,Bool.and_eq_true] at h
  obtain ⟨⟨hj,hl⟩,ha⟩ := h
  refine ⟨⟨joined_of_check own c j m hj,?_⟩,ha⟩
  intro hidle
  simp [hidle] at hl

theorem rejected_schedule : ∃ (c c₁ c₂ c₃ : Config ℕ) (tr es₁ es es₂ : List (Event ℕ))
    (cs : List (Config ℕ)),
    (machine ℕ ring16).Run (JoinedFirst fun _ => 2) (Config.start 1) c tr ∧
    (machine ℕ ring16).step c 0 (.call (.push 16)) = some (c₁,es₁) ∧
    (machine ℕ ring16).Path (During (fun _ => 2) 0) c₁ cs c₂ es ∧
    (machine ℕ ring16).step c₂ 0 .go = some (c₃,es₂) ∧
    (∀ c ∈ cs, (c.shared.consumers 0).active = true) ∧ Event.rejected 0 16 ∈ es₂ ∧
    (claims tr).length = 16 ∧ (claims (tr++es₁++es)).length = 16 := by
  obtain ⟨c,tr,r,hv⟩ := exec_any (machine ℕ ring16) (Config.start 1)
    (joined_of_check fun _ => 2) ((List.range 16).flatMap fun i => callAlone 0 (.push i) 6)
    (fun r => decide ((claims r.2).length = 16) &&
      ((machine ℕ ring16).step r.1 0 (.call (.push 16))).any fun (r₁ : Outcome ℕ) =>
      ((machine ℕ ring16).exec (duringCheck (fun _ => 2) 0 0) r₁.1
        (List.replicate 35 (0,.go))).any fun (r₂ : Outcome ℕ) =>
      ((machine ℕ ring16).step r₂.1 0 .go).any fun (r₃ : Outcome ℕ) =>
        decide ((r₂.1.shared.consumers 0).active = true ∧ claims r₁.2 = [] ∧ claims r₂.2 = [] ∧
          Event.rejected 0 16 ∈ r₃.2)) (by decide +kernel)
  obtain ⟨hc,hv⟩ := Bool.and_eq_true_iff.mp hv
  obtain ⟨⟨c₁,es₁⟩,h₁,hv⟩ := (Option.any_eq_true _ _).mp hv
  obtain ⟨⟨c₂,es⟩,h₂,hv⟩ := (Option.any_eq_true _ _).mp hv
  obtain ⟨⟨c₃,es₂⟩,h₃,hv⟩ := (Option.any_eq_true _ _).mp hv
  obtain ⟨ha,hc₁,hc₂,hrej⟩ := of_decide_eq_true hv
  have hc := of_decide_eq_true hc
  obtain ⟨cs,p,hact⟩ := exec_path (during_of_check (fun _ => 2) 0 0) _ .here (by simp) h₂ ha
  exact ⟨c,c₁,c₂,c₃,tr,es₁,es,es₂,cs,r,h₁,p,h₃,hact,hrej,hc,by
    simp only [claims_append,List.length_append,hc,hc₁,hc₂,List.length_nil]⟩

theorem empty_schedule : ∃ (c c' : Config ℕ) (tr es : List (Event ℕ)),
    (machine ℕ ring16).Run (JoinedFirst fun _ => 2) (Config.start 1) c tr ∧
    (machine ℕ ring16).step c 2 .go = some (c',es) ∧ Event.empty 2 0 ∈ es ∧
    (c.shared.consumers 0).active = true ∧ (claims tr).length = 0 := by
  obtain ⟨c,tr,r,hv⟩ := exec_any (machine ℕ ring16) (Config.start 1)
    (joined_of_check fun _ => 2) ((2,.call (.pop 0))::List.replicate 2 (2,.go))
    (fun r => decide ((r.1.shared.consumers 0).active = true ∧ (claims r.2).length = 0) &&
      ((machine ℕ ring16).step r.1 2 .go).any fun (r' : Outcome ℕ) =>
        decide (Event.empty 2 0 ∈ r'.2))
    (by decide +kernel)
  obtain ⟨hc,hv⟩ := Bool.and_eq_true_iff.mp hv
  obtain ⟨⟨c',es⟩,h,hv⟩ := (Option.any_eq_true _ _).mp hv
  obtain ⟨ha,hc⟩ := of_decide_eq_true hc
  exact ⟨c,c',tr,es,r,h,of_decide_eq_true hv,ha,hc⟩

/-- The rejected push saw consumer 0 a lap behind, the failed pop was about to
read an unclaimed position. -/
theorem failures_genuine_full_and_empty :
    (∃ (c c₁ c₂ : Config ℕ) (tr es₁ es : List (Event ℕ)) (cs : List (Config ℕ)),
      (machine ℕ ring16).Run (JoinedFirst fun _ => 2) (Config.start 1) c tr ∧
      (machine ℕ ring16).step c 0 (.call (.push 16)) = some (c₁,es₁) ∧
      (machine ℕ ring16).Path (During (fun _ => 2) 0) c₁ cs c₂ es ∧
      ∃ c ∈ cs, ∃ e, (c.shared.consumers e).active = true ∧
        (c.shared.consumers e).tail+ring16.size ≤ c.shared.head) ∧
    ∃ (c : Config ℕ) (tr : List (Event ℕ)),
      (machine ℕ ring16).Run (JoinedFirst fun _ => 2) (Config.start 1) c tr ∧
      (c.shared.consumers 0).active = true ∧
      c.locals 2 = .popLoadSequence 0 (c.shared.consumers 0).tail := by
  obtain ⟨tr₀,r₀,ht₀⟩ := registering_run (T := ℕ) ring16 (fun _ => 2) 1 (by decide)
  have hn : (tickets tr₀).length ≤ maxConsumers := by
    rw [ht₀]
    decide
  constructor
  · obtain ⟨c,c₁,c₂,c₃,tr,es₁,es,es₂,cs,r,h₁,p,h₃,hact,hrej,hc,hcs⟩ := rejected_schedule
    have hfull := (failures_genuine ring16 (fun _ => 2) (Config.start 1) c tr₀ tr r₀
      (fun _ => trivial) hn r (by rw [hc]; decide)).1 0 16 c₁ es₁ cs c₂ es 0 .go c₃ es₂ h₁ p
      (by rw [hcs]; decide) hact h₃ hrej
    exact ⟨c,c₁,c₂,tr,es₁,es,cs,r,h₁,p,hfull⟩
  · obtain ⟨c,c',tr,es,r,h,he,ha,hc⟩ := empty_schedule
    have hempty := (failures_genuine ring16 (fun _ => 2) (Config.start 1) c tr₀ tr r₀
      (fun _ => trivial) hn r (by rw [hc]; decide)).2 2 0 .go c' es h he ha
    exact ⟨c,tr,r,ha,hempty.1⟩

end MpmcLogger.QueueFailure
