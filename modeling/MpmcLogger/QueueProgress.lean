import MpmcLogger.QueueSequential

/-!
# Retries are paid for by progress

A push whose compare-and-swap fails holds a head that another push has moved on.
A success makes at most every other waiting push stale, and a failure uses one
stale push up: the failures of a run are bounded by its successes. As long as
nobody succeeds, a push fails at most once and then leaves its loop.
-/

set_option autoImplicit false

namespace MpmcLogger.QueueProgress
open Interleaving RingIndex MachineWord MpmcLogger.QueueMachine MpmcLogger.QueueHistory
open MpmcLogger.QueueSequential

variable {T : Type*}

def scannedFor : Caller T → Option ℕ
  | .push _ h _ => some h
  | .recompute => none

def attempt : Local T → Option (Option ℕ)
  | .pushLoadHead _ => some none
  | .pushLoadMinTail _ h | .pushCas _ h => some (some h)
  | .scanActive k _ _ | .scanTail k _ _ | .storeMinTail k _ => (scannedFor k).map some
  | _ => none

def stale (head : ℕ) (l : Local T) : Bool :=
  match attempt l with
  | some (some h) => h ≠ head
  | _ => false

def isFailed : Event T → Bool
  | .casFailed _ => true
  | _ => false

def failures (tr : List (Event T)) : ℕ := tr.countP isFailed

def thread : Event T → ℕ
  | .called t _ | .claimed t _ _ | .casFailed t | .pushed t _ _ | .rejected t _ => t
  | .popped t _ _ | .empty t _ | .ticket t _ | .registered t _ | .threw t _ => t
  | .unregistered t _ | .recomputed t => t

inductive Turn (t : ℕ) (m : Move T) (q : Queue T) (l : Local T) (q' : Queue T) (l' : Local T)
    (es : List (Event T)) : Prop
  | enter (x : T) (hm : m = .call (.push x)) (hl : attempt l = none)
      (hl' : attempt l' = some none) (hq : q'.head = q.head) (hes : es = [.called t (.push x)])
  | load (hl : attempt l = some none) (hl' : attempt l' = some (some q.head))
      (hq : q'.head = q.head) (hes : es = [])
  | hold {h : ℕ} (hl : attempt l = some (some h)) (hl' : attempt l' = some (some h))
      (hq : q'.head = q.head) (hes : es = [])
  | won (x : T) (hl : attempt l = some (some q.head)) (hl' : attempt l' = none)
      (hes : es = [.claimed t q.head x])
  | lost {h : ℕ} (x : T) (hl : l = .pushCas x h) (hne : q.head ≠ h) (hl' : l' = .pushLoadHead x)
      (hq : q'.head = q.head) (hes : es = [.casFailed t])
  | rejected {h : ℕ} (x : T) (hl : attempt l = some (some h)) (hl' : attempt l' = none)
      (hq : q'.head = q.head) (hes : es = [.rejected t x])
  | outside (hl : attempt l = none) (hl' : attempt l' = none) (hq : q'.head = q.head)
      (hes : claims es = [] ∧ failures es = 0)

section Steps

variable {S : RingSize} {t : ℕ} {q q' : Queue T} {l l' : Local T} {m : Move T}
  {es : List (Event T)}

theorem scan_turn {k : Caller T} (hl : attempt l = (scannedFor k).map some)
    (hl' : attempt l' = (scannedFor k).map some) : Turn t m q l q l' [] := by
  cases k with
  | push x h b => exact .hold hl hl' rfl rfl
  | recompute => exact .outside hl hl' rfl ⟨rfl,rfl⟩

theorem step_turn (hm : m ≠ .spurious) (h : Step S t m q l q' l' es) :
    Turn t m q l q' l' es := by
  cases h with
  | call q op =>
    cases op with
    | push x => exact .enter x rfl rfl rfl rfl rfl
    | _ => exact .outside rfl rfl rfl ⟨rfl,rfl⟩
  | loadHead q x => exact .load rfl rfl rfl rfl
  | needScan q x h full => exact .hold rfl rfl rfl rfl
  | hasRoom q x h room => exact .hold rfl rfl rfl rfl
  | sawActive q k i m hi active => exact scan_turn (k := k) rfl rfl
  | sawInactive q k i m hi inactive => exact scan_turn (k := k) rfl rfl
  | readTail q k c m => exact scan_turn (k := k) rfl rfl
  | scanChanged q k i m hi => exact scan_turn (k := k) rfl rfl
  | scanRoom q x h i m hi room => exact .hold rfl rfl rfl rfl
  | scanFull q x h i m hi full => exact .rejected x rfl rfl rfl rfl
  | storeRoom q x h old new room => exact .hold rfl rfl rfl rfl
  | storeFull q x h old new full => exact .rejected x rfl rfl rfl rfl
  | casWin q x => exact .won x rfl rfl rfl
  | casLose q x h hne => exact .lost x rfl hne rfl rfl rfl
  | casSpurious q x h => exact absurd rfl hm
  | _ => exact .outside rfl rfl rfl ⟨rfl,rfl⟩

end Steps

def Producing (P : Finset ℕ) : Guard ℕ (Move T) (Queue T) (Local T) := fun _ t m =>
  m ≠ .spurious ∧ ∀ x, m = .call (.push x) → t ∈ P

def stalePushes (P : Finset ℕ) (c : Config T) : Finset ℕ :=
  P.filter fun t => stale c.shared.head (c.locals t)

structure Paid (P : Finset ℕ) (c : Config T) (tr : List (Event T)) : Prop where
  producers : ∀ t, attempt (c.locals t) ≠ none → t ∈ P
  charged : failures tr+(stalePushes P c).card ≤ (P.card-1)*(claims tr).length

section Runs

variable {S : RingSize} {P : Finset ℕ} {c c' : Config T} {tr es : List (Event T)} {t : ℕ}
  {m : Move T} {q : Queue T} {l : Local T}

theorem failures_append (tr es : List (Event T)) :
    failures (tr++es) = failures tr+failures es := List.countP_append

theorem mem_stalePushes {u : ℕ} :
    u ∈ stalePushes P c ↔ u ∈ P ∧ stale c.shared.head (c.locals u) = true := by
  rw [stalePushes,Finset.mem_filter]

theorem stale_subset (hq : q.head = c.shared.head)
    (hl : stale c.shared.head l = true → stale c.shared.head (c.locals t) = true) :
    stalePushes P ⟨q,Function.update c.locals t l⟩ ⊆ stalePushes P c := by
  intro u hu
  rw [mem_stalePushes] at hu ⊢
  refine ⟨hu.1,?_⟩
  obtain ⟨-,hu⟩ := hu
  dsimp only at hu
  rw [hq] at hu
  by_cases hut : u = t
  · subst hut
    rw [Function.update_self] at hu
    exact hl hu
  · rwa [Function.update_of_ne hut] at hu

theorem stale_none (head : ℕ) (h : attempt l = none) : stale head l = false := by
  simp [stale,h]

theorem stale_before (head : ℕ) (h : attempt l = some none) : stale head l = false := by
  simp [stale,h]

theorem stale_holding {head h : ℕ} (hl : attempt l = some (some h)) :
    stale head l = true ↔ h ≠ head := by
  simp [stale,hl]

theorem turn_head {q₀ : Queue T} {l₀ : Local T} (h : Turn t m q₀ l₀ q l es)
    (hc : claims es = []) : q.head = q₀.head := by
  cases h with
  | won x _ _ hes =>
    rw [hes] at hc
    cases hc
  | enter _ _ _ _ hq _ => exact hq
  | load _ _ hq _ => exact hq
  | hold _ _ hq _ => exact hq
  | lost _ _ _ _ hq _ => exact hq
  | rejected _ _ _ hq _ => exact hq
  | outside _ _ hq _ => exact hq

/-- A thread does not become stale by a step of its own. -/
theorem turn_stale {q₀ : Queue T} {l₀ : Local T} (h : Turn t m q₀ l₀ q l es) :
    stale q₀.head l = true → stale q₀.head l₀ = true := by
  cases h with
  | enter _ _ _ hl' _ _ => simp [stale_before _ hl']
  | load _ hl' _ _ => exact fun hs => absurd rfl ((stale_holding hl').mp hs)
  | hold hl hl' _ _ => exact fun hs => (stale_holding hl).mpr ((stale_holding hl').mp hs)
  | won _ _ hl' _ => simp [stale_none _ hl']
  | lost x _ _ hl' _ _ => simp [stale_before _ (hl' ▸ rfl : attempt l = some none)]
  | rejected _ _ hl' _ _ => simp [stale_none _ hl']
  | outside _ hl' _ _ => simp [stale_none _ hl']

theorem turn_events {q₀ : Queue T} {l₀ : Local T} (h : Turn t m q₀ l₀ q l es) :
    (∃ x, attempt l₀ = some (some q₀.head) ∧ attempt l = none ∧
      es = [.claimed t q₀.head x]) ∨
    (∃ x k, l₀ = .pushCas x k ∧ q₀.head ≠ k ∧ l = .pushLoadHead x ∧ q.head = q₀.head ∧
      es = [.casFailed t]) ∨
    claims es = [] ∧ failures es = 0 := by
  cases h with
  | won x hl hl' hes => exact Or.inl ⟨x,hl,hl',hes⟩
  | lost x hl hne hl' hq hes => exact Or.inr (Or.inl ⟨x,_,hl,hne,hl',hq,hes⟩)
  | enter _ _ _ _ _ hes => exact Or.inr (Or.inr (hes ▸ ⟨rfl,rfl⟩))
  | load _ _ _ hes => exact Or.inr (Or.inr (hes ▸ ⟨rfl,rfl⟩))
  | hold _ _ _ hes => exact Or.inr (Or.inr (hes ▸ ⟨rfl,rfl⟩))
  | rejected _ _ _ _ hes => exact Or.inr (Or.inr (hes ▸ ⟨rfl,rfl⟩))
  | outside _ _ _ hes => exact Or.inr (Or.inr hes)

theorem turn_producer (h : Turn t m c.shared (c.locals t) q l es) (hl : attempt l ≠ none) :
    attempt (c.locals t) ≠ none ∨ ∃ x, m = .call (.push x) := by
  cases h with
  | enter x hm _ _ _ _ => exact Or.inr ⟨x,hm⟩
  | load hold _ _ _ => exact Or.inl (by simp [hold])
  | hold hold _ _ _ => exact Or.inl (by simp [hold])
  | lost x hold _ _ _ _ => exact Or.inl (by simp [hold,attempt])
  | won x _ hnone _ => exact absurd hnone hl
  | rejected x _ hnone _ _ => exact absurd hnone hl
  | outside _ hnone _ _ => exact absurd hnone hl

theorem charged_quiet (hp : Paid P c tr) (h : Turn t m c.shared (c.locals t) q l es)
    (hc : claims es = []) (hf : failures es = 0) :
    failures (tr++es)+(stalePushes P ⟨q,Function.update c.locals t l⟩).card ≤
      (P.card-1)*(claims (tr++es)).length := by
  have hle := Finset.card_le_card (stale_subset (P := P) (turn_head h hc) (turn_stale h))
  have hcharged := hp.charged
  rw [failures_append,claims_append,hc,hf,List.append_nil]
  omega

theorem charged_lost {h : ℕ} {x : T} (hp : Paid P c tr) (hl : c.locals t = .pushCas x h)
    (hne : c.shared.head ≠ h) (hq : q.head = c.shared.head) :
    failures (tr++[.casFailed t])+
        (stalePushes P ⟨q,Function.update c.locals t (.pushLoadHead x)⟩).card ≤
      (P.card-1)*(claims (tr++[.casFailed t])).length := by
  have hstale : t ∈ stalePushes P c := mem_stalePushes.mpr
    ⟨hp.producers t (by simp [hl,attempt]),(stale_holding (by rw [hl]; rfl)).mpr hne.symm⟩
  have hsub : stalePushes P ⟨q,Function.update c.locals t (.pushLoadHead x)⟩ ⊆
      (stalePushes P c).erase t := by
    intro u hu
    have hfresh : ∀ head, stale head (.pushLoadHead x) ≠ true := fun _ => Bool.false_ne_true
    refine Finset.mem_erase.mpr ⟨?_,stale_subset hq (fun h => absurd h (hfresh _)) hu⟩
    rintro rfl
    obtain ⟨-,hu⟩ := mem_stalePushes.mp hu
    dsimp only at hu
    rw [Function.update_self] at hu
    exact hfresh _ hu
  have hcard := Finset.card_le_card hsub
  rw [Finset.card_erase_of_mem hstale] at hcard
  have hpos : 0 < (stalePushes P c).card := Finset.card_pos.mpr ⟨t,hstale⟩
  have hcharged := hp.charged
  have hone : failures [(.casFailed t : Event T)] = 1 := rfl
  rw [failures_append,hone,claims_append]
  show _ ≤ (P.card-1)*(claims tr++[]).length
  rw [List.append_nil]
  omega

/-- A success may make every other producer's push stale. -/
theorem charged_won {x : T} (hp : Paid P c tr) (hl : attempt (c.locals t) ≠ none)
    (hnone : attempt l = none) {k : ℕ} :
    failures (tr++[.claimed t k x])+(stalePushes P ⟨q,Function.update c.locals t l⟩).card ≤
      (P.card-1)*(claims (tr++[.claimed t k x])).length := by
  have hsub : stalePushes P ⟨q,Function.update c.locals t l⟩ ⊆ P.erase t := by
    intro u hu
    obtain ⟨hP,hu⟩ := mem_stalePushes.mp hu
    refine Finset.mem_erase.mpr ⟨?_,hP⟩
    rintro rfl
    simp [stale_none _ hnone] at hu
  have hcard := Finset.card_le_card hsub
  rw [Finset.card_erase_of_mem (hp.producers t hl)] at hcard
  have hcharged := hp.charged
  have hzero : failures [(.claimed t k x : Event T)] = 0 := rfl
  rw [failures_append,hzero,claims_append,claims_claimed,List.length_append,List.length_singleton,
    Nat.mul_succ]
  omega

theorem paid_step (hp : Paid P c tr) (g : Producing P c t m)
    (h : Step S t m c.shared (c.locals t) q l es) :
    Paid P ⟨q,Function.update c.locals t l⟩ (tr++es) := by
  have hturn := step_turn g.1 h
  constructor
  · intro u hu
    by_cases hut : u = t
    · subst hut
      dsimp only at hu
      rw [Function.update_self] at hu
      rcases turn_producer hturn hu with hu | ⟨x,rfl⟩
      · exact hp.producers u hu
      · exact g.2 x rfl
    · dsimp only at hu
      rw [Function.update_of_ne hut] at hu
      exact hp.producers u hu
  · rcases turn_events hturn with ⟨x,hl,hl',rfl⟩ | ⟨x,k,hl,hne,rfl,hq,rfl⟩ | ⟨hc,hf⟩
    · exact charged_won hp (by simp [hl]) hl'
    · exact charged_lost hp hl hne hq
    · exact charged_quiet hp hturn hc hf

theorem run_paid {n : ℕ} (r : (machine T S).Run (Producing P) (Config.start n) c tr) :
    Paid P c tr := by
  induction r with
  | start =>
    refine ⟨fun t h => absurd rfl h,?_⟩
    have hnone : stalePushes P (Config.start n : Config T) = ∅ :=
      Finset.filter_false_of_mem fun _ _ h => nomatch h
    rw [hnone]
    exact le_rfl
  | next _ g h ih =>
    obtain ⟨q,l,ha,rfl⟩ := step_some h
    exact paid_step ih g (act_step ha)

theorem head_kept (r : (machine T S).Run (Producing P) c c' tr)
    (hl : attempt (c.locals t) = some (some c.shared.head)) (hown : ∀ e ∈ tr, thread e ≠ t)
    (hnone : claims tr = []) : attempt (c'.locals t) = some (some c'.shared.head) := by
  induction r with
  | start => exact hl
  | @next d d' tr es i m r g h ih =>
    obtain ⟨hbefore,hes⟩ := List.forall_mem_append.mp hown
    rw [claims_append,List.append_eq_nil_iff] at hnone
    obtain ⟨q,l,ha,rfl⟩ := step_some h
    have hturn := step_turn g.1 (act_step ha)
    have hhead := turn_head hturn hnone.2
    have hheld := ih hbefore hnone.1
    show attempt (Function.update d.locals i l t) = some (some q.head)
    rw [hhead]
    by_cases hit : t = i
    · subst hit
      rw [Function.update_self]
      cases hturn with
      | hold hold hl' _ _ => exact hl'.trans (hold.symm.trans hheld)
      | enter _ _ hout _ _ _ => exact absurd (hout.symm.trans hheld) (by simp)
      | load hload _ _ _ => exact absurd (hload.symm.trans hheld) (by simp)
      | outside hout _ _ _ => exact absurd (hout.symm.trans hheld) (by simp)
      | won x _ _ hown => exact absurd rfl (hes _ (hown ▸ List.mem_singleton_self _))
      | lost x _ _ _ _ hown => exact absurd rfl (hes _ (hown ▸ List.mem_singleton_self _))
      | rejected x _ _ _ hown => exact absurd rfl (hes _ (hown ▸ List.mem_singleton_self _))
    · rw [Function.update_of_ne hit]
      exact hheld

/-- Between the load of the head and a compare-and-swap that fails another push
has succeeded. -/
theorem failure_overtaken {x : T} {d d' : Config T} {es₁ es₂ : List (Event T)}
    (hl : c.locals t = .pushLoadHead x) (h₁ : (machine T S).step c t .go = some (d,es₁))
    (r : (machine T S).Run (Producing P) d c' tr) (hown : ∀ e ∈ tr, thread e ≠ t)
    (h₂ : (machine T S).step c' t .go = some (d',es₂)) (hfail : .casFailed t ∈ es₂) :
    ∃ u k y, u ≠ t ∧ .claimed u k y ∈ tr := by
  have hgo : (.go : Move T) ≠ .spurious := by simp
  have hheld : attempt (d.locals t) = some (some d.shared.head) := by
    obtain ⟨q,l,ha,rfl⟩ := step_some h₁
    rw [hl] at ha
    have hs : Step S t .go c.shared (.pushLoadHead x) q l es₁ := act_step ha
    cases hs
    show attempt (Function.update c.locals t _ t) = _
    rw [Function.update_self]
    rfl
  have hclaims : claims tr ≠ [] := by
    intro hnone
    have hkept := head_kept r hheld hown hnone
    obtain ⟨q,l,ha,rfl⟩ := step_some h₂
    rcases turn_events (step_turn hgo (act_step ha)) with ⟨y,-,-,hes⟩ | ⟨y,k,hcas,hne,-⟩ | ⟨-,hf⟩
    · simp [hes] at hfail
    · rw [hcas] at hkept
      exact hne (Option.some.inj (Option.some.inj hkept)).symm
    · exact List.countP_eq_zero.mp hf _ hfail rfl
  obtain ⟨u,k,y,hu⟩ := exists_claimed hclaims
  exact ⟨u,k,y,hown _ hu,hu⟩

def Unclaimed (S : RingSize) (t : ℕ) : Guard ℕ (Move T) (Queue T) (Local T) := fun c i m =>
  m ≠ .spurious ∧ ∀ d es, (machine T S).step c i m = some (d,es) →
    claims es = [] ∧ (i = t → attempt (d.locals t) ≠ none)

def remaining (head : ℕ) (l : Local T) : ℕ :=
  rank l+if stale head l = true then 8+2*maxConsumers else 0

theorem rank_le (l : Local T) : rank l ≤ 8+2*maxConsumers := by
  cases l with
  | idle => exact Nat.zero_le _
  | _ =>
    simp only [rank]
    omega

/-- A step in the loop goes on, or is the failure of a stale push. -/
theorem loop_lowers {m : Move T} {q₀ : Queue T} {l₀ : Local T} (hm : m ≠ .spurious)
    (h : Step S t m q₀ l₀ q l es) (hl : attempt l₀ ≠ none) :
    rank l < rank l₀ ∨ ∃ x k, l₀ = .pushCas x k ∧ k ≠ q₀.head ∧ l = .pushLoadHead x := by
  by_cases hcas : ∀ x k, l₀ = .pushCas x k → k = q₀.head
  · cases m with
    | call op =>
      cases h
      exact absurd rfl hl
    | spurious => exact absurd rfl hm
    | go => exact Or.inl (step_lowers h hcas)
  · push Not at hcas
    obtain ⟨x,k,rfl,hne⟩ := hcas
    cases h with
    | casWin q x => exact absurd rfl hne
    | casLose q x h _ => exact Or.inr ⟨x,k,rfl,hne,rfl⟩
    | casSpurious q x h => exact absurd rfl hm

theorem remaining_lowers {m : Move T} {q₀ : Queue T} {l₀ : Local T} (hm : m ≠ .spurious)
    (h : Step S t m q₀ l₀ q l es) (hl : attempt l₀ ≠ none) (hc : claims es = []) :
    remaining q.head l < remaining q₀.head l₀ := by
  have hturn := step_turn hm h
  unfold remaining
  rw [turn_head hturn hc]
  rcases loop_lowers hm h hl with hlt | ⟨x,k,rfl,hne,rfl⟩
  · have hstale := turn_stale hturn
    split_ifs with h₁ h₂
    · omega
    · exact absurd (hstale h₁) h₂
    · omega
    · omega
  · have hstale : stale q₀.head (.pushCas x k) = true := (stale_holding rfl).mpr hne
    have hfresh : stale q₀.head (.pushLoadHead x) ≠ true := Bool.false_ne_true
    rw [if_pos hstale,if_neg hfresh]
    simp only [rank]
    omega

/-- As long as nobody succeeds a push leaves its loop after at most 144 steps. -/
theorem loop_bounded {n : ℕ} (hl : attempt (c.locals t) ≠ none)
    (r : (machine T S).Turns (Unclaimed S t) t c c' tr n) : n ≤ 2*(8+2*maxConsumers) := by
  have hmain : attempt (c'.locals t) ≠ none ∧
      n+remaining c'.shared.head (c'.locals t) ≤ remaining c.shared.head (c.locals t) := by
    refine System.Turns.lowers (P := fun d _ => attempt (d.locals t) ≠ none)
      (w := fun d => remaining d.shared.head (d.locals t)) hl ?_ ?_ r
    · intro d tr m d' es hd g h
      obtain ⟨hc,hstay⟩ := g.2 d' es h
      obtain ⟨q,l,ha,rfl⟩ := step_some h
      refine ⟨hstay rfl,?_⟩
      dsimp only
      rw [Function.update_self]
      exact remaining_lowers g.1 (act_step ha) hd hc
    · intro d tr j m d' es hd hj g h
      obtain ⟨hc,-⟩ := g.2 d' es h
      obtain ⟨q,l,ha,rfl⟩ := step_some h
      dsimp only
      rw [Function.update_of_ne hj.symm,turn_head (step_turn g.1 (act_step ha)) hc]
      exact ⟨hd,le_rfl⟩
  have hrank := rank_le (c.locals t)
  have hn := hmain.2
  unfold remaining at hn
  split_ifs at hn <;> omega

end Runs

theorem busy_steps {S : RingSize} {c : Config T} {t : ℕ} (h : c.locals t ≠ .idle) :
    ∃ r, (machine T S).step c t .go = some r := by
  obtain ⟨⟨q,l,es⟩,ha⟩ := advance_total S t c.shared h
  exact ⟨(⟨q,Function.update c.locals t l⟩,es),by simp [System.step,machine,act,ha]⟩

/-- Retries are paid for by progress, whoever else is in the queue. (1) A push
whose compare-and-swap fails was overtaken by another's success after its load
of the head. (2) The failures of a run are at most P-1 times its successes. (3)
As long as nobody succeeds a push leaves its loop, after at most 144 steps, and until
its call returns it can always take the next. -/
theorem retries_paid (S : RingSize) (P : Finset ℕ) (n : ℕ) (c : Config T) (tr : List (Event T))
    (r : (machine T S).Run (Producing P) (Config.start n) c tr) :
    (∀ t x d c' d' es₁ tr' es₂, c.locals t = .pushLoadHead x →
      (machine T S).step c t .go = some (d,es₁) → (machine T S).Run (Producing P) d c' tr' →
      (∀ e ∈ tr', thread e ≠ t) → (machine T S).step c' t .go = some (d',es₂) →
      .casFailed t ∈ es₂ → ∃ u k y, u ≠ t ∧ .claimed u k y ∈ tr') ∧
    failures tr ≤ (P.card-1)*(claims tr).length ∧
    ∀ t c' tr' k, attempt (c.locals t) ≠ none →
      (machine T S).Turns (Unclaimed S t) t c c' tr' k → k ≤ 2*(8+2*maxConsumers) ∧
        (c'.locals t ≠ .idle → ∃ r, (machine T S).step c' t .go = some r) := by
  refine ⟨fun t x d c' d' es₁ tr' es₂ hl h₁ r' hown h₂ hfail =>
    failure_overtaken hl h₁ r' hown h₂ hfail,?_,fun t c' tr' k hl r' =>
      ⟨loop_bounded hl r',fun hidle => busy_steps hidle⟩⟩
  have hcharged := (run_paid r).charged
  omega

def producingCheck (_ : Config ℕ) (t : ℕ) : Move ℕ → Bool
  | .spurious => false
  | .call (.push _) => t < 2
  | _ => true

theorem producing_of_check (c : Config ℕ) (t : ℕ) (m : Move ℕ)
    (h : producingCheck c t m = true) : Producing {0,1} c t m := by
  constructor
  · rintro rfl
    cases h
  · rintro x rfl
    have ht : t < 2 := of_decide_eq_true h
    interval_cases t <;> decide

/-- Producer 1 takes the position that producer 0 has loaded: one failure, one
success. -/
theorem retries_paid_two : ∃ (c : Config ℕ) (tr : List (Event ℕ)),
    (machine ℕ ring16).Run (Producing {0,1}) (Config.start 1) c tr ∧ failures tr = 1 ∧
      (claims tr).length = 1 ∧ failures tr ≤ (({0,1} : Finset ℕ).card-1)*(claims tr).length := by
  let as : List (ℕ × Move ℕ) := callAlone 0 (.push 7) 1++callAlone 1 (.push 8) 3++
    List.replicate 2 (0,.go)
  obtain ⟨c,tr,r,hv⟩ := exec_any (machine ℕ ring16) (Config.start 1) producing_of_check as
    (fun r => decide (failures r.2 = 1 ∧ (claims r.2).length = 1)) (by decide +kernel)
  obtain ⟨hf,hc⟩ := of_decide_eq_true hv
  exact ⟨c,tr,r,hf,hc,(retries_paid ring16 {0,1} 1 c tr r).2.1⟩

def WithinCall (t : ℕ) : Guard ℕ (Move T) (Queue T) (Local T) := fun _ j m =>
  j = t → ∀ op, m ≠ .call op

def stepLimit : Op T → ℕ
  | .push _ => 0
  | .pop _ => 6
  | .registerConsumer => 4
  | .unregisterConsumer _ => 1
  | .recomputeAndStoreMinTail => 6+2*maxConsumers

section WaitFree

variable {S : RingSize} {t : ℕ} {m : Move T} {q q' : Queue T} {l l' : Local T}
  {es : List (Event T)}

theorem rank_entry {op : Op T} (h : ∀ x, op ≠ .push x) : rank op.entry = stepLimit op := by
  cases op with
  | push x => exact absurd rfl (h x)
  | _ => rfl

theorem outside_lowers (hm : ∀ op, m ≠ .call op) (h : Step S t m q l q' l' es)
    (hl : attempt l = none) : attempt l' = none ∧ rank l' < rank l := by
  have hcas : ∀ x k, l ≠ .pushCas x k := by
    rintro x k rfl
    cases hl
  cases m with
  | call op => exact absurd rfl (hm op)
  | spurious =>
    cases h with
    | casSpurious q x k => exact absurd rfl (hcas x k)
  | go =>
    refine ⟨?_,step_lowers h fun x k hk => absurd hk (hcas x k)⟩
    cases h with
    | sawActive q k i ms hi active => exact hl
    | sawInactive q k i ms hi inactive => exact hl
    | readTail q k c ms => exact hl
    | scanChanged q k i ms hi => exact hl
    | _ => first | rfl | cases hl

end WaitFree

/-- Every call but a push is wait-free: a pop returns after at most 6 steps of its
thread, a registration after 4, an unregistration after 1, the recomputation of the
minimum after 70, whatever the other threads do meanwhile; and until it returns its
thread can always take the next. -/
theorem calls_wait_free (S : RingSize) (t : ℕ) (op : Op T) (hop : ∀ x, op ≠ .push x)
    (c c' : Config T) (tr : List (Event T)) (n : ℕ) (hl : c.locals t = op.entry)
    (r : (machine T S).Turns (WithinCall t) t c c' tr n) :
    n ≤ stepLimit op ∧ (c'.locals t ≠ .idle → ∃ r, (machine T S).step c' t .go = some r) := by
  have hentry : attempt (c.locals t) = none := by
    rw [hl]
    cases op with
    | push x => exact absurd rfl (hop x)
    | _ => rfl
  have hmain : attempt (c'.locals t) = none ∧ n+rank (c'.locals t) ≤ rank (c.locals t) := by
    refine System.Turns.lowers (P := fun d _ => attempt (d.locals t) = none)
      (w := fun d => rank (d.locals t)) hentry ?_ ?_ r
    · intro d tr m d' es hd g h
      obtain ⟨q,l,ha,rfl⟩ := step_some h
      have hlow := outside_lowers (g rfl) (act_step ha) hd
      simpa using hlow
    · intro d tr j m d' es hd hj g h
      obtain ⟨q,l,-,rfl⟩ := step_some h
      simpa [Function.update_of_ne hj.symm] using hd
  rw [hl,rank_entry hop] at hmain
  exact ⟨by omega,fun hidle => busy_steps hidle⟩

def withinCallCheck (t : ℕ) (_ : Config ℕ) (j : ℕ) : Move ℕ → Bool
  | .call _ => decide (j ≠ t)
  | _ => true

theorem withinCall_of_check (t : ℕ) (c : Config ℕ) (j : ℕ) (m : Move ℕ)
    (h : withinCallCheck t c j m = true) : WithinCall t c j m := by
  rintro rfl op rfl
  simp [withinCallCheck] at h

def beginsPop : Local ℕ → Bool
  | .popLoadActive c => decide (c = 0)
  | _ => false

theorem begins_of_check {l : Local ℕ} (h : beginsPop l = true) : l = (Op.pop 0).entry := by
  cases l with
  | popLoadActive c =>
    rw [of_decide_eq_true h]
    rfl
  | _ => cases h

/-- A pop that finds its item takes all of its 6 steps. -/
theorem calls_wait_free_pop : ∃ (c c' : Config ℕ) (tr : List (Event ℕ)),
    (machine ℕ ring16).Turns (WithinCall 2) 2 c c' tr 6 ∧ pops 0 tr = [some 100] ∧
      6 ≤ stepLimit (.pop 0 : Op ℕ) := by
  have hv : ((machine ℕ ring16).exec (fun _ _ _ => true) (Config.start 1)
      (callAlone 0 (.push 100) 6++[(2,.call (.pop 0))])).any (fun r =>
        beginsPop (r.1.locals 2) &&
        ((machine ℕ ring16).exec (withinCallCheck 2) r.1 (List.replicate 6 (2,.go))).any
          fun r => decide (pops 0 r.2 = [some 100])) = true := by
    decide +kernel
  obtain ⟨⟨c,tr₀⟩,-,hv⟩ := (Option.any_eq_true _ _).mp hv
  obtain ⟨hl,hv⟩ := Bool.and_eq_true_iff.mp hv
  obtain ⟨⟨c',tr⟩,he,hp⟩ := (Option.any_eq_true _ _).mp hv
  have r := exec_turns (withinCall_of_check 2) 6 .start he
  rw [List.nil_append,Nat.zero_add] at r
  exact ⟨c,c',tr,r,of_decide_eq_true hp,(calls_wait_free ring16 2 (.pop 0) (fun x h => by cases h) c
    c' tr 6 (begins_of_check hl) r).1⟩

end MpmcLogger.QueueProgress
