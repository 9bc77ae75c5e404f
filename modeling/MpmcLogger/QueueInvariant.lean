import MpmcLogger.QueueHistory

/-!
# The base invariant of every run of the queue

With at most 32 registrations and no wrap of the 64-bit head, the shared words
agree with the history: positions are claims, tickets are registrations, slot
sequences are published positions. A thread holds exactly the positions it has
claimed and not published. Nothing here depends on when consumers register.
-/

set_option autoImplicit false

namespace MpmcLogger.QueueInvariant
open Interleaving CopiedCell RingIndex MachineWord MpmcLogger.QueueMachine MpmcLogger.QueueHistory

variable {T : Type*}

def Bounded (S : RingSize) (n : ℕ) (tr : List (Event T)) : Prop :=
  (claims tr).length < 2^64-S.size ∧ n+(tickets tr).length ≤ maxConsumers

theorem bounded_earlier (S : RingSize) (n : ℕ) (tr es : List (Event T))
    (h : Bounded S n (tr++es)) : Bounded S n tr := by
  simp only [Bounded,claims_append,tickets_append,List.length_append] at *
  omega

def Within (n : ℕ) (tr : List (Event T)) : Prop :=
  (claims tr).length < 2^64 ∧ n+(tickets tr).length ≤ maxConsumers

theorem within_earlier (n : ℕ) (tr es : List (Event T)) (h : Within n (tr++es)) : Within n tr := by
  simp only [Within,claims_append,tickets_append,List.length_append] at *
  omega

theorem bounded_within {S : RingSize} {n : ℕ} {tr : List (Event T)} (h : Bounded S n tr) :
    Within n tr := by
  obtain ⟨hc,ht⟩ := h
  exact ⟨by omega,ht⟩

def OwnedMove (own : ConsumerId → ℕ) (t : ℕ) : Move T → Prop
  | .call (.pop c) | .call (.unregisterConsumer c) => own c = t
  | _ => True

instance (own : ConsumerId → ℕ) (t : ℕ) : (m : Move T) → Decidable (OwnedMove own t m)
  | .call (.pop c) => inferInstanceAs (Decidable (own c = t))
  | .call (.unregisterConsumer c) => inferInstanceAs (Decidable (own c = t))
  | .call (.push _) | .call .registerConsumer | .call .recomputeAndStoreMinTail => .isTrue trivial
  | .go | .spurious => .isTrue trivial

def Owned (own : ConsumerId → ℕ) : Guard ℕ (Move T) (Queue T) (Local T) :=
  fun _ t m => OwnedMove own t m

def holds : Local T → Option (ℕ × T)
  | .pushCopyBegin x h | .pushCopyEnd x h | .pushPublish x h => some (h,x)
  | _ => none

def ownedCheck (own : ConsumerId → ℕ) (_ : Config T) (t : ℕ) (m : Move T) : Bool :=
  decide (OwnedMove own t m)

theorem owned_of_check (own : ConsumerId → ℕ) (c : Config T) (t : ℕ) (m : Move T)
    (h : ownedCheck own c t m = true) : Owned own c t m := by
  simpa [ownedCheck,Owned] using h

def Raises (P : Config T → ConsumerId → Prop) (c : Config T) (t : ℕ) : Prop :=
  ∀ d, c.locals t = .registerStoreActive d → P c d

def Raising (own : ConsumerId → ℕ) (P : Config T → ConsumerId → Prop) :
    Guard ℕ (Move T) (Queue T) (Local T) :=
  fun c t m => OwnedMove own t m ∧ Raises P c t

def calmCheck (own : ConsumerId → ℕ) (c : Config T) (t : ℕ) (m : Move T) : Bool :=
  match c.locals t with
  | .registerStoreActive _ => false
  | _ => decide (OwnedMove own t m)

theorem calm_raising {P : Config T → ConsumerId → Prop} (own : ConsumerId → ℕ) (c : Config T)
    (t : ℕ) (m : Move T) (h : calmCheck own c t m = true) : Raising own P c t m := by
  unfold calmCheck at h
  split at h
  · simp at h
  · rename_i hl
    exact ⟨by simpa using h,fun d hd => absurd hd (hl d)⟩

theorem untouched_raising {P : Config T → ConsumerId → Prop} (own : ConsumerId → ℕ) (t : ℕ)
    (hP : ∀ c d, Untouched c t → c.locals t = .registerStoreActive d → P c d) (c : Config T)
    (m : Move T) (hu : Untouched c t) (hop : ∀ op, m = .call op → op = .registerConsumer) :
    Raising own P c t m := by
  refine ⟨?_,fun d hd => hP c d hu hd⟩
  cases m with
  | call op =>
    obtain rfl := hop op rfl
    trivial
  | go => trivial
  | spurious => trivial

structure Sound (S : RingSize) (n : ℕ) (q : Queue T) (tr : List (Event T)) : Prop where
  head_eq : q.head = (claims tr).length
  claimed : ∀ t k x, Event.claimed t k x ∈ tr → (claims tr)[k]? = some (t,x)
  pushed : ∀ t k x, Event.pushed t k x ∈ tr → (claims tr)[k]? = some (t,x)
  tail_le : ∀ c, (q.consumers c).tail ≤ q.head
  minTail_le : q.minTail ≤ q.head
  tickets_eq : q.numConsumers = n+(tickets tr).length
  registered : ∀ c, Registered tr c → n ≤ c.val ∧ c.val < n+(tickets tr).length
  active : ∀ c, (q.consumers c).active = true → Joined n tr c
  sequence : ∀ i, (q.slots i).sequence = invalidPos ∨
    Published tr (q.slots i).sequence ∧ S.index (q.slots i).sequence = i

theorem published_lt {S : RingSize} {n : ℕ} {q : Queue T} {tr : List (Event T)}
    (hs : Sound S n q tr) {k : ℕ} (h : Published tr k) : k < q.head := by
  obtain ⟨t,x,hx⟩ := h
  have := hs.pushed t k x hx
  rw [hs.head_eq]
  exact (List.getElem?_eq_some_iff.mp this).1

def CallerOk (q : Queue T) : Caller T → Prop
  | .push _ h _ => h ≤ q.head
  | .recompute => True

def MinsOk (q : Queue T) (m : Mins) : Prop := m.least ≤ q.head ∨ m.least = invalidPos

def Ticketed (n : ℕ) (tr : List (Event T)) (t : ℕ) (c : ConsumerId) : Prop :=
  n ≤ c.val ∧ (tickets tr)[c.val-n]? = some t ∧ ¬Registered tr c

structure Tracked (n : ℕ) (q : Queue T) (tr : List (Event T)) : Prop where
  head_eq : q.head = (claims tr).length
  tail_le : ∀ c, (q.consumers c).tail ≤ q.head
  tickets_eq : q.numConsumers = n+(tickets tr).length
  registered : ∀ c, Registered tr c → n ≤ c.val ∧ c.val < n+(tickets tr).length
  active : ∀ c, (q.consumers c).active = true → Joined n tr c
  sequence : ∀ i, (q.slots i).sequence = invalidPos ∨ (q.slots i).sequence < q.head

def Backed (n : ℕ) (t : ℕ) (q : Queue T) (tr : List (Event T)) : Local T → Prop
  | .pushPublish _ h => h < q.head
  | .popStoreTail _ tail _ => tail < q.head
  | .registerStoreTail _ h => h ≤ q.head
  | .registerStoreActive c => Ticketed n tr t c
  | _ => True

def Joining (n : ℕ) (q : Queue T) (tr : List (Event T)) (t : ℕ) (c : ConsumerId) : Prop :=
  Ticketed n tr t c ∧ (q.consumers c).active = false

def Popping (own : ConsumerId → ℕ) (q : Queue T) (t : ℕ) (c : ConsumerId) : Prop :=
  own c = t ∧ (q.consumers c).active = true

def LocalOk (n : ℕ) (own : ConsumerId → ℕ) (t : ℕ) (q : Queue T) (tr : List (Event T)) :
    Local T → Prop
  | .pushLoadMinTail _ h | .pushCas _ h => h ≤ q.head
  | .scanActive k _ m => CallerOk q k ∧ MinsOk q m
  | .scanTail k c m => CallerOk q k ∧ MinsOk q m ∧ Joined n tr c
  | .storeMinTail k new => CallerOk q k ∧ new ≤ q.head
  | .popLoadActive c | .unregisterStoreActive c => own c = t
  | .popLoadTail c => Popping own q t c
  | .popLoadSequence c tail => Popping own q t c ∧ tail = (q.consumers c).tail
  | .popCopyBegin c tail | .popCopyEnd c tail _ | .popStoreTail c tail _ =>
      Popping own q t c ∧ tail = (q.consumers c).tail ∧ Published tr tail
  | .registerLoadHead c | .registerStoreActive c => Joining n q tr t c
  | .registerStoreTail c h => Joining n q tr t c ∧ h ≤ q.head
  | _ => True

def Inflight (t : ℕ) (tr : List (Event T)) (l : Local T) : Prop :=
  ∀ (k : ℕ) (x : T), holds l = some (k,x) ↔ (claims tr)[k]? = some (t,x) ∧ ¬Published tr k

structure Good (n : ℕ) (own : ConsumerId → ℕ) (t : ℕ) (q : Queue T) (tr : List (Event T))
    (l : Local T) : Prop where
  inflight : Inflight t tr l
  ok : LocalOk n own t q tr l

structure Rely (n : ℕ) (own : ConsumerId → ℕ) (j : ℕ) (q : Queue T) (tr : List (Event T))
    (q' : Queue T) (tr' : List (Event T)) : Prop where
  head : q.head ≤ q'.head
  mine : ∀ (k : ℕ) (x : T), (claims tr')[k]? = some (j,x) ↔ (claims tr)[k]? = some (j,x)
  unpublished : ∀ (k : ℕ) (x : T), (claims tr)[k]? = some (j,x) → (Published tr' k ↔ Published tr k)
  published : ∀ k, Published tr k → Published tr' k
  joined : ∀ c, Joined n tr c → Joined n tr' c
  owned : ∀ c, Popping own q j c → q'.consumers c = q.consumers c
  joining : ∀ c, Joining n q tr j c → Joining n q' tr' j c

theorem least_start : Mins.start.least = invalidPos := rfl

theorem least_lower (m : Mins) (i t : ℕ) : (m.lower i t).least = min m.least t := by
  simp only [Mins.lower,Mins.least]
  split <;> simp only [Nat.min_def] <;> split_ifs <;> omega

theorem result_of_start {m : Mins} (h : m.least = invalidPos) : m.result = 0 := by
  simp [Mins.result,h]

theorem result_of_ne {m : Mins} (h : m.least ≠ invalidPos) : m.result = m.least := by
  simp [Mins.result,h]

theorem result_le_least (m : Mins) : m.result ≤ m.least := by
  by_cases hm : m.least = invalidPos
  · simp [result_of_start hm]
  · rw [result_of_ne hm]

theorem passed_inactive {q : Queue T} {d : ConsumerId} {i : ℕ} {hi : i < maxConsumers}
    (hd : (q.consumers d).active = true) (inactive : (q.consumers ⟨i,hi⟩).active = false)
    (hlt : d.val < i+1) : d.val < i := by
  rcases Nat.lt_succ_iff_lt_or_eq.mp hlt with hlt | rfl
  · exact hlt
  · simp [hd] at inactive

/-- A tail that was read is a bound of the accumulators from then on. -/
theorem least_passed {q : Queue T} {c d : ConsumerId} {m : Mins}
    (h : d.val < c.val → m.least ≤ (q.consumers d).tail) (hlt : d.val < c.val+1) :
    (m.lower c (q.consumers c).tail).least ≤ (q.consumers d).tail := by
  rw [least_lower]
  rcases Nat.lt_succ_iff_lt_or_eq.mp hlt with hlt | heq
  · exact (Nat.min_le_left _ _).trans (h hlt)
  · obtain rfl : d = c := Fin.ext heq
    exact Nat.min_le_right _ _

theorem result_le {q : Queue T} {m : Mins} (h : MinsOk q m) : m.result ≤ q.head := by
  by_cases hm : m.least = invalidPos
  · simp [result_of_start hm]
  · rw [result_of_ne hm]
    exact h.resolve_right hm

theorem u64_add_size {S : RingSize} {n : ℕ} {q : Queue T} {tr : List (Event T)}
    (hs : Sound S n q tr) (hb : Bounded S n tr) {b : ℕ} (h : b ≤ q.head) :
    u64 (b+S.size) = b+S.size := by
  have := hb.1
  rw [← hs.head_eq] at this
  exact u64_of_lt (by omega)

/-- A thread that holds position `k` has claimed it and not published it. -/
theorem held_claim {t : ℕ} {tr : List (Event T)} {l : Local T} (h : Inflight t tr l) {k : ℕ}
    {x : T} (hl : holds l = some (k,x)) :
    (claims tr)[k]? = some (t,x) ∧ ¬Published tr k := (h k x).mp hl

section Steps

variable {S : RingSize} {n : ℕ} {own : ConsumerId → ℕ} {t j : ℕ} {q q' : Queue T}
  {tr es : List (Event T)} {l l' : Local T} {m : Move T}

theorem Sound.tracked (hs : Sound S n q tr) : Tracked n q tr where
  head_eq := hs.head_eq
  tail_le := hs.tail_le
  tickets_eq := hs.tickets_eq
  registered := hs.registered
  active := hs.active
  sequence i := (hs.sequence i).imp_right fun h => published_lt hs h.1

theorem Good.backed (hs : Sound S n q tr) (hg : Good n own t q tr l) : Backed n t q tr l := by
  have hok := hg.ok
  cases l with
  | pushPublish x h =>
    obtain ⟨hc,-⟩ := held_claim hg.inflight (l := .pushPublish x h) rfl
    have hlt := (List.getElem?_eq_some_iff.mp hc).1
    rwa [← hs.head_eq] at hlt
  | popStoreTail c tail x => exact published_lt hs hok.2.2
  | registerStoreTail c h => exact hok.2
  | registerStoreActive c => exact hok.1
  | _ => trivial

theorem tracked_extend (hs : Tracked n q tr) (hc : claims es = []) (ht : tickets es = [])
    (hr : ∀ c, Registered es c → n ≤ c.val ∧ c.val < n+(tickets tr).length) :
    Tracked n q (tr++es) where
  head_eq := by simpa [hc] using hs.head_eq
  tail_le := hs.tail_le
  tickets_eq := by simpa [ht] using hs.tickets_eq
  registered c hx := by
    rcases (registered_append tr es c).mp hx with hx | hx
    · simpa [ht] using hs.registered c hx
    · simpa [ht] using hr c hx
  active c hx := joined_append (hs.active c hx)
  sequence := hs.sequence

theorem tracked_quiet (hs : Tracked n q tr) (h : Quiet es) : Tracked n q (tr++es) :=
  tracked_extend hs (claims_quiet h) (tickets_quiet h) fun c hx => absurd hx (registered_quiet h c)

theorem setSlot_sequence {P : ℕ → ℕ → Prop} (h : ∀ i, P i (q.slots i).sequence) {i : ℕ}
    {s : Slot T} (hs : P i s.sequence) (j : ℕ) : P j ((q.setSlot i s).slots j).sequence := by
  rw [setSlot_slots]
  split_ifs with hj
  · rwa [hj]
  · exact h j

theorem tracked_setSlot (hs : Tracked n q tr) {i : ℕ} {s : Slot T}
    (h : s.sequence = invalidPos ∨ s.sequence < q.head) : Tracked n (q.setSlot i s) tr :=
  have hslots := setSlot_sequence (P := fun _ k => k = invalidPos ∨ k < q.head) hs.sequence h
  { hs with sequence := hslots }

theorem tracked_setConsumer (hs : Tracked n q tr) {c : ConsumerId} {i : ConsumerInfo}
    (ht : i.tail ≤ q.head) (ha : i.active = true → Joined n tr c) :
    Tracked n (q.setConsumer c i) tr := by
  refine { hs with tail_le := fun d => ?_, active := fun d hd => ?_ }
  · by_cases hdc : d = c
    · simpa [hdc] using ht
    · simpa [hdc] using hs.tail_le d
  · by_cases hdc : d = c
    · subst hdc
      exact ha (by simpa using hd)
    · exact hs.active d (by simpa [hdc] using hd)

theorem head_claim (hs : Tracked n q tr) {x : T}
    (hb : Within n (tr++[.claimed t q.head x])) : u64 (q.head+1) = q.head+1 := by
  have hlen := hb.1
  rw [claims_append,claims_claimed,List.length_append,List.length_singleton,← hs.head_eq] at hlen
  exact u64_of_lt hlen

/-- Within the bound every ticket is an id. -/
theorem no_refusal (hs : Tracked n q tr) {w : String}
    (hb : Within n (tr++[.ticket t q.numConsumers,.threw t w])) :
    ¬maxConsumers ≤ q.numConsumers := by
  have hlen := hb.2
  rw [tickets_append,tickets_refused,List.length_append,List.length_singleton] at hlen
  have hcount := hs.tickets_eq
  omega

theorem tracked_step (hs : Tracked n q tr) (hl : Backed n t q tr l) (hb : Within n (tr++es))
    (he : Effect S t q l q' es) : Tracked n q' (tr++es) := by
  cases he with
  | quiet h => exact tracked_quiet hs h
  | minTail k new hk h =>
    have hq := tracked_quiet hs h
    exact ⟨hq.head_eq,hq.tail_le,hq.tickets_eq,hq.registered,hq.active,hq.sequence⟩
  | claim x hx =>
    have hu := head_claim hs hb
    have hle : q.head ≤ u64 (q.head+1) := (Nat.le_succ _).trans_eq hu.symm
    refine ⟨?_,fun c => (hs.tail_le c).trans hle,?_,?_,fun c hc => joined_append (hs.active c hc),
      fun i => (hs.sequence i).imp_right fun h => h.trans_le hle⟩
    · change u64 (q.head+1) = _
      rw [hu,hs.head_eq]
      simp
    · simpa using hs.tickets_eq
    · intro c hc
      simpa using hs.registered c (by simpa using hc)
  | copyBegin x h hx =>
    rw [List.append_nil]
    exact tracked_setSlot hs (hs.sequence _)
  | copyEnd x h hx =>
    rw [List.append_nil]
    exact tracked_setSlot hs (hs.sequence _)
  | publish x h hx =>
    subst hx
    exact tracked_setSlot (tracked_extend hs (by simp) (by simp) (by simp)) (Or.inr hl)
  | deliver c tail x hx =>
    subst hx
    have he : Tracked n q (tr++[.popped t c x]) := tracked_extend hs (by simp) (by simp) (by simp)
    exact tracked_setConsumer he ((u64_le _).trans hl) (he.active c)
  | ticket hx hi =>
    have hm : u32 (q.numConsumers+1) = q.numConsumers+1 :=
      u32_of_lt (by unfold maxConsumers at hi; omega)
    refine ⟨by simpa using hs.head_eq,hs.tail_le,?_,fun c hc => ?_,
      fun c ha => joined_append (hs.active c ha),hs.sequence⟩
    · change u32 (q.numConsumers+1) = _
      rw [hm,hs.tickets_eq]
      simp [Nat.add_assoc]
    · have := hs.registered c (by simpa using hc)
      simp only [tickets_append,tickets_ticket,List.length_append,List.length_singleton]
      omega
  | refuse hx hi => exact absurd hi (no_refusal hs hb)
  | storeTail c h hx =>
    subst hx
    rw [List.append_nil]
    exact tracked_setConsumer hs hl (hs.active c)
  | raise c hx =>
    subst hx
    obtain ⟨hn,htk,-⟩ := hl
    have he : Tracked n q (tr++[.registered t c]) := by
      refine tracked_extend hs (by simp) (by simp) fun d hr => ?_
      obtain rfl : d = c := by simpa using hr
      have hlt := (List.getElem?_eq_some_iff.mp htk).1
      omega
    exact tracked_setConsumer he (hs.tail_le c) fun _ => Or.inr (by simp)
  | drop c hx h =>
    have hq := tracked_quiet hs h
    exact tracked_setConsumer hq (hs.tail_le c) fun ha => absurd ha (by simp)

theorem claims_kept {k : ℕ} {a : ℕ × T} (h : (claims tr)[k]? = some a) :
    (claims (tr++es))[k]? = some a := by
  rw [claims_append,List.getElem?_append_left (List.getElem?_eq_some_iff.mp h).1,h]

theorem claimed_step (hs : Sound S n q tr) (he : Effect S t q l q' es) {u k : ℕ} {x : T}
    (hx : Event.claimed u k x ∈ tr++es) : (claims (tr++es))[k]? = some (u,x) := by
  rcases List.mem_append.mp hx with hx | hx
  · exact claims_kept (hs.claimed u k x hx)
  · cases he with
    | claim y hy =>
      obtain ⟨rfl,rfl,rfl⟩ : u = t ∧ k = q.head ∧ x = y := by simpa using hx
      simp [hs.head_eq]
    | quiet h => exact absurd (claims_quiet h) (claims_ne_nil hx)
    | minTail _ _ _ h => exact absurd (claims_quiet h) (claims_ne_nil hx)
    | drop _ _ h => exact absurd (claims_quiet h) (claims_ne_nil hx)
    | _ => simp at hx

theorem pushed_step (hs : Sound S n q tr) (hg : Good n own t q tr l) (he : Effect S t q l q' es)
    {u k : ℕ} {x : T} (hx : Event.pushed u k x ∈ tr++es) :
    (claims (tr++es))[k]? = some (u,x) := by
  rcases List.mem_append.mp hx with hx | hx
  · exact claims_kept (hs.pushed u k x hx)
  · cases he with
    | publish y h hl =>
      subst hl
      obtain ⟨rfl,rfl,rfl⟩ : u = t ∧ k = h ∧ x = y := by simpa using hx
      exact claims_kept (held_claim hg.inflight (l := .pushPublish x k) rfl).1
    | quiet h => exact absurd ⟨u,x,hx⟩ (published_quiet h k)
    | minTail _ _ _ h => exact absurd ⟨u,x,hx⟩ (published_quiet h k)
    | drop _ _ h => exact absurd ⟨u,x,hx⟩ (published_quiet h k)
    | _ => simp at hx

theorem head_le (hs : Tracked n q tr) (hb : Within n (tr++es)) (he : Effect S t q l q' es) :
    q.head ≤ q'.head := by
  cases he with
  | claim x hx => exact (Nat.le_succ _).trans_eq (head_claim hs hb).symm
  | _ => exact le_rfl

theorem sound_step (hs : Sound S n q tr) (hg : Good n own t q tr l)
    (hb : Within n (tr++es)) (he : Effect S t q l q' es) : Sound S n q' (tr++es) := by
  have htracked := tracked_step hs.tracked (hg.backed hs) hb he
  let P : ℕ → ℕ → Prop := fun i k => k = invalidPos ∨ Published (tr++es) k ∧ S.index k = i
  have hkeep : ∀ i, P i (q.slots i).sequence := fun i =>
    (hs.sequence i).imp_right fun h => ⟨(published_append _ _ _).mpr (Or.inl h.1),h.2⟩
  refine ⟨htracked.head_eq,fun u k x => claimed_step hs he,fun u k x => pushed_step hs hg he,
    htracked.tail_le,?_,htracked.tickets_eq,htracked.registered,htracked.active,?_⟩
  · have hle := hs.minTail_le
    cases he with
    | minTail k new hl h =>
      subst hl
      exact hg.ok.2
    | claim x hl =>
      exact hle.trans (by simp [head_claim hs.tracked hb])
    | _ => exact hle
  · cases he with
    | copyBegin x h hl => exact setSlot_sequence (P := P) hkeep (hkeep _)
    | copyEnd x h hl => exact setSlot_sequence (P := P) hkeep (hkeep _)
    | publish x h hl => exact setSlot_sequence (P := P) hkeep (Or.inr (by simp))
    | _ => exact hkeep

/-- Ticketed consumers of different threads differ, and none has joined. -/
theorem ticketed_unique {c : ConsumerId} (hj : Ticketed n tr j c) (ht : Ticketed n tr t c) :
    j = t := Option.some.inj (hj.2.1.symm.trans ht.2.1)

theorem Ticketed.not_joined {c : ConsumerId} (h : Ticketed n tr t c) : ¬Joined n tr c :=
  fun hj => hj.elim (fun hn => absurd h.1 (by omega)) h.2.2

/-- A step that claims no position and draws no ticket leaves another thread its own:
the positions that thread holds, the consumer it pops, the consumer it registers. -/
theorem rely_extend (hh : q.head ≤ q'.head) (hc : claims es = []) (ht : tickets es = [])
    (hp : ∀ (k : ℕ) (x : T), (claims tr)[k]? = some (j,x) → ¬Published es k)
    (hr : ∀ c, Joining n q tr j c → ¬Registered es c)
    (ho : ∀ c, Popping own q j c → q'.consumers c = q.consumers c)
    (hf : ∀ c, Joining n q tr j c → (q'.consumers c).active = false) :
    Rely n own j q tr q' (tr++es) where
  head := hh
  mine k x := by simp [hc]
  unpublished k x hk := by simp [hp k x hk]
  published k h := (published_append _ _ _).mpr (Or.inl h)
  joined c := joined_append
  owned := ho
  joining c h := by
    have hnot := hr c h
    obtain ⟨⟨hn,htk,hreg⟩,-⟩ := id h
    exact ⟨⟨hn,by simpa [ht] using htk,by simpa [hnot] using hreg⟩,hf c h⟩

theorem rely_quiet (hh : q.head ≤ q'.head) (hq : q'.consumers = q.consumers) (h : Quiet es) :
    Rely n own j q tr q' (tr++es) :=
  rely_extend hh (claims_quiet h) (tickets_quiet h) (fun k _ _ => published_quiet h k)
    (fun c _ => registered_quiet h c) (fun _ _ => by rw [hq])
    (fun _ hj => by rw [hq]; exact hj.2)

theorem rely_step (hs : Sound S n q tr) (hg : Good n own t q tr l) (hb : Within n (tr++es))
    (he : Effect S t q l q' es) (hj : j ≠ t) : Rely n own j q tr q' (tr++es) := by
  have hle := head_le hs.tracked hb he
  cases he with
  | quiet h => exact rely_quiet le_rfl rfl h
  | minTail k new hl h => exact rely_quiet le_rfl rfl h
  | claim x hl =>
    refine ⟨hle,fun k y => ?_,fun k y _ => by simp,fun k h => ?_,fun c => joined_append,
      fun _ _ => rfl,fun c h => ⟨⟨h.1.1,by simpa using h.1.2.1,by simpa using h.1.2.2⟩,h.2⟩⟩
    · rw [claims_append,claims_claimed,getElem?_snoc]
      simp [hj.symm]
    · exact (published_append _ _ _).mpr (Or.inl h)
  | copyBegin x h hl => exact rely_quiet le_rfl rfl quiet_nil
  | copyEnd x h hl => exact rely_quiet le_rfl rfl quiet_nil
  | publish x h hl =>
    subst hl
    obtain ⟨hc,-⟩ := held_claim hg.inflight (l := .pushPublish x h) rfl
    refine rely_extend le_rfl (by simp) (by simp) (fun k y hk => ?_) (by simp) (fun _ _ => rfl)
      (fun _ hd => hd.2)
    have hne : k ≠ h := by
      rintro rfl
      exact hj (Prod.mk.inj (Option.some.inj (hk.symm.trans hc))).1
    simp [hne]
  | deliver c tail x hl =>
    subst hl
    obtain ⟨⟨hown,hact⟩,-,-⟩ := hg.ok
    refine rely_extend le_rfl (by simp) (by simp) (by simp) (by simp) (fun d hd => ?_)
      (fun d hd => ?_)
    · have hne : d ≠ c := by
        rintro rfl
        exact hj (hd.1.symm.trans hown)
      simp [hne]
    · by_cases hdc : d = c <;> simpa [hdc] using hd.2
  | ticket hl hi =>
    refine ⟨le_rfl,fun k y => by simp,fun k y _ => by simp,fun k h => ?_,fun c => joined_append,
      fun _ _ => rfl,fun c h => ⟨⟨h.1.1,?_,by simpa using h.1.2.2⟩,h.2⟩⟩
    · exact (published_append _ _ _).mpr (Or.inl h)
    · rw [tickets_append,tickets_ticket]
      exact (getElem?_snoc _ _ _ _).mpr (Or.inl h.1.2.1)
  | refuse hl hi => exact absurd hi (no_refusal hs.tracked hb)
  | storeTail c h hl =>
    subst hl
    refine rely_extend le_rfl (by simp) (by simp) (by simp) (by simp) (fun d hd => ?_)
      (fun d hd => ?_)
    · have hne : d ≠ c := by
        rintro rfl
        exact absurd hg.ok.1.2 (by simp [hd.2])
      simp [hne]
    · by_cases hdc : d = c <;> simpa [hdc] using hd.2
  | raise c hl =>
    subst hl
    have hother : ∀ d, Joining n q tr j d → d ≠ c := by
      rintro d hd rfl
      exact hj (ticketed_unique hd.1 hg.ok.1)
    refine rely_extend le_rfl (by simp) (by simp) (by simp) (fun d hd => ?_) (fun d hd => ?_)
      (fun d hd => ?_)
    · simp [hother d hd]
    · have hne : d ≠ c := by
        rintro rfl
        exact absurd hg.ok.2 (by simp [hd.2])
      simp [hne]
    · simpa [hother d hd] using hd.2
  | drop c hl h =>
    subst hl
    have hr : Rely n own j q tr q (tr++es) := rely_quiet le_rfl rfl h
    refine { hr with owned := fun d hd => ?_, joining := fun d hd => ⟨(hr.joining d hd).1,?_⟩ }
    · have hne : d ≠ c := by
        rintro rfl
        exact hj (hd.1.symm.trans hg.ok)
      simp [hne]
    · by_cases hd' : d = c
      · simp [hd']
      · simpa [hd'] using hd.2

theorem callerOk_mono {k : Caller T} (h : q.head ≤ q'.head) (hk : CallerOk q k) :
    CallerOk q' k := by
  cases k with
  | push x hd mt => exact le_trans hk h
  | recompute => trivial

theorem minsOk_mono {m : Mins} (h : q.head ≤ q'.head) (hm : MinsOk q m) : MinsOk q' m :=
  hm.imp_left (fun hl => hl.trans h)

theorem popping_mono {c : ConsumerId} (hr : Rely n own j q tr q' (tr++es))
    (h : Popping own q j c) : Popping own q' j c :=
  ⟨h.1,by rw [hr.owned c h]; exact h.2⟩

theorem good_stable (hr : Rely n own j q tr q' (tr++es)) (hg : Good n own j q tr l) :
    Good n own j q' (tr++es) l := by
  refine ⟨fun k x => ?_,?_⟩
  · rw [hg.inflight k x,hr.mine k x]
    exact and_congr_right fun hc => not_congr (hr.unpublished k x hc).symm
  · have hok := hg.ok
    cases l with
    | pushLoadMinTail x h => exact le_trans hok hr.head
    | pushCas x h => exact le_trans hok hr.head
    | scanActive k i m => exact ⟨callerOk_mono hr.head hok.1,minsOk_mono hr.head hok.2⟩
    | scanTail k c m =>
      exact ⟨callerOk_mono hr.head hok.1,minsOk_mono hr.head hok.2.1,hr.joined c hok.2.2⟩
    | storeMinTail k new => exact ⟨callerOk_mono hr.head hok.1,hok.2.trans hr.head⟩
    | popLoadActive c => exact hok
    | popLoadTail c => exact popping_mono hr hok
    | popLoadSequence c tail =>
      exact ⟨popping_mono hr hok.1,by rw [hr.owned c hok.1]; exact hok.2⟩
    | popCopyBegin c tail =>
      exact ⟨popping_mono hr hok.1,by rw [hr.owned c hok.1]; exact hok.2.1,
        hr.published tail hok.2.2⟩
    | popCopyEnd c tail before =>
      exact ⟨popping_mono hr hok.1,by rw [hr.owned c hok.1]; exact hok.2.1,
        hr.published tail hok.2.2⟩
    | popStoreTail c tail x =>
      exact ⟨popping_mono hr hok.1,by rw [hr.owned c hok.1]; exact hok.2.1,
        hr.published tail hok.2.2⟩
    | registerLoadHead c => exact hr.joining c hok
    | registerStoreTail c h => exact ⟨hr.joining c hok.1,hok.2.trans hr.head⟩
    | registerStoreActive c => exact hr.joining c hok
    | unregisterStoreActive c => exact hok
    | _ => trivial

theorem inflight_same (hi : Inflight t tr l) (hl : holds l' = holds l) (hc : claims es = [])
    (hp : ∀ k, ¬Published es k) : Inflight t (tr++es) l' := by
  intro k x
  rw [hl,hi k x]
  simp [hc,hp]

theorem inflight_quiet (hi : Inflight t tr l) (hl : holds l' = holds l) (h : Quiet es) :
    Inflight t (tr++es) l' :=
  inflight_same hi hl (claims_quiet h) (published_quiet h)

theorem inflight_step (hs : Sound S n q tr) (hg : Good n own t q tr l)
    (h : Step S t m q l q' l' es) : Inflight t (tr++es) l' := by
  have hi := hg.inflight
  cases h with
  | call q op => exact inflight_quiet hi (by cases op <;> rfl) (by simp [Quiet,NotableEvent])
  | casWin q x =>
    intro k y
    have hnone : ∀ y, ¬((claims tr)[q.head]? = some (t,y) ∧ ¬Published tr q.head) := by
      rintro y ⟨hk,-⟩
      have := (List.getElem?_eq_some_iff.mp hk).1
      rw [hs.head_eq] at this
      omega
    have hold : ¬((claims tr)[k]? = some (t,y) ∧ ¬Published tr k) := fun h => by
      simpa [holds] using (hi k y).mpr h
    have hfresh : ¬Published tr q.head := fun h => (published_lt hs h).ne rfl
    rw [claims_append,claims_claimed,getElem?_snoc,← hs.head_eq]
    simp only [holds,Option.some.injEq,Prod.mk.injEq,published_append,published_claimed,or_false,
      true_and]
    constructor
    · rintro ⟨rfl,rfl⟩
      exact ⟨Or.inr ⟨rfl,rfl⟩,hfresh⟩
    · rintro ⟨hk | ⟨rfl,rfl⟩,hp⟩
      · exact absurd ⟨hk,hp⟩ hold
      · exact ⟨rfl,rfl⟩
  | publish q x h =>
    intro k y
    have hk := hi k y
    simp only [holds,Option.some.injEq,Prod.mk.injEq] at hk
    simp only [holds,claims_append,claims_pushed,List.append_nil,published_append,
      published_pushed,reduceCtorEq,false_iff,not_and,not_not]
    intro hc
    by_cases hp : Published tr k
    · exact Or.inl hp
    · exact Or.inr (hk.mpr ⟨hc,hp⟩).1.symm
  | copyBegin q x h => exact inflight_quiet hi rfl quiet_nil
  | copyEnd q x h => exact inflight_quiet hi rfl quiet_nil
  | popDone q c tail x => exact inflight_same hi rfl rfl (by simp)
  | registerTicket q hi' => exact inflight_same hi rfl rfl (by simp)
  | registerThrow q hi' => exact inflight_same hi rfl rfl (by simp [Published])
  | registerActive q c => exact inflight_same hi rfl rfl (by simp)
  | _ => exact inflight_quiet hi rfl (by simp [Quiet,NotableEvent])

theorem minsOk_start : MinsOk q Mins.start := Or.inr least_start

theorem minsOk_lower (hs : Sound S n q tr) {ms : Mins} (c : ConsumerId) :
    MinsOk q (ms.lower c (q.consumers c).tail) := by
  have := hs.tail_le c
  refine Or.inl ?_
  rw [least_lower]
  omega

theorem call_ok (op : Op T) (ho : OwnedMove own t (.call op)) :
    LocalOk n own t q tr op.entry := by
  cases op with
  | push x => trivial
  | pop c => exact ho
  | registerConsumer => trivial
  | unregisterConsumer c => exact ho
  | recomputeAndStoreMinTail => exact ⟨trivial,minsOk_start⟩

theorem lt_invalidPos (hs : Tracked n q tr) (hb : Bounded S n tr) {b : ℕ} (h : b ≤ q.head) :
    b < invalidPos := by
  have hlt := hb.1
  have hpos := S.meaningful
  rw [← hs.head_eq] at hlt
  unfold invalidPos
  omega

def Markless (S : RingSize) (q : Queue T) (l : Local T) : Prop :=
  ∀ c tail, l = .popLoadSequence c tail → tail = invalidPos →
    (q.slots (S.index tail)).sequence ≠ invalidPos

theorem bounded_markless (hs : Sound S n q tr) (hb : Bounded S n tr) (hg : Good n own t q tr l) :
    Markless S q l := by
  rintro c tail rfl ht
  have hlt := lt_invalidPos hs.tracked hb (hs.tail_le c)
  have hok := hg.ok.2
  omega

theorem ready_published (hs : Sound S n q tr) {c : ConsumerId} {tail : ℕ}
    (hm : Markless S q (.popLoadSequence c tail))
    (ready : (q.slots (S.index tail)).sequence = tail) : Published tr tail := by
  rcases hs.sequence (S.index tail) with hv | ⟨hp,-⟩
  · exact absurd hv (hm c tail rfl (ready.symm.trans hv))
  · rwa [ready] at hp

theorem fresh_ticket (hs : Tracked n q tr) (hi : q.numConsumers < maxConsumers) :
    Joining n { q with numConsumers := u32 (q.numConsumers+1) }
      (tr++[.ticket t q.numConsumers]) t ⟨q.numConsumers,hi⟩ := by
  have hn := hs.tickets_eq
  have hnew : ¬Joined n tr ⟨q.numConsumers,hi⟩ := by
    rintro (h | h)
    · simp only at h
      omega
    · have := (hs.registered _ h).2
      simp only at this
      omega
  refine ⟨⟨by simp only; omega,?_,fun h => hnew (Or.inr (by simpa using h))⟩,?_⟩
  · rw [tickets_append,tickets_ticket]
    exact (getElem?_snoc _ _ _ _).mpr (Or.inr ⟨by simp only; omega,rfl⟩)
  · exact Bool.eq_false_iff.mpr fun ha => hnew (hs.active _ ha)

theorem local_step (hs : Sound S n q tr) (hg : Good n own t q tr l)
    (hm : Markless S q l) (ho : OwnedMove own t m) (h : Step S t m q l q' l' es) :
    LocalOk n own t q' (tr++es) l' := by
  have hok := hg.ok
  cases h with
  | call q op => exact call_ok op ho
  | loadHead q x => exact le_refl q.head
  | needScan q x h full => exact ⟨hok,minsOk_start⟩
  | hasRoom q x h room => exact hok
  | sawActive q k i m hi active => exact ⟨hok.1,hok.2,joined_append (hs.active _ active)⟩
  | sawInactive q k i m hi inactive => exact hok
  | readTail q k c m => exact ⟨hok.1,minsOk_lower hs c⟩
  | scanChanged q k i m hi => exact ⟨hok.1,result_le hok.2⟩
  | scanRoom q x h i m hi room => exact hok.1
  | storeRoom q x h old new room => exact hok.1
  | popActive q c active => exact ⟨hok,active⟩
  | popTail q c => exact ⟨hok,rfl⟩
  | popReady q c tail ready =>
    rw [List.append_nil]
    exact ⟨hok.1,hok.2,ready_published hs hm ready⟩
  | popBegin q c tail =>
    rw [List.append_nil]
    exact hok
  | popEnd q c tail before =>
    rw [List.append_nil]
    exact hok
  | registerTicket q hi => exact fresh_ticket hs.tracked hi
  | registerHead q c =>
    rw [List.append_nil]
    exact ⟨hok,le_refl q.head⟩
  | registerTail q c h => simpa [LocalOk,Joining] using hok.1
  | _ => trivial

theorem tail_step (hs : Sound S n q tr) (hg : Good n own t q tr l) (hb : Within n (tr++es))
    (he : Effect S t q l q' es) {c : ConsumerId} (hc : Joined n tr c) :
    (q'.consumers c).tail = (q.consumers c).tail ∨
      (q'.consumers c).tail = (q.consumers c).tail+1 ∧ Published tr (q.consumers c).tail ∧
        ∃ x, l = .popStoreTail c (q.consumers c).tail x := by
  cases he with
  | deliver d tail x hl =>
    subst hl
    obtain ⟨-,rfl,hp⟩ := hg.ok
    by_cases hd : c = d
    · subst hd
      have hlt := published_lt hs hp
      have hb := (within_earlier n _ _ hb).1
      have hu : u64 ((q.consumers c).tail+1) = (q.consumers c).tail+1 :=
        u64_of_lt (by rw [← hs.head_eq] at hb; omega)
      exact Or.inr ⟨by simpa using hu,hp,x,rfl⟩
    · exact Or.inl (by simp [hd])
  | storeTail d h hl =>
    subst hl
    have hne : c ≠ d := by
      rintro rfl
      exact hg.ok.1.1.not_joined hc
    exact Or.inl (by simp [hne])
  | raise d hl => exact Or.inl (setFlag_tail q d c true)
  | drop d hl h => exact Or.inl (setFlag_tail q d c false)
  | _ => exact Or.inl rfl

theorem active_step (he : Effect S t q l q' es) {c : ConsumerId}
    (h : (q'.consumers c).active = true) :
    (q.consumers c).active = true ∨ l = .registerStoreActive c := by
  cases he with
  | raise d hl =>
    by_cases hd : c = d
    · exact Or.inr (by rw [hl,hd])
    · exact Or.inl (by simpa [hd] using h)
  | drop d hl hq =>
    by_cases hd : c = d
    · simp [hd] at h
    · exact Or.inl (by simpa [hd] using h)
  | deliver d tail x hl =>
    by_cases hd : c = d <;> exact Or.inl (by simpa [hd] using h)
  | storeTail d hh hl =>
    by_cases hd : c = d <;> exact Or.inl (by simpa [hd] using h)
  | _ => exact Or.inl h

end Steps

variable {S : RingSize} {n : ℕ} {own : ConsumerId → ℕ} {c : Config T} {tr : List (Event T)}
  {ok : Guard ℕ (Move T) (Queue T) (Local T)}

def Waits : Local T → Prop
  | .idle | .popLoadActive _ | .popLoadTail _ | .popLoadSequence .. | .unregisterStoreActive _ => True
  | _ => False

structure Begun (n : ℕ) (own : ConsumerId → ℕ) (c : Config T) : Prop where
  head : c.shared.head = 0
  minTail : c.shared.minTail = 0
  tickets : c.shared.numConsumers = n
  tails : ∀ d, (c.shared.consumers d).tail = 0
  active : ∀ d, (c.shared.consumers d).active = true → d.val < n
  slots : c.shared.slots = fun _ => ⟨invalidPos,Cell.empty⟩
  waits : ∀ t, Waits (c.locals t)
  ok : ∀ t, LocalOk n own t c.shared [] (c.locals t)

theorem begun_start : Begun n own (Config.start n : Config T) where
  head := rfl
  minTail := rfl
  tickets := rfl
  tails _ := rfl
  active d h := by simpa [Config.start,Queue.registered] using h
  slots := rfl
  waits _ := trivial
  ok _ := trivial

theorem waits_ok {t n' : ℕ} {q : Queue T} {tr' : List (Event T)} {l : Local T} (h : Waits l)
    (hl : LocalOk n own t q tr l) : LocalOk n' own t q tr' l := by
  cases l <;> first | exact h.elim | exact hl

theorem waits_holds {l : Local T} (h : Waits l) : holds l = none := by
  cases l <;> first | exact h.elim | rfl

theorem sound_start (S : RingSize) {c₀ : Config T} (h₀ : Begun n own c₀) :
    Sound S n c₀.shared [] where
  head_eq := h₀.head
  claimed := by simp
  pushed := by simp
  tail_le d := by rw [h₀.tails d,h₀.head]
  minTail_le := by rw [h₀.minTail,h₀.head]
  tickets_eq := h₀.tickets
  registered := by simp
  active d h := Or.inl (h₀.active d h)
  sequence i := Or.inl (by rw [h₀.slots])

theorem good_start {c₀ : Config T} (h₀ : Begun n own c₀) (t : ℕ) :
    Good n own t c₀.shared [] (c₀.locals t) :=
  ⟨fun k x => by simp [waits_holds (h₀.waits t)],h₀.ok t⟩

/-- The base invariant holds in every configuration of every run in which each
consumer is popped and unregistered by its own thread. -/
theorem run_sound {c₀ : Config T} (h₀ : Begun n own c₀)
    (hown : ∀ c t m, ok c t m → OwnedMove own t m)
    (r : (machine T S).Run ok c₀ c tr) (hb : Bounded S n tr) :
    Sound S n c.shared tr ∧ ∀ t, Good n own t c.shared tr (c.locals t) := by
  refine System.Run.thread_invariant (bounded_earlier S n) ?_ ?_ ?_ r hb
  · exact ⟨sound_start S h₀,good_start h₀⟩
  · intro c tr t m q l es _ hb hs hg g ha
    have hst := act_step ha
    have hm := bounded_markless hs (bounded_earlier S n _ _ hb) (hg t)
    exact ⟨sound_step hs (hg t) (bounded_within hb) (step_effect hst),inflight_step hs (hg t) hst,
      local_step hs (hg t) hm (hown c t m g) hst⟩
  · intro c tr t m q l es _ hb hs hg g ha j hj
    replace hb := bounded_within hb
    have he := step_effect (act_step ha)
    exact good_stable (rely_step hs (hg t) hb he hj) (hg j)

def Claimable (l : Local T) : Prop := ∀ x h, l = .pushCas x h → h < invalidPos

theorem room_claimable {b h : ℕ} (room : h < u64 b) : h < invalidPos := by
  have : u64 b < 2^64 := Nat.mod_lt _ (by decide)
  unfold invalidPos
  omega

/-- The head of a queue never wraps, however many pushes there are. -/
theorem claimable_step {t : ℕ} {m : Move T} {q q' : Queue T} {l l' : Local T} {es : List (Event T)}
    (hh : q.head = (claims tr).length) (hlt : q.head < 2^64) (hl : Claimable l)
    (h : Step S t m q l q' l' es) :
    (q'.head = (claims (tr++es)).length ∧ q'.head < 2^64) ∧ Claimable l' := by
  have hquiet : claims es = [] → q'.head = q.head →
      q'.head = (claims (tr++es)).length ∧ q'.head < 2^64 := by
    intro hc hq
    rw [claims_append,hc,List.append_nil,hq]
    exact ⟨hh,hlt⟩
  have hnone : ∀ {k : Local T}, (∀ x h, k ≠ .pushCas x h) → Claimable k :=
    fun hk x h hx => absurd hx (hk x h)
  cases h with
  | casWin q x =>
    have hne := hl x q.head rfl
    have hu : u64 (q.head+1) = q.head+1 := u64_of_lt (by unfold invalidPos at hne; omega)
    refine ⟨?_,hnone (by simp)⟩
    rw [claims_append,claims_claimed,List.length_append,List.length_singleton,← hh]
    exact ⟨hu,Nat.mod_lt _ (by decide)⟩
  | hasRoom q x h room =>
    refine ⟨hquiet rfl rfl,fun y k hk => ?_⟩
    cases hk
    exact room_claimable room
  | scanRoom q x h i ms hi room =>
    refine ⟨hquiet rfl rfl,fun y k hk => ?_⟩
    cases hk
    exact room_claimable room
  | storeRoom q x h old new room =>
    refine ⟨hquiet rfl rfl,fun y k hk => ?_⟩
    cases hk
    exact room_claimable room
  | call q op => exact ⟨hquiet rfl rfl,hnone (by cases op <;> simp [Op.entry])⟩
  | _ => exact ⟨hquiet rfl rfl,hnone (by simp)⟩

theorem waits_claimable {l : Local T} (h : Waits l) : Claimable l := by
  rintro x k rfl
  exact h.elim

theorem run_claims_lt {c₀ : Config T} (h₀ : Begun n own c₀) (r : (machine T S).Run ok c₀ c tr) :
    (claims tr).length < 2^64 := by
  have hinv : (c.shared.head = (claims tr).length ∧ c.shared.head < 2^64) ∧
      ∀ t, Claimable (c.locals t) := by
    induction r with
    | start =>
      refine ⟨⟨h₀.head,?_⟩,fun t => waits_claimable (h₀.waits t)⟩
      rw [h₀.head]
      exact Nat.two_pow_pos 64
    | @next c c' tr es t m r g h ih =>
      obtain ⟨q,l,ha,rfl⟩ := step_some h
      obtain ⟨⟨hh,hlt⟩,hc⟩ := ih
      obtain ⟨hq,hl⟩ := claimable_step hh hlt (hc t) (act_step ha)
      exact ⟨hq,(Function.forall_update_iff _ fun _ l => Claimable l).mpr ⟨hl,fun j _ => hc j⟩⟩
  omega

end MpmcLogger.QueueInvariant
