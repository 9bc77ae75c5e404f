import MpmcLogger.QueueMachine
import Mathlib.Tactic

/-!
# Histories of the queue and the inversion of its steps

The claimed items, the published positions, the tickets and the items each
consumer received are read off the events of a run. A step is inverted once:
`Step` names every transition of a thread with its conditions, `Effect` what it
does to the shared queue and to the history. Later invariants use only these.
-/

set_option autoImplicit false

namespace MpmcLogger.QueueHistory
open Interleaving CopiedCell RingIndex MachineWord MpmcLogger.QueueMachine

variable {T : Type*}

def claims (tr : List (Event T)) : List (ℕ × T) :=
  tr.filterMap fun | .claimed t _ x => some (t,x) | _ => none

def tickets (tr : List (Event T)) : List ℕ :=
  tr.filterMap fun | .ticket t _ => some t | _ => none

def pops (c : ConsumerId) (tr : List (Event T)) : List (Option T) :=
  tr.filterMap fun | .popped _ d x => if d = c then some x else none | _ => none

def Published (tr : List (Event T)) (k : ℕ) : Prop := ∃ t x, Event.pushed t k x ∈ tr

def Registered (tr : List (Event T)) (c : ConsumerId) : Prop := ∃ t, Event.registered t c ∈ tr

def Joined (n : ℕ) (tr : List (Event T)) (c : ConsumerId) : Prop := c.val < n ∨ Registered tr c

@[simp] theorem claims_append (tr es : List (Event T)) :
    claims (tr++es) = claims tr ++ claims es := List.filterMap_append

@[simp] theorem tickets_append (tr es : List (Event T)) :
    tickets (tr++es) = tickets tr ++ tickets es := List.filterMap_append

@[simp] theorem pops_append (c : ConsumerId) (tr es : List (Event T)) :
    pops c (tr++es) = pops c tr ++ pops c es := List.filterMap_append

@[simp] theorem published_append (tr es : List (Event T)) (k : ℕ) :
    Published (tr++es) k ↔ Published tr k ∨ Published es k := by
  simp only [Published,List.mem_append]
  aesop

@[simp] theorem registered_append (tr es : List (Event T)) (c : ConsumerId) :
    Registered (tr++es) c ↔ Registered tr c ∨ Registered es c := by
  simp only [Registered,List.mem_append,exists_or]

@[simp] theorem claims_nil : claims ([] : List (Event T)) = [] := rfl

@[simp] theorem tickets_nil : tickets ([] : List (Event T)) = [] := rfl

@[simp] theorem pops_nil (c : ConsumerId) : pops c ([] : List (Event T)) = [] := rfl

@[simp] theorem published_nil (k : ℕ) : ¬Published ([] : List (Event T)) k := by
  simp [Published]

@[simp] theorem registered_nil (c : ConsumerId) : ¬Registered ([] : List (Event T)) c := by
  simp [Registered]

theorem joined_append {n : ℕ} {tr es : List (Event T)} {c : ConsumerId}
    (h : Joined n tr c) : Joined n (tr++es) c := by
  rcases h with h | h
  · exact Or.inl h
  · exact Or.inr ((registered_append tr es c).mpr (Or.inl h))

@[simp] theorem claims_called (t : ℕ) (op : Op T) : claims [Event.called t op] = [] := rfl

@[simp] theorem claims_claimed (t k : ℕ) (x : T) :
    claims [Event.claimed t k x] = [(t,x)] := rfl

@[simp] theorem claims_pushed (t k : ℕ) (x : T) : claims [Event.pushed t k x] = [] := rfl

@[simp] theorem claims_popped (t : ℕ) (c : ConsumerId) (x : Option T) :
    claims [Event.popped t c x] = [] := rfl

@[simp] theorem claims_registered (t : ℕ) (c : ConsumerId) :
    claims [(Event.registered t c : Event T)] = [] := rfl

@[simp] theorem claims_ticket (t k : ℕ) : claims [(Event.ticket t k : Event T)] = [] := rfl

@[simp] theorem claims_refused (t k : ℕ) (w : String) :
    claims [(Event.ticket t k : Event T),.threw t w] = [] := rfl

theorem getElem?_snoc {α : Type*} (xs : List α) (a b : α) (k : ℕ) :
    (xs++[a])[k]? = some b ↔ xs[k]? = some b ∨ k = xs.length ∧ a = b := by
  rcases lt_trichotomy k xs.length with hk | rfl | hk
  · rw [List.getElem?_append_left hk]
    simp [hk.ne]
  · simp
  · have hs : xs[k]? = none := List.getElem?_eq_none hk.le
    have hl : (xs++[a])[k]? = none := List.getElem?_eq_none (by simpa using hk)
    rw [hs,hl]
    simp [hk.ne']

@[simp] theorem tickets_claimed (t k : ℕ) (x : T) : tickets [Event.claimed t k x] = [] := rfl

@[simp] theorem tickets_pushed (t k : ℕ) (x : T) : tickets [Event.pushed t k x] = [] := rfl

@[simp] theorem tickets_popped (t : ℕ) (c : ConsumerId) (x : Option T) :
    tickets [Event.popped t c x] = [] := rfl

@[simp] theorem tickets_registered (t : ℕ) (c : ConsumerId) :
    tickets [(Event.registered t c : Event T)] = [] := rfl

@[simp] theorem tickets_ticket (t k : ℕ) : tickets [(Event.ticket t k : Event T)] = [t] := rfl

@[simp] theorem tickets_refused (t k : ℕ) (w : String) :
    tickets [(Event.ticket t k : Event T),.threw t w] = [t] := rfl

@[simp] theorem published_pushed (t h : ℕ) (x : T) (k : ℕ) :
    Published [Event.pushed t h x] k ↔ k = h := by
  simp [Published]

@[simp] theorem published_claimed (t h : ℕ) (x : T) (k : ℕ) :
    ¬Published [Event.claimed t h x] k := by
  simp [Published]

@[simp] theorem published_popped (t : ℕ) (c : ConsumerId) (x : Option T) (k : ℕ) :
    ¬Published [Event.popped t c x] k := by
  simp [Published]

@[simp] theorem published_registered (t : ℕ) (c : ConsumerId) (k : ℕ) :
    ¬Published [(Event.registered t c : Event T)] k := by
  simp [Published]

@[simp] theorem published_ticket (t i k : ℕ) :
    ¬Published [(Event.ticket t i : Event T)] k := by
  simp [Published]

@[simp] theorem registered_registered (t : ℕ) (c d : ConsumerId) :
    Registered [(Event.registered t c : Event T)] d ↔ d = c := by
  simp [Registered]

@[simp] theorem registered_claimed (t h : ℕ) (x : T) (c : ConsumerId) :
    ¬Registered [Event.claimed t h x] c := by
  simp [Registered]

@[simp] theorem registered_pushed (t h : ℕ) (x : T) (c : ConsumerId) :
    ¬Registered [Event.pushed t h x] c := by
  simp [Registered]

@[simp] theorem registered_popped (t : ℕ) (d : ConsumerId) (x : Option T) (c : ConsumerId) :
    ¬Registered [Event.popped t d x] c := by
  simp [Registered]

@[simp] theorem registered_ticket (t i : ℕ) (c : ConsumerId) :
    ¬Registered [(Event.ticket t i : Event T)] c := by
  simp [Registered]

def NotableEvent : Event T → Prop
  | .claimed .. | .pushed .. | .popped .. | .ticket .. | .registered .. => True
  | _ => False

def Quiet (es : List (Event T)) : Prop := ∀ e ∈ es, ¬NotableEvent e

theorem quiet_nil : Quiet ([] : List (Event T)) := by simp [Quiet]

theorem claims_ne_nil {es : List (Event T)} {t k : ℕ} {x : T} (h : Event.claimed t k x ∈ es) :
    claims es ≠ [] :=
  fun hn => nomatch List.filterMap_eq_nil_iff.mp hn _ h

theorem claimed_of_mem {es : List (Event T)} {a : ℕ × T} (h : a ∈ claims es) :
    ∃ k, Event.claimed a.1 k a.2 ∈ es := by
  obtain ⟨e,he,hea⟩ := List.mem_filterMap.mp h
  cases e with
  | claimed t k x =>
    cases hea
    exact ⟨k,he⟩
  | _ => cases hea

theorem exists_claimed {es : List (Event T)} (h : claims es ≠ []) :
    ∃ t k x, Event.claimed t k x ∈ es := by
  obtain ⟨p,hp⟩ := List.exists_mem_of_ne_nil _ h
  obtain ⟨k,hk⟩ := claimed_of_mem hp
  exact ⟨p.1,k,p.2,hk⟩

theorem claims_quiet {es : List (Event T)} (h : Quiet es) : claims es = [] := by
  refine List.filterMap_eq_nil_iff.mpr fun e he => ?_
  cases e <;> first | rfl | exact absurd trivial (h _ he)

theorem tickets_quiet {es : List (Event T)} (h : Quiet es) : tickets es = [] := by
  refine List.filterMap_eq_nil_iff.mpr fun e he => ?_
  cases e <;> first | rfl | exact absurd trivial (h _ he)

theorem pops_quiet {es : List (Event T)} (h : Quiet es) (c : ConsumerId) : pops c es = [] := by
  refine List.filterMap_eq_nil_iff.mpr fun e he => ?_
  cases e <;> first | rfl | exact absurd trivial (h _ he)

theorem published_quiet {es : List (Event T)} (h : Quiet es) (k : ℕ) : ¬Published es k :=
  fun ⟨_,_,he⟩ => h _ he trivial

theorem registered_quiet {es : List (Event T)} (h : Quiet es) (c : ConsumerId) :
    ¬Registered es c :=
  fun ⟨_,he⟩ => h _ he trivial

inductive Step (S : RingSize) (t : ℕ) :
    Move T → Queue T → Local T → Queue T → Local T → List (Event T) → Prop
  | call (q : Queue T) (op : Op T) : Step S t (.call op) q .idle q op.entry [.called t op]
  | loadHead (q : Queue T) (x : T) :
      Step S t .go q (.pushLoadHead x) q (.pushLoadMinTail x q.head) []
  | needScan (q : Queue T) (x : T) (h : ℕ) (full : u64 (q.minTail+S.size) ≤ h) :
      Step S t .go q (.pushLoadMinTail x h) q (.scanActive (.push x h q.minTail) 0 .start) []
  | hasRoom (q : Queue T) (x : T) (h : ℕ) (room : h < u64 (q.minTail+S.size)) :
      Step S t .go q (.pushLoadMinTail x h) q (.pushCas x h) []
  | sawActive (q : Queue T) (k : Caller T) (i : ℕ) (m : Mins) (hi : i < maxConsumers)
      (active : (q.consumers ⟨i,hi⟩).active = true) :
      Step S t .go q (.scanActive k i m) q (.scanTail k ⟨i,hi⟩ m) []
  | sawInactive (q : Queue T) (k : Caller T) (i : ℕ) (m : Mins) (hi : i < maxConsumers)
      (inactive : (q.consumers ⟨i,hi⟩).active = false) :
      Step S t .go q (.scanActive k i m) q (.scanActive k (i+1) m) []
  | readTail (q : Queue T) (k : Caller T) (c : ConsumerId) (m : Mins) :
      Step S t .go q (.scanTail k c m) q
        (.scanActive k (c+1) (m.lower c (q.consumers c).tail)) []
  | scanChanged (q : Queue T) (k : Caller T) (i : ℕ) (m : Mins) (hi : maxConsumers ≤ i) :
      Step S t .go q (.scanActive k i m) q (.storeMinTail k m.result) []
  | scanRoom (q : Queue T) (x : T) (h i : ℕ) (m : Mins) (hi : maxConsumers ≤ i)
      (room : h < u64 (m.result+S.size)) :
      Step S t .go q (.scanActive (.push x h m.result) i m) q (.pushCas x h) []
  | scanFull (q : Queue T) (x : T) (h i : ℕ) (m : Mins) (hi : maxConsumers ≤ i)
      (full : u64 (m.result+S.size) ≤ h) :
      Step S t .go q (.scanActive (.push x h m.result) i m) q .idle [.rejected t x]
  | storeRoom (q : Queue T) (x : T) (h old new : ℕ) (room : h < u64 (new+S.size)) :
      Step S t .go q (.storeMinTail (.push x h old) new) { q with minTail := new }
        (.pushCas x h) []
  | storeFull (q : Queue T) (x : T) (h old new : ℕ) (full : u64 (new+S.size) ≤ h) :
      Step S t .go q (.storeMinTail (.push x h old) new) { q with minTail := new } .idle
        [.rejected t x]
  | storeRecompute (q : Queue T) (new : ℕ) :
      Step S t .go q (.storeMinTail .recompute new) { q with minTail := new } .idle
        [.recomputed t]
  | casWin (q : Queue T) (x : T) :
      Step S t .go q (.pushCas x q.head) { q with head := u64 (q.head+1) }
        (.pushCopyBegin x q.head) [.claimed t q.head x]
  | casLose (q : Queue T) (x : T) (h : ℕ) (hne : q.head ≠ h) :
      Step S t .go q (.pushCas x h) q (.pushLoadHead x) [.casFailed t]
  | casSpurious (q : Queue T) (x : T) (h : ℕ) :
      Step S t .spurious q (.pushCas x h) q (.pushLoadHead x) [.casFailed t]
  | copyBegin (q : Queue T) (x : T) (h : ℕ) :
      Step S t .go q (.pushCopyBegin x h)
        (q.setSlot (S.index h) { q.slots (S.index h) with
          data := (q.slots (S.index h)).data.beginWrite t })
        (.pushCopyEnd x h) []
  | copyEnd (q : Queue T) (x : T) (h : ℕ) :
      Step S t .go q (.pushCopyEnd x h)
        (q.setSlot (S.index h) { q.slots (S.index h) with
          data := (q.slots (S.index h)).data.endWrite t x })
        (.pushPublish x h) []
  | publish (q : Queue T) (x : T) (h : ℕ) :
      Step S t .go q (.pushPublish x h)
        (q.setSlot (S.index h) { q.slots (S.index h) with sequence := h })
        .idle [.pushed t h x]
  | popActive (q : Queue T) (c : ConsumerId) (active : (q.consumers c).active = true) :
      Step S t .go q (.popLoadActive c) q (.popLoadTail c) []
  | popInactive (q : Queue T) (c : ConsumerId) (inactive : (q.consumers c).active = false) :
      Step S t .go q (.popLoadActive c) q .idle [.empty t c]
  | popTail (q : Queue T) (c : ConsumerId) :
      Step S t .go q (.popLoadTail c) q (.popLoadSequence c (q.consumers c).tail) []
  | popReady (q : Queue T) (c : ConsumerId) (tail : ℕ)
      (ready : (q.slots (S.index tail)).sequence = tail) :
      Step S t .go q (.popLoadSequence c tail) q (.popCopyBegin c tail) []
  | popNotReady (q : Queue T) (c : ConsumerId) (tail : ℕ)
      (notReady : (q.slots (S.index tail)).sequence ≠ tail) :
      Step S t .go q (.popLoadSequence c tail) q .idle [.empty t c]
  | popBegin (q : Queue T) (c : ConsumerId) (tail : ℕ) :
      Step S t .go q (.popCopyBegin c tail) q
        (.popCopyEnd c tail (q.slots (S.index tail)).data) []
  | popEnd (q : Queue T) (c : ConsumerId) (tail : ℕ) (before : Cell ℕ T) :
      Step S t .go q (.popCopyEnd c tail before) q
        (.popStoreTail c tail (before.read (q.slots (S.index tail)).data)) []
  | popDone (q : Queue T) (c : ConsumerId) (tail : ℕ) (x : Option T) :
      Step S t .go q (.popStoreTail c tail x)
        (q.setConsumer c { q.consumers c with tail := u64 (tail+1) }) .idle [.popped t c x]
  | registerTicket (q : Queue T) (hi : q.numConsumers < maxConsumers) :
      Step S t .go q .registerFetchAdd { q with numConsumers := u32 (q.numConsumers+1) }
        (.registerLoadHead ⟨q.numConsumers,hi⟩) [.ticket t q.numConsumers]
  | registerThrow (q : Queue T) (hi : maxConsumers ≤ q.numConsumers) :
      Step S t .go q .registerFetchAdd { q with numConsumers := u32 (q.numConsumers+1) }
        .idle [.ticket t q.numConsumers,.threw t tooManyConsumers]
  | registerHead (q : Queue T) (c : ConsumerId) :
      Step S t .go q (.registerLoadHead c) q (.registerStoreTail c q.head) []
  | registerTail (q : Queue T) (c : ConsumerId) (h : ℕ) :
      Step S t .go q (.registerStoreTail c h)
        (q.setConsumer c { q.consumers c with tail := h }) (.registerStoreActive c) []
  | registerActive (q : Queue T) (c : ConsumerId) :
      Step S t .go q (.registerStoreActive c)
        (q.setConsumer c { q.consumers c with active := true }) .idle [.registered t c]
  | unregister (q : Queue T) (c : ConsumerId) :
      Step S t .go q (.unregisterStoreActive c)
        (q.setConsumer c { q.consumers c with active := false }) .idle [.unregistered t c]

theorem fullCheck_cases (S : RingSize) (t : ℕ) (x : T) (h b : ℕ) :
    (h < u64 (b+S.size) ∧ fullCheck S t x h b = (.pushCas x h,[])) ∨
    (u64 (b+S.size) ≤ h ∧ fullCheck S t x h b = (.idle,[.rejected t x])) := by
  unfold fullCheck
  split_ifs with hf
  · exact Or.inr ⟨hf,rfl⟩
  · exact Or.inl ⟨by omega,rfl⟩

theorem advance_step {S : RingSize} {t : ℕ} {q q' : Queue T} {l l' : Local T}
    {es : List (Event T)} (h : advance S t q l = some (q',l',es)) : Step S t .go q l q' l' es := by
  cases l with
  | idle => simp [advance] at h
  | pushLoadMinTail x hd =>
    simp only [advance] at h
    split_ifs at h with hf <;> cases h
    · exact .needScan q x hd hf
    · exact .hasRoom q x hd (by omega)
  | scanActive k i m =>
    simp only [advance] at h
    split_ifs at h with hi ha
    · cases h
      exact .sawActive q k i m hi ha
    · cases h
      exact .sawInactive q k i m hi (by simpa using ha)
    · replace hi : maxConsumers ≤ i := by omega
      cases k with
      | recompute =>
        cases h
        exact .scanChanged q _ i m hi
      | push x hd mt =>
        simp only [afterScan] at h
        split_ifs at h with hne
        · cases h
          exact .scanChanged q _ i m hi
        · obtain rfl : m.result = mt := not_not.mp hne
          rcases fullCheck_cases S t x hd m.result with ⟨hr,he⟩ | ⟨hr,he⟩ <;>
            rw [he] at h <;> cases h
          · exact .scanRoom q x hd i m hi hr
          · exact .scanFull q x hd i m hi hr
  | storeMinTail k new =>
    cases k with
    | recompute =>
      cases h
      exact .storeRecompute q new
    | push x hd mt =>
      simp only [advance,afterStore] at h
      rcases fullCheck_cases S t x hd new with ⟨hr,he⟩ | ⟨hr,he⟩ <;> rw [he] at h <;> cases h
      · exact .storeRoom q x hd mt new hr
      · exact .storeFull q x hd mt new hr
  | pushCas x hd =>
    simp only [advance] at h
    split_ifs at h with he <;> cases h
    · subst he
      exact .casWin q x
    · exact .casLose q x hd he
  | popLoadActive c =>
    simp only [advance] at h
    split_ifs at h with ha <;> cases h
    · exact .popActive q c ha
    · exact .popInactive q c (by simpa using ha)
  | popLoadSequence c tail =>
    simp only [advance] at h
    split_ifs at h with hs <;> cases h
    · exact .popReady q c tail hs
    · exact .popNotReady q c tail hs
  | registerFetchAdd =>
    simp only [advance] at h
    split_ifs at h with hi <;> cases h
    · exact .registerTicket q hi
    · exact .registerThrow q (by omega)
  | _ =>
    cases h
    constructor

theorem act_step {S : RingSize} {t : ℕ} {m : Move T} {q q' : Queue T} {l l' : Local T}
    {es : List (Event T)} (h : act S t m q l = some (q',l',es)) : Step S t m q l q' l' es := by
  cases m with
  | call op =>
    cases l <;> simp [act] at h
    obtain ⟨rfl,rfl,rfl⟩ := h
    exact .call q op
  | spurious =>
    cases l <;> simp [act] at h
    obtain ⟨rfl,rfl,rfl⟩ := h
    exact .casSpurious q _ _
  | go => exact advance_step (by simpa [act] using h)

inductive Effect (S : RingSize) (t : ℕ) (q : Queue T) (l : Local T) :
    Queue T → List (Event T) → Prop
  | quiet {es : List (Event T)} (h : Quiet es) : Effect S t q l q es
  | minTail {es : List (Event T)} (k : Caller T) (new : ℕ) (hl : l = .storeMinTail k new)
      (h : Quiet es) : Effect S t q l { q with minTail := new } es
  | claim (x : T) (hl : l = .pushCas x q.head) :
      Effect S t q l { q with head := u64 (q.head+1) } [.claimed t q.head x]
  | copyBegin (x : T) (h : ℕ) (hl : l = .pushCopyBegin x h) :
      Effect S t q l (q.setSlot (S.index h) { q.slots (S.index h) with
        data := (q.slots (S.index h)).data.beginWrite t }) []
  | copyEnd (x : T) (h : ℕ) (hl : l = .pushCopyEnd x h) :
      Effect S t q l (q.setSlot (S.index h) { q.slots (S.index h) with
        data := (q.slots (S.index h)).data.endWrite t x }) []
  | publish (x : T) (h : ℕ) (hl : l = .pushPublish x h) :
      Effect S t q l (q.setSlot (S.index h) { q.slots (S.index h) with sequence := h })
        [.pushed t h x]
  | deliver (c : ConsumerId) (tail : ℕ) (x : Option T) (hl : l = .popStoreTail c tail x) :
      Effect S t q l (q.setConsumer c { q.consumers c with tail := u64 (tail+1) })
        [.popped t c x]
  | ticket (hl : l = .registerFetchAdd) (hi : q.numConsumers < maxConsumers) :
      Effect S t q l { q with numConsumers := u32 (q.numConsumers+1) }
        [.ticket t q.numConsumers]
  | refuse (hl : l = .registerFetchAdd) (hi : maxConsumers ≤ q.numConsumers) :
      Effect S t q l { q with numConsumers := u32 (q.numConsumers+1) }
        [.ticket t q.numConsumers,.threw t tooManyConsumers]
  | storeTail (c : ConsumerId) (h : ℕ) (hl : l = .registerStoreTail c h) :
      Effect S t q l (q.setConsumer c { q.consumers c with tail := h }) []
  | raise (c : ConsumerId) (hl : l = .registerStoreActive c) :
      Effect S t q l (q.setConsumer c { q.consumers c with active := true }) [.registered t c]
  | drop {es : List (Event T)} (c : ConsumerId) (hl : l = .unregisterStoreActive c)
      (h : Quiet es) :
      Effect S t q l (q.setConsumer c { q.consumers c with active := false }) es

theorem step_effect {S : RingSize} {t : ℕ} {m : Move T} {q q' : Queue T} {l l' : Local T}
    {es : List (Event T)} (h : Step S t m q l q' l' es) : Effect S t q l q' es := by
  cases h with
  | storeRoom => exact .minTail _ _ rfl quiet_nil
  | storeFull => exact .minTail _ _ rfl (by simp [Quiet,NotableEvent])
  | storeRecompute => exact .minTail _ _ rfl (by simp [Quiet,NotableEvent])
  | casWin q x => exact .claim x rfl
  | copyBegin q x h => exact .copyBegin x h rfl
  | copyEnd q x h => exact .copyEnd x h rfl
  | publish q x h => exact .publish x h rfl
  | popDone q c tail x => exact .deliver c tail x rfl
  | registerTicket q hi => exact .ticket rfl hi
  | registerThrow q hi => exact .refuse rfl hi
  | registerTail q c h => exact .storeTail c h rfl
  | registerActive q c => exact .raise c rfl
  | unregister q c => exact .drop c rfl (by simp [Quiet,NotableEvent])
  | _ => exact .quiet (by simp [Quiet,NotableEvent])

structure Untouched (c : Config T) (t : ℕ) : Prop where
  head : c.shared.head = 0
  minTail : c.shared.minTail = 0
  tails : ∀ d, (c.shared.consumers d).tail = 0
  others : ∀ j, j ≠ t → c.locals j = .idle

theorem raise_registered (n : ℕ) (hn : n < maxConsumers) :
    ({ (Queue.registered n : Queue T) with numConsumers := u32 (n+1) }.setConsumer ⟨n,hn⟩
      ⟨0,true⟩) = Queue.registered (n+1) := by
  have hu : u32 (n+1) = n+1 := u32_of_lt (by unfold maxConsumers at hn; omega)
  have hc : Function.update (Queue.registered n : Queue T).consumers ⟨n,hn⟩ ⟨0,true⟩ =
      (Queue.registered (n+1) : Queue T).consumers := by
    funext d
    rw [Function.update_apply]
    split_ifs with hd
    · simp [hd,Queue.registered]
    · have hne : d.val ≠ n := fun h => hd (Fin.ext h)
      have hiff : d.val < n ↔ d.val < n+1 := by omega
      simp [Queue.registered,hiff]
  simp only [Queue.setConsumer,hu,hc]
  rfl

def Config.alone (t : ℕ) (q : Queue T) (l : Local T) : Config T :=
  ⟨q,Function.update (fun _ => .idle) t l⟩

theorem alone_idle (t : ℕ) (q : Queue T) : Config.alone t q .idle = ⟨q,fun _ => .idle⟩ := by
  rw [Config.alone,Function.update_eq_self]

theorem alone_next {S : RingSize} {ok : Guard ℕ (Move T) (Queue T) (Local T)} {c₀ : Config T}
    {t : ℕ} {m : Move T} {q q' : Queue T} {l l' : Local T} {tr es : List (Event T)}
    (r : (machine T S).Run ok c₀ (Config.alone t q l) tr) (g : ok (Config.alone t q l) t m)
    (h : act S t m q l = some (q',l',es)) :
    (machine T S).Run ok c₀ (Config.alone t q' l') (tr++es) := by
  refine r.next g ?_
  simp [System.step,machine,Config.alone,h]

theorem alone_untouched (t : ℕ) (q : Queue T) (l : Local T) (hh : q.head = 0)
    (hm : q.minTail = 0) (ht : ∀ d, (q.consumers d).tail = 0) : Untouched (Config.alone t q l) t :=
  ⟨hh,hm,ht,fun _ hj => by simp [Config.alone,hj]⟩

theorem register_alone {S : RingSize} {ok : Guard ℕ (Move T) (Queue T) (Local T)} (t n : ℕ)
    (hn : n < maxConsumers) (hok : ∀ c m, Untouched c t → (∀ op, m = .call op →
      op = .registerConsumer) → ok c t m) :
    ∃ tr, (machine T S).Run ok (Config.start n) (Config.start (n+1)) tr ∧
      claims tr = [] ∧ tickets tr = [t] := by
  have hgo : ∀ (q : Queue T) l, q.head = 0 → q.minTail = 0 → (∀ d, (q.consumers d).tail = 0) →
      ok (Config.alone t q l) t .go := fun q l hh hm ht =>
    hok _ _ (alone_untouched t q l hh hm ht) (by simp)
  let q₁ : Queue T := { Queue.registered n with numConsumers := u32 (n+1) }
  have r₀ : (machine T S).Run ok (Config.start n)
      (Config.alone t (Queue.registered n) .idle) [] := by
    rw [alone_idle]
    exact .start
  have r₁ := alone_next r₀ (hok _ (.call .registerConsumer)
    (alone_untouched t _ _ rfl rfl fun _ => rfl) (by simp)) rfl
  have r₂ : (machine T S).Run ok _ (Config.alone t q₁ (.registerLoadHead ⟨n,hn⟩)) _ :=
    alone_next r₁ (hgo _ _ rfl rfl fun _ => rfl) (dif_pos hn)
  have r₃ := alone_next r₂ (hgo q₁ _ rfl rfl fun _ => rfl) rfl
  have r₄ := alone_next r₃ (hgo q₁ _ rfl rfl fun _ => rfl) rfl
  have hraise : advance S t (q₁.setConsumer ⟨n,hn⟩ { q₁.consumers ⟨n,hn⟩ with tail := q₁.head })
      (.registerStoreActive ⟨n,hn⟩) =
      some (Queue.registered (n+1),.idle,[.registered t ⟨n,hn⟩]) := by
    rw [← raise_registered n hn]
    simp [advance,Queue.setConsumer,q₁,Queue.registered]
  have r₅ := alone_next r₄ (hgo _ _ rfl rfl fun d => by
    rw [setConsumer_consumers]
    split_ifs <;> rfl) hraise
  rw [alone_idle] at r₅
  exact ⟨_,r₅,rfl,rfl⟩

/-- Registrations one after another lead from the constructor to `n` consumers. -/
theorem setup_run {S : RingSize} {ok : Guard ℕ (Move T) (Queue T) (Local T)} (t n : ℕ)
    (hn : n ≤ maxConsumers) (hok : ∀ c m, Untouched c t → (∀ op, m = .call op →
      op = .registerConsumer) → ok c t m) :
    ∃ tr, (machine T S).Run ok (Config.start 0) (Config.start n) tr ∧
      claims tr = [] ∧ (tickets tr).length = n := by
  induction n with
  | zero => exact ⟨[],.start,rfl,rfl⟩
  | succ n ih =>
    obtain ⟨tr,r,hc,ht⟩ := ih (by omega)
    obtain ⟨es,r',hc',ht'⟩ := register_alone (S := S) t n hn hok
    exact ⟨tr++es,r.trans r',by simp [hc,hc'],by simp [ht,ht']⟩

end MpmcLogger.QueueHistory
