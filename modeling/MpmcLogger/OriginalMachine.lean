import MpmcLogger.QueueProgress
import MpmcLogger.QueueDelivery

/-!
# The original queue, one shared access at a time

The queue the logger's was adapted from scans with a single accumulator, and its
scan ends with a store of the minimum, before its caller stores too. So it writes
the cached minimum more often, also back to an older value, where the adapted queue
stores nothing. The adapted queue follows it with more calls: what the scan
of thread `t` stores is stored there by a companion that calls
`recompute_and_store_min_tail` and scans in step with it. Thread `t` is thread `2t`
there, its companion `2t+1`.
-/

set_option autoImplicit false

namespace MpmcLogger.OriginalMachine
open Interleaving CopiedCell RingIndex MachineWord MpmcLogger.QueueMachine MpmcLogger.QueueHistory
open MpmcLogger.QueueInvariant MpmcLogger.QueueSetup MpmcLogger.QueueDelivery
open MpmcLogger.QueueProgress (thread)

variable {T : Type*}

inductive Stage (T : Type*) where
  | idle
  | pushLoadHead (item : T)
  | pushLoadMinTail (item : T) (head : ℕ)
  | scanActive (caller : Caller T) (i mini : ℕ)
  | scanTail (caller : Caller T) (c : ConsumerId) (mini : ℕ)
  | storeMinTail (caller : Caller T) (newMin : ℕ)
  | pushCas (item : T) (head : ℕ)
  | pushCopyBegin (item : T) (head : ℕ)
  | pushCopyEnd (item : T) (head : ℕ)
  | pushPublish (item : T) (head : ℕ)
  | popLoadActive (c : ConsumerId)
  | popLoadTail (c : ConsumerId)
  | popLoadSequence (c : ConsumerId) (tail : ℕ)
  | popCopyBegin (c : ConsumerId) (tail : ℕ)
  | popCopyEnd (c : ConsumerId) (tail : ℕ) (before : Cell ℕ T)
  | popStoreTail (c : ConsumerId) (tail : ℕ) (item : Option T)
  | regFetchAdd
  | regLoadHead (c : ConsumerId)
  | regStoreTail (c : ConsumerId) (head : ℕ)
  | regStoreActive (c : ConsumerId)
  | regLoadTail (c : ConsumerId)
  | delStoreActive (c : ConsumerId)
  deriving DecidableEq, Repr

def tooManyConsumers : String := "Too many consumers"

def entry : Op T → Stage T
  | .push x => .pushLoadHead x
  | .pop c => .popLoadActive c
  | .registerConsumer => .regFetchAdd
  | .unregisterConsumer c => .delStoreActive c
  | .recomputeAndStoreMinTail => .scanActive .recompute 0 invalidPos

def fullCheck (S : RingSize) (t : ℕ) (x : T) (head minTail : ℕ) : Stage T × List (Event T) :=
  if u64 (minTail+S.size) ≤ head then (.idle,[.rejected t x]) else (.pushCas x head,[])

def afterScan (S : RingSize) (t newMin : ℕ) : Caller T → Stage T × List (Event T)
  | .push x head minTail =>
    if newMin ≠ minTail then (.storeMinTail (.push x head minTail) newMin,[])
    else fullCheck S t x head minTail
  | .recompute => (.storeMinTail .recompute newMin,[])

def afterStore (S : RingSize) (t newMin : ℕ) : Caller T → Stage T × List (Event T)
  | .push x head _ => fullCheck S t x head newMin
  | .recompute => (.idle,[.recomputed t])

/-- The scan stores its minimum in the step in which its loop ends. A registration
loads its own tail once more and does nothing with it. -/
def advance (S : RingSize) (t : ℕ) (q : Queue T) : Stage T →
    Option (Queue T × Stage T × List (Event T))
  | .idle => none
  | .pushLoadHead x => some (q,.pushLoadMinTail x q.head,[])
  | .pushLoadMinTail x head =>
    if u64 (q.minTail+S.size) ≤ head then
      some (q,.scanActive (.push x head q.minTail) 0 invalidPos,[])
    else some (q,.pushCas x head,[])
  | .scanActive k i mini =>
    if hi : i < maxConsumers then
      if !(q.consumers ⟨i,hi⟩).active then some (q,.scanActive k (i+1) mini,[])
      else some (q,.scanTail k ⟨i,hi⟩ mini,[])
    else
      let newMin := if mini = invalidPos then 0 else mini
      some ({ q with minTail := newMin },afterScan S t newMin k)
  | .scanTail k c mini => some (q,.scanActive k (c+1) (min mini (q.consumers c).tail),[])
  | .storeMinTail k newMin => some ({ q with minTail := newMin },afterStore S t newMin k)
  | .pushCas x head =>
    if q.head = head then
      some ({ q with head := u64 (head+1) },.pushCopyBegin x head,[.claimed t head x])
    else some (q,.pushLoadHead x,[.casFailed t])
  | .pushCopyBegin x head =>
    let s := q.slots (S.index head)
    some (q.setSlot (S.index head) { s with data := s.data.beginWrite t },
      .pushCopyEnd x head,[])
  | .pushCopyEnd x head =>
    let s := q.slots (S.index head)
    some (q.setSlot (S.index head) { s with data := s.data.endWrite t x },
      .pushPublish x head,[])
  | .pushPublish x head =>
    let s := q.slots (S.index head)
    some (q.setSlot (S.index head) { s with sequence := head },.idle,[.pushed t head x])
  | .popLoadActive c =>
    if !(q.consumers c).active then some (q,.idle,[.empty t c]) else some (q,.popLoadTail c,[])
  | .popLoadTail c => some (q,.popLoadSequence c (q.consumers c).tail,[])
  | .popLoadSequence c tail =>
    if (q.slots (S.index tail)).sequence ≠ tail then some (q,.idle,[.empty t c])
    else some (q,.popCopyBegin c tail,[])
  | .popCopyBegin c tail => some (q,.popCopyEnd c tail (q.slots (S.index tail)).data,[])
  | .popCopyEnd c tail before =>
    some (q,.popStoreTail c tail (before.read (q.slots (S.index tail)).data),[])
  | .popStoreTail c tail x =>
    some (q.setConsumer c { q.consumers c with tail := u64 (tail+1) },.idle,[.popped t c x])
  | .regFetchAdd =>
    if hi : q.numConsumers < maxConsumers then
      some ({ q with numConsumers := u32 (q.numConsumers+1) },
        .regLoadHead ⟨q.numConsumers,hi⟩,[.ticket t q.numConsumers])
    else some ({ q with numConsumers := u32 (q.numConsumers+1) },.idle,
      [.ticket t q.numConsumers,.threw t tooManyConsumers])
  | .regLoadHead c => some (q,.regStoreTail c q.head,[])
  | .regStoreTail c head =>
    some (q.setConsumer c { q.consumers c with tail := head },.regStoreActive c,[])
  | .regStoreActive c =>
    some (q.setConsumer c { q.consumers c with active := true },.regLoadTail c,[.registered t c])
  | .regLoadTail _ => some (q,.idle,[])
  | .delStoreActive c =>
    some (q.setConsumer c { q.consumers c with active := false },.idle,[.unregistered t c])

def act (S : RingSize) (t : ℕ) : Move T → Queue T → Stage T →
    Option (Queue T × Stage T × List (Event T))
  | .call op, q, .idle => some (q,entry op,[.called t op])
  | .spurious, q, .pushCas x _ => some (q,.pushLoadHead x,[.casFailed t])
  | .go, q, l => advance S t q l
  | _, _, _ => none

def machine (T : Type*) (S : RingSize) : System ℕ (Move T) (Queue T) (Stage T) (Event T) :=
  ⟨act S⟩

abbrev Original (T : Type*) := Conf ℕ (Queue T) (Stage T)

def Original.start (n : ℕ) : Original T := ⟨Queue.registered n,fun _ => .idle⟩

abbrev Calls (T : Type*) := ℕ → Move T → Prop

def Calling (P : Calls T) : Guard ℕ (Move T) (Queue T) (Stage T) := fun _ t m => P t m

def Scanning : Local T → Prop
  | .scanActive .. => True
  | _ => False

def CompanionMove (l : Local T) (m : Move T) : Prop :=
  m = .call .recomputeAndStoreMinTail ∧ Scanning l ∨ m = .go

/-- The same calls by the threads of the adapted queue, and the companions' own. -/
def Doubled (P : Calls T) : Guard ℕ (Move T) (Queue T) (Local T) := fun c j m =>
  ∃ t, j = 2*t ∧ P t m ∨ j = 2*t+1 ∧ CompanionMove (c.locals (2*t)) m

def seen : Event T → Option (Event T)
  -- an odd thread is a companion
  | .called j op => if j%2 = 0 then some (.called (j/2) op) else none
  | .recomputed j => if j%2 = 0 then some (.recomputed (j/2)) else none
  | .claimed j pos x => some (.claimed (j/2) pos x)
  | .casFailed j => some (.casFailed (j/2))
  | .pushed j pos x => some (.pushed (j/2) pos x)
  | .rejected j x => some (.rejected (j/2) x)
  | .popped j c x => some (.popped (j/2) c x)
  | .empty j c => some (.empty (j/2) c)
  | .ticket j id => some (.ticket (j/2) id)
  | .registered j c => some (.registered (j/2) c)
  | .threw j _ => some (.threw (j/2) tooManyConsumers)
  | .unregistered j c => some (.unregistered (j/2) c)

def relabel (q : Queue T) : Queue T :=
  { q with slots := fun i => { q.slots i with data := (q.slots i).data.rename (2*·) } }

def counterpart : Stage T → Local T
  | .idle | .scanActive .. | .scanTail .. | .regLoadTail _ => .idle
  | .pushLoadHead x => .pushLoadHead x
  | .pushLoadMinTail x h => .pushLoadMinTail x h
  | .storeMinTail k b => .storeMinTail k b
  | .pushCas x h => .pushCas x h
  | .pushCopyBegin x h => .pushCopyBegin x h
  | .pushCopyEnd x h => .pushCopyEnd x h
  | .pushPublish x h => .pushPublish x h
  | .popLoadActive c => .popLoadActive c
  | .popLoadTail c => .popLoadTail c
  | .popLoadSequence c t => .popLoadSequence c t
  | .popCopyBegin c t => .popCopyBegin c t
  | .popCopyEnd c t before => .popCopyEnd c t (before.rename (2*·))
  | .popStoreTail c t x => .popStoreTail c t x
  | .regFetchAdd => .registerFetchAdd
  | .regLoadHead c => .registerLoadHead c
  | .regStoreTail c h => .registerStoreTail c h
  | .regStoreActive c => .registerStoreActive c
  | .delStoreActive c => .unregisterStoreActive c

def Mirrors : Stage T → Local T → Local T → Prop
  | .scanActive k i mini, l₁, l₂ =>
    ∃ m : Mins, m.least = mini ∧ l₁ = .scanActive k i m ∧ l₂ = .scanActive .recompute i m
  | .scanTail k c mini, l₁, l₂ =>
    ∃ m : Mins, m.least = mini ∧ l₁ = .scanTail k c m ∧ l₂ = .scanTail .recompute c m
  | l, l₁, l₂ => l₁ = counterpart l ∧ l₂ = .idle

structure Mirrored (c : Original T) (d : Config T) : Prop where
  shared : d.shared = relabel c.shared
  locals : ∀ t, Mirrors (c.locals t) (d.locals (2*t)) (d.locals (2*t+1))

def pair (d : Config T) (t : ℕ) (q : Queue T) (l₁ l₂ : Local T) : Config T :=
  ⟨q,Function.update (Function.update d.locals (2*t) l₁) (2*t+1) l₂⟩

section Relabel

variable (q : Queue T)

theorem relabel_setSlot (i : ℕ) (s : Slot T) :
    relabel (q.setSlot i s) = (relabel q).setSlot i { s with data := s.data.rename (2*·) } := by
  simp only [relabel,Queue.setSlot,Queue.mk.injEq,true_and]
  funext j
  by_cases hj : j = i
  · subst hj
    simp
  · simp [Function.update_of_ne hj]

theorem relabel_beginWrite (t i : ℕ) :
    relabel (q.setSlot i { q.slots i with data := (q.slots i).data.beginWrite t }) =
      (relabel q).setSlot i
        { (relabel q).slots i with data := ((relabel q).slots i).data.beginWrite (2*t) } := by
  rw [relabel_setSlot,rename_beginWrite]
  rfl

theorem relabel_endWrite (t i : ℕ) (x : T) :
    relabel (q.setSlot i { q.slots i with data := (q.slots i).data.endWrite t x }) =
      (relabel q).setSlot i
        { (relabel q).slots i with data := ((relabel q).slots i).data.endWrite (2*t) x } := by
  have hf : Function.Injective (2*· : ℕ → ℕ) := mul_right_injective₀ two_ne_zero
  rw [relabel_setSlot,rename_endWrite hf]
  rfl

theorem relabel_sequence (i h : ℕ) :
    relabel (q.setSlot i { q.slots i with sequence := h }) =
      (relabel q).setSlot i { (relabel q).slots i with sequence := h } := by
  rw [relabel_setSlot]
  rfl

end Relabel

section Pair

variable {S : RingSize} {P : Calls T} {d c₀ : Config T} {t : ℕ} {m : Move T} {q q' : Queue T}
  {l l₁ l₂ : Local T} {tr es : List (Event T)}

theorem pair_main : (pair d t q l₁ l₂).locals (2*t) = l₁ := by
  simp [pair]

theorem pair_companion : (pair d t q l₁ l₂).locals (2*t+1) = l₂ := Function.update_self _ _ _

theorem pair_other {j : ℕ} (h : j ≠ 2*t) (h' : j ≠ 2*t+1) :
    (pair d t q l₁ l₂).locals j = d.locals j := by
  simp [pair,Function.update_of_ne h,Function.update_of_ne h']

theorem pair_self : pair d t d.shared (d.locals (2*t)) (d.locals (2*t+1)) = d := by
  simp [pair]

theorem main_turn (g : P t m)
    (r : (QueueMachine.machine T S).Run (Doubled P) c₀ (pair d t q l₁ l₂) tr)
    (h : QueueMachine.act S (2*t) m q l₁ = some (q',l,es)) :
    (QueueMachine.machine T S).Run (Doubled P) c₀ (pair d t q' l l₂) (tr++es) := by
  refine r.next (i := 2*t) ⟨t,Or.inl ⟨rfl,g⟩⟩ ?_
  have hne : 2*t+1 ≠ 2*t := by omega
  rw [System.step,pair_main]
  simp only [QueueMachine.machine,pair,h,Option.map_some]
  rw [Function.update_comm hne,Function.update_idem]

theorem companion_turn (g : CompanionMove l₁ m)
    (r : (QueueMachine.machine T S).Run (Doubled P) c₀ (pair d t q l₁ l₂) tr)
    (h : QueueMachine.act S (2*t+1) m q l₂ = some (q',l,es)) :
    (QueueMachine.machine T S).Run (Doubled P) c₀ (pair d t q' l₁ l) (tr++es) := by
  refine r.next (i := 2*t+1) ⟨t,Or.inr ⟨rfl,by rwa [pair_main]⟩⟩ ?_
  rw [System.step,pair_companion]
  simp only [QueueMachine.machine,pair,h,Option.map_some,Function.update_idem]

end Pair

def Turned (S : RingSize) (P : Calls T) (d : Config T) (t : ℕ) (q : Queue T) (l₁ l₂ : Local T)
    (q' : Queue T) (l' : Stage T) (es : List (Event T)) : Prop :=
  ∃ l₁' l₂' fs, (QueueMachine.machine T S).Run (Doubled P) (pair d t (relabel q) l₁ l₂)
    (pair d t (relabel q') l₁' l₂') fs ∧ Mirrors l' l₁' l₂' ∧ fs.filterMap seen = es

section Steps

variable {S : RingSize} {P : Calls T} {d : Config T} {t : ℕ} {m : Move T} {q q' : Queue T}
  {l l' : Stage T} {l₁ l₂ : Local T} {es fs : List (Event T)}

theorem turned_main (g : P t m)
    (h : QueueMachine.act S (2*t) m (relabel q) (counterpart l) = some (relabel q',l₁,fs))
    (hl : Mirrors l' l₁ .idle) (hes : fs.filterMap seen = es) :
    Turned S P d t q (counterpart l) .idle q' l' es :=
  ⟨l₁,.idle,[]++fs,main_turn g .start h,hl,hes⟩

theorem fullCheck_mirrored (x : T) (h b : ℕ) :
    Mirrors (fullCheck S t x h b).1 (QueueMachine.fullCheck S (2*t) x h b).1 .idle ∧
      (QueueMachine.fullCheck S (2*t) x h b).2.filterMap seen = (fullCheck S t x h b).2 := by
  unfold fullCheck QueueMachine.fullCheck
  split_ifs
  · exact ⟨⟨rfl,rfl⟩,by simp [seen]⟩
  · exact ⟨⟨rfl,rfl⟩,rfl⟩

theorem afterScan_mirrored (ms : Mins) (k : Caller T) :
    Mirrors (afterScan S t ms.result k).1 (QueueMachine.afterScan S (2*t) ms k).1 .idle ∧
      (QueueMachine.afterScan S (2*t) ms k).2.filterMap seen = (afterScan S t ms.result k).2 := by
  cases k with
  | recompute => exact ⟨⟨rfl,rfl⟩,rfl⟩
  | push x h b =>
    simp only [afterScan,QueueMachine.afterScan]
    split_ifs
    · exact ⟨⟨rfl,rfl⟩,rfl⟩
    · exact fullCheck_mirrored x h b

theorem afterStore_mirrored (b : ℕ) (k : Caller T) :
    Mirrors (afterStore S t b k).1 (QueueMachine.afterStore S (2*t) b k).1 .idle ∧
      (QueueMachine.afterStore S (2*t) b k).2.filterMap seen = (afterStore S t b k).2 := by
  cases k with
  | recompute => exact ⟨⟨rfl,rfl⟩,by simp [QueueMachine.afterStore,afterStore,seen]⟩
  | push x h _ => exact fullCheck_mirrored x h b

theorem scan_started (k : Caller T) :
    Mirrors (.scanActive k 0 invalidPos) (.scanActive k 0 .start)
      (.scanActive .recompute 0 .start) :=
  ⟨.start,least_start,rfl,rfl⟩

theorem turned_scan (g : P t m) {k : Caller T}
    (h : QueueMachine.act S (2*t) m (relabel q) (counterpart l) =
      some (relabel q,.scanActive k 0 .start,fs)) (hes : fs.filterMap seen = es) :
    Turned S P d t q (counterpart l) .idle q (.scanActive k 0 invalidPos) es := by
  have hcall : QueueMachine.act S (2*t+1) (.call .recomputeAndStoreMinTail) (relabel q) .idle =
      some (relabel q,.scanActive .recompute 0 .start,
        [.called (2*t+1) .recomputeAndStoreMinTail]) := rfl
  have hmay : CompanionMove (.scanActive k 0 .start : Local T)
      (.call .recomputeAndStoreMinTail) := Or.inl ⟨rfl,trivial⟩
  have r := companion_turn hmay (main_turn (d := d) g .start h) hcall
  refine ⟨_,_,_,r,scan_started k,?_⟩
  simp [List.filterMap_append,hes,seen]

/-- Both look at the same consumer; at the end the companion stores first. -/
theorem turned_scanActive (g : P t .go) {k : Caller T} {i mini : ℕ}
    (hl : Mirrors (.scanActive k i mini) l₁ l₂)
    (h : advance S t q (.scanActive k i mini) = some (q',l',es)) :
    Turned S P d t q l₁ l₂ q' l' es := by
  obtain ⟨ms,rfl,rfl,rfl⟩ := hl
  have r₀ : (QueueMachine.machine T S).Run (Doubled P) _
      (pair d t (relabel q) (.scanActive k i ms) (.scanActive .recompute i ms)) [] := .start
  rw [advance] at h
  by_cases hi : i < maxConsumers
  · rw [dif_pos hi] at h
    cases ha : (q.consumers ⟨i,hi⟩).active with
    | true =>
      have hstep : ∀ j k, QueueMachine.act S j .go (relabel q) (.scanActive k i ms) =
          some (relabel q,.scanTail k ⟨i,hi⟩ ms,[]) := fun j k => by
        simp [QueueMachine.act,QueueMachine.advance,hi,relabel,ha]
      simp only [ha,Bool.not_true,Bool.false_eq_true,if_false,Option.some.injEq,
        Prod.mk.injEq] at h
      obtain ⟨rfl,rfl,rfl⟩ := h
      have r := companion_turn (Or.inr rfl) (main_turn g r₀ (hstep _ _)) (hstep _ _)
      exact ⟨_,_,_,r,⟨ms,rfl,rfl,rfl⟩,rfl⟩
    | false =>
      have hstep : ∀ j k, QueueMachine.act S j .go (relabel q) (.scanActive k i ms) =
          some (relabel q,.scanActive k (i+1) ms,[]) := fun j k => by
        simp [QueueMachine.act,QueueMachine.advance,hi,relabel,ha]
      simp only [ha,Bool.not_false,if_true,Option.some.injEq,Prod.mk.injEq] at h
      obtain ⟨rfl,rfl,rfl⟩ := h
      have r := companion_turn (Or.inr rfl) (main_turn g r₀ (hstep _ _)) (hstep _ _)
      exact ⟨_,_,_,r,⟨ms,rfl,rfl,rfl⟩,rfl⟩
  · rw [dif_neg hi] at h
    simp only [Option.some.injEq,Prod.ext_iff] at h
    obtain ⟨rfl,rfl,rfl⟩ := h
    have hscan : ∀ (q : Queue T) j k, QueueMachine.act S j .go q (.scanActive k i ms) =
        some (q,QueueMachine.afterScan S j ms k) := fun q j k => dif_neg hi
    have r₁ := companion_turn (Or.inr rfl) r₀ (hscan _ _ _)
    have r₂ := companion_turn (Or.inr rfl) r₁ rfl
    have r₃ := main_turn g r₂ (hscan _ _ _)
    obtain ⟨hm,hes⟩ := afterScan_mirrored (S := S) (t := t) ms k
    have hown : ([.recomputed (2*t+1)] : List (Event T)).filterMap seen = [] := by simp [seen]
    refine ⟨_,_,_,r₃,hm,?_⟩
    rw [List.filterMap_append]
    exact congrArg₂ (·++·) hown hes

theorem turned_scanTail (g : P t .go) {k : Caller T} {c : ConsumerId} {mini : ℕ}
    (hl : Mirrors (.scanTail k c mini) l₁ l₂) :
    Turned S P d t q l₁ l₂ q (.scanActive k (c+1) (min mini (q.consumers c).tail)) [] := by
  obtain ⟨ms,rfl,rfl,rfl⟩ := hl
  have hload : ∀ j k, QueueMachine.act S j .go (relabel q) (.scanTail k c ms) =
      some (relabel q,.scanActive k (c+1) (ms.lower c (q.consumers c).tail),[]) := fun j k => rfl
  have r := companion_turn (Or.inr rfl) (main_turn (d := d) g .start (hload _ k)) (hload _ .recompute)
  exact ⟨_,_,_,r,⟨_,least_lower ms c _,rfl,rfl⟩,rfl⟩

/-- One step of the original thread is at most three of the pair. -/
theorem turned_go (g : P t .go) (hl : Mirrors l l₁ l₂) (h : advance S t q l = some (q',l',es)) :
    Turned S P d t q l₁ l₂ q' l' es := by
  cases l with
  | scanActive k i mini => exact turned_scanActive g hl h
  | scanTail k c mini =>
    cases h
    exact turned_scanTail g hl
  | idle => cases h
  | pushLoadHead x =>
    obtain ⟨rfl,rfl⟩ := hl
    cases h
    exact turned_main g rfl ⟨rfl,rfl⟩ rfl
  | pushLoadMinTail x head =>
    obtain ⟨rfl,rfl⟩ := hl
    rw [advance] at h
    split_ifs at h with hfull
    · cases h
      exact turned_scan g (if_pos hfull) rfl
    · cases h
      exact turned_main g (if_neg hfull) ⟨rfl,rfl⟩ rfl
  | storeMinTail k b =>
    obtain ⟨rfl,rfl⟩ := hl
    simp only [advance,Option.some.injEq,Prod.ext_iff] at h
    obtain ⟨rfl,rfl,rfl⟩ := h
    obtain ⟨hm,hes⟩ := afterStore_mirrored (S := S) (t := t) b k
    exact turned_main g rfl hm hes
  | pushCas x head =>
    obtain ⟨rfl,rfl⟩ := hl
    rw [advance] at h
    split_ifs at h with hh
    · cases h
      exact turned_main g (if_pos hh) ⟨rfl,rfl⟩ (by simp [seen])
    · cases h
      exact turned_main g (if_neg hh) ⟨rfl,rfl⟩ (by simp [seen])
  | pushCopyBegin x head =>
    obtain ⟨rfl,rfl⟩ := hl
    cases h
    refine turned_main g (?_ : _ = some (_,_,[])) ⟨rfl,rfl⟩ rfl
    rw [relabel_beginWrite]
    rfl
  | pushCopyEnd x head =>
    obtain ⟨rfl,rfl⟩ := hl
    cases h
    refine turned_main g (?_ : _ = some (_,_,[])) ⟨rfl,rfl⟩ rfl
    rw [relabel_endWrite]
    rfl
  | pushPublish x head =>
    obtain ⟨rfl,rfl⟩ := hl
    cases h
    refine turned_main g (?_ : _ = some (_,_,[.pushed (2*t) head x])) ⟨rfl,rfl⟩ (by simp [seen])
    rw [relabel_sequence]
    rfl
  | popLoadActive c =>
    obtain ⟨rfl,rfl⟩ := hl
    rw [advance] at h
    cases ha : (q.consumers c).active with
    | true =>
      rw [ha] at h
      cases h
      exact turned_main g (if_pos ha) ⟨rfl,rfl⟩ rfl
    | false =>
      rw [ha] at h
      cases h
      have hoff : ¬((relabel q).consumers c).active = true := by simp [relabel,ha]
      exact turned_main g (if_neg hoff) ⟨rfl,rfl⟩ (by simp [seen])
  | popLoadTail c =>
    obtain ⟨rfl,rfl⟩ := hl
    cases h
    exact turned_main g rfl ⟨rfl,rfl⟩ rfl
  | popLoadSequence c tail =>
    obtain ⟨rfl,rfl⟩ := hl
    rw [advance] at h
    split_ifs at h with hs
    · cases h
      exact turned_main g (if_neg hs) ⟨rfl,rfl⟩ (by simp [seen])
    · cases h
      exact turned_main g (if_pos (not_not.mp hs)) ⟨rfl,rfl⟩ rfl
  | popCopyBegin c tail =>
    obtain ⟨rfl,rfl⟩ := hl
    cases h
    exact turned_main g rfl ⟨rfl,rfl⟩ rfl
  | popCopyEnd c tail before =>
    obtain ⟨rfl,rfl⟩ := hl
    cases h
    refine turned_main g (?_ : _ = some (_,_,[])) ⟨rfl,rfl⟩ rfl
    rw [counterpart,QueueMachine.act,QueueMachine.advance,counterpart]
    exact congrArg (fun o => some (relabel q,Local.popStoreTail c tail o,[])) (read_rename _ _ _)
  | popStoreTail c tail x =>
    obtain ⟨rfl,rfl⟩ := hl
    cases h
    exact turned_main g rfl ⟨rfl,rfl⟩ (by simp [seen])
  | regFetchAdd =>
    obtain ⟨rfl,rfl⟩ := hl
    rw [advance] at h
    split_ifs at h with hi
    · cases h
      exact turned_main g (dif_pos hi) ⟨rfl,rfl⟩ (by simp [seen,relabel])
    · cases h
      exact turned_main g (dif_neg hi) ⟨rfl,rfl⟩ (by simp [seen,relabel])
  | regLoadHead c =>
    obtain ⟨rfl,rfl⟩ := hl
    cases h
    exact turned_main g rfl ⟨rfl,rfl⟩ rfl
  | regStoreTail c head =>
    obtain ⟨rfl,rfl⟩ := hl
    cases h
    exact turned_main g rfl ⟨rfl,rfl⟩ rfl
  | regStoreActive c =>
    obtain ⟨rfl,rfl⟩ := hl
    cases h
    exact turned_main g rfl ⟨rfl,rfl⟩ (by simp [seen])
  | regLoadTail c =>
    -- the adapted registration has no such load
    obtain ⟨rfl,rfl⟩ := hl
    cases h
    exact ⟨_,_,[],.start,⟨rfl,rfl⟩,rfl⟩
  | delStoreActive c =>
    obtain ⟨rfl,rfl⟩ := hl
    cases h
    exact turned_main g rfl ⟨rfl,rfl⟩ (by simp [seen])

theorem turned_call (op : Op T) (g : P t (.call op)) (hl : Mirrors .idle l₁ l₂) :
    Turned S P d t q l₁ l₂ q (entry op) [.called t op] := by
  obtain ⟨rfl,rfl⟩ := hl
  cases op with
  | recomputeAndStoreMinTail => exact turned_scan g rfl (by simp [seen])
  | push x => exact turned_main g rfl ⟨rfl,rfl⟩ (by simp [seen])
  | pop c => exact turned_main g rfl ⟨rfl,rfl⟩ (by simp [seen])
  | registerConsumer => exact turned_main g rfl ⟨rfl,rfl⟩ (by simp [seen])
  | unregisterConsumer c => exact turned_main g rfl ⟨rfl,rfl⟩ (by simp [seen])

theorem act_turned (g : P t m) (hl : Mirrors l l₁ l₂) (h : act S t m q l = some (q',l',es)) :
    Turned S P d t q l₁ l₂ q' l' es := by
  unfold act at h
  split at h
  · cases h
    exact turned_call _ g hl
  · cases h
    obtain ⟨rfl,rfl⟩ := hl
    exact turned_main g rfl ⟨rfl,rfl⟩ (by simp [seen])
  · exact turned_go g hl h
  · cases h

end Steps

/-- Where a companion may stand. -/
def Companion : Local T → Prop
  | .idle | .scanActive .recompute .. | .scanTail .recompute .. | .storeMinTail .recompute _ => True
  | _ => False

section Companions

variable {S : RingSize} {t : ℕ} {m : Move T} {q q' : Queue T} {l l' : Local T} {es : List (Event T)}

theorem thread_step (h : Step S t m q l q' l' es) : ∀ e ∈ es, thread e = t := by
  cases h <;> simp [thread]

theorem companion_step (hm : m = .call .recomputeAndStoreMinTail ∨ m = .go) (hl : Companion l)
    (h : Step S t m q l q' l' es) : Companion l' ∧
      ∀ e ∈ es, e = .called t .recomputeAndStoreMinTail ∨ e = .recomputed t := by
  cases h with
  | call q op =>
    obtain rfl : op = .recomputeAndStoreMinTail := by simpa using hm
    exact ⟨trivial,by simp⟩
  | sawActive q k i ms hi active => cases k <;> first | exact hl.elim | exact ⟨trivial,by simp⟩
  | sawInactive q k i ms hi inactive => cases k <;> first | exact hl.elim | exact ⟨trivial,by simp⟩
  | readTail q k c ms => cases k <;> first | exact hl.elim | exact ⟨trivial,by simp⟩
  | scanChanged q k i ms hi => cases k <;> first | exact hl.elim | exact ⟨trivial,by simp⟩
  | storeRecompute q new => exact ⟨trivial,by simp⟩
  | _ => exact hl.elim

end Companions

section Runs

variable {S : RingSize} {P : Calls T} {c c₀ c' : Original T} {d : Config T} {t : ℕ} {m : Move T}
  {tr es fs : List (Event T)}

theorem mirrored_step (hc : Mirrored c d) (g : P t m)
    (h : (machine T S).step c t m = some (c',es)) :
    ∃ d' fs, (QueueMachine.machine T S).Run (Doubled P) d d' fs ∧ Mirrored c' d' ∧
      fs.filterMap seen = es := by
  obtain ⟨q,l,ha,rfl⟩ := step_some h
  obtain ⟨l₁,l₂,fs,r,hl,hes⟩ := act_turned (d := d) g (hc.locals t) ha
  rw [← hc.shared,pair_self] at r
  refine ⟨_,fs,r,⟨rfl,fun j => ?_⟩,hes⟩
  by_cases hj : j = t
  · subst hj
    rw [pair_main,pair_companion]
    simpa using hl
  · rw [pair_other (by omega) (by omega),pair_other (by omega) (by omega)]
    simpa [Function.update_of_ne hj] using hc.locals j

theorem mirrored_run (hc : Mirrored c₀ d) (r : (machine T S).Run (Calling P) c₀ c tr) :
    ∃ d' fs, (QueueMachine.machine T S).Run (Doubled P) d d' fs ∧ Mirrored c d' ∧
      fs.filterMap seen = tr := by
  rw [← tr.filterMap_some]
  refine r.simulated hc fun hc g h => ?_
  rw [List.filterMap_some]
  exact mirrored_step hc g h

theorem mirrored_idle (hd : d.shared = relabel c.shared) (hc : ∀ t, c.locals t = .idle)
    (hl : ∀ j, d.locals j = .idle) : Mirrored c d where
  shared := hd
  locals t := by
    rw [hc,hl,hl]
    exact ⟨rfl,rfl⟩

/-- A companion shows nothing but its calls of `recompute_and_store_min_tail` and
their returns. -/
theorem companion_run {d₀ : Config T} (h₀ : ∀ t, Companion (d₀.locals (2*t+1)))
    (r : (QueueMachine.machine T S).Run (Doubled P) d₀ d fs) :
    (∀ t, Companion (d.locals (2*t+1))) ∧ ∀ e ∈ fs, ∀ t, thread e = 2*t+1 →
      e = .called (2*t+1) .recomputeAndStoreMinTail ∨ e = .recomputed (2*t+1) := by
  induction r with
  | start => exact ⟨h₀,by simp⟩
  | @next c c' tr es i m r g hs ih =>
    obtain ⟨hl,htr⟩ := ih
    obtain ⟨q,l,ha,rfl⟩ := step_some hs
    have hst := act_step ha
    obtain ⟨k,⟨rfl,-⟩ | ⟨rfl,hm⟩⟩ := g
    · refine ⟨fun t => ?_,fun e he t ht => ?_⟩
      · have hne : 2*t+1 ≠ 2*k := by omega
        simpa [Function.update_of_ne hne] using hl t
      · rcases List.mem_append.mp he with he | he
        · exact htr e he t ht
        · have := thread_step hst e he
          omega
    · obtain ⟨hnext,hes⟩ := companion_step (hm.imp_left And.left) (hl k) hst
      refine ⟨fun t => ?_,fun e he t ht => ?_⟩
      · by_cases htk : t = k
        · subst htk
          simpa using hnext
        · have hne : 2*t+1 ≠ 2*k+1 := by omega
          simpa [Function.update_of_ne hne] using hl t
      · rcases List.mem_append.mp he with he | he
        · exact htr e he t ht
        · have hthread := thread_step hst e he
          rw [ht] at hthread
          rw [hthread]
          exact hes e he

end Runs

/-- From the original to the adapted queue, with companions: for every run of the
original there is one of the adapted queue in which thread `2t` makes the calls of
thread `t` and gets the same results in the same order, and the companion `2t+1`
calls `recompute_and_store_min_tail` while thread `2t` scans and nothing else. What
`seen` leaves out are these calls. Head, tails, flags, cached minimum, sequences and
items end the same, and whoever is idle here is idle there, companion included. -/
theorem original_run_adapted (S : RingSize) (P : Calls T) (c : Original T) (tr : List (Event T))
    (r : (machine T S).Run (Calling P) (Original.start 0) c tr) :
    ∃ d fs, (QueueMachine.machine T S).Run (Doubled P) (Config.start 0) d fs ∧
      fs.filterMap seen = tr ∧
      (∀ e ∈ fs, ∀ t, thread e = 2*t+1 →
        e = .called (2*t+1) .recomputeAndStoreMinTail ∨ e = .recomputed (2*t+1)) ∧
      d.shared = relabel c.shared ∧
      ∀ t, c.locals t = .idle → d.locals (2*t) = .idle ∧ d.locals (2*t+1) = .idle := by
  have hstart : Mirrored (Original.start 0 : Original T) (Config.start 0) :=
    mirrored_idle rfl (fun _ => rfl) fun _ => rfl
  obtain ⟨d,fs,r',hm,hfs⟩ := mirrored_run hstart r
  have hcomp : ∀ t, Companion ((Config.start 0 : Config T).locals (2*t+1)) := fun _ => trivial
  refine ⟨d,fs,r',hfs,(companion_run hcomp r').2,hm.shared,fun t ht => ?_⟩
  have hl := hm.locals t
  rwa [ht] at hl

/-- Sixteen items fill the ring without a consumer, and the next push gives up. -/
theorem original_run_adapted_full : ∃ (c : Original ℕ) (tr : List (Event ℕ)) (d : Config ℕ)
    (fs : List (Event ℕ)),
    (machine ℕ ring16).Run (Calling fun _ _ => True) (Original.start 0) c tr ∧
      (QueueMachine.machine ℕ ring16).Run (Doubled fun _ _ => True) (Config.start 0) d fs ∧
      d.shared.head = 16 ∧ Event.rejected 0 16 ∈ fs.filterMap seen := by
  have hany : ∀ (c : Original ℕ) t m, (fun _ _ _ => true : Original ℕ → ℕ → Move ℕ → Bool) c t m =
      true → Calling (fun _ _ => True) c t m := fun _ _ _ _ => trivial
  obtain ⟨c,tr,r,hv⟩ := exec_any (machine ℕ ring16) (Original.start 0) hany
    ((List.range 16).flatMap (fun x => callAlone 0 (.push x) 6) ++ callAlone 0 (.push 16) 35)
    (fun r => decide (r.1.shared.head = 16 ∧ Event.rejected 0 16 ∈ r.2)) (by decide +kernel)
  obtain ⟨hh,hr⟩ := of_decide_eq_true hv
  obtain ⟨d,fs,r',hfs,-,hd,-⟩ := original_run_adapted ring16 (fun _ _ => True) c tr r
  exact ⟨c,tr,d,fs,r,r',by rw [hd]; exact hh,by rwa [hfs]⟩

end MpmcLogger.OriginalMachine
