import MpmcLogger.OriginalMachine

/-!
# Queues in named shared memory

A process makes a queue in a shared memory object, or attaches one, by a name. A
name leads to one object at most, and an object outlives its name for those who
have mapped it. Its maker sizes the object, which is then all zeros, and runs the
constructor in it while others may already attach. Unmapping and closing show to
no other process. A process that died is one that takes no more steps, but one
that touches an object without memory is killed.
-/

set_option autoImplicit false

namespace MpmcLogger.ShmQueueManager
open Interleaving CopiedCell MpmcLogger.QueueMachine

/-- The template parameter `QueueType`: memory of zeros, the stores of its
constructor, and its calls one shared access at a time, each showing its begin. -/
structure QueueType (μ σ κ ε : Type*) where
  zeroed : σ
  stores : List (σ → σ)
  calls : System ℕ μ σ κ ε
  idle : κ
  announced : ∀ {p m q q' l es}, calls.act p m q idle = some (q',l,es) → es ≠ []

variable {μ σ κ ε : Type*}

def storeAll (fs : List (σ → σ)) (q : σ) : σ := fs.foldl (fun q f => f q) q

def QueueType.constructed (Q : QueueType μ σ κ ε) : σ := storeAll Q.stores Q.zeroed

structure Shm (σ : Type*) where
  names : String → Option ℕ
  -- an object that was not sized has no memory
  memory : ℕ → Option σ
  next : ℕ

inductive Opening where
  | made
  | found
  | attached
  deriving DecidableEq, Repr

inductive Event (ε : Type*) where
  | unlinked (p : ℕ) (name : String)
  | opened (p : ℕ) (name : String) (o : ℕ) (how : Opening)
  | constructed (p o : ℕ)
  | inside (p o : ℕ) (e : ε)
  | threw (p : ℕ) (what : String)
  | killed (p : ℕ)
  deriving DecidableEq, Repr

inductive Stage (σ κ : Type*) where
  | absent
  | unlinkOld (name : String)
  | openNew (name : String)
  | truncate (name : String) (o : ℕ)
  | openOld (name : String) (i : ℕ)
  | map (create : Bool) (name : String) (o : ℕ)
  | construct (name : String) (o : ℕ) (rest : List (σ → σ))
  | ready (create : Bool) (name : String) (o : ℕ) (l : κ)
  | unlinkName (name : String)
  | killed

inductive Move (μ : Type*) where
  | create (name : String)
  | attach (name : String)
  | go (ok : Bool)
  | use (m : μ)
  | destroy
  deriving DecidableEq, Repr

def shmOpenFailed : String := "shm_open failed"

def ftruncateFailed : String := "ftruncate failed"

def mmapFailed : String := "mmap failed"

def attempts : ℕ := 50

def Shm.unname (s : Shm σ) (n : String) : Shm σ :=
  { s with names := Function.update s.names n none }

def Shm.make (s : Shm σ) (n : String) : Shm σ :=
  { s with names := Function.update s.names n (some s.next), next := s.next+1 }

def Shm.store (s : Shm σ) (o : ℕ) (q : σ) : Shm σ :=
  { s with memory := Function.update s.memory o (some q) }

def Shm.truncate (s : Shm σ) (zeroed : σ) (o : ℕ) : Shm σ := s.store o ((s.memory o).getD zeroed)

def shmUnlink (s : Shm σ) (ok : Bool) (p : ℕ) (n : String) (l : Stage σ κ) :
    Shm σ × Stage σ κ × List (Event ε) :=
  match ok,s.names n with
  | true,some _ => (s.unname n,l,[.unlinked p n])
  | _,_ => (s,l,[])

def shmOpenNew (s : Shm σ) (p : ℕ) (n : String) : Shm σ × Stage σ κ × List (Event ε) :=
  match s.names n with
  | some o => (s,.truncate n o,[.opened p n o .found])
  | none => (s.make n,.truncate n s.next,[.opened p n s.next .made])

def shmOpenOld (s : Shm σ) (ok : Bool) (p : ℕ) (n : String) (i : ℕ) :
    Shm σ × Stage σ κ × List (Event ε) :=
  match ok,s.names n with
  | true,some o => (s,.map false n o,[.opened p n o .attached])
  | _,_ =>
    if i+1 < attempts then (s,.openOld n (i+1),[]) else (s,.absent,[.threw p shmOpenFailed])

def released : Bool → String → Stage σ κ
  | true, n => .unlinkName n
  | false, _ => .absent

section Machine

variable [DecidableEq κ]

/-- A failed constructor closes the descriptor but leaves the name; a failed `mlock`
is reported only. -/
def act (Q : QueueType μ σ κ ε) (p : ℕ) : Move μ → Shm σ → Stage σ κ →
    Option (Shm σ × Stage σ κ × List (Event ε))
  | .create n, s, .absent => some (s,.unlinkOld n,[])
  | .attach n, s, .absent => some (s,.openOld n 0,[])
  | .go ok, s, .unlinkOld n => some (shmUnlink s ok p n (.openNew n))
  | .go true, s, .openNew n => some (shmOpenNew s p n)
  | .go false, s, .openNew _ => some (s,.absent,[.threw p shmOpenFailed])
  | .go true, s, .truncate n o => some (s.truncate Q.zeroed o,.map true n o,[])
  | .go false, s, .truncate _ _ => some (s,.absent,[.threw p ftruncateFailed])
  | .go ok, s, .openOld n i => some (shmOpenOld s ok p n i)
  | .go true, s, .map true n o => some (s,.construct n o Q.stores,[])
  | .go true, s, .map false n o => some (s,.ready false n o Q.idle,[])
  | .go false, s, .map _ _ _ => some (s,.absent,[.threw p mmapFailed])
  | .go _, s, .construct n o (f::fs) =>
    match s.memory o with
    | some q => some (s.store o (f q),.construct n o fs,[])
    | none => some (s,.killed,[.killed p])
  | .go _, s, .construct n o [] => some (s,.ready true n o Q.idle,[.constructed p o])
  | .use m, s, .ready b n o l =>
    match s.memory o with
    | some q => (Q.calls.act p m q l).map fun r =>
        (s.store o r.1,.ready b n o r.2.1,r.2.2.map (.inside p o))
    | none => some (s,.killed,[.killed p])
  | .destroy, s, .ready b n _ l =>
    if l = Q.idle then some (s,released b n,[]) else none
  | .go ok, s, .unlinkName n => some (shmUnlink s ok p n .absent)
  | _, _, _ => none

def machine (Q : QueueType μ σ κ ε) : System ℕ (Move μ) (Shm σ) (Stage σ κ) (Event ε) := ⟨act Q⟩

end Machine

abbrev World (σ κ : Type*) := Conf ℕ (Shm σ) (Stage σ κ)

def boot : World σ κ := ⟨⟨fun _ => none,fun _ => none,0⟩,fun _ => .absent⟩

section Original

variable {T : Type*}

/-- Memory of zeros read as the original queue. Its blank items are zeros too; the
places beyond the ring stand for nothing. -/
def zeroedQueue (S : RingSize) : Queue T where
  consumers _ := ⟨0,false⟩
  head := 0
  numConsumers := 0
  minTail := 0
  slots i := ⟨if i < S.size then 0 else invalidPos,Cell.empty⟩

def clearConsumer (c : ConsumerId) : List (Queue T → Queue T) :=
  [fun q => q.setConsumer c { q.consumers c with tail := 0 },
    fun q => q.setConsumer c { q.consumers c with active := false }]

def clearCounters : List (Queue T → Queue T) :=
  [fun q => { q with numConsumers := 0 },fun q => { q with minTail := 0 }]

def clearItem (s : Slot T) : Slot T :=
  if s.data.content matches .blank then s else { s with data := ⟨.blank,s.data.begun+1⟩ }

def originalStores (S : RingSize) : List (Queue T → Queue T) :=
  (List.finRange maxConsumers).flatMap clearConsumer++
  (fun q => { q with head := 0 })::clearCounters++
  (List.range S.size).map (fun i q => q.setSlot i (clearItem (q.slots i)))++
  clearCounters++(List.finRange maxConsumers).flatMap clearConsumer++
  (List.range S.size).map fun i q => q.setSlot i { q.slots i with sequence := invalidPos }

def originalQueue (T : Type*) (S : RingSize) :
    QueueType (QueueMachine.Move T) (Queue T) (OriginalMachine.Stage T) (QueueMachine.Event T) where
  zeroed := zeroedQueue S
  stores := originalStores S
  calls := OriginalMachine.machine T S
  idle := .idle
  announced {p m q q' l es} h := by
    cases m with
    | call op =>
      cases h
      simp
    | _ => cases h

end Original

def object : Stage σ κ → Option ℕ
  | .truncate _ o | .map _ _ o | .construct _ o _ | .ready _ _ o _ => some o
  | _ => none

inductive Unlinks (n : String) : Stage σ κ → Stage σ κ → Prop
  | old : Unlinks n (.unlinkOld n) (.openNew n)
  | own : Unlinks n (.unlinkName n) .absent

inductive Fails : Stage σ κ → Prop
  | openNew (n : String) : Fails (.openNew n)
  | truncate (n : String) (o : ℕ) : Fails (.truncate n o)
  | openOld (n : String) (i : ℕ) : Fails (.openOld n i)
  | map (b : Bool) (n : String) (o : ℕ) : Fails (.map b n o)

inductive Step (Q : QueueType μ σ κ ε) (p : ℕ) (s : Shm σ) :
    Move μ → Stage σ κ → Shm σ → Stage σ κ → List (Event ε) → Prop
  | create (n : String) : Step Q p s (.create n) .absent s (.unlinkOld n) []
  | attach (n : String) : Step Q p s (.attach n) .absent s (.openOld n 0) []
  | unlinked {n : String} {o : ℕ} {l l' : Stage σ κ} (h : Unlinks n l l')
      (hn : s.names n = some o) : Step Q p s (.go true) l (s.unname n) l' [.unlinked p n]
  | unnamed {ok : Bool} {n : String} {l l' : Stage σ κ} (h : Unlinks n l l') :
      Step Q p s (.go ok) l s l' []
  | made {n : String} (hn : s.names n = none) :
      Step Q p s (.go true) (.openNew n) (s.make n) (.truncate n s.next) [.opened p n s.next .made]
  | found {n : String} {o : ℕ} (hn : s.names n = some o) :
      Step Q p s (.go true) (.openNew n) s (.truncate n o) [.opened p n o .found]
  | attached {n : String} {o i : ℕ} (hn : s.names n = some o) :
      Step Q p s (.go true) (.openOld n i) s (.map false n o) [.opened p n o .attached]
  | again {ok : Bool} {n : String} {i : ℕ} :
      Step Q p s (.go ok) (.openOld n i) s (.openOld n (i+1)) []
  | threw {ok : Bool} {l : Stage σ κ} (h : Fails l) (what : String) :
      Step Q p s (.go ok) l s .absent [.threw p what]
  | truncated {n : String} {o : ℕ} :
      Step Q p s (.go true) (.truncate n o) (s.truncate Q.zeroed o) (.map true n o) []
  | mapped {n : String} {o : ℕ} :
      Step Q p s (.go true) (.map true n o) s (.construct n o Q.stores) []
  | shared {n : String} {o : ℕ} :
      Step Q p s (.go true) (.map false n o) s (.ready false n o Q.idle) []
  | stored {ok : Bool} {n : String} {o : ℕ} {f : σ → σ} {fs : List (σ → σ)} {q : σ}
      (hq : s.memory o = some q) :
      Step Q p s (.go ok) (.construct n o (f::fs)) (s.store o (f q)) (.construct n o fs) []
  | constructed {ok : Bool} {n : String} {o : ℕ} :
      Step Q p s (.go ok) (.construct n o []) s (.ready true n o Q.idle) [.constructed p o]
  | used {b : Bool} {n : String} {o : ℕ} {m : μ} {l l' : κ} {q q' : σ} {es : List ε}
      (hq : s.memory o = some q) (ha : Q.calls.act p m q l = some (q',l',es)) :
      Step Q p s (.use m) (.ready b n o l) (s.store o q') (.ready b n o l') (es.map (.inside p o))
  | killed {m : Move μ} {l : Stage σ κ} {o : ℕ} (ho : object l = some o)
      (hq : s.memory o = none) : Step Q p s m l s .killed [.killed p]
  | destroyed {b : Bool} {n : String} {o : ℕ} :
      Step Q p s .destroy (.ready b n o Q.idle) s (released b n) []

section Steps

variable {Q : QueueType μ σ κ ε} {p : ℕ} {s s' : Shm σ} {m : Move μ} {l l' : Stage σ κ}
  {es : List (Event ε)} {ok : Bool} {n : String}

theorem unlink_step {r : Shm σ × Stage σ κ × List (Event ε)} (h : Unlinks n l l')
    (hr : shmUnlink s ok p n l' = r) : Step Q p s (.go ok) l r.1 r.2.1 r.2.2 := by
  unfold shmUnlink at hr
  split at hr
  · subst hr
    exact .unlinked h ‹_›
  · subst hr
    exact .unnamed h

theorem open_step {r : Shm σ × Stage σ κ × List (Event ε)} (hr : shmOpenNew s p n = r) :
    Step Q p s (.go true) (.openNew n) r.1 r.2.1 r.2.2 := by
  unfold shmOpenNew at hr
  split at hr
  · subst hr
    exact .found ‹_›
  · subst hr
    exact .made ‹_›

theorem attach_step {r : Shm σ × Stage σ κ × List (Event ε)} {i : ℕ}
    (hr : shmOpenOld s ok p n i = r) : Step Q p s (.go ok) (.openOld n i) r.1 r.2.1 r.2.2 := by
  unfold shmOpenOld at hr
  split at hr
  · subst hr
    exact .attached ‹_›
  · split_ifs at hr
    · subst hr
      exact .again
    · subst hr
      exact .threw (.openOld n i) _

variable [DecidableEq κ]

theorem act_step (h : act Q p m s l = some (s',l',es)) : Step Q p s m l s' l' es := by
  unfold act at h
  split at h
  · cases h; exact .create _
  · cases h; exact .attach _
  · exact unlink_step .old (Option.some.inj h)
  · exact open_step (Option.some.inj h)
  · cases h; exact .threw (.openNew _) _
  · cases h; exact .truncated
  · cases h; exact .threw (.truncate _ _) _
  · exact attach_step (Option.some.inj h)
  · cases h; exact .mapped
  · cases h; exact .shared
  · cases h; exact .threw (.map _ _ _) _
  · split at h
    · cases h; exact .stored ‹_›
    · cases h; exact .killed rfl ‹_›
  · cases h; exact .constructed
  · split at h
    · obtain ⟨⟨q,k,fs⟩,ha,hr⟩ := Option.map_eq_some_iff.mp h
      cases hr
      exact .used ‹_› ha
    · cases h; exact .killed rfl ‹_›
  · split_ifs at h with hl
    · subst hl
      cases h; exact .destroyed
  · exact unlink_step .own (Option.some.inj h)
  · cases h

end Steps

def Named (s : Shm σ) : Prop := ∀ n o, s.names n = some o → o < s.next

section Names

variable {Q : QueueType μ σ κ ε} {p o : ℕ} {s s' : Shm σ} {m : Move μ} {l l' : Stage σ κ}
  {es : List (Event ε)} {n : String}

theorem next_step (h : Step Q p s m l s' l' es) : s.next ≤ s'.next := by
  cases h with
  | made hn => exact Nat.le_succ _
  | _ => exact Nat.le_refl _

theorem named_step (h : Step Q p s m l s' l' es) (hs : Named s) : Named s' := by
  intro n o ho
  cases h with
  | @unlinked k _ _ _ hu hk =>
    by_cases he : n = k
    · subst he
      simp [Shm.unname] at ho
    · exact hs n o (by simpa [Shm.unname,Function.update_of_ne he] using ho)
  | @made k hk =>
    by_cases he : n = k
    · subst he
      have heq : s.next = o := by simpa [Shm.make] using ho
      subst heq
      exact Nat.lt_succ_self _
    · have hlt := hs n o (by simpa [Shm.make,Function.update_of_ne he] using ho)
      exact Nat.lt_succ_of_lt hlt
  | _ => exact hs n o ho

end Names

end MpmcLogger.ShmQueueManager
