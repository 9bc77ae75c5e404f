import MpmcLogger.OriginalDelivery
import MpmcLogger.SharedObject

/-!
# Delivery across processes

The memory that the maker of an object finds is all zeros, and there the constructor
of the original queue makes a new queue. So the queue delivers to the processes that
share the object as it delivers to threads.
-/

set_option autoImplicit false

namespace MpmcLogger.SharedDelivery
open Interleaving MpmcLogger.QueueMachine MpmcLogger.QueueHistory MpmcLogger.QueueDelivery
open MpmcLogger.OriginalDelivery MpmcLogger.SharedObject
open MpmcLogger.ShmQueueManager (originalQueue originalStores zeroedQueue clearConsumer clearItem
  clearCounters storeAll boot World QueueType)
open MpmcLogger.OriginalMachine (Calls Calling Original)

section Stores

variable {T : Type*}

theorem storeAll_sequences (q : Queue T) (n : ℕ) :
    storeAll ((List.range n).map fun i q =>
        q.setSlot i { q.slots i with sequence := invalidPos }) q =
      { q with slots := fun i =>
          if i < n then { q.slots i with sequence := invalidPos } else q.slots i } := by
  induction n with
  | zero => rfl
  | succ n ih =>
    rw [List.range_succ,List.map_append,storeAll_append,ih]
    simp only [storeAll,List.map_cons,List.map_nil,List.foldl_cons,List.foldl_nil,Queue.setSlot,
      Queue.mk.injEq,true_and]
    funext i
    by_cases hi : i = n
    · subst hi
      simp
    · have hiff : i < n+1 ↔ i < n := by omega
      simp [Function.update_of_ne hi,hiff]

theorem setConsumer_same {q : Queue T} {c : ConsumerId} {i : ConsumerInfo}
    (h : i = q.consumers c) : q.setConsumer c i = q := by
  rw [h,Queue.setConsumer,Function.update_eq_self]

theorem setSlot_same {q : Queue T} {i : ℕ} {s : Slot T} (h : s = q.slots i) :
    q.setSlot i s = q := by
  rw [h,Queue.setSlot,Function.update_eq_self]

/-- In memory of zeros all stores but those of the sequences change nothing. -/
theorem original_constructed (S : RingSize) :
    (originalQueue T S).constructed = Queue.new := by
  let q : Queue T := zeroedQueue S
  have hconsumers : storeAll ((List.finRange maxConsumers).flatMap clearConsumer) q = q := by
    refine storeAll_same fun f hf => ?_
    obtain ⟨c,-,hf⟩ := List.mem_flatMap.mp hf
    rcases List.mem_pair.mp hf with rfl | rfl <;> exact setConsumer_same rfl
  have hitems : storeAll ((List.range S.size).map
      fun i (q : Queue T) => q.setSlot i (clearItem (q.slots i))) q = q := by
    refine storeAll_same fun f hf => ?_
    obtain ⟨i,-,rfl⟩ := List.mem_map.mp hf
    exact setSlot_same rfl
  have hcounters : storeAll clearCounters q = q := rfl
  have hhead : storeAll ((fun q => { q with head := 0 })::clearCounters) q = q := rfl
  rw [QueueType.constructed,originalQueue,originalStores]
  simp only [storeAll_append]
  rw [hconsumers,hhead,hitems,hcounters,hconsumers,storeAll_sequences]
  simp only [q,zeroedQueue,Queue.new,Queue.registered,Queue.mk.injEq,true_and]
  refine ⟨by simp,funext fun i => ?_⟩
  split_ifs <;> rfl

end Stores

/-- One process makes a queue in shared memory and constructs it before anybody uses
it. Whatever all processes then do on the object, while they attach and leave and
make other queues, is a run of the original queue, and the memory and the stages of
the processes are those of that run. When they register the consumers first, and
claim less than `2^64` positions less one ring, the pops of each consumer are, whole
and in the order of the head, the items pushed by whichever process. -/
theorem shared_broadcast {T : Type*} [DecidableEq T] (S : RingSize) (o p : ℕ)
    (c₀ : World (Queue T) (OriginalMachine.Stage T))
    (tr₀ : List (ShmQueueManager.Event (Event T)))
    (r₀ : (ShmQueueManager.machine (originalQueue T S)).Run (Making o) boot c₀ tr₀)
    (hc : .constructed p o ∈ tr₀) (hu : Unused o tr₀) :
    (∀ (P : Calls T) c tr,
      (ShmQueueManager.machine (originalQueue T S)).Run (Using o P) c₀ c tr →
      ∃ d, (OriginalMachine.machine T S).Run (Calling P) (Original.start 0) d
          (tr.filterMap (insideOf o)) ∧
        c.shared.memory o = some d.shared ∧
        ∀ t, localOn (originalQueue T S) o (c.locals t) = d.locals t) ∧
    ∀ own c₁ c tr₁ tr,
      (ShmQueueManager.machine (originalQueue T S)).Run (Using o OnlyRegistering) c₀ c₁ tr₁ →
      (∀ t, localOn (originalQueue T S) o (c₁.locals t) = .idle) →
      (tickets (tr₁.filterMap (insideOf o))).length ≤ maxConsumers →
      (ShmQueueManager.machine (originalQueue T S)).Run (Using o (AfterJoining own)) c₁ c tr →
      (claims (tr.filterMap (insideOf o))).length < 2^64-S.size →
      let es := tr.filterMap (insideOf o)
      ∃ q, c.shared.memory o = some q ∧
        (∀ d k out, (pops d es)[k]? = some out → ∃ t x, Event.claimed t k x ∈ es ∧ out = some x ∧
          ∀ u y, Event.claimed u k y ∈ es → u = t ∧ y = x) ∧
        (∀ d, pops d es = ((claims es).take (q.consumers d).tail).map fun a => some a.2) ∧
        ∀ t, (claimedBy t es).Sublist (pushCallsBy t es) := by
  have hnew := constructed_holds r₀ hu hc
  rw [original_constructed] at hnew
  constructor
  · intro P c tr r
    obtain ⟨d,q,h⟩ := holds_run hnew r
    exact ⟨d,q,h.memory,h.locals⟩
  · intro own c₁ c tr₁ tr r₁ hidle hn r hb es
    obtain ⟨d₁,q₁,h₁⟩ := holds_run hnew r₁
    obtain ⟨d,q,h⟩ := holds_run h₁ r
    have hrest : ∀ t, d₁.locals t = .idle := fun t => (h₁.locals t).symm.trans (hidle t)
    have hdelivered : Broadcast d.shared es := joined_broadcast q₁ hrest hn q hb
    exact ⟨d.shared,h.memory,hdelivered.items,hdelivered.taken,hdelivered.ordered⟩

section Witness

abbrev SharedQueue := QueueType (Move ℕ) (Queue ℕ) (OriginalMachine.Stage ℕ) (Event ℕ)

def queue16 : SharedQueue := originalQueue ℕ ring16

abbrev SharedWorld := World (Queue ℕ) (OriginalMachine.Stage ℕ)

def makingCheck (c : SharedWorld) (p : ℕ) : ShmQueueManager.Move (Move ℕ) → Bool
  | .go true => match c.locals p with
    | .openNew n => decide (c.shared.names n ≠ some 0)
    | _ => true
  | _ => true

def usingCheck (f : ℕ → Move ℕ → Bool) (c : SharedWorld) (p : ℕ) :
    ShmQueueManager.Move (Move ℕ) → Bool
  | .use u => f p u
  | m => makingCheck c p m

theorem making_of_check (c : SharedWorld) (p : ℕ) (m : ShmQueueManager.Move (Move ℕ))
    (h : makingCheck c p m = true) : Making 0 c p m := by
  rintro n hn rfl
  simpa [makingCheck,hn] using h

theorem using_of_check {f : ℕ → Move ℕ → Bool} {P : ℕ → Move ℕ → Prop}
    (hf : ∀ p u, f p u = true → P p u) (c : SharedWorld) (p : ℕ)
    (m : ShmQueueManager.Move (Move ℕ)) (h : usingCheck f c p m = true) : Using 0 P c p m := by
  refine ⟨?_,fun b n l u hl hm => ?_⟩
  · rintro n hn rfl
    simpa [usingCheck,makingCheck,hn] using h
  · subst hm
    exact hf p u h

def makeAndAttach : List (ℕ × ShmQueueManager.Move (Move ℕ)) :=
  (0,.create "/q")::List.replicate 170 (0,.go true)++[(1,.attach "/q"),(1,.go true),(1,.go true)]

def attachedPair : SharedWorld × List (ShmQueueManager.Event (Event ℕ)) :=
  ((ShmQueueManager.machine queue16).exec makingCheck boot makeAndAttach).getD (boot,[])

theorem exec_attachedPair : (ShmQueueManager.machine queue16).exec makingCheck boot makeAndAttach =
    some (attachedPair.1,attachedPair.2) := by
  rw [Prod.mk.eta]
  refine (Option.getD_of_ne_none ?_ _).symm
  exact Option.isSome_iff_ne_none.mp (by decide +kernel)

def joiningCheck : ℕ → Move ℕ → Bool := registeringCheck (OriginalMachine.Original.start 0)

def calling (t : ℕ) (op : Op ℕ) (k : ℕ) : List (ℕ × ShmQueueManager.Move (Move ℕ)) :=
  (callAlone t op k).map fun a => (a.1,.use a.2)

def joinedPair : SharedWorld × List (ShmQueueManager.Event (Event ℕ)) :=
  ((ShmQueueManager.machine queue16).exec (usingCheck joiningCheck) attachedPair.1
    (calling 1 .registerConsumer 5)).getD (boot,[])

theorem exec_joinedPair : (ShmQueueManager.machine queue16).exec (usingCheck joiningCheck)
    attachedPair.1 (calling 1 .registerConsumer 5) = some (joinedPair.1,joinedPair.2) := by
  rw [Prod.mk.eta]
  refine (Option.getD_of_ne_none ?_ _).symm
  exact Option.isSome_iff_ne_none.mp (by decide +kernel)

theorem joinedPair_idle (t : ℕ) : localOn queue16 0 (joinedPair.1.locals t) = .idle := by
  by_cases ht : t < 2
  · interval_cases t <;> decide +kernel
  · have hmade : makeAndAttach.all (fun a => decide (a.1 < 2)) = true := by decide +kernel
    have hjoined : ∀ a ∈ calling 1 .registerConsumer 5, a.1 < 2 := by decide +kernel
    rw [List.all_eq_true] at hmade
    have hne : ∀ {a : ℕ × ShmQueueManager.Move (Move ℕ)}, a.1 < 2 → a.1 ≠ t := fun ha => by omega
    rw [exec_untouched _ (fun a ha => hne (hjoined a ha)) exec_joinedPair,
      exec_untouched _ (fun a ha => hne (of_decide_eq_true (hmade a ha))) exec_attachedPair]
    rfl

def notInside : ShmQueueManager.Event (Event ℕ) → Bool
  | .inside .. => false
  | _ => true

/-- Process 0 makes a queue, process 1 attaches it and registers a consumer, and what
the one pushes the other pops. -/
theorem shared_broadcast_one :
    ∃ (c₀ c₁ c : SharedWorld) (tr₀ tr₁ tr : List (ShmQueueManager.Event (Event ℕ))),
    (ShmQueueManager.machine queue16).Run (Making 0) boot c₀ tr₀ ∧
    (ShmQueueManager.machine queue16).Run (Using 0 OnlyRegistering) c₀ c₁ tr₁ ∧
    (ShmQueueManager.machine queue16).Run (Using 0 (AfterJoining fun _ => 1)) c₁ c tr ∧
    (∃ d, (OriginalMachine.machine ℕ ring16).Run (Calling OnlyRegistering) (Original.start 0) d
      (tr₁.filterMap (insideOf 0))) ∧
    ∃ q, c.shared.memory 0 = some q ∧ pops 0 (tr.filterMap (insideOf 0)) = [some 100] ∧
      (q.consumers 0).tail = 1 ∧
      ∃ t x, Event.claimed t 0 x ∈ tr.filterMap (insideOf 0) ∧ some 100 = some x := by
  have r₀ := exec_run making_of_check _ .start exec_attachedPair
  have r₁ := exec_run (using_of_check (registering_of_check (Original.start 0)))
    _ .start exec_joinedPair
  obtain ⟨c,tr,r,hv⟩ := exec_any (ShmQueueManager.machine queue16) joinedPair.1
    (using_of_check (afterJoining_of_check (fun _ => 1) (Original.start 0)))
    (calling 0 (.push 100) 6++calling 1 (.pop 0) 6)
    (fun r => decide (pops 0 (r.2.filterMap (insideOf 0)) = [some 100] ∧
      (r.1.shared.memory 0).map (fun q => (q.consumers 0).tail) = some 1 ∧
      (claims (r.2.filterMap (insideOf 0))).length = 1)) (by decide +kernel)
  obtain ⟨hp,ht,hc⟩ := of_decide_eq_true hv
  have hconstructed : .constructed 0 0 ∈ []++attachedPair.2 := by decide +kernel
  have hinside : ∀ e ∈ []++attachedPair.2, notInside e = true := by decide +kernel
  have hn : (tickets (([]++joinedPair.2).filterMap (insideOf 0))).length ≤ maxConsumers := by
    decide +kernel
  have hb : (claims (tr.filterMap (insideOf 0))).length < 2^64-ring16.size := by
    rw [hc]
    decide
  obtain ⟨hruns,hdelivers⟩ := shared_broadcast ring16 0 0 _ _ r₀ hconstructed
    fun p e he => by cases hinside _ he
  obtain ⟨d,rd,-,-⟩ := hruns OnlyRegistering joinedPair.1 _ r₁
  obtain ⟨q,hq,hitems,-,-⟩ := hdelivers (fun _ => 1) joinedPair.1 c _ tr r₁ joinedPair_idle hn r hb
  rw [hq] at ht
  obtain ⟨t,x,hx,hout,-⟩ := hitems 0 0 (some 100) (by rw [hp]; rfl)
  exact ⟨_,_,c,_,_,tr,r₀,r₁,r,⟨d,rd⟩,q,hq,hp,Option.some.inj ht,t,x,hx,hout⟩

end Witness

end MpmcLogger.SharedDelivery
