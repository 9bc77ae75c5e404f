import MpmcLogger.OriginalMachine

/-!
# Broadcast delivery by the original queue

What the adapted queue delivers the original delivers, though any scan may put an
older minimum back: its runs are runs of the adapted queue, the companions claim
and pop nothing, and so claims and pops are the same.
-/

set_option autoImplicit false

namespace MpmcLogger.OriginalDelivery
open Interleaving MpmcLogger.QueueMachine MpmcLogger.QueueHistory MpmcLogger.QueueInvariant
open MpmcLogger.QueueSetup MpmcLogger.QueueDelivery MpmcLogger.OriginalMachine

variable {T : Type*}

def OnlyRegistering : Calls T := fun _ m => ∀ op, m = .call op → op = .registerConsumer

def AfterJoining (own : ConsumerId → ℕ) : Calls T := fun t m =>
  OwnedMove own t m ∧ m ≠ .call .registerConsumer

section Seen

variable (fs : List (Event T))

theorem claims_seen : claims (fs.filterMap seen) = (claims fs).map fun a => (a.1/2,a.2) := by
  simp only [claims,List.filterMap_filterMap,List.map_filterMap]
  congr 1
  funext e
  cases e with
  | called j op => simp only [seen]; split_ifs <;> rfl
  | recomputed j => simp only [seen]; split_ifs <;> rfl
  | _ => rfl

theorem pops_seen (d : ConsumerId) : pops d (fs.filterMap seen) = pops d fs := by
  simp only [pops,List.filterMap_filterMap]
  congr 1
  funext e
  cases e with
  | called j op => simp only [seen]; split_ifs <;> rfl
  | recomputed j => simp only [seen]; split_ifs <;> rfl
  | _ => rfl

theorem tickets_seen : tickets (fs.filterMap seen) = (tickets fs).map (·/2) := by
  simp only [tickets,List.filterMap_filterMap,List.map_filterMap]
  congr 1
  funext e
  cases e with
  | called j op => simp only [seen]; split_ifs <;> rfl
  | recomputed j => simp only [seen]; split_ifs <;> rfl
  | _ => rfl

theorem pushCallsBy_seen (t : ℕ) :
    pushCallsBy t (fs.filterMap seen) = pushCallsBy (2*t) fs := by
  simp only [pushCallsBy,List.filterMap_filterMap]
  congr 1
  funext e
  cases e with
  | called j op =>
    simp only [seen]
    by_cases hj : j%2 = 0
    · rw [if_pos hj]
      cases op with
      | push x => exact if_congr (by omega) rfl rfl
      | _ => rfl
    · have hne : j ≠ 2*t := by omega
      rw [if_neg hj]
      cases op with
      | push x => exact (if_neg hne).symm
      | _ => rfl
  | recomputed j => simp only [seen]; split_ifs <;> rfl
  | _ => rfl

theorem claimed_seen {t k : ℕ} {x : T} (h : Event.claimed t k x ∈ fs.filterMap seen) :
    ∃ j, Event.claimed j k x ∈ fs ∧ j/2 = t := by
  obtain ⟨e,he,hs⟩ := List.mem_filterMap.mp h
  cases e <;> simp only [seen] at hs <;> (try split_ifs at hs) <;> cases hs
  exact ⟨_,he,rfl⟩

end Seen

section Companions

variable {S : RingSize} {P : Calls T} {n : ℕ} {own : ConsumerId → ℕ} {c₀ d : Config T}
  {fs : List (Event T)}

theorem companion_claims (hc : ∀ t, Companion (c₀.locals (2*t+1)))
    (r : (QueueMachine.machine T S).Run (Doubled P) c₀ d fs) (t : ℕ) :
    claimedBy (2*t+1) fs = [] := by
  refine List.filterMap_eq_nil_iff.mpr fun a ha => if_neg fun hodd => ?_
  obtain ⟨pos,he⟩ := claimed_of_mem ha
  rcases (companion_run hc r).2 _ he t hodd with h | h <;> cases h

theorem claimedBy_seen (hc : ∀ t, Companion (c₀.locals (2*t+1)))
    (r : (QueueMachine.machine T S).Run (Doubled P) c₀ d fs) (t : ℕ) : claimedBy t (fs.filterMap seen) = claimedBy (2*t) fs := by
  have heven : ∀ a ∈ claims fs, a.1 ≠ 2*t+1 := by
    intro a ha hodd
    have hmem : a.2 ∈ claimedBy (2*t+1) fs :=
      List.mem_filterMap.mpr ⟨a,ha,if_pos hodd⟩
    rw [companion_claims hc r t] at hmem
    cases hmem
  rw [claimedBy,claimedBy,claims_seen,List.filterMap_map]
  apply List.filterMap_congr
  intro a ha
  have hne := heven a ha
  exact if_congr (by constructor <;> intro h <;> simp at h ⊢ <;> omega) rfl rfl

theorem registering_doubled
    (r : (QueueMachine.machine T S).Run (Doubled OnlyRegistering) (Config.start 0) d fs) :
    (QueueMachine.machine T S).Run (Registering own) (Config.start 0) d fs := by
  refine r.mono fun c j m g => ?_
  obtain ⟨t,⟨-,hm⟩ | ⟨-,⟨rfl,-⟩ | rfl⟩⟩ := g
  · cases m with
    | call op =>
      obtain rfl := hm op rfl
      exact ⟨trivial,by simp⟩
    | go => exact ⟨trivial,by simp⟩
    | spurious => exact ⟨trivial,by simp⟩
  · exact ⟨trivial,by simp⟩
  · exact ⟨trivial,by simp⟩

theorem joined_doubled
    (r : (QueueMachine.machine T S).Run (Doubled (AfterJoining own)) c₀ d fs) :
    (QueueMachine.machine T S).Run (JoinedFirst fun c => 2*own c) c₀ d fs := by
  refine r.mono fun c j m g => ?_
  obtain ⟨t,⟨rfl,hown,hm⟩ | ⟨rfl,⟨rfl,-⟩ | rfl⟩⟩ := g
  · refine ⟨?_,hm⟩
    cases m with
    | call op => cases op <;> first | exact trivial | exact congrArg (2*·) hown
    | go => trivial
    | spurious => trivial
  · exact ⟨trivial,by simp⟩
  · exact ⟨trivial,by simp⟩

end Companions

section Runs

variable {S : RingSize} {c₀ c : Original T} {d : Config T} {tr fs : List (Event T)}

theorem mirrored_all_idle (hm : Mirrored c d) (hidle : ∀ t, c.locals t = .idle) (j : ℕ) :
    d.locals j = .idle := by
  have hl := hm.locals (j/2)
  rw [hidle] at hl
  rcases Nat.even_or_odd' j with ⟨t,rfl | rfl⟩
  · have ht : 2*t/2 = t := by omega
    rw [ht] at hl
    exact hl.1
  · have ht : (2*t+1)/2 = t := by omega
    rw [ht] at hl
    exact hl.2

/-- The registration phase of the original ends where one of the adapted queue does. -/
theorem registered_mirrored (own : ConsumerId → ℕ)
    (r : (OriginalMachine.machine T S).Run (Calling OnlyRegistering) (Original.start 0) c tr)
    (hidle : ∀ t, c.locals t = .idle) (hn : (tickets tr).length ≤ maxConsumers) :
    ∃ d, Mirrored c d ∧ (∀ j, d.locals j = .idle) ∧ Begun (tickets tr).length own d := by
  have hstart : Mirrored (Original.start 0 : Original T) (Config.start 0) :=
    mirrored_idle rfl (fun _ => rfl) fun _ => rfl
  obtain ⟨d,fs,r',hm,rfl⟩ := mirrored_run hstart r
  have hlen : (tickets (fs.filterMap seen)).length = (tickets fs).length := by
    rw [tickets_seen,List.length_map]
  rw [hlen] at hn ⊢
  have hrest := mirrored_all_idle hm hidle
  refine ⟨d,hm,hrest,registered_begun (registering_doubled r') (fun j => ?_) hn⟩
  rw [hrest]
  trivial

structure Broadcast (q : Queue T) (tr : List (Event T)) : Prop where
  items : ∀ d k out, (pops d tr)[k]? = some out → ∃ t x, Event.claimed t k x ∈ tr ∧ out = some x ∧
    ∀ u y, Event.claimed u k y ∈ tr → u = t ∧ y = x
  taken : ∀ d, pops d tr = ((claims tr).take (q.consumers d).tail).map fun a => some a.2
  ordered : ∀ t, (claimedBy t tr).Sublist (pushCallsBy t tr)

theorem joined_broadcast {own : ConsumerId → ℕ} {c₁ : Original T} {tr₀ : List (Event T)}
    (r₀ : (OriginalMachine.machine T S).Run (Calling OnlyRegistering) (Original.start 0) c₁ tr₀)
    (hidle : ∀ t, c₁.locals t = .idle) (hn : (tickets tr₀).length ≤ maxConsumers)
    (r : (OriginalMachine.machine T S).Run (Calling (AfterJoining own)) c₁ c tr)
    (hb : (claims tr).length < 2^64-S.size) : Broadcast c.shared tr := by
  obtain ⟨d₀,hm₀,hrest,h₀⟩ := registered_mirrored (fun c => 2*own c) r₀ hidle hn
  obtain ⟨d,fs,r',hm,rfl⟩ := mirrored_run hm₀ r
  have hlen : (claims (fs.filterMap seen)).length = (claims fs).length := by
    rw [claims_seen,List.length_map]
  have hj := joined_doubled r'
  obtain ⟨hs,-⟩ := run_sound h₀ (fun _ _ _ g => g.1) hj (joined_bounded h₀ hj hn (hlen ▸ hb))
  have hpops : ∀ e, pops e (fs.filterMap seen) =
      ((claims fs).take (c.shared.consumers e).tail).map fun a => some a.2 := by
    intro e
    rw [pops_seen,(run_delivered h₀ hj hn).1.pops e,hm.shared]
    rfl
  refine ⟨?_,?_,fun t => ?_⟩
  · intro e k out hk
    rw [hpops e,List.getElem?_map,Option.map_eq_some_iff] at hk
    obtain ⟨⟨j,x⟩,hget,rfl⟩ := hk
    have hclaim : (claims fs)[k]? = some (j,x) := by
      rw [List.getElem?_take] at hget
      split_ifs at hget with hlt
      exact hget
    refine ⟨j/2,x,?_,rfl,fun u y hy => ?_⟩
    · exact List.mem_filterMap.mpr ⟨_,claimed_of_claims h₀ hj hn hclaim,rfl⟩
    · obtain ⟨i,hi,rfl⟩ := claimed_seen fs hy
      have hsame := (hs.claimed i k y hi).symm.trans hclaim
      obtain ⟨rfl,rfl⟩ := Prod.mk.inj (Option.some.inj hsame)
      exact ⟨rfl,rfl⟩
  · intro e
    rw [hpops e,claims_seen,← List.map_take,List.map_map]
    rfl
  · have hc : ∀ t, Companion (d₀.locals (2*t+1)) := fun t => by
      rw [hrest]
      trivial
    rw [claimedBy_seen hc r',pushCallsBy_seen]
    exact (List.sublist_append_left _ _).trans (run_in_call_order r' h₀.waits (2*t))

end Runs

/-- Exact broadcast delivery by the original queue, once all consumers have joined:
pop `k` of any consumer returns, whole, the item of the push that moved the head
from `k`; the pops of a consumer are the claims up to its tail; and the claims of
one producer are in the order of its calls. -/
theorem original_broadcast (S : RingSize) (own : ConsumerId → ℕ) (c₀ c : Original T)
    (tr₀ tr : List (Event T))
    (r₀ : (OriginalMachine.machine T S).Run (Calling OnlyRegistering) (Original.start 0) c₀ tr₀)
    (hidle : ∀ t, c₀.locals t = .idle) (hn : (tickets tr₀).length ≤ maxConsumers)
    (r : (OriginalMachine.machine T S).Run (Calling (AfterJoining own)) c₀ c tr)
    (hb : (claims tr).length < 2^64-S.size) :
    (∀ d k out, (pops d tr)[k]? = some out → ∃ t x, Event.claimed t k x ∈ tr ∧ out = some x ∧
      ∀ u y, Event.claimed u k y ∈ tr → u = t ∧ y = x) ∧
    (∀ d, pops d tr = ((claims tr).take (c.shared.consumers d).tail).map fun a => some a.2) ∧
    ∀ t, (claimedBy t tr).Sublist (pushCallsBy t tr) := by
  have h := joined_broadcast r₀ hidle hn r hb
  exact ⟨h.items,h.taken,h.ordered⟩

def registeringCheck (_ : Original ℕ) (_ : ℕ) : Move ℕ → Bool
  | .call .registerConsumer | .go => true
  | _ => false

theorem registering_of_check (c : Original ℕ) (t : ℕ) (m : Move ℕ)
    (h : registeringCheck c t m = true) : Calling OnlyRegistering c t m := by
  unfold registeringCheck at h
  split at h
  · exact fun op hop => by cases hop; rfl
  · exact fun op hop => by cases hop
  · cases h

def afterJoiningCheck (own : ConsumerId → ℕ) (_ : Original ℕ) (t : ℕ) (m : Move ℕ) : Bool :=
  decide (OwnedMove own t m ∧ m ≠ .call .registerConsumer)

theorem afterJoining_of_check (own : ConsumerId → ℕ) (c : Original ℕ) (t : ℕ) (m : Move ℕ)
    (h : afterJoiningCheck own c t m = true) : Calling (AfterJoining own) c t m := by
  simpa [afterJoiningCheck,Calling,AfterJoining] using h

def oneJoined : Original ℕ × List (Event ℕ) :=
  ((OriginalMachine.machine ℕ ring16).exec registeringCheck (Original.start 0)
    (callAlone 2 .registerConsumer 5)).getD (Original.start 0,[])

theorem exec_oneJoined : (OriginalMachine.machine ℕ ring16).exec registeringCheck
    (Original.start 0) (callAlone 2 .registerConsumer 5) = some oneJoined := by
  refine (Option.getD_of_ne_none ?_ _).symm
  exact Option.isSome_iff_ne_none.mp (by decide +kernel)

theorem oneJoined_idle (t : ℕ) : oneJoined.1.locals t = .idle := by
  by_cases ht : t = 2
  · subst ht
    decide +kernel
  · refine exec_untouched _ (fun a ha => ?_) exec_oneJoined
    simp only [callAlone,List.mem_cons,List.mem_replicate] at ha
    rcases ha with rfl | ⟨-,rfl⟩ <;> exact fun h => ht h.symm

/-- A consumer registers, a producer pushes one item, and the consumer receives it. -/
theorem original_broadcast_one : ∃ (c₀ c : Original ℕ) (tr₀ tr : List (Event ℕ)),
    (OriginalMachine.machine ℕ ring16).Run (Calling OnlyRegistering) (Original.start 0) c₀ tr₀ ∧
    (OriginalMachine.machine ℕ ring16).Run (Calling (AfterJoining fun _ => 2)) c₀ c tr ∧
    pops 0 tr = [some 100] ∧ (c.shared.consumers 0).tail = 1 ∧
    ∃ t x, Event.claimed t 0 x ∈ tr ∧ some 100 = some x := by
  have r₀ := exec_run registering_of_check _ .start exec_oneJoined
  obtain ⟨c,tr,r,hv⟩ := exec_any (OriginalMachine.machine ℕ ring16) oneJoined.1
    (afterJoining_of_check fun _ => 2) (callAlone 0 (.push 100) 6 ++ callAlone 2 (.pop 0) 6)
    (fun r => decide (pops 0 r.2 = [some 100] ∧ (r.1.shared.consumers 0).tail = 1 ∧
      (claims r.2).length = 1)) (by decide +kernel)
  obtain ⟨hp,ht,hc⟩ := of_decide_eq_true hv
  have hn : (tickets ([]++oneJoined.2)).length ≤ maxConsumers := by decide +kernel
  have hb : (claims tr).length < 2^64-ring16.size := by
    rw [hc]
    decide
  obtain ⟨t,x,hx,hout,-⟩ := (original_broadcast ring16 (fun _ => 2) oneJoined.1 c _ tr r₀
    oneJoined_idle hn r hb).1 0 0 (some 100) (by rw [hp]; rfl)
  exact ⟨_,c,_,tr,r₀,r,hp,ht,t,x,hx,hout⟩

end MpmcLogger.OriginalDelivery
