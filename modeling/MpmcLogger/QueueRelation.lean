import MpmcLogger.BroadcastLog
import MpmcLogger.QueueInvariant

/-!
# The queue and its broadcast log

The queue between two calls represents a broadcast log whose capacity is the size
of the ring. The cached minimum is never above a cursor, and a slot holds the
last item that went into it: after any number of laps its sequence is that of one
of the newest items, or invalid. Each access that changes the queue keeps the
representation, or changes the log as the call does.
-/

set_option autoImplicit false

namespace MpmcLogger.QueueRelation
open Interleaving CopiedCell RingIndex MachineWord BroadcastLog MpmcLogger.QueueMachine
open MpmcLogger.QueueHistory MpmcLogger.QueueInvariant

variable {T : Type*}

inductive Answer (T : Type*) where
  | registered (c : ConsumerId)
  | threw
  | unregistered
  | pushed (accepted : Bool)
  | popped (item : Option T)
  | empty
  | recomputed
  deriving DecidableEq

structure Members (T : Type*) where
  log : Log ConsumerId T
  joined : ℕ

def Members.start : Members T := ⟨.empty,0⟩

section Abstract

variable (S : RingSize)

noncomputable def respond (a : Members T) : Op T → Members T × Answer T
  | .push x =>
    if a.log.Room S.size then ({ a with log := a.log.append x },.pushed true)
    else (a,.pushed false)
  | .pop c =>
    match a.log.next c with
    | some x => ({ a with log := a.log.advance c },.popped (some x))
    | none => (a,.empty)
  | .registerConsumer =>
    if h : a.joined < maxConsumers then
      (⟨a.log.join ⟨a.joined,h⟩,a.joined+1⟩,.registered ⟨a.joined,h⟩)
    else ({ a with joined := a.joined+1 },.threw)
  | .unregisterConsumer c => ({ a with log := a.log.leave c },.unregistered)
  | .recomputeAndStoreMinTail => (a,.recomputed)

noncomputable def replay (a : Members T) : List (Op T) → Members T × List (Answer T)
  | [] => (a,[])
  | op::ops =>
    let r := respond S a op
    let rest := replay r.1 ops
    (rest.1,r.2::rest.2)

theorem replay_snoc (a : Members T) (ops : List (Op T)) (op : Op T) :
    replay S a (ops++[op]) = ((respond S (replay S a ops).1 op).1,
      (replay S a ops).2++[(respond S (replay S a ops).1 op).2]) := by
  induction ops generalizing a with
  | nil => rfl
  | cons o ops ih => simp only [List.cons_append,replay,ih]

end Abstract

def call : Event T → Option (Op T)
  | .called _ op => some op
  | _ => none

def answer : Event T → Option (Answer T)
  | .registered _ c => some (.registered c)
  | .threw _ _ => some .threw
  | .unregistered _ _ => some .unregistered
  | .pushed _ _ _ => some (.pushed true)
  | .rejected _ _ => some (.pushed false)
  | .popped _ _ x => some (.popped x)
  | .empty _ _ => some .empty
  | .recomputed _ => some .recomputed
  | _ => none

def calls (tr : List (Event T)) : List (Op T) := tr.filterMap call

def answers (tr : List (Event T)) : List (Answer T) := tr.filterMap answer

@[simp] theorem calls_append (tr es : List (Event T)) : calls (tr++es) = calls tr++calls es :=
  List.filterMap_append

@[simp] theorem answers_append (tr es : List (Event T)) :
    answers (tr++es) = answers tr++answers es := List.filterMap_append

def isRegister : Op T → Bool
  | .registerConsumer => true
  | _ => false

def isAccepted : Answer T → Bool
  | .pushed b => b
  | _ => false

structure Tracks (S : RingSize) (q : Queue T) (a : Members T) (hd n : ℕ) (free : ℕ → Prop) :
    Prop where
  head : q.head = hd
  tickets : q.numConsumers = n
  present : ∀ c k, a.log.cursor c = some k → q.consumers c = ⟨k,true⟩ ∧ c.val < a.joined
  absent : ∀ c, a.log.cursor c = none → (q.consumers c).active = false
  capped : a.log.Capped S.size
  cached : q.minTail ≤ a.log.items.length ∧ ∀ c k, a.log.cursor c = some k → q.minTail ≤ k
  filled : ∀ k x, a.log.items[k]? = some x → a.log.items.length ≤ k+S.size → ¬free (S.index k) →
    (q.slots (S.index k)).sequence = k ∧ (q.slots (S.index k)).data.content = .whole x
  blank : ∀ k, a.log.items.length ≤ k → k < S.size → ¬free k →
    (q.slots k).sequence = invalidPos ∧ (q.slots k).data.content = .blank

def Related (S : RingSize) (q : Queue T) (a : Members T) : Prop :=
  Tracks S q a a.log.items.length a.joined fun _ => False

def Below (S : RingSize) (a : Members T) : Prop := a.log.items.length+S.size < 2^64

def Partial (a : Members T) (i : ℕ) (m : Mins) : Prop :=
  ∀ v, v ≤ m.least ↔ v ≤ invalidPos ∧ ∀ c k, a.log.cursor c = some k → c.val < i → v ≤ k

section Slots

variable {S : RingSize} {q : Queue T} {a : Members T} {m : Mins} {i k : ℕ}

theorem related_start (S : RingSize) : Related S (Queue.new : Queue T) .start where
  head := rfl
  tickets := rfl
  present c k := by rintro ⟨⟩
  absent c _ := rfl
  capped := capped_empty _
  cached := ⟨le_rfl,by rintro c k ⟨⟩⟩
  filled k x := by rintro ⟨⟩
  blank k _ _ _ := ⟨rfl,rfl⟩

theorem active_iff {hd n : ℕ} {free : ℕ → Prop} (r : Tracks S q a hd n free) (c : ConsumerId) :
    (q.consumers c).active = true ↔ ∃ k, a.log.cursor c = some k := by
  cases hc : a.log.cursor c with
  | some k => simp [(r.present c k hc).1]
  | none => simp [r.absent c hc]

theorem inactive_absent {hd n : ℕ} {free : ℕ → Prop} (r : Tracks S q a hd n free)
    {c : ConsumerId} (inactive : (q.consumers c).active = false) : a.log.cursor c = none := by
  cases hc : a.log.cursor c with
  | some k => simp [(r.present c k hc).1] at inactive
  | none => rfl

/-- The slot that comes next holds no item of the last lap that is being read. -/
theorem next_slot (r : Related S q a) (hb : Below S a) :
    (q.slots (S.index a.log.items.length)).sequence ≠ a.log.items.length ∧
      (q.slots (S.index a.log.items.length)).data.content.Settled := by
  have hsize := S.pos
  unfold Below at hb
  by_cases hlt : a.log.items.length < S.size
  · obtain ⟨hseq,hcell⟩ := r.blank _ le_rfl hlt not_false
    rw [index_of_lt _ hlt,hseq,hcell]
    refine ⟨?_,trivial⟩
    unfold invalidPos
    omega
  · obtain ⟨x,hx⟩ : ∃ x, a.log.items[a.log.items.length-S.size]? = some x :=
      ⟨_,List.getElem?_eq_getElem (by omega)⟩
    have hindex : S.index (a.log.items.length-S.size) = S.index a.log.items.length := by
      rw [← index_add_size,Nat.sub_add_cancel (by omega)]
    obtain ⟨hseq,hcell⟩ := r.filled _ x hx (by omega) not_false
    rw [hindex] at hseq hcell
    rw [hseq,hcell]
    exact ⟨by omega,trivial⟩

/-- A reader that has caught up finds its slot unready, one behind finds its item. -/
theorem tail_slot (r : Related S q a) (hb : Below S a) {c : ConsumerId}
    (hc : a.log.cursor c = some k) :
    (q.slots (S.index k)).sequence = k ↔ ∃ x, a.log.items[k]? = some x := by
  obtain ⟨hle,hcap⟩ := r.capped c k hc
  constructor
  · intro hseq
    rcases Nat.lt_or_eq_of_le hle with hlt | rfl
    · exact ⟨_,List.getElem?_eq_getElem hlt⟩
    · exact absurd hseq (next_slot r hb).1
  · rintro ⟨x,hx⟩
    exact (r.filled k x hx hcap not_false).1

theorem partial_start (a : Members T) : Partial a 0 .start := by
  intro v
  rw [least_start]
  exact ⟨fun h => ⟨h,fun c k _ hc => absurd hc (Nat.not_lt_zero _)⟩,fun h => h.1⟩

theorem partial_skip (h : Partial a i m) (hi : i < maxConsumers)
    (hc : a.log.cursor ⟨i,hi⟩ = none) : Partial a (i+1) m := by
  intro v
  rw [h v]
  refine and_congr_right fun _ => forall_congr' fun c => forall_congr' fun k => ?_
  refine imp_congr_right fun hk => ?_
  have hne : c.val ≠ i := by
    rintro rfl
    rw [hc] at hk
    cases hk
  have hiff : c.val < i ↔ c.val < i+1 := by omega
  rw [hiff]

theorem partial_lower {c : ConsumerId} (h : Partial a c m) (hc : a.log.cursor c = some k) :
    Partial a (c+1) (m.lower c k) := by
  intro v
  rw [least_lower,le_min_iff,h v]
  constructor
  · rintro ⟨⟨hv,hall⟩,hvk⟩
    refine ⟨hv,fun d j hd hlt => ?_⟩
    rcases Nat.lt_succ_iff_lt_or_eq.mp hlt with hlt | heq
    · exact hall d j hd hlt
    · obtain rfl := Fin.ext heq
      obtain rfl := Option.some.inj (hd.symm.trans hc)
      exact hvk
  · rintro ⟨hv,hall⟩
    exact ⟨⟨hv,fun d j hd hlt => hall d j hd (by omega)⟩,hall c k hc (by omega)⟩

/-- A complete scan finds the slowest reader. -/
theorem scan_result (r : Related S q a) (hb : Below S a) (h : Partial a i m)
    (hi : maxConsumers ≤ i) : m.result ≤ a.log.items.length ∧
      (∀ c k, a.log.cursor c = some k → m.result ≤ k) ∧
      (a.log.Attended → m.result = a.log.slowest) := by
  have hsize := S.pos
  have hleast : ∀ v, v ≤ m.least ↔ v ≤ invalidPos ∧ ∀ c k, a.log.cursor c = some k → v ≤ k := by
    intro v
    rw [h v]
    exact and_congr_right fun _ => forall_congr' fun c => forall_congr' fun k =>
      imp_congr_right fun _ => ⟨fun hk => hk (c.isLt.trans_le hi),fun hk _ => hk⟩
  by_cases hm : m.least = invalidPos
  · -- then nobody is present, since a cursor is a smaller number
    have hnone : ¬a.log.Attended := by
      rintro ⟨c,k,hc⟩
      have hk := ((hleast m.least).mp le_rfl).2 c k hc
      have := (r.capped c k hc).1
      unfold Below at hb
      unfold invalidPos at hm
      omega
    rw [result_of_start hm]
    exact ⟨Nat.zero_le _,fun _ _ _ => Nat.zero_le _,fun hat => absurd hat hnone⟩
  · rw [result_of_ne hm]
    obtain ⟨hinv,hall⟩ := (hleast m.least).mp le_rfl
    have hatt : a.log.Attended := by
      by_contra hnone
      refine hm (le_antisymm hinv ((hleast _).mpr ⟨le_rfl,fun c k hc => ?_⟩))
      exact absurd ⟨c,k,hc⟩ hnone
    have hslow : m.least = a.log.slowest := by
      apply le_antisymm ((le_slowest hatt).mpr hall)
      refine (hleast _).mpr ⟨?_,fun c k hc => slowest_le hc⟩
      obtain ⟨c,k,hc⟩ := hatt
      have := slowest_le hc
      have := (r.capped c k hc).1
      unfold Below at hb
      unfold invalidPos
      omega
    refine ⟨?_,hall,fun _ => hslow⟩
    obtain ⟨c,k,hc⟩ := hatt
    exact (hall c k hc).trans (r.capped c k hc).1

theorem full_check (hb : Below S a) {b : ℕ} (h : b ≤ a.log.items.length) :
    u64 (b+S.size) = b+S.size := by
  unfold Below at hb
  exact u64_of_lt (by omega)

theorem room_of_lt (hat : a.log.Attended) {b : ℕ} (hle : ∀ c k, a.log.cursor c = some k → b ≤ k)
    (h : a.log.items.length < b+S.size) : a.log.Room S.size := by
  apply (room_iff hat S.pos).mpr
  intro c k hc
  have := hle c k hc
  omega

theorem full_of_le (hb : a.log.slowest+S.size ≤ a.log.items.length) : ¬a.log.Room S.size := by
  unfold Log.Room
  omega

end Slots

section Steps

variable {S : RingSize} {t : ℕ} {q q' : Queue T} {a : Members T} {op : Op T} {l l' : Local T}
  {m : Move T} {es : List (Event T)}

theorem related_minTail {b : ℕ} (r : Related S q a) (hle : b ≤ a.log.items.length)
    (hall : ∀ c k, a.log.cursor c = some k → b ≤ k) : Related S { q with minTail := b } a :=
  ⟨r.head,r.tickets,r.present,r.absent,r.capped,⟨hle,hall⟩,r.filled,r.blank⟩

theorem tracks_claim (r : Related S q a) (hb : Below S a) :
    Tracks S { q with head := u64 (q.head+1) } a (a.log.items.length+1) a.joined
      (· = S.index a.log.items.length) where
  head := by
    have hsize := S.pos
    unfold Below at hb
    show u64 (q.head+1) = _
    rw [r.head]
    exact u64_of_lt (by omega)
  tickets := r.tickets
  present := r.present
  absent := r.absent
  capped := r.capped
  cached := r.cached
  filled k x hx hk _ := r.filled k x hx hk not_false
  blank k hk hlt _ := r.blank k hk hlt not_false

theorem tracks_setSlot {hd n i : ℕ} (r : Tracks S q a hd n (· = i)) (s : Slot T) :
    Tracks S (q.setSlot i s) a hd n (· = i) where
  head := r.head
  tickets := r.tickets
  present := r.present
  absent := r.absent
  capped := r.capped
  cached := r.cached
  filled k x hx hk hf := by
    rw [setSlot_slots,if_neg hf]
    exact r.filled k x hx hk hf
  blank k hk hlt hf := by
    rw [setSlot_slots,if_neg hf]
    exact r.blank k hk hlt hf

theorem related_publish {x : T} (room : a.log.Room S.size)
    (r : Tracks S q a (a.log.items.length+1) a.joined (· = S.index a.log.items.length))
    (hs : (q.slots (S.index a.log.items.length)).data.content = .whole x) :
    Related S (q.setSlot (S.index a.log.items.length)
      { q.slots (S.index a.log.items.length) with sequence := a.log.items.length })
      { a with log := a.log.append x } where
  head := by simpa [Log.append] using r.head
  tickets := r.tickets
  present := r.present
  absent := r.absent
  capped := capped_append r.capped room
  cached := by
    refine ⟨?_,r.cached.2⟩
    have := r.cached.1
    simp only [Log.append,List.length_append,List.length_singleton]
    exact this.trans (Nat.le_succ _)
  filled k y hy hk _ := by
    simp only [Log.append,List.length_append,List.length_singleton] at hk
    rcases (getElem?_snoc a.log.items x y k).mp hy with hy | ⟨rfl,rfl⟩
    · -- an item of the last lap sits in another slot
      have hlt := (List.getElem?_eq_some_iff.mp hy).1
      have hne : S.index k ≠ S.index a.log.items.length := fun h => by
        have := lap_of_index_eq _ hlt h
        omega
      rw [setSlot_slots,if_neg hne]
      exact r.filled k y hy (by omega) hne
    · rw [setSlot_slots,if_pos rfl]
      exact ⟨rfl,hs⟩
  blank k hk hlt _ := by
    simp only [Log.append,List.length_append,List.length_singleton] at hk
    have hne : k ≠ S.index a.log.items.length := by
      rw [index_of_lt _ (by omega : a.log.items.length < S.size)]
      omega
    rw [setSlot_slots,if_neg hne]
    exact r.blank k (by omega) hlt hne

theorem related_advance {c : ConsumerId} {k : ℕ} {x : T} (r : Related S q a) (hb : Below S a)
    (hc : a.log.cursor c = some k) (hx : a.log.items[k]? = some x) :
    Related S (q.setConsumer c { q.consumers c with tail := u64 (k+1) })
      { a with log := a.log.advance c } where
  head := r.head
  tickets := r.tickets
  present d j hd := by
    have hlt := (List.getElem?_eq_some_iff.mp hx).1
    unfold Below at hb
    rw [setConsumer_consumers]
    rw [advance_cursor] at hd
    split_ifs at hd ⊢ with hdc
    · subst hdc
      rw [hc] at hd
      obtain rfl := Option.some.inj hd
      obtain ⟨hcons,hj⟩ := r.present d k hc
      rw [hcons,u64_of_lt (by omega)]
      exact ⟨rfl,hj⟩
    · exact r.present d j hd
  absent d hd := by
    rw [setConsumer_consumers]
    rw [advance_cursor] at hd
    split_ifs at hd ⊢ with hdc
    · rw [hc] at hd
      cases hd
    · exact r.absent d hd
  capped := capped_advance r.capped ((next_eq_some hc).trans hx)
  cached := by
    refine ⟨r.cached.1,fun d j hd => ?_⟩
    rw [advance_cursor] at hd
    split_ifs at hd with hdc
    · rw [hc] at hd
      obtain rfl := Option.some.inj hd
      exact (r.cached.2 c k hc).trans (Nat.le_succ k)
    · exact r.cached.2 d j hd
  filled := r.filled
  blank := r.blank

theorem tracks_setTail {hd n : ℕ} {free : ℕ → Prop} {c : ConsumerId} (r : Tracks S q a hd n free)
    (hc : a.log.cursor c = none) (k : ℕ) :
    Tracks S (q.setConsumer c { q.consumers c with tail := k }) a hd n free where
  head := r.head
  tickets := r.tickets
  present d j hd := by
    have hne : d ≠ c := by
      rintro rfl
      rw [hc] at hd
      cases hd
    rw [setConsumer_consumers,if_neg hne]
    exact r.present d j hd
  absent d hd := by
    rw [setConsumer_consumers]
    split_ifs with hdc
    · rw [hdc] at hd
      exact r.absent c hd
    · exact r.absent d hd
  capped := r.capped
  cached := r.cached
  filled := r.filled
  blank := r.blank

theorem newcomer_absent {hd n : ℕ} {free : ℕ → Prop} {c : ConsumerId}
    (r : Tracks S q a hd n free) (hc : c.val = a.joined) : a.log.cursor c = none := by
  cases h : a.log.cursor c with
  | none => rfl
  | some k =>
    have := (r.present c k h).2
    omega

theorem related_join {c : ConsumerId} (hc : c.val = a.joined)
    (r : Tracks S q a a.log.items.length (a.joined+1) fun _ => False)
    (ht : (q.consumers c).tail = a.log.items.length) :
    Related S (q.setConsumer c { q.consumers c with active := true })
      ⟨a.log.join c,a.joined+1⟩ where
  head := r.head
  tickets := r.tickets
  present d j hd := by
    rw [setConsumer_consumers]
    rw [join_cursor] at hd
    split_ifs at hd ⊢ with hdc
    · obtain rfl := Option.some.inj hd
      subst hdc
      exact ⟨by rw [← ht],by show d.val < a.joined+1; omega⟩
    · obtain ⟨hcons,hlt⟩ := r.present d j hd
      exact ⟨hcons,hlt.trans (Nat.lt_succ_self _)⟩
  absent d hd := by
    rw [setConsumer_consumers]
    rw [join_cursor] at hd
    split_ifs at hd ⊢ with hdc
    exact r.absent d hd
  capped := capped_join r.capped
  cached := by
    refine ⟨r.cached.1,fun d j hd => ?_⟩
    rw [join_cursor] at hd
    split_ifs at hd with hdc
    · obtain rfl := Option.some.inj hd
      exact r.cached.1
    · exact r.cached.2 d j hd
  filled := r.filled
  blank := r.blank

theorem related_leave {c : ConsumerId} (r : Related S q a) :
    Related S (q.setConsumer c { q.consumers c with active := false })
      { a with log := a.log.leave c } where
  head := r.head
  tickets := r.tickets
  present d j hd := by
    rw [setConsumer_consumers]
    rw [leave_cursor] at hd
    split_ifs at hd ⊢ with hdc
    exact r.present d j hd
  absent d hd := by
    rw [setConsumer_consumers]
    rw [leave_cursor] at hd
    split_ifs at hd ⊢ with hdc
    · rfl
    · exact r.absent d hd
  capped := capped_leave r.capped
  cached := by
    refine ⟨r.cached.1,fun d j hd => ?_⟩
    rw [leave_cursor] at hd
    split_ifs at hd with hdc
    exact r.cached.2 d j hd
  filled := r.filled
  blank := r.blank

end Steps

end MpmcLogger.QueueRelation
