import MpmcLogger.QueueCalls

/-!
# Consumers that come and go

What a consumer that leaves, or a registration that fails, does to the queue
when calls do not overlap. The positions of such a history never wrap: a push is
accepted only below the sum of the cached minimum and the size, and a sum that
wraps rejects it. The room that a leaving consumer leaves behind is that of the
others, and none without others. The ids come from a counter that is never set
back.
-/

set_option autoImplicit false

namespace MpmcLogger.QueueMembership
open CopiedCell RingIndex MachineWord MpmcLogger.QueueMachine MpmcLogger.QueueHistory
open MpmcLogger.QueueInvariant MpmcLogger.QueueRelation MpmcLogger.QueueCalls

variable {T : Type*} {S : RingSize} {q : Queue T}

structure Orderly (q : Queue T) : Prop where
  below : q.head < 2^64
  tails : ∀ c, (q.consumers c).tail ≤ q.head
  cached : q.minTail ≤ q.head
  published : ∀ i, (q.slots i).sequence = invalidPos ∨ (q.slots i).sequence < q.head

def Room (S : RingSize) (q : Queue T) (b : ℕ) : Prop := b+S.size < 2^64 ∧ q.head < b+S.size

theorem size_le (S : RingSize) : S.size ≤ 2^63 := by
  obtain ⟨k,hk⟩ := pow_two_of_mask S.size S.masked S.pos
  have hfits := S.fits
  rw [hk] at hfits ⊢
  have hk64 : k < 64 := (Nat.pow_lt_pow_iff_right (by decide)).mp hfits
  exact Nat.pow_le_pow_right (by decide) (by omega)

theorem not_full (h : Orderly q) {b : ℕ} (hb : b ≤ q.head) :
    ¬Full S { q with minTail := b } ↔ Room S q b := by
  have hfits := S.fits
  have hbelow := h.below
  show ¬u64 (b+S.size) ≤ q.head ↔ b+S.size < 2^64 ∧ q.head < b+S.size
  by_cases hwrap : b+S.size < 2^64
  · rw [u64_of_lt hwrap]
    omega
  · have hsum : u64 (b+S.size) = b+S.size-2^64 := by
      unfold u64
      omega
    rw [hsum]
    omega

theorem not_full_cached (h : Orderly q) : ¬Full S q ↔ Room S q q.minTail := not_full h h.cached

section Scan

theorem computeMinTail_le (h : Orderly q) : computeMinTail q ≤ q.head := by
  unfold computeMinTail
  by_cases hm : ((List.finRange maxConsumers).foldl (look q) .start).least = invalidPos
  · rw [result_of_start hm]
    exact Nat.zero_le _
  · obtain ⟨c,-,hc⟩ := least_attained q hm
    rw [result_of_ne hm,← hc]
    exact h.tails c

/-- The scan finds room if and only if every active consumer leaves room, and one
of them below the wrap; without an active consumer, only in the first lap. -/
theorem room_scan (h : Orderly q) : Room S q (computeMinTail q) ↔
    (∀ c, (q.consumers c).active = true → q.head < (q.consumers c).tail+S.size) ∧
    ((∃ c, (q.consumers c).active = true ∧ (q.consumers c).tail+S.size < 2^64) ∨
      (∀ c, (q.consumers c).active = false) ∧ q.head < S.size) := by
  have hfits := S.fits
  have hpos := S.meaningful
  have hsize := size_le S
  have hbelow := h.below
  obtain ⟨hinv,hall⟩ := (le_least q _).mp le_rfl
  unfold computeMinTail Room
  by_cases hm : ((List.finRange maxConsumers).foldl (look q) .start).least = invalidPos
  · -- an active consumer would be at the last position, where no ring has room
    rw [hm] at hall
    unfold invalidPos at hall
    rw [result_of_start hm]
    constructor
    · rintro ⟨-,hroom⟩
      have hnone : ∀ c, (q.consumers c).active ≠ true := by
        intro c hc
        have := hall c hc
        have := h.tails c
        omega
      exact ⟨fun c hc => absurd hc (hnone c),Or.inr ⟨fun c => by simpa using hnone c,by omega⟩⟩
    · rintro ⟨-,⟨c,hc,hlt⟩ | ⟨-,hlt⟩⟩
      · have := hall c hc
        omega
      · omega
  · obtain ⟨c,hc,htail⟩ := least_attained q hm
    rw [result_of_ne hm,← htail]
    rw [← htail] at hall
    constructor
    · rintro ⟨hword,hroom⟩
      exact ⟨fun d hd => hroom.trans_le (by have := hall d hd; omega),Or.inl ⟨c,hc,hword⟩⟩
    · rintro ⟨hroom,⟨d,hd,hword⟩ | ⟨hnone,-⟩⟩
      · exact ⟨(Nat.add_le_add_right (hall d hd) _).trans_lt hword,hroom c hc⟩
      · rw [hnone c] at hc
        cases hc

end Scan

section Calls

theorem push_accepts (x : T) : (push S q x).2 = true ↔
    ¬Full S q ∨ ¬Full S { q with minTail := computeMinTail q } := by
  by_cases hfull : Full S q
  · rw [push_full hfull,pushChecked]
    split_ifs with hstill <;> simp [hfull,hstill]
  · simp [push_room hfull,hfull]

theorem orderly_new : Orderly (Queue.new : Queue T) where
  below := Nat.two_pow_pos 64
  tails _ := le_rfl
  cached := le_rfl
  published _ := Or.inl rfl

theorem orderly_minTail (h : Orderly q) {b : ℕ} (hb : b ≤ q.head) :
    Orderly { q with minTail := b } := ⟨h.below,h.tails,hb,h.published⟩

theorem orderly_consumer (h : Orderly q) (c : ConsumerId) {i : ConsumerInfo}
    (hi : i.tail ≤ q.head) : Orderly (q.setConsumer c i) where
  below := h.below
  tails d := by
    rw [setConsumer_consumers]
    split_ifs
    · exact hi
    · exact h.tails d
  cached := h.cached
  published := h.published

theorem orderly_enqueue (h : Orderly q) (hroom : ¬Full S q) (x : T) : Orderly (enqueue S q x) := by
  obtain ⟨hword,hlt⟩ := (not_full_cached h).mp hroom
  have hnext : u64 (q.head+1) = q.head+1 := u64_of_lt (by omega)
  have hhead : (enqueue S q x).head = q.head+1 := hnext
  refine ⟨?_,fun c => ?_,?_,fun i => ?_⟩
  · rw [hhead]
    omega
  · rw [hhead]
    exact (h.tails c).trans (Nat.le_succ _)
  · rw [hhead]
    exact h.cached.trans (Nat.le_succ _)
  · rw [hhead]
    simp only [enqueue,deposit,setSlot_slots]
    split_ifs
    · exact Or.inr (Nat.lt_succ_self _)
    · exact (h.published i).imp_right fun hi => hi.trans (Nat.lt_succ_self _)

theorem orderly_push (h : Orderly q) (x : T) : Orderly (push S q x).1 := by
  by_cases hfull : Full S q
  · have hmin := orderly_minTail h (computeMinTail_le h)
    rw [push_full hfull,pushChecked]
    split_ifs with hstill
    · exact hmin
    · exact orderly_enqueue hmin hstill x
  · rw [push_room hfull]
    exact orderly_enqueue h hfull x

/-- A consumer that finds its slot published stands behind the head, or at the
last position, from which it goes on to the first. -/
theorem orderly_pop (h : Orderly q) (c : ConsumerId) : Orderly (pop S q c).1 := by
  unfold pop popAt
  dsimp only
  split_ifs with hactive hready
  · refine orderly_consumer h c ?_
    have hbelow := h.below
    have htail := h.tails c
    rcases h.published (S.index (q.consumers c).tail) with hseq | hseq
    · rw [hready] at hseq
      rw [hseq]
      exact Nat.zero_le _
    · rw [hready] at hseq
      exact (u64_le _).trans hseq
  · exact h
  · exact h

theorem orderly_register (h : Orderly q) : Orderly (registerConsumer q).1 := by
  have hcount : Orderly { q with numConsumers := u32 (q.numConsumers+1) } :=
    ⟨h.below,h.tails,h.cached,h.published⟩
  unfold registerConsumer
  dsimp only
  split_ifs with hi
  · have htail := orderly_consumer hcount ⟨q.numConsumers,hi⟩
      (i := { q.consumers ⟨q.numConsumers,hi⟩ with tail := q.head }) le_rfl
    exact orderly_consumer htail _ (htail.tails _)
  · exact hcount

theorem unregister_active (q : Queue T) (c d : ConsumerId) :
    ((unregisterConsumer q c).consumers d).active = true ↔
      d ≠ c ∧ (q.consumers d).active = true := by
  simp only [unregisterConsumer,setConsumer_consumers]
  split_ifs with h <;> simp [h]

theorem unregister_tail (q : Queue T) (c d : ConsumerId) :
    ((unregisterConsumer q c).consumers d).tail = (q.consumers d).tail := by
  simp only [unregisterConsumer,setConsumer_consumers]
  split_ifs with h
  · rw [h]
  · rfl

theorem unregister_head (q : Queue T) (c : ConsumerId) :
    (unregisterConsumer q c).head = q.head := rfl

theorem orderly_unregister (h : Orderly q) (c : ConsumerId) : Orderly (unregisterConsumer q c) :=
  orderly_consumer h c (h.tails c)

theorem orderly_perform (h : Orderly q) (op : Op T) : Orderly (perform S q op).1 := by
  cases op with
  | push x => exact orderly_push h x
  | pop c => exact orderly_pop h c
  | registerConsumer => exact orderly_register h
  | unregisterConsumer c => exact orderly_unregister h c
  | recomputeAndStoreMinTail => exact orderly_minTail h (computeMinTail_le h)

theorem run_orderly (S : RingSize) (ops : List (Op T)) : Orderly (runCalls S .new ops).1 := by
  induction ops using List.reverseRecOn with
  | nil => exact orderly_new
  | append_singleton ops op ih =>
    rw [runCalls_snoc]
    exact orderly_perform ih op

end Calls

/-- A push that succeeds succeeds as well after consumer `c` has left if and only
if the ring has room under the cached minimum, or another consumer is active
whose tail is not within a lap of the wrap. -/
theorem room_kept_iff (S : RingSize) (ops : List (Op T)) (c : ConsumerId) (x : T) :
    let q := (runCalls S .new ops).1
    (push S q x).2 = true →
      ((push S (unregisterConsumer q c) x).2 = true ↔
        ¬Full S q ∨ ∃ d, d ≠ c ∧ (q.consumers d).active = true ∧
          (q.consumers d).tail+S.size < 2^64) := by
  intro q hpush
  have h : Orderly q := run_orderly S ops
  have hleft := orderly_unregister h c
  have hsize := size_le S
  rw [push_accepts] at hpush ⊢
  -- the cached minimum and the head stay, so that only the scan can differ
  refine or_congr_right' fun hfull => ?_
  have hfull : Full S q := not_not.mp hfull
  have hroom := hpush.resolve_left (not_not.mpr hfull)
  rw [not_full h (computeMinTail_le h),room_scan h] at hroom
  rw [not_full hleft (computeMinTail_le hleft),room_scan hleft]
  simp only [unregister_active,unregister_tail,unregister_head]
  constructor
  · rintro ⟨-,⟨d,⟨hd,hactive⟩,hword⟩ | ⟨-,hlap⟩⟩
    · exact ⟨d,hd,hactive,hword⟩
    · -- in the first lap the cached minimum leaves room already
      have hcached := h.cached
      exact absurd hfull ((not_full_cached h).mpr ⟨by omega,by omega⟩)
  · rintro ⟨d,hd,hactive,hword⟩
    exact ⟨fun e he => hroom.1 e he.2,Or.inl ⟨d,⟨hd,hactive⟩,hword⟩⟩

/-- Two consumers, a full ring, one item read by both: when the first consumer
leaves, the second keeps the room. -/
theorem room_kept_second :
    let q := (runCalls ring16 (.new : Queue ℕ) (.registerConsumer::.registerConsumer::
      List.replicate 16 (.push 7)++[.pop 0,.pop 1])).1
    Full ring16 q ∧ (push ring16 (unregisterConsumer q 0) 7).2 = true := by
  intro q
  have hpush : (push ring16 q 7).2 = true := by decide +kernel
  refine ⟨by decide +kernel,?_⟩
  exact (room_kept_iff ring16 _ 0 7 hpush).mpr (Or.inr ⟨1,by decide,by decide +kernel⟩)

/-- One consumer that has read every item of a full ring leaves: a push that had
room before is rejected. -/
theorem room_lost :
    let q := (runCalls ring16 (.new : Queue ℕ) (.registerConsumer::
      List.replicate 16 (.push 7)++List.replicate 16 (.pop 0))).1
    (q.consumers 0).active = true ∧ (push ring16 q 7).2 = true ∧
      (push ring16 (unregisterConsumer q 0) 7).2 = false := by
  decide +kernel

def observed (q : Queue T) : ℕ × (ConsumerId → ConsumerInfo) × ℕ :=
  (q.numConsumers,q.consumers,q.head)

/-- A registration throws only when every id is held, and then changes nothing;
otherwise it gives an id that nobody holds. -/
def Faithful (q : Queue T) : Prop :=
  match registerConsumer q with
  | (q',.error _) => (∀ c, (q.consumers c).active = true) ∧ observed q' = observed q
  | (_,.ok c) => (q.consumers c).active = false

section Ids

theorem register_throws (h : maxConsumers ≤ q.numConsumers) : registerConsumer q =
    ({ q with numConsumers := u32 (q.numConsumers+1) },.error tooManyConsumers) :=
  dif_neg (not_lt.mpr h)

theorem register_gives (h : q.numConsumers < maxConsumers) :
    (registerConsumer q).2 = .ok ⟨q.numConsumers,h⟩ := by
  simp only [registerConsumer,dif_pos h]

theorem register_counts (q : Queue T) :
    (registerConsumer q).1.numConsumers = u32 (q.numConsumers+1) := by
  unfold registerConsumer
  dsimp only
  split_ifs <;> rfl

theorem register_active {c : ConsumerId}
    (hc : ((registerConsumer q).1.consumers c).active = true) :
    c.val = q.numConsumers ∨ (q.consumers c).active = true := by
  unfold registerConsumer at hc
  dsimp only at hc
  split_ifs at hc with hi
  · by_cases h : c = ⟨q.numConsumers,hi⟩
    · exact Or.inl (congrArg Fin.val h)
    · simp only [enter,raise,setConsumer_consumers,if_neg h] at hc
      exact Or.inr hc
  · exact Or.inr hc

theorem push_consumers (x : T) : (push S q x).1.consumers = q.consumers ∧
    (push S q x).1.numConsumers = q.numConsumers := by
  by_cases h : Full S q
  · rw [push_full h,pushChecked]
    split_ifs <;> exact ⟨rfl,rfl⟩
  · rw [push_room h]
    exact ⟨rfl,rfl⟩

theorem pop_active (c d : ConsumerId) :
    ((pop S q c).1.consumers d).active = (q.consumers d).active ∧
      (pop S q c).1.numConsumers = q.numConsumers := by
  unfold pop popAt
  dsimp only
  split_ifs with h hready
  · refine ⟨?_,rfl⟩
    rw [setConsumer_consumers]
    split_ifs with hd
    · rw [hd]
    · rfl
  · exact ⟨rfl,rfl⟩
  · exact ⟨rfl,rfl⟩

theorem perform_ids (S : RingSize) (q : Queue T) (op : Op T) :
    (perform S q op).1.numConsumers =
      (if isRegister op then u32 (q.numConsumers+1) else q.numConsumers) ∧
    ∀ c, ((perform S q op).1.consumers c).active = true →
      isRegister op = true ∧ c.val = q.numConsumers ∨ (q.consumers c).active = true := by
  cases op with
  | push x =>
    obtain ⟨hcs,hn⟩ := push_consumers (S := S) (q := q) x
    exact ⟨hn,fun c h => Or.inr (congrFun hcs c ▸ h)⟩
  | pop d =>
    exact ⟨(pop_active d d).2,fun c h => Or.inr ((pop_active d c).1 ▸ h)⟩
  | registerConsumer =>
    exact ⟨register_counts q,fun c h => (register_active h).imp_left fun hc => ⟨rfl,hc⟩⟩
  | unregisterConsumer d =>
    exact ⟨rfl,fun c h => Or.inr ((unregister_active q d c).mp h).2⟩
  | recomputeAndStoreMinTail => exact ⟨rfl,fun c h => Or.inr h⟩

/-- The counter is the number of registrations, as a word, and every active
consumer has one of the tickets given out. -/
theorem run_ids (S : RingSize) (ops : List (Op T)) :
    (runCalls S .new ops).1.numConsumers = u32 (ops.countP isRegister) ∧
    ∀ c, ((runCalls S .new ops).1.consumers c).active = true → c.val < ops.countP isRegister := by
  induction ops using List.reverseRecOn with
  | nil => exact ⟨rfl,fun c h => by simp [runCalls,Queue.new,Queue.registered] at h⟩
  | append_singleton ops op ih =>
    obtain ⟨hcount,hactive⟩ := perform_ids S (runCalls S .new ops).1 op
    rw [ih.1] at hcount hactive
    rw [runCalls_snoc,List.countP_append,List.countP_singleton]
    refine ⟨hcount.trans ?_,fun c hc => ?_⟩
    · split_ifs
      · exact Nat.mod_add_mod _ _ _
      · rfl
    · rcases hactive c hc with ⟨hreg,hticket⟩ | hold
      · rw [hticket,if_pos hreg]
        exact Nat.lt_succ_of_le (Nat.mod_le _ _)
      · exact (ih.2 c hold).trans_le (Nat.le_add_right _ _)

theorem faithful_below (S : RingSize) (ops : List (Op T))
    (h : ops.countP isRegister < maxConsumers) : Faithful (runCalls S .new ops).1 := by
  obtain ⟨hcount,hactive⟩ := run_ids S ops
  generalize (runCalls S .new ops).1 = q at hcount hactive
  have hword : q.numConsumers = ops.countP isRegister :=
    hcount.trans (u32_of_lt (h.trans (by decide)))
  have hlt : q.numConsumers < maxConsumers := hword ▸ h
  have hgives := register_gives hlt
  unfold Faithful
  split
  · rename_i hr
    rw [hr] at hgives
    cases hgives
  · rename_i hr
    rw [hr] at hgives
    cases hgives
    by_contra hc
    have := hactive ⟨q.numConsumers,hlt⟩ (by simpa using hc)
    dsimp only at this
    omega

/-- With all tickets given out the counter moves on with each exception. -/
theorem unfaithful_at (S : RingSize) (ops : List (Op T))
    (h : ops.countP isRegister = maxConsumers) : ¬Faithful (runCalls S .new ops).1 := by
  have hcount := (run_ids S ops).1
  generalize (runCalls S .new ops).1 = q at hcount
  rw [h] at hcount
  have hthrows := register_throws (q := q) (le_of_eq hcount.symm)
  intro hf
  unfold Faithful at hf
  rw [hthrows] at hf
  have hsame := congrArg Prod.fst hf.2
  simp only [observed,hcount] at hsame
  exact absurd hsame (by decide)

theorem register_reached (ops : List (Op T)) {k : ℕ} (h : k < ops.countP isRegister) :
    ∃ pre post, ops = pre++.registerConsumer::post ∧ pre.countP isRegister = k := by
  induction ops using List.reverseRecOn with
  | nil => simp at h
  | append_singleton ops op ih =>
    by_cases hk : k < ops.countP isRegister
    · obtain ⟨pre,post,rfl,hpre⟩ := ih hk
      exact ⟨pre,post++[op],by simp,hpre⟩
    · rw [List.countP_append,List.countP_singleton] at h
      have hreg : isRegister op = true := by
        by_contra hno
        rw [if_neg hno] at h
        omega
      rw [if_pos hreg] at h
      obtain rfl : op = .registerConsumer := by
        cases op <;> first | rfl | cases hreg
      exact ⟨ops,[],rfl,by omega⟩

end Ids

/-- Every registration of a sequence of calls is faithful if and only if the
sequence has at most 32 of them. -/
theorem ids_faithful_iff (S : RingSize) (ops : List (Op T)) :
    (∀ pre post, ops = pre++.registerConsumer::post → Faithful (runCalls S .new pre).1) ↔
      ops.countP isRegister ≤ maxConsumers := by
  constructor
  · intro h
    by_contra hmany
    obtain ⟨pre,post,hops,hpre⟩ := register_reached ops (not_le.mp hmany)
    exact unfaithful_at S pre hpre (h pre post hops)
  · rintro hfew pre post rfl
    rw [List.countP_append,List.countP_cons_of_pos rfl] at hfew
    exact faithful_below S pre (by omega)

/-- After 32 registrations consumer 0 has left: a further registration throws all
the same, and 33 consumers are counted. -/
theorem registration_unfaithful :
    let q := (runCalls ring16 (.new : Queue ℕ)
      (List.replicate 32 .registerConsumer++[.unregisterConsumer 0])).1
    ¬Faithful q ∧ (q.consumers 0).active = false ∧
      (∃ e, (registerConsumer q).2 = .error e) ∧ q.numConsumers = 32 ∧
      (registerConsumer q).1.numConsumers = 33 := by
  intro q
  have hinactive : (q.consumers 0).active = false := by decide +kernel
  have hn : q.numConsumers = 32 := by decide +kernel
  clear_value q
  have hthrows := register_throws (q := q) (le_of_eq hn.symm)
  refine ⟨fun hf => ?_,hinactive,⟨_,congrArg Prod.snd hthrows⟩,hn,?_⟩
  · unfold Faithful at hf
    rw [hthrows] at hf
    have hactive := hf.1 0
    rw [hinactive] at hactive
    cases hactive
  · rw [register_counts,hn]
    rfl

end MpmcLogger.QueueMembership
