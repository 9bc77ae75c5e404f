import MpmcLogger.QueueInvariant

/-!
# The registration phase

Consumers are registered before the first push, possibly by several threads at
once; those that have registered may already poll, leave again and recompute the
minimum. However these calls interleave, nothing moves but the tickets and the
flags: a queue on which no call but a poll or a leave is in progress is then as
good as new.
-/

set_option autoImplicit false

namespace MpmcLogger.QueueSetup
open Interleaving CopiedCell RingIndex MachineWord MpmcLogger.QueueMachine MpmcLogger.QueueHistory
open MpmcLogger.QueueInvariant

variable {T : Type*}

/-- The guard of the registration phase: nothing is pushed yet. -/
def Registering (own : ConsumerId → ℕ) : Guard ℕ (Move T) (Queue T) (Local T) :=
  fun _ t m => OwnedMove own t m ∧ ∀ x, m ≠ .call (.push x)

def Enrolling : Local T → Prop
  | .idle | .popLoadActive _ | .popLoadTail _ | .unregisterStoreActive _ | .registerFetchAdd
  | .registerLoadHead _ | .registerStoreActive _ => True
  | .registerStoreTail _ k | .popLoadSequence _ k | .storeMinTail .recompute k => k = 0
  | .scanActive .recompute _ ms | .scanTail .recompute _ ms => ms.result = 0
  | _ => False

structure Fresh (q : Queue T) (tr : List (Event T)) : Prop where
  claims : claims tr = []
  head : q.head = 0
  minTail : q.minTail = 0
  slots : q.slots = fun _ => ⟨invalidPos,Cell.empty⟩
  tails : ∀ d, (q.consumers d).tail = 0

theorem lower_zero (ms : Mins) (i : ℕ) : (ms.lower i 0).result = 0 := by
  have hzero : (ms.lower i 0).least = 0 := by
    unfold Mins.lower Mins.least
    split <;> simp
  simp [Mins.result,hzero]

section Steps

variable {S : RingSize} {t : ℕ} {q q' : Queue T} {tr es : List (Event T)} {l l' : Local T}
  {m : Move T}

theorem fresh_same (hf : Fresh q tr) (hc : QueueHistory.claims es = []) : Fresh q (tr++es) :=
  ⟨by rw [claims_append,hf.claims,hc]; rfl,hf.head,hf.minTail,hf.slots,hf.tails⟩

theorem fresh_flag (hf : Fresh q tr) (hc : QueueHistory.claims es = []) (d : ConsumerId)
    (b : Bool) :
    Fresh (q.setConsumer d { q.consumers d with active := b }) (tr++es) :=
  ⟨by rw [claims_append,hf.claims,hc]; rfl,hf.head,hf.minTail,hf.slots,
    fun e => (setFlag_tail q d e b).trans (hf.tails e)⟩

theorem enrolling_step (hf : Fresh q tr) (hm : ∀ x, m ≠ .call (.push x)) (hl : Enrolling l)
    (h : Step S t m q l q' l' es) : Fresh q' (tr++es) ∧ Enrolling l' := by
  cases h with
  | call q op =>
    refine ⟨fresh_same hf rfl,?_⟩
    cases op with
    | push x => exact absurd rfl (hm x)
    | recomputeAndStoreMinTail => exact rfl
    | _ => trivial
  | sawActive q k i ms hi active => cases k <;> exact ⟨fresh_same hf rfl,hl⟩
  | sawInactive q k i ms hi inactive => cases k <;> exact ⟨fresh_same hf rfl,hl⟩
  | readTail q k d ms =>
    refine ⟨fresh_same hf rfl,?_⟩
    rw [hf.tails d]
    cases k with
    | push x h old => exact hl
    | recompute => exact lower_zero ms d
  | scanChanged q k i ms hi => cases k <;> exact ⟨fresh_same hf rfl,hl⟩
  | storeRecompute q new =>
    obtain rfl : new = 0 := hl
    have hclaims : QueueHistory.claims (tr++[.recomputed t]) = [] := by
      rw [claims_append,hf.claims]
      rfl
    exact ⟨⟨hclaims,hf.head,rfl,hf.slots,hf.tails⟩,trivial⟩
  | popActive q d active => exact ⟨fresh_same hf rfl,trivial⟩
  | popInactive q d inactive => exact ⟨fresh_same hf rfl,trivial⟩
  | popTail q d => exact ⟨fresh_same hf rfl,hf.tails d⟩
  | popReady q d tail ready =>
    -- the slot still holds the marker
    obtain rfl : tail = 0 := hl
    rw [hf.slots] at ready
    cases ready
  | popNotReady q d tail notReady => exact ⟨fresh_same hf rfl,trivial⟩
  | unregister q d => exact ⟨fresh_flag hf rfl d false,trivial⟩
  | registerTicket q hi =>
    exact ⟨⟨by simpa using hf.claims,hf.head,hf.minTail,hf.slots,hf.tails⟩,trivial⟩
  | registerThrow q hi =>
    exact ⟨⟨by simpa using hf.claims,hf.head,hf.minTail,hf.slots,hf.tails⟩,trivial⟩
  | registerHead q d => exact ⟨fresh_same hf rfl,hf.head⟩
  | registerTail q d h =>
    obtain rfl : h = 0 := hl
    refine ⟨⟨by simpa using hf.claims,hf.head,hf.minTail,hf.slots,fun e => ?_⟩,trivial⟩
    by_cases he : e = d <;> simp [he,hf.tails]
  | registerActive q d => exact ⟨fresh_flag hf rfl d true,trivial⟩
  | _ => exact hl.elim

end Steps

variable {S : RingSize} {own : ConsumerId → ℕ} {c : Config T} {tr : List (Event T)}

theorem run_fresh (r : (machine T S).Run (Registering own) (Config.start 0) c tr) :
    Fresh c.shared tr ∧ ∀ t, Enrolling (c.locals t) := by
  induction r with
  | start => exact ⟨⟨rfl,rfl,rfl,rfl,fun _ => rfl⟩,fun _ => trivial⟩
  | @next c c' tr es t m r g h ih =>
    obtain ⟨q,l,ha,rfl⟩ := step_some h
    obtain ⟨hf,hl⟩ := enrolling_step ih.1 g.2 (ih.2 t) (act_step ha)
    exact ⟨hf,(Function.forall_update_iff _ fun _ l => Enrolling l).mpr ⟨hl,fun j _ => ih.2 j⟩⟩

theorem run_bounded (r : (machine T S).Run (Registering own) (Config.start 0) c tr)
    (hn : (tickets tr).length ≤ maxConsumers) : Bounded S 0 tr := by
  have hc := (run_fresh r).1.claims
  have hfits := S.fits
  refine ⟨?_,by omega⟩
  rw [hc]
  simp only [List.length_nil]
  omega

theorem registering_run (S : RingSize) (own : ConsumerId → ℕ) (n : ℕ) (hn : n ≤ maxConsumers) :
    ∃ tr : List (Event T),
      (machine T S).Run (Registering own) (Config.start 0) (Config.start n) tr ∧
      (tickets tr).length = n := by
  have hok : ∀ (c : Config T) m, Untouched c 0 → (∀ op, m = .call op → op = .registerConsumer) →
      Registering own c 0 m := by
    intro c m _ h
    cases m with
    | call op =>
      obtain rfl := h op rfl
      exact ⟨trivial,by simp⟩
    | go => exact ⟨trivial,by simp⟩
    | spurious => exact ⟨trivial,by simp⟩
  obtain ⟨tr,r,-,ht⟩ := setup_run (S := S) 0 n hn hok
  exact ⟨tr,r,ht⟩

/-- However the calls of at most 32 consumers interleave, once only polls and leaves
are in progress the queue is as good as new. -/
theorem registered_begun (r : (machine T S).Run (Registering own) (Config.start 0) c tr)
    (hwait : ∀ t, Waits (c.locals t)) (hn : (tickets tr).length ≤ maxConsumers) :
    Begun (tickets tr).length own c := by
  obtain ⟨hs,hg⟩ := run_sound begun_start (fun _ _ _ g => g.1) r (run_bounded r hn)
  obtain ⟨-,hhead,hmin,hslots,htails⟩ := (run_fresh r).1
  refine ⟨hhead,hmin,?_,htails,fun d hd => ?_,hslots,hwait,fun t => waits_ok (hwait t) (hg t).ok⟩
  · rw [hs.tickets_eq,Nat.zero_add]
  · rcases hs.active d hd with h | h
    · exact absurd h (Nat.not_lt_zero _)
    · have := (hs.registered d h).2
      omega

end MpmcLogger.QueueSetup
