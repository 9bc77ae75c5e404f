import MpmcLogger.QueueRelation

/-!
# One call at a time

A call that is not disturbed passes through its accesses to the answer of the
broadcast log, with consumers coming and going between the calls; a failed
compare-and-swap only repeats it. The accesses still to come are bounded, so a
call in progress can return.
-/

set_option autoImplicit false

namespace MpmcLogger.QueueSequential
open Interleaving CopiedCell RingIndex MachineWord BroadcastLog MpmcLogger.QueueMachine
open MpmcLogger.QueueHistory MpmcLogger.QueueInvariant MpmcLogger.QueueRelation

variable {T : Type*}

inductive Scans (q : Queue T) (a : Members T) : Op T → Caller T → Prop
  | push (x : T) (h : a.log.Attended) : Scans q a (.push x) (.push x q.head q.minTail)
  | recompute : Scans q a .recomputeAndStoreMinTail .recompute

inductive Midway (S : RingSize) (t : ℕ) (q : Queue T) (a : Members T) : Op T → Local T → Prop
  | loadHead (x : T) (r : Related S q a) (h : a.log.Attended) :
      Midway S t q a (.push x) (.pushLoadHead x)
  | loadMinTail (x : T) (r : Related S q a) (h : a.log.Attended) :
      Midway S t q a (.push x) (.pushLoadMinTail x q.head)
  | scan (op : Op T) (k : Caller T) (i : ℕ) (m : Mins) (r : Related S q a) (hk : Scans q a op k)
      (hm : Partial a i m) : Midway S t q a op (.scanActive k i m)
  | scanTail (op : Op T) (k : Caller T) (c : ConsumerId) (m : Mins) (r : Related S q a)
      (hk : Scans q a op k) (hc : (q.consumers c).active = true) (hm : Partial a c m) :
      Midway S t q a op (.scanTail k c m)
  | store (op : Op T) (k : Caller T) (new : ℕ) (r : Related S q a) (hk : Scans q a op k)
      (hle : new ≤ a.log.items.length) (hnew : ∀ c k, a.log.cursor c = some k → new ≤ k)
      (hslow : a.log.Attended → new = a.log.slowest) : Midway S t q a op (.storeMinTail k new)
  | cas (x : T) (r : Related S q a) (h : a.log.Attended) (room : a.log.Room S.size) :
      Midway S t q a (.push x) (.pushCas x q.head)
  | copyBegin (x : T) (k : ℕ) (hk : k = a.log.items.length) (room : a.log.Room S.size)
      (r : Tracks S q a (k+1) a.joined (· = S.index k))
      (hs : (q.slots (S.index k)).data.content.Settled) :
      Midway S t q a (.push x) (.pushCopyBegin x k)
  | copyEnd (x : T) (k : ℕ) (hk : k = a.log.items.length) (room : a.log.Room S.size)
      (r : Tracks S q a (k+1) a.joined (· = S.index k))
      (hs : (q.slots (S.index k)).data.content = .writing t) :
      Midway S t q a (.push x) (.pushCopyEnd x k)
  | publish (x : T) (k : ℕ) (hk : k = a.log.items.length) (room : a.log.Room S.size)
      (r : Tracks S q a (k+1) a.joined (· = S.index k))
      (hs : (q.slots (S.index k)).data.content = .whole x) :
      Midway S t q a (.push x) (.pushPublish x k)
  | popActive (c : ConsumerId) (r : Related S q a) : Midway S t q a (.pop c) (.popLoadActive c)
  | popTail (c : ConsumerId) (k : ℕ) (r : Related S q a) (hc : a.log.cursor c = some k) :
      Midway S t q a (.pop c) (.popLoadTail c)
  | popSequence (c : ConsumerId) (k : ℕ) (r : Related S q a) (hc : a.log.cursor c = some k) :
      Midway S t q a (.pop c) (.popLoadSequence c k)
  | popBegin (c : ConsumerId) (k : ℕ) (x : T) (r : Related S q a) (hc : a.log.cursor c = some k)
      (hx : a.log.items[k]? = some x) : Midway S t q a (.pop c) (.popCopyBegin c k)
  | popEnd (c : ConsumerId) (k : ℕ) (x : T) (r : Related S q a) (hc : a.log.cursor c = some k)
      (hx : a.log.items[k]? = some x) :
      Midway S t q a (.pop c) (.popCopyEnd c k (q.slots (S.index k)).data)
  | popStore (c : ConsumerId) (k : ℕ) (x : T) (r : Related S q a) (hc : a.log.cursor c = some k)
      (hx : a.log.items[k]? = some x) : Midway S t q a (.pop c) (.popStoreTail c k (some x))
  | ticket (r : Related S q a) (h : a.joined < maxConsumers) :
      Midway S t q a .registerConsumer .registerFetchAdd
  | loadTail (c : ConsumerId) (hc : c.val = a.joined)
      (r : Tracks S q a a.log.items.length (a.joined+1) fun _ => False) :
      Midway S t q a .registerConsumer (.registerLoadHead c)
  | storeTail (c : ConsumerId) (hc : c.val = a.joined)
      (r : Tracks S q a a.log.items.length (a.joined+1) fun _ => False) :
      Midway S t q a .registerConsumer (.registerStoreTail c a.log.items.length)
  | raise (c : ConsumerId) (hc : c.val = a.joined)
      (r : Tracks S q a a.log.items.length (a.joined+1) fun _ => False)
      (ht : (q.consumers c).tail = a.log.items.length) :
      Midway S t q a .registerConsumer (.registerStoreActive c)
  | lower (c : ConsumerId) (r : Related S q a) :
      Midway S t q a (.unregisterConsumer c) (.unregisterStoreActive c)

section Steps

variable {S : RingSize} {t : ℕ} {q q' : Queue T} {a : Members T} {op : Op T} {l l' : Local T}
  {m : Move T} {es : List (Event T)}

theorem respond_room {x : T} (h : a.log.Room S.size) :
    respond S a (.push x) = ({ a with log := a.log.append x },.pushed true) := if_pos h

theorem respond_full {x : T} (h : ¬a.log.Room S.size) :
    respond S a (.push x) = (a,.pushed false) := if_neg h

theorem respond_next {c : ConsumerId} {x : T} (h : a.log.next c = some x) :
    respond S a (.pop c) = ({ a with log := a.log.advance c },.popped (some x)) := by
  simp [respond,h]

theorem respond_none {c : ConsumerId} (h : a.log.next c = none) :
    respond S a (.pop c) = (a,.empty) := by
  simp [respond,h]

theorem respond_register {c : ConsumerId} (hc : c.val = a.joined) :
    respond S a .registerConsumer = (⟨a.log.join c,a.joined+1⟩,.registered c) := by
  have hlt : a.joined < maxConsumers := hc ▸ c.isLt
  have heq : (⟨a.joined,hlt⟩ : ConsumerId) = c := Fin.ext hc.symm
  simp [respond,hlt,heq]

inductive Outcome (S : RingSize) (t : ℕ) (q : Queue T) (a : Members T) (op : Op T) (l : Local T)
    (es : List (Event T)) : Prop
  | more (h : Midway S t q a op l) (ha : answers es = [])
  | done (h : Related S q (respond S a op).1) (hl : l = .idle)
      (ha : answers es = [(respond S a op).2])

theorem done_respond {b : Members T} {ans : Answer T} (he : respond S a op = (b,ans))
    (r : Related S q b) (ha : answers es = [ans]) : Outcome S t q a op .idle es := by
  apply Outcome.done _ rfl _
  · rw [he]
    exact r
  · rw [he]
    exact ha

theorem full_outcome {x : T} (r : Related S q a) (h : ¬a.log.Room S.size) :
    Outcome S t q a (.push x) .idle [.rejected t x] := done_respond (respond_full h) r rfl

/-- The check of a push against the slowest reader. -/
theorem slowest_checked {b : ℕ} (r : Related S q a) (hb : Below S a) (hat : a.log.Attended)
    (hle : b ≤ a.log.items.length) (hslow : b = a.log.slowest) :
    (q.head < u64 (b+S.size) → a.log.Room S.size) ∧
    (u64 (b+S.size) ≤ q.head → ¬a.log.Room S.size) := by
  rw [full_check hb hle,r.head,hslow]
  exact ⟨fun h => room_of_lt hat (fun c k hc => slowest_le hc) h,full_of_le⟩

theorem scan_step {k : Caller T} {i : ℕ} {ms : Mins} (hb : Below S a) (r : Related S q a)
    (hk : Scans q a op k) (hm : Partial a i ms) (hs : Step S t m q (.scanActive k i ms) q' l' es) :
    Outcome S t q' a op l' es := by
  cases hs with
  | sawActive q k i ms hi active => exact .more (.scanTail op k ⟨i,hi⟩ ms r hk active hm) rfl
  | sawInactive q k i ms hi inactive =>
    exact .more (.scan op k (i+1) ms r hk (partial_skip hm hi (inactive_absent r inactive))) rfl
  | scanChanged q k i ms hi =>
    obtain ⟨hle,hall,hslow⟩ := scan_result r hb hm hi
    exact .more (.store op k ms.result r hk hle hall hslow) rfl
  | scanRoom q x h i ms hi room =>
    obtain ⟨hle,-,hslow⟩ := scan_result r hb hm hi
    generalize ms.result = b at hk hle hslow room
    cases hk with
    | push x hat =>
      have hroom := (slowest_checked r hb hat hle (hslow hat)).1 room
      exact .more (.cas x r hat hroom) rfl
  | scanFull q x h i ms hi full =>
    obtain ⟨hle,-,hslow⟩ := scan_result r hb hm hi
    generalize ms.result = b at hk hle hslow full
    cases hk with
    | push x hat =>
      exact full_outcome r ((slowest_checked r hb hat hle (hslow hat)).2 full)

theorem store_step {k : Caller T} {b : ℕ} (hb : Below S a) (r : Related S q a)
    (hk : Scans q a op k) (hle : b ≤ a.log.items.length)
    (hall : ∀ c k, a.log.cursor c = some k → b ≤ k) (hslow : a.log.Attended → b = a.log.slowest)
    (hs : Step S t m q (.storeMinTail k b) q' l' es) : Outcome S t q' a op l' es := by
  have r' := related_minTail r hle hall
  cases hs with
  | storeRoom q x h old new room =>
    cases hk with
    | push x hat =>
      have hroom := (slowest_checked r hb hat hle (hslow hat)).1 room
      exact .more (.cas x r' hat hroom) rfl
  | storeFull q x h old new full =>
    cases hk with
    | push x hat =>
      exact full_outcome r' ((slowest_checked r hb hat hle (hslow hat)).2 full)
  | storeRecompute q new =>
    cases hk
    exact .done r' rfl rfl

theorem midway_step (hb : Below S a) (h : Midway S t q a op l) (hs : Step S t m q l q' l' es) :
    Outcome S t q' a op l' es := by
  cases h with
  | loadHead x r hat =>
    cases hs
    exact .more (.loadMinTail x r hat) rfl
  | loadMinTail x r hat =>
    cases hs with
    | needScan q x h full =>
      exact .more (.scan _ _ 0 .start r (.push x hat) (partial_start a)) rfl
    | hasRoom q x h room =>
      rw [full_check hb r.cached.1,r.head] at room
      exact .more (.cas x r hat (room_of_lt hat r.cached.2 room)) rfl
  | scan op k i ms r hk hm => exact scan_step hb r hk hm hs
  | scanTail op k c ms r hk hc hm =>
    cases hs with
    | readTail q k c ms =>
      obtain ⟨p,hp⟩ := (active_iff r c).mp hc
      have htail : (q.consumers c).tail = p := by rw [(r.present c p hp).1]
      rw [htail]
      exact .more (.scan op k (c+1) _ r hk (partial_lower hm hp)) rfl
  | store op k b r hk hle hall hslow => exact store_step hb r hk hle hall hslow hs
  | cas x r hat room =>
    cases hs with
    | casWin q x =>
      have hslot := (next_slot r hb).2
      rw [r.head]
      exact .more (.copyBegin x _ rfl room (r.head ▸ tracks_claim r hb) hslot) rfl
    | casLose q x h hne => exact absurd rfl hne
    | casSpurious q x h => exact .more (.loadHead x r hat) rfl
  | copyBegin x k hk room r hset =>
    cases hs with
    | copyBegin q x h =>
      have hcell := beginWrite_settled t _ hset
      refine .more (.copyEnd x k hk room (tracks_setSlot r _) ?_) rfl
      rw [setSlot_slots,if_pos rfl]
      exact hcell
  | copyEnd x k hk room r hw =>
    cases hs with
    | copyEnd q x h =>
      have hcell := endWrite_own t x _ hw
      refine .more (.publish x k hk room (tracks_setSlot r _) ?_) rfl
      rw [setSlot_slots,if_pos rfl]
      exact hcell
  | publish x k hk room r hw =>
    cases hs with
    | publish q x h =>
      subst hk
      exact done_respond (respond_room room) (related_publish room r hw) rfl
  | popActive c r =>
    cases hs with
    | popActive q c active =>
      obtain ⟨k,hk⟩ := (active_iff r c).mp active
      exact .more (.popTail c k r hk) rfl
    | popInactive q c inactive =>
      exact done_respond (respond_none (next_eq_none (inactive_absent r inactive))) r rfl
  | popTail c k r hc =>
    cases hs with
    | popTail q c =>
      rw [(r.present c k hc).1]
      exact .more (.popSequence c k r hc) rfl
  | popSequence c k r hc =>
    cases hs with
    | popReady q c tail ready =>
      obtain ⟨x,hx⟩ := (tail_slot r hb hc).mp ready
      exact .more (.popBegin c k x r hc hx) rfl
    | popNotReady q c tail notReady =>
      have hnone : a.log.items[k]? = none := by
        by_contra hne
        exact notReady ((tail_slot r hb hc).mpr (Option.ne_none_iff_exists'.mp hne))
      exact done_respond (respond_none ((next_eq_some hc).trans hnone)) r rfl
  | popBegin c k x r hc hx =>
    cases hs with
    | popBegin q c tail => exact .more (.popEnd c k x r hc hx) rfl
  | popEnd c k x r hc hx =>
    cases hs with
    | popEnd q c tail before =>
      have hcell := (r.filled k x hx (r.capped c k hc).2 not_false).2
      rw [read_unchanged _ x hcell]
      exact .more (.popStore c k x r hc hx) rfl
  | popStore c k x r hc hx =>
    cases hs with
    | popDone q c tail x =>
      have he := respond_next (S := S) ((next_eq_some hc).trans hx)
      exact done_respond he (related_advance r hb hc hx) rfl
  | ticket r hlt =>
    have htickets := r.tickets
    cases hs with
    | registerTicket q hi =>
      refine .more (.loadTail ⟨q.numConsumers,hi⟩ htickets ?_) rfl
      have hu : u32 (q.numConsumers+1) = a.joined+1 := by
        rw [htickets]
        unfold maxConsumers at hlt
        exact u32_of_lt (by omega)
      exact ⟨r.head,hu,r.present,r.absent,r.capped,r.cached,r.filled,r.blank⟩
    | registerThrow q hi => omega
  | loadTail c hc r =>
    cases hs with
    | registerHead q c =>
      rw [r.head]
      exact .more (.storeTail c hc r) rfl
  | storeTail c hc r =>
    cases hs with
    | registerTail q c h =>
      refine .more (.raise c hc (tracks_setTail r (newcomer_absent r hc) _) ?_) rfl
      rw [setConsumer_consumers,if_pos rfl]
  | raise c hc r ht =>
    cases hs with
    | registerActive q c =>
      exact done_respond (respond_register hc) (related_join hc r ht) rfl
  | lower c r =>
    cases hs with
    | unregister q c => exact .done (related_leave r) rfl rfl

theorem midway_busy (h : Midway S t q a op l) : l ≠ .idle := by
  rintro rfl
  cases h

theorem midway_entry (r : Related S q a) (hpush : ∀ x, op = .push x → a.log.Attended)
    (hreg : op = .registerConsumer → a.joined < maxConsumers) : Midway S t q a op op.entry := by
  cases op with
  | push x => exact .loadHead x r (hpush x rfl)
  | pop c => exact .popActive c r
  | registerConsumer => exact .ticket r (hreg rfl)
  | unregisterConsumer c => exact .lower c r
  | recomputeAndStoreMinTail => exact .scan _ _ 0 .start r .recompute (partial_start a)

theorem calls_step (hl : l ≠ .idle) (hs : Step S t m q l q' l' es) : calls es = [] := by
  cases hs with
  | call q op => exact absurd rfl hl
  | _ => rfl

theorem advance_total (S : RingSize) (t : ℕ) (q : Queue T) (hl : l ≠ .idle) :
    ∃ r, advance S t q l = some r := by
  cases l with
  | idle => exact absurd rfl hl
  | pushLoadMinTail | scanActive | pushCas | popLoadActive | popLoadSequence | registerFetchAdd =>
    simp only [advance]
    split_ifs <;> exact ⟨_,rfl⟩
  | _ => exact ⟨_,rfl⟩

def rank : Local T → ℕ
  | .idle => 0
  | .pushPublish .. | .popStoreTail .. | .registerStoreActive _ | .unregisterStoreActive _ => 1
  | .pushCopyEnd .. | .popCopyEnd .. | .registerStoreTail .. => 2
  | .pushCopyBegin .. | .popCopyBegin .. | .registerLoadHead _ => 3
  | .pushCas .. | .popLoadSequence .. | .registerFetchAdd => 4
  | .storeMinTail .. | .popLoadTail _ => 5
  | .scanActive _ i _ => 6+2*(maxConsumers-i)
  | .scanTail _ c _ => 5+2*(maxConsumers-c)
  | .popLoadActive _ => 6
  | .pushLoadMinTail .. => 7+2*maxConsumers
  | .pushLoadHead _ => 8+2*maxConsumers

theorem step_lowers (h : Step S t .go q l q' l' es)
    (hcas : ∀ x k, l = .pushCas x k → k = q.head) : rank l' < rank l := by
  cases h with
  | casLose q x k hne => exact absurd (hcas x k rfl).symm hne
  | sawActive q k i ms hi active =>
    simp only [rank]
    omega
  | sawInactive q k i ms hi inactive =>
    simp only [rank]
    omega
  | readTail q k c ms =>
    have := c.isLt
    simp only [rank]
    omega
  | scanChanged q k i ms hi =>
    simp only [rank]
    omega
  | scanRoom q x k i ms hi room =>
    simp only [rank]
    omega
  | hasRoom q x k room =>
    simp only [rank]
    omega
  | _ => simp [rank]

theorem midway_lowers (h : Midway S t q a op l) (hs : Step S t .go q l q' l' es) :
    rank l' < rank l := by
  refine step_lowers hs fun x k hl => ?_
  subst hl
  cases h
  rfl

end Steps

section Runs

variable {S : RingSize} {c c' : Config T} {tr es : List (Event T)}

def Sequentially : Guard ℕ (Move T) (Queue T) (Local T) := fun c _ m => ∀ op, m = .call op →
  (∀ u, c.locals u = .idle) ∧ ∀ x, op = .push x → ∃ d, (c.shared.consumers d).active = true

inductive Serial (S : RingSize) (c : Config T) (tr : List (Event T)) : Prop
  | between (r : Related S c.shared (replay S .start (calls tr)).1)
      (ha : answers tr = (replay S .start (calls tr)).2) (idle : ∀ t, c.locals t = .idle)
  | inside (t : ℕ) (ops : List (Op T)) (op : Op T) (hc : calls tr = ops++[op])
      (h : Midway S t c.shared (replay S .start ops).1 op (c.locals t))
      (ha : answers tr = (replay S .start ops).2) (others : ∀ u, u ≠ t → c.locals u = .idle)

theorem respond_counts (S : RingSize) (a : Members T) (op : Op T) :
    (respond S a op).1.log.items.length =
      a.log.items.length+[(respond S a op).2].countP isAccepted ∧
    (respond S a op).1.joined = a.joined+[op].countP isRegister := by
  cases op with
  | push x =>
    by_cases h : a.log.Room S.size
    · rw [respond_room h]
      simp [Log.append,isAccepted,isRegister]
    · rw [respond_full h]
      simp [isAccepted,isRegister]
  | pop d =>
    cases h : a.log.next d with
    | some x =>
      rw [respond_next h]
      simp [Log.advance,isAccepted,isRegister]
    | none =>
      rw [respond_none h]
      simp [isAccepted,isRegister]
  | registerConsumer =>
    simp only [respond]
    split_ifs <;> simp [Log.join,isAccepted,isRegister]
  | unregisterConsumer d => simp [respond,Log.leave,isAccepted,isRegister]
  | recomputeAndStoreMinTail => simp [respond,isAccepted,isRegister]

theorem replay_counts (S : RingSize) (ops : List (Op T)) :
    (replay S .start ops).1.log.items.length = (replay S .start ops).2.countP isAccepted ∧
    (replay S .start ops).1.joined = ops.countP isRegister := by
  induction ops using List.reverseRecOn with
  | nil => exact ⟨rfl,rfl⟩
  | append_singleton ops op ih =>
    obtain ⟨hitems,hjoined⟩ := respond_counts S (replay S .start ops).1 op
    rw [replay_snoc]
    simp only [List.countP_append]
    rw [hitems,hjoined,ih.1,ih.2]
    exact ⟨rfl,rfl⟩

def Modest (S : RingSize) (tr : List (Event T)) : Prop :=
  (calls tr).countP isRegister ≤ maxConsumers ∧ (answers tr).countP isAccepted+S.size < 2^64

theorem modest_earlier (h : Modest S (tr++es)) : Modest S tr := by
  obtain ⟨hreg,hpush⟩ := h
  rw [calls_append,List.countP_append] at hreg
  rw [answers_append,List.countP_append] at hpush
  exact ⟨by omega,by omega⟩

theorem replay_below (h : Modest S tr) {ops : List (Op T)}
    (ha : answers tr = (replay S .start ops).2) : Below S (replay S .start ops).1 := by
  unfold Below
  rw [(replay_counts S ops).1,← ha]
  exact h.2

theorem serial_call {t : ℕ} {op : Op T} (hb : Modest S (tr++[.called t op]))
    (r : Related S c.shared (replay S .start (calls tr)).1)
    (ha : answers tr = (replay S .start (calls tr)).2) (idle : ∀ u, c.locals u = .idle)
    (g : Sequentially c t (.call op)) :
    Serial S ⟨c.shared,Function.update c.locals t op.entry⟩ (tr++[.called t op]) := by
  have hcalls : calls (tr++[.called t op]) = calls tr++[op] := calls_append _ _
  have hanswers : answers (tr++[.called t op]) = answers tr := by
    rw [answers_append]
    exact List.append_nil _
  have hpush : ∀ x, op = .push x → (replay S .start (calls tr)).1.log.Attended := by
    intro x hx
    obtain ⟨d,hd⟩ := (g op rfl).2 x hx
    obtain ⟨k,hk⟩ := (active_iff r d).mp hd
    exact ⟨d,k,hk⟩
  have hreg : op = .registerConsumer → (replay S .start (calls tr)).1.joined < maxConsumers := by
    rintro rfl
    have hle := hb.1
    rw [hcalls,List.countP_append] at hle
    rw [(replay_counts S (calls tr)).2]
    exact Nat.lt_of_succ_le hle
  refine .inside t (calls tr) op hcalls ?_ (hanswers.trans ha) fun u hu => ?_
  · show Midway S t c.shared _ op (Function.update c.locals t op.entry t)
    rw [Function.update_self]
    exact midway_entry r hpush hreg
  · show Function.update c.locals t op.entry u = .idle
    rw [Function.update_of_ne hu]
    exact idle u

theorem serial_step {t : ℕ} {m : Move T} {q : Queue T} {l : Local T} (hb : Modest S (tr++es))
    (h : Serial S c tr) (g : Sequentially c t m)
    (hs : Step S t m c.shared (c.locals t) q l es) :
    Serial S ⟨q,Function.update c.locals t l⟩ (tr++es) := by
  cases h with
  | between r ha idle =>
    rw [idle t] at hs
    cases hs with
    | call q op => exact serial_call hb r ha idle g
  | inside u ops op hc h ha others =>
    have hbelow := replay_below (modest_earlier hb) ha
    by_cases htu : t = u
    · subst htu
      have hcalls : calls (tr++es) = ops++[op] := by
        rw [calls_append,calls_step (midway_busy h) hs,List.append_nil]
        exact hc
      have hothers : ∀ v, v ≠ t → Function.update c.locals t l v = .idle := by
        intro v hv
        rw [Function.update_of_ne hv]
        exact others v hv
      cases midway_step hbelow h hs with
      | more hm hnone =>
        refine .inside t ops op hcalls ?_ ?_ hothers
        · show Midway S t q _ op (Function.update c.locals t l t)
          rw [Function.update_self]
          exact hm
        · rw [answers_append,hnone,List.append_nil]
          exact ha
      | done hr hl hone =>
        have hreplay := replay_snoc S .start ops op
        refine .between ?_ ?_ fun v => ?_
        · rw [hcalls,hreplay]
          exact hr
        · rw [answers_append,hone,hcalls,hreplay,ha]
        · by_cases hv : v = t
          · subst hv
            show Function.update c.locals v l v = .idle
            rw [Function.update_self]
            exact hl
          · exact hothers v hv
    · rw [others t htu] at hs
      cases hs with
      | call q o => exact absurd ((g o rfl).1 u) (midway_busy h)

theorem run_serial (r : (machine T S).Run Sequentially (Config.start 0) c tr)
    (hb : Modest S tr) : Serial S c tr := by
  refine System.Run.bounded_induction (fun _ _ => modest_earlier) ?_ ?_ r hb
  · exact .between (related_start S) rfl fun _ => rfl
  · intro c tr t m q l es _ hb ih g ha
    exact serial_step hb ih g (act_step ha)

/-- A call that goes on alone returns. -/
theorem completes {ok : Guard ℕ (Move T) (Queue T) (Local T)} {t : ℕ} {a : Members T} {op : Op T}
    (hok : ∀ c, ok c t .go) (hb : Below S a) (c : Config T)
    (h : Midway S t c.shared a op (c.locals t)) :
    ∃ c' tr, (machine T S).Run ok c c' tr ∧ c'.locals t = .idle ∧
      ∀ u, u ≠ t → c'.locals u = c.locals u := by
  have hdone : ∃ c' tr, (machine T S).Run ok c c' tr ∧ (∀ e ∈ tr, call e = none) ∧
      c'.locals t = .idle ∧ ∀ u, u ≠ t → c'.locals u = c.locals u := by
    refine System.completes (M := machine T S) (P := fun q l => Midway S t q a op l)
      (Q := fun l => l = .idle) (R := fun e => call e = none) (w := rank) hok ?_ c h
    intro q l hm
    obtain ⟨⟨q',l',es⟩,hadv⟩ := advance_total S t q (midway_busy hm)
    have hstep := advance_step hadv
    refine ⟨q',l',es,hadv,List.filterMap_eq_nil_iff.mp (calls_step (midway_busy hm) hstep),?_⟩
    cases midway_step hb hm hstep with
    | more hm' _ => exact Or.inr ⟨hm',midway_lowers hm hstep⟩
    | done _ hl _ => exact Or.inl hl
  obtain ⟨c',tr,r,-,hidle,hothers⟩ := hdone
  exact ⟨c',tr,r,hidle,hothers⟩

end Runs

/-- Calls that do not overlap, with at most 32 registrations, an active consumer
at each push and fewer than 2^64-SIZE pushes that succeed: whenever no call is in
progress, every call has returned what the broadcast log answers; and a call in
progress can return. -/
theorem sequential_refinement (S : RingSize) (c : Config T) (tr : List (Event T))
    (r : (machine T S).Run Sequentially (Config.start 0) c tr) (hb : Modest S tr) :
    ((∀ t, c.locals t = .idle) → answers tr = (replay S .start (calls tr)).2) ∧
    ∃ c' tr', (machine T S).Run Sequentially c c' tr' ∧ ∀ t, c'.locals t = .idle := by
  cases run_serial r hb with
  | between _ ha idle => exact ⟨fun _ => ha,c,[],.start,idle⟩
  | inside t ops op hc h ha others =>
    constructor
    · exact fun idle => absurd (idle t) (midway_busy h)
    · have hok : ∀ d : Config T, Sequentially d t .go := by
        intro d o ho
        cases ho
      obtain ⟨c',tr',r',hidle,hc'⟩ := completes hok (replay_below hb ha) c h
      refine ⟨c',tr',r',fun u => ?_⟩
      by_cases hu : u = t
      · rw [hu]
        exact hidle
      · exact (hc' u hu).trans (others u hu)

def soloCheck (c : Config ℕ) (_ : ℕ) : Move ℕ → Bool
  | .call op => (c.locals 0 matches .idle) &&
      (!(op matches .push _) || (c.shared.consumers 0).active)
  | _ => true

theorem sequentially_of_check (c : Config ℕ) (m : Move ℕ)
    (hc : ∀ j, j ≠ 0 → c.locals j = .idle) (h : soloCheck c 0 m = true) : Sequentially c 0 m := by
  rintro op rfl
  obtain ⟨hidle,hactive⟩ := Bool.and_eq_true_iff.mp h
  constructor
  · intro u
    by_cases hu : u = 0
    · subst hu
      split at hidle
      · assumption
      · cases hidle
    · exact hc u hu
  · rintro x rfl
    exact ⟨0,by simpa using hactive⟩

/-- A consumer registers, an item is pushed and popped, a second pop finds none. -/
theorem sequential_refinement_item : ∃ tr : List (Event ℕ),
    calls tr = [.registerConsumer,.push 7,.pop 0,.pop 0] ∧
    answers tr = [.registered 0,.pushed true,.popped (some 7),.empty] ∧
    answers tr = (replay ring16 .start (calls tr)).2 := by
  let as : List (ℕ × Move ℕ) := callAlone 0 .registerConsumer 4++callAlone 0 (.push 7) 6++
    callAlone 0 (.pop 0) 6++callAlone 0 (.pop 0) 3
  have hv : ((machine ℕ ring16).exec soloCheck (Config.start 0) as).any (fun r =>
      (r.1.locals 0 matches .idle) && decide (
        calls r.2 = [.registerConsumer,.push 7,.pop 0,.pop 0] ∧
        answers r.2 = [.registered 0,.pushed true,.popped (some 7),.empty])) = true := by
    decide +kernel
  obtain ⟨⟨c,tr⟩,he,hp⟩ := (Option.any_eq_true _ _).mp hv
  obtain ⟨hidle,hp⟩ := Bool.and_eq_true_iff.mp hp
  obtain ⟨hcalls,hanswers⟩ := of_decide_eq_true hp
  have hone : ∀ a ∈ as, a.1 = 0 := by simp [as,callAlone]
  have r : (machine ℕ ring16).Run Sequentially (Config.start 0) c tr :=
    exec_alone sequentially_of_check as hone .start (fun _ _ => rfl) he
  have hb : Modest ring16 tr := by
    unfold Modest
    rw [hcalls,hanswers]
    decide
  refine ⟨tr,hcalls,hanswers,(sequential_refinement ring16 c tr r hb).1 fun u => ?_⟩
  by_cases hu : u = 0
  · subst hu
    split at hidle
    · assumption
    · cases hidle
  · exact exec_untouched as (fun a ha hau => hu (hau.symm.trans (hone a ha))) he

end MpmcLogger.QueueSequential
