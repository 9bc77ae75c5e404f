import MpmcLogger.QueueSequential

/-!
# The calls of the queue, one after another

Each operation as one function, for calls that do not overlap. The steps of the
machine refine them: whenever no call is in progress, the queue and the answers
of a run are those of its calls in order. Nothing is assumed of the words, which
may wrap.
-/

set_option autoImplicit false

namespace MpmcLogger.QueueCalls
open Interleaving CopiedCell RingIndex MachineWord MpmcLogger.QueueMachine MpmcLogger.QueueHistory
open MpmcLogger.QueueInvariant MpmcLogger.QueueRelation MpmcLogger.QueueSequential

variable {T : Type*}

def filledCell (x : T) (c : Cell ℕ T) : Cell ℕ T := ⟨.whole x,c.begun+1⟩

def look (q : Queue T) (m : Mins) (c : ConsumerId) : Mins :=
  if (q.consumers c).active then m.lower c (q.consumers c).tail else m

def computeMinTail (q : Queue T) : ℕ := ((List.finRange maxConsumers).foldl (look q) .start).result

def recomputeAndStoreMinTail (q : Queue T) : Queue T := { q with minTail := computeMinTail q }

def deposit (S : RingSize) (q : Queue T) (x : T) (h : ℕ) : Queue T :=
  q.setSlot (S.index h) ⟨h,filledCell x (q.slots (S.index h)).data⟩

def enqueue (S : RingSize) (q : Queue T) (x : T) : Queue T :=
  deposit S { q with head := u64 (q.head+1) } x q.head

def Full (S : RingSize) (q : Queue T) : Prop := u64 (q.minTail+S.size) ≤ q.head

instance (S : RingSize) (q : Queue T) : Decidable (Full S q) := inferInstanceAs (Decidable (_ ≤ _))

def pushChecked (S : RingSize) (q : Queue T) (x : T) : Queue T × Bool :=
  if Full S q then (q,false) else (enqueue S q x,true)

def push (S : RingSize) (q : Queue T) (x : T) : Queue T × Bool :=
  if Full S q then
    let newMin := computeMinTail q
    pushChecked S (if newMin ≠ q.minTail then { q with minTail := newMin } else q) x
  else (enqueue S q x,true)

def popAt (S : RingSize) (q : Queue T) (c : ConsumerId) (tail : ℕ) : Queue T × Option (Option T) :=
  let s := q.slots (S.index tail)
  if s.sequence = tail then
    (q.setConsumer c { q.consumers c with tail := u64 (tail+1) },some (s.data.read s.data))
  else (q,none)

def pop (S : RingSize) (q : Queue T) (c : ConsumerId) : Queue T × Option (Option T) :=
  if (q.consumers c).active then popAt S q c (q.consumers c).tail else (q,none)

def raise (q : Queue T) (c : ConsumerId) : Queue T :=
  q.setConsumer c { q.consumers c with active := true }

def enter (q : Queue T) (c : ConsumerId) (head : ℕ) : Queue T :=
  raise (q.setConsumer c { q.consumers c with tail := head }) c

def registerConsumer (q : Queue T) : Queue T × Except String ConsumerId :=
  let p := { q with numConsumers := u32 (q.numConsumers+1) }
  if hi : q.numConsumers < maxConsumers then
    (enter p ⟨q.numConsumers,hi⟩ p.head,.ok ⟨q.numConsumers,hi⟩)
  else (p,.error tooManyConsumers)

def unregisterConsumer (q : Queue T) (c : ConsumerId) : Queue T :=
  q.setConsumer c { q.consumers c with active := false }

def popAnswer (r : Queue T × Option (Option T)) : Queue T × Answer T :=
  (r.1,match r.2 with | some x => .popped x | none => .empty)

def registerAnswer (r : Queue T × Except String ConsumerId) : Queue T × Answer T :=
  (r.1,match r.2 with | .ok c => .registered c | .error _ => .threw)

def perform (S : RingSize) (q : Queue T) : Op T → Queue T × Answer T
  | .push x => ((push S q x).1,.pushed (push S q x).2)
  | .pop c => popAnswer (pop S q c)
  | .registerConsumer => registerAnswer (registerConsumer q)
  | .unregisterConsumer c => (unregisterConsumer q c,.unregistered)
  | .recomputeAndStoreMinTail => (recomputeAndStoreMinTail q,.recomputed)

def runCalls (S : RingSize) (q : Queue T) : List (Op T) → Queue T × List (Answer T)
  | [] => (q,[])
  | op::ops =>
    let r := perform S q op
    let rest := runCalls S r.1 ops
    (rest.1,r.2::rest.2)

theorem runCalls_append (S : RingSize) (q : Queue T) (ops ops' : List (Op T)) :
    runCalls S q (ops++ops') = ((runCalls S (runCalls S q ops).1 ops').1,
      (runCalls S q ops).2++(runCalls S (runCalls S q ops).1 ops').2) := by
  induction ops generalizing q with
  | nil => rfl
  | cons o ops ih => simp only [List.cons_append,runCalls,ih]

theorem runCalls_snoc (S : RingSize) (q : Queue T) (ops : List (Op T)) (op : Op T) :
    runCalls S q (ops++[op]) = ((perform S (runCalls S q ops).1 op).1,
      (runCalls S q ops).2++[(perform S (runCalls S q ops).1 op).2]) :=
  runCalls_append S q ops [op]

section Scan

theorem le_scan (q : Queue T) (cs : List ConsumerId) (m : Mins) (v : ℕ) :
    v ≤ (cs.foldl (look q) m).least ↔
      v ≤ m.least ∧ ∀ c ∈ cs, (q.consumers c).active = true → v ≤ (q.consumers c).tail := by
  induction cs generalizing m with
  | nil => simp
  | cons c cs ih =>
    rw [List.foldl_cons,ih,List.forall_mem_cons,← and_assoc]
    refine and_congr_left fun _ => ?_
    unfold look
    split_ifs with hc
    · rw [least_lower,le_min_iff]
      simp [hc]
    · simp [hc]

theorem le_least (q : Queue T) (v : ℕ) :
    v ≤ ((List.finRange maxConsumers).foldl (look q) .start).least ↔
      v ≤ invalidPos ∧ ∀ c, (q.consumers c).active = true → v ≤ (q.consumers c).tail := by
  rw [le_scan,least_start]
  simp

theorem least_attained (q : Queue T)
    (hm : ((List.finRange maxConsumers).foldl (look q) .start).least ≠ invalidPos) :
    ∃ c, (q.consumers c).active = true ∧
      (q.consumers c).tail = ((List.finRange maxConsumers).foldl (look q) .start).least := by
  have hleast := le_least q
  generalize ((List.finRange maxConsumers).foldl (look q) .start).least = v at hm hleast
  obtain ⟨hinv,hall⟩ := (hleast v).mp le_rfl
  by_contra hnone
  -- otherwise the next number would be a lower bound as well
  have hnext : v+1 ≤ v := (hleast (v+1)).mpr ⟨by omega,fun c hc =>
    (hall c hc).lt_of_ne fun heq => hnone ⟨c,hc,heq.symm⟩⟩
  omega

end Scan

section Steps

variable {S : RingSize} {t : ℕ} {q q' : Queue T} {l l' : Local T} {m : Move T}
  {es : List (Event T)}

def scanned (S : RingSize) (q : Queue T) : Caller T → ℕ → Queue T × Answer T
  | .push x _ _, newMin =>
    let r := pushChecked S (if newMin ≠ q.minTail then { q with minTail := newMin } else q) x
    (r.1,.pushed r.2)
  | .recompute, newMin => ({ q with minTail := newMin },.recomputed)

def scanRest (q : Queue T) (i : ℕ) (m : Mins) : ℕ :=
  (((List.finRange maxConsumers).drop i).foldl (look q) m).result

def finish (S : RingSize) (q : Queue T) : Local T → Option (Queue T × Answer T)
  | .idle => none
  | .pushLoadHead x | .pushLoadMinTail x _ => some (perform S q (.push x))
  | .scanActive k i m => some (scanned S q k (scanRest q i m))
  | .scanTail k c m => some (scanned S q k (scanRest q c m))
  | .storeMinTail k newMin => some (scanned S q k newMin)
  | .pushCas x _ => some (enqueue S q x,.pushed true)
  | .pushCopyBegin x h => some (deposit S q x h,.pushed true)
  | .pushCopyEnd x h =>
    some (q.setSlot (S.index h) ⟨h,⟨.whole x,(q.slots (S.index h)).data.begun⟩⟩,.pushed true)
  | .pushPublish _ h =>
    some (q.setSlot (S.index h) { q.slots (S.index h) with sequence := h },.pushed true)
  | .popLoadActive c => some (popAnswer (pop S q c))
  | .popLoadTail c => some (popAnswer (popAt S q c (q.consumers c).tail))
  | .popLoadSequence c tail => some (popAnswer (popAt S q c tail))
  | .popCopyBegin c tail =>
    let s := q.slots (S.index tail)
    some (q.setConsumer c { q.consumers c with tail := u64 (tail+1) },.popped (s.data.read s.data))
  | .popCopyEnd c tail before =>
    some (q.setConsumer c { q.consumers c with tail := u64 (tail+1) },
      .popped (before.read (q.slots (S.index tail)).data))
  | .popStoreTail c tail x =>
    some (q.setConsumer c { q.consumers c with tail := u64 (tail+1) },.popped x)
  | .registerFetchAdd => some (registerAnswer (registerConsumer q))
  | .registerLoadHead c => some (enter q c q.head,.registered c)
  | .registerStoreTail c head => some (enter q c head,.registered c)
  | .registerStoreActive c => some (raise q c,.registered c)
  | .unregisterStoreActive c => some (unregisterConsumer q c,.unregistered)

def Current (q : Queue T) : Caller T → Prop
  | .push _ h b => h = q.head ∧ b = q.minTail
  | .recompute => True

def Alone (S : RingSize) (t : ℕ) (q : Queue T) : Local T → Prop
  | .pushLoadMinTail _ h => h = q.head
  | .scanActive k _ _ => Current q k
  | .scanTail k c _ => Current q k ∧ (q.consumers c).active = true
  | .storeMinTail k _ => Current q k
  | .pushCas _ h => h = q.head ∧ ¬Full S q
  | .pushCopyEnd _ h => (q.slots (S.index h)).data.content = .writing t
  | _ => True

def Settled (S : RingSize) (q : Queue T) : Local T → Prop
  | .pushCopyEnd _ h => ∀ i, i ≠ S.index h → (q.slots i).data.content.Settled
  | _ => ∀ i, (q.slots i).data.content.Settled

theorem refreshed (q : Queue T) (b : ℕ) :
    (if b ≠ q.minTail then { q with minTail := b } else q) = { q with minTail := b } := by
  split_ifs with h
  · rfl
  · rw [not_not.mp h]

theorem push_room {x : T} (h : ¬Full S q) : push S q x = (enqueue S q x,true) := if_neg h

theorem push_full {x : T} (h : Full S q) :
    push S q x = pushChecked S { q with minTail := computeMinTail q } x := by
  simp only [push,if_pos h,refreshed]

theorem push_scanned {x : T} (h : Full S q) (i : ℕ) (b : ℕ) : perform S q (.push x) =
    scanned S q (.push x i b) (computeMinTail q) := by
  simp only [perform,push,scanned,if_pos h]

theorem scanned_room {x : T} {i b newMin : ℕ} (h : ¬Full S { q with minTail := newMin }) :
    scanned S q (.push x i b) newMin =
      (enqueue S { q with minTail := newMin } x,.pushed true) := by
  simp only [scanned,refreshed,pushChecked,if_neg h]

theorem scanned_full {x : T} {i b newMin : ℕ} (h : Full S { q with minTail := newMin }) :
    scanned S q (.push x i b) newMin = ({ q with minTail := newMin },.pushed false) := by
  simp only [scanned,refreshed,pushChecked,if_pos h]

theorem scanRest_done (q : Queue T) {i : ℕ} (m : Mins) (hi : maxConsumers ≤ i) :
    scanRest q i m = m.result := by
  rw [scanRest,List.drop_eq_nil_of_le (by rwa [List.length_finRange])]
  rfl

theorem scanRest_next (q : Queue T) {i : ℕ} (m : Mins) (hi : i < maxConsumers) :
    scanRest q i m = scanRest q (i+1) (look q m ⟨i,hi⟩) := by
  have hlen : i < (List.finRange maxConsumers).length := by rwa [List.length_finRange]
  rw [scanRest,List.drop_eq_getElem_cons hlen,List.foldl_cons,List.getElem_finRange]
  rfl

theorem setSlot_setSlot (q : Queue T) (i : ℕ) (s s' : Slot T) :
    (q.setSlot i s).setSlot i s' = q.setSlot i s' := by
  simp [Queue.setSlot]

inductive Onward (S : RingSize) (t : ℕ) (q : Queue T) (l : Local T) (q' : Queue T) (l' : Local T)
    (es : List (Event T)) : Prop
  | more (h : finish S q' l' = finish S q l) (ha : answers es = []) (alone : Alone S t q' l')
      (hs : Settled S q' l')
  | done {a : Answer T} (h : finish S q l = some (q',a)) (hl : l' = .idle) (ha : answers es = [a])
      (hs : Settled S q' .idle)

theorem onward_step (hl : l ≠ .idle) (ha : Alone S t q l) (hs : Settled S q l)
    (h : Step S t m q l q' l' es) : Onward S t q l q' l' es := by
  cases h with
  | call q op => exact absurd rfl hl
  | loadHead q x => exact .more rfl rfl rfl hs
  | needScan q x h full =>
    obtain rfl := ha
    exact .more (congrArg some (push_scanned full _ _).symm) rfl ⟨rfl,rfl⟩ hs
  | hasRoom q x h room =>
    obtain rfl := ha
    have hroom : ¬Full S q := not_le.mpr room
    refine .more ?_ rfl ⟨rfl,hroom⟩ hs
    simp only [finish,perform,push_room hroom]
  | sawActive q k i m hi active =>
    exact .more rfl rfl ⟨ha,active⟩ hs
  | sawInactive q k i m hi inactive =>
    refine .more ?_ rfl ha hs
    rw [finish,finish,scanRest_next q m hi,look,if_neg (by simp [inactive])]
  | readTail q k c m =>
    refine .more ?_ rfl ha.1 hs
    rw [finish,finish,scanRest_next q m c.isLt,look,if_pos ha.2]
  | scanChanged q k i m hi =>
    refine .more ?_ rfl ha hs
    rw [finish,finish,scanRest_done q m hi]
  | scanRoom q x h i m hi room =>
    obtain ⟨rfl,hm⟩ := ha
    have hroom : ¬Full S { q with minTail := m.result } := not_le.mpr room
    have hsame : ({ q with minTail := m.result } : Queue T) = q := by rw [hm]
    refine .more ?_ rfl ⟨rfl,hsame ▸ hroom⟩ hs
    rw [finish,finish,scanRest_done q m hi,scanned_room hroom,hsame]
  | scanFull q x h i m hi full =>
    obtain ⟨rfl,hm⟩ := ha
    have hfull : Full S { q with minTail := m.result } := full
    have hsame : ({ q with minTail := m.result } : Queue T) = q := by rw [hm]
    refine .done ?_ rfl rfl hs
    rw [finish,scanRest_done q m hi,scanned_full hfull,hsame]
  | storeRoom q x h old new room =>
    obtain ⟨rfl,-⟩ := ha
    have hroom : ¬Full S { q with minTail := new } := not_le.mpr room
    refine .more ?_ rfl ⟨rfl,hroom⟩ hs
    rw [finish,finish,scanned_room hroom]
  | storeFull q x h old new full =>
    obtain ⟨rfl,-⟩ := ha
    exact .done (congrArg some (scanned_full full)) rfl rfl hs
  | storeRecompute q new => exact .done rfl rfl rfl hs
  | casWin q x => exact .more rfl rfl trivial hs
  | casLose q x h hne => exact absurd ha.1.symm hne
  | casSpurious q x h =>
    refine .more ?_ rfl trivial hs
    simp only [finish,perform,push_room ha.2]
  | copyBegin q x h =>
    refine .more ?_ rfl ?_ fun i hi => ?_
    · simp only [finish,deposit,setSlot_setSlot,setSlot_slots,if_true]
      rfl
    · show ((q.setSlot _ _).slots (S.index h)).data.content = .writing t
      rw [setSlot_slots,if_pos rfl]
      exact beginWrite_settled t _ (hs _)
    · rw [setSlot_slots,if_neg hi]
      exact hs i
  | copyEnd q x h =>
    have hcell : (q.slots (S.index h)).data.endWrite t x =
        ⟨.whole x,(q.slots (S.index h)).data.begun⟩ :=
      congrArg (Cell.mk · _) (endWrite_own t x _ ha)
    refine .more ?_ rfl trivial fun i => ?_
    · simp only [finish,setSlot_setSlot,setSlot_slots,if_true,hcell]
    · rw [setSlot_slots]
      split_ifs with hi
      · rw [hcell]
        trivial
      · exact hs i hi
  | publish q x h =>
    refine .done rfl rfl rfl fun i => ?_
    rw [setSlot_slots]
    split_ifs with hi
    · exact hs _
    · exact hs i
  | popActive q c active =>
    refine .more ?_ rfl trivial hs
    simp only [finish,pop,if_pos active]
  | popInactive q c inactive =>
    refine .done ?_ rfl rfl hs
    simp only [finish,pop,if_neg (by simp [inactive] : ¬(q.consumers c).active = true)]
    rfl
  | popTail q c => exact .more rfl rfl trivial hs
  | popReady q c tail ready =>
    refine .more ?_ rfl trivial hs
    simp only [finish,popAt,if_pos ready]
    rfl
  | popNotReady q c tail notReady =>
    refine .done ?_ rfl rfl hs
    simp only [finish,popAt,if_neg notReady]
    rfl
  | popBegin q c tail => exact .more rfl rfl trivial hs
  | popEnd q c tail before => exact .more rfl rfl trivial hs
  | popDone q c tail x => exact .done rfl rfl rfl hs
  | registerTicket q hi =>
    refine .more ?_ rfl trivial hs
    simp only [finish,registerConsumer,dif_pos hi]
    rfl
  | registerThrow q hi =>
    refine .done ?_ rfl rfl hs
    simp only [finish,registerConsumer,dif_neg (not_lt.mpr hi)]
    rfl
  | registerHead q c => exact .more rfl rfl trivial hs
  | registerTail q c h => exact .more rfl rfl trivial hs
  | registerActive q c => exact .done rfl rfl rfl hs
  | unregister q c => exact .done rfl rfl rfl hs

theorem finish_entry (S : RingSize) (q : Queue T) (op : Op T) :
    finish S q op.entry = some (perform S q op) := by
  cases op <;> rfl

theorem alone_entry (q : Queue T) (op : Op T) : Alone S t q op.entry := by
  cases op <;> trivial

theorem settled_entry {op : Op T} (h : Settled S q .idle) : Settled S q op.entry := by
  cases op <;> exact h

end Steps

section Runs

variable {S : RingSize} {c c' : Config T} {tr es : List (Event T)} {t : ℕ}

def NonOverlapping : Guard ℕ (Move T) (Queue T) (Local T) := fun c _ m =>
  ∀ op, m = .call op → ∀ u, c.locals u = .idle

theorem nonOverlapping_go (c : Config T) (t : ℕ) : NonOverlapping c t .go := by
  intro op h
  cases h

inductive InOrder (S : RingSize) (c : Config T) (tr : List (Event T)) : Prop
  | between (h : runCalls S .new (calls tr) = (c.shared,answers tr))
      (idle : ∀ t, c.locals t = .idle) (hs : Settled S c.shared .idle)
  | inside (t : ℕ) (l : Local T) (ops : List (Op T)) (op : Op T) (hl : c.locals t = l)
      (hc : calls tr = ops++[op]) (busy : l ≠ .idle)
      (h : finish S c.shared l = some (perform S (runCalls S .new ops).1 op))
      (ha : answers tr = (runCalls S .new ops).2) (alone : Alone S t c.shared l)
      (hs : Settled S c.shared l) (others : ∀ u, u ≠ t → c.locals u = .idle)

theorem entry_busy (op : Op T) : op.entry ≠ .idle := by
  cases op <;> simp [Op.entry]

theorem inOrder_call {op : Op T} (h : runCalls S .new (calls tr) = (c.shared,answers tr))
    (idle : ∀ u, c.locals u = .idle) (hs : Settled S c.shared .idle) :
    InOrder S ⟨c.shared,Function.update c.locals t op.entry⟩ (tr++[.called t op]) := by
  refine .inside t op.entry (calls tr) op (Function.update_self _ _ _) (calls_append _ _)
    (entry_busy op) ?_ ?_ (alone_entry _ op) (settled_entry hs) fun u hu => ?_
  · rw [h]
    exact finish_entry S c.shared op
  · rw [answers_append,h]
    exact List.append_nil _
  · exact (Function.update_of_ne hu _ _).trans (idle u)

theorem inOrder_step {m : Move T} {q : Queue T} {l : Local T} (h : InOrder S c tr)
    (g : NonOverlapping c t m) (hs : Step S t m c.shared (c.locals t) q l es) :
    InOrder S ⟨q,Function.update c.locals t l⟩ (tr++es) := by
  cases h with
  | between h idle hsettled =>
    rw [idle t] at hs
    cases hs with
    | call q op => exact inOrder_call h idle hsettled
  | inside u l₀ ops op hl hc busy h ha alone hsettled others =>
    by_cases htu : t = u
    · subst htu
      rw [hl] at hs
      have hcalls : calls (tr++es) = ops++[op] := by
        rw [calls_append,calls_step busy hs,List.append_nil,hc]
      have hothers : ∀ v, v ≠ t → Function.update c.locals t l v = .idle := fun v hv =>
        (Function.update_of_ne hv _ _).trans (others v hv)
      cases onward_step busy alone hsettled hs with
      | more hf hnone halone hs' =>
        have hbusy : l ≠ .idle := by
          rintro rfl
          rw [h] at hf
          cases hf
        refine .inside t l ops op (Function.update_self _ _ _) hcalls hbusy (hf.trans h) ?_ halone
          hs' hothers
        rw [answers_append,hnone,List.append_nil,ha]
      | done hf hidle hone hs' =>
        rw [h] at hf
        have hend := Option.some.inj hf
        refine .between ?_ (fun v => ?_) hs'
        · rw [hcalls,runCalls_snoc,answers_append,hone,ha,hend]
        · by_cases hv : v = t
          · subst hv
            exact (Function.update_self _ _ _).trans hidle
          · exact hothers v hv
    · rw [others t htu] at hs
      cases hs with
      | call q o => exact absurd (hl.symm.trans (g o rfl u)) busy

theorem run_inOrder (r : (machine T S).Run NonOverlapping (Config.start 0) c tr) :
    InOrder S c tr := by
  induction r with
  | start => exact .between rfl (fun _ => rfl) fun _ => trivial
  | next r g h ih =>
    obtain ⟨q,l,ha,rfl⟩ := step_some h
    exact inOrder_step ih g (act_step ha)

/-- Between two calls the machine is where the calls lead. -/
theorem run_calls (S : RingSize) (c : Config T) (tr : List (Event T))
    (r : (machine T S).Run NonOverlapping (Config.start 0) c tr)
    (idle : ∀ t, c.locals t = .idle) : runCalls S .new (calls tr) = (c.shared,answers tr) := by
  cases run_inOrder r with
  | between h _ _ => exact h
  | inside t _ _ _ hl _ busy _ _ _ _ _ => exact absurd (hl.symm.trans (idle t)) busy

/-- A call that goes on alone returns, and calls nothing on its way. -/
theorem alone_completes {ok : Guard ℕ (Move T) (Queue T) (Local T)} (hok : ∀ c, ok c t .go)
    (c : Config T) (busy : c.locals t ≠ .idle) (alone : Alone S t c.shared (c.locals t))
    (hs : Settled S c.shared (c.locals t)) :
    ∃ c' tr, (machine T S).Run ok c c' tr ∧ (∀ e ∈ tr, call e = none) ∧ c'.locals t = .idle ∧
      ∀ u, u ≠ t → c'.locals u = c.locals u := by
  refine System.completes (M := machine T S)
    (P := fun q l => l ≠ .idle ∧ Alone S t q l ∧ Settled S q l) (Q := fun l => l = .idle)
    (R := fun e => call e = none) (w := rank) hok ?_ c ⟨busy,alone,hs⟩
  rintro q l ⟨hl,ha,hs⟩
  obtain ⟨⟨q',l',es⟩,hadv⟩ := advance_total S t q hl
  have hstep := advance_step hadv
  refine ⟨q',l',es,hadv,List.filterMap_eq_nil_iff.mp (calls_step hl hstep),?_⟩
  cases onward_step hl ha hs hstep with
  | done _ hidle _ _ => exact Or.inl hidle
  | more _ _ ha' hs' =>
    by_cases hidle : l' = .idle
    · exact Or.inl hidle
    · refine Or.inr ⟨⟨hidle,ha',hs'⟩,step_lowers hstep fun x k hk => ?_⟩
      subst hk
      exact ha.1

theorem calls_possible (S : RingSize) (ops : List (Op T)) :
    ∃ c tr, (machine T S).Run NonOverlapping (Config.start 0) c tr ∧
      (∀ t, c.locals t = .idle) ∧ calls tr = ops := by
  induction ops using List.reverseRecOn with
  | nil => exact ⟨_,_,.start,fun _ => rfl,rfl⟩
  | append_singleton ops op ih =>
    obtain ⟨c,tr,r,idle,hc⟩ := ih
    have hs : Settled S c.shared op.entry := by
      cases run_inOrder r with
      | between _ _ hs => exact settled_entry hs
      | inside t _ _ _ hl _ busy _ _ _ _ _ => exact absurd (hl.symm.trans (idle t)) busy
    let d : Config T := ⟨c.shared,Function.update c.locals 0 op.entry⟩
    have hlocal : d.locals 0 = op.entry := by simp [d]
    have hstep : (machine T S).step c 0 (.call op) = some (d,[.called 0 op]) := by
      simp [System.step,machine,act,idle 0,d]
    have r₁ := r.next (fun _ _ => idle) hstep
    have hrest : ∃ c' es, (machine T S).Run NonOverlapping d c' es ∧ (∀ e ∈ es, call e = none) ∧
        c'.locals 0 = .idle ∧ ∀ u, u ≠ 0 → c'.locals u = d.locals u := by
      apply alone_completes (fun c => nonOverlapping_go c 0) d <;> rw [hlocal]
      · exact entry_busy op
      · exact alone_entry _ op
      · exact hs
    obtain ⟨c',es,r₂,hquiet,hidle,hothers⟩ := hrest
    refine ⟨c',_,r₁.trans r₂,fun t => ?_,?_⟩
    · by_cases ht : t = 0
      · subst ht
        exact hidle
      · exact (hothers t ht).trans ((Function.update_of_ne ht _ _).trans (idle t))
    · have hnone : calls es = [] := List.filterMap_eq_nil_iff.mpr hquiet
      rw [calls_append,calls_append,hc,hnone]
      exact List.append_nil _

end Runs

end MpmcLogger.QueueCalls
