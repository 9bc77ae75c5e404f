import MpmcLogger.QueueCalls

/-!
# The scan of the tails

A scan loads 32 flags and as many tails at different moments, while consumers
pop, join and leave. The tail of a consumer that has joined only grows, so that
the result bounds every consumer that stayed active from the first load on, then
and later. It need not be the least tail of any one moment, unless nobody else
moves. Anyone may unregister a consumer here; only its pops are one thread's.
-/

set_option autoImplicit false

namespace MpmcLogger.QueueScan
open Interleaving RingIndex MachineWord MpmcLogger.QueueMachine MpmcLogger.QueueHistory
open MpmcLogger.QueueInvariant MpmcLogger.QueueCalls

variable {T : Type*}

def PoppedMove (own : ConsumerId → ℕ) (t : ℕ) : Move T → Prop
  | .call (.pop c) => own c = t
  | _ => True

def Popped (own : ConsumerId → ℕ) : Guard ℕ (Move T) (Queue T) (Local T) :=
  fun _ t m => PoppedMove own t m

def Serving (n : ℕ) (own : ConsumerId → ℕ) (tr : List (Event T)) (t : ℕ) (c : ConsumerId) : Prop :=
  own c = t ∧ Joined n tr c

def Knows (n : ℕ) (own : ConsumerId → ℕ) (t : ℕ) (q : Queue T) (tr : List (Event T)) :
    Local T → Prop
  | .pushCopyBegin _ h | .pushCopyEnd _ h | .pushPublish _ h => h < q.head
  | .popLoadActive c => own c = t
  | .popLoadTail c => Serving n own tr t c
  | .popLoadSequence c tail => Serving n own tr t c ∧ tail = (q.consumers c).tail
  | .popCopyBegin c tail | .popCopyEnd c tail _ | .popStoreTail c tail _ =>
      Serving n own tr t c ∧ tail = (q.consumers c).tail ∧ tail < q.head
  | .registerLoadHead c | .registerStoreActive c => Ticketed n tr t c
  | .registerStoreTail c h => Ticketed n tr t c ∧ h ≤ q.head
  | _ => True

structure Leaves (n : ℕ) (own : ConsumerId → ℕ) (j : ℕ) (q : Queue T) (tr : List (Event T))
    (q' : Queue T) (tr' : List (Event T)) : Prop where
  head : q.head ≤ q'.head
  serving : ∀ c, Serving n own tr j c →
    Serving n own tr' j c ∧ (q'.consumers c).tail = (q.consumers c).tail
  ticketed : ∀ c, Ticketed n tr j c → Ticketed n tr' j c

section Steps

variable {S : RingSize} {n : ℕ} {own : ConsumerId → ℕ} {t j : ℕ} {q q' : Queue T}
  {tr es : List (Event T)} {l l' : Local T} {m : Move T}

theorem knows_backed (h : Knows n own t q tr l) : Backed n t q tr l := by
  cases l with
  | pushPublish x k => exact h
  | popStoreTail c tail x => exact h.2.2
  | registerStoreTail c k => exact h.2
  | registerStoreActive c => exact h
  | _ => trivial

theorem knows_entry (op : Op T) (h : PoppedMove own t (.call op)) :
    Knows n own t q tr op.entry := by
  cases op with
  | pop c => exact h
  | _ => trivial

theorem ready_lt (hs : Tracked n q tr) (hb : Bounded S n tr) {c : ConsumerId}
    (ready : (q.slots (S.index (q.consumers c).tail)).sequence = (q.consumers c).tail) :
    (q.consumers c).tail < q.head := by
  have hlt := lt_invalidPos hs hb (hs.tail_le c)
  rcases hs.sequence (S.index (q.consumers c).tail) with h | h <;> omega

theorem knows_step (hs : Tracked n q tr) (hk : Knows n own t q tr l) (hb : Bounded S n tr)
    (hb' : Within n (tr++es)) (hm : PoppedMove own t m) (h : Step S t m q l q' l' es) :
    Knows n own t q' (tr++es) l' := by
  have hserving : ∀ {c}, Serving n own tr t c → Serving n own (tr++es) t c := fun h =>
    ⟨h.1,joined_append h.2⟩
  cases h with
  | call q op => exact knows_entry op hm
  | casWin q x => exact (Nat.lt_succ_self _).trans_eq (head_claim hs hb').symm
  | copyBegin q x h => exact hk
  | copyEnd q x h => exact hk
  | popActive q c active => exact hserving ⟨hk,hs.active c active⟩
  | popTail q c => exact ⟨hserving hk,rfl⟩
  | popReady q c tail ready =>
    obtain ⟨hserves,rfl⟩ := hk
    exact ⟨hserving hserves,rfl,ready_lt hs hb ready⟩
  | popBegin q c tail => exact ⟨hserving hk.1,hk.2⟩
  | popEnd q c tail before => exact ⟨hserving hk.1,hk.2⟩
  | registerTicket q hi => exact (fresh_ticket hs hi).1
  | registerHead q c =>
    rw [List.append_nil]
    exact ⟨hk,le_rfl⟩
  | registerTail q c h =>
    rw [List.append_nil]
    exact hk.1
  | _ => trivial

theorem leaves_extend (hh : q.head ≤ q'.head) (ht : ∀ c, Serving n own tr j c →
      (q'.consumers c).tail = (q.consumers c).tail)
    (hr : ∀ c, Ticketed n tr j c → ¬Registered es c) : Leaves n own j q tr q' (tr++es) where
  head := hh
  serving c hc := ⟨⟨hc.1,joined_append hc.2⟩,ht c hc⟩
  ticketed c hc := by
    refine ⟨hc.1,?_,fun h => ?_⟩
    · rw [tickets_append,List.getElem?_append_left (List.getElem?_eq_some_iff.mp hc.2.1).1]
      exact hc.2.1
    · rcases (registered_append tr es c).mp h with h | h
      · exact hc.2.2 h
      · exact hr c hc h

theorem leaves_step (hs : Tracked n q tr) (hk : Knows n own t q tr l) (hb : Within n (tr++es))
    (he : Effect S t q l q' es) (hj : j ≠ t) : Leaves n own j q tr q' (tr++es) := by
  have hh := head_le hs hb he
  cases he with
  | deliver c tail x hl =>
    subst hl
    refine leaves_extend hh (fun d hd => ?_) (by simp)
    have hne : d ≠ c := by
      rintro rfl
      exact hj (hd.1.symm.trans hk.1.1)
    simp [hne]
  | storeTail c h hl =>
    subst hl
    refine leaves_extend hh (fun d hd => ?_) (by simp)
    have hne : d ≠ c := by
      rintro rfl
      exact hk.1.not_joined hd.2
    simp [hne]
  | raise c hl =>
    subst hl
    refine leaves_extend hh (fun d _ => setFlag_tail q c d true) fun d hd => ?_
    rw [registered_registered]
    rintro rfl
    exact hj (ticketed_unique hd hk)
  | drop c hl h =>
    exact leaves_extend hh (fun d _ => setFlag_tail q c d false) fun d _ => registered_quiet h d
  | quiet h => exact leaves_extend hh (fun _ _ => rfl) fun d _ => registered_quiet h d
  | minTail k new hl h => exact leaves_extend hh (fun _ _ => rfl) fun d _ => registered_quiet h d
  | refuse hl hi => exact leaves_extend hh (fun _ _ => rfl) fun d _ => by simp [Registered]
  | _ => exact leaves_extend hh (fun _ _ => rfl) (by simp)

theorem knows_stable (hr : Leaves n own j q tr q' (tr++es)) (hk : Knows n own j q tr l) :
    Knows n own j q' (tr++es) l := by
  have hserves : ∀ {c tail}, Serving n own tr j c → tail = (q.consumers c).tail →
      Serving n own (tr++es) j c ∧ tail = (q'.consumers c).tail := fun hc ht =>
    ⟨(hr.serving _ hc).1,ht.trans (hr.serving _ hc).2.symm⟩
  cases l with
  | pushCopyBegin x h => exact hk.trans_le hr.head
  | pushCopyEnd x h => exact hk.trans_le hr.head
  | pushPublish x h => exact hk.trans_le hr.head
  | popLoadActive c => exact hk
  | popLoadTail c => exact (hr.serving c hk).1
  | popLoadSequence c tail => exact hserves hk.1 hk.2
  | popCopyBegin c tail =>
    exact ⟨(hserves hk.1 hk.2.1).1,(hserves hk.1 hk.2.1).2,hk.2.2.trans_le hr.head⟩
  | popCopyEnd c tail before =>
    exact ⟨(hserves hk.1 hk.2.1).1,(hserves hk.1 hk.2.1).2,hk.2.2.trans_le hr.head⟩
  | popStoreTail c tail x =>
    exact ⟨(hserves hk.1 hk.2.1).1,(hserves hk.1 hk.2.1).2,hk.2.2.trans_le hr.head⟩
  | registerLoadHead c => exact hr.ticketed c hk
  | registerStoreTail c h => exact ⟨hr.ticketed c hk.1,hk.2.trans hr.head⟩
  | registerStoreActive c => exact hr.ticketed c hk
  | _ => trivial

/-- The tail of a consumer that has joined never goes back. -/
theorem tail_grows (hs : Tracked n q tr) (hk : Knows n own t q tr l) (hb : Within n tr)
    (he : Effect S t q l q' es) {c : ConsumerId} (hc : Joined n tr c) :
    (q.consumers c).tail ≤ (q'.consumers c).tail := by
  cases he with
  | deliver d tail x hl =>
    subst hl
    obtain ⟨-,rfl,hlt⟩ := hk
    rw [setConsumer_consumers]
    split_ifs with hcd
    · rw [hcd]
      have hlen := hb.1
      rw [← hs.head_eq] at hlen
      exact (Nat.le_succ _).trans_eq (u64_of_lt (by omega)).symm
    · exact le_rfl
  | storeTail d h hl =>
    subst hl
    have hne : c ≠ d := by
      rintro rfl
      exact hk.1.not_joined hc
    simp [hne]
  | raise d hl => exact (setFlag_tail q d c true).ge
  | drop d hl h => exact (setFlag_tail q d c false).ge
  | _ => exact le_rfl

def Bounds (d : ConsumerId) (q : Queue T) : Local T → Prop
  | .scanActive _ i m => d.val < i → m.least ≤ (q.consumers d).tail
  | .scanTail _ c m => d.val < c.val → m.least ≤ (q.consumers d).tail
  | _ => True

theorem bounds_step {d : ConsumerId} (hd : (q.consumers d).active = true) (hl : Bounds d q l)
    (h : Step S t m q l q' l' es) : Bounds d q' l' := by
  cases h with
  | call q op =>
    cases op with
    | recomputeAndStoreMinTail => exact fun hlt => absurd hlt (Nat.not_lt_zero _)
    | _ => trivial
  | needScan q x h full => exact fun hlt => absurd hlt (Nat.not_lt_zero _)
  | sawActive q k i m hi active => exact hl
  | sawInactive q k i m hi inactive => exact fun hlt => hl (passed_inactive hd inactive hlt)
  | readTail q k c m => exact least_passed hl
  | _ => trivial

theorem bounds_mono {d : ConsumerId} (ht : (q.consumers d).tail ≤ (q'.consumers d).tail)
    (hl : Bounds d q l) : Bounds d q' l := by
  cases l with
  | scanActive k i m => exact fun hlt => (hl hlt).trans ht
  | scanTail k c m => exact fun hlt => (hl hlt).trans ht
  | _ => trivial

end Steps

def Scanning : Local T → Prop
  | .scanActive .. | .scanTail .. => True
  | _ => False

def Begins : Local T → Prop
  | .scanActive _ i m => i = 0 ∧ m = .start
  | _ => False

def Returns (v : ℕ) : Local T → Prop
  | .scanActive _ i m => maxConsumers ≤ i ∧ m.result = v
  | _ => False

def Only (t : ℕ) : Guard ℕ (Move T) (Queue T) (Local T) := fun _ u _ => u = t

structure Scan (S : RingSize) (ok : Guard ℕ (Move T) (Queue T) (Local T)) (t : ℕ) (c₀ : Config T)
    (cs : List (Config T)) (c₁ : Config T) (es : List (Event T)) (v : ℕ) : Prop where
  path : (machine T S).Path ok c₀ cs c₁ es
  begins : Begins (c₀.locals t)
  inside : ∀ c ∈ cs, Scanning (c.locals t)
  returns : Returns v (c₁.locals t)

section Runs

variable {S : RingSize} {n : ℕ} {own : ConsumerId → ℕ} {c₀ c c' : Config T}
  {tr es : List (Event T)} {t : ℕ}

theorem tracked_start (n : ℕ) : Tracked n (Queue.registered n : Queue T) [] :=
  (sound_start ring16 (begun_start : Begun n (fun _ => 0) _)).tracked

theorem run_tracked (r : (machine T S).Run (Popped own) (Config.start n) c tr)
    (hb : Bounded S n tr) :
    Tracked n c.shared tr ∧ ∀ t, Knows n own t c.shared tr (c.locals t) := by
  refine System.Run.thread_invariant (bounded_earlier S n) ?_ ?_ ?_ r hb
  · exact ⟨tracked_start n,fun t => trivial⟩
  · intro c tr t m q l es _ hb hs hk g ha
    have hst := act_step ha
    have hw := bounded_within hb
    exact ⟨tracked_step hs (knows_backed (hk t)) hw (step_effect hst),
      knows_step hs (hk t) (bounded_earlier S n _ _ hb) hw g hst⟩
  · intro c tr t m q l es _ hb hs hk g ha j hj
    have he := step_effect (act_step ha)
    exact knows_stable (leaves_step hs (hk t) (bounded_within hb) he hj) (hk j)

theorem run_grows {d : ConsumerId} (r : (machine T S).Run (Popped own) (Config.start n) c tr)
    (hd : Joined n tr d) (r' : (machine T S).Run (Popped own) c c' es) (hb : Bounded S n (tr++es)) :
    (c.shared.consumers d).tail ≤ (c'.shared.consumers d).tail := by
  induction r' with
  | start => exact le_rfl
  | @next e e' fs gs u m r' g h ih =>
    rw [← List.append_assoc] at hb
    have hb' := bounded_earlier S n _ _ hb
    obtain ⟨hs,hk⟩ := run_tracked (r.trans r') hb'
    obtain ⟨q,l,ha,rfl⟩ := step_some h
    exact (ih hb').trans (tail_grows hs (hk u) (bounded_within hb') (step_effect (act_step ha))
      (joined_append hd))

theorem begins_bounds {q : Queue T} {l : Local T} (d : ConsumerId) (h : Begins l) :
    Bounds d q l := by
  cases l with
  | scanActive k i m =>
    obtain ⟨rfl,-⟩ := h
    exact fun hlt => absurd hlt (Nat.not_lt_zero _)
  | _ => exact h.elim

theorem returns_bound {q : Queue T} {l : Local T} {v : ℕ} {d : ConsumerId} (h : Returns v l)
    (hd : Bounds d q l) : v ≤ (q.consumers d).tail := by
  cases l with
  | scanActive k i m =>
    obtain ⟨hi,rfl⟩ := h
    exact (result_le_least m).trans (hd (d.isLt.trans_le hi))
  | _ => exact h.elim

/-- As long as the flag of `d` is up, what a scan has of `d` remains a bound. -/
theorem path_bounds {d : ConsumerId} {cs : List (Config T)}
    (r : (machine T S).Run (Popped own) (Config.start n) c₀ tr)
    (p : (machine T S).Path (Popped own) c₀ cs c es) (hb : Bounded S n (tr++es))
    (hd : ∀ e ∈ cs, (e.shared.consumers d).active = true)
    (h₀ : Bounds d c₀.shared (c₀.locals t)) : Bounds d c.shared (c.locals t) := by
  induction p with
  | here => exact h₀
  | @more cs e e' fs gs u m p g h ih =>
    rw [← List.append_assoc] at hb
    have hb' := bounded_earlier S n _ _ hb
    have hcs : ∀ e ∈ cs, (e.shared.consumers d).active = true := fun e he =>
      hd e (List.mem_append_left _ he)
    have hactive := hcs e p.last_mem
    obtain ⟨hs,hk⟩ := run_tracked (System.Path.run r p) hb'
    obtain ⟨q,l,ha,rfl⟩ := step_some h
    have hst := act_step ha
    have hbounds := ih hb' hcs
    by_cases ht : u = t
    · subst ht
      simpa using bounds_step hactive hbounds hst
    · have hgrows := tail_grows hs (hk u) (bounded_within hb') (step_effect hst)
        (hs.active d hactive)
      simpa [Function.update_of_ne (Ne.symm ht)] using bounds_mono hgrows hbounds

end Runs

section Undisturbed

variable {S : RingSize} {t : ℕ} {v : ℕ} {q q' : Queue T} {l l' : Local T} {m : Move T}
  {es : List (Event T)} {c₀ c : Config T}

def Leads (v : ℕ) (q : Queue T) : Local T → Prop
  | .scanActive _ i m => scanRest q i m = v
  | .scanTail _ c m => scanRest q c m = v ∧ (q.consumers c).active = true
  | _ => False

theorem leads_step (hl : Leads v q l) (h : Step S t m q l q' l' es) (hl' : Scanning l') :
    q' = q ∧ Leads v q' l' := by
  cases h with
  | sawActive q k i m hi active => exact ⟨rfl,hl,active⟩
  | sawInactive q k i m hi inactive =>
    refine ⟨rfl,?_⟩
    have hlook : look q m ⟨i,hi⟩ = m := if_neg (by simp [inactive])
    rw [Leads,scanRest_next q m hi,hlook] at hl
    exact hl
  | readTail q k c m =>
    refine ⟨rfl,?_⟩
    have hlook : look q m c = m.lower c (q.consumers c).tail := if_pos hl.2
    have hrest := hl.1
    rw [scanRest_next q m c.isLt,hlook] at hrest
    exact hrest
  | scanChanged q k i m hi => exact hl'.elim
  | scanRoom q x h i m hi room => exact hl'.elim
  | scanFull q x h i m hi full => exact hl'.elim
  | _ => exact hl.elim

theorem path_leads {cs : List (Config T)} (p : (machine T S).Path (Only t) c₀ cs c es)
    (hin : ∀ e ∈ cs, Scanning (e.locals t)) (h₀ : Leads v c₀.shared (c₀.locals t)) :
    c.shared = c₀.shared ∧ Leads v c.shared (c.locals t) := by
  induction p with
  | here => exact ⟨rfl,h₀⟩
  | @more cs e e' fs gs u m p g h ih =>
    obtain rfl : u = t := g
    obtain ⟨hsame,hleads⟩ := ih fun e he => hin e (List.mem_append_left _ he)
    have hscan := hin e' (List.mem_append_right _ (List.mem_singleton_self _))
    obtain ⟨q,l,ha,rfl⟩ := step_some h
    simp only [Function.update_self] at hscan ⊢
    obtain ⟨rfl,hnext⟩ := leads_step hleads (act_step ha) hscan
    exact ⟨hsame,hnext⟩

theorem begins_leads (h : Begins l) : Leads (computeMinTail q) q l := by
  cases l with
  | scanActive k i m =>
    obtain ⟨rfl,rfl⟩ := h
    rfl
  | _ => exact h.elim

theorem returns_leads {w : ℕ} (h : Returns v l) (hl : Leads w q l) : v = w := by
  cases l with
  | scanActive k i m =>
    obtain ⟨hi,rfl⟩ := h
    rwa [Leads,scanRest_done q m hi] at hl
  | _ => exact h.elim

def activeTails (q : Queue T) : Set ℕ :=
  { k | ∃ d, (q.consumers d).active = true ∧ (q.consumers d).tail = k }

theorem computeMinTail_least {d : ConsumerId} (hd : (q.consumers d).active = true)
    (ht : (q.consumers d).tail < invalidPos) : IsLeast (activeTails q) (computeMinTail q) := by
  have hall := ((le_least q _).mp le_rfl).2
  have hne := ((hall d hd).trans_lt ht).ne
  rw [computeMinTail,result_of_ne hne]
  refine ⟨least_attained q hne,?_⟩
  rintro k ⟨c,hc,rfl⟩
  exact hall c hc

end Undisturbed

def scanCheck (own : ConsumerId → ℕ) (t : ℕ) (d : ConsumerId) (c : Config T) (u : ℕ)
    (m : Move T) : Bool :=
  ownedCheck own c u m && (c.locals t matches .scanActive .. | .scanTail ..) &&
    (c.shared.consumers d).active

def aloneCheck (t : ℕ) (c : Config T) (u : ℕ) (_ : Move T) : Bool :=
  (u == t) && (c.locals t matches .scanActive .. | .scanTail ..)

def beginsCheck (l : Local T) : Bool :=
  match l with
  | .scanActive _ i m => decide (i = 0 ∧ m = .start)
  | _ => false

def returnsCheck (v : ℕ) (l : Local T) : Bool :=
  match l with
  | .scanActive _ i m => decide (maxConsumers ≤ i ∧ m.result = v)
  | _ => false

theorem popped_of_owned {own : ConsumerId → ℕ} {c : Config T} {t : ℕ} {m : Move T}
    (h : Owned own c t m) : Popped own c t m := by
  cases m with
  | call op => cases op <;> first | exact h | trivial
  | go => trivial
  | spurious => trivial

theorem scanning_of_matches {l : Local T}
    (h : (l matches .scanActive .. | .scanTail ..) = true) : Scanning l := by
  cases l with
  | scanActive k i m => trivial
  | scanTail k c m => trivial
  | _ => simp at h

theorem scan_of_check (own : ConsumerId → ℕ) (t : ℕ) (d : ConsumerId) (c : Config T) (u : ℕ)
    (m : Move T) (h : scanCheck own t d c u m = true) :
    Popped own c u m ∧ Scanning (c.locals t) ∧ (c.shared.consumers d).active = true := by
  simp only [scanCheck,Bool.and_eq_true] at h
  obtain ⟨⟨ho,hl⟩,ha⟩ := h
  exact ⟨popped_of_owned (owned_of_check own c u m ho),scanning_of_matches hl,ha⟩

theorem alone_of_check (t : ℕ) (c : Config T) (u : ℕ) (m : Move T)
    (h : aloneCheck t c u m = true) : Only t c u m ∧ Scanning (c.locals t) := by
  simp only [aloneCheck,Bool.and_eq_true] at h
  exact ⟨eq_of_beq h.1,scanning_of_matches h.2⟩

theorem begins_of_check {l : Local T} (h : beginsCheck l = true) : Begins l := by
  cases l with
  | scanActive k i m => simpa [beginsCheck,Begins] using h
  | _ => cases h

theorem returns_of_check {v : ℕ} {l : Local T} (h : returnsCheck v l = true) : Returns v l := by
  cases l with
  | scanActive k i m => simpa [returnsCheck,Returns] using h
  | _ => cases h

theorem scanning_of_returns {v : ℕ} {l : Local T} (h : Returns v l) : Scanning l := by
  cases l with
  | scanActive k i m => trivial
  | _ => exact h.elim

def scheduleBefore : List (ℕ × Move ℕ) :=
  callAlone 1 (.push 5) 6 ++ callAlone 1 (.push 6) 6 ++ callAlone 2 (.pop 0) 6 ++
    callAlone 2 (.pop 1) 6 ++ [(3,.call .recomputeAndStoreMinTail)]

/-- Once the scan has loaded tail 1 of consumer 0, the second item is popped by both
and a third consumer joins. The scan returns 1, no tail is below 2 then. -/
theorem overtaken_scan : ∃ (c₀ c₁ : Config ℕ) (cs : List (Config ℕ)) (tr es : List (Event ℕ)),
    (machine ℕ ring16).Run (Popped fun _ => 2) (Config.start 2) c₀ tr ∧
    Scan ring16 (Popped fun _ => 2) 3 c₀ cs c₁ es 1 ∧ Bounded ring16 2 (tr++es) ∧
    (∀ c ∈ cs, (c.shared.consumers 0).active = true) ∧ (c₁.shared.consumers 0).tail = 2 := by
  obtain ⟨c₀,tr,r,hv⟩ := exec_any (machine ℕ ring16) (Config.start 2)
    (fun c u m h => popped_of_owned (owned_of_check (fun _ => 2) c u m h)) scheduleBefore
    (fun r₀ => beginsCheck (r₀.1.locals 3) && decide ((claims r₀.2).length = 2 ∧
        (tickets r₀.2).length = 0) &&
      ((machine ℕ ring16).exec (scanCheck (fun _ => 2) 3 0) r₀.1
        (List.replicate 2 (3,.go) ++ callAlone 2 (.pop 0) 6 ++ callAlone 2 (.pop 1) 6 ++
          callAlone 4 .registerConsumer 4 ++ List.replicate 33 (3,.go))).any
        fun (r₁ : Config ℕ × List (Event ℕ)) => returnsCheck 1 (r₁.1.locals 3) &&
          decide ((claims r₁.2).length = 0 ∧ (tickets r₁.2).length = 1 ∧
            (r₁.1.shared.consumers 0).active = true ∧ (r₁.1.shared.consumers 0).tail = 2))
    (by decide +kernel)
  simp only [Bool.and_eq_true] at hv
  obtain ⟨⟨hbegins,hlen⟩,hv⟩ := hv
  obtain ⟨⟨c₁,es⟩,hexec,hv⟩ := (Option.any_eq_true _ _).mp hv
  simp only [Bool.and_eq_true] at hv
  obtain ⟨hreturns,hend⟩ := hv
  obtain ⟨hc,ht⟩ := of_decide_eq_true hlen
  obtain ⟨hc₁,ht₁,hact,htail⟩ := of_decide_eq_true hend
  have hret := returns_of_check hreturns
  obtain ⟨cs,p,hcs⟩ := exec_path (scan_of_check (fun _ => 2) 3 0) _ .here (by simp) hexec
    ⟨scanning_of_returns hret,hact⟩
  refine ⟨c₀,c₁,cs,tr,es,r,?_,?_,fun c hc => (hcs c hc).2,htail⟩
  · exact ⟨p,begins_of_check hbegins,fun c hc => (hcs c hc).1,hret⟩
  · simp only [Bounded,claims_append,tickets_append,List.length_append,hc,ht,hc₁,ht₁]
    decide

theorem undisturbed_scan : ∃ (c₀ c₁ : Config ℕ) (cs : List (Config ℕ)) (es : List (Event ℕ)),
    Scan ring16 (Only 3) 3 c₀ cs c₁ es 1 ∧ (c₀.shared.consumers 0).active = true ∧
    ∀ d, (c₀.shared.consumers d).active = true → (c₀.shared.consumers d).tail < invalidPos := by
  obtain ⟨c₀,tr,r,hv⟩ := exec_any (machine ℕ ring16) (Config.start 2)
    (owned_of_check fun _ => 2) scheduleBefore
    (fun r₀ => beginsCheck (r₀.1.locals 3) && decide ((r₀.1.shared.consumers 0).active = true ∧
        ∀ d, (r₀.1.shared.consumers d).active = true →
          (r₀.1.shared.consumers d).tail < invalidPos) &&
      ((machine ℕ ring16).exec (aloneCheck 3) r₀.1 (List.replicate 34 (3,.go))).any
        fun (r₁ : Config ℕ × List (Event ℕ)) => returnsCheck 1 (r₁.1.locals 3))
    (by decide +kernel)
  simp only [Bool.and_eq_true] at hv
  obtain ⟨⟨hbegins,hstate⟩,hv⟩ := hv
  obtain ⟨⟨c₁,es⟩,hexec,hreturns⟩ := (Option.any_eq_true _ _).mp hv
  obtain ⟨hact,htails⟩ := of_decide_eq_true hstate
  have hret := returns_of_check hreturns
  obtain ⟨cs,p,hcs⟩ := exec_path (alone_of_check 3) _ .here (by simp) hexec
    (scanning_of_returns hret)
  exact ⟨c₀,c₁,cs,es,⟨p,begins_of_check hbegins,hcs,hret⟩,hact,htails⟩

/-- Under any interleaving a scan bounds each consumer that stayed active
throughout, at its end and ever after; undisturbed, it is the least active tail. -/
theorem scan_safe (S : RingSize) (own : ConsumerId → ℕ) (n t : ℕ) :
    (∀ (c₀ c₁ c₂ : Config T) (cs : List (Config T)) (tr es es₂ : List (Event T)) (v : ℕ),
      (machine T S).Run (Popped own) (Config.start n) c₀ tr →
      Scan S (Popped own) t c₀ cs c₁ es v →
      (machine T S).Run (Popped own) c₁ c₂ es₂ → Bounded S n (tr++es++es₂) →
      ∀ d, (∀ c ∈ cs, (c.shared.consumers d).active = true) →
        v ≤ (c₂.shared.consumers d).tail) ∧
    ∀ (c₀ c₁ : Config T) (cs : List (Config T)) (es : List (Event T)) (v : ℕ),
      Scan S (Only t) t c₀ cs c₁ es v →
      (∃ d, (c₀.shared.consumers d).active = true) →
      (∀ d, (c₀.shared.consumers d).active = true → (c₀.shared.consumers d).tail < invalidPos) →
      c₁.shared = c₀.shared ∧ IsLeast (activeTails c₀.shared) v := by
  constructor
  · intro c₀ c₁ c₂ cs tr es es₂ v r hscan r₂ hb d hd
    have hb₁ := bounded_earlier S n _ _ hb
    have r₁ := hscan.path.run r
    have hbounds := path_bounds r hscan.path hb₁ hd (begins_bounds d hscan.begins)
    have hjoined := (run_tracked r₁ hb₁).1.active d (hd c₁ hscan.path.last_mem)
    exact (returns_bound hscan.returns hbounds).trans (run_grows r₁ hjoined r₂ hb)
  · rintro c₀ c₁ cs es v hscan ⟨d,hd⟩ ht
    obtain ⟨hsame,hleads⟩ := path_leads hscan.path hscan.inside (begins_leads hscan.begins)
    obtain rfl := returns_leads hscan.returns hleads
    exact ⟨hsame,computeMinTail_least hd (ht d hd)⟩

/-- The overtaken scan bounds the tail it was overtaken by; the undisturbed one
finds the least. -/
theorem scan_safe_overtaken :
    (∃ (c₀ c₁ : Config ℕ) (cs : List (Config ℕ)) (tr es : List (Event ℕ)),
      (machine ℕ ring16).Run (Popped fun _ => 2) (Config.start 2) c₀ tr ∧
      Scan ring16 (Popped fun _ => 2) 3 c₀ cs c₁ es 1 ∧ (c₁.shared.consumers 0).tail = 2 ∧
      1 ≤ (c₁.shared.consumers 0).tail) ∧
    ∃ (c₀ c₁ : Config ℕ) (cs : List (Config ℕ)) (es : List (Event ℕ)),
      Scan ring16 (Only 3) 3 c₀ cs c₁ es 1 ∧ IsLeast (activeTails c₀.shared) 1 := by
  constructor
  · obtain ⟨c₀,c₁,cs,tr,es,r,hscan,hb,hact,htail⟩ := overtaken_scan
    exact ⟨c₀,c₁,cs,tr,es,r,hscan,htail,(scan_safe ring16 (fun _ => 2) 2 3).1 c₀ c₁ c₁ cs tr es [] 1 r hscan .start
      (by simpa using hb) 0 hact⟩
  · obtain ⟨c₀,c₁,cs,es,hscan,hact,htails⟩ := undisturbed_scan
    exact ⟨c₀,c₁,cs,es,hscan,((scan_safe ring16 (fun _ => 2) 2 3).2 c₀ c₁ cs es 1 hscan ⟨0,hact⟩ htails).2⟩

end MpmcLogger.QueueScan
