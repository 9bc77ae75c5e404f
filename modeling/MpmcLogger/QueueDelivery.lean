import MpmcLogger.QueueSetup
import MpmcLogger.QueueExclusion
import MpmcLogger.QueueLapping

/-!
# Broadcast delivery

When every consumer has joined before the run begins, the slot of a published
position keeps that position's item, whole, until every active consumer has
read it. The item a consumer copies out is therefore the claimed item of its
tail, and its successful pops are a prefix of the claims.
-/

set_option autoImplicit false

namespace MpmcLogger.QueueDelivery
open Interleaving CopiedCell RingIndex MachineWord MpmcLogger.QueueMachine MpmcLogger.QueueHistory
open MpmcLogger.QueueInvariant MpmcLogger.QueueSetup MpmcLogger.QueueExclusion
open MpmcLogger.QueueLapping

variable {T : Type*}

/-- The guard of runs that begin with no registration to come: any call but a
registration, each consumer popped and unregistered by its own thread. -/
def JoinedFirst (own : ConsumerId → ℕ) : Guard ℕ (Move T) (Queue T) (Local T) :=
  fun _ t m => OwnedMove own t m ∧ m ≠ .call .registerConsumer

def NotRegistering : Local T → Prop
  | .registerFetchAdd | .registerLoadHead _ | .registerStoreTail .. | .registerStoreActive _ =>
      False
  | _ => True

structure Stored (S : RingSize) (q : Queue T) (tr : List (Event T)) : Prop where
  current : ∀ (t k : ℕ) (x : T), (claims tr)[k]? = some (t,x) → Published tr k →
    q.head ≤ k+S.size → (q.slots (S.index k)).sequence = k ∧
      (q.slots (S.index k)).data.content = .whole x
  fresh : ∀ i, q.head ≤ i → i < S.size → (q.slots i).data.content = .blank

structure Delivered (S : RingSize) (q : Queue T) (tr : List (Event T)) : Prop
    extends Stored S q tr where
  pops : ∀ d, pops d tr = ((claims tr).take (q.consumers d).tail).map fun a => some a.2

def Copying (S : RingSize) (t : ℕ) (q : Queue T) (tr : List (Event T)) : Local T → Prop
  | .pushCopyBegin _ h => (q.slots (S.index h)).data.content.Settled
  | .pushCopyEnd _ h => (q.slots (S.index h)).data.content = .writing t
  | .pushPublish x h => (q.slots (S.index h)).data.content = .whole x
  | .popCopyEnd _ tail before => before = (q.slots (S.index tail)).data
  | .popStoreTail _ tail out => ∃ u x, (claims tr)[tail]? = some (u,x) ∧ out = some x
  | _ => True

section Calm

variable {S : RingSize} {n : ℕ} {own : ConsumerId → ℕ} {t : ℕ} {q q' : Queue T}
  {tr es : List (Event T)} {l l' : Local T} {m : Move T} {c₀ c : Config T}

theorem notRegistering_step (hm : m ≠ .call .registerConsumer) (hl : NotRegistering l)
    (h : Step S t m q l q' l' es) : NotRegistering l' ∧ tickets es = [] := by
  cases h with
  | call q op => cases op <;> first | exact ⟨trivial,rfl⟩ | exact absurd rfl hm
  | registerTicket => exact hl.elim
  | registerThrow => exact hl.elim
  | registerHead => exact hl.elim
  | registerTail => exact hl.elim
  | registerActive => exact hl.elim
  | _ => exact ⟨trivial,rfl⟩

theorem waits_calm (h : Waits l) : NotRegistering l := by
  cases l <;> first | exact h.elim | trivial

theorem calm_run (h₀ : Begun n own c₀) (r : (machine T S).Run (JoinedFirst own) c₀ c tr) :
    (∀ t, NotRegistering (c.locals t)) ∧ tickets tr = [] := by
  induction r with
  | start => exact ⟨fun t => waits_calm (h₀.waits t),rfl⟩
  | @next c c' tr es t m r g h ih =>
    obtain ⟨hn,ht⟩ := ih
    obtain ⟨q,l,ha,rfl⟩ := step_some h
    have hst := notRegistering_step g.2 (hn t) (act_step ha)
    refine ⟨?_,by rw [tickets_append,ht,hst.2]; rfl⟩
    exact (Function.forall_update_iff _ fun _ l => NotRegistering l).mpr ⟨hst.1,fun j _ => hn j⟩

theorem joined_within (h₀ : Begun n own c₀) (r : (machine T S).Run (JoinedFirst own) c₀ c tr)
    (hn : n ≤ maxConsumers) : Within n tr := by
  refine ⟨run_claims_lt h₀ r,?_⟩
  rw [(calm_run h₀ r).2]
  exact hn

def Used (S : RingSize) (q : Queue T) (tr : List (Event T)) : Prop :=
  ∀ k, Published tr k → (q.slots (S.index k)).sequence ≠ invalidPos

theorem used_step (hg : Good n own t q tr l) (hb : Within n tr)
    (he : Effect S t q l q' es) (hu : Used S q tr) : Used S q' (tr++es) := by
  intro k hk
  rw [published_append] at hk
  have hold {fs : List (Event T)} (hq : Quiet fs) (hk : Published tr k ∨ Published fs k) :
      (q.slots (S.index k)).sequence ≠ invalidPos :=
    hu k (hk.resolve_right (published_quiet hq k))
  cases he with
  | quiet h => exact hold h hk
  | minTail j new hl h => exact hold h hk
  | drop e hl h => exact hold h hk
  | publish x h hl =>
    subst hl
    obtain ⟨hc,-⟩ := held_claim hg.inflight (l := .pushPublish x h) rfl
    by_cases hi : S.index k = S.index h
    · have hlt := (List.getElem?_eq_some_iff.mp hc).1
      have := hb.1
      rw [hi]
      simp only [setSlot_slots,if_true]
      unfold invalidPos
      omega
    · have hkh : k ≠ h := fun h => hi (by rw [h])
      simpa [hi] using hu k (by simpa [hkh] using hk)
  | copyBegin x h hl =>
    rw [setData_sequence]
    exact hu k (by simpa using hk)
  | copyEnd x h hl =>
    rw [setData_sequence]
    exact hu k (by simpa using hk)
  | claim x hl => exact hu k (by simpa using hk)
  | deliver e tail x hl => exact hu k (by simpa using hk)
  | ticket hl hi => exact hu k (by simpa using hk)
  | refuse hl hi => exact hu k (by simpa [Published] using hk)
  | storeTail e h hl => exact hu k (by simpa using hk)
  | raise e hl => exact hu k (by simpa using hk)

/-- A pop that meets the marker in its slot is not at the marker: the slot of the
marker was published a lap or more before. -/
theorem used_markless (hu : Used S q tr) (hp : Separated S q tr) (hg : Good n own t q tr l) :
    Markless S q l := by
  rintro d tail rfl rfl
  obtain ⟨⟨-,hact⟩,htail⟩ := hg.ok
  have hlt : S.index invalidPos < S.size := index_lt S.toRing _
  have hbelow : S.index invalidPos < (q.consumers d).tail := by
    have := S.fits
    rw [← htail]
    unfold invalidPos at *
    omega
  have := hu _ (hp.active d hact _ hbelow)
  rwa [index_of_lt S.toRing hlt] at this

end Calm

structure SharedBase (S : RingSize) (n : ℕ) (q : Queue T) (tr : List (Event T)) : Prop where
  sound : Sound S n q tr
  separated : Separated S q tr
  tracked : Tracked S q
  used : Used S q tr

structure ThreadBase (S : RingSize) (n : ℕ) (own : ConsumerId → ℕ) (t : ℕ) (q : Queue T)
    (tr : List (Event T)) (l : Local T) : Prop where
  good : Good n own t q tr l
  cleared : Cleared S q tr l
  behind : BehindActive S q l
  calm : NotRegistering l

structure Ground (S : RingSize) (n : ℕ) (own : ConsumerId → ℕ) (c : Config T)
    (tr : List (Event T)) : Prop where
  sound : Sound S n c.shared tr
  good : ∀ t, Good n own t c.shared tr (c.locals t)
  separated : Separated S c.shared tr
  cleared : ∀ t, Cleared S c.shared tr (c.locals t)
  tracked : Tracked S c.shared
  behind : ∀ t, BehindActive S c.shared (c.locals t)

structure Base (S : RingSize) (n : ℕ) (own : ConsumerId → ℕ) (c : Config T)
    (tr : List (Event T)) : Prop extends Ground S n own c tr where
  calm : ∀ t, NotRegistering (c.locals t)

section BaseSteps

variable {S : RingSize} {n : ℕ} {own : ConsumerId → ℕ} {t j : ℕ} {q q' : Queue T}
  {tr es : List (Event T)} {l l' : Local T} {m : Move T}

theorem base_own (hq : SharedBase S n q tr) (hl : ThreadBase S n own t q tr l)
    (hb : Within n (tr++es)) (g : OwnedMove own t m ∧ m ≠ .call .registerConsumer)
    (h : Step S t m q l q' l' es) :
    SharedBase S n q' (tr++es) ∧ ThreadBase S n own t q' (tr++es) l' := by
  have he := step_effect h
  have hno : ∀ d, l ≠ .registerStoreActive d := by
    rintro d rfl
    exact hl.calm
  have hm := used_markless hq.used hq.separated hl.good
  refine ⟨⟨sound_step hq.sound hl.good hb he,?_,?_,?_⟩,⟨?_,?_⟩,?_,?_,?_⟩
  · exact separated_step hq.sound hl.good hb he hq.separated hl.cleared
      fun d hd => absurd hd (hno d)
  · exact tracked_step hq.sound hl.good hb he hq.tracked hl.behind fun d hd => absurd hd (hno d)
  · exact used_step hl.good (within_earlier n _ _ hb) he hq.used
  · exact inflight_step hq.sound hl.good h
  · exact local_step hq.sound hl.good hm g.1 h
  · exact cleared_step hq.separated hl.cleared h
  · intro d hd
    have hact := (active_step he hd).resolve_right (hno d)
    exact behind_mono (tail_le_step hq.sound hl.good hb he (hq.sound.active d hact))
      (behind_step hq.tracked hact (hl.behind d hact) h)
  · exact (notRegistering_step g.2 hl.calm h).1

theorem base_other (hq : SharedBase S n q tr) (hl : ThreadBase S n own t q tr l)
    (hj : ThreadBase S n own j q tr l') (hb : Within n (tr++es)) (hne : j ≠ t)
    (he : Effect S t q l q' es) : ThreadBase S n own j q' (tr++es) l' where
  good := good_stable (rely_step hq.sound hl.good hb he hne)
    hj.good
  cleared := cleared_stable hq.sound hl.good hb he hj.good hj.cleared
  behind d hd := by
    rcases active_step he hd with hact | hact
    · exact behind_mono (tail_le_step hq.sound hl.good hb he (hq.sound.active d hact))
        (hj.behind d hact)
    · have := hl.calm
      rw [hact] at this
      exact this.elim
  calm := hj.calm

end BaseSteps

theorem shared_base_start {S : RingSize} {n : ℕ} {own : ConsumerId → ℕ} {c₀ : Config T}
    (h₀ : Begun n own c₀) : SharedBase S n c₀.shared [] where
  sound := sound_start S h₀
  separated := by
    refine ⟨fun d _ => ?_,?_,fun k h => ?_⟩
    · rw [h₀.tails d]
      exact below_zero _
    · rw [h₀.minTail]
      exact below_zero _
    · rw [h₀.head] at h
      exact absurd h (Nat.not_lt_zero _)
  tracked := by
    refine ⟨fun d _ => ?_,fun d _ => ?_⟩
    · rw [h₀.head]
      exact Nat.zero_le _
    · rw [h₀.minTail]
      exact Nat.zero_le _
  used k hk := absurd hk (published_nil k)

theorem thread_base_start {S : RingSize} {n : ℕ} {own : ConsumerId → ℕ} {c₀ : Config T}
    (h₀ : Begun n own c₀) (t : ℕ) : ThreadBase S n own t c₀.shared [] (c₀.locals t) := by
  have hw := h₀.waits t
  refine ⟨good_start h₀ t,?_,fun d _ => ?_,waits_calm hw⟩ <;> generalize c₀.locals t = l at hw ⊢ <;>
    cases l <;> first | exact hw.elim | trivial

theorem run_base {S : RingSize} {n : ℕ} {own : ConsumerId → ℕ} {c₀ c : Config T}
    {tr : List (Event T)} (h₀ : Begun n own c₀)
    (r : (machine T S).Run (JoinedFirst own) c₀ c tr) (hn : n ≤ maxConsumers) :
    Base S n own c tr := by
  have hinv : SharedBase S n c.shared tr ∧
      ∀ t, ThreadBase S n own t c.shared tr (c.locals t) := by
    apply System.Run.thread_invariant (within_earlier n) (G := SharedBase S n)
      (A := ThreadBase S n own) ?_ ?_ ?_ r (joined_within h₀ r hn)
    · exact ⟨shared_base_start h₀,thread_base_start h₀⟩
    · intro c tr t m q l es _ hb hq hl g ha
      exact base_own hq (hl t) hb g (act_step ha)
    · intro c tr t m q l es _ hb hq hl g ha j hj
      exact base_other hq (hl t) (hl j) hb hj (step_effect (act_step ha))
  obtain ⟨hq,hl⟩ := hinv
  exact ⟨⟨hq.sound,fun t => (hl t).good,hq.separated,fun t => (hl t).cleared,hq.tracked,
    fun t => (hl t).behind⟩,fun t => (hl t).calm⟩

section Steps

variable {S : RingSize} {n : ℕ} {own : ConsumerId → ℕ} {t j : ℕ} {c : Config T} {q q' : Queue T}
  {tr es : List (Event T)} {l l' : Local T} {m : Move T}

theorem claim_lt (hs : Sound S n q tr) {k : ℕ} {a : ℕ × T} (h : (claims tr)[k]? = some a) :
    k < q.head := by
  rw [hs.head_eq]
  exact (List.getElem?_eq_some_iff.mp h).1

/-- No claimed and unpublished position shares its slot with a published one
that is not a whole lap old. -/
theorem current_slot_free (hs : Sound S n q tr) (hp : Separated S q tr)
    (hg : Good n own t q tr l) {k h : ℕ} {x : T} (hk : Published tr k)
    (hcur : q.head ≤ k+S.size) (hl : holds l = some (h,x)) : S.index k ≠ S.index h := by
  obtain ⟨hc,hn⟩ := held_claim hg.inflight hl
  have hlt := claim_lt hs hc
  intro hi
  rcases lt_trichotomy k h with hkh | rfl | hkh
  · have := lap_of_index_eq S.toRing hkh hi
    omega
  · exact hn hk
  · have := lap_of_index_eq S.toRing hkh hi.symm
    exact hn (hp.lap h (this.trans_lt (published_lt hs hk)))

/-- The slot a winning compare-and-swap obtains is at rest. -/
theorem claimed_slot_settled (hs : Sound S n q tr) (hd : Stored S q tr) {h : ℕ}
    (hh : q.head = h) (hclear : ∀ k, k+S.size ≤ h → Published tr k) :
    (q.slots (S.index h)).data.content.Settled := by
  by_cases hlt : h < S.size
  · rw [index_of_lt S.toRing hlt,hd.fresh h hh.le hlt]
    exact settled_blank
  · -- the position one lap back is published and current
    obtain ⟨k,rfl⟩ : ∃ k, h = k+S.size := ⟨h-S.size,by omega⟩
    have hpos := S.pos
    have hk : k < (claims tr).length := by
      rw [← hs.head_eq,hh]
      omega
    have hget := List.getElem?_eq_getElem hk
    rw [index_add_size,(hd.current _ k _ hget (hclear k le_rfl) hh.le).2]
    exact settled_whole _

theorem popping_current (hp : Tracked S q) {d : ConsumerId} {tail : ℕ}
    (hpop : Popping own q t d) (ht : tail = (q.consumers d).tail) : q.head ≤ tail+S.size := by
  rw [ht]
  exact hp.lap d hpop.2

theorem copying_step (hb : Ground S n own c tr) (hd : Stored S c.shared tr)
    (hl : Copying S t c.shared tr (c.locals t))
    (h : Step S t m c.shared (c.locals t) q' l' es) : Copying S t q' (tr++es) l' := by
  have hs := hb.sound
  have hok := (hb.good t).ok
  have hclear := hb.cleared t
  have htrack := hb.tracked
  generalize hq : c.shared = q at *
  generalize hll : c.locals t = l at *
  cases h with
  | call q op => cases op <;> trivial
  | casWin q x => exact claimed_slot_settled hs hd rfl hclear
  | copyBegin q x h =>
    change ((q.setSlot _ _).slots (S.index h)).data.content = _
    simpa using beginWrite_settled t _ hl
  | copyEnd q x h =>
    change ((q.setSlot _ _).slots (S.index h)).data.content = _
    simpa using endWrite_own t x _ hl
  | popBegin q d tail => exact rfl
  | popEnd q d tail before =>
    obtain ⟨hpop,ht,hpub⟩ := hok
    obtain ⟨u,x,hx⟩ := hpub
    have hget := hs.pushed u tail x hx
    have hcur := hd.current u tail x hget ⟨u,x,hx⟩ (popping_current htrack hpop ht)
    have hbefore : before = (q'.slots (S.index tail)).data := hl
    rw [hbefore]
    exact ⟨u,x,by simpa using hget,read_unchanged _ x hcur.2⟩
  | _ => trivial

theorem content_kept {h k : ℕ} {x : Slot T} (hne : S.index k ≠ S.index h) :
    ((q.setSlot (S.index h) x).slots (S.index k)) = q.slots (S.index k) := by
  simp [hne]

theorem held_slot_kept (hs : Sound S n q tr) (hp : Separated S q tr) (ht : Good n own t q tr l)
    (hj : Good n own j q tr l') (hne : j ≠ t) {k : ℕ} {x : T} (hk : holds l' = some (k,x))
    (he : Effect S t q l q' es) :
    (q'.slots (S.index k)).data.content = (q.slots (S.index k)).data.content := by
  have hdist : ∀ {h y}, holds l = some (h,y) → S.index k ≠ S.index h := fun hh =>
    distinct_slots hs hp hj ht hne hk hh
  cases he with
  | copyBegin y h hl =>
    subst hl
    rw [content_kept (hdist rfl)]
  | copyEnd y h hl =>
    subst hl
    rw [content_kept (hdist rfl)]
  | publish y h hl =>
    subst hl
    rw [content_kept (hdist rfl)]
  | _ => rfl

theorem current_slot_kept (hs : Sound S n q tr) (hp : Separated S q tr)
    (ht : Good n own t q tr l) {k : ℕ} (hk : Published tr k) (hcur : q.head ≤ k+S.size)
    (he : Effect S t q l q' es) : q'.slots (S.index k) = q.slots (S.index k) := by
  have hdist : ∀ {h y}, holds l = some (h,y) → S.index k ≠ S.index h := fun hh =>
    current_slot_free hs hp ht hk hcur hh
  cases he with
  | copyBegin y h hl =>
    subst hl
    exact content_kept (hdist rfl)
  | copyEnd y h hl =>
    subst hl
    exact content_kept (hdist rfl)
  | publish y h hl =>
    subst hl
    exact content_kept (hdist rfl)
  | _ => rfl

theorem copying_stable (hb : Ground S n own c tr) (he : Effect S t c.shared (c.locals t) q' es)
    (hne : j ≠ t) (hl : Copying S j c.shared tr (c.locals j)) :
    Copying S j q' (tr++es) (c.locals j) := by
  have hj := hb.good j
  have hkept {k x} (hk : holds (c.locals j) = some (k,x)) :=
    held_slot_kept hb.sound hb.separated (hb.good t) hj hne hk he
  generalize c.locals j = l' at *
  cases l' with
  | pushCopyBegin x h =>
    show (q'.slots (S.index h)).data.content.Settled
    rw [hkept rfl]
    exact hl
  | pushCopyEnd x h => exact (hkept rfl).trans hl
  | pushPublish x h => exact (hkept rfl).trans hl
  | popCopyEnd d tail before =>
    obtain ⟨hpop,ht,hpub⟩ := hj.ok
    have hcur := popping_current hb.tracked hpop ht
    show before = (q'.slots (S.index tail)).data
    rw [current_slot_kept hb.sound hb.separated (hb.good t) hpub hcur he]
    exact hl
  | popStoreTail d tail out =>
    obtain ⟨u,x,hx,hout⟩ := hl
    exact ⟨u,x,claims_kept hx,hout⟩
  | _ => trivial

theorem current_step (hb : Ground S n own c tr) (hd : Stored S c.shared tr)
    (hl : Copying S t c.shared tr (c.locals t))
    (he : Effect S t c.shared (c.locals t) q' es) (hh : c.shared.head ≤ q'.head) (u k : ℕ) (x : T)
    (hk : (claims (tr++es))[k]? = some (u,x)) (hp : Published (tr++es) k)
    (hcur : q'.head ≤ k+S.size) :
    (q'.slots (S.index k)).sequence = k ∧ (q'.slots (S.index k)).data.content = .whole x := by
  have hs := hb.sound
  have hle : c.shared.head ≤ k+S.size := hh.trans hcur
  by_cases hold : Published tr k
  · have hget : (claims tr)[k]? = some (u,x) := by
      have hlt : k < (claims tr).length := by
        rw [← hs.head_eq]
        exact published_lt hs hold
      rwa [claims_append,List.getElem?_append_left hlt] at hk
    rw [current_slot_kept hs hb.separated (hb.good t) hold hle he]
    exact hd.current u k x hget hold hle
  · -- only the step that publishes `k` makes it published
    have hnew := ((published_append tr es k).mp hp).resolve_left hold
    have hheld := (hb.good t).inflight
    generalize c.locals t = l at *
    cases he with
    | publish y h hy =>
      subst hy
      obtain rfl : k = h := by simpa using hnew
      have hget : (claims (tr++[.pushed t k y]))[k]? = some (t,y) :=
        claims_kept (held_claim hheld rfl).1
      obtain ⟨-,rfl⟩ := Prod.mk.inj (Option.some.inj (hk.symm.trans hget))
      have hwhole : (c.shared.slots (S.index k)).data.content = .whole x := hl
      simpa using hwhole
    | quiet h => exact absurd hnew (published_quiet h k)
    | minTail _ _ _ h => exact absurd hnew (published_quiet h k)
    | drop _ _ h => exact absurd hnew (published_quiet h k)
    | refuse => simp [Published] at hnew
    | _ => simp at hnew

theorem fresh_step (hb : Ground S n own c tr) (hd : Stored S c.shared tr)
    (he : Effect S t c.shared (c.locals t) q' es) (hh : c.shared.head ≤ q'.head) (i : ℕ)
    (hi : q'.head ≤ i) (hsize : i < S.size) : (q'.slots i).data.content = .blank := by
  have hold := hd.fresh i (hh.trans hi) hsize
  have hfree : ∀ {h : ℕ} {x : T}, holds (c.locals t) = some (h,x) → i ≠ S.index h := by
    rintro h x hx rfl
    have hlt := claim_lt hb.sound (held_claim (hb.good t).inflight hx).1
    have : S.index h = h := index_of_lt S.toRing (by omega)
    omega
  cases he with
  | copyBegin x h hl => simpa [hfree (by rw [hl]; rfl)] using hold
  | copyEnd x h hl => simpa [hfree (by rw [hl]; rfl)] using hold
  | publish x h hl => simpa [hfree (by rw [hl]; rfl)] using hold
  | _ => exact hold

theorem stored_step (hb : Ground S n own c tr) (hd : Stored S c.shared tr)
    (hbd : Within n (tr++es)) (hl : Copying S t c.shared tr (c.locals t))
    (he : Effect S t c.shared (c.locals t) q' es) : Stored S q' (tr++es) := by
  have hh : c.shared.head ≤ q'.head := head_le hb.sound.tracked hbd he
  exact ⟨current_step hb hd hl he hh,fresh_step hb hd he hh⟩

def received (q : Queue T) (tr : List (Event T)) (d : ConsumerId) (start : ℕ) : List (Option T) :=
  (((claims tr).take (q.consumers d).tail).drop start).map fun a => some a.2

/-- The pops of a consumer go on as its tail does, where no step stores its first tail. -/
theorem received_step (hb : Ground S n own c tr) (hbd : Within n (tr++es))
    (hl : Copying S t c.shared tr (c.locals t)) (he : Effect S t c.shared (c.locals t) q' es)
    {d : ConsumerId} (hno : ∀ h, c.locals t ≠ .registerStoreTail d h) {start : ℕ}
    (hstart : start ≤ (c.shared.consumers d).tail)
    (hpops : pops d tr = received c.shared tr d start) :
    pops d (tr++es) = received q' (tr++es) d start := by
  have hs := hb.sound
  have hlen : (c.shared.consumers d).tail ≤ (claims tr).length := by
    rw [← hs.head_eq]
    exact hs.tail_le d
  have hkeep : pops d es = [] → (q'.consumers d).tail = (c.shared.consumers d).tail →
      pops d (tr++es) = received q' (tr++es) d start := by
    intro hnone htail
    rw [pops_append,hnone,List.append_nil,hpops,received,received,htail,claims_append,
      List.take_append_of_le_length hlen]
  have hgood := (hb.good t).ok
  generalize c.locals t = l at *
  cases he with
  | quiet h => exact hkeep (pops_quiet h d) rfl
  | minTail k new hk h => exact hkeep (pops_quiet h d) rfl
  | drop e hk h => exact hkeep (pops_quiet h d) (setFlag_tail _ e d false)
  | raise e hk => exact hkeep rfl (setFlag_tail _ e d true)
  | storeTail e h hk =>
    have hde : d ≠ e := by
      rintro rfl
      exact hno h hk
    exact hkeep rfl (by simp [hde])
  | deliver e tail out hk =>
    subst hk
    obtain ⟨-,htail,hpub⟩ := hgood
    obtain ⟨u,x,hx,rfl⟩ := hl
    by_cases hde : d = e
    · subst hde
      have hlt := published_lt hs hpub
      have hu : u64 (tail+1) = tail+1 := by
        have := (within_earlier n _ _ hbd).1
        rw [← hs.head_eq] at this
        exact u64_of_lt (by omega)
      have hone : pops d [Event.popped t d (some x)] = [some x] := by simp [pops]
      have hfirst : start ≤ ((claims tr).take tail).length := by
        rw [List.length_take]
        omega
      rw [pops_append,hone,hpops,received,received,claims_append,claims_popped,List.append_nil,
        setConsumer_consumers,if_pos rfl,hu,← htail,List.take_add_one,hx,
        List.drop_append_of_le_length hfirst]
      simp
    · apply hkeep
      · have hed : e ≠ d := fun h => hde h.symm
        simp [pops,hed]
      · simp [hde]
  | _ => exact hkeep rfl rfl

theorem pops_step (hb : Base S n own c tr) (hd : Delivered S c.shared tr)
    (hbd : Within n (tr++es)) (hl : Copying S t c.shared tr (c.locals t))
    (he : Effect S t c.shared (c.locals t) q' es) (d : ConsumerId) :
    pops d (tr++es) =
      ((claims (tr++es)).take (q'.consumers d).tail).map fun a => some a.2 := by
  have hno : ∀ h, c.locals t ≠ .registerStoreTail d h := by
    intro h hk
    have hcalm := hb.calm t
    rw [hk] at hcalm
    exact hcalm
  exact received_step hb.toGround hbd hl he hno (Nat.zero_le _) (hd.pops d)

end Steps

variable {S : RingSize} {n : ℕ} {own : ConsumerId → ℕ} {c₀ c : Config T} {tr : List (Event T)}

theorem delivered_start (h₀ : Begun n own c₀) : Delivered S c₀.shared [] where
  current t k x hk := by simp at hk
  fresh i _ _ := by rw [h₀.slots]; rfl
  pops d := by rw [h₀.tails d]; rfl

theorem waits_copying {t : ℕ} {q : Queue T} {l : Local T} (h : Waits l) : Copying S t q tr l := by
  cases l <;> first | exact h.elim | trivial

theorem run_delivered (h₀ : Begun n own c₀) (r : (machine T S).Run (JoinedFirst own) c₀ c tr)
    (hn : n ≤ maxConsumers) :
    Delivered S c.shared tr ∧ ∀ t, Copying S t c.shared tr (c.locals t) := by
  apply System.Run.thread_invariant (within_earlier n) (A := fun t => Copying S t) ?_ ?_ ?_ r
    (joined_within h₀ r hn)
  · exact ⟨delivered_start h₀,fun t => waits_copying (h₀.waits t)⟩
  · intro c tr t m q l es r hb hd hl g ha
    have hbase := run_base h₀ r hn
    have hst := act_step ha
    have he := step_effect hst
    constructor
    · exact ⟨stored_step hbase.toGround hd.toStored hb (hl t) he,pops_step hbase hd hb (hl t) he⟩
    · exact copying_step hbase.toGround hd.toStored (hl t) hst
  · intro c tr t m q l es r hb hd hl g ha j hj
    have hbase := run_base h₀ r hn
    exact copying_stable hbase.toGround (step_effect (act_step ha)) hj (hl j)

def pushCallsBy (t : ℕ) (tr : List (Event T)) : List T :=
  tr.filterMap fun | .called j (.push x) => if j = t then some x else none | _ => none

def claimedBy (t : ℕ) (tr : List (Event T)) : List T :=
  (claims tr).filterMap fun a => if a.1 = t then some a.2 else none

def pendingItem : Local T → Option T
  | .pushLoadHead x | .pushLoadMinTail x _ | .pushCas x _ => some x
  | .scanActive (.push x ..) .. | .scanTail (.push x ..) .. | .storeMinTail (.push x ..) _ => some x
  | _ => none

def InCallOrder (t : ℕ) (tr : List (Event T)) (l : Local T) : Prop :=
  (claimedBy t tr++(pendingItem l).toList).Sublist (pushCallsBy t tr)

section Order

variable {t j : ℕ} {q q' : Queue T} {es : List (Event T)} {l l' : Local T} {m : Move T}

@[simp] theorem pushCallsBy_append (t : ℕ) (tr es : List (Event T)) :
    pushCallsBy t (tr++es) = pushCallsBy t tr ++ pushCallsBy t es := List.filterMap_append

@[simp] theorem claimedBy_append (t : ℕ) (tr es : List (Event T)) :
    claimedBy t (tr++es) = claimedBy t tr ++ claimedBy t es := by
  simp [claimedBy]

theorem inCallOrder_keep (h : InCallOrder t tr l) (hp : pendingItem l' = pendingItem l ∨
    pendingItem l' = none) (hc : claimedBy t es = []) : InCallOrder t (tr++es) l' := by
  unfold InCallOrder at *
  rw [claimedBy_append,hc,List.append_nil,pushCallsBy_append]
  apply List.Sublist.trans _ (h.trans (List.sublist_append_left _ _))
  rcases hp with hp | hp <;> simp [hp]

theorem inCallOrder_step (hl : InCallOrder t tr l) (h : Step S t m q l q' l' es) :
    InCallOrder t (tr++es) l' := by
  cases h with
  | call q op =>
    unfold InCallOrder at *
    simp only [pendingItem,Option.toList_none,List.append_nil] at hl
    cases op with
    | push x =>
      have hx : pushCallsBy t [Event.called t (.push x)] = [x] := by simp [pushCallsBy]
      rw [claimedBy_append,pushCallsBy_append,hx]
      simpa [claimedBy,Op.entry,pendingItem] using hl
    | _ => simpa [claimedBy,claims,pushCallsBy,Op.entry,pendingItem] using hl
  | casWin q x =>
    have hx : claimedBy t [Event.claimed t q.head x] = [x] := by simp [claimedBy]
    unfold InCallOrder at *
    rw [claimedBy_append,pushCallsBy_append,hx]
    simpa [pendingItem,pushCallsBy] using hl
  | scanChanged q k i ms hi =>
    apply inCallOrder_keep hl _ rfl
    cases k <;> exact Or.inl rfl
  | sawActive q k i ms hi active =>
    apply inCallOrder_keep hl _ rfl
    cases k <;> exact Or.inl rfl
  | sawInactive q k i ms hi inactive =>
    apply inCallOrder_keep hl _ rfl
    cases k <;> exact Or.inl rfl
  | readTail q k d ms =>
    apply inCallOrder_keep hl _ rfl
    cases k <;> exact Or.inl rfl
  | _ => first
    | exact inCallOrder_keep hl (Or.inl rfl) rfl
    | exact inCallOrder_keep hl (Or.inr rfl) rfl

theorem foreign_calls (hj : j ≠ t) (h : Step S t m q l q' l' es) : claimedBy j es = [] := by
  cases h <;> simp [claimedBy,claims,hj.symm]

end Order

theorem run_in_call_order {ok : Guard ℕ (Move T) (Queue T) (Local T)}
    (r : (machine T S).Run ok c₀ c tr) (hwait : ∀ t, Waits (c₀.locals t)) (t : ℕ) : InCallOrder t tr (c.locals t) := by
  induction r with
  | start =>
    have hnone : pendingItem (c₀.locals t) = none := by
      have hw := hwait t
      generalize c₀.locals t = l at hw ⊢
      cases l <;> first | exact hw.elim | rfl
    rw [InCallOrder,hnone]
    exact List.Sublist.refl _
  | @next c c' tr es j m r g h ih =>
    obtain ⟨q,l,ha,rfl⟩ := step_some h
    by_cases hj : t = j
    · subst hj
      simpa using inCallOrder_step ih (act_step ha)
    · have hkeep : InCallOrder t (tr++es) (c.locals t) :=
        inCallOrder_keep ih (Or.inl rfl) (foreign_calls hj (act_step ha))
      simpa [Function.update_of_ne hj] using hkeep

/-- Entry `k` of the claims is the compare-and-swap that moved the head from `k`. -/
theorem claimed_of_claims (h₀ : Begun n own c₀)
    (r : (machine T S).Run (JoinedFirst own) c₀ c tr) (hn : n ≤ maxConsumers) {t k : ℕ} {x : T}
    (h : (claims tr)[k]? = some (t,x)) :
    Event.claimed t k x ∈ tr := by
  induction r with
  | start => simp at h
  | @next c c' tr es j m r g hstep ih =>
    have hs := (run_base h₀ r hn).sound
    obtain ⟨q,l,ha,rfl⟩ := step_some hstep
    have hst := act_step ha
    by_cases hold : k < (claims tr).length
    · rw [claims_append,List.getElem?_append_left hold] at h
      exact List.mem_append_left _ (ih h)
    · apply List.mem_append_right
      rw [claims_append,List.getElem?_append_right (not_lt.mp hold)] at h
      have hmem := List.mem_of_getElem? h
      generalize c.locals j = l₀ at hst
      have hhead := hs.head_eq
      generalize c.shared = q₀ at hst hhead
      cases hst with
      | casWin q x =>
        obtain ⟨hk,-⟩ := List.getElem?_eq_some_iff.mp h
        obtain ⟨rfl,rfl⟩ := Prod.mk.inj (List.mem_singleton.mp hmem)
        have hpos : k = q₀.head := by
          rw [claims_claimed,List.length_singleton] at hk
          omega
        simp [hpos]
      | _ => simp [claims] at hmem

theorem joined_bounded (h₀ : Begun n own c₀) (r : (machine T S).Run (JoinedFirst own) c₀ c tr)
    (hn : n ≤ maxConsumers) (hb : (claims tr).length < 2^64-S.size) : Bounded S n tr := by
  refine ⟨hb,?_⟩
  rw [(calm_run h₀ r).2]
  exact hn

/-- Exact broadcast delivery. Once every consumer there will be has registered, pop
`k` of any consumer returns, whole, the item of the push that moved the head from
`k` to `k+1`; the pops of a consumer are the claims up to its tail; and the claims
of one producer are in the order of its calls. -/
theorem pops_broadcast (S : RingSize) (own : ConsumerId → ℕ) (c₀ c : Config T)
    (tr₀ tr : List (Event T))
    (r₀ : (machine T S).Run (Registering own) (Config.start 0) c₀ tr₀)
    (hwait : ∀ t, Waits (c₀.locals t)) (hn : (tickets tr₀).length ≤ maxConsumers)
    (r : (machine T S).Run (JoinedFirst own) c₀ c tr) (hb : (claims tr).length < 2^64-S.size) :
    (∀ d k out, (pops d tr)[k]? = some out → ∃ t x, Event.claimed t k x ∈ tr ∧ out = some x ∧
      ∀ u y, Event.claimed u k y ∈ tr → u = t ∧ y = x) ∧
    (∀ d, pops d tr = ((claims tr).take (c.shared.consumers d).tail).map fun a => some a.2) ∧
    ∀ t, (claimedBy t tr).Sublist (pushCallsBy t tr) := by
  have h₀ := registered_begun r₀ hwait hn
  have hbd := joined_bounded h₀ r hn hb
  obtain ⟨hs,-⟩ := run_sound h₀ (fun _ _ _ g => g.1) r hbd
  obtain ⟨hd,-⟩ := run_delivered h₀ r hn
  refine ⟨?_,hd.pops,fun t => ?_⟩
  · intro d k out hk
    rw [hd.pops d,List.getElem?_map,Option.map_eq_some_iff] at hk
    obtain ⟨⟨t,x⟩,hget,rfl⟩ := hk
    have hclaim : (claims tr)[k]? = some (t,x) := by
      rw [List.getElem?_take] at hget
      split_ifs at hget with hlt
      exact hget
    refine ⟨t,x,claimed_of_claims h₀ r hn hclaim,rfl,fun u y hy => ?_⟩
    have hsame := (hs.claimed u k y hy).symm.trans hclaim
    exact Prod.mk.inj (Option.some.inj hsame)
  · have h := run_in_call_order r hwait t
    exact (List.sublist_append_left _ _).trans h

def joinedCheck (own : ConsumerId → ℕ) (_ : Config T) (t : ℕ) : Move T → Bool
  | .call .registerConsumer => false
  | m => decide (OwnedMove own t m)

theorem joined_of_check (own : ConsumerId → ℕ) (c : Config T) (t : ℕ) (m : Move T)
    (h : joinedCheck own c t m = true) : JoinedFirst own c t m := by
  unfold joinedCheck at h
  split at h
  · simp at h
  · rename_i hm
    exact ⟨by simpa using h,hm⟩

def registeringCheck (own : ConsumerId → ℕ) (_ : Config T) (t : ℕ) : Move T → Bool
  | .call (.push _) => false
  | m => decide (OwnedMove own t m)

theorem registering_of_check (own : ConsumerId → ℕ) (c : Config T) (t : ℕ) (m : Move T)
    (h : registeringCheck own c t m = true) : Registering own c t m := by
  unfold registeringCheck at h
  split at h
  · cases h
  · rename_i hm
    exact ⟨by simpa using h,fun x hx => hm x hx⟩

def registerAndPoll : List (ℕ × Move ℕ) :=
  callAlone 2 .registerConsumer 4++callAlone 2 (.pop 0) 3++callAlone 1 .recomputeAndStoreMinTail 35++
    [(2,.call (.pop 0))]

def pushAndReceive : List (ℕ × Move ℕ) := callAlone 0 (.push 100) 6++List.replicate 6 (2,.go)

abbrev Outcome (T : Type*) := Config T × List (Event T)

theorem one_item_schedule : ∃ (c₀ c : Config ℕ) (tr₀ tr : List (Event ℕ)),
    (machine ℕ ring16).Run (Registering fun _ => 2) (Config.start 0) c₀ tr₀ ∧
    (machine ℕ ring16).Run (JoinedFirst fun _ => 2) c₀ c tr ∧
    (∀ t, Waits (c₀.locals t)) ∧ (tickets tr₀).length = 1 ∧
    c₀.locals 2 = .popLoadActive 0 ∧ pops 0 tr = [some 100] ∧
    (c.shared.consumers 0).tail = 1 ∧ (claims tr).length = 1 := by
  have hv :
      ((machine ℕ ring16).exec (registeringCheck fun _ => 2) (Config.start 0) registerAndPoll).any
        (fun (r : Outcome ℕ) => decide (r.1.locals 1 = .idle ∧ r.1.locals 2 = .popLoadActive 0 ∧
            (tickets r.2).length = 1) &&
          ((machine ℕ ring16).exec (joinedCheck fun _ => 2) r.1 pushAndReceive).any
            fun (r' : Outcome ℕ) => decide (pops 0 r'.2 = [some 100] ∧
              (r'.1.shared.consumers 0).tail = 1 ∧ (claims r'.2).length = 1)) = true := by
    decide +kernel
  obtain ⟨⟨c₀,tr₀⟩,h₀,hv⟩ := (Option.any_eq_true _ _).mp hv
  obtain ⟨hv₀,hv⟩ := Bool.and_eq_true_iff.mp hv
  obtain ⟨hone,htwo,htickets⟩ := of_decide_eq_true hv₀
  obtain ⟨⟨c,tr⟩,h,hv⟩ := (Option.any_eq_true _ _).mp hv
  obtain ⟨hp,htail,hc⟩ := of_decide_eq_true hv
  refine ⟨c₀,c,tr₀,tr,by simpa using exec_run (registering_of_check _) _ .start h₀,
    by simpa using exec_run (joined_of_check _) _ .start h,fun t => ?_,
    htickets,htwo,hp,htail,hc⟩
  -- only threads 1 and 2 have moved
  by_cases h1 : t = 1
  · rw [h1,hone]
    trivial
  by_cases h2 : t = 2
  · rw [h2,htwo]
    trivial
  have hall : ∀ a ∈ registerAndPoll, a.1 = 1 ∨ a.1 = 2 := by decide
  have hnot : ∀ a ∈ registerAndPoll, a.1 ≠ t := by
    rintro a ha rfl
    exact (hall a ha).elim h1 h2
  rw [exec_untouched registerAndPoll hnot h₀]
  trivial

/-- The poll begun before the push receives the item pushed. -/
theorem pops_broadcast_one_item : ∃ (c₀ c : Config ℕ) (tr₀ tr : List (Event ℕ)),
    (machine ℕ ring16).Run (Registering fun _ => 2) (Config.start 0) c₀ tr₀ ∧
    (machine ℕ ring16).Run (JoinedFirst fun _ => 2) c₀ c tr ∧
    c₀.locals 2 = .popLoadActive 0 ∧ pops 0 tr = [some 100] ∧ (c.shared.consumers 0).tail = 1 ∧
    ∃ t x, Event.claimed t 0 x ∈ tr ∧ some 100 = some x := by
  obtain ⟨c₀,c,tr₀,tr,r₀,r,hwait,ht,hpoll,hp,htail,hc⟩ := one_item_schedule
  have hn : (tickets tr₀).length ≤ maxConsumers := by
    rw [ht]
    decide
  have hb : (claims tr).length < 2^64-ring16.size := by
    rw [hc]
    decide
  obtain ⟨hk,-⟩ := pops_broadcast ring16 (fun _ => 2) c₀ c tr₀ tr r₀ hwait hn r hb
  obtain ⟨t,x,hx,hout,-⟩ := hk 0 0 (some 100) (by rw [hp]; rfl)
  exact ⟨c₀,c,tr₀,tr,r₀,r,hpoll,hp,htail,t,x,hx,hout⟩

end MpmcLogger.QueueDelivery
