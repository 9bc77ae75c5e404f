import MpmcLogger.ShmQueueManager

/-!
# One object of the shared memory

Where no other process that means to make an object finds this one under its name,
it has one maker, and until that has constructed the queue nobody else stores there.
Once it has, what all the processes do on that object, wherever else they are and
come from, is a run of the queue.
-/

set_option autoImplicit false

namespace MpmcLogger.SharedObject
open Interleaving MpmcLogger.ShmQueueManager

variable {μ σ κ ε : Type*}

theorem storeAll_append (fs gs : List (σ → σ)) (q : σ) :
    storeAll (fs++gs) q = storeAll gs (storeAll fs q) := List.foldl_append

theorem storeAll_same {fs : List (σ → σ)} {q : σ} (h : ∀ f ∈ fs, f q = q) : storeAll fs q = q := by
  induction fs with
  | nil => rfl
  | cons f fs ih =>
    have hf : f q = q := h f List.mem_cons_self
    rw [storeAll,List.foldl_cons,hf]
    exact ih fun g hg => h g (List.mem_cons_of_mem _ hg)

/-- No process that means to make an object finds object `o` under its name. -/
def Making (o : ℕ) : Guard ℕ (Move μ) (Shm σ) (Stage σ κ) := fun c p m =>
  ∀ n, c.locals p = .openNew n → m = .go true → c.shared.names n ≠ some o

def Builds (o : ℕ) : Stage σ κ → Prop
  | .truncate _ u | .map true _ u | .construct _ u _ => u = o
  | _ => False

def Expects (Q : QueueType μ σ κ ε) (o : ℕ) (x : Option σ) : Stage σ κ → Prop
  | .truncate _ u => u = o → x = none
  | .map true _ u => u = o → x = some Q.zeroed
  | .construct _ u rest => u = o → ∃ fs, Q.stores = fs++rest ∧ x = some (storeAll fs Q.zeroed)
  | .ready _ _ u l => u = o → l = Q.idle
  | _ => True

def Unused (o : ℕ) (tr : List (Event ε)) : Prop := ∀ p e, .inside p o e ∉ tr

structure Founded (Q : QueueType μ σ κ ε) (o : ℕ) (s : Shm σ) (tr : List (Event ε)) : Prop where
  named : Named s
  made : ∀ p n, .opened p n o .made ∈ tr → o < s.next
  alone : ∀ p q n k, .opened p n o .made ∈ tr → .opened q k o .made ∈ tr → p = q
  unmade : s.next ≤ o → s.memory o = none
  built : ∀ p, .constructed p o ∈ tr → s.memory o = some Q.constructed ∧ o < s.next

structure Placed (Q : QueueType μ σ κ ε) (o p : ℕ) (s : Shm σ) (tr : List (Event ε))
    (l : Stage σ κ) : Prop where
  held : object l = some o → o < s.next
  maker : Builds o l → ∃ n, .opened p n o .made ∈ tr
  expects : Expects Q o (s.memory o) l
  unbuilt : Builds o l → ∀ q, .constructed q o ∉ tr

section Founding

variable {Q : QueueType μ σ κ ε} {o p q : ℕ} {s s' : Shm σ} {m : Move μ} {l l' k : Stage σ κ}
  {tr es : List (Event ε)}

theorem builds_object (h : Builds o l) : object l = some o := by
  unfold Builds at h
  split at h
  · exact congrArg some h
  · exact congrArg some h
  · exact congrArg some h
  · exact h.elim

theorem expects_other {x y : Option σ} (hb : ¬Builds o l) (h : Expects Q o x l) :
    Expects Q o y l := by
  unfold Expects at h ⊢
  split
  · exact fun hu => (hb hu).elim
  · exact fun hu => (hb hu).elim
  · exact fun hu => (hb hu).elim
  · exact h
  · trivial

theorem memory_step (h : Step Q p s m l s' l' es) :
    s'.memory o = s.memory o ∨ Builds o l ∨ ∃ b n k u, l = .ready b n o k ∧ m = .use u := by
  cases h with
  | @truncated n u =>
    by_cases hu : u = o
    · exact Or.inr (Or.inl hu)
    · exact Or.inl (Function.update_of_ne (Ne.symm hu) _ _)
  | @stored _ n u f fs q hq =>
    by_cases hu : u = o
    · exact Or.inr (Or.inl hu)
    · exact Or.inl (Function.update_of_ne (Ne.symm hu) _ _)
  | @used b n u m k k' q q' es hq ha =>
    by_cases hu : u = o
    · subst hu
      exact Or.inr (Or.inr ⟨b,n,k,m,rfl,rfl⟩)
    · exact Or.inl (Function.update_of_ne (Ne.symm hu) _ _)
  | _ => exact Or.inl rfl

theorem made_event {n : String} (h : Step Q p s m l s' l' es)
    (he : .opened q n o .made ∈ es) : q = p ∧ o = s.next ∧ o < s'.next := by
  cases h with
  | made hn =>
    obtain ⟨rfl,rfl,rfl⟩ := by simpa using he
    exact ⟨rfl,rfl,Nat.lt_succ_self _⟩
  | _ => simp at he

theorem constructed_event (h : Step Q p s m l s' l' es) (hl : Expects Q o (s.memory o) l)
    (he : .constructed q o ∈ es) :
    Builds o l ∧ object l = some o ∧ s'.memory o = some Q.constructed := by
  cases h with
  | @constructed _ n u =>
    obtain ⟨rfl,rfl⟩ := by simpa using he
    obtain ⟨fs,hfs,hx⟩ := hl rfl
    rw [List.append_nil] at hfs
    subst hfs
    exact ⟨rfl,rfl,hx⟩
  | _ => simp at he

theorem unused_call {b : Bool} {n : String} {k k' : κ} {u : μ} {x x' : σ} {fs : List ε}
    (ha : Q.calls.act p u x k = some (x',k',fs)) (hl : Expects Q o (s.memory o) (.ready b n o k))
    (hu : Unused o (fs.map (Event.inside p o))) : False := by
  obtain rfl := hl rfl
  obtain ⟨e,gs,rfl⟩ := List.exists_cons_of_ne_nil (Q.announced ha)
  exact hu p e List.mem_cons_self

/-- Only who builds an unused object stores to it. -/
theorem memory_kept (h : Step Q p s m l s' l' es) (hl : Expects Q o (s.memory o) l)
    (hu : Unused o es) : s'.memory o = s.memory o ∨ Builds o l := by
  rcases memory_step (o := o) h with hm | hb | ⟨b,n,k,u,rfl,rfl⟩
  · exact Or.inl hm
  · exact Or.inr hb
  · cases h with
    | used hq ha => exact (unused_call ha hl hu).elim
    | killed ho hq => exact Or.inl rfl

theorem placed_none (h : object l = none) : Placed Q o p s tr l where
  held ho := by
    rw [h] at ho
    cases ho
  maker hb := by
    have ho := builds_object hb
    rw [h] at ho
    cases ho
  expects := by
    unfold Expects
    split <;> trivial
  unbuilt hb := by
    have ho := builds_object hb
    rw [h] at ho
    cases ho

theorem founded_step (h : Step Q p s m l s' l' es) (hg : Founded Q o s tr)
    (hp : Placed Q o p s tr l) (hu : Unused o es) : Founded Q o s' (tr++es) where
  named := named_step h hg.named
  made q n he := by
    rcases List.mem_append.mp he with he | he
    · exact Nat.lt_of_lt_of_le (hg.made q n he) (next_step h)
    · exact (made_event h he).2.2
  alone q q' n n' he he' := by
    have hfresh : ∀ {r k}, Event.opened r k o .made ∈ tr → o ≠ s.next := fun hr =>
      Nat.ne_of_lt (hg.made _ _ hr)
    rcases List.mem_append.mp he with he | he <;> rcases List.mem_append.mp he' with he' | he'
    · exact hg.alone q q' n n' he he'
    · exact (hfresh he (made_event h he').2.1).elim
    · exact (hfresh he' (made_event h he).2.1).elim
    · exact (made_event h he).1.trans (made_event h he').1.symm
  unmade hn := by
    have hlt : s.next ≤ o := Nat.le_trans (next_step h) hn
    rcases memory_kept h hp.expects hu with hm | hb
    · exact hm.trans (hg.unmade hlt)
    · have := hp.held (builds_object hb)
      omega
  built q he := by
    rcases List.mem_append.mp he with he | he
    · obtain ⟨hx,hlt⟩ := hg.built q he
      refine ⟨?_,Nat.lt_of_lt_of_le hlt (next_step h)⟩
      rcases memory_kept h hp.expects hu with hm | hb
      · exact hm.trans hx
      · exact (hp.unbuilt hb q he).elim
    · obtain ⟨-,ho,hx⟩ := constructed_event h hp.expects he
      exact ⟨hx,Nat.lt_of_lt_of_le (hp.held ho) (next_step h)⟩

theorem placed_onward (hp : Placed Q o p s tr l) (hn : s'.next = s.next)
    (ho : object l' = object l) (hb : Builds o l' → Builds o l)
    (hx : Expects Q o (s'.memory o) l') : Placed Q o p s' (tr++[]) l' := by
  rw [List.append_nil]
  refine ⟨fun h => ?_,fun h => hp.maker (hb h),hx,fun h => hp.unbuilt (hb h)⟩
  rw [hn]
  exact hp.held (ho.symm.trans h)

theorem placed_own (h : Step Q p s m l s' l' es) (hg : Founded Q o s tr)
    (hp : Placed Q o p s tr l) (hu : Unused o es)
    (hmake : ∀ n, l = .openNew n → m = .go true → s.names n ≠ some o) :
    Placed Q o p s' (tr++es) l' := by
  cases h with
  | @made n hn =>
    refine ⟨fun ho => ?_,fun hb => ?_,fun hb => ?_,fun hb q he => ?_⟩
    · obtain rfl := Option.some.inj ho
      exact Nat.lt_succ_self _
    · obtain rfl : s.next = o := hb
      exact ⟨n,by simp⟩
    · subst hb
      exact hg.unmade (Nat.le_refl _)
    · obtain rfl : s.next = o := hb
      have he : .constructed q s.next ∈ tr := by simpa using he
      exact absurd (hg.built q he).2 (Nat.lt_irrefl _)
  | @found n u hn =>
    have hne : u ≠ o := by
      rintro rfl
      exact hmake n rfl rfl hn
    exact ⟨fun ho => (hne (Option.some.inj ho)).elim,fun hb => (hne hb).elim,
      fun hb => (hne hb).elim,fun hb => (hne hb).elim⟩
  | @attached n u i hn =>
    refine ⟨fun ho => ?_,False.elim,trivial,False.elim⟩
    obtain rfl := Option.some.inj ho
    exact hg.named n _ hn
  | @truncated n u =>
    refine placed_onward hp rfl rfl id fun hb => ?_
    subst hb
    have hx : s.memory u = none := hp.expects rfl
    simp [Shm.truncate,Shm.store,hx]
  | @mapped n u => exact placed_onward hp rfl rfl id fun hb => ⟨[],rfl,hp.expects hb⟩
  | @stored _ n u f fs q hq =>
    refine placed_onward hp rfl rfl id fun hb => ?_
    subst hb
    obtain ⟨gs,hgs,hx⟩ := hp.expects rfl
    rw [hx] at hq
    obtain rfl := Option.some.inj hq
    refine ⟨gs++[f],by simp [hgs],?_⟩
    rw [storeAll_append]
    exact Function.update_self _ _ _
  | shared => exact ⟨hp.held,False.elim,fun _ => rfl,False.elim⟩
  | constructed => exact ⟨hp.held,False.elim,fun _ => rfl,False.elim⟩
  | @used b n u m k k' q q' es hq ha =>
    refine ⟨hp.held,False.elim,fun hb => ?_,False.elim⟩
    subst hb
    exact (unused_call ha hp.expects hu).elim
  | unlinked hn => cases hn <;> exact placed_none rfl
  | unnamed hn => cases hn <;> exact placed_none rfl
  | @destroyed b n u => cases b <;> exact placed_none rfl
  | _ => exact placed_none rfl

theorem placed_other (h : Step Q p s m l s' l' es) (hg : Founded Q o s tr)
    (hp : Placed Q o p s tr l) (hq : Placed Q o q s tr k) (hne : q ≠ p) (hu : Unused o es) :
    Placed Q o q s' (tr++es) k := by
  have hone : Builds o k → ¬Builds o l := by
    intro hk hl
    obtain ⟨n,hn⟩ := hp.maker hl
    obtain ⟨n',hn'⟩ := hq.maker hk
    exact hne (hg.alone q p n' n hn' hn)
  refine ⟨fun ho => ?_,fun hb => ?_,?_,fun hb r he => ?_⟩
  · exact Nat.lt_of_lt_of_le (hq.held ho) (next_step h)
  · obtain ⟨n,hn⟩ := hq.maker hb
    exact ⟨n,List.mem_append_left _ hn⟩
  · rcases memory_kept h hp.expects hu with hm | hb
    · rw [hm]
      exact hq.expects
    · exact expects_other (fun hk => hone hk hb) hq.expects
  · rcases List.mem_append.mp he with he | he
    · exact hq.unbuilt hb r he
    · exact hone hb (constructed_event h hp.expects he).1

end Founding

def localOn (Q : QueueType μ σ κ ε) (o : ℕ) : Stage σ κ → κ
  | .ready _ _ u l => if u = o then l else Q.idle
  | _ => Q.idle

def insideOf (o : ℕ) : Event ε → Option ε
  | .inside _ u e => if u = o then some e else none
  | _ => none

def Using (o : ℕ) (P : ℕ → μ → Prop) : Guard ℕ (Move μ) (Shm σ) (Stage σ κ) := fun c p m =>
  Making o c p m ∧ ∀ b n l u, c.locals p = .ready b n o l → m = .use u → P p u

structure Holds (Q : QueueType μ σ κ ε) (o : ℕ) (c : World σ κ) (d : Conf ℕ σ κ) : Prop where
  memory : c.shared.memory o = some d.shared
  locals : ∀ p, localOn Q o (c.locals p) = d.locals p
  closed : ∀ p, ¬Builds o (c.locals p)
  below : o < c.shared.next

section Projection

variable {Q : QueueType μ σ κ ε} {o p : ℕ} {s s' : Shm σ} {m : Move μ} {l l' : Stage σ κ}
  {es : List (Event ε)} {x : σ}

theorem insideOf_map (p : ℕ) (fs : List ε) :
    (fs.map (Event.inside p o)).filterMap (insideOf o) = fs := by
  rw [List.filterMap_map]
  exact (List.filterMap_congr fun e _ => if_pos rfl).trans List.filterMap_some

theorem insideOf_other {u : ℕ} (hu : u ≠ o) (p : ℕ) (fs : List ε) :
    (fs.map (Event.inside p u)).filterMap (insideOf o) = [] := by
  rw [List.filterMap_map]
  exact List.filterMap_eq_nil_iff.mpr fun e _ => if_neg hu

theorem closed_step (h : Step Q p s m l s' l' es) (hb : ¬Builds o l) (hlt : o < s.next)
    (hmake : ∀ n, l = .openNew n → m = .go true → s.names n ≠ some o) : ¬Builds o l' := by
  cases h with
  | made hn =>
    intro heq
    obtain rfl : s.next = o := heq
    exact Nat.lt_irrefl _ hlt
  | @found n u hn =>
    rintro rfl
    exact hmake n rfl rfl hn
  | truncated => exact hb
  | mapped => exact hb
  | stored => exact hb
  | unlinked hn => cases hn <;> exact id
  | unnamed hn => cases hn <;> exact id
  | @destroyed b n u => cases b <;> exact id
  | _ => exact id

/-- A step on the object is a step of the queue; any other leaves it as it is. -/
theorem on_step (h : Step Q p s m l s' l' es) (hx : s.memory o = some x) (hb : ¬Builds o l) :
    (∃ b n u x' fs, l = .ready b n o (localOn Q o l) ∧ m = .use u ∧
      Q.calls.act p u x (localOn Q o l) = some (x',localOn Q o l',fs) ∧
      s'.memory o = some x' ∧ es.filterMap (insideOf o) = fs) ∨
    s'.memory o = some x ∧ localOn Q o l' = localOn Q o l ∧ es.filterMap (insideOf o) = [] := by
  have hkept : ¬(∃ b n k u, l = .ready b n o k ∧ m = .use u) → s'.memory o = some x := by
    intro hused
    rcases memory_step (o := o) h with hm | hm | hm
    · exact hm.trans hx
    · exact (hb hm).elim
    · exact (hused hm).elim
  cases h with
  | @used b n u m k k' q q' fs hq ha =>
    by_cases hu : u = o
    · subst hu
      obtain rfl := Option.some.inj (hq.symm.trans hx)
      refine Or.inl ⟨b,n,m,q',fs,?_,rfl,?_,Function.update_self _ _ _,insideOf_map p fs⟩
      · simp [localOn]
      · simpa [localOn] using ha
    · refine Or.inr ⟨(Function.update_of_ne (Ne.symm hu) _ _).trans hx,?_,insideOf_other hu p fs⟩
      simp [localOn,hu]
  | @killed _ l u ho hq =>
    have hu : u ≠ o := by
      rintro rfl
      rw [hx] at hq
      cases hq
    refine Or.inr ⟨hx,?_,rfl⟩
    cases l with
    | ready b n v k =>
      obtain rfl := Option.some.inj ho
      exact (if_neg hu).symm
    | _ => rfl
  | unlinked hn => cases hn <;> exact Or.inr ⟨hx,rfl,rfl⟩
  | unnamed hn => cases hn <;> exact Or.inr ⟨hx,rfl,rfl⟩
  | threw hn => cases hn <;> exact Or.inr ⟨hx,rfl,rfl⟩
  | @destroyed b n u => cases b <;> exact Or.inr ⟨hx,by simp [localOn,released],rfl⟩
  | shared => exact Or.inr ⟨hx,by simp [localOn],rfl⟩
  | constructed => exact Or.inr ⟨hx,by simp [localOn],rfl⟩
  | _ => exact Or.inr ⟨hkept (by simp),rfl,rfl⟩

end Projection

section Runs

variable [DecidableEq κ] {Q : QueueType μ σ κ ε} {o : ℕ} {P : ℕ → μ → Prop}
  {c c₀ : World σ κ} {d₀ : Conf ℕ σ κ} {tr : List (Event ε)}

theorem run_founded (r : (machine Q).Run (Making o) boot c tr) (hu : Unused o tr) :
    Founded Q o c.shared tr ∧ ∀ p, Placed Q o p c.shared tr (c.locals p) := by
  have hB : ∀ as bs : List (Event ε), Unused o (as++bs) → Unused o as := fun as bs h p e he =>
    h p e (List.mem_append_left _ he)
  refine System.Run.thread_invariant hB (G := Founded Q o) (A := Placed Q o) ⟨?_,?_⟩ ?_ ?_ r hu
  · constructor
    · intro n u hn
      cases hn
    · intro q n he
      cases he
    · intro q q' n n' he
      cases he
    · exact fun _ => rfl
    · intro q he
      cases he
  · exact fun p => placed_none rfl
  · intro c tr p m s l es _ hb hg hl g ha
    have hes : Unused o es := fun q e he => hb q e (List.mem_append_right _ he)
    have h := act_step ha
    exact ⟨founded_step h hg (hl p) hes,placed_own h hg (hl p) hes g⟩
  · intro c tr p m s l es _ hb hg hl g ha q hq
    have hes : Unused o es := fun q e he => hb q e (List.mem_append_right _ he)
    exact placed_other (act_step ha) hg (hl p) (hl q) hq hes

/-- Once it is constructed, and not used before, the object holds a new queue. -/
theorem constructed_holds {p : ℕ} (r : (machine Q).Run (Making o) boot c tr) (hu : Unused o tr)
    (hc : .constructed p o ∈ tr) : Holds Q o c ⟨Q.constructed,fun _ => Q.idle⟩ := by
  obtain ⟨hg,hl⟩ := run_founded r hu
  obtain ⟨hx,hlt⟩ := hg.built p hc
  refine ⟨hx,fun q => ?_,fun q hb => (hl q).unbuilt hb p hc,hlt⟩
  have he := (hl q).expects
  cases hq : c.locals q with
  | ready b n u k =>
    rw [hq] at he
    by_cases huo : u = o
    · simpa [localOn,huo] using he huo
    · simp [localOn,huo]
  | _ => rfl

theorem holds_step {d : Conf ℕ σ κ} {c' : World σ κ} {p : ℕ} {m : Move μ} {es : List (Event ε)}
    (hc : Holds Q o c d) (g : Using o P c p m) (h : (machine Q).step c p m = some (c',es)) :
    ∃ d' fs, Q.calls.Run (fun _ p u => P p u) d d' fs ∧ Holds Q o c' d' ∧
      fs.filterMap some = es.filterMap (insideOf o) := by
  obtain ⟨s,l,ha,rfl⟩ := step_some h
  have hst := act_step ha
  have hclosed : ∀ q, ¬Builds o (Function.update c.locals p l q) :=
    (Function.forall_update_iff _ fun _ l => ¬Builds o l).mpr
      ⟨closed_step hst (hc.closed p) hc.below g.1,fun q _ => hc.closed q⟩
  have hbelow : o < s.next := Nat.lt_of_lt_of_le hc.below (next_step hst)
  have hothers : ∀ {k : κ}, localOn Q o l = k → ∀ q,
      localOn Q o (Function.update c.locals p l q) = Function.update d.locals p k q := by
    intro k hk q
    have hlocals : (fun q => localOn Q o (c.locals q)) = d.locals := funext hc.locals
    rw [Function.apply_update fun _ => localOn Q o,hlocals,hk]
  rcases on_step hst hc.memory (hc.closed p) with ⟨b,n,u,x,fs,hl,hm,ha,hx,hfs⟩ | ⟨hx,hl,hfs⟩
  · have hstep : Q.calls.step d p u = some (⟨x,Function.update d.locals p (localOn Q o l)⟩,fs) := by
      rw [System.step,← hc.locals p,ha]
      rfl
    refine ⟨_,[]++fs,.next .start (g.2 b n _ u hl hm) hstep,⟨hx,hothers rfl,hclosed,hbelow⟩,?_⟩
    rw [List.nil_append,List.filterMap_some,hfs]
  · refine ⟨d,[],.start,⟨hx,fun q => ?_,hclosed,hbelow⟩,hfs.symm⟩
    rw [hothers (hl.trans (hc.locals p)) q,Function.update_eq_self]

/-- What all processes do on the object is a run of the queue. -/
theorem holds_run (hc : Holds Q o c₀ d₀) (r : (machine Q).Run (Using o P) c₀ c tr) :
    ∃ d, Q.calls.Run (fun _ p u => P p u) d₀ d (tr.filterMap (insideOf o)) ∧ Holds Q o c d := by
  obtain ⟨d,fs,r',hd,hfs⟩ := System.Run.simulated hc (fun h g hs => holds_step h g hs) r
  rw [List.filterMap_some] at hfs
  subst hfs
  exact ⟨d,r',hd⟩

end Runs

end MpmcLogger.SharedObject
