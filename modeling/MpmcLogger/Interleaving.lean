import Mathlib.Logic.Function.Basic
import Mathlib.Data.List.Basic

/-!
# Interleavings of sequential threads over one shared state

A system is a step function of a single thread: it reads and writes the shared
state and its own local state, and emits the events an observer sees. Runs
interleave any threads in any order. The guard of a run names the steps it may
take and is judged in the configuration before the step; scheduling carries no
fairness. Then the thread-modular invariant rule: what a thread keeps about
itself, and what it keeps of every other thread's assertion. Last the rule of
forward simulation between two systems.
-/

set_option autoImplicit false

namespace Interleaving

variable {ι μ σ κ ε : Type*}

structure Conf (ι σ κ : Type*) where
  shared : σ
  locals : ι → κ

structure System (ι μ σ κ ε : Type*) where
  act : ι → μ → σ → κ → Option (σ × κ × List ε)

abbrev Guard (ι μ σ κ : Type*) := Conf ι σ κ → ι → μ → Prop

variable [DecidableEq ι]

def System.step (M : System ι μ σ κ ε) (c : Conf ι σ κ) (i : ι) (m : μ) :
    Option (Conf ι σ κ × List ε) :=
  (M.act i m c.shared (c.locals i)).map fun r =>
    (⟨r.1,Function.update c.locals i r.2.1⟩,r.2.2)

inductive System.Run (M : System ι μ σ κ ε) (ok : Guard ι μ σ κ) (c₀ : Conf ι σ κ) :
    Conf ι σ κ → List ε → Prop
  | start : Run M ok c₀ c₀ []
  | next {c c' : Conf ι σ κ} {tr es : List ε} {i : ι} {m : μ} (r : Run M ok c₀ c tr)
      (g : ok c i m) (h : M.step c i m = some (c',es)) : Run M ok c₀ c' (tr++es)

inductive System.Path (M : System ι μ σ κ ε) (ok : Guard ι μ σ κ) (c₀ : Conf ι σ κ) :
    List (Conf ι σ κ) → Conf ι σ κ → List ε → Prop
  | here : Path M ok c₀ [c₀] c₀ []
  | more {cs : List (Conf ι σ κ)} {c c' : Conf ι σ κ} {tr es : List ε} {i : ι} {m : μ}
      (p : Path M ok c₀ cs c tr) (g : ok c i m) (h : M.step c i m = some (c',es)) :
      Path M ok c₀ (cs++[c']) c' (tr++es)

inductive System.Turns (M : System ι μ σ κ ε) (ok : Guard ι μ σ κ) (i : ι) (c₀ : Conf ι σ κ) :
    Conf ι σ κ → List ε → ℕ → Prop
  | start : Turns M ok i c₀ c₀ [] 0
  | own {c c' : Conf ι σ κ} {tr es : List ε} {n : ℕ} {m : μ} (r : Turns M ok i c₀ c tr n)
      (g : ok c i m) (h : M.step c i m = some (c',es)) : Turns M ok i c₀ c' (tr++es) (n+1)
  | other {c c' : Conf ι σ κ} {tr es : List ε} {n : ℕ} {j : ι} {m : μ} (r : Turns M ok i c₀ c tr n)
      (hj : j ≠ i) (g : ok c j m) (h : M.step c j m = some (c',es)) : Turns M ok i c₀ c' (tr++es) n

variable {M : System ι μ σ κ ε} {ok ok' : Guard ι μ σ κ} {c₀ c c' : Conf ι σ κ}
  {tr es : List ε} {i : ι} {m : μ}

theorem step_some (h : M.step c i m = some (c',es)) : ∃ s l,
    M.act i m c.shared (c.locals i) = some (s,l,es) ∧
      c' = ⟨s,Function.update c.locals i l⟩ := by
  obtain ⟨⟨s,l,es'⟩,ha,he⟩ := Option.map_eq_some_iff.mp h
  obtain ⟨rfl,rfl⟩ := Prod.mk.inj he
  exact ⟨s,l,ha,rfl⟩

theorem System.Run.mono (hg : ∀ c i m, ok c i m → ok' c i m) (r : M.Run ok c₀ c tr) :
    M.Run ok' c₀ c tr := by
  induction r with
  | start => exact .start
  | next _ g h ih => exact .next ih (hg _ _ _ g) h

theorem System.Run.trans (r : M.Run ok c₀ c tr) (r' : M.Run ok c c' es) :
    M.Run ok c₀ c' (tr++es) := by
  induction r' with
  | start => simpa using r
  | next _ g h ih => simpa [List.append_assoc] using ih.next g h

theorem System.Turns.run {n : ℕ} (r : M.Turns ok i c₀ c tr n) : M.Run ok c₀ c tr := by
  induction r with
  | start => exact .start
  | own _ g h ih => exact ih.next g h
  | other _ _ g h ih => exact ih.next g h

/-- The measure rule: a measure that every step of thread `i` lowers and no
other step raises bounds the steps that thread `i` takes. -/
theorem System.Turns.lowers {P : Conf ι σ κ → List ε → Prop} {w : Conf ι σ κ → ℕ}
    (hstart : P c₀ [])
    (own : ∀ {c tr m c' es}, P c tr → ok c i m → M.step c i m = some (c',es) →
      P c' (tr++es) ∧ w c' < w c)
    (other : ∀ {c tr j m c' es}, P c tr → j ≠ i → ok c j m → M.step c j m = some (c',es) →
      P c' (tr++es) ∧ w c' ≤ w c) {n : ℕ} (r : M.Turns ok i c₀ c tr n) :
    P c tr ∧ n+w c ≤ w c₀ := by
  induction r with
  | start => exact ⟨hstart,by omega⟩
  | own _ g h ih =>
    obtain ⟨hp,hw⟩ := own ih.1 g h
    exact ⟨hp,by omega⟩
  | other _ hj g h ih =>
    obtain ⟨hp,hw⟩ := other ih.1 hj g h
    exact ⟨hp,by omega⟩

/-- The completion rule: a thread whose every step lowers a measure of its local
state, or takes it to `Q`, gets to `Q` when it runs alone. What holds of the
events of these steps holds of all events on the way. -/
theorem System.completes {P : σ → κ → Prop} {Q : κ → Prop} {R : ε → Prop} {w : κ → ℕ}
    (hok : ∀ c, ok c i m) (hstep : ∀ s l, P s l → ∃ s' l' es, M.act i m s l = some (s',l',es) ∧
      (∀ e ∈ es, R e) ∧ (Q l' ∨ P s' l' ∧ w l' < w l)) (c : Conf ι σ κ)
    (h : P c.shared (c.locals i)) : ∃ c' tr, M.Run ok c c' tr ∧ (∀ e ∈ tr, R e) ∧
      Q (c'.locals i) ∧ ∀ j, j ≠ i → c'.locals j = c.locals j := by
  generalize hk : w (c.locals i) = k
  induction k using Nat.strongRecOn generalizing c with
  | _ k ih =>
    obtain ⟨s,l,es,ha,hes,hnext⟩ := hstep _ _ h
    let d : Conf ι σ κ := ⟨s,Function.update c.locals i l⟩
    have hlocal : d.locals i = l := Function.update_self _ _ _
    have hothers : ∀ j, j ≠ i → d.locals j = c.locals j := fun j hj =>
      Function.update_of_ne hj _ _
    have r : M.Run ok c d ([]++es) := System.Run.start.next (hok c) (by simp [System.step,ha,d])
    rw [List.nil_append] at r
    rcases hnext with hq | ⟨hp,hw⟩
    · exact ⟨d,es,r,hes,by rwa [hlocal],hothers⟩
    · obtain ⟨c',tr,r',htr,hq,hc'⟩ := ih (w l) (hk ▸ hw) d (by rwa [hlocal]) (by rw [hlocal])
      refine ⟨c',_,r.trans r',fun e he => ?_,hq,fun j hj => (hc' j hj).trans (hothers j hj)⟩
      exact (List.mem_append.mp he).elim (hes e) (htr e)

theorem System.Path.run {cs : List (Conf ι σ κ)} (r : M.Run ok c₀ c tr)
    (p : M.Path ok c cs c' es) : M.Run ok c₀ c' (tr++es) := by
  induction p with
  | here => simpa using r
  | more _ g h ih => simpa [List.append_assoc] using ih.next g h

theorem System.Path.mono (hg : ∀ c i m, ok c i m → ok' c i m) {cs : List (Conf ι σ κ)}
    (p : M.Path ok c₀ cs c tr) : M.Path ok' c₀ cs c tr := by
  induction p with
  | here => exact .here
  | more _ g h ih => exact .more ih (hg _ _ _ g) h

theorem System.Path.last_mem {cs : List (Conf ι σ κ)} (p : M.Path ok c cs c' es) : c' ∈ cs := by
  cases p <;> simp

def System.exec (M : System ι μ σ κ ε) (chk : Conf ι σ κ → ι → μ → Bool) :
    Conf ι σ κ → List (ι × μ) → Option (Conf ι σ κ × List ε)
  | c, [] => some (c,[])
  | c, a::as =>
    if chk c a.1 a.2 then
      match M.step c a.1 a.2 with
      | none => none
      | some (d,es) => (M.exec chk d as).map fun r => (r.1,es++r.2)
    else none

theorem exec_cons {chk : Conf ι σ κ → ι → μ → Bool} {a : ι × μ} {as : List (ι × μ)}
    (h : M.exec chk c (a::as) = some (c',es)) : ∃ d fs gs, chk c a.1 a.2 = true ∧
      M.step c a.1 a.2 = some (d,fs) ∧ M.exec chk d as = some (c',gs) ∧ es = fs++gs := by
  rw [System.exec] at h
  split_ifs at h with hc
  cases hs : M.step c a.1 a.2 with
  | none => simp [hs] at h
  | some p =>
    simp only [hs] at h
    obtain ⟨⟨d,gs⟩,hd,he⟩ := Option.map_eq_some_iff.mp h
    obtain ⟨rfl,rfl⟩ := Prod.mk.inj he
    exact ⟨p.1,p.2,gs,hc,rfl,hd,rfl⟩

theorem exec_run {chk : Conf ι σ κ → ι → μ → Bool} (hg : ∀ d i m, chk d i m = true → ok d i m)
    (as : List (ι × μ)) (r : M.Run ok c₀ c tr) (h : M.exec chk c as = some (c',es)) :
    M.Run ok c₀ c' (tr++es) := by
  induction as generalizing c tr es with
  | nil =>
    obtain ⟨rfl,rfl⟩ := Prod.mk.inj (Option.some.inj h)
    simpa using r
  | cons a as ih =>
    obtain ⟨d,fs,gs,hc,hs,hd,rfl⟩ := exec_cons h
    have hr := r.next (hg c _ _ hc) hs
    simpa [List.append_assoc] using ih hr hd

theorem exec_turns {chk : Conf ι σ κ → ι → μ → Bool} (hg : ∀ d i m, chk d i m = true → ok d i m)
    (k : ℕ) {n : ℕ} (r : M.Turns ok i c₀ c tr n)
    (h : M.exec chk c (List.replicate k (i,m)) = some (c',es)) :
    M.Turns ok i c₀ c' (tr++es) (n+k) := by
  induction k generalizing c tr es n with
  | zero =>
    obtain ⟨rfl,rfl⟩ := Prod.mk.inj (Option.some.inj h)
    simpa using r
  | succ k ih =>
    rw [List.replicate_succ] at h
    obtain ⟨d,fs,gs,hc,hs,hd,rfl⟩ := exec_cons h
    have hr := ih (r.own (hg c _ _ hc) hs) hd
    rwa [List.append_assoc,Nat.add_assoc,Nat.add_comm 1] at hr

theorem exec_untouched {chk : Conf ι σ κ → ι → μ → Bool} (as : List (ι × μ))
    (hi : ∀ a ∈ as, a.1 ≠ i) (h : M.exec chk c as = some (c',es)) : c'.locals i = c.locals i := by
  induction as generalizing c es with
  | nil =>
    obtain ⟨rfl,-⟩ := Prod.mk.inj (Option.some.inj h)
    rfl
  | cons a as ih =>
    obtain ⟨d,fs,gs,-,hs,hd,rfl⟩ := exec_cons h
    obtain ⟨s,l,-,hp⟩ := step_some hs
    rw [ih (fun b hb => hi b (List.mem_cons_of_mem _ hb)) hd,hp]
    exact Function.update_of_ne (hi a List.mem_cons_self).symm _ _

theorem exec_alone {chk : Conf ι σ κ → ι → μ → Bool}
    (hg : ∀ d m, (∀ j, j ≠ i → d.locals j = c₀.locals j) → chk d i m = true → ok d i m)
    (as : List (ι × μ)) (hi : ∀ a ∈ as, a.1 = i) (r : M.Run ok c₀ c tr)
    (hc : ∀ j, j ≠ i → c.locals j = c₀.locals j) (h : M.exec chk c as = some (c',es)) :
    M.Run ok c₀ c' (tr++es) := by
  induction as generalizing c tr es with
  | nil =>
    obtain ⟨rfl,rfl⟩ := Prod.mk.inj (Option.some.inj h)
    simpa using r
  | cons a as ih =>
    obtain rfl : a.1 = i := hi a List.mem_cons_self
    obtain ⟨d,fs,gs,hv,hs,hd,rfl⟩ := exec_cons h
    have hr := r.next (hg c _ hc hv) hs
    have hothers : ∀ j, j ≠ a.1 → d.locals j = c₀.locals j := by
      intro j hj
      obtain ⟨s,l,-,hp⟩ := step_some hs
      rw [hp]
      exact (Function.update_of_ne hj _ _).trans (hc j hj)
    have hrest := ih (fun b hb => hi b (List.mem_cons_of_mem _ hb)) hr hothers hd
    simpa [List.append_assoc] using hrest

theorem System.Path.all {P : Conf ι σ κ → Prop} {cs : List (Conf ι σ κ)} (p : M.Path ok c₀ cs c tr)
    (hp : ∀ d ∈ cs.dropLast, P d) (hlast : P c) : ∀ d ∈ cs, P d := by
  intro d hd
  cases p with
  | here =>
    obtain rfl := List.mem_singleton.mp hd
    exact hlast
  | more _ _ _ =>
    rcases List.mem_append.mp hd with hd | hd
    · exact hp d (by simpa using hd)
    · obtain rfl := List.mem_singleton.mp hd
      exact hlast

theorem exec_path {P : Conf ι σ κ → Prop} {chk : Conf ι σ κ → ι → μ → Bool}
    (hg : ∀ d i m, chk d i m = true → ok d i m ∧ P d) (as : List (ι × μ))
    {cs : List (Conf ι σ κ)} (p : M.Path ok c₀ cs c tr) (hp : ∀ d ∈ cs.dropLast, P d)
    (h : M.exec chk c as = some (c',es)) (hlast : P c') :
    ∃ ds, M.Path ok c₀ ds c' (tr++es) ∧ ∀ d ∈ ds, P d := by
  induction as generalizing c tr es cs with
  | nil =>
    obtain ⟨rfl,rfl⟩ := Prod.mk.inj (Option.some.inj h)
    exact ⟨cs,by simpa using p,p.all hp hlast⟩
  | cons a as ih =>
    obtain ⟨d,fs,gs,hc,hs,hd,rfl⟩ := exec_cons h
    obtain ⟨g,hP⟩ := hg c _ _ hc
    have hall := p.all hp hP
    simpa [List.append_assoc] using ih (p.more g hs) (by simpa using hall) hd

/-- A check passed at the end of a schedule is passed at the end of some run. -/
theorem exec_any (M : System ι μ σ κ ε) (c₀ : Conf ι σ κ) {chk : Conf ι σ κ → ι → μ → Bool}
    (hg : ∀ d i m, chk d i m = true → ok d i m)
    (as : List (ι × μ)) (p : Conf ι σ κ × List ε → Bool) (h : (M.exec chk c₀ as).any p = true) :
    ∃ c tr, M.Run ok c₀ c tr ∧ p (c,tr) = true := by
  cases he : M.exec chk c₀ as with
  | none => simp [he] at h
  | some r =>
    obtain ⟨c,tr⟩ := r
    exact ⟨c,tr,by simpa using exec_run hg as .start he,by simpa [he] using h⟩

/-- Induction over runs whose complete history satisfies a bound that every
earlier history then satisfies as well. -/
theorem System.Run.bounded_induction {B : List ε → Prop} (hB : ∀ tr es, B (tr++es) → B tr)
    {P : Conf ι σ κ → List ε → Prop} (hstart : P c₀ [])
    (hnext : ∀ {c tr i m s l es}, M.Run ok c₀ c tr → B (tr++es) → P c tr → ok c i m →
      M.act i m c.shared (c.locals i) = some (s,l,es) →
      P ⟨s,Function.update c.locals i l⟩ (tr++es))
    (r : M.Run ok c₀ c tr) (hb : B tr) : P c tr := by
  induction r with
  | start => exact hstart
  | next r g h ih =>
    obtain ⟨s,l,ha,rfl⟩ := step_some h
    exact hnext r hb (ih (hB _ _ hb)) g ha

/-- The thread-modular rule. `G` speaks of the shared state and the history,
`A i` also of what thread `i` holds locally. A step re-establishes both for its
own thread and may not spoil the assertion of any other thread. -/
theorem System.Run.thread_invariant {B : List ε → Prop} (hB : ∀ tr es, B (tr++es) → B tr)
    {G : σ → List ε → Prop} {A : ι → σ → List ε → κ → Prop}
    (hstart : G c₀.shared [] ∧ ∀ i, A i c₀.shared [] (c₀.locals i))
    (own : ∀ {c tr i m s l es}, M.Run ok c₀ c tr → B (tr++es) → G c.shared tr →
      (∀ j, A j c.shared tr (c.locals j)) → ok c i m →
      M.act i m c.shared (c.locals i) = some (s,l,es) → G s (tr++es) ∧ A i s (tr++es) l)
    (other : ∀ {c tr i m s l es}, M.Run ok c₀ c tr → B (tr++es) → G c.shared tr →
      (∀ j, A j c.shared tr (c.locals j)) → ok c i m →
      M.act i m c.shared (c.locals i) = some (s,l,es) →
      ∀ j, j ≠ i → A j s (tr++es) (c.locals j))
    (r : M.Run ok c₀ c tr) (hb : B tr) :
    G c.shared tr ∧ ∀ i, A i c.shared tr (c.locals i) := by
  refine System.Run.bounded_induction hB
    (P := fun c tr => G c.shared tr ∧ ∀ i, A i c.shared tr (c.locals i)) hstart ?_ r hb
  intro c tr i m s l es r hb hi g ha
  obtain ⟨hg,hl⟩ := own r hb hi.1 hi.2 g ha
  refine ⟨hg,fun j => ?_⟩
  by_cases hj : j = i
  · subst hj
    simpa using hl
  · simpa [Function.update_of_ne hj] using other r hb hi.1 hi.2 g ha j hj

section Simulation

variable {ι' μ' σ' κ' ε' η : Type*} [DecidableEq ι'] {N : System ι' μ' σ' κ' ε'}
  {may : Guard ι' μ' σ' κ'} {d₀ : Conf ι' σ' κ'} {R : Conf ι σ κ → Conf ι' σ' κ' → Prop}
  {shown : ε → Option η} {shown' : ε' → Option η}

/-- The forward simulation rule: where every step of `M` has a run of `N` that
shows the same and keeps the relation, so has every run of `M`. -/
theorem System.Run.simulated (hstart : R c₀ d₀)
    (hstep : ∀ {c d i m c' es}, R c d → ok c i m → M.step c i m = some (c',es) →
      ∃ d' fs, N.Run may d d' fs ∧ R c' d' ∧ fs.filterMap shown' = es.filterMap shown)
    (r : M.Run ok c₀ c tr) :
    ∃ d fs, N.Run may d₀ d fs ∧ R c d ∧ fs.filterMap shown' = tr.filterMap shown := by
  induction r with
  | start => exact ⟨d₀,[],.start,hstart,rfl⟩
  | next _ g h ih =>
    obtain ⟨d,fs,r,hd,hfs⟩ := ih
    obtain ⟨d',gs,r',hd',hgs⟩ := hstep hd g h
    exact ⟨d',fs++gs,r.trans r',hd',by rw [List.filterMap_append,List.filterMap_append,hfs,hgs]⟩

end Simulation

end Interleaving
