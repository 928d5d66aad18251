import Mathlib.Data.List.Induction

/-
  Runs of a partial step function.

  A system is a function `step : S → A → Option S`: the
  action resolves every choice, and `none` means that the
  action is not possible in the state.  `Trace.run` performs
  a list of actions, and the induction rules below are the
  ones by which a property is carried from one step to a
  whole run.

  Key definitions include:
    * `Trace.run`
    * `Trace.Along`
    * `Trace.check`
    * `Trace.collect`
    * `Trace.Reaches`

  Key theorems include:
    * `Trace.run_snoc_eq_some_iff`
    * `Trace.snoc_eq_split`
    * `Trace.run_induction`
    * `Trace.run_induction_along`
    * `Trace.run_simulation`
    * `Trace.collect_conserved`
    * `Trace.Reaches.preserves`
-/

------------------------------------------------------------
-- Runs
------------------------------------------------------------

namespace Trace

variable {S A : Type}

/- Perform the actions in order, if each is possible. -/
def run
    (step : S → A → Option S)
    (s : S) : List A → Option S
| [] => some s
| a :: as => (step s a).bind (fun t => run step t as)

variable {step : S → A → Option S}

@[simp] theorem run_nil
    (s : S) :
    run step s [] = some s := rfl

theorem run_cons
    (s : S)
    (a : A)
    (as : List A) :
    run step s (a :: as) =
      (step s a).bind (fun t => run step t as) := rfl

/- A run may be cut at any point. -/
theorem run_append
    (s : S)
    (as bs : List A) :
    run step s (as ++ bs) =
      (run step s as).bind (fun t => run step t bs) := by
  induction as generalizing s with
  | nil => rfl
  | cons a as ih =>
      rw [List.cons_append, run_cons, run_cons]
      cases step s a with
      | none => rfl
      | some t => exact ih t

theorem run_append_eq_some_iff
    {s u : S}
    {as bs : List A} :
    run step s (as ++ bs) = some u ↔
      ∃ t, run step s as = some t ∧
        run step t bs = some u := by
  rw [run_append, Option.bind_eq_some_iff]

/- The last step of a run. -/
theorem run_snoc_eq_some_iff
    {s u : S}
    {as : List A}
    {a : A} :
    run step s (as ++ [a]) = some u ↔
      ∃ t, run step s as = some t ∧ step t a = some u := by
  rw [run_append_eq_some_iff]
  simp [run_cons]

/- Runs compose. -/
theorem run_trans
    {s t u : S}
    {as bs : List A}
    (hFirst : run step s as = some t)
    (hSecond : run step t bs = some u) :
    run step s (as ++ bs) = some u :=
  run_append_eq_some_iff.mpr ⟨t, hFirst, hSecond⟩

/- A single possible action is a run. -/
theorem run_single
    {s t : S}
    {a : A}
    (hStep : step s a = some t) :
    run step s [a] = some t := by
  simp [run_cons, hStep]

/- Where an element stands in a list that was extended. -/
theorem snoc_eq_split
    {as before behind : List A}
    {a b : A}
    (hSplit : as ++ [a] = before ++ b :: behind) :
    (as = before ∧ a = b ∧ behind = []) ∨
      ∃ rest,
        behind = rest ++ [a] ∧ as = before ++ b :: rest := by
  rcases List.eq_nil_or_concat behind with
    rfl | ⟨rest, last, rfl⟩
  · have hEq := List.append_inj' hSplit rfl
    exact Or.inl ⟨hEq.1, List.singleton_inj.mp hEq.2, rfl⟩
  · have hSnoc :
        as ++ [a] = (before ++ b :: rest) ++ [last] := by
      rw [hSplit]
      simp
    have hEq := List.append_inj' hSnoc rfl
    have hLast := List.singleton_inj.mp hEq.2
    subst hLast
    exact Or.inr ⟨rest, by simp, hEq.1⟩

------------------------------------------------------------
-- Induction Along a Run
------------------------------------------------------------

/-
  A property of the actions performed and the state reached
  holds of every run, if it holds of the empty run and every
  further step preserves it.
-/
theorem run_induction
    {s₀ : S}
    {P : List A → S → Prop}
    (hNil : P [] s₀)
    (hSnoc :
      ∀ as s a t,
        run step s₀ as = some s →
          P as s → step s a = some t → P (as ++ [a]) t)
    {as : List A}
    {s : S}
    (hRun : run step s₀ as = some s) :
    P as s := by
  induction as using List.reverseRecOn generalizing s with
  | nil =>
      have hEq : s₀ = s := Option.some.inj hRun
      subst hEq
      exact hNil
  | append_singleton as a ih =>
      rcases run_snoc_eq_some_iff.mp hRun with
        ⟨t, hPrefix, hStep⟩
      exact hSnoc as t a s hPrefix (ih hPrefix) hStep

/- Every step of the run from `s` meets the condition `C`. -/
def Along
    (step : S → A → Option S)
    (C : S → A → Prop)
    (s : S)
    (as : List A) : Prop :=
  ∀ pre a post t,
    as = pre ++ a :: post →
      run step s pre = some t → C t a

theorem Along.init
    {C : S → A → Prop}
    {s : S}
    {as bs : List A}
    (hAlong : Along step C s (as ++ bs)) :
    Along step C s as := by
  intro pre a post t hEq hRun
  exact hAlong pre a (post ++ bs) t (by simp [hEq]) hRun

theorem Along.last
    {C : S → A → Prop}
    {s t : S}
    {as : List A}
    {a : A}
    (hAlong : Along step C s (as ++ [a]))
    (hRun : run step s as = some t) :
    C t a :=
  hAlong as a [] t rfl hRun

/- Check a condition at every step of a run. -/
def check
    (step : S → A → Option S)
    (ok : S → A → Bool)
    (s : S) : List A → Bool
| [] => true
| a :: as =>
    ok s a && (step s a).all (fun t => check step ok t as)

theorem Along.of_check
    {C : S → A → Prop}
    {ok : S → A → Bool}
    (hOk : ∀ s a, ok s a = true → C s a)
    {s : S}
    {as : List A}
    (hCheck : check step ok s as = true) :
    Along step C s as := by
  induction as generalizing s with
  | nil =>
      intro pre a post t hEq _
      cases pre with
      | nil => cases hEq
      | cons b pre => cases hEq
  | cons b as ih =>
      rw [check, Bool.and_eq_true] at hCheck
      intro pre a post t hEq hRun
      cases pre with
      | nil =>
          cases hEq
          cases hRun
          exact hOk s b hCheck.1
      | cons b' pre =>
          cases hEq
          rw [run_cons] at hRun
          rcases Option.bind_eq_some_iff.mp hRun with
            ⟨u, hStep, hRest⟩
          have hTail := hCheck.2
          rw [hStep] at hTail
          exact ih hTail pre a post t rfl hRest

/-
  The induction rule for the runs whose steps all meet a
  condition on the state before the step.
-/
theorem run_induction_along
    {C : S → A → Prop}
    {s₀ : S}
    {P : List A → S → Prop}
    (hNil : P [] s₀)
    (hSnoc :
      ∀ as s a t,
        run step s₀ as = some s →
          P as s → C s a → step s a = some t →
            P (as ++ [a]) t)
    {as : List A}
    {s : S}
    (hAlong : Along step C s₀ as)
    (hRun : run step s₀ as = some s) :
    P as s := by
  refine run_induction
    (P := fun as s => Along step C s₀ as → P as s)
    (fun _ => hNil) ?_ hRun hAlong
  intro as s a t hPrefix ih hStep hAll
  exact hSnoc as s a t hPrefix (ih hAll.init)
    (hAll.last hPrefix) hStep

end Trace

------------------------------------------------------------
-- Simulation
------------------------------------------------------------

namespace Trace

variable {S T A B : Type}
variable {step : S → A → Option S}
variable {step' : T → B → Option T}

/-
  A system simulates another, if it can follow every step
  from related states by a run of its own, of any length.
  Both states may be taken to be reachable.
-/
theorem run_simulation
    {R : S → T → Prop}
    {s₀ : S}
    {t₀ : T}
    (hStart : R s₀ t₀)
    (hStep :
      ∀ as bs s t a s',
        run step s₀ as = some s →
          run step' t₀ bs = some t →
            R s t → step s a = some s' →
              ∃ more t', run step' t more = some t' ∧ R s' t')
    {as : List A}
    {s : S}
    (hRun : run step s₀ as = some s) :
    ∃ bs t, run step' t₀ bs = some t ∧ R s t := by
  refine run_induction
    (P := fun _ s => ∃ bs t, run step' t₀ bs = some t ∧ R s t)
    ⟨[], t₀, rfl, hStart⟩ ?_ hRun
  rintro as s a s' hPrefix ⟨bs, t, hRun', hRel⟩ hLast
  rcases hStep as bs s t a s' hPrefix hRun' hRel hLast with
    ⟨more, t', hMore, hNext⟩
  exact ⟨bs ++ more, t', run_trans hRun' hMore, hNext⟩

end Trace

------------------------------------------------------------
-- Records of a Run
------------------------------------------------------------

namespace Trace

variable {S A B : Type}

/- What the steps of a run leave behind, in order. -/
def collect
    (step : S → A → Option S)
    (f : S → A → List B)
    (s : S) : List A → List B
| [] => []
| a :: as =>
    f s a ++
      ((step s a).map (fun t => collect step f t as)).getD []

variable {step : S → A → Option S}

theorem collect_snoc
    (f : S → A → List B)
    {s t : S}
    {as : List A}
    (a : A)
    (hRun : run step s as = some t) :
    collect step f s (as ++ [a]) =
      collect step f s as ++ f t a := by
  induction as generalizing s with
  | nil =>
      have hEq : s = t := Option.some.inj hRun
      subst hEq
      cases hStep : step s a with
      | none => simp [collect, hStep]
      | some t => simp [collect, hStep]
  | cons b as ih =>
      rw [run_cons] at hRun
      rcases Option.bind_eq_some_iff.mp hRun with
        ⟨u, hStep, hRest⟩
      simp [collect, hStep, ih hRest]

/-
  A container whose steps keep their accounts loses nothing:
  what was put into it is what was taken out and what it
  still contains, in order.
-/
theorem collect_conserved
    {contents : S → List B}
    {puts gets : S → A → List B}
    {s₀ s : S}
    {as : List A}
    (hStart : contents s₀ = [])
    (hStep :
      ∀ s a t,
        step s a = some t →
          contents s ++ puts s a = gets s a ++ contents t)
    (hRun : run step s₀ as = some s) :
    collect step puts s₀ as =
      collect step gets s₀ as ++ contents s := by
  refine run_induction
    (P := fun as s =>
      collect step puts s₀ as =
        collect step gets s₀ as ++ contents s)
    ?_ ?_ hRun
  · rw [hStart]
    rfl
  · intro as s a t hPrefix ih hLast
    rw [collect_snoc puts a hPrefix,
      collect_snoc gets a hPrefix, ih, List.append_assoc,
      hStep s a t hLast, List.append_assoc]

end Trace

------------------------------------------------------------
-- Continuations
------------------------------------------------------------

namespace Trace

variable {S A : Type}

/- A run of allowed actions leads from `s` to `t`. -/
def Reaches
    (step : S → A → Option S)
    (allowed : A → Prop)
    (s t : S) : Prop :=
  ∃ as, run step s as = some t ∧ ∀ a ∈ as, allowed a

variable {step : S → A → Option S}
variable {allowed : A → Prop}

theorem Reaches.refl
    (s : S) :
    Reaches step allowed s s :=
  ⟨[], rfl, by simp⟩

theorem Reaches.single
    {s t : S}
    {a : A}
    (hStep : step s a = some t)
    (hAllowed : allowed a) :
    Reaches step allowed s t :=
  ⟨[a], run_single hStep, by simpa using hAllowed⟩

theorem Reaches.trans
    {s t u : S}
    (hFirst : Reaches step allowed s t)
    (hSecond : Reaches step allowed t u) :
    Reaches step allowed s u := by
  rcases hFirst with ⟨as, hRun, hAll⟩
  rcases hSecond with ⟨bs, hRun', hAll'⟩
  refine ⟨as ++ bs, run_trans hRun hRun', ?_⟩
  intro a hMem
  rcases List.mem_append.mp hMem with hLeft | hRight
  · exact hAll a hLeft
  · exact hAll' a hRight

end Trace
