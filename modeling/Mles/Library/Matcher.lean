import Mles.Library.Program

/-
  Matchers, as routers are made of.

  A matcher looks at a state and extracts a value from it,
  or rejects.  It may make calls, and what it has done to
  the state stays done, also when it rejects.  One matcher
  may follow another (`Matcher.andThen`) or be tried if the
  other rejects (`Matcher.or`), with a part of the state put
  back first.  `Matcher.Keeps` is an invariant of the state
  that bounds the calls, part by part.

  Key definitions include:
    * `Matcher`
    * `Matcher.andThen`
    * `Matcher.or`
    * `Matcher.guard`
    * `Matcher.Keeps`

  Key theorems include:
    * `Matcher.or_of_accepts`
    * `Matcher.or_of_rejects`
    * `Matcher.Keeps.andThen`
    * `Matcher.Keeps.or`
-/

------------------------------------------------------------
-- Matchers
------------------------------------------------------------

def Matcher
    (S Op : Type)
    (Ans : Op → Type)
    (α : Type) :=
  S → Program Op Ans (Option α × S)

namespace Matcher

variable {S Op : Type} {Ans : Op → Type}
variable {α β : Type}

/- Extract a value that is there. -/
def extract (f : S → α) : Matcher S Op Ans α :=
  fun s => .done (some (f s), s)

def any : Matcher S Op Ans Unit :=
  extract (fun _ => ())

/- Go on only if the state is as asked for. -/
def guard (p : S → Bool) : Matcher S Op Ans Unit :=
  fun s => .done (if p s then some () else none, s)

def andThen
    (a : Matcher S Op Ans α)
    (f : α → Matcher S Op Ans β) : Matcher S Op Ans β :=
  fun s => do
    match ← a s with
    | (some x, t) => f x t
    | (none, t) => return (none, t)

/- `reset s t` is `t` with a part of `s` put back. -/
def or
    (reset : S → S → S)
    (a b : Matcher S Op Ans α) : Matcher S Op Ans α :=
  fun s => do
    match ← a s with
    | (some x, t) => return (some x, t)
    | (none, t) => b (reset s t)

theorem guard_andThen
    (p : S → Bool)
    (f : Unit → Matcher S Op Ans β)
    (s : S) :
    (guard p).andThen f s =
      if p s then f () s else .done (none, s) := by
  unfold Matcher.andThen guard
  cases p s with
  | true => rfl
  | false => rfl

variable {answer : (op : Op) → Ans op}

section Outcomes

variable
    (reset : S → S → S)
    {a : Matcher S Op Ans α}
    (b : Matcher S Op Ans α)
    {s t : S}

/- What the first one accepts is not offered to another. -/
theorem or_of_accepts
    {x : α}
    (hAccepts : (a s).eval answer = (some x, t)) :
    ((a.or reset b) s).eval answer = (some x, t) ∧
      ((a.or reset b) s).calls answer =
        (a s).calls answer := by
  unfold Matcher.or
  rw [Program.eval_bind, Program.calls_bind, hAccepts]
  simp

theorem or_of_rejects
    (hRejects : (a s).eval answer = (none, t)) :
    ((a.or reset b) s).eval answer =
        (b (reset s t)).eval answer ∧
      ((a.or reset b) s).calls answer =
        (a s).calls answer ++
          (b (reset s t)).calls answer := by
  unfold Matcher.or
  rw [Program.eval_bind, Program.calls_bind, hRejects]
  simp

end Outcomes

------------------------------------------------------------
-- Invariants
------------------------------------------------------------

/-
  From a state as `I` says, whatever the answers are: the
  calls are as `P` says, the state stays as `I` says, and
  what is extracted is as `Q` says.
-/
def Keeps
    (I : S → Prop)
    (P : Op → Prop)
    (Q : α → Prop)
    (a : Matcher S Op Ans α) : Prop :=
  ∀ s, I s →
    (a s).Always P ∧
      (a s).Yields (fun out =>
        I out.2 ∧ ∀ x, out.1 = some x → Q x)

section Invariants

variable {I : S → Prop} {P : Op → Prop}
variable {Q : α → Prop} {R : β → Prop}
variable {a b : Matcher S Op Ans α}

theorem keeps_extract
    {f : S → α}
    (hValue : ∀ s, I s → Q (f s)) :
    Keeps I P Q (extract f : Matcher S Op Ans α) := by
  intro s hState
  refine ⟨trivial, hState, ?_⟩
  rintro x ⟨⟩
  exact hValue s hState

theorem keeps_guard
    (p : S → Bool) :
    Keeps I P (fun _ => True)
      (guard p : Matcher S Op Ans Unit) :=
  fun _ hState => ⟨trivial, hState, fun _ _ => trivial⟩

theorem Keeps.andThen
    {f : α → Matcher S Op Ans β}
    (hFirst : Keeps I P Q a)
    (hNext : ∀ x, Q x → Keeps I P R (f x)) :
    Keeps I P R (a.andThen f) := by
  intro s hState
  rcases hFirst s hState with ⟨hCalls, hOut⟩
  unfold Matcher.andThen
  rw [Program.always_bind_iff, Program.yields_bind_iff]
  refine ⟨⟨hCalls, hOut.mono ?_⟩, hOut.mono ?_⟩
  · rintro ⟨x, t⟩ ⟨hKept, hValue⟩
    cases x with
    | none => trivial
    | some x => exact (hNext x (hValue x rfl) t hKept).1
  · rintro ⟨x, t⟩ ⟨hKept, hValue⟩
    cases x with
    | none =>
        refine ⟨hKept, ?_⟩
        rintro y ⟨⟩
    | some x => exact (hNext x (hValue x rfl) t hKept).2

theorem Keeps.or
    {reset : S → S → S}
    (hReset : ∀ s t, I s → I t → I (reset s t))
    (hFirst : Keeps I P Q a)
    (hSecond : Keeps I P Q b) :
    Keeps I P Q (a.or reset b) := by
  intro s hState
  rcases hFirst s hState with ⟨hCalls, hOut⟩
  unfold Matcher.or
  rw [Program.always_bind_iff, Program.yields_bind_iff]
  refine ⟨⟨hCalls, hOut.mono ?_⟩, hOut.mono ?_⟩
  · rintro ⟨x, t⟩ ⟨hKept, _⟩
    cases x with
    | none => exact (hSecond _ (hReset s t hState hKept)).1
    | some x => trivial
  · rintro ⟨x, t⟩ ⟨hKept, hValue⟩
    cases x with
    | none => exact (hSecond _ (hReset s t hState hKept)).2
    | some x => exact ⟨hKept, hValue⟩

end Invariants

end Matcher
