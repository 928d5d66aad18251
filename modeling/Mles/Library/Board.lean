import Mathlib.Data.List.DropRight
import Mathlib.Logic.Function.Basic

/-
  Boards: one log, and readers who come and go.

  Whoever joins leaves a greeting in the log and is given
  what the board remembers, a bounded part of the end of the
  log.  Whatever is said afterwards is given to everyone who
  has joined, other than its author; greetings are not.  A
  board may forget, and begins to remember again when the
  next reader joins.  Nobody reads a board without readers,
  and nothing that is said to it is kept.

  So what a reader is given from joining to leaving is one
  window of the one log.

  Key definitions include:
    * `Board`
    * `Board.step`
    * `Board.given`
    * `Board.memory`
    * `Board.Window`

  Key theorems include:
    * `Board.step_of_joined`
    * `Board.run_of_joined`
    * `Board.window_join`
-/

------------------------------------------------------------
-- Boards
------------------------------------------------------------

namespace Board

structure Entry (A M : Type) where
  author : A
  message : M
  greeting : Bool

/- What a reader is given of what is said. -/
def Entry.heardBy
    {A M : Type}
    [DecidableEq A]
    (a : A)
    (entry : Entry A M) : Bool :=
  !entry.greeting && entry.author ≠ a

end Board

/-
  The log, the place in it from which the board remembers
  it, and for each reader the place of its greeting.
-/
structure Board (A M : Type) where
  log : List (Board.Entry A M)
  since : Option Nat
  joined : A → Option Nat
  remembered : ∀ n ∈ since, n ≤ log.length
  greeted :
    ∀ a n, joined a = some n →
      ∃ m, log[n]? = some ⟨a, m, true⟩

namespace Board

inductive Post (A M : Type) where
| join (a : A) (m : M)
| say (a : A) (m : M)
| leave (a : A)
| forget

variable {A M : Type}

/- What is said or left as a greeting. -/
def Post.message : Post A M → Option M
| .join _ m => some m
| .say _ m => some m
| .leave _ => none
| .forget => none

def empty : Board A M where
  log := []
  since := none
  joined := fun _ => none
  remembered := by simp
  greeted := by simp

/- A board with an entry more, which nobody reads yet. -/
def write
    (b : Board A M)
    (entry : Entry A M) : Board A M where
  log := b.log ++ [entry]
  since := b.since
  joined := b.joined
  remembered := by
    intro n hSince
    rw [List.length_append]
    exact Nat.le_add_right_of_le (b.remembered n hSince)
  greeted := by
    intro a n hJoined
    rcases b.greeted a n hJoined with ⟨m, hAt⟩
    rcases List.getElem?_eq_some_iff.mp hAt with ⟨hLt, _⟩
    exact ⟨m, (List.getElem?_append_left hLt).trans hAt⟩

/- The last entries that are remembered. -/
def memory
    (limit : Nat)
    (b : Board A M) : List M :=
  (((b.since.map (fun n => b.log.drop n)).getD []).map
    Entry.message).rtake limit

variable [DecidableEq A]

def greet
    (b : Board A M)
    (a : A)
    (m : M) : Board A M where
  log := b.log ++ [⟨a, m, true⟩]
  since := some (b.since.getD b.log.length)
  joined := Function.update b.joined a (some b.log.length)
  remembered := by
    intro n hSince
    rw [List.length_append]
    cases hSince
    cases hOld : b.since with
    | none => exact Nat.le_add_right _ _
    | some n =>
        exact Nat.le_add_right_of_le (b.remembered n hOld)
  greeted := by
    intro a' n hJoined
    by_cases hSame : a' = a
    · subst hSame
      rw [Function.update_self] at hJoined
      cases hJoined
      exact ⟨m, List.getElem?_concat_length⟩
    · rw [Function.update_of_ne hSame] at hJoined
      exact (b.write ⟨a, m, true⟩).greeted a' n hJoined

def part
    (b : Board A M)
    (a : A) : Board A M where
  log := b.log
  since := b.since
  joined := Function.update b.joined a none
  remembered := b.remembered
  greeted := by
    intro a' n hJoined
    by_cases hSame : a' = a
    · subst hSame
      rw [Function.update_self] at hJoined
      cases hJoined
    · rw [Function.update_of_ne hSame] at hJoined
      exact b.greeted a' n hJoined

open Classical in
noncomputable def step
    (b : Board A M) : Post A M → Board A M
| .join a m =>
    if (b.joined a).isSome then b else b.greet a m
| .say a m =>
    if ∃ x, (b.joined x).isSome then b.write ⟨a, m, false⟩
    else b
| .leave a => b.part a
| .forget => { b with since := none, remembered := by simp }

/- What one reader is given. -/
def given
    (limit : Nat)
    (a : A)
    (b : Board A M) : Post A M → List M
| .join a' _ =>
    if a' = a ∧ (b.joined a).isNone then b.memory limit
    else []
| .say a' m =>
    if a' ≠ a ∧ (b.joined a).isSome then [m] else []
| .leave _ => []
| .forget => []

/- The board after a sequence of posts. -/
noncomputable def run
    (b : Board A M)
    (posts : List (Post A M)) : Board A M :=
  posts.foldl step b

@[simp] theorem run_nil
    (b : Board A M) :
    b.run [] = b := rfl

@[simp] theorem run_cons
    (b : Board A M)
    (p : Post A M)
    (posts : List (Post A M)) :
    b.run (p :: posts) = (b.step p).run posts := rfl

theorem run_append
    (b : Board A M)
    (posts more : List (Post A M)) :
    b.run (posts ++ more) = (b.run posts).run more :=
  List.foldl_append

/- What one reader is given in the course of them. -/
noncomputable def reads
    (limit : Nat)
    (a : A)
    (b : Board A M) : List (Post A M) → List M
| [] => []
| p :: posts => b.given limit a p ++ reads limit a (b.step p) posts

theorem reads_append
    (limit : Nat)
    (a : A)
    (b : Board A M)
    (posts more : List (Post A M)) :
    b.reads limit a (posts ++ more) =
      b.reads limit a posts ++
        (b.run posts).reads limit a more := by
  induction posts generalizing b with
  | nil => rfl
  | cons p posts ih =>
      simp only [List.cons_append, reads, run_cons]
      rw [ih, List.append_assoc]

------------------------------------------------------------
-- Windows
------------------------------------------------------------

/-
  What a reader was given who joined at one place of the log
  and has read up to another: the last messages before its
  greeting, greetings among them, and then everything that
  others said.
-/
structure Window
    (limit : Nat)
    (log : List (Entry A M))
    (a : A)
    (stop : Nat)
    (got : List M) : Prop where
  stops : stop ≤ log.length
  window :
    ∃ since join m,
      since ≤ join ∧ join < stop ∧
      log[join]? = some ⟨a, m, true⟩ ∧
      got =
        (((log.take join).drop since).map
          Entry.message).rtake limit ++
        (((log.take stop).drop join).filter
          (Entry.heardBy a)).map Entry.message

/- The log only grows, by what is posted. -/
theorem log_step_cases
    (b : Board A M)
    (p : Post A M) :
    (b.step p).log = b.log ∨
      ∃ entry, (b.step p).log = b.log ++ [entry] ∧
        p.message = some entry.message := by
  cases p with
  | join a m =>
      simp only [step]
      split
      · exact Or.inl rfl
      · exact Or.inr ⟨⟨a, m, true⟩, rfl, rfl⟩
  | say a m =>
      simp only [step]
      split
      · exact Or.inr ⟨⟨a, m, false⟩, rfl, rfl⟩
      · exact Or.inl rfl
  | leave a => exact Or.inl rfl
  | forget => exact Or.inl rfl

theorem log_run
    (b : Board A M)
    (posts : List (Post A M)) :
    b.log <+: (b.run posts).log := by
  induction posts generalizing b with
  | nil => exact List.prefix_rfl
  | cons p posts ih =>
      refine List.IsPrefix.trans ?_ (ih _)
      rcases b.log_step_cases p with hSame | ⟨entry, hMore, _⟩
      · exact ⟨[], by rw [List.append_nil, hSame]⟩
      · rw [hMore]
        exact List.prefix_append _ _

/- A window of the log is one of every longer log. -/
theorem Window.mono
    {limit : Nat}
    {log log' : List (Entry A M)}
    {a : A}
    {stop : Nat}
    {got : List M}
    (hWindow : Window limit log a stop got)
    (hMore : log <+: log') :
    Window limit log' a stop got := by
  rcases hMore with ⟨more, rfl⟩
  have hStops := hWindow.stops
  rcases hWindow.window with
    ⟨since, join, m, hSince, hJoin, hAt, hGot⟩
  refine ⟨?_, since, join, m, hSince, hJoin, ?_, ?_⟩
  · rw [List.length_append]
    exact Nat.le_add_right_of_le hStops
  · rw [List.getElem?_append_left (by omega)]
    exact hAt
  · rw [List.take_append_of_le_length (by omega),
      List.take_append_of_le_length hStops]
    exact hGot

/-
  Somebody who has joined and does not leave is given what
  others say, and nothing else.
-/
theorem step_of_joined
    (limit : Nat)
    {b : Board A M}
    {a : A}
    {n : Nat}
    (hJoined : b.joined a = some n)
    {p : Post A M}
    (hStay : p ≠ .leave a) :
    (b.step p).joined a = some n ∧
      ∃ new, (b.step p).log = b.log ++ new ∧
        b.given limit a p =
          (new.filter (Entry.heardBy a)).map
            Entry.message := by
  have hSome : (b.joined a).isSome = true := by
    rw [hJoined]
    rfl
  cases p with
  | join a' m =>
      simp only [step, given, hJoined, Option.isNone_some,
        Bool.false_eq_true, and_false, if_false]
      split
      · exact ⟨hJoined, [], by simp, rfl⟩
      · rename_i hNew
        have hNe : a ≠ a' := by
          rintro rfl
          exact hNew hSome
        refine ⟨?_, [⟨a', m, true⟩], rfl, rfl⟩
        simp only [greet]
        rw [Function.update_of_ne hNe]
        exact hJoined
  | say a' m =>
      have hReader : ∃ x, (b.joined x).isSome := ⟨a, hSome⟩
      simp only [step, given, if_pos hReader, hSome, and_true]
      refine ⟨hJoined, [⟨a', m, false⟩], rfl, ?_⟩
      by_cases hOwn : a' = a
      · simp [Entry.heardBy, hOwn]
      · simp [Entry.heardBy, hOwn]
  | leave a' =>
      have hNe : a ≠ a' := by
        rintro rfl
        exact hStay rfl
      refine ⟨?_, [], by simp [step, part], rfl⟩
      simp only [step, part]
      rw [Function.update_of_ne hNe]
      exact hJoined
  | forget => exact ⟨hJoined, [], by simp [step], rfl⟩

theorem run_of_joined
    (limit : Nat)
    {b : Board A M}
    {a : A}
    {n : Nat}
    (hJoined : b.joined a = some n)
    {posts : List (Post A M)}
    (hStay : ∀ p ∈ posts, p ≠ .leave a) :
    ∃ new, (b.run posts).log = b.log ++ new ∧
      b.reads limit a posts =
        (new.filter (Entry.heardBy a)).map
          Entry.message := by
  induction posts generalizing b with
  | nil => exact ⟨[], by simp, rfl⟩
  | cons p posts ih =>
      rcases step_of_joined limit hJoined
          (hStay p List.mem_cons_self) with
        ⟨hStill, new, hLog, hGiven⟩
      rcases ih hStill
          (fun q hMem => hStay q (List.mem_cons_of_mem p hMem))
        with ⟨more, hMore, hReads⟩
      refine ⟨new ++ more, ?_, ?_⟩
      · rw [run_cons, hMore, hLog, List.append_assoc]
      · rw [reads, hGiven, hReads, List.filter_append,
          List.map_append]

/- From joining on, a reader is given a window of the log. -/
theorem window_join
    (limit : Nat)
    {b : Board A M}
    {a : A}
    (hNew : b.joined a = none)
    (m : M)
    {posts : List (Post A M)}
    (hStay : ∀ p ∈ posts, p ≠ .leave a) :
    Window limit (b.run (.join a m :: posts)).log a
      (b.run (.join a m :: posts)).log.length
      (b.reads limit a (.join a m :: posts)) := by
  have hStep : b.step (.join a m) = b.greet a m := by
    simp [step, hNew]
  have hJoined :
      (b.greet a m).joined a = some b.log.length :=
    Function.update_self ..
  rcases run_of_joined limit hJoined hStay with
    ⟨new, hLog, hReads⟩
  have hAll :
      (b.run (.join a m :: posts)).log =
        b.log ++ ([⟨a, m, true⟩] ++ new) := by
    rw [run_cons, hStep, hLog]
    simp [greet]
  have hGiven :
      b.reads limit a (.join a m :: posts) =
        b.memory limit ++
          (new.filter (Entry.heardBy a)).map
            Entry.message := by
    rw [reads, hStep, hReads]
    simp [given, hNew]
  refine ⟨Nat.le_refl _, b.since.getD b.log.length,
    b.log.length, m, ?_, ?_, ?_, ?_⟩
  · cases hSince : b.since with
    | none => exact Nat.le_refl _
    | some n => exact b.remembered n hSince
  · rw [hAll]
    simp
  · rw [hAll]
    simp
  · rw [hGiven, List.take_length, hAll, List.take_left,
      List.drop_left]
    congr 1
    · unfold memory
      cases b.since with
      | none => simp
      | some n => rfl

end Board
