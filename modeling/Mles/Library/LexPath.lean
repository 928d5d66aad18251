import Mathlib.Data.List.Infix
import Mathlib.Logic.Function.Iterate

/-
  Lexical resolution of file paths.

  A path is a list of moves: stay, go up, or go down by a
  name.  Walking them from a place gives the place meant by
  the path when no link stands in between.  What a list of
  moves does is the same from everywhere: it climbs some
  levels and then enters some names, and whether it ends
  inside the directory it starts from can be read off these
  two.

  Key definitions include:
    * `LexPath.Move`
    * `LexPath.Place`
    * `LexPath.Place.walk`
    * `LexPath.Place.Inside`
    * `LexPath.Route`
    * `LexPath.Route.Returns`
    * `LexPath.net`
    * `LexPath.resolve`

  Key theorems include:
    * `LexPath.Place.walk_eq_follow`
    * `LexPath.Place.inside_walk_iff`
    * `LexPath.Place.Inside.eq_of_down`
    * `LexPath.resolve_append`
-/

------------------------------------------------------------
-- Places
------------------------------------------------------------

namespace LexPath

/- What one segment of a path says, over names in `N`. -/
inductive Move (N : Type) where
| stay
| up
| down (n : N)
deriving DecidableEq, Repr

/-
  Where a path starts: at the root, or some levels above the
  directory it is relative to.
-/
inductive Base where
| root
| above (levels : Nat)
deriving DecidableEq, Repr

/- There is nothing above the root. -/
def Base.up : Base → Base
| .root => .root
| .above levels => .above (levels + 1)

/- A resolved path; the innermost name comes first. -/
structure Place (N : Type) where
  base : Base
  names : List N
deriving DecidableEq, Repr

variable {N : Type}

namespace Place

def move
    (p : Place N) : Move N → Place N
| .stay => p
| .up =>
    match p.names with
    | [] => ⟨p.base.up, []⟩
    | _ :: names => ⟨p.base, names⟩
| .down n => ⟨p.base, n :: p.names⟩

def walk
    (p : Place N)
    (moves : List (Move N)) : Place N :=
  moves.foldl move p

/- The place is the directory or lies below it. -/
def Inside
    (p dir : Place N) : Prop :=
  p.base = dir.base ∧ dir.names <:+ p.names

instance
    [DecidableEq N]
    (p dir : Place N) :
    Decidable (p.Inside dir) := by
  unfold Inside
  infer_instance

theorem walk_append
    (p : Place N)
    (ms ns : List (Move N)) :
    p.walk (ms ++ ns) = (p.walk ms).walk ns :=
  List.foldl_append

theorem walk_snoc
    (p : Place N)
    (ms : List (Move N))
    (m : Move N) :
    p.walk (ms ++ [m]) = (p.walk ms).move m := by
  rw [walk_append]
  rfl

theorem Inside.trans
    {p dir top : Place N}
    (hInner : p.Inside dir)
    (hOuter : dir.Inside top) :
    p.Inside top :=
  ⟨hInner.1.trans hOuter.1, hOuter.2.trans hInner.2⟩

theorem inside_down
    (p : Place N)
    (n : N) :
    (p.move (.down n)).Inside p :=
  ⟨rfl, List.suffix_cons n p.names⟩

/- Two entries of one directory have nothing in common. -/
theorem Inside.eq_of_down
    {p dir : Place N}
    {m n : N}
    (hLeft : p.Inside (dir.move (.down m)))
    (hRight : p.Inside (dir.move (.down n))) :
    m = n := by
  have hSuffix :
      m :: dir.names <:+ n :: dir.names :=
    List.suffix_of_suffix_length_le hLeft.2 hRight.2
      (le_refl _)
  have hEq :
      m :: dir.names = n :: dir.names :=
    hSuffix.eq_of_length rfl
  exact (List.cons.inj hEq).1

end Place

end LexPath

------------------------------------------------------------
-- Routes
------------------------------------------------------------

namespace LexPath

variable {N : Type}

/-
  The net effect of a list of moves: the levels it climbs
  above its start, and the names it then enters, the
  innermost first.
-/
structure Route (N : Type) where
  climbs : Nat
  enters : List N
deriving DecidableEq, Repr

def Route.add
    (r : Route N) : Move N → Route N
| .stay => r
| .up =>
    match r.enters with
    | [] => ⟨r.climbs + 1, []⟩
    | _ :: enters => ⟨r.climbs, enters⟩
| .down n => ⟨r.climbs, n :: r.enters⟩

def net
    (moves : List (Move N)) : Route N :=
  moves.foldl Route.add ⟨0, []⟩

theorem net_snoc
    (ms : List (Move N))
    (m : Move N) :
    net (ms ++ [m]) = (net ms).add m := by
  simp [net]

/- Climb, past the base if need be, and enter. -/
def Place.follow
    (p : Place N)
    (r : Route N) : Place N :=
  ⟨Base.up^[r.climbs - p.names.length] p.base,
    r.enters ++ p.names.drop r.climbs⟩

/- One more move is followed like the ones before it. -/
theorem Place.move_follow
    (p : Place N)
    (r : Route N)
    (m : Move N) :
    (p.follow r).move m = p.follow (r.add m) := by
  cases m with
  | stay => rfl
  | down n => rfl
  | up =>
      rcases r with ⟨climbs, _ | ⟨n, enters⟩⟩
      · by_cases hLt : climbs < p.names.length
        · have hNow : climbs - p.names.length = 0 := by omega
          have hNext :
              climbs + 1 - p.names.length = 0 := by omega
          simp only [Place.follow, Place.move, Route.add,
            List.nil_append]
          rw [List.drop_eq_getElem_cons hLt, hNow, hNext]
        · have hNow :
              p.names.drop climbs = [] :=
            List.drop_eq_nil_of_le (by omega)
          have hNext :
              p.names.drop (climbs + 1) = [] :=
            List.drop_eq_nil_of_le (by omega)
          have hSucc :
              climbs + 1 - p.names.length =
                (climbs - p.names.length) + 1 := by omega
          simp [Place.follow, Place.move, Route.add, hNow,
            hNext, hSucc, Function.iterate_succ_apply']
      · rfl

/- Walking is following the net effect of the moves. -/
theorem Place.walk_eq_follow
    (p : Place N)
    (ms : List (Move N)) :
    p.walk ms = p.follow (net ms) := by
  induction ms using List.reverseRecOn with
  | nil => simp [walk, net, follow]
  | append_singleton ms m ih =>
      rw [walk_snoc, ih, net_snoc, move_follow]

/-
  The route ends inside the directory it starts from: what
  it climbs exists there, and it enters the same names
  again on its way down.
-/
def Route.Returns
    (r : Route N)
    (dir : Place N) : Prop :=
  (dir.base = .root ∨ r.climbs ≤ dir.names.length) ∧
    dir.names.take r.climbs <:+ r.enters

instance
    [DecidableEq N]
    (r : Route N)
    (dir : Place N) :
    Decidable (r.Returns dir) := by
  unfold Route.Returns
  infer_instance

/- Only the root is its own parent. -/
theorem Base.iterate_up_eq_self_iff
    (b : Base)
    (k : Nat) :
    Base.up^[k] b = b ↔ b = .root ∨ k = 0 := by
  have hAbove :
      ∀ levels, Base.up^[k] (.above levels) =
        .above (levels + k) := by
    induction k with
    | zero => intro levels; rfl
    | succ k ih =>
        intro levels
        rw [Function.iterate_succ_apply, Base.up, ih]
        congr 1
        omega
  cases b with
  | root =>
      have hFixed : Base.up^[k] .root = .root :=
        Function.iterate_fixed rfl k
      simp [hFixed]
  | above levels => simp [hAbove]

theorem Place.inside_walk_iff
    (dir : Place N)
    (ms : List (Move N)) :
    (dir.walk ms).Inside dir ↔ (net ms).Returns dir := by
  rw [walk_eq_follow]
  -- the names not climbed are common to both sides
  have hNames :
      dir.names <:+
          (net ms).enters ++ dir.names.drop (net ms).climbs ↔
        dir.names.take (net ms).climbs <:+ (net ms).enters := by
    conv_lhs =>
      lhs
      rw [← List.take_append_drop (net ms).climbs dir.names]
    exact List.suffix_append_self_iff
  unfold Inside follow Route.Returns
  rw [hNames, Base.iterate_up_eq_self_iff,
    Nat.sub_eq_zero_iff_le]

end LexPath

------------------------------------------------------------
-- Texts
------------------------------------------------------------

namespace LexPath

/- A name in a path: not empty, `.` or `..`, and no slash. -/
def Ordinary
    (seg : List Char) : Prop :=
  seg ≠ [] ∧ seg ≠ ['.'] ∧ seg ≠ ['.', '.'] ∧ '/' ∉ seg

instance
    (seg : List Char) :
    Decidable (Ordinary seg) := by
  unfold Ordinary
  infer_instance

def Move.ofSegment
    (seg : List Char) : Move (List Char) :=
  if seg = [] ∨ seg = ['.'] then .stay
  else if seg = ['.', '.'] then .up
  else .down seg

/- Repeated slashes give empty segments. -/
def moves
    (path : List Char) : List (Move (List Char)) :=
  (path.splitOn '/').map Move.ofSegment

/- Where the text starts: at the root iff with a slash. -/
def start
    (path : List Char) : Place (List Char) :=
  match path with
  | '/' :: _ => ⟨.root, []⟩
  | _ => ⟨.above 0, []⟩

def resolve
    (path : List Char) : Place (List Char) :=
  (start path).walk (moves path)

theorem moves_append
    (before behind : List Char) :
    moves (before ++ '/' :: behind) =
      moves before ++ moves behind := by
  simp [moves, List.splitOn_append_cons_self]

theorem moves_ordinary
    {seg : List Char}
    (hOrdinary : Ordinary seg) :
    moves seg = [.down seg] := by
  rcases hOrdinary with ⟨hNil, hDot, hDots, hSlash⟩
  simp [moves, List.splitOn_eq_singleton hSlash,
    Move.ofSegment, hNil, hDot, hDots]

/- Only the first character decides where a text starts. -/
theorem start_append
    {path : List Char}
    (behind : List Char)
    (hNil : path ≠ []) :
    start (path ++ behind) = start path := by
  cases path with
  | nil => exact absurd rfl hNil
  | cons c path =>
      by_cases hSlash : c = '/'
      · subst hSlash
        rfl
      · simp [start, hSlash]

/- A slash at the end changes nothing. -/
theorem resolve_slash
    {dir : List Char}
    (hNil : dir ≠ []) :
    resolve (dir ++ ['/']) = resolve dir := by
  have hStay : moves [] = [.stay] := rfl
  unfold resolve
  rw [start_append _ hNil, moves_append, hStay,
    Place.walk_snoc]
  rfl

/- A text behind a slash is walked from the place before. -/
theorem resolve_append
    (dir path : List Char) :
    resolve (dir ++ '/' :: path) =
      (resolve (dir ++ ['/'])).walk (moves path) := by
  have hStay : moves [] = [.stay] := rfl
  have hStart :
      start (dir ++ '/' :: path) = start (dir ++ ['/']) := by
    rw [List.append_cons]
    exact start_append path (by simp)
  unfold resolve
  rw [hStart, moves_append, moves_append, hStay,
    Place.walk_append, Place.walk_snoc]
  rfl

end LexPath
