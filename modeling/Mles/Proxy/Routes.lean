import Mles.Library.Matcher
import Mles.Proxy.Forward

/-
  The routes of the proxy (`prefix_filter` and
  `create_proxy_routes` of `src/proxy.rs`).

  A rule matches by segments: the cursor moves behind each
  segment of the prefix and the slash that follows it.  What
  is left is the tail, and it is empty for `/p` and for
  `/p/` alike: that slash is lost.

  Key definitions include:
    * `Proxy.Route`
    * `Proxy.prefixFilter`
    * `Proxy.proxyRoute`
    * `Proxy.createProxyRoutes`
    * `Proxy.strip`

  Key theorems include:
    * `Proxy.prefixFilter_eq`
    * `Proxy.strip_eq_some_iff`
    * `Proxy.eval_proxyRoute`
    * `Proxy.contacted_proxyRoute`
    * `Proxy.rewriting_exact_iff`
-/

------------------------------------------------------------
-- Filters
------------------------------------------------------------

namespace Mles

namespace Proxy

/-
  A request to the server.  `path` is what follows its first
  slash.
-/
structure Incoming where
  method : String
  path : String
  query : Option String
  headers : HeaderMap
  clientAddr : Option SocketAddr

/- The request, and what was taken of it. -/
structure Route where
  req : Incoming
  rest : List Char
  bodyTaken : Bool

/- The cursor stands behind the first slash. -/
def Route.new (req : Incoming) : Route where
  req := req
  rest := req.path.toList
  bodyTaken := false

abbrev Filter (α : Type) := Matcher Route Op Op.Ans α

/- `or` resets the path; a body stays taken. -/
def resetPath (s t : Route) : Route :=
  { t with rest := s.rest }

/- The next segment, up to a slash or the end. -/
def segment (rest : List Char) : List Char :=
  rest.takeWhile (fun c => c ≠ '/')

/- What follows the segment and one slash. -/
def behindSegment (rest : List Char) : List Char :=
  (rest.dropWhile (fun c => c ≠ '/')).drop 1

/- `warp::path`. -/
def path (seg : List Char) : Filter Unit :=
  fun r =>
    if segment r.rest = seg then
      .done (some (), { r with rest := behindSegment r.rest })
    else
      .done (none, r)

/- `warp::path::tail`. -/
def tail : Filter String :=
  fun r =>
    .done (some (String.ofList r.rest), { r with rest := [] })

/- `warp::query::raw`. -/
def rawQuery : Filter String :=
  fun r => .done (r.req.query, r)

/- `warp::body::bytes`: the body can be taken once. -/
def bodyBytes : Filter Bytes :=
  fun r =>
    if r.bodyTaken then
      .done (none, r)
    else do
      let body ← Program.ask Op.readBody
      return (body, { r with bodyTaken := true })

/- The parts of a prefix that are not empty. -/
def segments (pre : String) : List (List Char) :=
  (pre.toList.splitOn '/').filter (fun seg => seg ≠ [])

def prefixFilter (pre : String) : Filter Unit :=
  (segments pre).foldl
    (fun f seg => f.andThen (fun _ => path seg)) Matcher.any

/- A reply of the proxy, or of the file routes. -/
inductive Answer where
| proxied (r : Response)
| file (r : Http.Reply)
| panicked

/- The route of one rule. -/
def proxyRoute
    (isUri : String → Bool)
    (rule : String × String) : Filter Answer :=
  (prefixFilter rule.1).andThen (fun _ =>
    tail.andThen (fun tail =>
      (rawQuery.or resetPath
          (Matcher.extract (fun _ => ""))).andThen (fun query =>
        (Matcher.extract (fun r => r.req)).andThen (fun req =>
          bodyBytes.andThen (fun body r => do
            let headers :=
              withForwardedFor req.headers
                (req.clientAddr.map SocketAddr.ip)
            let resp ← forward isUri rule.2 tail query
              req.method headers body
            return (resp.map Answer.proxied, r))))))

/- Without a rule there is a panic. -/
def createProxyRoutes
    (isUri : String → Bool)
    (rules : List (String × String)) :
    Option (Filter Answer) :=
  rules.foldl
    (fun combined rule =>
      match combined with
      | none => some (proxyRoute isUri rule)
      | some prev =>
          some (prev.or resetPath (proxyRoute isUri rule)))
    none

/- By induction on the rules, the last one added last. -/
theorem exists_createProxyRoutes
    (isUri : String → Bool)
    {P : List (String × String) → Filter Answer → Prop}
    (hFirst : ∀ rule, P [rule] (proxyRoute isUri rule))
    (hMore :
      ∀ rules prev rule,
        P rules prev →
          P (rules ++ [rule])
            (prev.or resetPath (proxyRoute isUri rule)))
    {rules : List (String × String)}
    (hSome : rules ≠ []) :
    ∃ routes,
      createProxyRoutes isUri rules = some routes ∧
        P rules routes := by
  induction rules using List.reverseRecOn with
  | nil => exact absurd rfl hSome
  | append_singleton rules rule ih =>
      unfold createProxyRoutes
      rw [List.foldl_append]
      change
        ∃ routes,
          List.foldl _ (createProxyRoutes isUri rules) [rule] =
              some routes ∧ _
      by_cases hNil : rules = []
      · subst hNil
        exact ⟨proxyRoute isUri rule, rfl, hFirst rule⟩
      · rcases ih hNil with ⟨prev, hPrev, hP⟩
        rw [hPrev]
        exact ⟨_, rfl, hMore rules prev rule hP⟩

end Proxy

end Mles

------------------------------------------------------------
-- Prefixes
------------------------------------------------------------

namespace Mles

namespace Proxy

/- The path without these segments, if it has them. -/
def strip :
    List (List Char) → List Char → Option (List Char)
| [], rest => some rest
| seg :: segs, rest =>
    if segment rest = seg then
      strip segs (behindSegment rest)
    else none

/- The rest of the filters after one that rejects. -/
theorem foldl_path_of_rejects
    (segs : List (List Char))
    {f : Filter Unit}
    {r t : Route}
    (hRejects : f r = .done (none, t)) :
    segs.foldl (fun f seg => f.andThen (fun _ => path seg))
        f r =
      .done (none, t) := by
  induction segs generalizing f with
  | nil => exact hRejects
  | cons seg segs ih =>
      rw [List.foldl_cons]
      apply ih
      unfold Matcher.andThen
      rw [hRejects]
      rfl

theorem foldl_path_of_accepts
    (segs : List (List Char))
    {f : Filter Unit}
    {r t : Route}
    (hAccepts : f r = .done (some (), t)) :
    ∃ rest,
      segs.foldl (fun f seg => f.andThen (fun _ => path seg))
          f r =
        .done ((strip segs t.rest).map (fun _ => ()),
          { t with
            rest := (strip segs t.rest).getD rest }) := by
  induction segs generalizing f t with
  | nil => exact ⟨[], hAccepts⟩
  | cons seg segs ih =>
      have hNext :
          (f.andThen (fun _ => path seg)) r = path seg t := by
        unfold Matcher.andThen
        rw [hAccepts]
        rfl
      rw [List.foldl_cons, strip]
      by_cases hSegment : segment t.rest = seg
      · rw [if_pos hSegment]
        apply ih (t := { t with rest := behindSegment t.rest })
        rw [hNext, path, if_pos hSegment]
      · rw [if_neg hSegment]
        refine ⟨t.rest, foldl_path_of_rejects segs ?_⟩
        rw [hNext, path, if_neg hSegment]
        rfl

/- A prefix is matched without a call. -/
theorem prefixFilter_eq
    (pre : String)
    (r : Route) :
    ∃ rest,
      prefixFilter pre r =
        .done ((strip (segments pre) r.rest).map (fun _ => ()),
          { r with
            rest :=
              (strip (segments pre) r.rest).getD rest }) :=
  foldl_path_of_accepts (segments pre) rfl

------------------------------------------------------------
-- The Paths That Match
------------------------------------------------------------

/- Segments are neither empty nor cut by a slash. -/
theorem segment_plain
    {pre : String}
    {seg : List Char}
    (hMem : seg ∈ segments pre) :
    seg ≠ [] ∧ '/' ∉ seg := by
  rcases List.mem_filter.mp hMem with ⟨hSplit, hSome⟩
  exact ⟨by simpa using hSome,
    Fields.notMem_of_mem_splitOn hSplit⟩

theorem segment_append
    {seg : List Char}
    (hPlain : '/' ∉ seg)
    (rest : List Char) :
    segment (seg ++ '/' :: rest) = seg ∧
      behindSegment (seg ++ '/' :: rest) = rest := by
  have hAll : ∀ c ∈ seg, decide (c ≠ '/') = true := by
    intro c hMem
    apply decide_eq_true
    rintro rfl
    exact hPlain hMem
  have hStop :
      ∀ c ∈ ('/' :: rest).head?, decide (c ≠ '/') = false := by
    simp
  rcases takeWhile_append_of_stop hAll hStop with
    ⟨hTake, hDrop⟩
  unfold segment behindSegment
  rw [hTake, hDrop]
  exact ⟨rfl, rfl⟩

theorem segment_self
    {seg : List Char}
    (hPlain : '/' ∉ seg) :
    segment seg = seg ∧ behindSegment seg = [] := by
  have hAll : ∀ c ∈ seg, decide (c ≠ '/') = true := by
    intro c hMem
    apply decide_eq_true
    rintro rfl
    exact hPlain hMem
  unfold segment behindSegment
  rw [List.takeWhile_eq_self_iff.mpr hAll,
    List.dropWhile_eq_nil_iff.mpr hAll]
  exact ⟨rfl, rfl⟩

/- A path ends behind its segment, or goes on. -/
theorem segment_cases
    (rest : List Char) :
    (rest = segment rest ∧ behindSegment rest = []) ∨
      rest = segment rest ++ '/' :: behindSegment rest := by
  by_cases hMem : '/' ∈ rest
  · rcases List.eq_append_cons_of_mem hMem with
      ⟨seg, behind, hEq, hPlain⟩
    rcases segment_append hPlain behind with
      ⟨hSegment, hBehind⟩
    rw [hEq, hSegment, hBehind]
    exact Or.inr rfl
  · rcases segment_self hMem with ⟨hSegment, hBehind⟩
    exact Or.inl ⟨hSegment.symm, hBehind⟩

/- A prefix in its normal form. -/
def normalForm (segs : List (List Char)) : List Char :=
  ['/'].intercalate segs

theorem normalForm_cons
    (seg : List Char)
    {segs : List (List Char)}
    (hMore : segs ≠ []) :
    normalForm (seg :: segs) =
      seg ++ '/' :: normalForm segs := by
  unfold normalForm
  rw [List.intercalate_cons_of_ne_nil hMore]
  simp

theorem normalForm_ne_nil
    {segs : List (List Char)}
    (hSome : segs ≠ [])
    (hPlain : ∀ seg ∈ segs, seg ≠ [] ∧ '/' ∉ seg) :
    normalForm segs ≠ [] := by
  cases segs with
  | nil => exact absurd rfl hSome
  | cons seg segs =>
      have hSeg := (hPlain seg (by simp)).1
      by_cases hLast : segs = []
      · subst hLast
        simpa [normalForm] using hSeg
      · rw [normalForm_cons seg hLast]
        simp

theorem strip_cons_eq_some_iff
    {seg rest left : List Char}
    {segs : List (List Char)} :
    strip (seg :: segs) rest = some left ↔
      segment rest = seg ∧
        strip segs (behindSegment rest) = some left := by
  rw [strip, Option.ite_none_right_eq_some]

/- By induction on the segments of the prefix. -/
theorem strip_eq_some_iff
    {segs : List (List Char)}
    (hSome : segs ≠ [])
    (hPlain : ∀ seg ∈ segs, seg ≠ [] ∧ '/' ∉ seg)
    (rest left : List Char) :
    strip segs rest = some left ↔
      (rest = normalForm segs ∧ left = []) ∨
        rest = normalForm segs ++ '/' :: left := by
  induction segs generalizing rest with
  | nil => exact absurd rfl hSome
  | cons seg segs ih =>
      have hSeg := hPlain seg (by simp)
      have hOthers :
          ∀ seg ∈ segs, seg ≠ [] ∧ '/' ∉ seg :=
        fun other hMem => hPlain other (by simp [hMem])
      rw [strip_cons_eq_some_iff]
      by_cases hLast : segs = []
      · subst hLast
        simp only [strip, Option.some.injEq, normalForm,
          List.intercalate_singleton]
        constructor
        · rintro ⟨hSegment, hBehind⟩
          rcases segment_cases rest with ⟨hEq, hEnd⟩ | hEq
          · exact Or.inl ⟨hEq.trans hSegment,
              hBehind.symm.trans hEnd⟩
          · rw [hSegment, hBehind] at hEq
            exact Or.inr hEq
        · rintro (⟨rfl, rfl⟩ | rfl)
          · exact segment_self hSeg.2
          · exact segment_append hSeg.2 left
      · have hNonempty := normalForm_ne_nil hLast hOthers
        rw [ih hLast hOthers, normalForm_cons seg hLast]
        constructor
        · rintro ⟨hSegment, hBehind⟩
          rcases segment_cases rest with ⟨hEq, hEnd⟩ | hEq
          · -- There is no room for the other segments.
            rw [hEnd] at hBehind
            rcases hBehind with ⟨hNone, _⟩ | hNone
            · exact absurd hNone.symm hNonempty
            · simp at hNone
          · rw [hSegment] at hEq
            rcases hBehind with ⟨hBehind, hLeft⟩ | hBehind
            · exact Or.inl ⟨by rw [hEq, hBehind], hLeft⟩
            · rw [hEq, hBehind]
              exact Or.inr (by simp)
        · rintro (⟨rfl, hLeft⟩ | rfl)
          · rcases segment_append hSeg.2 (normalForm segs) with
              ⟨hSegment, hBehind⟩
            exact ⟨hSegment, Or.inl ⟨hBehind, hLeft⟩⟩
          · rw [List.append_assoc, List.cons_append]
            rcases segment_append hSeg.2
                (normalForm segs ++ '/' :: left) with
              ⟨hSegment, hBehind⟩
            exact ⟨hSegment, Or.inr hBehind⟩

end Proxy

end Mles

------------------------------------------------------------
-- One Route
------------------------------------------------------------

namespace Mles

namespace Proxy

/- The tail that a rule leaves of the path. -/
def ruleTail
    (rule : String × String)
    (rest : List Char) : Option (List Char) :=
  strip (segments rule.1) rest

/- The request that a rule sends on. -/
def ruleRequest
    (rule : String × String)
    (req : Incoming)
    (tail : List Char)
    (body : Bytes) : Request :=
  forwardRequest rule.2 (String.ofList tail)
    (req.query.getD "") req.method
    (withForwardedFor req.headers
      (req.clientAddr.map SocketAddr.ip)) body

/- The text of the URL that a rule sends it to. -/
def ruleUrl
    (rule : String × String)
    (req : Incoming)
    (tail : List Char) : String :=
  forwardUrl rule.2 (String.ofList tail) (req.query.getD "")

/- The URL that this text parses to. -/
def ruleUri
    (rule : String × String)
    (req : Incoming)
    (tail : List Char) : Uri :=
  Uri.fromStr (ruleUrl rule req tail)

section OneRoute

variable
    {isUri : String → Bool}
    {rule : String × String}
    {r : Route}

theorem proxyRoute_of_mismatch
    (hTail : ruleTail rule r.rest = none) :
    ∃ rest,
      proxyRoute isUri rule r =
        .done (none, { r with rest := rest }) := by
  rcases prefixFilter_eq rule.1 r with ⟨rest, hPrefix⟩
  unfold ruleTail at hTail
  rw [hTail] at hPrefix
  refine ⟨rest, ?_⟩
  unfold proxyRoute Matcher.andThen
  rw [hPrefix]
  rfl

/- A path that matches leads to the body of the request. -/
theorem proxyRoute_of_match
    {tail : List Char}
    (hTail : ruleTail rule r.rest = some tail) :
    proxyRoute isUri rule r =
      if r.bodyTaken then
        .done (none, { r with rest := [] })
      else
        .call .readBody (fun body =>
          match body with
          | none =>
              .done (none,
                { r with rest := [], bodyTaken := true })
          | some body =>
              forward isUri rule.2 (String.ofList tail)
                  (r.req.query.getD "") r.req.method
                  (withForwardedFor r.req.headers
                    (r.req.clientAddr.map SocketAddr.ip))
                  body >>=
                fun resp =>
                  .done (resp.map Answer.proxied,
                    { r with
                      rest := [], bodyTaken := true })) := by
  rcases prefixFilter_eq rule.1 r with ⟨rest, hPrefix⟩
  unfold ruleTail at hTail
  rw [hTail] at hPrefix
  have hQuery :
      ∀ s : Route,
        (rawQuery.or resetPath
            (Matcher.extract (fun _ => ""))) s =
          .done (some (s.req.query.getD ""), s) := by
    intro s
    unfold Matcher.or rawQuery
    cases s.req.query with
    | none => rfl
    | some query => rfl
  unfold proxyRoute Matcher.andThen
  rw [hPrefix]
  simp only [Option.map_some, Option.getD_some, Proxy.tail,
    Program.done_bind, hQuery, Matcher.extract, bodyBytes]
  by_cases hTaken : r.bodyTaken = true
  · simp only [hTaken, if_true, Program.done_bind,
      Program.pure_eq]
  · simp only [hTaken, if_false, Bool.false_eq_true]
    change Program.call _ _ = Program.call _ _
    congr 1
    funext body
    cases body with
    | none => rfl
    | some body => rfl

/- What the rule makes of the answers it gets. -/
def attempt
    (isUri : String → Bool)
    (rule : String × String)
    (req : Incoming)
    (tail : List Char)
    (answer : (op : Op) → op.Ans) : Option Response :=
  (answer .readBody).bind (fun body =>
    if isUri (ruleUrl rule req tail) then
      (upstreamResponse answer
        (ruleRequest rule req tail body)).map reply
    else none)

theorem eval_proxyRoute
    {tail : List Char}
    (hTail : ruleTail rule r.rest = some tail)
    (hBody : r.bodyTaken = false)
    (answer : (op : Op) → op.Ans) :
    (proxyRoute isUri rule r).eval answer =
      ((attempt isUri rule r.req tail answer).map
        Answer.proxied,
        { r with rest := [], bodyTaken := true }) := by
  rw [proxyRoute_of_match hTail, hBody,
    if_neg Bool.false_ne_true, Program.eval_call]
  unfold attempt
  cases answer .readBody with
  | none => rfl
  | some body =>
      dsimp only [Option.bind_some]
      rw [Program.eval_bind, eval_forward]
      rfl

end OneRoute

------------------------------------------------------------
-- The Upstreams Contacted
------------------------------------------------------------

/- The URL of a call to an upstream. -/
def Op.uri? : Op → Option Uri
| .request req => some req.uri
| _ => none

/- The URLs that were asked for, in order. -/
def contacted (calls : List Op) : List Uri :=
  calls.filterMap Op.uri?

theorem contacted_append
    (calls calls' : List Op) :
    contacted (calls ++ calls') =
      contacted calls ++ contacted calls' :=
  List.filterMap_append

theorem contacted_forward
    (isUri : String → Bool)
    (upstream tail query method : String)
    (headers : HeaderMap)
    (body : Bytes)
    (answer : (op : Op) → op.Ans) :
    contacted
        ((forward isUri upstream tail query method headers
          body).calls answer) =
      if isUri (forwardUrl upstream tail query) then
        [Uri.fromStr (forwardUrl upstream tail query)]
      else [] := by
  change
    contacted ((if isUri (forwardUrl upstream tail query)
      then _ else _ : Task (Option Response)).calls answer) =
      _
  by_cases hUri :
      isUri (forwardUrl upstream tail query) = true
  · rw [if_pos hUri, if_pos hUri, Program.ask_bind,
      Program.calls_call]
    cases answer (.request
        (forwardRequest upstream tail query method headers
          body)) with
    | none => rfl
    | some head =>
        dsimp only
        rw [Program.ask_bind, Program.calls_call]
        cases answer .collect with
        | none => rfl
        | some bytes => rfl
  · rw [if_neg hUri, if_neg hUri]
    rfl

theorem contacted_proxyRoute
    (isUri : String → Bool)
    (rule : String × String)
    (r : Route)
    (answer : (op : Op) → op.Ans) :
    contacted ((proxyRoute isUri rule r).calls answer) =
      match ruleTail rule r.rest, r.bodyTaken,
        answer .readBody with
      | some tail, false, some _ =>
          if isUri (ruleUrl rule r.req tail) then
            [ruleUri rule r.req tail]
          else []
      | _, _, _ => [] := by
  cases hTail : ruleTail rule r.rest with
  | none =>
      rcases @proxyRoute_of_mismatch isUri rule r hTail with
        ⟨rest, hEq⟩
      rw [hEq]
      rfl
  | some tail =>
      rw [proxyRoute_of_match hTail]
      cases hTaken : r.bodyTaken with
      | true => rfl
      | false =>
          rw [if_neg Bool.false_ne_true, Program.calls_call]
          cases answer .readBody with
          | none => rfl
          | some body =>
              change contacted
                (.readBody :: (_ >>= _ : Task _).calls
                  answer) = _
              rw [Program.calls_bind]
              change contacted (_ ++ []) = _
              rw [List.append_nil]
              exact contacted_forward ..

------------------------------------------------------------
-- Rewriting
------------------------------------------------------------

def Incoming.fullPath (req : Incoming) : String :=
  "/" ++ req.path

/- A query is left out if it is empty. -/
def Incoming.queryText (req : Incoming) : String :=
  if req.query.getD "" = "" then ""
  else "?" ++ req.query.getD ""

/- The prefix of a rule, without slashes at its ends. -/
def rulePrefix (rule : String × String) : String :=
  String.ofList (normalForm (segments rule.1))

/-
  Requests to the prefix and below it, and no others, go to
  the same path of the upstream.
-/
structure Rewrites
    (rule : String × String)
    (req : Incoming)
    (uris : List Uri) : Prop where
  matched :
    uris ≠ [] ↔
      req.fullPath = "/" ++ rulePrefix rule ∨
        ("/" ++ rulePrefix rule ++ "/").toList <+:
          req.fullPath.toList
  bare :
    req.fullPath = "/" ++ rulePrefix rule →
      uris = [Uri.fromStr (rule.2 ++ req.queryText)]
  below :
    ∀ rest,
      req.fullPath = "/" ++ rulePrefix rule ++ "/" ++ rest →
        uris =
          [Uri.fromStr
            (rule.2 ++ "/" ++ rest ++ req.queryText)]

theorem ruleUrl_eq
    (rule : String × String)
    (req : Incoming)
    (tail : List Char) :
    ruleUrl rule req tail =
      rule.2 ++
        (if tail = [] then "" else "/" ++ String.ofList tail) ++
        req.queryText := by
  have hTail : String.ofList tail = "" ↔ tail = [] := by
    rw [← String.toList_inj]
    simp
  apply String.toList_inj.mp
  unfold ruleUrl Incoming.queryText
  rw [toList_forwardUrl]
  simp only [hTail]
  split
  · split
    · simp_all
    · simp_all
  · split
    · simp_all
    · simp_all

/- The paths in question, as the cursor sees them. -/
theorem fullPath_eq_iff
    (rule : String × String)
    (req : Incoming)
    (rest : String) :
    (req.fullPath = "/" ++ rulePrefix rule ↔
      req.path.toList = normalForm (segments rule.1)) ∧
    (req.fullPath = "/" ++ rulePrefix rule ++ "/" ++ rest ↔
      req.path.toList =
        normalForm (segments rule.1) ++ '/' :: rest.toList) := by
  simp only [Incoming.fullPath, rulePrefix,
    ← String.toList_inj, String.toList_append,
    String.toList_ofList]
  simp

theorem isPrefix_fullPath_iff
    (rule : String × String)
    (req : Incoming) :
    ("/" ++ rulePrefix rule ++ "/").toList <+:
        req.fullPath.toList ↔
      ∃ rest,
        req.path.toList =
          normalForm (segments rule.1) ++ '/' :: rest := by
  simp only [Incoming.fullPath, rulePrefix,
    String.toList_append, String.toList_ofList]
  constructor
  · rintro ⟨rest, hEq⟩
    refine ⟨rest, ?_⟩
    simpa using hEq.symm
  · rintro ⟨rest, hEq⟩
    refine ⟨rest, ?_⟩
    simp [hEq]

theorem ruleTail_eq_some_iff
    {rule : String × String}
    (hSome : segments rule.1 ≠ [])
    (rest tail : List Char) :
    ruleTail rule rest = some tail ↔
      (rest = normalForm (segments rule.1) ∧ tail = []) ∨
        rest = normalForm (segments rule.1) ++ '/' :: tail :=
  strip_eq_some_iff hSome (fun _ => segment_plain) rest tail

/- With a body and a URL that parses, one call is made. -/
theorem contacted_of_readBody
    {isUri : String → Bool}
    {rule : String × String}
    {req : Incoming}
    {answer : (op : Op) → op.Ans}
    {body : Bytes}
    (hBody : answer .readBody = some body)
    (hUri :
      ∀ tail, ruleTail rule req.path.toList = some tail →
        isUri (ruleUrl rule req tail) = true) :
    contacted
        ((proxyRoute isUri rule (Route.new req)).calls
          answer) =
      ((ruleTail rule req.path.toList).map
        (ruleUri rule req)).toList := by
  rw [contacted_proxyRoute, hBody]
  cases hTail : ruleTail rule req.path.toList with
  | none => simp [Route.new, hTail]
  | some tail => simp [Route.new, hTail, hUri tail hTail]

theorem ruleTail_ne_none_iff
    {rule : String × String}
    (hSome : segments rule.1 ≠ [])
    (req : Incoming) :
    ruleTail rule req.path.toList ≠ none ↔
      req.fullPath = "/" ++ rulePrefix rule ∨
        ("/" ++ rulePrefix rule ++ "/").toList <+:
          req.fullPath.toList := by
  rw [(fullPath_eq_iff rule req "").1, isPrefix_fullPath_iff,
    Option.ne_none_iff_exists']
  simp only [ruleTail_eq_some_iff hSome]
  constructor
  · rintro ⟨tail, ⟨hEnd, _⟩ | hMore⟩
    · exact Or.inl hEnd
    · exact Or.inr ⟨tail, hMore⟩
  · rintro (hEnd | ⟨tail, hMore⟩)
    · exact ⟨[], Or.inl ⟨hEnd, rfl⟩⟩
    · exact ⟨tail, Or.inr hMore⟩

theorem queryText_isQuery
    (req : Incoming) :
    QueryText req.queryText.toList := by
  unfold Incoming.queryText
  split
  · simp [QueryText]
  · simp [QueryText]

/-
  For every rule and request: the URL that is asked for is
  the documented one, unless the path is the prefix with a
  single slash behind it and the upstream has a path of its
  own for this slash.
-/
theorem rewriting_exact_iff
    (isUri : String → Bool)
    (rule : String × String)
    (req : Incoming)
    (answer : (op : Op) → op.Ans)
    (body : Bytes)
    (hSome : segments rule.1 ≠ [])
    (hBody : answer .readBody = some body)
    (hUri :
      ∀ tail, ruleTail rule req.path.toList = some tail →
        isUri (ruleUrl rule req tail) = true) :
    Rewrites rule req
        (contacted
          ((proxyRoute isUri rule (Route.new req)).calls
            answer)) ↔
      req.fullPath ≠ "/" ++ rulePrefix rule ++ "/" ∨
        Uri.absorbsSlash rule.2 = true := by
  have hTails := ruleTail_eq_some_iff hSome req.path.toList
  have hSlash :
      req.fullPath = "/" ++ rulePrefix rule ++ "/" ↔
        req.path.toList =
          normalForm (segments rule.1) ++ ['/'] := by
    simpa using (fullPath_eq_iff rule req "").2
  have hAbsorbs :=
    Uri.fromStr_slash_iff rule.2 req.queryText
      (queryText_isQuery req)
  rw [contacted_of_readBody hBody hUri]
  constructor
  · -- The tail is empty, and no slash is put before it.
    intro hRewrites
    by_cases hPath :
        req.fullPath = "/" ++ rulePrefix rule ++ "/"
    · have hUris := hRewrites.below "" (by simpa using hPath)
      rw [(hTails []).mpr (Or.inr (hSlash.mp hPath))] at hUris
      simp only [Option.map_some, Option.toList_some, ruleUri,
        ruleUrl_eq, if_true, String.append_empty,
        List.cons.injEq, and_true] at hUris
      exact Or.inr (hAbsorbs.mp hUris)
    · exact Or.inl hPath
  · intro hFits
    refine ⟨?_, ?_, ?_⟩
    · rw [← ruleTail_ne_none_iff hSome]
      cases ruleTail rule req.path.toList with
      | none => simp
      | some tail => simp
    · intro hEnd
      rw [(fullPath_eq_iff rule req "").1] at hEnd
      rw [(hTails []).mpr (Or.inl ⟨hEnd, rfl⟩)]
      simp only [Option.map_some, Option.toList_some, ruleUri,
        ruleUrl_eq, if_true, String.append_empty]
    · intro rest hMore
      rw [(fullPath_eq_iff rule req rest).2] at hMore
      rw [(hTails rest.toList).mpr (Or.inr hMore)]
      simp only [Option.map_some, Option.toList_some, ruleUri,
        ruleUrl_eq]
      by_cases hEmpty : rest.toList = []
      · -- Only an upstream that absorbs it loses nothing.
        rw [hEmpty] at hMore
        rcases hFits with hPath | hUpstream
        · exact absurd (hSlash.mpr hMore) hPath
        · have hRest : rest = "" := by
            rw [← String.toList_inj, hEmpty]
            rfl
          rw [if_pos hEmpty, hRest, String.append_empty,
            String.append_empty, hAbsorbs.mpr hUpstream]
      · simp only [hEmpty, if_false, String.ofList_toList,
          String.append_assoc]

/- A request without headers or a body. -/
def plainGet
    (path : String)
    (query : Option String) : Incoming where
  method := "GET"
  path := path
  query := query
  headers := .empty
  clientAddr := none

/- With such an upstream, the path behind it may be empty. -/
theorem rewriting_exact_below :
    Rewrites ("//api/keeper/", "http://127.0.0.1:8080")
      (plainGet "api/keeper/" (some "x=1"))
      (contacted
        ((proxyRoute (fun _ => true)
          ("//api/keeper/", "http://127.0.0.1:8080")
          (Route.new (plainGet "api/keeper/"
            (some "x=1")))).calls (answerWith oneCookie))) :=
  (rewriting_exact_iff (fun _ => true)
    ("//api/keeper/", "http://127.0.0.1:8080")
    (plainGet "api/keeper/" (some "x=1"))
    (answerWith oneCookie) [] (by decide) rfl
    (fun _ _ => rfl)).mpr (Or.inr (by decide))

/- The slash behind `/api` does not arrive. -/
theorem slash_is_lost :
    contacted
        ((proxyRoute (fun _ => true)
          ("api", "http://127.0.0.1:8080/base")
          (Route.new (plainGet "api/" none))).calls
            (answerWith oneCookie)) =
      [Uri.fromStr "http://127.0.0.1:8080/base"] ∧
    Uri.fromStr "http://127.0.0.1:8080/base" =
      { scheme := some "http".toList
        authority := "127.0.0.1:8080".toList
        path := "/base".toList
        query := none } ∧
    ¬ Rewrites ("api", "http://127.0.0.1:8080/base")
      (plainGet "api/" none)
      [Uri.fromStr "http://127.0.0.1:8080/base"] := by
  refine ⟨by decide, by decide, ?_⟩
  intro hRewrites
  have hUris := hRewrites.below "" (by decide)
  exact absurd hUris (by decide)

end Proxy

end Mles
