import Mles.Http.Exits
import Mles.Proxy.Routes

/-
  The proxy in front of the files (the routes that `run` of
  `src/lib.rs` combines).

  Each rule is tried with the path put back, as long as the
  one before it rejects.  An upstream that fails rejects
  too.  No other upstream is asked then, since the body of
  the request is taken; but the files need no body, and a
  file of the same path is sent in the upstream's place.

  Key definitions include:
    * `Proxy.httpRoutes`
    * `Proxy.firstMatch`
    * `Proxy.Tried`
    * `Proxy.Delivers`
    * `Proxy.FileBehind`

  Key theorems include:
    * `Proxy.Tried.or`
    * `Proxy.createProxyRoutes_tried`
    * `Proxy.eval_fileRoutes`
    * `Proxy.isError_fileAnswer_iff`
    * `Proxy.httpRoutes_of_match`
-/

------------------------------------------------------------
-- The Routes
------------------------------------------------------------

namespace Mles

namespace Proxy

/- `warp::header`: the first value, if it is text. -/
def field
    (headers : HeaderMap)
    (name : HeaderName) : Http.Field :=
  match (headers.getAll name).head? with
  | none => .absent
  | some value =>
      match value.toStr with
      | some text =>
          .text (String.ofList
            (text.map (fun b => Char.ofNat b.toNat)))
      | none => .unreadable

/- What the file routes look at. -/
def fileRequest (r : Route) : Http.Request where
  method := if r.req.method = "GET" then .get else .other
  acceptEncoding := field r.req.headers "accept-encoding"
  ifModifiedSince :=
    field r.req.headers "if-modified-since"
  host := field r.req.headers host
  tail := String.ofList r.rest

def fileAnswer : Http.Outcome → Option Answer
| .reply reply => some (.file reply)
| .rejected => none
| .panicked => some .panicked

/- The file routes, among those of the proxy. -/
def fileRoutes (index : Http.Filter) : Filter Answer :=
  fun r => do
    let outcome ← (index (fileRequest r)).embed
      Op.file (fun _ ans => ans)
    return (fileAnswer outcome, r)

/- `create_proxy_routes` is left alone without a rule. -/
def httpRoutes
    (isUri : String → Bool)
    (rules : List (String × String))
    (index : Http.Filter) : Filter Answer :=
  match createProxyRoutes isUri rules with
  | none => fileRoutes index
  | some proxyRoutes =>
      proxyRoutes.or resetPath (fileRoutes index)

end Proxy

end Mles

------------------------------------------------------------
-- Rule by Rule
------------------------------------------------------------

namespace Mles

namespace Proxy

/- The first rule that matches, and the tail it leaves. -/
def firstMatch
    (rules : List (String × String))
    (rest : List Char) :
    Option ((String × String) × List Char) :=
  rules.findSome? (fun rule =>
    (ruleTail rule rest).map (fun tail => (rule, tail)))

theorem firstMatch_singleton
    (rule : String × String)
    (rest : List Char) :
    firstMatch [rule] rest =
      (ruleTail rule rest).map (fun tail => (rule, tail)) :=
  List.findSome?_singleton

theorem firstMatch_append
    (rules more : List (String × String))
    (rest : List Char) :
    firstMatch (rules ++ more) rest =
      (firstMatch rules rest).or (firstMatch more rest) :=
  List.findSome?_append

section Trying

variable
    (isUri : String → Bool)
    (answer : (op : Op) → op.Ans)
    (r : Route)

/- No rule matches: nothing is asked for, nothing taken. -/
structure Passed (f : Filter Answer) : Prop where
  rejects :
    ∃ rest,
      (f r).eval answer = (none, { r with rest := rest })
  asks : contacted ((f r).calls answer) = []

/- This rule decides, and takes the body. -/
structure Decided
    (rule : String × String)
    (tail : List Char)
    (f : Filter Answer) : Prop where
  result :
    ∃ rest,
      (f r).eval answer =
        ((attempt isUri rule r.req tail answer).map
          Answer.proxied,
          { r with rest := rest, bodyTaken := true })
  asks :
    ∀ uri ∈ contacted ((f r).calls answer),
      uri = ruleUri rule r.req tail

/- What the routes of these rules do. -/
def Tried
    (rules : List (String × String))
    (f : Filter Answer) : Prop :=
  match firstMatch rules r.rest with
  | none => Passed answer r f
  | some (rule, tail) => Decided isUri answer r rule tail f

variable {isUri answer r}

theorem contacted_proxyRoute_of_match
    {rule : String × String}
    {tail : List Char}
    (hTail : ruleTail rule r.rest = some tail) :
    ∀ uri ∈
        contacted ((proxyRoute isUri rule r).calls answer),
      uri = ruleUri rule r.req tail := by
  intro uri hMem
  rw [contacted_proxyRoute, hTail] at hMem
  split at hMem
  · rename_i tail' hSome _ _
    cases hSome
    split at hMem
    · exact List.mem_singleton.mp hMem
    · cases hMem
  · cases hMem

/- The route of the first rule. -/
theorem tried_proxyRoute
    (hBody : r.bodyTaken = false)
    (rule : String × String) :
    Tried isUri answer r [rule] (proxyRoute isUri rule) := by
  unfold Tried
  rw [firstMatch_singleton]
  cases hTail : ruleTail rule r.rest with
  | none =>
      rcases @proxyRoute_of_mismatch isUri rule r hTail with
        ⟨rest, hEq⟩
      refine ⟨⟨rest, ?_⟩, ?_⟩
      · rw [hEq]
        rfl
      · rw [hEq]
        rfl
  | some tail =>
      exact ⟨⟨[], eval_proxyRoute hTail hBody answer⟩,
        contacted_proxyRoute_of_match hTail⟩

/- A route that finds the body taken, whatever its rule. -/
theorem proxyRoute_of_taken
    (hTaken : r.bodyTaken = true)
    (rule : String × String) :
    ∃ rest,
      proxyRoute isUri rule r =
        .done (none, { r with rest := rest }) := by
  cases hTail : ruleTail rule r.rest with
  | none => exact proxyRoute_of_mismatch hTail
  | some tail =>
      refine ⟨[], ?_⟩
      rw [proxyRoute_of_match hTail, if_pos hTaken]

/- The next one finds the request as it was. -/
theorem Passed.or
    {f : Filter Answer}
    (hPassed : Passed answer r f)
    (g : Filter Answer) :
    ((f.or resetPath g) r).eval answer =
        (g r).eval answer ∧
      contacted (((f.or resetPath g) r).calls answer) =
        contacted ((g r).calls answer) := by
  rcases hPassed with ⟨⟨rest, hRejects⟩, hNothing⟩
  have hSame : resetPath r { r with rest := rest } = r := rfl
  rcases Matcher.or_of_rejects resetPath g hRejects with
    ⟨hEval, hCalls⟩
  rw [hSame] at hEval hCalls
  rw [hEval, hCalls, contacted_append, hNothing]
  exact ⟨rfl, rfl⟩

/- A later rule changes nothing, even after an error. -/
theorem Decided.or
    {first : String × String}
    {tail : List Char}
    {f : Filter Answer}
    (hDecided : Decided isUri answer r first tail f)
    (rule : String × String) :
    Decided isUri answer r first tail
      (f.or resetPath (proxyRoute isUri rule)) := by
  rcases hDecided with ⟨⟨rest, hResult⟩, hAsks⟩
  cases hAttempt :
      attempt isUri first r.req tail answer with
  | some resp =>
      rw [hAttempt] at hResult
      rcases Matcher.or_of_accepts resetPath
          (proxyRoute isUri rule) hResult with
        ⟨hEval, hCalls⟩
      refine ⟨⟨rest, ?_⟩, ?_⟩
      · rw [hEval, hAttempt]
        rfl
      · rwa [hCalls]
  | none =>
      rw [hAttempt] at hResult
      rcases Matcher.or_of_rejects resetPath
          (proxyRoute isUri rule) hResult with
        ⟨hEval, hCalls⟩
      have hReset :
          resetPath r
              { r with rest := rest, bodyTaken := true } =
            { r with bodyTaken := true } := rfl
      rcases @proxyRoute_of_taken isUri
          { r with bodyTaken := true } rfl rule with
        ⟨rest', hTaken⟩
      rw [hReset, hTaken] at hEval hCalls
      refine ⟨⟨rest', ?_⟩, ?_⟩
      · rw [hEval, hAttempt]
        rfl
      · rwa [hCalls, Program.calls_done, List.append_nil]

/- Only the result and the URLs matter. -/
theorem Tried.congr
    {rules : List (String × String)}
    {f g : Filter Answer}
    (hTried : Tried isUri answer r rules g)
    (hEval : (f r).eval answer = (g r).eval answer)
    (hAsks :
      contacted ((f r).calls answer) =
        contacted ((g r).calls answer)) :
    Tried isUri answer r rules f := by
  unfold Tried at hTried ⊢
  cases hFirst : firstMatch rules r.rest with
  | none =>
      rw [hFirst] at hTried
      rcases hTried with ⟨hRejects, hNothing⟩
      rw [← hEval] at hRejects
      rw [← hAsks] at hNothing
      exact ⟨hRejects, hNothing⟩
  | some found =>
      rw [hFirst] at hTried
      rcases hTried with ⟨hResult, hOnly⟩
      rw [← hEval] at hResult
      rw [← hAsks] at hOnly
      exact ⟨hResult, hOnly⟩

/- One more route behind the others. -/
theorem Tried.or
    {rules : List (String × String)}
    {f : Filter Answer}
    (hTried : Tried isUri answer r rules f)
    (hBody : r.bodyTaken = false)
    (rule : String × String) :
    Tried isUri answer r (rules ++ [rule])
      (f.or resetPath (proxyRoute isUri rule)) := by
  unfold Tried at hTried
  cases hFirst : firstMatch rules r.rest with
  | none =>
      rw [hFirst] at hTried
      rcases hTried.or (proxyRoute isUri rule) with
        ⟨hEval, hAsks⟩
      have hOne := (tried_proxyRoute hBody rule).congr
        hEval hAsks
      unfold Tried at hOne ⊢
      rwa [firstMatch_append, hFirst, Option.none_or]
  | some found =>
      rw [hFirst] at hTried
      unfold Tried
      rw [firstMatch_append, hFirst, Option.some_or]
      exact hTried.or rule

/- By induction on the rules still to be added. -/
theorem foldl_tried
    {rules : List (String × String)}
    {f : Filter Answer}
    (hBody : r.bodyTaken = false)
    (hTried : Tried isUri answer r rules f)
    (more : List (String × String)) :
    ∃ g,
      more.foldl
          (fun combined rule =>
            match combined with
            | none => some (proxyRoute isUri rule)
            | some prev =>
                some (prev.or resetPath
                  (proxyRoute isUri rule)))
          (some f) = some g ∧
        Tried isUri answer r (rules ++ more) g := by
  induction more generalizing rules f with
  | nil => exact ⟨f, rfl, by rwa [List.append_nil]⟩
  | cons rule more ih =>
      rcases ih (hTried.or hBody rule) with ⟨g, hFold, hAll⟩
      refine ⟨g, hFold, ?_⟩
      rwa [List.append_assoc, List.singleton_append] at hAll

theorem createProxyRoutes_tried
    (hBody : r.bodyTaken = false)
    {rules : List (String × String)}
    (hSome : rules ≠ []) :
    ∃ g,
      createProxyRoutes isUri rules = some g ∧
        Tried isUri answer r rules g := by
  cases rules with
  | nil => exact absurd rfl hSome
  | cons rule rules =>
      exact foldl_tried hBody (tried_proxyRoute hBody rule)
        rules

end Trying

end Proxy

end Mles

------------------------------------------------------------
-- The Files Behind the Rules
------------------------------------------------------------

namespace Mles

namespace Proxy

/- The file routes see what the file system answers. -/
theorem eval_fileRoutes
    (index : Http.Filter)
    (r : Route)
    (answer : (op : Op) → op.Ans) :
    (fileRoutes index r).eval answer =
      (fileAnswer
        ((index (fileRequest r)).eval
          (fun op => answer (.file op))), r) := by
  unfold fileRoutes
  rw [Program.eval_bind, Program.eval_embed]
  rfl

theorem contacted_fileRoutes
    (index : Http.Filter)
    (r : Route)
    (answer : (op : Op) → op.Ans) :
    contacted ((fileRoutes index r).calls answer) = [] := by
  unfold fileRoutes
  rw [Program.calls_bind]
  apply List.filterMap_eq_nil_iff.mpr
  intro op hMem
  rcases List.mem_append.mp hMem with hCall | hNone
  · rcases Program.mem_calls_embed hCall with ⟨op, rfl⟩
    rfl
  · cases hNone

/- A rejection, a panic or the status of an error. -/
def IsError : Option Answer → Prop
| none => True
| some .panicked => True
| some (.file reply) => 400 ≤ reply.status
| some (.proxied _) => False

/- The body arrives, and the upstream responds. -/
def Delivers
    (isUri : String → Bool)
    (rule : String × String)
    (req : Incoming)
    (tail : List Char)
    (answer : (op : Op) → op.Ans) : Prop :=
  ∃ body,
    answer .readBody = some body ∧
      isUri (ruleUrl rule req tail) = true ∧
      upstreamResponse answer
        (ruleRequest rule req tail body) ≠ none

theorem delivers_iff
    {isUri : String → Bool}
    {rule : String × String}
    {req : Incoming}
    {tail : List Char}
    {answer : (op : Op) → op.Ans} :
    Delivers isUri rule req tail answer ↔
      attempt isUri rule req tail answer ≠ none := by
  unfold Delivers attempt
  cases answer .readBody with
  | none => simp
  | some body => simp

/- A file of this path is there for the request. -/
def FileBehind
    (env : Http.Env)
    (domains : List String)
    (wwwRoot : String)
    (cors : Bool)
    (req : Incoming)
    (answer : (op : Op) → op.Ans) : Prop :=
  ∃ host ∈ domains,
    (fileRequest (Route.new req)).For host ∧
      Http.FileThere (fun op => answer (.file op)) env
        ((fileRequest (Route.new req)).args host host
          wwwRoot cors)

/- The file routes answer with an error, or a file. -/
theorem isError_fileAnswer_iff
    {env : Http.Env}
    {domains : List String}
    {wwwRoot : String}
    {cors : Bool}
    {index : Http.Filter}
    (hIndex :
      Http.createHttpFileRoutes env domains wwwRoot cors =
        some index)
    (req : Incoming)
    (answer : (op : Op) → op.Ans) :
    IsError
        (fileAnswer
          ((index (fileRequest (Route.new req))).eval
            (fun op => answer (.file op)))) ↔
      ¬ FileBehind env domains wwwRoot cors req answer := by
  by_cases hHost :
      ∃ host ∈ domains,
        (fileRequest (Route.new req)).For host
  · rcases hHost with ⟨host, hMem, hFor⟩
    have hBehind :
        FileBehind env domains wwwRoot cors req answer ↔
          Http.FileThere (fun op => answer (.file op)) env
            ((fileRequest (Route.new req)).args host host
              wwwRoot cors) := by
      constructor
      · rintro ⟨other, _, hOther, hThere⟩
        have hSame :=
          hOther.isHost.symm.trans hFor.isHost
        cases hSame
        exact hThere
      · intro hThere
        exact ⟨host, hMem, hFor, hThere⟩
    rw [hBehind,
      Http.createHttpFileRoutes_eq hIndex hFor hMem,
      Http.fileThere_iff rfl]
    cases (Http.dynReply env _).eval
        (fun op => answer (.file op)) with
    | reply reply => simp [fileAnswer, IsError]
    | rejected => simp [fileAnswer, IsError]
    | panicked => simp [fileAnswer, IsError]
  · have hNone :
        ∀ host ∈ domains,
          ¬ (fileRequest (Route.new req)).For host := by
      intro host hMem hFor
      exact hHost ⟨host, hMem, hFor⟩
    rw [Http.createHttpFileRoutes_rejects hIndex hNone]
    constructor
    · rintro _ ⟨host, hMem, hFor, _⟩
      exact hNone host hMem hFor
    · intro _
      trivial

/- If the rule's upstream fails, the files are next. -/
theorem httpRoutes_of_match
    {isUri : String → Bool}
    {rules : List (String × String)}
    (index : Http.Filter)
    {req : Incoming}
    {rule : String × String}
    {tail : List Char}
    (hFirst :
      firstMatch rules req.path.toList = some (rule, tail))
    (answer : (op : Op) → op.Ans) :
    ((httpRoutes isUri rules index (Route.new req)).eval
        answer).1 =
      ((attempt isUri rule req tail answer).map
        Answer.proxied).or
        (fileAnswer
          ((index (fileRequest (Route.new req))).eval
            (fun op => answer (.file op)))) ∧
    ∀ uri ∈
        contacted
          ((httpRoutes isUri rules index
            (Route.new req)).calls answer),
      uri = ruleUri rule req tail := by
  have hSome : rules ≠ [] := by
    rintro rfl
    cases hFirst
  rcases @createProxyRoutes_tried isUri answer
      (Route.new req) rfl rules hSome with
    ⟨routes, hRoutes, hTried⟩
  have hDecided :
      Decided isUri answer (Route.new req) rule tail
        routes := by
    unfold Tried at hTried
    change firstMatch rules (Route.new req).rest = _ at hFirst
    rwa [hFirst] at hTried
  rcases hDecided with ⟨⟨rest, hResult⟩, hAsks⟩
  change (routes (Route.new req)).eval answer =
    ((attempt isUri rule req tail answer).map _, _) at hResult
  unfold httpRoutes
  rw [hRoutes]
  dsimp only
  cases hAttempt : attempt isUri rule req tail answer with
  | some resp =>
      rw [hAttempt] at hResult
      rcases Matcher.or_of_accepts resetPath
          (fileRoutes index) hResult with
        ⟨hEval, hCalls⟩
      rw [hEval, hCalls]
      exact ⟨rfl, hAsks⟩
  | none =>
      rw [hAttempt] at hResult
      rcases Matcher.or_of_rejects resetPath
          (fileRoutes index) hResult with
        ⟨hEval, hCalls⟩
      rw [hEval, hCalls, eval_fileRoutes, contacted_append,
        contacted_fileRoutes, List.append_nil]
      exact ⟨rfl, hAsks⟩

end Proxy

end Mles
