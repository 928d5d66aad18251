import Mles.Http.Files
import Mles.Proxy.Headers

/-
  Forwarding a request to an upstream (`forward` of
  `src/proxy.rs`).

  The URL is put together as text from the upstream, the
  tail and the query, and its server is that of the upstream
  whatever the client sends.  What is sent is the URL that
  this text parses to.  The client's address arrives with
  the request; of the response, only the last value of each
  header comes back.

  Key definitions include:
    * `Proxy.Uri.fromStr`
    * `Proxy.forwardUrl`
    * `Proxy.forward`
    * `Proxy.splitUrl`
    * `Proxy.Intact`

  Key theorems include:
    * `Proxy.forward_intact_iff`
    * `Proxy.forwarded_for_is_kept`
    * `Proxy.splitUrl_forwardUrl`
-/

------------------------------------------------------------
-- Parsed URLs
------------------------------------------------------------

namespace Mles

namespace Proxy

/- The characters that end an authority. -/
def endsAuthority (c : Char) : Bool :=
  c = '/' || c = '?' || c = '#'

/- The query behind its question mark. -/
def queryOf : List Char → Option (List Char)
| [] => none
| _ :: query => some query

/- The path in front of a query; an empty one is a slash. -/
def pathBefore (text : List Char) : List Char :=
  let path := text.takeWhile (fun c => c ≠ '?')
  if path = [] then ['/'] else path

/- The query behind a path. -/
def queryBehind (text : List Char) : Option (List Char) :=
  queryOf (text.dropWhile (fun c => c ≠ '?'))

/- `hyper::Uri`. -/
structure Uri where
  scheme : Option (List Char)
  authority : List Char
  path : List Char
  query : Option (List Char)
deriving DecidableEq, Repr

/- The characters of a scheme. -/
def isSchemeChar (c : Char) : Bool :=
  c.isAlphanum || c = '+' || c = '-' || c = '.'

/- The scheme of a text, and what follows its `://`. -/
def schemeOf
    (text : List Char) : Option (List Char × List Char) :=
  match text.dropWhile isSchemeChar with
  | ':' :: '/' :: '/' :: rest =>
      some (text.takeWhile isSchemeChar, rest)
  | _ => none

/- The two standard schemes are read in any case. -/
def standardScheme (scheme : List Char) : List Char :=
  let lower := scheme.map Char.toLower
  if lower = "http".toList ∨ lower = "https".toList then lower
  else scheme

/- A fragment is dropped. -/
def Uri.withPath
    (scheme : Option (List Char))
    (authority text : List Char) : Uri :=
  let kept := text.takeWhile (fun c => c ≠ '#')
  { scheme := scheme
    authority := authority
    path := pathBefore kept
    query := queryBehind kept }

/-
  What `Uri::from_str` makes of a text that it accepts: a
  path, a star, a whole URL or an authority alone.
-/
def Uri.fromStr (url : String) : Uri :=
  let text := url.toList
  if text.head? = some '/' then
    Uri.withPath none [] text
  else if text = ['*'] then
    ⟨none, [], ['*'], none⟩
  else
    match schemeOf text with
    | some (scheme, rest) =>
        Uri.withPath (some (standardScheme scheme))
          (rest.takeWhile (fun c => !endsAuthority c))
          (rest.dropWhile (fun c => !endsAuthority c))
    | none => ⟨none, text, [], none⟩

example :
    Uri.fromStr "HTTP://10.0.0.1:80?x=/y#top" =
      { scheme := some "http".toList
        authority := "10.0.0.1:80".toList
        path := "/".toList
        query := some "x=/y".toList } := by
  decide

/-
  A slash behind such a text is lost: nothing stands behind
  the authority yet, so that the path is a slash already, or
  there is a fragment.
-/
def Uri.absorbsSlash (url : String) : Bool :=
  let text := url.toList
  if text.head? = some '/' then '#' ∈ text
  else
    match schemeOf text with
    | some (_, rest) =>
        let behind :=
          rest.dropWhile (fun c => !endsAuthority c)
        behind = [] || '#' ∈ behind
    | none => false

theorem takeWhile_append_of_stop
    {p : Char → Bool}
    {xs ys : List Char}
    (hAll : ∀ c ∈ xs, p c = true)
    (hStop : ∀ c ∈ ys.head?, p c = false) :
    (xs ++ ys).takeWhile p = xs ∧
      (xs ++ ys).dropWhile p = ys := by
  rw [List.takeWhile_append_of_pos hAll,
    List.dropWhile_append_of_pos hAll]
  cases ys with
  | nil => simp
  | cons y ys =>
      have hNot : p y = false := hStop y rfl
      simp [hNot]

/- A text that stops is cut where it was. -/
theorem takeWhile_append_of_mem
    {p : Char → Bool}
    {xs : List Char}
    {c : Char}
    (hMem : c ∈ xs)
    (hStop : p c = false)
    (ys : List Char) :
    (xs ++ ys).takeWhile p = xs.takeWhile p ∧
      (xs ++ ys).dropWhile p = xs.dropWhile p ++ ys := by
  have hShort : xs.takeWhile p ≠ xs := by
    intro hEq
    rw [List.takeWhile_eq_self_iff] at hEq
    rw [hEq c hMem] at hStop
    cases hStop
  have hSome : xs.dropWhile p ≠ [] := by
    intro hEq
    rw [List.dropWhile_eq_nil_iff] at hEq
    rw [hEq c hMem] at hStop
    cases hStop
  constructor
  · rw [List.takeWhile_append, if_neg]
    intro hLength
    exact hShort
      ((List.takeWhile_prefix p).eq_of_length hLength)
  · rw [List.dropWhile_append, if_neg]
    simpa using hSome

/- What follows begins where the text may be cut. -/
theorem takeWhile_append_of_head
    {p : Char → Bool}
    {ys : List Char}
    (hStop : ∀ c ∈ ys.head?, p c = false)
    (xs : List Char) :
    (xs ++ ys).takeWhile p = xs.takeWhile p ∧
      (xs ++ ys).dropWhile p = xs.dropWhile p ++ ys := by
  by_cases hAll : ∀ c ∈ xs, p c = true
  · rcases takeWhile_append_of_stop hAll hStop with
      ⟨hTake, hDrop⟩
    rw [hTake, hDrop, List.takeWhile_eq_self_iff.mpr hAll,
      List.dropWhile_eq_nil_iff.mpr hAll]
    exact ⟨rfl, rfl⟩
  · push Not at hAll
    rcases hAll with ⟨c, hMem, hNot⟩
    exact takeWhile_append_of_mem hMem
      (eq_false_of_ne_true hNot) ys

theorem schemeOf_eq_some_iff
    {text scheme rest : List Char} :
    schemeOf text = some (scheme, rest) ↔
      (∀ c ∈ scheme, isSchemeChar c = true) ∧
        text = scheme ++ ':' :: '/' :: '/' :: rest := by
  unfold schemeOf
  constructor
  · intro hScheme
    have hSplit :=
      List.takeWhile_append_dropWhile
        (p := isSchemeChar) (l := text)
    split at hScheme
    · rename_i behind hDrop
      rw [hDrop] at hSplit
      cases hScheme
      exact ⟨fun c hMem => List.mem_takeWhile_imp hMem,
        hSplit.symm⟩
    · cases hScheme
  · rintro ⟨hAll, rfl⟩
    have hStop :
        ∀ c ∈ (':' :: '/' :: '/' :: rest).head?,
          isSchemeChar c = false := by
      simp
      decide
    rcases takeWhile_append_of_stop hAll hStop with
      ⟨hTake, hDrop⟩
    rw [hTake, hDrop]
    rfl

/- A query is empty, or begins with its question mark. -/
def QueryText (query : List Char) : Prop :=
  ∀ c ∈ query.head?, c = '?'

/- No scheme reaches into the query. -/
theorem schemeOf_append_query
    {text query : List Char}
    (hNone : schemeOf text = none)
    (hQuery : QueryText query) :
    schemeOf (text ++ query) = none := by
  cases hScheme : schemeOf (text ++ query) with
  | none => rfl
  | some found =>
      rcases found with ⟨scheme, rest⟩
      rcases schemeOf_eq_some_iff.mp hScheme with ⟨hAll, hEq⟩
      have hCut :
          text ++ query =
            (scheme ++ [':', '/', '/']) ++ rest := by
        simpa using hEq
      rcases List.append_eq_append_iff.mp hCut with
        ⟨more, hText, hMore⟩ | ⟨more, hText, _⟩
      · cases more with
        | nil =>
            rw [List.append_nil] at hText
            have hFound :=
              schemeOf_eq_some_iff.mpr ⟨hAll,
                (hText.symm.trans (by simp) :
                  text = scheme ++ ':' :: '/' :: '/' :: [])⟩
            rw [hNone] at hFound
            cases hFound
        | cons c more =>
            -- The question mark would be a part of it.
            have hMark : c = '?' := hQuery c (by simp [hMore])
            subst hMark
            have hMem : '?' ∈ scheme ++ [':', '/', '/'] := by
              simp [hText]
            rcases List.mem_append.mp hMem with hIn | hIn
            · exact absurd (hAll '?' hIn) (by decide)
            · simp at hIn
      · have hFound :=
          schemeOf_eq_some_iff.mpr ⟨hAll,
            (hText.trans (by simp) :
              text = scheme ++ ':' :: '/' :: '/' :: more)⟩
        rw [hNone] at hFound
        cases hFound

/- A slash in front of the query changes one of the two. -/
theorem pathBefore_slash_iff
    (text : List Char)
    {query : List Char}
    (hQuery : QueryText query) :
    (pathBefore (text ++ query) =
        pathBefore (text ++ '/' :: query) ∧
      queryBehind (text ++ query) =
        queryBehind (text ++ '/' :: query)) ↔
      text = [] := by
  have hStop :
      ∀ c ∈ query.head?, decide (c ≠ '?') = false := by
    simpa [QueryText] using hQuery
  rcases takeWhile_append_of_stop
      (List.forall_mem_nil _) hStop with
    ⟨hTake, hDrop⟩
  rw [List.nil_append] at hTake hDrop
  unfold pathBefore queryBehind
  dsimp only
  by_cases hMark : '?' ∈ text
  · -- The slash ends up in a query that is there already.
    have hCut :=
      fun more =>
        takeWhile_append_of_mem
          (p := fun c => decide (c ≠ '?')) hMark (by decide)
          more
    rw [(hCut query).1, (hCut query).2, (hCut _).1,
      (hCut _).2]
    have hNonempty : text ≠ [] := List.ne_nil_of_mem hMark
    cases hRest :
        text.dropWhile (fun c => decide (c ≠ '?')) with
    | nil =>
        rw [List.dropWhile_eq_nil_iff] at hRest
        exact absurd (hRest '?' hMark) (by decide)
    | cons c rest => simp [queryOf, hNonempty]
  · have hAll : ∀ c ∈ text, decide (c ≠ '?') = true := by
      intro c hMem
      apply decide_eq_true
      rintro rfl
      exact hMark hMem
    rw [List.takeWhile_append_of_pos hAll,
      List.dropWhile_append_of_pos hAll,
      List.takeWhile_append_of_pos hAll,
      List.dropWhile_append_of_pos hAll,
      List.takeWhile_cons_of_pos (by decide),
      List.dropWhile_cons_of_pos (by decide), hTake, hDrop]
    by_cases hEmpty : text = []
    · simp [hEmpty]
    · simp [hEmpty]

/- A fragment hides it. -/
theorem Uri.withPath_slash_iff
    (scheme : Option (List Char))
    (authority text : List Char)
    {query : List Char}
    (hQuery : QueryText query) :
    withPath scheme authority (text ++ query) =
        withPath scheme authority (text ++ '/' :: query) ↔
      text = [] ∨ '#' ∈ text := by
  unfold withPath
  by_cases hHash : '#' ∈ text
  · have hSame :=
      fun more =>
        (takeWhile_append_of_mem
          (p := fun c => decide (c ≠ '#')) hHash (by decide)
          more).1
    rw [hSame, hSame]
    simp [hHash]
  · have hAll : ∀ c ∈ text, decide (c ≠ '#') = true := by
      intro c hMem
      apply decide_eq_true
      rintro rfl
      exact hHash hMem
    have hKept :
        QueryText (query.takeWhile (fun c => c ≠ '#')) := by
      cases query with
      | nil => exact hQuery
      | cons c query =>
          rw [hQuery c rfl]
          simp [QueryText]
    rw [List.takeWhile_append_of_pos hAll,
      List.takeWhile_append_of_pos hAll,
      List.takeWhile_cons_of_pos (by decide)]
    simp only [mk.injEq, true_and, hHash, or_false]
    exact pathBefore_slash_iff text hKept

theorem pathBefore_ne_nil
    (text : List Char) :
    pathBefore text ≠ [] := by
  unfold pathBefore
  dsimp only
  split
  · exact List.cons_ne_nil _ _
  · assumption

/- The URL behind a scheme. -/
theorem Uri.fromStr_of_scheme
    {url : String}
    {scheme rest : List Char}
    (hOther : url.toList.head? ≠ some '/')
    (hScheme : schemeOf url.toList = some (scheme, rest)) :
    fromStr url =
      withPath (some (standardScheme scheme))
        (rest.takeWhile (fun c => !endsAuthority c))
        (rest.dropWhile (fun c => !endsAuthority c)) := by
  have hStar : url.toList ≠ ['*'] := by
    intro hEq
    rw [hEq] at hScheme
    cases hScheme
  unfold fromStr
  dsimp only
  rw [if_neg hOther, if_neg hStar, hScheme]

/- An authority alone, or the star. -/
theorem Uri.fromStr_of_no_scheme
    {url : String}
    (hOther : url.toList.head? ≠ some '/')
    (hNone : schemeOf url.toList = none) :
    fromStr url =
      if url.toList = ['*'] then ⟨none, [], ['*'], none⟩
      else ⟨none, url.toList, [], none⟩ := by
  unfold fromStr
  dsimp only
  rw [if_neg hOther, hNone]

/- Without a scheme, a slash makes another kind of text. -/
theorem Uri.fromStr_slash_of_no_scheme
    {url query : String}
    (hQuery : QueryText query.toList)
    (hPath : url.toList.head? ≠ some '/')
    (hNone : schemeOf url.toList = none) :
    fromStr (url ++ query) ≠
      fromStr (url ++ "/" ++ query) := by
  have hText :
      (url ++ query).toList = url.toList ++ query.toList := by
    simp
  have hSlash :
      (url ++ "/" ++ query).toList =
        url.toList ++ '/' :: query.toList := by
    simp
  have hLeft :
      fromStr (url ++ query) =
        if (url ++ query).toList = ['*'] then
          ⟨none, [], ['*'], none⟩
        else ⟨none, (url ++ query).toList, [], none⟩ := by
    apply fromStr_of_no_scheme
    · rw [hText, List.head?_append]
      cases hUrl : url.toList with
      | nil =>
          intro hEq
          exact absurd (hQuery '/' (by simpa using hEq))
            (by decide)
      | cons c text =>
          rw [hUrl] at hPath
          exact hPath
    · rw [hText]
      exact schemeOf_append_query hNone hQuery
  intro hEq
  cases hUrl : url.toList with
  | nil =>
      -- The slash begins a path.
      have hStar : (url ++ query).toList ≠ ['*'] := by
        rw [hText, hUrl]
        intro hStar
        rw [List.nil_append] at hStar
        exact absurd (hQuery '*' (by simp [hStar]))
          (by decide)
      have hRight :
          fromStr (url ++ "/" ++ query) =
            withPath none [] ('/' :: query.toList) := by
        unfold fromStr
        dsimp only
        rw [hSlash, hUrl]
        rfl
      rw [hLeft, if_neg hStar, hRight] at hEq
      have hPaths :
          [] =
            pathBefore
              (('/' :: query.toList).takeWhile
                (fun c => c ≠ '#')) :=
        congrArg Uri.path hEq
      exact pathBefore_ne_nil _ hPaths.symm
  | cons c text =>
      have hHead :
          (url ++ "/" ++ query).toList.head? ≠ some '/' := by
        rw [hSlash, hUrl]
        rwa [hUrl] at hPath
      cases hScheme :
          schemeOf (url ++ "/" ++ query).toList with
      | some found =>
          rw [hLeft, fromStr_of_scheme hHead hScheme] at hEq
          have hSchemes := congrArg Uri.scheme hEq
          split at hSchemes
          · cases hSchemes
          · cases hSchemes
      | none =>
          have hLong : (url ++ "/" ++ query).toList ≠ ['*'] := by
            rw [hSlash, hUrl]
            simp
          rw [hLeft, fromStr_of_no_scheme hHead hScheme,
            if_neg hLong] at hEq
          have hLength :=
            congrArg (fun uri => uri.authority.length) hEq
          rw [hText, hSlash] at hLength
          split at hLength
          · simp at hLength
          · simp at hLength

/-
  For every upstream and query: a slash between them makes
  no difference exactly if the upstream absorbs it.
-/
theorem Uri.fromStr_slash_iff
    (url query : String)
    (hQuery : QueryText query.toList) :
    fromStr (url ++ query) = fromStr (url ++ "/" ++ query) ↔
      absorbsSlash url = true := by
  have hText :
      (url ++ query).toList = url.toList ++ query.toList := by
    simp
  have hSlash :
      (url ++ "/" ++ query).toList =
        url.toList ++ '/' :: query.toList := by
    simp
  unfold absorbsSlash
  dsimp only
  by_cases hPath : url.toList.head? = some '/'
  · have hHead :
        ∀ more, (url.toList ++ more).head? = some '/' := by
      intro more
      rw [List.head?_append, hPath]
      rfl
    have hNonempty : url.toList ≠ [] := by
      intro hEmpty
      rw [hEmpty] at hPath
      cases hPath
    unfold fromStr
    dsimp only
    rw [hText, hSlash, if_pos (hHead _), if_pos (hHead _),
      if_pos hPath, withPath_slash_iff none [] _ hQuery]
    simp [hNonempty]
  · rw [if_neg hPath]
    cases hScheme : schemeOf url.toList with
    | none =>
        simpa using
          fromStr_slash_of_no_scheme hQuery hPath hScheme
    | some found =>
        rcases found with ⟨scheme, rest⟩
        rcases schemeOf_eq_some_iff.mp hScheme with
          ⟨hAll, hUrl⟩
        have hMore :
            ∀ more,
              schemeOf (url.toList ++ more) =
                some (scheme, rest ++ more) := by
          intro more
          rw [schemeOf_eq_some_iff, hUrl]
          exact ⟨hAll, by simp⟩
        have hHead :
            ∀ more, (url.toList ++ more).head? ≠ some '/' := by
          intro more
          have hNonempty : url.toList ≠ [] := by
            simp [hUrl]
          rwa [List.head?_append_of_ne_nil _ hNonempty]
        have hCut :
            ∀ more,
              (∀ c ∈ more.head?, (!endsAuthority c) = false) →
                (rest ++ more).takeWhile
                      (fun c => !endsAuthority c) =
                    rest.takeWhile
                      (fun c => !endsAuthority c) ∧
                  (rest ++ more).dropWhile
                      (fun c => !endsAuthority c) =
                    rest.dropWhile
                      (fun c => !endsAuthority c) ++ more :=
          fun more hStop => takeWhile_append_of_head hStop rest
        have hStopQuery :
            ∀ c ∈ query.toList.head?,
              (!endsAuthority c) = false := by
          intro c hHead
          rw [hQuery c hHead]
          rfl
        rw [fromStr_of_scheme (by rw [hText]; exact hHead _)
            ((congrArg schemeOf hText).trans (hMore _)),
          fromStr_of_scheme (by rw [hSlash]; exact hHead _)
            ((congrArg schemeOf hSlash).trans (hMore _)),
          (hCut _ hStopQuery).1, (hCut _ hStopQuery).2,
          (hCut ('/' :: _) (by simp; rfl)).1,
          (hCut ('/' :: _) (by simp; rfl)).2,
          withPath_slash_iff _ _ _ hQuery]
        simp

end Proxy

end Mles

------------------------------------------------------------
-- The Upstream Call
------------------------------------------------------------

namespace Mles

namespace Proxy

/- The request that is sent to the upstream. -/
structure Request where
  method : String
  uri : Uri
  headers : HeaderMap
  body : Bytes
deriving DecidableEq

/-
  What a request to the server waits for: its own body, the
  head and the body of the upstream's response, or what a
  file reply waits for.
-/
inductive Op where
| readBody
| request (req : Request)
| collect
| file (op : Http.Op)

@[reducible] def Op.Ans : Op → Type
| .readBody => Option Bytes
| .request _ => Option (Nat × HeaderMap)
| .collect => Option Bytes
| .file op => op.Ans

abbrev Task (α : Type) := Program Op Op.Ans α

def forwardUrl
    (upstream tail query : String) : String :=
  let path := if tail = "" then "" else "/" ++ tail
  if query = "" then upstream ++ path
  else upstream ++ path ++ "?" ++ query

/- The request is built from parts that are all valid. -/
def forwardRequest
    (upstream tail query method : String)
    (headers : HeaderMap)
    (body : Bytes) : Request where
  method := method
  uri := Uri.fromStr (forwardUrl upstream tail query)
  headers := requestHeaders headers
  body := body

/-
  `isUri` says whether `hyper::Uri` can be parsed from the
  text.  Any error is `none`: it is logged, and the request
  rejected.
-/
def forward
    (isUri : String → Bool)
    (upstream tail query method : String)
    (headers : HeaderMap)
    (body : Bytes) : Task (Option Response) :=
  let request :=
    forwardRequest upstream tail query method headers body
  if isUri (forwardUrl upstream tail query) then do
    match ← Program.ask (Op.request request) with
    | none => return none
    | some (status, respHeaders) =>
        match ← Program.ask Op.collect with
        | none => return none
        | some bytes =>
            return some (reply ⟨status, respHeaders, bytes⟩)
  else
    return none

/- What the upstream answers, if all goes well. -/
def upstreamResponse
    (answer : (op : Op) → op.Ans)
    (request : Request) : Option Response :=
  match answer (.request request), answer .collect with
  | some (status, respHeaders), some bytes =>
      some ⟨status, respHeaders, bytes⟩
  | _, _ => none

theorem eval_forward
    (isUri : String → Bool)
    (upstream tail query method : String)
    (headers : HeaderMap)
    (body : Bytes)
    (answer : (op : Op) → op.Ans) :
    (forward isUri upstream tail query method headers
        body).eval answer =
      if isUri (forwardUrl upstream tail query) then
        (upstreamResponse answer
          (forwardRequest upstream tail query method headers
            body)).map reply
      else none := by
  change
    (if isUri (forwardUrl upstream tail query) then _
      else _ : Task (Option Response)).eval answer = _
  generalize
    forwardRequest upstream tail query method headers body =
      request
  unfold upstreamResponse
  by_cases hUri :
      isUri (forwardUrl upstream tail query) = true
  · rw [if_pos hUri, if_pos hUri, Program.ask_bind,
      Program.eval_call]
    cases answer (.request request) with
    | none => rfl
    | some head =>
        dsimp only
        rw [Program.ask_bind, Program.eval_call]
        cases answer .collect with
        | none => rfl
        | some bytes => rfl
  · rw [if_neg hUri, if_neg hUri]
    rfl

end Proxy

end Mles

------------------------------------------------------------
-- The Upstream's Response
------------------------------------------------------------

namespace Mles

namespace Proxy

/- The response arrives as the upstream sent it. -/
structure Intact (resp r : Response) : Prop where
  status : r.status = resp.status
  body : r.body = resp.body
  headers :
    ∀ name, name ≠ transferEncoding →
      r.headers.getAll name = resp.headers.getAll name
  others : r.headers.getAll transferEncoding = []

/- No header but the one left out occurs twice. -/
def SingleValued (headers : HeaderMap) : Prop :=
  ∀ name, name ≠ transferEncoding →
    (headers.getAll name).length ≤ 1

theorem toList_getLast?_eq_iff
    {α : Type}
    (xs : List α) :
    xs.getLast?.toList = xs ↔ xs.length ≤ 1 := by
  constructor
  · intro hEq
    have hLength := congrArg List.length hEq
    cases hLast : xs.getLast? with
    | none =>
        rw [List.getLast?_eq_none_iff.mp hLast]
        exact Nat.zero_le 1
    | some x =>
        rw [hLast] at hLength
        exact Nat.le_of_eq hLength.symm
  · intro hShort
    match xs, hShort with
    | [], _ => rfl
    | [x], _ => rfl

theorem reply_intact_iff
    (resp : Response) :
    Intact resp (reply resp) ↔ SingleValued resp.headers := by
  constructor
  · intro hIntact name hName
    have hValues := hIntact.headers name hName
    rw [reply, getAll_replyHeaders, if_neg hName,
      toList_getLast?_eq_iff] at hValues
    exact hValues
  · intro hSingle
    refine ⟨rfl, rfl, ?_, ?_⟩
    · intro name hName
      rw [reply, getAll_replyHeaders, if_neg hName,
        toList_getLast?_eq_iff]
      exact hSingle name hName
    · rw [reply, getAll_replyHeaders, if_pos rfl]

/-
  For every response of the upstream: it arrives intact
  exactly if none of its headers is sent twice.
-/
theorem forward_intact_iff
    (isUri : String → Bool)
    (upstream tail query method : String)
    (headers : HeaderMap)
    (body : Bytes)
    (answer : (op : Op) → op.Ans)
    (resp : Response)
    (hUri : isUri (forwardUrl upstream tail query) = true)
    (hResp :
      upstreamResponse answer
        (forwardRequest upstream tail query method headers
          body) = some resp) :
    ∃ r,
      (forward isUri upstream tail query method headers
          body).eval answer = some r ∧
        (Intact resp r ↔ SingleValued resp.headers) := by
  refine ⟨reply resp, ?_, reply_intact_iff resp⟩
  rw [eval_forward, if_pos hUri, hResp]
  rfl

/- An upstream that answers with these headers. -/
def answerWith
    (resp : Response) : (op : Op) → op.Ans
| .readBody => some []
| .request _ => some (resp.status, resp.headers)
| .collect => some resp.body
| .file (.metadata _) => none
| .file (.cacheGet ..) => none
| .file (.fileOpen _) => none
| .file (.readToEnd _) => none
| .file (.compress ..) => none
| .file (.cacheInsert ..) => ()

def oneCookie : Response where
  status := 200
  headers := ⟨[("set-cookie", ⟨asBytes "a=1", by decide⟩)]⟩
  body := asBytes "hello"

def twoCookies : Response where
  status := 200
  headers :=
    ⟨[("set-cookie", ⟨asBytes "a=1", by decide⟩),
      ("set-cookie", ⟨asBytes "b=2", by decide⟩)]⟩
  body := asBytes "hello"

theorem forward_of_one_cookie :
    ∃ r,
      (forward (fun _ => true) "http://127.0.0.1:8080"
          "login" "" "GET" .empty []).eval
            (answerWith oneCookie) = some r ∧
        (Intact oneCookie r ↔
          SingleValued oneCookie.headers) :=
  forward_intact_iff (fun _ => true) "http://127.0.0.1:8080"
    "login" "" "GET" .empty [] (answerWith oneCookie)
    oneCookie rfl rfl

theorem second_cookie_only :
    ∃ r,
      (forward (fun _ => true) "http://127.0.0.1:8080"
          "login" "" "GET" .empty []).eval
            (answerWith twoCookies) = some r ∧
        ¬ Intact twoCookies r := by
  refine ⟨reply twoCookies, rfl, ?_⟩
  intro hIntact
  have hValues :=
    hIntact.headers "set-cookie" (by decide)
  exact absurd hValues (by decide)

------------------------------------------------------------
-- The Client's Address
------------------------------------------------------------

/- The headers that the upstream is sent. -/
theorem getAll_forwardRequest
    (upstream tail query method : String)
    (headers : HeaderMap)
    (body : Bytes)
    (name : HeaderName) :
    (forwardRequest upstream tail query method headers
        body).headers.getAll name =
      if name = host then [] else headers.getAll name :=
  getAll_requestHeaders headers name

/-
  Over all headers a client may send: with its address known
  there is one `X-Forwarded-For`, whose last entry is the
  address and whose others are those that came in; without
  it, the entries that came in are merged, if there are any.
  Nothing else changes but that `Host` is left out, and the
  merged value is always one that a header may have.
-/
theorem forwarded_for_is_kept
    (upstream tail query method : String)
    (headers : HeaderMap)
    (body : Bytes) :
    let sent := fun clientIp =>
      (forwardRequest upstream tail query method
        (withForwardedFor headers clientIp) body).headers
    (∀ ip,
      ∃ value,
        (sent (some ip)).getAll xForwardedFor = [value] ∧
          (entries value.bytes).getLast? =
            some (asBytes ip.toString) ∧
          (entries value.bytes).dropLast.filter
              (fun e => e ≠ []) =
            incoming headers) ∧
    (HasPrior headers →
      ∃ value,
        (sent none).getAll xForwardedFor = [value] ∧
          (entries value.bytes).filter (fun e => e ≠ []) =
            incoming headers) ∧
    (¬ HasPrior headers →
      (sent none).getAll xForwardedFor =
        headers.getAll xForwardedFor) ∧
    (∀ clientIp name,
      name ≠ xForwardedFor → name ≠ host →
        (sent clientIp).getAll name = headers.getAll name) ∧
    (∀ clientIp, (sent clientIp).getAll host = []) ∧
    (∀ clientIp text,
      forwardedFor headers clientIp = some text →
        (HeaderValue.fromStr text).isSome = true) := by
  have hOther : xForwardedFor ≠ host := by decide
  have hSent :
      ∀ clientIp,
        (forwardRequest upstream tail query method
            (withForwardedFor headers clientIp)
            body).headers.getAll xForwardedFor =
          (withForwardedFor headers clientIp).getAll
            xForwardedFor := by
    intro clientIp
    rw [getAll_forwardRequest, if_neg hOther]
  dsimp only
  refine ⟨?_, ?_, ?_, ?_, ?_, ?_⟩
  · intro ip
    rcases @merged_value headers _
        (Or.inr (Option.some_ne_none ip)) with
      ⟨value, before, hValue, hBefore, hEntries⟩
    refine ⟨value, (hSent (some ip)).trans hValue, ?_, ?_⟩
    · rw [hEntries]
      simp
    · rw [hEntries, ← hBefore]
      simp
  · intro hPrior
    rcases @merged_value headers none (Or.inl hPrior) with
      ⟨value, before, hValue, hBefore, hEntries⟩
    refine ⟨value, (hSent none).trans hValue, ?_⟩
    rw [hEntries, ← hBefore]
    simp
  · intro hNone
    have hText : forwardedFor headers none = none :=
      (forwardedFor_eq_none_iff headers none).mpr
        ⟨hNone, rfl⟩
    rw [hSent, withForwardedFor_of_none hText]
  · intro clientIp name hName hHost
    rw [getAll_forwardRequest, if_neg hHost,
      getAll_withForwardedFor_of_ne headers clientIp hName]
  · intro clientIp
    rw [getAll_forwardRequest, if_pos rfl]
  · intro clientIp text hText
    rcases fromStr_forwardedFor hText with ⟨value, hValue, _⟩
    rw [hValue]
    rfl

end Proxy

end Mles

------------------------------------------------------------
-- The URL
------------------------------------------------------------

namespace Mles

namespace Proxy

/- The parts of a URL. -/
structure Url where
  scheme : List Char
  authority : List Char
  path : List Char
  query : Option (List Char)
deriving DecidableEq, Repr

/- What stands before the first `://`, and behind it. -/
def splitScheme : List Char → Option (List Char × List Char)
| [] => none
| c :: rest =>
    if ['/', '/'] <+: rest ∧ c = ':' then
      some ([], rest.drop 2)
    else
      (splitScheme rest).map (fun p => (c :: p.1, p.2))

def splitUrl (url : String) : Option Url :=
  (splitScheme url.toList).map (fun (scheme, rest) =>
    let after := rest.dropWhile (fun c => !endsAuthority c)
    { scheme := scheme
      authority := rest.takeWhile (fun c => !endsAuthority c)
      path := after.takeWhile (fun c => c ≠ '?')
      query := queryOf (after.dropWhile (fun c => c ≠ '?')) })

example :
    splitUrl "http://10.0.0.1:80/base/a@b//c?x=/y" =
      some
        { scheme := "http".toList
          authority := "10.0.0.1:80".toList
          path := "/base/a@b//c".toList
          query := some "x=/y".toList } := by
  decide

theorem splitScheme_append
    {scheme : List Char}
    (hScheme : ¬ [':', '/', '/'] <:+: scheme)
    (rest : List Char) :
    splitScheme (scheme ++ ':' :: '/' :: '/' :: rest) =
      some (scheme, rest) := by
  induction scheme with
  | nil => simp [splitScheme]
  | cons c scheme ih =>
      have hShorter : ¬ [':', '/', '/'] <:+: scheme := by
        intro hInfix
        exact hScheme (List.infix_cons hInfix)
      rw [List.cons_append, splitScheme, if_neg, ih hShorter]
      · rfl
      · -- A match here would end inside of `scheme`.
        rintro ⟨hSlashes, rfl⟩
        match scheme, hSlashes with
        | [], hSlashes => simp at hSlashes
        | [a], hSlashes => simp at hSlashes
        | a :: b :: rest', hSlashes =>
            simp at hSlashes
            rcases hSlashes with ⟨rfl, rfl⟩
            exact hScheme
              (List.IsPrefix.isInfix ⟨rest', rfl⟩)

theorem toList_forwardUrl
    (upstream tail query : String) :
    (forwardUrl upstream tail query).toList =
      upstream.toList ++
        (if tail = "" then [] else '/' :: tail.toList) ++
        (if query = "" then [] else '?' :: query.toList) := by
  unfold forwardUrl
  split
  · split
    · simp_all
    · simp_all
  · split
    · simp_all
    · simp_all

/- A URL taken apart where it was put together. -/
theorem splitUrl_eq
    {url : String}
    {scheme authority path : List Char}
    {query : Option (List Char)}
    (hScheme : ¬ [':', '/', '/'] <:+: scheme)
    (hAuthority :
      ∀ c ∈ authority, endsAuthority c = false)
    (hPath : ∀ c ∈ path.head?, c = '/')
    (hNoQuery : '?' ∉ path)
    (hUrl :
      url.toList =
        scheme ++ ':' :: '/' :: '/' :: (authority ++ (path ++
          (query.map ('?' :: ·)).getD []))) :
    splitUrl url = some ⟨scheme, authority, path, query⟩ := by
  have hAll :
      ∀ c ∈ authority, (!endsAuthority c) = true := by
    intro c hMem
    rw [hAuthority c hMem]
    rfl
  have hEnd :
      ∀ c ∈ (path ++ (query.map ('?' :: ·)).getD []).head?,
        (!endsAuthority c) = false := by
    intro c hHead
    cases path with
    | nil =>
        cases query with
        | none => cases hHead
        | some query =>
            cases hHead
            rfl
    | cons d path =>
        cases hHead
        rw [hPath c rfl]
        rfl
  have hChars :
      ∀ c ∈ path, decide (c ≠ '?') = true := by
    intro c hMem
    apply decide_eq_true
    rintro rfl
    exact hNoQuery hMem
  have hMark :
      ∀ c ∈ ((query.map ('?' :: ·)).getD []).head?,
        decide (c ≠ '?') = false := by
    intro c hHead
    cases query with
    | none => cases hHead
    | some query =>
        cases hHead
        rfl
  unfold splitUrl
  rw [hUrl, splitScheme_append hScheme, Option.map_some]
  dsimp only
  rw [(takeWhile_append_of_stop hAll hEnd).1,
    (takeWhile_append_of_stop hAll hEnd).2,
    (takeWhile_append_of_stop hChars hMark).1,
    (takeWhile_append_of_stop hChars hMark).2]
  cases query with
  | none => rfl
  | some query => rfl

/-
  Over every tail and query: the URL has the scheme and the
  authority of the upstream, its path with the tail, and the
  query of the client.
-/
theorem splitUrl_forwardUrl
    (scheme authority base tail query : String)
    (hScheme : ¬ [':', '/', '/'] <:+: scheme.toList)
    (hAuthority :
      ∀ c ∈ authority.toList, c ≠ '/' ∧ c ≠ '?' ∧ c ≠ '#')
    (hBase : base = "" ∨ ∃ rest, base = "/" ++ rest)
    (hNoQuery : '?' ∉ base.toList)
    (hTail : '?' ∉ tail.toList) :
    splitUrl
        (forwardUrl (scheme ++ "://" ++ authority ++ base)
          tail query) =
      some
        { scheme := scheme.toList
          authority := authority.toList
          path :=
            base.toList ++
              if tail = "" then [] else '/' :: tail.toList
          query :=
            if query = "" then none
            else some query.toList } := by
  apply splitUrl_eq hScheme
  · intro c hMem
    rcases hAuthority c hMem with ⟨hSlash, hMark, hHash⟩
    simp [endsAuthority, hSlash, hMark, hHash]
  · intro c hHead
    rcases hBase with rfl | ⟨rest, rfl⟩
    · by_cases hEmpty : tail = ""
      · simp [hEmpty] at hHead
      · simp [hEmpty] at hHead
        exact hHead.symm
    · simp at hHead
      exact hHead.symm
  · intro hMem
    rcases List.mem_append.mp hMem with hMem | hMem
    · exact hNoQuery hMem
    · by_cases hEmpty : tail = ""
      · simp [hEmpty] at hMem
      · simp [hEmpty] at hMem
        exact hTail hMem
  · rw [toList_forwardUrl]
    by_cases hEmpty : query = ""
    · simp [hEmpty]
    · simp [hEmpty]

theorem splitUrl_forwardUrl_of_userinfo :
    splitUrl
        (forwardUrl ("http" ++ "://" ++ "10.0.0.1:80" ++ "/v1")
          "@evil.example//x" "u=http://evil.example") =
      some
        { scheme := "http".toList
          authority := "10.0.0.1:80".toList
          path := "/v1/@evil.example//x".toList
          query := some "u=http://evil.example".toList } :=
  splitUrl_forwardUrl "http" "10.0.0.1:80" "/v1"
    "@evil.example//x" "u=http://evil.example" (by decide)
    (by simp) (Or.inr ⟨"v1", rfl⟩) (by decide) (by decide)

end Proxy

end Mles
