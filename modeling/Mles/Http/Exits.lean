import Mles.Http.Freshness

/-
  The exits of `dyn_reply` (`src/http.rs`).

  With the answers of the file system and the cache given,
  there is one reply, and the calls that fail decide which
  one it is.  The headers that harden a reply are added at
  the exits 200 and 304, and at no other: a missing or an
  unreadable file is answered without them.

  Key definitions include:
    * `Http.Loadable`
    * `Http.Sendable`
    * `Http.FileThere`
    * `Http.Hardened`

  Key theorems include:
    * `Http.eval_loadBody`
    * `Http.eval_loadBody_ne_none_iff`
    * `Http.eval_serve`
    * `Http.fileThere_iff`
    * `Http.header_withFileHeaders`
    * `Http.hardened_iff`
-/

------------------------------------------------------------
-- The Reply to Given Answers
------------------------------------------------------------

namespace Mles

namespace Http

section Given

variable (answer : (op : Op) → op.Ans)

/-
  The body can be had: in a wanted encoding from the cache,
  or from the disk.
-/
def Loadable
    (path : String)
    (modified : Time)
    (wantZstd wantBr : Bool) : Prop :=
  (wantZstd = true ∧
    answer (.cacheGet path .zstd modified) ≠ none) ∨
  (wantBr = true ∧
    answer (.cacheGet path .br modified) ≠ none) ∨
  ∃ file,
    answer (.fileOpen path) = some file ∧
      answer (.readToEnd file) ≠ none

variable {answer}

theorem eval_tryCached
    (path : String)
    (modified : Time)
    (want : Bool)
    (compression : Compression) :
    (tryCached path modified want compression).eval answer =
      if want then
        (answer (.cacheGet path compression modified)).map
          (·, compression)
      else none := by
  unfold tryCached
  cases want with
  | false => rfl
  | true => rfl

theorem eval_either
    (first second : Task (Option (Bytes × Compression))) :
    (either first second).eval answer =
      (first.eval answer).or (second.eval answer) := by
  unfold either
  rw [Program.eval_bind]
  cases first.eval answer with
  | none => rfl
  | some found => rfl

theorem eval_readBody
    (path : String)
    (modified : Time)
    (wantZstd wantBr : Bool) :
    (readBody path modified wantZstd wantBr).eval answer =
      (answer (.fileOpen path)).bind (fun file =>
        (answer (.readToEnd file)).map (fun raw =>
          (encodeBody path modified wantZstd wantBr
            raw).eval answer)) := by
  unfold readBody
  rw [Program.ask_bind, Program.eval_call]
  cases answer (.fileOpen path) with
  | none => rfl
  | some file =>
      dsimp only [Option.bind_some]
      rw [Program.ask_bind, Program.eval_call]
      cases answer (.readToEnd file) with
      | none => rfl
      | some raw =>
          change (_ >>= _ : Task _).eval answer = _
          rw [Program.eval_bind]
          rfl

theorem eval_readBody_ne_none_iff
    (path : String)
    (modified : Time)
    (wantZstd wantBr : Bool) :
    (readBody path modified wantZstd wantBr).eval answer ≠
        none ↔
      ∃ file,
        answer (.fileOpen path) = some file ∧
          answer (.readToEnd file) ≠ none := by
  rw [eval_readBody]
  cases answer (.fileOpen path) with
  | none => simp
  | some file => simp

theorem eval_loadBody
    (path : String)
    (modified : Time)
    (wantZstd wantBr : Bool) :
    (loadBody path modified wantZstd wantBr).eval answer =
      match (either
          (tryCached path modified wantZstd .zstd)
          (tryCached path modified wantBr .br)).eval
            answer with
      | some (body, enc) => some (body, some enc)
      | none =>
          (readBody path modified wantZstd wantBr).eval
            answer := by
  unfold loadBody
  rw [Program.eval_bind]
  generalize (either _ _).eval answer = hit
  cases hit with
  | none => rfl
  | some found => rfl

theorem eval_loadBody_ne_none_iff
    (path : String)
    (modified : Time)
    (wantZstd wantBr : Bool) :
    (loadBody path modified wantZstd wantBr).eval answer ≠
        none ↔
      Loadable answer path modified wantZstd wantBr := by
  unfold Loadable
  rw [eval_loadBody, eval_either, eval_tryCached,
    eval_tryCached, ← eval_readBody_ne_none_iff path modified
      wantZstd wantBr]
  cases wantZstd with
  | true =>
      cases answer (.cacheGet path .zstd modified) with
      | some data => simp
      | none =>
          cases wantBr with
          | true =>
              cases answer (.cacheGet path .br modified) with
              | some data => simp
              | none => simp
          | false => simp
  | false =>
      cases wantBr with
      | true =>
          cases answer (.cacheGet path .br modified) with
          | some data => simp
          | none => simp
      | false => simp

/- The exits behind the file's status. -/
theorem eval_serve
    (env : Env)
    (args : Args)
    (path : String)
    (metadata : Metadata) :
    (serve env args path metadata).eval answer =
      match env.fmtHttpDate (metadata.modified.getD 0) with
      | none => .panicked
      | some lastModified =>
          if isCurrent env args.ims
              (metadata.modified.getD 0) then
            .reply (notModified lastModified args.cors)
          else
            match (loadBody path (metadata.modified.getD 0)
                (wants (contentType env path) args.encoding
                  .zstd)
                (wants (contentType env path) args.encoding
                  .br)).eval answer with
            | none => .reply err500
            | some (body, chosen) =>
                .reply
                  (fileReply (contentType env path)
                    lastModified args.cors body chosen) := by
  unfold serve
  dsimp only
  cases env.fmtHttpDate (metadata.modified.getD 0) with
  | none => rfl
  | some lastModified =>
      dsimp only
      split
      · rfl
      · rw [Program.eval_bind]
        generalize
          (loadBody path (metadata.modified.getD 0) _
            _).eval answer = body
        cases body with
        | none => rfl
        | some body => rfl

end Given

end Http

end Mles

------------------------------------------------------------
-- Files and Errors
------------------------------------------------------------

namespace Mles

namespace Http

section Given

variable (answer : (op : Op) → op.Ans)

/-
  With this status, the reply is a file or says that it has
  not changed.
-/
def Sendable
    (env : Env)
    (args : Args)
    (modified : Time)
    (lastModified : String) : Prop :=
  isCurrent env args.ims modified = true ∨
    (Loadable answer args.path modified
        (wants (contentType env args.path) args.encoding
          .zstd)
        (wants (contentType env args.path) args.encoding
          .br) ∧
      headerValueOk (contentType env args.path) = true ∧
      headerValueOk lastModified = true)

/- There is a file to be sent. -/
def FileThere
    (env : Env)
    (args : Args) : Prop :=
  ∃ metadata lastModified,
    answer (.metadata args.path) = some metadata ∧
      env.fmtHttpDate (metadata.modified.getD 0) =
        some lastModified ∧
      Sendable answer env args (metadata.modified.getD 0)
        lastModified

variable {answer}

/- The reply, if the file's status can be had. -/
theorem eval_dynReply
    {env : Env}
    {args : Args}
    (hHost : args.uri = args.domain) :
    (dynReply env args).eval answer =
      (serveIfFound env args args.path
        (answer (.metadata args.path))).eval answer := by
  rw [dynReply_eq_call env hHost, Program.eval_call]
  rfl

/- A date that cannot be written is no reply. -/
theorem exists_date
    {env : Env}
    {args : Args}
    {path : String}
    {metadata : Metadata}
    {reply : Reply}
    (hReply :
      (serve env args path metadata).eval answer =
        .reply reply) :
    ∃ lastModified,
      env.fmtHttpDate (metadata.modified.getD 0) =
        some lastModified := by
  rw [eval_serve] at hReply
  split at hReply
  · cases hReply
  · rename_i lastModified hDate
    exact ⟨lastModified, hDate⟩

/- The last exit: a file, or an error. -/
theorem eval_serve_cases
    {env : Env}
    {args : Args}
    {metadata : Metadata}
    {lastModified : String}
    (hDate :
      env.fmtHttpDate (metadata.modified.getD 0) =
        some lastModified) :
    (Sendable answer env args (metadata.modified.getD 0)
        lastModified ∧
      (((serve env args args.path metadata).eval answer =
          .reply (notModified lastModified args.cors)) ∨
        ∃ body chosen,
          (serve env args args.path metadata).eval answer =
            .reply (withFileHeaders
              ⟨200,
                fileHeaders (contentType env args.path)
                  lastModified args.cors chosen, body⟩
              args.cors))) ∨
    (¬ Sendable answer env args (metadata.modified.getD 0)
        lastModified ∧
      (serve env args args.path metadata).eval answer =
        .reply err500) := by
  rw [eval_serve, hDate]
  dsimp only
  unfold Sendable
  by_cases hCurrent :
      isCurrent env args.ims (metadata.modified.getD 0) = true
  · rw [if_pos hCurrent]
    exact Or.inl ⟨Or.inl hCurrent, Or.inl rfl⟩
  · rw [if_neg hCurrent]
    rw [← eval_loadBody_ne_none_iff]
    generalize
      (loadBody args.path (metadata.modified.getD 0) _
        _).eval answer = body
    cases body with
    | none =>
        refine Or.inr ⟨?_, rfl⟩
        rintro (hNow | ⟨hLoaded, _⟩)
        · exact hCurrent hNow
        · exact hLoaded rfl
    | some found =>
        rcases found with ⟨body, chosen⟩
        dsimp only
        by_cases hOk :
            headerValueOk (contentType env args.path) = true ∧
              headerValueOk lastModified = true
        · rw [fileReply_of_ok hOk.1 hOk.2]
          exact Or.inl ⟨Or.inr ⟨by simp, hOk⟩,
            Or.inr ⟨body, chosen, rfl⟩⟩
        · rw [fileReply_of_bad hOk]
          refine Or.inr ⟨?_, rfl⟩
          rintro (hNow | ⟨_, hBoth⟩)
          · exact hCurrent hNow
          · exact hOk hBoth

theorem notModified_status_lt
    (lastModified : String)
    (cors : Bool) :
    (notModified lastModified cors).status < 400 := by
  unfold notModified
  rw [(withFileHeaders_spec _ cors).1]
  by_cases hOk : headerValueOk lastModified = true
  · simp [Builder.header, Builder.new, Builder.body, hOk]
  · simp [Builder.header, Builder.body, hOk]

/- Without a file the reply is an error. -/
theorem fileThere_iff
    {env : Env}
    {args : Args}
    (hHost : args.uri = args.domain) :
    FileThere answer env args ↔
      ∃ reply,
        (dynReply env args).eval answer = .reply reply ∧
          reply.status < 400 := by
  unfold FileThere
  rw [eval_dynReply hHost]
  cases answer (.metadata args.path) with
  | none =>
      constructor
      · rintro ⟨metadata, lastModified, hNone, _⟩
        cases hNone
      · rintro ⟨reply, hReply, hStatus⟩
        cases hReply
        exact absurd hStatus (by decide)
  | some metadata =>
      change _ ↔
        ∃ reply,
          (serve env args args.path metadata).eval answer =
            .reply reply ∧ reply.status < 400
      constructor
      · rintro ⟨_, lastModified, hSome, hDate, hSendable⟩
        cases hSome
        rcases eval_serve_cases hDate with
          ⟨_, hCurrent | ⟨body, chosen, hFile⟩⟩ | ⟨hNot, _⟩
        · exact ⟨_, hCurrent,
            notModified_status_lt lastModified args.cors⟩
        · refine ⟨_, hFile, ?_⟩
          rw [(withFileHeaders_spec _ args.cors).1]
          change 200 < 400
          decide
        · exact absurd hSendable hNot
      · rintro ⟨reply, hReply, hStatus⟩
        rcases exists_date hReply with ⟨lastModified, hDate⟩
        rcases eval_serve_cases hDate with
          ⟨hSendable, _⟩ | ⟨_, hError⟩
        · exact ⟨metadata, lastModified, rfl, hDate,
            hSendable⟩
        · rw [hError] at hReply
          cases hReply
          exact absurd hStatus (by decide)

end Given

------------------------------------------------------------
-- Hardened Replies
------------------------------------------------------------

/- The headers of `with_security_headers`. -/
def securityHeaders : List (HeaderName × String) :=
  [(.strictTransportSecurity,
      "max-age=31536000; includeSubDomains; preload"),
    (.xContentTypeOptions, "nosniff"),
    (.xFrameOptions, "DENY"),
    (.referrerPolicy, "strict-origin-when-cross-origin")]

/- Those that `with_isolation` adds. -/
def isolationHeaders : List (HeaderName × String) :=
  [(.crossOriginOpenerPolicy, "same-origin"),
    (.crossOriginEmbedderPolicy, "require-corp"),
    (.crossOriginResourcePolicy, "same-origin")]

structure Hardened
    (cors : Bool)
    (reply : Reply) : Prop where
  security :
    ∀ h ∈ securityHeaders, reply.header h.1 = some h.2
  isolation :
    ∀ h ∈ isolationHeaders,
      reply.header h.1 = if cors then some h.2 else none
  origin :
    reply.header .accessControlAllowOrigin ≠ none →
      cors = true ∧ reply.status = 200 ∧
        ∃ ctype,
          reply.header .contentType = some ctype ∧
            contains ctype "json" = true

theorem header_withHeader
    (reply : Reply)
    (other name : HeaderName)
    (value : String) :
    (withHeader reply other value).header name =
      if other = name then some value
      else reply.header name := by
  by_cases hEq : other = name
  · subst hEq
    rw [if_pos rfl]
    have hGone :
        ∀ h ∈ reply.headers.filter (fun h => h.1 ≠ other),
          ¬ decide (h.1 = other) = true := by
      intro h hMem
      simpa using (List.mem_filter.mp hMem).2
    unfold Reply.header withHeader
    dsimp only
    rw [List.find?_append, List.find?_eq_none.mpr hGone]
    simp
  · rw [if_neg hEq, header_withHeader_of_ne reply value hEq]

/- Which headers the wrappers set, and which they leave. -/
theorem header_withFileHeaders
    (reply : Reply)
    (cors : Bool)
    (name : HeaderName) :
    (withFileHeaders reply cors).header name =
      ((securityHeaders ++
          if cors then isolationHeaders else []).lookup
            name).or (reply.header name) := by
  unfold withFileHeaders
  cases cors with
  | false =>
      simp only [Bool.false_eq_true, if_false,
        withSecurityHeaders, header_withHeader]
      cases name with
      | _ => rfl
  | true =>
      simp only [if_true, withIsolation, withSecurityHeaders,
        header_withHeader]
      cases name with
      | _ => rfl

theorem withFileHeaders_hardened
    {cors : Bool}
    {reply : Reply}
    (hPlain :
      ∀ h ∈ isolationHeaders, reply.header h.1 = none)
    (hOrigin :
      reply.header .accessControlAllowOrigin ≠ none →
        cors = true ∧ reply.status = 200 ∧
          ∃ ctype,
            reply.header .contentType = some ctype ∧
              contains ctype "json" = true) :
    Hardened cors (withFileHeaders reply cors) where
  security := by
    intro h hMem
    rw [header_withFileHeaders]
    simp only [securityHeaders, List.mem_cons,
      List.not_mem_nil, or_false] at hMem
    cases cors with
    | _ => rcases hMem with rfl | rfl | rfl | rfl <;> rfl
  isolation := by
    intro h hMem
    rw [header_withFileHeaders, hPlain h hMem]
    simp only [isolationHeaders, List.mem_cons,
      List.not_mem_nil, or_false] at hMem
    cases cors with
    | _ => rcases hMem with rfl | rfl | rfl <;> rfl
  origin := by
    have hSame :
        ∀ name,
          name = .accessControlAllowOrigin ∨
              name = .contentType →
            (withFileHeaders reply cors).header name =
              reply.header name := by
      rintro name (rfl | rfl)
      · rw [header_withFileHeaders]
        cases cors with
        | _ => rfl
      · rw [header_withFileHeaders]
        cases cors with
        | _ => rfl
    rw [hSame _ (Or.inl rfl), hSame _ (Or.inr rfl),
      (withFileHeaders_spec reply cors).1]
    exact hOrigin

/- The exit 304. -/
theorem notModified_hardened
    (lastModified : String)
    (cors : Bool) :
    Hardened cors (notModified lastModified cors) := by
  unfold notModified
  by_cases hOk : headerValueOk lastModified = true
  · have hBody :
        ((Builder.new 304).header .lastModified
          lastModified).body [] =
          some ⟨304, [(.lastModified, lastModified)], []⟩ := by
      simp [Builder.header, Builder.new, Builder.body, hOk]
    rw [hBody]
    apply withFileHeaders_hardened
    · intro h hMem
      simp only [isolationHeaders, List.mem_cons,
        List.not_mem_nil, or_false] at hMem
      rcases hMem with rfl | rfl | rfl <;> rfl
    · intro hSome
      exact absurd rfl hSome
  · have hBody :
        ((Builder.new 304).header .lastModified
          lastModified).body [] = none := by
      simp [Builder.header, Builder.body, hOk]
    rw [hBody]
    apply withFileHeaders_hardened
    · decide
    · intro hSome
      exact absurd rfl hSome

/- The exit 200. -/
theorem fileHeaders_hardened
    (ctype lastModified : String)
    (cors : Bool)
    (body : Bytes)
    (chosen : Option Compression) :
    Hardened cors
      (withFileHeaders
        ⟨200, fileHeaders ctype lastModified cors chosen,
          body⟩ cors) := by
  apply withFileHeaders_hardened
  · intro h hMem
    simp only [isolationHeaders, List.mem_cons,
      List.not_mem_nil, or_false] at hMem
    unfold Reply.header fileHeaders
    cases chosen with
    | _ =>
        rcases hMem with rfl | rfl | rfl <;> split <;> rfl
  · intro hSome
    unfold Reply.header fileHeaders at hSome
    by_cases hJson : (cors && contains ctype "json") = true
    · rw [Bool.and_eq_true] at hJson
      exact ⟨hJson.1, rfl, ctype, rfl, hJson.2⟩
    · rw [if_neg hJson] at hSome
      cases chosen with
      | _ => exact absurd rfl hSome

/- The other exits set none of the headers. -/
theorem not_hardened_of_error
    {cors : Bool}
    {reply : Reply}
    (hError : reply = err500 ∨ reply = notFound) :
    ¬ Hardened cors reply := by
  intro hHardened
  have hSecurity :=
    hHardened.security (.xFrameOptions, "DENY") (by decide)
  rcases hError with rfl | rfl
  · exact absurd hSecurity (by decide)
  · exact absurd hSecurity (by decide)

/-
  For every request to a served domain and all answers: the
  reply is hardened exactly if the file's status can be had
  and, if it comes to that, its contents too.
-/
theorem hardened_iff
    (env : Env)
    (args : Args)
    (answer : (op : Op) → op.Ans)
    (hHost : args.uri = args.domain) :
    (∀ reply,
      (dynReply env args).eval answer = .reply reply →
        Hardened args.cors reply) ↔
      ∃ metadata,
        answer (.metadata args.path) = some metadata ∧
          ∀ lastModified,
            env.fmtHttpDate (metadata.modified.getD 0) =
                some lastModified →
              Sendable answer env args
                (metadata.modified.getD 0) lastModified := by
  rw [eval_dynReply hHost]
  cases answer (.metadata args.path) with
  | none =>
      constructor
      · intro hAll
        exact absurd (hAll notFound rfl)
          (not_hardened_of_error (Or.inr rfl))
      · rintro ⟨metadata, hNone, _⟩
        cases hNone
  | some metadata =>
      change
        (∀ reply,
          (serve env args args.path metadata).eval answer =
              .reply reply →
            Hardened args.cors reply) ↔ _
      constructor
      · intro hAll
        refine ⟨metadata, rfl, ?_⟩
        intro lastModified hDate
        rcases eval_serve_cases hDate with
          ⟨hSendable, _⟩ | ⟨_, hError⟩
        · exact hSendable
        · exact absurd (hAll err500 hError)
            (not_hardened_of_error (Or.inl rfl))
      · rintro ⟨_, hSome, hSendable⟩ reply hReply
        cases hSome
        rcases exists_date hReply with ⟨lastModified, hDate⟩
        rcases eval_serve_cases hDate with
          ⟨_, hCurrent | ⟨body, chosen, hFile⟩⟩ | ⟨hNot, _⟩
        · rw [hCurrent] at hReply
          cases hReply
          exact notModified_hardened lastModified args.cors
        · rw [hFile] at hReply
          cases hReply
          exact fileHeaders_hardened _ _ _ _ _
        · exact absurd (hSendable lastModified hDate) hNot

/- A file of one byte, or none. -/
def oneFile
    (there : Bool) : (op : Op) → op.Ans
| .metadata _ => if there then some ⟨some 0, 1⟩ else none
| .cacheGet .. => none
| .fileOpen _ => if there then some 0 else none
| .readToEnd _ => some [97]
| .compress .. => none
| .cacheInsert .. => ()

theorem hardened_of_file :
    ∃ reply,
      (dynReply sampleEnv sampleArgs).eval (oneFile true) =
          .reply reply ∧
        reply.status = 200 ∧
        Hardened sampleArgs.cors reply := by
  refine ⟨_, rfl, by decide, ?_⟩
  apply (hardened_iff sampleEnv sampleArgs (oneFile true)
    rfl).mpr
  · refine ⟨⟨some 0, 1⟩, rfl, ?_⟩
    intro lastModified hDate
    exact Or.inr ⟨Or.inr (Or.inr ⟨0, rfl, by decide⟩),
      by decide, sampleEnv_datesPlain 0 _ hDate⟩
  · rfl

/- A file that does not exist. -/
theorem not_found_unhardened :
    ∃ reply,
      (dynReply sampleEnv sampleArgs).eval (oneFile false) =
          .reply reply ∧
        reply.status = 404 ∧
        ¬ Hardened sampleArgs.cors reply :=
  ⟨notFound, rfl, rfl, not_hardened_of_error (Or.inr rfl)⟩

end Http

end Mles
