import Mles.Http.Cache
import Mles.Http.Files
import Mles.Library.Trace
import Mathlib.Logic.Function.Basic

/-
  A site that serves its files while they are written.

  Any number of requests are under way; between two calls a
  request may be overtaken by the others and by writes.  A
  write is atomic and gives its file a time of modification
  that the file never had.  A read is atomic too: it sees
  one version of the file, not older than the one that was
  there when the file was opened.  All requests share one
  compression cache.

  A request that has seen the status of its file keeps a
  contract with its surroundings (`Asks`, `Given`): if what
  it is given is recent enough, what it caches and what it
  replies is.

  Key definitions include:
    * `Http.Codec`
    * `Http.Site`
    * `Http.Site.perform`
    * `Http.Site.step`
    * `Http.Reply.decode`
    * `Http.Asks`
    * `Http.Given`

  Key theorems include:
    * `Http.Site.step_cases`
    * `Http.serve_cases`
    * `Http.keeps_loadBody`
-/

------------------------------------------------------------
-- The Site
------------------------------------------------------------

namespace Mles

namespace Http

/- A file from one write to the next. -/
structure Version where
  content : Bytes
  modified : Time
deriving DecidableEq, Repr

/- Several paths may lead to one file. -/
abbrev Inode := Nat

/-
  The encoders and their decoders, these by the name of the
  encoding.  Decoding undoes a successful encoding.
-/
structure Codec where
  compress : Compression → Bytes → Option Bytes
  decompress : String → Bytes → Option Bytes
  undo :
    ∀ comptype data c,
      compress comptype data = some c →
        decompress comptype.name c = some data

/- What does not change while the site runs. -/
structure Machine where
  env : Env
  codec : Codec
  locate : String → Inode

/- A request, and what is left to do for it. -/
structure Pending where
  args : Args
  task : Task Outcome

/-
  The versions of each file, the newest last; the open files,
  each with the number of the version it was opened at; the
  cache; and the requests in the order they came.
-/
structure Site where
  versions : Inode → List Version
  handles : List (Inode × Nat)
  cache : CompressionCache
  requests : List Pending

/-
  What happens.  A call is answered, or it fails; a read
  also needs the number of the version it sees.
-/
inductive SiteAct where
| write (file : Inode) (version : Version)
| request (args : Args)
| answered (r : Nat) (seen : Nat)
| failed (r : Nat)
deriving DecidableEq, Repr

/- The calls of the file system and the encoders may fail. -/
def Op.error : (op : Op) → Option op.Ans
| .metadata _ => some none
| .cacheGet .. => none
| .fileOpen _ => some none
| .readToEnd _ => some none
| .compress .. => some none
| .cacheInsert .. => none

namespace Site

def init (maxSizeMb : UInt64) : Site where
  versions := fun _ => []
  handles := []
  cache := .new maxSizeMb
  requests := []

/- The content of a file, if it exists. -/
def content
    (s : Site)
    (file : Inode) : Option Bytes :=
  (s.versions file).getLast?.map Version.content

/- Perform a call, and answer it. -/
def perform
    (m : Machine)
    (s : Site)
    (seen : Nat) : (op : Op) → Option (op.Ans × Site)
| .metadata path =>
    some
      ((s.versions (m.locate path)).getLast?.map
        (fun v => ⟨some v.modified, v.content.length⟩), s)
| .cacheGet path compression modified =>
    let (hit, cache) :=
      s.cache.get path compression.name modified
    some (hit, { s with cache := cache })
| .fileOpen path =>
    match (s.versions (m.locate path)).length with
    | 0 => some (none, s)
    | n + 1 =>
        some (some s.handles.length,
          { s with
            handles := s.handles ++ [(m.locate path, n)] })
| .readToEnd file =>
    match s.handles[file]? with
    | none => none
    | some (inode, n) =>
        if n ≤ seen then
          (s.versions inode)[seen]?.map
            (fun v => (some v.content, s))
        else none
| .compress comptype data =>
    some (m.codec.compress comptype data, s)
| .cacheInsert path compression modified data =>
    some ((),
      { s with
        cache :=
          s.cache.insert path compression.name modified
            data })

/- Go on with a request. -/
def resume
    (s : Site)
    (r : Nat)
    (args : Args)
    (task : Task Outcome) : Site :=
  { s with requests := s.requests.set r ⟨args, task⟩ }

def step
    (m : Machine)
    (s : Site) : SiteAct → Option Site
| .write file version =>
    if version.modified ∈
        (s.versions file).map Version.modified then none
    else
      some { s with
        versions :=
          Function.update s.versions file
            (s.versions file ++ [version]) }
| .request args =>
    some { s with
      requests := s.requests ++ [⟨args, dynReply m.env args⟩] }
| .answered r seen =>
    match s.requests[r]? with
    | some ⟨args, .call op k⟩ =>
        (s.perform m seen op).map
          (fun p => p.2.resume r args (k p.1))
    | _ => none
| .failed r =>
    match s.requests[r]? with
    | some ⟨args, .call op k⟩ =>
        op.error.map (fun ans => s.resume r args (k ans))
    | _ => none

/- What a step can do. -/
theorem step_cases
    {m : Machine}
    {s t : Site}
    {a : SiteAct}
    (hStep : s.step m a = some t) :
    (∃ file version,
      a = .write file version ∧
      version.modified ∉
        (s.versions file).map Version.modified ∧
      t = { s with
        versions :=
          Function.update s.versions file
            (s.versions file ++ [version]) }) ∨
    (∃ args,
      a = .request args ∧
      t = { s with
        requests :=
          s.requests ++ [⟨args, dynReply m.env args⟩] }) ∨
    (∃ r seen args op k ans u,
      a = .answered r seen ∧
      s.requests[r]? = some ⟨args, .call op k⟩ ∧
      s.perform m seen op = some (ans, u) ∧
      t = u.resume r args (k ans)) ∨
    ∃ r args op k ans,
      a = .failed r ∧
      s.requests[r]? = some ⟨args, .call op k⟩ ∧
      op.error = some ans ∧
      t = s.resume r args (k ans) := by
  cases a with
  | write file version =>
      simp only [step] at hStep
      split at hStep
      · cases hStep
      · rename_i hNew
        cases hStep
        exact Or.inl ⟨file, version, rfl, hNew, rfl⟩
  | request args =>
      cases hStep
      exact Or.inr (Or.inl ⟨args, rfl, rfl⟩)
  | answered r seen =>
      simp only [step] at hStep
      split at hStep
      · rename_i args op k hAt
        rcases Option.map_eq_some_iff.mp hStep with
          ⟨⟨ans, u⟩, hPerform, rfl⟩
        exact Or.inr (Or.inr (Or.inl
          ⟨r, seen, args, op, k, ans, u, rfl, hAt, hPerform,
            rfl⟩))
      · cases hStep
  | failed r =>
      simp only [step] at hStep
      split at hStep
      · rename_i args op k hAt
        rcases Option.map_eq_some_iff.mp hStep with
          ⟨ans, hError, rfl⟩
        exact Or.inr (Or.inr (Or.inr
          ⟨r, args, op, k, ans, rfl, hAt, hError, rfl⟩))
      · cases hStep

/- The site after a sequence of actions. -/
def run
    (m : Machine)
    (maxSizeMb : UInt64)
    (acts : List SiteAct) : Option Site :=
  Trace.run (step m) (init maxSizeMb) acts

end Site

end Http

end Mles

------------------------------------------------------------
-- Reading a Reply
------------------------------------------------------------

namespace Mles

namespace Http

namespace Reply

def header
    (reply : Reply)
    (name : HeaderName) : Option String :=
  (reply.headers.find? (fun h => h.1 = name)).map Prod.snd

/- The body, decoded as its header says. -/
def decode
    (codec : Codec)
    (reply : Reply) : Option Bytes :=
  match reply.header .contentEncoding with
  | none => some reply.body
  | some name => codec.decompress name reply.body

end Reply

theorem header_withHeader_of_ne
    (reply : Reply)
    {name other : HeaderName}
    (value : String)
    (hNe : other ≠ name) :
    (withHeader reply other value).header name =
      reply.header name := by
  unfold Reply.header withHeader
  simp only
  rw [List.find?_append, List.find?_filter,
    List.find?_cons_of_neg (by simpa using hNe)]
  rw [List.find?_nil, Option.or_none]
  congr 2
  funext h
  by_cases hEq : h.1 = name
  · simp [hEq, hNe.symm]
  · simp [hEq]

@[simp] theorem status_withHeader
    (reply : Reply)
    (name : HeaderName)
    (value : String) :
    (withHeader reply name value).status = reply.status := rfl

@[simp] theorem body_withHeader
    (reply : Reply)
    (name : HeaderName)
    (value : String) :
    (withHeader reply name value).body = reply.body := rfl

/- The headers set for every file are others. -/
theorem withFileHeaders_spec
    (reply : Reply)
    (cors : Bool) :
    (withFileHeaders reply cors).status = reply.status ∧
      (withFileHeaders reply cors).body = reply.body ∧
      (withFileHeaders reply cors).header .contentEncoding =
        reply.header .contentEncoding ∧
      (withFileHeaders reply cors).header .lastModified =
        reply.header .lastModified := by
  unfold withFileHeaders
  cases cors with
  | false =>
      simp [withSecurityHeaders, header_withHeader_of_ne]
  | true =>
      simp [withIsolation, withSecurityHeaders,
        header_withHeader_of_ne]

/- The headers of a reply with the file. -/
def fileHeaders
    (ctype lastModified : String)
    (cors : Bool)
    (chosen : Option Compression) :
    List (HeaderName × String) :=
  [(.contentType, ctype), (.lastModified, lastModified)] ++
    (chosen.map
      (fun enc => (HeaderName.contentEncoding, enc.name))).toList ++
    if cors && contains ctype "json" then
      [(.accessControlAllowOrigin, "*")]
    else []

theorem headerValueOk_name
    (enc : Compression) :
    headerValueOk enc.name = true := by
  cases enc with
  | zstd => decide
  | br => decide

theorem fileReply_of_ok
    {ctype lastModified : String}
    (hType : headerValueOk ctype = true)
    (hDate : headerValueOk lastModified = true)
    (cors : Bool)
    (body : Bytes)
    (chosen : Option Compression) :
    fileReply ctype lastModified cors body chosen =
      withFileHeaders
        ⟨200, fileHeaders ctype lastModified cors chosen, body⟩
        cors := by
  have hStar : headerValueOk "*" = true := by decide
  unfold fileReply fileHeaders
  cases chosen with
  | none =>
      cases cors && contains ctype "json" with
      | false =>
          simp [Builder.header, Builder.new, Builder.body,
            hType, hDate]
      | true =>
          simp [Builder.header, Builder.new, Builder.body,
            hType, hDate, hStar]
  | some enc =>
      cases cors && contains ctype "json" with
      | false =>
          simp [Builder.header, Builder.new, Builder.body,
            hType, hDate, headerValueOk_name]
      | true =>
          simp [Builder.header, Builder.new, Builder.body,
            hType, hDate, hStar, headerValueOk_name]

/- A bad header stays bad. -/
theorem Builder.headers_header_of_none
    {builder : Builder}
    (hNone : builder.headers = none)
    (name : HeaderName)
    (value : String) :
    (builder.header name value).headers = none := by
  unfold Builder.header
  rw [hNone]
  split
  · rfl
  · rfl

theorem fileReply_of_bad
    {ctype lastModified : String}
    (hBad :
      ¬ (headerValueOk ctype = true ∧
        headerValueOk lastModified = true))
    (cors : Bool)
    (body : Bytes)
    (chosen : Option Compression) :
    fileReply ctype lastModified cors body chosen =
      err500 := by
  have hNone :
      (((Builder.new 200).header .contentType ctype).header
        .lastModified lastModified).headers = none := by
    by_cases hType : headerValueOk ctype = true
    · have hDate : ¬ headerValueOk lastModified = true :=
        fun hOk => hBad ⟨hType, hOk⟩
      simp [Builder.header, hDate]
    · apply Builder.headers_header_of_none
      simp [Builder.header, hType]
  unfold fileReply
  cases chosen with
  | none =>
      cases cors && contains ctype "json" with
      | false => simp [Builder.body, hNone]
      | true =>
          simp [Builder.body,
            Builder.headers_header_of_none hNone]
  | some enc =>
      have hStill :=
        Builder.headers_header_of_none hNone
          .contentEncoding enc.name
      cases cors && contains ctype "json" with
      | false => simp [Builder.body, hStill]
      | true =>
          simp [Builder.body,
            Builder.headers_header_of_none hStill]

/- A reply with the file carries its body and its date. -/
theorem fileReply_spec
    {ctype lastModified : String}
    {cors : Bool}
    {body : Bytes}
    {chosen : Option Compression}
    {reply : Reply}
    (hReply :
      fileReply ctype lastModified cors body chosen = reply) :
    reply.status = 500 ∨
      reply.status = 200 ∧
      reply.body = body ∧
      reply.header .contentEncoding =
        chosen.map Compression.name ∧
      reply.header .lastModified = some lastModified := by
  by_cases hOk :
      headerValueOk ctype = true ∧
        headerValueOk lastModified = true
  · rw [fileReply_of_ok hOk.1 hOk.2] at hReply
    rcases withFileHeaders_spec
        ⟨200, fileHeaders ctype lastModified cors chosen,
          body⟩ cors with
      ⟨hStatus, hBody, hEncoding, hDate⟩
    rw [hReply] at hStatus hBody hEncoding hDate
    refine Or.inr ⟨hStatus, hBody, ?_, ?_⟩
    · rw [hEncoding]
      cases chosen with
      | none =>
          simp only [Reply.header, fileHeaders]
          split
          · rfl
          · rfl
      | some enc => rfl
    · rw [hDate]
      rfl
  · rw [fileReply_of_bad hOk] at hReply
    rw [← hReply]
    exact Or.inl rfl

/- The answer that the client's copy is current. -/
theorem notModified_status
    {lastModified : String}
    (hDate : headerValueOk lastModified = true)
    (cors : Bool) :
    (notModified lastModified cors).status = 304 := by
  unfold notModified
  rw [(withFileHeaders_spec _ cors).1]
  simp [Builder.header, Builder.new, Builder.body, hDate]

end Http

end Mles

------------------------------------------------------------
-- The Contract of a Request
------------------------------------------------------------

namespace Mles

namespace Http

section

variable (codec : Codec) (Had : Bytes → Prop)

/- The data decodes to something `Had` speaks of. -/
def Decodes
    (name : String)
    (data : Bytes) : Prop :=
  ∃ raw, codec.decompress name data = some raw ∧ Had raw

/- So does a body in the encoding that was chosen. -/
def BodyOk
    (body : Bytes) : Option Compression → Prop
| none => Had body
| some enc => Decodes codec Had enc.name body

variable (path : String) (modified : Time)
variable (Mine : Handle → Prop)

/-
  What a request asks for, once it has the status of its
  file.  It reads only from files it has opened itself, and
  puts into the cache only what `Had` speaks of.
-/
def Asks : Op → Prop
| .metadata _ => False
| .cacheGet p _ t => p = path ∧ t = modified
| .fileOpen p => p = path
| .readToEnd file => Mine file
| .compress .. => True
| .cacheInsert p compression t data =>
    p = path ∧ t = modified ∧
      Decodes codec Had compression.name data

/- What it is given. -/
def Given : (op : Op) → op.Ans → Prop
| .metadata _, _ => True
| .cacheGet _ compression _, hit =>
    ∀ data, hit = some data →
      Decodes codec Had compression.name data
| .fileOpen _, opened =>
    ∀ file, opened = some file → Mine file
| .readToEnd _, read => ∀ raw, read = some raw → Had raw
| .compress comptype data, encoded =>
    ∀ c, encoded = some c →
      codec.decompress comptype.name c = some data
| .cacheInsert .., _ => True

/- A request that keeps this contract, up to its result. -/
def Keeps
    {α : Type}
    (Q : α → Prop)
    (task : Task α) : Prop :=
  task.Meets (Asks codec Had path modified Mine)
    (Given codec Had Mine) Q

end

section

variable {codec : Codec} {Had : Bytes → Prop}
variable {path : String} {modified : Time}
variable {Mine : Handle → Prop}

theorem keeps_tryCached
    (want : Bool)
    (compression : Compression) :
    Keeps codec Had path modified Mine
      (fun hit => ∀ found, hit = some found →
        BodyOk codec Had found.1 (some found.2))
      (tryCached path modified want compression) := by
  unfold tryCached Keeps
  split
  · rw [Program.ask_bind, Program.meets_call]
    refine ⟨⟨rfl, rfl⟩, ?_⟩
    intro hit hGiven
    rw [Program.pure_eq, Program.meets_done]
    intro found hFound
    rcases Option.map_eq_some_iff.mp hFound with
      ⟨data, hHit, rfl⟩
    exact hGiven data hHit
  · rw [Program.pure_eq, Program.meets_done]
    intro found hFound
    cases hFound

theorem keeps_tryCompress
    {raw : Bytes}
    (hRaw : Had raw)
    (want : Bool)
    (compression : Compression) :
    Keeps codec Had path modified Mine
      (fun hit => ∀ found, hit = some found →
        BodyOk codec Had found.1 (some found.2))
      (tryCompress path modified raw want compression) := by
  unfold tryCompress Keeps
  split
  · rw [Program.ask_bind, Program.meets_call]
    refine ⟨trivial, ?_⟩
    intro encoded hGiven
    cases encoded with
    | none =>
        intro found hFound
        cases hFound
    | some c =>
        have hDecodes :
            Decodes codec Had compression.name c :=
          ⟨raw, hGiven c rfl, hRaw⟩
        refine ⟨⟨rfl, rfl, hDecodes⟩, ?_⟩
        intro _ _ found hFound
        cases hFound
        exact hDecodes
  · rw [Program.pure_eq, Program.meets_done]
    intro found hFound
    cases hFound

theorem keeps_either
    {R : Bytes × Compression → Prop}
    {first second : Task (Option (Bytes × Compression))}
    (hFirst :
      Keeps codec Had path modified Mine
        (fun hit => ∀ found, hit = some found → R found)
        first)
    (hSecond :
      Keeps codec Had path modified Mine
        (fun hit => ∀ found, hit = some found → R found)
        second) :
    Keeps codec Had path modified Mine
      (fun hit => ∀ found, hit = some found → R found)
      (either first second) := by
  unfold either Keeps
  rw [Program.meets_bind_iff]
  refine Program.Meets.mono hFirst ?_
  intro hit hHit
  cases hit with
  | none => exact hSecond
  | some found => exact hHit

theorem keeps_encodeBody
    {raw : Bytes}
    (hRaw : Had raw)
    (wantZstd wantBr : Bool) :
    Keeps codec Had path modified Mine
      (fun sent => BodyOk codec Had sent.1 sent.2)
      (encodeBody path modified wantZstd wantBr raw) := by
  unfold encodeBody Keeps
  rw [Program.meets_bind_iff]
  refine Program.Meets.mono
    (keeps_either (keeps_tryCompress hRaw wantZstd .zstd)
      (keeps_tryCompress hRaw wantBr .br)) ?_
  intro hit hHit
  cases hit with
  | none => exact hRaw
  | some found => exact hHit found rfl

theorem keeps_readBody
    (wantZstd wantBr : Bool) :
    Keeps codec Had path modified Mine
      (fun sent => ∀ body, sent = some body →
        BodyOk codec Had body.1 body.2)
      (readBody path modified wantZstd wantBr) := by
  unfold readBody Keeps
  rw [Program.ask_bind, Program.meets_call]
  refine ⟨rfl, ?_⟩
  intro opened hOpened
  cases opened with
  | none =>
      intro body hBody
      cases hBody
  | some file =>
      show Program.Meets _ _ _ (Program.ask _ >>= _)
      rw [Program.ask_bind, Program.meets_call]
      refine ⟨hOpened file rfl, ?_⟩
      intro read hRead
      cases read with
      | none =>
          intro body hBody
          cases hBody
      | some raw =>
          show Program.Meets _ _ _ (_ >>= _)
          rw [Program.meets_bind_iff]
          refine Program.Meets.mono
            (keeps_encodeBody (hRead raw rfl) wantZstd
              wantBr) ?_
          intro sent hSent body hBody
          cases hBody
          exact hSent

theorem keeps_loadBody
    (wantZstd wantBr : Bool) :
    Keeps codec Had path modified Mine
      (fun sent => ∀ body, sent = some body →
        BodyOk codec Had body.1 body.2)
      (loadBody path modified wantZstd wantBr) := by
  unfold loadBody Keeps
  rw [Program.meets_bind_iff]
  refine Program.Meets.mono
    (keeps_either (keeps_tryCached wantZstd .zstd)
      (keeps_tryCached wantBr .br)) ?_
  intro hit hHit
  cases hit with
  | none => exact keeps_readBody wantZstd wantBr
  | some found =>
      intro body hBody
      cases hBody
      exact hHit found rfl

end

/-
  What a file of this time of modification is served by: its
  content and its date, unless the reply cannot be made.
-/
def Served
    (m : Machine)
    (Had : Bytes → Prop)
    (modified : Time)
    (outcome : Outcome) : Prop :=
  ∃ reply, outcome = .reply reply ∧
    (reply.status = 500 ∨
      reply.status = 200 ∧
      (∃ raw, reply.decode m.codec = some raw ∧ Had raw) ∧
      reply.header .lastModified =
        m.env.fmtHttpDate modified)

theorem served_fileReply
    {m : Machine}
    {Had : Bytes → Prop}
    {modified : Time}
    {lastModified : String}
    (hDate : m.env.fmtHttpDate modified = some lastModified)
    (ctype : String)
    (cors : Bool)
    {body : Bytes}
    {chosen : Option Compression}
    (hBody : BodyOk m.codec Had body chosen) :
    Served m Had modified
      (.reply
        (fileReply ctype lastModified cors body chosen)) := by
  refine ⟨_, rfl, ?_⟩
  rcases fileReply_spec
      (rfl : fileReply ctype lastModified cors body chosen = _)
    with hError | ⟨hStatus, hSame, hEncoding, hHeader⟩
  · exact Or.inl hError
  · refine Or.inr ⟨hStatus, ?_, hHeader.trans hDate.symm⟩
    unfold Reply.decode
    rw [hEncoding, hSame]
    cases chosen with
    | none => exact ⟨body, rfl, hBody⟩
    | some enc => exact hBody

/-
  A request that has the status of its file panics at its
  date, finds the client's copy current, or goes on to serve
  the file.
-/
theorem serve_cases
    (m : Machine)
    (args : Args)
    (path : String)
    (modified : Time)
    (len : Nat) :
    serve m.env args path ⟨some modified, len⟩ =
        .done .panicked ∨
    (∃ lastModified,
      m.env.fmtHttpDate modified = some lastModified ∧
      isCurrent m.env args.ims modified = true ∧
      serve m.env args path ⟨some modified, len⟩ =
        .done (.reply (notModified lastModified args.cors))) ∨
    ∀ Had Mine,
      Keeps m.codec Had path modified Mine
        (Served m Had modified)
        (serve m.env args path ⟨some modified, len⟩) := by
  unfold serve
  simp only [Option.getD_some]
  cases hDate : m.env.fmtHttpDate modified with
  | none => exact Or.inl rfl
  | some lastModified =>
      simp only
      by_cases hCurrent :
          isCurrent m.env args.ims modified = true
      · rw [if_pos hCurrent]
        exact Or.inr (Or.inl
          ⟨lastModified, rfl, hCurrent, rfl⟩)
      · rw [if_neg hCurrent]
        refine Or.inr (Or.inr ?_)
        intro Had Mine
        unfold Keeps
        rw [Program.meets_bind_iff]
        refine Program.Meets.mono
          (keeps_loadBody _ _) ?_
        intro sent hSent
        cases sent with
        | none => exact ⟨err500, rfl, Or.inl rfl⟩
        | some body =>
            exact served_fileReply hDate _ args.cors
              (hSent body rfl)

end Http

end Mles
