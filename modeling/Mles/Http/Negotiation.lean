import Mles.Http.Exits
import Mles.Library.Fields

/-
  The choice of an encoding (`dyn_reply` of `src/http.rs`).

  An encoding is chosen if its name stands anywhere in the
  Accept-Encoding header.  The header is a list of codings,
  each with a weight; one of weight zero is not acceptable,
  and a name may stand in the midst of another.

  Key definitions include:
    * `Http.qvalue`
    * `Http.codings`
    * `Http.Accepts`
    * `Http.Negotiates`

  Key theorems include:
    * `Http.loadBody_wanted`
    * `Http.loadBody_unwanted`
    * `Http.dynReply_ok`
    * `Http.negotiates_iff`
-/

------------------------------------------------------------
-- The Header as a List
------------------------------------------------------------

namespace Mles

namespace Http

/- Optional white space: blanks and tabs. -/
def isOws (c : Char) : Bool :=
  c = ' ' || c = '\t'

/- Up to three digits, in thousandths. -/
def thousandths (digits : List Char) : Nat :=
  (List.zipWith (fun c place => (c.toNat - '0'.toNat) * place)
    digits [100, 10, 1]).sum

/- What follows the first digit of a weight. -/
def fraction : List Char → Option Nat
| [] => some 0
| '.' :: digits =>
    if digits.length ≤ 3 ∧ digits.all Char.isDigit = true then
      some (thousandths digits)
    else none
| _ => none

/- A weight from 0 to 1, in thousandths. -/
def qvalue : List Char → Option Nat
| '0' :: rest => fraction rest
| '1' :: rest =>
    if fraction rest = some 0 then some 1000 else none
| _ => none

/- A coding and its weight, which is 1 if it is left out. -/
def coding (element : List Char) :
    Option (List Char × Nat) :=
  match Fields.fields ';' isOws element with
  | [name] => some (name, 1000)
  | [name, 'q' :: '=' :: weight] =>
      (qvalue weight).map (fun q => (name, q))
  | [name, 'Q' :: '=' :: weight] =>
      (qvalue weight).map (fun q => (name, q))
  | _ => none

/- The elements of the header that are well formed. -/
def codings (header : String) : List (List Char × Nat) :=
  (Fields.fields ',' isOws header.toList).filterMap coding

/- The encoding, or any, is listed with a weight. -/
def Accepts
    (header : String)
    (enc : Compression) : Prop :=
  ∃ c ∈ codings header,
    (c.1 = enc.name.toList ∨ c.1 = ['*']) ∧ c.2 ≠ 0

instance
    (header : String)
    (enc : Compression) : Decidable (Accepts header enc) :=
  inferInstanceAs (Decidable (∃ c ∈ codings header, _))

example :
    Accepts "gzip;q=1.000 , br; Q=0.05" .br := by
  decide

example :
    ¬ Accepts "zstd-1, gzip, br;q=0.0" .zstd ∧
      ¬ Accepts "zstd-1, gzip, br;q=0.0" .br := by
  decide

end Http

end Mles

------------------------------------------------------------
-- The Encoding That Is Sent
------------------------------------------------------------

namespace Mles

namespace Http

section Given

variable {answer : (op : Op) → op.Ans}

theorem eval_tryCompress
    (path : String)
    (modified : Time)
    (raw : Bytes)
    (want : Bool)
    (compression : Compression) :
    (tryCompress path modified raw want compression).eval
        answer =
      if want then
        (answer (.compress compression raw)).map
          (·, compression)
      else none := by
  unfold tryCompress
  cases want with
  | false => rfl
  | true =>
      rw [if_pos rfl, Program.ask_bind, Program.eval_call]
      cases answer (.compress compression raw) with
      | none => rfl
      | some c => rfl

/- One of two encodings, each tried only if wanted. -/
theorem either_wanted
    {want : Compression → Bool}
    (attempts : Compression →
      Task (Option (Bytes × Compression)))
    {found : Compression → Option Bytes}
    (hEval :
      ∀ enc,
        (attempts enc).eval answer =
          if want enc then (found enc).map (·, enc) else none)
    {body : Bytes}
    {enc : Compression}
    (hFound :
      (either (attempts .zstd) (attempts .br)).eval answer =
        some (body, enc)) :
    want enc = true := by
  have hOne :
      ∀ first, (attempts first).eval answer =
          some (body, enc) → want enc = true := by
    intro first hSome
    rw [hEval, Option.ite_none_right_eq_some] at hSome
    rcases hSome with ⟨hWant, hSome⟩
    rcases Option.map_eq_some_iff.mp hSome with
      ⟨data, _, hPair⟩
    cases hPair
    exact hWant
  rw [eval_either, Option.or_eq_some_iff] at hFound
  rcases hFound with hFirst | ⟨_, hSecond⟩
  · exact hOne .zstd hFirst
  · exact hOne .br hSecond

theorem eval_encodeBody
    (path : String)
    (modified : Time)
    (wantZstd wantBr : Bool)
    (raw : Bytes) :
    (encodeBody path modified wantZstd wantBr raw).eval
        answer =
      match (either
          (tryCompress path modified raw wantZstd .zstd)
          (tryCompress path modified raw wantBr .br)).eval
            answer with
      | some (c, enc) => (c, some enc)
      | none => (raw, none) := by
  unfold encodeBody
  rw [Program.eval_bind]
  generalize (either _ _).eval answer = encoded
  cases encoded with
  | none => rfl
  | some found => rfl

/- From the cache or not, it is one that was wanted. -/
theorem loadBody_wanted
    {path : String}
    {modified : Time}
    (want : Compression → Bool)
    {body : Bytes}
    {enc : Compression}
    (hLoad :
      (loadBody path modified (want .zstd) (want .br)).eval
        answer = some (body, some enc)) :
    want enc = true := by
  rw [eval_loadBody] at hLoad
  split at hLoad
  · rename_i hHit
    cases hLoad
    exact either_wanted
      (fun enc =>
        tryCached path modified (want enc) enc)
      (fun enc => eval_tryCached path modified _ enc) hHit
  · rw [eval_readBody] at hLoad
    rcases Option.bind_eq_some_iff.mp hLoad with
      ⟨file, _, hRead⟩
    rcases Option.map_eq_some_iff.mp hRead with
      ⟨raw, _, hEncoded⟩
    rw [eval_encodeBody] at hEncoded
    split at hEncoded
    · rename_i hNew
      cases hEncoded
      exact either_wanted
        (fun enc =>
          tryCompress path modified raw (want enc) enc)
        (fun enc => eval_tryCompress path modified raw _ enc)
        hNew
    · cases hEncoded

/- If none is wanted, the file is sent as it is. -/
theorem loadBody_unwanted
    {path : String}
    {modified : Time}
    {body : Bytes}
    {chosen : Option Compression}
    (hLoad :
      (loadBody path modified false false).eval answer =
        some (body, chosen)) :
    ∃ file,
      answer (.fileOpen path) = some file ∧
        answer (.readToEnd file) = some body := by
  change
    (readBody path modified false false).eval answer = _
      at hLoad
  rw [eval_readBody] at hLoad
  rcases Option.bind_eq_some_iff.mp hLoad with
    ⟨file, hOpen, hRead⟩
  rcases Option.map_eq_some_iff.mp hRead with
    ⟨raw, hRaw, hEncoded⟩
  cases hEncoded
  exact ⟨file, hOpen, hRaw⟩

end Given

/- A reply 200 comes from a body that could be loaded. -/
theorem dynReply_ok
    {env : Env}
    (hDates : env.DatesPlain)
    {args : Args}
    {answer : (op : Op) → op.Ans}
    {reply : Reply}
    (hReply :
      (dynReply env args).eval answer = .reply reply)
    (hStatus : reply.status = 200) :
    ∃ modified body chosen,
      (loadBody args.path modified
          (wants (contentType env args.path) args.encoding
            .zstd)
          (wants (contentType env args.path) args.encoding
            .br)).eval answer = some (body, chosen) ∧
        reply.body = body ∧
        reply.header .contentEncoding =
          chosen.map Compression.name := by
  by_cases hHost : args.uri = args.domain
  · rw [eval_dynReply hHost] at hReply
    cases hMeta : answer (.metadata args.path) with
    | none =>
        rw [hMeta] at hReply
        cases hReply
        exact absurd hStatus (by decide)
    | some metadata =>
        rw [hMeta] at hReply
        change (serve env args args.path metadata).eval
          answer = _ at hReply
        rw [eval_serve] at hReply
        split at hReply
        · cases hReply
        · rename_i lastModified hDate
          split at hReply
          · cases hReply
            rw [notModified_status
              (hDates _ _ hDate)] at hStatus
            exact absurd hStatus (by decide)
          · split at hReply
            · cases hReply
              exact absurd hStatus (by decide)
            · rename_i body chosen hLoad
              rcases fileReply_spec
                  (Outcome.reply.inj hReply) with
                hError | ⟨_, hBody, hEncoding, _⟩
              · rw [hError] at hStatus
                exact absurd hStatus (by decide)
              · exact ⟨_, body, chosen, hLoad, hBody,
                  hEncoding⟩
  · rw [dynReply_of_ne env hHost] at hReply
    cases hReply

end Http

end Mles

------------------------------------------------------------
-- Negotiation
------------------------------------------------------------

namespace Mles

namespace Http

/-
  What is encoded was asked for, and without the header the
  body is what was read from the file.
-/
structure Negotiated
    (answer : (op : Op) → op.Ans)
    (args : Args)
    (reply : Reply) : Prop where
  coded :
    ∀ enc, reply.header .contentEncoding = some enc.name →
      ∃ header, args.encoding = some header ∧
        Accepts header enc
  plain :
    args.encoding = none →
      ∃ file,
        answer (.fileOpen args.path) = some file ∧
          answer (.readToEnd file) = some reply.body

/- So it is for every file and every state of the cache. -/
def Negotiates
    (env : Env)
    (encoding : Option String) : Prop :=
  ∀ args answer reply,
    args.encoding = encoding →
      (dynReply env args).eval answer = .reply reply →
        reply.status = 200 → Negotiated answer args reply

/- A page of which the cache has this encoding only. -/
def cachedAs
    (t : Time)
    (enc : Compression) : (op : Op) → op.Ans
| .metadata _ => some ⟨some t, 1⟩
| .cacheGet _ other _ => if other = enc then some [] else none
| .fileOpen _ => some 0
| .readToEnd _ => some [97]
| .compress .. => none
| .cacheInsert .. => ()

section Page

variable
    {env : Env}
    {t : Time}
    {header : String}
    {enc : Compression}

theorem contentType_page
    (hHtml :
      env.fromExtension "html" = some ("text", "html")) :
    contentType env sampleArgs.path = "text/html" := by
  have hExtension : extension sampleArgs.path = "html" := by
    decide
  unfold contentType
  dsimp only
  rw [hExtension, hHtml]
  rfl

theorem wants_html
    (encoding : String)
    (other : Compression) :
    wants "text/html" (some encoding) other =
      contains encoding other.name := by
  have hText : isCompressible "text/html" = true := by
    decide
  rw [wants, hText]
  rfl

theorem loadBody_cachedAs
    (hContains : contains header enc.name = true)
    (path : String) :
    (loadBody path t
        (contains header Compression.zstd.name)
        (contains header Compression.br.name)).eval
          (cachedAs t enc) = some ([], some enc) := by
  rw [eval_loadBody, eval_either, eval_tryCached,
    eval_tryCached]
  cases enc with
  | zstd =>
      rw [hContains]
      rfl
  | br =>
      rw [hContains]
      cases contains header Compression.zstd.name with
      | false => rfl
      | true => rfl

/- What is cached is sent, if its name is in the header. -/
theorem eval_cachedAs
    (hHtml :
      env.fromExtension "html" = some ("text", "html"))
    (hContains : contains header enc.name = true)
    (hDates : env.DatesPlain)
    {date : String}
    (hDate : env.fmtHttpDate t = some date) :
    ∃ reply,
      (dynReply env
          { sampleArgs with encoding := some header }).eval
            (cachedAs t enc) = .reply reply ∧
        reply.status = 200 ∧
        reply.header .contentEncoding = some enc.name := by
  refine ⟨fileReply "text/html" date false [] (some enc),
    ?_, ?_⟩
  · rw [eval_dynReply rfl]
    change (serve env _ sampleArgs.path ⟨some t, 1⟩).eval _ = _
    rw [eval_serve, contentType_page hHtml]
    dsimp only [Option.getD_some]
    rw [hDate, wants_html, wants_html,
      loadBody_cachedAs hContains]
    rfl
  · rw [fileReply_of_ok (by decide) (hDates t date hDate),
      (withFileHeaders_spec _ _).1,
      (withFileHeaders_spec _ _).2.2.1]
    exact ⟨rfl, rfl⟩

end Page

/-
  For every value of the header, and for none: the encoding
  is negotiated for all files and states of the cache
  exactly if each of the two names, where it occurs, is also
  listed as acceptable.
-/
theorem negotiates_iff
    (env : Env)
    (hDates : env.DatesPlain)
    (hHtml :
      env.fromExtension "html" = some ("text", "html"))
    (t : Time)
    (date : String)
    (hDate : env.fmtHttpDate t = some date)
    (encoding : Option String) :
    Negotiates env encoding ↔
      ∀ header ∈ encoding, ∀ enc : Compression,
        contains header enc.name = true →
          Accepts header enc := by
  constructor
  · intro hAll header hHeader enc hContains
    rcases eval_cachedAs hHtml hContains hDates hDate with
      ⟨reply, hReply, hStatus, hEncoding⟩
    rcases (hAll _ _ reply hHeader.symm hReply
        hStatus).coded enc hEncoding with
      ⟨other, hOther, hAccepts⟩
    cases hOther
    exact hAccepts
  · rintro hListed args answer reply rfl hReply hStatus
    rcases dynReply_ok hDates hReply hStatus with
      ⟨modified, body, chosen, hLoad, hBody, hEncoding⟩
    refine ⟨?_, ?_⟩
    · intro enc hName
      rw [hEncoding] at hName
      rcases Option.map_eq_some_iff.mp hName with
        ⟨sent, rfl, hSame⟩
      rw [Compression.name_injective hSame] at hLoad
      have hWants :=
        loadBody_wanted
          (wants (contentType env args.path) args.encoding)
          hLoad
      cases hHeader : args.encoding with
      | none =>
          rw [hHeader, wants] at hWants
          simp at hWants
      | some header =>
          rw [hHeader, wants, Bool.and_eq_true] at hWants
          exact ⟨header, rfl,
            hListed header hHeader enc hWants.2⟩
    · intro hNone
      have hUnwanted :
          ∀ enc,
            wants (contentType env args.path) args.encoding
              enc = false := by
        intro enc
        rw [hNone, wants]
        simp
      rw [hUnwanted, hUnwanted] at hLoad
      rw [hBody]
      exact loadBody_unwanted hLoad

theorem negotiates_of_weights :
    Negotiates sampleEnv
      (some "gzip;q=0.2, br, zstd;q=0.5") := by
  apply (negotiates_iff sampleEnv sampleEnv_datesPlain rfl 0
    "Thu, 01 Jan 1970 00:00:00 GMT" rfl _).mpr
  rintro header ⟨⟩ enc _
  cases enc with
  | zstd => decide
  | br => decide

/- What the client has ruled out is sent. -/
theorem excluded_coding_sent :
    ∃ reply,
      (dynReply sampleEnv
          { sampleArgs with
            encoding := some "gzip, br;q=0" }).eval
          (cachedAs 0 .br) = .reply reply ∧
        reply.status = 200 ∧
        reply.header .contentEncoding = some "br" ∧
        ¬ Accepts "gzip, br;q=0" .br :=
  ⟨_, rfl, by decide, by decide, by decide⟩

end Http

end Mles
