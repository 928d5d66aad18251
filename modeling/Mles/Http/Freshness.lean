import Mles.Http.Site
import Mathlib.Data.List.Nodup

/-
  Cached files are served fresh.

  An entry of the compression cache may be newer than its
  key says: a request reads the file some time after it has
  seen its status.  It is never older, and a request looks
  only for the time of modification it has seen itself.  So
  every file served is a version that was there at the
  request's own look at the status, or a later one.

  Key definitions include:
    * `Http.Site.Had`
    * `Http.Site.Tidy`
    * `Http.Site.Phase`
    * `Http.Site.Fresh`

  Key theorems include:
    * `Http.Site.perform_spec`
    * `Http.Site.fresh_step`
    * `Http.Site.fresh_run`
    * `Http.Site.served_fresh`
-/

------------------------------------------------------------
-- Versions
------------------------------------------------------------

namespace Mles

namespace Http

/- The file a request is about. -/
def Args.path (args : Args) : String :=
  filePath args.wwwRoot args.uri args.tail

theorem getElem?_of_prefix
    {α : Type}
    {xs ys : List α}
    (hPrefix : xs <+: ys)
    {i : Nat}
    {x : α}
    (hAt : xs[i]? = some x) :
    ys[i]? = some x := by
  rcases List.getElem?_eq_some_iff.mp hAt with ⟨hLt, rfl⟩
  exact List.prefix_iff_getElem?.mp hPrefix i hLt

namespace Site

/- Version `j` of the file or a later one has the content. -/
def Had
    (s : Site)
    (file : Inode)
    (j : Nat)
    (raw : Bytes) : Prop :=
  ∃ i v, j ≤ i ∧ (s.versions file)[i]? = some v ∧
    v.content = raw

/- The file was opened at version `j` or a later one. -/
def Opened
    (s : Site)
    (file : Inode)
    (j : Nat)
    (handle : Handle) : Prop :=
  ∃ n, s.handles[handle]? = some (file, n) ∧ j ≤ n

/- Nothing that was written or opened is forgotten. -/
structure Grows (s t : Site) : Prop where
  versions : ∀ file, s.versions file <+: t.versions file
  handles : s.handles <+: t.handles

theorem Grows.refl
    (s : Site) :
    s.Grows s :=
  ⟨fun _ => List.prefix_rfl, List.prefix_rfl⟩

theorem Grows.trans
    {s t u : Site}
    (hFirst : s.Grows t)
    (hSecond : t.Grows u) :
    s.Grows u :=
  ⟨fun file =>
      (hFirst.versions file).trans (hSecond.versions file),
    hFirst.handles.trans hSecond.handles⟩

theorem Grows.version
    {s t : Site}
    (hGrows : s.Grows t)
    {file : Inode}
    {i : Nat}
    {v : Version}
    (hVersion : (s.versions file)[i]? = some v) :
    (t.versions file)[i]? = some v :=
  getElem?_of_prefix (hGrows.versions file) hVersion

theorem Grows.had
    {s t : Site}
    (hGrows : s.Grows t)
    {file : Inode}
    {j : Nat}
    {raw : Bytes}
    (hHad : s.Had file j raw) :
    t.Had file j raw := by
  rcases hHad with ⟨i, v, hLe, hVersion, hContent⟩
  exact ⟨i, v, hLe, hGrows.version hVersion, hContent⟩

theorem Grows.opened
    {s t : Site}
    (hGrows : s.Grows t)
    {file : Inode}
    {j : Nat}
    {handle : Handle}
    (hOpened : s.Opened file j handle) :
    t.Opened file j handle := by
  rcases hOpened with ⟨n, hHandle, hLe⟩
  exact ⟨n, getElem?_of_prefix hGrows.handles hHandle, hLe⟩

end Site

end Http

end Mles

------------------------------------------------------------
-- The Surroundings
------------------------------------------------------------

namespace Mles

namespace Http

theorem Decodes.mono
    {codec : Codec}
    {Had Had' : Bytes → Prop}
    (hMore : ∀ raw, Had raw → Had' raw)
    {name : String}
    {data : Bytes}
    (hDecodes : Decodes codec Had name data) :
    Decodes codec Had' name data := by
  rcases hDecodes with ⟨raw, hRaw, hHad⟩
  exact ⟨raw, hRaw, hMore raw hHad⟩

theorem Given.mono
    {codec : Codec}
    {Had Had' : Bytes → Prop}
    {Mine Mine' : Handle → Prop}
    (hHad : ∀ raw, Had raw → Had' raw)
    (hMine : ∀ handle, Mine handle → Mine' handle)
    {op : Op}
    {ans : op.Ans}
    (hGiven : Given codec Had Mine op ans) :
    Given codec Had' Mine' op ans := by
  cases op with
  | metadata path => trivial
  | cacheGet path compression modified =>
      exact fun data hHit => (hGiven data hHit).mono hHad
  | fileOpen path =>
      exact fun file hFile => hMine file (hGiven file hFile)
  | readToEnd file =>
      exact fun raw hRaw => hHad raw (hGiven raw hRaw)
  | compress comptype data => exact hGiven
  | cacheInsert path compression modified data => trivial

namespace Site

/-
  What holds of the surroundings of the requests: no two
  versions of a file have one time of modification, and what
  the cache has for such a time is that version of the file
  or a later one.
-/
structure Tidy
    (m : Machine)
    (s : Site) : Prop where
  distinct :
    ∀ file, ((s.versions file).map Version.modified).Nodup
  sound : s.cache.Sound
  cached :
    ∀ key data, s.cache.Holds key data →
      ∃ j v,
        (s.versions (m.locate key.path))[j]? = some v ∧
        v.modified = key.modified ∧
        Decodes m.codec (s.Had (m.locate key.path) j)
          key.compression data

/- The time of modification tells the version. -/
theorem Tidy.index_eq
    {m : Machine}
    {s : Site}
    (hTidy : s.Tidy m)
    {file : Inode}
    {i j : Nat}
    {v w : Version}
    (hFirst : (s.versions file)[i]? = some v)
    (hSecond : (s.versions file)[j]? = some w)
    (hSame : v.modified = w.modified) :
    i = j := by
  have hLeft :
      ((s.versions file).map Version.modified)[i]? =
        some v.modified := by
    rw [List.getElem?_map, hFirst]
    rfl
  have hRight :
      ((s.versions file).map Version.modified)[j]? =
        some v.modified := by
    rw [List.getElem?_map, hSecond, hSame]
    rfl
  rcases List.getElem?_eq_some_iff.mp hLeft with ⟨hLt, _⟩
  exact (List.getElem?_inj hLt (hTidy.distinct file)).mp
    (hLeft.trans hRight.symm)

/- The surroundings stay tidy under a write. -/
theorem Tidy.grow
    {m : Machine}
    {s t : Site}
    (hTidy : s.Tidy m)
    (hGrows : s.Grows t)
    (hDistinct :
      ∀ file, ((t.versions file).map Version.modified).Nodup)
    (hSound : t.cache.Sound)
    (hCached :
      ∀ key data, t.cache.Holds key data →
        s.cache.Holds key data) :
    t.Tidy m where
  distinct := hDistinct
  sound := hSound
  cached := by
    intro key data hHolds
    rcases hTidy.cached key data (hCached key data hHolds) with
      ⟨j, v, hVersion, hTime, hDecodes⟩
    exact ⟨j, v, hGrows.version hVersion, hTime,
      hDecodes.mono (fun _ => hGrows.had)⟩

theorem tidy_init
    (m : Machine)
    (maxSizeMb : UInt64) :
    (init maxSizeMb).Tidy m where
  distinct := fun _ => List.nodup_nil
  sound := CompressionCache.sound_after maxSizeMb []
  cached := fun key data hHolds =>
    absurd hHolds
      (CompressionCache.not_holds_new maxSizeMb key data)

theorem perform_fileOpen
    {m : Machine}
    {s t : Site}
    {seen : Nat}
    {path : String}
    {ans : Option Handle}
    (hPerform :
      s.perform m seen (.fileOpen path) = some (ans, t)) :
    (ans = none ∧ t = s) ∨
      ∃ n, (s.versions (m.locate path)).length = n + 1 ∧
        ans = some s.handles.length ∧
        t = { s with
          handles := s.handles ++ [(m.locate path, n)] } := by
  simp only [perform] at hPerform
  split at hPerform
  · cases hPerform
    exact Or.inl ⟨rfl, rfl⟩
  · rename_i n hLength
    cases hPerform
    exact Or.inr ⟨n, hLength, rfl, rfl⟩

theorem perform_readToEnd
    {m : Machine}
    {s t : Site}
    {seen : Nat}
    {file : Handle}
    {ans : Option Bytes}
    (hPerform :
      s.perform m seen (.readToEnd file) = some (ans, t)) :
    ∃ inode n v,
      s.handles[file]? = some (inode, n) ∧ n ≤ seen ∧
      (s.versions inode)[seen]? = some v ∧
      ans = some v.content ∧ t = s := by
  simp only [perform] at hPerform
  split at hPerform
  · cases hPerform
  · rename_i inode n hHandle
    split at hPerform
    · rename_i hLe
      rcases Option.map_eq_some_iff.mp hPerform with
        ⟨v, hVersion, hEq⟩
      cases hEq
      exact ⟨inode, n, v, hHandle, hLe, hVersion, rfl, rfl⟩
    · cases hPerform

/- A call changes neither the files nor the requests. -/
theorem perform_frame
    {m : Machine}
    {s t : Site}
    {seen : Nat}
    {op : Op}
    {ans : op.Ans}
    (hPerform : s.perform m seen op = some (ans, t)) :
    t.versions = s.versions ∧ s.handles <+: t.handles ∧
      t.requests = s.requests := by
  cases op with
  | metadata path =>
      cases hPerform
      exact ⟨rfl, List.prefix_rfl, rfl⟩
  | cacheGet path compression modified =>
      cases hPerform
      exact ⟨rfl, List.prefix_rfl, rfl⟩
  | fileOpen path =>
      rcases perform_fileOpen hPerform with
        ⟨_, rfl⟩ | ⟨n, _, _, rfl⟩
      · exact ⟨rfl, List.prefix_rfl, rfl⟩
      · exact ⟨rfl, List.prefix_append _ _, rfl⟩
  | readToEnd file =>
      rcases perform_readToEnd hPerform with
        ⟨_, _, _, _, _, _, _, rfl⟩
      exact ⟨rfl, List.prefix_rfl, rfl⟩
  | compress comptype data =>
      cases hPerform
      exact ⟨rfl, List.prefix_rfl, rfl⟩
  | cacheInsert path compression modified data =>
      cases hPerform
      exact ⟨rfl, List.prefix_rfl, rfl⟩

theorem perform_grows
    {m : Machine}
    {s t : Site}
    {seen : Nat}
    {op : Op}
    {ans : op.Ans}
    (hPerform : s.perform m seen op = some (ans, t)) :
    s.Grows t := by
  rcases perform_frame hPerform with ⟨hVersions, hHandles, _⟩
  refine ⟨?_, hHandles⟩
  intro file
  rw [hVersions]

/-
  The surroundings keep their side of the contract: a
  request that has seen version `j` of its file is given
  that version or a later one.
-/
theorem perform_spec
    {m : Machine}
    {s t : Site}
    {seen : Nat}
    {op : Op}
    {ans : op.Ans}
    {path : String}
    {j : Nat}
    {v : Version}
    (hTidy : s.Tidy m)
    (hSeen : (s.versions (m.locate path))[j]? = some v)
    (hAsks :
      Asks m.codec (s.Had (m.locate path) j) path v.modified
        (s.Opened (m.locate path) j) op)
    (hPerform : s.perform m seen op = some (ans, t)) :
    t.Tidy m ∧
      Given m.codec (t.Had (m.locate path) j)
        (t.Opened (m.locate path) j) op ans := by
  cases op with
  | metadata p => exact absurd hAsks id
  | cacheGet p compression modified =>
      rcases hAsks with ⟨rfl, rfl⟩
      cases hPerform
      constructor
      · refine hTidy.grow ⟨fun _ => List.prefix_rfl,
          List.prefix_rfl⟩ hTidy.distinct ?_ ?_
        · exact (CompressionCache.sound_get hTidy.sound _ _
            _).1
        · exact fun key data hHolds => hHolds.of_get
      · intro data hHit
        rcases hTidy.cached _ data
            (CompressionCache.holds_of_get hHit) with
          ⟨i, w, hVersion, hTime, hDecodes⟩
        have hSame : i = j :=
          hTidy.index_eq hVersion hSeen hTime
        subst hSame
        exact hDecodes
  | fileOpen p =>
      have hPath : p = path := hAsks
      subst hPath
      rcases perform_fileOpen hPerform with
        ⟨rfl, rfl⟩ | ⟨n, hLength, rfl, rfl⟩
      · refine ⟨hTidy, ?_⟩
        intro file hFile
        cases hFile
      · constructor
        · exact hTidy.grow ⟨fun _ => List.prefix_rfl,
            List.prefix_append _ _⟩ hTidy.distinct
            hTidy.sound (fun _ _ hHolds => hHolds)
        · intro file hFile
          cases hFile
          rcases List.getElem?_eq_some_iff.mp hSeen with
            ⟨hLt, _⟩
          exact ⟨n, by simp, by omega⟩
  | readToEnd file =>
      rcases hAsks with ⟨n, hHandle, hLe⟩
      rcases perform_readToEnd hPerform with
        ⟨inode, n', w, hHandle', hLe', hVersion, rfl, rfl⟩
      rw [hHandle] at hHandle'
      cases hHandle'
      refine ⟨hTidy, ?_⟩
      intro raw hRaw
      cases hRaw
      exact ⟨seen, w, Nat.le_trans hLe hLe', hVersion, rfl⟩
  | compress comptype data =>
      cases hPerform
      refine ⟨hTidy, ?_⟩
      intro c hEncoded
      exact m.codec.undo comptype data c hEncoded
  | cacheInsert p compression modified data =>
      rcases hAsks with ⟨rfl, rfl, hDecodes⟩
      cases hPerform
      refine ⟨⟨hTidy.distinct, ?_, ?_⟩, trivial⟩
      · exact (CompressionCache.drift_insert hTidy.sound _ _
          _ _).1
      · intro key stored hHolds
        rcases CompressionCache.Holds.of_insert hTidy.sound
            hHolds with ⟨rfl, rfl⟩ | hOld
        · exact ⟨j, v, hSeen, rfl, hDecodes⟩
        · exact hTidy.cached key stored hOld

end Site

end Http

end Mles

------------------------------------------------------------
-- The Requests
------------------------------------------------------------

namespace Mles

namespace Http

/-
  HTTP dates are plain text, so that they can stand in a
  header.
-/
def Env.DatesPlain (env : Env) : Prop :=
  ∀ t text, env.fmtHttpDate t = some text →
    headerValueOk text = true

namespace Site

/-
  How far a request is.  `Seen j` says that it has seen the
  status of its file at version `j`.
-/
inductive Phase
    (m : Machine)
    (Seen : Nat → Prop)
    (s : Site)
    (p : Pending) : Prop where
| waiting (hTask : p.task = dynReply m.env p.args)
| closed
    (outcome : Outcome)
    (hTask : p.task = .done outcome)
    (hOther :
      ∀ reply, outcome = .reply reply → reply.status ≠ 200)
| serving
    (j : Nat)
    (v : Version)
    (hSeen : Seen j)
    (hVersion :
      (s.versions (m.locate p.args.path))[j]? = some v)
    (hKeeps :
      ∀ Had Mine,
        (∀ raw, s.Had (m.locate p.args.path) j raw →
          Had raw) →
        (∀ handle, s.Opened (m.locate p.args.path) j handle →
          Mine handle) →
        Keeps m.codec Had p.args.path v.modified Mine
          (Served m Had v.modified) p.task)

/- Time passes, and nothing is lost by it. -/
theorem Phase.grow
    {m : Machine}
    {Seen Seen' : Nat → Prop}
    {s t : Site}
    {p : Pending}
    (hPhase : s.Phase m Seen p)
    (hGrows : s.Grows t)
    (hMore : ∀ j, Seen j → Seen' j) :
    t.Phase m Seen' p := by
  cases hPhase with
  | waiting hTask => exact .waiting hTask
  | closed outcome hTask hOther =>
      exact .closed outcome hTask hOther
  | serving j v hSeen hVersion hKeeps =>
      refine .serving j v (hMore j hSeen)
        (hGrows.version hVersion) ?_
      intro Had Mine hHad hMine
      exact hKeeps Had Mine
        (fun raw hOld => hHad raw (hGrows.had hOld))
        (fun handle hOld => hMine handle (hGrows.opened hOld))

/- The status comes: the request is closed or serves. -/
theorem phase_of_status
    {m : Machine}
    (hDates : m.env.DatesPlain)
    {Seen : Nat → Prop}
    {s : Site}
    (args : Args)
    (hSeen :
      ∀ j, (s.versions (m.locate args.path)).length = j + 1 →
        Seen j) :
    s.Phase m Seen
      ⟨args, serveIfFound m.env args args.path
        ((s.versions (m.locate args.path)).getLast?.map
          (fun v => ⟨some v.modified, v.content.length⟩))⟩ := by
  cases hLast : (s.versions (m.locate args.path)).getLast? with
  | none =>
      refine .closed (.reply notFound) rfl ?_
      intro reply hReply
      cases hReply
      decide
  | some v =>
      simp only [Option.map_some, serveIfFound]
      rcases serve_cases m args args.path v.modified
          v.content.length with
        hPanicked | ⟨lastModified, hDate, _, hCurrent⟩ | hKeeps
      · refine .closed .panicked hPanicked ?_
        intro reply hReply
        cases hReply
      · refine .closed _ hCurrent ?_
        intro reply hReply
        cases hReply
        rw [notModified_status (hDates _ _ hDate)]
        decide
      · rw [List.getLast?_eq_getElem?] at hLast
        have hPos :
            0 < (s.versions (m.locate args.path)).length := by
          rcases List.getElem?_eq_some_iff.mp hLast with
            ⟨hLt, _⟩
          omega
        refine .serving _ v (hSeen _ (by omega)) hLast ?_
        intro Had Mine _ _
        exact hKeeps Had Mine

/- A call that fails is a call that gives nothing. -/
theorem given_error
    {codec : Codec}
    {Had : Bytes → Prop}
    {Mine : Handle → Prop}
    {op : Op}
    {ans : op.Ans}
    (hError : op.error = some ans) :
    Given codec Had Mine op ans := by
  cases op with
  | metadata path => trivial
  | cacheGet path compression modified => cases hError
  | fileOpen path =>
      cases hError
      intro file hFile
      cases hFile
  | readToEnd file =>
      cases hError
      intro raw hRaw
      cases hRaw
  | compress comptype data =>
      cases hError
      intro c hEncoded
      cases hEncoded
  | cacheInsert path compression modified data =>
      cases hError

theorem grows_resume
    (s : Site)
    (r : Nat)
    (args : Args)
    (task : Task Outcome) :
    s.Grows (s.resume r args task) :=
  ⟨fun _ => List.prefix_rfl, List.prefix_rfl⟩

/- Going on with one request leaves the others alone. -/
theorem requests_resume
    {s : Site}
    {r r' : Nat}
    {args : Args}
    {task : Task Outcome}
    {p : Pending}
    (hAt : (s.resume r args task).requests[r']? = some p) :
    (r' = r ∧ p = ⟨args, task⟩) ∨
      s.requests[r']? = some p := by
  simp only [Site.resume, List.getElem?_set] at hAt
  by_cases hEq : r = r'
  · rw [if_pos hEq] at hAt
    split at hAt
    · exact Or.inl ⟨hEq.symm, (Option.some.inj hAt).symm⟩
    · cases hAt
  · rw [if_neg hEq] at hAt
    exact Or.inr hAt

/- The surroundings are tidy, and every request is in phase. -/
structure Fresh
    (m : Machine)
    (Seen : Nat → Args → Nat → Prop)
    (s : Site) : Prop where
  tidy : s.Tidy m
  phases :
    ∀ r p, s.requests[r]? = some p →
      s.Phase m (Seen r p.args) p

/- One request goes on, the others only see time pass. -/
theorem Fresh.resume
    {m : Machine}
    {Seen Seen' : Nat → Args → Nat → Prop}
    {s t : Site}
    (hFresh : s.Fresh m Seen)
    (hMore :
      ∀ r args j, Seen r args j → Seen' r args j)
    (hGrows : s.Grows t)
    (hTidy : t.Tidy m)
    (hRequests : t.requests = s.requests)
    {r : Nat}
    {args : Args}
    {task : Task Outcome}
    (hPhase : t.Phase m (Seen' r args) ⟨args, task⟩) :
    (t.resume r args task).Fresh m Seen' := by
  have hOnward := t.grows_resume r args task
  constructor
  · exact hTidy.grow hOnward hTidy.distinct hTidy.sound
      (fun _ _ hHolds => hHolds)
  · intro r' p hAt
    rcases requests_resume hAt with ⟨rfl, rfl⟩ | hOld
    · exact hPhase.grow hOnward (fun _ hSeen => hSeen)
    · rw [hRequests] at hOld
      exact (hFresh.phases r' p hOld).grow
        (hGrows.trans hOnward) (hMore r' p.args)

end Site

end Http

end Mles

------------------------------------------------------------
-- One Step
------------------------------------------------------------

namespace Mles

namespace Http

namespace Site

theorem grows_step
    {m : Machine}
    {s t : Site}
    {a : SiteAct}
    (hStep : s.step m a = some t) :
    s.Grows t := by
  rcases step_cases hStep with
    ⟨file, version, _, _, rfl⟩ | ⟨args, _, rfl⟩ |
    ⟨r, seen, args, op, k, ans, u, _, _, hPerform, rfl⟩ |
    ⟨r, args, op, k, ans, _, _, _, rfl⟩
  · refine ⟨?_, List.prefix_rfl⟩
    intro other
    by_cases hFile : other = file
    · subst hFile
      simp
    · simp [hFile]
  · exact ⟨fun _ => List.prefix_rfl, List.prefix_rfl⟩
  · exact (perform_grows hPerform).trans
      (u.grows_resume r args (k ans))
  · exact s.grows_resume r args (k ans)

/- The request waits for the status of its file. -/
def AwaitsStatus
    (m : Machine)
    (s : Site)
    (r : Nat)
    (args : Args) : Prop :=
  s.requests[r]? =
    some ⟨args, .call (.metadata args.path)
      (serveIfFound m.env args args.path)⟩

/- What a waiting request waits for. -/
theorem awaitsStatus_of_waiting
    {m : Machine}
    {s : Site}
    {r : Nat}
    {args : Args}
    {op : Op}
    {k : op.Ans → Task Outcome}
    (hAt : s.requests[r]? = some ⟨args, .call op k⟩)
    (hTask : .call op k = dynReply m.env args) :
    s.AwaitsStatus m r args := by
  by_cases hHost : args.uri = args.domain
  · rw [dynReply_eq_call m.env hHost] at hTask
    unfold AwaitsStatus
    rw [hAt, hTask]
    rfl
  · rw [dynReply_of_ne m.env hHost] at hTask
    cases hTask

theorem tidy_write
    {m : Machine}
    {s : Site}
    (hTidy : s.Tidy m)
    {file : Inode}
    {version : Version}
    (hNew :
      version.modified ∉
        (s.versions file).map Version.modified) :
    Tidy m { s with
      versions :=
        Function.update s.versions file
          (s.versions file ++ [version]) } := by
  have hStep :
      s.step m (.write file version) = some _ :=
    if_neg hNew
  refine hTidy.grow (grows_step hStep) ?_ hTidy.sound
    (fun _ _ hHolds => hHolds)
  intro other
  by_cases hFile : other = file
  · subst hFile
    simp only [Function.update_self, List.map_append,
      List.map_cons, List.map_nil]
    exact List.Nodup.append (hTidy.distinct other)
      (List.nodup_singleton _) (by simpa using hNew)
  · simp only [Function.update_of_ne hFile]
    exact hTidy.distinct other

/- A request that serves goes on with what it is given. -/
theorem phase_of_answer
    {m : Machine}
    {Seen : Nat → Prop}
    {s t : Site}
    {args : Args}
    {op : Op}
    {k : op.Ans → Task Outcome}
    {ans : op.Ans}
    {j : Nat}
    {v : Version}
    (hSeen : Seen j)
    (hVersion :
      (s.versions (m.locate args.path))[j]? = some v)
    (hKeeps :
      ∀ Had Mine,
        (∀ raw, s.Had (m.locate args.path) j raw →
          Had raw) →
        (∀ handle, s.Opened (m.locate args.path) j handle →
          Mine handle) →
        Keeps m.codec Had args.path v.modified Mine
          (Served m Had v.modified) (.call op k))
    (hGrows : s.Grows t)
    (hGiven :
      Given m.codec (t.Had (m.locate args.path) j)
        (t.Opened (m.locate args.path) j) op ans) :
    t.Phase m Seen ⟨args, k ans⟩ := by
  refine .serving j v hSeen (hGrows.version hVersion) ?_
  intro Had Mine hHad hMine
  have hCall := hKeeps Had Mine
    (fun raw hOld => hHad raw (hGrows.had hOld))
    (fun handle hOld => hMine handle (hGrows.opened hOld))
  exact hCall.2 ans (hGiven.mono hHad hMine)

theorem fresh_answered
    {m : Machine}
    (hDates : m.env.DatesPlain)
    {Seen Seen' : Nat → Args → Nat → Prop}
    {s t : Site}
    (hFresh : s.Fresh m Seen)
    (hMore :
      ∀ r args j, Seen r args j → Seen' r args j)
    {r seen : Nat}
    {args : Args}
    {op : Op}
    {k : op.Ans → Task Outcome}
    {ans : op.Ans}
    (hAt : s.requests[r]? = some ⟨args, .call op k⟩)
    (hPerform : s.perform m seen op = some (ans, t))
    (hNew :
      s.AwaitsStatus m r args →
        ∀ j,
          (s.versions (m.locate args.path)).length = j + 1 →
            Seen' r args j) :
    (t.resume r args (k ans)).Fresh m Seen' := by
  have hGrows := perform_grows hPerform
  have hRequests := (perform_frame hPerform).2.2
  cases hFresh.phases r _ hAt with
  | waiting hTask =>
      have hAwaits := awaitsStatus_of_waiting hAt hTask
      have hCall := hAt.symm.trans hAwaits
      cases hCall
      cases hPerform
      exact hFresh.resume hMore hGrows hFresh.tidy rfl
        (phase_of_status hDates args (hNew hAwaits))
  | closed outcome hTask hOther => cases hTask
  | serving j v hSeen hVersion hKeeps =>
      have hCall := hKeeps _ _ (fun _ hHad => hHad)
        (fun _ hOpened => hOpened)
      rcases perform_spec hFresh.tidy hVersion hCall.1
          hPerform with ⟨hTidy, hGiven⟩
      exact hFresh.resume hMore hGrows hTidy hRequests
        (phase_of_answer (hMore r args j hSeen) hVersion
          hKeeps hGrows hGiven)

theorem fresh_failed
    {m : Machine}
    {Seen Seen' : Nat → Args → Nat → Prop}
    {s : Site}
    (hFresh : s.Fresh m Seen)
    (hMore :
      ∀ r args j, Seen r args j → Seen' r args j)
    {r : Nat}
    {args : Args}
    {op : Op}
    {k : op.Ans → Task Outcome}
    {ans : op.Ans}
    (hAt : s.requests[r]? = some ⟨args, .call op k⟩)
    (hError : op.error = some ans) :
    (s.resume r args (k ans)).Fresh m Seen' := by
  refine hFresh.resume hMore (.refl s) hFresh.tidy rfl ?_
  cases hFresh.phases r _ hAt with
  | waiting hTask =>
      have hAwaits := awaitsStatus_of_waiting hAt hTask
      have hCall := hAt.symm.trans hAwaits
      cases hCall
      cases hError
      refine .closed (.reply notFound) rfl ?_
      intro reply hReply
      cases hReply
      decide
  | closed outcome hTask hOther => cases hTask
  | serving j v hSeen hVersion hKeeps =>
      exact phase_of_answer (hMore r args j hSeen) hVersion
        hKeeps (.refl s) (given_error hError)

/- What one step preserves. -/
theorem fresh_step
    {m : Machine}
    (hDates : m.env.DatesPlain)
    {Seen Seen' : Nat → Args → Nat → Prop}
    {s t : Site}
    {a : SiteAct}
    (hFresh : s.Fresh m Seen)
    (hMore :
      ∀ r args j, Seen r args j → Seen' r args j)
    (hNew :
      ∀ r seen args,
        a = .answered r seen →
          s.AwaitsStatus m r args →
            ∀ j,
              (s.versions (m.locate args.path)).length =
                  j + 1 →
                Seen' r args j)
    (hStep : s.step m a = some t) :
    t.Fresh m Seen' := by
  have hGrows := grows_step hStep
  rcases step_cases hStep with
    ⟨file, version, _, hFirst, rfl⟩ | ⟨args, _, rfl⟩ |
    ⟨r, seen, args, op, k, ans, u, rfl, hAt, hPerform, rfl⟩ |
    ⟨r, args, op, k, ans, _, hAt, hError, rfl⟩
  · refine ⟨tidy_write hFresh.tidy hFirst, ?_⟩
    intro r p hAt
    exact (hFresh.phases r p hAt).grow hGrows
      (hMore r p.args)
  · constructor
    · exact hFresh.tidy.grow hGrows hFresh.tidy.distinct
        hFresh.tidy.sound (fun _ _ hHolds => hHolds)
    · intro r p hAt
      simp only [List.getElem?_append] at hAt
      split at hAt
      · exact (hFresh.phases r p hAt).grow hGrows
          (hMore r p.args)
      · cases List.mem_singleton.mp (List.mem_of_getElem? hAt)
        exact .waiting rfl
  · exact fresh_answered hDates hFresh hMore hAt hPerform
      (hNew r seen args rfl)
  · exact fresh_failed hFresh hMore hAt hError

end Site

end Http

end Mles

------------------------------------------------------------
-- Whole Runs
------------------------------------------------------------

namespace Mles

namespace Http

namespace Site

/-
  In the course of the actions, the request saw the status of
  its file when version `j` was the newest.
-/
def Saw
    (m : Machine)
    (maxSizeMb : UInt64)
    (acts : List SiteAct)
    (r : Nat)
    (args : Args)
    (j : Nat) : Prop :=
  ∃ before seen behind t,
    acts = before ++ .answered r seen :: behind ∧
    run m maxSizeMb before = some t ∧
    t.AwaitsStatus m r args ∧
    (t.versions (m.locate args.path)).length = j + 1

theorem Saw.snoc
    {m : Machine}
    {maxSizeMb : UInt64}
    {acts : List SiteAct}
    {r : Nat}
    {args : Args}
    {j : Nat}
    (hSaw : Saw m maxSizeMb acts r args j)
    (a : SiteAct) :
    Saw m maxSizeMb (acts ++ [a]) r args j := by
  rcases hSaw with
    ⟨before, seen, behind, t, rfl, hRun, hAwaits, hLength⟩
  exact ⟨before, seen, behind ++ [a], t, by simp, hRun,
    hAwaits, hLength⟩

/- What a whole run preserves. -/
theorem fresh_run
    {m : Machine}
    (hDates : m.env.DatesPlain)
    {maxSizeMb : UInt64}
    {acts : List SiteAct}
    {s : Site}
    (hRun : run m maxSizeMb acts = some s) :
    s.Fresh m (Saw m maxSizeMb acts) := by
  refine Trace.run_induction
    (P := fun acts s => s.Fresh m (Saw m maxSizeMb acts))
    ?_ ?_ hRun
  · refine ⟨tidy_init m maxSizeMb, ?_⟩
    intro r p hAt
    cases hAt
  · intro acts s a t hRun ih hStep
    refine fresh_step hDates ih ?_ ?_ hStep
    · exact fun r args j hSaw => hSaw.snoc a
    · intro r seen args hAct hAwaits j hLength
      subst hAct
      exact ⟨acts, seen, [], s, rfl, hRun, hAwaits, hLength⟩

theorem grows_run
    {m : Machine}
    {s t : Site}
    {acts : List SiteAct}
    (hRun : Trace.run (step m) s acts = some t) :
    s.Grows t ∧ s.requests.length ≤ t.requests.length := by
  refine Trace.run_induction
    (P := fun _ t =>
      s.Grows t ∧ s.requests.length ≤ t.requests.length)
    ⟨.refl s, Nat.le_refl _⟩ ?_ hRun
  intro _ t a u _ ih hStep
  refine ⟨ih.1.trans (grows_step hStep), ?_⟩
  refine Nat.le_trans ih.2 ?_
  rcases step_cases hStep with
    ⟨file, version, _, _, rfl⟩ | ⟨args, _, rfl⟩ |
    ⟨r, seen, args, op, k, ans, w, _, _, hPerform, rfl⟩ |
    ⟨r, args, op, k, ans, _, _, _, rfl⟩
  · exact Nat.le_refl _
  · simp
  · simp [Site.resume, (perform_frame hPerform).2.2]
  · simp [Site.resume]

/- A step adds at most one version to a file. -/
theorem versions_step
    {m : Machine}
    {s t : Site}
    {a : SiteAct}
    (hStep : s.step m a = some t)
    (file : Inode) :
    (t.versions file).length ≤
      (s.versions file).length + 1 := by
  rcases step_cases hStep with
    ⟨other, version, _, _, rfl⟩ | ⟨args, _, rfl⟩ |
    ⟨r, seen, args, op, k, ans, u, _, _, hPerform, rfl⟩ |
    ⟨r, args, op, k, ans, _, _, _, rfl⟩
  · by_cases hFile : file = other
    · subst hFile
      simp
    · simp [hFile]
  · exact Nat.le_succ _
  · simp [Site.resume, (perform_frame hPerform).1]
  · exact Nat.le_succ _

/- A call of a request writes nothing. -/
theorem versions_answered
    {m : Machine}
    {s t : Site}
    {r seen : Nat}
    (hStep : s.step m (.answered r seen) = some t) :
    t.versions = s.versions := by
  rcases step_cases hStep with
    ⟨_, _, hAct, _⟩ | ⟨_, hAct, _⟩ |
    ⟨_, _, args, op, k, ans, u, _, _, hPerform, rfl⟩ |
    ⟨_, _, _, _, _, hAct, _⟩
  · cases hAct
  · cases hAct
  · exact (perform_frame hPerform).1
  · cases hAct

/- Every version of a file was once the newest. -/
theorem exists_moment
    {m : Machine}
    {s t : Site}
    {acts : List SiteAct}
    (hRun : Trace.run (step m) s acts = some t)
    {file : Inode}
    {i : Nat}
    {v : Version}
    (hNotYet : (s.versions file).length ≤ i + 1)
    (hVersion : (t.versions file)[i]? = some v) :
    ∃ mid late u,
      acts = mid ++ late ∧
      Trace.run (step m) s mid = some u ∧
      (u.versions file).getLast? = some v := by
  induction acts generalizing s with
  | nil =>
      have hSame : s = t := Option.some.inj hRun
      subst hSame
      rcases List.getElem?_eq_some_iff.mp hVersion with
        ⟨hLt, _⟩
      have hLast : (s.versions file).length - 1 = i := by
        omega
      refine ⟨[], [], s, rfl, rfl, ?_⟩
      rw [List.getLast?_eq_getElem?, hLast, hVersion]
  | cons a acts ih =>
      by_cases hNow : (s.versions file).length = i + 1
      · have hLast : (s.versions file).length - 1 = i := by
          omega
        refine ⟨[], a :: acts, s, rfl, rfl, ?_⟩
        have hAt := List.getElem?_eq_getElem
          (show i < (s.versions file).length by omega)
        have hLater := (grows_run hRun).1.version hAt
        rw [List.getLast?_eq_getElem?, hLast, hAt, ← hLater,
          hVersion]
      · rw [Trace.run_cons] at hRun
        rcases Option.bind_eq_some_iff.mp hRun with
          ⟨s', hStep, hRest⟩
        have hMore := versions_step hStep file
        rcases ih hRest (by omega) with
          ⟨mid, late, u, rfl, hMid, hLast⟩
        refine ⟨a :: mid, late, u, rfl, ?_, hLast⟩
        rw [Trace.run_cons, hStep]
        exact hMid

/- A request sees the status after it has come. -/
theorem grows_of_awaits
    {m : Machine}
    {maxSizeMb : UInt64}
    {early before rest behind : List SiteAct}
    {p t : Site}
    {args : Args}
    {a b : SiteAct}
    (hSplit : early ++ a :: rest = before ++ b :: behind)
    (hEarly : run m maxSizeMb early = some p)
    (hBefore : run m maxSizeMb before = some t)
    (hAwaits : t.AwaitsStatus m p.requests.length args) :
    p.Grows t := by
  rcases List.append_eq_append_iff.mp hSplit with
    ⟨more, hMore, _⟩ | ⟨more, hMore, _⟩
  · rw [hMore] at hBefore
    rcases Trace.run_append_eq_some_iff.mp hBefore with
      ⟨p', hFirst, hSecond⟩
    cases hEarly.symm.trans hFirst
    exact (grows_run hSecond).1
  · rw [hMore] at hEarly
    rcases Trace.run_append_eq_some_iff.mp hEarly with
      ⟨t', hFirst, hSecond⟩
    cases hBefore.symm.trans hFirst
    have hLess := (grows_run hSecond).2
    rcases List.getElem?_eq_some_iff.mp hAwaits with ⟨hLt, _⟩
    omega

/- What a request with a file for its reply has seen. -/
theorem saw_of_reply
    {m : Machine}
    (hDates : m.env.DatesPlain)
    {maxSizeMb : UInt64}
    {acts : List SiteAct}
    {s : Site}
    (hRun : run m maxSizeMb acts = some s)
    {r : Nat}
    {args : Args}
    {reply : Reply}
    (hReply :
      s.requests[r]? = some ⟨args, .done (.reply reply)⟩)
    (hStatus : reply.status = 200) :
    ∃ j v raw,
      Saw m maxSizeMb acts r args j ∧
      (s.versions (m.locate args.path))[j]? = some v ∧
      reply.header .lastModified =
        m.env.fmtHttpDate v.modified ∧
      reply.decode m.codec = some raw ∧
      s.Had (m.locate args.path) j raw := by
  cases (fresh_run hDates hRun).phases r _ hReply with
  | waiting hTask =>
      by_cases hHost : args.uri = args.domain
      · rw [dynReply_eq_call m.env hHost] at hTask
        cases hTask
      · rw [dynReply_of_ne m.env hHost] at hTask
        cases hTask
  | closed outcome hTask hOther =>
      cases hTask
      exact absurd hStatus (hOther reply rfl)
  | serving j v hSaw hVersion hKeeps =>
      have hServed := hKeeps _ _ (fun _ hHad => hHad)
        (fun _ hOpened => hOpened)
      rcases hServed with ⟨_, hSame, hOr⟩
      cases hSame
      rcases hOr with hError | ⟨_, ⟨raw, hRaw, hHad⟩, hDate⟩
      · rw [hStatus] at hError
        cases hError
      · exact ⟨j, v, raw, hSaw, hVersion, hDate, hRaw, hHad⟩

/-
  Whatever the order of the requests' calls and the writes,
  and whatever the size of the cache: a file served is
  decoded to the content its file had at a moment between
  the request's look at the status and the end of the run,
  which may be the reply itself.  What was written before
  the request came is never served in an older version.
-/
theorem served_fresh
    (m : Machine)
    (hDates : m.env.DatesPlain)
    (maxSizeMb : UInt64)
    (acts : List SiteAct)
    (s : Site)
    (hRun : run m maxSizeMb acts = some s)
    (r : Nat)
    (args : Args)
    (reply : Reply)
    (hReply :
      s.requests[r]? = some ⟨args, .done (.reply reply)⟩)
    (hStatus : reply.status = 200) :
    ∃ raw,
      reply.decode m.codec = some raw ∧
      (∃ before seen mid late t u,
        acts = before ++ .answered r seen :: mid ++ late ∧
        run m maxSizeMb before = some t ∧
        t.AwaitsStatus m r args ∧
        run m maxSizeMb (before ++ .answered r seen :: mid) =
          some u ∧
        u.content (m.locate args.path) = some raw) ∧
      ∀ early rest p,
        acts = early ++ .request args :: rest →
        run m maxSizeMb early = some p →
        p.requests.length = r →
        ∃ i v,
          (s.versions (m.locate args.path))[i]? = some v ∧
          v.content = raw ∧
          (p.versions (m.locate args.path)).length ≤ i + 1 := by
  rcases saw_of_reply hDates hRun hReply hStatus with
    ⟨j, _, raw, hSaw, _, _, hRaw, i, v, hLe, hVersion,
      hContent⟩
  rcases hSaw with
    ⟨before, seen, behind, t, rfl, hBefore, hAwaits, hLength⟩
  refine ⟨raw, hRaw, ?_, ?_⟩
  · rcases Trace.run_append_eq_some_iff.mp hRun with
      ⟨t', hFirst, hRest⟩
    cases hBefore.symm.trans hFirst
    rw [Trace.run_cons] at hRest
    rcases Option.bind_eq_some_iff.mp hRest with
      ⟨t', hStep, hBehind⟩
    have hStill :
        (t'.versions (m.locate args.path)).length ≤ i + 1 := by
      rw [versions_answered hStep]
      omega
    rcases exists_moment hBehind hStill hVersion with
      ⟨mid, late, u, rfl, hMid, hLast⟩
    refine ⟨before, seen, mid, late, t, u, by simp, hBefore,
      hAwaits, ?_, ?_⟩
    · refine Trace.run_trans hBefore ?_
      rw [Trace.run_cons, hStep]
      exact hMid
    · unfold content
      rw [hLast, Option.map_some, hContent]
  · intro early rest p hSplit hEarly hCame
    subst hCame
    have hGrows :=
      grows_of_awaits hSplit.symm hEarly hBefore hAwaits
    have hPrefix := hGrows.versions (m.locate args.path)
    have hShort := hPrefix.length_le
    exact ⟨i, v, hVersion, hContent, by omega⟩

end Site

/- HTTP dates of the first two seconds of the epoch. -/
def firstDates : List String :=
  ["Thu, 01 Jan 1970 00:00:00 GMT",
    "Thu, 01 Jan 1970 00:00:01 GMT"]

def sampleEnv : Env where
  fromExtension := fun ext =>
    if ext = "html" then some ("text", "html") else none
  fmtHttpDate := fun t =>
    if 0 ≤ t then firstDates[secs t]? else none
  parseHttpDate := fun text =>
    (firstDates.idxOf? text).map (fun i => i * 10 ^ 9)

/-
  Short data in a Zstandard frame with one block that is not
  compressed, as the encoder makes it.
-/
def storedFrame : Codec where
  compress := fun comptype data =>
    match comptype with
    | .zstd =>
        if data.length < 16 then
          some ([0x28, 0xb5, 0x2f, 0xfd, 0, 0x50,
            8 * data.length.toUInt8 + 1, 0, 0] ++ data)
        else none
    | .br => none
  decompress := fun name c =>
    if name = "zstd" then some (c.drop 9) else none
  undo := by
    intro comptype data c hCompress
    cases comptype with
    | zstd =>
        simp only at hCompress
        split at hCompress
        · cases hCompress
          rfl
        · cases hCompress
    | br => cases hCompress

def sampleMachine : Machine where
  env := sampleEnv
  codec := storedFrame
  locate := fun _ => 0

theorem sampleEnv_datesPlain : sampleEnv.DatesPlain := by
  intro t text hDate
  simp only [sampleEnv] at hDate
  split at hDate
  · have hAll : ∀ date ∈ firstDates, headerValueOk date = true := by
      decide
    exact hAll text (List.mem_of_getElem? hDate)
  · cases hDate

def sampleArgs : Args where
  encoding := some "zstd"
  ims := none
  uri := "example.org"
  domain := "example.org"
  wwwRoot := "/srv/www"
  tail := ""
  cors := false

/-
  Two requests see the first version, and the file is then
  written; the second gets from the cache what the first
  read after that.
-/
def overtaken : List SiteAct :=
  [.write 0 ⟨[97], 10⟩, .request sampleArgs,
    .request sampleArgs, .answered 0 0, .answered 1 0,
    .write 0 ⟨[98], 20⟩, .answered 0 0, .answered 0 0,
    .answered 0 1, .answered 0 0, .answered 0 0,
    .answered 1 0]

namespace Site

theorem served_fresh_overtaken :
    ∃ s reply,
      run sampleMachine 1 overtaken = some s ∧
      s.requests[1]? =
        some ⟨sampleArgs, .done (.reply reply)⟩ ∧
      reply.status = 200 ∧
      reply.decode storedFrame = some [98] ∧
      ∃ before seen mid late u,
        overtaken =
          before ++ .answered 1 seen :: mid ++ late ∧
        run sampleMachine 1
          (before ++ .answered 1 seen :: mid) = some u ∧
        u.content 0 = some [98] := by
  refine ⟨_, _, rfl, rfl, rfl, rfl, ?_⟩
  rcases served_fresh sampleMachine sampleEnv_datesPlain 1
      overtaken _ rfl 1 sampleArgs _ rfl rfl with
    ⟨raw, hRaw, ⟨before, seen, mid, late, _, u, hSplit, _, _,
      hMid, hContent⟩, _⟩
  have hSame : raw = [98] := (Option.some.inj hRaw).symm
  subst hSame
  exact ⟨before, seen, mid, late, u, hSplit, hMid, hContent⟩

end Site

end Http

end Mles
