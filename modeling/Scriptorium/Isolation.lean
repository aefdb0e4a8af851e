import Scriptorium.RejectedImport
import Scriptorium.TakingTurns
import Mathlib.Data.List.Infix

/-!
# Workspaces side by side

Any number of requests, for any workspaces, served one after the other: on a file system
without symbolic links, to the requests of one workspace those of the others might as
well not be there (`turns_isolated`).

Requests that use no archive in the temp directory may also be served at the same time:
their system calls come in any order, and any of them may be abandoned.  Each stays below
the directory of its workspace (`requests_confined`), and the others do not show either
(`workspaces_isolated`).  Nor does it show that the workspace has been used before, once
it has been deleted (`deletion_forgets`).
-/

namespace Scriptorium

open Posix Effects

variable (cfg : ServiceConfig)

/-! ### Requests -/

/-- A request that works on the files of workspaces only, with what its handler reads
    besides the file tree; `exec` stands for the part of an execution that prepares the
    home. -/
inductive FileRequest where
  | exec (workspaceId : String)
  | fetch (net : Network) (req : FetchRequest)
  | importObject (clock : ImportClock) (stream : ImportStream)
  | list (fuel : Nat) (req : ListFilesRequest)
  | delete (workspaceId : String)

inductive FileReply where
  | home (path : PathBuf)
  | fetched (response : FetchResponse)
  | imported (response : ImportResponse)
  | listed (files : List FileInfo)
  | deleted (existed : Bool)

/-- The workspace a request is addressed to; an import that does not begin with a header
    is addressed to none. -/
def FileRequest.workspace : FileRequest → Option String
  | .exec workspaceId | .delete workspaceId => some workspaceId
  | .fetch _ req => some req.workspaceId
  | .importObject _ (.ok (.header header) :: _) => some header.workspaceId
  | .importObject _ _ => none
  | .list _ req => some req.workspaceId

def FileRequest.serve : FileRequest → Fs Status FileReply
  | .exec workspaceId => do
    let home ← rpc (ensureHome cfg.root workspaceId cfg.agentUid cfg.agentGid)
    pure (.home home)
  | .fetch net req => do
    let response ← doFetch cfg net req
    pure (.fetched response)
  | .importObject clock stream => do
    let response ← doImportWorkspaceObject cfg clock stream
    pure (.imported response)
  | .list fuel req => do
    let files ← listFiles cfg fuel req
    pure (.listed files)
  | .delete workspaceId => do
    let existed ← doDeleteWorkspace cfg workspaceId
    pure (.deleted existed)

/-! ### A request stays in its workspace -/

/-- The region holds the directory of a workspace, if that can be one. -/
def Covers (R : Region) (root workspaceId : String) : Prop :=
  ValidId workspaceId → R.own (workspacePos root workspaceId) = true

section Stays

variable {cfg} {R : Region} {workspaceId : String}

theorem inside_home (hroot : RootPath cfg.root) (hR : Covers R cfg.root workspaceId)
    (hid : ValidId workspaceId) : Inside R (homePath cfg.root workspaceId) := by
  refine ⟨homePos cfg.root workspaceId, R.below _ _ (hR hid) ?_, homePath_eq hroot hid⟩
  exact ⟨["home"], by simp [workspacePos, homePos]⟩

theorem inside_directory (hroot : RootPath cfg.root) (hR : Covers R cfg.root workspaceId)
    (hid : ValidId workspaceId) : Inside R ((PathBuf.ofString cfg.root).join workspaceId) := by
  refine ⟨workspacePos cfg.root workspaceId, hR hid, ?_⟩
  rw [PathBuf.join_of_proper (proper_of_validId hid), ofString_root hroot, workspacePos,
    canonical_concat]

/-- An accepted path lies in the workspace, and so does its directory. -/
theorem inside_resolved (hroot : RootPath cfg.root) (hR : Covers R cfg.root workspaceId)
    {relative : String} {path : PathBuf}
    (h : resolvePath cfg.root workspaceId relative = .ok path) :
    Inside R path ∧ Inside R (parentOrDot path) := by
  obtain ⟨hid, q, rfl, hhome, -⟩ := resolvePath_eq_ok hroot h
  have hconcat : homePos cfg.root workspaceId = workspacePos cfg.root workspaceId ++ ["home"] := by
    simp [workspacePos, homePos]
  rw [hconcat] at hhome
  have hq : workspacePos cfg.root workspaceId <+: q := (List.prefix_append _ _).trans hhome
  refine ⟨⟨q, R.below _ _ (hR hid) hq, rfl⟩, ?_⟩
  cases q using List.reverseRecOn with
  | nil => exact absurd (List.prefix_nil.mp hhome) (by simp)
  | append_singleton dir name =>
    rw [parentOrDot_canonical]
    refine ⟨dir, R.below _ _ (hR hid) ?_, rfl⟩
    rcases List.prefix_concat_iff.mp hhome with heq | hdir
    · obtain ⟨rfl, -⟩ := List.append_inj' heq rfl
      exact List.prefix_rfl
    · exact (List.prefix_append _ _).trans hdir

theorem stays_resolve (hroot : RootPath cfg.root) (hR : Covers R cfg.root workspaceId)
    (relative : String) :
    Stays R (fun path => Inside R path ∧ Inside R (parentOrDot path))
      (Prog.ofExcept (resolvePath cfg.root workspaceId relative) : Fs Error PathBuf) :=
  Prog.within_ofExcept fun _ h => inside_resolved hroot hR h

theorem stays_home (hroot : RootPath cfg.root) (hR : Covers R cfg.root workspaceId) :
    Stays R (fun _ => True) (ensureHome cfg.root workspaceId cfg.agentUid cfg.agentGid) :=
  stays_ensureHome fun hid => inside_home hroot hR hid

theorem stays_doFetch (hroot : RootPath cfg.root) (net : Network) (req : FetchRequest)
    (hR : Covers R cfg.root req.workspaceId) : Stays R (fun _ => True) (doFetch cfg net req) := by
  apply stays_rpc
  apply Prog.within_bind (stays_home hroot hR)
  intro _ _
  apply Prog.within_bind (stays_resolve hroot hR req.targetPath)
  rintro target ⟨htarget, -⟩
  apply Prog.within_bind (stays_fetchToFile htarget _ _)
  intro outcome _
  apply Prog.within_bind (stays_io (stays_call (c := .chmod target 0o644) htarget))
  intro _ _
  exact Prog.within_pure trivial

theorem stays_installObject {staging target : PathBuf} (hstaging : Inside R staging)
    (htarget : Inside R target) (hparent : Inside R (parentOrDot target)) (clock : ImportClock)
    (header : ImportHeader) (bytesWritten : Nat) :
    Stays R (fun _ => True) (installObject cfg clock header staging target bytesWritten) := by
  unfold installObject
  split
  · apply Prog.within_bind (stays_rpc (stays_replaceWorkspaceFileFromStaging hstaging htarget))
    intro _ _
    exact Prog.within_pure trivial
  · apply Prog.within_bind
      (stays_rpc (stays_replaceWorkspaceDirectoryFromArchivePath hstaging htarget hparent _ _))
    intro _ _
    exact Prog.within_pure trivial
  · apply Prog.within_bind (stays_ignore (stays_call (c := .unlink staging) hstaging))
    intro _ _
    exact Prog.within_throw _

theorem stays_importObject (hroot : RootPath cfg.root) (clock : ImportClock) (header : ImportHeader)
    (rest : ImportStream) (hR : Covers R cfg.root header.workspaceId) :
    Stays R (fun _ => True) (importObject cfg clock header rest) := by
  apply Prog.within_bind (stays_rpc (stays_home hroot hR))
  intro _ _
  apply Prog.within_bind (stays_rpc (stays_resolve hroot hR header.targetPath))
  rintro target ⟨htarget, hparent⟩
  apply Prog.within_bind (stays_ioRpc (stays_createDirAll hparent.near))
  intro _ _
  have hstaging : Inside R (buildWorkspaceTransferTempPath target "import" clock.staging) :=
    hparent.child _
  apply Prog.within_bind (stays_ioRpc (stays_create hstaging))
  intro handle hhandle
  apply Prog.within_bind (stays_receiveChunks hhandle _ _)
  intro bytesWritten _
  apply Prog.within_bind (stays_installObject hstaging htarget hparent _ _ _)
  intro response _
  apply Prog.within_bind (stays_ignore (stays_call (c := .unlink _) hstaging))
  intro _ _
  exact Prog.within_pure trivial

section Reading

variable {P : FsCall → Prop} {A : (c : FsCall) → c.Reply → Prop} (L : Reading P)

theorem Reading.admits_statSource {source : PathBuf} (h : L.reads source) (sourcePath : String) :
    (statSource source sourcePath).Within P A fun _ => True := by
  apply Prog.within_bind (Prog.within_attempt (within_sys (L.asks source h).1))
  intro r _
  split
  · exact Prog.within_pure trivial
  · exact Prog.within_throw _
  · exact Prog.within_throw _

/-- The file an export or an upload sends may be read. -/
def Reading.OfPayload : Payload → Prop
  | .file path => L.reads path
  | .archive _ => True

theorem Reading.admits_payloadSize {payload : Payload} (h : L.OfPayload payload) :
    (payloadSize payload).Within P A fun _ => True := by
  cases payload with
  | archive data => exact Prog.within_pure trivial
  | file path =>
    apply Prog.within_bind (within_sys (L.asks path h).2.1)
    intro _ _
    exact Prog.within_pure trivial

theorem Reading.admits_readPayload {payload : Payload} (h : L.OfPayload payload) :
    (readPayload payload).Within P A fun _ => True := by
  cases payload with
  | archive data => exact Prog.within_pure trivial
  | file path =>
    apply Prog.within_bind (within_sys (L.asks path h).2.2.2.2)
    intro _ _
    exact Prog.within_pure trivial

theorem Reading.admits_exportPayload {source : PathBuf} (h : L.reads source) (fuel : Nat)
    (encoding : WorkspaceObjectEncoding) (fileType : FileType) :
    (exportPayload cfg fuel encoding source fileType).Within P A fun found =>
      L.OfPayload found.1 := by
  unfold exportPayload
  split
  · split
    · exact Prog.within_throw _
    · exact Prog.within_pure h
  · split
    · exact Prog.within_throw _
    · apply Prog.within_bind (Prog.within_mapError (L.admits_tarGzIntoTemp h _ _))
      intro _ _
      exact Prog.within_pure trivial
  · exact Prog.within_throw _

theorem Reading.admits_exportWorkspaceObject (fuel : Nat) (req : ExportRequest)
    (hreads : ∀ path, resolvePath cfg.root req.workspaceId req.sourcePath = .ok path →
      L.reads path) :
    (exportWorkspaceObject cfg fuel req).Within P A fun _ => True := by
  apply Prog.within_bind (W := fun prepared : PreparedExport => L.OfPayload prepared.payload)
  · unfold doExportWorkspaceObject
    split
    · exact Prog.within_throw _
    · apply Prog.within_bind (Prog.within_mapError (Prog.within_ofExcept hreads))
      intro source hsource
      apply Prog.within_bind (L.admits_statSource hsource _)
      intro fileType _
      apply Prog.within_bind (L.admits_exportPayload hsource _ _ _)
      intro found hfound
      apply Prog.within_bind (Prog.within_mapError (L.admits_payloadSize hfound))
      intro _ _
      apply Prog.within_bind
        (Prog.within_mapError (Prog.within_mapError (L.admits_readPayload hfound)))
      intro _ _
      exact Prog.within_pure hfound
  · intro prepared hprepared
    apply Prog.within_bind (Prog.within_mapError (L.admits_readPayload hprepared))
    intro _ _
    exact Prog.within_pure trivial

theorem Reading.admits_listFiles (fuel : Nat) (req : ListFilesRequest)
    (hreads : ∀ path, resolvePath cfg.root req.workspaceId req.path = .ok path → L.reads path) :
    (listFiles cfg fuel req).Within P A fun _ => True := by
  apply Prog.within_bind (Prog.within_mapError (Prog.within_ofExcept hreads))
  intro base hbase
  apply Prog.within_bind (Prog.within_attempt (within_sys (L.asks base hbase).1))
  intro r _
  split
  · exact Prog.within_pure trivial
  · exact Prog.within_throw _
  · apply Prog.within_bind (W := fun _ => True)
      (Prog.within_mapError (Prog.within_ofExcept fun _ _ => trivial))
    intro home _
    apply Prog.within_mapError
    apply Prog.within_mapError
    apply L.admits_collectFiles
    intro d hd
    rw [List.mem_singleton.mp hd]
    exact hbase

end Reading

theorem stays_exportWorkspaceObject (hroot : RootPath cfg.root) (fuel : Nat) (req : ExportRequest)
    (hR : Covers R cfg.root req.workspaceId) :
    Stays R (fun _ => True) (exportWorkspaceObject cfg fuel req) :=
  (regionReading R).admits_exportWorkspaceObject fuel req fun _ h => (inside_resolved hroot hR h).1

theorem stays_listFiles (hroot : RootPath cfg.root) (fuel : Nat) (req : ListFilesRequest)
    (hR : Covers R cfg.root req.workspaceId) :
    Stays R (fun _ => True) (listFiles cfg fuel req) :=
  (regionReading R).admits_listFiles fuel req fun _ h => (inside_resolved hroot hR h).1

/-- Every request stays in its workspace. -/
theorem stays_serve (hroot : RootPath cfg.root) (req : FileRequest)
    (hR : ∀ workspaceId, req.workspace = some workspaceId → Covers R cfg.root workspaceId) :
    Stays R (fun _ => True) (req.serve cfg) := by
  have hpure : ∀ {α : Type} {m : Fs Status α} {f : α → FileReply},
      Stays R (fun _ => True) m → Stays R (fun _ => True) (m >>= fun a => pure (f a)) :=
    fun hm => Prog.within_bind hm fun _ _ => Prog.within_pure trivial
  cases req with
  | exec workspaceId => exact hpure (stays_rpc (stays_home hroot (hR _ rfl)))
  | fetch net req => exact hpure (stays_doFetch hroot net req (hR _ rfl))
  | list fuel req => exact hpure (stays_listFiles hroot fuel req (hR _ rfl))
  | delete workspaceId =>
    exact hpure (stays_rpc (stays_deleteWorkspace fun hid => inside_directory hroot (hR _ rfl) hid))
  | importObject clock stream =>
    apply hpure
    rcases stream with _ | ⟨_ | header | data | _, rest⟩
    · exact Prog.within_throw _
    · exact Prog.within_throw _
    · exact stays_importObject hroot clock header rest (hR _ rfl)
    · exact Prog.within_throw _
    · exact Prog.within_throw _

end Stays

/-! ### Served at the same time -/

/-- Requests in progress: what each has still to do, and the file system they share. -/
abbrev Serving := Crowd Nat FsCall FsCall.Reply Status FileReply FileTree

/-- No request has begun. -/
def Serving.start (requests : Nat → FileRequest) (t : FileTree) : Serving :=
  ⟨fun i => (requests i).serve cfg, t⟩

/-- What a request has answered. -/
def Serving.reply (s : Serving) (i : Nat) : Option (Except Status FileReply) :=
  match s.rest i with
  | .done result => some result
  | _ => none

/-- The system calls in the order of the schedule, each at its time. -/
def serveAll (cred : Cred) (requests : Nat → FileRequest) (schedule : List (Nat × Nat))
    (t : FileTree) : Serving :=
  (Serving.start cfg requests t).run (FileTree.exec cred) schedule

/-- There is no link, and the root is there. -/
structure Grounded (root : String) (t : FileTree) : Prop where
  links : t.SymlinkFree
  root : (t.get? (rootPos root)).isSome

/-- The directories of the workspaces with these ids. -/
def workspaceRegion (root : String) (ids : String → Bool) : Region where
  own q := (rootPos root).isPrefixOf q && (q.drop (rootPos root).length).head?.any ids
  below p q hp hpq := by
    obtain ⟨rest, rfl⟩ := hpq
    simp only [Bool.and_eq_true, List.isPrefixOf_iff_prefix, Option.any_eq_true] at hp ⊢
    obtain ⟨⟨below, rfl⟩, name, hname, hid⟩ := hp
    rw [List.append_assoc, List.drop_left] at *
    cases below with
    | nil => cases hname
    | cons first below => exact ⟨List.prefix_append _ _, name, hname, hid⟩

section Served

variable {cred : Cred} {t : FileTree} {root : String} {ids : String → Bool}

theorem own_workspaces {q : Pos} : (workspaceRegion root ids).own q = true ↔
    ∃ workspaceId, ids workspaceId = true ∧ workspacePos root workspaceId <+: q := by
  simp only [workspaceRegion, Bool.and_eq_true, List.isPrefixOf_iff_prefix, Option.any_eq_true]
  constructor
  · rintro ⟨⟨below, rfl⟩, name, hname, hid⟩
    rw [List.drop_left] at hname
    cases below with
    | nil => cases hname
    | cons first below =>
      obtain rfl := Option.some.inj hname
      exact ⟨first, hid, below, by simp [workspacePos]⟩
  · rintro ⟨name, hid, below, rfl⟩
    exact ⟨⟨name :: below, by simp [workspacePos]⟩, name, by simp [workspacePos], hid⟩

/-- From the workspaces the way to the root is seen. -/
theorem seen_workspaces {q : Pos} (h : (workspaceRegion root ids).Seen q) :
    q <+: rootPos root ∨ (workspaceRegion root ids).own q = true := by
  obtain ⟨p, hp, hq⟩ := h
  obtain ⟨workspaceId, hid, hbelow⟩ := own_workspaces.mp hp
  rcases List.prefix_or_prefix_of_prefix hq hbelow with habove | hin
  · rcases List.prefix_concat_iff.mp habove with rfl | habove
    · exact Or.inr (own_workspaces.mpr ⟨workspaceId, hid, List.prefix_rfl⟩)
    · exact Or.inl habove
  · exact Or.inr (own_workspaces.mpr ⟨workspaceId, hid, hin⟩)

theorem Grounded.plain (ht : Grounded root t) : FileTree.Plain (workspaceRegion root ids) t where
  no_link q node _ := ht.links q node
  ground q hq := by
    rcases seen_workspaces hq with habove | hown
    · exact Or.inr (FileTree.isSome_above ht.root habove)
    · exact Or.inl hown

/-- Links are not made. -/
theorem symlinkFree_exec (ht : t.SymlinkFree) (now : Nat) (c : FsCall) :
    (FileTree.exec cred now c t).2.SymlinkFree := by
  intro q node hnode
  rw [Bool.eq_false_iff]
  intro hlink
  rcases FileTree.link_of_exec hnode hlink with
    ⟨old, hold, hlink'⟩ | ⟨_, _, _, _, _, old, -, -, hold, hlink'⟩
  · rw [ht q old hold] at hlink'
    cases hlink'
  · rw [ht _ old hold] at hlink'
    cases hlink'

/-- A call of the workspaces changes nothing else. -/
theorem get?_exec_workspaces (ht : Grounded root t) {c : FsCall}
    (hc : (workspaceRegion root ids).Admits c) (now : Nat) {q : Pos}
    (hq : (workspaceRegion root ids).own q = false) :
    (FileTree.exec cred now c t).2.get? q = t.get? q := by
  rcases FileTree.touched_own cred now hc ht.plain with hsame | htouched
  · rw [hsame]
  · apply FileTree.get?_exec_of_not_touched
    intro p hp hpre
    rw [(workspaceRegion root ids).below p q (htouched p hp) hpre] at hq
    cases hq

theorem root_not_own : (workspaceRegion root ids).own (rootPos root) = false := by
  rw [Bool.eq_false_iff]
  intro hown
  obtain ⟨workspaceId, -, hbelow⟩ := own_workspaces.mp hown
  have hlength := hbelow.length_le
  simp [workspacePos] at hlength

theorem grounded_exec (ht : Grounded root t) {c : FsCall} (hc : (workspaceRegion root ids).Admits c)
    (now : Nat) : Grounded root (FileTree.exec cred now c t).2 where
  links := symlinkFree_exec ht.links now c
  root := by
    rw [get?_exec_workspaces ht hc now root_not_own]
    exact ht.root

theorem covers_workspaces {workspaceId : String}
    (h : ValidId workspaceId → ids workspaceId = true) :
    Covers (workspaceRegion root ids) root workspaceId :=
  fun hid => own_workspaces.mpr ⟨workspaceId, h hid, List.prefix_rfl⟩

/-- **Requests are confined.**  However the system calls of any requests interleave, and
    wherever requests are abandoned, on a file system without symbolic links nothing
    outside the directories of the workspaces they are addressed to changes, and no
    link appears. -/
theorem requests_confined (cfg : ServiceConfig) (hroot : RootPath cfg.root) (cred : Cred)
    (requests : Nat → FileRequest) (schedule : List (Nat × Nat)) (t : FileTree)
    (hlinks : t.SymlinkFree) (hthere : (t.get? (rootPos cfg.root)).isSome) :
    (serveAll cfg cred requests schedule t).world.SymlinkFree ∧
      ∀ q, (∀ i workspaceId, (requests i).workspace = some workspaceId → ValidId workspaceId →
          ¬ workspacePos cfg.root workspaceId <+: q) →
        (serveAll cfg cred requests schedule t).world.get? q = t.get? q := by
  classical
  let addressed : String → Bool := fun workspaceId =>
    decide (ValidId workspaceId ∧ ∃ i, (requests i).workspace = some workspaceId)
  let R := workspaceRegion cfg.root addressed
  have hcovers : ∀ i workspaceId, (requests i).workspace = some workspaceId →
      Covers R cfg.root workspaceId := fun i workspaceId hi =>
    covers_workspaces fun hid => decide_eq_true ⟨hid, i, hi⟩
  have hstart : (Serving.start cfg requests t).Admitted (fun _ => R.Admits) (fun _ => R.Returns)
      fun _ => True := fun i => stays_serve hroot (requests i) (hcovers i)
  obtain ⟨-, hgrounded, hsame⟩ := Crowd.invariant (FileTree.exec cred)
    (I := fun s => Grounded cfg.root s ∧ ∀ q, R.own q = false → s.get? q = t.get? q)
    (by
      rintro i now c s hc ⟨hgrounded, hsame⟩
      refine ⟨⟨grounded_exec hgrounded hc now, fun q hq => ?_⟩,
        FileTree.returns_exec hc hgrounded.plain.clear⟩
      rw [get?_exec_workspaces hgrounded hc now hq, hsame q hq])
    schedule hstart ⟨⟨hlinks, hthere⟩, fun _ _ => rfl⟩
  refine ⟨hgrounded.links, fun q hq => hsame q ?_⟩
  rw [Bool.eq_false_iff]
  intro hown
  obtain ⟨workspaceId, haddressed, hbelow⟩ := own_workspaces.mp hown
  obtain ⟨hid, i, hi⟩ := of_decide_eq_true haddressed
  exact hq i workspaceId hi hid hbelow

/-- The requests of one workspace. -/
def addressedTo (requests : Nat → FileRequest) (workspaceId : String) (i : Nat) : Bool :=
  (requests i).workspace == some workspaceId

/-- The directory of one workspace, and those of all others. -/
theorem others_apart {workspaceId : String} {p : Pos}
    (hp : (workspaceRegion root (· != workspaceId)).own p = true) :
    ¬ (workspaceRegion root (· == workspaceId)).Seen p := by
  intro hseen
  obtain ⟨other, hother, hbelow⟩ := own_workspaces.mp hp
  rcases seen_workspaces hseen with habove | hown
  · have hlength := (hbelow.trans habove).length_le
    simp [workspacePos] at hlength
  · obtain ⟨same, hsame, hin⟩ := own_workspaces.mp hown
    have hpos : workspacePos root other = workspacePos root same :=
      (List.prefix_of_prefix_length_le hbelow hin (by simp [workspacePos])).eq_of_length
        (by simp [workspacePos])
    obtain rfl : other = same := by simpa [workspacePos] using hpos
    exact bne_iff_ne.mp hother (beq_iff_eq.mp hsame)

/-- From file systems that are alike as far as one workspace is concerned, its requests run
    the same, with the requests of others or without them. -/
theorem serveAll_alike (cfg : ServiceConfig) (hroot : RootPath cfg.root) (cred : Cred)
    (requests : Nat → FileRequest) (schedule : List (Nat × Nat)) {workspaceId : String}
    {t t' : FileTree} (ht : Grounded cfg.root t) (ht' : Grounded cfg.root t')
    (halike : FileTree.Alike (workspaceRegion cfg.root (· == workspaceId)) t t') :
    let run := serveAll cfg cred requests schedule t
    let alone := serveAll cfg cred requests
      (schedule.filter fun turn => addressedTo requests workspaceId turn.1) t'
    (∀ i, addressedTo requests workspaceId i = true → run.reply i = alone.reply i) ∧
      ∀ q, workspacePos cfg.root workspaceId <+: q → run.world.get? q = alone.world.get? q := by
  intro run alone
  let own := workspaceRegion cfg.root (· == workspaceId)
  let others := workspaceRegion cfg.root (· != workspaceId)
  let region : Nat → Region := fun i => if addressedTo requests workspaceId i then own else others
  have hcovers : ∀ i other, (requests i).workspace = some other →
      Covers (region i) cfg.root other := by
    intro i other hi
    by_cases h : other = workspaceId
    · have hregion : region i = own := if_pos (by simp [addressedTo, hi, h])
      rw [hregion]
      exact covers_workspaces fun _ => by simpa using h
    · have hregion : region i = others := if_neg (by simp [addressedTo, hi, h])
      rw [hregion]
      exact covers_workspaces fun _ => by simpa using h
  have hstart : (Serving.start cfg requests t).Admitted (fun i => (region i).Admits)
      (fun i => (region i).Returns) fun _ => True :=
    fun i => stays_serve hroot (requests i) (hcovers i)
  have hrun := Crowd.run_filter (FileTree.exec cred) (addressedTo requests workspaceId)
    (fun u v => (Grounded cfg.root u ∧ Grounded cfg.root v) ∧ FileTree.Alike own u v)
    (P := fun i => (region i).Admits) (A := fun i => (region i).Returns) (W := fun _ => True)
    (by
      rintro i now c u v hi hc ⟨⟨hu, hv⟩, halike⟩
      have hregion : region i = own := if_pos hi
      rw [hregion] at hc
      obtain ⟨hreply, hafter⟩ := FileTree.exec_alike hc hu.plain.clear halike
      have hc' : own.Admits c := hc
      exact ⟨hreply, ⟨grounded_exec hu hc now, grounded_exec hv hc now⟩, hafter⟩)
    (by
      rintro i now c u v hi hc ⟨⟨hu, hv⟩, halike⟩
      have hregion : region i = others := if_neg (by simp [hi])
      rw [hregion] at hc
      exact ⟨⟨grounded_exec hu hc now, hv⟩,
        (FileTree.alike_exec hc hu.plain fun _ => others_apart).symm.trans halike⟩)
    (by
      rintro i now c u v hc ⟨⟨hu, -⟩, -⟩
      have hclear : FileTree.Clear (region i) u := fun q node _ => hu.links q node
      exact FileTree.returns_exec hc hclear)
    schedule hstart
    (t := Serving.start cfg requests t') ⟨fun _ _ => rfl, ⟨ht, ht'⟩, halike⟩
  obtain ⟨hrest, -, halike⟩ := hrun
  refine ⟨fun i hi => ?_, fun q hq => ?_⟩
  · have hsame : run.rest i = alone.rest i := hrest i hi
    simp only [Serving.reply, hsame]
  · apply halike.get? q
    apply Region.seen_of_own
    exact own_workspaces.mpr ⟨workspaceId, by simp, hq⟩

/-- **Workspaces are isolated.**  To the requests of one workspace, and below its
    directory, every run on a file system without symbolic links is the run from which
    the requests addressed to others have been left out. -/
theorem workspaces_isolated (cfg : ServiceConfig) (hroot : RootPath cfg.root) (cred : Cred)
    (requests : Nat → FileRequest) (schedule : List (Nat × Nat)) (t : FileTree)
    (hlinks : t.SymlinkFree) (hthere : (t.get? (rootPos cfg.root)).isSome) (workspaceId : String) :
    let run := serveAll cfg cred requests schedule t
    let alone := serveAll cfg cred requests
      (schedule.filter fun turn => addressedTo requests workspaceId turn.1) t
    (∀ i, addressedTo requests workspaceId i = true → run.reply i = alone.reply i) ∧
      ∀ q, workspacePos cfg.root workspaceId <+: q → run.world.get? q = alone.world.get? q :=
  serveAll_alike cfg hroot cred requests schedule ⟨hlinks, hthere⟩ ⟨hlinks, hthere⟩ (.refl _ t)

end Served

/-! ### One after the other -/

/-- A request that is served to its end before the next one is taken up: one that works on
    files, or an export, whose archive is gone by then. -/
inductive WorkspaceRequest where
  | file (req : FileRequest)
  | exportObject (fuel : Nat) (req : ExportRequest)

inductive WorkspaceReply where
  | file (reply : FileReply)
  | exported (messages : List ExportMessage)

def WorkspaceRequest.workspace : WorkspaceRequest → Option String
  | .file req => req.workspace
  | .exportObject _ req => some req.workspaceId

def WorkspaceRequest.serve : WorkspaceRequest → Fs Status WorkspaceReply
  | .file req => do
    let reply ← req.serve cfg
    pure (.file reply)
  | .exportObject fuel req => do
    let messages ← exportWorkspaceObject cfg fuel req
    pure (.exported messages)

/-- A request with the reading of the clock when it is served. -/
abbrev Turn := Nat × WorkspaceRequest

/-- Requests served in turn: each with its response, and what they leave of the tree. -/
def serveInTurn (cred : Cred) :
    List Turn → FileTree → List (Turn × Option (Except Status WorkspaceReply)) × FileTree
  | [], t => ([], t)
  | turn :: turns, t =>
    let served := (turn.2.serve cfg).run (FileTree.exec cred turn.1) t
    let others := serveInTurn cred turns served.2
    ((turn, served.1) :: others.1, others.2)

/-- The request is addressed to this workspace. -/
def Turn.isFor (workspaceId : String) (turn : Turn) : Bool := turn.2.workspace == some workspaceId

section InTurn

variable {cfg} {cred : Cred} {t u : FileTree} {workspaceId : String}

theorem stays_serve_turn {R : Region} (hroot : RootPath cfg.root) (req : WorkspaceRequest)
    (hR : ∀ workspaceId, req.workspace = some workspaceId → Covers R cfg.root workspaceId) :
    Stays R (fun _ => True) (req.serve cfg) := by
  cases req with
  | file req => exact Prog.within_bind (stays_serve hroot req hR) fun _ _ =>
    Prog.within_pure trivial
  | exportObject fuel req =>
    apply Prog.within_bind (stays_exportWorkspaceObject hroot fuel req (hR _ rfl))
    intro _ _
    exact Prog.within_pure trivial

variable (cred) in
/-- A request to the workspace is answered alike on trees that are alike there. -/
theorem serve_alike (hroot : RootPath cfg.root) (ht : Grounded cfg.root t)
    (hu : Grounded cfg.root u)
    (halike : FileTree.Alike (workspaceRegion cfg.root (· == workspaceId)) t u) {turn : Turn}
    (hturn : turn.isFor workspaceId = true) :
    let served := (turn.2.serve cfg).run (FileTree.exec cred turn.1) t
    let served' := (turn.2.serve cfg).run (FileTree.exec cred turn.1) u
    served.1 = served'.1 ∧ (Grounded cfg.root served.2 ∧ Grounded cfg.root served'.2) ∧
      FileTree.Alike (workspaceRegion cfg.root (· == workspaceId)) served.2 served'.2 := by
  have hcovers : ∀ other, turn.2.workspace = some other →
      Covers (workspaceRegion cfg.root (· == workspaceId)) cfg.root other := by
    intro other hother
    apply covers_workspaces
    intro _
    rw [Turn.isFor, hother, beq_iff_eq, Option.some.injEq] at hturn
    exact beq_iff_eq.mpr hturn
  let own := workspaceRegion cfg.root (· == workspaceId)
  let sim := fun s s' : FileTree =>
    (Grounded cfg.root s ∧ Grounded cfg.root s') ∧ FileTree.Alike own s s'
  have hstep : ∀ c s s', own.Admits c → sim s s' →
      (FileTree.exec cred turn.1 c s).1 = (FileTree.exec cred turn.1 c s').1 ∧
        sim (FileTree.exec cred turn.1 c s).2 (FileTree.exec cred turn.1 c s').2 ∧
        own.Returns c (FileTree.exec cred turn.1 c s).1 := by
    rintro c s s' hc ⟨⟨hs, hs'⟩, halike⟩
    obtain ⟨hreply, hafter⟩ := FileTree.exec_alike hc hs.plain.clear halike
    refine ⟨hreply, ⟨⟨grounded_exec hs hc turn.1, grounded_exec hs' hc turn.1⟩, hafter⟩, ?_⟩
    exact FileTree.returns_exec hc hs.plain.clear
  have hstart : sim t u := ⟨⟨ht, hu⟩, halike⟩
  exact (stays_serve_turn hroot turn.2 hcovers).same hstep hstart

variable (cred) in
/-- Any other request leaves the workspace alone. -/
theorem serve_other (hroot : RootPath cfg.root) (ht : Grounded cfg.root t) {turn : Turn}
    (hturn : turn.isFor workspaceId = false) :
    let served := (turn.2.serve cfg).run (FileTree.exec cred turn.1) t
    Grounded cfg.root served.2 ∧
      FileTree.Alike (workspaceRegion cfg.root (· == workspaceId)) t served.2 := by
  have hcovers : ∀ other, turn.2.workspace = some other →
      Covers (workspaceRegion cfg.root (· != workspaceId)) cfg.root other := by
    intro other hother
    apply covers_workspaces
    intro _
    rw [Turn.isFor, hother] at hturn
    simpa using hturn
  apply (stays_serve_turn hroot turn.2 hcovers).keeps
    (I := fun s => Grounded cfg.root s ∧
      FileTree.Alike (workspaceRegion cfg.root (· == workspaceId)) t s)
  · rintro c s hc ⟨hs, halike⟩
    refine ⟨⟨grounded_exec hs hc turn.1, ?_⟩, FileTree.returns_exec hc hs.plain.clear⟩
    exact halike.trans (FileTree.alike_exec hc hs.plain fun _ => others_apart)
  · exact ⟨ht, .refl _ t⟩

variable (cred) in
/-- From trees that are alike in the workspace, with the other requests or without them. -/
theorem serveInTurn_alike (hroot : RootPath cfg.root) (turns : List Turn)
    (ht : Grounded cfg.root t) (hu : Grounded cfg.root u)
    (halike : FileTree.Alike (workspaceRegion cfg.root (· == workspaceId)) t u) :
    let all := serveInTurn cfg cred turns t
    let alone := serveInTurn cfg cred (turns.filter (Turn.isFor workspaceId)) u
    all.1.filter (fun served => served.1.isFor workspaceId) = alone.1 ∧
      FileTree.Alike (workspaceRegion cfg.root (· == workspaceId)) all.2 alone.2 := by
  induction turns generalizing t u with
  | nil => exact ⟨rfl, halike⟩
  | cons turn turns ih =>
    by_cases hturn : turn.isFor workspaceId = true
    · obtain ⟨hreply, ⟨hs, hs'⟩, hafter⟩ := serve_alike cred hroot ht hu halike hturn
      obtain ⟨hreplies, hend⟩ := ih hs hs' hafter
      rw [List.filter_cons_of_pos hturn]
      simp only [serveInTurn]
      rw [List.filter_cons_of_pos (by exact hturn), hreplies, hreply]
      exact ⟨rfl, hend⟩
    · rw [Bool.not_eq_true] at hturn
      obtain ⟨hs, hafter⟩ := serve_other cred hroot ht hturn
      obtain ⟨hreplies, hend⟩ := ih hs hu (hafter.symm.trans halike)
      rw [List.filter_cons_of_neg (by simp [hturn])]
      simp only [serveInTurn]
      rw [List.filter_cons_of_neg (by simp [hturn])]
      exact ⟨hreplies, hend⟩

/-- **Workspaces are isolated in turn.**  Of requests served one after the other, those to
    one workspace get the responses, and leave the tree below its directory, that they would
    without the requests to other workspaces. -/
theorem turns_isolated (cfg : ServiceConfig) (hroot : RootPath cfg.root) (cred : Cred)
    (turns : List Turn) (t : FileTree) (hlinks : t.SymlinkFree)
    (hthere : (t.get? (rootPos cfg.root)).isSome) (workspaceId : String) :
    let all := serveInTurn cfg cred turns t
    let alone := serveInTurn cfg cred (turns.filter (Turn.isFor workspaceId)) t
    all.1.filter (fun served => served.1.isFor workspaceId) = alone.1 ∧
      ∀ q, workspacePos cfg.root workspaceId <+: q → all.2.get? q = alone.2.get? q := by
  intro all alone
  obtain ⟨hreplies, halike⟩ := serveInTurn_alike cred hroot turns
    ⟨hlinks, hthere⟩ ⟨hlinks, hthere⟩ (.refl (workspaceRegion cfg.root (· == workspaceId)) t)
  refine ⟨hreplies, fun q hq => halike.get? q ?_⟩
  apply Region.seen_of_own
  exact own_workspaces.mpr ⟨workspaceId, by simp, hq⟩

end InTurn

theorem sampleHost_symlinkFree : sampleHost.SymlinkFree :=
  FileTree.symlinkFree_ofEntries (by decide)

/-- The file of `w1` is listed, be `w2` deleted before or not. -/
theorem turns_isolated_of_listing :
    let list : Turn := (8, .file (.list 5 ⟨"w1", "", true⟩))
    (serveInTurn importConfig rootUser [(7, .file (.delete "w2")), list] sampleHost).2.get?
        ["srv", "w1", "home", "b"] =
      (serveInTurn importConfig rootUser [list] sampleHost).2.get? ["srv", "w1", "home", "b"] :=
  (turns_isolated importConfig ⟨by decide, by decide⟩ rootUser
    [(7, .file (.delete "w2")), (8, .file (.list 5 ⟨"w1", "", true⟩))] sampleHost
    sampleHost_symlinkFree (by decide) "w1").2 ["srv", "w1", "home", "b"] (by decide)

/-! ### A workspace that has been deleted -/

section Deleted

variable {cred : Cred} {now : Nat} {t s : FileTree} {workspaceId : String} {existed : Bool}

/-- When the directory of a workspace is said not to exist, it does not. -/
theorem missing_of_removeDirAll {root : String} (ht : Grounded root t)
    (h : (FileTree.exec cred now (.removeDirAll (canonical (workspacePos root workspaceId))) t).1 =
      .error .noent) : t.get? (workspacePos root workspaceId) = none := by
  let R := Region.of [workspacePos root workspaceId]
  have hclear : FileTree.Clear R t := fun q node _ => ht.links q node
  have hseen : R.Seen (workspacePos root workspaceId) := Region.seen_of_own Region.own_of_entry
  simp only [FileTree.exec, FileTree.removeDirAll] at h
  split at h
  · -- the way to the root is there, so it is not what is missing
    rename_i e hslot
    obtain rfl := Except.error.inj h
    rw [workspacePos, canonical_concat, FileTree.slot_concat] at hslot
    have hpresent : ∀ q, q <+: rootPos root → t.look cred q ≠ .absent := by
      intro q hq habsent
      have hsome := FileTree.isSome_above ht.root hq
      rw [FileTree.look_eq_absent.mp habsent] at hsome
      cases hsome
    have hnot : walk (t.look cred) maxLinks [] (canonical (rootPos root)) ≠ .error .noent :=
      walk_canonical_ne_noent hpresent fun q hq =>
        hclear.look_ne_link (hseen.above (hq.trans (List.prefix_append _ _)))
    split at hslot
    · rename_i e' hwalk
      obtain rfl := Except.error.inj hslot
      exact absurd hwalk hnot
    · rename_i p hwalk
      obtain rfl := hclear.walk_eq (hseen.above (List.prefix_append _ _)) hwalk
      have hsearch : search (t.look cred) (rootPos root) ≠ .error .noent := by
        have hthere := hpresent _ List.prefix_rfl
        unfold search
        split <;> simp_all
      split at hslot
      · rename_i e' hfailed
        obtain rfl := Except.error.inj hslot
        exact absurd hfailed hsearch
      · cases hslot
  · rename_i dir name hslot
    rw [hclear.slot_eq hseen hslot] at h
    split at h
    · assumption
    · split at h
      · split at h <;> cases h
      · split at h <;> cases h
      · cases h

variable {cfg}

/-- Where `DeleteWorkspace` has succeeded, the directory of the workspace is gone, and
    nothing else is. -/
theorem get?_of_deleted (hroot : RootPath cfg.root) (ht : Grounded cfg.root t)
    (h : (doDeleteWorkspace cfg workspaceId).run (FileTree.exec cred now) t =
      (some (.ok existed), s)) :
    (existed = (t.get? (workspacePos cfg.root workspaceId)).isSome) ∧
      ∀ q, s.get? q = if workspacePos cfg.root workspaceId <+: q then none else t.get? q := by
  obtain ⟨_, u, hvalid, hrest⟩ := Prog.run_bind_eq_ok _ (Prog.run_mapError_eq_ok _ h)
  obtain ⟨hok, rfl⟩ := Prod.mk.inj hvalid
  have hid : ValidId workspaceId := validateWorkspaceId_eq_ok.mp (Option.some.inj hok)
  have hpath : (PathBuf.ofString cfg.root).join workspaceId =
      canonical (workspacePos cfg.root workspaceId) := by
    rw [PathBuf.join_of_proper (proper_of_validId hid), ofString_root hroot, workspacePos,
      canonical_concat]
  have hclear : FileTree.Clear (Region.of [workspacePos cfg.root workspaceId]) t :=
    fun q node _ => ht.links q node
  have hseen : (Region.of [workspacePos cfg.root workspaceId]).Seen
      (workspacePos cfg.root workspaceId) :=
    Region.seen_of_own Region.own_of_entry
  rw [hpath] at hrest
  obtain ⟨result, u, hattempt, hanswer⟩ := Prog.run_bind_eq_ok _ hrest
  have hsys := Prog.run_attempt_eq_ok _ hattempt
  rcases FileTree.removeDirAll_cases cred t (canonical (workspacePos cfg.root workspaceId)) with
    ⟨e, he⟩ | ⟨dir, name, node, hslot, hnode, hremoved⟩
  · have hexec : FileTree.exec cred now
        (.removeDirAll (canonical (workspacePos cfg.root workspaceId))) t =
        (.error e, t) := he
    have hwait : e ≠ .wouldblock := by
      rintro rfl
      obtain ⟨_, _, _, -, -, ⟨hcall, -⟩ | ⟨hcall, -⟩⟩ :=
        FileTree.waits_of_exec (congrArg Prod.fst hexec)
      · cases hcall
      · cases hcall
    rw [run_sys_of_error hexec hwait] at hsys
    obtain ⟨hresult, rfl⟩ := Prod.mk.inj hsys
    obtain rfl := Option.some.inj hresult
    by_cases hmissing : e = .noent
    · subst hmissing
      obtain ⟨hreply, rfl⟩ := Prod.mk.inj hanswer
      have hnone := missing_of_removeDirAll ht (congrArg Prod.fst hexec)
      refine ⟨?_, fun q => ?_⟩
      · rw [hnone]
        exact (Except.ok.inj (Option.some.inj hreply)).symm
      · split
        · exact FileTree.get?_none_below hnone ‹_›
        · rfl
    · cases e <;> first | exact absurd rfl hmissing | cases hanswer
  · have hexec : FileTree.exec cred now
        (.removeDirAll (canonical (workspacePos cfg.root workspaceId))) t =
        (.ok (), t.removeAt dir name) := hremoved
    rw [run_sys_of_ok hexec] at hsys
    obtain ⟨hresult, rfl⟩ := Prod.mk.inj hsys
    obtain rfl := Option.some.inj hresult
    obtain ⟨hreply, rfl⟩ := Prod.mk.inj hanswer
    rw [hclear.slot_eq hseen hslot] at hnode
    refine ⟨?_, fun q => ?_⟩
    · rw [hnode]
      exact (Except.ok.inj (Option.some.inj hreply)).symm
    · rw [FileTree.get?_removeAt, hclear.slot_eq hseen hslot]

/-- **Deletion leaves no trace.**  After `DeleteWorkspace` has succeeded, requests to the
    workspace are answered, in any run, as on a file system on which there has never been
    such a workspace, and leave the same files. -/
theorem deletion_forgets (cfg : ServiceConfig) (hroot : RootPath cfg.root) (cred : Cred) (now : Nat)
    (t new : FileTree) (ht : Grounded cfg.root t) (hnew : Grounded cfg.root new)
    (hway : ∀ q, q <+: rootPos cfg.root → t.get? q = new.get? q) (workspaceId : String)
    (hnever : new.get? (workspacePos cfg.root workspaceId) = none) (existed : Bool) (s : FileTree)
    (hdeleted : (doDeleteWorkspace cfg workspaceId).run (FileTree.exec cred now) t =
      (some (.ok existed), s))
    (requests : Nat → FileRequest) (schedule : List (Nat × Nat)) :
    let run := serveAll cfg cred requests schedule s
    let fresh := serveAll cfg cred requests
      (schedule.filter fun turn => addressedTo requests workspaceId turn.1) new
    (∀ i, addressedTo requests workspaceId i = true → run.reply i = fresh.reply i) ∧
      ∀ q, workspacePos cfg.root workspaceId <+: q → run.world.get? q = fresh.world.get? q := by
  obtain ⟨-, hafter⟩ := get?_of_deleted hroot ht hdeleted
  have hgone : ∀ q, workspacePos cfg.root workspaceId <+: q → s.get? q = none := by
    intro q hq
    rw [hafter, if_pos hq]
  have hnone : ∀ q, workspacePos cfg.root workspaceId <+: q → new.get? q = none :=
    fun q hq => FileTree.get?_none_below hnever hq
  have habove : ∀ q, q <+: rootPos cfg.root → s.get? q = new.get? q := by
    intro q hq
    rw [hafter, if_neg, hway q hq]
    intro hbelow
    have hlength := (hbelow.trans hq).length_le
    simp [workspacePos] at hlength
  have hs : Grounded cfg.root s := by
    refine ⟨fun q node hnode => ?_, ?_⟩
    · rw [hafter] at hnode
      split at hnode
      · cases hnode
      · exact ht.links q node hnode
    · rw [habove _ List.prefix_rfl]
      exact hnew.root
  have hown : ∀ {q}, (workspaceRegion cfg.root (· == workspaceId)).own q = true →
      workspacePos cfg.root workspaceId <+: q := by
    intro q hq
    obtain ⟨same, hsame, hbelow⟩ := own_workspaces.mp hq
    rwa [beq_iff_eq.mp hsame] at hbelow
  have hbare : ∀ {u : FileTree}, (∀ q, workspacePos cfg.root workspaceId <+: q → u.get? q = none) →
      u.support.filter (workspaceRegion cfg.root (· == workspaceId)).own = [] := by
    intro u hu
    rw [List.filter_eq_nil_iff]
    intro q hq hin
    have hsome := (u.mem_support q).mp hq
    rw [hu q (hown hin)] at hsome
    cases hsome
  apply serveAll_alike cfg hroot cred requests schedule hs hnew
  constructor
  · intro q hq
    rcases seen_workspaces hq with hq | hq
    · exact habove q hq
    · rw [hgone q (hown hq), hnone q (hown hq)]
  · rw [hbare hgone, hbare hnone]

end Deleted

/-- One workspace is removed while another is listed. -/
def twoWorkspaces (i : Nat) : FileRequest :=
  if i = 0 then .delete "w2" else .list 5 ⟨"w1", "", true⟩

/-- The home of the workspace that is listed stays as it is. -/
theorem requests_confined_of_delete :
    (serveAll importConfig rootUser (fun _ => .delete "w2") [(0, 7), (1, 8)] sampleHost).world.get?
      ["srv", "w1", "home", "b"] = sampleHost.get? ["srv", "w1", "home", "b"] := by
  refine (requests_confined importConfig ⟨by decide, by decide⟩ rootUser _ _ sampleHost
    sampleHost_symlinkFree (by decide)).2 _ ?_
  intro i workspaceId hi _
  obtain rfl : "w2" = workspaceId := Option.some.inj hi
  decide

/-- The listing does not see the removal. -/
theorem workspaces_isolated_of_listing :
    (serveAll importConfig rootUser twoWorkspaces [(1, 7), (0, 8), (1, 9)] sampleHost).reply 1 =
      (serveAll importConfig rootUser twoWorkspaces [(1, 7), (1, 9)] sampleHost).reply 1 :=
  (workspaces_isolated importConfig ⟨by decide, by decide⟩ rootUser twoWorkspaces
    [(1, 7), (0, 8), (1, 9)] sampleHost sampleHost_symlinkFree (by decide) "w1").1 1 rfl

/-- A host on which there has never been a workspace. -/
def newHost : FileTree := .ofEntries [([], hostDir), (["srv"], hostDir)] (by decide)

/-- The home that has been deleted is listed like one that has never been made. -/
theorem deletion_forgets_listing :
    (serveAll importConfig rootUser twoWorkspaces [(1, 8), (0, 9), (1, 10)]
        ((doDeleteWorkspace importConfig "w1").run (FileTree.exec rootUser 7) sampleHost).2).reply
          1 =
      (serveAll importConfig rootUser twoWorkspaces [(1, 8), (1, 10)] newHost).reply 1 := by
  have hdeleted : (doDeleteWorkspace importConfig "w1").run (FileTree.exec rootUser 7) sampleHost =
      (some (.ok true),
        ((doDeleteWorkspace importConfig "w1").run (FileTree.exec rootUser 7) sampleHost).2) :=
    Prod.ext (by decide) rfl
  have hway : ∀ q ∈ ["srv"].inits, sampleHost.get? q = newHost.get? q := by decide
  exact (deletion_forgets importConfig ⟨by decide, by decide⟩ rootUser 7 sampleHost newHost
    ⟨sampleHost_symlinkFree, by decide⟩ ⟨FileTree.symlinkFree_ofEntries (by decide), by decide⟩
    (fun q hq => hway q ((List.mem_inits _ _).mpr hq)) "w1" (by decide) true _ hdeleted
      twoWorkspaces
    [(1, 8), (0, 9), (1, 10)]).1 1 rfl

end Scriptorium
