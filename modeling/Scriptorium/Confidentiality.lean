import Scriptorium.PackingSecrecy
import Scriptorium.Service
import Scriptorium.ResolvePath

/-!
# What the read requests disclose

`ListFiles`, `UploadToOSS` and `ExportWorkspaceObject` answer from what lies
inside the workspace as long as every path they open resolves inside it
(`Confined`).  Otherwise what they return depends on the rest of the host.
-/

namespace Scriptorium

open Posix Effects

variable {cred : Cred} {now : Nat} {W : Pos} {t : FileTree}

/-! ### The source of a transfer -/

/-- The node at the end of a path has the type `fileType`. -/
def LeadsTo (cred : Cred) (t : FileTree) (path : PathBuf) (fileType : FileType) : Prop :=
  ∃ p node, walk (t.look cred) maxLinks [] path = .ok p ∧ t.get? p = some node ∧
    node.fileType = fileType

theorem leadsTo_of_statSource {source : PathBuf} {sourcePath : String} {fileType : FileType}
    (h : ((statSource source sourcePath).run (FileTree.exec cred now) t).1 = some (.ok fileType)) :
    LeadsTo cred t source fileType := by
  rw [statSource] at h
  obtain ⟨r, s, hr, h⟩ := Prog.ok_of_run_bind _ h
  rw [Prog.run_attempt] at hr
  obtain ⟨hr, rfl⟩ := Prod.mk.inj hr
  cases r with
  | error e =>
    exfalso
    cases e with
    | custom message => cases h
    | os e => cases e <;> cases h
  | ok found =>
    obtain rfl : found = fileType := by simpa using h
    have hcall : (FileTree.exec cred now (.fileType source) t).1 = .ok found := by
      refine eq_of_run_sys_ok (s := t) ?_
      simpa using hr
    simp only [FileTree.exec] at hcall
    cases hfind : t.find cred source with
    | error e => simp [hfind, Except.map] at hcall
    | ok found' =>
      obtain ⟨p, node⟩ := found'
      obtain ⟨hwalk, hnode⟩ := FileTree.find_eq_ok hfind
      exact ⟨p, node, hwalk, hnode, by simpa [hfind, Except.map] using hcall⟩

theorem judged_statSource {source : PathBuf} {sourcePath : String} (hsource : ProperNames source) :
    Judged cred now W (· ≠ ·) (statSource source sourcePath) (statSource source sourcePath) t := by
  by_cases hsrc : t.WalkInside cred W source
  · refine judged_of_confined ?_
    refine confined_bind (confined_attempt.mpr (confined_sys.mpr hsrc)) fun r _ => ?_
    split
    · exact confined_pure _
    · exact confined_throw _
    · exact confined_throw _
  · obtain ⟨t₁, t₂, h₁, h₂, hnoent, hloop⟩ := FileTree.walk_differs hsource hsrc
    refine judged_of_splits ⟨t₁, t₂, ⟨.notFound, "no such path: " ++ sourcePath⟩,
      (Error.io (.os .loop)).toStatus, h₁, h₂, ?_, ?_, ?_⟩
    · simp [Error.toStatus]
    · rw [statSource, Prog.run_bind, Prog.run_attempt,
        run_sys_of_walk_error (Or.inl rfl) (by decide) hnoent]
      rfl
    · rw [statSource, Prog.run_bind, Prog.run_attempt,
        run_sys_of_walk_error (Or.inl rfl) (by decide) hloop]
      rfl

/-! ### Archives -/

theorem itemOk_source {source : PathBuf} (hsrc : t.WalkInside cred W source)
    (hdir : ∀ p, walk (t.look cred) maxLinks [] source = .ok p → t.isDir p = true) :
    ItemOk cred W t source ⟨[], true, false⟩ := by
  have hpath : source ++ ([] : Pos).map Component.normal = source := by simp
  refine ⟨by simp, ?_, by simp, ?_, by simp⟩
  · intro _
    rwa [hpath]
  · intro _ p hp
    rw [hpath] at hp
    exact hdir p hp

theorem judged_tarGzIntoTemp (hcred : cred.privileged = true) {codec : Codec} {source : PathBuf}
    (hsource : ProperNames source) (hsrc : t.WalkInside cred W source) (hW : (t.get? W).isSome)
    (fuel : Nat) :
    Judged cred now W (OsApart Error.io) (tarGzIntoTemp codec fuel source)
      (tarGzIntoTemp codec (fuel + 1) source) t := by
  refine judged_bind (judged_of_confined (confined_isDir hsrc)) fun into _ hr => ?_
  rw [run_isDir] at hr
  obtain rfl : dirAt cred t source = into := by simpa using hr
  cases hdir : dirAt cred t source with
  | true =>
    simp only [if_true]
    refine judged_bind_confined ?_ fun entries _ _ => confined_pure _
    refine judged_mapError (judged_appendLoop hcred hsource fuel _ [] fun item hitem => ?_) ?_
    · rw [List.mem_singleton] at hitem
      rw [hitem]
      exact itemOk_source hsrc fun p hp => isDir_of_dirAt hdir hp
    · rintro _ _ ⟨a, b, hne, rfl, rfl⟩
      exact ⟨a, b, hne, rfl, rfl⟩
  | false =>
    simp only [Bool.false_eq_true, if_false]
    refine judged_of_confined ?_
    refine confined_bind (confined_mapError.mpr (confined_sys.mpr ⟨hsrc, fun p hp => ?_⟩))
      fun contents _ => confined_pure _
    refine inside_of_not_dir (hsrc.visible hp) hW ?_
    by_contra hnot
    rw [Bool.not_eq_false] at hnot
    simp [dirAt_of_isDir hnot hp] at hdir

/-! ### Payloads -/

/-- The payload is an archive, or a file inside. -/
def PayloadInside (cred : Cred) (W : Pos) (t : FileTree) : Payload → Prop
  | .file path => t.WalkInside cred W path ∧
      ∀ p, walk (t.look cred) maxLinks [] path = .ok p → W <+: p
  | .archive _ => True

theorem confined_payloadSize {payload : Payload} (h : PayloadInside cred W t payload) :
    Confined cred now W (payloadSize payload) t := by
  cases payload with
  | archive data => exact confined_pure _
  | file path => exact confined_bind (confined_sys.mpr h) fun info _ => confined_pure _

theorem confined_readPayload {payload : Payload} (h : PayloadInside cred W t payload) :
    Confined cred now W (readPayload payload) t := by
  cases payload with
  | archive data => exact confined_pure _
  | file path => exact confined_bind (confined_sys.mpr h) fun contents _ => confined_pure _

theorem confined_uploadPayload {cfg : ServiceConfig} {payload : Payload} {key contentType : String}
    (h : PayloadInside cred W t payload) :
    Confined cred now W (uploadPayload cfg payload key contentType) t := by
  cases payload with
  | archive data => exact confined_pure _
  | file path =>
    have hread : Confined cred now W (io (sys (.read path))) t :=
      confined_mapError.mpr (confined_sys.mpr h)
    refine confined_bind (confined_mapError.mpr (confined_sys.mpr h)) fun info _ => ?_
    split
    · split
      · exact confined_pure _
      · split
        · exact confined_pure _
        · exact confined_bind hread fun contents _ => confined_pure _
    · exact confined_bind hread fun contents _ => confined_pure _

theorem payloadInside_of_leadsTo {source : PathBuf} {fileType : FileType}
    (hsrc : t.WalkInside cred W source) (hW : (t.get? W).isSome)
    (htype : LeadsTo cred t source fileType) (hne : fileType ≠ .dir) :
    PayloadInside cred W t (.file source) := by
  obtain ⟨p, node, hwalk, hnode, hnodeType⟩ := htype
  refine ⟨hsrc, fun q hq => ?_⟩
  obtain rfl : p = q := Except.ok.inj (hwalk.symm.trans hq)
  refine inside_of_not_dir (hsrc.visible hwalk) hW ?_
  by_contra hdir
  rw [Bool.not_eq_false] at hdir
  obtain ⟨node', hnode', hkind⟩ := FileTree.isDir_iff.mp hdir
  obtain rfl : node = node' := Option.some.inj (hnode.symm.trans hnode')
  exact hne (by rw [← hnodeType, Node.fileType, Node.isDir_iff.mp hkind])

/-! ### Exports and uploads -/

variable {cfg : ServiceConfig}

theorem status_ne_of_osApart {e₁ e₂ : Error} (h : OsApart Error.io e₁ e₂) :
    e₁.toStatus ≠ e₂.toStatus := by
  obtain ⟨a, b, hne, rfl, rfl⟩ := h
  exact fun heq => hne (toStatus_io_injective heq)

theorem judged_exportPayload (hcred : cred.privileged = true) {source : PathBuf}
    (hsource : ProperNames source) (hsrc : t.WalkInside cred W source) (hW : (t.get? W).isSome)
    (fuel : Nat) (encoding : WorkspaceObjectEncoding) (fileType : FileType) :
    Judged cred now W (· ≠ ·) (exportPayload cfg fuel encoding source fileType)
      (exportPayload cfg (fuel + 1) encoding source fileType) t := by
  cases encoding with
  | unspecified => exact judged_of_confined (confined_throw _)
  | raw =>
    refine judged_of_confined ?_
    unfold exportPayload
    simp only
    split
    · exact confined_throw _
    · exact confined_pure _
  | tarGz =>
    unfold exportPayload
    simp only
    split
    · exact judged_of_confined (confined_throw _)
    · refine judged_bind_confined ?_ fun data _ _ => confined_pure _
      exact judged_mapError (judged_tarGzIntoTemp hcred hsource hsrc hW fuel)
        fun _ _ => status_ne_of_osApart

/-- A payload is an archive, or the source itself, which is no directory then. -/
theorem payloadInside_of_exportPayload {source : PathBuf} {fuel : Nat}
    {encoding : WorkspaceObjectEncoding} {fileType : FileType} {payload : Payload}
    {names : String × String} (hsrc : t.WalkInside cred W source) (hW : (t.get? W).isSome)
    (htype : LeadsTo cred t source fileType)
    (h : ((exportPayload cfg fuel encoding source fileType).run (FileTree.exec cred now) t).1 =
      some (.ok (payload, names))) : PayloadInside cred W t payload := by
  cases encoding with
  | unspecified => cases h
  | raw =>
    unfold exportPayload at h
    simp only at h
    split at h
    · cases h
    · rename_i hne
      obtain ⟨rfl, -⟩ := Prod.mk.inj (Except.ok.inj (Option.some.inj h))
      exact payloadInside_of_leadsTo hsrc hW htype hne
  | tarGz =>
    unfold exportPayload at h
    simp only at h
    split at h
    · cases h
    · obtain ⟨data, s, -, h⟩ := Prog.ok_of_run_bind _ h
      obtain ⟨rfl, -⟩ := Prod.mk.inj (Except.ok.inj (Option.some.inj h))
      trivial

theorem judged_uploadSource (hcred : cred.privileged = true) {source : PathBuf}
    (hsource : ProperNames source) (hsrc : t.WalkInside cred W source) (hW : (t.get? W).isSome)
    (fuel : Nat) (compress : Bool) (fileType : FileType) :
    Judged cred now W (OsApart Error.io) (uploadSource cfg fuel compress source fileType)
      (uploadSource cfg (fuel + 1) compress source fileType) t := by
  unfold uploadSource
  split
  · exact judged_bind_confined (judged_tarGzIntoTemp hcred hsource hsrc hW fuel)
      fun data _ _ => confined_pure _
  · exact judged_of_confined (confined_pure _)

theorem payloadInside_of_uploadSource {source : PathBuf} {fuel : Nat} {compress : Bool}
    {fileType : FileType} {payload : Payload} {names : String × String}
    (hsrc : t.WalkInside cred W source) (hW : (t.get? W).isSome)
    (htype : LeadsTo cred t source fileType)
    (h : ((uploadSource cfg fuel compress source fileType).run (FileTree.exec cred now) t).1 =
      some (.ok (payload, names))) : PayloadInside cred W t payload := by
  unfold uploadSource at h
  split at h
  · obtain ⟨data, s, -, h⟩ := Prog.ok_of_run_bind _ h
    obtain ⟨rfl, -⟩ := Prod.mk.inj (Except.ok.inj (Option.some.inj h))
    trivial
  · rename_i hne
    obtain ⟨rfl, -⟩ := Prod.mk.inj (Except.ok.inj (Option.some.inj h))
    exact payloadInside_of_leadsTo hsrc hW htype fun hdir => hne (Or.inl hdir)

/-- An accepted path, and where it leads once `stat` has answered. -/
theorem source_inside (hcred : cred.privileged = true) (hroot : RootPath cfg.root)
    (hrootDir : t.isDir (rootPos cfg.root) = true) {workspaceId relative sourcePath : String}
    {source : PathBuf} {fileType : FileType}
    (hsource : resolvePath cfg.root workspaceId relative = .ok source)
    (hconf : Confined cred now (workspacePos cfg.root workspaceId) (statSource source sourcePath) t)
    (hr : ((statSource source sourcePath).run (FileTree.exec cred now) t).1 = some (.ok fileType)) :
    t.WalkInside cred (workspacePos cfg.root workspaceId) source ∧
      (t.get? (workspacePos cfg.root workspaceId)).isSome ∧ LeadsTo cred t source fileType := by
  have htype := leadsTo_of_statSource hr
  obtain ⟨-, q, rfl, hpre, -, -⟩ := resolvePath_eq_ok hroot hsource
  refine ⟨?_, ?_, htype⟩
  · refine hconf (.fileType (canonical q), t) ?_
    rw [statSource, Prog.calls_bind, Prog.calls_attempt, calls_sys]
    simp
  · have hwork : workspacePos cfg.root workspaceId <+: q := by
      refine List.IsPrefix.trans ⟨["home"], ?_⟩ hpre
      simp [workspacePos, homePos]
    obtain ⟨p, -, hwalk, -, -⟩ := htype
    exact isSome_workspace_of_walk hcred hrootDir hwork hwalk

theorem eq_ok_of_run_rpc_ofExcept {r : Except Error PathBuf} {path : PathBuf}
    (h : ((rpc (Prog.ofExcept r)).run (FileTree.exec cred now) t).1 = some (.ok path)) :
    r = .ok path := by
  rw [rpc, Prog.run_mapError, Prog.run_ofExcept] at h
  cases r with
  | error e => simp [Except.mapError] at h
  | ok found => simpa [Except.mapError] using h

theorem properNames_of_resolvePath (hroot : RootPath cfg.root) {workspaceId relative : String}
    {source : PathBuf} (h : resolvePath cfg.root workspaceId relative = .ok source) :
    ProperNames source := by
  obtain ⟨-, q, rfl, -, -, hnames⟩ := resolvePath_eq_ok hroot h
  intro name hname
  rw [canonical, List.mem_cons] at hname
  obtain ⟨n, hn, heq⟩ := List.mem_map.mp (hname.resolve_left (by simp))
  exact Component.normal.inj heq ▸ hnames n hn

/-- The beginning of both directions: the path is checked, and its type looked up. -/
theorem judged_source {α : Type} (hcred : cred.privileged = true) (hroot : RootPath cfg.root)
    (hrootDir : t.isDir (rootPos cfg.root) = true) {workspaceId sourcePath : String}
    {f f' : PathBuf → FileType → Fs Status α}
    (hf : ∀ source fileType, ProperNames source →
      t.WalkInside cred (workspacePos cfg.root workspaceId) source →
      (t.get? (workspacePos cfg.root workspaceId)).isSome → LeadsTo cred t source fileType →
      Judged cred now (workspacePos cfg.root workspaceId) (· ≠ ·) (f source fileType)
        (f' source fileType) t) :
    Judged cred now (workspacePos cfg.root workspaceId) (· ≠ ·)
      (do
        let source ← rpc (Prog.ofExcept (resolvePath cfg.root workspaceId sourcePath))
        let fileType ← statSource source sourcePath
        f source fileType)
      (do
        let source ← rpc (Prog.ofExcept (resolvePath cfg.root workspaceId sourcePath))
        let fileType ← statSource source sourcePath
        f' source fileType) t := by
  refine judged_bind (judged_of_confined (confined_mapError.mpr (confined_ofExcept _)))
    fun source _ hr => ?_
  have hok := eq_ok_of_run_rpc_ofExcept hr
  have hproper := properNames_of_resolvePath hroot hok
  refine judged_bind (judged_statSource hproper) fun fileType hconf hr => ?_
  obtain ⟨hsrc, hW, htype⟩ := source_inside hcred hroot hrootDir hok hconf hr
  exact hf source fileType hproper hsrc hW htype

theorem judged_doExport (hcred : cred.privileged = true) (hroot : RootPath cfg.root)
    (hrootDir : t.isDir (rootPos cfg.root) = true) (fuel : Nat) (req : ExportRequest) :
    Judged cred now (workspacePos cfg.root req.workspaceId) (· ≠ ·)
      (doExportWorkspaceObject cfg fuel req) (doExportWorkspaceObject cfg (fuel + 1) req) t := by
  unfold doExportWorkspaceObject
  split
  · exact judged_of_confined (confined_throw _)
  · refine judged_source hcred hroot hrootDir fun source fileType hproper hsrc hW htype => ?_
    refine judged_bind_confined (judged_exportPayload hcred hproper hsrc hW fuel _ fileType)
      fun found _ hr => ?_
    obtain ⟨payload, basename, contentType⟩ := found
    have hpayload := payloadInside_of_exportPayload hsrc hW htype hr
    refine confined_bind (confined_mapError.mpr (confined_payloadSize hpayload)) fun size _ => ?_
    refine confined_bind ?_ fun data _ => confined_pure _
    exact confined_mapError.mpr (confined_mapError.mpr (confined_readPayload hpayload))

theorem payloadInside_of_doExport (hcred : cred.privileged = true) (hroot : RootPath cfg.root)
    (hrootDir : t.isDir (rootPos cfg.root) = true) {fuel : Nat} {req : ExportRequest}
    {prepared : PreparedExport}
    (hconf : Confined cred now (workspacePos cfg.root req.workspaceId)
      (doExportWorkspaceObject cfg fuel req) t)
    (h : ((doExportWorkspaceObject cfg fuel req).run (FileTree.exec cred now) t).1 =
      some (.ok prepared)) :
    PayloadInside cred (workspacePos cfg.root req.workspaceId) t prepared.payload := by
  unfold doExportWorkspaceObject at h hconf
  split at h
  · cases h
  · rename_i hid
    rw [if_neg hid] at hconf
    obtain ⟨source, s, hs, h⟩ := Prog.ok_of_run_bind _ h
    obtain rfl := hconf.fst.eq_of_run hs
    have hconf := hconf.snd (congrArg Prod.fst hs)
    have hok := eq_ok_of_run_rpc_ofExcept (congrArg Prod.fst hs)
    obtain ⟨fileType, s, hs, h⟩ := Prog.ok_of_run_bind _ h
    obtain rfl := hconf.fst.eq_of_run hs
    obtain ⟨hsrc, hW, htype⟩ :=
      source_inside hcred hroot hrootDir hok hconf.fst (congrArg Prod.fst hs)
    obtain ⟨⟨payload, basename, contentType⟩, s, hs, h⟩ := Prog.ok_of_run_bind _ h
    have hpayload := payloadInside_of_exportPayload hsrc hW htype (congrArg Prod.fst hs)
    obtain ⟨size, s, -, h⟩ := Prog.ok_of_run_bind _ h
    obtain ⟨data, s, -, h⟩ := Prog.ok_of_run_bind _ h
    obtain rfl := Except.ok.inj (Option.some.inj h)
    exact hpayload

theorem judged_exportWorkspaceObject (hcred : cred.privileged = true) (hroot : RootPath cfg.root)
    (hrootDir : t.isDir (rootPos cfg.root) = true) (fuel : Nat) (req : ExportRequest) :
    Judged cred now (workspacePos cfg.root req.workspaceId) (· ≠ ·)
      (exportWorkspaceObject cfg fuel req) (exportWorkspaceObject cfg (fuel + 1) req) t := by
  refine judged_bind_confined (judged_doExport hcred hroot hrootDir fuel req)
    fun prepared hconf hr => ?_
  have hpayload := payloadInside_of_doExport hcred hroot hrootDir hconf hr
  refine confined_bind (confined_mapError.mpr (confined_readPayload hpayload)) fun data _ => ?_
  exact confined_pure _

theorem judged_doUpload (hcred : cred.privileged = true) (hroot : RootPath cfg.root)
    (hrootDir : t.isDir (rootPos cfg.root) = true) (fuel nanos : Nat) (req : UploadRequest) :
    Judged cred now (workspacePos cfg.root req.workspaceId) (· ≠ ·)
      (doUpload cfg fuel nanos req) (doUpload cfg (fuel + 1) nanos req) t := by
  unfold doUpload
  split
  · exact judged_of_confined (confined_throw _)
  · refine judged_source hcred hroot hrootDir fun source fileType hproper hsrc hW htype => ?_
    refine judged_bind_confined ?_ fun found _ hr => ?_
    · exact judged_mapError (judged_uploadSource hcred hproper hsrc hW fuel req.compress fileType)
        fun _ _ => status_ne_of_osApart
    · obtain ⟨payload, basename, contentType⟩ := found
      have hr' := Prog.eq_of_run_mapError_ok _ hr
      have hpayload := payloadInside_of_uploadSource hsrc hW htype hr'
      refine confined_bind (confined_mapError.mpr (confined_uploadPayload hpayload)) fun up _ => ?_
      exact confined_pure _

/-! ### Listings -/

/-- Two trees that agree inside are answered differently. -/
def Differs (cred : Cred) (now : Nat) (W : Pos) {ε α : Type} (m : Fs ε α) (t : FileTree) : Prop :=
  ∃ t₁ t₂, FileTree.SameInside cred W t t₁ ∧ FileTree.SameInside cred W t t₂ ∧
    (m.run (FileTree.exec cred now) t₁).1 ≠ (m.run (FileTree.exec cred now) t₂).1

/-- They are answered by two different successes. -/
def Betrays (cred : Cred) (now : Nat) (W : Pos) {ε α : Type} (m : Fs ε α) (t : FileTree) : Prop :=
  ∃ t₁ t₂ a₁ a₂, FileTree.SameInside cred W t t₁ ∧ FileTree.SameInside cred W t t₂ ∧ a₁ ≠ a₂ ∧
    (m.run (FileTree.exec cred now) t₁).1 = some (.ok a₁) ∧
    (m.run (FileTree.exec cred now) t₂).1 = some (.ok a₂)

theorem Betrays.differs {ε α : Type} {m : Fs ε α} (h : Betrays cred now W m t) :
    Differs cred now W m t := by
  obtain ⟨t₁, t₂, a₁, a₂, h₁, h₂, hne, hrun₁, hrun₂⟩ := h
  refine ⟨t₁, t₂, h₁, h₂, ?_⟩
  rw [hrun₁, hrun₂]
  exact fun heq => hne (Except.ok.inj (Option.some.inj heq))

theorem Betrays.mapError {ε ε' α : Type} {m : Fs ε α} {f : ε → ε'} (h : Betrays cred now W m t) :
    Betrays cred now W (m.mapError f) t := by
  obtain ⟨t₁, t₂, a₁, a₂, h₁, h₂, hne, hrun₁, hrun₂⟩ := h
  refine ⟨t₁, t₂, a₁, a₂, h₁, h₂, hne, ?_, ?_⟩
  · rw [Prog.run_mapError, hrun₁]
    rfl
  · rw [Prog.run_mapError, hrun₂]
    rfl

theorem Betrays.after {ε α β : Type} {m : Fs ε α} {f : α → Fs ε β} {a : α}
    (hm : Confined cred now W m t) (ha : (m.run (FileTree.exec cred now) t).1 = some (.ok a))
    (h : Betrays cred now W (f a) t) : Betrays cred now W (m >>= f) t := by
  obtain ⟨t₁, t₂, a₁, a₂, h₁, h₂, hne, hrun₁, hrun₂⟩ := h
  refine ⟨t₁, t₂, a₁, a₂, h₁, h₂, hne, ?_, ?_⟩
  · rw [hm.run_bind_same ha h₁]
    exact hrun₁
  · rw [hm.run_bind_same ha h₂]
    exact hrun₂

theorem differs_of_splits {ε α : Type} {m : Fs ε α} (h : Splits cred now W (· ≠ ·) m t) :
    Differs cred now W m t := by
  obtain ⟨t₁, t₂, e₁, e₂, h₁, h₂, hne, hrun₁, hrun₂⟩ := h
  refine ⟨t₁, t₂, h₁, h₂, ?_⟩
  rw [hrun₁, hrun₂]
  exact fun heq => hne (Except.error.inj (Option.some.inj heq))

theorem confined_describeEntries {workspaceRoot dir : PathBuf} {recursive : Bool}
    (hdir : t.WalkInside cred W dir)
    (hin : ∀ p, walk (t.look cred) maxLinks [] dir = .ok p → W <+: p) (names : List String)
    (stack : List PathBuf) (out : List FileInfo) :
    Confined cred now W (describeEntries workspaceRoot dir recursive names stack out) t := by
  induction names generalizing stack out with
  | nil => exact confined_pure _
  | cons name names ih =>
    have hcall : t.CallInside cred W (.lstat (dir ++ [.normal name])) := ⟨dir, name, rfl, hdir, hin⟩
    exact confined_bind (confined_sys.mpr hcall) fun info _ => ih _ _

/-- A listing that begins inside stays inside: it follows no link. -/
theorem confined_collectFiles (hcred : cred.privileged = true) {workspaceRoot : PathBuf}
    {recursive : Bool} (fuel : Nat) (stack : List PathBuf) (out : List FileInfo)
    (hstack : ∀ dir ∈ stack, t.WalkInside cred W dir ∧
      ∃ p, walk (t.look cred) maxLinks [] dir = .ok p ∧ W <+: p ∧ t.isDir p = true) :
    Confined cred now W (collectFiles workspaceRoot recursive fuel stack out) t := by
  induction fuel generalizing stack out with
  | zero =>
    cases stack with
    | nil => exact confined_pure out
    | cons dir stack => exact confined_spin
  | succ fuel ih =>
    cases stack with
    | nil => exact confined_pure out
    | cons dir stack =>
      rw [List.forall_mem_cons] at hstack
      obtain ⟨⟨hdir, p, hwalk, hin, hp⟩, hstack⟩ := hstack
      have hend : ∀ q, walk (t.look cred) maxLinks [] dir = .ok q → W <+: q := by
        intro q hq
        rwa [← Except.ok.inj (hwalk.symm.trans hq)]
      refine confined_bind (confined_sys.mpr ⟨hdir, hend⟩) fun entries hr => ?_
      rw [run_readDir hcred hwalk hp] at hr
      obtain rfl : t.entries p = entries := by simpa using hr
      refine confined_bind (confined_describeEntries hdir hend _ _ _) fun found hr => ?_
      rw [FileTree.map_fst_entries] at hr
      obtain ⟨dirs, hdirs, hrun⟩ := run_describeEntries now workspaceRoot recursive hwalk
        (FileTree.look_of_isDir hcred hp) (t.children p)
        fun name hname => FileTree.mem_children.mp hname
      rw [hrun] at hr
      obtain rfl := Except.ok.inj (Option.some.inj hr)
      refine ih _ _ fun d hd => ?_
      rcases List.mem_append.mp hd with hd | hd
      · obtain ⟨name, rfl, hchild⟩ := hdirs d hd
        have hlook := FileTree.look_of_isDir hcred hchild
        have hsub := hdir.child name hwalk hin (by simp [hlook])
        exact ⟨hsub.1, p ++ [name],
          walk_concat_dir hcred hwalk (FileTree.look_of_isDir hcred hp) hchild,
          hin.trans (List.prefix_append p [name]), hchild⟩
      · exact hstack d hd

/-- What a listing of a directory returns, given the turns it needs. -/
theorem run_listing (now : Nat) (hcred : cred.privileged = true) (workspaceRoot : PathBuf)
    {dir : PathBuf} (recursive : Bool) {p : Pos}
    (hwalk : walk (t.look cred) maxLinks [] dir = .ok p) (hdir : t.isDir p = true) :
    ∃ turns more, ∀ fuel,
      (collectFiles workspaceRoot recursive (fuel + turns) [dir] []).run
      (FileTree.exec cred now) t =
        (some (.ok (listed t workspaceRoot dir p (t.children p) ++ more)), t) := by
  obtain ⟨depth, hdepth⟩ := exists_depth t p
  obtain ⟨turns, more, hrun⟩ :=
    run_collectFiles now hcred workspaceRoot recursive depth hdepth hwalk hdir
  refine ⟨turns, more, fun fuel => ?_⟩
  rw [hrun, List.nil_append]
  cases fuel <;> rfl

/-- A directory on the way to `W` is not listed in private. -/
theorem betrays_listing (hcred : cred.privileged = true) {workspaceRoot dir : PathBuf}
    {recursive : Bool} {p : Pos} (hsrc : t.WalkInside cred W dir)
    (hwalk : walk (t.look cred) maxLinks [] dir = .ok p) (hdir : t.isDir p = true) (hup : p <+: W)
    (hne : p ≠ W) :
    ∃ fuel, Betrays cred now W (collectFiles workspaceRoot recursive fuel [dir] []) t := by
  obtain ⟨name, target, t₁, t₂, htwins⟩ := FileTree.exists_twins cred hdir hup hne
  have hself : p ≠ p ++ [name] := by simp
  have hdir₁ : t₁.isDir p = true := by
    rw [FileTree.isDir, htwins.get?₁, if_neg hself]
    exact hdir
  have hdir₂ : t₂.isDir p = true := by
    rw [FileTree.isDir, htwins.get?₂, if_neg hself]
    exact hdir
  obtain ⟨turns₁, more₁, hrun₁⟩ := run_listing now hcred workspaceRoot recursive
    ((htwins.same₁.walk_eq hsrc).symm.trans hwalk) hdir₁
  obtain ⟨turns₂, more₂, hrun₂⟩ := run_listing now hcred workspaceRoot recursive
    ((htwins.same₂.walk_eq hsrc).symm.trans hwalk) hdir₂
  have hrun₁ := hrun₁ turns₂
  have hrun₂ := hrun₂ turns₁
  rw [Nat.add_comm] at hrun₁
  -- the listings agree up to the entry the twins differ in, whose sizes are not the same
  have hcommon : ∀ s : FileTree, (∀ q, q ≠ p ++ [name] → s.get? q = t.get? q) →
      listed s workspaceRoot dir p (t.children p) =
        listed t workspaceRoot dir p (t.children p) := by
    intro s hs
    refine List.filterMap_congr fun n hn => ?_
    rw [hs]
    intro heq
    obtain rfl : n = name := by simpa using heq
    rw [FileTree.mem_children, htwins.free] at hn
    cases hn
  have hlisted₁ : listed t₁ workspaceRoot dir p (t₁.children p) =
      listed t workspaceRoot dir p (t.children p) ++
        [fileInfo workspaceRoot (dir ++ [.normal name]) (FileTree.linkTo target).info] := by
    rw [← hcommon t₁ fun q hq => by rw [htwins.get?₁, if_neg hq], htwins.children₁, listed,
      List.filterMap_append]
    simp [listed, htwins.get?₁]
  have hlisted₂ : listed t₂ workspaceRoot dir p (t₂.children p) =
      listed t workspaceRoot dir p (t.children p) ++
        [fileInfo workspaceRoot (dir ++ [.normal name]) (FileTree.linkTo name).info] := by
    rw [← hcommon t₂ fun q hq => by rw [htwins.get?₂, if_neg hq], htwins.children₂, listed,
      List.filterMap_append]
    simp [listed, htwins.get?₂]
  refine ⟨turns₁ + turns₂, t₁, t₂, _, _, htwins.same₁, htwins.same₂, ?_,
    congrArg Prod.fst hrun₁, congrArg Prod.fst hrun₂⟩
  rw [hlisted₁, hlisted₂]
  intro hlist
  rw [List.append_assoc, List.append_assoc, List.append_cancel_left_eq, List.singleton_append,
    List.singleton_append] at hlist
  have hsize := congrArg FileInfo.sizeBytes (List.cons.inj hlist).1
  have hlonger := htwins.longer
  simp only [fileInfo, Node.info, Node.size, FileTree.linkTo] at hsize
  omega

theorem judged_collectFiles (hcred : cred.privileged = true) (workspaceRoot : PathBuf)
    {dir : PathBuf} (recursive : Bool) (hsrc : t.WalkInside cred W dir) (hW : (t.get? W).isSome)
    (fuel : Nat) :
    Confined cred now W (collectFiles workspaceRoot recursive fuel [dir] []) t ∨
      ∃ fuel', Betrays cred now W (collectFiles workspaceRoot recursive fuel' [dir] []) t := by
  -- only a directory that can be listed has more than one turn
  have honce : ∀ e, (FileTree.exec cred now (.readDir dir) t).1 = .error e →
      (∀ p, walk (t.look cred) maxLinks [] dir = .ok p → W <+: p) →
      Confined cred now W (collectFiles workspaceRoot recursive fuel [dir] []) t := by
    intro e he hin
    cases fuel with
    | zero => exact confined_spin
    | succ fuel =>
      refine confined_bind (confined_sys.mpr ⟨hsrc, hin⟩) fun entries hr => ?_
      rw [eq_of_run_sys_ok hr] at he
      cases he
  rcases hwalk : walk (t.look cred) maxLinks [] dir with e | p
  · refine Or.inl (honce e ?_ (by simp [hwalk]))
    simp [FileTree.exec, FileTree.readDir, FileTree.find, hwalk]
  · have hend : W <+: p → ∀ q, walk (t.look cred) maxLinks [] dir = .ok q → W <+: q := by
      intro hin q hq
      rwa [← Except.ok.inj (hwalk.symm.trans hq)]
    cases hdir : t.isDir p with
    | false =>
      refine Or.inl (honce .notdir ?_ (hend (inside_of_not_dir (hsrc.visible hwalk) hW hdir)))
      obtain ⟨node, hnode, hfind⟩ := FileTree.find_of_walk hwalk
      have hkind : node.isDir = false := by simpa [FileTree.isDir, hnode] using hdir
      simp [FileTree.exec, FileTree.readDir, hfind, hkind]
    | true =>
      by_cases hin : W <+: p
      · refine Or.inl (confined_collectFiles hcred fuel _ _ fun d hd => ?_)
        rw [List.mem_singleton.mp hd]
        exact ⟨hsrc, p, hwalk, hin, hdir⟩
      · right
        have hup : p <+: W := (hsrc.visible hwalk).resolve_left hin
        exact betrays_listing hcred hsrc hwalk hdir hup fun h => hin (h ▸ List.prefix_rfl)

theorem judged_listFiles (hcred : cred.privileged = true) (hroot : RootPath cfg.root)
    (hrootDir : t.isDir (rootPos cfg.root) = true) (fuel : Nat) (req : ListFilesRequest) :
    Confined cred now (workspacePos cfg.root req.workspaceId) (listFiles cfg fuel req) t ∨
      ∃ fuel', Differs cred now (workspacePos cfg.root req.workspaceId)
        (listFiles cfg fuel' req) t := by
  cases hbase : resolvePath cfg.root req.workspaceId req.path with
  | error e =>
    left
    refine confined_bind (confined_mapError.mpr (confined_ofExcept _)) fun base hr => ?_
    have hok := eq_ok_of_run_rpc_ofExcept hr
    rw [hbase] at hok
    cases hok
  | ok base =>
    have hstart : ∀ s : FileTree, (rpc (Prog.ofExcept (resolvePath cfg.root req.workspaceId
        req.path))).run (FileTree.exec cred now) s = (some (.ok base), s) := by
      intro s
      rw [hbase]
      rfl
    have hconf : Confined cred now (workspacePos cfg.root req.workspaceId)
        (rpc (Prog.ofExcept (resolvePath cfg.root req.workspaceId req.path))) t :=
      confined_mapError.mpr (confined_ofExcept _)
    by_cases hsrc : t.WalkInside cred (workspacePos cfg.root req.workspaceId) base
    · have hstat : Confined cred now (workspacePos cfg.root req.workspaceId)
          ((sys (.fileType base)).attempt : Fs Status _) t :=
        confined_attempt.mpr (confined_sys.mpr hsrc)
      rcases hwalk : walk (t.look cred) maxLinks [] base with e | p
      · left
        refine confined_bind hconf fun base' hr => ?_
        obtain rfl : base = base' := by simpa [hstart] using hr
        refine confined_bind hstat fun found hr => ?_
        have hne : e ≠ .wouldblock := by
          rcases walk_error hwalk with rfl | rfl | rfl | rfl <;> decide
        rw [Prog.run_attempt, run_sys_of_walk_error (Or.inl rfl) hne hwalk] at hr
        obtain rfl : Except.error (.os e) = found := by simpa using hr
        cases e <;> first | exact confined_throw _ | exact confined_pure _
      · obtain ⟨-, q, rfl, hpre, -, -⟩ := resolvePath_eq_ok hroot hbase
        have hwork : workspacePos cfg.root req.workspaceId <+: q := by
          refine List.IsPrefix.trans ⟨["home"], ?_⟩ hpre
          simp [workspacePos, homePos]
        have hW := isSome_workspace_of_walk hcred hrootDir hwork hwalk
        obtain ⟨node, hnode, hfind⟩ := FileTree.find_of_walk hwalk
        have hfound : ((sys (.fileType (canonical q))).attempt : Fs Status _).run
            (FileTree.exec cred now) t = (some (.ok (.ok node.fileType)), t) := by
          have hcall : (FileTree.exec cred now (.fileType (canonical q)) t).1 =
              .ok node.fileType := by
            simp [FileTree.exec, hfind, Except.map]
          rw [Prog.run_attempt, run_sys_ok hcall]
          rfl
        obtain ⟨hid, -⟩ := resolvePath_eq_ok hroot hbase
        have hrun : (rpc (Prog.ofExcept (resolvePath cfg.root req.workspaceId ""))).run
            (FileTree.exec cred now) t = (some (.ok (homePath cfg.root req.workspaceId)), t) := by
          rw [resolvePath_empty hroot hid]
          rfl
        have hconf' : Confined cred now (workspacePos cfg.root req.workspaceId)
            (rpc (Prog.ofExcept (resolvePath cfg.root req.workspaceId ""))) t :=
          confined_mapError.mpr (confined_ofExcept _)
        rcases judged_collectFiles hcred (homePath cfg.root req.workspaceId)
          req.recursive hsrc hW fuel with hloop | ⟨fuel', hloop⟩
        · left
          refine confined_bind hconf fun base hr => ?_
          obtain rfl : canonical q = base := by simpa [hstart] using hr
          refine confined_bind hstat fun found hr => ?_
          obtain rfl : Except.ok node.fileType = found := by simpa [hfound] using hr
          refine confined_bind hconf' fun root hr => ?_
          obtain rfl : homePath cfg.root req.workspaceId = root := by simpa [hrun] using hr
          exact confined_mapError.mpr (confined_mapError.mpr hloop)
        · refine Or.inr ⟨fuel', Betrays.differs ?_⟩
          refine Betrays.after hconf (congrArg Prod.fst (hstart t)) ?_
          refine Betrays.after hstat (congrArg Prod.fst hfound) ?_
          refine Betrays.after hconf' (congrArg Prod.fst hrun) ?_
          exact hloop.mapError.mapError
    · -- one tree says that there is nothing to list, the other fails
      obtain ⟨t₁, t₂, h₁, h₂, hnoent, hloop⟩ :=
        FileTree.walk_differs (properNames_of_resolvePath hroot hbase) hsrc
      refine Or.inr ⟨fuel, t₁, t₂, h₁, h₂, ?_⟩
      rw [listFiles, Prog.run_bind_ok _ (hstart t₁), Prog.run_bind_ok _ (hstart t₂), Prog.run_bind,
        Prog.run_bind, Prog.run_attempt, Prog.run_attempt,
        run_sys_of_walk_error (Or.inl rfl) (by decide) hnoent,
        run_sys_of_walk_error (Or.inl rfl) (by decide) hloop]
      simp

/-! ### The read requests -/

/-- The requests that read a workspace. -/
inductive ReadRequest where
  | listFiles (req : ListFilesRequest)
  | uploadToOss (nanos : Nat) (req : UploadRequest)
  | exportObject (req : ExportRequest)

def ReadRequest.workspaceId : ReadRequest → String
  | .listFiles req => req.workspaceId
  | .uploadToOss _ req => req.workspaceId
  | .exportObject req => req.workspaceId

/-- What leaves the host: a listing, the bodies sent to the store, or the messages
    of a stream. -/
inductive Disclosed where
  | files (files : List FileInfo)
  | upload (upload : UploadResult)
  | object (messages : List ExportMessage)

variable (cfg) in
def serveRead (fuel : Nat) : ReadRequest → Fs Status Disclosed
  | .listFiles req => do pure (.files (← listFiles cfg fuel req))
  | .uploadToOss nanos req => do pure (.upload (← doUpload cfg fuel nanos req))
  | .exportObject req => do pure (.object (← exportWorkspaceObject cfg fuel req))

/-- Whatever the rest of the host holds, the request is answered alike. -/
def KeepsSecret (cfg : ServiceConfig) (cred : Cred) (now : Nat) (t : FileTree)
    (req : ReadRequest) : Prop :=
  ∀ fuel t₁ t₂, FileTree.SameInside cred (workspacePos cfg.root req.workspaceId) t t₁ →
    FileTree.SameInside cred (workspacePos cfg.root req.workspaceId) t t₂ →
    ((serveRead cfg fuel req).run (FileTree.exec cred now) t₁).1 =
      ((serveRead cfg fuel req).run (FileTree.exec cred now) t₂).1

theorem differs_bind_pure {ε α β : Type} {m : Fs ε α} {g : α → β} (hg : Function.Injective g)
    (h : Differs cred now W m t) : Differs cred now W (do pure (g (← m))) t := by
  obtain ⟨t₁, t₂, h₁, h₂, hne⟩ := h
  refine ⟨t₁, t₂, h₁, h₂, fun heq => hne ?_⟩
  rw [Prog.run_bind_pure, Prog.run_bind_pure] at heq
  refine Option.map_injective ?_ heq
  intro r₁ r₂ hr
  cases r₁ <;> cases r₂ <;> simp_all [Except.map, hg.eq_iff]

/-- Either a request stays inside, or two hosts give it two answers; unless a path
    it lists has no link left. -/
theorem judged_serveRead (hcred : cred.privileged = true) (hroot : RootPath cfg.root)
    (hrootDir : t.isDir (rootPos cfg.root) = true) (fuel : Nat) (req : ReadRequest) :
    Confined cred now (workspacePos cfg.root req.workspaceId) (serveRead cfg fuel req) t ∨
      (∃ fuel', Differs cred now (workspacePos cfg.root req.workspaceId) (serveRead cfg fuel' req)
        t) ∨
      Exhausts cred now (serveRead cfg fuel req) t := by
  cases req with
  | listFiles req =>
    rcases judged_listFiles hcred hroot hrootDir fuel req with hconf | ⟨fuel', hdiff⟩
    · exact Or.inl (confined_bind hconf fun files _ => confined_pure _)
    · refine Or.inr (Or.inl ⟨fuel', differs_bind_pure ?_ hdiff⟩)
      exact fun a b h => Disclosed.files.inj h
  | uploadToOss nanos req =>
    rcases judged_bind_pure Disclosed.upload (judged_doUpload hcred hroot hrootDir fuel nanos req)
      with hconf | hsplit | hexhausts
    · exact Or.inl hconf
    · exact Or.inr (Or.inl ⟨fuel + 1, differs_of_splits hsplit⟩)
    · exact Or.inr (Or.inr hexhausts)
  | exportObject req =>
    rcases judged_bind_pure Disclosed.object
      (judged_exportWorkspaceObject hcred hroot hrootDir fuel req) with hconf | hsplit | hexhausts
    · exact Or.inl hconf
    · exact Or.inr (Or.inl ⟨fuel + 1, differs_of_splits hsplit⟩)
    · exact Or.inr (Or.inr hexhausts)

/-- **What a read request discloses.**  A request all of whose paths resolve inside
    the workspace keeps the rest of the host secret, whoever serves it.  For a
    privileged service that is the only way: a request that keeps the rest secret
    opens nothing else, as long as no path it lists has used up its links. -/
theorem serveRead_keepsSecret (cfg : ServiceConfig) (cred : Cred) (now : Nat) (t : FileTree)
    (req : ReadRequest) :
    ((∀ fuel, Confined cred now (workspacePos cfg.root req.workspaceId) (serveRead cfg fuel req) t)
      →
      KeepsSecret cfg cred now t req) ∧
    (cred.privileged = true → RootPath cfg.root → t.isDir (rootPos cfg.root) = true →
      (∀ fuel, ¬ Exhausts cred now (serveRead cfg fuel req) t) →
      (KeepsSecret cfg cred now t req ↔
        ∀ fuel, Confined cred now (workspacePos cfg.root req.workspaceId)
          (serveRead cfg fuel req) t)) := by
  have hforward : (∀ fuel, Confined cred now (workspacePos cfg.root req.workspaceId)
      (serveRead cfg fuel req) t) → KeepsSecret cfg cred now t req := by
    intro hconf fuel t₁ t₂ h₁ h₂
    rw [(hconf fuel).run_eq h₁, (hconf fuel).run_eq h₂]
  refine ⟨hforward, ?_⟩
  intro hcred hroot hrootDir hexhausts
  refine ⟨?_, hforward⟩
  intro hkeeps fuel
  rcases judged_serveRead hcred hroot hrootDir fuel req with hconf | ⟨fuel', hdiff⟩ | hspent
  · exact hconf
  · obtain ⟨t₁, t₂, h₁, h₂, hne⟩ := hdiff
    exact absurd (hkeeps fuel' t₁ t₂ h₁ h₂) hne
  · exact absurd hspent (hexhausts fuel)

/-! ### A link out of the home -/

/-- A service with its workspaces under `/srv`. -/
def sampleConfig : ServiceConfig where
  root := "/srv"
  agentUid := 1000
  agentGid := 1000
  fetch := ⟨30, 1048576, false⟩
  oss := ⟨"", 8388608, 8388608, 600, ⟨none, .ok "upload", fun _ => none, none, none⟩⟩
  codec := ⟨fun _ => [], fun _ => []⟩
  sha256 := fun _ => ""

def rootCred : Cred := ⟨0, 0, true, 0o022⟩

/-- A host with a secret outside the workspaces, and a link to it in a home. -/
def linkedHost : FileTree := .ofEntries
  [([], hostDir), (["etc"], hostDir), (["etc", "secret"], ⟨.file [1] false, ⟨0o600, 0, 0, 0⟩⟩),
    (["srv"], hostDir), (["srv", "w1"], hostDir), (["srv", "w1", "home"], hostDir),
    (["srv", "w1", "home", "b"], ⟨.file [104, 105] false, ⟨0o644, 1000, 1000, 0⟩⟩),
    (["srv", "w1", "home", "x"], ⟨.link "/etc/secret", ⟨0o777, 1000, 1000, 0⟩⟩)]
  (by decide)

/-- The file next to the link is exported without looking elsewhere. -/
theorem export_of_file :
    KeepsSecret sampleConfig rootCred 0 linkedHost (.exportObject ⟨"w1", "b", 1⟩) := by
  refine (serveRead_keepsSecret sampleConfig rootCred 0 linkedHost _).1 fun fuel => ?_
  have hwalk : linkedHost.WalkInside rootCred ["srv", "w1"]
      (canonical ["srv", "w1", "home", "b"]) := by
    unfold FileTree.WalkInside
    decide
  have hend : ∀ p, walk (linkedHost.look rootCred) maxLinks []
      (canonical ["srv", "w1", "home", "b"]) = .ok p → ["srv", "w1"] <+: p := by
    intro p hp
    have hfound : walk (linkedHost.look rootCred) maxLinks []
        (canonical ["srv", "w1", "home", "b"]) = .ok ["srv", "w1", "home", "b"] := rfl
    obtain rfl := Except.ok.inj (hfound.symm.trans hp)
    decide
  have hcalls : (serveRead sampleConfig fuel (.exportObject ⟨"w1", "b", 1⟩)).calls
      (FileTree.exec rootCred 0) linkedHost =
      [.fileType (canonical ["srv", "w1", "home", "b"]),
        .stat (canonical ["srv", "w1", "home", "b"]),
        .read (canonical ["srv", "w1", "home", "b"]),
        .read (canonical ["srv", "w1", "home", "b"])].map (·, linkedHost) := rfl
  have hwork : workspacePos sampleConfig.root "w1" = ["srv", "w1"] := by decide
  intro c hc
  rw [hcalls] at hc
  obtain ⟨call, hcall, rfl⟩ := List.mem_map.mp hc
  simp only [ReadRequest.workspaceId, hwork]
  simp only [List.mem_cons, List.not_mem_nil, or_false] at hcall
  rcases hcall with rfl | rfl | rfl | rfl
  · exact hwalk
  · exact ⟨hwalk, hend⟩
  · exact ⟨hwalk, hend⟩
  · exact ⟨hwalk, hend⟩

/-- Two hosts that differ in the secret alone export different bytes. -/
theorem export_through_link :
    ¬ KeepsSecret sampleConfig rootCred 0 linkedHost (.exportObject ⟨"w1", "x", 1⟩) := by
  intro hkeeps
  have hwork : workspacePos sampleConfig.root "w1" = ["srv", "w1"] := by decide
  have hsame : FileTree.SameInside rootCred (workspacePos sampleConfig.root "w1") linkedHost
      (linkedHost.setData 0 ["etc", "secret"] [2]) := by
    rw [hwork]
    refine FileTree.sameInside_of_get?_eq (fun q hq => ?_) fun q _ => rfl
    rw [FileTree.get?_setData, if_neg]
    rintro rfl
    exact absurd hq (by decide)
  have hrun := hkeeps 0 linkedHost _ (.refl _) hsame
  have hfirst : ((serveRead sampleConfig 0 (.exportObject ⟨"w1", "x", 1⟩)).run
      (FileTree.exec rootCred 0) linkedHost).1 =
      some (.ok (.object [.header ⟨"x", "x", 1, "application/octet-stream", 1, ""⟩, .chunk [1]])) :=
        rfl
  have hsecond : ((serveRead sampleConfig 0 (.exportObject ⟨"w1", "x", 1⟩)).run
      (FileTree.exec rootCred 0) (linkedHost.setData 0 ["etc", "secret"] [2])).1 =
      some (.ok (.object [.header ⟨"x", "x", 1, "application/octet-stream", 1, ""⟩, .chunk [2]])) :=
        rfl
  rw [hfirst, hsecond] at hrun
  simp at hrun

end Scriptorium
