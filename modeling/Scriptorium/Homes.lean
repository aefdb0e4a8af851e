import Scriptorium.Isolation
import Scriptorium.ImportSuccess

/-!
# Homes stay directories

A home is made by the first request that needs it and mounted into the containers of its
workspace.  Requests and agents work below it, and `DeleteWorkspace` removes it, all at
the same time.  As long as nothing is transferred to the place of a home itself, every
home is missing or a directory at every moment, and an execution can begin
(`homes_stay_ready`).
-/

namespace Scriptorium

open Posix Effects

variable {root : String} {ε α : Type}

/-! ### Calls that spare the homes -/

/-- The calls that change nothing. -/
def Asks : FsCall → Prop
  | .fileType _ | .stat _ | .lstat _ | .readDir _ | .read _ | .canonicalize _ => True
  | _ => False

/-- Below a directory: the name of a workspace, `home`, and something in it. -/
def insideHome : Pos → Bool
  | _ :: home :: _ :: _ => home == "home"
  | _ => false

/-- What lies in the homes, without the homes themselves. -/
def insideHomes (root : String) : Region where
  own q := (rootPos root).isPrefixOf q && insideHome (q.drop (rootPos root).length)
  below p q hp hpq := by
    obtain ⟨rest, rfl⟩ := hpq
    simp only [Bool.and_eq_true, List.isPrefixOf_iff_prefix] at hp ⊢
    obtain ⟨⟨below, rfl⟩, hin⟩ := hp
    rw [List.append_assoc, List.drop_left] at *
    refine ⟨List.prefix_append _ _, ?_⟩
    match below, hin with
    | _ :: _ :: _ :: _, hin => exact hin

theorem own_insideHomes {q : Pos} : (insideHomes root).own q = true ↔
    ∃ workspaceId first rest, q = homePos root workspaceId ++ first :: rest := by
  simp only [insideHomes, Bool.and_eq_true, List.isPrefixOf_iff_prefix]
  constructor
  · rintro ⟨⟨below, rfl⟩, hin⟩
    rw [List.drop_left] at hin
    rcases below with _ | ⟨workspaceId, _ | ⟨home, _ | ⟨first, rest⟩⟩⟩
    · cases hin
    · cases hin
    · cases hin
    · obtain rfl : home = "home" := beq_iff_eq.mp hin
      exact ⟨workspaceId, first, rest, by simp [homePos]⟩
  · rintro ⟨workspaceId, first, rest, rfl⟩
    refine ⟨⟨workspaceId :: "home" :: first :: rest, by simp [homePos]⟩, ?_⟩
    simp [homePos, insideHome]

/-- The calls of requests and agents, as far as homes are concerned: changes in the homes,
    directories made and given away, questions, and whole directories removed. -/
def Spares (root : String) (c : FsCall) : Prop :=
  (insideHomes root).Admits c ∨ (∃ home, Paves home c) ∨ Asks c ∨ ∃ path, c = .removeDirAll path

section Exec

variable {cred : Cred} {t : FileTree} {c : FsCall}

/-- No call that spares the homes puts anything but a directory on the way to one. -/
theorem passable_spared (hc : Spares root c) (ht : t.SymlinkFree) (now : Nat) {workspaceId : String}
    (h : Passable t (homePos root workspaceId)) :
    Passable (FileTree.exec cred now c t).2 (homePos root workspaceId) := by
  have hclear : FileTree.Clear (insideHomes root) t := fun q node _ => ht q node
  have hpaved : ∀ {c} home, Paves home c →
      Passable (FileTree.exec cred now c t).2 (homePos root workspaceId) :=
    fun _ hc => passable_exec hc h
  -- what is touched in the homes lies deeper than any of them
  have huntouched : ∀ {c}, (∀ p ∈ t.touched cred c, (insideHomes root).own p = true) →
      Passable (FileTree.exec cred now c t).2 (homePos root workspaceId) := by
    intro c htouched q hq
    have hsame : (FileTree.exec cred now c t).2.get? q = t.get? q := by
      apply FileTree.get?_exec_of_not_touched
      intro p hp hpq
      obtain ⟨other, first, rest, rfl⟩ := own_insideHomes.mp (htouched p hp)
      have hlength := (hpq.trans hq).length_le
      simp [homePos] at hlength
    rw [FileTree.isDir, hsame]
    exact h q hq
  rcases hc with hadmitted | ⟨home, hpaves⟩ | hasks | ⟨path, rfl⟩
  · rcases FileTree.touched_admitted cred hadmitted hclear with ⟨p, _, rfl⟩ | htouched
    · exact hpaved [] trivial
    · exact huntouched htouched
  · exact hpaved home hpaves
  · apply huntouched
    intro p hp
    cases c with
    | fileType | stat | lstat | readDir | read | canonicalize => cases hp
    | _ => exact absurd hasks id
  · simp only [FileTree.exec]
    rcases FileTree.removeDirAll_cases cred t path with ⟨e, he⟩ | ⟨dir, name, _, -, -, hremoved⟩
    · rwa [he]
    · rw [hremoved]
      intro q hq
      rw [FileTree.isDir, FileTree.get?_removeAt]
      split
      · exact Or.inl rfl
      · exact h q hq

theorem returns_spared (hc : Spares root c) (ht : t.SymlinkFree) (now : Nat) :
    (insideHomes root).Returns c (FileTree.exec cred now c t).1 := by
  rcases hc with hadmitted | ⟨home, hpaves⟩ | hasks | ⟨path, rfl⟩
  · exact FileTree.returns_exec hadmitted fun q node _ => ht q node
  · cases c <;> trivial
  · cases c <;> trivial
  · trivial

end Exec

/-! ### Requests that spare the homes -/

/-- The calls of a program spare the homes. -/
abbrev Sparing (root : String) (W : α → Prop) (m : Fs ε α) : Prop :=
  m.Within (Spares root) (insideHomes root).Returns W

theorem Sparing.of_stays {W : α → Prop} {m : Fs ε α} (h : Stays (insideHomes root) W m) :
    Sparing root W m := h.weaken fun _ => Or.inl

theorem sparing_createDirAll (path : PathBuf) : Sparing root (fun _ => True) (createDirAll path) :=
  within_createDirAll (N := fun _ => True) (fun _ _ _ _ => trivial)
    (fun _ _ => ⟨Or.inr (Or.inl ⟨[], trivial⟩), Or.inr (Or.inl ⟨[], trivial⟩)⟩) trivial

theorem sparing_ensureHome (workspaceId : String) (uid gid : Nat) :
    Sparing root (fun _ => True) (ensureHome root workspaceId uid gid) :=
  within_ensureHome (fun _ => sparing_createDirAll _) (fun _ => Or.inr (Or.inl ⟨_, rfl⟩))
    fun _ => Or.inr (Or.inl ⟨_, rfl⟩)

theorem sparing_deleteWorkspace (workspaceId : String) :
    Sparing root (fun _ => True) (deleteWorkspace root workspaceId) := by
  apply Prog.within_bind (Prog.within_ofExcept (W := fun _ => True) fun _ _ => trivial)
  intro _ _
  apply Prog.within_bind (Prog.within_attempt (within_sys (Or.inr (Or.inr (Or.inr ⟨_, rfl⟩)))))
  intro r _
  split
  · exact Prog.within_pure trivial
  · exact Prog.within_pure trivial
  · exact Prog.within_throw _

/-- Every path may be asked about. -/
def sparingReading (root : String) : Reading (Spares root) where
  reads _ := True
  child _ _ _ := trivial
  asks _ _ := ⟨Or.inr (Or.inr (Or.inl trivial)), Or.inr (Or.inr (Or.inl trivial)),
    Or.inr (Or.inr (Or.inl trivial)), Or.inr (Or.inr (Or.inl trivial)),
      Or.inr (Or.inr (Or.inl trivial))⟩

section Requests

variable (cfg : ServiceConfig)

/-- The calls of a handler spare the homes. -/
abbrev SparingHandler (m : Fs Status α) : Prop := Sparing cfg.root (fun _ => True) m

variable {cfg}

theorem sparing_resolve (workspaceId relative : String) :
    Sparing root (fun path => resolvePath root workspaceId relative = .ok path)
      (Prog.ofExcept (resolvePath root workspaceId relative) : Fs Error PathBuf) :=
  Prog.within_ofExcept fun _ h => h

theorem sparing_listFiles (fuel : Nat) (req : ListFilesRequest) :
    SparingHandler cfg (listFiles cfg fuel req) :=
  (sparingReading cfg.root).admits_listFiles fuel req fun _ _ => trivial

/-! #### Requests that write -/

/-- A target that is not the home itself lies in it, and so do the names beside it. -/
theorem inside_of_target (hroot : RootPath root) {workspaceId relative : String} {target : PathBuf}
    (h : resolvePath root workspaceId relative = .ok target)
    (hne : target ≠ homePath root workspaceId) :
    Inside (insideHomes root) target ∧ Near (insideHomes root) (parentOrDot target) ∧
      ∀ name, Inside (insideHomes root) (parentOrDot target ++ [.normal name]) := by
  obtain ⟨hid, q, rfl, ⟨rest, rfl⟩, -⟩ := resolvePath_eq_ok hroot h
  cases rest using List.reverseRecOn with
  | nil =>
    rw [List.append_nil] at hne
    exact absurd (homePath_eq hroot hid).symm hne
  | append_singleton front name =>
    have hown : ∀ other, (insideHomes root).own (homePos root workspaceId ++ front ++ [other]) =
        true := by
      intro other
      refine own_insideHomes.mpr ⟨workspaceId, ?_⟩
      obtain ⟨first, rest, hcons⟩ := List.exists_cons_of_ne_nil (l := front ++ [other]) (by simp)
      exact ⟨first, rest, by rw [List.append_assoc, hcons]⟩
    rw [← List.append_assoc]
    refine ⟨⟨_, hown name, rfl⟩, ?_⟩
    rw [parentOrDot_canonical]
    exact ⟨⟨_, ⟨_, hown name, List.prefix_append _ _⟩, rfl⟩,
      fun other => ⟨_, hown other, (canonical_concat _ other).symm⟩⟩

theorem sparing_doFetch (hroot : RootPath cfg.root) (net : Network) (req : FetchRequest)
    (haway : resolvePath cfg.root req.workspaceId req.targetPath ≠
      .ok (homePath cfg.root req.workspaceId)) :
    SparingHandler cfg (doFetch cfg net req) := by
  apply Prog.within_mapError
  apply Prog.within_bind (sparing_ensureHome _ _ _)
  intro _ _
  apply Prog.within_bind (sparing_resolve req.workspaceId req.targetPath)
  intro target htarget
  obtain ⟨hinside, -⟩ := inside_of_target hroot htarget fun heq => haway (heq ▸ htarget)
  apply Prog.within_bind (Sparing.of_stays (stays_fetchToFile hinside _ _))
  intro outcome _
  apply Prog.within_bind
    (Sparing.of_stays (stays_io (stays_call (c := .chmod target 0o644) hinside)))
  intro _ _
  exact Prog.within_pure trivial

theorem sparing_replaceDirectory {staging target : PathBuf}
    (hstaging : Inside (insideHomes root) staging) (htarget : Inside (insideHomes root) target)
    (hbeside : ∀ name, Inside (insideHomes root) (parentOrDot target ++ [.normal name]))
    (codec : Codec) (nanos : Nat) :
    Sparing root (fun _ => True)
      (replaceWorkspaceDirectoryFromArchivePath codec nanos staging target) := by
  apply Prog.within_bind (Prog.within_mapError (sparing_createDirAll _))
  intro _ _
  exact Sparing.of_stays (stays_extractArchiveAndReplace hstaging (hbeside _) htarget codec)

theorem sparing_importObject (hroot : RootPath cfg.root) (clock : ImportClock)
    (header : ImportHeader)
    (rest : ImportStream) (haway : resolvePath cfg.root header.workspaceId header.targetPath ≠
      .ok (homePath cfg.root header.workspaceId)) :
    SparingHandler cfg (importObject cfg clock header rest) := by
  apply Prog.within_bind (Prog.within_mapError (sparing_ensureHome _ _ _))
  intro _ _
  apply Prog.within_bind
    (Prog.within_mapError (sparing_resolve header.workspaceId header.targetPath))
  intro target htarget
  obtain ⟨hinside, hnear, hbeside⟩ := inside_of_target hroot htarget fun heq =>
    haway (heq ▸ htarget)
  have hstaging : Inside (insideHomes cfg.root)
      (buildWorkspaceTransferTempPath target "import" clock.staging) :=
    hbeside _
  have hunlink : Sparing cfg.root (fun _ => True)
      (ignore (sys (.unlink (buildWorkspaceTransferTempPath target "import" clock.staging))) :
        Fs Status Unit) :=
    Sparing.of_stays (stays_ignore (stays_call hstaging))
  apply Prog.within_bind (Prog.within_mapError (sparing_createDirAll _))
  intro _ _
  apply Prog.within_bind (Sparing.of_stays (stays_ioRpc (stays_create hstaging)))
  intro handle hhandle
  apply Prog.within_bind (Sparing.of_stays (stays_receiveChunks hhandle _ _))
  intro bytesWritten _
  apply Prog.within_bind (W := fun _ => True)
  · unfold installObject
    split
    · apply Prog.within_bind
        (Sparing.of_stays (stays_rpc (stays_replaceWorkspaceFileFromStaging hstaging hinside)))
      intro _ _
      exact Prog.within_pure trivial
    · apply Prog.within_bind
        (Prog.within_mapError (sparing_replaceDirectory hstaging hinside hbeside _ _))
      intro _ _
      exact Prog.within_pure trivial
    · apply Prog.within_bind hunlink
      intro _ _
      exact Prog.within_throw _
  · intro response _
    apply Prog.within_bind hunlink
    intro _ _
    exact Prog.within_pure trivial

end Requests

/-! ### Requests and agents together -/

/-- What a request transfers does not go to the place of a home. -/
def FileRequest.Away (cfg : ServiceConfig) : FileRequest → Prop
  | .fetch _ req => resolvePath cfg.root req.workspaceId req.targetPath ≠
      .ok (homePath cfg.root req.workspaceId)
  | .importObject _ (.ok (.header header) :: _) =>
    resolvePath cfg.root header.workspaceId header.targetPath ≠
      .ok (homePath cfg.root header.workspaceId)
  | _ => True

theorem sparing_serve {cfg : ServiceConfig} (hroot : RootPath cfg.root) {req : FileRequest}
    (haway : req.Away cfg) : SparingHandler cfg (req.serve cfg) := by
  have hpure : ∀ {α : Type} {m : Fs Status α} {f : α → FileReply},
      SparingHandler cfg m → SparingHandler cfg (m >>= fun a => pure (f a)) :=
    fun hm => Prog.within_bind hm fun _ _ => Prog.within_pure trivial
  cases req with
  | exec workspaceId => exact hpure (Prog.within_mapError (sparing_ensureHome _ _ _))
  | fetch net req => exact hpure (sparing_doFetch hroot net req haway)
  | list fuel req => exact hpure (sparing_listFiles fuel req)
  | delete workspaceId => exact hpure (Prog.within_mapError (sparing_deleteWorkspace workspaceId))
  | importObject clock stream =>
    apply hpure
    rcases stream with _ | ⟨_ | header | data | _, rest⟩
    · exact Prog.within_throw _
    · exact Prog.within_throw _
    · exact sparing_importObject hroot clock header rest haway
    · exact Prog.within_throw _
    · exact Prog.within_throw _

/-- Who works on the files: requests, and agents, which may do what they like in the homes
    that are mounted into their containers. -/
inductive Worker (root : String) where
  | request (req : FileRequest)
  | agent (program : Fs Status FileReply)
    (inside : Stays (insideHomes root) (fun _ => True) program)

def Worker.program (cfg : ServiceConfig) : Worker cfg.root → Fs Status FileReply
  | .request req => req.serve cfg
  | .agent program _ => program

/-- The calls of all workers in the order of the schedule, each with the credentials of
    who makes it and at its time. -/
def workAll (cfg : ServiceConfig) (workers : Nat → Worker cfg.root)
    (schedule : List (Nat × Cred × Nat)) (t : FileTree) : Serving :=
  Crowd.run (fun turn : Cred × Nat => FileTree.exec turn.1 turn.2)
    ⟨fun i => (workers i).program cfg, t⟩ schedule

/-- **Homes stay ready.**  However the calls of requests and agents interleave, wherever
    they are abandoned, and whatever directories are deleted meanwhile: if no transfer goes
    to the place of a home itself, every home and every directory above it is missing or a
    directory, so the home can be made, and an execution can begin. -/
theorem homes_stay_ready (cfg : ServiceConfig) (hroot : RootPath cfg.root)
    (workers : Nat → Worker cfg.root) (haway : ∀ i req, workers i = .request req → req.Away cfg)
    (schedule : List (Nat × Cred × Nat)) (t : FileTree) (hlinks : t.SymlinkFree)
    (hready : ∀ workspaceId, ValidId workspaceId → Passable t (homePos cfg.root workspaceId))
    (workspaceId : String) (hid : ValidId workspaceId) :
    let world := (workAll cfg workers schedule t).world
    Passable world (homePos cfg.root workspaceId) ∧
      ∀ (cred : Cred) (now : Nat), cred.privileged = true →
        ((ensureHome cfg.root workspaceId cfg.agentUid cfg.agentGid).run
          (FileTree.exec cred now) world).1 = some (.ok (homePath cfg.root workspaceId)) := by
  intro world
  have hstart : Crowd.Admitted (fun _ => Spares cfg.root) (fun _ => (insideHomes cfg.root).Returns)
      (fun _ => True) (⟨fun i => (workers i).program cfg, t⟩ : Serving) := by
    intro i
    rcases hworker : workers i with req | ⟨program, hinside⟩
    · simp only [hworker, Worker.program]
      exact sparing_serve hroot (haway i req hworker)
    · simp only [hworker, Worker.program]
      exact Sparing.of_stays hinside
  obtain ⟨-, -, hpassable⟩ := Crowd.invariant (fun turn : Cred × Nat => FileTree.exec turn.1 turn.2)
    (I := fun s => s.SymlinkFree ∧
      ∀ workspaceId, ValidId workspaceId → Passable s (homePos cfg.root workspaceId))
    (fun _ turn c s hc ⟨hlinks, hready⟩ =>
      ⟨⟨symlinkFree_exec hlinks turn.2 c, fun _ hid =>
        passable_spared hc hlinks turn.2 (hready _ hid)⟩,
        returns_spared hc hlinks turn.2⟩)
    schedule hstart ⟨hlinks, hready⟩
  refine ⟨hpassable workspaceId hid, fun cred now hcred => ?_⟩
  obtain ⟨after, hrun⟩ := run_ensureHome now hcred hroot hid (hpassable workspaceId hid)
    cfg.agentUid
    cfg.agentGid
  exact congrArg Prod.fst hrun

theorem passable_ofEntries {entries : List (Pos × Node)} {h : FileTree.WellFormed entries} {p : Pos}
    (hdirs : ∀ e ∈ entries, e.1.length ≤ p.length → e.2.isDir = true) :
    Passable (FileTree.ofEntries entries h) p := by
  intro q hq
  rcases hnode : (FileTree.ofEntries entries h).get? q with _ | node
  · exact Or.inl rfl
  · right
    obtain ⟨before, after, hsplit, -⟩ := List.lookup_eq_some_iff.mp hnode
    exact FileTree.isDir_iff.mpr ⟨node, hnode, hdirs (q, node) (by simp [hsplit]) hq.length_le⟩

/-- A file is imported while an agent removes what is in the home, and the workspace is
    deleted. -/
def busyHome (i : Nat) : Worker importConfig.root :=
  match i with
  | 0 => .request (.importObject ⟨0, 0⟩ [.ok (.header ⟨"w1", "b", 1, ""⟩), .ok (.chunk [1])])
  | 1 => .agent (ioRpc (sys (.removeDirAll (canonical ["srv", "w1", "home", "a"]))) >>= fun _ =>
      pure (.deleted true))
    (Prog.within_bind (stays_ioRpc (stays_call ⟨["srv", "w1", "home", "a"], by decide, rfl⟩))
      fun _ _ => Prog.within_pure trivial)
  | _ => .request (.delete "w1")

/-- The home is made again afterwards. -/
theorem homes_stay_ready_busy :
    ((ensureHome "/srv" "w1" 1000 1000).run (FileTree.exec rootUser 12)
      (workAll importConfig busyHome
        [(0, rootUser, 7), (2, rootUser, 8), (1, ⟨1000, 1000, false, 0o022⟩, 9),
        (2, rootUser, 10), (0, rootUser, 11)] sampleHost).world).1 =
      some (.ok (homePath "/srv" "w1")) := by
  refine (homes_stay_ready importConfig ⟨by decide, by decide⟩ busyHome ?_ _ sampleHost
    sampleHost_symlinkFree ?_ "w1" (by decide)).2 rootUser 12 rfl
  · intro i req hi
    rcases i with _ | _ | i
    · obtain rfl := Worker.request.inj hi
      intro hhome
      revert hhome
      decide
    · cases hi
    · obtain rfl := Worker.request.inj hi
      trivial
  · intro workspaceId _
    exact passable_ofEntries (by simp [homePos, rootPos]; decide)

end Scriptorium
