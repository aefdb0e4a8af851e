import Scriptorium.ArchiveModes
import Scriptorium.FetchBody

/-!
# What comes in can be read

A fetched file is made readable for everyone, and a received one is created so.  What
comes out of an archive keeps the modes of its entries: the agent can read it exactly when
these say so (`ingress_open_iff`).
-/

namespace Scriptorium

open Posix Effects

/-! ### Access -/

/-- Others may read a file, and search a directory. -/
def OpenToOthers (node : Node) : Prop :=
  match node.kind with
  | .dir => node.attrs.mode.testBit 0 = true
  | .file _ _ => node.attrs.mode.testBit 2 = true
  | _ => True

/-- The agent may: as the owner, or like everyone. -/
def OpenTo (agent : Nat) (node : Node) : Prop :=
  node.attrs.uid = agent ∧ (node.isDir = true → node.attrs.mode.testBit 6 = true) ∨
    OpenToOthers node

/-- After a call the target has everything at and below it open to the agent, and so is
    everything new. -/
structure OpenAfter (cred : Cred) (agent : Nat) (target : PathBuf) (t s : FileTree) : Prop where
  target : ∃ p node, s.find cred target = .ok (p, node) ∧
    ∀ q inner, s.get? (p ++ q) = some inner → OpenTo agent inner
  made : ∀ q node, t.get? q = none → s.get? q = some node → OpenTo agent node

/-- What an archive describes is open to others: the modes of its entries say so. -/
def OpenArchive (items : List TarItem) : Prop :=
  ∀ U, layoutOf items = some U → ∀ q, q ≠ [] → ∀ item, U q = some item →
    (archiveModes items q).testBit (match item with | .dir => 0 | .leaf _ => 2) = true

/-! ### The calls -/

/-- A call by which something comes in. -/
inductive Ingress where
  | fetch (net : Network) (req : FetchRequest)
  | object (clock : ImportClock) (header : ImportHeader) (rest : ImportStream)

def Ingress.run (cfg : ServiceConfig) : Ingress → Fs Status Unit
  | .fetch net req => do
    let _ ← doFetch cfg net req
    pure ()
  | .object clock header rest => do
    let _ ← doImportWorkspaceObject cfg clock (.ok (.header header) :: rest)
    pure ()

def Ingress.target (root : String) : Ingress → Except Error PathBuf
  | .fetch _ req => resolvePath root req.workspaceId req.targetPath
  | .object _ header _ => resolvePath root header.workspaceId header.targetPath

/-- The staging name of an import is new to the tree. -/
def Ingress.Fresh (t : FileTree) : Ingress → Prop
  | .fetch _ _ => True
  | .object clock _ _ => ∀ q, t.get? (q ++ [transferName "import" clock.staging]) = none

/-- The entries of an archive let others in. -/
def Ingress.Readable (codec : Codec) : Ingress → Prop
  | .fetch _ _ => True
  | .object _ header rest => WorkspaceObjectEncoding.ofInt header.encoding = .tarGz →
    ∀ bytes, payload rest = some bytes → OpenArchive (codec.unpack bytes)

section

variable {cred : Cred} {now : Nat} {t s : FileTree} {agent : Nat}

/-- Everything new is a directory that is open to others. -/
def NewDirs (t s : FileTree) : Prop :=
  ∀ q node, t.get? q = none → s.get? q = some node → node.isDir = true ∧ OpenToOthers node

theorem OpenToOthers.openTo {node : Node} (h : OpenToOthers node) : OpenTo agent node := Or.inr h

theorem openTo_iff {node : Node} (h : node.attrs.uid ≠ agent) : OpenTo agent node ↔
    OpenToOthers node :=
  or_iff_right fun howner => h howner.1

theorem newDir_open (humask : cred.umask = 0o022) :
    OpenToOthers ⟨.dir, FileTree.newAttrs cred now 0o777⟩ := by
  simp only [OpenToOthers, newDir_mode humask]
  decide

theorem newFile_open (humask : cred.umask = 0o022) (data : List UInt8) (holes : Bool) :
    OpenToOthers ⟨.file data holes, FileTree.newAttrs cred now 0o666⟩ := by
  simp only [OpenToOthers, FileTree.newAttrs, humask]
  decide

variable (now) in
theorem NewDirs.adds (humask : cred.umask = 0o022) {u : FileTree} (h : NewDirs t s)
    (hadds : ∀ q, u.get? q = s.get? q ∨ s.get? q = none ∧
      u.get? q = some ⟨.dir, FileTree.newAttrs cred now 0o777⟩) : NewDirs t u := by
  intro q node hnone hnode
  rcases hadds q with hsame | ⟨-, hnew⟩
  · exact h q node hnone (hsame.symm.trans hnode)
  · rw [← Option.some.inj (hnew.symm.trans hnode)]
    exact ⟨rfl, newDir_open humask⟩

/-- New attributes that leave a directory open to others. -/
theorem NewDirs.setAttrs (h : NewDirs t s) {p : Pos} {f : Attrs → Attrs}
    (hf : ∀ attrs, OpenToOthers ⟨.dir, attrs⟩ → OpenToOthers ⟨.dir, f attrs⟩) :
    NewDirs t (s.setAttrs p f) := by
  intro q node hnone hnode
  rw [FileTree.get?_setAttrs] at hnode
  split at hnode
  · obtain ⟨old, hold, rfl⟩ := Option.map_eq_some_iff.mp hnode
    obtain ⟨hdir, hopen⟩ := h q old hnone hold
    obtain ⟨kind, attrs⟩ := old
    obtain rfl : kind = .dir := Node.isDir_iff.mp hdir
    exact ⟨rfl, hf attrs hopen⟩
  · exact h q node hnone hnode

/-- The calls that make the way to a target. -/
def Smooths : FsCall → Prop
  | .mkdir _ | .fileType _ | .chown _ _ _ => True
  | .chmod _ mode => mode = 0o777
  | _ => False

variable (cred now) in
/-- They make nothing that would not be open to others. -/
theorem newDirs_smooths (humask : cred.umask = 0o022) {ε α : Type} {m : Fs ε α} {W : α → Prop}
    (hm : m.Within Smooths (fun _ _ => True) W) (t : FileTree) :
    NewDirs t (m.run (FileTree.exec cred now) t).2 := by
  apply hm.keeps (I := NewDirs t)
  · intro c s hc hs
    refine ⟨?_, trivial⟩
    cases c with
    | mkdir path =>
      simp only [FileTree.exec]
      rcases FileTree.mkdir_cases cred now s path with ⟨e, he⟩ | ⟨dir, name, _, hfree, _, -, hadd⟩
      · rwa [he]
      · rw [hadd]
        apply hs.adds now humask
        intro q
        rw [FileTree.get?_add]
        split
        · rename_i hq
          exact Or.inr ⟨hq ▸ hfree, rfl⟩
        · exact Or.inl rfl
    | fileType path => exact hs
    | chown path uid gid =>
      simp only [FileTree.exec]
      rcases FileTree.chown_cases cred s path uid gid with ⟨e, he⟩ | ⟨p, node, -, hset⟩
      · rwa [he]
      · rw [hset]
        exact hs.setAttrs (f := fun attrs => { attrs with uid, gid }) fun _ hopen => hopen
    | chmod path mode =>
      obtain rfl : mode = 0o777 := hc
      simp only [FileTree.exec]
      rcases FileTree.chmod_cases cred s path (fun attrs => { attrs with mode := 0o777 }) with
        ⟨e, he⟩ | ⟨p, node, -, hset⟩
      · rwa [he]
      · rw [hset]
        apply hs.setAttrs (f := fun attrs => { attrs with mode := 0o777 })
        intro attrs _
        simp only [OpenToOthers]
        decide
    | _ => exact absurd hc id
  · intro q node hnone hnode
    rw [hnone] at hnode
    cases hnode

theorem smooths_createDirAll (path : PathBuf) :
    (createDirAll path).Within Smooths (fun _ _ => True) fun _ => True :=
  within_createDirAll (N := fun _ => True) (fun _ _ _ _ => trivial) (fun _ _ => ⟨trivial, trivial⟩)
    trivial

theorem smooths_ensureHome (root workspaceId : String) (uid gid : Nat) :
    (ensureHome root workspaceId uid gid).Within Smooths (fun _ _ => True) fun _ => True :=
  within_ensureHome (fun _ => smooths_createDirAll _) (fun _ => trivial) fun _ => rfl

theorem smooths_prepareTarget (cfg : ServiceConfig) (header : ImportHeader) :
    (prepareTarget cfg header).Within Smooths (fun _ _ => True) fun _ => True := by
  apply Prog.within_bind (Prog.within_mapError (smooths_ensureHome _ _ _ _))
  intro _ _
  apply Prog.within_bind
    (Prog.within_mapError (Prog.within_ofExcept (W := fun _ => True) fun _ _ => trivial))
  intro target _
  apply Prog.within_bind (Prog.within_mapError (smooths_createDirAll _))
  intro _ _
  exact Prog.within_pure trivial

/-! ### Receiving -/

variable {parent : PathBuf} {staging : String} {handle dir : Pos} {name : String}

/-- Where only directories have the name of a staging file, it is created as a new file. -/
theorem create_fresh (hdirs : ∀ q node, t.get? (q ++ [staging]) = some node → node.isDir = true)
    (h : FileTree.exec cred now (.create (parent ++ [.normal staging])) t = (.ok handle, s)) :
    ∃ dir, FileTree.Leads cred t parent dir [staging] ∧ handle = dir ++ [staging] ∧ ∀ q, s.get? q =
      if q = dir ++ [staging] then some
        ⟨.file [] false, FileTree.newAttrs cred now 0o666⟩ else t.get? q := by
  have hview : ∀ q path, t.look cred (q ++ [staging]) ≠ .link path := by
    intro q path hlink
    rcases hnode : t.get? (q ++ [staging]) with _ | node
    · rw [FileTree.look_eq_absent.mpr hnode] at hlink
      cases hlink
    · simp [FileTree.look, hnode, Node.view, Node.isDir_iff.mp (hdirs q node hnode)] at hlink
  rcases FileTree.create_cases cred now t (parent ++ [.normal staging]) with
    ⟨e, he⟩ | ⟨d, n, hdir, hfree, hname, htarget, hadd⟩ | ⟨p, data, holes, attrs, htarget, hnode, -⟩
  · rw [FileTree.exec, he] at h
    cases h
  · obtain ⟨dir, hwalk, hsearch, ⟨habsent, heq⟩ | ⟨path, hlink⟩ | ⟨-, heq⟩⟩ := resolve_entry htarget
    · obtain ⟨rfl, rfl⟩ := Target.missing.inj heq
      rw [FileTree.exec, hadd] at h
      obtain ⟨hhandle, rfl⟩ := Prod.mk.inj h
      have hlead : FileTree.Leads cred t parent d [] := by
        refine ⟨hwalk, hsearch, fun q _ name hname => ?_⟩
        cases hname
      refine ⟨d, hlead.free hfree, (Except.ok.inj hhandle).symm, fun q => ?_⟩
      rw [FileTree.get?_add]
    · exact absurd hlink (hview dir path)
    · cases heq
  · -- what was found is a file, and no directory of the name
    obtain ⟨dir, hwalk, hsearch, ⟨habsent, heq⟩ | ⟨path, hlink⟩ | ⟨hpresent, heq⟩⟩ :=
      resolve_entry htarget
    · cases heq
    · exact absurd hlink (hview dir path)
    · obtain rfl := Target.found.inj heq
      have hisDir := hdirs dir _ hnode
      cases hisDir

/-- An object has been received into a new file beside its target. -/
structure Staged (cred : Cred) (now : Nat) (t s : FileTree) (parent : PathBuf) (dir : Pos)
    (staging : String) (bytes : List UInt8) : Prop where
  lead : FileTree.Leads cred s parent dir [staging]
  file : s.get? (dir ++ [staging]) = some ⟨.file bytes false, FileTree.newAttrs cred now 0o666⟩
  only : ∀ q node, s.get? (q ++ [staging]) = some node → q = dir ∨ node.isDir = true
  made : ∀ q node, q ≠ dir ++ [staging] → t.get? q = none → s.get? q = some node →
    node.isDir = true ∧ OpenToOthers node

theorem Staged.adds (humask : cred.umask = 0o022) {bytes : List UInt8} {u : FileTree}
    (h : Staged cred now t s parent dir staging bytes)
    (hadds : ∀ q, u.get? q = s.get? q ∨ s.get? q = none ∧
      u.get? q = some ⟨.dir, FileTree.newAttrs cred now 0o777⟩) :
    Staged cred now t u parent dir staging bytes := by
  constructor
  · apply h.lead.extend
    intro q hq
    exact (hadds q).resolve_right fun hnew => hq hnew.1
  · have hplace := (hadds (dir ++ [staging])).resolve_right fun hnew => by
      rw [h.file] at hnew
      cases hnew.1
    rw [hplace]
    exact h.file
  · intro q node hnode
    rcases hadds (q ++ [staging]) with hsame | ⟨-, hnew⟩
    · exact h.only q node (hsame.symm.trans hnode)
    · right
      rw [← Option.some.inj (hnew.symm.trans hnode)]
      rfl
  · intro q node hq hnone hnode
    rcases hadds q with hsame | ⟨-, hnew⟩
    · exact h.made q node hq hnone (hsame.symm.trans hnode)
    · rw [← Option.some.inj (hnew.symm.trans hnode)]
      exact ⟨rfl, newDir_open humask⟩

variable {cfg : ServiceConfig} {clock : ImportClock} {header : ImportHeader} {rest : ImportStream}
  {place : Pos}

/-- **Receiving** an object that is then to be installed. -/
theorem receiveObject_staged (humask : cred.umask = 0o022)
    (hfresh : ∀ q, t.get? (q ++ [transferName "import" clock.staging]) = none)
    (hresolve : resolvePath cfg.root header.workspaceId header.targetPath =
      .ok (canonical (place ++ [name])))
    {received : PathBuf × Nat}
    (hrun : (receiveObject cfg clock header rest).run (FileTree.exec cred now) t =
      (some (.ok received), s)) :
    ∃ dir bytes, payload rest = some bytes ∧ received.1 = canonical (place ++ [name]) ∧
      Staged cred now t s (canonical place) dir (transferName "import" clock.staging) bytes := by
  obtain ⟨target, u, hprepare, hrun⟩ := Prog.run_bind_eq_ok _ hrun
  obtain ⟨handle, v, hcreate, hrun⟩ := Prog.run_bind_eq_ok _ hrun
  obtain ⟨bytesWritten, w, hreceive, hdone⟩ := Prog.run_bind_eq_ok _ hrun
  obtain ⟨hresult, rfl⟩ := Prod.mk.inj hdone
  obtain rfl := Except.ok.inj (Option.some.inj hresult)
  have hnew : NewDirs t u := by
    have hkeeps := newDirs_smooths cred now humask (smooths_prepareTarget cfg header) t
    rwa [hprepare] at hkeeps
  obtain rfl : target = canonical (place ++ [name]) := by
    obtain ⟨_, s₁, -, hprepare⟩ := Prog.run_bind_eq_ok _ hprepare
    obtain ⟨path, s₂, hpath, hprepare⟩ := Prog.run_bind_eq_ok _ hprepare
    obtain ⟨_, s₃, -, hdone⟩ := Prog.run_bind_eq_ok _ hprepare
    rw [hresolve] at hpath
    obtain rfl := Except.ok.inj (Option.some.inj (congrArg Prod.fst hpath))
    exact (Except.ok.inj (Option.some.inj (congrArg Prod.fst hdone))).symm
  have hexec : FileTree.exec cred now
      (.create (canonical place ++ [.normal (transferName "import" clock.staging)])) u =
      (.ok handle, v) := by
    rw [stagingPath_canonical, stagingPos, canonical_concat] at hcreate
    exact exec_of_run_sys_ok (Prog.run_mapError_eq_ok _ hcreate)
  obtain ⟨dir, hlead, rfl, hget⟩ :=
    create_fresh (fun q node hnode => (hnew _ node (hfresh q) hnode).1) hexec
  have hempty : v.get? (dir ++ [transferName "import" clock.staging]) =
      some ⟨.file [] false, FileTree.newAttrs cred now 0o666⟩ := by rw [hget, if_pos rfl]
  rcases hrest : payload rest with _ | bytes
  · obtain ⟨status, s', hfail, -⟩ := run_receiveChunks_none cred now (s := v) hrest 0
    rw [hreceive] at hfail
    cases congrArg Prod.fst hfail
  · obtain ⟨s', hok, hfile, hsame⟩ := run_receiveChunks cred now rfl hempty hrest (Nat.zero_le _)
    obtain rfl : w = s' := congrArg Prod.snd (hreceive.symm.trans hok)
    have hframe : ∀ q, q ≠ dir ++ [transferName "import" clock.staging] → w.get? q = u.get? q := by
      intro q hq
      rw [hsame q hq, hget, if_neg hq]
    refine ⟨dir, bytes, rfl, rfl, ?_, ?_, ?_, ?_⟩
    · apply hlead.of_same
      intro q hq
      apply hframe
      rintro rfl
      exact hq _ (List.mem_singleton_self _) List.prefix_rfl
    · rwa [List.nil_append] at hfile
    · intro q node hnode
      by_cases hq : q = dir
      · exact Or.inl hq
      · right
        rw [hframe _ fun heq => hq (List.append_cancel_right heq)] at hnode
        exact (hnew _ node (hfresh q) hnode).1
    · intro q node hq hnone hnode
      rw [hframe q hq] at hnode
      exact hnew q node hnone hnode

/-! ### Installing a file -/

/-- What can be renamed is there. -/
theorem slots_of_rename {src dst : PathBuf} (h : t.rename cred src dst = (.ok (), s)) :
    ∃ srcDir srcName dir name, t.slot cred src = .ok (srcDir, srcName) ∧ t.slot cred dst = .ok
      (dir, name) ∧
      t.get? (srcDir ++ [srcName]) ≠ none := by
  unfold FileTree.rename at h
  split at h
  · cases h
  · rename_i srcDir srcName hsrc
    split at h
    · cases h
    · rename_i dir name hdst
      split at h
      · cases h
      · rename_i node hnode
        exact ⟨srcDir, srcName, dir, name, hsrc, hdst, by rw [hnode]; nofun⟩

theorem root_not_mem_tail_canonical (p : Pos) : .rootDir ∉ (canonical p).tail := by
  simp [canonical]

/-- The staging file has come to the target. -/
structure Placed (cred : Cred) (u x : FileTree) (parent : PathBuf) (dir : Pos)
    (staging name : String) :
    Prop where
  lead : FileTree.Leads cred x parent dir [name, staging]
  distinct : staging ≠ name
  moved : ∀ q, x.get? (dir ++ [name] ++ q) = u.get? (dir ++ [staging] ++ q)
  gone : ∀ q, x.get? (dir ++ [staging] ++ q) = none
  same : ∀ q, ¬ dir ++ [name] <+: q → ¬ dir ++ [staging] <+: q → x.get? q = u.get? q

/-- **Replacing a file.** -/
theorem replaceFile_placed (hlead : FileTree.Leads cred t parent dir [staging]) {node : Node}
    (hnode : t.get? (dir ++ [staging]) = some node) (hlink : node.isLink = false)
    (hrun : (Replacement.file.phase (parent ++ [.normal staging]) [] (parent ++ [.normal name])).run
      (FileTree.exec cred now) t = (some (.ok ()), s)) :
    ∃ u : FileTree, (∀ q, u.get? q = t.get? q ∨ t.get? q = none ∧
      u.get? q = some ⟨.dir, FileTree.newAttrs cred now 0o777⟩) ∧
      Placed cred u s parent dir staging name := by
  rw [Replacement.phase, replaceWorkspaceFileFromStaging, parent_concat] at hrun
  obtain ⟨_, u, hmade, hrun⟩ := Prog.run_bind_eq_ok _ hrun
  obtain ⟨_, v, hremoved, hrun⟩ := Prog.run_bind_eq_ok _ hrun
  have hrename : v.rename cred (parent ++ [.normal staging]) (parent ++ [.normal name]) =
      (.ok (), s) :=
    exec_of_run_io_ok hrun
  have hadds : ∀ q, u.get? q = t.get? q ∨ t.get? q = none ∧
      u.get? q = some ⟨.dir, FileTree.newAttrs cred now 0o777⟩ := by
    intro q
    have h := keeps_adds cred now (makes_createDirAll parent) t q
    rwa [Prog.run_mapError_eq_ok _ hmade] at h
  have hlead' : FileTree.Leads cred u parent dir [staging] :=
    hlead.extend fun q hq => (hadds q).resolve_right fun hnew => hq hnew.1
  obtain ⟨srcDir, srcName, d, n, hsrc, hdst, hpresent⟩ := slots_of_rename hrename
  obtain ⟨-, hwalk, -⟩ := FileTree.slot_eq_ok hsrc
  rw [List.dropLast_concat] at hwalk
  -- the removal leaves nothing at the target, or a link that leads nowhere
  have hpresent' : staging = name → v.get? (dir ++ [staging]) ≠ none →
      ¬ ∀ q, v.get? q = if dir ++ [name] <+: q then none else u.get? q := by
    rintro rfl hpresent hget
    rw [hget, if_pos List.prefix_rfl] at hpresent
    exact hpresent rfl
  obtain ⟨hlead', hne, hv⟩ : FileTree.Leads cred v parent dir [name, staging] ∧ staging ≠ name ∧
      ∀ q, ¬ dir ++ [name] <+: q → v.get? q = u.get? q := by
    rcases removePathIfExists_ok hremoved with ⟨d', n', hslot, hv⟩ | ⟨rfl, hfind⟩
    · obtain ⟨rfl, rfl⟩ := Prod.mk.inj (Except.ok.inj (hslot.symm.trans (hlead'.slot name)))
      have hget : ∀ q, v.get? q = if d' ++ [n'] <+: q then none else u.get? q := by
        intro q
        rw [hv, FileTree.get?_removeAt]
      have hlead := leads_removed hlead' hget hwalk
      obtain ⟨rfl, rfl⟩ := Prod.mk.inj (Except.ok.inj (hsrc.symm.trans (hlead.slot staging)))
      exact ⟨hlead, fun heq => hpresent' heq hpresent hget, fun q hq => by rw [hget, if_neg hq]⟩
    · refine ⟨hlead'.beside_missing hfind, ?_, fun _ _ => rfl⟩
      rintro rfl
      have hsame := (hadds (dir ++ [staging])).resolve_right fun hnew => by
        rw [hnode] at hnew
        cases hnew.1
      rw [FileTree.find, hlead'.child (hsame.trans hnode) hlink] at hfind
      simp only [hsame.trans hnode] at hfind
      cases hfind
  obtain ⟨rfl, rfl⟩ := Prod.mk.inj (Except.ok.inj (hsrc.symm.trans (hlead'.slot staging)))
  obtain ⟨rfl, rfl⟩ := Prod.mk.inj (Except.ok.inj (hdst.symm.trans (hlead'.slot name)))
  have happ : d ++ [srcName] ≠ d ++ [n] := fun heq => hne (by simpa using heq)
  obtain ⟨hmoved, -, -⟩ := rename_moves hsrc hdst happ hrename
  refine ⟨u, hadds, ?_, hne, ?_, ?_, ?_⟩
  · apply hlead'.of_same
    intro q hq
    exact hmoved.other (hq n (by simp)) (hq srcName (by simp))
  · intro q
    rw [hmoved.subtree, hv _ (entries_apart hne.symm q)]
  · intro q
    exact hmoved.source (entries_apart hne.symm q) (List.prefix_append _ _)
  · intro q hq hq'
    rw [hmoved.other hq hq', hv q hq]

theorem find_of_walk {path : PathBuf} {p : Pos} {node : Node}
    (hwalk : walk (t.look cred) maxLinks [] path = .ok p) (hnode : t.get? p = some node) :
    t.find cred path = .ok (p, node) := by
  rw [FileTree.find, hwalk]
  simp only [hnode]

/-- A received file is open to the agent at its target. -/
theorem Placed.openAfter (humask : cred.umask = 0o022) {bytes : List UInt8} {x : FileTree}
    (h : Staged cred now t s parent dir staging bytes)
    (hplaced : Placed cred s x parent dir staging name) :
    OpenAfter cred agent (parent ++ [.normal name]) t x := by
  have hinstalled : ∀ q inner, x.get? (dir ++ [name] ++ q) = some inner → OpenToOthers inner := by
    intro q inner hinner
    rw [hplaced.moved] at hinner
    cases q with
    | nil =>
      rw [List.append_nil] at hinner
      rw [← Option.some.inj (h.file.symm.trans hinner)]
      exact newFile_open humask bytes false
    | cons first q =>
      rw [FileTree.get?_append_eq_none h.file rfl] at hinner
      cases hinner
  have hfile : x.get? (dir ++ [name]) =
      some ⟨.file bytes false, FileTree.newAttrs cred now 0o666⟩ := by
    have hmoved := hplaced.moved []
    rw [List.append_nil, List.append_nil] at hmoved
    exact hmoved.trans h.file
  constructor
  · exact ⟨dir ++ [name], _, find_of_walk (hplaced.lead.child hfile rfl) hfile,
      fun q inner hinner => (hinstalled q inner hinner).openTo⟩
  · intro q node hnone hnode
    apply OpenToOthers.openTo
    by_cases htarget : dir ++ [name] <+: q
    · obtain ⟨rest, rfl⟩ := htarget
      exact hinstalled rest node hnode
    · by_cases hstaging : dir ++ [staging] <+: q
      · obtain ⟨rest, rfl⟩ := hstaging
        rw [hplaced.gone] at hnode
        cases hnode
      · rw [hplaced.same q htarget hstaging] at hnode
        exact (h.made q node (fun heq => hstaging (heq ▸ List.prefix_rfl)) hnone hnode).2

/-! ### Installing an archive -/

/-- What an import reads back is what it received. -/
theorem imported_bytes {codec : Codec} {bytes : List UInt8} {expand : String} {place : Pos}
    {contents : Contents}
    {U : ArchiveLayout} {u x y v : FileTree} (h : Staged cred now t s parent dir staging bytes)
    (himported : Imported cred now codec s v parent place staging expand name contents U u x y) :
    place = dir ∧ contents.data = bytes ∧ u.get? (dir ++ [staging]) = s.get?
      (dir ++ [staging]) := by
  obtain ⟨hpresent, hnotDir⟩ := staged_of_read himported.began.lead himported.read
  obtain ⟨node, hnode⟩ := Option.ne_none_iff_exists'.mp hpresent
  have hnot : node.isDir = false := by
    rwa [FileTree.isDir, hnode, Option.any_some] at hnotDir
  -- what stands there is no directory, so it was not made since
  have hold : s.get? (place ++ [staging]) = some node := by
    rcases himported.began.old _ node hnode with hold | hnew
    · exact hold
    · rw [hnew] at hnot
      cases hnot
  obtain rfl : place = dir := by
    rcases h.only place node hold with heq | hdir
    · exact heq
    · rw [hnot] at hdir
      cases hdir
  obtain rfl := Option.some.inj (hold.symm.trans h.file)
  refine ⟨rfl, ?_, hnode.trans hold.symm⟩
  have hfind := find_of_walk (himported.began.lead.child hnode rfl) hnode
  have hread := himported.read
  unfold FileTree.read at hread
  simp only [hfind] at hread
  split at hread
  · rw [← Except.ok.inj hread]
  · cases hread

/-- What has been extracted is open to the agent when the modes of the archive say so. -/
theorem marked_open_iff (hother : cred.uid ≠ agent) {items : List TarItem} {U : ArchiveLayout}
    {root : Pos} (hU : layoutOf items = some U) (hshows : Shows s root U)
    (hmarked : Marked cred s root (archiveModes items)) :
    (∀ q inner, q ≠ [] → s.get? (root ++ q) = some inner → OpenTo agent inner) ↔
      OpenArchive items := by
  have hnode : ∀ q inner, q ≠ [] → s.get? (root ++ q) = some inner → ∃ item, U q = some item ∧
      (OpenTo agent inner ↔
        (archiveModes items q).testBit (match item with | .dir => 0 | .leaf _ => 2) = true) := by
    intro q inner hq hinner
    obtain ⟨howner, hmode⟩ := hmarked.present q inner hq hinner
    have hkind := hshows q
    rw [hinner] at hkind
    obtain ⟨item, hitem, hkind⟩ := Option.map_eq_some_iff.mp hkind.symm
    refine ⟨item, hitem, ?_⟩
    rw [openTo_iff fun heq => hother (howner.symm.trans heq), OpenToOthers, ← hkind, hmode]
    cases item <;> exact Iff.rfl
  constructor
  · intro hopen V hV q hq item hitem
    obtain rfl := Option.some.inj (hU.symm.trans hV)
    rcases hinner : s.get? (root ++ q) with _ | inner
    · rw [hshows.none_iff, hitem] at hinner
      cases hinner
    · obtain ⟨item', hitem', hiff⟩ := hnode q inner hq hinner
      obtain rfl := Option.some.inj (hitem.symm.trans hitem')
      exact hiff.mp (hopen q inner hq hinner)
  · intro hopen q inner hq hinner
    obtain ⟨item, hitem, hiff⟩ := hnode q inner hq hinner
    exact hiff.mpr (hopen U hU q hq item hitem)

section Archive

variable {codec : Codec} {bytes : List UInt8} {expand : String} {contents : Contents}
  {U : ArchiveLayout}
  {u x y v : FileTree}

/-- What stands at the target is what was extracted, in a new directory or as it came. -/
theorem Imported.target_open_iff (humask : cred.umask = 0o022)
    (h : Imported cred now codec s v parent dir staging expand name contents U u x y) :
    (∀ q inner, v.get? (dir ++ [name] ++ q) = some inner → OpenTo agent inner) ↔
      ∀ q inner, q ≠ [] → x.get? (dir ++ [expand] ++ q) = some inner → OpenTo agent inner := by
  have hy : ∀ q, y.get? (dir ++ [expand] ++ q) = x.get? (dir ++ [expand] ++ q) := by
    intro q
    rw [h.cleared, if_neg (entries_apart h.distinct.symm q)]
  rcases h.installed.target with ⟨sole, hsole, hmoved⟩ | ⟨-, hroot, hmoved⟩
  · have hmoved' : ∀ q, v.get? (dir ++ [name] ++ q) = x.get? (dir ++ [expand] ++ sole :: q) :=
      fun q =>
      (hmoved q).trans (hy _)
    constructor
    · intro hopen q inner hq hinner
      cases q with
      | nil => exact absurd rfl hq
      | cons first q =>
        have hfirst : first = sole := by
          apply hsole.2
          rw [List.append_assoc, ← List.append_assoc, hy]
          have hsome := FileTree.isSome_above (Option.isSome_iff_exists.mpr ⟨inner, hinner⟩)
            (show dir ++ [expand] ++ [first] <+: dir ++ [expand] ++ first :: q from
              ⟨q, by rw [List.append_assoc, List.singleton_append]⟩)
          exact Option.isSome_iff_ne_none.mp hsome
        subst hfirst
        exact hopen q inner ((hmoved' q).trans hinner)
    · intro hopen q inner hinner
      rw [hmoved'] at hinner
      exact hopen (sole :: q) inner (by simp) hinner
  · constructor
    · intro hopen q inner hq hinner
      cases q with
      | nil => exact absurd rfl hq
      | cons first q =>
        exact hopen (first :: q) inner ((hmoved first q).trans ((hy _).trans hinner))
    · intro hopen q inner hinner
      cases q with
      | nil =>
        rw [List.append_nil, hroot] at hinner
        rw [← Option.some.inj hinner]
        exact (newDir_open humask).openTo
      | cons first q =>
        rw [hmoved, hy] at hinner
        exact hopen (first :: q) inner (by simp) hinner

theorem Imported.target_isDir
    (h : Imported cred now codec s v parent dir staging expand name contents U u x y) :
    v.isDir (dir ++ [name]) = true := by
  rcases h.installed.target with ⟨sole, hsole, hmoved⟩ | ⟨-, hnew, -⟩
  · have hmoved' := hmoved []
    rw [List.append_nil] at hmoved'
    rw [FileTree.isDir, hmoved']
    exact hsole.1
  · exact FileTree.isDir_iff.mpr ⟨_, hnew, rfl⟩

/-- The path of the target's directory still leads there. -/
theorem Imported.leads
    (h : Imported cred now codec s v parent dir staging expand name contents U u x y)
    (hroot : .rootDir ∉ parent.tail) (hdistinct : expand ≠ staging) {node : Node}
    (hnode : u.get? (dir ++ [staging]) = some node) (hdir : node.isDir = false)
    (hlink : node.isLink = false) :
    FileTree.Leads cred v parent dir [name, expand, staging] := by
  have hlead : FileTree.Leads cred y parent dir [name, expand, staging] := by
    by_cases heq : staging = name
    · exact h.lead.mono (by simp [heq])
    · have hy : y.get? (dir ++ [staging]) = some node := by
        rw [h.cleared, if_neg (entry_apart dir (Ne.symm heq)),
          h.frame _ (entry_apart dir hdistinct), hnode]
      exact (h.lead.beside hroot hy hdir hlink).mono (by simp)
  exact hlead.of_same fun q hq => h.installed.same q hq

/-- **Importing an archive.**  What it has brought is open to the agent exactly when the
    modes of its entries say so. -/
theorem imported_open_iff (humask : cred.umask = 0o022) (hother : cred.uid ≠ agent)
    (hroot : .rootDir ∉ parent.tail) (hdistinct : expand ≠ staging)
    (hstaged : Staged cred now t s parent dir staging bytes)
    (h : Imported cred now codec s v parent dir staging expand name contents U u x y) :
    OpenAfter cred agent (parent ++ [.normal name]) t v ↔ OpenArchive (codec.unpack bytes) := by
  obtain ⟨-, hbytes, hplace⟩ := imported_bytes hstaged h
  have hmarked : Marked cred x (dir ++ [expand]) (archiveModes (codec.unpack contents.data)) := by
    apply extractItems_marked humask Layout.closed_bare h.began.shows _ h.extracted
    constructor
    · intro q node hq hnode
      cases q with
      | nil => exact absurd rfl hq
      | cons first q =>
        rw [h.began.bare] at hnode
        cases hnode
    · intro q hq hnone
      rfl
  have hlead := h.leads hroot hdistinct (hplace.trans hstaged.file) rfl rfl
  have hiff := marked_open_iff hother h.layout h.shows hmarked
  rw [← h.target_open_iff humask, hbytes] at hiff
  obtain ⟨placed, hplaced, hplacedDir⟩ := FileTree.isDir_iff.mp h.target_isDir
  have hfind :=
    find_of_walk (hlead.child hplaced (by rw [Node.isLink, Node.isDir_iff.mp hplacedDir])) hplaced
  rw [← hiff]
  constructor
  · intro hopen
    obtain ⟨p, node, hfind', hbelow⟩ := hopen.target
    obtain ⟨rfl, -⟩ := Prod.mk.inj (Except.ok.inj (hfind.symm.trans hfind'))
    exact hbelow
  · intro hbelow
    refine ⟨⟨dir ++ [name], placed, hfind, hbelow⟩, ?_⟩
    intro q node hnone hnode
    by_cases htarget : dir ++ [name] <+: q
    · obtain ⟨rest, rfl⟩ := htarget
      exact hbelow rest node hnode
    · by_cases hexpand : dir ++ [expand] <+: q
      · obtain ⟨rest, rfl⟩ := hexpand
        rw [h.installed.extraction] at hnode
        cases hnode
      · by_cases hstaging : dir ++ [staging] <+: q
        · obtain ⟨rest, rfl⟩ := hstaging
          rw [h.installed.removed fun heq => htarget (heq ▸ List.prefix_append _ _)] at hnode
          cases hnode
        · have hold : u.get? q = some node := by
            rw [← h.frame q hexpand, ← hnode, h.installed.same q, h.cleared, if_neg htarget]
            simp only [List.mem_cons, List.not_mem_nil, or_false, forall_eq_or_imp, forall_eq]
            exact ⟨htarget, hexpand, hstaging⟩
          apply OpenToOthers.openTo
          rcases h.began.old q node hold with hs | rfl
          · exact (hstaged.made q node (fun heq => hstaging (heq ▸ List.prefix_rfl)) hnone hs).2
          · exact newDir_open humask

end Archive

/-! ### The calls -/

/-- A file that is not there is not removed, nor is a directory. -/
theorem unlink_nothing {names : List String} (hlead : FileTree.Leads cred t parent dir names)
    (h : ∀ node, t.get? (dir ++ [staging]) = some node → node.isDir = true) :
    (FileTree.exec cred now (.unlink (parent ++ [.normal staging])) t).2 = t := by
  simp only [FileTree.exec]
  rcases FileTree.unlink_cases cred t (parent ++ [.normal staging]) with
    ⟨e, he⟩ | ⟨d, n, node, hslot, hnode, hkind, -⟩
  · rw [he]
  · obtain ⟨rfl, rfl⟩ := Prod.mk.inj (Except.ok.inj (hslot.symm.trans (hlead.slot staging)))
    rw [h node hnode] at hkind
    cases hkind

/-- **An import.** -/
theorem importObject_open_iff (humask : cred.umask = 0o022) (hother : cred.uid ≠ cfg.agentUid)
    (hfresh : ∀ q, t.get? (q ++ [transferName "import" clock.staging]) = none)
    (hresolve : resolvePath cfg.root header.workspaceId header.targetPath =
      .ok (canonical (place ++ [name])))
    {response : ImportResponse}
    (hrun : (importObject cfg clock header rest).run (FileTree.exec cred now) t =
      (some (.ok response), s)) :
    OpenAfter cred cfg.agentUid (canonical (place ++ [name])) t s ↔
      (Ingress.object clock header rest).Readable cfg.codec := by
  rw [importObject_eq] at hrun
  obtain ⟨received, u, hreceive, hrun⟩ := Prog.run_bind_eq_ok _ hrun
  obtain ⟨dir, bytes, hpayload, hreceived, hstaged⟩ :=
    receiveObject_staged humask hfresh hresolve hreceive
  obtain ⟨response', v, hinstall, hrun⟩ := Prog.run_bind_eq_ok _ hrun
  obtain ⟨_, w, hunlink, hdone⟩ := Prog.run_bind_eq_ok _ hrun
  obtain rfl : w = s := congrArg Prod.snd hdone
  have hpath : ∀ suffix nanos, buildWorkspaceTransferTempPath received.1 suffix nanos =
      canonical place ++ [.normal (transferName suffix nanos)] := by
    intro suffix nanos
    rw [hreceived, buildWorkspaceTransferTempPath, parentOrDot_canonical]
  -- the last call finds nothing to remove
  have hsame : ∀ {names}, FileTree.Leads cred v (canonical place) dir names →
      (∀ node, v.get? (dir ++ [transferName "import" clock.staging]) = some node →
        node.isDir = true) →
      w = v := by
    intro names hlead hnone
    rw [run_ignore_sys_ok hunlink, hpath]
    exact unlink_nothing hlead hnone
  rw [hpath, hreceived, installObject] at hinstall
  split at hinstall
  · rename_i hencoding
    obtain ⟨_, v', hreplace, hdone⟩ := Prog.run_bind_eq_ok _ hinstall
    obtain rfl : v' = v := congrArg Prod.snd hdone
    have hphase := Prog.run_mapError_eq_ok _ hreplace
    rw [canonical_concat] at hphase
    obtain ⟨u', hadds, hplaced⟩ := replaceFile_placed hstaged.lead hstaged.file rfl hphase
    have hopen : OpenAfter cred cfg.agentUid (canonical place ++ [.normal name]) t _ :=
      Placed.openAfter humask (hstaged.adds humask hadds) hplaced
    rw [hsame hplaced.lead fun node hnode => by
      have hgone := hplaced.gone []
      rw [List.append_nil, hnode] at hgone
      cases hgone]
    rw [canonical_concat]
    refine iff_of_true hopen fun htar => ?_
    rw [hencoding] at htar
    cases htar
  · rename_i hencoding
    obtain ⟨_, v', hreplace, hdone⟩ := Prog.run_bind_eq_ok _ hinstall
    obtain rfl : v' = v := congrArg Prod.snd hdone
    obtain ⟨_, u', hmade, himport⟩ := Prog.run_bind_eq_ok _ (Prog.run_mapError_eq_ok _ hreplace)
    rw [parentOrDot_canonical] at hmade
    have hadds : ∀ q, u'.get? q = u.get? q ∨ u.get? q = none ∧
        u'.get? q = some ⟨.dir, FileTree.newAttrs cred now 0o777⟩ := by
      intro q
      have h := keeps_adds cred now (makes_createDirAll (canonical place)) u q
      rwa [Prog.run_mapError_eq_ok _ hmade] at h
    have hstaged' := hstaged.adds humask hadds
    have hdistinct := (transferName_ne clock.staging clock.expand).symm
    rw [buildWorkspaceTransferTempPath, parentOrDot_canonical, canonical_concat] at himport
    obtain ⟨d, contents, U, x, y, z, himported⟩ := extractArchiveAndReplace_ok hdistinct himport
    obtain ⟨rfl, -, hplace⟩ := imported_bytes hstaged' himported
    have hlead := himported.leads (root_not_mem_tail_canonical place) hdistinct
      (hplace.trans hstaged'.file) rfl rfl
    have hnothing : w = v' := by
      refine hsame hlead fun node hnode => ?_
      by_cases heq : transferName "import" clock.staging = name
      · rw [heq] at hnode
        have hdir := himported.target_isDir
        rwa [FileTree.isDir, hnode, Option.any_some] at hdir
      · have hgone := himported.installed.removed heq []
        rw [List.append_nil, hnode] at hgone
        cases hgone
    rw [hnothing, canonical_concat,
      imported_open_iff humask hother (root_not_mem_tail_canonical place) hdistinct
      hstaged' himported]
    constructor
    · intro hopen _ bytes' hbytes'
      obtain rfl := Option.some.inj (hpayload.symm.trans hbytes')
      exact hopen
    · intro hopen
      exact hopen hencoding bytes hpayload
  · obtain ⟨_, v', -, hthrow⟩ := Prog.run_bind_eq_ok _ hinstall
    cases congrArg Prod.fst hthrow

/-! ### Fetching -/

theorem look_file {p : Pos} {data : List UInt8} {holes : Bool} {attrs : Attrs}
    (h : t.get? p = some ⟨.file data holes, attrs⟩) : t.look cred p = .other := by
  simp [FileTree.look, h, Node.view]

/-- A path leads to the file that was created for it. -/
theorem walk_of_create {path : PathBuf}
    (h : FileTree.exec cred now (.create path) t = (.ok handle, s)) :
    walk (s.look cred) maxLinks [] path = .ok handle ∧
      (∀ q, q ≠ handle → s.get? q = t.get? q) := by
  rcases FileTree.create_cases cred now t path with
    ⟨e, he⟩ | ⟨dir, name, hdir, hfree, hname, htarget, hadd⟩
      | ⟨p, data, holes, attrs, htarget, hnode, hset⟩
  · rw [FileTree.exec, he] at h
    cases h
  · rw [FileTree.exec, hadd] at h
    obtain ⟨hhandle, hs⟩ := Prod.mk.inj h
    obtain rfl := Except.ok.inj hhandle
    have hget : ∀ q, s.get? q = if q = dir ++ [name] then
        some ⟨.file [] false, FileTree.newAttrs cred now 0o666⟩ else t.get? q := by
      intro q
      rw [← hs, FileTree.get?_add]
    refine ⟨?_, fun q hq => by rw [hget, if_neg hq]⟩
    rw [walk_eq_ok]
    refine (resolve_added (FileTree.look_eq_absent.mpr hfree) ?_ ?_ htarget).1
    · exact look_file (by rw [hget, if_pos rfl])
    · intro q hq
      exact FileTree.look_congr (by rw [hget, if_neg hq])
  · rw [FileTree.exec, hset] at h
    obtain ⟨hhandle, hs⟩ := Prod.mk.inj h
    obtain rfl := Except.ok.inj hhandle
    have hsame : ∀ q, q ≠ p → s.get? q = t.get? q := by
      intro q hq
      rw [← hs, FileTree.get?_setData, if_neg hq]
    refine ⟨?_, hsame⟩
    have hlook : s.look cred = t.look cred := by
      funext q
      by_cases hq : q = p
      · have hfile : s.get? p = some ⟨.file [] false, { attrs with mtime := now }⟩ := by
          rw [← hs, FileTree.get?_setData, if_pos rfl, hnode]
          rfl
        rw [hq, look_file hfile, look_file hnode]
      · exact FileTree.look_congr (hsame q hq)
    rw [hlook, walk_eq_ok]
    exact htarget

/-- A fetched body is in a file, and the path of the target leads to it. -/
theorem fetchToFile_file (humask : cred.umask = 0o022) {u : FileTree} {config : FetchConfig}
    {reply : Except Error HttpResponse} {outcome : FetchOutcome} (hnew : NewDirs t s)
    (hrun : (fetchToFile config reply (parent ++ [.normal name])).run (FileTree.exec cred now) s =
      (some (.ok outcome), u)) :
    ∃ handle data attrs, walk (u.look cred) maxLinks [] (parent ++ [.normal name]) = .ok handle ∧
      u.get? handle = some ⟨.file data false, attrs⟩ ∧
      ∀ q node, q ≠ handle → t.get? q = none → u.get? q = some node →
        node.isDir = true ∧ OpenToOthers node := by
  obtain ⟨resp, s₁, hreply, hrest⟩ := Prog.run_bind_eq_ok _ hrun
  obtain rfl : s₁ = s := by
    split at hreply
    · cases congrArg Prod.fst hreply
    · exact (congrArg Prod.snd hreply).symm
  split at hrest
  · cases congrArg Prod.fst hrest
  rw [parent_concat] at hrest
  obtain ⟨_, s₂, hmake, hrest⟩ := Prog.run_bind_eq_ok _ hrest
  obtain ⟨_, s₃, hunlink, hrest⟩ := Prog.run_bind_eq_ok _ hrest
  obtain ⟨handle, s₄, hcreate, hrest⟩ := Prog.run_bind_eq_ok _ hrest
  obtain ⟨count, s₅, hwrite, hdone⟩ := Prog.run_bind_eq_ok _ hrest
  obtain rfl : s₅ = u := congrArg Prod.snd hdone
  have hmade : NewDirs t s₂ := by
    apply hnew.adds now humask
    intro q
    have h := keeps_adds cred now (makes_createDirAll parent) s₁ q
    rwa [Prog.run_mapError_eq_ok _ hmake] at h
  -- a removal makes nothing new
  have hremoved : NewDirs t s₃ := by
    rw [run_ignore_sys_ok hunlink]
    simp only [FileTree.exec]
    rcases FileTree.unlink_cases cred s₂ (parent ++ [.normal name]) with
      ⟨e, he⟩ | ⟨dir, last, node, -, -, -, hremove⟩
    · rwa [he]
    · rw [hremove]
      intro q node hnone hnode
      rw [FileTree.get?_removeAt] at hnode
      split at hnode
      · cases hnode
      · exact hmade q node hnone hnode
  have hexec := exec_of_run_io_ok hcreate
  obtain ⟨hwalk, hframe⟩ := walk_of_create hexec
  obtain ⟨attrs, hempty, hmtime⟩ := node_of_create cred hexec
  obtain ⟨result, s', hrun', -, hget⟩ : ∃ result s',
      (writeBody config.maxBodyBytes handle resp.body 0).run
      (FileTree.exec cred now) s₄ = (some result, s') ∧ _ ∧ _ := run_writeBody cred hmtime hempty
  obtain rfl : s₅ = s' := congrArg Prod.snd (hwrite.symm.trans hrun')
  have hfile := hget handle
  rw [if_pos rfl] at hfile
  refine ⟨handle, _, attrs, ?_, hfile, ?_⟩
  · have hlook : s₅.look cred = s₄.look cred := by
      funext q
      by_cases hq : q = handle
      · rw [hq, look_file hfile, look_file hempty]
      · exact FileTree.look_congr (by rw [hget, if_neg hq])
    rwa [hlook]
  · intro q node hq hnone hnode
    rw [hget, if_neg hq, hframe q hq] at hnode
    exact hremoved q node hnone hnode

/-- **A fetch.** -/
theorem doFetch_open (humask : cred.umask = 0o022) {net : Network} {req : FetchRequest}
    (hresolve : resolvePath cfg.root req.workspaceId req.targetPath =
      .ok (canonical (place ++ [name])))
    {response : FetchResponse} (hrun : (doFetch cfg net req).run (FileTree.exec cred now) t =
      (some (.ok response), s)) :
    OpenAfter cred agent (canonical (place ++ [name])) t s := by
  obtain ⟨_, t₁, hhome, hrun⟩ := Prog.run_bind_eq_ok _ (Prog.run_mapError_eq_ok _ hrun)
  obtain ⟨target, t₂, hpath, hrun⟩ := Prog.run_bind_eq_ok _ hrun
  rw [hresolve] at hpath
  obtain ⟨htarget, rfl⟩ := Prod.mk.inj hpath
  obtain rfl := Except.ok.inj (Option.some.inj htarget)
  obtain ⟨outcome, u, hfetch, hrun⟩ := Prog.run_bind_eq_ok _ hrun
  obtain ⟨_, v, hchmod, hdone⟩ := Prog.run_bind_eq_ok _ hrun
  obtain rfl : v = s := congrArg Prod.snd hdone
  have hnew : NewDirs t t₁ := by
    have hkeeps := newDirs_smooths cred now humask
      (smooths_ensureHome cfg.root req.workspaceId cfg.agentUid cfg.agentGid) t
    rwa [hhome] at hkeeps
  rw [canonical_concat] at hfetch hchmod
  obtain ⟨handle, data, attrs, hwalk, hfile, hmade⟩ := fetchToFile_file humask hnew hfetch
  have hexec : u.chmod cred (canonical place ++ [.normal name])
      (fun attrs => { attrs with mode := 0o644 }) =
      (.ok (), v) := exec_of_run_io_ok hchmod
  obtain rfl : v = u.setAttrs handle fun attrs => { attrs with mode := 0o644 } := by
    rcases FileTree.chmod_cases cred u (canonical place ++ [.normal name])
      (fun attrs => { attrs with mode := 0o644 }) with ⟨e, he⟩ | ⟨p, node, hfind, hset⟩
    · rw [he] at hexec
      cases hexec
    · obtain rfl := Except.ok.inj (hwalk.symm.trans (FileTree.find_eq_ok hfind).1)
      rw [hset] at hexec
      exact (congrArg Prod.snd hexec).symm
  have hplace : (u.setAttrs handle fun attrs => { attrs with mode := 0o644 }).get? handle =
      some ⟨.file data false, { attrs with mode := 0o644 }⟩ := by
    rw [FileTree.get?_setAttrs, if_pos rfl, hfile]
    rfl
  have hopen : OpenToOthers ⟨.file data false, { attrs with mode := 0o644 }⟩ := by
    simp only [OpenToOthers]
    decide
  have hlook : (u.setAttrs handle fun attrs => { attrs with mode := 0o644 }).look cred =
    u.look cred := by
    funext q
    by_cases hq : q = handle
    · rw [hq, look_file hplace, look_file hfile]
    · exact FileTree.look_congr (by rw [FileTree.get?_setAttrs, if_neg hq])
  rw [canonical_concat]
  constructor
  · refine ⟨handle, _, find_of_walk (by rwa [hlook]) hplace, ?_⟩
    intro q inner hinner
    cases q with
    | nil =>
      rw [List.append_nil, hplace] at hinner
      rw [← Option.some.inj hinner]
      exact hopen.openTo
    | cons first q =>
      rw [FileTree.get?_append_eq_none hplace rfl] at hinner
      cases hinner
  · intro q node hnone hnode
    by_cases hq : q = handle
    · rw [hq, hplace] at hnode
      rw [← Option.some.inj hnode]
      exact hopen.openTo
    · rw [FileTree.get?_setAttrs, if_neg hq] at hnode
      exact (hmade q node hq hnone hnode).2.openTo

/-- **What comes in can be read by the agent** exactly when the entries of an archive say
    so: after every call that succeeds, of a service with the usual umask. -/
theorem ingress_open_iff (hroot : RootPath cfg.root) (humask : cred.umask = 0o022)
    (hother : cred.uid ≠ cfg.agentUid) {call : Ingress} (hfresh : call.Fresh t)
    (hrun : (call.run cfg).run (FileTree.exec cred now) t = (some (.ok ()), s)) :
    ∃ target, call.target cfg.root = .ok target ∧
      (OpenAfter cred cfg.agentUid target t s ↔ call.Readable cfg.codec) := by
  -- a target is an entry of a directory, be it only the home
  have hentry : ∀ {workspaceId path target}, resolvePath cfg.root workspaceId path = .ok target →
      ∃ place name, target = canonical (place ++ [name]) := by
    intro workspaceId path target h
    obtain ⟨-, q, rfl, hhome, -⟩ := resolvePath_eq_ok hroot h
    rcases List.eq_nil_or_concat' q with rfl | ⟨place, name, rfl⟩
    · have hlength := hhome.length_le
      simp [homePos] at hlength
    · exact ⟨place, name, rfl⟩
  cases call with
  | fetch net req =>
    obtain ⟨response, u, hfetch, hdone⟩ := Prog.run_bind_eq_ok _ hrun
    obtain rfl : u = s := congrArg Prod.snd hdone
    rcases hresolve : resolvePath cfg.root req.workspaceId req.targetPath with e | target
    · obtain ⟨_, t₁, -, hrest⟩ := Prog.run_bind_eq_ok _ (Prog.run_mapError_eq_ok _ hfetch)
      obtain ⟨_, t₂, hpath, -⟩ := Prog.run_bind_eq_ok _ hrest
      rw [hresolve] at hpath
      cases congrArg Prod.fst hpath
    · obtain ⟨place, name, rfl⟩ := hentry hresolve
      exact ⟨_, hresolve, iff_of_true (doFetch_open humask hresolve hfetch) trivial⟩
  | object clock header rest =>
    obtain ⟨response, u, himport, hdone⟩ := Prog.run_bind_eq_ok _ hrun
    obtain rfl : u = s := congrArg Prod.snd hdone
    rcases hresolve : resolvePath cfg.root header.workspaceId header.targetPath with e | target
    · obtain ⟨_, t₁, -, hrest⟩ := Prog.run_bind_eq_ok _ himport
      obtain ⟨_, t₂, hpath, -⟩ := Prog.run_bind_eq_ok _ hrest
      rw [hresolve] at hpath
      cases congrArg Prod.fst hpath
    · obtain ⟨place, name, rfl⟩ := hentry hresolve
      exact ⟨_, hresolve, importObject_open_iff humask hother hfresh hresolve himport⟩

end

/-- A service whose archives hold one file, of which only the owner may read. -/
def privateArchive : ServiceConfig where
  root := "/srv"
  agentUid := 1000
  agentGid := 1000
  fetch := ⟨30, 1048576, false⟩
  oss := ⟨"", 8388608, 8388608, 600, ⟨none, .ok "upload", fun _ => none, none, none⟩⟩
  codec := ⟨fun _ => [], fun _ => [.entry ⟨"key", .regular, true, 0o600, 0, 0, 1, [107]⟩ true]⟩
  sha256 := fun _ => ""

/-- An archive is imported to `in`. -/
def privateImport : Ingress := .object ⟨0, 0⟩ ⟨"w1", "in", 2, ""⟩ [.ok (.chunk [31])]

/-- The import succeeds, and the file that it installs is closed to the agent. -/
theorem private_file_not_open : ∃ s,
    (privateImport.run privateArchive).run (FileTree.exec rootUser 7) sampleHost =
    (some (.ok ()), s) ∧
    s.get? ["srv", "w1", "home", "in", "key"] = some ⟨.file [107] false, ⟨0o600, 0, 0, 1⟩⟩ ∧
    ¬ OpenAfter rootUser privateArchive.agentUid
      (canonical ["srv", "w1", "home", "in"]) sampleHost s := by
  have hok : ((privateImport.run privateArchive).run (FileTree.exec rootUser 7) sampleHost).1 =
      some (.ok ()) := by decide
  have hnode : ((privateImport.run privateArchive).run (FileTree.exec rootUser 7) sampleHost).2.get?
      ["srv", "w1", "home", "in", "key"] = some ⟨.file [107] false, ⟨0o600, 0, 0, 1⟩⟩ := by decide
  refine ⟨_, Prod.ext hok rfl, hnode, fun hopen => ?_⟩
  have hkey := hopen.made ["srv", "w1", "home", "in", "key"] _ (by decide) hnode
  rcases hkey with ⟨howner, -⟩ | hothers
  · cases howner
  · simp only [OpenToOthers] at hothers
    cases hothers

theorem ingress_open_iff_private : ∃ s,
    (privateImport.run privateArchive).run (FileTree.exec rootUser 7) sampleHost =
    (some (.ok ()), s) ∧
    ∃ target, privateImport.target "/srv" = .ok target ∧
      (OpenAfter rootUser 1000 target sampleHost s ↔
        privateImport.Readable privateArchive.codec) := by
  have hroot : RootPath privateArchive.root := ⟨by decide, by decide⟩
  have hok : ((privateImport.run privateArchive).run (FileTree.exec rootUser 7) sampleHost).1 =
      some (.ok ()) := by decide
  obtain ⟨s, hrun⟩ : ∃ s, (privateImport.run privateArchive).run (FileTree.exec rootUser 7)
      sampleHost =
      (some (.ok ()), s) := ⟨_, Prod.ext hok rfl⟩
  have hfresh : privateImport.Fresh sampleHost := by
    intro q
    by_contra hsome
    have hmem : q ++ [transferName "import" 0] ∈ sampleHost.support :=
      (sampleHost.mem_support _).mpr (Option.isSome_iff_ne_none.mpr hsome)
    have hnames : ∀ p ∈ sampleHost.support, p.getLast? ≠ some (transferName "import" 0) := by decide
    exact hnames _ hmem List.getLast?_concat
  exact ⟨s, hrun, ingress_open_iff hroot rfl (by decide) hfresh hrun⟩

end Scriptorium
