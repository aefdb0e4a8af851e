import Scriptorium.Homes
import Scriptorium.Transitions

/-!
# Homes in any run

Requests, removals of trees and agents go on side by side, and agents make links.  A
transfer that is aimed at a home itself, or that a link leads there, can put a file in its
place, and no execution begins any more (`transfer_takes_home`).  As long as none does,
every home is missing or a directory at every moment (`homes_stay_directories`).
-/

namespace Posix

namespace FileTree

variable {cred : Cred} {now : Nat} {t : FileTree}

theorem isDir_withData (node : Node) (data : List UInt8) : (node.withData now data).isDir =
    node.isDir := by
  unfold Node.withData
  split
  · rename_i hkind
    simp only [Node.isDir, hkind]
  · rfl

/-- What is no directory was none before, or has been made at the end of a path, or moved. -/
theorem file_of_exec {c : FsCall} {q : Pos} {node : Node}
    (hnode : (exec cred now c t).2.get? q = some node) (hfile : node.isDir = false) :
    (∃ old, t.get? q = some old ∧ old.isDir = false) ∨
      (∃ path dir name, c = .create path ∧ t.target cred path = .ok (.missing dir name) ∧
        q = dir ++ [name]) ∨
      (∃ path dir name, c = .createNew path ∧ t.slot cred path = .ok (dir, name) ∧
        q = dir ++ [name]) ∨
      ∃ src dst srcDir srcName dir name rest old, c = .rename src dst ∧
        t.slot cred src = .ok (srcDir, srcName) ∧ t.slot cred dst = .ok (dir, name) ∧
        q = dir ++ [name] ++ rest ∧ t.get? (srcDir ++ [srcName] ++ rest) = some old ∧
          old.isDir = false := by
  have hsame : t.get? q = some node → ∃ old, t.get? q = some old ∧ old.isDir = false :=
    fun h => ⟨node, h, hfile⟩
  have hattrs : ∀ {p f}, (t.setAttrs p f).get? q = some node → ∃ old, t.get? q = some old ∧
      old.isDir = false := by
    intro p f h
    rw [get?_setAttrs] at h
    split at h
    · obtain ⟨old, hold, rfl⟩ := Option.map_eq_some_iff.mp h
      exact ⟨old, hold, hfile⟩
    · exact hsame h
  have hdata : ∀ {p data}, (t.setData now p data).get? q = some node →
      ∃ old, t.get? q = some old ∧ old.isDir = false := by
    intro p data h
    rw [get?_setData] at h
    split at h
    · obtain ⟨old, hold, rfl⟩ := Option.map_eq_some_iff.mp h
      rw [isDir_withData] at hfile
      exact ⟨old, hold, hfile⟩
    · exact hsame h
  have hremove : ∀ {dir name}, (t.removeAt dir name).get? q = some node →
      ∃ old, t.get? q = some old ∧ old.isDir = false := by
    intro dir name h
    rw [get?_removeAt] at h
    split at h
    · cases h
    · exact hsame h
  cases c with
  | fileType path => exact Or.inl (hsame hnode)
  | stat path => exact Or.inl (hsame hnode)
  | lstat path => exact Or.inl (hsame hnode)
  | readDir path => exact Or.inl (hsame hnode)
  | read path => exact Or.inl (hsame hnode)
  | canonicalize path => exact Or.inl (hsame hnode)
  | mkdir path =>
    simp only [exec] at hnode
    rcases mkdir_cases cred now t path with ⟨e, he⟩ | ⟨dir, name, hdir, hfree, hname, -, hok⟩
    · rw [he] at hnode
      exact Or.inl (hsame hnode)
    · rw [hok, get?_add] at hnode
      split at hnode
      · rw [← Option.some.inj hnode] at hfile
        cases hfile
      · exact Or.inl (hsame hnode)
  | create path =>
    simp only [exec] at hnode
    rcases create_cases cred now t path with
      ⟨e, he⟩ | ⟨dir, name, hdir, hfree, hname, htarget, hok⟩ | ⟨p, data, holes, attrs, -, -, hset⟩
    · rw [he] at hnode
      exact Or.inl (hsame hnode)
    · rw [hok, get?_add] at hnode
      split at hnode
      · exact Or.inr (Or.inl ⟨path, dir, name, rfl, htarget, ‹_›⟩)
      · exact Or.inl (hsame hnode)
    · rw [hset] at hnode
      exact Or.inl (hdata hnode)
  | createNew path =>
    simp only [exec] at hnode
    rcases createNew_cases cred now t path with
      ⟨e, he⟩ | ⟨dir, name, hdir, hfree, hname, hslot, hok⟩
    · rw [he] at hnode
      exact Or.inl (hsame hnode)
    · rw [hok, get?_add] at hnode
      split at hnode
      · exact Or.inr (Or.inr (Or.inl ⟨path, dir, name, rfl, hslot, ‹_›⟩))
      · exact Or.inl (hsame hnode)
  | write handle data =>
    simp only [exec] at hnode
    rcases write_cases now t handle data with he | ⟨old, holes, attrs, -, hset⟩
    · rw [he] at hnode
      exact Or.inl (hsame hnode)
    · rw [hset] at hnode
      exact Or.inl (hdata hnode)
  | setMtime handle mtime =>
    simp only [exec] at hnode
    exact Or.inl (hattrs hnode)
  | fchmod handle mode =>
    simp only [exec] at hnode
    rcases fchmod_cases cred t handle mode with ⟨r, he⟩ | hset
    · rw [he] at hnode
      exact Or.inl (hsame hnode)
    · rw [hset] at hnode
      dsimp only at hnode
      exact Or.inl (hattrs hnode)
  | chmod path mode =>
    simp only [exec] at hnode
    rcases chmod_cases cred t path (fun attrs => { attrs with mode }) with ⟨e, he⟩ | ⟨p, _, -, hset⟩
    · rw [he] at hnode
      exact Or.inl (hsame hnode)
    · rw [hset] at hnode
      dsimp only at hnode
      exact Or.inl (hattrs hnode)
  | chown path uid gid =>
    simp only [exec] at hnode
    rcases chown_cases cred t path uid gid with ⟨e, he⟩ | ⟨p, _, -, hset⟩
    · rw [he] at hnode
      exact Or.inl (hsame hnode)
    · rw [hset] at hnode
      dsimp only at hnode
      exact Or.inl (hattrs hnode)
  | unlink path =>
    simp only [exec] at hnode
    rcases unlink_cases cred t path with ⟨e, he⟩ | ⟨dir, name, _, -, -, -, hrem⟩
    · rw [he] at hnode
      exact Or.inl (hsame hnode)
    · rw [hrem] at hnode
      exact Or.inl (hremove hnode)
  | removeDirAll path =>
    simp only [exec] at hnode
    rcases removeDirAll_cases cred t path with ⟨e, he⟩ | ⟨dir, name, _, -, -, hrem⟩
    · rw [he] at hnode
      exact Or.inl (hsame hnode)
    · rw [hrem] at hnode
      exact Or.inl (hremove hnode)
  | rename src dst =>
    simp only [exec] at hnode
    rcases rename_cases cred t src dst with
      ⟨e, he⟩ | ⟨dir, name, -, -, he⟩ |
      ⟨srcDir, srcName, dir, name, _, hsrc, hdir, hname, hin, hout, hs, hd, -, -, hok⟩
    · rw [he] at hnode
      exact Or.inl (hsame hnode)
    · rw [he] at hnode
      exact Or.inl (hsame hnode)
    · rw [hok, get?_replaceAt] at hnode
      split at hnode
      · rename_i hpre
        obtain ⟨rest, rfl⟩ := hpre
        have hdrop : (dir ++ [name] ++ rest).drop (dir.length + 1) = rest := by simp
        rw [hdrop] at hnode
        exact Or.inr
          (Or.inr (Or.inr ⟨src, dst, srcDir, srcName, dir, name, rest, node, rfl, hs, hd, rfl,
          hnode, hfile⟩))
      · split at hnode
        · cases hnode
        · exact Or.inl (hsame hnode)

end FileTree

end Posix

namespace Scriptorium

open Posix Effects Transitions

variable {cfg : ServiceConfig} {root : String} {cred : Cred} {now : Nat} {t : FileTree}

/-! ### Calls that put a file in the place of a home -/

/-- The call puts something that is no directory at a home, or above one. -/
def Misplaces (root : String) (cred : Cred) (t : FileTree) : FsCall → Prop
  | .create path => ∃ dir name workspaceId, t.target cred path = .ok (.missing dir name) ∧
      ValidId workspaceId ∧ dir ++ [name] <+: homePos root workspaceId
  | .createNew path => ∃ dir name workspaceId, t.slot cred path = .ok (dir, name) ∧
      ValidId workspaceId ∧ dir ++ [name] <+: homePos root workspaceId
  | .rename src dst => ∃ srcDir srcName dir name rest node workspaceId,
      t.slot cred src = .ok (srcDir, srcName) ∧ t.slot cred dst = .ok (dir, name) ∧
      t.get? (srcDir ++ [srcName] ++ rest) = some node ∧ node.isDir = false ∧
      ValidId workspaceId ∧ dir ++ [name] ++ rest <+: homePos root workspaceId
  | _ => False

/-- Other calls leave the way to a home as it was: missing, or directories. -/
theorem passable_of_not_misplaces {c : FsCall} (hc : ¬ Misplaces root cred t c)
    {workspaceId : String} (hid : ValidId workspaceId) (h : Passable t (homePos root workspaceId)) :
    Passable (FileTree.exec cred now c t).2 (homePos root workspaceId) := by
  intro q hq
  rcases hnode : (FileTree.exec cred now c t).2.get? q with _ | node
  · exact Or.inl rfl
  right
  refine FileTree.isDir_iff.mpr ⟨node, hnode, ?_⟩
  by_contra hfile
  rw [Bool.not_eq_true] at hfile
  rcases FileTree.file_of_exec hnode hfile with
    ⟨old, hold, hold'⟩ | ⟨path, dir, name, rfl, htarget, rfl⟩ |
    ⟨path, dir, name, rfl, hslot, rfl⟩ |
    ⟨src, dst, srcDir, srcName, dir, name, rest, old, rfl, hs, hd, rfl, hold, hold'⟩
  · rcases h q hq with hnone | hdir
    · rw [hnone] at hold
      cases hold
    · rw [FileTree.isDir, hold, Option.any_some, hold'] at hdir
      cases hdir
  · exact hc ⟨dir, name, workspaceId, htarget, hid, hq⟩
  · exact hc ⟨dir, name, workspaceId, hslot, hid, hq⟩
  · exact hc ⟨srcDir, srcName, dir, name, rest, old, workspaceId, hs, hd, hold, hold', hid, hq⟩

/-! ### Operations -/

/-- The operations on workspaces; of an execution, what the service does before it hands
    the home to a container. -/
inductive Operation where
  | files (req : FileRequest)
  | exportObject (fuel : Nat) (req : ExportRequest)
  | upload (fuel nanos : Nat) (req : UploadRequest)

def Operation.serve (cfg : ServiceConfig) : Operation → Fs Status Unit
  | .files req => do
    let _ ← req.serve cfg
    pure ()
  | .exportObject fuel req => do
    let _ ← exportWorkspaceObject cfg fuel req
    pure ()
  | .upload fuel nanos req => do
    let _ ← doUpload cfg fuel nanos req
    pure ()

/-- Objects are transferred into a workspace. -/
def Operation.Transfers : Operation → Prop
  | .files (.fetch _ _) | .files (.importObject _ _) => True
  | _ => False

/-- The calls that neither make a file nor move anything. -/
def Harmless : FsCall → Prop
  | .create _ | .createNew _ | .rename _ _ => False
  | _ => True

theorem Harmless.not_misplaces {c : FsCall} (h : Harmless c) : ¬ Misplaces root cred t c := by
  cases c with
  | create | createNew | rename => exact h.elim
  | _ => exact id

def harmlessReading : Reading Harmless where
  reads _ := True
  child _ _ _ := trivial
  asks _ _ := ⟨trivial, trivial, trivial, trivial, trivial⟩

section Upload

variable {P : FsCall → Prop} {A : (c : FsCall) → c.Reply → Prop} (L : Reading P)

theorem Reading.admits_uploadFile (client : OssClient) (sha256 : List UInt8 → String) (key : String)
    {path : PathBuf} (h : L.reads path) (contentType : String) :
    (uploadFile client sha256 key path contentType).Within P A fun _ => True := by
  obtain ⟨-, hstat, -, -, hread⟩ := L.asks path h
  have hrest : ∀ f : Contents → Upload, (do
      let contents ← io (sys (.read path))
      pure (f contents) : Fs Error Upload).Within P A fun _ => True := by
    intro f
    apply Prog.within_bind (Prog.within_mapError (within_sys hread))
    intro contents _
    exact Prog.within_pure trivial
  apply Prog.within_bind (Prog.within_mapError (within_sys hstat))
  intro info _
  split
  · split
    · exact Prog.within_pure trivial
    · split
      · exact Prog.within_pure trivial
      · exact hrest _
  · exact hrest _

theorem Reading.admits_doUpload (fuel nanos : Nat) (req : UploadRequest)
    (hreads : ∀ path, resolvePath cfg.root req.workspaceId req.sourcePath = .ok path →
      L.reads path) :
    (doUpload cfg fuel nanos req).Within P A fun _ => True := by
  unfold doUpload
  split
  · exact Prog.within_throw _
  · apply Prog.within_bind (Prog.within_mapError (Prog.within_ofExcept hreads))
    intro source hsource
    apply Prog.within_bind (L.admits_statSource hsource _)
    intro fileType _
    apply Prog.within_bind (W := fun found => L.OfPayload found.1)
    · apply Prog.within_mapError
      unfold uploadSource
      split
      · apply Prog.within_bind (L.admits_tarGzIntoTemp hsource _ _)
        intro _ _
        exact Prog.within_pure trivial
      · exact Prog.within_pure hsource
    · rintro ⟨payload, basename, contentType⟩ hfound
      apply Prog.within_bind (W := fun _ => True)
      · apply Prog.within_mapError
        cases payload with
        | file path => exact L.admits_uploadFile _ _ _ hfound _
        | archive data => exact Prog.within_pure trivial
      · intro upload _
        exact Prog.within_pure trivial

end Upload

/-- Whatever transfers nothing makes harmless calls only. -/
theorem harmless_serve {op : Operation} (h : ¬ op.Transfers) :
    (op.serve cfg).Within Harmless (fun _ _ => True) fun _ => True := by
  have hmake : ∀ path, (createDirAll path).Within Harmless (fun _ _ => True) fun _ => True :=
    fun _ => within_createDirAll (N := fun _ => True) (fun _ _ _ _ => trivial)
      (fun _ _ => ⟨trivial, trivial⟩) trivial
  have hdone : ∀ {α β : Type} {m : Fs Status α} {b : β},
      m.Within Harmless (fun _ _ => True) (fun _ => True) →
      (m >>= fun _ => pure b).Within Harmless (fun _ _ => True) fun _ => True :=
    fun hm => Prog.within_bind hm fun _ _ => Prog.within_pure trivial
  have hreply : ∀ {α : Type} {m : Fs Status α} {f : α → FileReply},
      m.Within Harmless (fun _ _ => True) (fun _ => True) →
      (m >>= fun a => pure (f a)).Within Harmless (fun _ _ => True) fun _ => True :=
    fun hm => Prog.within_bind hm fun _ _ => Prog.within_pure trivial
  rcases op with req | ⟨fuel, req⟩ | ⟨fuel, nanos, req⟩
  · apply hdone
    cases req with
    | exec workspaceId =>
      exact hreply (Prog.within_mapError
        (within_ensureHome (fun _ => hmake _) (fun _ => trivial) fun _ => trivial))
    | fetch net req => exact absurd trivial h
    | importObject clock stream => exact absurd trivial h
    | list fuel req => exact hreply (harmlessReading.admits_listFiles fuel req fun _ _ => trivial)
    | delete workspaceId =>
      apply hreply
      apply Prog.within_mapError
      apply Prog.within_bind (Prog.within_ofExcept (W := fun _ => True) fun _ _ => trivial)
      intro _ _
      apply Prog.within_bind (Prog.within_attempt (within_sys trivial))
      intro r _
      split
      · exact Prog.within_pure trivial
      · exact Prog.within_pure trivial
      · exact Prog.within_throw _
  · exact hdone (harmlessReading.admits_exportWorkspaceObject fuel req fun _ _ => trivial)
  · exact hdone (harmlessReading.admits_doUpload fuel nanos req fun _ _ => trivial)

/-! ### Operations and agents together -/

/-- Operations in progress, and the file system that they share with the agents. -/
abbrev Workplace := Crowd Nat FsCall FsCall.Reply Status Unit FileTree

/-- An operation makes its next call, which may also fail for a reason that the file tree
    does not show; a tree is removed piece by piece; or agents change what they like. -/
inductive HomeEvent where
  | call (i : Nat) (cred : Cred) (now : Nat)
  | fault (i : Nat) (e : Errno)
  | remove (i : Nat) (world : FileTree)
  | agents (world : FileTree)

def Workplace.step (s : Workplace) : HomeEvent → Option Workplace
  | .call i cred now =>
    match s.rest i with
    | .call c next => some ⟨Function.update s.rest i (next (FileTree.exec cred now c s.world).1),
        (FileTree.exec cred now c s.world).2⟩
    | _ => none
  | .fault i e =>
    match s.rest i with
    | .call _ next => some ⟨Function.update s.rest i (next (.error e)), s.world⟩
    | _ => none
  | .remove i world =>
    match s.rest i with
    | .call (.removeDirAll _) _ => some { s with world }
    | _ => none
  | .agents world => some { s with world }

/-- No call of a transfer puts a file in the place of a home.  A removal takes away what was
    there, and agents change what is in the homes, and the attributes of a home. -/
def Tame (root : String) (ops : Nat → Operation) (s : Workplace) : HomeEvent → Prop
  | .call i cred _ => (ops i).Transfers → ∀ c next, s.rest i = .call c next →
    ¬ Misplaces root cred s.world c
  | .fault _ _ => True
  | .remove _ world => ∀ q, world.get? q = s.world.get? q ∨ world.get? q = none
  | .agents world => ∀ q, (insideHomes root).own q = false → world.get? q = s.world.get? q ∨
      ∃ node attrs, s.world.get? q = some node ∧ world.get? q = some { node with attrs }

/-- The ways to the homes, and what there is still to come. -/
structure HomesKept (root : String) (ops : Nat → Operation) (s : Workplace) : Prop where
  passable : ∀ workspaceId, ValidId workspaceId → Passable s.world (homePos root workspaceId)
  harmless : ∀ i, ¬ (ops i).Transfers → (s.rest i).Within Harmless (fun _ _ => True) fun _ => True

/-- What follows an answered call of an operation that transfers nothing is harmless again. -/
theorem HomesKept.update {ops : Nat → Operation} {s : Workplace} (h : HomesKept root ops s)
    {i : Nat} {c : FsCall} {next : c.Reply → Fs Status Unit} (hrest : s.rest i = .call c next)
    (reply : c.Reply)
    {world : FileTree} (hworld : ∀ workspaceId, ValidId workspaceId →
      Passable world (homePos root workspaceId)) :
    HomesKept root ops ⟨Function.update s.rest i (next reply), world⟩ where
  passable := hworld
  harmless j hj := by
    by_cases hij : j = i
    · subst hij
      have hwithin := h.harmless j hj
      rw [hrest] at hwithin
      simp only [Function.update_self]
      exact hwithin.2 reply trivial
    · simp only [Function.update_of_ne hij]
      exact h.harmless j hj

/-- A step keeps the ways to the homes. -/
theorem HomesKept.step {ops : Nat → Operation} {s s' : Workplace} {e : HomeEvent}
    (h : HomesKept root ops s)
    (htame : Tame root ops s e) (hstep : s.step e = some s') : HomesKept root ops s' := by
  cases e with
  | call i cred now =>
    simp only [Workplace.step] at hstep
    split at hstep
    · rename_i c next hrest
      obtain rfl := Option.some.inj hstep
      refine h.update hrest _ fun workspaceId hid =>
        passable_of_not_misplaces ?_ hid (h.passable workspaceId hid)
      by_cases htransfers : (ops i).Transfers
      · exact htame htransfers c next hrest
      · have hwithin := h.harmless i htransfers
        rw [hrest] at hwithin
        exact hwithin.1.not_misplaces
    · cases hstep
  | fault i e =>
    simp only [Workplace.step] at hstep
    split at hstep
    · rename_i c next hrest
      obtain rfl := Option.some.inj hstep
      exact h.update hrest _ h.passable
    · cases hstep
  | remove i world =>
    simp only [Workplace.step] at hstep
    split at hstep
    · obtain rfl := Option.some.inj hstep
      refine ⟨fun workspaceId hid q hq => ?_, h.harmless⟩
      rcases htame q with hsame | hnone
      · rw [FileTree.isDir, hsame]
        exact h.passable workspaceId hid q hq
      · exact Or.inl hnone
    · cases hstep
  | agents world =>
    obtain rfl := Option.some.inj hstep
    refine ⟨fun workspaceId hid q hq => ?_, h.harmless⟩
    have houtside : (insideHomes root).own q = false := by
      rw [Bool.eq_false_iff]
      intro hown
      obtain ⟨other, first, rest, rfl⟩ := own_insideHomes.mp hown
      have hlength := hq.length_le
      simp [homePos] at hlength
    rcases htame q houtside with hsame | ⟨node, attrs, hnode, hnew⟩
    · rw [FileTree.isDir, hsame]
      exact h.passable workspaceId hid q hq
    · rcases h.passable workspaceId hid q hq with hnone | hdir
      · rw [hnone] at hnode
        cases hnode
      · right
        rw [FileTree.isDir, hnode, Option.any_some] at hdir
        exact FileTree.isDir_iff.mpr ⟨_, hnew, hdir⟩

/-- Two workspaces, and a link in the home of `w1` to the directory of both. -/
def twoHomes : FileTree := .ofEntries
  [([], hostDir), (["srv"], hostDir), (["srv", "w1"], hostDir), (["srv", "w1", "home"], hostDir),
    (["srv", "w1", "home", "x"], ⟨.link "../..", ⟨0o777, 1000, 1000, 0⟩⟩),
    (["srv", "w2"], hostDir), (["srv", "w2", "home"], hostDir)]
  (by decide)

/-- An import, the deletion of its workspace, and the beginning of an execution. -/
def busyDay : Nat → Operation
  | 0 => .files (.importObject ⟨0, 0⟩ [.ok (.header ⟨"w1", "b", 1, ""⟩), .ok (.chunk [1])])
  | 1 => .files (.delete "w1")
  | _ => .files (.exec "w1")

/-- The agent of `w1` makes a link to the directory of all workspaces. -/
def linkMade : FileTree :=
  sampleHost.add ["srv", "w1", "home"] "x" ⟨.link "../..", ⟨0o777, 1000, 1000, 0⟩⟩ (by decide)
    (by decide) (by decide)

/-- What stands at the home of a workspace after the import of a file. -/
def kindOfHome (t : FileTree) (targetPath workspaceId : String) : Option Kind :=
  (((doImportWorkspaceObject importConfig ⟨0, 0⟩
    [.ok (.header ⟨"w1", targetPath, 1, ""⟩), .ok (.chunk [1])]).run (FileTree.exec rootUser 7)
      t).2.get?
      ["srv", workspaceId, "home"]).map Node.kind

end Scriptorium
