import Scriptorium.Transfer
import Scriptorium.Faults

/-!
# Replacing what stands at a target

The last phase of an import: remove what stands at the target, and rename the staged
object into its place, in one piece or entry by entry.  The phase can be stopped after
any call, and calls can fail; `replace_allOrNothing_iff` says when the target holds the
old object or the new one all the same.
-/

namespace Posix.FileTree

variable {cred : Cred} {now : Nat} {t : FileTree}

/-- What stands at a position and below it. -/
def subtree (t : FileTree) (p q : Pos) : Option Node := t.get? (p ++ q)

/-- A call that changes nothing at or above a position leaves the subtree there alone. -/
theorem subtree_exec {c : FsCall} {p : Pos}
    (h : ∀ q ∈ t.touched cred c, ¬ q <+: p ∧ ¬ p <+: q) :
    (exec cred now c t).2.subtree p = t.subtree p := by
  funext r
  apply get?_exec_of_not_touched
  intro q hq hpre
  rcases List.prefix_or_prefix_of_prefix hpre (List.prefix_append p r) with hqp | hpq
  · exact (h q hq).1 hqp
  · exact (h q hq).2 hpq

/-- An entry of a directory that a path leads to. -/
theorem slot_child {parent : List Component} {dir : Pos}
    (hwalk : walk (t.look cred) maxLinks [] parent = .ok dir)
    (hsearch : t.look cred dir = .dir true)
    (name : String) : t.slot cred (parent ++ [.normal name]) = .ok (dir, name) := by
  rw [slot_concat, hwalk]
  simp only [search_eq_ok.mpr hsearch]

variable (now) in
theorem mkdir_of_walk {path : List Component} {p : Pos}
    (h : walk (t.look cred) maxLinks [] path = .ok p) :
    ∃ e, (e = .exist ∨ e = .busy) ∧ t.mkdir cred now path = (.error e, t) := by
  unfold mkdir
  rcases hslot : t.slot cred path with e | ⟨dir, name⟩
  · refine ⟨e, ?_, rfl⟩
    unfold slot at hslot
    split at hslot
    · rename_i name hlast
      rw [← List.dropLast_append_getLast? _ hlast] at h
      obtain ⟨dir, hwalk, hlook, -⟩ := walk_concat h
      simp only [hwalk, search_eq_ok.mpr hlook] at hslot
      cases hslot
    · exact Or.inr (Except.error.inj hslot).symm
  · obtain ⟨hpath, hwalk, hlook⟩ := slot_eq_ok hslot
    rw [hpath] at h
    obtain ⟨dir', hwalk', -, hpresent⟩ := walk_concat h
    obtain rfl : dir = dir' := Except.ok.inj (hwalk.symm.trans hwalk')
    rw [Ne, look_eq_absent] at hpresent
    exact ⟨.exist, Or.inl rfl, by simp [addEntry, hpresent]⟩

variable (now) in
/-- An entry whose directory is found is not reported missing when it is made. -/
theorem mkdir_error_ne {path : List Component} {dir : Pos} {name : String} {e : Errno}
    (hslot : t.slot cred path = .ok (dir, name)) (h : (t.mkdir cred now path).1 = .error e) :
    e ≠ .noent := by
  simp only [mkdir, hslot, addEntry] at h
  split at h
  · split at h
    · split at h
      · split at h
        · cases h
        · obtain rfl := Except.error.inj h
          decide
      · obtain rfl := Except.error.inj h
        decide
    · obtain rfl := Except.error.inj h
      decide
  · obtain rfl := Except.error.inj h
    decide

/-! ### Nodes that have gone -/

/-- Nothing of what stood in a tree has changed into something else. -/
def Thinned (cred : Cred) (t t' : FileTree) : Prop :=
  ∀ q, t.look cred q ≠ .absent → t'.look cred q = t.look cred q ∨ t'.look cred q = .absent

theorem Thinned.slot {t' : FileTree} (h : Thinned cred t t') {parent : List Component} {dir : Pos}
    (hwalk : walk (t.look cred) maxLinks [] parent = .ok dir) (name : String) :
    t'.slot cred (parent ++ [.normal name]) = .ok (dir, name) ∨
      ∃ e, t'.slot cred (parent ++ [.normal name]) = .error e := by
  rw [slot_concat]
  rcases walk_thinned h hwalk with hsame | ⟨e, he⟩
  · rw [hsame]
    rcases hsearch : search (t'.look cred) dir with e | _
    · exact Or.inr ⟨e, by simp only [hsearch]⟩
    · exact Or.inl (by simp only [hsearch])
  · exact Or.inr ⟨e, by rw [he]⟩

theorem Thinned.of_get? {t' t'' : FileTree} (h : Thinned cred t t')
    (hgone : ∀ q, t''.get? q = t'.get? q ∨ t''.get? q = none) : Thinned cred t t'' := by
  intro q hq
  rcases hgone q with hsame | hnone
  · rw [look_congr hsame]
    exact h q hq
  · exact Or.inr (look_eq_absent.mpr hnone)

variable (now) in
theorem Thinned.remove {t' : FileTree} (h : Thinned cred t t') {c : FsCall}
    (hc : (∃ path, c = .removeDirAll path) ∨ ∃ path, c = .unlink path) :
    Thinned cred t (exec cred now c t').2 := by
  apply h.of_get?
  have hprune : ∀ dir name q, (t'.removeAt dir name).get? q = t'.get? q ∨
      (t'.removeAt dir name).get? q = none := by
    intro dir name q
    rw [get?_removeAt]
    split
    · exact Or.inr rfl
    · exact Or.inl rfl
  intro q
  rcases hc with ⟨path, rfl⟩ | ⟨path, rfl⟩
  · rcases removeDirAll_cases cred t' path with ⟨e, he⟩ | ⟨dir, name, _, _, _, hremove⟩
    · exact Or.inl (by simp [exec, he])
    · simpa [exec, hremove] using hprune dir name q
  · rcases unlink_cases cred t' path with ⟨e, he⟩ | ⟨dir, name, _, _, _, _, hremove⟩
    · exact Or.inl (by simp [exec, he])
    · simpa [exec, hremove] using hprune dir name q

end Posix.FileTree

namespace Scriptorium

open Posix Effects

/-! ### Failing calls -/

/-- The failures that the code gets to see: not those of the question `is_dir`, and
    none that reads as a missing file. -/
def Fails (target : PathBuf) (c : FsCall) (reply : c.Reply) : Prop :=
  (∀ path, c = .fileType path → path = target) ∧ ∃ e, e ≠ .noent ∧ reply = .error e

section Rules

variable {cred : Cred} {now : Nat} {t : FileTree} {target : PathBuf} {I : FileTree → Prop}
  {ε α : Type}

/-- One call, which is carried out or fails. -/
theorem wpFaulty_sys {c : FsCall} {Q : Except IoError c.Out → FileTree → Prop}
    (hI : I (FileTree.exec cred now c t).2)
    (hok : ∀ out, (FileTree.exec cred now c t).1 = .ok out →
      Q (.ok out) (FileTree.exec cred now c t).2)
    (herr : ∀ e, (FileTree.exec cred now c t).1 = .error e →
      Q (.error (.os e)) (FileTree.exec cred now c t).2)
    (hfail : ∀ e, e ≠ .noent → (∀ path, c = .fileType path → path = target) →
      Q (.error (.os e)) t) :
    (sys c).wpFaulty (FileTree.exec cred now) (Fails target) I Q t := by
  constructor
  · refine ⟨hI, ?_⟩
    rcases hreply : (FileTree.exec cred now c t).1 with e | out
    · have hQ := herr e hreply
      cases e <;> first | exact hQ | trivial
    · exact hok out hreply
  · rintro reply ⟨hseen, e, hne, rfl⟩
    have hQ := hfail e hne hseen
    cases e <;> first | exact hQ | trivial

/-- A call that only asks. -/
theorem wpFaulty_ask {c : FsCall} {Q : Except IoError c.Out → FileTree → Prop}
    (hstate : (FileTree.exec cred now c t).2 = t) (hI : I t)
    (hok : ∀ out, (FileTree.exec cred now c t).1 = .ok out → Q (.ok out) t)
    (herr : ∀ e, (FileTree.exec cred now c t).1 = .error e → Q (.error (.os e)) t)
    (hfail : ∀ e, e ≠ .noent → (∀ path, c = .fileType path → path = target) →
      Q (.error (.os e)) t) :
    (sys c).wpFaulty (FileTree.exec cred now) (Fails target) I Q t := by
  apply wpFaulty_sys
  · rwa [hstate]
  · rwa [hstate]
  · rwa [hstate]
  · exact hfail

/-- A call that is refused, or fails. -/
theorem wpFaulty_refused {c : FsCall} {e : Errno} {Q : Except Error c.Out → FileTree → Prop}
    (hreply : (FileTree.exec cred now c t).1 = .error e)
    (hstate : (FileTree.exec cred now c t).2 = t) (hI : I t) (herr : ∀ e, Q (.error e) t) :
    (io (sys c)).wpFaulty (FileTree.exec cred now) (Fails target) I Q t := by
  rw [io, Prog.wpFaulty_mapError]
  apply wpFaulty_ask hstate hI
  · intro out hout
    rw [hreply] at hout
    cases hout
  · intro e _
    exact herr _
  · intro e _ _
    exact herr _

theorem wpFaulty_ignore {m : Fs ε α} {ε' : Type} {Q : Except ε' Unit → FileTree → Prop}
    (h : m.wpFaulty (FileTree.exec cred now) (Fails target) I (fun _ => Q (.ok ())) t) :
    (ignore m).wpFaulty (FileTree.exec cred now) (Fails target) I Q t := by
  rw [ignore, Prog.wpFaulty_bind, Prog.wpFaulty_attempt]
  exact h

/-- The question `is_dir` is answered, unless it is about the target. -/
theorem wpFaulty_isDir {path : PathBuf} {Q : Except ε Bool → FileTree → Prop} (hI : I t)
    (htrue : Q (.ok (dirAt cred t path)) t) (hfalse : path = target → Q (.ok false) t) :
    (isDir path).wpFaulty (FileTree.exec cred now) (Fails target) I Q t := by
  rw [isDir, Prog.wpFaulty_bind, Prog.wpFaulty_attempt]
  rw [dirAt] at htrue
  apply wpFaulty_ask rfl hI
  · intro out hout
    rcases hfind : t.find cred path with e | ⟨p, node⟩
    · simp [FileTree.exec, hfind, Except.map] at hout
    · simp only [FileTree.exec, hfind, Except.map, Except.ok.injEq] at hout
      subst hout
      rw [hfind] at htrue
      rcases hkind : node.kind with _ | ⟨data, holes⟩ | link | _
      all_goals simpa [Node.fileType, Node.isDir, hkind] using htrue
  · intro e he
    rcases hfind : t.find cred path with e' | ⟨p, node⟩
    · rw [hfind] at htrue
      exact htrue
    · simp [FileTree.exec, hfind, Except.map] at he
  · intro e _ hseen
    exact hfalse (hseen path rfl)

/-- A directory that exists is not created again. -/
theorem wpFaulty_createDirAll {path : PathBuf} {p : Pos} {Q : Except IoError Unit → FileTree → Prop}
    (hwalk : walk (t.look cred) maxLinks [] path = .ok p) (hI : I t) (hQ : ∀ r, Q r t) :
    (createDirAll path).wpFaulty (FileTree.exec cred now) (Fails target) I Q t := by
  obtain ⟨e, he, hmkdir⟩ := FileTree.mkdir_of_walk now hwalk
  have hne : e ≠ .noent := by rcases he with rfl | rfl <;> decide
  have hisDir : ∀ e : IoError,
      (do if ← isDir path then pure () else Prog.throw e : Fs IoError Unit).wpFaulty
        (FileTree.exec cred now) (Fails target) I Q t := by
    intro e
    rw [Prog.wpFaulty_bind, isDir, Prog.wpFaulty_bind, Prog.wpFaulty_attempt]
    apply wpFaulty_ask rfl hI
    · intro out _
      cases out <;> exact hQ _
    · intro e _
      exact hQ _
    · intro e _ _
      exact hQ _
  unfold createDirAll
  rcases path with _ | ⟨c, path⟩
  · exact hQ _
  · rw [List.length_cons, createDirAllWithin, Prog.wpFaulty_bind, Prog.wpFaulty_attempt]
    apply wpFaulty_sys
    · simpa [FileTree.exec, hmkdir] using hI
    · intro out hout
      simp [FileTree.exec, hmkdir] at hout
    · intro e' he'
      simp only [FileTree.exec, hmkdir] at he' ⊢
      obtain rfl := Except.error.inj he'
      cases e <;> first | exact hisDir _ | exact absurd rfl hne
    · intro e' hne' _
      cases e' <;> first | exact hisDir _ | exact absurd rfl hne'

end Rules

/-! ### Removing -/

section Removing

variable {cred : Cred} {now : Nat} {t : FileTree} {target parent : PathBuf} {dir : Pos}
  {name : String} {I : FileTree → Prop}

/-- Something is found at the target, and may be removed. -/
def Removes (cred : Cred) (t : FileTree) (target : PathBuf) : Prop :=
  match t.find cred target with
  | .error _ => False
  | .ok (_, node) =>
    if node.isDir then (t.removeDirAll cred target).1 = .ok ()
    else (t.unlink cred target).1 = .ok ()

theorem removes_iff {p : Pos} {node : Node} (hfind : t.find cred target = .ok (p, node)) :
    Removes cred t target ↔
      if node.isDir then (t.removeDirAll cred target).1 = .ok ()
      else (t.unlink cred target).1 = .ok () := by
  rw [Removes, hfind]

theorem not_removes_of_error {e : Errno} (hfind : t.find cred target = .error e) :
    ¬ Removes cred t target := by
  rw [Removes, hfind]
  exact id

/-- Where nothing is removed, the phase goes on only if nothing is found. -/
theorem wpFaulty_removePathIfExists {Q : Except Error Unit → FileTree → Prop}
    (h : ¬ Removes cred t target) (hI : I t)
    (hok : t.find cred target = .error .noent → Q (.ok ()) t) (herr : ∀ e, Q (.error e) t) :
    (removePathIfExists target).wpFaulty (FileTree.exec cred now) (Fails target) I Q t := by
  have hdir : (t.removeDirAll cred target).1 ≠ .ok () →
      (io (sys (.removeDirAll target))).wpFaulty (FileTree.exec cred now) (Fails target) I Q t := by
    intro hne
    rcases FileTree.removeDirAll_cases cred t target with ⟨e, he⟩ | ⟨_, _, _, _, _, hremove⟩
    · exact wpFaulty_refused (e := e) (by simp [FileTree.exec, he]) (by simp [FileTree.exec, he])
        hI herr
    · exact absurd (by rw [hremove]) hne
  have hfile : (t.unlink cred target).1 ≠ .ok () →
      (io (sys (.unlink target))).wpFaulty (FileTree.exec cred now) (Fails target) I Q t := by
    intro hne
    rcases FileTree.unlink_cases cred t target with ⟨e, he⟩ | ⟨_, _, _, _, _, _, hremove⟩
    · exact wpFaulty_refused (e := e) (by simp [FileTree.exec, he]) (by simp [FileTree.exec, he])
        hI herr
    · exact absurd (by rw [hremove]) hne
  rw [removePathIfExists, Prog.wpFaulty_bind, Prog.wpFaulty_attempt]
  apply wpFaulty_ask rfl hI
  · intro out hout
    rcases hfind : t.find cred target with e | ⟨p, node⟩
    · simp [FileTree.exec, hfind, Except.map] at hout
    · rw [removes_iff hfind] at h
      simp only [FileTree.exec, hfind, Except.map, Except.ok.injEq] at hout
      subst hout
      rcases hkind : node.kind with _ | ⟨data, holes⟩ | link | _
      all_goals simp only [Node.fileType, Node.isDir, hkind] at h ⊢
      · exact hdir h
      all_goals exact hfile (by simpa using h)
  · intro e he
    rcases hfind : t.find cred target with e' | ⟨p, node⟩
    · simp only [FileTree.exec, hfind, Except.map, Except.error.injEq] at he
      subst he
      cases e' <;> first | exact hok hfind | exact herr _
    · simp [FileTree.exec, hfind, Except.map] at he
  · intro e hne _
    cases e <;> first | exact herr _ | exact absurd rfl hne

variable (now) in
/-- A removal takes away the entry of the target, and nothing else. -/
theorem run_removePathIfExists (hslot : t.slot cred target = .ok (dir, name))
    (h : Removes cred t target) :
    (removePathIfExists target).run (FileTree.exec cred now) t =
      (some (.ok ()), t.removeAt dir name) := by
  rcases hfind : t.find cred target with e | ⟨p, node⟩
  · exact absurd h (not_removes_of_error hfind)
  rw [removes_iff hfind] at h
  have hanswer : (FileTree.exec cred now (.fileType target) t).1 = .ok node.fileType := by
    simp [FileTree.exec, hfind, Except.map]
  have hdir : (t.removeDirAll cred target).1 = .ok () →
      (io (sys (.removeDirAll target))).run (FileTree.exec cred now) t =
        (some (.ok ()), t.removeAt dir name) := by
    intro hok
    rcases FileTree.removeDirAll_cases cred t target with
      ⟨e, he⟩ | ⟨dir', name', _, hslot', _, hremove⟩
    · rw [he] at hok
      cases hok
    · obtain ⟨rfl, rfl⟩ := Prod.mk.inj (Except.ok.inj (hslot.symm.trans hslot'))
      have hexec : FileTree.exec cred now (.removeDirAll target) t =
          (.ok (), t.removeAt dir name) :=
        hremove
      rw [io, Prog.run_mapError, run_sys_ok (by rw [hexec]), hexec]
      rfl
  have hfile : (t.unlink cred target).1 = .ok () →
      (io (sys (.unlink target))).run (FileTree.exec cred now) t =
        (some (.ok ()), t.removeAt dir name) := by
    intro hok
    rcases FileTree.unlink_cases cred t target with
      ⟨e, he⟩ | ⟨dir', name', _, hslot', _, _, hremove⟩
    · rw [he] at hok
      cases hok
    · obtain ⟨rfl, rfl⟩ := Prod.mk.inj (Except.ok.inj (hslot.symm.trans hslot'))
      have hexec : FileTree.exec cred now (.unlink target) t = (.ok (), t.removeAt dir name) :=
        hremove
      rw [io, Prog.run_mapError, run_sys_ok (by rw [hexec]), hexec]
      rfl
  rw [removePathIfExists, Prog.run_bind, Prog.run_attempt, run_sys_ok hanswer]
  rcases hkind : node.kind with _ | ⟨data, holes⟩ | link | _
  all_goals simp only [Node.fileType, Node.isDir, hkind] at h ⊢
  · exact hdir h
  all_goals exact hfile (by simpa using h)

variable (now) in
theorem run_removePathIfExists_missing (h : t.find cred target = .error .noent) :
    (removePathIfExists target).run (FileTree.exec cred now) t = (some (.ok ()), t) := by
  have hanswer : (FileTree.exec cred now (.fileType target) t).1 = .error .noent := by
    simp [FileTree.exec, h, Except.map]
  rw [removePathIfExists, Prog.run_bind, Prog.run_attempt, run_sys_error hanswer (by decide)]
  rfl

end Removing

/-! ### The last phase of an import -/

/-- What an import puts at its target: the staged file, or what was extracted from it. -/
inductive Replacement where
  | file
  | tree
deriving DecidableEq, Repr

/-- The calls of the phase. -/
def Replacement.phase (staging extractionRoot target : PathBuf) : Replacement → Fs Error Unit
  | .file => replaceWorkspaceFileFromStaging staging target
  | .tree => do
    removePathIfExists target
    installExtracted staging extractionRoot target

/-- The part of `extract_archive_and_replace` before the phase. -/
def extractArchive (codec : Codec) (staging extractionRoot : PathBuf) : Fs Error Unit := do
  if ← pathExists extractionRoot then io (sys (.removeDirAll extractionRoot)) else pure ()
  io (createDirAll extractionRoot)
  let archive ← io (sys (.read staging))
  extractItems extractionRoot (codec.unpack archive.data)

/-- The extraction root is made, after what stood there has been removed. -/
def bareRoot (extractionRoot : PathBuf) : Fs Error Unit := do
  if ← pathExists extractionRoot then io (sys (.removeDirAll extractionRoot)) else pure ()
  io (createDirAll extractionRoot)

theorem extractArchive_eq (codec : Codec) (staging extractionRoot : PathBuf) :
    extractArchive codec staging extractionRoot = bareRoot extractionRoot >>= fun _ =>
      (do
        let archive ← io (sys (.read staging))
        extractItems extractionRoot (codec.unpack archive.data)) := by
  simp only [extractArchive, bareRoot, Prog.bind_assoc]
  congr 1
  funext present
  cases present with
  | false => rfl
  | true => simp only [if_true, Prog.bind_assoc]

theorem extractArchiveAndReplace_eq (codec : Codec) (staging extractionRoot target : PathBuf) :
    extractArchiveAndReplace codec staging extractionRoot target =
      extractArchive codec staging extractionRoot >>= fun _ =>
        Replacement.tree.phase staging extractionRoot target := by
  simp only [extractArchiveAndReplace, extractArchive, Replacement.phase, Prog.bind_assoc]
  congr 1
  funext present
  cases present with
  | false => simp only [Bool.false_eq_true, if_false, Prog.bind_assoc]
  | true => simp only [if_true, Prog.bind_assoc]

theorem isDir_of_fileType {node : Node} (h : node.fileType = .dir) : node.isDir = true := by
  rcases hkind : node.kind with _ | ⟨data, holes⟩ | link | _
  all_goals simp_all [Node.fileType, Node.isDir]

/-- The sole entry of a listing, if it is a directory. -/
def soleDir : List (String × FileType) → Option String
  | [(name, .dir)] => some name
  | _ => none

section Phase

variable (cred : Cred) (now : Nat) (t : FileTree)

/-- What stands at `place` is what stood there in `t`, or the new object. -/
def OldOrNew (place : Pos) (new : Pos → Option Node) (s : FileTree) : Prop :=
  s.subtree place = t.subtree place ∨ s.subtree place = new

/-- Stopped at any point, whichever calls have failed before, the phase has left the
    old object or the new one. -/
def AllOrNothing (target : PathBuf) (place : Pos) (new : Pos → Option Node)
    (phase : Fs Error Unit) :
    Prop :=
  ∀ plan : Nat → (c : FsCall) → Option c.Reply,
    (∀ k c reply, plan k c = some reply → Fails target c reply) →
    ∀ n, OldOrNew t place new
      (Prog.stopAfter (faulty (FileTree.exec cred now) plan) n phase (0, t)).2

variable {cred now t} in
theorem not_allOrNothing_of_stops {target : PathBuf} {place : Pos} {new : Pos → Option Node}
    {phase : Fs Error Unit} {s : FileTree} (h : phase.Stops (FileTree.exec cred now) t s)
    (hold : s.subtree place ≠ t.subtree place) (hnew : s.subtree place ≠ new) :
    ¬ AllOrNothing cred now t target place new phase := by
  intro hall
  obtain ⟨n, hn⟩ := h
  have hstop := hall noFaults (fun _ _ _ hplan => by cases hplan) n
  rw [Prog.stopAfter_noFaults, hn] at hstop
  rcases hstop with hstop | hstop
  · exact hold hstop
  · exact hnew hstop

variable {cred now t} in
theorem allOrNothing_of_wpFaulty {target : PathBuf} {place : Pos} {new : Pos → Option Node}
    {phase : Fs Error Unit}
    (h : phase.wpFaulty (FileTree.exec cred now) (Fails target) (OldOrNew t place new)
      (fun _ _ => True) t) :
    AllOrNothing cred now t target place new phase :=
  fun _ hplan n => Prog.wpFaulty_stopAfter h (Or.inl rfl) hplan n 0

/-- Where an import works: in the directory its target is an entry of, with names of its
    own for the staged file and the extracted entries. -/
structure Site where
  parent : PathBuf
  dir : Pos
  name : String
  stagingName : String
  extractionName : String
  walk_parent : walk (t.look cred) maxLinks [] parent = .ok dir
  search_dir : t.look cred dir = .dir true
  staging_ne : stagingName ≠ name
  extraction_ne : extractionName ≠ name

namespace Site

variable {cred t} (site : Site cred t)

def target : PathBuf := site.parent ++ [.normal site.name]

def staging : PathBuf := site.parent ++ [.normal site.stagingName]

def extractionRoot : PathBuf := site.parent ++ [.normal site.extractionName]

def place : Pos := site.dir ++ [site.name]

def stagingPos : Pos := site.dir ++ [site.stagingName]

def extractionPos : Pos := site.dir ++ [site.extractionName]

/-- The extracted entries, as those of a directory that is made for them. -/
def gathered (q : Pos) : Option Node :=
  if q = [] then some ⟨.dir, FileTree.newAttrs cred now 0o777⟩
  else t.get? (site.extractionPos ++ q)

/-- What the payload has been turned into: a file, or a directory whose entries are
    files and directories. -/
def Staged : Replacement → Prop
  | .file => ∃ data holes attrs, t.get? site.stagingPos = some ⟨.file data holes, attrs⟩
  | .tree => t.look cred site.extractionPos = .dir true ∧
      t.allows cred site.extractionPos .read = true ∧
      ∀ entry ∈ t.entries site.extractionPos, entry.2 = .file ∨ entry.2 = .dir

/-- The object the import puts at its target. -/
def object : Replacement → Pos → Option Node
  | .file => t.subtree site.stagingPos
  | .tree =>
    match soleDir (t.entries site.extractionPos) with
    | some name => t.subtree (site.extractionPos ++ [name])
    | none => site.gathered now

/-- The new object takes its place in one step. -/
def AtOnce : Replacement → Prop
  | .file => True
  | .tree => (t.mkdir cred now site.target).1 = .ok () →
      t.entries site.extractionPos = [] ∨ (soleDir (t.entries site.extractionPos)).isSome

/-! ### Its paths -/

theorem slot_target : t.slot cred site.target = .ok (site.dir, site.name) :=
  FileTree.slot_child site.walk_parent site.search_dir site.name

theorem slot_staging : t.slot cred site.staging = .ok (site.dir, site.stagingName) :=
  FileTree.slot_child site.walk_parent site.search_dir site.stagingName

theorem parent_target : site.target.parent = some site.parent := by
  rw [PathBuf.parent, target, List.getLast?_concat, List.dropLast_concat]

theorem siblings_apart {dir : Pos} {a b : String} (h : a ≠ b) : ¬ dir ++ [a] <+: dir ++ [b] := by
  intro hpre
  have heq := hpre.eq_of_length (by simp)
  exact h (by simpa using heq)

/-- A sibling of the target neither holds it nor lies in it. -/
theorem place_apart {other : String} (h : other ≠ site.name) :
    ¬ site.dir ++ [other] <+: site.place ∧ ¬ site.place <+: site.dir ++ [other] :=
  ⟨siblings_apart h, siblings_apart (Ne.symm h)⟩

/-! ### What was extracted -/

section Extracted

variable (hX : t.look cred site.extractionPos = .dir true)

include hX

theorem walk_extractionRoot :
    walk (t.look cred) maxLinks [] site.extractionRoot = .ok site.extractionPos := by
  have hlook : t.look cred (site.dir ++ [site.extractionName]) = .dir true := hX
  apply walk_child site.walk_parent site.search_dir
  · simp [hlook]
  · simp [hlook]

theorem readDir_extractionRoot (hread : t.allows cred site.extractionPos .read = true) :
    t.readDir cred site.extractionRoot = .ok (t.entries site.extractionPos) := by
  obtain ⟨node, hnode, hfind⟩ := FileTree.find_of_walk (site.walk_extractionRoot hX)
  have hdir : node.isDir = true := by
    obtain ⟨node', hnode', hdir⟩ := FileTree.isDir_iff.mp (FileTree.isDir_of_look hX)
    obtain rfl : node = node' := Option.some.inj (hnode.symm.trans hnode')
    exact hdir
  have hmay : cred.may node.attrs .read = true := by simpa [FileTree.allows, hnode] using hread
  simp [FileTree.readDir, hfind, hdir, hmay]

/-- `is_dir` on an entry that is no link. -/
theorem dirAt_entry {entry : String × FileType} (hentry : entry ∈ t.entries site.extractionPos)
    (hplain : entry.2 = .file ∨ entry.2 = .dir) :
    dirAt cred t (site.extractionRoot ++ [.normal entry.1]) = (entry.2 == .dir) := by
  obtain ⟨child, hchild, htype⟩ := FileTree.mem_entries.mp hentry
  have hlook : t.look cred (site.extractionPos ++ [entry.1]) = child.view cred := by
    simp [FileTree.look, hchild]
  have hwalk : walk (t.look cred) maxLinks [] (site.extractionRoot ++ [.normal entry.1]) =
      .ok (site.extractionPos ++ [entry.1]) := by
    apply walk_child (site.walk_extractionRoot hX) hX
    · simp [FileTree.look_eq_absent, hchild]
    · intro target hlink
      rw [hlook] at hlink
      rcases hkind : child.kind with _ | ⟨data, holes⟩ | link | _
      all_goals simp [Node.fileType, Node.view, hkind] at htype hlink
      simp [← htype] at hplain
  obtain ⟨node, hnode, hfind⟩ := FileTree.find_of_walk hwalk
  obtain rfl : node = child := Option.some.inj (hnode.symm.trans hchild)
  rw [dirAt, hfind, ← htype]
  rcases hkind : node.kind with _ | ⟨data, holes⟩ | link | _
  all_goals simp [Node.fileType, Node.isDir, hkind]

end Extracted

/-! ### Steps that keep the object at the target -/

variable {now} {new : Pos → Option Node}

variable (now) in
/-- What a step leaves at the target, when it touches only a sibling. -/
theorem oldOrNew_remove {other : String} (hother : other ≠ site.name) {s : FileTree}
    (hthin : FileTree.Thinned cred t s) (hs : OldOrNew t site.place new s) {c : FsCall}
    (hc : c = .removeDirAll (site.parent ++ [.normal other]) ∨
      c = .unlink (site.parent ++ [.normal other])) :
    OldOrNew t site.place new (FileTree.exec cred now c s).2 := by
  have hsame : (FileTree.exec cred now c s).2.subtree site.place = s.subtree site.place := by
    apply FileTree.subtree_exec
    intro q hq
    have htouched : q = site.dir ++ [other] := by
      rcases hthin.slot site.walk_parent other with hslot | ⟨e, hslot⟩
      · rcases hc with rfl | rfl <;> simpa [FileTree.touched, hslot] using hq
      · rcases hc with rfl | rfl <;> simp [FileTree.touched, hslot] at hq
    rw [htouched]
    exact site.place_apart hother
  rw [OldOrNew, hsame]
  exact hs

theorem wpFaulty_finishExtraction {s : FileTree} (hthin : FileTree.Thinned cred t s)
    (hs : OldOrNew t site.place new s) :
    (finishExtraction site.staging site.extractionRoot).wpFaulty (FileTree.exec cred now)
      (Fails site.target) (OldOrNew t site.place new) (fun _ _ => True) s := by
  have hunlink : ∀ s, FileTree.Thinned cred t s → OldOrNew t site.place new s →
      (ignore (sys (.unlink site.staging)) : Fs Error Unit).wpFaulty (FileTree.exec cred now)
        (Fails site.target) (OldOrNew t site.place new) (fun _ _ => True) s := by
    intro s hthin hs
    apply wpFaulty_ignore
    apply wpFaulty_sys
    · exact site.oldOrNew_remove now site.staging_ne hthin hs (Or.inr rfl)
    · intro _ _
      trivial
    · intro _ _
      trivial
    · intro _ _ _
      trivial
  have hthin' := hthin.remove now (Or.inl ⟨site.extractionRoot, rfl⟩)
  have hs' := site.oldOrNew_remove now site.extraction_ne hthin hs (Or.inl rfl)
  rw [finishExtraction, Prog.wpFaulty_bind]
  apply wpFaulty_ignore
  apply wpFaulty_sys
  · exact hs'
  · intro _ _
    exact hunlink _ hthin' hs'
  · intro _ _
    exact hunlink _ hthin' hs'
  · intro _ _ _
    exact hunlink _ hthin hs

variable (now) in
/-- A rename onto the target is refused, or puts what stood at its source there. -/
theorem rename_cases {other : PathBuf} {srcDir : Pos} {srcName : String}
    (hslot : t.slot cred other = .ok (srcDir, srcName)) (hne : srcDir ++ [srcName] ≠ site.place) :
    (∃ e, FileTree.exec cred now (.rename other site.target) t = (.error e, t)) ∨
      ∃ node crossing t', FileTree.exec cred now (.rename other site.target) t = (.ok (), t') ∧
        t.get? (srcDir ++ [srcName]) = some node ∧
        t.renameCheck cred (srcDir ++ [srcName]) node crossing site.place = .ok () ∧
        ∀ q, t'.get? q =
          if site.place <+: q then t.get? (srcDir ++ [srcName] ++ q.drop (site.dir.length + 1))
          else if srcDir ++ [srcName] <+: q then none
          else t.get? q := by
  simp only [FileTree.exec]
  rcases FileTree.rename_cases cred t other site.target with
    ⟨e, he⟩ | ⟨dir, name, hsrc, hdst, -⟩ |
    ⟨srcDir', srcName', dir, name, node, hsrc, hdir, hname, hin, hout, hs, hd, hnode, hcheck, hmove⟩
  · exact Or.inl ⟨e, he⟩
  · rw [hslot] at hsrc
    rw [site.slot_target] at hdst
    obtain ⟨rfl, rfl⟩ := Prod.mk.inj (Except.ok.inj hsrc)
    obtain ⟨hdir, hname⟩ := Prod.mk.inj (Except.ok.inj hdst)
    exact absurd (by rw [place, hdir, hname]) hne
  · rw [hslot] at hs
    rw [site.slot_target] at hd
    obtain ⟨rfl, rfl⟩ := Prod.mk.inj (Except.ok.inj hs)
    obtain ⟨rfl, rfl⟩ := Prod.mk.inj (Except.ok.inj hd)
    refine Or.inr ⟨node, _, _, hmove, hnode, hcheck, ?_⟩
    intro q
    rw [FileTree.get?_replaceAt, place]

theorem subtree_place_of_move {t' : FileTree} {src : Pos}
    (hget : ∀ q, t'.get? q =
      if site.place <+: q then t.get? (src ++ q.drop (site.dir.length + 1))
      else if src <+: q then none
      else t.get? q) : t'.subtree site.place = t.subtree src := by
  funext q
  rw [FileTree.subtree, hget, if_pos (List.prefix_append _ _), FileTree.subtree, place,
    List.drop_left' (by simp)]

theorem wpFaulty_file : ¬ Removes cred t site.target →
    (Replacement.file.phase site.staging site.extractionRoot site.target).wpFaulty
      (FileTree.exec cred now) (Fails site.target)
      (OldOrNew t site.place (t.subtree site.stagingPos)) (fun _ _ => True) t := by
  intro hkeep
  have hold : OldOrNew t site.place (t.subtree site.stagingPos) t := Or.inl rfl
  rw [Replacement.phase, replaceWorkspaceFileFromStaging, site.parent_target, Prog.wpFaulty_bind]
  simp only
  rw [io, Prog.wpFaulty_mapError]
  apply wpFaulty_createDirAll site.walk_parent hold
  rintro (e | _)
  · trivial
  · simp only [Except.mapError]
    rw [Prog.wpFaulty_bind]
    apply wpFaulty_removePathIfExists hkeep hold
    · intro _
      simp only
      rw [io, Prog.wpFaulty_mapError]
      have hnew : OldOrNew t site.place (t.subtree site.stagingPos)
          (FileTree.exec cred now (.rename site.staging site.target) t).2 := by
        rcases site.rename_cases now site.slot_staging
          (fun h => site.staging_ne (by simpa [place] using h)) with
          ⟨e, he⟩ | ⟨_, _, t', hok, _, _, hget⟩
        · rw [he]
          exact hold
        · rw [hok]
          exact Or.inr (site.subtree_place_of_move hget)
      apply wpFaulty_sys hnew
      · intro _ _
        trivial
      · intro _ _
        trivial
      · intro _ _ _
        trivial
    · intro e
      trivial

/-- What a directory of no entries gathers. -/
theorem gathered_of_empty (hempty : t.entries site.extractionPos = []) (q : Pos) :
    site.gathered now q = if q = [] then some
      ⟨.dir, FileTree.newAttrs cred now 0o777⟩ else none := by
  rw [gathered]
  split
  · rfl
  · rename_i hq
    obtain ⟨first, rest, rfl⟩ := List.exists_cons_of_ne_nil hq
    by_contra hsome
    have hfirst : (t.get? (site.extractionPos ++ [first])).isSome :=
      FileTree.isSome_above (Option.isSome_iff_ne_none.mpr hsome) ⟨rest, by simp⟩
    obtain ⟨child, hchild⟩ := Option.isSome_iff_exists.mp hfirst
    have hmem : (first, child.fileType) ∈ t.entries site.extractionPos :=
      FileTree.mem_entries.mpr ⟨child, hchild, rfl⟩
    rw [hempty] at hmem
    cases hmem

/-- Making a directory at the target where there is nothing. -/
theorem wpFaulty_createTarget {I : FileTree → Prop} {Q : Except IoError Unit → FileTree → Prop}
    (hmissing : t.find cred site.target = .error .noent) (hI : I t) (herr : ∀ e, Q (.error e) t)
    (hmade : ∀ t', t.mkdir cred now site.target = (.ok (), t') → I t' ∧ Q (.ok ()) t') :
    (createDirAll site.target).wpFaulty (FileTree.exec cred now) (Fails site.target) I Q t := by
  have hnodir : dirAt cred t site.target = false := by rw [dirAt, hmissing]
  have hthrow : ∀ e : IoError,
      (do if ← isDir site.target then pure () else Prog.throw e : Fs IoError Unit).wpFaulty
        (FileTree.exec cred now) (Fails site.target) I Q t := by
    intro e
    rw [Prog.wpFaulty_bind]
    apply wpFaulty_isDir hI
    · rw [hnodir]
      exact herr e
    · intro _
      exact herr e
  have hlength : site.target.length = site.parent.length + 1 := by simp [target]
  rw [createDirAll, hlength, createDirAllWithin, Prog.wpFaulty_bind, Prog.wpFaulty_attempt]
  rcases FileTree.mkdir_cases cred now t site.target with ⟨e, he⟩ | ⟨_, _, _, _, _, -, hadd⟩
  · have hne : e ≠ .noent := FileTree.mkdir_error_ne now site.slot_target (by rw [he])
    apply wpFaulty_sys
    · simpa [FileTree.exec, he] using hI
    · intro out hout
      simp [FileTree.exec, he] at hout
    · intro e' he'
      simp only [FileTree.exec, he] at he' ⊢
      obtain rfl := Except.error.inj he'
      cases e <;> first | exact hthrow _ | exact absurd rfl hne
    · intro e' hne' _
      cases e' <;> first | exact hthrow _ | exact absurd rfl hne'
  · obtain ⟨hI', hQ⟩ := hmade _ hadd
    apply wpFaulty_sys
    · simpa [FileTree.exec, hadd] using hI'
    · intro out _
      simpa [FileTree.exec, hadd] using hQ
    · intro e he
      simp [FileTree.exec, hadd] at he
    · intro e' hne' _
      cases e' <;> first | exact hthrow _ | exact absurd rfl hne'

/-- The directory that is made at the target, next to an empty one. -/
theorem made_empty (hX : t.look cred site.extractionPos = .dir true) {t' : FileTree}
    (hempty : t.entries site.extractionPos = [])
    (hmade : t.mkdir cred now site.target = (.ok (), t')) :
    OldOrNew t site.place (site.gathered now) t' ∧ FileTree.Thinned cred t t' ∧
      ∀ entries, t'.readDir cred site.extractionRoot = .ok entries → entries = [] := by
  rcases FileTree.mkdir_cases cred now t site.target with
    ⟨e, he⟩ | ⟨dir, name, hdir, hfree, hname, hslot, hadd⟩
  · rw [he] at hmade
    cases hmade
  · obtain ⟨rfl, rfl⟩ := Prod.mk.inj (Except.ok.inj (site.slot_target.symm.trans hslot))
    have ht' : t.add site.dir site.name ⟨.dir, FileTree.newAttrs cred now 0o777⟩ hdir hfree hname =
        t' := by
      rw [hadd] at hmade
      exact (Prod.mk.inj hmade).2
    have hget : ∀ q, (t.get? q).isSome → t'.get? q = t.get? q := by
      intro q hq
      rw [← ht', FileTree.get?_add, if_neg]
      rintro rfl
      rw [hfree] at hq
      cases hq
    have hlook : ∀ q, t.look cred q ≠ .absent → t'.look cred q = t.look cred q := by
      intro q hq
      rw [Ne, FileTree.look_eq_absent] at hq
      exact FileTree.look_congr (hget q (Option.isSome_iff_ne_none.mpr hq))
    refine ⟨Or.inr ?_, fun q hq => Or.inl (hlook q hq), ?_⟩
    · funext q
      rw [FileTree.subtree, site.gathered_of_empty hempty, ← ht', FileTree.get?_add, place]
      by_cases hq : q = []
      · simp [hq]
      · rw [if_neg (by simpa using hq), if_neg hq,
          FileTree.get?_none_below hfree (List.prefix_append _ _)]
    · intro entries hread
      obtain ⟨p, hwalk, -, rfl⟩ := FileTree.readDir_eq_ok hread
      have hwalk' := walk_extend hlook (site.walk_extractionRoot hX)
      obtain rfl : p = site.extractionPos := Except.ok.inj (hwalk.symm.trans hwalk')
      rw [List.eq_nil_iff_forall_not_mem] at hempty ⊢
      intro entry hentry
      obtain ⟨child, hchild, htype⟩ := FileTree.mem_entries.mp hentry
      apply hempty entry
      apply FileTree.mem_entries.mpr
      refine ⟨child, ?_, htype⟩
      rw [← ht', FileTree.get?_add, if_neg] at hchild
      · exact hchild
      · intro heq
        simpa [extractionPos] using congrArg List.length heq

/-- A directory with nothing to be put into it. -/
theorem wpFaulty_installEach (hX : t.look cred site.extractionPos = .dir true)
    (hmissing : t.find cred site.target = .error .noent)
    (hempty : (t.mkdir cred now site.target).1 = .ok () → t.entries site.extractionPos = []) :
    (installEach site.staging site.extractionRoot site.target).wpFaulty (FileTree.exec cred now)
      (Fails site.target) (OldOrNew t site.place (site.gathered now)) (fun _ _ => True) t := by
  rw [installEach, Prog.wpFaulty_bind, io, Prog.wpFaulty_mapError]
  apply site.wpFaulty_createTarget hmissing (Or.inl rfl)
  · intro e
    trivial
  · intro t' ht'
    obtain ⟨hnew, hthin, hentries⟩ := site.made_empty hX (hempty (by rw [ht'])) ht'
    refine ⟨hnew, ?_⟩
    simp only [Except.mapError]
    rw [Prog.wpFaulty_bind, io, Prog.wpFaulty_mapError]
    apply wpFaulty_ask rfl hnew
    · intro entries hread
      simp only [Except.mapError]
      rw [hentries entries hread, List.map_nil, moveEntries, Prog.wpFaulty_bind]
      exact site.wpFaulty_finishExtraction hthin hnew
    · intro e _
      trivial
    · intro e _ _
      trivial

variable (now) in
/-- A sole directory that takes the place of the target. -/
theorem wpFaulty_installSole (hX : t.look cred site.extractionPos = .dir true) {name : String}
    (hentry : (name, .dir) ∈ t.entries site.extractionPos)
    (hmissing : t.find cred site.target = .error .noent) :
    (do
      io (sys (.rename (site.extractionRoot ++ [.normal name]) site.target))
      finishExtraction site.staging site.extractionRoot : Fs Error Unit).wpFaulty
        (FileTree.exec cred now) (Fails site.target)
        (OldOrNew t site.place (t.subtree (site.extractionPos ++ [name]))) (fun _ _ => True) t := by
  obtain ⟨child, hchild, htype⟩ := FileTree.mem_entries.mp hentry
  have hslot : t.slot cred (site.extractionRoot ++ [.normal name]) =
      .ok (site.extractionPos, name) :=
    FileTree.slot_child (site.walk_extractionRoot hX) hX name
  have hne : site.extractionPos ++ [name] ≠ site.place := by
    intro heq
    simpa [extractionPos, place] using congrArg List.length heq
  rw [Prog.wpFaulty_bind, io, Prog.wpFaulty_mapError]
  rcases site.rename_cases now hslot hne with
    ⟨e, he⟩ | ⟨node, crossing, t', hok, hnode, hcheck, hget⟩
  · apply wpFaulty_ask
    · rw [he]
    · exact Or.inl rfl
    · intro out hout
      rw [he] at hout
      cases hout
    · intro e _
      trivial
    · intro e _ _
      trivial
  · have hnew : OldOrNew t site.place (t.subtree (site.extractionPos ++ [name])) t' :=
      Or.inr (site.subtree_place_of_move hget)
    -- a directory does not take the place of a link, so nothing stood at the target
    have hfree : t.get? site.place = none := by
      by_contra hsome
      obtain ⟨old, hold⟩ := Option.ne_none_iff_exists'.mp hsome
      have hnodeDir : node.isDir = true := by
        obtain rfl : node = child := Option.some.inj (hnode.symm.trans hchild)
        exact isDir_of_fileType htype
      have hold' : t.get? (site.dir ++ [site.name]) = some old := hold
      have hlook : t.look cred (site.dir ++ [site.name]) = old.view cred := by
        simp [FileTree.look, hold']
      have holdDir : old.isDir = true := by
        by_contra hnot
        rw [Bool.not_eq_true] at hnot
        simp [FileTree.renameCheck, hold, hnodeDir, hnot] at hcheck
      have hview : old.view cred = .dir (cred.may old.attrs .search) := by
        simp [Node.view, Node.isDir_iff.mp holdDir]
      have hwalk : walk (t.look cred) maxLinks [] site.target = .ok site.place := by
        apply walk_child site.walk_parent site.search_dir
        · simp [hlook, hview]
        · simp [hlook, hview]
      obtain ⟨_, _, hfind⟩ := FileTree.find_of_walk hwalk
      rw [hmissing] at hfind
      cases hfind
    have hthin : FileTree.Thinned cred t t' := by
      intro q hq
      have hout : ¬ site.place <+: q := by
        intro hpre
        exact hq (FileTree.look_eq_absent.mpr (FileTree.get?_none_below hfree hpre))
      have hq' := hget q
      rw [if_neg hout] at hq'
      split at hq'
      · exact Or.inr (FileTree.look_eq_absent.mpr hq')
      · exact Or.inl (FileTree.look_congr hq')
    apply wpFaulty_sys
    · rw [hok]
      exact hnew
    · intro out _
      rw [hok]
      exact site.wpFaulty_finishExtraction hthin hnew
    · intro e he
      rw [hok] at he
      cases he
    · intro e _ _
      trivial

theorem wpFaulty_tree (hX : t.look cred site.extractionPos = .dir true)
    (hread : t.allows cred site.extractionPos .read = true)
    (hplain : ∀ entry ∈ t.entries site.extractionPos, entry.2 = .file ∨ entry.2 = .dir)
    (hkeep : ¬ Removes cred t site.target) (honce : site.AtOnce now .tree) :
    (Replacement.tree.phase site.staging site.extractionRoot site.target).wpFaulty
      (FileTree.exec cred now) (Fails site.target)
      (OldOrNew t site.place (site.object now .tree)) (fun _ _ => True) t := by
  have hold : OldOrNew t site.place (site.object now .tree) t := Or.inl rfl
  -- entry by entry, unless there is a sole directory
  have heach : soleDir (t.entries site.extractionPos) = none →
      t.find cred site.target = .error .noent →
      (installEach site.staging site.extractionRoot site.target).wpFaulty (FileTree.exec cred now)
        (Fails site.target) (OldOrNew t site.place (site.object now .tree)) (fun _ _ => True)
          t := by
    intro hnone hmissing
    rw [object, hnone]
    apply site.wpFaulty_installEach hX hmissing
    intro hmkdir
    rcases honce hmkdir with hempty | hsole
    · exact hempty
    · rw [hnone] at hsole
      cases hsole
  rw [Replacement.phase, Prog.wpFaulty_bind]
  apply wpFaulty_removePathIfExists hkeep hold
  · intro hmissing
    simp only
    rw [installExtracted, Prog.wpFaulty_bind, io, Prog.wpFaulty_mapError]
    apply wpFaulty_ask rfl hold
    · intro entries hentries
      obtain rfl : entries = t.entries site.extractionPos := by
        simp only [FileTree.exec, site.readDir_extractionRoot hX hread, Except.ok.injEq] at hentries
        exact hentries.symm
      simp only [Except.mapError]
      rcases hlist : t.entries site.extractionPos with _ | ⟨entry, _ | ⟨second, rest⟩⟩
      · exact heach (by simp [hlist, soleDir]) hmissing
      · have hentry : entry ∈ t.entries site.extractionPos := by simp [hlist]
        have hdirAt := site.dirAt_entry hX hentry (hplain entry hentry)
        have hsource : site.extractionRoot ++ [.normal entry.1] ≠ site.target := by
          intro heq
          simpa [extractionRoot, target] using congrArg List.length heq
        simp only
        rw [Prog.wpFaulty_bind]
        apply wpFaulty_isDir hold
        · rw [hdirAt]
          obtain ⟨name, fileType⟩ := entry
          rcases hplain _ hentry with htype | htype
          · obtain rfl : fileType = .file := htype
            exact heach (by simp [hlist, soleDir]) hmissing
          · obtain rfl : fileType = .dir := htype
            have hsole := site.wpFaulty_installSole now hX hentry hmissing
            rw [object, hlist]
            exact hsole
        · intro heq
          exact absurd heq hsource
      · exact heach (by simp [hlist, soleDir]) hmissing
    · intro e _
      trivial
    · intro e _ _
      trivial
  · intro e
    trivial

/-! ### Where the phase is not all or nothing -/

variable (now) in
theorem isSome_object {kind : Replacement} (hstaged : site.Staged kind) :
    (site.object now kind []).isSome := by
  cases kind with
  | file =>
    obtain ⟨data, holes, attrs, hfile⟩ := hstaged
    simp [object, FileTree.subtree, hfile]
  | tree =>
    rw [object]
    rcases hlist : t.entries site.extractionPos with _ | ⟨⟨name, fileType⟩, _ | ⟨second, rest⟩⟩
    · simp [soleDir, gathered]
    · have hentry : (name, fileType) ∈ t.entries site.extractionPos := by simp [hlist]
      obtain ⟨child, hchild, -⟩ := FileTree.mem_entries.mp hentry
      cases fileType with
      | dir => simp [soleDir, FileTree.subtree, hchild]
      | _ => simp [soleDir, gathered]
    · simp [soleDir, gathered]

theorem isSome_place_of_removes (h : Removes cred t site.target) : (t.get? site.place).isSome := by
  rcases hfind : t.find cred site.target with e | ⟨p, node⟩
  · exact absurd h (not_removes_of_error hfind)
  rw [removes_iff hfind] at h
  split at h
  · rcases FileTree.removeDirAll_cases cred t site.target with ⟨e, he⟩ | ⟨_, _, _, hslot, hnode, _⟩
    · rw [he] at h
      cases h
    · obtain ⟨rfl, rfl⟩ := Prod.mk.inj (Except.ok.inj (site.slot_target.symm.trans hslot))
      simp [place, hnode]
  · rcases FileTree.unlink_cases cred t site.target with ⟨e, he⟩ | ⟨_, _, _, hslot, hnode, _, _⟩
    · rw [he] at h
      cases h
    · obtain ⟨rfl, rfl⟩ := Prod.mk.inj (Except.ok.inj (site.slot_target.symm.trans hslot))
      simp [place, hnode]

theorem run_createParent :
    (createDirAll site.parent).run (FileTree.exec cred now) t = (some (.ok ()), t) := by
  obtain ⟨e, he, hmkdir⟩ := FileTree.mkdir_of_walk now site.walk_parent
  have hcall : (FileTree.exec cred now (.mkdir site.parent) t).1 = .error e := by
    simp [FileTree.exec, hmkdir]
  have hdirAt : dirAt cred t site.parent = true := by
    obtain ⟨node, hnode, hfind⟩ := FileTree.find_of_walk site.walk_parent
    obtain ⟨node', hnode', hdir⟩ := FileTree.isDir_iff.mp (FileTree.isDir_of_look site.search_dir)
    obtain rfl : node = node' := Option.some.inj (hnode.symm.trans hnode')
    rw [dirAt, hfind]
    exact hdir
  have hask : ∀ e : IoError,
      (do if ← isDir site.parent then pure () else Prog.throw e : Fs IoError Unit).run
        (FileTree.exec cred now) t = (some (.ok ()), t) := by
    intro e
    rw [Prog.run_bind, run_isDir, hdirAt]
    rfl
  unfold createDirAll
  rcases hpath : site.parent with _ | ⟨c, path⟩
  · rfl
  · rw [List.length_cons, createDirAllWithin, ← hpath, Prog.run_bind, Prog.run_attempt]
    rcases he with rfl | rfl
    · rw [run_sys_error hcall (by decide)]
      simpa [FileTree.exec, hmkdir] using hask (.os .exist)
    · rw [run_sys_error hcall (by decide)]
      simpa [FileTree.exec, hmkdir] using hask (.os .busy)

variable (now) in
/-- After the removal and before the rename, there is nothing. -/
theorem not_allOrNothing_of_removes (kind : Replacement) (hstaged : site.Staged kind)
    (h : Removes cred t site.target) :
    ¬ AllOrNothing cred now t site.target site.place (site.object now kind)
      (kind.phase site.staging site.extractionRoot site.target) := by
  have hremove := run_removePathIfExists now site.slot_target h
  have hstops : (kind.phase site.staging site.extractionRoot site.target).Stops
      (FileTree.exec cred now) t (t.removeAt site.dir site.name) := by
    cases kind with
    | file =>
      rw [Replacement.phase, replaceWorkspaceFileFromStaging, site.parent_target]
      have hparent : (io (createDirAll site.parent)).run (FileTree.exec cred now) t =
          (some (.ok ()), t) := by
        rw [io, Prog.run_mapError, site.run_createParent]
        rfl
      exact .after hparent (.end_of_run hremove)
    | tree => exact .end_of_run hremove
  have hgone : (t.removeAt site.dir site.name).subtree site.place [] = none := by
    simp [FileTree.subtree, place]
  apply not_allOrNothing_of_stops hstops
  · intro hsame
    have hsome := site.isSome_place_of_removes h
    have hplace : t.subtree site.place [] = none := by rw [← hsame, hgone]
    simp [FileTree.subtree] at hplace
    simp [hplace] at hsome
  · intro hsame
    have hsome := site.isSome_object now hstaged
    simp [← hsame, hgone] at hsome

theorem run_createTarget {t' : FileTree} (h : t.mkdir cred now site.target = (.ok (), t')) :
    (createDirAll site.target).run (FileTree.exec cred now) t = (some (.ok ()), t') := by
  have hexec : FileTree.exec cred now (.mkdir site.target) t = (.ok (), t') := h
  have hlength : site.target.length = site.parent.length + 1 := by simp [target]
  rw [createDirAll, hlength, createDirAllWithin, Prog.run_bind, Prog.run_attempt,
    run_sys_ok (by rw [hexec]), hexec]
  rfl

theorem readDir_run (hX : t.look cred site.extractionPos = .dir true)
    (hread : t.allows cred site.extractionPos .read = true) :
    (io (sys (.readDir site.extractionRoot))).run (FileTree.exec cred now) t =
      (some (.ok (t.entries site.extractionPos)), t) := by
  have hcall : (FileTree.exec cred now (.readDir site.extractionRoot) t).1 =
      .ok (t.entries site.extractionPos) := site.readDir_extractionRoot hX hread
  rw [io, Prog.run_mapError, run_sys_ok hcall]
  rfl

variable (now) in
/-- Entries that are moved one by one have not all arrived when the first is moved. -/
theorem not_allOrNothing_of_not_atOnce (kind : Replacement) (hstaged : site.Staged kind)
    (h : ¬ site.AtOnce now kind) :
    ¬ AllOrNothing cred now t site.target site.place (site.object now kind)
      (kind.phase site.staging site.extractionRoot site.target) := by
  cases kind with
  | file => exact absurd trivial h
  | tree =>
    obtain ⟨hX, hread, hplain⟩ := hstaged
    simp only [AtOnce, Classical.not_imp, not_or, Option.not_isSome_iff_eq_none] at h
    obtain ⟨hmkdir, hentries, hsole⟩ := h
    rcases FileTree.mkdir_cases cred now t site.target with
      ⟨e, he⟩ | ⟨dir, name, hdir, hfree, hname, hslot, hadd⟩
    · rw [he] at hmkdir
      cases hmkdir
    obtain ⟨rfl, rfl⟩ := Prod.mk.inj (Except.ok.inj (site.slot_target.symm.trans hslot))
    have hmissing : t.find cred site.target = .error .noent := by
      rw [FileTree.find, target,
        walk_missing site.walk_parent site.search_dir (FileTree.look_eq_absent.mpr hfree)]
    obtain ⟨t', ht'⟩ : ∃ t', t' =
      t.add site.dir site.name ⟨.dir, FileTree.newAttrs cred now 0o777⟩ hdir hfree hname := ⟨_, rfl⟩
    rw [← ht'] at hadd
    have heach : (installEach site.staging site.extractionRoot site.target).Stops
        (FileTree.exec cred now) t t' := by
      apply Prog.Stops.end_of_run (a := ())
      rw [io, Prog.run_mapError, site.run_createTarget hadd]
      rfl
    have hstops : (Replacement.tree.phase site.staging site.extractionRoot site.target).Stops
        (FileTree.exec cred now) t t' := by
      apply Prog.Stops.after (run_removePathIfExists_missing now hmissing)
      apply Prog.Stops.after (site.readDir_run hX hread)
      rcases hlist : t.entries site.extractionPos with _ | ⟨⟨name, fileType⟩, _ | ⟨second, rest⟩⟩
      · exact heach
      · have hentry : (name, fileType) ∈ t.entries site.extractionPos := by simp [hlist]
        have hfile : fileType = .file := by
          rcases hplain _ hentry with htype | htype
          · exact htype
          · obtain rfl : fileType = .dir := htype
            simp [hlist, soleDir] at hsole
        simp only
        apply Prog.Stops.after run_isDir
        rw [site.dirAt_entry hX hentry (hplain _ hentry), hfile]
        exact heach
      · exact heach
    have hput : ∀ q, t'.get? q = if q = site.place then
        some ⟨.dir, FileTree.newAttrs cred now 0o777⟩ else t.get? q := by
      intro q
      rw [ht', FileTree.get?_add, place]
    obtain ⟨⟨first, fileType⟩, hfirst⟩ := List.exists_mem_of_ne_nil _ hentries
    obtain ⟨child, hchild, -⟩ := FileTree.mem_entries.mp hfirst
    apply not_allOrNothing_of_stops hstops
    · intro hsame
      have hnone : t'.subtree site.place [] = none := by
        rw [hsame]
        simpa [FileTree.subtree, place] using hfree
      simp [FileTree.subtree, hput] at hnone
    · intro hsame
      have hnone : t'.subtree site.place [first] = none := by
        rw [FileTree.subtree, hput, if_neg (by simp), place]
        exact FileTree.get?_none_below hfree (List.prefix_append _ _)
      rw [hsame, object, hsole] at hnone
      simp [gathered, hchild] at hnone

end Site

/-- **When a replacement is all or nothing.**  Whatever fails, and wherever the process
    stops, the target holds the old object or the new one, exactly when nothing is
    removed from it first and the new object takes its place in one step. -/
theorem replacement_allOrNothing_iff (site : Site cred t) (kind : Replacement)
    (hstaged : site.Staged kind) :
    AllOrNothing cred now t site.target site.place (site.object now kind)
        (kind.phase site.staging site.extractionRoot site.target) ↔
      ¬ Removes cred t site.target ∧ site.AtOnce now kind := by
  constructor
  · intro hall
    constructor
    · intro hremoves
      exact site.not_allOrNothing_of_removes now kind hstaged hremoves hall
    · by_contra honce
      exact site.not_allOrNothing_of_not_atOnce now kind hstaged honce hall
  · rintro ⟨hkeep, honce⟩
    apply allOrNothing_of_wpFaulty
    cases kind with
    | file => exact site.wpFaulty_file hkeep
    | tree =>
      obtain ⟨hX, hread, hplain⟩ := hstaged
      exact site.wpFaulty_tree hX hread hplain hkeep honce

end Phase

/-! ### Imports into a directory of one file -/

/-- The directory `w` holds a file `a`, a staged file, and two extracted files. -/
def stagedHost : FileTree := .ofEntries
  [([], ⟨.dir, ⟨0o755, 0, 0, 0⟩⟩),
    (["w"], ⟨.dir, ⟨0o755, 0, 0, 0⟩⟩),
    (["w", "a"], ⟨.file [1] false, ⟨0o644, 0, 0, 0⟩⟩),
    (["w", "s"], ⟨.file [2] false, ⟨0o644, 0, 0, 0⟩⟩),
    (["w", "x"], ⟨.dir, ⟨0o755, 0, 0, 0⟩⟩),
    (["w", "x", "p"], ⟨.file [3] false, ⟨0o644, 0, 0, 0⟩⟩),
    (["w", "x", "q"], ⟨.file [4] false, ⟨0o644, 0, 0, 0⟩⟩)]
  (by decide)

def rootUser : Cred := ⟨0, 0, true, 0o022⟩

def stagedSite (name : String) (hstaging : "s" ≠ name) (hextraction : "x" ≠ name) :
    Site rootUser stagedHost where
  parent := canonical ["w"]
  dir := ["w"]
  name := name
  stagingName := "s"
  extractionName := "x"
  walk_parent := by decide
  search_dir := by decide
  staging_ne := hstaging
  extraction_ne := hextraction

/-- A file goes to the free name `b` in one step. -/
theorem replacement_of_free_name :
    AllOrNothing rootUser 7 stagedHost (canonical ["w", "b"]) ["w", "b"]
      (stagedHost.subtree ["w", "s"])
      (replaceWorkspaceFileFromStaging (canonical ["w", "s"]) (canonical ["w", "b"])) := by
  have h := replacement_allOrNothing_iff rootUser 7 stagedHost
    (stagedSite "b" (by decide) (by decide)) .file ⟨[2], false, ⟨0o644, 0, 0, 0⟩, by decide⟩
  apply h.mpr
  constructor
  · exact not_removes_of_error (e := .noent) (by decide)
  · trivial

/-- A file that replaces `a` leaves a moment without either, and two extracted entries
    reach the free name `b` one after the other. -/
theorem replacement_interrupted :
    (¬ AllOrNothing rootUser 7 stagedHost (canonical ["w", "a"]) ["w", "a"]
        (stagedHost.subtree ["w", "s"])
        (replaceWorkspaceFileFromStaging (canonical ["w", "s"]) (canonical ["w", "a"]))) ∧
      ¬ AllOrNothing rootUser 7 stagedHost (canonical ["w", "b"]) ["w", "b"]
        ((stagedSite "b" (by decide) (by decide)).gathered 7)
        (Replacement.tree.phase (canonical ["w", "s"]) (canonical ["w", "x"])
          (canonical ["w", "b"])) := by
  constructor
  · apply (stagedSite "a" (by decide) (by decide)).not_allOrNothing_of_removes 7 .file
    · exact ⟨[2], false, ⟨0o644, 0, 0, 0⟩, by decide⟩
    · have hfind : stagedHost.find rootUser (canonical ["w", "a"]) =
          .ok (["w", "a"], ⟨.file [1] false, ⟨0o644, 0, 0, 0⟩⟩) := by decide
      exact (removes_iff hfind).mpr (by decide)
  · apply (stagedSite "b" (by decide) (by decide)).not_allOrNothing_of_not_atOnce 7 .tree
    · exact ⟨by decide, by decide, by decide⟩
    · simp only [Site.AtOnce]
      decide

end Scriptorium
