import Scriptorium.Syscalls
import Scriptorium.HostPath
import Scriptorium.ServiceError

/-!
# `std::fs` over the system calls

Code that works on files is a program over `FsCall`.  `sys` performs one call
and fails with its error number; the other definitions are the functions of
`std::fs` and `std::path` that make more than one call, or that swallow an error.
-/

namespace Scriptorium

open Posix Effects

/-- A program over the file system that fails with `ε`. -/
abbrev Fs (ε α : Type) := Prog FsCall FsCall.Reply ε α

/-- One call.  A blocking `open` of a pipe nobody reads never returns. -/
def sys (c : FsCall) : Fs IoError c.Out :=
  .call c fun
    | .ok out => .done (.ok out)
    | .error .wouldblock => .spin
    | .error e => .done (.error (.os e))

/-- `?` from an `io::Result` into the service's result. -/
def io {α : Type} (m : Fs IoError α) : Fs Error α := m.mapError .io

/-- `?` from the service's result into a handler's. -/
def rpc {α : Type} (m : Fs Error α) : Fs Status α := m.mapError Error.toStatus

/-- `?` from an `io::Result` directly into a handler's result. -/
def ioRpc {α : Type} (m : Fs IoError α) : Fs Status α := m.mapError IoError.toStatus

/-- `let _ = …`: the outcome is thrown away. -/
def ignore {ε ε' α : Type} (m : Fs ε α) : Fs ε' Unit := do
  let _ ← m.attempt
  pure ()

/-! ### `std::path::Path` -/

/-- `Path::is_dir`. -/
def isDir {ε : Type} (path : PathBuf) : Fs ε Bool := do
  match ← (sys (.fileType path)).attempt with
  | .ok .dir => pure true
  | _ => pure false

/-- `Path::exists`. -/
def pathExists {ε : Type} (path : PathBuf) : Fs ε Bool := do
  match ← (sys (.fileType path)).attempt with
  | .ok _ => pure true
  | .error _ => pure false

/-! ### `std::fs` -/

/-- The recursion of `create_dir_all`, over the length of the path. -/
def createDirAllWithin : Nat → PathBuf → Fs IoError Unit
  | 0, _ => pure ()
  | n + 1, path => do
    match ← (sys (.mkdir path)).attempt with
    | .ok () => pure ()
    | .error (.os .noent) =>
      match path.parent with
      | none => Prog.throw (.custom "failed to create whole tree")
      | some parent =>
        createDirAllWithin n parent
        match ← (sys (.mkdir path)).attempt with
        | .ok () => pure ()
        | .error e => if ← isDir path then pure () else Prog.throw e
    | .error e => if ← isDir path then pure () else Prog.throw e

/-- `create_dir_all`. -/
def createDirAll (path : PathBuf) : Fs IoError Unit := createDirAllWithin path.length path

/-! ### What one call does -/

section

variable {S : Type} {exec : (c : FsCall) → S → c.Reply × S} {c : FsCall} {s : S}

theorem calls_sys : (sys c).calls exec s = [(c, s)] := by
  simp only [sys, Prog.calls]
  split <;> rfl

theorem run_sys_ok {out : c.Out} (h : (exec c s).1 = .ok out) :
    (sys c).run exec s = (some (.ok out), (exec c s).2) := by
  simp only [sys, Prog.run_call, h, Prog.run_done]

theorem run_sys_error {e : Errno} (h : (exec c s).1 = .error e) (he : e ≠ .wouldblock) :
    (sys c).run exec s = (some (.error (.os e)), (exec c s).2) := by
  simp only [sys, Prog.run_call, h]
  cases e <;> trivial

theorem run_sys_of_ok {out : c.Out} {s' : S} (h : exec c s = (.ok out, s')) :
    (sys c).run exec s = (some (.ok out), s') := by
  rw [run_sys_ok (congrArg Prod.fst h), h]

theorem run_sys_of_error {e : Errno} {s' : S} (h : exec c s = (.error e, s'))
    (he : e ≠ .wouldblock) :
    (sys c).run exec s = (some (.error (.os e)), s') := by
  rw [run_sys_error (congrArg Prod.fst h) he, h]

theorem run_sys_state : ((sys c).run exec s).2 = (exec c s).2 := by
  simp only [sys, Prog.run_call]
  split <;> rfl

theorem eq_of_run_sys_ok {out : c.Out} (h : ((sys c).run exec s).1 = some (.ok out)) :
    (exec c s).1 = .ok out := by
  simp only [sys, Prog.run_call] at h
  split at h <;> simp_all

/-- What a call that succeeds has done. -/
theorem exec_of_run_sys_ok {out : c.Out} {s' : S} (h : (sys c).run exec s = (some (.ok out), s')) :
    exec c s = (.ok out, s') := by
  apply Prod.ext
  · exact eq_of_run_sys_ok (congrArg Prod.fst h)
  · rw [← run_sys_state, h]

/-- What a call that fails has done. -/
theorem exec_of_run_sys_error {err : IoError} {s' : S}
    (h : (sys c).run exec s = (some (.error err), s')) :
    ∃ e, err = .os e ∧ exec c s = (.error e, s') := by
  have hstate : (exec c s).2 = s' := by rw [← run_sys_state, h]
  simp only [sys, Prog.run_call] at h
  split at h
  · cases h
  · cases h
  · rename_i e _ hreply
    exact ⟨e, (Except.error.inj (Option.some.inj (congrArg Prod.fst h))).symm,
      Prod.ext hreply hstate⟩

end

/-! ### Questions about a path -/

section

variable {cred : Cred} {now : Nat} {t : FileTree} {ε : Type} {path : PathBuf}

/-- Whether a path leads to a directory. -/
def dirAt (cred : Cred) (t : FileTree) (path : PathBuf) : Bool :=
  match t.find cred path with
  | .ok (_, node) => node.isDir
  | .error _ => false

theorem find_error_ne {e : Errno} (h : t.find cred path = .error e) : e ≠ .wouldblock := by
  rintro rfl
  exact FileTree.find_ne_wouldblock h

theorem run_isDir :
    (isDir path : Fs ε Bool).run (FileTree.exec cred now) t =
    (some (.ok (dirAt cred t path)), t) := by
  rw [isDir, Prog.run_bind, Prog.run_attempt, dirAt]
  cases hfind : t.find cred path with
  | error e =>
    have hcall : (FileTree.exec cred now (.fileType path) t).1 = .error e := by
      simp [FileTree.exec, hfind, Except.map]
    rw [run_sys_error hcall (find_error_ne hfind)]
    rfl
  | ok found =>
    have hcall : (FileTree.exec cred now (.fileType path) t).1 = .ok found.2.fileType := by
      simp [FileTree.exec, hfind, Except.map]
    rw [run_sys_ok hcall]
    obtain ⟨p, node⟩ := found
    cases hkind : node.kind <;> simp [Node.fileType, Node.isDir, hkind, FileTree.exec]

theorem run_pathExists :
    (pathExists path : Fs ε Bool).run (FileTree.exec cred now) t =
      (some (.ok (t.find cred path).toBool), t) := by
  rw [pathExists, Prog.run_bind, Prog.run_attempt]
  cases hfind : t.find cred path with
  | error e =>
    have hcall : (FileTree.exec cred now (.fileType path) t).1 = .error e := by
      simp [FileTree.exec, hfind, Except.map]
    rw [run_sys_error hcall (find_error_ne hfind)]
    rfl
  | ok found =>
    have hcall : (FileTree.exec cred now (.fileType path) t).1 = .ok found.2.fileType := by
      simp [FileTree.exec, hfind, Except.map]
    rw [run_sys_ok hcall]
    rfl

theorem calls_isDir :
    (isDir path : Fs ε Bool).calls (FileTree.exec cred now) t = [(.fileType path, t)] := by
  rw [isDir, Prog.calls_bind, Prog.calls_attempt, calls_sys, Prog.run_attempt]
  cases hrun : (sys (.fileType path)).run (FileTree.exec cred now) t with
  | mk r s =>
    cases r with
    | none => rfl
    | some r =>
      cases r with
      | error e => rfl
      | ok fileType => cases fileType <;> rfl

end

end Scriptorium
