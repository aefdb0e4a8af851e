import Scriptorium.HostFs
import Mathlib.Algebra.Order.BigOperators.Group.List
import Mathlib.Algebra.Order.Monoid.Canonical.Defs
import Mathlib.Algebra.Order.Group.Nat

/-!
# Listing

`service/files.rs`: the walk behind `ListFiles`, an explicit stack of directories
whose entries are described without following links.
-/

namespace Scriptorium

open Posix Effects

structure FileInfo where
  path : String
  sizeBytes : Nat
  mode : Nat
  isDir : Bool
  modifiedUnix : Nat
deriving DecidableEq, Repr

/-- `Path::strip_prefix`, or the path itself. -/
def PathBuf.relativeTo (root path : PathBuf) : PathBuf :=
  if path.startsWith root then path.drop root.length else path

def fileInfo (workspaceRoot path : PathBuf) (info : Meta) : FileInfo where
  path := (PathBuf.relativeTo workspaceRoot path).display
  sizeBytes := info.size
  mode := info.attrs.mode % 0o10000
  isDir := info.fileType == .dir
  modifiedUnix := info.attrs.mtime

/-- Describe the entries of one directory, collecting the subdirectories to visit. -/
def describeEntries (workspaceRoot dir : PathBuf) (recursive : Bool) :
    List String → List PathBuf → List FileInfo → Fs IoError (List PathBuf × List FileInfo)
  | [], stack, out => pure (stack, out)
  | name :: names, stack, out => do
    let path := dir ++ [.normal name]
    let info ← sys (.lstat path)
    describeEntries workspaceRoot dir recursive names
      (if info.fileType = .dir ∧ recursive = true then path :: stack else stack)
      (out ++ [fileInfo workspaceRoot path info])

/-- The loop of `collect_files`; the directory found last is visited first. -/
def collectFiles (workspaceRoot : PathBuf) (recursive : Bool) :
    Nat → List PathBuf → List FileInfo → Fs IoError (List FileInfo)
  | _, [], out => pure out
  | 0, _ :: _, _ => .spin
  | fuel + 1, dir :: stack, out => do
    let entries ← sys (.readDir dir)
    let (stack, out) ← describeEntries workspaceRoot dir recursive (entries.map Prod.fst) stack out
    collectFiles workspaceRoot recursive fuel stack out

/-! ### What a listing computes -/

section Listing

variable {cred : Cred} {now : Nat} {t : FileTree}

/-- The description of the named entries of the directory at `p`. -/
def listed (t : FileTree) (workspaceRoot dir : PathBuf) (p : Pos) (names : List String) :
    List FileInfo :=
  names.filterMap fun name =>
    (t.get? (p ++ [name])).map fun node => fileInfo workspaceRoot (dir ++ [.normal name]) node.info

theorem run_lstat {dir : PathBuf} {p : Pos} {name : String} {node : Node}
    (hwalk : walk (t.look cred) maxLinks [] dir = .ok p) (hp : t.look cred p = .dir true)
    (hnode : t.get? (p ++ [name]) = some node) :
    (sys (.lstat (dir ++ [.normal name]))).run (FileTree.exec cred now) t =
      (some (.ok node.info), t) := by
  refine run_sys_ok ?_
  simp only [FileTree.exec, FileTree.lstat_concat, FileTree.slot_concat, hwalk,
    search_eq_ok.mpr hp, hnode]

/-- The entry of a directory is found behind the path of the directory. -/
theorem walk_concat_dir (hcred : cred.privileged = true) {dir : PathBuf} {p : Pos} {name : String}
    (hwalk : walk (t.look cred) maxLinks [] dir = .ok p) (hp : t.look cred p = .dir true)
    (hchild : t.isDir (p ++ [name]) = true) :
    walk (t.look cred) maxLinks [] (dir ++ [.normal name]) = .ok (p ++ [name]) := by
  obtain ⟨fewer, -, hres, -⟩ :=
    (resolve_append [.normal name] (by simp)).1 p hwalk
  rw [walk_eq_ok, hres, resolve_normal, search_eq_ok.mpr hp, FileTree.look_of_isDir hcred hchild]
  simp

/-- Describing entries that exist succeeds, and collects subdirectories. -/
theorem run_describeEntries (now : Nat) (workspaceRoot : PathBuf) {dir : PathBuf}
    (recursive : Bool) {p : Pos}
    (hwalk : walk (t.look cred) maxLinks [] dir = .ok p) (hp : t.look cred p = .dir true)
    (names : List String) (hnames : ∀ name ∈ names, (t.get? (p ++ [name])).isSome) :
    ∃ dirs : List PathBuf,
      (∀ d ∈ dirs, ∃ name, d = dir ++ [.normal name] ∧ t.isDir (p ++ [name]) = true) ∧
      ∀ stack out, (describeEntries workspaceRoot dir recursive names stack out).run
          (FileTree.exec cred now) t =
        (some (.ok (dirs ++ stack, out ++ listed t workspaceRoot dir p names)), t) := by
  induction names with
  | nil => exact ⟨[], by simp, fun stack out => by simp [describeEntries, listed]⟩
  | cons name names ih =>
    rw [List.forall_mem_cons] at hnames
    obtain ⟨node, hnode⟩ := Option.isSome_iff_exists.mp hnames.1
    obtain ⟨dirs, hdirs, hrun⟩ := ih hnames.2
    have hlisted : listed t workspaceRoot dir p (name :: names) =
        fileInfo workspaceRoot (dir ++ [.normal name]) node.info ::
          listed t workspaceRoot dir p names := by simp [listed, hnode]
    by_cases hvisit : node.info.fileType = .dir ∧ recursive = true
    · refine ⟨dirs ++ [dir ++ [.normal name]], ?_, fun stack out => ?_⟩
      · intro d hd
        rcases List.mem_append.mp hd with hd | hd
        · exact hdirs d hd
        · refine ⟨name, List.mem_singleton.mp hd, FileTree.isDir_iff.mpr ⟨node, hnode, ?_⟩⟩
          have htype := hvisit.1
          rw [Node.info, Node.fileType] at htype
          cases hkind : node.kind <;> simp_all [Node.isDir]
      · rw [describeEntries, Prog.run_bind_ok _ (run_lstat hwalk hp hnode), if_pos hvisit, hrun,
          hlisted]
        simp
    · refine ⟨dirs, hdirs, fun stack out => ?_⟩
      rw [describeEntries, Prog.run_bind_ok _ (run_lstat hwalk hp hnode), if_neg hvisit, hrun,
        hlisted]
      simp

theorem run_readDir (hcred : cred.privileged = true) {src : PathBuf} {p : Pos}
    (hwalk : walk (t.look cred) maxLinks [] src = .ok p) (hdir : t.isDir p = true) :
    (sys (.readDir src)).run (FileTree.exec cred now) t = (some (.ok (t.entries p)), t) :=
  run_sys_ok (FileTree.readDir_of_privileged hcred hwalk hdir)

/-- One turn of the loop: a directory is taken from the stack, its entries are
    described and its subdirectories pushed. -/
theorem run_collectFiles_turn (now : Nat) (hcred : cred.privileged = true)
    (workspaceRoot : PathBuf) {dir : PathBuf} (recursive : Bool) {p : Pos}
    (hwalk : walk (t.look cred) maxLinks [] dir = .ok p) (hdir : t.isDir p = true) :
    ∃ dirs : List PathBuf,
      (∀ d ∈ dirs, ∃ name, d = dir ++ [.normal name] ∧ t.isDir (p ++ [name]) = true) ∧
      ∀ fuel stack out, (collectFiles workspaceRoot recursive (fuel + 1) (dir :: stack) out).run
          (FileTree.exec cred now) t =
        (collectFiles workspaceRoot recursive fuel (dirs ++ stack)
          (out ++ listed t workspaceRoot dir p (t.children p))).run (FileTree.exec cred now) t := by
  obtain ⟨dirs, hdirs, hrun⟩ := run_describeEntries now workspaceRoot recursive hwalk
    (FileTree.look_of_isDir hcred hdir) (t.children p)
    fun name hname => FileTree.mem_children.mp hname
  refine ⟨dirs, hdirs, fun fuel stack out => ?_⟩
  rw [collectFiles, Prog.run_bind_ok _ (run_readDir hcred hwalk hdir), FileTree.map_fst_entries,
    Prog.run_bind_ok _ (hrun stack out)]

/-- A directory is listed, with everything below it, in finitely many turns. -/
theorem run_collectFiles (now : Nat) (hcred : cred.privileged = true) (workspaceRoot : PathBuf)
    (recursive : Bool) (depth : Nat) {dir : PathBuf} {p : Pos}
    (hdepth : ∀ q, (t.get? q).isSome → p <+: q → q.length < p.length + depth)
    (hwalk : walk (t.look cred) maxLinks [] dir = .ok p) (hdir : t.isDir p = true) :
    ∃ turns more, ∀ fuel stack out,
      (collectFiles workspaceRoot recursive (fuel + turns) (dir :: stack) out).run
          (FileTree.exec cred now) t =
        (collectFiles workspaceRoot recursive fuel stack
          (out ++ (listed t workspaceRoot dir p (t.children p) ++ more))).run
            (FileTree.exec cred now) t := by
  induction depth generalizing dir p with
  | zero =>
    have := hdepth p (FileTree.isSome_of_isDir hdir) List.prefix_rfl
    omega
  | succ depth ih =>
    obtain ⟨dirs, hdirs, hturn⟩ :=
      run_collectFiles_turn now hcred workspaceRoot recursive hwalk hdir
    -- the subdirectories are worked off one after the other
    have hall : ∀ ds : List PathBuf, (∀ d ∈ ds, d ∈ dirs) → ∃ turns more, ∀ fuel stack out,
        (collectFiles workspaceRoot recursive (fuel + turns) (ds ++ stack) out).run
            (FileTree.exec cred now) t =
          (collectFiles workspaceRoot recursive fuel stack (out ++ more)).run
            (FileTree.exec cred now) t := by
      intro ds
      induction ds with
      | nil => exact fun _ => ⟨0, [], fun fuel stack out => by simp⟩
      | cons d ds ihds =>
        intro hmem
        rw [List.forall_mem_cons] at hmem
        obtain ⟨name, rfl, hchild⟩ := hdirs d hmem.1
        have hwalk' := walk_concat_dir hcred hwalk (FileTree.look_of_isDir hcred hdir) hchild
        have hdepth' : ∀ q, (t.get? q).isSome → p ++ [name] <+: q →
            q.length < (p ++ [name]).length + depth := by
          intro q hq hpre
          have := hdepth q hq ((List.prefix_append p [name]).trans hpre)
          rw [List.length_append, List.length_singleton]
          omega
        obtain ⟨turns, more, hfirst⟩ := ih hdepth' hwalk' hchild
        obtain ⟨turns', more', hrest⟩ := ihds hmem.2
        refine ⟨turns' + turns, listed t workspaceRoot (dir ++ [.normal name]) (p ++ [name])
          (t.children (p ++ [name])) ++ more ++ more', fun fuel stack out => ?_⟩
        rw [← Nat.add_assoc, List.cons_append, hfirst, hrest]
        simp
    obtain ⟨turns, more, hrest⟩ := hall dirs fun d hd => hd
    refine ⟨turns + 1, more, fun fuel stack out => ?_⟩
    rw [← Nat.add_assoc, hturn, hrest, List.append_assoc]

/-- Positions of a tree are of bounded length. -/
theorem exists_depth (t : FileTree) (p : Pos) :
    ∃ depth, ∀ q, (t.get? q).isSome → p <+: q → q.length < p.length + depth := by
  refine ⟨(t.support.map List.length).sum + 1, fun q hq _ => ?_⟩
  have hmem : q.length ∈ t.support.map List.length :=
    List.mem_map_of_mem ((t.mem_support q).mpr hq)
  have hle := List.le_sum_of_mem hmem
  omega

end Listing

end Scriptorium
