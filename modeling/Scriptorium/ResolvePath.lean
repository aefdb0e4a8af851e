import Scriptorium.Workspace
import Scriptorium.FileTree

/-!
# `resolve_path` and the walk of the operating system

The check in `resolve_path` never touches the file system.  In a tree without
symbolic links it nevertheless decides what a walk of the caller's path would
do: the lexical fold ends where the walk ends, however often the path leaves the
home and comes back (`resolvePath_spec`).
-/

namespace Scriptorium

open Posix

/-- A walk of at least one component that succeeds ends at a node. -/
theorem isSome_of_walk_cons {t : FileTree} {cred : Cred} {links : Nat} {pos q : Pos}
    {components : List Component} (hne : components ≠ [])
    (h : walk (t.look cred) links pos components = .ok q) : (t.get? q).isSome := by
  have hroot : (t.get? []).isSome := FileTree.isSome_of_isDir FileTree.isDir_root
  have hpos : search (t.look cred) pos = .ok () → (t.get? pos).isSome := by
    intro hs
    exact FileTree.isSome_of_isDir (FileTree.isDir_of_look (search_eq_ok.mp hs))
  rcases hs : search (t.look cred) pos with e | _
  · -- only an absolute path does not look at where it starts
    cases components with
    | nil => exact absurd rfl hne
    | cons c rest =>
      rw [walk_eq_ok] at h
      cases c with
      | rootDir =>
        rw [resolve_rootDir] at h
        exact FileTree.isSome_of_walk hroot (walk_eq_ok.mpr h)
      | curDir => simp [resolve_curDir, hs] at h
      | parentDir => simp [resolve_parentDir, hs] at h
      | normal name => simp [resolve_normal, hs] at h
  · exact FileTree.isSome_of_walk (hpos hs) h

/-- A node of a tree without links is reached by its canonical path. -/
theorem walk_canonical_of_symlinkFree {t : FileTree} (ht : t.SymlinkFree) {cred : Cred}
    (hcred : cred.privileged = true) {links : Nat} {start q : Pos} (hq : (t.get? q).isSome) :
    walk (t.look cred) links start (canonical q) = .ok q := by
  have hstart : walk (t.look cred) links start (canonical q) =
      walk (t.look cred) links [] (canonical q) := by
    simp only [walk, canonical, resolve_rootDir]
  rw [hstart]
  refine walk_canonical ?_ ?_ (ht.look_ne_link cred q)
  · intro p hpq hne
    exact FileTree.look_of_isDir hcred (FileTree.isDir_above hq hpq hne)
  · rw [Ne, FileTree.look_eq_absent]
    exact Option.isSome_iff_ne_none.mp hq

/-- **The path check decides the walk.**  An accepted path belongs to a valid
    id, has no dot component and lies below the home; and in every tree without
    links in which the walk of `relative` from the home succeeds, the accepted
    path is the canonical path of the node that walk reaches, and a path is
    rejected exactly when the walk ends outside the home. -/
theorem resolvePath_spec {root : String} (hroot : RootPath root) (workspaceId relative : String) :
    (∀ p, resolvePath root workspaceId relative = .ok p →
      ValidId workspaceId ∧ (∀ c ∈ p, c ≠ .curDir ∧ c ≠ .parentDir) ∧
        PathBuf.ofString root ++ [.normal workspaceId, .normal "home"] <+: p) ∧
    ∀ (t : FileTree) (cred : Cred) (links : Nat) (q : Pos), t.SymlinkFree →
      walk (t.look cred) links (homePos root workspaceId) (segments relative) = .ok q →
      (∀ p, resolvePath root workspaceId relative = .ok p →
        p = canonical q ∧ ∀ (admin : Cred) (links' : Nat) (start : Pos), admin.privileged = true →
          walk (t.look admin) links' start p = .ok q) ∧
      (ValidId workspaceId →
        (resolvePath root workspaceId relative = .error (.pathEscape relative) ↔
          ¬ homePos root workspaceId <+: q)) := by
  refine ⟨?_, ?_⟩
  · intro p hp
    by_cases hid : ValidId workspaceId
    · rw [resolvePath_eq hroot hid] at hp
      split at hp
      · rename_i hpre
        obtain rfl := Except.ok.inj hp
        refine ⟨hid, fun c hc => PathBuf.mem_canonical hc, ?_⟩
        have hhome : PathBuf.ofString root ++ [.normal workspaceId, .normal "home"] =
            canonical (homePos root workspaceId) := by
          rw [ofString_root hroot, homePos]
          simp [canonical]
        rw [hhome]
        exact canonical_prefix_iff.mpr hpre
      · cases hp
    · rw [resolvePath_of_not_validId hid] at hp
      cases hp
  · intro t cred links q ht hwalk
    have hq : q = lexical (homePos root workspaceId) (segments relative) :=
      walk_eq_lexical (ht.look_ne_link cred) hwalk
    have hsome : (t.get? q).isSome := isSome_of_walk_cons (segments_ne_nil relative) hwalk
    refine ⟨?_, ?_⟩
    · intro p hp
      have hpq : p = canonical q := by
        by_cases hid : ValidId workspaceId
        · rw [resolvePath_eq hroot hid, ← hq] at hp
          split at hp
          · exact (Except.ok.inj hp).symm
          · cases hp
        · rw [resolvePath_of_not_validId hid] at hp
          cases hp
      refine ⟨hpq, fun admin links' start hadmin => ?_⟩
      rw [hpq]
      exact walk_canonical_of_symlinkFree ht hadmin hsome
    · intro hid
      rw [resolvePath_eq hroot hid, ← hq]
      split
      · rename_i hpre
        simp [hpre]
      · rename_i hpre
        simp [hpre]

def hostDir : Node := ⟨.dir, ⟨0o755, 0, 0, 0⟩⟩

/-- A host with one workspace, whose home holds a directory and a file. -/
def sampleHost : FileTree := .ofEntries
  [([], hostDir), (["srv"], hostDir), (["srv", "w1"], hostDir), (["srv", "w1", "home"], hostDir),
    (["srv", "w1", "home", "a"], hostDir),
    (["srv", "w1", "home", "b"], ⟨.file [104, 105] false, ⟨0o644, 1000, 1000, 0⟩⟩)]
  (by decide)

/-- The path `a/../../home//b` leaves the home and comes back to it. -/
theorem resolvePath_spec_reentry :
    (∀ p, resolvePath "/srv" "w1" "a/../../home//b" = .ok p →
      p = canonical ["srv", "w1", "home", "b"]) ∧
    (resolvePath "/srv" "w1" "a/../../home//b" = .error (.pathEscape "a/../../home//b") ↔
      ¬ ["srv", "w1", "home"] <+: ["srv", "w1", "home", "b"]) := by
  have hroot : RootPath "/srv" := ⟨by decide, by decide⟩
  have hfree : sampleHost.SymlinkFree := FileTree.symlinkFree_ofEntries (by decide)
  have hwalk : walk (sampleHost.look ⟨0, 0, true, 0o022⟩) 40 (homePos "/srv" "w1")
      (segments "a/../../home//b") = .ok ["srv", "w1", "home", "b"] := by rfl
  have hspec := (resolvePath_spec hroot "w1" "a/../../home//b").2 _ _ _ _ hfree hwalk
  have hhome : homePos "/srv" "w1" = ["srv", "w1", "home"] := by decide
  refine ⟨fun p hp => (hspec.1 p hp).1, ?_⟩
  rw [← hhome]
  exact hspec.2 (validateWorkspaceId_eq_ok.mp rfl)

end Scriptorium
