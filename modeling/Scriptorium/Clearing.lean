import Scriptorium.Installation

/-!
# What stands at the target of an import

`remove_path_if_exists` asks what a path names, links followed, and removes the entry
itself.  A link that leads nowhere is therefore left in its place: a file can still take it,
a directory cannot (`GivesWay`).
-/

namespace Scriptorium

open Posix Effects

variable {cred : Cred} {now : Nat} {t s : FileTree} {dir : Pos} {name : String}

/-- What stands at a position gives way to an import: nothing does, or a node is found
    there, links followed; a file also takes the place of a link that leads nowhere. -/
def GivesWay (cred : Cred) (t : FileTree) (p : Pos) (encoding : WorkspaceObjectEncoding) : Prop :=
  t.get? p = none ∨ (∃ found, t.find cred (canonical p) = .ok found) ∨
    encoding = .raw ∧ t.find cred (canonical p) = .error .noent

instance (encoding : WorkspaceObjectEncoding) (p : Pos) : Decidable (GivesWay cred t p encoding) :=
  have : Decidable (∃ found, t.find cred (canonical p) = .ok found) :=
    decidable_of_iff ((t.find cred (canonical p)).isOk = true)
      (by cases t.find cred (canonical p) <;> simp [Except.isOk, Except.toBool])
  inferInstanceAs (Decidable (_ ∨ _ ∨ _ ∧ _))

/-- Whoever follows a link at the target does not come by the names made up on the way. -/
def Unaware (cred : Cred) (clock : ImportClock) (t : FileTree) (dir : Pos) (name : String) : Prop :=
  ∀ node, t.get? (dir ++ [name]) = some node → node.isLink = true →
    ∀ q ∈ looks (t.look cred) maxLinks [] (canonical (dir ++ [name])),
      ¬ stagingPos clock dir <+: q ∧ ¬ extractionPos clock dir <+: q

/-! ### What is found -/

/-- What a walk comes by decides whether it ends at a node, and if not, why. -/
theorem find_of_looks {path : PathBuf}
    (h : ∀ q ∈ looks (t.look cred) maxLinks [] path, t.look cred q = s.look cred q) :
    ((∃ found, s.find cred path = .ok found) ↔ ∃ found, t.find cred path = .ok found) ∧
      ∀ e, s.find cred path = .error e ↔ t.find cred path = .error e := by
  have hwalk : walk (s.look cred) maxLinks [] path = walk (t.look cred) maxLinks [] path := by
    unfold walk
    rw [(resolve_congr h).1]
  rcases hend : walk (t.look cred) maxLinks [] path with e | p
  · simp [FileTree.find, hwalk, hend]
  · have hthere : (t.get? p).isSome :=
      FileTree.isSome_of_walk (FileTree.isSome_of_isDir t.isDir_root) hend
    have hthere' : (s.get? p).isSome :=
      FileTree.isSome_of_walk (FileTree.isSome_of_isDir s.isDir_root) (hwalk.trans hend)
    obtain ⟨node, hnode⟩ := Option.isSome_iff_exists.mp hthere
    obtain ⟨node', hnode'⟩ := Option.isSome_iff_exists.mp hthere'
    simp [FileTree.find, hwalk, hend, hnode, hnode']

section Alike

variable {clock : ImportClock}
  (hlook : ∀ q, ¬ stagingPos clock dir <+: q → ¬ extractionPos clock dir <+: q →
    t.look cred q = s.look cred q)

include hlook

/-- Nothing changes for the target where all but the names made up on the way looks the
    same. -/
theorem Unaware.givesWay_iff (h : Unaware cred clock t dir name) (hcred : cred.privileged = true)
    (htarget : s.get? (dir ++ [name]) = t.get? (dir ++ [name]))
    (encoding : WorkspaceObjectEncoding) :
    GivesWay cred s (dir ++ [name]) encoding ↔ GivesWay cred t (dir ++ [name]) encoding := by
  rcases hnode : t.get? (dir ++ [name]) with _ | node
  · exact iff_of_true (Or.inl (htarget.trans hnode)) (Or.inl hnode)
  · cases hlink : node.isLink with
    | true =>
      obtain ⟨hok, herror⟩ := find_of_looks fun q hq =>
        hlook q (h node hnode hlink q hq).1 (h node hnode hlink q hq).2
      rw [GivesWay, GivesWay, htarget, hok, herror]
    | false =>
      have hthere : ∀ {u : FileTree}, u.get? (dir ++ [name]) = some node →
          GivesWay cred u (dir ++ [name]) encoding := fun hu =>
        Or.inr
          (Or.inl ⟨_, FileTree.find_entry hcred (FileTree.isDir_parent (by rw [hu]; rfl)) hu hlink⟩)
      exact iff_of_true (hthere (htarget.trans hnode)) (hthere hnode)

theorem Unaware.of_alike (h : Unaware cred clock t dir name)
    (htarget : s.get? (dir ++ [name]) = t.get? (dir ++ [name])) :
      Unaware cred clock s dir name := by
  intro node hnode hlink
  have hnode' := htarget.symm.trans hnode
  rw [← (resolve_congr fun q hq => hlook q (h node hnode' hlink q hq).1
    (h node hnode' hlink q hq).2).2]
  exact h node hnode' hlink

end Alike

/-- What does not give way is a link. -/
theorem isLink_of_not_givesWay (hcred : cred.privileged = true) {encoding : WorkspaceObjectEncoding}
    (h : ¬ GivesWay cred t (dir ++ [name]) encoding) :
    ∃ node e, t.get? (dir ++ [name]) = some node ∧ node.isLink = true ∧
      t.find cred (canonical (dir ++ [name])) = .error e ∧ (e = .noent → encoding ≠ .raw) := by
  rw [GivesWay, not_or, not_or] at h
  obtain ⟨hnone, hfound, hraw⟩ := h
  obtain ⟨node, hnode⟩ := Option.ne_none_iff_exists'.mp hnone
  rcases hfind : t.find cred (canonical (dir ++ [name])) with e | found
  · refine ⟨node, e, hnode, ?_, rfl, ?_⟩
    · by_contra hlink
      exact hfound ⟨_, FileTree.find_entry hcred (FileTree.isDir_parent (by rw [hnode]; rfl)) hnode
        (by simpa using hlink)⟩
    · rintro rfl rfl
      exact hraw ⟨rfl, hfind⟩
  · exact absurd ⟨found, hfind⟩ hfound

/-! ### What is removed -/

section Removed

variable (hcred : cred.privileged = true)

include hcred

variable (now) in
/-- What is found at an entry is removed from it; of a link, only the link. -/
theorem run_removeEntry (hdir : t.isDir dir = true)
    (hfound : t.get? (dir ++ [name]) = none ∨ ∃ found, t.find cred (canonical (dir ++ [name])) =
      .ok found) :
    ∃ s, (removePathIfExists (canonical (dir ++ [name]))).run (FileTree.exec cred now) t =
      (some (.ok ()), s) ∧ ∀ q, s.get? q = if dir ++ [name] <+: q then none else t.get? q := by
  rcases hnode : t.get? (dir ++ [name]) with _ | node
  · refine ⟨t, run_removePathIfExists_missing now (FileTree.find_missing hcred hdir hnode),
      fun q => ?_⟩
    split
    · exact FileTree.get?_none_below hnode ‹_›
    · rfl
  · have hremoves : Removes cred t (canonical (dir ++ [name])) := by
      obtain ⟨⟨p, found⟩, hfind⟩ := hfound.resolve_left (by rw [hnode]; exact Option.some_ne_none _)
      rw [removes_iff hfind]
      have hunlinked : node.isDir = false → (t.unlink cred (canonical (dir ++ [name]))).1 =
          .ok () := by
        intro hkind
        refine congrArg Prod.fst (FileTree.exec_unlink_other now hcred hdir (by simp [hnode]) ?_)
        rw [FileTree.isDir, hnode]
        exact hkind
      cases hlink : node.isLink with
      | true =>
        obtain ⟨hnot, hremoved⟩ := FileTree.exec_removeDirAll_link now hcred hdir hnode hlink
        split
        · exact congrArg Prod.fst hremoved
        · exact hunlinked hnot
      | false =>
        obtain ⟨rfl, rfl⟩ := Prod.mk.inj (Except.ok.inj
          (hfind.symm.trans (FileTree.find_entry hcred hdir hnode hlink)))
        split
        · rename_i hkind
          exact congrArg Prod.fst (FileTree.exec_removeDirAll_dir now hcred hdir
            (FileTree.isDir_iff.mpr ⟨found, hnode, hkind⟩))
        · rename_i hkind
          exact hunlinked (Bool.eq_false_iff.mpr hkind)
    refine ⟨_, run_removePathIfExists now (FileTree.slot_entry hcred hdir) hremoves, fun q => ?_⟩
    exact FileTree.get?_prune

variable (now) in
/-- What gives way to a file is no directory any more. -/
theorem run_removeEntry_file (hdir : t.isDir dir = true)
    (h : GivesWay cred t (dir ++ [name]) .raw) :
    ∃ s, (removePathIfExists (canonical (dir ++ [name]))).run (FileTree.exec cred now) t =
        (some (.ok ()), s) ∧
      s.isDir (dir ++ [name]) = false ∧ ∀ q, ¬ dir ++ [name] <+: q → s.get? q = t.get? q := by
  by_cases hfound : t.get? (dir ++ [name]) = none ∨ ∃ found,
    t.find cred (canonical (dir ++ [name])) = .ok found
  · obtain ⟨s, hrun, hcleared⟩ := run_removeEntry now hcred hdir hfound
    refine ⟨s, hrun, ?_, fun q hq => by rw [hcleared, if_neg hq]⟩
    rw [FileTree.isDir, hcleared, if_pos List.prefix_rfl]
    rfl
  · rw [not_or] at hfound
    obtain ⟨-, hmissing⟩ := (h.resolve_left hfound.1).resolve_left hfound.2
    refine ⟨t, run_removePathIfExists_missing now hmissing, ?_, fun q _ => rfl⟩
    by_contra hkind
    obtain ⟨node, hfind, -⟩ := FileTree.find_dir hcred (by simpa using hkind)
    rw [hmissing] at hfind
    cases hfind

end Removed

variable (now) in
/-- What cannot be examined is not removed. -/
theorem run_removePathIfExists_error {target : PathBuf} {e : Errno}
    (hfind : t.find cred target = .error e) (he : e ≠ .noent) :
    (removePathIfExists target).run (FileTree.exec cred now) t =
    (some (.error (.io (.os e))), t) := by
  have hanswer : FileTree.exec cred now (.fileType target) t = (.error e, t) := by
    simp [FileTree.exec, hfind, Except.map]
  rw [removePathIfExists, Prog.run_bind, Prog.run_attempt,
    run_sys_of_error hanswer (find_error_ne hfind)]
  cases e <;> first | rfl | exact absurd rfl he

end Scriptorium
