import Scriptorium.Syscalls

/-!
# Calls on the entries of a directory

What the calls do for a privileged caller who names an entry of a directory by its
canonical path: each either reports an error that the nodes there decide, or changes
the tree in the way its name says.
-/

namespace Posix.FileTree

variable {cred : Cred} (now : Nat) {t : FileTree} {dir : Pos} {name : String}

/-! ### Finding an entry -/

theorem walk_dir (hcred : cred.privileged = true) (hdir : t.isDir dir = true) :
    walk (t.look cred) maxLinks [] (canonical dir) = .ok dir := by
  apply walk_canonical
  · intro q hq hne
    exact look_of_isDir hcred (isDir_above (isSome_of_isDir hdir) hq hne)
  · simp [look_of_isDir hcred hdir]
  · simp [look_of_isDir hcred hdir]

theorem slot_entry (hcred : cred.privileged = true) (hdir : t.isDir dir = true) :
    t.slot cred (canonical (dir ++ [name])) = .ok (dir, name) := by
  rw [canonical_concat, slot_concat, walk_dir hcred hdir]
  simp only [search_eq_ok.mpr (look_of_isDir hcred hdir)]

theorem look_entry_ne_link {node : Node} (hnode : t.get? dir = some node)
    (hlink : node.isLink = false) (target : List Component) : t.look cred dir ≠ .link target := by
  intro hlook
  rcases hkind : node.kind with _ | ⟨data, holes⟩ | text | _
  all_goals simp [look, hnode, Node.view, Node.isLink, hkind] at hlook hlink

theorem find_missing (hcred : cred.privileged = true) (hdir : t.isDir dir = true)
    (hfree : t.get? (dir ++ [name]) = none) :
    t.find cred (canonical (dir ++ [name])) = .error .noent := by
  rw [find, canonical_concat, walk_missing (walk_dir hcred hdir) (look_of_isDir hcred hdir)
    (look_eq_absent.mpr hfree)]

theorem walk_entry (hcred : cred.privileged = true) (hdir : t.isDir dir = true) {node : Node}
    (hnode : t.get? (dir ++ [name]) = some node) (hlink : node.isLink = false) :
    walk (t.look cred) maxLinks [] (canonical (dir ++ [name])) = .ok (dir ++ [name]) := by
  rw [canonical_concat]
  apply walk_child (walk_dir hcred hdir) (look_of_isDir hcred hdir)
  · simp [look_eq_absent, hnode]
  · exact look_entry_ne_link hnode hlink

theorem find_entry (hcred : cred.privileged = true) (hdir : t.isDir dir = true) {node : Node}
    (hnode : t.get? (dir ++ [name]) = some node) (hlink : node.isLink = false) :
    t.find cred (canonical (dir ++ [name])) = .ok (dir ++ [name], node) := by
  rw [find, walk_entry hcred hdir hnode hlink]
  simp only [hnode]

/-- Nothing is found below an entry that is missing or no directory. -/
theorem slot_below (hcred : cred.privileged = true) (hdir : t.isDir dir = true)
    (hnot : t.isDir (dir ++ [name]) = false)
    (hlink : ∀ node, t.get? (dir ++ [name]) = some node → node.isLink = false) (child : String) :
    ∃ e, t.slot cred (canonical (dir ++ [name] ++ [child])) = .error e := by
  rw [canonical_concat (dir ++ [name]), slot_concat]
  rcases hnode : t.get? (dir ++ [name]) with _ | node
  · rw [canonical_concat, walk_missing (walk_dir hcred hdir) (look_of_isDir hcred hdir)
      (look_eq_absent.mpr hnode)]
    exact ⟨_, rfl⟩
  · rw [walk_entry hcred hdir hnode (hlink node hnode)]
    rcases hsearch : search (t.look cred) (dir ++ [name]) with e | _
    · exact ⟨e, by simp only [hsearch]⟩
    · have hlook := isDir_of_look (search_eq_ok.mp hsearch)
      rw [hnot] at hlook
      cases hlook

theorem allows_of_isSome (hcred : cred.privileged = true) {p : Pos} (h : (t.get? p).isSome)
    (access : Access) : t.allows cred p access = true := by
  obtain ⟨node, hnode⟩ := Option.isSome_iff_exists.mp h
  simp [allows, hnode, Cred.may_of_privileged hcred]

theorem children_of_not_dir {p : Pos} (h : t.isDir p = false) : t.children p = [] := by
  rw [List.eq_nil_iff_forall_not_mem]
  intro name hname
  rw [mem_children] at hname
  rw [isDir_parent hname] at h
  cases h

theorem readDir_entry (hcred : cred.privileged = true) (hdir : t.isDir dir = true)
    (h : t.isDir (dir ++ [name]) = true) :
    t.readDir cred (canonical (dir ++ [name])) = .ok (t.entries (dir ++ [name])) := by
  obtain ⟨node, hnode, hkind⟩ := isDir_iff.mp h
  have hlink : node.isLink = false := by simp [Node.isLink, Node.isDir_iff.mp hkind]
  simp [readDir, find_entry hcred hdir hnode hlink, hkind, Cred.may_of_privileged hcred]

/-! ### Calls on it -/

theorem exec_mkdir_entry (hcred : cred.privileged = true) (hdir : t.isDir dir = true)
    (hfree : t.get? (dir ++ [name]) = none) (hname : Proper name) :
    exec cred now (.mkdir (canonical (dir ++ [name]))) t =
      (.ok (), t.add dir name ⟨.dir, newAttrs cred now 0o777⟩ hdir hfree hname) := by
  have hwrite : t.allows cred dir .write = true :=
    allows_of_isSome hcred (isSome_of_isDir hdir) .write
  simp only [exec, mkdir, slot_entry hcred hdir, addEntry, dif_pos hfree, dif_pos hdir,
    dif_pos hname,
    if_pos hwrite]

theorem exec_mkdir_exists (hcred : cred.privileged = true) (hdir : t.isDir dir = true)
    (h : (t.get? (dir ++ [name])).isSome) :
    exec cred now (.mkdir (canonical (dir ++ [name]))) t = (.error .exist, t) := by
  have hne : t.get? (dir ++ [name]) ≠ none := Option.isSome_iff_ne_none.mp h
  simp only [exec, mkdir, slot_entry hcred hdir, addEntry, dif_neg hne]

theorem exec_createNew_entry (hcred : cred.privileged = true) (hdir : t.isDir dir = true)
    (hfree : t.get? (dir ++ [name]) = none) (hname : Proper name) :
    exec cred now (.createNew (canonical (dir ++ [name]))) t = (.ok (dir ++ [name]),
      t.add dir name ⟨.file [] false, newAttrs cred now 0o666⟩ hdir hfree hname) := by
  have hwrite : t.allows cred dir .write = true :=
    allows_of_isSome hcred (isSome_of_isDir hdir) .write
  simp only [exec, createNew, slot_entry hcred hdir, addFile, addEntry, dif_pos hfree, dif_pos hdir,
    dif_pos hname, if_pos hwrite]

theorem exec_createNew_exists (hcred : cred.privileged = true) (hdir : t.isDir dir = true)
    (h : (t.get? (dir ++ [name])).isSome) :
    exec cred now (.createNew (canonical (dir ++ [name]))) t = (.error .exist, t) := by
  have hne : t.get? (dir ++ [name]) ≠ none := Option.isSome_iff_ne_none.mp h
  simp only [exec, createNew, slot_entry hcred hdir, addFile, addEntry, dif_neg hne]

theorem find_dir (hcred : cred.privileged = true) (hdir : t.isDir dir = true) :
    ∃ node, t.find cred (canonical dir) = .ok (dir, node) ∧ t.get? dir = some node ∧
      node.isDir = true := by
  obtain ⟨node, hnode, hfind⟩ := find_of_walk (walk_dir hcred hdir)
  obtain ⟨node', hnode', hkind⟩ := isDir_iff.mp hdir
  obtain rfl : node = node' := Option.some.inj (hnode.symm.trans hnode')
  exact ⟨node, hfind, hnode, hkind⟩

theorem exec_canonicalize_dir (hcred : cred.privileged = true) (hdir : t.isDir dir = true) :
    exec cred now (.canonicalize (canonical dir)) t = (.ok dir, t) := by
  obtain ⟨node, hfind, -⟩ := find_dir hcred hdir
  simp only [exec, hfind, Except.map]

theorem exec_chmod_entry (hcred : cred.privileged = true) (hdir : t.isDir dir = true) {node : Node}
    (hnode : t.get? (dir ++ [name]) = some node) (hlink : node.isLink = false) (mode : Nat) :
    exec cred now (.chmod (canonical (dir ++ [name])) mode) t =
      (.ok (), t.setAttrs (dir ++ [name]) fun attrs => { attrs with mode }) := by
  simp only [exec, chmod, find_entry hcred hdir hnode hlink, mayChange, hcred, Bool.true_or,
    if_true]

theorem exec_fchmod (hcred : cred.privileged = true) {p : Pos} (h : (t.get? p).isSome)
    (mode : Nat) :
    exec cred now (.fchmod p mode) t = (.ok (), t.setAttrs p fun attrs => { attrs with mode }) := by
  obtain ⟨node, hnode⟩ := Option.isSome_iff_exists.mp h
  simp only [exec, fchmod, hnode, mayChange, hcred, Bool.true_or, if_true]

theorem lstat_of_isSome (hcred : cred.privileged = true) {p : Pos} (h : (t.get? p).isSome) :
    ∃ info, exec cred now (.lstat (canonical p)) t = (.ok info, t) := by
  cases p using List.reverseRecOn with
  | nil =>
    obtain ⟨node, hfind, -⟩ := find_dir hcred (t := t) isDir_root
    have hlstat : t.lstat cred (canonical []) =
        (t.find cred (canonical [])).map fun found => found.2.info := rfl
    exact ⟨node.info, by rw [exec, hlstat, hfind]; rfl⟩
  | append_singleton dir name =>
    obtain ⟨node, hnode⟩ := Option.isSome_iff_exists.mp h
    refine ⟨node.info, ?_⟩
    simp only [exec]
    rw [canonical_concat, lstat_concat, ← canonical_concat, slot_entry hcred (isDir_parent h)]
    simp only [hnode]

theorem exec_create_entry (hcred : cred.privileged = true) (hdir : t.isDir dir = true)
    (hfree : t.get? (dir ++ [name]) = none) (hname : Proper name) :
    exec cred now (.create (canonical (dir ++ [name]))) t = (.ok (dir ++ [name]),
      t.add dir name ⟨.file [] false, newAttrs cred now 0o666⟩ hdir hfree hname) := by
  have hwrite : t.allows cred dir .write = true :=
    allows_of_isSome hcred (isSome_of_isDir hdir) .write
  have htarget : t.target cred (canonical (dir ++ [name])) = .ok (.missing dir name) := by
    obtain ⟨fewer, -, hres, -⟩ :=
      (resolve_append [.normal name] (by simp)).1 dir (walk_dir hcred hdir)
    rw [target, canonical_concat, hres, resolve_normal, search_eq_ok.mpr (look_of_isDir hcred hdir),
      look_eq_absent.mpr hfree]
    rfl
  simp only [exec, create, htarget, addFile, addEntry, dif_pos hfree, dif_pos hdir, dif_pos hname,
    if_pos hwrite]

/-- Where only directories are on the way, what is missing is reported as missing. -/
theorem walk_noent (hcred : cred.privileged = true) {p : Pos}
    (hopen : ∀ q, q <+: p → t.get? q = none ∨ t.isDir q = true) (hnone : t.get? p = none) :
    walk (t.look cred) maxLinks [] (canonical p) = .error .noent := by
  induction p using List.reverseRecOn with
  | nil =>
    have hroot := t.isDir_root
    simp [isDir, hnone] at hroot
  | append_singleton dir name ih =>
    have hpre : dir <+: dir ++ [name] := List.prefix_append _ _
    rw [canonical_concat]
    rcases hopen dir hpre with hmissing | hdir
    · have habove := ih (fun q hq => hopen q (hq.trans hpre)) hmissing
      rw [walk, ((resolve_append [.normal name] (by simp)).2 _ habove).1]
    · exact walk_missing (walk_dir hcred hdir) (look_of_isDir hcred hdir) (look_eq_absent.mpr hnone)

theorem exec_mkdir_noent (hcred : cred.privileged = true)
    (hopen : ∀ q, q <+: dir → t.get? q = none ∨ t.isDir q = true) (hnone : t.get? dir = none) :
    exec cred now (.mkdir (canonical (dir ++ [name]))) t = (.error .noent, t) := by
  have hslot : t.slot cred (canonical (dir ++ [name])) = .error .noent := by
    rw [canonical_concat, slot_concat, walk_noent hcred hopen hnone]
  simp only [exec, mkdir, hslot]

/-- Removing a directory, of which nothing is refused. -/
theorem exec_removeDirAll_dir (hcred : cred.privileged = true) (hdir : t.isDir dir = true)
    (h : t.isDir (dir ++ [name]) = true) :
    exec cred now (.removeDirAll (canonical (dir ++ [name]))) t =
      (.ok (), t.removeAt dir name) := by
  obtain ⟨node, hnode, hkind⟩ := isDir_iff.mp h
  have hwrite : t.allows cred dir .write = true :=
    allows_of_isSome hcred (isSome_of_isDir hdir) .write
  have hremovable : t.removable cred (dir ++ [name]) = true := by
    rw [removable, List.all_eq_true]
    intro q hq
    have hq' : (t.get? q).isSome := (t.mem_support q).mp hq
    simp [allows_of_isSome hcred hq']
  simp only [exec, removeDirAll, slot_entry hcred hdir, hnode, Node.isDir_iff.mp hkind, hwrite,
    hremovable, Bool.and_self, if_true]

/-- Of a link, nothing but the link is removed. -/
theorem exec_removeDirAll_link (hcred : cred.privileged = true) (hdir : t.isDir dir = true)
    {node : Node} (hnode : t.get? (dir ++ [name]) = some node) (hlink : node.isLink = true) :
    node.isDir = false ∧
      exec cred now (.removeDirAll (canonical (dir ++ [name]))) t =
        (.ok (), t.removeAt dir name) := by
  have hwrite : t.allows cred dir .write = true :=
    allows_of_isSome hcred (isSome_of_isDir hdir) .write
  rcases hkind : node.kind with _ | ⟨data, holes⟩ | text | _
  · simp [Node.isLink, hkind] at hlink
  · simp [Node.isLink, hkind] at hlink
  · refine ⟨by simp [Node.isDir, hkind], ?_⟩
    simp only [exec, removeDirAll, slot_entry hcred hdir, hnode, hkind, hwrite, if_true]
  · simp [Node.isLink, hkind] at hlink

theorem exec_unlink_other (hcred : cred.privileged = true) (hdir : t.isDir dir = true)
    (h : (t.get? (dir ++ [name])).isSome) (hnot : t.isDir (dir ++ [name]) = false) :
    exec cred now (.unlink (canonical (dir ++ [name]))) t = (.ok (), t.removeAt dir name) := by
  obtain ⟨node, hnode⟩ := Option.isSome_iff_exists.mp h
  have hkind : node.isDir = false := by simpa [isDir, hnode] using hnot
  have hwrite : t.allows cred dir .write = true :=
    allows_of_isSome hcred (isSome_of_isDir hdir) .write
  simp [exec, unlink, slot_entry hcred hdir, hnode, hkind, hwrite]

/-! ### Renaming -/

section Rename

variable {src : Pos} {srcName : String}

/-- What stands where after the subtree at `src` has been moved to `dst`. -/
def Moved (t t' : FileTree) (src dst : Pos) : Prop :=
  ∀ q, t'.get? q =
    if dst <+: q then t.get? (src ++ q.drop dst.length)
    else if src <+: q then none
    else t.get? q

theorem Moved.subtree {t' : FileTree} {src dst : Pos} (h : Moved t t' src dst) (q : Pos) :
    t'.get? (dst ++ q) = t.get? (src ++ q) := by
  rw [h, if_pos (List.prefix_append dst q), List.drop_left]

theorem Moved.other {t' : FileTree} {src dst q : Pos} (h : Moved t t' src dst) (hdst : ¬ dst <+: q)
    (hsrc : ¬ src <+: q) : t'.get? q = t.get? q := by
  rw [h, if_neg hdst, if_neg hsrc]

theorem Moved.source {t' : FileTree} {src dst q : Pos} (h : Moved t t' src dst) (hdst : ¬ dst <+: q)
    (hsrc : src <+: q) : t'.get? q = none := by
  rw [h, if_neg hdst, if_pos hsrc]

/-- A rename whose checks pass. -/
theorem exec_rename_of_check (hcred : cred.privileged = true) (hsrc : t.isDir src = true)
    (hdir : t.isDir dir = true) (hname : Proper name) {node : Node}
    (hnode : t.get? (src ++ [srcName]) = some node) (hin : ¬ src ++ [srcName] <+: dir)
    (hout : ¬ dir ++ [name] <+: src ++ [srcName])
    (hcheck : t.renameCheck cred (src ++ [srcName]) node (src != dir) (dir ++ [name]) = .ok ()) :
    ∃ t', exec cred now (.rename (canonical (src ++ [srcName])) (canonical (dir ++ [name]))) t =
        (.ok (), t') ∧ Moved t t' (src ++ [srcName]) (dir ++ [name]) := by
  have hne : src ++ [srcName] ≠ dir ++ [name] := fun heq => hout (heq ▸ List.prefix_rfl)
  have hsrcWrite : t.allows cred src .write = true :=
    allows_of_isSome hcred (isSome_of_isDir hsrc) .write
  have hdirWrite : t.allows cred dir .write = true :=
    allows_of_isSome hcred (isSome_of_isDir hdir) .write
  refine ⟨t.replaceAt (src ++ [srcName]) dir name (by simp [hnode]) hdir hname hin hout, ?_, ?_⟩
  · simp only [exec, rename, slot_entry hcred hsrc, slot_entry hcred hdir]
    split
    · rename_i hnone
      rw [hnode] at hnone
      cases hnone
    · rename_i node' hnode'
      obtain rfl : node = node' := Option.some.inj (hnode.symm.trans hnode')
      simp only [renameAt, if_neg hne, dif_neg hin, dif_neg hout, dif_pos hdir, dif_pos hname,
        hsrcWrite, hdirWrite, Bool.and_self, if_true, hcheck]
  · intro q
    rw [get?_replaceAt, List.length_append, List.length_singleton]

/-- A rename whose checks fail. -/
theorem exec_rename_of_refused (hcred : cred.privileged = true) (hsrc : t.isDir src = true)
    (hdir : t.isDir dir = true) (hname : Proper name) {node : Node} {e : Errno}
    (hnode : t.get? (src ++ [srcName]) = some node) (hin : ¬ src ++ [srcName] <+: dir)
    (hout : ¬ dir ++ [name] <+: src ++ [srcName])
    (hcheck : t.renameCheck cred (src ++ [srcName]) node (src != dir) (dir ++ [name]) = .error e) :
    exec cred now (.rename (canonical (src ++ [srcName])) (canonical (dir ++ [name]))) t =
      (.error e, t) := by
  have hne : src ++ [srcName] ≠ dir ++ [name] := fun heq => hout (heq ▸ List.prefix_rfl)
  have hsrcWrite : t.allows cred src .write = true :=
    allows_of_isSome hcred (isSome_of_isDir hsrc) .write
  have hdirWrite : t.allows cred dir .write = true :=
    allows_of_isSome hcred (isSome_of_isDir hdir) .write
  simp only [exec, rename, slot_entry hcred hsrc, slot_entry hcred hdir]
  split
  · rename_i hnone
    rw [hnode] at hnone
    cases hnone
  · rename_i node' hnode'
    obtain rfl : node = node' := Option.some.inj (hnode.symm.trans hnode')
    simp only [renameAt, if_neg hne, dif_neg hin, dif_neg hout, dif_pos hdir, dif_pos hname,
      hsrcWrite, hdirWrite, Bool.and_self, if_true, hcheck]

/-- The checks, for a caller to whom nothing is refused. -/
theorem renameCheck_privileged (hcred : cred.privileged = true) {p dst : Pos} {node : Node}
    (hnode : t.get? p = some node) (crossing : Bool) :
    t.renameCheck cred p node crossing dst =
      if node.isDir = t.isDir dst ∨ t.get? dst = none then
        if (t.children dst).isEmpty then .ok () else .error .notempty
      else if node.isDir then .error .notdir else .error .isdir := by
  have hwrite : t.allows cred p .write = true := allows_of_isSome hcred (by simp [hnode]) .write
  rcases hold : t.get? dst with _ | old
  · have hempty : t.children dst = [] := children_of_not_dir (by simp [isDir, hold])
    simp [renameCheck, hold, hwrite, hempty]
  · have hdst : t.isDir dst = old.isDir := by simp [isDir, hold]
    rw [hdst]
    cases hnodeDir : node.isDir with
    | false =>
      cases holdDir : old.isDir with
      | false => simp [renameCheck, hold, hnodeDir, holdDir]
      | true => simp [renameCheck, hold, hnodeDir, holdDir]
    | true =>
      cases holdDir : old.isDir with
      | false => simp [renameCheck, hold, hnodeDir, holdDir]
      | true => simp [renameCheck, hold, hnodeDir, holdDir, hwrite]

theorem renameCheck_free (hcred : cred.privileged = true) {p dst : Pos} {node : Node}
    (hnode : t.get? p = some node) (crossing : Bool) (hfree : t.get? dst = none) :
    t.renameCheck cred p node crossing dst = .ok () := by
  have hempty : t.children dst = [] := children_of_not_dir (by simp [isDir, hfree])
  rw [renameCheck_privileged hcred hnode, if_pos (Or.inr hfree), hempty]
  rfl

end Rename

end Posix.FileTree
