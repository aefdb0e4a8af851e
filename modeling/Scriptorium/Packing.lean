import Scriptorium.PackingSecrecy
import Scriptorium.Extraction
import Scriptorium.Descent

/-!
# What the builder writes

The builder's loop, over a directory without links: it ends, and has written one entry for
each node (`run_appendDirAll`).  If these nodes are directories and files without holes,
the entries describe the directory, under its name (`layoutOf_packed`).
-/

namespace Scriptorium

open Posix Effects

variable {cred : Cred} {now : Nat} {t : FileTree} {p q : Pos}

/-- No links in the directory at `p`, nor at it. -/
def Linkless (t : FileTree) (p : Pos) : Prop :=
  ∀ q node, t.get? (p ++ q) = some node → node.isLink = false

/-- The node at a position, or any. -/
def nodeAt (t : FileTree) (p : Pos) : Node := (t.get? p).getD ⟨.dir, ⟨0, 0, 0, 0⟩⟩

theorem nodeAt_eq {node : Node} (h : t.get? p = some node) : nodeAt t p = node := by
  rw [nodeAt, h, Option.getD_some]

/-- The entry of a node, under a path. -/
def entryOfNode (path : Pos) (node : Node) : TarEntry :=
  match node.kind with
  | .dir => entryOf path .directory node.info []
  | .file data holes => fileEntry path ⟨node.info, data, holes⟩
  | .fifo => entryOf path .fifo node.info []
  | .link _ => entryOf path .symlink node.info []

/-! ### The loop -/

/-- The names below a path of the directory at `p`, in the order in which the loop turns
    to them. -/
def namesBelow (t : FileTree) (p : Pos) (q : Pos) : List String := (t.children (p ++ q)).reverse

/-- The item of a path on the stack. -/
def pendingAt (t : FileTree) (p q : Pos) : Pending := ⟨q, t.isDir (p ++ q), false⟩

theorem exists_shallow (t : FileTree) (p : Pos) (hdir : t.isDir p = true) :
    ∃ depth, Descent.Shallow (namesBelow t p) depth [] := by
  obtain ⟨depth, hdepth⟩ := exists_depth t p
  refine ⟨depth, fun rest hrest => ?_⟩
  have hsome : (t.get? (p ++ rest)).isSome := by
    rcases List.eq_nil_or_concat' rest with rfl | ⟨above, name, rfl⟩
    · rw [List.append_nil]
      exact FileTree.isSome_of_isDir hdir
    · have hname := hrest above name List.prefix_rfl
      rw [namesBelow, List.mem_reverse, List.nil_append, FileTree.mem_children] at hname
      rwa [← List.append_assoc]
  have hlength := hdepth _ hsome (List.prefix_append p rest)
  rw [List.length_append] at hlength
  omega

/-- What the names lead to is what stands below. -/
theorem leads_iff (hdir : t.isDir p = true) : Descent.Leads (namesBelow t p) [] q ↔
    (t.get? (p ++ q)).isSome := by
  constructor
  · intro h
    rcases List.eq_nil_or_concat' q with rfl | ⟨above, name, rfl⟩
    · rw [List.append_nil]
      exact FileTree.isSome_of_isDir hdir
    · have hname := h above name List.prefix_rfl
      rw [namesBelow, List.mem_reverse, List.nil_append, FileTree.mem_children] at hname
      rwa [← List.append_assoc]
  · intro h above name hpre
    rw [namesBelow, List.mem_reverse, List.nil_append, FileTree.mem_children, List.append_assoc]
    exact FileTree.isSome_above h ((List.prefix_append_right_inj p).mpr hpre)

section Run

variable (hcred : cred.privileged = true)

include hcred

theorem walk_plain {node : Node} (hnode : t.get? p = some node) (hlink : node.isLink = false) :
    walk (t.look cred) maxLinks [] (canonical p) = .ok p := by
  rcases List.eq_nil_or_concat' p with rfl | ⟨dir, name, rfl⟩
  · exact FileTree.walk_dir hcred t.isDir_root
  · exact FileTree.walk_entry hcred (FileTree.isDir_parent (by rw [hnode]; rfl)) hnode hlink

variable (now) in
/-- What is not a directory is written as it is. -/
theorem run_appendOther {node : Node} (hnode : t.get? p = some node) (hlink : node.isLink = false)
    (hkind : node.isDir = false) (path : Pos) :
    (appendOther (canonical p) path).run (FileTree.exec cred now) t =
      (some (.ok (entryOfNode path node)), t) := by
  have hwalk := walk_plain hcred hnode hlink
  rw [appendOther, Prog.run_bind_ok _ (run_sys_stat hwalk hnode), Node.info]
  rcases hkind' : node.kind with _ | ⟨data, holes⟩ | target | _
  · rw [Node.isDir, hkind'] at hkind
    cases hkind
  · have hread : (sys (.read (canonical p))).run (FileTree.exec cred now) t =
        (some (.ok ⟨node.info, data, holes⟩), t) := by
      apply run_sys_ok
      simp only [FileTree.exec, FileTree.read, FileTree.find, hwalk, hnode,
        Cred.may_of_privileged hcred, if_true, hkind']
    simp only [Node.fileType, hkind']
    rw [Prog.run_bind_ok _ hread, entryOfNode, hkind']
    rfl
  · rw [Node.isLink, hkind'] at hlink
    cases hlink
  · simp only [Node.fileType, hkind', entryOfNode]
    rfl

variable (now) in
/-- One turn of the loop. -/
theorem run_appendLoop_turn (hlinks : Linkless t p) (hq : (t.get? (p ++ q)).isSome) (root : String)
    (fuel : Nat) (stack : List Pos) (out : List TarEntry) :
    (appendLoop (canonical p) root (fuel + 1) ((q :: stack).map (pendingAt t p)) out).run
        (FileTree.exec cred now) t =
      (appendLoop (canonical p) root fuel
        ((Descent.next (namesBelow t p) q ++ stack).map (pendingAt t p))
        (out ++ [entryOfNode (root :: q) (nodeAt t (p ++ q))])).run (FileTree.exec cred now) t := by
  obtain ⟨node, hnode⟩ := Option.isSome_iff_exists.mp hq
  have hlink := hlinks q node hnode
  have hwalk := walk_plain hcred hnode hlink
  rw [nodeAt_eq hnode]
  by_cases hdir : node.isDir = true
  · have hwalk' : walk (t.look cred) maxLinks []
        (canonical p ++ (pendingAt t p q).names.map .normal) =
        .ok (p ++ q) := by rwa [pendingAt, ← canonical_append]
    have hisDir : t.isDir (p ++ q) = true := FileTree.isDir_iff.mpr ⟨node, hnode, hdir⟩
    have hchildren : (t.entries (p ++ q)).map (pendingOf q) =
        ((t.children (p ++ q)).map fun name => q ++ [name]).map (pendingAt t p) := by
      rw [← FileTree.map_fst_entries, List.map_map, List.map_map]
      apply List.map_congr_left
      rintro ⟨name, fileType⟩ hentry
      obtain ⟨child, hchild, rfl⟩ := FileTree.mem_entries.mp hentry
      have hchildLink := hlinks (q ++ [name]) child (by rwa [← List.append_assoc])
      simp only [pendingOf, pendingAt, Function.comp_apply, ← List.append_assoc, FileTree.isDir,
        hchild,
        Option.any_some]
      rcases hkind : child.kind with _ | ⟨data, holes⟩ | target | _
      all_goals simp [Node.fileType, Node.isDir, Node.isLink, hkind] at hchildLink ⊢
    rw [List.map_cons, run_appendLoop_dir hcred hwalk' hnode hdir (Or.inl hisDir), List.map_append,
      Descent.next, namesBelow, List.map_reverse, List.map_reverse, ← hchildren, entryOfNode,
      Node.isDir_iff.mp hdir]
    rfl
  · have hisDir : t.isDir (p ++ q) = false := by
      rw [FileTree.isDir, hnode]
      exact Bool.eq_false_iff.mpr hdir
    have hnone : Descent.next (namesBelow t p) q = [] := by
      rw [Descent.next, namesBelow, FileTree.children_of_not_dir hisDir]
      rfl
    have hinto :
        (walksInto (canonical p ++ (pendingAt t p q).names.map .normal) (pendingAt t p q)).run
        (FileTree.exec cred now) t = (some (.ok false), t) := by
      rw [run_walksInto, pendingAt, hisDir]
      rfl
    have hother := run_appendOther now hcred hnode hlink (Bool.eq_false_iff.mpr hdir) (root :: q)
    rw [hnone, List.nil_append, List.map_cons, appendLoop, Prog.run_bind_ok _ hinto]
    rw [canonical_append] at hother
    exact Prog.run_bind_ok _ hother

variable (now) in
/-- The loop writes an entry for each path it takes off the stack: by induction on its
    turns. -/
theorem run_appendLoop (hlinks : Linkless t p) (root : String) {fuel : Nat}
    {stack visited : List Pos} (hstack : ∀ q ∈ stack, (t.get? (p ++ q)).isSome)
    (hvisits : Descent.visits (namesBelow t p) fuel stack = some visited) (out : List TarEntry) :
    (appendLoop (canonical p) root fuel (stack.map (pendingAt t p)) out).run
    (FileTree.exec cred now) t =
      (some (.ok (out ++ visited.map fun q => entryOfNode (root :: q) (nodeAt t (p ++ q)))),
        t) := by
  induction fuel generalizing stack visited out with
  | zero =>
    cases stack with
    | nil =>
      obtain rfl := Option.some.inj hvisits
      simp [appendLoop]
    | cons q stack => cases hvisits
  | succ fuel ih =>
    cases stack with
    | nil =>
      obtain rfl := Option.some.inj hvisits
      simp [appendLoop]
    | cons q stack =>
      obtain ⟨rest, hrest, rfl⟩ := Option.map_eq_some_iff.mp hvisits
      rw [List.forall_mem_cons] at hstack
      rw [run_appendLoop_turn now hcred hlinks hstack.1, ih ?_ hrest]
      · simp
      · intro r hr
        rcases List.mem_append.mp hr with hr | hr
        · obtain ⟨name, hname, rfl⟩ := Descent.mem_next.mp hr
          rw [namesBelow, List.mem_reverse, FileTree.mem_children] at hname
          rwa [← List.append_assoc]
        · exact hstack.2 r hr

/-- **Packing ends**, and one entry has been written for each node. -/
theorem run_appendDirAll (hlinks : Linkless t p) (hdir : t.isDir p = true) :
    ∃ visited : List Pos, visited.Nodup ∧ (∀ q, q ∈ visited ↔ (t.get? (p ++ q)).isSome) ∧
      ∀ now root fuel, visited.length ≤ fuel →
        (appendDirAll fuel root (canonical p)).run (FileTree.exec cred now) t =
          (some (.ok (visited.map fun q => entryOfNode (root :: q) (nodeAt t (p ++ q)))), t) := by
  obtain ⟨depth, hshallow⟩ := exists_shallow t p hdir
  refine ⟨Descent.preorder (namesBelow t p) depth [], ?_, fun q => ?_,
    fun now root fuel hfuel => ?_⟩
  · exact Descent.nodup_preorder fun q => List.nodup_reverse.mpr (t.children_nodup (p ++ q))
  · rw [Descent.mem_preorder hshallow]
    simp [leads_iff hdir]
  · have hstack : ∀ q ∈ [([] : Pos)], (t.get? (p ++ q)).isSome := by
      simpa using FileTree.isSome_of_isDir hdir
    have hloop := run_appendLoop now hcred hlinks root hstack (Descent.visits_eq hshallow hfuel) []
    rw [List.map_singleton, pendingAt, List.append_nil, hdir] at hloop
    exact hloop

end Run

/-! ### What the entries describe -/

/-- Nothing but directories, and files without holes. -/
def Plain (t : FileTree) (p : Pos) : Prop :=
  ∀ q node, t.get? (p ++ q) = some node → node.kind = .dir ∨ ∃ data, node.kind = .file data false

/-- What an archive can say about a node. -/
def itemOfNode (node : Node) : Option (Layout.Item (List UInt8)) :=
  match node.kind with
  | .dir => some .dir
  | .file data _ => some (.leaf data)
  | _ => none

/-- The layout of the directory at `p`. -/
def treeLayout (t : FileTree) (p : Pos) : ArchiveLayout :=
  fun q => (t.get? (p ++ q)).bind itemOfNode

theorem Plain.linkless (h : Plain t p) : Linkless t p := by
  intro q node hnode
  rcases h q node hnode with hkind | ⟨data, hkind⟩
  all_goals rw [Node.isLink, hkind]

theorem Plain.treeLayout_eq (h : Plain t p) {node : Node} (hnode : t.get? (p ++ q) = some node) :
    ∃ item, treeLayout t p q = some item ∧ node.kind = itemKind item := by
  rw [treeLayout, hnode, Option.bind_some, itemOfNode]
  rcases h q node hnode with hkind | ⟨data, hkind⟩
  · exact ⟨.dir, by rw [hkind], hkind⟩
  · exact ⟨.leaf data, by rw [hkind], hkind⟩

theorem Plain.shows (h : Plain t p) : Shows t p (treeLayout t p) := by
  intro q
  rcases hnode : t.get? (p ++ q) with _ | node
  · rw [treeLayout, hnode]
    rfl
  · obtain ⟨item, hitem, hkind⟩ := h.treeLayout_eq hnode
    rw [hitem, Option.map_some, Option.map_some, hkind]

theorem Plain.closed (h : Plain t p) (hdir : t.isDir p = true) : (treeLayout t p).Closed where
  root := by
    rw [← h.shows.isDir_iff, List.append_nil]
    exact hdir
  parent path name hsome := by
    rw [Ne, ← h.shows.none_iff, ← List.append_assoc] at hsome
    exact h.shows.isDir_iff.mp (FileTree.isDir_parent (Option.ne_none_iff_isSome.mp hsome))

section Entry

variable {path : Pos} (hpath : ∀ name ∈ path, Proper name)

include hpath

theorem entryNames_joinNames (hne : path ≠ []) :
    entryNames (PathBuf.ofString (PathBuf.joinNames path)) = some path := by
  have hparent : (.parentDir : Component) ∉ path.map .normal := by simp
  rw [PathBuf.ofString_joinNames hpath hne, entryNames, if_neg hparent, List.filterMap_map]
  exact congrArg some List.filterMap_some

/-- The entry of a directory or a file is accepted if it has its own name. -/
theorem not_refused (hne : path ≠ []) (kind : EntryKind) (info : Meta) (data : List UInt8) :
    (TarItem.entry (entryOf path kind info data) true).Refused ↔ ¬
    (kind = .regular ∨ kind = .directory) := by
  have hparent : (.parentDir : Component) ∉ path.map .normal := by simp
  simp only [TarItem.Refused, entryOf, PathBuf.isAbsolute_joinNames hpath,
    PathBuf.ofString_joinNames hpath hne,
    hparent]
  simp

/-- A regular entry without the POSIX magic has no trailing slash. -/
theorem item_entryOf (info : Meta) (data : List UInt8) :
    (entryOf path .directory info data).item = .dir ∧ (entryOf path .regular info data).item =
      .leaf data := by
  have hlast : ((PathBuf.joinNames path).toList.getLast? == some '/') = false :=
    beq_eq_false_iff_ne.mpr (PathBuf.getLast?_joinNames hpath)
  simp [TarEntry.item, TarEntry.unpacksAsDir, entryOf, hlast]

end Entry

theorem item_entryOfNode (h : Plain t p) {path : Pos} (hpath : ∀ name ∈ path, Proper name)
    (hne : path ≠ []) {node : Node} (hnode : t.get? (p ++ q) = some node) :
    ¬ (TarItem.entry (entryOfNode path node) true).Refused ∧
      entryNames (PathBuf.ofString (entryOfNode path node).path) = some path ∧
      treeLayout t p q = some (entryOfNode path node).item := by
  rw [treeLayout, hnode, Option.bind_some, itemOfNode, entryOfNode]
  rcases h q node hnode with hkind | ⟨data, hkind⟩
  · simp only [hkind]
    refine ⟨?_, entryNames_joinNames hpath hne, ?_⟩
    · rw [not_refused hpath hne]
      simp
    · rw [(item_entryOf hpath _ _).1]
  · simp only [hkind, fileEntry, Bool.false_eq_true, if_false]
    refine ⟨?_, entryNames_joinNames hpath hne, ?_⟩
    · rw [not_refused hpath hne]
      simp
    · rw [(item_entryOf hpath _ _).2]

/-- Entries that agree with a layout are put together to a part of it. -/
theorem foldlM_unpackOnto {U : ArchiveLayout} (hU : U.Closed) {entry : Pos → TarEntry}
    {paths : List Pos}
    (h : ∀ path ∈ paths, path ≠ [] ∧ ¬ (TarItem.entry (entry path) true).Refused ∧
      entryNames (PathBuf.ofString (entry path).path) = some path ∧ U path = some (entry path).item)
    (seen : List Pos) :
    (paths.map fun path => TarItem.entry (entry path) true).foldlM unpackOnto (U.upTo seen) =
      some (U.upTo (seen ++ paths)) := by
  induction paths generalizing seen with
  | nil =>
    rw [List.append_nil]
    rfl
  | cons path paths ih =>
    rw [List.forall_mem_cons] at h
    obtain ⟨⟨hne, haccepted, hnames, hitem⟩, hrest⟩ := h
    have hfirst : unpackOnto (U.upTo seen) (.entry (entry path) true) =
        some (U.upTo (seen ++ [path])) := by
      rw [unpackOnto_names haccepted hnames hne, if_pos (Layout.fits_upTo hU seen hitem),
        Layout.put_upTo hU seen hitem]
    rw [List.map_cons, List.foldlM_cons, hfirst]
    have hagain := ih hrest (seen ++ [path])
    rwa [List.append_assoc, List.singleton_append] at hagain

theorem proper_below (h : (t.get? (p ++ q)).isSome) : ∀ name ∈ q, Proper name := by
  intro name hname
  obtain ⟨above, below, rfl⟩ := List.append_of_mem hname
  apply t.proper (p ++ above) name
  apply FileTree.isSome_above h
  simp

/-- **The entries of a plain directory** describe it, under its name. -/
theorem layoutOf_packed (h : Plain t p) (hdir : t.isDir p = true) {root : String}
    (hroot : Proper root)
    {visited : List Pos} (hvisited : ∀ q, q ∈ visited ↔ (t.get? (p ++ q)).isSome) :
    layoutOf
      ((visited.map fun q => entryOfNode (root :: q) (nodeAt t (p ++ q))).map (.entry · true)) =
      some ((treeLayout t p).wrap root) := by
  have hclosed := (h.closed hdir).wrap root
  let entry : Pos → TarEntry := fun path => entryOfNode path (nodeAt t (p ++ path.tail))
  have hfold := @foldlM_unpackOnto ((treeLayout t p).wrap root) hclosed entry
    (visited.map (root :: ·)) ?_ []
  · rw [Layout.upTo_nil hclosed, List.nil_append, Layout.upTo_eq] at hfold
    · rw [layoutOf, List.map_map]
      rw [List.map_map] at hfold
      exact hfold
    · intro path hsome
      cases path with
      | nil => exact Or.inl rfl
      | cons first q =>
        rw [Layout.wrap] at hsome
        split at hsome
        · rename_i heq
          right
          rw [heq, List.mem_map]
          rw [Ne, ← h.shows.none_iff] at hsome
          exact ⟨q, (hvisited q).mpr (Option.ne_none_iff_isSome.mp hsome), rfl⟩
        · exact absurd rfl hsome
  · intro path hpath
    obtain ⟨q, hq, rfl⟩ := List.mem_map.mp hpath
    obtain ⟨node, hnode⟩ := Option.isSome_iff_exists.mp ((hvisited q).mp hq)
    have hnames : ∀ name ∈ root :: q, Proper name := by
      rw [List.forall_mem_cons]
      exact ⟨hroot, proper_below ((hvisited q).mp hq)⟩
    simp only [entry, List.tail_cons, nodeAt_eq hnode]
    obtain ⟨haccepted, hentry, hitem⟩ := item_entryOfNode h hnames (List.cons_ne_nil root q) hnode
    refine ⟨List.cons_ne_nil root q, haccepted, hentry, ?_⟩
    rw [Layout.wrap, if_pos rfl]
    exact hitem

end Scriptorium
