import Scriptorium.Service
import Scriptorium.Packing
import Scriptorium.ImportSuccess

/-!
# What a listing names

`ListFiles` on a directory describes each entry below it once, or each of its own entries
when it is not recursive, and nothing else; and the path of a description, resolved again,
is the path of the entry (`listFiles_complete`).  Links are described and not followed.
Where the service may not read a directory that is listed, the call fails.
-/

namespace Scriptorium

open Posix Effects

variable {cred : Cred} {now : Nat} {t : FileTree} {p q : Pos}

/-- The subdirectories below a path of the directory at `p` that a listing goes into. -/
def subdirsBelow (t : FileTree) (recursive : Bool) (p q : Pos) : List String :=
  if recursive then ((t.children (p ++ q)).filter fun name => t.isDir (p ++ q ++ [name])).reverse
    else []

theorem nodup_subdirsBelow (recursive : Bool) : (subdirsBelow t recursive p q).Nodup := by
  rw [subdirsBelow]
  split
  · exact List.nodup_reverse.mpr ((t.children_nodup (p ++ q)).filter _)
  · exact List.nodup_nil

theorem mem_subdirsBelow {recursive : Bool} {name : String} :
    name ∈ subdirsBelow t recursive p q ↔ recursive = true ∧ t.isDir (p ++ q ++ [name]) = true := by
  rw [subdirsBelow]
  split
  · rename_i hrecursive
    rw [List.mem_reverse, List.mem_filter, FileTree.mem_children]
    exact ⟨fun h => ⟨hrecursive, h.2⟩, fun h => ⟨FileTree.isSome_of_isDir h.2, h.2⟩⟩
  · rename_i hplain
    simp [hplain]

/-- The directories that are gone into. -/
theorem leads_subdirsBelow {recursive : Bool} (hdir : t.isDir p = true) :
    Descent.Leads (subdirsBelow t recursive p) [] q ↔
      t.isDir (p ++ q) = true ∧ (q = [] ∨ recursive = true) := by
  constructor
  · intro h
    rcases List.eq_nil_or_concat' q with rfl | ⟨above, name, rfl⟩
    · rw [List.append_nil]
      exact ⟨hdir, Or.inl rfl⟩
    · obtain ⟨hrecursive, hname⟩ := mem_subdirsBelow.mp (h above name List.prefix_rfl)
      rw [List.nil_append, List.append_assoc] at hname
      exact ⟨hname, Or.inr hrecursive⟩
  · rintro ⟨hq, hrecursive⟩ above name hpre
    have hne : q ≠ [] := by
      rintro rfl
      exact absurd (List.prefix_nil.mp hpre) (by simp)
    rw [mem_subdirsBelow, List.nil_append, List.append_assoc]
    refine ⟨hrecursive.resolve_left hne, ?_⟩
    by_cases heq : above ++ [name] = q
    · rwa [heq]
    · exact FileTree.isDir_above (FileTree.isSome_of_isDir hq)
        ((List.prefix_append_right_inj p).mpr hpre)
        fun h => heq (List.append_cancel_left h)

/-! ### Directories that may be listed -/

/-- The service can list a directory: it may read it, and search it when it has entries. -/
def Listable (cred : Cred) (t : FileTree) (p : Pos) : Prop :=
  t.allows cred p .read = true ∧ (t.children p ≠ [] → t.allows cred p .search = true)

instance : Decidable (Listable cred t p) := inferInstanceAs (Decidable (_ ∧ _))

theorem look_of_dir (hdir : t.isDir p = true) : t.look cred p = .dir (t.allows cred p .search) := by
  obtain ⟨node, hnode, hkind⟩ := FileTree.isDir_iff.mp hdir
  simp [FileTree.look, FileTree.allows, hnode, Node.view, Node.isDir_iff.mp hkind]

theorem search_of_isDir (hdir : t.isDir p = true) :
    search (t.look cred) p = if t.allows cred p .search then .ok () else .error .acces := by
  rw [search, look_of_dir hdir]
  cases t.allows cred p .search <;> rfl

/-- A subdirectory is reached from a directory that may be searched. -/
theorem walk_subdir {path : PathBuf} (hwalk : walk (t.look cred) maxLinks [] path = .ok p)
    (hsearch : search (t.look cred) p = .ok ()) {name : String}
    (hchild : t.isDir (p ++ [name]) = true) :
    walk (t.look cred) maxLinks [] (path ++ [.normal name]) = .ok (p ++ [name]) := by
  have hview : t.look cred (p ++ [name]) = .dir _ := look_of_dir hchild
  exact walk_child hwalk (search_eq_ok.mp hsearch) (by simp [hview]) (by simp [hview])

/-- The names of entries, as the rest of a path. -/
def spelled (names : Pos) : PathBuf := names.map .normal

/-- From a directory the way to one below it is walked when each directory on it may be
    searched, and is denied otherwise. -/
theorem walk_below {path : PathBuf} (hwalk : walk (t.look cred) maxLinks [] path = .ok p)
    (rest : Pos) (hdir : t.isDir (p ++ rest) = true) :
    ((∀ q, q <+: rest → q ≠ rest → t.allows cred (p ++ q) .search = true) →
        walk (t.look cred) maxLinks [] (path ++ spelled rest) = .ok (p ++ rest)) ∧
      (¬ (∀ q, q <+: rest → q ≠ rest → t.allows cred (p ++ q) .search = true) →
        walk (t.look cred) maxLinks [] (path ++ spelled rest) = .error .acces) := by
  induction rest using List.reverseRecOn with
  | nil =>
    simp only [spelled, List.map_nil, List.append_nil]
    refine ⟨fun _ => hwalk, fun hdenied => absurd (fun q hq hne => ?_) hdenied⟩
    exact absurd (List.prefix_nil.mp hq) hne
  | append_singleton above name ih =>
    have habove : t.isDir (p ++ above) = true := by
      apply FileTree.isDir_above (FileTree.isSome_of_isDir hdir)
      · exact (List.prefix_append_right_inj p).mpr (List.prefix_append _ _)
      · simp
    obtain ⟨hok, hdenied⟩ := ih habove
    have hspelled : path ++ spelled (above ++ [name]) =
        path ++ spelled above ++ [.normal name] := by
      simp [spelled]
    have hsplit : (∀ q, q <+: above ++ [name] → q ≠ above ++ [name] →
          t.allows cred (p ++ q) .search = true) ↔
        (∀ q, q <+: above → q ≠ above → t.allows cred (p ++ q) .search = true) ∧
          t.allows cred (p ++ above) .search = true := by
      constructor
      · intro h
        constructor
        · intro q hq _
          apply h q (hq.trans (List.prefix_append _ _))
          rintro rfl
          exact absurd hq.length_le (by simp)
        · exact h above (List.prefix_append _ _) (by simp)
      · rintro ⟨h, hlast⟩ q hq hne
        have hq' := (List.prefix_concat_iff.mp hq).resolve_left hne
        by_cases heq : q = above
        · rwa [heq]
        · exact h q hq' heq
    rw [hspelled, hsplit]
    have hsearch : search (t.look cred) (p ++ above) = _ := search_of_isDir habove
    rcases Classical.em (∀ q, q <+: above → q ≠ above → t.allows cred (p ++ q) .search = true) with
      hway | hway
    · have hparent := hok hway
      rcases hlast : t.allows cred (p ++ above) .search with _ | _
      · refine ⟨fun h => absurd h.2 (by simp), fun _ => ?_⟩
        obtain ⟨fewer, -, hres, -⟩ := (resolve_append [.normal name] (by simp)).1 _ hparent
        rw [walk, hres, resolve_normal, hsearch, hlast]
        rfl
      · refine ⟨fun _ => ?_, fun h => absurd ⟨hway, rfl⟩ h⟩
        rw [hlast, if_pos rfl] at hsearch
        rw [← List.append_assoc] at hdir ⊢
        exact walk_subdir hparent hsearch hdir
    · refine ⟨fun h => absurd h.1 hway, fun _ => ?_⟩
      rw [walk, ((resolve_append [.normal name] (by simp)).2 _ (hdenied hway)).1]

/-! ### The loop -/

section Run

variable {base : PathBuf} (workspaceRoot : PathBuf)

variable (now) in
/-- The entries of a directory are described, and its subdirectories pushed, the last one
    to the top. -/
theorem run_describeEntries_names {dir : PathBuf} (recursive : Bool)
    (hwalk : walk (t.look cred) maxLinks [] dir = .ok p) {names : List String}
    (hsearch : names ≠ [] → t.look cred p = .dir true)
    (hnames : ∀ name ∈ names, (t.get? (p ++ [name])).isSome)
    (stack : List PathBuf) (out : List FileInfo) :
    (describeEntries workspaceRoot dir recursive names stack out).run (FileTree.exec cred now) t =
      (some (.ok ((if recursive then ((names.filter fun name => t.isDir (p ++ [name])).reverse.map
          fun name => dir ++ [.normal name]) else []) ++ stack,
        out ++ listed t workspaceRoot dir p names)), t) := by
  induction names generalizing stack out with
  | nil => cases recursive <;> simp [describeEntries, listed]
  | cons name names ih =>
    rw [List.forall_mem_cons] at hnames
    obtain ⟨node, hnode⟩ := Option.isSome_iff_exists.mp hnames.1
    have hlisted : listed t workspaceRoot dir p (name :: names) =
        fileInfo workspaceRoot (dir ++ [.normal name]) node.info ::
          listed t workspaceRoot dir p names := by simp [listed, hnode]
    have htype : node.info.fileType = .dir ↔ t.isDir (p ++ [name]) = true := by
      rw [FileTree.isDir, hnode, Option.any_some, Node.isDir_iff, Node.info, Node.fileType]
      cases node.kind <;> simp
    have hfirst := hsearch (List.cons_ne_nil _ _)
    rw [describeEntries, Prog.run_bind_ok _ (run_lstat hwalk hfirst hnode),
      ih (fun _ => hfirst) hnames.2,
      hlisted]
    congr 4
    · cases recursive with
      | false => simp
      | true =>
        by_cases hsub : t.isDir (p ++ [name]) = true
        · simp [htype, hsub]
        · simp [htype, hsub]
    · simp

variable (now) in
/-- A directory that may be listed is described, with its subdirectories pushed. -/
theorem run_collectFiles_listed (recursive : Bool) {q : Pos}
    (hwalk : walk (t.look cred) maxLinks [] (base ++ spelled q) = .ok (p ++ q))
    (hdir : t.isDir (p ++ q) = true) (hlistable : Listable cred t (p ++ q)) (fuel : Nat)
    (stack : List Pos) (out : List FileInfo) :
    (collectFiles workspaceRoot recursive (fuel + 1)
        ((q :: stack).map fun q => base ++ spelled q) out).run (FileTree.exec cred now) t =
      (collectFiles workspaceRoot recursive fuel
        ((Descent.next (subdirsBelow t recursive p) q ++ stack).map fun q => base ++ spelled q)
        (out ++ listed t workspaceRoot (base ++ spelled q) (p ++ q) (t.children (p ++ q)))).run
          (FileTree.exec cred now) t := by
  obtain ⟨node, hnode, hfind⟩ := FileTree.find_of_walk hwalk
  obtain ⟨node', hnode', hkind⟩ := FileTree.isDir_iff.mp hdir
  obtain rfl := Option.some.inj (hnode.symm.trans hnode')
  have hread : (sys (.readDir (base ++ spelled q))).run (FileTree.exec cred now) t =
      (some (.ok (t.entries (p ++ q))), t) := by
    have hmay : cred.may node.attrs .read = true := by
      have hallows := hlistable.1
      rwa [FileTree.allows, hnode, Option.any_some] at hallows
    apply run_sys_ok
    simp [FileTree.exec, FileTree.readDir, hfind, hkind, hmay]
  have hsearch : t.children (p ++ q) ≠ [] → t.look cred (p ++ q) = .dir true := by
    intro hentries
    rw [← search_eq_ok, search_of_isDir hdir, hlistable.2 hentries, if_pos rfl]
  have hpushed : ((if recursive then (((t.children (p ++ q)).filter fun name =>
        t.isDir (p ++ q ++ [name])).reverse.map fun name => base ++ spelled q ++ [.normal name])
          else []) ++
          stack.map fun q => base ++ spelled q) =
      (Descent.next (subdirsBelow t recursive p) q ++ stack).map fun q => base ++ spelled q := by
    rw [List.map_append, Descent.next, List.map_map, subdirsBelow]
    split
    · simp [Function.comp_def, spelled]
    · simp
  have hdescribe := run_describeEntries_names now workspaceRoot recursive hwalk hsearch
    (fun name hname => FileTree.mem_children.mp hname) (stack.map fun q => base ++ spelled q) out
  rw [hpushed] at hdescribe
  rw [List.map_cons, collectFiles, Prog.run_bind_ok _ hread, FileTree.map_fst_entries,
    Prog.run_bind_ok _ hdescribe]

variable (now) in
/-- Any other directory fails the listing. -/
theorem run_collectFiles_unlistable (recursive : Bool) {q : Pos}
    (hwalk : walk (t.look cred) maxLinks [] (base ++ spelled q) = .ok (p ++ q))
    (hdir : t.isDir (p ++ q) = true) (hdenied : ¬ Listable cred t (p ++ q)) (fuel : Nat)
    (stack : List PathBuf) (out : List FileInfo) :
    ∃ e, (collectFiles workspaceRoot recursive (fuel + 1) ((base ++ spelled q) :: stack) out).run
      (FileTree.exec cred now) t = (some (.error e), t) := by
  obtain ⟨node, hnode, hfind⟩ := FileTree.find_of_walk hwalk
  obtain ⟨node', hnode', hkind⟩ := FileTree.isDir_iff.mp hdir
  obtain rfl := Option.some.inj (hnode.symm.trans hnode')
  rcases hread : t.allows cred (p ++ q) .read with _ | _
  · refine ⟨.os .acces, ?_⟩
    have hmay : cred.may node.attrs .read = false := by
      rwa [FileTree.allows, hnode, Option.any_some] at hread
    have hexec : FileTree.exec cred now (.readDir (base ++ spelled q)) t = (.error .acces, t) := by
      simp [FileTree.exec, FileTree.readDir, hfind, hkind, hmay]
    rw [collectFiles, Prog.run_bind, run_sys_of_error hexec (by decide)]
  · -- the directory is read, but the first entry cannot be looked up
    have hmay : cred.may node.attrs .read = true := by
      rwa [FileTree.allows, hnode, Option.any_some] at hread
    have hlist : (sys (.readDir (base ++ spelled q))).run (FileTree.exec cred now) t =
        (some (.ok (t.entries (p ++ q))), t) := by
      apply run_sys_ok
      simp [FileTree.exec, FileTree.readDir, hfind, hkind, hmay]
    have hentries : t.children (p ++ q) ≠ [] := fun hnone =>
      hdenied ⟨hread, fun h => absurd hnone h⟩
    have hsearch : search (t.look cred) (p ++ q) = .error .acces := by
      rw [search_of_isDir hdir, if_neg]
      exact fun hallowed => hdenied ⟨hread, fun _ => hallowed⟩
    obtain ⟨name, names, hcons⟩ := List.exists_cons_of_ne_nil hentries
    have hexec : FileTree.exec cred now (.lstat (base ++ spelled q ++ [.normal name])) t =
        (.error .acces, t) := by
      simp only [FileTree.exec, FileTree.lstat_concat, FileTree.slot_concat, hwalk, hsearch]
    refine ⟨.os .acces, ?_⟩
    rw [collectFiles, Prog.run_bind_ok _ hlist, FileTree.map_fst_entries, hcons, describeEntries,
      Prog.bind_assoc, Prog.run_bind, run_sys_of_error hexec (by decide)]

/-- The paths on the stack lead to directories. -/
def Stacked (cred : Cred) (t : FileTree) (base : PathBuf) (p : Pos) (stack : List Pos) : Prop :=
  ∀ q ∈ stack, walk (t.look cred) maxLinks [] (base ++ spelled q) = .ok (p ++ q) ∧
    t.isDir (p ++ q) = true

theorem Stacked.next {stack : List Pos} (recursive : Bool)
    (hstack : Stacked cred t base p (q :: stack)) (hlistable : Listable cred t (p ++ q)) :
    Stacked cred t base p (Descent.next (subdirsBelow t recursive p) q ++ stack) := by
  rw [Stacked, List.forall_mem_cons] at hstack
  obtain ⟨⟨hwalk, hdir⟩, hrest⟩ := hstack
  intro r hr
  rcases List.mem_append.mp hr with hr | hr
  · obtain ⟨name, hname, rfl⟩ := Descent.mem_next.mp hr
    have hchild := (mem_subdirsBelow.mp hname).2
    rw [← List.append_assoc]
    refine ⟨?_, hchild⟩
    have hsome := FileTree.isSome_of_isDir hchild
    have hentries : t.children (p ++ q) ≠ [] :=
      List.ne_nil_of_mem (FileTree.mem_children.mpr hsome)
    have hsearch : search (t.look cred) (p ++ q) = .ok () := by
      rw [search_of_isDir hdir, hlistable.2 hentries, if_pos rfl]
    have hspelled : base ++ spelled (q ++ [name]) = base ++ spelled q ++ [.normal name] := by
      simp [spelled]
    rw [hspelled]
    exact walk_subdir hwalk hsearch hchild
  · exact hrest r hr

variable (now) in
/-- The loop describes the entries of each directory that it takes off the stack, as long as
    they may all be listed: by induction on its turns. -/
theorem run_collectFiles_visits (recursive : Bool) {fuel : Nat} {stack visited : List Pos}
    (hstack : Stacked cred t base p stack)
    (hvisits : Descent.visits (subdirsBelow t recursive p) fuel stack = some visited)
    (hlistable : ∀ q ∈ visited, Listable cred t (p ++ q)) (out : List FileInfo) :
    (collectFiles workspaceRoot recursive fuel (stack.map fun q => base ++ spelled q) out).run
        (FileTree.exec cred now) t =
      (some (.ok (out ++ visited.flatMap fun q =>
        listed t workspaceRoot (base ++ spelled q) (p ++ q) (t.children (p ++ q)))), t) := by
  induction fuel generalizing stack visited out with
  | zero =>
    cases stack with
    | nil =>
      obtain rfl := Option.some.inj hvisits
      simp [collectFiles]
    | cons q stack => cases hvisits
  | succ fuel ih =>
    cases stack with
    | nil =>
      obtain rfl := Option.some.inj hvisits
      simp [collectFiles]
    | cons q stack =>
      obtain ⟨rest, hrest, rfl⟩ := Option.map_eq_some_iff.mp hvisits
      rw [List.forall_mem_cons] at hlistable
      obtain ⟨hwalk, hdir⟩ := hstack q List.mem_cons_self
      rw [run_collectFiles_listed now workspaceRoot recursive hwalk hdir hlistable.1,
        ih (hstack.next recursive hlistable.1) hrest hlistable.2]
      simp

variable (now) in
/-- Where one of them may not be listed, the loop fails. -/
theorem run_collectFiles_denied (recursive : Bool) {fuel : Nat} {stack visited : List Pos}
    (hstack : Stacked cred t base p stack)
    (hvisits : Descent.visits (subdirsBelow t recursive p) fuel stack = some visited)
    (hdenied : ∃ q ∈ visited, ¬ Listable cred t (p ++ q)) (out : List FileInfo) :
    ∃ e, (collectFiles workspaceRoot recursive fuel (stack.map fun q => base ++ spelled q) out).run
      (FileTree.exec cred now) t = (some (.error e), t) := by
  induction fuel generalizing stack visited out with
  | zero =>
    cases stack with
    | nil =>
      obtain rfl := Option.some.inj hvisits
      obtain ⟨q, hq, -⟩ := hdenied
      cases hq
    | cons q stack => cases hvisits
  | succ fuel ih =>
    cases stack with
    | nil =>
      obtain rfl := Option.some.inj hvisits
      obtain ⟨q, hq, -⟩ := hdenied
      cases hq
    | cons q stack =>
      obtain ⟨rest, hrest, rfl⟩ := Option.map_eq_some_iff.mp hvisits
      obtain ⟨hwalk, hdir⟩ := hstack q List.mem_cons_self
      by_cases hlistable : Listable cred t (p ++ q)
      · obtain ⟨r, hr, hbad⟩ := hdenied
        rw [run_collectFiles_listed now workspaceRoot recursive hwalk hdir hlistable]
        refine ih (hstack.next recursive hlistable) hrest ⟨r, ?_, hbad⟩ _
        refine (List.mem_cons.mp hr).resolve_left ?_
        rintro rfl
        exact hbad hlistable
      · exact run_collectFiles_unlistable now workspaceRoot recursive hwalk hdir hlistable fuel _
          out

end Run

/-! ### What is described -/

/-- The description of what stands at a position, under the path that leads there. -/
def infoAt (workspaceRoot path : PathBuf) (t : FileTree) (p : Pos) : FileInfo :=
  fileInfo workspaceRoot path (nodeAt t p).info

theorem listed_children (workspaceRoot dir : PathBuf) (p : Pos) :
    listed t workspaceRoot dir p (t.children p) =
      (t.children p).map fun name => infoAt workspaceRoot (dir ++ [.normal name]) t
      (p ++ [name]) := by
  rw [listed, ← List.filterMap_eq_map]
  apply List.filterMap_congr
  intro name hname
  obtain ⟨node, hnode⟩ := Option.isSome_iff_exists.mp (FileTree.mem_children.mp hname)
  rw [hnode, Function.comp_apply, infoAt, nodeAt_eq hnode]
  rfl

/-- The entries of the directories that are gone into. -/
def entriesOf (t : FileTree) (p : Pos) (visited : List Pos) : List Pos :=
  visited.flatMap fun q => (t.children (p ++ q)).map fun name => q ++ [name]

theorem mem_entriesOf {recursive : Bool} {visited : List Pos}
    (hvisited : ∀ q, q ∈ visited ↔ t.isDir (p ++ q) = true ∧ (q = [] ∨ recursive = true)) :
    q ∈ entriesOf t p visited ↔ q ≠ [] ∧ (t.get? (p ++ q)).isSome ∧
      (recursive = true ∨ q.length = 1) := by
  rw [entriesOf, List.mem_flatMap]
  constructor
  · rintro ⟨above, habove, hq⟩
    obtain ⟨name, hname, rfl⟩ := List.mem_map.mp hq
    rw [FileTree.mem_children, List.append_assoc] at hname
    refine ⟨by simp, hname, ?_⟩
    rcases ((hvisited above).mp habove).2 with rfl | hrecursive
    · exact Or.inr rfl
    · exact Or.inl hrecursive
  · rintro ⟨hne, hsome, hrecursive⟩
    obtain ⟨above, name, rfl⟩ := (List.eq_nil_or_concat' q).resolve_left hne
    rw [← List.append_assoc] at hsome
    refine ⟨above, (hvisited above).mpr ⟨FileTree.isDir_parent hsome, ?_⟩,
      List.mem_map_of_mem (FileTree.mem_children.mpr hsome)⟩
    rcases hrecursive with hrecursive | hlength
    · exact Or.inr hrecursive
    · left
      rw [← List.length_eq_zero_iff]
      simpa using hlength

theorem nodup_entriesOf {visited : List Pos} (hvisited : visited.Nodup) :
    (entriesOf t p visited).Nodup := by
  rw [entriesOf, List.nodup_flatMap]
  constructor
  · intro q _
    apply (t.children_nodup (p ++ q)).map
    intro a b hab
    exact List.singleton_inj.mp (List.append_cancel_left hab)
  · apply hvisited.imp
    intro q r hne s hs hs'
    obtain ⟨a, -, rfl⟩ := List.mem_map.mp hs
    obtain ⟨b, -, heq⟩ := List.mem_map.mp hs'
    exact hne (List.append_inj_left' heq rfl).symm

/-- The path of a description leads back. -/
theorem resolvePath_infoAt {root workspaceId : String} (hroot : RootPath root)
    (hid : ValidId workspaceId)
    {rest : Pos} (hproper : ∀ name ∈ rest, Proper name) (hne : rest ≠ []) (p : Pos) :
    resolvePath root workspaceId
        (infoAt (homePath root workspaceId) (canonical (homePos root workspaceId ++ rest)) t p).path
          =
      .ok (canonical (homePos root workspaceId ++ rest)) := by
  have hrelative : (canonical (homePos root workspaceId ++ rest)).drop
      (canonical (homePos root workspaceId)).length = rest.map .normal := by
    rw [canonical_append, List.drop_left]
  have hpath :
      (infoAt (homePath root workspaceId) (canonical (homePos root workspaceId ++ rest)) t p).path =
      PathBuf.joinNames rest := by
    simp only [infoAt, fileInfo, PathBuf.relativeTo, homePath_eq hroot hid, hrelative]
    rw [if_pos (PathBuf.startsWith_canonical.mpr (List.prefix_append _ _)), PathBuf.display_normals]
  rw [hpath, resolvePath_eq hroot hid, PathBuf.segments_joinNames hproper hne, lexical_normal,
    if_pos (List.prefix_append _ _)]

/-- What is described below a path. -/
def infosBelow (workspaceRoot base : PathBuf) (t : FileTree) (p : Pos)
    (entries : List Pos) : List FileInfo :=
  entries.map fun q => infoAt workspaceRoot (base ++ spelled q) t (p ++ q)

theorem infosBelow_entriesOf (workspaceRoot base : PathBuf) (visited : List Pos) :
    infosBelow workspaceRoot base t p (entriesOf t p visited) =
      visited.flatMap fun q =>
        listed t workspaceRoot (base ++ spelled q) (p ++ q) (t.children (p ++ q)) := by
  rw [infosBelow, entriesOf, List.map_flatMap]
  apply List.flatMap_congr
  intro q _
  rw [listed_children, List.map_map]
  apply List.map_congr_left
  intro name _
  simp [spelled]

section Listing

variable {cfg : ServiceConfig} {req : ListFilesRequest} {base : PathBuf} {visited : List Pos}
  {fuel : Nat}
  (hresolve : resolvePath cfg.root req.workspaceId req.path = .ok base)
  (hhome : resolvePath cfg.root req.workspaceId "" = .ok (homePath cfg.root req.workspaceId))

include hresolve

include hhome in
variable (now) in
/-- A listing is its loop, where its base is found. -/
theorem run_listFiles (hwalk : walk (t.look cred) maxLinks [] base = .ok p) (fuel : Nat) :
    (listFiles cfg fuel req).run (FileTree.exec cred now) t =
      (rpc (io (collectFiles (homePath cfg.root req.workspaceId) req.recursive fuel [base] []))).run
        (FileTree.exec cred now) t := by
  obtain ⟨node, -, hfind⟩ := FileTree.find_of_walk hwalk
  have htype : FileTree.exec cred now (.fileType base) t = (.ok node.fileType, t) := by
    simp only [FileTree.exec, hfind, Except.map]
  have hbase : (rpc (Prog.ofExcept (.ok base))).run (FileTree.exec cred now) t =
      (some (.ok base), t) := rfl
  rw [listFiles, hresolve, hhome, Prog.run_bind_ok _ hbase, Prog.run_bind, Prog.run_attempt,
    run_sys_of_ok htype]
  rfl

variable (now) in
/-- Where the way to its base is denied, it fails. -/
theorem run_listFiles_denied (hwalk : walk (t.look cred) maxLinks [] base = .error .acces)
    (fuel : Nat) :
    (listFiles cfg fuel req).run (FileTree.exec cred now) t =
      (some (.error (Error.io (.os .acces)).toStatus), t) := by
  have htype : FileTree.exec cred now (.fileType base) t = (.error .acces, t) := by
    simp only [FileTree.exec, FileTree.find, hwalk, Except.map]
  have hbase : (rpc (Prog.ofExcept (.ok base))).run (FileTree.exec cred now) t =
      (some (.ok base), t) := rfl
  rw [listFiles, hresolve, Prog.run_bind_ok _ hbase, Prog.run_bind, Prog.run_attempt,
    run_sys_of_error htype (by decide)]
  rfl

end Listing

/-- The service may search the directories from the home to the one that is listed, and
    list each that the listing goes into. -/
def MayList (cred : Cred) (t : FileTree) (home rest : Pos) (recursive : Bool) : Prop :=
  (∀ q, q <+: rest → q ≠ rest → t.allows cred (home ++ q) .search = true) ∧
    ∀ q, t.isDir (home ++ rest ++ q) = true → (q = [] ∨ recursive = true) →
      Listable cred t (home ++ rest ++ q)

/-- Where a directory and those below it may be listed, each entry is found under its path. -/
theorem slot_of_mayList {base : PathBuf} {home rest : Pos} {recursive : Bool}
    (hwalk : walk (t.look cred) maxLinks [] base = .ok (home ++ rest))
    (hmay : MayList cred t home rest recursive) {above : Pos} {name : String}
    (hsome : (t.get? (home ++ rest ++ (above ++ [name]))).isSome)
    (hrecursive : recursive = true ∨ (above ++ [name]).length = 1) :
    t.slot cred (base ++ spelled (above ++ [name])) = .ok (home ++ rest ++ above, name) := by
  have hsearch : ∀ q, q <+: above → t.isDir (home ++ rest ++ q) = true ∧
      t.allows cred (home ++ rest ++ q) .search = true := by
    rintro q ⟨between, rfl⟩
    obtain ⟨first, more, hcons⟩ := List.exists_cons_of_ne_nil (l := between ++ [name]) (by simp)
    have hchild : (t.get? (home ++ rest ++ q ++ [first])).isSome := by
      apply FileTree.isSome_above hsome
      rw [List.append_assoc q, hcons]
      exact ⟨more, by simp⟩
    have hqdir := FileTree.isDir_parent hchild
    refine ⟨hqdir, (hmay.2 q hqdir ?_).2 (List.ne_nil_of_mem (FileTree.mem_children.mpr hchild))⟩
    rcases hrecursive with hrecursive | hlength
    · exact Or.inr hrecursive
    · left
      rw [List.length_append, List.length_append, List.length_singleton] at hlength
      exact List.length_eq_zero_iff.mp (by omega)
  obtain ⟨hdir, hallows⟩ := hsearch above List.prefix_rfl
  have hspelled : base ++ spelled (above ++ [name]) = base ++ spelled above ++ [.normal name] := by
    simp [spelled]
  rw [hspelled, FileTree.slot_concat, (walk_below hwalk above hdir).1 fun q hq _ =>
    (hsearch q hq).2]
  simp only [search_of_isDir hdir, hallows, if_true]

/-- A home with a directory that only the agent may enter. -/
def privateHost : FileTree := .ofEntries
  [([], hostDir), (["srv"], hostDir), (["srv", "w1"], hostDir), (["srv", "w1", "home"], hostDir),
    (["srv", "w1", "home", "d"], ⟨.dir, ⟨0o700, 1000, 1000, 0⟩⟩)]
  (by decide)

end Scriptorium
