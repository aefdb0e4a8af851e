import Scriptorium.RawImport
import Scriptorium.Layout
import Scriptorium.Entries

/-!
# Extracting an archive

What an archive describes is a `Layout`: its entries put one after the other into a bare
directory.  The extraction makes exactly this below its root, or fails.
-/

namespace Scriptorium

open Posix Effects

/-- Directories, and files with their bytes. -/
abbrev ArchiveLayout := Layout String (List UInt8)

def TarEntry.item (e : TarEntry) : Layout.Item (List UInt8) :=
  if e.unpacksAsDir then .dir else .leaf e.data

def itemKind : Layout.Item (List UInt8) → Kind
  | .dir => .dir
  | .leaf data => .file data false

/-- The layout after one more item of an archive. -/
def unpackOnto (T : ArchiveLayout) : TarItem → Option ArchiveLayout
  | .broken _ => none
  | .entry e complete =>
    if (TarItem.entry e complete).Refused then none
    else
      match entryNames (PathBuf.ofString e.path) with
      | none => none
      | some [] => some T
      | some names => if T.Fits names e.item then some (T.put names e.item) else none

section

variable {T : ArchiveLayout} {e : TarEntry} {complete : Bool} {names : List String}

theorem unpackOnto_none (h : ¬ (TarItem.entry e complete).Refused)
    (hnames : entryNames (PathBuf.ofString e.path) = none) : unpackOnto T (.entry e complete) =
      none := by
  rw [unpackOnto, if_neg h, hnames]

theorem unpackOnto_root (h : ¬ (TarItem.entry e complete).Refused)
    (hnames : entryNames (PathBuf.ofString e.path) = some []) : unpackOnto T (.entry e complete) =
      some T := by
  rw [unpackOnto, if_neg h, hnames]

theorem unpackOnto_names (h : ¬ (TarItem.entry e complete).Refused)
    (hnames : entryNames (PathBuf.ofString e.path) = some names) (hne : names ≠ []) :
    unpackOnto T (.entry e complete) =
      if T.Fits names e.item then some (T.put names e.item) else none := by
  rw [unpackOnto, if_neg h, hnames]
  cases names with
  | nil => exact absurd rfl hne
  | cons first rest => rfl

variable (complete) in
theorem unpackIn_names (dst : PathBuf) (hnames : entryNames (PathBuf.ofString e.path) = some names)
    (hne : names ≠ []) : unpackIn dst e complete = (do
      let fileDst := dst ++ names.map .normal
      let parent := fileDst.dropLast
      tarError ("failed to create `" ++ PathBuf.display parent ++ "`") (ensureDirCreated dst parent)
      validateInsideDst dst parent
      tarError ("failed to unpack `" ++ PathBuf.display fileDst ++ "`")
        (unpackEntry e complete fileDst)
      pure true) := by
  rw [unpackIn, hnames]
  cases names with
  | nil => exact absurd rfl hne
  | cons first rest => rfl

end

/-- What the items of an archive describe, if they fit together. -/
def layoutOf (items : List TarItem) : Option ArchiveLayout := items.foldlM unpackOnto .bare

/-- Below a position the tree has the directories and files of a layout. -/
def Shows (s : FileTree) (root : Pos) (T : ArchiveLayout) : Prop :=
  ∀ q, (s.get? (root ++ q)).map Node.kind = (T q).map itemKind

section Shows

variable {s : FileTree} {root : Pos} {T : ArchiveLayout}

theorem itemKind_injective : Function.Injective itemKind := by
  intro a b h
  cases a <;> cases b <;> simp_all [itemKind]

theorem Shows.isDir_iff (h : Shows s root T) {q : Pos} : s.isDir (root ++ q) = true ↔
    T q = some .dir := by
  have hq := h q
  rw [FileTree.isDir]
  rcases hnode : s.get? (root ++ q) with _ | node
  · rw [hnode] at hq
    rcases hitem : T q with _ | item
    · simp
    · simp [hitem] at hq
  · rw [hnode] at hq
    obtain ⟨item, hitem, hkind⟩ := Option.map_eq_some_iff.mp hq.symm
    rw [Option.any_some, Node.isDir_iff, hitem, ← hkind]
    constructor
    · intro heq
      have heq' : itemKind item = itemKind .dir := heq
      rw [itemKind_injective heq']
    · intro heq
      rw [Option.some.inj heq]
      rfl

theorem Shows.none_iff (h : Shows s root T) {q : Pos} : s.get? (root ++ q) = none ↔ T q = none := by
  rw [← Option.map_eq_none_iff (f := Node.kind), h q, Option.map_eq_none_iff]

/-- Nothing that has been extracted is a link. -/
theorem Shows.isLink (h : Shows s root T) {q : Pos} {node : Node}
    (hnode : s.get? (root ++ q) = some node) :
    node.isLink = false := by
  have hq := h q
  rw [hnode] at hq
  obtain ⟨item, -, hkind⟩ := Option.map_eq_some_iff.mp hq.symm
  rw [Node.isLink, ← hkind]
  cases item <;> rfl

theorem Shows.open_iff (h : Shows s root T) {q : Pos} :
    T.Open q ↔ s.get? (root ++ q) = none ∨ s.isDir (root ++ q) = true := by
  rw [h.none_iff, h.isDir_iff]
  exact Iff.rfl

end Shows

/-! ### What one entry does -/

section Unpack

variable {cred : Cred} {now : Nat} {t s : FileTree} {R : Region} {dir : Pos} {name : String}

/-- What unpacking an entry at a position asks for, and does: its directory is there, what
    stands at the position is not of the other sort, and nothing else changes. -/
structure Unpacked (e : TarEntry) (complete : Bool) (dir : Pos) (name : String)
    (t s : FileTree) : Prop where
  complete : complete = true ∨ e.unpacksAsDir = true
  isDir : t.isDir dir = true
  fits : if e.unpacksAsDir then t.get? (dir ++ [name]) = none ∨ t.isDir (dir ++ [name]) = true
    else t.isDir (dir ++ [name]) = false
  kind : (s.get? (dir ++ [name])).map Node.kind = some (itemKind e.item)
  same : ∀ q, q ≠ dir ++ [name] → s.get? q = t.get? q

/-- A directory that is unpacked has been made, or was there. -/
theorem unpackDir_ok (ht : FileTree.Clear R t) (hp : R.Seen (dir ++ [name]))
    (h : (unpackDir (canonical (dir ++ [name]))).run (FileTree.exec cred now) t =
      (some (.ok ()), s)) :
    t.isDir dir = true ∧ (t.get? (dir ++ [name]) = none ∨ t.isDir (dir ++ [name]) = true) ∧
      s.isDir (dir ++ [name]) = true ∧ ∀ q, q ≠ dir ++ [name] → s.get? q = t.get? q := by
  obtain ⟨r, u, hattempt, hrun⟩ := Prog.run_bind_eq_ok _ h
  have hmkdir := Prog.run_attempt_eq_ok _ hattempt
  split at hrun
  · obtain rfl : u = s := congrArg Prod.snd hrun
    have hexec : t.mkdir cred now (canonical (dir ++ [name])) = (.ok (), u) :=
      exec_of_run_sys_ok hmkdir
    rcases FileTree.mkdir_cases cred now t (canonical (dir ++ [name])) with
      ⟨e, he⟩ | ⟨dir', name', hdir, hfree, hname, hslot, hadd⟩
    · rw [he] at hexec
      cases hexec
    · obtain ⟨rfl, heq⟩ := List.append_inj' (ht.slot_eq hp hslot) rfl
      obtain rfl := List.singleton_inj.mp heq
      rw [hadd] at hexec
      obtain rfl : _ = u := congrArg Prod.snd hexec
      refine ⟨hdir, Or.inl hfree, ?_, ?_⟩
      · exact FileTree.isDir_iff.mpr ⟨_, by rw [FileTree.get?_add, if_pos rfl], rfl⟩
      · intro q hq
        rw [FileTree.get?_add, if_neg hq]
  · rename_i err
    obtain ⟨e, rfl, hexec⟩ := exec_of_run_sys_error hmkdir
    obtain rfl := (FileTree.exec_error hexec).symm
    obtain ⟨present, v, hpresent, hrun⟩ := Prog.run_bind_eq_ok _ hrun
    split at hrun
    · rename_i htrue
      obtain rfl : v = s := congrArg Prod.snd hrun
      subst htrue
      split at hpresent
      · rw [run_isDir] at hpresent
        obtain ⟨hanswer, rfl⟩ := Prod.mk.inj hpresent
        have hdirAt := Except.ok.inj (Option.some.inj hanswer)
        have hdir : t.isDir (dir ++ [name]) = true := isDir_of_clear ht hp hdirAt
        exact ⟨FileTree.isDir_parent (FileTree.isSome_of_isDir hdir), Or.inr hdir, hdir,
          fun _ _ => rfl⟩
      · cases congrArg Prod.fst hpresent
    · cases hrun

/-- A file that is created anew. -/
theorem createNew_ok (ht : FileTree.Clear R t) (hp : R.Seen (dir ++ [name])) {handle : Pos}
    (h : (sys (.createNew (canonical (dir ++ [name])))).run (FileTree.exec cred now) t =
      (some (.ok handle), s)) :
    handle = dir ++ [name] ∧ t.isDir dir = true ∧ t.get? (dir ++ [name]) = none ∧ ∀ q, s.get? q =
      if q = dir ++ [name] then some ⟨.file [] false, FileTree.newAttrs cred now 0o666⟩ else t.get?
        q := by
  have hexec : t.createNew cred now (canonical (dir ++ [name])) = (.ok handle, s) :=
    exec_of_run_sys_ok h
  rcases FileTree.createNew_cases cred now t (canonical (dir ++ [name])) with
    ⟨e, he⟩ | ⟨dir', name', hdir, hfree, hname, hslot, hadd⟩
  · rw [he] at hexec
    cases hexec
  · obtain ⟨rfl, heq⟩ := List.append_inj' (ht.slot_eq hp hslot) rfl
    obtain rfl := List.singleton_inj.mp heq
    rw [hadd] at hexec
    obtain ⟨hhandle, rfl⟩ := Prod.mk.inj hexec
    refine ⟨(Except.ok.inj hhandle).symm, hdir, hfree, fun q => ?_⟩
    rw [FileTree.get?_add]

/-- The file that an entry is unpacked to is new and empty. -/
theorem openForUnpack_ok (ht : FileTree.Clear R t) (hp : R.Seen (dir ++ [name])) {handle : Pos}
    (h : (openForUnpack (canonical (dir ++ [name]))).run (FileTree.exec cred now) t =
      (some (.ok handle), s)) :
    handle = dir ++ [name] ∧ t.isDir dir = true ∧ t.isDir (dir ++ [name]) = false ∧ ∀ q, s.get? q =
      if q = dir ++ [name] then some ⟨.file [] false, FileTree.newAttrs cred now 0o666⟩ else t.get?
        q := by
  have hnotDir : ∀ {u : FileTree}, u.get? (dir ++ [name]) = none → u.isDir (dir ++ [name]) =
      false := by
    intro u hnone
    simp [FileTree.isDir, hnone]
  obtain ⟨r, u, hattempt, hrun⟩ := Prog.run_bind_eq_ok _ h
  have hcreate := Prog.run_attempt_eq_ok _ hattempt
  split at hrun
  · obtain ⟨hhandle, rfl⟩ := Prod.mk.inj hrun
    obtain rfl := Except.ok.inj (Option.some.inj hhandle)
    obtain ⟨hplace, hdir, hfree, hget⟩ := createNew_ok ht hp hcreate
    exact ⟨hplace, hdir, hnotDir hfree, hget⟩
  · obtain ⟨e, -, hexec⟩ := exec_of_run_sys_error hcreate
    obtain rfl := (FileTree.exec_error hexec).symm
    obtain ⟨r, v, hattempt, hrun⟩ := Prog.run_bind_eq_ok _ hrun
    have hunlink := Prog.run_attempt_eq_ok _ hattempt
    split at hrun
    · -- what stood there was no directory, so nothing stood below it
      have hexec' : t.unlink cred (canonical (dir ++ [name])) = (.ok (), v) :=
        exec_of_run_sys_ok hunlink
      rcases FileTree.unlink_cases cred t (canonical (dir ++ [name])) with
        ⟨e', he⟩ | ⟨dir', name', node, hslot, hnode, hkind, hremove⟩
      · rw [he] at hexec'
        cases hexec'
      · obtain ⟨rfl, heq⟩ := List.append_inj' (ht.slot_eq hp hslot) rfl
        obtain rfl := List.singleton_inj.mp heq
        rw [hremove] at hexec'
        obtain rfl : _ = v := congrArg Prod.snd hexec'
        have hclear : FileTree.Clear R (t.removeAt dir' name') := by
          intro q node hq hsome
          rw [FileTree.get?_removeAt] at hsome
          split at hsome
          · cases hsome
          · exact ht q node hq hsome
        obtain ⟨hplace, -, -, hget⟩ := createNew_ok hclear hp hrun
        refine ⟨hplace, FileTree.isDir_parent (by rw [hnode]; rfl), ?_, ?_⟩
        · rw [FileTree.isDir, hnode]
          exact hkind
        · intro q
          rw [hget, FileTree.get?_removeAt]
          split
          · rfl
          · rename_i hq
            split
            · rename_i hbelow
              obtain ⟨rest, rfl⟩ := hbelow
              cases rest with
              | nil => exact absurd (List.append_nil _) hq
              | cons first rest => exact (FileTree.get?_append_eq_none hnode hkind).symm
            · rfl
    · obtain ⟨e', -, hexec'⟩ := exec_of_run_sys_error hunlink
      obtain rfl := (FileTree.exec_error hexec').symm
      obtain ⟨hplace, hdir, hfree, hget⟩ := createNew_ok ht hp hrun
      exact ⟨hplace, hdir, hnotDir hfree, hget⟩
    · cases hrun
  · cases hrun

/-- Attributes are changed without another effect. -/
theorem kind_setAttrs (t : FileTree) (p q : Pos) (f : Attrs → Attrs) :
    ((t.setAttrs p f).get? q).map Node.kind = (t.get? q).map Node.kind := by
  rw [FileTree.get?_setAttrs]
  split
  · rw [Option.map_map]
    rfl
  · rfl

theorem fchmod_ok {handle : Pos} {mode : Nat} (hthere : t.get? handle ≠ none)
    (h : t.fchmod cred handle mode = (.ok (), s)) : s = t.setAttrs handle fun attrs =>
    { attrs with mode } := by
  unfold FileTree.fchmod at h
  split at h
  · rename_i hnone
    exact absurd hnone hthere
  · split at h
    · exact (congrArg Prod.snd h).symm
    · cases congrArg Prod.fst h

/-- The end of a successful unpacking: a directory that was made or found is given its mode;
    a new file its data, its time and its mode. -/
theorem unpackEntry_steps (ht : FileTree.Clear R t) (hp : R.Seen (dir ++ [name])) {e : TarEntry}
    {complete : Bool} (h : (unpackEntry e complete (canonical (dir ++ [name]))).run
      (FileTree.exec cred now) t = (some (.ok ()), s)) :
    (e.unpacksAsDir = true ∧ ∃ u : FileTree,
      (unpackDir (canonical (dir ++ [name]))).run (FileTree.exec cred now) t = (some (.ok ()), u) ∧
      s = u.setAttrs (dir ++ [name]) fun attrs => { attrs with mode := e.mode % 512 }) ∨
    (e.unpacksAsDir = false ∧ complete = true ∧ ∃ (u : FileTree) (mtime : Nat),
      (openForUnpack (canonical (dir ++ [name]))).run (FileTree.exec cred now) t =
        (some (.ok (dir ++ [name])), u) ∧
      s = ((u.write now (dir ++ [name]) e.data).setAttrs (dir ++ [name]) fun attrs =>
        { attrs with mtime }).setAttrs (dir ++ [name]) fun attrs =>
          { attrs with mode := e.mode % 512 }) := by
  rw [unpackEntry] at h
  split at h
  · rename_i hasDir
    left
    obtain ⟨_, u, hmake, hchmod⟩ := Prog.run_bind_eq_ok _ h
    obtain ⟨-, -, hmade, -⟩ := unpackDir_ok ht hp hmake
    have hexec : u.chmod cred (canonical (dir ++ [name]))
        (fun attrs => { attrs with mode := e.mode % 512 }) =
        (.ok (), s) := exec_of_run_sys_ok hchmod
    have hclear : FileTree.Clear (wayTo (dir ++ [name])) u :=
      (firmAbove_of_isDir hmade).ordinary.clear
    rcases FileTree.chmod_cases cred u (canonical (dir ++ [name]))
      (fun attrs => { attrs with mode := e.mode % 512 }) with ⟨e', he⟩ | ⟨p, node, hfind, hset⟩
    · rw [he] at hexec
      cases hexec
    · obtain rfl := hclear.find_eq (seen_wayTo.mpr (Or.inl List.prefix_rfl)) hfind
      rw [hset] at hexec
      exact ⟨hasDir, u, hmake, (congrArg Prod.snd hexec).symm⟩
  · rename_i hasFile
    right
    obtain ⟨handle, u, hopen, hrun⟩ := Prog.run_bind_eq_ok _ h
    obtain ⟨rfl, -, -, hget⟩ := openForUnpack_ok ht hp hopen
    obtain ⟨_, v, hwrite, hrun⟩ := Prog.run_bind_eq_ok _ hrun
    split at hrun
    · rename_i hcomplete
      obtain ⟨_, w, hmtime, hmode⟩ := Prog.run_bind_eq_ok _ hrun
      obtain rfl : v = u.write now (dir ++ [name]) e.data :=
        (congrArg Prod.snd (exec_of_run_sys_ok hwrite)).symm
      obtain rfl : w = _ := (congrArg Prod.snd (exec_of_run_sys_ok hmtime)).symm
      refine ⟨Bool.eq_false_iff.mpr hasFile, hcomplete, u, if e.mtime = 0 then 1 else e.mtime,
        hopen, ?_⟩
      -- the file is there, so its mode has been set
      have hplace : u.get? (dir ++ [name]) =
          some ⟨.file [] false, FileTree.newAttrs cred now 0o666⟩ := by
        rw [hget, if_pos rfl]
      have hthere : ((u.write now (dir ++ [name]) e.data).setAttrs (dir ++ [name]) fun attrs =>
          { attrs with mtime := if e.mtime = 0 then 1 else e.mtime }).get? (dir ++ [name]) ≠
            none := by
        simp [FileTree.get?_setAttrs, FileTree.write, hplace]
      exact fchmod_ok hthere (exec_of_run_sys_ok hmode)
    · cases congrArg Prod.fst hrun

theorem unpackEntry_ok (ht : FileTree.Clear R t) (hp : R.Seen (dir ++ [name])) {e : TarEntry}
    {complete : Bool} (h : (unpackEntry e complete (canonical (dir ++ [name]))).run
      (FileTree.exec cred now) t = (some (.ok ()), s)) : Unpacked e complete dir name t s := by
  rcases unpackEntry_steps ht hp h with ⟨hasDir, u, hmake, rfl⟩
    | ⟨hasFile, hcomplete, u, mtime, hopen, rfl⟩
  · obtain ⟨hdir, hfits, hmade, hsame⟩ := unpackDir_ok ht hp hmake
    refine ⟨Or.inr hasDir, hdir, by rwa [if_pos hasDir], ?_, ?_⟩
    · obtain ⟨node, hnode, hkind⟩ := FileTree.isDir_iff.mp hmade
      rw [kind_setAttrs, hnode, TarEntry.item, if_pos hasDir, Option.map_some,
        Node.isDir_iff.mp hkind]
      rfl
    · intro q hq
      rw [FileTree.get?_setAttrs, if_neg hq, hsame q hq]
  · obtain ⟨-, hdir, hnot, hget⟩ := openForUnpack_ok ht hp hopen
    have hplace : u.get? (dir ++ [name]) =
        some ⟨.file [] false, FileTree.newAttrs cred now 0o666⟩ := by
      rw [hget, if_pos rfl]
    rw [← Bool.not_eq_true] at hasFile
    refine ⟨Or.inl hcomplete, hdir, by rwa [if_neg hasFile], ?_, ?_⟩
    · rw [kind_setAttrs, kind_setAttrs, TarEntry.item, if_neg hasFile, FileTree.write, hplace]
      simp only [FileTree.get?_setData, hplace, if_true]
      rfl
    · intro q hq
      rw [FileTree.get?_setAttrs, if_neg hq, FileTree.get?_setAttrs, if_neg hq,
        get?_write_of_ne u e.data hq, hget, if_neg hq]

theorem validateInsideDst_same {dst path : PathBuf}
    (h : (validateInsideDst dst path).run (FileTree.exec cred now) t = (some (.ok ()), s)) : s =
      t := by
  have hask : ∀ {path : PathBuf} {p : Pos} {u v : FileTree},
      (realPath path).run (FileTree.exec cred now) u = (some (.ok p), v) → u = v := fun hrun =>
    congrArg Prod.snd (exec_of_run_sys_ok (Prog.run_mapError_eq_ok _ hrun))
  obtain ⟨_, u, hfirst, hrun⟩ := Prog.run_bind_eq_ok _ h
  obtain ⟨_, v, hsecond, hrun⟩ := Prog.run_bind_eq_ok _ hrun
  obtain rfl := hask hfirst
  obtain rfl := hask hsecond
  split at hrun
  · exact (congrArg Prod.snd hrun).symm
  · cases congrArg Prod.fst hrun

/-- A path of names below the root of an extraction. -/
theorem canonical_below (root names : Pos) :
    canonical root ++ names.map .normal = canonical (root ++ names) :=
      (canonical_append root names).symm

theorem Shows.isDir {root : Pos} {T : ArchiveLayout} (h : Shows t root T) (hT : T.Closed) :
    t.isDir root = true := by
  rw [← List.append_nil root]
  exact h.isDir_iff.mpr hT.root

/-- No link is on the way to what has been extracted. -/
theorem Shows.straight {root : Pos} {T : ArchiveLayout} (h : Shows t root T) (hT : T.Closed)
    (path : Pos) :
    Straight t (root ++ path) := by
  have hroot := h.isDir hT
  intro q node hq hnode
  rcases List.prefix_or_prefix_of_prefix hq (List.prefix_append root path) with habove | ⟨rest, rfl⟩
  · exact (firmAbove_of_isDir hroot).ordinary.clear q node (seen_wayTo.mpr (Or.inl habove)) hnode
  · exact h.isLink hnode

/-- What an entry that has been unpacked makes of a layout. -/
theorem Unpacked.shows {root m : Pos} {T : ArchiveLayout} {e : TarEntry} {complete : Bool}
    {u : FileTree} (h : Shows t root T)
    (hmade : ∀ q, u.get? q = t.get? q ∨ q <+: root ++ m ∧ t.get? q = none ∧ u.isDir q = true)
    (hunpacked : Unpacked e complete (root ++ m) name u s) :
    T.Fits (m ++ [name]) e.item ∧ Shows s root (T.put (m ++ [name]) e.item) := by
  have happend : root ++ m ++ [name] = root ++ (m ++ [name]) := List.append_assoc _ _ _
  have hdirs : ∀ {q}, q <+: m → u.isDir (root ++ q) = true := by
    intro q hq
    have hpre : root ++ q <+: root ++ m := (List.prefix_append_right_inj root).mpr hq
    by_cases heq : root ++ q = root ++ m
    · rw [heq]
      exact hunpacked.isDir
    · exact FileTree.isDir_above (FileTree.isSome_of_isDir hunpacked.isDir) hpre heq
  have hplace : u.get? (root ++ (m ++ [name])) = t.get? (root ++ (m ++ [name])) := by
    rcases hmade (root ++ (m ++ [name])) with hsame | ⟨hpre, -⟩
    · exact hsame
    · exact absurd ((List.prefix_append_right_inj root).mp hpre).length_le (by simp)
  have hfits := hunpacked.fits
  rw [happend, FileTree.isDir, hplace, ← FileTree.isDir] at hfits
  constructor
  · refine ⟨?_, ?_, ?_⟩
    · intro above habove hne
      have hpre : above <+: m := by
        rcases List.prefix_concat_iff.mp ((List.mem_inits _ _).mp habove) with heq | hpre
        · exact absurd heq hne
        · exact hpre
      rw [h.open_iff]
      rcases hmade (root ++ above) with hsame | ⟨-, hnone, -⟩
      · right
        rw [FileTree.isDir, ← hsame]
        exact hdirs hpre
      · exact Or.inl hnone
    · intro hitem
      by_cases hasDir : e.unpacksAsDir = true
      · rw [if_pos hasDir] at hfits
        exact h.open_iff.mpr hfits
      · rw [TarEntry.item, if_neg hasDir] at hitem
        cases hitem
    · intro hitem hdir
      by_cases hasDir : e.unpacksAsDir = true
      · rw [TarEntry.item, if_pos hasDir] at hitem
        exact hitem rfl
      · rw [if_neg hasDir, h.isDir_iff.mpr hdir] at hfits
        cases hfits
  · intro q
    rw [Layout.put]
    split
    · rename_i heq
      rw [heq, ← happend, hunpacked.kind]
      rfl
    · rename_i hne
      have hsame : s.get? (root ++ q) = u.get? (root ++ q) := by
        apply hunpacked.same
        rw [happend]
        exact fun heq => hne (List.append_cancel_left heq)
      rw [hsame]
      split
      · rename_i hpre
        obtain ⟨node, hnode, hkind⟩ := FileTree.isDir_iff.mp
          (hdirs ((List.prefix_concat_iff.mp hpre).resolve_left hne))
        rw [hnode, Option.map_some, Node.isDir_iff.mp hkind]
        rfl
      · rename_i hpre
        rcases hmade (root ++ q) with hsame' | ⟨hway, -⟩
        · rw [hsame', h q]
        · have hway' := (List.prefix_append_right_inj root).mp hway
          exact absurd (hway'.trans (List.prefix_append _ _)) hpre

/-- An item that has been extracted is an entry: that of the root itself, which changes
    nothing, or one for which the directories above it are made first. -/
theorem extractItem_steps {root : Pos} {T : ArchiveLayout} (hT : T.Closed) (h : Shows t root T)
    {item : TarItem}
    (hrun : (extractItem (canonical root) item).run (FileTree.exec cred now) t =
      (some (.ok ()), s)) :
    ∃ e complete, item = .entry e complete ∧
      (entryNames (PathBuf.ofString e.path) = some [] ∧ s = t ∨
        ∃ (m : Pos) (name : String) (u : FileTree),
          entryNames (PathBuf.ofString e.path) = some (m ++ [name]) ∧
          (∀ q, u.get? q = t.get? q ∨ q <+: root ++ m ∧ t.get? q = none ∧
            u.get? q = some ⟨.dir, FileTree.newAttrs cred now 0o777⟩) ∧
          FileTree.Clear (wayTo (root ++ m ++ [name])) u ∧
          (unpackEntry e complete (canonical (root ++ m ++ [name]))).run
          (FileTree.exec cred now) u =
            (some (.ok ()), s)) := by
  have haccepts := extractItem_accepts (congrArg Prod.fst hrun)
  cases item with
  | broken message => cases congrArg Prod.fst hrun
  | entry e complete =>
    refine ⟨e, complete, rfl, ?_⟩
    rw [extractItem] at hrun
    split at hrun
    · cases congrArg Prod.fst hrun
    split at hrun
    · obtain ⟨_, u, hio, hdone⟩ := Prog.run_bind_eq_ok _ hrun
      obtain rfl : u = s := congrArg Prod.snd hdone
      have hunpack := Prog.run_mapError_eq_ok _ hio
      rcases hnames : entryNames (PathBuf.ofString e.path) with _ | names
      · exfalso
        apply haccepts
        unfold entryNames at hnames
        split at hnames
        · rename_i hparent
          exact Or.inr (Or.inl hparent)
        · cases hnames
      rcases List.eq_nil_or_concat' names with rfl | ⟨m, name, rfl⟩
      · rw [unpackIn, hnames] at hunpack
        exact Or.inl ⟨rfl, (congrArg Prod.snd hunpack).symm⟩
      · right
        rw [unpackIn_names complete _ hnames (by simp), canonical_below, ← List.append_assoc,
          canonical_concat] at hunpack
        dsimp only at hunpack
        rw [List.dropLast_concat, ← canonical_concat] at hunpack
        obtain ⟨_, v, hmake, hunpack⟩ := Prog.run_bind_eq_ok _ hunpack
        obtain ⟨_, w, hinside, hunpack⟩ := Prog.run_bind_eq_ok _ hunpack
        obtain ⟨_, x, hentry, hunpack⟩ := Prog.run_bind_eq_ok _ hunpack
        obtain rfl : x = u := congrArg Prod.snd hunpack
        obtain rfl := validateInsideDst_same hinside
        have hnear : ∀ {p}, p <+: root ++ m → Near (wayTo (root ++ m)) (canonical p) :=
          fun hp => ⟨_, seen_wayTo.mpr (Or.inl hp), rfl⟩
        have hmade := keeps_new cred now
          (stays_ensureDirCreated (hnear (List.prefix_append root m)) (hnear List.prefix_rfl))
          (h.straight hT m).clear
        rw [Prog.run_mapError_eq_ok _ hmake] at hmade
        refine ⟨m, name, w, rfl, hmade, ?_, Prog.run_mapError_eq_ok _ hentry⟩
        apply Straight.clear
        intro q node hq hnode
        rcases hmade q with hsame | ⟨-, -, hnew⟩
        · have hstraight := h.straight hT (m ++ [name])
          rw [← List.append_assoc] at hstraight
          exact hstraight q node hq (hsame.symm.trans hnode)
        · rw [← Option.some.inj (hnew.symm.trans hnode)]
          rfl
    · cases congrArg Prod.fst hrun

/-- An item that has been extracted fits, and is there. -/
theorem extractItem_ok {root : Pos} {T : ArchiveLayout} (hT : T.Closed) (h : Shows t root T)
    {item : TarItem}
    (hrun : (extractItem (canonical root) item).run (FileTree.exec cred now) t =
      (some (.ok ()), s)) :
    ∃ U, unpackOnto T item = some U ∧ U.Closed ∧ Shows s root U ∧
      ∀ q, ¬ root <+: q → s.get? q = t.get? q := by
  have haccepts := extractItem_accepts (congrArg Prod.fst hrun)
  obtain ⟨e, complete, rfl, ⟨hnames, rfl⟩ | ⟨m, name, u, hnames, hnew, hclear, hentry⟩⟩ :=
    extractItem_steps hT h hrun
  · exact ⟨T, unpackOnto_root haccepts hnames, hT, h, fun _ _ => rfl⟩
  · have hmade : ∀ q, u.get? q = t.get? q ∨ q <+: root ++ m ∧ t.get? q = none ∧ u.isDir q = true :=
      fun q => (hnew q).imp_right fun ⟨hway, hnone, hnode⟩ =>
        ⟨hway, hnone, FileTree.isDir_iff.mpr ⟨_, hnode, rfl⟩⟩
    have hunpacked := unpackEntry_ok hclear (seen_wayTo.mpr (Or.inl List.prefix_rfl)) hentry
    obtain ⟨hfits, hshows⟩ := hunpacked.shows h hmade
    refine ⟨T.put (m ++ [name]) e.item, ?_, hT.put hfits (by simp), hshows, ?_⟩
    · rw [unpackOnto_names haccepts hnames (by simp), if_pos hfits]
    · intro q hq
      rw [hunpacked.same q fun heq =>
        hq (heq ▸ (List.prefix_append root m).trans (List.prefix_append _ _))]
      rcases hmade q with hsame | ⟨hway, hnone, -⟩
      · exact hsame
      · have hsome := FileTree.isSome_above (FileTree.isSome_of_isDir (h.isDir hT))
          ((List.prefix_or_prefix_of_prefix hway (List.prefix_append root m)).resolve_right hq)
        rw [hnone] at hsome
        cases hsome

/-- **Extraction.**  Items that have been extracted describe a layout, and this is what
    stands below the root afterwards. -/
theorem extractItems_ok {root : Pos} {T : ArchiveLayout} (hT : T.Closed) (h : Shows t root T)
    {items : List TarItem}
    (hrun : (extractItems (canonical root) items).run (FileTree.exec cred now) t =
      (some (.ok ()), s)) :
    ∃ U, items.foldlM unpackOnto T = some U ∧ U.Closed ∧ Shows s root U ∧
      ∀ q, ¬ root <+: q → s.get? q = t.get? q := by
  induction items generalizing t T with
  | nil =>
    obtain rfl : t = s := congrArg Prod.snd hrun
    exact ⟨T, rfl, hT, h, fun _ _ => rfl⟩
  | cons item items ih =>
    obtain ⟨_, u, hitem, hrest⟩ := Prog.run_bind_eq_ok _ hrun
    obtain ⟨U, hU, hclosed, hshows, hframe⟩ := extractItem_ok hT h hitem
    obtain ⟨V, hV, hclosed', hshows', hframe'⟩ := ih hclosed hshows hrest
    refine ⟨V, ?_, hclosed', hshows', fun q hq => (hframe' q hq).trans (hframe q hq)⟩
    rw [List.foldlM_cons, hU]
    exact hV

end Unpack

/-! ### Items that fit are extracted -/

section Success

variable {cred : Cred} (now : Nat) {t : FileTree} {root dir : Pos} {name : String}
  (hcred : cred.privileged = true)

include hcred

theorem run_validateInsideDst {path : Pos} (hroot : t.isDir root = true)
    (hpath : t.isDir path = true) (hin : root <+: path) :
    (validateInsideDst (canonical root) (canonical path)).run (FileTree.exec cred now) t =
      (some (.ok ()), t) := by
  have hreal : ∀ {p : Pos}, t.isDir p = true →
      (realPath (canonical p)).run (FileTree.exec cred now) t = (some (.ok p), t) := by
    intro p hp
    rw [realPath, Prog.run_mapError, run_sys_of_ok (FileTree.exec_canonicalize_dir now hcred hp)]
    rfl
  rw [validateInsideDst, Prog.run_bind_ok _ (hreal hpath), Prog.run_bind_ok _ (hreal hroot),
    if_pos (List.isPrefixOf_iff_prefix.mpr hin)]
  rfl

/-- An entry for which there is a directory is made by the first call. -/
theorem run_createDirAll_entry (hdir : t.isDir dir = true) (hfree : t.get? (dir ++ [name]) = none)
    (hname : Proper name) :
    (createDirAll (canonical (dir ++ [name]))).run (FileTree.exec cred now) t =
      (some (.ok ()),
        t.add dir name ⟨.dir, FileTree.newAttrs cred now 0o777⟩ hdir hfree hname) := by
  have hmkdir := run_sys_of_ok (FileTree.exec_mkdir_entry now hcred hdir hfree hname)
  have hlength : (canonical (dir ++ [name])).length = (dir ++ [name]).length + 1 := by
    simp [canonical]
  rw [createDirAll, hlength, createDirAllWithin, Prog.run_bind, Prog.run_attempt, hmkdir]
  rfl

/-- The positions on the way from a directory down a path. -/
def chain (base : Pos) : Pos → List Pos
  | [] => []
  | name :: rest => (base ++ [name]) :: chain (base ++ [name]) rest

omit hcred in
theorem chain_concat (base rest : Pos) (name : String) :
    chain base (rest ++ [name]) = chain base rest ++ [base ++ rest ++ [name]] := by
  induction rest generalizing base with
  | nil => simp [chain]
  | cons first rest ih => simp [chain, ih]

omit hcred in
theorem run_lstat_missing (ht : Straight t (dir ++ [name]))
    (hnone : t.get? (dir ++ [name]) = none) :
    ∃ e, (sys (.lstat (canonical (dir ++ [name])))).run (FileTree.exec cred now) t =
      (some (.error e), t) := by
  obtain ⟨e, he, hne⟩ : ∃ e, t.lstat cred (canonical (dir ++ [name])) = .error e ∧
      e ≠ .wouldblock := by
    rw [canonical_concat, FileTree.lstat_concat, ← canonical_concat]
    rcases hslot : t.slot cred (canonical (dir ++ [name])) with e | ⟨dir', name'⟩
    · refine ⟨e, rfl, ?_⟩
      rintro rfl
      exact FileTree.slot_ne_wouldblock hslot
    · have hplace := ht.clear.slot_eq (seen_wayTo.mpr (Or.inl List.prefix_rfl)) hslot
      simp only [hplace, hnone]
      exact ⟨_, rfl, by decide⟩
  have hexec : FileTree.exec cred now (.lstat (canonical (dir ++ [name]))) t = (.error e, t) := by
    simp only [FileTree.exec, he]
  exact ⟨_, run_sys_of_error hexec hne⟩

/-- What is missing on the way down a path is found from below. -/
theorem run_missingDirs {base rest : Pos} (hbase : (t.get? base).isSome)
    (hmissing : ∀ r, r <+: rest → r ≠ [] → t.get? (base ++ r) = none)
    (ht : Straight t (base ++ rest)) {n : Nat} (hn : (base ++ rest).length < n) :
    (missingDirs n (canonical (base ++ rest))).run (FileTree.exec cred now) t =
      (some (.ok ((chain base rest).reverse.map canonical)), t) := by
  induction rest using List.reverseRecOn generalizing n with
  | nil =>
    obtain ⟨n, rfl⟩ : ∃ m, n = m + 1 := ⟨n - 1, by omega⟩
    obtain ⟨info, hexec⟩ := FileTree.lstat_of_isSome now hcred hbase
    rw [List.append_nil, missingDirs, Prog.run_bind, Prog.run_attempt, run_sys_of_ok hexec]
    rfl
  | append_singleton rest name ih =>
    obtain ⟨n, rfl⟩ : ∃ m, n = m + 1 := ⟨n - 1, by omega⟩
    have hnone := hmissing (rest ++ [name]) List.prefix_rfl (by simp)
    rw [← List.append_assoc] at hnone ht hn ⊢
    have hlstat : ∃ e, (sys (.lstat (canonical (base ++ rest ++ [name])))).run
        (FileTree.exec cred now) t = (some (.error e), t) := run_lstat_missing now ht hnone
    obtain ⟨e, he⟩ := hlstat
    have habove := ih (fun r hr => hmissing r (hr.trans (List.prefix_append _ _)))
      (fun q node hq => ht q node (hq.trans (List.prefix_append _ _)))
      (n := n) (by rw [List.length_append, List.length_singleton] at hn; omega)
    rw [missingDirs, Prog.run_bind, Prog.run_attempt, he]
    simp only [Option.map_some, PathBuf.parent_canonical_concat]
    rw [Prog.run_bind, habove, chain_concat, List.reverse_concat]
    rfl

/-- They are made from above. -/
theorem run_createMissing {base rest : Pos} (hroot : t.isDir root = true)
    (hbase : t.isDir base = true)
    (hin : root <+: base) (hmissing : ∀ r, r <+: rest → r ≠ [] → t.get? (base ++ r) = none)
    (hproper : ∀ name ∈ rest, Proper name) :
    ∃ s, (createMissing (canonical root) ((chain base rest).map canonical)).run
      (FileTree.exec cred now) t = (some (.ok ()), s) ∧ s.isDir (base ++ rest) = true := by
  induction rest generalizing base t with
  | nil => exact ⟨t, rfl, by rwa [List.append_nil]⟩
  | cons name rest ih =>
    rw [List.forall_mem_cons] at hproper
    have hfree : t.get? (base ++ [name]) = none :=
      hmissing [name] (List.prefix_append [name] rest) (by simp)
    have hmake := run_createDirAll_entry now hcred hbase hfree hproper.1
    let u := t.add base name ⟨.dir, FileTree.newAttrs cred now 0o777⟩ hbase hfree hproper.1
    have hget : ∀ q, u.get? q = if q = base ++ [name] then
        some ⟨.dir, FileTree.newAttrs cred now 0o777⟩ else t.get? q := fun q => FileTree.get?_add
    have hmade : u.isDir (base ++ [name]) = true :=
      FileTree.isDir_iff.mpr ⟨_, by rw [hget, if_pos rfl], rfl⟩
    have hroot' : u.isDir root = true := by
      have hne : root ≠ base ++ [name] := by
        rintro rfl
        exact absurd hin.length_le (by simp)
      rwa [FileTree.isDir, hget, if_neg hne]
    obtain ⟨s, hrest, hend⟩ := ih hroot' hmade (hin.trans (List.prefix_append _ _)) (by
      intro r hr hne
      rw [hget, if_neg (by simpa using hne), List.append_assoc]
      exact hmissing (name :: r) (List.cons_prefix_cons.mpr ⟨rfl, hr⟩) (by simp)) hproper.2
    refine ⟨s, ?_, by rwa [List.append_assoc] at hend⟩
    simp only [chain, List.map_cons, createMissing, PathBuf.parent_canonical_concat]
    rw [Prog.run_bind_ok _ (run_validateInsideDst now hcred hroot hbase hin),
      Prog.run_bind_ok _ hmake]
    exact hrest

omit hcred in
/-- A path goes through what is there, and then through what is missing. -/
theorem exists_base (hroot : (t.get? root).isSome) (path : Pos) :
    ∃ base rest, root ++ path = base ++ rest ∧ root <+: base ∧ (t.get? base).isSome ∧
      ∀ r, r <+: rest → r ≠ [] → t.get? (base ++ r) = none := by
  induction path using List.reverseRecOn with
  | nil =>
    refine ⟨root, [], rfl, List.prefix_rfl, hroot, ?_⟩
    intro r hr hne
    exact absurd (List.prefix_nil.mp hr) hne
  | append_singleton path name ih =>
    rcases hnode : t.get? (root ++ (path ++ [name])) with _ | node
    · obtain ⟨base, rest, hpath, hin, hsome, hmissing⟩ := ih
      refine ⟨base, rest ++ [name], ?_, hin, hsome, ?_⟩
      · rw [← List.append_assoc, ← List.append_assoc, hpath]
      · intro r hr hne
        rcases List.prefix_concat_iff.mp hr with rfl | hr
        · rw [← List.append_assoc, ← hpath, List.append_assoc, hnode]
        · exact hmissing r hr hne
    · refine ⟨root ++ (path ++ [name]), [], (List.append_nil _).symm, List.prefix_append _ _, ?_,
        ?_⟩
      · rw [hnode]
        rfl
      · intro r hr hne
        exact absurd (List.prefix_nil.mp hr) hne

/-- Where only directories are on the way, those that are missing are made. -/
theorem run_ensureDirCreated {path : Pos} (hroot : t.isDir root = true)
    (hopen : ∀ q, q <+: path → t.get? (root ++ q) = none ∨ t.isDir (root ++ q) = true)
    (hproper : ∀ name ∈ path, Proper name) :
    ∃ s, (ensureDirCreated (canonical root) (canonical (root ++ path))).run
      (FileTree.exec cred now) t =
      (some (.ok ()), s) ∧ s.isDir (root ++ path) = true := by
  obtain ⟨base, rest, hpath, hin, hsome, hmissing⟩ :=
    exists_base (FileTree.isSome_of_isDir hroot) path
  have hbase : t.isDir base = true := by
    obtain ⟨q, rfl⟩ := hin
    rw [List.append_assoc] at hpath
    have hq : q <+: path := ⟨rest, (List.append_cancel_left hpath).symm⟩
    rcases hopen q hq with hnone | hdir
    · rw [hnone] at hsome
      cases hsome
    · exact hdir
  have hstraight : Straight t (base ++ rest) := by
    intro q node hq hnode
    rcases List.prefix_or_prefix_of_prefix hq (List.prefix_append base rest) with habove | ⟨r, rfl⟩
    · exact (firmAbove_of_isDir hbase).ordinary.clear q node (seen_wayTo.mpr (Or.inl habove)) hnode
    · by_cases hr : r = []
      · rw [hr, List.append_nil] at hnode
        exact (firmAbove_of_isDir hbase).ordinary.clear base node
          (seen_wayTo.mpr (Or.inl List.prefix_rfl)) hnode
      · rw [hmissing r ((List.prefix_append_right_inj base).mp hq) hr] at hnode
        cases hnode
  have hproper' : ∀ name ∈ rest, Proper name := by
    intro name hname
    obtain ⟨q, rfl⟩ := hin
    rw [List.append_assoc] at hpath
    rw [List.append_cancel_left hpath] at hproper
    exact hproper name (List.mem_append_right _ hname)
  obtain ⟨s, hcreate, hend⟩ := run_createMissing now hcred hroot hbase hin hmissing hproper'
  refine ⟨s, ?_, by rwa [hpath]⟩
  rw [ensureDirCreated, hpath,
    Prog.run_bind_ok _ (run_missingDirs now hcred hsome hmissing hstraight
    (by simp [canonical])), ← List.map_reverse, List.reverse_reverse]
  exact hcreate

/-- A directory is made, or is there. -/
theorem run_unpackDir (hdir : t.isDir dir = true) (hname : Proper name)
    (hfits : t.get? (dir ++ [name]) = none ∨ t.isDir (dir ++ [name]) = true) :
    ∃ s, (unpackDir (canonical (dir ++ [name]))).run (FileTree.exec cred now) t =
      (some (.ok ()), s) ∧
      s.isDir (dir ++ [name]) = true := by
  rcases hfits with hfree | hthere
  · have hmkdir := run_sys_of_ok (FileTree.exec_mkdir_entry now hcred hdir hfree hname)
    refine ⟨t.add dir name ⟨.dir, FileTree.newAttrs cred now 0o777⟩ hdir hfree hname, ?_, ?_⟩
    · rw [unpackDir, Prog.run_bind, Prog.run_attempt, hmkdir]
      rfl
    · exact FileTree.isDir_iff.mpr ⟨_, by rw [FileTree.get?_add, if_pos rfl], rfl⟩
  · have hmkdir := run_sys_of_error
      (FileTree.exec_mkdir_exists now hcred hdir (FileTree.isSome_of_isDir hthere)) (by decide)
    have hdirAt : dirAt cred t (canonical (dir ++ [name])) = true := by
      obtain ⟨node, hfind, -, hkind⟩ := FileTree.find_dir hcred hthere
      rw [dirAt, hfind]
      exact hkind
    refine ⟨t, ?_, hthere⟩
    rw [unpackDir, Prog.run_bind, Prog.run_attempt, hmkdir]
    simp only [Option.map_some]
    rw [Prog.run_bind, run_isDir, hdirAt]
    rfl

/-- A file is created, after what stood there has been removed. -/
theorem run_openForUnpack (hdir : t.isDir dir = true) (hname : Proper name)
    (hfits : t.isDir (dir ++ [name]) = false) :
    ∃ s, (openForUnpack (canonical (dir ++ [name]))).run (FileTree.exec cred now) t =
      (some (.ok (dir ++ [name])), s) ∧ (s.get? (dir ++ [name])).isSome := by
  rcases hnode : t.get? (dir ++ [name]) with _ | node
  · have hcreate := run_sys_of_ok (FileTree.exec_createNew_entry now hcred hdir hnode hname)
    refine ⟨t.add dir name ⟨.file [] false, FileTree.newAttrs cred now 0o666⟩ hdir hnode hname, ?_,
      ?_⟩
    · rw [openForUnpack, Prog.run_bind, Prog.run_attempt, hcreate]
      rfl
    · rw [FileTree.get?_add, if_pos rfl]
      rfl
  · have hsome : (t.get? (dir ++ [name])).isSome := by
      rw [hnode]
      rfl
    have hcreate := run_sys_of_error (FileTree.exec_createNew_exists now hcred hdir hsome)
      (by decide)
    have hunlink := run_sys_of_ok (FileTree.exec_unlink_other now hcred hdir hsome hfits)
    have hfree : (t.removeAt dir name).get? (dir ++ [name]) = none := by
      rw [FileTree.get?_removeAt, if_pos List.prefix_rfl]
    have hdir' : (t.removeAt dir name).isDir dir = true := by
      rwa [FileTree.isDir, FileTree.get?_removeAt, if_neg (not_entry_above dir name)]
    have hagain := run_sys_of_ok (FileTree.exec_createNew_entry now hcred hdir' hfree hname)
    refine ⟨(t.removeAt dir name).add dir name ⟨.file [] false, FileTree.newAttrs cred now 0o666⟩
      hdir' hfree hname, ?_, ?_⟩
    · rw [openForUnpack, Prog.run_bind, Prog.run_attempt, hcreate]
      simp only [Option.map_some]
      rw [Prog.run_bind, Prog.run_attempt, hunlink]
      exact hagain
    · rw [FileTree.get?_add, if_pos rfl]
      rfl

/-- Where nothing of the other sort is in its place, an entry is unpacked. -/
theorem run_unpackEntry {e : TarEntry} {complete : Bool} (hdir : t.isDir dir = true)
    (hname : Proper name) (hcomplete : complete = true ∨ e.unpacksAsDir = true)
    (hfits : if e.unpacksAsDir then t.get? (dir ++ [name]) = none ∨ t.isDir (dir ++ [name]) = true
      else t.isDir (dir ++ [name]) = false) :
    ∃ s, (unpackEntry e complete (canonical (dir ++ [name]))).run (FileTree.exec cred now) t =
      (some (.ok ()), s) := by
  rw [unpackEntry]
  by_cases hasDir : e.unpacksAsDir = true
  · rw [if_pos hasDir] at hfits ⊢
    obtain ⟨u, hunpack, hmade⟩ := run_unpackDir now hcred hdir hname hfits
    obtain ⟨node, hnode, hkind⟩ := FileTree.isDir_iff.mp hmade
    have hplain : node.isLink = false := by rw [Node.isLink, Node.isDir_iff.mp hkind]
    have hparent := FileTree.isDir_parent (FileTree.isSome_of_isDir hmade)
    refine ⟨u.setAttrs (dir ++ [name]) fun attrs => { attrs with mode := e.mode % 512 }, ?_⟩
    rw [Prog.run_bind_ok _ hunpack]
    exact run_sys_of_ok (FileTree.exec_chmod_entry now hcred hparent hnode hplain _)
  · rw [if_neg hasDir] at hfits ⊢
    obtain ⟨u, hopen, hplace⟩ := run_openForUnpack now hcred hdir hname hfits
    obtain rfl : complete = true := hcomplete.resolve_right hasDir
    have hwrite : FileTree.exec cred now (.write (dir ++ [name]) e.data) u =
        (.ok (), u.write now (dir ++ [name]) e.data) := rfl
    have hmtime : FileTree.exec cred now
        (.setMtime (dir ++ [name]) (if e.mtime = 0 then 1 else e.mtime))
        (u.write now (dir ++ [name]) e.data) = (.ok (), _) := rfl
    have hstays : (((u.write now (dir ++ [name]) e.data).setAttrs (dir ++ [name])
        fun attrs => { attrs with mtime := if e.mtime = 0 then 1 else e.mtime }).get?
          (dir ++ [name])).isSome := by
      rw [FileTree.get?_setAttrs, if_pos rfl, Option.isSome_map]
      rcases FileTree.write_cases now u (dir ++ [name]) e.data with hsame | ⟨_, _, _, _, hset⟩
      · rwa [hsame]
      · rw [hset, FileTree.get?_setData, if_pos rfl, Option.isSome_map]
        exact hplace
    refine ⟨((u.write now (dir ++ [name]) e.data).setAttrs (dir ++ [name])
      fun attrs => { attrs with mtime := if e.mtime = 0 then 1 else e.mtime }).setAttrs
        (dir ++ [name])
      fun attrs => { attrs with mode := e.mode % 512 }, ?_⟩
    rw [Prog.run_bind_ok _ hopen, Prog.run_bind_ok _ (run_sys_of_ok hwrite), if_pos rfl,
      Prog.run_bind_ok _ (run_sys_of_ok hmtime)]
    exact run_sys_of_ok (FileTree.exec_fchmod now hcred hstays _)

omit hcred in
theorem proper_of_entryNames {path : String} {names : Pos}
    (h : entryNames (PathBuf.ofString path) = some names) : ∀ name ∈ names, Proper name := by
  unfold entryNames at h
  split at h
  · cases h
  · obtain rfl := Option.some.inj h
    intro name hname
    obtain ⟨c, hc, heq⟩ := List.mem_filterMap.mp hname
    cases c with
    | normal other =>
      obtain rfl := Option.some.inj heq
      exact PathBuf.proper_of_mem_ofString hc
    | _ => cases heq

/-- An item that fits is extracted. -/
theorem run_extractItem {T U : ArchiveLayout} (hT : T.Closed) (h : Shows t root T) {item : TarItem}
    (hU : unpackOnto T item = some U) :
    ∃ s, (extractItem (canonical root) item).run (FileTree.exec cred now) t =
      (some (.ok ()), s) := by
  cases item with
  | broken message => cases hU
  | entry e complete =>
    have haccepts : ¬ (TarItem.entry e complete).Refused := by
      intro hrefused
      rw [unpackOnto, if_pos hrefused] at hU
      cases hU
    have hinside : ¬ (isAbsolute e.path || (PathBuf.ofString e.path).contains .parentDir) =
        true := by
      simp only [Bool.or_eq_true, not_or, List.contains_iff_mem]
      exact ⟨fun habsolute => haccepts (Or.inl habsolute),
        fun hparent => haccepts (Or.inr (Or.inl hparent))⟩
    have hkind : e.kind = .regular ∨ e.kind = .directory := by
      by_contra hother
      exact haccepts (Or.inr (Or.inr (Or.inl hother)))
    suffices hunpack : ∃ b s, (unpackIn (canonical root) e complete).run
        (FileTree.exec cred now) t =
        (some (.ok b), s) by
      obtain ⟨b, s, hunpack⟩ := hunpack
      refine ⟨s, ?_⟩
      rw [extractItem, if_neg hinside, if_pos hkind, Prog.run_bind, io, Prog.run_mapError, hunpack]
      rfl
    rcases hnames : entryNames (PathBuf.ofString e.path) with _ | names
    · rw [unpackOnto_none haccepts hnames] at hU
      cases hU
    rcases List.eq_nil_or_concat' names with rfl | ⟨m, name, rfl⟩
    · rw [unpackIn, hnames]
      exact ⟨true, t, rfl⟩
    · rw [unpackOnto_names haccepts hnames (by simp)] at hU
      split at hU
      · rename_i hfits
        have hproper := proper_of_entryNames hnames
        have hopen : ∀ q, q <+: m → t.get? (root ++ q) = none ∨ t.isDir (root ++ q) = true := by
          intro q hq
          rw [← h.open_iff]
          apply hfits.1 q ((List.mem_inits _ _).mpr (hq.trans (List.prefix_append _ _)))
          rintro rfl
          exact absurd hq.length_le (by simp)
        have hroot := h.isDir hT
        obtain ⟨u, hmake, hdir⟩ := run_ensureDirCreated now hcred hroot hopen fun name hname =>
          hproper name (List.mem_append_left _ hname)
        have hroot' : u.isDir root = true := by
          by_cases heq : root = root ++ m
          · rwa [← heq] at hdir
          · exact FileTree.isDir_above (FileTree.isSome_of_isDir hdir) (List.prefix_append root m)
              heq
        -- what stands in the place of the entry is still there
        have hnear : ∀ {p}, p <+: root ++ m → Near (wayTo (root ++ m)) (canonical p) :=
          fun hp => ⟨_, seen_wayTo.mpr (Or.inl hp), rfl⟩
        have hmade := keeps_made cred now
          (stays_ensureDirCreated (hnear (List.prefix_append root m)) (hnear List.prefix_rfl))
          (h.straight hT m).clear (root ++ m ++ [name])
        rw [hmake] at hmade
        have hplace : u.get? (root ++ m ++ [name]) = t.get? (root ++ (m ++ [name])) := by
          rw [← List.append_assoc]
          exact hmade.resolve_right fun hway => absurd hway.1 (not_entry_above _ name)
        have hcomplete : complete = true ∨ e.unpacksAsDir = true := by
          by_contra hboth
          rw [not_or, Bool.not_eq_true, Bool.not_eq_true] at hboth
          exact haccepts (Or.inr (Or.inr (Or.inr ⟨hboth.1, hboth.2, by simp [hnames]⟩)))
        have hfits' : if e.unpacksAsDir then
            u.get? (root ++ m ++ [name]) = none ∨ u.isDir (root ++ m ++ [name]) = true
            else u.isDir (root ++ m ++ [name]) = false := by
          rw [FileTree.isDir, hplace, ← FileTree.isDir]
          by_cases hasDir : e.unpacksAsDir = true
          · rw [if_pos hasDir, ← h.open_iff]
            exact hfits.2.1 (by rw [TarEntry.item, if_pos hasDir])
          · rw [if_neg hasDir, Bool.eq_false_iff, Ne, h.isDir_iff]
            exact hfits.2.2 (by simp [TarEntry.item, if_neg hasDir])
        obtain ⟨s, hentry⟩ := run_unpackEntry now hcred hdir
          (hproper name (List.mem_append_right _ List.mem_cons_self)) hcomplete hfits'
        refine ⟨true, s, ?_⟩
        rw [unpackIn_names complete _ hnames (by simp), canonical_below, ← List.append_assoc,
          canonical_concat]
        dsimp only
        rw [List.dropLast_concat, ← canonical_concat, Prog.run_bind, tarError, Prog.run_mapError,
          hmake]
        simp only [Option.map_some, Except.mapError]
        rw [Prog.run_bind_ok _
          (run_validateInsideDst now hcred hroot' hdir (List.prefix_append root m)),
          Prog.run_bind, tarError, Prog.run_mapError, hentry]
        rfl
      · cases hU

/-- Items that fit together are extracted. -/
theorem run_extractItems {T U : ArchiveLayout} (hT : T.Closed) (h : Shows t root T)
    {items : List TarItem}
    (hU : items.foldlM unpackOnto T = some U) :
    ∃ s, (extractItems (canonical root) items).run (FileTree.exec cred now) t =
      (some (.ok ()), s) := by
  induction items generalizing t T with
  | nil => exact ⟨t, rfl⟩
  | cons item items ih =>
    rw [List.foldlM_cons] at hU
    obtain ⟨V, hV, hrest⟩ := Option.bind_eq_some_iff.mp hU
    obtain ⟨u, hitem⟩ := run_extractItem now hcred hT h hV
    obtain ⟨V', hV', hclosed, hshows, -⟩ := extractItem_ok hT h hitem
    obtain rfl := Option.some.inj (hV.symm.trans hV')
    obtain ⟨s, hitems⟩ := ih hclosed hshows hrest
    exact ⟨s, by rw [extractItems, Prog.run_bind_ok _ hitem]; exact hitems⟩

end Success

end Scriptorium
