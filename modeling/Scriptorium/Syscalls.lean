import Scriptorium.FileTree
import Scriptorium.Effects

/-!
# File system calls

The calls a program makes to the file system, and what each does to a
`FileTree`.  `stat`, `open`, `create`, `chmod` and `chown` follow a link in the
last component of a path; `lstat`, `mkdir`, `unlink`, `remove_dir_all`,
`rename` and an exclusive `open` work on the directory entry itself (`slot`).
A call that fails leaves the tree as it was.

`touched` lists the positions at which a call may change the tree, and
`get?_exec_of_not_touched` is the frame condition of all calls at once.
-/

namespace Posix

/-! ### What calls say about nodes -/

inductive FileType where
  | dir | file | symlink | fifo
deriving DecidableEq, Repr

structure Meta where
  fileType : FileType
  size : Nat
  attrs : Attrs
deriving DecidableEq, Repr

/-- An opened regular file: what `fstat` says, and its bytes. -/
structure Contents where
  info : Meta
  data : List UInt8
  holes : Bool
deriving DecidableEq, Repr

def Node.fileType (node : Node) : FileType :=
  match node.kind with
  | .dir => .dir
  | .file _ _ => .file
  | .link _ => .symlink
  | .fifo => .fifo

/-- A directory is reported with one block, a link with the length of its text. -/
def Node.size (node : Node) : Nat :=
  match node.kind with
  | .dir => 4096
  | .file data _ => data.length
  | .link target => (utf8 target).length
  | .fifo => 0

def Node.info (node : Node) : Meta := ⟨node.fileType, node.size, node.attrs⟩

/-- A regular file with new contents; other nodes have none to replace. -/
def Node.withData (now : Nat) (data : List UInt8) (node : Node) : Node :=
  match node.kind with
  | .file _ _ => ⟨.file data false, { node.attrs with mtime := now }⟩
  | _ => node

@[simp] theorem Node.isDir_withData (now : Nat) (data : List UInt8) (node : Node) :
    (node.withData now data).isDir = node.isDir := by
  unfold Node.withData
  split
  · rename_i hkind
    simp [Node.isDir, hkind]
  · rfl

/-! ### The calls -/

/-- `fileType` is a `stat` of which the caller reads the type alone.  A handle is
    the position of the file that was opened. -/
inductive FsCall where
  | fileType (path : List Component)
  | stat (path : List Component)
  | lstat (path : List Component)
  | readDir (path : List Component)
  | read (path : List Component)
  | canonicalize (path : List Component)
  | mkdir (path : List Component)
  | create (path : List Component)
  | createNew (path : List Component)
  | write (handle : Pos) (data : List UInt8)
  | setMtime (handle : Pos) (mtime : Nat)
  | fchmod (handle : Pos) (mode : Nat)
  | chmod (path : List Component) (mode : Nat)
  | chown (path : List Component) (uid gid : Nat)
  | unlink (path : List Component)
  | removeDirAll (path : List Component)
  | rename (src dst : List Component)
deriving DecidableEq, Repr

abbrev FsCall.Out : FsCall → Type
  | .fileType _ => FileType
  | .stat _ | .lstat _ => Meta
  | .readDir _ => List (String × FileType)
  | .read _ => Contents
  | .canonicalize _ | .create _ | .createNew _ => Pos
  | _ => Unit

abbrev FsCall.Reply (c : FsCall) : Type := Except Errno c.Out

/-- The number of links the kernel follows in one path. -/
def maxLinks : Nat := 40

namespace FileTree

variable (cred : Cred) (now : Nat) (t : FileTree)

/-! ### Finding nodes and entries -/

def target (path : List Component) : Except Errno Target := resolve (t.look cred) maxLinks [] path

/-- The node a path names, links followed. -/
def find (path : List Component) : Except Errno (Pos × Node) :=
  match walk (t.look cred) maxLinks [] path with
  | .error e => .error e
  | .ok p =>
    match t.get? p with
    | none => .error .noent
    | some node => .ok (p, node)

/-- The directory entry a path names, its last component not followed. -/
def slot (path : List Component) : Except Errno (Pos × String) :=
  match path.getLast? with
  | some (.normal name) =>
    match walk (t.look cred) maxLinks [] path.dropLast with
    | .error e => .error e
    | .ok dir =>
      match search (t.look cred) dir with
      | .error e => .error e
      | .ok () => .ok (dir, name)
  | _ => .error .busy

def allows (p : Pos) (access : Access) : Bool :=
  (t.get? p).any fun node => cred.may node.attrs access

def mayChange (node : Node) : Bool := cred.privileged || cred.uid == node.attrs.uid

/-- The attributes of a node the caller creates. -/
def newAttrs (mode : Nat) : Attrs := ⟨mode - (mode &&& cred.umask), cred.uid, cred.gid, now⟩

/-! ### Changes -/

/-- Put a node at a free entry of a directory the caller may write. -/
def addEntry (dir : Pos) (name : String) (node : Node) : Except Errno Unit × FileTree :=
  if hfree : t.get? (dir ++ [name]) = none then
    if hdir : t.isDir dir = true then
      if hname : Proper name then
        if t.allows cred dir .write then (.ok (), t.add dir name node hdir hfree hname)
        else (.error .acces, t)
      else (.error .inval, t)
    else (.error .notdir, t)
  else (.error .exist, t)

def mkdir (path : List Component) : Except Errno Unit × FileTree :=
  match t.slot cred path with
  | .error e => (.error e, t)
  | .ok (dir, name) => t.addEntry cred dir name ⟨.dir, newAttrs cred now 0o777⟩

def setData (p : Pos) (data : List UInt8) : FileTree :=
  t.update p (Node.withData now data) (Node.isDir_withData now data)

def setAttrs (p : Pos) (f : Attrs → Attrs) : FileTree :=
  t.update p (fun node => ⟨node.kind, f node.attrs⟩) fun _ => rfl

def addFile (dir : Pos) (name : String) : Except Errno Pos × FileTree :=
  match t.addEntry cred dir name ⟨.file [] false, newAttrs cred now 0o666⟩ with
  | (.error e, t') => (.error e, t')
  | (.ok (), t') => (.ok (dir ++ [name]), t')

/-- `open` with `O_CREAT | O_TRUNC`.  Opening a pipe waits for its reader. -/
def create (path : List Component) : Except Errno Pos × FileTree :=
  match t.target cred path with
  | .error e => (.error e, t)
  | .ok (.missing dir name) => t.addFile cred now dir name
  | .ok (.found p) =>
    match t.get? p with
    | none => (.error .noent, t)
    | some node =>
      match node.kind with
      | .dir => (.error .isdir, t)
      | .link _ => (.error .loop, t)
      | .fifo => (.error .wouldblock, t)
      | .file _ _ =>
        if cred.may node.attrs .write then (.ok p, t.setData now p []) else (.error .acces, t)

def createNew (path : List Component) : Except Errno Pos × FileTree :=
  match t.slot cred path with
  | .error e => (.error e, t)
  | .ok (dir, name) => t.addFile cred now dir name

/-- Append to an open file. -/
def write (handle : Pos) (data : List UInt8) : FileTree :=
  match t.get? handle with
  | some ⟨.file old _, _⟩ => t.setData now handle (old ++ data)
  | _ => t

def chmod (path : List Component) (f : Attrs → Attrs) : Except Errno Unit × FileTree :=
  match t.find cred path with
  | .error e => (.error e, t)
  | .ok (p, node) =>
    if mayChange cred node then (.ok (), t.setAttrs p f) else (.error .perm, t)

def fchmod (handle : Pos) (mode : Nat) : Except Errno Unit × FileTree :=
  match t.get? handle with
  | none => (.ok (), t)
  | some node =>
    if mayChange cred node then (.ok (), t.setAttrs handle fun attrs => { attrs with mode })
    else (.error .perm, t)

/-- Without privilege an owner may only keep the owner, and give the file to the
    own group. -/
def chown (path : List Component) (uid gid : Nat) : Except Errno Unit × FileTree :=
  match t.find cred path with
  | .error e => (.error e, t)
  | .ok (p, node) =>
    if cred.privileged ||
        (cred.uid == node.attrs.uid && uid == node.attrs.uid &&
          (gid == cred.gid || gid == node.attrs.gid)) then
      (.ok (), t.setAttrs p fun attrs => { attrs with uid, gid })
    else (.error .perm, t)

/-- Remove what stands at an entry, with everything below it. -/
def removeAt (dir : Pos) (name : String) : FileTree := t.prune (dir ++ [name]) (by simp)

def unlink (path : List Component) : Except Errno Unit × FileTree :=
  match t.slot cred path with
  | .error e => (.error e, t)
  | .ok (dir, name) =>
    match t.get? (dir ++ [name]) with
    | none => (.error .noent, t)
    | some node =>
      if t.allows cred dir .write then
        if node.isDir then (.error .isdir, t) else (.ok (), t.removeAt dir name)
      else (.error .acces, t)

/-- Every directory at or below `p` can be listed, and emptied where it is not empty. -/
def removable (p : Pos) : Bool :=
  t.support.all fun q =>
    !(p.isPrefixOf q && t.isDir q) ||
      (t.allows cred q .read &&
        ((t.children q).isEmpty || (t.allows cred q .write && t.allows cred q .search)))

def removeDirAll (path : List Component) : Except Errno Unit × FileTree :=
  match t.slot cred path with
  | .error e => (.error e, t)
  | .ok (dir, name) =>
    match t.get? (dir ++ [name]) with
    | none => (.error .noent, t)
    | some node =>
      match node.kind with
      | .link _ =>
        if t.allows cred dir .write then (.ok (), t.removeAt dir name) else (.error .acces, t)
      | .dir =>
        if t.allows cred dir .write && t.removable cred (dir ++ [name]) then
          (.ok (), t.removeAt dir name)
        else (.error .acces, t)
      | _ => (.error .notdir, t)

/-- Put the subtree at `src` in the place of what stands at an entry. -/
def replaceAt (src dir : Pos) (name : String) (hsrc : (t.get? src).isSome)
    (hdir : t.isDir dir = true) (hname : Proper name) (hin : ¬ src <+: dir)
    (hout : ¬ dir ++ [name] <+: src) : FileTree :=
  (t.removeAt dir name).move src dir name (by simpa [removeAt, hout] using hsrc)
    (by
      have hself : ¬ dir ++ [name] <+: dir := fun h => absurd h.length_le (by simp)
      simpa [removeAt, isDir, hself] using hdir)
    (by simp [removeAt]) hin hname

/-- The checks of `rename(2)` on the node at `dst`, in the kernel's order. -/
def renameCheck (src : Pos) (node : Node) (crossing : Bool) (dst : Pos) : Except Errno Unit :=
  let moved : Except Errno Unit :=
    if node.isDir && crossing && !t.allows cred src .write then .error .acces else .ok ()
  match t.get? dst with
  | none => moved
  | some old =>
    if node.isDir && !old.isDir then .error .notdir
    else if !node.isDir && old.isDir then .error .isdir
    else
      match moved with
      | .error e => .error e
      | .ok () => if (t.children dst).isEmpty then .ok () else .error .notempty

def renameAt (srcDir : Pos) (srcName : String) (node : Node)
    (hnode : t.get? (srcDir ++ [srcName]) = some node) (dir : Pos) (name : String) :
    Except Errno Unit × FileTree :=
  if srcDir ++ [srcName] = dir ++ [name] then (.ok (), t)
  else if hin : srcDir ++ [srcName] <+: dir then (.error .inval, t)
  else if hout : dir ++ [name] <+: srcDir ++ [srcName] then (.error .notempty, t)
  else if hdir : t.isDir dir = true then
    if hname : Proper name then
      if t.allows cred srcDir .write && t.allows cred dir .write then
        match t.renameCheck cred (srcDir ++ [srcName]) node (srcDir != dir) (dir ++ [name]) with
        | .error e => (.error e, t)
        | .ok () =>
          (.ok (), t.replaceAt (srcDir ++ [srcName]) dir name (by simp [hnode]) hdir hname hin hout)
      else (.error .acces, t)
    else (.error .inval, t)
  else (.error .notdir, t)

def rename (srcPath dstPath : List Component) : Except Errno Unit × FileTree :=
  match t.slot cred srcPath with
  | .error e => (.error e, t)
  | .ok (srcDir, srcName) =>
    match t.slot cred dstPath with
    | .error e => (.error e, t)
    | .ok (dir, name) =>
      match hnode : t.get? (srcDir ++ [srcName]) with
      | none => (.error .noent, t)
      | some node => t.renameAt cred srcDir srcName node hnode dir name

/-! ### Listing and reading -/

/-- The entries of a directory: names and types, in the order of the listing. -/
def entries (p : Pos) : List (String × FileType) :=
  (t.children p).filterMap fun name =>
    (t.get? (p ++ [name])).map fun child => (name, child.fileType)

def readDir (path : List Component) : Except Errno (List (String × FileType)) :=
  match t.find cred path with
  | .error e => .error e
  | .ok (p, node) =>
    if node.isDir then
      if cred.may node.attrs .read then .ok (t.entries p) else .error .acces
    else .error .notdir

def read (path : List Component) : Except Errno Contents :=
  match t.find cred path with
  | .error e => .error e
  | .ok (_, node) =>
    if cred.may node.attrs .read then
      match node.kind with
      | .file data holes => .ok ⟨node.info, data, holes⟩
      | .dir => .error .isdir
      | .link _ => .error .loop
      | .fifo => .error .wouldblock
    else .error .acces

/-- The metadata of an entry; a path that names none is followed. -/
def lstat (path : List Component) : Except Errno Meta :=
  match path.getLast? with
  | some (.normal _) =>
    match t.slot cred path with
    | .error e => .error e
    | .ok (dir, name) =>
      match t.get? (dir ++ [name]) with
      | none => .error .noent
      | some node => .ok node.info
  | _ => (t.find cred path).map fun found => found.2.info

/-- What a call answers, and the tree it leaves. -/
def exec (c : FsCall) (t : FileTree) : c.Reply × FileTree :=
  match c with
  | .fileType path => ((t.find cred path).map fun found => found.2.fileType, t)
  | .stat path => ((t.find cred path).map fun found => found.2.info, t)
  | .lstat path => (t.lstat cred path, t)
  | .readDir path => (t.readDir cred path, t)
  | .read path => (t.read cred path, t)
  | .canonicalize path => ((t.find cred path).map Prod.fst, t)
  | .mkdir path => t.mkdir cred now path
  | .create path => t.create cred now path
  | .createNew path => t.createNew cred now path
  | .write handle data => (.ok (), t.write now handle data)
  | .setMtime handle mtime => (.ok (), t.setAttrs handle fun attrs => { attrs with mtime })
  | .fchmod handle mode => t.fchmod cred handle mode
  | .chmod path mode => t.chmod cred path fun attrs => { attrs with mode }
  | .chown path uid gid => t.chown cred path uid gid
  | .unlink path => t.unlink cred path
  | .removeDirAll path => t.removeDirAll cred path
  | .rename src dst => t.rename cred src dst

/-! ### What a call can do -/

variable {cred now t}

theorem slot_eq_ok {path : List Component} {dir : Pos} {name : String}
    (h : t.slot cred path = .ok (dir, name)) :
    path = path.dropLast ++ [.normal name] ∧
      walk (t.look cred) maxLinks [] path.dropLast = .ok dir ∧ t.look cred dir = .dir true := by
  unfold slot at h
  split at h
  · rename_i name' hlast
    split at h
    · cases h
    · rename_i dir' hwalk
      split at h
      · cases h
      · rename_i hsearch
        obtain ⟨rfl, rfl⟩ := Prod.mk.inj (Except.ok.inj h)
        refine ⟨?_, hwalk, search_eq_ok.mp hsearch⟩
        exact (List.dropLast_append_getLast? _ hlast).symm
  · cases h

theorem slot_concat {parent : List Component} {name : String} :
    t.slot cred (parent ++ [.normal name]) =
      match walk (t.look cred) maxLinks [] parent with
      | .error e => .error e
      | .ok dir =>
        match search (t.look cred) dir with
        | .error e => .error e
        | .ok () => .ok (dir, name) := by
  unfold slot
  rw [List.getLast?_concat, List.dropLast_concat]

theorem lstat_concat {parent : List Component} {name : String} :
    t.lstat cred (parent ++ [.normal name]) =
      match t.slot cred (parent ++ [.normal name]) with
      | .error e => .error e
      | .ok (dir, name) =>
        match t.get? (dir ++ [name]) with
        | none => .error .noent
        | some node => .ok node.info := by
  unfold lstat
  rw [List.getLast?_concat]

theorem find_eq_ok {path : List Component} {p : Pos} {node : Node}
    (h : t.find cred path = .ok (p, node)) :
    walk (t.look cred) maxLinks [] path = .ok p ∧ t.get? p = some node := by
  unfold find at h
  split at h
  · cases h
  · rename_i p' hwalk
    split at h
    · cases h
    · rename_i node' hnode
      obtain ⟨rfl, rfl⟩ := Prod.mk.inj (Except.ok.inj h)
      exact ⟨hwalk, hnode⟩

theorem find_of_walk {path : List Component} {p : Pos}
    (h : walk (t.look cred) maxLinks [] path = .ok p) :
    ∃ node, t.get? p = some node ∧ t.find cred path = .ok (p, node) := by
  have hroot : (t.get? []).isSome := isSome_of_isDir isDir_root
  obtain ⟨node, hnode⟩ := Option.isSome_iff_exists.mp (isSome_of_walk hroot h)
  exact ⟨node, hnode, by simp [find, h, hnode]⟩

theorem mem_entries {p : Pos} {entry : String × FileType} :
    entry ∈ t.entries p ↔
      ∃ child, t.get? (p ++ [entry.1]) = some child ∧ child.fileType = entry.2 := by
  obtain ⟨name, fileType⟩ := entry
  simp only [entries, List.mem_filterMap, mem_children, Option.map_eq_some_iff, Prod.mk.injEq]
  constructor
  · rintro ⟨n, -, child, hchild, rfl, rfl⟩
    exact ⟨child, hchild, rfl⟩
  · rintro ⟨child, hchild, rfl⟩
    exact ⟨name, by simp [hchild], child, hchild, rfl, rfl⟩

/-- A listing names every child. -/
theorem map_fst_entries (p : Pos) : (t.entries p).map Prod.fst = t.children p := by
  have hname : ∀ name ∈ t.children p,
      ((t.get? (p ++ [name])).map fun child => (name, child.fileType)).map Prod.fst =
        some name := by
    intro name hchild
    obtain ⟨child, hnode⟩ := Option.isSome_iff_exists.mp (mem_children.mp hchild)
    simp [hnode]
  rw [entries, List.map_filterMap, List.filterMap_congr hname, List.filterMap_some]

theorem proper_of_mem_entries {p : Pos} {entry : String × FileType} (h : entry ∈ t.entries p) :
    Proper entry.1 := by
  obtain ⟨child, hchild, -⟩ := mem_entries.mp h
  exact t.proper p entry.1 (by simp [hchild])

theorem readDir_eq_ok {path : List Component} {entries : List (String × FileType)}
    (h : t.readDir cred path = .ok entries) :
    ∃ p, walk (t.look cred) maxLinks [] path = .ok p ∧ t.isDir p = true ∧
      entries = t.entries p := by
  unfold readDir at h
  split at h
  · cases h
  · rename_i p node hfind
    obtain ⟨hwalk, hnode⟩ := find_eq_ok hfind
    split at h
    · rename_i hdir
      split at h
      · exact ⟨p, hwalk, isDir_iff.mpr ⟨node, hnode, hdir⟩, (Except.ok.inj h).symm⟩
      · cases h
    · cases h

theorem readDir_of_privileged (hcred : cred.privileged = true) {path : List Component} {p : Pos}
    (hwalk : walk (t.look cred) maxLinks [] path = .ok p) (hdir : t.isDir p = true) :
    t.readDir cred path = .ok (t.entries p) := by
  obtain ⟨node, hnode, hfind⟩ := find_of_walk hwalk
  obtain ⟨node', hnode', hdir'⟩ := isDir_iff.mp hdir
  obtain rfl : node = node' := Option.some.inj (hnode.symm.trans hnode')
  simp [readDir, hfind, hdir', Cred.may_of_privileged hcred]

section Cases

variable (cred now t)

theorem addEntry_cases (dir : Pos) (name : String) (node : Node) :
    (∃ e, t.addEntry cred dir name node = (.error e, t)) ∨
      ∃ hdir hfree hname, t.allows cred dir .write = true ∧
        t.addEntry cred dir name node = (.ok (), t.add dir name node hdir hfree hname) := by
  unfold addEntry
  split
  · rename_i hfree
    split
    · rename_i hdir
      split
      · rename_i hname
        split
        · rename_i hwrite
          exact Or.inr ⟨hdir, hfree, hname, hwrite, rfl⟩
        · exact Or.inl ⟨_, rfl⟩
      · exact Or.inl ⟨_, rfl⟩
    · exact Or.inl ⟨_, rfl⟩
  · exact Or.inl ⟨_, rfl⟩

theorem addFile_cases (dir : Pos) (name : String) :
    (∃ e, t.addFile cred now dir name = (.error e, t)) ∨
      ∃ hdir hfree hname, t.addFile cred now dir name = (.ok (dir ++ [name]),
        t.add dir name ⟨.file [] false, newAttrs cred now 0o666⟩ hdir hfree hname) := by
  unfold addFile
  rcases addEntry_cases cred t dir name
    ⟨.file [] false, newAttrs cred now 0o666⟩ with ⟨e, he⟩ | ⟨hdir, hfree, hname, -, hadd⟩
  · rw [he]
    exact Or.inl ⟨e, rfl⟩
  · rw [hadd]
    exact Or.inr ⟨hdir, hfree, hname, rfl⟩

theorem mkdir_cases (path : List Component) :
    (∃ e, t.mkdir cred now path = (.error e, t)) ∨
      ∃ dir name hdir hfree hname, t.slot cred path = .ok (dir, name) ∧
        t.mkdir cred now path =
          (.ok (), t.add dir name ⟨.dir, newAttrs cred now 0o777⟩ hdir hfree hname) := by
  unfold mkdir
  split
  · exact Or.inl ⟨_, rfl⟩
  · rename_i dir name hslot
    rcases addEntry_cases cred t dir name ⟨.dir, newAttrs cred now 0o777⟩ with
      ⟨e, he⟩ | ⟨hdir, hfree, hname, -, hadd⟩
    · exact Or.inl ⟨e, he⟩
    · exact Or.inr ⟨dir, name, hdir, hfree, hname, hslot, hadd⟩

theorem createNew_cases (path : List Component) :
    (∃ e, t.createNew cred now path = (.error e, t)) ∨
      ∃ dir name hdir hfree hname, t.slot cred path = .ok (dir, name) ∧
        t.createNew cred now path = (.ok (dir ++ [name]),
          t.add dir name ⟨.file [] false, newAttrs cred now 0o666⟩ hdir hfree hname) := by
  unfold createNew
  split
  · exact Or.inl ⟨_, rfl⟩
  · rename_i dir name hslot
    rcases addFile_cases cred now t dir name with
      ⟨e, he⟩ | ⟨hdir, hfree, hname, hadd⟩
    · exact Or.inl ⟨e, he⟩
    · exact Or.inr ⟨dir, name, hdir, hfree, hname, hslot, hadd⟩

theorem create_cases (path : List Component) :
    (∃ e, t.create cred now path = (.error e, t)) ∨
      (∃ dir name hdir hfree hname, t.target cred path = .ok (.missing dir name) ∧
        t.create cred now path = (.ok (dir ++ [name]),
          t.add dir name ⟨.file [] false, newAttrs cred now 0o666⟩ hdir hfree hname)) ∨
      ∃ p data holes attrs, t.target cred path = .ok (.found p) ∧
        t.get? p = some ⟨.file data holes, attrs⟩ ∧
        t.create cred now path = (.ok p, t.setData now p []) := by
  unfold create
  split
  · exact Or.inl ⟨_, rfl⟩
  · rename_i dir name htarget
    rcases addFile_cases cred now t dir name with
      ⟨e, he⟩ | ⟨hdir, hfree, hname, hadd⟩
    · exact Or.inl ⟨e, he⟩
    · exact Or.inr (Or.inl ⟨dir, name, hdir, hfree, hname, htarget, hadd⟩)
  · rename_i p htarget
    split
    · exact Or.inl ⟨_, rfl⟩
    · rename_i node hnode
      split
      · exact Or.inl ⟨_, rfl⟩
      · exact Or.inl ⟨_, rfl⟩
      · exact Or.inl ⟨_, rfl⟩
      · rename_i data holes hkind
        split
        · refine Or.inr (Or.inr ⟨p, data, holes, node.attrs, htarget, ?_, rfl⟩)
          rw [hnode, ← hkind]
        · exact Or.inl ⟨_, rfl⟩

theorem write_cases (handle : Pos) (data : List UInt8) :
    t.write now handle data = t ∨
      ∃ old holes attrs, t.get? handle = some ⟨.file old holes, attrs⟩ ∧
        t.write now handle data = t.setData now handle (old ++ data) := by
  unfold write
  split
  · rename_i old holes attrs hnode
    exact Or.inr ⟨old, holes, attrs, hnode, rfl⟩
  · exact Or.inl rfl

theorem chmod_cases (path : List Component) (f : Attrs → Attrs) :
    (∃ e, t.chmod cred path f = (.error e, t)) ∨
      ∃ p node, t.find cred path = .ok (p, node) ∧
        t.chmod cred path f = (.ok (), t.setAttrs p f) := by
  unfold chmod
  split
  · exact Or.inl ⟨_, rfl⟩
  · rename_i p node hfind
    split
    · exact Or.inr ⟨p, node, hfind, rfl⟩
    · exact Or.inl ⟨_, rfl⟩

theorem fchmod_cases (handle : Pos) (mode : Nat) :
    (∃ r, t.fchmod cred handle mode = (r, t)) ∨
      t.fchmod cred handle mode =
        (.ok (), t.setAttrs handle fun attrs => { attrs with mode }) := by
  unfold fchmod
  split
  · exact Or.inl ⟨_, rfl⟩
  · split
    · exact Or.inr rfl
    · exact Or.inl ⟨_, rfl⟩

theorem chown_cases (path : List Component) (uid gid : Nat) :
    (∃ e, t.chown cred path uid gid = (.error e, t)) ∨
      ∃ p node, t.find cred path = .ok (p, node) ∧ t.chown cred path uid gid =
        (.ok (), t.setAttrs p fun attrs => { attrs with uid, gid }) := by
  unfold chown
  split
  · exact Or.inl ⟨_, rfl⟩
  · rename_i p node hfind
    split
    · exact Or.inr ⟨p, node, hfind, rfl⟩
    · exact Or.inl ⟨_, rfl⟩

theorem unlink_cases (path : List Component) :
    (∃ e, t.unlink cred path = (.error e, t)) ∨
      ∃ dir name node, t.slot cred path = .ok (dir, name) ∧
        t.get? (dir ++ [name]) = some node ∧ node.isDir = false ∧
        t.unlink cred path = (.ok (), t.removeAt dir name) := by
  unfold unlink
  split
  · exact Or.inl ⟨_, rfl⟩
  · rename_i dir name hslot
    split
    · exact Or.inl ⟨_, rfl⟩
    · rename_i node hnode
      split
      · split
        · exact Or.inl ⟨_, rfl⟩
        · rename_i hdir
          exact Or.inr ⟨dir, name, node, hslot, hnode, by simpa using hdir, rfl⟩
      · exact Or.inl ⟨_, rfl⟩

theorem removeDirAll_cases (path : List Component) :
    (∃ e, t.removeDirAll cred path = (.error e, t)) ∨
      ∃ dir name node, t.slot cred path = .ok (dir, name) ∧
        t.get? (dir ++ [name]) = some node ∧
        t.removeDirAll cred path = (.ok (), t.removeAt dir name) := by
  unfold removeDirAll
  split
  · exact Or.inl ⟨_, rfl⟩
  · rename_i dir name hslot
    split
    · exact Or.inl ⟨_, rfl⟩
    · rename_i node hnode
      split
      · split
        · exact Or.inr ⟨dir, name, node, hslot, hnode, rfl⟩
        · exact Or.inl ⟨_, rfl⟩
      · split
        · exact Or.inr ⟨dir, name, node, hslot, hnode, rfl⟩
        · exact Or.inl ⟨_, rfl⟩
      · exact Or.inl ⟨_, rfl⟩

theorem renameAt_cases {srcDir : Pos} (dir : Pos) {srcName : String} (name : String) {node : Node}
    (hnode : t.get? (srcDir ++ [srcName]) = some node) :
    (∃ e, t.renameAt cred srcDir srcName node hnode dir name = (.error e, t)) ∨
      (srcDir = dir ∧ srcName = name ∧
        t.renameAt cred srcDir srcName node hnode dir name = (.ok (), t)) ∨
      ∃ hsrc hdir hname hin hout,
        t.renameCheck cred (srcDir ++ [srcName]) node (srcDir != dir) (dir ++ [name]) = .ok () ∧
        t.renameAt cred srcDir srcName node hnode dir name =
          (.ok (), t.replaceAt (srcDir ++ [srcName]) dir name hsrc hdir hname hin hout) := by
  have hsrc : (t.get? (srcDir ++ [srcName])).isSome := by simp [hnode]
  unfold renameAt
  by_cases heq : srcDir ++ [srcName] = dir ++ [name]
  · rw [if_pos heq]
    obtain ⟨hdir, hname⟩ := List.append_inj' heq rfl
    exact Or.inr (Or.inl ⟨hdir, List.singleton_inj.mp hname, rfl⟩)
  · rw [if_neg heq]
    by_cases hin : srcDir ++ [srcName] <+: dir
    · rw [dif_pos hin]
      exact Or.inl ⟨_, rfl⟩
    · rw [dif_neg hin]
      by_cases hout : dir ++ [name] <+: srcDir ++ [srcName]
      · rw [dif_pos hout]
        exact Or.inl ⟨_, rfl⟩
      · rw [dif_neg hout]
        split
        · rename_i hdir
          split
          · rename_i hname
            split
            · split
              · exact Or.inl ⟨_, rfl⟩
              · rename_i hcheck
                exact Or.inr (Or.inr ⟨hsrc, hdir, hname, hin, hout, hcheck, rfl⟩)
            · exact Or.inl ⟨_, rfl⟩
          · exact Or.inl ⟨_, rfl⟩
        · exact Or.inl ⟨_, rfl⟩

theorem rename_cases (srcPath dstPath : List Component) :
    (∃ e, t.rename cred srcPath dstPath = (.error e, t)) ∨
      (∃ dir name, t.slot cred srcPath = .ok (dir, name) ∧ t.slot cred dstPath = .ok (dir, name) ∧
        t.rename cred srcPath dstPath = (.ok (), t)) ∨
      ∃ srcDir srcName dir name node hsrc hdir hname hin hout,
        t.slot cred srcPath = .ok (srcDir, srcName) ∧ t.slot cred dstPath = .ok (dir, name) ∧
        t.get? (srcDir ++ [srcName]) = some node ∧
        t.renameCheck cred (srcDir ++ [srcName]) node (srcDir != dir) (dir ++ [name]) = .ok () ∧
        t.rename cred srcPath dstPath =
          (.ok (), t.replaceAt (srcDir ++ [srcName]) dir name hsrc hdir hname hin hout) := by
  unfold rename
  split
  · exact Or.inl ⟨_, rfl⟩
  · rename_i srcDir srcName hsrcSlot
    split
    · exact Or.inl ⟨_, rfl⟩
    · rename_i dir name hslot
      split
      · exact Or.inl ⟨_, rfl⟩
      · rename_i node hnode
        rcases renameAt_cases cred t dir name hnode with
          ⟨e, he⟩ | ⟨rfl, rfl, heq⟩ | ⟨hsrc, hdir, hname, hin, hout, hcheck, hmove⟩
        · exact Or.inl ⟨e, he⟩
        · exact Or.inr (Or.inl ⟨srcDir, srcName, hsrcSlot, hslot, heq⟩)
        · exact Or.inr (Or.inr ⟨srcDir, srcName, dir, name, node, hsrc, hdir, hname, hin, hout,
            hsrcSlot, hslot, hnode, hcheck, hmove⟩)

end Cases

/-! ### Calls that wait -/

theorem resolve_ne_wouldblock {links : Nat} {pos : Pos} {path : List Component} :
    resolve (t.look cred) links pos path ≠ .error .wouldblock := by
  intro h
  have hwalk : walk (t.look cred) links pos path = .error .wouldblock := by
    rw [walk, h]
  rcases walk_error hwalk with h | h | h | h
  all_goals cases h

theorem walk_ne_wouldblock {links : Nat} {pos : Pos} {path : List Component} :
    walk (t.look cred) links pos path ≠ .error .wouldblock := by
  intro h
  rcases walk_error h with h | h | h | h
  all_goals cases h

theorem find_ne_wouldblock {path : List Component} : t.find cred path ≠ .error .wouldblock := by
  unfold find
  have hwalk : walk (t.look cred) maxLinks [] path ≠ .error .wouldblock := walk_ne_wouldblock
  grind

theorem slot_ne_wouldblock {path : List Component} : t.slot cred path ≠ .error .wouldblock := by
  unfold slot search
  have hwalk : walk (t.look cred) maxLinks [] path.dropLast ≠ .error .wouldblock :=
    walk_ne_wouldblock
  grind

theorem renameCheck_ne_wouldblock {p dst : Pos} {node : Node} {crossing : Bool} :
    t.renameCheck cred p node crossing dst ≠ .error .wouldblock := by
  simp only [renameCheck]
  grind

/-- Only a pipe makes a call wait. -/
theorem waits_of_exec {c : FsCall} (h : (exec cred now c t).1 = .error .wouldblock) :
    ∃ path p node, t.get? p = some node ∧ node.kind = .fifo ∧
      (c = .create path ∧ t.target cred path = .ok (.found p) ∨
        c = .read path ∧ t.find cred path = .ok (p, node)) := by
  have hfind : ∀ path, t.find cred path ≠ .error .wouldblock := fun _ => find_ne_wouldblock
  have hslot : ∀ path, t.slot cred path ≠ .error .wouldblock := fun _ => slot_ne_wouldblock
  have htarget : ∀ path, t.target cred path ≠ .error .wouldblock := fun _ => resolve_ne_wouldblock
  have hmap : ∀ {α : Type} (path) (f : Pos × Node → α),
      (t.find cred path).map f ≠ .error .wouldblock := by
    intro α path f h
    rcases hf : t.find cred path with e | found
    · rw [hf] at h
      exact hfind path (hf.trans (congrArg _ (Except.error.inj h)))
    · rw [hf] at h
      cases h
  cases c with
  | fileType path => exact absurd h (hmap path _)
  | stat path => exact absurd h (hmap path _)
  | lstat path =>
    simp only [exec, lstat] at h
    grind
  | readDir path =>
    simp only [exec, readDir] at h
    grind
  | read path =>
    have hnode : ∀ p node, t.find cred path = .ok (p, node) → t.get? p = some node :=
      fun _ _ h => (find_eq_ok h).2
    simp only [exec, read] at h
    grind
  | canonicalize path => exact absurd h (hmap path _)
  | mkdir path =>
    simp only [exec, mkdir, addEntry] at h
    grind
  | create path =>
    simp only [exec] at h
    unfold create addFile addEntry at h
    grind
  | createNew path =>
    simp only [exec, createNew, addFile, addEntry] at h
    grind
  | write handle data => cases h
  | setMtime handle mtime => cases h
  | fchmod handle mode =>
    simp only [exec, fchmod] at h
    grind
  | chmod path mode =>
    simp only [exec, chmod] at h
    grind
  | chown path uid gid =>
    simp only [exec, chown] at h
    grind
  | unlink path =>
    simp only [exec, unlink] at h
    grind
  | removeDirAll path =>
    simp only [exec, removeDirAll] at h
    grind
  | rename src dst =>
    have hcheck : ∀ p node crossing dst, t.renameCheck cred p node crossing dst ≠
        .error .wouldblock :=
      fun _ _ _ _ => renameCheck_ne_wouldblock
    simp only [exec] at h
    unfold rename renameAt at h
    grind

/-! ### The frame condition -/

@[simp] theorem get?_removeAt {dir q : Pos} {name : String} :
    (t.removeAt dir name).get? q = if dir ++ [name] <+: q then none else t.get? q := rfl

@[simp] theorem get?_setAttrs {p q : Pos} {f : Attrs → Attrs} :
    (t.setAttrs p f).get? q =
      if q = p then (t.get? q).map fun node => ⟨node.kind, f node.attrs⟩ else t.get? q := rfl

@[simp] theorem get?_setData {p q : Pos} {data : List UInt8} :
    (t.setData now p data).get? q =
      if q = p then (t.get? q).map (Node.withData now data) else t.get? q := rfl

/-- What stands where after a replacement: the moved subtree at its new place,
    nothing at the old one, everything else as before. -/
theorem get?_replaceAt {src dir q : Pos} {name : String} {hsrc hdir hname hin hout} :
    (t.replaceAt src dir name hsrc hdir hname hin hout).get? q =
      if dir ++ [name] <+: q then t.get? (src ++ q.drop (dir.length + 1))
      else if src <+: q then none
      else t.get? q := by
  rw [replaceAt, get?_move, get?_removeAt, get?_removeAt]
  by_cases hq : dir ++ [name] <+: q
  · -- the moved subtree does not reach into the place it is moved to
    rw [if_pos hq, if_pos hq, if_neg]
    intro hpre
    rcases List.prefix_or_prefix_of_prefix hpre (List.prefix_append src _) with h | h
    · exact hout h
    · rcases List.prefix_concat_iff.mp h with h | h
      · exact hout (h ▸ List.prefix_rfl)
      · exact hin h
  · rw [if_neg hq, if_neg hq, if_neg hq]

/-- The positions at which a call may change the tree. -/
def touched (cred : Cred) (t : FileTree) : FsCall → List Pos
  | .mkdir path | .createNew path | .unlink path | .removeDirAll path =>
    match t.slot cred path with
    | .ok (dir, name) => [dir ++ [name]]
    | .error _ => []
  | .create path =>
    match t.target cred path with
    | .ok (.found p) => [p]
    | .ok (.missing dir name) => [dir ++ [name]]
    | .error _ => []
  | .write handle _ | .setMtime handle _ | .fchmod handle _ => [handle]
  | .chmod path _ | .chown path _ _ =>
    match t.find cred path with
    | .ok (p, _) => [p]
    | .error _ => []
  | .rename srcPath dstPath =>
    match t.slot cred srcPath, t.slot cred dstPath with
    | .ok (srcDir, srcName), .ok (dir, name) => [srcDir ++ [srcName], dir ++ [name]]
    | _, _ => []
  | _ => []

/-- A call changes nothing outside the positions it touches. -/
theorem get?_exec_of_not_touched (c : FsCall) {q : Pos}
    (h : ∀ p ∈ t.touched cred c, ¬ p <+: q) : (exec cred now c t).2.get? q = t.get? q := by
  have hne : ∀ p ∈ t.touched cred c, q ≠ p := fun p hp hq => h p hp (hq ▸ List.prefix_rfl)
  cases c with
  | fileType path => rfl
  | stat path => rfl
  | lstat path => rfl
  | readDir path => rfl
  | read path => rfl
  | canonicalize path => rfl
  | mkdir path =>
    simp only [exec]
    rcases mkdir_cases cred now t path with
      ⟨e, he⟩ | ⟨dir, name, hdir, hfree, hname, hslot, hadd⟩
    · rw [he]
    · rw [hadd, get?_add, if_neg (hne _ (by simp [touched, hslot]))]
  | create path =>
    simp only [exec]
    rcases create_cases cred now t path with
      ⟨e, he⟩ | ⟨dir, name, hdir, hfree, hname, htarget, hadd⟩
        | ⟨p, data, holes, attrs, htarget, -, hset⟩
    · rw [he]
    · rw [hadd, get?_add, if_neg (hne _ (by simp [touched, htarget]))]
    · rw [hset, get?_setData, if_neg (hne _ (by simp [touched, htarget]))]
  | createNew path =>
    simp only [exec]
    rcases createNew_cases cred now t path with
      ⟨e, he⟩ | ⟨dir, name, hdir, hfree, hname, hslot, hadd⟩
    · rw [he]
    · rw [hadd, get?_add, if_neg (hne _ (by simp [touched, hslot]))]
  | write handle data =>
    simp only [exec]
    rcases write_cases now t handle data with he | ⟨old, holes, attrs, -, hset⟩
    · rw [he]
    · rw [hset, get?_setData, if_neg (hne _ (by simp [touched]))]
  | setMtime handle mtime =>
    simp only [exec]
    rw [get?_setAttrs, if_neg (hne _ (by simp [touched]))]
  | fchmod handle mode =>
    simp only [exec]
    rcases fchmod_cases cred t handle mode with ⟨r, he⟩ | hset
    · rw [he]
    · rw [hset, get?_setAttrs, if_neg (hne _ (by simp [touched]))]
  | chmod path mode =>
    simp only [exec]
    rcases chmod_cases cred t path (fun attrs => { attrs with mode }) with
      ⟨e, he⟩ | ⟨p, node, hfind, hset⟩
    · rw [he]
    · rw [hset, get?_setAttrs, if_neg (hne _ (by simp [touched, hfind]))]
  | chown path uid gid =>
    simp only [exec]
    rcases chown_cases cred t path uid gid with ⟨e, he⟩ | ⟨p, node, hfind, hset⟩
    · rw [he]
    · rw [hset, get?_setAttrs, if_neg (hne _ (by simp [touched, hfind]))]
  | unlink path =>
    simp only [exec]
    rcases unlink_cases cred t path with
      ⟨e, he⟩ | ⟨dir, name, node, hslot, -, -, hrem⟩
    · rw [he]
    · rw [hrem, get?_removeAt, if_neg (h _ (by simp [touched, hslot]))]
  | removeDirAll path =>
    simp only [exec]
    rcases removeDirAll_cases cred t path with
      ⟨e, he⟩ | ⟨dir, name, node, hslot, -, hrem⟩
    · rw [he]
    · rw [hrem, get?_removeAt, if_neg (h _ (by simp [touched, hslot]))]
  | rename src dst =>
    simp only [exec]
    rcases rename_cases cred t src dst with
      ⟨e, he⟩ | ⟨dir, name, -, -, he⟩ |
      ⟨srcDir, srcName, dir, name, node, hsrc, hdir, hname, hin, hout, hs, hd, -, -, hmove⟩
    · rw [he]
    · rw [he]
    · rw [hmove, get?_replaceAt, if_neg (h _ (by simp [touched, hs, hd])),
        if_neg (h _ (by simp [touched, hs, hd]))]

/-- Nor does it change the order of the positions outside. -/
theorem support_exec_of_not_touched (c : FsCall) {keep : Pos → Bool}
    (h : ∀ p ∈ t.touched cred c, ∀ q, keep q = true → ¬ p <+: q) :
    (exec cred now c t).2.support.filter keep = t.support.filter keep := by
  cases c with
  | fileType path => rfl
  | stat path => rfl
  | lstat path => rfl
  | readDir path => rfl
  | read path => rfl
  | canonicalize path => rfl
  | mkdir path =>
    simp only [exec]
    rcases mkdir_cases cred now t path with ⟨e, he⟩ | ⟨dir, name, hdir, hfree, hname, hslot, hok⟩
    · rw [he]
    · rw [hok, support_add (h _ (by simp [touched, hslot]))]
  | create path =>
    simp only [exec]
    rcases create_cases cred now t path with
      ⟨e, he⟩ | ⟨dir, name, hdir, hfree, hname, htarget, hok⟩ | ⟨p, data, holes, attrs, -, -, hset⟩
    · rw [he]
    · rw [hok, support_add (h _ (by simp [touched, htarget]))]
    · rw [hset]
      rfl
  | createNew path =>
    simp only [exec]
    rcases createNew_cases cred now t path with
      ⟨e, he⟩ | ⟨dir, name, hdir, hfree, hname, hslot, hok⟩
    · rw [he]
    · rw [hok, support_add (h _ (by simp [touched, hslot]))]
  | write handle data =>
    simp only [exec]
    rcases write_cases now t handle data with he | ⟨old, holes, attrs, -, hset⟩
    · rw [he]
    · rw [hset]
      rfl
  | setMtime handle mtime => rfl
  | fchmod handle mode =>
    simp only [exec]
    rcases fchmod_cases cred t handle mode with ⟨r, he⟩ | hset
    · rw [he]
    · rw [hset]
      rfl
  | chmod path mode =>
    simp only [exec]
    rcases chmod_cases cred t path (fun attrs => { attrs with mode }) with
      ⟨e, he⟩ | ⟨p, node, -, hset⟩
    · rw [he]
    · rw [hset]
      rfl
  | chown path uid gid =>
    simp only [exec]
    rcases chown_cases cred t path uid gid with ⟨e, he⟩ | ⟨p, node, -, hset⟩
    · rw [he]
    · rw [hset]
      rfl
  | unlink path =>
    simp only [exec]
    rcases unlink_cases cred t path with ⟨e, he⟩ | ⟨dir, name, node, hslot, -, -, hrem⟩
    · rw [he]
    · rw [hrem, removeAt, support_prune (h _ (by simp [touched, hslot]))]
  | removeDirAll path =>
    simp only [exec]
    rcases removeDirAll_cases cred t path with ⟨e, he⟩ | ⟨dir, name, node, hslot, -, hrem⟩
    · rw [he]
    · rw [hrem, removeAt, support_prune (h _ (by simp [touched, hslot]))]
  | rename src dst =>
    simp only [exec]
    rcases rename_cases cred t src dst with
      ⟨e, he⟩ | ⟨dir, name, -, -, he⟩ |
      ⟨srcDir, srcName, dir, name, node, hsrc, hdir, hname, hin, hout, hs, hd, -, -, hok⟩
    · rw [he]
    · rw [he]
    · rw [hok, replaceAt, support_move (h _ (by simp [touched, hs, hd]))
        (h _ (by simp [touched, hs, hd])),
        removeAt, support_prune (h _ (by simp [touched, hs, hd]))]

/-- Calls make directories and regular files only: a node of another kind that is there
    after a call was there before, or below what was renamed. -/
theorem special_of_exec (special : Kind → Bool) (hdir : special .dir = false)
    (hfile : ∀ data holes, special (.file data holes) = false) {c : FsCall} {q : Pos} {node : Node}
    (hnode : (exec cred now c t).2.get? q = some node) (hspecial : special node.kind = true) :
    (∃ old, t.get? q = some old ∧ special old.kind = true) ∨
      ∃ src dst dir name rest old, c = .rename src dst ∧ t.slot cred src = .ok (dir, name) ∧
        t.get? (dir ++ [name] ++ rest) = some old ∧ special old.kind = true := by
  have hsame : t.get? q = some node → ∃ old, t.get? q = some old ∧ special old.kind = true :=
    fun h => ⟨node, h, hspecial⟩
  have hadd : ∀ {dir name new} (hdir hfree hname), special new.kind = false →
      (t.add dir name new hdir hfree hname).get? q = some node →
      ∃ old, t.get? q = some old ∧ special old.kind = true := by
    intro dir name new hdir hfree hname hnew h
    rw [get?_add] at h
    split at h
    · rw [← Option.some.inj h, hnew] at hspecial
      cases hspecial
    · exact hsame h
  have hattrs : ∀ {p f}, (t.setAttrs p f).get? q = some node →
      ∃ old, t.get? q = some old ∧ special old.kind = true := by
    intro p f h
    rw [get?_setAttrs] at h
    split at h
    · obtain ⟨old, hold, rfl⟩ := Option.map_eq_some_iff.mp h
      exact ⟨old, hold, hspecial⟩
    · exact hsame h
  have hdata : ∀ {p data}, (t.setData now p data).get? q = some node →
      ∃ old, t.get? q = some old ∧ special old.kind = true := by
    intro p data h
    rw [get?_setData] at h
    split at h
    · obtain ⟨old, hold, rfl⟩ := Option.map_eq_some_iff.mp h
      refine ⟨old, hold, ?_⟩
      unfold Node.withData at hspecial
      split at hspecial
      · rw [hfile] at hspecial
        cases hspecial
      · exact hspecial
    · exact hsame h
  have hremove : ∀ {dir name}, (t.removeAt dir name).get? q = some node →
      ∃ old, t.get? q = some old ∧ special old.kind = true := by
    intro dir name h
    rw [get?_removeAt] at h
    split at h
    · cases h
    · exact hsame h
  cases c with
  | fileType path => exact Or.inl (hsame hnode)
  | stat path => exact Or.inl (hsame hnode)
  | lstat path => exact Or.inl (hsame hnode)
  | readDir path => exact Or.inl (hsame hnode)
  | read path => exact Or.inl (hsame hnode)
  | canonicalize path => exact Or.inl (hsame hnode)
  | mkdir path =>
    simp only [exec] at hnode
    rcases mkdir_cases cred now t path with ⟨e, he⟩ | ⟨dir, name, hdir', hfree, hname, -, hok⟩
    · rw [he] at hnode
      exact Or.inl (hsame hnode)
    · rw [hok] at hnode
      exact Or.inl (hadd hdir' hfree hname hdir hnode)
  | create path =>
    simp only [exec] at hnode
    rcases create_cases cred now t path with
      ⟨e, he⟩ | ⟨dir, name, hdir', hfree, hname, -, hok⟩ | ⟨p, data, holes, attrs, -, -, hset⟩
    · rw [he] at hnode
      exact Or.inl (hsame hnode)
    · rw [hok] at hnode
      exact Or.inl (hadd hdir' hfree hname (hfile _ _) hnode)
    · rw [hset] at hnode
      exact Or.inl (hdata hnode)
  | createNew path =>
    simp only [exec] at hnode
    rcases createNew_cases cred now t path with ⟨e, he⟩ | ⟨dir, name, hdir', hfree, hname, -, hok⟩
    · rw [he] at hnode
      exact Or.inl (hsame hnode)
    · rw [hok] at hnode
      exact Or.inl (hadd hdir' hfree hname (hfile _ _) hnode)
  | write handle data =>
    simp only [exec] at hnode
    rcases write_cases now t handle data with he | ⟨old, holes, attrs, -, hset⟩
    · rw [he] at hnode
      exact Or.inl (hsame hnode)
    · rw [hset] at hnode
      exact Or.inl (hdata hnode)
  | setMtime handle mtime =>
    simp only [exec] at hnode
    exact Or.inl (hattrs hnode)
  | fchmod handle mode =>
    simp only [exec] at hnode
    rcases fchmod_cases cred t handle mode with ⟨r, he⟩ | hset
    · rw [he] at hnode
      exact Or.inl (hsame hnode)
    · rw [hset] at hnode
      dsimp only at hnode
      exact Or.inl (hattrs hnode)
  | chmod path mode =>
    simp only [exec] at hnode
    rcases chmod_cases cred t path (fun attrs => { attrs with mode }) with ⟨e, he⟩ | ⟨p, _, -, hset⟩
    · rw [he] at hnode
      exact Or.inl (hsame hnode)
    · rw [hset] at hnode
      dsimp only at hnode
      exact Or.inl (hattrs hnode)
  | chown path uid gid =>
    simp only [exec] at hnode
    rcases chown_cases cred t path uid gid with ⟨e, he⟩ | ⟨p, _, -, hset⟩
    · rw [he] at hnode
      exact Or.inl (hsame hnode)
    · rw [hset] at hnode
      dsimp only at hnode
      exact Or.inl (hattrs hnode)
  | unlink path =>
    simp only [exec] at hnode
    rcases unlink_cases cred t path with ⟨e, he⟩ | ⟨dir, name, _, -, -, -, hrem⟩
    · rw [he] at hnode
      exact Or.inl (hsame hnode)
    · rw [hrem] at hnode
      exact Or.inl (hremove hnode)
  | removeDirAll path =>
    simp only [exec] at hnode
    rcases removeDirAll_cases cred t path with ⟨e, he⟩ | ⟨dir, name, _, -, -, hrem⟩
    · rw [he] at hnode
      exact Or.inl (hsame hnode)
    · rw [hrem] at hnode
      exact Or.inl (hremove hnode)
  | rename src dst =>
    simp only [exec] at hnode
    rcases rename_cases cred t src dst with
      ⟨e, he⟩ | ⟨dir, name, -, -, he⟩ |
      ⟨srcDir, srcName, dir, name, _, hsrc, hdir', hname, hin, hout, hs, -, -, -, hok⟩
    · rw [he] at hnode
      exact Or.inl (hsame hnode)
    · rw [he] at hnode
      exact Or.inl (hsame hnode)
    · rw [hok, get?_replaceAt] at hnode
      split at hnode
      · exact Or.inr ⟨src, dst, srcDir, srcName, _, node, rfl, hs, hnode, hspecial⟩
      · split at hnode
        · cases hnode
        · exact Or.inl (hsame hnode)

/-- A call that fails changes nothing. -/
theorem exec_error {c : FsCall} {e : Errno} {s : FileTree} (h : exec cred now c t = (.error e, s)) :
    s = t := by
  have hfailed : ∀ {α : Type} {r : Except Errno α × FileTree},
      (∃ e, r = (.error e, t)) → r = (.error e, s) → s = t := by
    rintro α r ⟨e', rfl⟩ hr
    exact (congrArg Prod.snd hr).symm
  have hdone : ∀ {α : Type} {r : Except Errno α × FileTree} {a : α} {s' : FileTree},
      r = (.ok a, s') → r = (.error e, s) → s = t := by
    rintro α r a s' rfl hr
    cases congrArg Prod.fst hr
  cases c with
  | fileType path => exact (congrArg Prod.snd h).symm
  | stat path => exact (congrArg Prod.snd h).symm
  | lstat path => exact (congrArg Prod.snd h).symm
  | readDir path => exact (congrArg Prod.snd h).symm
  | read path => exact (congrArg Prod.snd h).symm
  | canonicalize path => exact (congrArg Prod.snd h).symm
  | write handle data => cases congrArg Prod.fst h
  | setMtime handle mtime => cases congrArg Prod.fst h
  | mkdir path =>
    rcases mkdir_cases cred now t path with h' | ⟨_, _, _, _, _, -, h'⟩
    · exact hfailed h' h
    · exact hdone h' h
  | create path =>
    rcases create_cases cred now t path with h' | ⟨_, _, _, _, _, -, h'⟩ | ⟨_, _, _, _, -, -, h'⟩
    · exact hfailed h' h
    · exact hdone h' h
    · exact hdone h' h
  | createNew path =>
    rcases createNew_cases cred now t path with h' | ⟨_, _, _, _, _, -, h'⟩
    · exact hfailed h' h
    · exact hdone h' h
  | fchmod handle mode =>
    rcases fchmod_cases cred t handle mode with ⟨r, hr⟩ | h'
    · rw [exec, hr] at h
      exact (congrArg Prod.snd h).symm
    · exact hdone h' h
  | chmod path mode =>
    rcases chmod_cases cred t path (fun attrs => { attrs with mode }) with h' | ⟨_, _, -, h'⟩
    · exact hfailed h' h
    · exact hdone h' h
  | chown path uid gid =>
    rcases chown_cases cred t path uid gid with h' | ⟨_, _, -, h'⟩
    · exact hfailed h' h
    · exact hdone h' h
  | unlink path =>
    rcases unlink_cases cred t path with h' | ⟨_, _, _, -, -, -, h'⟩
    · exact hfailed h' h
    · exact hdone h' h
  | removeDirAll path =>
    rcases removeDirAll_cases cred t path with h' | ⟨_, _, _, -, -, h'⟩
    · exact hfailed h' h
    · exact hdone h' h
  | rename src dst =>
    rcases rename_cases cred t src dst with h' | ⟨_, _, -, -, h'⟩
      | ⟨_, _, _, _, _, _, _, _, _, _, -, -, -, -, h'⟩
    · exact hfailed h' h
    · exact hdone h' h
    · exact hdone h' h

/-- The same of links. -/
theorem link_of_exec {c : FsCall} {q : Pos} {node : Node}
    (hnode : (exec cred now c t).2.get? q = some node) (hlink : node.isLink = true) :
    (∃ old, t.get? q = some old ∧ old.isLink = true) ∨
      ∃ src dst dir name rest old, c = .rename src dst ∧ t.slot cred src = .ok (dir, name) ∧
        t.get? (dir ++ [name] ++ rest) = some old ∧ old.isLink = true :=
  special_of_exec (fun kind => Node.isLink ⟨kind, node.attrs⟩) rfl (fun _ _ => rfl) hnode hlink

end FileTree

end Posix
