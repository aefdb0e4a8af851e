import Scriptorium.HostFs

/-!
# The `tar` crate

What the service uses of `tar` 0.4: the builder's walk over a directory, which
follows links and works through an explicit stack, and `unpack_in`, which puts
one entry below a directory after checking where it would land.  The byte format
and gzip are a `Codec`; the order of the entries, their kinds and the file system
calls are written out.
-/

namespace Scriptorium

open Posix Effects

/-! ### Entries -/

inductive EntryKind where
  | regular | directory | fifo | gnuSparse | symlink | hardLink | other
deriving DecidableEq, Repr

/-- `ustar` says whether the header has the POSIX magic; the GNU headers the
    builder writes have not. -/
structure TarEntry where
  path : String
  kind : EntryKind
  ustar : Bool
  mode : Nat
  uid : Nat
  gid : Nat
  mtime : Nat
  data : List UInt8
deriving DecidableEq, Repr

/-- What a reader finds next: an entry, perhaps with its data cut short, or the
    point at which decoding breaks down. -/
inductive TarItem where
  | entry (e : TarEntry) (complete : Bool)
  | broken (message : String)
deriving DecidableEq, Repr

/-- Tar and gzip as functions on bytes. -/
structure Codec where
  pack : List TarEntry → List UInt8
  unpack : List UInt8 → List TarItem

/-- Entries of the given kinds come out of an archive as they went in. -/
def Codec.Lossless (codec : Codec) (kinds : List EntryKind) : Prop :=
  ∀ entries : List TarEntry, (∀ e ∈ entries, e.kind ∈ kinds) →
    codec.unpack (codec.pack entries) = entries.map (.entry · true)

/-! ### `Builder::append_dir_all` -/

def entryOf (path : Pos) (kind : EntryKind) (info : Meta) (data : List UInt8) : TarEntry :=
  ⟨PathBuf.joinNames path, kind, false, info.attrs.mode, info.attrs.uid, info.attrs.gid,
    info.attrs.mtime, data⟩

/-- A file with holes is written as a sparse entry. -/
def fileEntry (path : Pos) (contents : Contents) : TarEntry :=
  entryOf path (if contents.holes then .gnuSparse else .regular) contents.info contents.data

/-- An item of the stack: the names below the source, and what the listing said. -/
structure Pending where
  names : Pos
  isDir : Bool
  isSymlink : Bool
deriving DecidableEq, Repr

def pendingOf (names : Pos) (entry : String × FileType) : Pending :=
  ⟨names ++ [entry.1], entry.2 == .dir, entry.2 == .symlink⟩

/-- Whether an item is walked into: directories, and links to directories. -/
def walksInto (src : PathBuf) (item : Pending) : Fs IoError Bool :=
  if item.isDir then pure true
  else if item.isSymlink then isDir src
  else pure false

/-- The children of a directory, and its own entry. -/
def appendDir (src : PathBuf) (dest : Pos) : Fs IoError (List (String × FileType) × TarEntry) := do
  let children ← sys (.readDir src)
  let info ← sys (.stat src)
  pure (children, entryOf dest .directory info [])

/-- The entry of anything that is not a directory. -/
def appendOther (src : PathBuf) (dest : Pos) : Fs IoError TarEntry := do
  let info ← sys (.stat src)
  match info.fileType with
  | .file =>
    let contents ← sys (.read src)
    pure (fileEntry dest contents)
  | .fifo => pure (entryOf dest .fifo info [])
  | _ => Prog.throw (.custom (PathBuf.joinNames dest ++ " has unknown file type"))

/-- The loop of `append_dir_all`: the entry listed last is taken first, and a
    directory's entry is written before those of its children. -/
def appendLoop (source : PathBuf) (rootName : String) :
    Nat → List Pending → List TarEntry → Fs IoError (List TarEntry)
  | _, [], out => pure out
  | 0, _ :: _, _ => .spin
  | fuel + 1, item :: stack, out => do
    let src := source ++ item.names.map .normal
    let dest := rootName :: item.names
    if ← walksInto src item then
      let (children, entry) ← appendDir src dest
      appendLoop source rootName fuel ((children.map (pendingOf item.names)).reverse ++ stack)
        (out ++ [entry])
    else
      let entry ← appendOther src dest
      appendLoop source rootName fuel stack (out ++ [entry])

def appendDirAll (fuel : Nat) (rootName : String) (source : PathBuf) :
    Fs IoError (List TarEntry) :=
  appendLoop source rootName fuel [⟨[], true, false⟩] []

/-! ### `Entry::unpack_in` -/

/-- The ancestors of a path that do not exist, the path itself first. -/
def missingDirs : Nat → PathBuf → Fs IoError (List PathBuf)
  | 0, _ => pure []
  | n + 1, dir => do
    match ← (sys (.lstat dir)).attempt with
    | .ok _ => pure []
    | .error (_ : IoError) =>
      match dir.parent with
      | none => pure [dir]
      | some parent => do
        let more ← missingDirs n parent
        pure (dir :: more)

def realPath (path : PathBuf) : Fs IoError Pos :=
  (sys (.canonicalize path)).mapError fun e =>
    .custom (e.message ++ " while canonicalizing " ++ PathBuf.display path)

/-- The real path of a directory must lie in the real path of the destination. -/
def validateInsideDst (dst dir : PathBuf) : Fs IoError Unit := do
  let realDir ← realPath dir
  let realDst ← realPath dst
  if realDst.isPrefixOf realDir then pure ()
  else Prog.throw (.custom ("trying to unpack outside of destination path: " ++
    PathBuf.display (canonical realDst)))

def createMissing (dst : PathBuf) : List PathBuf → Fs IoError Unit
  | [] => pure ()
  | dir :: rest => do
    match dir.parent with
    | none => pure ()
    | some parent => validateInsideDst dst parent
    createDirAll dir
    createMissing dst rest

def ensureDirCreated (dst dir : PathBuf) : Fs IoError Unit := do
  let missing ← missingDirs dir.length dir
  createMissing dst missing.reverse

/-- A directory that exists is left alone. -/
def unpackDir (path : PathBuf) : Fs IoError Unit := do
  match ← (sys (.mkdir path)).attempt with
  | .ok () => pure ()
  | .error e =>
    let present ← (match e with
      | .os .exist => isDir path
      | _ => pure false)
    if present then pure ()
    else Prog.throw (.custom (e.message ++ " when creating dir " ++ PathBuf.display path))

/-- An exclusive `open`; with `set_overwrite(true)` an existing entry is removed
    and the `open` tried again. -/
def openForUnpack (path : PathBuf) : Fs IoError Pos := do
  match ← (sys (.createNew path)).attempt with
  | .ok handle => pure handle
  | .error (.os .exist) =>
    match ← (sys (.unlink path)).attempt with
    | .ok () => sys (.createNew path)
    | .error (.os .noent) => sys (.createNew path)
    | .error e => Prog.throw e
  | .error e => Prog.throw e

/-- Without the POSIX magic, a name that ends in a slash is a directory's. -/
def TarEntry.unpacksAsDir (e : TarEntry) : Bool :=
  e.kind == .directory || (!e.ustar && e.path.toList.getLast? == some '/')

/-- Permission bits are masked to `0o777`, and a modification time of 0 becomes 1. -/
def unpackEntry (e : TarEntry) (complete : Bool) (path : PathBuf) : Fs IoError Unit :=
  if e.unpacksAsDir then do
    unpackDir path
    sys (.chmod path (e.mode % 512))
  else do
    let handle ← openForUnpack path
    sys (.write handle e.data)
    if complete then do
      sys (.setMtime handle (if e.mtime = 0 then 1 else e.mtime))
      sys (.fchmod handle (e.mode % 512))
    else Prog.throw (.custom "failed to write entire file")

/-- The names an entry puts below the destination; `none` when it has a `..`. -/
def entryNames (path : PathBuf) : Option Pos :=
  if .parentDir ∈ path then none
  else some (path.filterMap fun
    | .normal name => some name
    | _ => none)

/-- `TarError`: an I/O error under a description of its own. -/
def tarError {α : Type} (message : String) (m : Fs IoError α) : Fs IoError α :=
  m.mapError fun _ => .custom message

def unpackIn (dst : PathBuf) (e : TarEntry) (complete : Bool) : Fs IoError Bool :=
  match entryNames (PathBuf.ofString e.path) with
  | none => pure false
  | some [] => pure true
  | some names => do
    let fileDst := dst ++ names.map .normal
    let parent := fileDst.dropLast
    tarError ("failed to create `" ++ PathBuf.display parent ++ "`") (ensureDirCreated dst parent)
    validateInsideDst dst parent
    tarError ("failed to unpack `" ++ PathBuf.display fileDst ++ "`")
      (unpackEntry e complete fileDst)
    pure true

end Scriptorium
