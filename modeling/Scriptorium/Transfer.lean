import Scriptorium.TarArchive
import Mathlib.Algebra.Order.Group.Nat

/-!
# Workspace transfers

`service/archive.rs`: staging names, replacing a file or a directory, and the two
directions of a tar.gz archive.  The archive that is packed for an upload or an
export lies in the OS temp directory, outside the tree; it appears here as its
bytes.
-/

namespace Scriptorium

open Posix Effects

/-- The clock in nanoseconds, cut to 64 bits and printed in hexadecimal. -/
def nonceText (nanos : Nat) : String := String.ofList (Nat.toDigits 16 (nanos % 2 ^ 64))

def transferName (suffix : String) (nanos : Nat) : String :=
  ".scriptorium-" ++ suffix ++ "-" ++ nonceText nanos ++ ".tmp"

/-- The parent of a path, or the current directory. -/
def parentOrDot (path : PathBuf) : PathBuf := path.parent.getD [.curDir]

/-- `build_workspace_transfer_temp_path`: a sibling of `target` for an in-flight
    transfer. -/
def buildWorkspaceTransferTempPath (target : PathBuf) (suffix : String) (nanos : Nat) : PathBuf :=
  parentOrDot target ++ [.normal (transferName suffix nanos)]

/-! ### Replacing what stands at a path -/

/-- `remove_path_if_exists` and its blocking twin. -/
def removePathIfExists (target : PathBuf) : Fs Error Unit := do
  match ← (sys (.fileType target)).attempt with
  | .ok .dir => io (sys (.removeDirAll target))
  | .ok _ => io (sys (.unlink target))
  | .error (.os .noent) => pure ()
  | .error e => Prog.throw (.io e)

def replaceWorkspaceFileFromStaging (staging target : PathBuf) : Fs Error Unit := do
  match target.parent with
  | none => pure ()
  | some parent => io (createDirAll parent)
  removePathIfExists target
  io (sys (.rename staging target))

/-! ### Extracting an archive -/

/-- The checks on one entry, and its extraction. -/
def extractItem (extractionRoot : PathBuf) : TarItem → Fs Error Unit
  | .broken message => Prog.throw (.io (.custom message))
  | .entry e complete => do
    if isAbsolute e.path || (PathBuf.ofString e.path).contains .parentDir then
      Prog.throw (.other ("archive entry escapes target directory: " ++ e.path))
    else if e.kind = .regular ∨ e.kind = .directory then
      let _ ← io (unpackIn extractionRoot e complete)
      pure ()
    else Prog.throw (.other ("unsupported archive entry type: " ++ e.path))

def extractItems (extractionRoot : PathBuf) : List TarItem → Fs Error Unit
  | [] => pure ()
  | item :: items => do
    extractItem extractionRoot item
    extractItems extractionRoot items

/-- Move the extracted entries into the target one by one. -/
def moveEntries (extractionRoot target : PathBuf) : List String → Fs Error Unit
  | [] => pure ()
  | name :: names => do
    io (sys (.rename (extractionRoot ++ [.normal name]) (target ++ [.normal name])))
    moveEntries extractionRoot target names

def finishExtraction (staging extractionRoot : PathBuf) : Fs Error Unit := do
  ignore (sys (.removeDirAll extractionRoot))
  ignore (sys (.unlink staging))

/-- The extracted entries become those of a directory at the target. -/
def installEach (staging extractionRoot target : PathBuf) : Fs Error Unit := do
  io (createDirAll target)
  let entries ← io (sys (.readDir extractionRoot))
  moveEntries extractionRoot target (entries.map Prod.fst)
  finishExtraction staging extractionRoot

/-- Put what was extracted at the target; a sole directory takes the place itself. -/
def installExtracted (staging extractionRoot target : PathBuf) : Fs Error Unit := do
  match ← io (sys (.readDir extractionRoot)) with
  | [entry] =>
    let source := extractionRoot ++ [.normal entry.1]
    if ← isDir source then
      io (sys (.rename source target))
      finishExtraction staging extractionRoot
    else installEach staging extractionRoot target
  | _ => installEach staging extractionRoot target

def extractArchiveAndReplace (codec : Codec) (staging extractionRoot target : PathBuf) :
    Fs Error Unit := do
  if ← pathExists extractionRoot then io (sys (.removeDirAll extractionRoot)) else pure ()
  io (createDirAll extractionRoot)
  let archive ← io (sys (.read staging))
  extractItems extractionRoot (codec.unpack archive.data)
  removePathIfExists target
  installExtracted staging extractionRoot target

def replaceWorkspaceDirectoryFromArchivePath (codec : Codec) (nanos : Nat)
    (staging target : PathBuf) : Fs Error Unit := do
  io (createDirAll (parentOrDot target))
  extractArchiveAndReplace codec staging (buildWorkspaceTransferTempPath target "expand" nanos)
    target

/-! ### Packing an archive -/

/-- `tar_gz_into_temp`: the bytes of the archive it writes. -/
def tarGzIntoTemp (codec : Codec) (fuel : Nat) (source : PathBuf) :
    Fs Error (List UInt8) := do
  if ← isDir source then
    let entries ← io (appendDirAll fuel (source.fileName.getD "workspace") source)
    pure (codec.pack entries)
  else
    let contents ← io (sys (.read source))
    pure (codec.pack [fileEntry [source.fileName.getD "file"] contents])

end Scriptorium
