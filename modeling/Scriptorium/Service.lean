import Scriptorium.Workspace
import Scriptorium.Transfer
import Scriptorium.ListFiles
import Scriptorium.Oss
import Scriptorium.Fetch

/-!
# The file RPCs

The handlers of `service.rs` that work on a workspace's files.  A request carries
with it what the handler reads of the outside world besides the file tree: the
clock readings it makes, the network behind a fetch, the messages of its stream.
-/

namespace Scriptorium

open Posix Effects

/-! ### Configuration -/

structure ServiceConfig where
  root : String
  agentUid : Nat
  agentGid : Nat
  fetch : FetchConfig
  oss : OssClient
  codec : Codec
  sha256 : List UInt8 → String

variable (cfg : ServiceConfig)

/-! ### `FetchIntoWorkspace` -/

structure FetchRequest where
  workspaceId : String
  url : String
  targetPath : String
  headers : List (String × String)

structure FetchResponse where
  bytesWritten : Nat
  contentType : String
  httpStatus : Nat
deriving DecidableEq, Repr

def doFetch (net : Network) (req : FetchRequest) : Fs Status FetchResponse := rpc do
  let _ ← ensureHome cfg.root req.workspaceId cfg.agentUid cfg.agentGid
  let target ← Prog.ofExcept (resolvePath cfg.root req.workspaceId req.targetPath)
  let outcome ← fetchToFile cfg.fetch (sendRequest cfg.fetch net req.url req.headers).2 target
  -- the container's user needs `o+r`
  io (sys (.chmod target 0o644))
  pure ⟨outcome.bytesWritten, outcome.contentType, outcome.httpStatus⟩

/-! ### Encodings -/

inductive WorkspaceObjectEncoding where
  | unspecified | raw | tarGz
deriving DecidableEq, Repr

/-- `try_from(n).unwrap_or_default()`. -/
def WorkspaceObjectEncoding.ofInt : Int → WorkspaceObjectEncoding
  | 1 => .raw
  | 2 => .tarGz
  | _ => .unspecified

def WorkspaceObjectEncoding.toInt : WorkspaceObjectEncoding → Int
  | .unspecified => 0
  | .raw => 1
  | .tarGz => 2

/-! ### `ImportWorkspaceObject` -/

structure ImportHeader where
  workspaceId : String
  targetPath : String
  encoding : Int
  contentType : String
deriving DecidableEq, Repr

inductive ImportMessage where
  | header (h : ImportHeader)
  | chunk (data : List UInt8)
  | empty
deriving DecidableEq, Repr

/-- A message, or the transport error that takes its place. -/
abbrev ImportStream := List (Except Status ImportMessage)

structure ImportResponse where
  bytesWritten : Nat
  contentType : String
deriving DecidableEq, Repr

/-- The clock readings of an import: for the staging file and for the directory
    an archive is extracted to. -/
structure ImportClock where
  staging : Nat
  expand : Nat
deriving DecidableEq, Repr

def invalidArgument (message : String) : Status := ⟨.invalidArgument, message⟩

/-- Append the chunks of the stream to the staging file; the total saturates. -/
def receiveChunks (handle : Pos) : ImportStream → Nat → Fs Status Nat
  | [], total => pure total
  | .error status :: _, _ => Prog.throw status
  | .ok (.chunk data) :: rest, total => do
    ioRpc (sys (.write handle data))
    receiveChunks handle rest (min (total + data.length) (2 ^ 64 - 1))
  | .ok (.header _) :: _, _ =>
    Prog.throw (invalidArgument "import_workspace_object header may only appear once")
  | .ok .empty :: _, _ =>
    Prog.throw (invalidArgument "import_workspace_object received an empty message")

def isBlank (text : String) : Bool := text.toList.all Char.isWhitespace

/-- Put the received object at its target, as the encoding says. -/
def installObject (clock : ImportClock) (header : ImportHeader) (staging target : PathBuf)
    (bytesWritten : Nat) : Fs Status ImportResponse :=
  match WorkspaceObjectEncoding.ofInt header.encoding with
  | .raw => do
    rpc (replaceWorkspaceFileFromStaging staging target)
    pure ⟨bytesWritten,
      if isBlank header.contentType then "application/octet-stream" else header.contentType⟩
  | .tarGz => do
    rpc (replaceWorkspaceDirectoryFromArchivePath cfg.codec clock.expand staging target)
    pure ⟨bytesWritten, "application/gzip"⟩
  | .unspecified => do
    ignore (sys (.unlink staging))
    Prog.throw (invalidArgument "import_workspace_object encoding is required")

/-- An import once its header has arrived. -/
def importObject (clock : ImportClock) (header : ImportHeader) (rest : ImportStream) :
    Fs Status ImportResponse := do
  let _ ← rpc (ensureHome cfg.root header.workspaceId cfg.agentUid cfg.agentGid)
  let target ← rpc (Prog.ofExcept (resolvePath cfg.root header.workspaceId header.targetPath))
  ioRpc (createDirAll (parentOrDot target))
  let staging := buildWorkspaceTransferTempPath target "import" clock.staging
  let handle ← ioRpc (sys (.create staging))
  let bytesWritten ← receiveChunks handle rest 0
  let response ← installObject cfg clock header staging target bytesWritten
  ignore (sys (.unlink staging))
  pure response

def doImportWorkspaceObject (clock : ImportClock) : ImportStream → Fs Status ImportResponse
  | [] => Prog.throw (invalidArgument "import_workspace_object requires a header")
  | .error status :: _ => Prog.throw status
  | .ok (.header header) :: rest => importObject cfg clock header rest
  | .ok (.chunk _) :: _ =>
    Prog.throw (invalidArgument "import_workspace_object header must be the first message")
  | .ok .empty :: _ =>
    Prog.throw (invalidArgument "import_workspace_object first message is empty")

/-! ### `ExportWorkspaceObject` -/

structure ExportRequest where
  workspaceId : String
  sourcePath : String
  encoding : Int
deriving DecidableEq, Repr

structure ExportHeader where
  sourcePath : String
  basename : String
  encoding : Int
  contentType : String
  sizeBytes : Nat
  sha256Hex : String
deriving DecidableEq, Repr

inductive ExportMessage where
  | header (h : ExportHeader)
  | chunk (data : List UInt8)
deriving DecidableEq, Repr

/-- The payload of an export or upload: a file of the workspace, or the bytes of
    an archive made for the purpose. -/
inductive Payload where
  | file (path : PathBuf)
  | archive (data : List UInt8)
deriving DecidableEq, Repr

def payloadSize : Payload → Fs IoError Nat
  | .file path => do
    let info ← sys (.stat path)
    pure info.size
  | .archive data => pure data.length

def readPayload : Payload → Fs IoError (List UInt8)
  | .file path => do
    let contents ← sys (.read path)
    pure contents.data
  | .archive data => pure data

/-- The `stat` both directions begin with: whether the source is a directory. -/
def statSource (source : PathBuf) (sourcePath : String) : Fs Status FileType := do
  match ← (sys (.fileType source)).attempt with
  | .ok fileType => pure fileType
  | .error (.os .noent) => Prog.throw ⟨.notFound, "no such path: " ++ sourcePath⟩
  | .error e => Prog.throw (Error.io e).toStatus

structure PreparedExport where
  header : ExportHeader
  payload : Payload
deriving DecidableEq, Repr

/-- What an export sends: the payload, its base name and its content type. -/
def exportPayload (fuel : Nat) (encoding : WorkspaceObjectEncoding) (source : PathBuf)
    (fileType : FileType) : Fs Status (Payload × String × String) :=
  match encoding with
  | .raw =>
    if fileType = .dir then
      Prog.throw (invalidArgument "export_workspace_object raw encoding expects a file")
    else pure (.file source, source.fileName.getD "artifact", guessContentType source)
  | .tarGz =>
    if fileType ≠ .dir then
      Prog.throw (invalidArgument "export_workspace_object tar_gz encoding expects a directory")
    else do
      let data ← rpc (tarGzIntoTemp cfg.codec fuel source)
      pure (.archive data, source.fileName.getD "workspace" ++ ".tar.gz", "application/gzip")
  | .unspecified =>
    Prog.throw (invalidArgument "export_workspace_object encoding is required")

def doExportWorkspaceObject (fuel : Nat) (req : ExportRequest) : Fs Status PreparedExport :=
  if req.workspaceId.isEmpty then Prog.throw (invalidArgument "workspace_id is required")
  else do
    let source ← rpc (Prog.ofExcept (resolvePath cfg.root req.workspaceId req.sourcePath))
    let fileType ← statSource source req.sourcePath
    let encoding := WorkspaceObjectEncoding.ofInt req.encoding
    let (payload, basename, contentType) ← exportPayload cfg fuel encoding source fileType
    let sizeBytes ← ioRpc (payloadSize payload)
    let data ← rpc (io (readPayload payload))
    pure ⟨⟨req.sourcePath, basename, encoding.toInt, contentType, sizeBytes, cfg.sha256 data⟩,
      payload⟩

def transferChunkSize : Nat := 64 * 1024

/-- The whole export: the messages of the response stream. -/
def exportWorkspaceObject (fuel : Nat) (req : ExportRequest) : Fs Status (List ExportMessage) := do
  let prepared ← doExportWorkspaceObject cfg fuel req
  let data ← ioRpc (readPayload prepared.payload)
  pure (.header prepared.header :: (chunksOf transferChunkSize data).map .chunk)

/-! ### `UploadToOSS` -/

structure UploadRequest where
  workspaceId : String
  tenantId : String
  sourcePath : String
  compress : Bool
deriving DecidableEq, Repr

structure UploadResponse where
  objectKey : String
  sizeBytes : Nat
  contentType : String
  sha256Hex : String
  basename : String
deriving DecidableEq, Repr

/-- An upload as it is seen from outside: the bodies sent to the store, and the
    response. -/
structure UploadResult where
  sent : List (List UInt8)
  response : Except Status UploadResponse

def uploadPayload (payload : Payload) (key contentType : String) : Fs Error Upload :=
  match payload with
  | .file path => uploadFile cfg.oss cfg.sha256 key path contentType
  | .archive data => pure (uploadArchive cfg.oss cfg.sha256 key contentType data)

def uploadResult (basename : String) (upload : Upload) : UploadResult where
  sent := upload.sent
  response := match upload.result with
    | .error e => .error e.toStatus
    | .ok outcome => .ok ⟨outcome.key, outcome.sizeBytes, outcome.contentType,
        outcome.sha256Hex, basename⟩

/-- What an upload sends: directories always as an archive, files if asked to. -/
def uploadSource (fuel : Nat) (compress : Bool) (source : PathBuf) (fileType : FileType) :
    Fs Error (Payload × String × String) :=
  if fileType = .dir ∨ compress = true then do
    let data ← tarGzIntoTemp cfg.codec fuel source
    pure (.archive data, source.fileName.getD "workspace" ++ ".tar.gz", "application/gzip")
  else pure (.file source, source.fileName.getD "artifact", guessContentType source)

def doUpload (fuel nanos : Nat) (req : UploadRequest) : Fs Status UploadResult :=
  if req.workspaceId.isEmpty then Prog.throw (invalidArgument "workspace_id is required")
  else do
    let source ← rpc (Prog.ofExcept (resolvePath cfg.root req.workspaceId req.sourcePath))
    let fileType ← statSource source req.sourcePath
    let (payload, basename, contentType) ← rpc (uploadSource cfg fuel req.compress source fileType)
    let key := buildKey cfg.oss.keyPrefix req.tenantId req.workspaceId basename nanos
    let upload ← rpc (uploadPayload cfg payload key contentType)
    pure (uploadResult basename upload)

/-! ### `ListFiles` and `DeleteWorkspace` -/

structure ListFilesRequest where
  workspaceId : String
  path : String
  recursive : Bool
deriving DecidableEq, Repr

def listFiles (fuel : Nat) (req : ListFilesRequest) : Fs Status (List FileInfo) := do
  let base ← rpc (Prog.ofExcept (resolvePath cfg.root req.workspaceId req.path))
  match ← (sys (.fileType base)).attempt with
  | .error (.os .noent) => pure []
  | .error e => Prog.throw (Error.io e).toStatus
  | .ok _ => do
    let root ← rpc (Prog.ofExcept (resolvePath cfg.root req.workspaceId ""))
    rpc (io (collectFiles root req.recursive fuel [base] []))

def doDeleteWorkspace (workspaceId : String) : Fs Status Bool :=
  rpc (deleteWorkspace cfg.root workspaceId)

end Scriptorium
