import Scriptorium.HostFs
import Mathlib.Algebra.Order.Group.Nat

/-!
# The object store client

`oss.rs`: object keys, content types and the two ways to upload a file.  What the
store answers to each request is given by a `Store`; an upload records the bodies
that were sent.
-/

namespace Scriptorium

open Posix Effects

/-! ### Keys and content types -/

def isKeyChar (c : Char) : Bool := c.isAlphanum || c == '-' || c == '_' || c == '.'

def sanitizeSegment (s : String) : String :=
  if s.isEmpty then "_"
  else String.ofList (s.toList.map fun c => if isKeyChar c then c else '_')

def padLeft (width : Nat) (digits : List Char) : List Char :=
  List.replicate (width - digits.length) '0' ++ digits

def decimal (width : Nat) (n : Int) : String :=
  if n < 0 then String.ofList ('-' :: padLeft (width - 1) (Nat.toDigits 10 n.natAbs))
  else String.ofList (padLeft width (Nat.toDigits 10 n.natAbs))

/-- Civil date from a day count; divisions truncate towards zero as in `i64`. -/
def ymdFromUnix (secs : Nat) : String :=
  let days : Int := secs / 86400
  let z := days + 719468
  let era := (if z ≥ 0 then z else z - 146096).tdiv 146097
  let doe := z - era * 146097
  let yoe := (doe - doe.tdiv 1460 + doe.tdiv 36524 - doe.tdiv 146096).tdiv 365
  let y := yoe + era * 400
  let doy := doe - (365 * yoe + yoe.tdiv 4 - yoe.tdiv 100)
  let mp := (5 * doy + 2).tdiv 153
  let d := doy - (153 * mp + 2).tdiv 5 + 1
  let m := if mp < 10 then mp + 3 else mp - 9
  let y := if m ≤ 2 then y + 1 else y
  decimal 4 y ++ "-" ++ decimal 2 m ++ "-" ++ decimal 2 d

/-- `build_key` at a clock reading in nanoseconds. -/
def buildKey (keyPrefix tenantId workspaceId basename : String) (nanos : Nat) : String :=
  let nonce := String.ofList (padLeft 8 (Nat.toDigits 16 (nanos % 2 ^ 64 % 2 ^ 32)))
  keyPrefix ++ sanitizeSegment tenantId ++ "/" ++ sanitizeSegment workspaceId ++ "/" ++
    ymdFromUnix (nanos / 10 ^ 9) ++ "/" ++ nonce ++ "-" ++ sanitizeSegment basename

/-- The part of a file name behind its last dot, which is not its first character. -/
def extension (name : String) : Option String :=
  let parts := name.toList.splitOn '.'
  match parts.reverse with
  | last :: first :: rest =>
    if first = [] ∧ rest = [] then none else some (String.ofList last)
  | _ => none

def guessContentType (path : PathBuf) : String :=
  match path.fileName.bind extension with
  | some "json" => "application/json"
  | some "txt" => "text/plain; charset=utf-8"
  | some "html" | some "htm" => "text/html; charset=utf-8"
  | some "css" => "text/css; charset=utf-8"
  | some "js" | some "mjs" => "application/javascript"
  | some "csv" => "text/csv; charset=utf-8"
  | some "md" => "text/markdown; charset=utf-8"
  | some "xml" => "application/xml"
  | some "yaml" | some "yml" => "application/yaml"
  | some "png" => "image/png"
  | some "jpg" | some "jpeg" => "image/jpeg"
  | some "gif" => "image/gif"
  | some "webp" => "image/webp"
  | some "svg" => "image/svg+xml"
  | some "pdf" => "application/pdf"
  | some "zip" => "application/zip"
  | some "gz" | some "tgz" => "application/gzip"
  | some "tar" => "application/x-tar"
  | some "mp3" => "audio/mpeg"
  | some "wav" => "audio/wav"
  | some "mp4" => "video/mp4"
  | some "webm" => "video/webm"
  | some "xlsx" => "application/vnd.openxmlformats-officedocument.spreadsheetml.sheet"
  | some "docx" => "application/vnd.openxmlformats-officedocument.wordprocessingml.document"
  | some "pptx" => "application/vnd.openxmlformats-officedocument.presentationml.presentation"
  | _ => "application/octet-stream"

/-! ### Uploads -/

/-- What the store answers: `none` for success, or the text of the failure.
    `timeoutAt` is the number of requests after which `upload_timeout` fires. -/
structure Store where
  put : Option String
  create : Except String String
  part : Nat → Option String
  complete : Option String
  timeoutAt : Option Nat

structure OssClient where
  keyPrefix : String
  partSize : Nat
  multipartThreshold : Nat
  uploadTimeoutSeconds : Nat
  store : Store

structure UploadOutcome where
  key : String
  sizeBytes : Nat
  contentType : String
  sha256Hex : String
deriving DecidableEq, Repr

/-- An upload: the bodies the store was sent, in order, and the result. -/
structure Upload where
  sent : List (List UInt8)
  result : Except Error UploadOutcome

/-- The loop behind `chunksOf`, over a bound on the number of pieces. -/
def chunksWithin (size : Nat) : Nat → List UInt8 → List (List UInt8)
  | 0, _ => []
  | _ + 1, [] => []
  | n + 1, data => data.take size :: chunksWithin size n (data.drop size)

/-- The pieces of a byte string, all but the last of the given size. -/
def chunksOf (size : Nat) (data : List UInt8) : List (List UInt8) :=
  if size = 0 then [] else chunksWithin size data.length data

section Upload

variable (client : OssClient) (sha256 : List UInt8 → String)

def OssClient.timedOut (requests : Nat) : Bool :=
  client.store.timeoutAt.any (· ≤ requests)

def OssClient.timeoutError : Error :=
  .other ("upload timed out after " ++ toString client.uploadTimeoutSeconds ++ "s")

/-- Upload the parts in order until one fails. -/
def sendParts : Nat → List (List UInt8) → List (List UInt8) × Option Error
  | _, [] => ([], none)
  | number, body :: rest =>
    if client.timedOut number then ([], some client.timeoutError)
    else
      match client.store.part number with
      | some e => ([body], some (.other ("upload_part(" ++ toString number ++ "): " ++ e)))
      | none =>
        let (sent, failure) := sendParts (number + 1) rest
        (body :: sent, failure)

/-- `upload_file_single`, once the file has been read. -/
def putObject (key contentType : String) (sizeBytes : Nat) (data : List UInt8) : Upload :=
  if client.timedOut 0 then ⟨[], .error client.timeoutError⟩
  else
    match client.store.put with
    | some e => ⟨[data], .error (.other ("put_object: " ++ e))⟩
    | none => ⟨[data], .ok ⟨key, sizeBytes, contentType, sha256 data⟩⟩

/-- `upload_file_multipart`, once the upload is created and the file open. -/
def putParts (key contentType : String) (sizeBytes : Nat) (data : List UInt8) : Upload :=
  match sendParts client 1 (chunksOf client.partSize data) with
  | (sent, some e) => ⟨sent, .error e⟩
  | (sent, none) =>
    if client.timedOut (sent.length + 1) then ⟨sent, .error client.timeoutError⟩
    else
      match client.store.complete with
      | some e => ⟨sent, .error (.other ("complete_multipart_upload: " ++ e))⟩
      | none => ⟨sent, .ok ⟨key, sizeBytes, contentType, sha256 data⟩⟩

/-- `upload_file`.  The file is read once it is known that it is needed; an error
    of the file system ends the upload with nothing sent. -/
def uploadFile (key : String) (path : PathBuf) (contentType : String) : Fs Error Upload := do
  let info ← io (sys (.stat path))
  if info.size > client.multipartThreshold then
    if client.timedOut 0 then pure ⟨[], .error client.timeoutError⟩
    else
      match client.store.create with
      | .error e => pure ⟨[], .error (.other ("create_multipart_upload: " ++ e))⟩
      | .ok _ =>
        let contents ← io (sys (.read path))
        pure (putParts client sha256 key contentType info.size contents.data)
  else
    let contents ← io (sys (.read path))
    pure (putObject client sha256 key contentType info.size contents.data)

/-- The same upload of an archive in the temp directory. -/
def uploadArchive (key contentType : String) (data : List UInt8) : Upload :=
  if data.length > client.multipartThreshold then
    if client.timedOut 0 then ⟨[], .error client.timeoutError⟩
    else
      match client.store.create with
      | .error e => ⟨[], .error (.other ("create_multipart_upload: " ++ e))⟩
      | .ok _ => putParts client sha256 key contentType data.length data
  else putObject client sha256 key contentType data.length data

end Upload

end Scriptorium
