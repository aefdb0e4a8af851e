import Scriptorium.PathWalk

/-!
# Errors and gRPC statuses

The service's error type, the texts `thiserror` gives it, and its conversion to
a gRPC status.
-/

namespace Scriptorium

open Posix

/-- `io::Error` as the kernel's error number prints. -/
def errnoMessage : Errno → String
  | .perm => "Operation not permitted (os error 1)"
  | .noent => "No such file or directory (os error 2)"
  | .wouldblock => "Resource temporarily unavailable (os error 11)"
  | .acces => "Permission denied (os error 13)"
  | .busy => "Device or resource busy (os error 16)"
  | .exist => "File exists (os error 17)"
  | .notdir => "Not a directory (os error 20)"
  | .isdir => "Is a directory (os error 21)"
  | .inval => "Invalid argument (os error 22)"
  | .notempty => "Directory not empty (os error 39)"
  | .loop => "Too many levels of symbolic links (os error 40)"

/-- `io::Error`: an error number, or an error made by a library. -/
inductive IoError where
  | os (e : Errno)
  | custom (message : String)
deriving DecidableEq, Repr

def IoError.message : IoError → String
  | .os e => errnoMessage e
  | .custom message => message

inductive Error where
  | invalidWorkspaceId
  | pathEscape (relative : String)
  | workspaceNotFound (id : String)
  | docker (message : String)
  | io (e : IoError)
  | execTimeout (seconds : Nat)
  | other (message : String)
deriving DecidableEq, Repr

def Error.message : Error → String
  | .invalidWorkspaceId => "workspace_id is empty or invalid"
  | .pathEscape relative => "path escapes workspace root: " ++ relative
  | .workspaceNotFound id => "workspace not found: " ++ id
  | .docker message => "docker: " ++ message
  | .io e => "io: " ++ e.message
  | .execTimeout seconds => "exec timed out after " ++ toString seconds ++ "s"
  | .other message => message

inductive Code where
  | invalidArgument | notFound | alreadyExists | permissionDenied | deadlineExceeded
  | resourceExhausted | internal | unknown
deriving DecidableEq, Repr

structure Status where
  code : Code
  message : String
deriving DecidableEq, Repr

/-- `impl From<Error> for tonic::Status`. -/
def Error.toStatus (err : Error) : Status where
  code := match err with
    | .invalidWorkspaceId | .pathEscape _ => .invalidArgument
    | .workspaceNotFound _ => .notFound
    | .execTimeout _ => .deadlineExceeded
    | .docker _ | .io _ | .other _ => .internal
  message := err.message

/-- The conversion `tonic` gives a bare `io::Error`. -/
def IoError.toStatus (err : IoError) : Status where
  code := match err with
    | .os .noent => .notFound
    | .os .exist => .alreadyExists
    | .os .perm | .os .acces => .permissionDenied
    | .os .inval => .invalidArgument
    | .os .wouldblock => .internal
    | _ => .unknown
  message := err.message

theorem errnoMessage_injective : Function.Injective errnoMessage := by
  intro a b h
  cases a <;> cases b <;> first | rfl | simp [errnoMessage] at h

@[simp] theorem message_io (e : IoError) : (Error.io e).message = "io: " ++ e.message := rfl

@[simp] theorem message_toStatus (err : Error) : err.toStatus.message = err.message := rfl

/-- Two failures of the kernel are told apart by the status they end in. -/
theorem toStatus_io_injective {a b : Errno}
    (h : (Error.io (.os a)).toStatus = (Error.io (.os b)).toStatus) : a = b := by
  have hmessage := congrArg Status.message h
  rw [message_toStatus, message_toStatus, message_io, message_io] at hmessage
  have hchars := congrArg String.toList hmessage
  rw [String.toList_append, String.toList_append] at hchars
  have hio := List.append_cancel_left hchars
  exact errnoMessage_injective (String.toList_inj.mp hio)

end Scriptorium
