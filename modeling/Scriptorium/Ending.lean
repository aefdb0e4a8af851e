import Scriptorium.Service
import Scriptorium.Replacement

/-!
# Imports come to an end

Apart from the blocking `open` of a pipe nothing in an import waits: a program whose
calls are all answered has a result.
-/

namespace Scriptorium

open Posix Effects

variable {ε ε' α : Type}

/-- The program ends when none of its calls waits. -/
abbrev Prompt (m : Fs ε α) : Prop := m.Ends fun _ reply => reply ≠ .error .wouldblock

theorem prompt_sys (c : FsCall) : Prompt (sys c) := by
  intro reply hreply
  rcases reply with e | out
  · cases e
    case wouldblock => exact absurd rfl hreply
    all_goals trivial
  · trivial

theorem prompt_io {m : Fs IoError α} (h : Prompt m) : Prompt (io m) := Prog.ends_mapError h

theorem prompt_ioRpc {m : Fs IoError α} (h : Prompt m) : Prompt (ioRpc m) := Prog.ends_mapError h

theorem prompt_rpc {m : Fs Error α} (h : Prompt m) : Prompt (rpc m) := Prog.ends_mapError h

theorem prompt_ignore {m : Fs ε α} (h : Prompt m) : Prompt (ignore m : Fs ε' Unit) :=
  Prog.ends_bind (Prog.ends_attempt h) fun _ => Prog.ends_pure _

theorem prompt_isDir (path : PathBuf) : Prompt (isDir path : Fs ε Bool) := by
  apply Prog.ends_bind (Prog.ends_attempt (prompt_sys _))
  intro r
  split
  · exact Prog.ends_pure _
  · exact Prog.ends_pure _

theorem prompt_pathExists (path : PathBuf) : Prompt (pathExists path : Fs ε Bool) := by
  apply Prog.ends_bind (Prog.ends_attempt (prompt_sys _))
  intro r
  split
  · exact Prog.ends_pure _
  · exact Prog.ends_pure _

theorem prompt_createDirAll (path : PathBuf) : Prompt (createDirAll path) := by
  have hask : ∀ (path : PathBuf) (e : IoError),
      Prompt (do if ← isDir path then pure () else Prog.throw e : Fs IoError Unit) := by
    intro path e
    apply Prog.ends_bind (prompt_isDir path)
    intro present
    split
    · exact Prog.ends_pure _
    · exact Prog.ends_throw _
  have hwithin : ∀ n path, Prompt (createDirAllWithin n path) := by
    intro n
    induction n with
    | zero => exact fun _ => Prog.ends_pure _
    | succ n ih =>
      intro path
      apply Prog.ends_bind (Prog.ends_attempt (prompt_sys _))
      intro r
      split
      · exact Prog.ends_pure _
      · split
        · exact Prog.ends_throw _
        · rename_i parent _
          apply Prog.ends_bind (ih parent)
          intro _
          apply Prog.ends_bind (Prog.ends_attempt (prompt_sys _))
          intro r
          split
          · exact Prog.ends_pure _
          · exact hask path _
      · exact hask path _
  exact hwithin _ path

theorem prompt_ensureHome (root workspaceId : String) (uid gid : Nat) :
    Prompt (ensureHome root workspaceId uid gid) := by
  apply Prog.ends_bind (Prog.ends_ofExcept _)
  intro _
  apply Prog.ends_bind (prompt_io (prompt_createDirAll _))
  intro _
  apply Prog.ends_bind (Prog.ends_attempt (prompt_sys _))
  intro r
  split
  · exact Prog.ends_pure _
  · split
    · apply Prog.ends_bind (prompt_io (prompt_sys _))
      intro _
      exact Prog.ends_pure _
    · exact Prog.ends_throw _

/-! ### Unpacking -/

theorem prompt_missingDirs (n : Nat) (dir : PathBuf) : Prompt (missingDirs n dir) := by
  induction n generalizing dir with
  | zero => exact Prog.ends_pure _
  | succ n ih =>
    apply Prog.ends_bind (Prog.ends_attempt (prompt_sys _))
    intro r
    split
    · exact Prog.ends_pure _
    · split
      · exact Prog.ends_pure _
      · rename_i parent _
        apply Prog.ends_bind (ih parent)
        intro more
        exact Prog.ends_pure _

theorem prompt_validateInsideDst (dst dir : PathBuf) : Prompt (validateInsideDst dst dir) := by
  apply Prog.ends_bind (Prog.ends_mapError (prompt_sys _))
  intro realDir
  apply Prog.ends_bind (Prog.ends_mapError (prompt_sys _))
  intro realDst
  split
  · exact Prog.ends_pure _
  · exact Prog.ends_throw _

theorem prompt_ensureDirCreated (dst dir : PathBuf) : Prompt (ensureDirCreated dst dir) := by
  have hcreate : ∀ dirs, Prompt (createMissing dst dirs) := by
    intro dirs
    induction dirs with
    | nil => exact Prog.ends_pure _
    | cons dir rest ih =>
      have hrest : Prompt (do
          createDirAll dir
          createMissing dst rest : Fs IoError Unit) := by
        apply Prog.ends_bind (prompt_createDirAll dir)
        intro _
        exact ih
      rw [createMissing]
      split
      · exact hrest
      · apply Prog.ends_bind (prompt_validateInsideDst dst _)
        intro _
        exact hrest
  apply Prog.ends_bind (prompt_missingDirs _ _)
  intro missing
  exact hcreate _

theorem prompt_unpackEntry (e : TarEntry) (complete : Bool) (path : PathBuf) :
    Prompt (unpackEntry e complete path) := by
  rw [unpackEntry]
  split
  · apply Prog.ends_bind
    · apply Prog.ends_bind (Prog.ends_attempt (prompt_sys _))
      intro r
      split
      · exact Prog.ends_pure _
      · apply Prog.ends_bind
        · split
          · exact prompt_isDir path
          · exact Prog.ends_pure _
        · intro present
          split
          · exact Prog.ends_pure _
          · exact Prog.ends_throw _
    · intro _
      exact prompt_sys _
  · apply Prog.ends_bind
    · apply Prog.ends_bind (Prog.ends_attempt (prompt_sys _))
      intro r
      split
      · exact Prog.ends_pure _
      · apply Prog.ends_bind (Prog.ends_attempt (prompt_sys _))
        intro r
        split
        · exact prompt_sys _
        · exact prompt_sys _
        · exact Prog.ends_throw _
      · exact Prog.ends_throw _
    · intro handle
      apply Prog.ends_bind (prompt_sys _)
      intro _
      split
      · apply Prog.ends_bind (prompt_sys _)
        intro _
        exact prompt_sys _
      · exact Prog.ends_throw _

theorem prompt_unpackIn (dst : PathBuf) (e : TarEntry) (complete : Bool) :
    Prompt (unpackIn dst e complete) := by
  rw [unpackIn]
  split
  · exact Prog.ends_pure _
  · exact Prog.ends_pure _
  · apply Prog.ends_bind (Prog.ends_mapError (prompt_ensureDirCreated _ _))
    intro _
    apply Prog.ends_bind (prompt_validateInsideDst _ _)
    intro _
    apply Prog.ends_bind (Prog.ends_mapError (prompt_unpackEntry _ _ _))
    intro _
    exact Prog.ends_pure _

theorem prompt_extractItems (extractionRoot : PathBuf) (items : List TarItem) :
    Prompt (extractItems extractionRoot items) := by
  induction items with
  | nil => exact Prog.ends_pure _
  | cons item items ih =>
    apply Prog.ends_bind
    · cases item with
      | broken message => exact Prog.ends_throw _
      | entry e complete =>
        rw [extractItem]
        split
        · exact Prog.ends_throw _
        · split
          · apply Prog.ends_bind (prompt_io (prompt_unpackIn _ _ _))
            intro _
            exact Prog.ends_pure _
          · exact Prog.ends_throw _
    · intro _
      exact ih

theorem prompt_extractArchive (codec : Codec) (staging extractionRoot : PathBuf) :
    Prompt (extractArchive codec staging extractionRoot) := by
  have hextract : Prompt (do
      io (createDirAll extractionRoot)
      let archive ← io (sys (.read staging))
      extractItems extractionRoot (codec.unpack archive.data) : Fs Error Unit) := by
    apply Prog.ends_bind (prompt_io (prompt_createDirAll _))
    intro _
    apply Prog.ends_bind (prompt_io (prompt_sys _))
    intro archive
    exact prompt_extractItems _ _
  apply Prog.ends_bind (prompt_pathExists _)
  intro present
  split
  · apply Prog.ends_bind (prompt_io (prompt_sys _))
    intro _
    exact hextract
  · exact hextract

theorem prompt_removePathIfExists (target : PathBuf) : Prompt (removePathIfExists target) := by
  apply Prog.ends_bind (Prog.ends_attempt (prompt_sys _))
  intro r
  split
  · exact prompt_io (prompt_sys _)
  · exact prompt_io (prompt_sys _)
  · exact Prog.ends_pure _
  · exact Prog.ends_throw _

theorem prompt_installExtracted (staging extractionRoot target : PathBuf) :
    Prompt (installExtracted staging extractionRoot target) := by
  have hfinish : Prompt (finishExtraction staging extractionRoot) := by
    apply Prog.ends_bind (prompt_ignore (prompt_sys _))
    intro _
    exact prompt_ignore (prompt_sys _)
  have hmove : ∀ names, Prompt (moveEntries extractionRoot target names) := by
    intro names
    induction names with
    | nil => exact Prog.ends_pure _
    | cons name names ih =>
      apply Prog.ends_bind (prompt_io (prompt_sys _))
      intro _
      exact ih
  have heach : Prompt (installEach staging extractionRoot target) := by
    apply Prog.ends_bind (prompt_io (prompt_createDirAll _))
    intro _
    apply Prog.ends_bind (prompt_io (prompt_sys _))
    intro entries
    apply Prog.ends_bind (hmove _)
    intro _
    exact hfinish
  apply Prog.ends_bind (prompt_io (prompt_sys _))
  intro entries
  split
  · apply Prog.ends_bind (prompt_isDir _)
    intro sole
    split
    · apply Prog.ends_bind (prompt_io (prompt_sys _))
      intro _
      exact hfinish
    · exact heach
  · exact heach

end Scriptorium
