import Scriptorium.Transfer
import Scriptorium.ObjectKeys
import Scriptorium.SharedFiles

/-!
# The temporary paths of concurrent transfers

An import stages its payload, and extracts its archive, beside its target; an export
and an upload pack their archive in the temp directory of the system.  All of them
make up the name from one reading of the clock, and all of them open what stands
there.  `TempFiles` is the world in which any number of them do so at the same time,
in any order, under a clock that never goes back.  Two transfers that read the same
time can meet (`transfers_meet`); as long as none does so for the same purpose in the
same place, each deals with its own bytes only (`transfers_apart`).
-/

namespace Scriptorium

open Posix Transitions

/-! ### Names from readings of the clock -/

/-- `tar_gz_into_temp`: the name of an archive. -/
def archiveName (desiredName : String) (nanos : Nat) : String :=
  "scriptorium-" ++ nonceText nanos ++ "-" ++ desiredName

/-- What a path is made up for. -/
inductive Purpose where
  | staging (target : PathBuf)
  | extraction (target : PathBuf)
  | archive (desiredName : String)
deriving DecidableEq

/-- The directory of a temporary path. -/
def Purpose.dir (tempDir : PathBuf) : Purpose → PathBuf
  | .staging target | .extraction target => parentOrDot target
  | .archive _ => tempDir

def Purpose.name (nanos : Nat) : Purpose → String
  | .staging _ => transferName "import" nanos
  | .extraction _ => transferName "expand" nanos
  | .archive desiredName => archiveName desiredName nanos

def Purpose.path (tempDir : PathBuf) (nanos : Nat) (p : Purpose) : PathBuf :=
  p.dir tempDir ++ [.normal (p.name nanos)]

example (tempDir target : PathBuf) (nanos : Nat) : (Purpose.staging target).path tempDir nanos =
    buildWorkspaceTransferTempPath target "import" nanos := rfl

/-- Two purposes for which one name would be made up at one time. -/
def Purpose.Alike : Purpose → Purpose → Prop
  | .staging _, .staging _ => True
  | .extraction _, .extraction _ => True
  | .archive name, .archive other => name = other
  | _, _ => False

theorem nonceText_inj {a b : Nat} : nonceText a = nonceText b ↔ a % 2 ^ 64 = b % 2 ^ 64 := by
  constructor
  · intro h
    have hdigits : Nat.toDigits 16 (a % 2 ^ 64) = Nat.toDigits 16 (b % 2 ^ 64) :=
      String.ofList_injective h
    have hvalue := congrArg (valueOf 16) hdigits
    rwa [valueOf_toDigits (by decide) (by decide), valueOf_toDigits (by decide) (by decide)]
      at hvalue
  · intro h
    rw [nonceText, nonceText, h]

theorem transferName_inj {suffix : String} {a b : Nat} :
    transferName suffix a = transferName suffix b ↔ a % 2 ^ 64 = b % 2 ^ 64 := by
  rw [← nonceText_inj]
  simp [transferName, String.ext_iff]

theorem dash_ne_digitChar : ∀ n < 16, Nat.digitChar n ≠ '-' := by decide

theorem dash_not_mem_toDigits (n : Nat) : '-' ∉ Nat.toDigits 16 n := by
  induction n using Nat.strongRecOn with
  | ind n ih =>
    rw [Nat.toDigits_eq_if (by decide)]
    split
    · rename_i hlt
      rw [List.mem_singleton]
      exact (dash_ne_digitChar n hlt).symm
    · rename_i hge
      rw [List.mem_append, List.mem_singleton, not_or]
      exact ⟨ih (n / 16) (by omega), (dash_ne_digitChar (n % 16) (by omega)).symm⟩

theorem dash_not_mem_nonceText (n : Nat) : '-' ∉ (nonceText n).toList := by
  rw [nonceText, String.toList_ofList]
  exact dash_not_mem_toDigits _

theorem archiveName_inj {a b : Nat} {name other : String} :
    archiveName name a = archiveName other b ↔ name = other ∧ a % 2 ^ 64 = b % 2 ^ 64 := by
  rw [← nonceText_inj]
  constructor
  · intro h
    have htext := congrArg String.toList h
    simp only [archiveName, String.toList_append, List.append_assoc] at htext
    -- the nonce ends at the first dash after the fixed part
    obtain ⟨hnonce, hname⟩ := cut_at_first (dash_not_mem_nonceText a) (dash_not_mem_nonceText b)
      (List.append_cancel_left htext)
    exact ⟨String.toList_injective hname, String.toList_injective hnonce⟩
  · rintro ⟨rfl, h⟩
    rw [archiveName, archiveName, h]

theorem name_eq_iff {p q : Purpose} {a b : Nat} :
    p.name a = q.name b ↔ p.Alike q ∧ a % 2 ^ 64 = b % 2 ^ 64 := by
  cases p <;> cases q
  case staging.staging | extraction.extraction =>
    simp [Purpose.name, Purpose.Alike, transferName_inj]
  case archive.archive => simp [Purpose.name, Purpose.Alike, archiveName_inj]
  all_goals simp [Purpose.name, Purpose.Alike, transferName, archiveName, String.ext_iff]

/-! ### Transfers side by side -/

section World

/-- A path that a transfer has made up: its purpose, and the reading of the clock. -/
structure Claim where
  purpose : Purpose
  reading : Nat
deriving DecidableEq

structure TempFiles (δ α : Type) where
  clock : Nat
  files : SharedFiles.State Claim (δ × String) α

inductive TempEvent (δ α : Type) where
  | tick (elapsed : Nat)
  | files (event : SharedFiles.Event Claim (δ × String) α)

variable {δ α : Type} (tempDir : PathBuf) (place : PathBuf → δ)

def Claim.path (c : Claim) : PathBuf := c.purpose.path tempDir c.reading

/-- The directory that the path leads into, and the name in it. -/
def Claim.location (c : Claim) : δ × String :=
  (place (c.purpose.dir tempDir), c.purpose.name c.reading)

/-- An archive is unpacked into a directory; the other paths are for files. -/
def Claim.isDir (c : Claim) : Bool :=
  match c.purpose with
  | .extraction _ => true
  | _ => false

/-- A name is made up from the clock. -/
def Timely (clock : Nat) : SharedFiles.Event Claim (δ × String) α → Bool
  | .start _ claim => claim.reading = clock
  | _ => true

def TempFiles.step [DecidableEq δ] [Inhabited α] (w : TempFiles δ α) :
    TempEvent δ α → Option (TempFiles δ α)
  | .tick elapsed => some { w with clock := w.clock + elapsed }
  | .files event =>
    if Timely w.clock event then
      (SharedFiles.step (Claim.location tempDir place) Claim.isDir w.files event).map
        fun files => { w with files := files }
    else none

/-- One path would be made up for both. -/
def Claim.Meets (c d : Claim) : Prop :=
  place (c.purpose.dir tempDir) = place (d.purpose.dir tempDir) ∧ c.purpose.Alike d.purpose ∧
    c.reading % 2 ^ 64 = d.reading % 2 ^ 64

/-- A step that makes up no path from a reading at which a transfer in progress made
    one up for the same purpose in the same place, and that moves nothing onto a
    temporary path in use. -/
def Careful (w : TempFiles δ α) : TempEvent δ α → Prop
  | .files (.start _ claim) =>
    ∀ j u, w.files.writers j = some u → ¬ u.claim.Meets tempDir place claim
  | .files (.install _ target) =>
    SharedFiles.Unheld (Claim.location tempDir place) w.files target
  | _ => True

/-- All temporary paths are distinct, and so are the places they lead to; what a
    transfer reads back or installs is its own. -/
structure TransfersApart (w : TempFiles δ α) : Prop where
  paths : ∀ i j u v, w.files.writers i = some u → w.files.writers j = some v → i ≠ j →
    u.claim.path tempDir ≠ v.claim.path tempDir
  places : ∀ i j u v, w.files.writers i = some u → w.files.writers j = some v → i ≠ j →
    u.claim.location tempDir place ≠ v.claim.location tempDir place
  objects : ∀ i u, w.files.writers i = some u → u.object <+: u.written

variable {tempDir} {place}

theorem location_eq_iff {c d : Claim} :
    c.location tempDir place = d.location tempDir place ↔ c.Meets tempDir place d := by
  rw [Claim.location, Claim.location, Prod.mk.injEq, name_eq_iff, Claim.Meets]

theorem location_of_path {c d : Claim} (h : c.path tempDir = d.path tempDir) :
    c.location tempDir place = d.location tempDir place := by
  obtain ⟨hdir, hname⟩ := List.append_inj' h rfl
  rw [Claim.location, Claim.location, hdir, Component.normal.inj (List.cons.inj hname).1]

theorem polite_of_careful {w : TempFiles δ α} {e : SharedFiles.Event Claim (δ × String) α}
    (h : Careful tempDir place w (.files e)) :
    SharedFiles.Polite (Claim.location tempDir place) w.files e := by
  cases e with
  | start i claim => exact fun j u hu heq => h j u hu (location_eq_iff.mp heq)
  | install i target => exact h
  | _ => trivial

theorem tempFiles_sound [DecidableEq δ] [Inhabited α] {w w' : TempFiles δ α} {e : TempEvent δ α}
    (hs : SharedFiles.Sound (Claim.location tempDir place) w.files)
    (hcareful : Careful tempDir place w e) (h : w.step tempDir place e = some w') :
    SharedFiles.Sound (Claim.location tempDir place) w'.files := by
  cases e with
  | tick elapsed =>
    obtain rfl := Option.some.inj h
    exact hs
  | files event =>
    rw [TempFiles.step] at h
    split at h
    · obtain ⟨files, hfiles, rfl⟩ := Option.map_eq_some_iff.mp h
      exact SharedFiles.step_sound hs (polite_of_careful hcareful) hfiles
    · cases h

/-- Whatever transfers run side by side, and however their steps interleave: if every
    step is careful, no two of them share a path, and each gets its own bytes. -/
theorem transfers_apart [DecidableEq δ] [Inhabited α] {w w' : TempFiles δ α}
    (hquiet : w.files.Quiet)
    (h : Reaches (TempFiles.step tempDir place) (Careful tempDir place) w w') :
    TransfersApart tempDir place w' := by
  have hsound : SharedFiles.Sound (Claim.location tempDir place) w'.files :=
    h.invariant (I := fun t => SharedFiles.Sound (Claim.location tempDir place) t.files)
      hquiet.sound fun _ _ _ hs hcareful hstep => tempFiles_sound hs hcareful hstep
  have hapart := hsound.apart
  constructor
  · exact fun i j u v hu hv hne heq => hapart.names i j u v hu hv hne (location_of_path heq)
  · exact hapart.names
  · exact hapart.objects

end World

/-! ### Two transfers, at two readings and at one -/

/-- Nothing is going on, and no file has a name. -/
def noTransfers : TempFiles PathBuf Nat := ⟨0, ⟨fun _ => none, fun _ => [], 0, fun _ => none⟩⟩

theorem noTransfers_quiet : noTransfers.files.Quiet := by
  refine ⟨⟨fun path k h => ?_, fun path path' k h => ?_⟩, fun _ => rfl⟩
  · cases h
  · cases h

def osTempDir : PathBuf := [.rootDir, .normal "tmp"]

/-- Two imports beside one target, of which the second comes a nanosecond later. -/
def twoImports (target : PathBuf) : List (TempEvent PathBuf Nat) :=
  [.files (.start 0 ⟨.staging target, 0⟩), .tick 1, .files (.start 1 ⟨.staging target, 1⟩)]

theorem transfers_apart_twoImports : ∃ w,
    run (TempFiles.step osTempDir id) noTransfers (twoImports [.normal "a"]) = some w ∧
    TransfersApart osTempDir id w := by
  refine ⟨_, rfl, transfers_apart noTransfers_quiet (reaches_of_fine (twoImports _) rfl ?_)⟩
  refine ⟨fun j u hu => (by cases hu), trivial, fun j u hu hmeets => ?_, trivial⟩
  have hreading : u.claim.reading = 0 := by
    by_cases hj : j = 0
    · subst hj
      cases hu
      rfl
    · have hnone : (none : Option (SharedFiles.Writer Claim Nat)) = some u :=
        (Function.update_of_ne hj _ _).symm.trans hu
      cases hnone
  obtain ⟨-, -, hequal⟩ := hmeets
  rw [hreading] at hequal
  exact absurd hequal (by decide)

/-- Two exports of trees of one name, from two workspaces, at one reading. -/
def twoExports : List (TempEvent PathBuf Nat) :=
  [.start 0 ⟨.archive "data.tar.gz", 0⟩, .create 0, .put 0 [1, 1],
    .start 1 ⟨.archive "data.tar.gz", 0⟩, .create 1, .put 1 [2, 2],
    .reopen 0, .take 0 2].map .files

/-- The first export streams the bytes of the second. -/
theorem transfers_meet : ∃ w,
    Reaches (TempFiles.step osTempDir id) Free noTransfers w ∧ ¬ TransfersApart osTempDir id w := by
  have hrun : ((run (TempFiles.step osTempDir id) noTransfers twoExports).bind fun w =>
      (w.files.writers 0).map fun u => (u.written, u.object)) = some ([1, 1], [2, 2]) := by
    decide
  obtain ⟨w, hw, hwriter⟩ := Option.bind_eq_some_iff.mp hrun
  obtain ⟨u, hu, hdata⟩ := Option.map_eq_some_iff.mp hwriter
  obtain ⟨hwritten, hobject⟩ := Prod.mk.inj hdata
  refine ⟨w, reaches_of_run _ noTransfers twoExports hw, fun hapart => ?_⟩
  have hprefix := hapart.objects 0 u hu
  rw [hwritten, hobject] at hprefix
  exact absurd hprefix (by decide)

end Scriptorium
