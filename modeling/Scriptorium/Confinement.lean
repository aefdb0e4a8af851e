import Scriptorium.Service
import Scriptorium.Region
import Scriptorium.Replacement

/-!
# What the file RPCs reach

Every function of the service that works on files, given canonical paths into a region,
makes only calls the region admits, whatever is answered.  Two trees that are alike on
the region are therefore the same to it, and what lies outside stays as it is.
-/

namespace Scriptorium

open Posix Effects

variable {R : Region} {ε ε' α β : Type} {W : α → Prop} {V : β → Prop}

/-- The calls of a program stay in the region, and its result is as `W` says. -/
abbrev Stays (R : Region) (W : α → Prop) (m : Fs ε α) : Prop := m.Within R.Admits R.Returns W

/-- A canonical path into the region. -/
def Inside (R : Region) (path : PathBuf) : Prop := ∃ p, R.own p = true ∧ path = canonical p

/-- A canonical path into the region, or on the way to it. -/
def Near (R : Region) (path : PathBuf) : Prop := ∃ p, R.Seen p ∧ path = canonical p

theorem Inside.near {path : PathBuf} (h : Inside R path) : Near R path := by
  obtain ⟨p, hp, rfl⟩ := h
  exact ⟨p, Region.seen_of_own hp, rfl⟩

theorem Inside.child {path : PathBuf} (h : Inside R path) (name : String) :
    Inside R (path ++ [.normal name]) := by
  obtain ⟨p, hp, rfl⟩ := h
  exact ⟨p ++ [name], R.below p _ hp (List.prefix_append _ _), (canonical_concat p name).symm⟩

theorem Inside.below {path : PathBuf} (h : Inside R path) (names : Pos) :
    Inside R (path ++ names.map .normal) := by
  obtain ⟨p, hp, rfl⟩ := h
  exact ⟨p ++ names, R.below p _ hp (List.prefix_append _ _), (canonical_append p names).symm⟩

theorem Near.parent {path parent : PathBuf} (h : Near R path)
    (hparent : path.parent = some parent) :
    Near R parent := by
  obtain ⟨p, hp, rfl⟩ := h
  cases p using List.reverseRecOn with
  | nil => cases hparent
  | append_singleton dir name =>
    rw [PathBuf.parent_canonical_concat] at hparent
    obtain rfl := Option.some.inj hparent
    exact ⟨dir, hp.above (List.prefix_append _ _), rfl⟩

/-! ### Calls -/

variable {P : FsCall → Prop} {A : (c : FsCall) → c.Reply → Prop}

theorem stays_sys {c : FsCall} {W : c.Out → Prop} (hc : R.Admits c)
    (hW : ∀ out, R.Returns c (.ok out) → W out) : Stays R W (sys c) := by
  constructor
  · exact hc
  · intro reply hreply
    rcases reply with e | out
    · cases e <;> first | exact Prog.within_throw _ | trivial
    · exact Prog.within_pure (hW out hreply)

/-- A call of whose answer nothing has to be known. -/
theorem within_sys {c : FsCall} (hc : P c) : (sys c).Within P A fun _ => True := by
  constructor
  · exact hc
  · intro reply _
    rcases reply with e | out
    · cases e <;> first | exact Prog.within_throw _ | trivial
    · exact Prog.within_pure trivial

theorem stays_call {c : FsCall} (hc : R.Admits c) : Stays R (fun _ => True) (sys c) :=
  within_sys hc

theorem stays_io {m : Fs IoError α} (h : Stays R W m) : Stays R W (io m) := Prog.within_mapError h

theorem stays_rpc {m : Fs Error α} (h : Stays R W m) : Stays R W (rpc m) := Prog.within_mapError h

theorem stays_ioRpc {m : Fs IoError α} (h : Stays R W m) : Stays R W (ioRpc m) :=
  Prog.within_mapError h

theorem stays_ignore {m : Fs ε α} (h : Stays R W m) :
    Stays R (fun _ => True) (ignore m : Fs ε' Unit) :=
  Prog.within_bind (Prog.within_attempt h) fun _ _ => Prog.within_pure trivial

theorem within_isDir {path : PathBuf} (h : P (.fileType path)) :
    (isDir path : Fs ε Bool).Within P A fun _ => True := by
  apply Prog.within_bind (Prog.within_attempt (within_sys h))
  intro r _
  split
  · exact Prog.within_pure trivial
  · exact Prog.within_pure trivial

theorem stays_pathExists {path : PathBuf} (h : Near R path) :
    Stays R (fun _ => True) (pathExists path : Fs ε Bool) := by
  apply Prog.within_bind (Prog.within_attempt (stays_call (c := .fileType path) h))
  intro r _
  split
  · exact Prog.within_pure trivial
  · exact Prog.within_pure trivial

/-- Making a directory, and what is missing above it, asks about the paths above it only. -/
theorem within_createDirAllWithin {N : PathBuf → Prop}
    (hparent : ∀ path parent, N path → path.parent = some parent → N parent)
    (hcalls : ∀ path, N path → P (.mkdir path) ∧ P (.fileType path)) (n : Nat) {path : PathBuf}
    (h : N path) : (createDirAllWithin n path).Within P A fun _ => True := by
  have hask : ∀ path, N path → ∀ e : IoError, Prog.Within P A (fun _ => True)
      (do if ← isDir path then pure () else Prog.throw e : Fs IoError Unit) := by
    intro path h e
    apply Prog.within_bind (within_isDir (hcalls path h).2)
    intro present _
    split
    · exact Prog.within_pure trivial
    · exact Prog.within_throw e
  induction n generalizing path with
  | zero => exact Prog.within_pure trivial
  | succ n ih =>
    apply Prog.within_bind (Prog.within_attempt (within_sys (hcalls path h).1))
    intro r _
    split
    · exact Prog.within_pure trivial
    · split
      · exact Prog.within_throw _
      · rename_i parent hsome
        apply Prog.within_bind (ih (hparent path parent h hsome))
        intro _ _
        apply Prog.within_bind (Prog.within_attempt (within_sys (hcalls path h).1))
        intro r _
        split
        · exact Prog.within_pure trivial
        · exact hask path h _
    · exact hask path h _

theorem within_createDirAll {N : PathBuf → Prop}
    (hparent : ∀ path parent, N path → path.parent = some parent → N parent)
    (hcalls : ∀ path, N path → P (.mkdir path) ∧ P (.fileType path)) {path : PathBuf} (h : N path) :
    (createDirAll path).Within P A fun _ => True :=
  within_createDirAllWithin hparent hcalls _ h

/-- The directories of a canonical path are made at canonical paths. -/
theorem within_createDirAll_canonical {way p : Pos} (hp : p <+: way)
    (hcalls : ∀ q, q <+: way → P (.mkdir (canonical q)) ∧ P (.fileType (canonical q))) :
    (createDirAll (canonical p)).Within P A fun _ => True := by
  refine within_createDirAll (N := fun path => ∃ q, q <+: way ∧ path = canonical q) ?_ ?_
    ⟨p, hp, rfl⟩
  · rintro path parent ⟨q, hq, rfl⟩ hparent
    rcases List.eq_nil_or_concat' q with rfl | ⟨above, last, rfl⟩
    · cases hparent
    · rw [PathBuf.parent_canonical_concat] at hparent
      exact ⟨above, (List.prefix_append _ _).trans hq, (Option.some.inj hparent).symm⟩
  · rintro path ⟨q, hq, rfl⟩
    exact hcalls q hq

theorem stays_createDirAllWithin (n : Nat) {path : PathBuf} (h : Near R path) :
    Stays R (fun _ => True) (createDirAllWithin n path) :=
  within_createDirAllWithin (fun _ _ => Near.parent) (fun _ h => ⟨h, h⟩) n h

theorem stays_createDirAll {path : PathBuf} (h : Near R path) :
    Stays R (fun _ => True) (createDirAll path) :=
  within_createDirAll (fun _ _ => Near.parent) (fun _ h => ⟨h, h⟩) h

/-! ### Homes -/

theorem within_ensureHome {root workspaceId : String} {uid gid : Nat}
    (hhome : ValidId workspaceId →
      (createDirAll (homePath root workspaceId)).Within P A fun _ => True)
    (hchown : ValidId workspaceId → P (.chown (homePath root workspaceId) uid gid))
    (hchmod : ValidId workspaceId → P (.chmod (homePath root workspaceId) 0o777)) :
    (ensureHome root workspaceId uid gid).Within P A fun _ => True := by
  apply Prog.within_bind (Prog.within_ofExcept (W := fun _ => ValidId workspaceId) ?_)
  · intro _ hid
    apply Prog.within_bind (Prog.within_mapError (hhome hid))
    intro _ _
    apply Prog.within_bind (Prog.within_attempt (within_sys (hchown hid)))
    intro r _
    split
    · exact Prog.within_pure trivial
    · split
      · apply Prog.within_bind (Prog.within_mapError (within_sys (hchmod hid)))
        intro _ _
        exact Prog.within_pure trivial
      · exact Prog.within_throw _
  · intro _ hok
    exact validateWorkspaceId_eq_ok.mp hok

theorem stays_ensureHome {root workspaceId : String} {uid gid : Nat}
    (h : ValidId workspaceId → Inside R (homePath root workspaceId)) :
    Stays R (fun _ => True) (ensureHome root workspaceId uid gid) :=
  within_ensureHome (fun hid => stays_createDirAll (h hid).near) h h

theorem stays_deleteWorkspace {root workspaceId : String}
    (h : ValidId workspaceId → Inside R ((PathBuf.ofString root).join workspaceId)) :
    Stays R (fun _ => True) (deleteWorkspace root workspaceId) := by
  apply Prog.within_bind (Prog.within_ofExcept (W := fun _ => ValidId workspaceId) ?_)
  · intro _ hid
    apply Prog.within_bind (Prog.within_attempt (stays_call (c := .removeDirAll _) (h hid)))
    intro r _
    split
    · exact Prog.within_pure trivial
    · exact Prog.within_pure trivial
    · exact Prog.within_throw _
  · intro _ hok
    exact validateWorkspaceId_eq_ok.mp hok

/-! ### Unpacking -/

/-- The paths that unpacking asks about, those below its directory that it changes, and the
    files that it opens there. -/
structure Zone (P : FsCall → Prop) (A : (c : FsCall) → c.Reply → Prop) where
  near : PathBuf → Prop
  inside : PathBuf → Prop
  handle : Pos → Prop
  parent : ∀ path parent, near path → path.parent = some parent → near parent
  of_inside : ∀ path, inside path → near path
  asks : ∀ path, near path →
    P (.mkdir path) ∧ P (.fileType path) ∧ P (.lstat path) ∧ P (.canonicalize path)
  changes : ∀ path, inside path →
    P (.createNew path) ∧ P (.unlink path) ∧ ∀ mode, P (.chmod path mode)
  opens : ∀ path opened, inside path → A (.createNew path) (.ok opened) → handle opened
  writes : ∀ opened, handle opened → (∀ data, P (.write opened data)) ∧
    (∀ mtime, P (.setMtime opened mtime)) ∧ ∀ mode, P (.fchmod opened mode)

section Zone

variable (Z : Zone P A)

theorem Zone.admits_missingDirs (n : Nat) {dir : PathBuf} (h : Z.near dir) :
    (missingDirs n dir).Within P A fun dirs => ∀ d ∈ dirs, Z.near d := by
  induction n generalizing dir with
  | zero => exact Prog.within_pure (by simp)
  | succ n ih =>
    apply Prog.within_bind (Prog.within_attempt (within_sys (Z.asks dir h).2.2.1))
    intro r _
    split
    · exact Prog.within_pure (by simp)
    · split
      · exact Prog.within_pure (by simpa using h)
      · rename_i parent hparent
        apply Prog.within_bind (ih (Z.parent dir parent h hparent))
        intro more hmore
        apply Prog.within_pure
        rw [List.forall_mem_cons]
        exact ⟨h, hmore⟩

theorem Zone.admits_validateInsideDst {dst dir : PathBuf} (hdst : Z.near dst) (hdir : Z.near dir) :
    (validateInsideDst dst dir).Within P A fun _ => True := by
  apply Prog.within_bind (Prog.within_mapError (within_sys (Z.asks dir hdir).2.2.2))
  intro realDir _
  apply Prog.within_bind (Prog.within_mapError (within_sys (Z.asks dst hdst).2.2.2))
  intro realDst _
  split
  · exact Prog.within_pure trivial
  · exact Prog.within_throw _

theorem Zone.admits_createDirAll {path : PathBuf} (h : Z.near path) :
    (createDirAll path).Within P A fun _ => True :=
  within_createDirAll Z.parent (fun path h => ⟨(Z.asks path h).1, (Z.asks path h).2.1⟩) h

theorem Zone.admits_createMissing {dst : PathBuf} (hdst : Z.near dst) {dirs : List PathBuf}
    (hdirs : ∀ d ∈ dirs, Z.near d) : (createMissing dst dirs).Within P A fun _ => True := by
  induction dirs with
  | nil => exact Prog.within_pure trivial
  | cons dir rest ih =>
    rw [List.forall_mem_cons] at hdirs
    have hrest : (do
        createDirAll dir
        createMissing dst rest : Fs IoError Unit).Within P A fun _ => True := by
      apply Prog.within_bind (Z.admits_createDirAll hdirs.1)
      intro _ _
      exact ih hdirs.2
    rw [createMissing]
    split
    · exact hrest
    · rename_i parent hparent
      apply Prog.within_bind (Z.admits_validateInsideDst hdst (Z.parent dir parent hdirs.1 hparent))
      intro _ _
      exact hrest

theorem Zone.admits_ensureDirCreated {dst dir : PathBuf} (hdst : Z.near dst) (hdir : Z.near dir) :
    (ensureDirCreated dst dir).Within P A fun _ => True := by
  apply Prog.within_bind (Z.admits_missingDirs _ hdir)
  intro missing hmissing
  exact Z.admits_createMissing hdst fun d hd => hmissing d (List.mem_reverse.mp hd)

theorem Zone.admits_openForUnpack {path : PathBuf} (h : Z.inside path) :
    (openForUnpack path).Within P A Z.handle := by
  have hcreate : (sys (.createNew path)).Within P A Z.handle := by
    constructor
    · exact (Z.changes path h).1
    · intro reply hreply
      rcases reply with e | opened
      · cases e <;> first | exact Prog.within_throw _ | trivial
      · exact Prog.within_pure (Z.opens path opened h hreply)
  apply Prog.within_bind (Prog.within_attempt hcreate)
  intro r hr
  split
  · exact Prog.within_pure (hr _ rfl)
  · apply Prog.within_bind (Prog.within_attempt (within_sys (Z.changes path h).2.1))
    intro r _
    split
    · exact hcreate
    · exact hcreate
    · exact Prog.within_throw _
  · exact Prog.within_throw _

theorem Zone.admits_unpackDir {path : PathBuf} (h : Z.near path) :
    (unpackDir path).Within P A fun _ => True := by
  apply Prog.within_bind (Prog.within_attempt (within_sys (Z.asks path h).1))
  intro r _
  split
  · exact Prog.within_pure trivial
  · apply Prog.within_bind (W := fun _ => True)
    · split
      · exact within_isDir (Z.asks path h).2.1
      · exact Prog.within_pure trivial
    · intro present _
      split
      · exact Prog.within_pure trivial
      · exact Prog.within_throw _

theorem Zone.admits_unpackEntry {path : PathBuf} (h : Z.inside path) (e : TarEntry)
    (complete : Bool) :
    (unpackEntry e complete path).Within P A fun _ => True := by
  rw [unpackEntry]
  split
  · apply Prog.within_bind (Z.admits_unpackDir (Z.of_inside path h))
    intro _ _
    exact within_sys ((Z.changes path h).2.2 _)
  · apply Prog.within_bind (Z.admits_openForUnpack h)
    intro opened hopened
    obtain ⟨hwrite, hmtime, hmode⟩ := Z.writes opened hopened
    apply Prog.within_bind (within_sys (hwrite e.data))
    intro _ _
    split
    · apply Prog.within_bind (within_sys (hmtime _))
      intro _ _
      exact within_sys (hmode _)
    · exact Prog.within_throw _

/-- Unpacking changes what is below its directory; the directory itself need not lie there. -/
theorem Zone.admits_unpackIn {dst : PathBuf} (hdst : Z.near dst)
    (hbelow : ∀ names : Pos, names ≠ [] → Z.inside (dst ++ names.map .normal)) (e : TarEntry)
    (complete : Bool) : (unpackIn dst e complete).Within P A fun _ => True := by
  rw [unpackIn]
  split
  · exact Prog.within_pure trivial
  · exact Prog.within_pure trivial
  · rename_i names hne _
    obtain ⟨front, last, rfl⟩ : ∃ front last, names = front ++ [last] := by
      cases names using List.reverseRecOn with
      | nil => exact absurd rfl hne
      | append_singleton front last => exact ⟨front, last, rfl⟩
    have hnear : Z.near (dst ++ (front ++ [last]).map Component.normal).dropLast := by
      rw [List.map_append, List.map_singleton, ← List.append_assoc, List.dropLast_concat]
      rcases front with _ | ⟨first, front⟩
      · rwa [List.map_nil, List.append_nil]
      · exact Z.of_inside _ (hbelow _ (by simp))
    simp only [tarError]
    apply Prog.within_bind (Prog.within_mapError (Z.admits_ensureDirCreated hdst hnear))
    intro _ _
    apply Prog.within_bind (Z.admits_validateInsideDst hdst hnear)
    intro _ _
    apply Prog.within_bind
      (Prog.within_mapError (Z.admits_unpackEntry (hbelow _ (by simp)) e complete))
    intro _ _
    exact Prog.within_pure trivial

theorem Zone.admits_extractItems {extractionRoot : PathBuf} (hroot : Z.near extractionRoot)
    (hbelow : ∀ names : Pos, names ≠ [] → Z.inside (extractionRoot ++ names.map .normal))
    (items : List TarItem) : (extractItems extractionRoot items).Within P A fun _ => True := by
  induction items with
  | nil => exact Prog.within_pure trivial
  | cons item items ih =>
    apply Prog.within_bind (W := fun _ => True)
    · cases item with
      | broken message => exact Prog.within_throw _
      | entry e complete =>
        rw [extractItem]
        split
        · exact Prog.within_throw _
        · split
          · apply Prog.within_bind
              (Prog.within_mapError (Z.admits_unpackIn hroot hbelow e complete))
            intro _ _
            exact Prog.within_pure trivial
          · exact Prog.within_throw _
    · intro _ _
      exact ih

end Zone

/-- A region as a zone of canonical paths. -/
def regionZone (R : Region) : Zone R.Admits R.Returns where
  near := Near R
  inside := Inside R
  handle opened := R.own opened = true
  parent _ _ h hparent := h.parent hparent
  of_inside _ h := h.near
  asks _ h := ⟨h, h, h, h⟩
  changes _ h := ⟨h, h, fun _ => h⟩
  opens _ opened _ hreply := hreply opened rfl
  writes _ h := ⟨fun _ => h, fun _ => h, fun _ => h⟩

theorem stays_ensureDirCreated {dst dir : PathBuf} (hdst : Near R dst) (hdir : Near R dir) :
    Stays R (fun _ => True) (ensureDirCreated dst dir) :=
  (regionZone R).admits_ensureDirCreated hdst hdir

theorem stays_extractItems_below {extractionRoot : PathBuf} (hroot : Near R extractionRoot)
    (hbelow : ∀ names : Pos, names ≠ [] → Inside R (extractionRoot ++ names.map .normal))
    (items : List TarItem) : Stays R (fun _ => True) (extractItems extractionRoot items) :=
  (regionZone R).admits_extractItems hroot hbelow items

theorem stays_extractItems {extractionRoot : PathBuf} (h : Inside R extractionRoot)
    (items : List TarItem) : Stays R (fun _ => True) (extractItems extractionRoot items) :=
  stays_extractItems_below h.near (fun names _ => h.below names) items

/-! ### Installing -/

section Install

variable {staging extractionRoot target : PathBuf}

theorem within_removePathIfExists (hask : P (.fileType target)) (htree : P (.removeDirAll target))
    (hfile : P (.unlink target)) : (removePathIfExists target).Within P A fun _ => True := by
  apply Prog.within_bind (Prog.within_attempt (within_sys hask))
  intro r _
  split
  · exact Prog.within_mapError (within_sys htree)
  · exact Prog.within_mapError (within_sys hfile)
  · exact Prog.within_pure trivial
  · exact Prog.within_throw _

theorem within_moveEntries
    (hmove : ∀ name, P (.rename (extractionRoot ++ [.normal name]) (target ++ [.normal name])))
    (names : List String) : (moveEntries extractionRoot target names).Within P A fun _ => True := by
  induction names with
  | nil => exact Prog.within_pure trivial
  | cons name names ih =>
    apply Prog.within_bind (Prog.within_mapError (within_sys (hmove name)))
    intro _ _
    exact ih

/-- What was extracted is listed, moved to the target, and its directory and the staging file
    are removed. -/
theorem within_installExtracted (hlist : P (.readDir extractionRoot))
    (hask : ∀ name, P (.fileType (extractionRoot ++ [.normal name])))
    (hsole : ∀ name, P (.rename (extractionRoot ++ [.normal name]) target))
    (hmake : (createDirAll target).Within P A fun _ => True)
    (hmove : ∀ name, P (.rename (extractionRoot ++ [.normal name]) (target ++ [.normal name])))
    (htree : P (.removeDirAll extractionRoot)) (hfile : P (.unlink staging)) :
    (installExtracted staging extractionRoot target).Within P A fun _ => True := by
  have hfinish : (finishExtraction staging extractionRoot).Within P A fun _ => True := by
    apply Prog.within_bind (W := fun _ => True)
    · exact Prog.within_bind (Prog.within_attempt (within_sys htree)) fun _ _ =>
        Prog.within_pure trivial
    · intro _ _
      exact Prog.within_bind (Prog.within_attempt (within_sys hfile)) fun _ _ =>
        Prog.within_pure trivial
  have heach : (installEach staging extractionRoot target).Within P A fun _ => True := by
    apply Prog.within_bind (Prog.within_mapError hmake)
    intro _ _
    apply Prog.within_bind (Prog.within_mapError (within_sys hlist))
    intro entries _
    apply Prog.within_bind (within_moveEntries hmove _)
    intro _ _
    exact hfinish
  apply Prog.within_bind (Prog.within_mapError (within_sys hlist))
  intro entries _
  split
  · rename_i entry
    apply Prog.within_bind (within_isDir (hask entry.1))
    intro sole _
    split
    · apply Prog.within_bind (Prog.within_mapError (within_sys (hsole entry.1)))
      intro _ _
      exact hfinish
    · exact heach
  · exact heach

/-- The extraction root is asked for, removed and made. -/
theorem within_bareRoot (hask : P (.fileType extractionRoot))
    (htree : P (.removeDirAll extractionRoot))
    (hmake : (createDirAll extractionRoot).Within P A fun _ => True) :
    (bareRoot extractionRoot).Within P A fun _ => True := by
  apply Prog.within_bind (W := fun _ => True)
  · apply Prog.within_bind (Prog.within_attempt (within_sys hask))
    intro r _
    split
    · exact Prog.within_pure trivial
    · exact Prog.within_pure trivial
  · intro present _
    split
    · apply Prog.within_bind (Prog.within_mapError (within_sys htree))
      intro _ _
      exact Prog.within_mapError hmake
    · exact Prog.within_mapError hmake

theorem stays_bareRoot (h : Inside R extractionRoot) : Stays R (fun _ => True)
    (bareRoot extractionRoot) :=
  within_bareRoot h.near h (stays_createDirAll h.near)

theorem stays_removePathIfExists (h : Inside R target) :
    Stays R (fun _ => True) (removePathIfExists target) :=
  within_removePathIfExists h.near h h

theorem stays_replaceWorkspaceFileFromStaging (hstaging : Inside R staging)
    (htarget : Inside R target) :
    Stays R (fun _ => True) (replaceWorkspaceFileFromStaging staging target) := by
  have hrest : Stays R (fun _ => True) (do
      removePathIfExists target
      io (sys (.rename staging target)) : Fs Error Unit) := by
    apply Prog.within_bind (stays_removePathIfExists htarget)
    intro _ _
    exact stays_io (stays_call ⟨hstaging, htarget⟩)
  rw [replaceWorkspaceFileFromStaging]
  split
  · exact hrest
  · rename_i parent hparent
    apply Prog.within_bind (stays_io (stays_createDirAll (htarget.near.parent hparent)))
    intro _ _
    exact hrest

variable (hstaging : Inside R staging) (hroot : Inside R extractionRoot) (htarget : Inside R target)

include hstaging hroot htarget in
theorem stays_installExtracted :
    Stays R (fun _ => True) (installExtracted staging extractionRoot target) :=
  within_installExtracted hroot (fun name => (hroot.child name).near)
    (fun name => ⟨hroot.child name, htarget⟩)
    (stays_createDirAll htarget.near) (fun name => ⟨hroot.child name, htarget.child name⟩) hroot
      hstaging

include hstaging hroot

theorem stays_extractArchive (codec : Codec) :
    Stays R (fun _ => True) (extractArchive codec staging extractionRoot) := by
  rw [extractArchive_eq]
  apply Prog.within_bind (stays_bareRoot hroot)
  intro _ _
  apply Prog.within_bind (stays_io (stays_call (c := .read _) hstaging.near))
  intro archive _
  exact stays_extractItems hroot _

include htarget in
theorem stays_extractArchiveAndReplace (codec : Codec) :
    Stays R (fun _ => True) (extractArchiveAndReplace codec staging extractionRoot target) := by
  rw [extractArchiveAndReplace_eq]
  apply Prog.within_bind (stays_extractArchive hstaging hroot codec)
  intro _ _
  apply Prog.within_bind (stays_removePathIfExists htarget)
  intro _ _
  exact stays_installExtracted hstaging hroot htarget

end Install

theorem stays_replaceWorkspaceDirectoryFromArchivePath {staging target : PathBuf}
    (hstaging : Inside R staging) (htarget : Inside R target)
    (hparent : Inside R (parentOrDot target)) (codec : Codec) (nanos : Nat) :
    Stays R (fun _ => True)
      (replaceWorkspaceDirectoryFromArchivePath codec nanos staging target) := by
  apply Prog.within_bind (stays_io (stays_createDirAll hparent.near))
  intro _ _
  exact stays_extractArchiveAndReplace hstaging (hparent.child _) htarget codec

/-! ### Packing and listing -/

/-- The paths that may be read. -/
structure Reading (P : FsCall → Prop) where
  reads : PathBuf → Prop
  child : ∀ path name, reads path → reads (path ++ [.normal name])
  asks : ∀ path, reads path →
    P (.fileType path) ∧ P (.stat path) ∧ P (.lstat path) ∧ P (.readDir path) ∧ P (.read path)

section Reading

variable (L : Reading P)

theorem Reading.below {path : PathBuf} (h : L.reads path) (names : Pos) :
    L.reads (path ++ names.map .normal) := by
  induction names generalizing path with
  | nil => rwa [List.map_nil, List.append_nil]
  | cons name names ih =>
    have hchild := ih (L.child path name h)
    rwa [List.append_assoc, List.singleton_append] at hchild

theorem Reading.admits_appendLoop {source : PathBuf} (h : L.reads source) (rootName : String)
    (fuel : Nat) (stack : List Pending) (out : List TarEntry) :
    (appendLoop source rootName fuel stack out).Within P A fun _ => True := by
  induction fuel generalizing stack out with
  | zero =>
    cases stack with
    | nil => exact Prog.within_pure trivial
    | cons item stack => trivial
  | succ fuel ih =>
    cases stack with
    | nil => exact Prog.within_pure trivial
    | cons item stack =>
      obtain ⟨hfileType, hstat, -, hreadDir, hread⟩ := L.asks _ (L.below h item.names)
      apply Prog.within_bind (W := fun _ => True)
      · rw [walksInto]
        split
        · exact Prog.within_pure trivial
        · split
          · exact within_isDir hfileType
          · exact Prog.within_pure trivial
      · intro into _
        split
        · apply Prog.within_bind (W := fun _ => True)
          · apply Prog.within_bind (within_sys hreadDir)
            intro children _
            apply Prog.within_bind (within_sys hstat)
            intro info _
            exact Prog.within_pure trivial
          · intro _ _
            exact ih _ _
        · apply Prog.within_bind (W := fun _ => True)
          · apply Prog.within_bind (within_sys hstat)
            intro info _
            split
            · apply Prog.within_bind (within_sys hread)
              intro contents _
              exact Prog.within_pure trivial
            · exact Prog.within_pure trivial
            · exact Prog.within_throw _
          · intro entry _
            exact ih _ _

theorem Reading.admits_tarGzIntoTemp {source : PathBuf} (h : L.reads source) (codec : Codec)
    (fuel : Nat) :
    (tarGzIntoTemp codec fuel source).Within P A fun _ => True := by
  obtain ⟨hfileType, -, -, -, hread⟩ := L.asks source h
  apply Prog.within_bind (within_isDir hfileType)
  intro directory _
  split
  · apply Prog.within_bind (Prog.within_mapError (L.admits_appendLoop h _ _ _ _))
    intro entries _
    exact Prog.within_pure trivial
  · apply Prog.within_bind (Prog.within_mapError (within_sys hread))
    intro contents _
    exact Prog.within_pure trivial

theorem Reading.admits_describeEntries {dir : PathBuf} (h : L.reads dir) (workspaceRoot : PathBuf)
    (recursive : Bool) (names : List String) {stack : List PathBuf}
    (hstack : ∀ d ∈ stack, L.reads d) (out : List FileInfo) :
    (describeEntries workspaceRoot dir recursive names stack out).Within P A
      fun found => ∀ d ∈ found.1, L.reads d := by
  induction names generalizing stack out with
  | nil => exact Prog.within_pure hstack
  | cons name names ih =>
    have hchild := L.child dir name h
    apply Prog.within_bind (within_sys (L.asks _ hchild).2.2.1)
    intro info _
    apply ih
    split
    · rw [List.forall_mem_cons]
      exact ⟨hchild, hstack⟩
    · exact hstack

theorem Reading.admits_collectFiles (workspaceRoot : PathBuf) (recursive : Bool) (fuel : Nat)
    {stack : List PathBuf} (hstack : ∀ d ∈ stack, L.reads d) (out : List FileInfo) :
    (collectFiles workspaceRoot recursive fuel stack out).Within P A fun _ => True := by
  induction fuel generalizing stack out with
  | zero =>
    cases stack with
    | nil => exact Prog.within_pure trivial
    | cons dir stack => trivial
  | succ fuel ih =>
    cases stack with
    | nil => exact Prog.within_pure trivial
    | cons dir stack =>
      rw [List.forall_mem_cons] at hstack
      apply Prog.within_bind (within_sys (L.asks dir hstack.1).2.2.2.1)
      intro entries _
      apply Prog.within_bind (L.admits_describeEntries hstack.1 _ _ _ hstack.2 _)
      intro found hfound
      exact ih hfound _

end Reading

/-- What is in a region may be read. -/
def regionReading (R : Region) : Reading R.Admits where
  reads := Inside R
  child _ name h := h.child name
  asks _ h := ⟨h.near, h.near, h.near, h, h.near⟩

/-! ### Receiving -/

theorem stays_receiveChunks {handle : Pos} (h : R.own handle = true) (rest : ImportStream)
    (total : Nat) : Stays R (fun _ => True) (receiveChunks handle rest total) := by
  induction rest generalizing total with
  | nil => exact Prog.within_pure trivial
  | cons message rest ih =>
    match message with
    | .error status => exact Prog.within_throw _
    | .ok (.header _) => exact Prog.within_throw _
    | .ok .empty => exact Prog.within_throw _
    | .ok (.chunk data) =>
      apply Prog.within_bind (stays_ioRpc (stays_call (c := .write handle data) h))
      intro _ _
      exact ih _

theorem stays_writeBody {handle : Pos} (h : R.own handle = true) (maxBodyBytes : Nat)
    (body : List (Except String (List UInt8))) (total : Nat) :
    Stays R (fun _ => True) (writeBody maxBodyBytes handle body total) := by
  induction body generalizing total with
  | nil => exact Prog.within_pure trivial
  | cons piece rest ih =>
    cases piece with
    | error e => exact Prog.within_throw _
    | ok chunk =>
      rw [writeBody_ok]
      split
      · exact Prog.within_throw _
      · apply Prog.within_bind (stays_io (stays_call (c := .write handle chunk) h))
        intro _ _
        exact ih _

theorem stays_create {path : PathBuf} (h : Inside R path) :
    Stays R (fun handle : Pos => R.own handle = true) (sys (.create path)) :=
  stays_sys h fun handle hhandle => hhandle handle rfl

theorem stays_fetchToFile {target : PathBuf} (h : Inside R target) (cfg : FetchConfig)
    (reply : Except Error HttpResponse) :
    Stays R (fun _ => True) (fetchToFile cfg reply target) := by
  have hwrite : ∀ resp : HttpResponse, Stays R (fun _ => True) (do
      ignore (sys (.unlink target))
      let handle ← io (sys (.create target))
      let bytesWritten ← writeBody cfg.maxBodyBytes handle resp.body 0
      pure ⟨bytesWritten, resp.contentType.getD "application/octet-stream", resp.status⟩ :
        Fs Error FetchOutcome) := by
    intro resp
    apply Prog.within_bind (stays_ignore (stays_call (c := .unlink target) h))
    intro _ _
    apply Prog.within_bind (stays_io (stays_create h))
    intro handle hhandle
    apply Prog.within_bind (stays_writeBody hhandle _ _ _)
    intro _ _
    exact Prog.within_pure trivial
  apply Prog.within_bind (W := fun _ => True)
  · split
    · exact Prog.within_throw _
    · exact Prog.within_pure trivial
  · intro resp _
    split
    · exact Prog.within_throw _
    · split
      · exact hwrite resp
      · rename_i parent hparent
        apply Prog.within_bind (stays_io (stays_createDirAll (h.near.parent hparent)))
        intro _ _
        exact hwrite resp

end Scriptorium
