import Scriptorium.HostFs

/-!
# The workspace manager

`{root}/{workspace_id}/home/` holds the persistent state of a workspace.  The
id is whitelisted byte by byte, and a caller's relative path is joined to the
home, cleaned lexically and accepted only below it.
-/

namespace Scriptorium

open Posix Effects

/-! ### Workspace ids -/

def isAsciiAlphanumeric (b : UInt8) : Bool :=
  (48 ≤ b && b ≤ 57) || (65 ≤ b && b ≤ 90) || (97 ≤ b && b ≤ 122)

def isIdByte (b : UInt8) : Bool := isAsciiAlphanumeric b || b == 45 || b == 95

/-- Accept only `[A-Za-z0-9_-]+`, length 1..=128. -/
def validateWorkspaceId (id : String) : Except Error Unit :=
  if id.isEmpty || (utf8 id).length > 128 then .error .invalidWorkspaceId
  else if (utf8 id).all isIdByte then .ok ()
  else .error .invalidWorkspaceId

/-- A character of the class `[A-Za-z0-9_-]`. -/
def IdChar (c : Char) : Prop :=
  ('0' ≤ c ∧ c ≤ '9') ∨ ('A' ≤ c ∧ c ≤ 'Z') ∨ ('a' ≤ c ∧ c ≤ 'z') ∨ c = '-' ∨ c = '_'

instance (c : Char) : Decidable (IdChar c) := by unfold IdChar; infer_instance

/-- The id matches `[A-Za-z0-9_-]{1,128}`. -/
def ValidId (id : String) : Prop :=
  1 ≤ id.length ∧ id.length ≤ 128 ∧ ∀ c ∈ id.toList, IdChar c

/-! ### Paths of a workspace -/

def homePath (root workspaceId : String) : PathBuf :=
  ((PathBuf.ofString root).join workspaceId).join "home"

/-- Resolve a user-supplied relative path inside the workspace home. -/
def resolvePath (root workspaceId relative : String) : Except Error PathBuf :=
  match validateWorkspaceId workspaceId with
  | .error e => .error e
  | .ok () =>
    let home := homePath root workspaceId
    let joined := (home.join relative).clean
    if joined.startsWith home then .ok joined else .error (.pathEscape relative)

/-- `io::ErrorKind::PermissionDenied`. -/
def isPermissionDenied : IoError → Bool
  | .os .perm | .os .acces => true
  | _ => false

/-- Create the home on first use and give the container's user write access to it:
    by `chown`, or by the mode `0o777` when that is denied. -/
def ensureHome (root workspaceId : String) (uid gid : Nat) : Fs Error PathBuf := do
  Prog.ofExcept (validateWorkspaceId workspaceId)
  let home := homePath root workspaceId
  io (createDirAll home)
  match ← (sys (.chown home uid gid)).attempt with
  | .ok () => pure home
  | .error e =>
    if isPermissionDenied e then
      io (sys (.chmod home 0o777))
      pure home
    else Prog.throw (.io e)

/-- Remove a workspace; `false` when there was none. -/
def deleteWorkspace (root workspaceId : String) : Fs Error Bool := do
  Prog.ofExcept (validateWorkspaceId workspaceId)
  let dir := (PathBuf.ofString root).join workspaceId
  match ← (sys (.removeDirAll dir)).attempt with
  | .ok () => pure true
  | .error (.os .noent) => pure false
  | .error e => Prog.throw (.io e)

/-- Where the configured root lies when no link is on the way to it. -/
def rootPos (root : String) : Pos := lexical [] (PathBuf.ofString root)

/-- The directory of a workspace. -/
def workspacePos (root workspaceId : String) : Pos := rootPos root ++ [workspaceId]

def homePos (root workspaceId : String) : Pos := rootPos root ++ [workspaceId, "home"]

/-- A root as an operator configures it: absolute, and without dot components. -/
structure RootPath (root : String) : Prop where
  absolute : isAbsolute root = true
  no_dots : ∀ c ∈ PathBuf.ofString root, c ≠ .curDir ∧ c ≠ .parentDir

/-! ### Validation accepts the id class -/

/-- The codes of the class `[A-Za-z0-9_-]`. -/
def IdCode (n : Nat) : Prop :=
  (48 ≤ n ∧ n ≤ 57) ∨ (65 ≤ n ∧ n ≤ 90) ∨ (97 ≤ n ∧ n ≤ 122) ∨ n = 45 ∨ n = 95

theorem isIdByte_iff {b : UInt8} : isIdByte b = true ↔ IdCode b.toNat := by
  simp [isIdByte, isAsciiAlphanumeric, IdCode, UInt8.le_iff_toNat_le, ← UInt8.toNat_inj, or_assoc]

theorem idChar_iff {c : Char} : IdChar c ↔ IdCode c.toNat := by
  have hdash : c = '-' ↔ c.toNat = 45 := by rw [← Char.toNat_inj]; rfl
  have hunder : c = '_' ↔ c.toNat = 95 := by rw [← Char.toNat_inj]; rfl
  rw [IdChar, hdash, hunder]
  exact Iff.rfl

theorem utf8EncodeChar_of_idChar {c : Char} (h : IdCode c.toNat) :
    String.utf8EncodeChar c = [UInt8.ofNat c.toNat] := by
  have hle : c.val.toNat ≤ 127 := by
    unfold IdCode Char.toNat at h
    omega
  rw [String.utf8EncodeChar, if_pos hle]
  rfl

theorem idCode_of_isIdByte {c : Char} (h : (String.utf8EncodeChar c).all isIdByte = true) :
    IdCode c.toNat := by
  unfold String.utf8EncodeChar at h
  simp only at h
  split at h
  · rename_i hle
    simp only [List.all_cons, List.all_nil, Bool.and_true, isIdByte_iff, UInt8.toNat_ofNat'] at h
    rwa [Nat.mod_eq_of_lt (by omega)] at h
  · exfalso
    split at h
    · simp only [List.all_cons, Bool.and_eq_true, isIdByte_iff, UInt8.toNat_ofNat', IdCode] at h
      omega
    · split at h
      · simp only [List.all_cons, Bool.and_eq_true, isIdByte_iff, UInt8.toNat_ofNat', IdCode] at h
        omega
      · simp only [List.all_cons, Bool.and_eq_true, isIdByte_iff, UInt8.toNat_ofNat', IdCode] at h
        omega

theorem length_utf8_of_idChars {cs : List Char} (h : ∀ c ∈ cs, IdCode c.toNat) :
    cs.flatMap String.utf8EncodeChar = cs.map fun c => UInt8.ofNat c.toNat := by
  induction cs with
  | nil => rfl
  | cons c cs ih =>
    rw [List.forall_mem_cons] at h
    rw [List.flatMap_cons, utf8EncodeChar_of_idChar h.1, ih h.2, List.map_cons,
      List.singleton_append]

theorem all_isIdByte_utf8 {id : String} :
    (utf8 id).all isIdByte = true ↔ ∀ c ∈ id.toList, IdChar c := by
  rw [utf8, List.all_flatMap, List.all_eq_true]
  refine forall₂_congr fun c _ => ?_
  rw [idChar_iff]
  constructor
  · exact idCode_of_isIdByte
  · intro h
    have hlt : c.toNat < 256 := by
      unfold IdCode at h
      omega
    rw [utf8EncodeChar_of_idChar h, List.all_cons, List.all_nil, Bool.and_true, isIdByte_iff,
      UInt8.toNat_ofNat', Nat.mod_eq_of_lt hlt]
    exact h

theorem length_utf8 {id : String} (h : ∀ c ∈ id.toList, IdChar c) :
    (utf8 id).length = id.length := by
  rw [utf8, length_utf8_of_idChars fun c hc => idChar_iff.mp (h c hc), List.length_map,
    String.length_toList]

theorem validateWorkspaceId_eq_ok {id : String} :
    validateWorkspaceId id = .ok () ↔ ValidId id := by
  unfold validateWorkspaceId ValidId
  rw [← all_isIdByte_utf8]
  have hempty : id.isEmpty = true ↔ ¬ 1 ≤ id.length := by
    rw [String.isEmpty_iff, ← String.length_eq_zero_iff]
    omega
  by_cases hall : (utf8 id).all isIdByte = true
  · have hlen := length_utf8 (all_isIdByte_utf8.mp hall)
    rw [hlen, if_pos hall]
    simp only [Bool.or_eq_true, hempty, decide_eq_true_eq, hall, and_true]
    split <;> simp <;> omega
  · rw [if_neg hall]
    simp [hall]

instance (id : String) : Decidable (ValidId id) :=
  decidable_of_iff (validateWorkspaceId id = .ok ()) validateWorkspaceId_eq_ok

theorem validateWorkspaceId_eq_error {id : String} (h : ¬ ValidId id) :
    validateWorkspaceId id = .error .invalidWorkspaceId := by
  rw [← validateWorkspaceId_eq_ok] at h
  unfold validateWorkspaceId at h ⊢
  split
  · rfl
  · split
    · simp_all
    · rfl

theorem proper_of_validId {id : String} (h : ValidId id) : Proper id := by
  obtain ⟨hpos, -, hchars⟩ := h
  have hdot : ¬ IdChar '.' := by decide
  have hslash : ¬ IdChar '/' := by decide
  refine ⟨?_, ?_, ?_, fun hmem => hslash (hchars _ hmem)⟩
  · rintro rfl
    exact absurd hpos (by decide)
  · rintro rfl
    exact hdot (hchars '.' (by decide))
  · rintro rfl
    exact hdot (hchars '.' (by decide))

/-! ### Resolution is lexical -/

theorem ofString_root {root : String} (h : RootPath root) :
    PathBuf.ofString root = canonical (rootPos root) := by
  obtain ⟨rest, htext, hrest⟩ := PathBuf.ofString_absolute h.absolute
  have hdots := h.no_dots
  rw [rootPos, htext, lexical_cons, lexicalStep]
  rw [htext, List.forall_mem_cons] at hdots
  exact PathBuf.eq_canonical_of_no_dots hrest hdots.2

theorem homePath_eq {root workspaceId : String} (hroot : RootPath root)
    (hid : ValidId workspaceId) :
    homePath root workspaceId = canonical (homePos root workspaceId) := by
  have hhome : Proper "home" := by decide
  rw [homePath, PathBuf.join_of_proper (proper_of_validId hid), PathBuf.join_of_proper hhome,
    ofString_root hroot, homePos]
  simp [canonical]

/-- What `resolve_path` computes: the lexical reading of `relative` from the
    home, accepted when it lies in the home. -/
theorem resolvePath_eq {root workspaceId : String} (hroot : RootPath root)
    (hid : ValidId workspaceId) (relative : String) :
    resolvePath root workspaceId relative =
      if homePos root workspaceId <+: lexical (homePos root workspaceId) (segments relative) then
        .ok (canonical (lexical (homePos root workspaceId) (segments relative)))
      else .error (.pathEscape relative) := by
  rw [resolvePath, validateWorkspaceId_eq_ok.mpr hid]
  simp only [homePath_eq hroot hid, PathBuf.clean_join_canonical]
  refine if_congr ?_ rfl rfl
  exact PathBuf.startsWith_canonical

/-- The empty path is the home itself. -/
theorem resolvePath_empty {root workspaceId : String} (hroot : RootPath root)
    (hid : ValidId workspaceId) :
    resolvePath root workspaceId "" = .ok (homePath root workspaceId) := by
  have hempty : segments "" = [.curDir] := by decide
  rw [resolvePath_eq hroot hid, hempty, lexical_cons, lexicalStep, lexical_nil,
    if_pos List.prefix_rfl, homePath_eq hroot hid]

theorem resolvePath_of_not_validId {root workspaceId relative : String}
    (hid : ¬ ValidId workspaceId) :
    resolvePath root workspaceId relative = .error .invalidWorkspaceId := by
  rw [resolvePath, validateWorkspaceId_eq_error hid]

theorem proper_of_mem_lexical {pos : Pos} {components : List Component}
    (hpos : ∀ name ∈ pos, Proper name) (hproper : ProperNames components) :
    ∀ name ∈ lexical pos components, Proper name := by
  induction components generalizing pos with
  | nil => exact hpos
  | cons c rest ih =>
    rw [lexical_cons]
    refine ih ?_ fun name hname => hproper name (List.mem_cons_of_mem _ hname)
    intro name hname
    cases c with
    | rootDir => cases hname
    | curDir => exact hpos name hname
    | parentDir => exact hpos name ((List.dropLast_sublist pos).mem hname)
    | normal n =>
      rcases List.mem_append.mp hname with hname | hname
      · exact hpos name hname
      · rw [List.mem_singleton.mp hname]
        exact hproper n List.mem_cons_self

theorem proper_of_mem_rootPos {root name : String} (h : name ∈ rootPos root) : Proper name := by
  have hnil : ∀ n ∈ ([] : Pos), Proper n := by simp
  exact proper_of_mem_lexical hnil (fun n hn => PathBuf.proper_of_mem_ofString hn) name h

/-- What an accepted path is: the canonical path of a position below the workspace. -/
theorem resolvePath_eq_ok {root workspaceId relative : String} (hroot : RootPath root)
    {path : PathBuf} (h : resolvePath root workspaceId relative = .ok path) :
    ValidId workspaceId ∧ ∃ q, path = canonical q ∧ homePos root workspaceId <+: q ∧
      q = lexical (homePos root workspaceId) (segments relative) ∧ ∀ name ∈ q, Proper name := by
  by_cases hid : ValidId workspaceId
  · rw [resolvePath_eq hroot hid] at h
    split at h
    · rename_i hpre
      refine ⟨hid, _, (Except.ok.inj h).symm, hpre, rfl, ?_⟩
      refine proper_of_mem_lexical ?_ fun name hname => proper_of_mem_segments hname
      intro name hname
      rcases List.mem_append.mp hname with hname | hname
      · exact proper_of_mem_rootPos hname
      · rcases List.mem_pair.mp hname with rfl | rfl
        · exact proper_of_validId hid
        · decide
    · cases h
  · rw [resolvePath_of_not_validId hid] at h
    cases h

/-! ### The workspace directory -/

/-- A path through a workspace leads somewhere only if the workspace exists. -/
theorem isSome_workspace_of_walk {t : FileTree} {cred : Cred}
    (hcred : cred.privileged = true) {root workspaceId : String}
    (hroot : t.isDir (rootPos root) = true) {p q : Pos} (hq : workspacePos root workspaceId <+: q)
    (h : walk (t.look cred) maxLinks [] (canonical q) = .ok p) :
    (t.get? (workspacePos root workspaceId)).isSome := by
  obtain ⟨rest, rfl⟩ := hq
  have hdirs : ∀ d : Pos, [] <+: d → d <+: [] ++ rootPos root → t.look cred d = .dir true := by
    intro d _ hd
    rw [List.nil_append] at hd
    by_cases hne : d = rootPos root
    · exact FileTree.look_of_isDir hcred (hne ▸ hroot)
    · exact FileTree.look_of_isDir hcred
        (FileTree.isDir_above (FileTree.isSome_of_isDir hroot) hd hne)
  by_contra habsent
  rw [Option.isSome_iff_ne_none, not_not] at habsent
  rw [walk_eq_ok, canonical, workspacePos, List.map_append, resolve_rootDir,
    resolve_names hdirs, resolve_normal] at h
  have hlook : t.look cred ([] ++ rootPos root ++ [workspaceId]) = .absent :=
    FileTree.look_eq_absent.mpr habsent
  rw [hlook] at h
  split at h
  · cases h
  · simp only at h
    split at h <;> cases h

end Scriptorium
