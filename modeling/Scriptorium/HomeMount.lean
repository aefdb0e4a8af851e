import Scriptorium.ExecParams
import Scriptorium.ResolvePath

/-!
# The home that is mounted and the home that is served

`ensure_home` joins the root, the id and `home` as they are spelled, and the
container gets that path as its bind mount; `resolve_path` cleans the path it
answers with and compares it to the uncleaned home.  `seenAlike_iff` says for
which roots the two agree.
-/

namespace Scriptorium

open Posix Effects

theorem Config.absolute_of_validate {cfg : Config} (h : cfg.validate = .ok ()) :
    isAbsolute cfg.workspaceRoot = true := by
  unfold validate at h
  split at h
  · cases h
  · rename_i habs
    simpa using habs

/-- `ensure_home` answers with the path it was asked to create. -/
theorem eq_homePath_of_ensureHome {root workspaceId : String} {uid gid : Nat} {S : Type}
    {exec : (c : FsCall) → S → c.Reply × S} {s : S} {home : PathBuf}
    (h : ((ensureHome root workspaceId uid gid).run exec s).1 = some (.ok home)) :
    home = homePath root workspaceId := by
  unfold ensureHome at h
  obtain ⟨_, _, _, h⟩ := Prog.ok_of_run_bind exec h
  obtain ⟨_, _, _, h⟩ := Prog.ok_of_run_bind exec h
  obtain ⟨chowned, _, _, h⟩ := Prog.ok_of_run_bind exec h
  rcases chowned with e | _
  · simp only at h
    split at h
    · obtain ⟨_, _, _, h⟩ := Prog.ok_of_run_bind exec h
      simpa [eq_comm] using h
    · simp at h
  · simpa [eq_comm] using h

/-- What is mounted into a container is the home as `ensure_home` spells it. -/
theorem eq_homePath_of_bind {cfg : Config} {req : ExecRequest} {S : Type}
    {exec : (c : FsCall) → S → c.Reply × S} {s : S} {params : ExecParams} {bind : Bind}
    (h : ((buildExecParams cfg req).run exec s).1 = some (.ok params))
    (hbind : bind ∈ (hostConfig cfg.sandbox params).binds) :
    bind.host = homePath cfg.workspaceRoot req.workspaceId := by
  unfold buildExecParams at h
  obtain ⟨home, s', hhome, h⟩ := Prog.ok_of_run_bind exec h
  obtain rfl : execParams cfg.sandbox req home = params := by simpa using h
  obtain rfl := List.mem_singleton.mp hbind
  exact eq_homePath_of_ensureHome (congrArg Prod.fst hhome)

/-- The caller's path is accepted and leads, in any tree without links, to where it
    leads from the directory that the container has mounted. -/
def SeenAlike (cfg : Config) (req : ExecRequest) (relative : String) : Prop :=
  ∃ p, resolvePath cfg.workspaceRoot req.workspaceId relative = .ok p ∧
    ∀ (cred : Cred) (now : Nat) (before : FileTree) (params : ExecParams) (bind : Bind),
      ((buildExecParams cfg req).run (FileTree.exec cred now) before).1 = some (.ok params) →
      bind ∈ (hostConfig cfg.sandbox params).binds →
      ∀ (t : FileTree) (viewer : Cred) (links : Nat) (home : Pos), t.SymlinkFree →
        walk (t.look viewer) links [] bind.host = .ok home →
        walk (t.look viewer) links [] p =
          walk (t.look viewer) links home (PathBuf.ofString relative)

theorem rootPath_of_no_parent {root : String} (habs : isAbsolute root = true)
    (h : .parentDir ∉ PathBuf.ofString root) : RootPath root := by
  refine ⟨habs, fun c hc => ⟨?_, ?_⟩⟩
  · rintro rfl
    simp [PathBuf.ofString, habs] at hc
  · rintro rfl
    exact h hc

/-- What is joined to an absolute path stays absolute. -/
theorem PathBuf.join_absolute (rest : PathBuf) (hrest : .rootDir ∉ rest) (text : String) :
    ∃ cs, PathBuf.join (.rootDir :: rest) text = .rootDir :: cs ∧ .rootDir ∉ cs := by
  cases habs : isAbsolute text with
  | true =>
    obtain ⟨cs, htext, hcs⟩ := PathBuf.ofString_absolute habs
    exact ⟨cs, by rw [PathBuf.join, htext], hcs⟩
  | false =>
    have hroot := PathBuf.rootDir_not_mem_ofString habs
    unfold PathBuf.join
    split
    · rename_i cs htext
      simp [htext] at hroot
    · rename_i cs htext
      rw [htext, List.mem_cons, not_or] at hroot
      refine ⟨rest ++ cs, by simp, ?_⟩
      rw [List.mem_append, not_or]
      exact ⟨hrest, hroot.2⟩
    · refine ⟨rest ++ PathBuf.ofString text, by simp, ?_⟩
      rw [List.mem_append, not_or]
      exact ⟨hrest, hroot⟩

/-- A cleaned path has no dot component, so it cannot begin with one that has. -/
theorem resolvePath_ne_ok_of_parent {root workspaceId relative : String}
    (habs : isAbsolute root = true) (hid : ValidId workspaceId)
    (h : .parentDir ∈ PathBuf.ofString root) (p : PathBuf) :
    resolvePath root workspaceId relative ≠ .ok p := by
  intro hp
  obtain ⟨rest, hroot, hrest⟩ := PathBuf.ofString_absolute habs
  have hhome : homePath root workspaceId =
      .rootDir :: (rest ++ [.normal workspaceId, .normal "home"]) := by
    rw [homePath, PathBuf.join_of_proper (proper_of_validId hid),
      PathBuf.join_of_proper (by decide), hroot]
    simp
  obtain ⟨cs, hjoin, hcs⟩ := PathBuf.join_absolute
    (rest ++ [.normal workspaceId, .normal "home"]) (by simp [hrest]) relative
  rw [resolvePath, validateWorkspaceId_eq_ok.mpr hid] at hp
  simp only [hhome, hjoin, PathBuf.clean_absolute hcs] at hp
  split at hp
  · rename_i hstarts
    rw [PathBuf.startsWith, List.isPrefixOf_iff_prefix] at hstarts
    rw [hroot, List.mem_cons] at h
    have hmem : .parentDir ∈ rest := h.resolve_left (by simp)
    have hbelow := hstarts.subset (List.mem_cons_of_mem _ (List.mem_append_left _ hmem))
    exact (PathBuf.mem_canonical hbelow).2 rfl
  · cases hp

theorem exists_names {cs : List Component} (h : ∀ c ∈ cs, ∃ name, c = .normal name) :
    ∃ names : Pos, cs = names.map .normal := by
  induction cs with
  | nil => exact ⟨[], rfl⟩
  | cons c cs ih =>
    rw [List.forall_mem_cons] at h
    obtain ⟨⟨name, rfl⟩, hcs⟩ := h
    obtain ⟨names, rfl⟩ := ih hcs
    exact ⟨name :: names, rfl⟩

/-- **The two homes agree.**  For every accepted configuration, valid id and path of
    plain names: `resolve_path` accepts the path, and leads to where it leads from the
    directory that the container has mounted, exactly when the configured root has no
    `..` component. -/
theorem seenAlike_iff {cfg : Config} (hcfg : cfg.validate = .ok ()) {req : ExecRequest}
    (hid : ValidId req.workspaceId) {relative : String}
    (hrelative : ∀ c ∈ PathBuf.ofString relative, ∃ name, c = .normal name) :
    SeenAlike cfg req relative ↔ .parentDir ∉ PathBuf.ofString cfg.workspaceRoot := by
  have habs := Config.absolute_of_validate hcfg
  constructor
  · rintro ⟨p, hp, -⟩ hparent
    exact resolvePath_ne_ok_of_parent habs hid hparent p hp
  · intro hparent
    have hroot := rootPath_of_no_parent habs hparent
    obtain ⟨names, hnames⟩ := exists_names hrelative
    have hlexical : lexical (homePos cfg.workspaceRoot req.workspaceId) (segments relative) =
        homePos cfg.workspaceRoot req.workspaceId ++ names := by
      rw [← PathBuf.lexical_ofString, hnames, lexical_normal]
    refine ⟨canonical (homePos cfg.workspaceRoot req.workspaceId ++ names), ?_, ?_⟩
    · rw [resolvePath_eq hroot hid, hlexical, if_pos (List.prefix_append _ _)]
    · intro cred now before params bind hrun hbind t viewer links home ht hhome
      rw [eq_homePath_of_bind hrun hbind, homePath_eq hroot hid] at hhome
      have hsplit : canonical (homePos cfg.workspaceRoot req.workspaceId ++ names) =
          canonical (homePos cfg.workspaceRoot req.workspaceId) ++ names.map .normal := by
        simp [canonical]
      rw [walk, walk, hsplit, hnames,
        resolve_append_of_no_link (ht.look_ne_link viewer) _ hhome]

/-- The root `/data//./x` is as good as `/data/x`. -/
theorem seenAlike_repeated_slash :
    SeenAlike { defaultConfig with workspaceRoot := "/data//./x" }
      ⟨"w1", "t", "ls", 0, [], "", none⟩ "a/b" := by
  apply (seenAlike_iff rfl (validateWorkspaceId_eq_ok.mp rfl) _).mpr
  · decide
  · intro c hc
    have hpath : PathBuf.ofString "a/b" = [.normal "a", .normal "b"] := by decide
    rw [hpath] at hc
    rcases List.mem_pair.mp hc with rfl | rfl
    · exact ⟨"a", rfl⟩
    · exact ⟨"b", rfl⟩

/-- Below the root `/data/../srv` nothing is served. -/
theorem not_seenAlike_dotted_root :
    ¬ ∀ (cfg : Config) (req : ExecRequest) (relative : String), cfg.validate = .ok () →
      ValidId req.workspaceId →
      (∀ c ∈ PathBuf.ofString relative, ∃ name, c = .normal name) → SeenAlike cfg req relative := by
  intro hseen
  have hplain : ∀ c ∈ PathBuf.ofString "a", ∃ name, c = .normal name := by
    intro c hc
    obtain rfl := List.mem_singleton.mp hc
    exact ⟨"a", rfl⟩
  obtain ⟨p, hp, -⟩ := hseen { defaultConfig with workspaceRoot := "/data/../srv" }
    ⟨"w1", "t", "ls", 0, [], "", none⟩ "a" rfl (validateWorkspaceId_eq_ok.mp rfl) hplain
  cases hp

end Scriptorium
