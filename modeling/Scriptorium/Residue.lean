import Scriptorium.ImportSuccess

/-!
# What an import leaves behind

`do_import_workspace_object` cleans up on some of its ways out only.  An import that is
dropped or refused while its stream is read leaves the staging file, and one whose archive
cannot be unpacked leaves that file and what has been extracted so far
(`import_residue_iff`).
-/

namespace Scriptorium

open Posix Effects

variable {cred : Cred} {now : Nat} {t : FileTree}

/-! ### Below a position -/

/-- What is below a position, without the position itself. -/
def underneath (p : Pos) : Region where
  own q := p.isPrefixOf q && decide (p.length < q.length)
  below a b ha hab := by
    simp only [Bool.and_eq_true, List.isPrefixOf_iff_prefix, decide_eq_true_eq] at ha ⊢
    exact ⟨ha.1.trans hab, ha.2.trans_le hab.length_le⟩

theorem own_underneath {p q : Pos} : (underneath p).own q = true ↔ p <+: q ∧
    p.length < q.length := by
  simp only [underneath, Bool.and_eq_true, List.isPrefixOf_iff_prefix, decide_eq_true_eq]

theorem inside_underneath (p : Pos) {names : Pos} (hne : names ≠ []) :
    Inside (underneath p) (canonical p ++ names.map .normal) := by
  refine ⟨p ++ names, own_underneath.mpr ⟨List.prefix_append _ _, ?_⟩,
    (canonical_append p names).symm⟩
  have hlength := List.length_pos_iff.mpr hne
  rw [List.length_append]
  omega

theorem near_underneath (p : Pos) : Near (underneath p) (canonical p) :=
  ⟨p, ⟨p ++ [""], own_underneath.mpr (by simp), List.prefix_append _ _⟩, rfl⟩

theorem seen_underneath {p q : Pos} (h : (underneath p).Seen q) : q <+: p ∨ p <+: q := by
  obtain ⟨r, hr, hq⟩ := h
  exact List.prefix_or_prefix_of_prefix hq (own_underneath.mp hr).1

/-- What is there, and not in the region, stays. -/
theorem kept_exec {R : Region} {c : FsCall} (hc : R.Admits c) (ht : FileTree.Clear R t) {q : Pos}
    {node : Node} (hq : R.own q = false) (hnode : t.get? q = some node) :
    (FileTree.exec cred now c t).2.get? q = some node := by
  rcases FileTree.touched_admitted cred hc ht with ⟨p, -, rfl⟩ | htouched
  · simp only [FileTree.exec]
    rcases FileTree.mkdir_cases cred now t (canonical p) with
      ⟨e, he⟩ | ⟨dir, name, _, hfree, _, -, hadd⟩
    · rwa [he]
    · rw [hadd, FileTree.get?_add, if_neg]
      · exact hnode
      · rintro rfl
        rw [hfree] at hnode
        cases hnode
  · rw [FileTree.get?_exec_of_not_touched (t := t) c, hnode]
    intro p hp hpq
    rw [R.below p q (htouched p hp) hpq] at hq
    cases hq

/-- Unpacking, however it ends, leaves its directory and what is beside it. -/
theorem kept_extractItems {root : Pos} (ht : FileTree.Clear (underneath root) t)
    (items : List TarItem)
    {q : Pos} {node : Node} (hq : (underneath root).own q = false) (hnode : t.get? q = some node) :
    ((extractItems (canonical root) items).run (FileTree.exec cred now) t).2.get? q =
      some node := by
  have hstays : Stays (underneath root) (fun _ => True) (extractItems (canonical root) items) :=
    stays_extractItems_below (near_underneath root) (fun _ => inside_underneath root) items
  let I := fun s : FileTree => FileTree.Clear (underneath root) s ∧ s.get? q = some node
  have hkept : I ((extractItems (canonical root) items).run (FileTree.exec cred now) t).2 :=
    hstays.keeps (fun c s hc ⟨hs, hsome⟩ => ⟨⟨FileTree.clear_exec hc hs, kept_exec hc hs hq hsome⟩,
      FileTree.returns_exec hc hs⟩) ⟨ht, hnode⟩
  exact hkept.2

/-! ### The ways out -/

/-- Chunks are only appended to the staging file, which stays. -/
theorem isSome_receiveChunks {handle : Pos} (rest : ImportStream) (total : Nat)
    (h : (t.get? handle).isSome) :
    (((receiveChunks handle rest total).run (FileTree.exec cred now) t).2.get? handle).isSome := by
  have hwrites : ∀ total, (receiveChunks handle rest total).Within
      (fun c => ∃ data, c = .write handle data) (fun _ _ => True) fun _ => True := by
    induction rest with
    | nil => exact fun _ => Prog.within_pure trivial
    | cons message rest ih =>
      intro total
      match message with
      | .error status => exact Prog.within_throw _
      | .ok (.header _) => exact Prog.within_throw _
      | .ok .empty => exact Prog.within_throw _
      | .ok (.chunk data) =>
        apply Prog.within_bind (Prog.within_mapError (within_sys ⟨data, rfl⟩))
        intro _ _
        exact ih _
  refine (hwrites total).keeps (I := fun s : FileTree => (s.get? handle).isSome = true) ?_ h
  rintro c s ⟨data, rfl⟩ hs
  refine ⟨?_, trivial⟩
  simp only [FileTree.exec]
  rcases FileTree.write_cases now s handle data with hsame | ⟨old, holes, attrs, -, hset⟩
  · rwa [hsame]
  · rw [hset, FileTree.get?_setData, if_pos rfl, Option.isSome_map]
    exact hs

/-- What is to be imported is an archive, and its entries do not fit together, or a link is
    in its way. -/
def Stuck (cred : Cred) (codec : Codec) (t : FileTree) (target : Pos) (header : ImportHeader)
    (rest : ImportStream) : Prop :=
  WorkspaceObjectEncoding.ofInt header.encoding = .tarGz ∧
    ∃ bytes, payload rest = some bytes ∧
      (layoutOf (codec.unpack bytes) = none ∨ ¬ GivesWay cred t target .tarGz)

section Exits

variable (hcred : cred.privileged = true)

include hcred

variable (cfg : ServiceConfig) {clock : ImportClock} {header : ImportHeader} {rest : ImportStream}
  {bytes : List UInt8} {dir : Pos} {name : String}

variable (now) in
/-- A stream that is not chunks is abandoned with the staging file in place. -/
theorem run_import_interrupted (hroot : RootPath cfg.root)
    (h : Aimed cred cfg clock header t dir name) (hrest : payload rest = none) :
    ∃ status s, (importObject cfg clock header rest).run (FileTree.exec cred now) t =
        (some (.error status), s) ∧
      (s.get? (stagingPos clock dir)).isSome ∧ s.get? (extractionPos clock dir) = none := by
  obtain ⟨u, hopened, hempty⟩ :=
    run_openStaging now hcred cfg clock rest hroot h.resolve h.below h.passable h.fresh
  have hstays :
      (((receiveChunks (stagingPos clock dir) rest 0).run (FileTree.exec cred now) u).2.get?
      (stagingPos clock dir)).isSome := isSome_receiveChunks rest 0 (by rw [hempty]; rfl)
  obtain ⟨status, s, hchunks, -⟩ :=
    @run_receiveChunks_none cred now u (stagingPos clock dir) rest hrest 0
  rw [hchunks] at hstays
  have hreceive : (receiveObject cfg clock header rest).run (FileTree.exec cred now) t =
      (some (.error status), s) := by
    rw [hopened, Prog.run_bind, hchunks]
  obtain ⟨_, s', hrun, hframe, -⟩ :=
    run_receiveObject cred now cfg hroot h.resolve List.prefix_rfl h.below
    h.fresh.straight (not_entry_above dir _) h.fresh.staging_free rest
  obtain ⟨-, rfl⟩ := Prod.mk.inj (hreceive.symm.trans hrun)
  refine ⟨status, s, ?_, hstays, ?_⟩
  · rw [importObject_eq, Prog.run_bind, hreceive]
  · rw [(hframe _ (extraction_apart clock dir).2).1 (not_entry_above dir _)]
    exact h.fresh.extraction_free

variable (now) in
/-- Without an encoding, the staging file goes, and nothing has been extracted. -/
theorem run_install_unspecified (h : Received clock dir bytes t)
    (hencoding : WorkspaceObjectEncoding.ofInt header.encoding = .unspecified) (target : PathBuf)
    (count : Nat) :
    ∃ status s, (installObject cfg clock header (canonical (stagingPos clock dir)) target count).run
        (FileTree.exec cred now) t = (some (.error status), s) ∧
      s.get? (stagingPos clock dir) = none ∧ s.get? (extractionPos clock dir) = none := by
  obtain ⟨attrs, hstaging⟩ := h.staging
  have hnot : t.isDir (dir ++ [transferName "import" clock.staging]) = false := by
    rw [← stagingPos, FileTree.isDir, hstaging]
    rfl
  have hunlink := FileTree.exec_unlink_other now hcred h.isDir (by rw [← stagingPos, hstaging]; rfl)
    hnot
  refine ⟨invalidArgument "import_workspace_object encoding is required",
    t.removeAt dir (transferName "import" clock.staging), ?_, ?_, ?_⟩
  · simp only [installObject, hencoding]
    rw [Prog.run_bind_ok _ (run_ignore_ok (by simp) (by simp)), stagingPos, hunlink]
    rfl
  · exact FileTree.get?_removeAt.trans (if_pos List.prefix_rfl)
  · exact (FileTree.get?_removeAt.trans (if_neg (extraction_apart clock dir).2)).trans
      h.extraction_free

omit hcred in
/-- An empty extraction directory beside the staging file has no link in the way. -/
theorem clear_bare {s : FileTree} (h : Received clock dir bytes t)
    (hshows : Shows s (extractionPos clock dir) .bare)
    (hsame : ∀ q, ¬ extractionPos clock dir <+: q → s.get? q = t.get? q) :
    FileTree.Clear (underneath (extractionPos clock dir)) s := by
  intro q node hq hnode
  by_cases hbelow : extractionPos clock dir <+: q
  · obtain ⟨r, rfl⟩ := hbelow
    have hkind := hshows r
    rw [hnode, Option.map_some] at hkind
    obtain ⟨item, -, hkind⟩ := Option.map_eq_some_iff.mp hkind.symm
    rw [Node.isLink, ← hkind]
    cases item <;> rfl
  · rw [hsame q hbelow] at hnode
    apply h.ordinary.clear q node _ hnode
    rw [seen_beside]
    rcases seen_underneath hq with habove | hin
    · rcases List.prefix_concat_iff.mp habove with rfl | habove
      · exact absurd (List.prefix_refl _) hbelow
      · exact Or.inl habove
    · exact absurd hin hbelow

variable (now name) in
/-- An archive that cannot be unpacked leaves the staging file, and the directory into which
    it was to be unpacked. -/
theorem run_install_broken (h : Received clock dir bytes t)
    (hencoding : WorkspaceObjectEncoding.ofInt header.encoding = .tarGz)
    (hU : layoutOf (cfg.codec.unpack bytes) = none) (count : Nat) :
    ∃ status s, (installObject cfg clock header (canonical (stagingPos clock dir))
        (canonical (dir ++ [name])) count).run (FileTree.exec cred now) t =
          (some (.error status), s) ∧
      (s.get? (stagingPos clock dir)).isSome ∧ (s.get? (extractionPos clock dir)).isSome := by
  obtain ⟨u, hextract, hshows, hsame⟩ := run_extractArchive_items now hcred cfg.codec h
  have hclear := clear_bare h hshows hsame
  obtain ⟨attrs, hstaging⟩ := h.staging
  rw [← hsame _ (extraction_apart clock dir).1] at hstaging
  have hroot := hshows []
  rw [List.append_nil] at hroot
  obtain ⟨root, hroot, -⟩ := Option.map_eq_some_iff.mp hroot
  obtain ⟨result, s, hitems⟩ : ∃ result s, (extractItems (canonical (extractionPos clock dir))
      (cfg.codec.unpack bytes)).run (FileTree.exec cred now) u = (some result, s) := by
    have hstays := stays_extractArchive (R := beside clock dir) ⟨_, staging_own, rfl⟩
      ⟨_, extraction_own, rfl⟩
      cfg.codec
    obtain ⟨result, s, hrun, -⟩ := run_minds cred now (hstays.weaken fun _ => Or.inl)
      (prompt_extractArchive _ _ _) h.ordinary
    exact ⟨result, s, hextract.symm.trans hrun⟩
  have hkept : ∀ {q node}, (underneath (extractionPos clock dir)).own q = false →
      u.get? q = some node →
      s.get? q = some node := by
    intro q node hq hnode
    have hkept : ((extractItems (canonical (extractionPos clock dir)) (cfg.codec.unpack bytes)).run
        (FileTree.exec cred now) u).2.get? q = some node := kept_extractItems hclear _ hq hnode
    rwa [hitems] at hkept
  rcases result with e | _
  · refine ⟨e.toStatus, s, ?_, ?_, ?_⟩
    · simp only [installObject, hencoding]
      rw [Prog.run_bind, rpc, Prog.run_mapError, replaceWorkspaceDirectoryFromArchivePath,
        extractionPath_canonical, parentOrDot_canonical,
        Prog.run_bind_ok _ (run_io_createDirAll_there now hcred h.isDir),
          extractArchiveAndReplace_eq,
        Prog.run_bind, hextract, hitems]
      rfl
    · rw [hkept _ hstaging]
      · rfl
      · rw [Bool.eq_false_iff, Ne, own_underneath]
        exact fun hown => (extraction_apart clock dir).1 hown.1
    · rw [hkept _ hroot]
      · rfl
      · rw [Bool.eq_false_iff, Ne, own_underneath]
        exact fun hown => absurd hown.2 (Nat.lt_irrefl _)
  · have hok := congrArg Prod.fst (hextract.trans hitems)
    exact absurd hok (run_extractArchive_none now hcred h hU)

variable (now) in
/-- Where a link is in its way, a file is left in its staging file. -/
theorem run_install_link_raw (h : Received clock dir bytes t)
    (hencoding : WorkspaceObjectEncoding.ofInt header.encoding = .raw)
    (hdenied : ¬ GivesWay cred t (dir ++ [name]) .raw) (count : Nat) :
    ∃ status s, (installObject cfg clock header (canonical (stagingPos clock dir))
        (canonical (dir ++ [name])) count).run (FileTree.exec cred now) t =
          (some (.error status), s) ∧
      (s.get? (stagingPos clock dir)).isSome ∧ s.get? (extractionPos clock dir) = none := by
  obtain ⟨e, hreplace⟩ := run_replaceFile_link now hcred h hdenied
  obtain ⟨attrs, hstaging⟩ := h.staging
  refine ⟨e.toStatus, t, ?_, by rw [hstaging]; rfl, h.extraction_free⟩
  simp only [installObject, hencoding]
  rw [Prog.run_bind, rpc, Prog.run_mapError, hreplace]
  rfl

variable (now) in
/-- And an archive, with what has been extracted of it. -/
theorem run_install_link_archive (h : Received clock dir bytes t)
    (hencoding : WorkspaceObjectEncoding.ofInt header.encoding = .tarGz) {U : ArchiveLayout}
    (hU : layoutOf (cfg.codec.unpack bytes) = some U) (hname : Proper name)
    (hexpand : transferName "expand" clock.expand ≠ name) (hunaware : Unaware cred clock t dir name)
    (hdenied : ¬ GivesWay cred t (dir ++ [name]) .tarGz) (count : Nat) :
    ∃ status s, (installObject cfg clock header (canonical (stagingPos clock dir))
        (canonical (dir ++ [name])) count).run (FileTree.exec cred now) t =
          (some (.error status), s) ∧
      (s.get? (stagingPos clock dir)).isSome ∧ (s.get? (extractionPos clock dir)).isSome := by
  obtain ⟨e, s, hreplace, hstaging, hextraction, -⟩ :=
    run_replaceArchive_link now hcred h hU hname hexpand hunaware hdenied
  refine ⟨e.toStatus, s, ?_, hstaging, hextraction⟩
  simp only [installObject, hencoding]
  rw [Prog.run_bind, rpc, Prog.run_mapError, hreplace]
  rfl

variable (now) in
/-- An object that stands for something leaves neither. -/
theorem run_import_tidy (hroot : RootPath cfg.root) (h : Welcome cred cfg clock header t dir name)
    (hrest : payload rest = some bytes) {V : ArchiveLayout}
    (hV : Depicts cfg.codec bytes V (.ofInt header.encoding)) :
    ∃ response s, (importObject cfg clock header rest).run (FileTree.exec cred now) t =
        (some (.ok response), s) ∧
      s.get? (stagingPos clock dir) = none ∧ s.get? (extractionPos clock dir) = none := by
  obtain ⟨contentType, s, hrun, -, hframe⟩ := run_importObject_ok now hcred cfg hroot h hrest hV
  refine ⟨_, s, hrun, ?_, ?_⟩
  · exact ((hframe _ (entry_apart dir h.fresh.staging_ne.symm)).1 (not_entry_above dir _)).trans
      h.fresh.staging_free
  · exact ((hframe _ (entry_apart dir h.fresh.extraction_ne.symm)).1 (not_entry_above dir _)).trans
      h.fresh.extraction_free

variable (now) in
/-- Where installing fails, so does the import. -/
theorem run_import_of_failed (hroot : RootPath cfg.root)
    (h : Aimed cred cfg clock header t dir name)
    (hrest : payload rest = some bytes) {P : FileTree → Prop}
    (hinstall : ∀ u, Received clock dir bytes u → Unaware cred clock u dir name →
      (∀ encoding, GivesWay cred u (dir ++ [name]) encoding ↔
        GivesWay cred t (dir ++ [name]) encoding) →
      ∃ status s,
      (installObject cfg clock header (canonical (stagingPos clock dir)) (canonical (dir ++ [name]))
        (min bytes.length maxBytesWritten)).run (FileTree.exec cred now) u =
          (some (.error status), s) ∧ P s) :
    ∃ status s, (importObject cfg clock header rest).run (FileTree.exec cred now) t =
      (some (.error status), s) ∧ P s := by
  obtain ⟨u, hreceive, hreceived, hframe⟩ :=
    run_receiveObject_ok now hcred cfg clock hroot h.resolve h.below h.passable h.fresh hrest
  obtain ⟨hunaware, hgives⟩ := h.received hcred cfg hframe
  obtain ⟨status, s, hfailed, hs⟩ := hinstall u hreceived hunaware hgives
  refine ⟨status, s, ?_, hs⟩
  rw [importObject_eq, Prog.run_bind_ok _ hreceive, finishImport, stagingPath_canonical,
    Prog.run_bind, hfailed]

variable (now) in
/-- The staging file stays if what followed the header was not chunks, or they cannot be put
    at the target; the directory an archive is unpacked into stays if it cannot be. -/
theorem run_import_residue (hroot : RootPath cfg.root)
    (h : Aimed cred cfg clock header t dir name) (rest : ImportStream) :
    ∃ result s, (importObject cfg clock header rest).run (FileTree.exec cred now) t =
        (some result, s) ∧
      ((s.get? (stagingPos clock dir)).isSome ↔ payload rest = none ∨
        Stuck cred cfg.codec t (dir ++ [name]) header rest ∨
        WorkspaceObjectEncoding.ofInt header.encoding = .raw ∧
          ¬ GivesWay cred t (dir ++ [name]) .raw) ∧
      ((s.get? (extractionPos clock dir)).isSome ↔
        Stuck cred cfg.codec t (dir ++ [name]) header rest) := by
  rcases hrest : payload rest with _ | bytes
  · obtain ⟨status, s, hrun, hstaging, hextraction⟩ :=
      run_import_interrupted now hcred cfg hroot h hrest
    refine ⟨_, s, hrun, iff_of_true hstaging (Or.inl rfl), iff_of_false (by simp [hextraction]) ?_⟩
    rintro ⟨-, bytes, hbytes, -⟩
    rw [hrest] at hbytes
    cases hbytes
  · have hstuck : Stuck cred cfg.codec t (dir ++ [name]) header rest ↔
        WorkspaceObjectEncoding.ofInt header.encoding = .tarGz ∧
          (layoutOf (cfg.codec.unpack bytes) = none ∨
            ¬ GivesWay cred t (dir ++ [name]) .tarGz) := by
      simp only [Stuck, hrest, Option.some.injEq, exists_eq_left']
    have htidy : ∀ {V}, Depicts cfg.codec bytes V (.ofInt header.encoding) →
        GivesWay cred t (dir ++ [name]) (.ofInt header.encoding) → ∃ result s,
          (importObject cfg clock header rest).run (FileTree.exec cred now) t = (some result, s) ∧
          s.get? (stagingPos clock dir) = none ∧ s.get? (extractionPos clock dir) = none := by
      intro V hV hgives
      obtain ⟨response, s, hrun, hgone⟩ := run_import_tidy now hcred cfg hroot ⟨h, hgives⟩ hrest hV
      exact ⟨_, s, hrun, hgone⟩
    rw [hstuck]
    have hname := h.proper cfg hroot
    cases hencoding : WorkspaceObjectEncoding.ofInt header.encoding with
    | unspecified =>
      obtain ⟨status, s, hrun, hstaging, hextraction⟩ :=
        run_import_of_failed now hcred cfg hroot h hrest
        fun u hu _ _ => run_install_unspecified now hcred cfg hu hencoding _ _
      exact ⟨_, s, hrun, by simp [hstaging], by simp [hextraction]⟩
    | raw =>
      rw [hencoding] at htidy
      by_cases hgives : GivesWay cred t (dir ++ [name]) .raw
      · obtain ⟨result, s, hrun, hstaging, hextraction⟩ := htidy (V := fileLayout bytes) rfl hgives
        exact ⟨result, s, hrun, by simp [hstaging, hgives], by simp [hextraction]⟩
      · obtain ⟨status, s, hrun, hstaging, hextraction⟩ :=
          run_import_of_failed now hcred cfg hroot h hrest
          fun u hu _ hsame => run_install_link_raw now hcred cfg hu hencoding
            (mt (hsame .raw).mp hgives) _
        exact ⟨_, s, hrun, by simp [hstaging, hgives], by simp [hextraction]⟩
    | tarGz =>
      rw [hencoding] at htidy
      rcases hU : layoutOf (cfg.codec.unpack bytes) with _ | U
      · obtain ⟨status, s, hrun, hstaging, hextraction⟩ :=
          run_import_of_failed now hcred cfg hroot h hrest
          fun u hu _ _ => run_install_broken now hcred cfg name hu hencoding hU _
        exact ⟨_, s, hrun, by simp [hstaging], by simp [hextraction]⟩
      · by_cases hgives : GivesWay cred t (dir ++ [name]) .tarGz
        · obtain ⟨V, hV⟩ := U.exists_unwrapped
          obtain ⟨result, s, hrun, hstaging, hextraction⟩ := htidy (V := V) ⟨U, hU, hV⟩ hgives
          exact ⟨result, s, hrun, by simp [hstaging, hgives], by simp [hextraction, hgives]⟩
        · obtain ⟨status, s, hrun, hstaging, hextraction⟩ :=
            run_import_of_failed now hcred cfg hroot h hrest
            fun u hu hunaware hsame => run_install_link_archive now hcred cfg hu hencoding hU hname
              h.fresh.extraction_ne hunaware (mt (hsame .tarGz).mp hgives) _
          exact ⟨_, s, hrun, by simp [hstaging, hgives], by simp [hextraction, hgives]⟩

variable (now) in
/-- An import that is dropped while its chunks arrive leaves the staging file. -/
theorem isSome_receiveObject (hroot : RootPath cfg.root)
    (h : Aimed cred cfg clock header t dir name) (received : ImportStream) :
    ∃ result s, (receiveObject cfg clock header received).run (FileTree.exec cred now) t =
      (some result, s) ∧ (s.get? (stagingPos clock dir)).isSome := by
  obtain ⟨u, hopened, hempty⟩ :=
    run_openStaging now hcred cfg clock received hroot h.resolve h.below h.passable h.fresh
  obtain ⟨result, s, hrun, -⟩ := run_receiveObject cred now cfg hroot h.resolve List.prefix_rfl
    h.below h.fresh.straight (not_entry_above dir _) h.fresh.staging_free received
  refine ⟨result, s, hrun, ?_⟩
  have hstays : (((receiveChunks (stagingPos clock dir) received 0).run (FileTree.exec cred now)
      u).2.get? (stagingPos clock dir)).isSome :=
    isSome_receiveChunks received 0 (by rw [hempty]; rfl)
  rw [hopened, Prog.run_bind] at hrun
  rcases hchunks : (receiveChunks (stagingPos clock dir) received 0).run (FileTree.exec cred now) u
    with ⟨_ | (status | count), v⟩
  all_goals
    rw [hchunks] at hrun hstays
    obtain rfl := congrArg Prod.snd hrun
    exact hstays

end Exits

/-! ### However an import ends -/

/-- How a call ends: it returns, or it is dropped while it waits for its next message, after
    so many of them. -/
inductive Departure where
  | returned
  | dropped (messages : Nat)
deriving DecidableEq, Repr

/-- What an import does until then. -/
def importUntil (cfg : ServiceConfig) (clock : ImportClock) (stream : ImportStream) :
    Departure → Fs Status Unit
  | .returned => do
    let _ ← doImportWorkspaceObject cfg clock stream
    pure ()
  | .dropped messages =>
    match stream.take messages with
    | .ok (.header header) :: received => do
      let _ ← receiveObject cfg clock header received
      pure ()
    -- nothing has been made yet, or the call has returned
    | _ => pure ()

/-- An import cleans up: it is not dropped once its header has arrived, what follows are
    chunks, and they can be put at the target, or no encoding is named. -/
def CleansUp (cred : Cred) (codec : Codec) (t : FileTree) (target : Pos) (header : ImportHeader)
    (rest : ImportStream) : Departure → Prop
  | .dropped messages => messages = 0
  | .returned => ∃ bytes, payload rest = some bytes ∧
    match WorkspaceObjectEncoding.ofInt header.encoding with
    | .unspecified => True
    | .raw => GivesWay cred t target .raw
    | .tarGz => GivesWay cred t target .tarGz ∧ (layoutOf (codec.unpack bytes)).isSome

end Scriptorium
