import Scriptorium.ImportRun
import Scriptorium.ResolvePath

/-!
# Rejected imports

An import is rejected for its stream, its encoding, its id, its target, or for what is in
its archive.  All of this is found out before anything is removed (`run_import_rejected`).
-/

namespace Scriptorium

open Posix Effects

/-- What an archive may not hold: data that cannot be decoded, entries that are cut short,
    that lead out of the directory, or that are neither files nor directories.  Of a
    directory no data is read; the item behind it tells when it is cut short. -/
def TarItem.Refused : TarItem → Prop
  | .broken _ => True
  | .entry e complete =>
    isAbsolute e.path = true ∨ .parentDir ∈ PathBuf.ofString e.path ∨
      ¬ (e.kind = .regular ∨ e.kind = .directory) ∨
      (complete = false ∧ e.unpacksAsDir = false ∧ entryNames (PathBuf.ofString e.path) ≠ some [])

instance (item : TarItem) : Decidable item.Refused :=
  match item with
  | .broken _ => isTrue trivial
  | .entry _ _ => inferInstanceAs (Decidable (_ ∨ _ ∨ _ ∨ _))

/-- The streams that are to be rejected. -/
def Rejected (cfg : ServiceConfig) : ImportStream → Prop
  | .ok (.header header) :: rest =>
    (∀ path, resolvePath cfg.root header.workspaceId header.targetPath ≠ .ok path) ∨
      payload rest = none ∨
      WorkspaceObjectEncoding.ofInt header.encoding = .unspecified ∨
      (WorkspaceObjectEncoding.ofInt header.encoding = .tarGz ∧
        ∃ bytes, payload rest = some bytes ∧ ∃ item ∈ cfg.codec.unpack bytes, item.Refused)
  | _ => True

section Extract

variable {cred : Cred} {now : Nat} {t : FileTree}

/-- A file that is cut short is not unpacked. -/
theorem unpackEntry_complete {e : TarEntry} {path : PathBuf} (hfile : e.unpacksAsDir = false) :
    ((unpackEntry e false path).run (FileTree.exec cred now) t).1 ≠ some (.ok ()) := by
  intro h
  rw [unpackEntry, hfile] at h
  obtain ⟨handle, s, -, h⟩ := Prog.ok_of_run_bind _ h
  obtain ⟨_, s', -, h⟩ := Prog.ok_of_run_bind _ h
  cases h

/-- Only entries that are not refused are extracted. -/
theorem extractItem_accepts {extractionRoot : PathBuf} {item : TarItem}
    (h : ((extractItem extractionRoot item).run (FileTree.exec cred now) t).1 = some (.ok ())) :
    ¬ item.Refused := by
  cases item with
  | broken message => cases h
  | entry e complete =>
    rw [extractItem] at h
    split at h
    · cases h
    · rename_i hinside
      simp only [Bool.or_eq_true, not_or, List.contains_iff_mem] at hinside
      split at h
      · rename_i hkind
        rintro (habsolute | hparent | hother | ⟨rfl, hfile, hnames⟩)
        · exact hinside.1 habsolute
        · exact hinside.2 hparent
        · exact hother hkind
        · obtain ⟨_, s, hrun, -⟩ := Prog.ok_of_run_bind _ h
          have hio := Prog.eq_of_run_mapError_ok _ (congrArg Prod.fst hrun)
          rw [unpackIn] at hio
          split at hio
          · rename_i hnone
            simp [entryNames, hinside.2] at hnone
          · rename_i hempty
            exact hnames hempty
          · obtain ⟨_, _, -, hio⟩ := Prog.ok_of_run_bind _ hio
            obtain ⟨_, _, -, hio⟩ := Prog.ok_of_run_bind _ hio
            obtain ⟨_, _, hunpack, -⟩ := Prog.ok_of_run_bind _ hio
            exact unpackEntry_complete hfile
              (Prog.eq_of_run_mapError_ok _ (congrArg Prod.fst hunpack))
      · cases h

theorem extractItems_accepts {extractionRoot : PathBuf} {items : List TarItem}
    (h : ((extractItems extractionRoot items).run (FileTree.exec cred now) t).1 = some (.ok ())) :
    ∀ item ∈ items, ¬ item.Refused := by
  induction items generalizing t with
  | nil => exact fun _ h => nomatch h
  | cons item items ih =>
    obtain ⟨_, s, hitem, hrest⟩ := Prog.ok_of_run_bind _ h
    rw [List.forall_mem_cons]
    constructor
    · exact extractItem_accepts (congrArg Prod.fst hitem)
    · exact ih hrest

variable {clock : ImportClock} {dir : Pos} {name : String} {bytes : List UInt8}

/-- What is read from the staging file is what it holds. -/
theorem read_staging (hfirm : FirmAbove t dir) {attrs : Attrs}
    (hstaging : t.get? (stagingPos clock dir) = some ⟨.file bytes false, attrs⟩)
    {contents : Contents}
    (h : t.read cred (canonical (stagingPos clock dir)) = .ok contents) : contents.data =
      bytes := by
  have hordinary : FileTree.Ordinary (.of [stagingPos clock dir]) t := by
    intro q node hq hnode
    rcases Region.seen_of_entry.mp hq with hq | ⟨rest, rfl⟩
    · exact hfirm q node hq hnode
    · rw [← stagingPos] at hnode
      cases rest with
      | nil =>
        rw [List.append_nil, hstaging] at hnode
        rw [← Option.some.inj hnode]
        rfl
      | cons first rest =>
        rw [FileTree.get?_append_eq_none hstaging rfl] at hnode
        cases hnode
  have hseen : (Region.of [stagingPos clock dir]).Seen (stagingPos clock dir) :=
    Region.seen_of_entry.mpr (Or.inr List.prefix_rfl)
  unfold FileTree.read at h
  split at h
  · cases h
  · rename_i p node hfind
    obtain rfl := hordinary.clear.find_eq hseen hfind
    obtain rfl : node = ⟨.file bytes false, attrs⟩ := by
      have hnode := (FileTree.find_eq_ok hfind).2
      rw [hstaging] at hnode
      exact (Option.some.inj hnode).symm
    split at h
    · rw [← Except.ok.inj h]
    · cases h

/-- What is unpacked is what was received. -/
theorem extractArchive_reads {codec : Codec} (h : Received clock dir bytes t)
    (hok : ((extractArchive codec (canonical (stagingPos clock dir))
      (canonical (extractionPos clock dir))).run (FileTree.exec cred now) t).1 = some (.ok ())) :
    ∃ s, ((extractItems (canonical (extractionPos clock dir)) (codec.unpack bytes)).run
      (FileTree.exec cred now) s).1 = some (.ok ()) := by
  -- only the extraction directory is written to before the staging file is read
  let R := Region.of [extractionPos clock dir]
  have hroot : Inside R (canonical (extractionPos clock dir)) := ⟨_, Region.own_of_entry, rfl⟩
  have hunseen : ¬ R.Seen (stagingPos clock dir) := by
    intro hseen
    rcases Region.seen_of_entry.mp hseen with hpre | hpre
    · exact absurd hpre.length_le (by simp [stagingPos])
    · exact (extraction_apart clock dir).1 hpre
  obtain ⟨attrs, hstaging⟩ := h.staging
  have hkept : ∀ {α ε : Type} {W : α → Prop} {m : Fs ε α} {s s' : FileTree} {r},
      Stays R W m → m.run (FileTree.exec cred now) s = (r, s') →
      FileTree.Ordinary R s ∧ s.get? (stagingPos clock dir) = some ⟨.file bytes false, attrs⟩ →
      FileTree.Ordinary R s' ∧ s'.get? (stagingPos clock dir) =
        some ⟨.file bytes false, attrs⟩ := by
    rintro α ε W m s s' r hm hrun ⟨hs, hfile⟩
    obtain ⟨hordinary, hsame⟩ := keeps_minds cred now (hm.weaken fun _ => Or.inl) hs
    rw [hrun] at hordinary hsame
    exact ⟨hordinary, (hsame _ hunseen).trans hfile⟩
  have hstart : FileTree.Ordinary R t := by
    intro q node hq hnode
    rcases Region.seen_of_entry.mp hq with hq | hq
    · exact firmAbove_of_isDir h.isDir q node hq hnode
    · rw [FileTree.get?_none_below h.extraction_free hq] at hnode
      cases hnode
  have hcreate : Stays R (fun _ => True)
      (io (createDirAll (canonical (extractionPos clock dir)))) :=
    stays_io (stays_createDirAll hroot.near)
  have hread : ∀ {s}, FileTree.Ordinary R s ∧
        s.get? (stagingPos clock dir) = some ⟨.file bytes false, attrs⟩ →
      ((do
        io (createDirAll (canonical (extractionPos clock dir)))
        let archive ← io (sys (.read (canonical (stagingPos clock dir))))
        extractItems (canonical (extractionPos clock dir)) (codec.unpack archive.data)
          : Fs Error Unit).run (FileTree.exec cred now) s).1 = some (.ok ()) →
      ∃ s', ((extractItems (canonical (extractionPos clock dir)) (codec.unpack bytes)).run
        (FileTree.exec cred now) s').1 = some (.ok ()) := by
    intro s hs hok
    obtain ⟨_, s₁, hrun₁, hok⟩ := Prog.ok_of_run_bind _ hok
    have hs₁ := hkept hcreate hrun₁ hs
    obtain ⟨archive, s₂, hrun₂, hok⟩ := Prog.ok_of_run_bind _ hok
    have harchive := eq_of_run_sys_ok (Prog.eq_of_run_mapError_ok _ (congrArg Prod.fst hrun₂))
    have hdata : archive.data = bytes :=
      read_staging (fun q node hq => hs₁.1 q node (Region.seen_of_entry.mpr (Or.inl hq))) hs₁.2
        harchive
    rw [hdata] at hok
    exact ⟨s₂, hok⟩
  obtain ⟨present, s₁, hrun₁, hok⟩ := Prog.ok_of_run_bind _ hok
  have hs₁ := hkept (stays_pathExists hroot.near) hrun₁ ⟨hstart, hstaging⟩
  split at hok
  · obtain ⟨_, s₂, hrun₂, hok⟩ := Prog.ok_of_run_bind _ hok
    exact hread (hkept (stays_io (stays_call (c := .removeDirAll _) hroot)) hrun₂ hs₁) hok
  · exact hread hs₁ hok

end Extract

/-! ### Rejections -/

section Rejections

variable (cfg : ServiceConfig) (clock : ImportClock) {header : ImportHeader} {rest : ImportStream}
  {cred : Cred} {now : Nat} {t : FileTree} {dir : Pos} {name : String} {bytes : List UInt8}

variable (cred now t header rest) in
/-- Without a target to resolve to, an import ends with the home made. -/
theorem run_import_unresolved
    (hnone : ∀ path, resolvePath cfg.root header.workspaceId header.targetPath ≠ .ok path) :
    ∃ status, ((importObject cfg clock header rest).run (FileTree.exec cred now) t).1 =
      some (.error status) := by
  obtain ⟨result, hresult⟩ := Option.isSome_iff_exists.mp
    (prepareTarget_isSome cred now t cfg header)
  rw [importObject_eq, receiveObject, Prog.bind_assoc, Prog.run_bind]
  rcases hrun : (prepareTarget cfg header).run (FileTree.exec cred now) t with ⟨r, s⟩
  rw [hrun] at hresult
  obtain rfl : r = some result := hresult
  rcases result with status | path
  · exact ⟨status, rfl⟩
  · obtain ⟨_, s₁, -, hrest⟩ := Prog.run_bind_eq_ok _ hrun
    obtain ⟨target, s₂, htarget, -⟩ := Prog.run_bind_eq_ok _ hrest
    have hok := congrArg Prod.fst (Prog.run_mapError_eq_ok _ htarget)
    exact absurd (Option.some.inj hok) (hnone target)

/-- Making the directory of the target again changes nothing of what was received. -/
theorem Received.createDirAll (h : Received clock dir bytes t) {s : FileTree}
    (hrun : (io (createDirAll (canonical dir))).run (FileTree.exec cred now) t =
      (some (.ok ()), s)) :
    Received clock dir bytes s := by
  have hnear : Near (wayTo dir) (canonical dir) :=
    ⟨dir, seen_wayTo.mpr (Or.inl List.prefix_rfl), rfl⟩
  have hordinary := (firmAbove_of_isDir h.isDir).ordinary
  obtain ⟨-, hsame⟩ :=
    keeps_minds cred now ((stays_io (stays_createDirAll hnear)).weaken fun _ => Or.inl) hordinary
  rw [hrun] at hsame
  refine ⟨?_, ?_, ?_⟩
  · exact isDir_of_createDirAll (seen_wayTo.mpr (Or.inl List.prefix_rfl)) hordinary.clear
      (Prog.run_mapError_eq_ok _ hrun)
  · obtain ⟨attrs, hstaging⟩ := h.staging
    exact ⟨attrs, (same_of_wayTo hsame (not_entry_above dir _)).trans hstaging⟩
  · exact (same_of_wayTo hsame (not_entry_above dir _)).trans h.extraction_free

variable (cred now name)

/-- An archive that may not be extracted is rejected, and only beside the target something
    has been written. -/
theorem run_import_refused (h : Received clock dir bytes t) {codec : Codec} {item : TarItem}
    (hitem : item ∈ codec.unpack bytes) (hrefused : item.Refused) :
    ∃ e s, (replaceWorkspaceDirectoryFromArchivePath codec clock.expand
        (canonical (stagingPos clock dir)) (canonical (dir ++ [name]))).run
          (FileTree.exec cred now) t =
          (some (.error e), s) ∧
      ∀ q, ¬ (beside clock dir).Seen q → s.get? q = t.get? q := by
  let extract : Fs Error Unit := do
    io (createDirAll (canonical dir))
    extractArchive codec (canonical (stagingPos clock dir)) (canonical (extractionPos clock dir))
  have heq : replaceWorkspaceDirectoryFromArchivePath codec clock.expand
      (canonical (stagingPos clock dir)) (canonical (dir ++ [name])) = extract >>= fun _ =>
        Replacement.tree.phase (canonical (stagingPos clock dir))
          (canonical (extractionPos clock dir))
          (canonical (dir ++ [name])) := by
    rw [replaceWorkspaceDirectoryFromArchivePath, extractionPath_canonical, parentOrDot_canonical,
      extractArchiveAndReplace_eq]
    simp only [extract, Prog.bind_assoc]
  have hstays : Stays (beside clock dir) (fun _ => True) extract := by
    apply Prog.within_bind (stays_io (stays_createDirAll ⟨dir, seen_above List.prefix_rfl, rfl⟩))
    intro _ _
    exact stays_extractArchive ⟨_, staging_own, rfl⟩ ⟨_, extraction_own, rfl⟩ codec
  have hprompt : Prompt extract := by
    apply Prog.ends_bind (prompt_io (prompt_createDirAll _))
    intro _
    exact prompt_extractArchive _ _ _
  obtain ⟨result, s, hrun, -, -, hsame⟩ :=
    run_minds cred now (hstays.weaken fun _ => Or.inl) hprompt h.ordinary
  rcases result with e | _
  · rw [heq, Prog.run_bind, hrun]
    exact ⟨e, s, rfl, hsame⟩
  · exfalso
    obtain ⟨_, s₁, hmade, hextracted⟩ := Prog.ok_of_run_bind _ (congrArg Prod.fst hrun)
    obtain ⟨s₂, hitems⟩ := extractArchive_reads (h.createDirAll clock hmade) hextracted
    exact extractItems_accepts hitems item hitem hrefused

/-- Without an encoding, the staging file is removed again. -/
theorem run_import_unspecified (h : Received clock dir bytes t)
    (hencoding : WorkspaceObjectEncoding.ofInt header.encoding = .unspecified) (target : PathBuf)
    (count : Nat) :
    ∃ status s, (installObject cfg clock header (canonical (stagingPos clock dir)) target count).run
        (FileTree.exec cred now) t = (some (.error status), s) ∧
      ∀ q, ¬ (beside clock dir).Seen q → s.get? q = t.get? q := by
  have hstays : Stays (beside clock dir) (fun _ => True)
      (ignore (sys (.unlink (canonical (stagingPos clock dir)))) : Fs Status Unit) :=
    stays_ignore (stays_call (c := .unlink _) ⟨_, staging_own, rfl⟩)
  obtain ⟨result, s, hrun, -, -, hsame⟩ := run_minds cred now
    (hstays.weaken fun _ => Or.inl) (prompt_ignore (prompt_sys _)) h.ordinary
  simp only [installObject, hencoding]
  rw [Prog.run_bind, hrun]
  rcases result with status | _
  · exact ⟨status, s, rfl, hsame⟩
  · exact ⟨_, s, rfl, hsame⟩

/-- An import that is to be rejected writes only beside its target. -/
theorem run_import_rejected (hroot : RootPath cfg.root)
    (hresolve : resolvePath cfg.root header.workspaceId header.targetPath =
      .ok (canonical (dir ++ [name])))
    (hhome : homePos cfg.root header.workspaceId <+: dir) (hfree : Fresh clock t dir name)
    (hrejected : Rejected cfg (.ok (.header header) :: rest)) :
    ∃ status s, (importObject cfg clock header rest).run (FileTree.exec cred now) t =
        (some (.error status), s) ∧
      ∀ q, ¬ (beside clock dir).Seen q → s.get? q = t.get? q := by
  obtain ⟨result, s, hrun, hsame, hreceived⟩ :=
    run_receiveObject_fresh cred now cfg hroot hresolve hhome hfree rest
  have hframe : ∀ q, ¬ (beside clock dir).Seen q → s.get? q = t.get? q := by
    intro q hq
    rw [seen_beside, not_or, not_or] at hq
    exact hsame q hq.1 hq.2.1
  rw [importObject_eq, Prog.run_bind, hrun]
  rcases result with status | received
  · exact ⟨status, s, rfl, hframe⟩
  · obtain ⟨bytes, hbytes, rfl, hs⟩ := hreceived received rfl
    suffices h : ∃ status s', (installObject cfg clock header (canonical (stagingPos clock dir))
        (canonical (dir ++ [name])) (min bytes.length maxBytesWritten)).run
          (FileTree.exec cred now) s =
          (some (.error status), s') ∧ ∀ q, ¬ (beside clock dir).Seen q → s'.get? q = s.get? q by
      obtain ⟨status, s', hinstall, hsame'⟩ := h
      refine ⟨status, s', ?_, fun q hq => (hsame' q hq).trans (hframe q hq)⟩
      dsimp only
      rw [finishImport, stagingPath_canonical, Prog.run_bind, hinstall]
    rcases hrejected with hnone | hnone | hencoding
      | ⟨hencoding, bytes', hbytes', item, hitem, hrefused⟩
    · exact absurd hresolve (hnone _)
    · rw [hbytes] at hnone
      cases hnone
    · exact run_import_unspecified cfg clock cred now hs hencoding _ _
    · obtain rfl : bytes = bytes' := Option.some.inj (hbytes.symm.trans hbytes')
      obtain ⟨e, s', hrun', hsame'⟩ := run_import_refused clock cred now name hs hitem hrefused
      refine ⟨e.toStatus, s', ?_, hsame'⟩
      simp only [installObject, hencoding]
      rw [Prog.run_bind, rpc, Prog.run_mapError, hrun']
      rfl

end Rejections

/-! ### Imports into one home -/

/-- A service with its workspaces under `/srv`, to which no archive can be decoded. -/
def importConfig : ServiceConfig where
  root := "/srv"
  agentUid := 1000
  agentGid := 1000
  fetch := ⟨30, 1048576, false⟩
  oss := ⟨"", 8388608, 8388608, 600, ⟨none, .ok "upload", fun _ => none, none, none⟩⟩
  codec := ⟨fun _ => [], fun _ => [.broken "failed to iterate over archive"]⟩
  sha256 := fun _ => ""

/-- An import into the home of `w1` that ends with an empty message. -/
def brokenStream (targetPath : String) : ImportStream :=
  [.ok (.header ⟨"w1", targetPath, 1, ""⟩), .ok (.chunk [1]), .ok .empty]

end Scriptorium
