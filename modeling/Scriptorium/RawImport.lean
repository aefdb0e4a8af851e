import Scriptorium.RejectedImport

/-!
# Raw imports

A raw import puts a file with exactly the bytes of its chunks at its target, whatever
stood there, and otherwise only makes the way to it: `raw_import_exact`.
-/

namespace Scriptorium

open Posix Effects

section Install

variable {cred : Cred} {now : Nat} {t s : FileTree} {R : Region} {p : Pos}

theorem exec_of_run_io_ok {c : FsCall} {out : c.Out}
    (h : (io (sys c)).run (FileTree.exec cred now) t = (some (.ok out), s)) :
    FileTree.exec cred now c t = (.ok out, s) :=
  exec_of_run_sys_ok (Prog.run_mapError_eq_ok _ h)

/-- A removal that succeeds leaves nothing at its path, and changes nothing else. -/
theorem get?_of_removePathIfExists (ht : FileTree.Clear R t) (hp : R.Seen p)
    (h : (removePathIfExists (canonical p)).run (FileTree.exec cred now) t = (some (.ok ()), s))
    (q : Pos) :
    s.get? q = if p <+: q then none else t.get? q := by
  obtain ⟨r, u, hattempt, hrun⟩ := Prog.run_bind_eq_ok _ h
  have hask := Prog.run_attempt_eq_ok _ hattempt
  obtain rfl : u = t := by
    have hstate := congrArg Prod.snd hask
    rw [run_sys_state] at hstate
    exact hstate.symm
  -- what is removed is the entry of the path
  have hremoved : ∀ {dir name}, u.slot cred (canonical p) = .ok (dir, name) →
      s = u.removeAt dir name → s.get? q = if p <+: q then none else u.get? q := by
    rintro dir name hslot rfl
    rw [FileTree.get?_removeAt, ht.slot_eq hp hslot]
  split at hrun
  · have hexec : u.removeDirAll cred (canonical p) = (.ok (), s) := exec_of_run_io_ok hrun
    rcases FileTree.removeDirAll_cases cred u (canonical p) with
      ⟨e, he⟩ | ⟨dir, name, _, hslot, -, hremove⟩
    · rw [he] at hexec
      cases hexec
    · rw [hremove] at hexec
      exact hremoved hslot (congrArg Prod.snd hexec).symm
  · have hexec : u.unlink cred (canonical p) = (.ok (), s) := exec_of_run_io_ok hrun
    rcases FileTree.unlink_cases cred u (canonical p) with
      ⟨e, he⟩ | ⟨dir, name, _, hslot, -, -, hremove⟩
    · rw [he] at hexec
      cases hexec
    · rw [hremove] at hexec
      exact hremoved hslot (congrArg Prod.snd hexec).symm
  · obtain rfl : s = u := (congrArg Prod.snd hrun).symm
    obtain ⟨e, heq, hexec⟩ := exec_of_run_sys_error hask
    obtain rfl := IoError.os.inj heq
    have hfind : s.find cred (canonical p) = .error .noent := by
      simp only [FileTree.exec, Prod.mk.injEq, and_true] at hexec
      rcases hfind : s.find cred (canonical p) with e | found
      · rw [hfind, Except.map] at hexec
        rw [Except.error.inj hexec]
      · rw [hfind] at hexec
        cases hexec
    by_cases hq : p <+: q
    · rw [if_pos hq, FileTree.get?_none_below (ht.get?_of_find_noent hp hfind) hq]
    · rw [if_neg hq]
  · cases hrun

/-- A rename that succeeds has moved what stood at its source. -/
theorem get?_of_rename {R' : Region} {src dst : Pos} (ht : FileTree.Clear R t) (hsrc : R.Seen src)
    (ht' : FileTree.Clear R' t) (hdst : R'.Seen dst) (hne : src ≠ dst)
    (h : t.rename cred (canonical src) (canonical dst) = (.ok (), s)) (q : Pos) :
    s.get? q = if dst <+: q then t.get? (src ++ q.drop dst.length)
      else if src <+: q then none else t.get? q := by
  rcases FileTree.rename_cases cred t (canonical src) (canonical dst) with
    ⟨e, he⟩ | ⟨dir, name, hs, hd, -⟩ |
    ⟨srcDir, srcName, dir, name, _, _, _, _, _, _, hs, hd, -, -, hmove⟩
  · rw [he] at h
    cases h
  · exact absurd ((ht.slot_eq hsrc hs).symm.trans (ht'.slot_eq hdst hd)) hne
  · rw [hmove] at h
    obtain rfl : _ = s := congrArg Prod.snd h
    rw [FileTree.get?_replaceAt, ht.slot_eq hsrc hs, ← ht'.slot_eq hdst hd, List.length_append,
      List.length_singleton]

/-- Only what is there can be renamed. -/
theorem isSome_of_rename {src : Pos} {dst : PathBuf} (ht : FileTree.Clear R t) (hsrc : R.Seen src)
    (h : t.rename cred (canonical src) dst = (.ok (), s)) : (t.get? src).isSome := by
  unfold FileTree.rename at h
  split at h
  · cases h
  · rename_i dir name hslot
    rw [← ht.slot_eq hsrc hslot]
    split at h
    · cases h
    · split at h
      · cases h
      · rename_i node hnode
        rw [hnode]
        rfl

variable (cred now) in
/-- Where nothing is, nothing is removed. -/
theorem run_ignore_unlink {ε : Type} (ht : FileTree.Clear R t) (hp : R.Seen p)
    (hnone : t.get? p = none) :
    ((ignore (sys (.unlink (canonical p))) : Fs ε Unit).run (FileTree.exec cred now) t).2 = t := by
  have hsame : (FileTree.exec cred now (.unlink (canonical p)) t).2 = t := by
    simp only [FileTree.exec]
    rcases FileTree.unlink_cases cred t (canonical p) with
      ⟨e, he⟩ | ⟨dir, name, node, hslot, hnode, -, -⟩
    · rw [he]
    · rw [ht.slot_eq hp hslot, hnone] at hnode
      cases hnode
  obtain ⟨r, hr⟩ : ∃ r, (sys (.unlink (canonical p))).run (FileTree.exec cred now) t = (r, t) :=
    ⟨_, Prod.ext rfl (run_sys_state.trans hsame)⟩
  rw [ignore, Prog.run_bind, Prog.run_attempt, hr]
  cases r <;> rfl

variable (cred now) in
/-- A directory that is there is not made again. -/
theorem get?_createDirAll {dir : Pos} (hdir : t.isDir dir = true) (q : Pos) :
    ((createDirAll (canonical dir)).run (FileTree.exec cred now) t).2.get? q = t.get? q := by
  have hclear := (firmAbove_of_isDir hdir).ordinary.clear
  have hnear : Near (wayTo dir) (canonical dir) :=
    ⟨dir, seen_wayTo.mpr (Or.inl List.prefix_rfl), rfl⟩
  rcases keeps_made cred now (stays_createDirAll hnear) hclear q with hsame | ⟨hq, hnone, -⟩
  · exact hsame
  · have hsome := FileTree.isSome_above (FileTree.isSome_of_isDir hdir) hq
    rw [hnone] at hsome
    cases hsome

end Install

section Exact

variable {cfg : ServiceConfig} {clock : ImportClock} {cred : Cred} {now : Nat} {t s : FileTree}
  {header : ImportHeader} {dir : Pos} {name : String}

/-- The staging file takes the place of what stood at the target. -/
theorem replace_installs {bytes : List UInt8} {attrs : Attrs} (hdir : t.isDir dir = true)
    (hlinks : Straight t (dir ++ [name]))
    (hstaging : t.get? (stagingPos clock dir) = some ⟨.file bytes false, attrs⟩)
    (hrun : (replaceWorkspaceFileFromStaging (canonical (stagingPos clock dir))
      (canonical (dir ++ [name]))).run (FileTree.exec cred now) t = (some (.ok ()), s)) :
    stagingPos clock dir ≠ dir ++ [name] ∧ ∀ q, s.get? q =
      if dir ++ [name] <+: q then t.get? (stagingPos clock dir ++ q.drop (dir ++ [name]).length)
      else if stagingPos clock dir <+: q then none else t.get? q := by
  rw [replaceWorkspaceFileFromStaging, PathBuf.parent_canonical_concat] at hrun
  obtain ⟨_, u, hmade, hrun⟩ := Prog.run_bind_eq_ok _ hrun
  obtain ⟨_, v, hremoved, hrun⟩ := Prog.run_bind_eq_ok _ hrun
  have hrename : v.rename cred (canonical (stagingPos clock dir)) (canonical (dir ++ [name])) =
      (.ok (), s) := exec_of_run_io_ok hrun
  have hu : ∀ q, u.get? q = t.get? q := by
    intro q
    have hsame := get?_createDirAll cred now hdir q
    rwa [Prog.run_mapError_eq_ok _ hmade] at hsame
  have hplace : ∀ {p}, (wayTo p).Seen p := seen_wayTo.mpr (Or.inl List.prefix_rfl)
  have hclear : FileTree.Clear (wayTo (dir ++ [name])) u := by
    apply Straight.clear
    intro q node hq hnode
    exact hlinks q node hq ((hu q).symm.trans hnode)
  have hv := get?_of_removePathIfExists hclear hplace hremoved
  -- nothing on the way to either name is a link
  have hclear' : FileTree.Clear (wayTo (dir ++ [name])) v := by
    apply Straight.clear
    intro q node hq hnode
    rw [hv] at hnode
    split at hnode
    · cases hnode
    · exact hlinks q node hq ((hu q).symm.trans hnode)
  have hstraight : FileTree.Clear (wayTo (stagingPos clock dir)) v := by
    apply Straight.clear
    intro q node hq hnode
    rw [hv] at hnode
    split at hnode
    · cases hnode
    · rw [hu] at hnode
      rcases List.prefix_concat_iff.mp hq with rfl | hq
      · rw [← stagingPos, hstaging] at hnode
        rw [← Option.some.inj hnode]
        rfl
      · exact hlinks q node (hq.trans (List.prefix_append _ _)) hnode
  have hne : stagingPos clock dir ≠ dir ++ [name] := by
    intro heq
    have hsome := isSome_of_rename hstraight hplace hrename
    rw [hv, heq, if_pos List.prefix_rfl] at hsome
    cases hsome
  have hapart : ∀ rest, ¬ dir ++ [name] <+: stagingPos clock dir ++ rest := by
    intro rest hpre
    have hlength : (dir ++ [name]).length = (stagingPos clock dir).length := by simp [stagingPos]
    have heq := List.prefix_of_prefix_length_le hpre (List.prefix_append _ rest) hlength.le
    exact hne (heq.eq_of_length hlength).symm
  refine ⟨hne, fun q => ?_⟩
  rw [get?_of_rename hstraight hplace hclear' hplace hne hrename]
  split
  · rw [hv, if_neg (hapart _), hu]
  · rename_i hq
    split
    · rfl
    · rw [hv, if_neg hq, hu]

variable (clock) in
/-- The way that is made leads to the directory of the target, or to the home when that is
    the target. -/
theorem exists_way (hroot : RootPath cfg.root)
    (hresolve : resolvePath cfg.root header.workspaceId header.targetPath =
      .ok (canonical (dir ++ [name]))) :
    ∃ way, dir <+: way ∧ homePos cfg.root header.workspaceId <+: way ∧ way <+: dir ++ [name] ∧
      ¬ stagingPos clock dir <+: way := by
  obtain ⟨-, q, hq, hhome, -⟩ := resolvePath_eq_ok hroot hresolve
  obtain rfl := canonical_injective hq
  rcases List.prefix_concat_iff.mp hhome with heq | hbelow
  · refine ⟨dir ++ [name], List.prefix_append _ _, hhome, List.prefix_rfl, ?_⟩
    apply Site.siblings_apart
    rintro rfl
    have hname : transferName "import" clock.staging = "home" := by
      have hlast := congrArg List.getLast? heq
      simpa [homePos] using hlast.symm
    simp [transferName, String.ext_iff] at hname
  · exact ⟨dir, List.prefix_rfl, hbelow, List.prefix_append _ _, not_entry_above dir _⟩

/-- Receiving puts no link on the way to the target. -/
theorem straight_received {home : Pos} {bytes : List UInt8} {attrs : Attrs}
    (hlinks : Straight t (dir ++ [name]))
    (hpaved : ∀ q, ¬ stagingPos clock dir <+: q → Paved home t s q)
    (hfile : s.get? (stagingPos clock dir) = some ⟨.file bytes false, attrs⟩) :
    Straight s (dir ++ [name]) := by
  intro q node hq hnode
  by_cases hbelow : stagingPos clock dir <+: q
  · have hlength : q.length ≤ (stagingPos clock dir).length :=
      hq.length_le.trans_eq (by simp [stagingPos])
    rw [← hbelow.eq_of_length_le hlength, hfile] at hnode
    rw [← Option.some.inj hnode]
    rfl
  · rcases hpaved q hbelow with hsame | ⟨-, hmade⟩ | ⟨-, old, attrs', hold, hnew⟩
    · exact hlinks q node hq (hsame.symm.trans hnode)
    · obtain ⟨node', hnode', hkind⟩ := FileTree.isDir_iff.mp hmade
      obtain rfl := Option.some.inj (hnode.symm.trans hnode')
      rw [Node.isLink, Node.isDir_iff.mp hkind]
    · obtain rfl := Option.some.inj (hnode.symm.trans hnew)
      exact hlinks q old hq hold

/-- A raw import that has received its object moves the staging file, and leaves none. -/
theorem finishImport_places (hraw : WorkspaceObjectEncoding.ofInt header.encoding = .raw)
    {bytes : List UInt8} {attrs : Attrs} {count : Nat} {response : ImportResponse}
    (hdir : t.isDir dir = true) (hlinks : Straight t (dir ++ [name]))
    (hfile : t.get? (stagingPos clock dir) = some ⟨.file bytes false, attrs⟩)
    (hrun : (finishImport cfg clock header (canonical (dir ++ [name]), count)).run
      (FileTree.exec cred now) t = (some (.ok response), s)) :
    response.bytesWritten = count ∧ ∀ q, s.get? q =
      if dir ++ [name] <+: q then t.get? (stagingPos clock dir ++ q.drop (dir ++ [name]).length)
      else if stagingPos clock dir <+: q then none else t.get? q := by
  rw [finishImport, stagingPath_canonical] at hrun
  obtain ⟨response', u, hinstall, hrun⟩ := Prog.run_bind_eq_ok _ hrun
  obtain ⟨_, v, hignore, hrun⟩ := Prog.run_bind_eq_ok _ hrun
  obtain ⟨heq, rfl⟩ := Prod.mk.inj hrun
  obtain rfl := Except.ok.inj (Option.some.inj heq)
  simp only [installObject, hraw] at hinstall
  obtain ⟨_, w, hreplace, hinstall⟩ := Prog.run_bind_eq_ok _ hinstall
  obtain ⟨heq, rfl⟩ := Prod.mk.inj hinstall
  obtain rfl := Except.ok.inj (Option.some.inj heq)
  obtain ⟨hne, hplaced⟩ := replace_installs hdir hlinks hfile (Prog.run_mapError_eq_ok _ hreplace)
  have hapart : ¬ dir ++ [name] <+: stagingPos clock dir := by
    apply Site.siblings_apart
    rintro rfl
    exact hne rfl
  -- the staging file has been moved, so there is none to remove
  have hnone : w.get? (stagingPos clock dir) = none := by
    rw [hplaced, if_neg hapart, if_pos List.prefix_rfl]
  have hclear : FileTree.Clear (wayTo (stagingPos clock dir)) w := by
    apply Straight.clear
    intro q node hq hnode
    rcases List.prefix_concat_iff.mp hq with rfl | hq
    · rw [← stagingPos, hnone] at hnode
      cases hnode
    · have hplace : ¬ dir ++ [name] <+: q := fun h => not_entry_above dir name (h.trans hq)
      have hbeside : ¬ stagingPos clock dir <+: q := fun h => not_entry_above dir _ (h.trans hq)
      rw [hplaced, if_neg hplace, if_neg hbeside] at hnode
      exact hlinks q node (hq.trans (List.prefix_append _ _)) hnode
  obtain rfl : v = w := by
    have hstate := run_ignore_unlink cred now (ε := Status) hclear
      (seen_wayTo.mpr (Or.inl List.prefix_rfl)) hnone
    rw [hignore] at hstate
    exact hstate
  exact ⟨rfl, hplaced⟩

variable (cfg clock cred now) in
/-- **Raw imports.**  Where no link is at the target or on the way to it, and the name of
    the staging file is free, a raw import that succeeds leaves at its target a file with
    exactly the bytes of its chunks, and counts them; nothing else changes, but that
    missing directories above the target are made and the home is given to the agent. -/
theorem raw_import_exact (hroot : RootPath cfg.root) (t : FileTree) (header : ImportHeader)
    (hraw : WorkspaceObjectEncoding.ofInt header.encoding = .raw) (chunks : List (List UInt8))
    (dir : Pos) (name : String)
    (hresolve : resolvePath cfg.root header.workspaceId header.targetPath =
      .ok (canonical (dir ++ [name])))
    (hfree : t.get? (stagingPos clock dir) = none) (hlinks : Straight t (dir ++ [name]))
    (response : ImportResponse) (s : FileTree)
    (hrun : (doImportWorkspaceObject cfg clock
        (.ok (.header header) :: chunks.map fun data => .ok (.chunk data))).run
      (FileTree.exec cred now) t = (some (.ok response), s)) :
    (∃ attrs, s.get? (dir ++ [name]) = some ⟨.file chunks.flatten false, attrs⟩) ∧
      response.bytesWritten = min chunks.flatten.length maxBytesWritten ∧
      (∀ q, dir ++ [name] <+: q → q ≠ dir ++ [name] → s.get? q = none) ∧
      ∀ q, ¬ dir ++ [name] <+: q → s.get? q = t.get? q ∨
        (q <+: dir ∧ t.get? q = none ∧ s.isDir q = true) ∨
        (q = homePos cfg.root header.workspaceId ∧
          ∃ node attrs, t.get? q = some node ∧ s.get? q = some { node with attrs }) := by
  obtain ⟨way, hdir, hhome, hway, hstaging⟩ := exists_way clock hroot hresolve
  obtain ⟨result, u, hreceive, hframe, hreceived⟩ :=
    run_receiveObject cred now cfg hroot hresolve hdir
    hhome (fun q node hq => hlinks q node (hq.trans hway)) hstaging hfree
    (chunks.map fun data => .ok (.chunk data))
  rw [doImportWorkspaceObject, importObject_eq, Prog.run_bind, hreceive] at hrun
  rcases result with status | received
  · cases hrun
  obtain ⟨bytes, hbytes, rfl, hisDir, attrs, hfile⟩ := hreceived received rfl
  obtain rfl := Option.some.inj ((payload_chunks chunks).symm.trans hbytes)
  dsimp only at hrun
  obtain ⟨hbytes, hplaced⟩ := finishImport_places hraw hisDir
    (straight_received hlinks (fun q hq => (hframe q hq).2) hfile) hfile hrun
  refine ⟨⟨attrs, ?_⟩, hbytes, ?_, ?_⟩
  · rw [hplaced, if_pos List.prefix_rfl, List.drop_length, List.append_nil, hfile]
  · intro q hq hne
    rw [hplaced, if_pos hq]
    obtain ⟨rest, rfl⟩ := hq
    rw [List.drop_left]
    cases rest with
    | nil => exact absurd (List.append_nil _) hne
    | cons first rest => exact FileTree.get?_append_eq_none hfile rfl
  · intro q hq
    by_cases hbelow : stagingPos clock dir <+: q
    · left
      rw [hplaced, if_neg hq, if_pos hbelow, FileTree.get?_none_below hfree hbelow]
    · have hsame : s.get? q = u.get? q := by rw [hplaced, if_neg hq, if_neg hbelow]
      rw [FileTree.isDir, hsame]
      obtain ⟨hout, hpaved⟩ := hframe q hbelow
      rcases hpaved with heq | hmade | hhome
      · exact Or.inl heq
      · by_cases hon : q <+: way
        · have habove : q <+: dir := by
            rcases List.prefix_concat_iff.mp (hon.trans hway) with rfl | habove
            · exact absurd List.prefix_rfl hq
            · exact habove
          exact Or.inr (Or.inl ⟨habove, hmade⟩)
        · exact Or.inl (hout hon)
      · exact Or.inr (Or.inr hhome)

end Exact

/-- A raw import of one chunk into the home of `w1`. -/
def rawStream (targetPath : String) (data : List UInt8) : ImportStream :=
  [.ok (.header ⟨"w1", targetPath, 1, ""⟩), .ok (.chunk data)]

/-- The file `b` is replaced by one that holds the chunk. -/
theorem raw_import_of_sampleHost : ∃ response s,
    (doImportWorkspaceObject importConfig ⟨0, 0⟩ (rawStream "b" [1, 2])).run
      (FileTree.exec rootUser 7) sampleHost = (some (.ok response), s) ∧
    (∃ attrs, s.get? ["srv", "w1", "home", "b"] = some ⟨.file [1, 2] false, attrs⟩) ∧
    response.bytesWritten = 2 := by
  have hroot : RootPath importConfig.root := ⟨by decide, by decide⟩
  have hok : ((doImportWorkspaceObject importConfig ⟨0, 0⟩ (rawStream "b" [1, 2])).run
      (FileTree.exec rootUser 7) sampleHost).1 = some (.ok ⟨2, "application/octet-stream"⟩) := by
        decide
  obtain ⟨s, hrun⟩ : ∃ s, (doImportWorkspaceObject importConfig ⟨0, 0⟩ (rawStream "b" [1, 2])).run
      (FileTree.exec rootUser 7) sampleHost = (some (.ok ⟨2, "application/octet-stream"⟩), s) :=
    ⟨_, Prod.ext hok rfl⟩
  have hexact := raw_import_exact importConfig ⟨0, 0⟩ rootUser 7 hroot sampleHost
    ⟨"w1", "b", 1, ""⟩ rfl [[1, 2]] ["srv", "w1", "home"] "b" (by decide) (by decide)
    (fun q node _ hnode => FileTree.symlinkFree_ofEntries (by decide) q node hnode) _ s hrun
  exact ⟨_, s, hrun, hexact.1, rfl⟩

/-- The home is not what it was: it has been given to the agent. -/
theorem raw_import_changes_home :
    ((doImportWorkspaceObject importConfig ⟨0, 0⟩ (rawStream "c" [])).run
      (FileTree.exec rootUser 7) sampleHost).1 = some (.ok ⟨0, "application/octet-stream"⟩) ∧
    ((doImportWorkspaceObject importConfig ⟨0, 0⟩ (rawStream "c" [])).run
      (FileTree.exec rootUser 7) sampleHost).2.get? ["srv", "w1", "home"] =
        some ⟨.dir, ⟨0o755, 1000, 1000, 0⟩⟩ ∧
    sampleHost.get? ["srv", "w1", "home"] = some ⟨.dir, ⟨0o755, 0, 0, 0⟩⟩ := by
  decide

end Scriptorium
