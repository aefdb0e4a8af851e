import Scriptorium.Clearing
import Scriptorium.FailedFetch

/-!
# Imports that succeed

When the service may do everything, and nothing but directories is above the target, then
an import succeeds if and only if what it receives is chunks, their bytes stand for a file
or for the tree of an archive, and what stands at the target gives way
(`import_replaces_iff`).
What stands at the target afterwards is exactly what was brought.
-/

namespace Scriptorium

open Posix Effects

variable {cred : Cred} {now : Nat} {t s : FileTree} {dir : Pos} {name : String}

/-! ### Making the way -/

/-- Nothing but directories stands on the way to a position, or at it. -/
def Passable (t : FileTree) (p : Pos) : Prop := ∀ q, q <+: p → t.get? q = none ∨ t.isDir q = true

theorem Passable.above {p q : Pos} (h : Passable t p) (hq : q <+: p) : Passable t q :=
  fun r hr => h r (hr.trans hq)

theorem Passable.straight {p : Pos} (h : Passable t p) : Straight t p := by
  intro q node hq hnode
  rcases h q hq with hnone | hdir
  · rw [hnone] at hnode
    cases hnode
  · obtain ⟨node', hnode', hkind⟩ := FileTree.isDir_iff.mp hdir
    obtain rfl := Option.some.inj (hnode.symm.trans hnode')
    rw [Node.isLink, Node.isDir_iff.mp hkind]

theorem passable_of_isDir {p : Pos} (h : t.isDir p = true) : Passable t p := by
  intro q hq
  right
  by_cases heq : q = p
  · rwa [heq]
  · exact FileTree.isDir_above (FileTree.isSome_of_isDir h) hq heq

theorem near_way {p way : Pos} (h : p <+: way) : Near (wayTo way) (canonical p) :=
  ⟨p, seen_wayTo.mpr (Or.inl h), rfl⟩

theorem isDir_added {attrs : Attrs} (hdir : t.isDir dir = true)
    (hfree : t.get? (dir ++ [name]) = none)
    (hname : Proper name) : (t.add dir name ⟨.dir, attrs⟩ hdir hfree hname).isDir
    (dir ++ [name]) = true :=
  FileTree.isDir_iff.mpr ⟨_, by rw [FileTree.get?_add, if_pos rfl], rfl⟩

theorem not_mem_toDigits {c : Char} (hc : ∀ n < 16, Nat.digitChar n ≠ c) (n : Nat) :
    c ∉ Nat.toDigits 16 n := by
  induction n using Nat.strongRecOn with
  | ind n ih =>
    rw [Nat.toDigits_eq_if (by decide)]
    split
    · rename_i hlt
      rw [List.mem_singleton]
      exact (hc n hlt).symm
    · rename_i hge
      rw [List.mem_append, List.mem_singleton, not_or]
      exact ⟨ih (n / 16) (by omega), (hc (n % 16) (by omega)).symm⟩

/-- A name that an import makes up can stand in a directory. -/
theorem proper_transferName {suffix : String} (hsuffix : '/' ∉ suffix.toList) (nanos : Nat) :
    Proper (transferName suffix nanos) := by
  have hslash : '/' ∉ (nonceText nanos).toList := by
    rw [nonceText, String.toList_ofList]
    exact not_mem_toDigits (by decide) _
  have htext : (transferName suffix nanos).toList =
      ".scriptorium-".toList ++ suffix.toList ++ "-".toList ++ (nonceText nanos).toList ++
        ".tmp".toList := by
    simp [transferName]
  refine ⟨?_, ?_, ?_, ?_⟩
  · intro h
    simpa [htext] using congrArg String.toList h
  · intro h
    simpa [htext] using congrArg String.toList h
  · intro h
    simpa [htext] using congrArg String.toList h
  · rw [htext]
    simp only [List.mem_append, not_or]
    exact ⟨⟨⟨⟨by decide, hsuffix⟩, by decide⟩, hslash⟩, by decide⟩

section Success

variable (hcred : cred.privileged = true)

include hcred

variable (now) in
theorem run_isDir_dir {ε : Type} {p : Pos} (hdir : t.isDir p = true) :
    (isDir (canonical p) : Fs ε Bool).run (FileTree.exec cred now) t = (some (.ok true), t) := by
  obtain ⟨node, hfind, -, hkind⟩ := FileTree.find_dir hcred hdir
  rw [run_isDir, dirAt, hfind]
  simp only [hkind]

variable (now) in
/-- A directory that is there is found. -/
theorem run_createDirAllWithin_there (n : Nat) {p : Pos} (hdir : t.isDir p = true) :
    (createDirAllWithin (n + 1) (canonical p)).run (FileTree.exec cred now) t =
    (some (.ok ()), t) := by
  obtain ⟨e, he, hmkdir⟩ := FileTree.mkdir_of_walk now (FileTree.walk_dir hcred hdir)
  have hexec : FileTree.exec cred now (.mkdir (canonical p)) t = (.error e, t) := hmkdir
  rw [createDirAllWithin, Prog.run_bind, Prog.run_attempt]
  rcases he with rfl | rfl
  all_goals
    rw [run_sys_of_error hexec (by decide)]
    simp only [Option.map_some]
    rw [Prog.run_bind_ok _ (run_isDir_dir now hcred hdir)]
    rfl

variable (now) in
/-- A directory that is missing is made, with those above it: by induction on the way. -/
theorem run_createDirAllWithin {n : Nat} {p : Pos} (hn : p.length < n) (hopen : Passable t p)
    (hproper : ∀ name ∈ p, Proper name) :
    ∃ s, (createDirAllWithin n (canonical p)).run (FileTree.exec cred now) t = (some (.ok ()), s) ∧
      s.isDir p = true := by
  induction p using List.reverseRecOn generalizing n with
  | nil =>
    obtain ⟨n, rfl⟩ : ∃ m, n = m + 1 := ⟨n - 1, by omega⟩
    exact ⟨t, run_createDirAllWithin_there now hcred n t.isDir_root, t.isDir_root⟩
  | append_singleton dir name ih =>
    obtain ⟨n, rfl⟩ : ∃ m, n = m + 1 := ⟨n - 1, by omega⟩
    have hname : Proper name := hproper name (by simp)
    have habove : dir <+: dir ++ [name] := List.prefix_append _ _
    rcases hopen dir habove with hmissing | hdir
    · have hnoent : FileTree.exec cred now (.mkdir (canonical (dir ++ [name]))) t =
          (.error .noent, t) :=
        FileTree.exec_mkdir_noent now hcred (hopen.above habove) hmissing
      obtain ⟨s, hparent, hs⟩ := ih (n := n) (by rw [List.length_append] at hn; simp at hn; omega)
        (hopen.above habove) fun name hname => hproper name (List.mem_append_left _ hname)
      -- only directories above the entry have been made
      have hfree : s.get? (dir ++ [name]) = none := by
        have hmade := keeps_made cred now (stays_createDirAllWithin n (near_way List.prefix_rfl))
          (hopen.above habove).straight.clear (dir ++ [name])
        rw [hparent] at hmade
        rw [hmade.resolve_right fun hway => not_entry_above dir name hway.1]
        exact FileTree.get?_none_below hmissing habove
      refine ⟨s.add dir name ⟨.dir, FileTree.newAttrs cred now 0o777⟩ hs hfree hname, ?_,
        isDir_added hs hfree hname⟩
      rw [createDirAllWithin, Prog.run_bind, Prog.run_attempt, run_sys_of_error hnoent (by decide)]
      simp only [Option.map_some, PathBuf.parent_canonical_concat]
      rw [Prog.run_bind_ok _ hparent, Prog.run_bind, Prog.run_attempt,
        run_sys_of_ok (FileTree.exec_mkdir_entry now hcred hs hfree hname)]
      rfl
    · rcases hopen _ List.prefix_rfl with hfree | hthere
      · refine ⟨t.add dir name ⟨.dir, FileTree.newAttrs cred now 0o777⟩ hdir hfree hname, ?_,
          isDir_added hdir hfree hname⟩
        rw [createDirAllWithin, Prog.run_bind, Prog.run_attempt,
          run_sys_of_ok (FileTree.exec_mkdir_entry now hcred hdir hfree hname)]
        rfl
      · exact ⟨t, run_createDirAllWithin_there now hcred n hthere, hthere⟩

variable (now) in
theorem run_createDirAll {p : Pos} (hopen : Passable t p) (hproper : ∀ name ∈ p, Proper name) :
    ∃ s, (createDirAll (canonical p)).run (FileTree.exec cred now) t = (some (.ok ()), s) ∧
      s.isDir p = true :=
  run_createDirAllWithin now hcred (by simp [canonical]) hopen hproper

variable (now) in
theorem run_io_createDirAll_there {p : Pos} (hdir : t.isDir p = true) :
    (io (createDirAll (canonical p))).run (FileTree.exec cred now) t = (some (.ok ()), t) := by
  have hthere : (createDirAll (canonical p)).run (FileTree.exec cred now) t = (some (.ok ()), t) :=
    run_createDirAllWithin_there now hcred _ hdir
  rw [io, Prog.run_mapError, hthere]
  rfl

variable (now) in
/-- The home is made, and given to the agent. -/
theorem run_ensureHome {root workspaceId : String} (hroot : RootPath root)
    (hid : ValidId workspaceId) (hopen : Passable t (homePos root workspaceId)) (uid gid : Nat) :
    ∃ s, (ensureHome root workspaceId uid gid).run (FileTree.exec cred now) t =
      (some (.ok (homePath root workspaceId)), s) := by
  have hpath := homePath_eq hroot hid
  have hproper : ∀ name ∈ homePos root workspaceId, Proper name := by
    intro name hname
    rcases List.mem_append.mp hname with hname | hname
    · exact proper_of_mem_rootPos hname
    · rcases List.mem_pair.mp hname with rfl | rfl
      · exact proper_of_validId hid
      · decide
  obtain ⟨s, hmade, hdir⟩ := run_createDirAll now hcred hopen hproper
  obtain ⟨node, hfind, -, -⟩ := FileTree.find_dir hcred hdir
  have hchown : FileTree.exec cred now (.chown (homePath root workspaceId) uid gid) s =
      (.ok (), s.setAttrs (homePos root workspaceId) fun attrs => { attrs with uid, gid }) := by
    simp only [FileTree.exec, FileTree.chown, hpath, hfind, hcred, Bool.true_or, if_true]
  refine ⟨s.setAttrs (homePos root workspaceId) fun attrs => { attrs with uid, gid }, ?_⟩
  have hvalid : (Prog.ofExcept (validateWorkspaceId workspaceId) : Fs Error Unit).run
      (FileTree.exec cred now) t = (some (.ok ()), t) := by
    rw [validateWorkspaceId_eq_ok.mpr hid]
    rfl
  have hmade' : (io (createDirAll (homePath root workspaceId))).run (FileTree.exec cred now) t =
      (some (.ok ()), s) := by
    rw [hpath, io, Prog.run_mapError, hmade]
    rfl
  rw [ensureHome, Prog.run_bind_ok _ hvalid]
  dsimp only
  rw [Prog.run_bind_ok _ hmade', Prog.run_bind, Prog.run_attempt, run_sys_of_ok hchown]
  rfl

omit hcred in
/-- Making the way keeps it passable. -/
theorem passable_exec {home : PathBuf} {c : FsCall} (hc : Paves home c) {p : Pos}
    (h : Passable t p) :
    Passable (FileTree.exec cred now c t).2 p := by
  intro q hq
  have hold := h q hq
  have hattrs : ∀ p f, (t.setAttrs p f).get? q = none ∨ (t.setAttrs p f).isDir q = true := by
    intro p f
    have hkind := kind_setAttrs t p q f
    rcases hold with hnone | hdir
    · left
      rwa [hnone, Option.map_none, Option.map_eq_none_iff] at hkind
    · right
      obtain ⟨node, hnode, hisDir⟩ := FileTree.isDir_iff.mp hdir
      rw [hnode] at hkind
      obtain ⟨node', hnode', hsame⟩ := Option.map_eq_some_iff.mp hkind
      exact FileTree.isDir_iff.mpr ⟨node', hnode', by rw [Node.isDir, hsame]; exact hisDir⟩
  cases c with
  | mkdir path =>
    simp only [FileTree.exec]
    rcases FileTree.mkdir_cases cred now t path with
      ⟨e, he⟩ | ⟨dir, name, hdir, hfree, hname, -, hadd⟩
    · rwa [he]
    · rw [hadd]
      by_cases heq : q = dir ++ [name]
      · right
        rw [heq]
        exact isDir_added hdir hfree hname
      · rw [FileTree.isDir, FileTree.get?_add, if_neg heq]
        exact hold
  | fileType path => exact hold
  | chown path uid gid =>
    simp only [FileTree.exec]
    rcases FileTree.chown_cases cred t path uid gid with ⟨e, he⟩ | ⟨p, node, -, hset⟩
    · rwa [he]
    · rw [hset]
      exact hattrs p fun attrs => { attrs with uid, gid }
  | chmod path mode =>
    simp only [FileTree.exec]
    rcases FileTree.chmod_cases cred t path (fun attrs => { attrs with mode }) with
      ⟨e, he⟩ | ⟨p, node, -, hset⟩
    · rwa [he]
    · rw [hset]
      exact hattrs p fun attrs => { attrs with mode }
  | _ => exact absurd hc id

section Import

variable (cfg : ServiceConfig) {header : ImportHeader}

variable (now) in
/-- The home is made, and then a directory below it. -/
theorem run_makeWay {workspaceId : String} (hroot : RootPath cfg.root) (hid : ValidId workspaceId)
    (hproper : ∀ name ∈ dir, Proper name) (hhome : homePos cfg.root workspaceId <+: dir)
    (hopen : Passable t dir) :
    ∃ u s, (ensureHome cfg.root workspaceId cfg.agentUid cfg.agentGid).run
      (FileTree.exec cred now) t =
        (some (.ok (homePath cfg.root workspaceId)), u) ∧
      (createDirAll (canonical dir)).run (FileTree.exec cred now) u = (some (.ok ()), s) ∧
      s.isDir dir = true := by
  obtain ⟨u, hmade⟩ := run_ensureHome now hcred hroot hid (hopen.above hhome) cfg.agentUid
    cfg.agentGid
  have hpassable : Passable u dir := by
    have hpaves : (ensureHome cfg.root workspaceId cfg.agentUid cfg.agentGid).Within
        (Paves (homePath cfg.root workspaceId)) (fun _ _ => True) fun _ => True :=
      within_ensureHome (fun _ => within_createDirAll (N := fun _ => True) (fun _ _ _ _ => trivial)
        (fun _ _ => ⟨trivial, trivial⟩) trivial) (fun _ => rfl) (fun _ => rfl)
    have hkeeps : Passable ((ensureHome cfg.root workspaceId cfg.agentUid cfg.agentGid).run
        (FileTree.exec cred now) t).2 dir :=
      hpaves.keeps (I := fun s => Passable s dir) (fun c s hc hs => ⟨passable_exec hc hs, trivial⟩)
        hopen
    rwa [hmade] at hkeeps
  obtain ⟨s, hparent, hdir⟩ := run_createDirAll now hcred hpassable hproper
  exact ⟨u, s, hmade, hparent, hdir⟩

variable (now) in
/-- The target of an import is resolved, and the directories above it are made. -/
theorem run_prepareTarget_ok (hroot : RootPath cfg.root)
    (hresolve : resolvePath cfg.root header.workspaceId header.targetPath =
      .ok (canonical (dir ++ [name])))
    (hhome : homePos cfg.root header.workspaceId <+: dir) (hopen : Passable t dir) :
    ∃ s, (prepareTarget cfg header).run (FileTree.exec cred now) t =
      (some (.ok (canonical (dir ++ [name]))), s) := by
  obtain ⟨hid, p, hp, -, -, hproper⟩ := resolvePath_eq_ok hroot hresolve
  obtain rfl := canonical_injective hp
  obtain ⟨u, s, hmade, hparent, -⟩ := run_makeWay now hcred cfg hroot hid
    (fun name hname => hproper name (List.mem_append_left _ hname)) hhome hopen
  have hfirst : (rpc (ensureHome cfg.root header.workspaceId cfg.agentUid cfg.agentGid)).run
      (FileTree.exec cred now) t = (some (.ok (homePath cfg.root header.workspaceId)), u) := by
    rw [rpc, Prog.run_mapError, hmade]
    rfl
  have hsecond : (ioRpc (createDirAll (parentOrDot (canonical (dir ++ [name]))))).run
      (FileTree.exec cred now) u = (some (.ok ()), s) := by
    rw [parentOrDot_canonical, ioRpc, Prog.run_mapError, hparent]
    rfl
  refine ⟨s, ?_⟩
  rw [prepareTarget, Prog.run_bind_ok _ hfirst, hresolve]
  exact Prog.run_bind_ok _ hsecond

variable {clock : ImportClock} {rest : ImportStream} {bytes : List UInt8}

variable (now clock rest) in
/-- Up to its first chunk, an import opens an empty staging file. -/
theorem run_openStaging (hroot : RootPath cfg.root)
    (hresolve : resolvePath cfg.root header.workspaceId header.targetPath =
      .ok (canonical (dir ++ [name])))
    (hhome : homePos cfg.root header.workspaceId <+: dir) (hopen : Passable t dir)
    (hfresh : Fresh clock t dir name) :
    ∃ u, (receiveObject cfg clock header rest).run (FileTree.exec cred now) t =
        (receiveChunks (stagingPos clock dir) rest 0 >>= fun count =>
          pure (canonical (dir ++ [name]), count)).run (FileTree.exec cred now) u ∧
      u.get? (stagingPos clock dir) = some ⟨.file [] false, FileTree.newAttrs cred now 0o666⟩ := by
  obtain ⟨u, hprepare⟩ := run_prepareTarget_ok now hcred cfg hroot hresolve hhome hopen
  obtain ⟨_, u', hprepare', hpath, hsame⟩ :=
    run_prepareTarget cred now cfg hroot hresolve List.prefix_rfl hhome hfresh.straight
  rw [hprepare] at hprepare'
  obtain ⟨hresult, rfl⟩ := Prod.mk.inj hprepare'
  obtain ⟨-, hdir⟩ := hpath _ (Option.some.inj hresult).symm
  have hfree : u.get? (dir ++ [transferName "import" clock.staging]) = none :=
    (hsame _ (not_entry_above dir _)).trans hfresh.staging_free
  have hname : Proper (transferName "import" clock.staging) := proper_transferName (by decide) _
  have hcreate := FileTree.exec_create_entry now hcred hdir hfree hname
  refine ⟨u.add dir _ ⟨.file [] false, FileTree.newAttrs cred now 0o666⟩ hdir hfree hname, ?_, ?_⟩
  · rw [receiveObject, Prog.run_bind_ok _ hprepare, stagingPath_canonical, Prog.run_bind, ioRpc,
      Prog.run_mapError, stagingPos, run_sys_of_ok hcreate]
    rfl
  · rw [stagingPos, FileTree.get?_add, if_pos rfl]

variable (now clock) in
/-- Chunks are received. -/
theorem run_receiveObject_ok (hroot : RootPath cfg.root)
    (hresolve : resolvePath cfg.root header.workspaceId header.targetPath =
      .ok (canonical (dir ++ [name])))
    (hhome : homePos cfg.root header.workspaceId <+: dir) (hopen : Passable t dir)
    (hfresh : Fresh clock t dir name) (hrest : payload rest = some bytes) :
    ∃ s, (receiveObject cfg clock header rest).run (FileTree.exec cred now) t =
        (some (.ok (canonical (dir ++ [name]), min bytes.length maxBytesWritten)), s) ∧
      Received clock dir bytes s ∧
      ∀ q, ¬ stagingPos clock dir <+: q → (¬ q <+: dir → s.get? q = t.get? q) ∧
        Paved (homePos cfg.root header.workspaceId) t s q := by
  obtain ⟨result, s, hrun, hframe, hreceived⟩ := run_receiveObject cred now cfg hroot hresolve
    List.prefix_rfl hhome hfresh.straight (not_entry_above dir _) hfresh.staging_free rest
  suffices hok : ∃ received, result = .ok received by
    obtain ⟨received, rfl⟩ := hok
    obtain ⟨bytes', hbytes, rfl, hdir, hfile⟩ := hreceived received rfl
    obtain rfl := Option.some.inj (hrest.symm.trans hbytes)
    refine ⟨s, hrun, ⟨hdir, hfile, ?_⟩, hframe⟩
    rw [(hframe _ (extraction_apart clock dir).2).1 (not_entry_above dir _)]
    exact hfresh.extraction_free
  obtain ⟨u, hopened, hempty⟩ :=
    run_openStaging now hcred cfg clock rest hroot hresolve hhome hopen hfresh
  obtain ⟨v, hchunks, -⟩ := run_receiveChunks cred now rfl hempty hrest (Nat.zero_le _)
  have heval : ((receiveObject cfg clock header rest).run (FileTree.exec cred now) t).1 =
      some (.ok (canonical (dir ++ [name]), min (0 + bytes.length) maxBytesWritten)) := by
    rw [hopened, Prog.run_bind_ok _ hchunks]
    rfl
  rw [hrun] at heval
  exact ⟨_, Option.some.inj heval⟩

end Import

/-! ### Installing what has been extracted -/

omit hcred in
theorem run_ignore_ok {ε : Type} {c : FsCall} (hcreate : ∀ path, c ≠ .create path)
    (hread : ∀ path, c ≠ .read path) :
    (ignore (sys c) : Fs ε Unit).run (FileTree.exec cred now) t =
      (some (.ok ()), (FileTree.exec cred now c t).2) := by
  apply run_ignore_sys
  intro hwait
  obtain ⟨path, _, _, -, -, ⟨rfl, -⟩ | ⟨rfl, -⟩⟩ := FileTree.waits_of_exec hwait
  · exact hcreate path rfl
  · exact hread path rfl

omit hcred in
variable (cred now t) in
theorem run_finishExtraction (staging extractionRoot : PathBuf) :
    ∃ s, (finishExtraction staging extractionRoot).run (FileTree.exec cred now) t =
      (some (.ok ()), s) := by
  rw [finishExtraction, Prog.run_bind_ok _ (run_ignore_ok (by simp) (by simp))]
  exact ⟨_, run_ignore_ok (by simp) (by simp)⟩

section Installed

variable {expand : String}

variable (now) in
/-- The entries of one directory can be moved into another, by induction on those left. -/
theorem run_moveEntries (hapart : expand ≠ name) {names : List String} (hnodup : names.Nodup)
    (hsource : t.isDir (dir ++ [expand]) = true) (htarget : t.isDir (dir ++ [name]) = true)
    (hthere : ∀ n ∈ names, (t.get? (dir ++ [expand] ++ [n])).isSome)
    (hfree : ∀ n ∈ names, t.get? (dir ++ [name] ++ [n]) = none) :
    ∃ s, (moveEntries (canonical (dir ++ [expand])) (canonical (dir ++ [name])) names).run
      (FileTree.exec cred now) t = (some (.ok ()), s) := by
  induction names generalizing t with
  | nil => exact ⟨t, rfl⟩
  | cons n names ih =>
    rw [List.nodup_cons] at hnodup
    rw [List.forall_mem_cons] at hthere hfree
    obtain ⟨node, hnode⟩ := Option.isSome_iff_exists.mp hthere.1
    have hproper : Proper n := t.proper _ n hthere.1
    have hin : ¬ dir ++ [expand] ++ [n] <+: dir ++ [name] := by
      intro hpre
      exact absurd hpre.length_le (by simp)
    have hout : ¬ dir ++ [name] ++ [n] <+: dir ++ [expand] ++ [n] := by
      intro hpre
      exact entries_apart hapart.symm [n] ((List.prefix_append _ _).trans hpre)
    obtain ⟨u, hrename, hmoved⟩ :=
      FileTree.exec_rename_of_check now hcred hsource htarget hproper hnode
      hin hout (FileTree.renameCheck_free hcred hnode _ hfree.1)
    have hsame : ∀ q, ¬ dir ++ [name] ++ [n] <+: q → ¬ dir ++ [expand] ++ [n] <+: q →
        u.get? q = t.get? q :=
      fun q hq hq' => hmoved.other hq hq'
    have hother : ∀ m ∈ names, ∀ place : Pos, ¬ place ++ [n] <+: place ++ [m] := by
      intro m hm place
      apply entry_apart
      rintro rfl
      exact hnodup.1 hm
    have hstays : ∀ entry, u.get? (dir ++ [entry]) = t.get? (dir ++ [entry]) := by
      intro entry
      apply hsame
      · intro hpre
        exact absurd hpre.length_le (by simp)
      · intro hpre
        exact absurd hpre.length_le (by simp)
    obtain ⟨s, hrest⟩ := ih (t := u) hnodup.2 (by rw [FileTree.isDir, hstays]; exact hsource)
      (by rw [FileTree.isDir, hstays]; exact htarget)
      (fun m hm => by
        rw [hsame _ (fun hpre => entries_apart hapart.symm [m]
          ((List.prefix_append _ _).trans hpre))
          (hother m hm _)]
        exact hthere.2 m hm)
      (fun m hm => by
        rw [hsame _ (hother m hm _) fun hpre =>
          entries_apart hapart [m] ((List.prefix_append _ _).trans hpre)]
        exact hfree.2 m hm)
    refine ⟨s, ?_⟩
    have hmove : (io (sys (.rename (canonical (dir ++ [expand]) ++ [.normal n])
        (canonical (dir ++ [name]) ++ [.normal n])))).run (FileTree.exec cred now) t =
          (some (.ok ()), u) := by
      rw [← canonical_concat, ← canonical_concat, io, Prog.run_mapError, run_sys_of_ok hrename]
      rfl
    rw [moveEntries, Prog.run_bind_ok _ hmove]
    exact hrest

variable (now) in
theorem run_readDir_entry (hdir : t.isDir dir = true) (h : t.isDir (dir ++ [name]) = true) :
    (io (sys (.readDir (canonical (dir ++ [name]))))).run (FileTree.exec cred now) t =
      (some (.ok (t.entries (dir ++ [name]))), t) := by
  have hexec : FileTree.exec cred now (.readDir (canonical (dir ++ [name]))) t =
      (.ok (t.entries (dir ++ [name])), t) := by
    simp only [FileTree.exec, FileTree.readDir_entry hcred hdir h]
  rw [io, Prog.run_mapError, run_sys_of_ok hexec]
  rfl

variable (now) in
/-- What is extracted can take a free place. -/
theorem run_installExtracted (hapart : expand ≠ name) (hname : Proper name)
    (hdir : t.isDir dir = true) (hsource : t.isDir (dir ++ [expand]) = true)
    (hplain : ∀ q node, t.get? (dir ++ [expand] ++ q) = some node → node.isLink = false)
    (hfree : t.get? (dir ++ [name]) = none) (staging : PathBuf) :
    ∃ s, (installExtracted staging (canonical (dir ++ [expand])) (canonical (dir ++ [name]))).run
      (FileTree.exec cred now) t = (some (.ok ()), s) := by
  have heach : ∃ s,
      (installEach staging (canonical (dir ++ [expand])) (canonical (dir ++ [name]))).run
      (FileTree.exec cred now) t = (some (.ok ()), s) := by
    let u := t.add dir name ⟨.dir, FileTree.newAttrs cred now 0o777⟩ hdir hfree hname
    have hmade : (io (createDirAll (canonical (dir ++ [name])))).run (FileTree.exec cred now) t =
        (some (.ok ()), u) := by
      rw [io, Prog.run_mapError, run_createDirAll_entry now hcred hdir hfree hname]
      rfl
    have hget : ∀ q, q ≠ dir ++ [name] → u.get? q = t.get? q := by
      intro q hq
      rw [FileTree.get?_add, if_neg hq]
    have hsource' : u.isDir (dir ++ [expand]) = true := by
      rw [FileTree.isDir, hget _ (by simpa using hapart)]
      exact hsource
    have hdir' : u.isDir dir = true := by
      rw [FileTree.isDir, hget _ (by simp)]
      exact hdir
    obtain ⟨v, hmoved⟩ := run_moveEntries now hcred hapart (u.children_nodup (dir ++ [expand]))
      hsource' (isDir_added hdir hfree hname) (fun n hn => FileTree.mem_children.mp hn) fun n
        _ => by
        rw [hget _ (by simp)]
        exact FileTree.get?_none_below hfree (List.prefix_append _ _)
    obtain ⟨s, hfinish⟩ := run_finishExtraction cred now v staging (canonical (dir ++ [expand]))
    refine ⟨s, ?_⟩
    rw [installEach, Prog.run_bind_ok _ hmade,
      Prog.run_bind_ok _ (run_readDir_entry now hcred hdir' hsource'),
      FileTree.map_fst_entries, Prog.run_bind_ok _ hmoved]
    exact hfinish
  rw [installExtracted, Prog.run_bind_ok _ (run_readDir_entry now hcred hdir hsource)]
  split
  · rename_i entry hentries
    obtain ⟨node, hnode, -⟩ := FileTree.mem_entries.mp (hentries ▸ List.mem_singleton_self entry)
    have hfind := FileTree.find_entry hcred hsource hnode (hplain [entry.1] node hnode)
    rw [← canonical_concat]
    dsimp only
    rw [Prog.run_bind, run_isDir, dirAt, hfind]
    dsimp only
    split
    · have hin : ¬ dir ++ [expand] ++ [entry.1] <+: dir :=
        fun hpre => absurd hpre.length_le (by simp)
      have hout : ¬ dir ++ [name] <+: dir ++ [expand] ++ [entry.1] := entries_apart hapart.symm _
      obtain ⟨u, hrename, -⟩ :=
        FileTree.exec_rename_of_check now hcred hsource hdir hname hnode hin hout
        (FileTree.renameCheck_free hcred hnode _ hfree)
      have hmove : (io (sys (.rename (canonical (dir ++ [expand] ++ [entry.1]))
          (canonical (dir ++ [name]))))).run (FileTree.exec cred now) t = (some (.ok ()), u) := by
        rw [io, Prog.run_mapError, run_sys_of_ok hrename]
        rfl
      rw [Prog.run_bind_ok _ hmove]
      exact run_finishExtraction cred now u _ _
    · exact heach
  · exact heach

variable (now) in
/-- A directory does not take the place of a link that leads nowhere. -/
theorem run_installExtracted_link (hapart : expand ≠ name) (hname : Proper name)
    (hdir : t.isDir dir = true) (hsource : t.isDir (dir ++ [expand]) = true)
    (hplain : ∀ q node, t.get? (dir ++ [expand] ++ q) = some node → node.isLink = false)
    {node : Node} (hnode : t.get? (dir ++ [name]) = some node) (hlink : node.isLink = true)
    (hnowhere : t.find cred (canonical (dir ++ [name])) = .error .noent) (staging : PathBuf) :
    ∃ e, (installExtracted staging (canonical (dir ++ [expand])) (canonical (dir ++ [name]))).run
      (FileTree.exec cred now) t = (some (.error e), t) := by
  have hnot : t.isDir (dir ++ [name]) = false := by
    rw [FileTree.isDir, hnode]
    exact (FileTree.exec_removeDirAll_link now hcred hdir hnode hlink).1
  have heach : ∃ e,
      (installEach staging (canonical (dir ++ [expand])) (canonical (dir ++ [name]))).run
      (FileTree.exec cred now) t = (some (.error e), t) := by
    have hmade : (createDirAll (canonical (dir ++ [name]))).run (FileTree.exec cred now) t =
        (some (.error (.os .exist)), t) := by
      obtain ⟨n, hn⟩ : ∃ n, (canonical (dir ++ [name])).length = n + 1 := ⟨_, List.length_cons⟩
      rw [createDirAll, hn, createDirAllWithin, Prog.run_bind, Prog.run_attempt,
        run_sys_of_error (FileTree.exec_mkdir_exists now hcred hdir (by simp [hnode])) (by decide)]
      simp only [Option.map_some]
      rw [Prog.run_bind, run_isDir, dirAt, hnowhere]
      rfl
    refine ⟨.io (.os .exist), ?_⟩
    rw [installEach, Prog.run_bind, io, Prog.run_mapError, hmade]
    rfl
  rw [installExtracted, Prog.run_bind_ok _ (run_readDir_entry now hcred hdir hsource)]
  split
  · rename_i entry hentries
    obtain ⟨child, hchild, -⟩ := FileTree.mem_entries.mp (hentries ▸ List.mem_singleton_self entry)
    have hfind := FileTree.find_entry hcred hsource hchild (hplain [entry.1] child hchild)
    rw [← canonical_concat]
    dsimp only
    rw [Prog.run_bind, run_isDir, dirAt, hfind]
    dsimp only
    split
    · rename_i hkind
      have hin : ¬ dir ++ [expand] ++ [entry.1] <+: dir :=
        fun hpre => absurd hpre.length_le (by simp)
      have hout : ¬ dir ++ [name] <+: dir ++ [expand] ++ [entry.1] := entries_apart hapart.symm _
      have hcheck : ∀ crossing, t.renameCheck cred (dir ++ [expand] ++ [entry.1]) child crossing
          (dir ++ [name]) =
          .error .notdir := by
        intro crossing
        rw [FileTree.renameCheck_privileged hcred hchild, hkind, hnot, hnode, if_neg (by simp),
          if_pos rfl]
      have hrename := FileTree.exec_rename_of_refused now hcred hsource hdir hname hchild hin hout
        (hcheck _)
      have hmove : (io (sys (.rename (canonical (dir ++ [expand] ++ [entry.1]))
          (canonical (dir ++ [name]))))).run (FileTree.exec cred now) t =
            (some (.error (.io (.os .notdir))), t) := by
        rw [io, Prog.run_mapError, run_sys_of_error hrename (by decide)]
        rfl
      exact ⟨.io (.os .notdir), by rw [Prog.run_bind, hmove]⟩
    · exact heach
  · exact heach

end Installed

/-- A layout of one leaf, a file in place of the directory. -/
def fileLayout (data : List UInt8) : ArchiveLayout := fun path =>
  if path = [] then some (.leaf data) else none

section Archive

variable {clock : ImportClock} {bytes : List UInt8} {codec : Codec} {U : ArchiveLayout}

variable (now codec) in
/-- The items of what was received are extracted into a bare directory. -/
theorem run_extractArchive_items (h : Received clock dir bytes t) :
    ∃ u, (extractArchive codec (canonical (stagingPos clock dir))
      (canonical (extractionPos clock dir))).run
        (FileTree.exec cred now) t =
          (extractItems (canonical (extractionPos clock dir)) (codec.unpack bytes)).run
            (FileTree.exec cred now) u ∧
      Shows u (extractionPos clock dir) .bare ∧ ∀ q, ¬ extractionPos clock dir <+: q →
        u.get? q = t.get? q := by
  have hname : Proper (transferName "expand" clock.expand) := proper_transferName (by decide) _
  have hfree : t.get? (dir ++ [transferName "expand" clock.expand]) = none := h.extraction_free
  let u := t.add dir _ ⟨.dir, FileTree.newAttrs cred now 0o777⟩ h.isDir hfree hname
  have hget : ∀ q, q ≠ extractionPos clock dir → u.get? q = t.get? q :=
    fun q hq => FileTree.get?_add.trans (if_neg hq)
  have hmade : (io (createDirAll (canonical (extractionPos clock dir)))).run
      (FileTree.exec cred now) t =
      (some (.ok ()), u) := by
    rw [io, Prog.run_mapError, extractionPos, run_createDirAll_entry now hcred h.isDir hfree hname]
    rfl
  have hexists : (pathExists (canonical (extractionPos clock dir)) : Fs Error Bool).run
      (FileTree.exec cred now) t = (some (.ok false), t) := by
    rw [run_pathExists, extractionPos, FileTree.find_missing hcred h.isDir hfree]
    rfl
  -- the staging file is read
  obtain ⟨attrs, hstaging⟩ := h.staging
  have hdir : u.isDir dir = true := by
    rw [FileTree.isDir, hget _ (by simp [extractionPos])]
    exact h.isDir
  have hstaging' : u.get? (dir ++ [transferName "import" clock.staging]) =
      some ⟨.file bytes false, attrs⟩ :=
    (hget (stagingPos clock dir) fun heq =>
      (extraction_apart clock dir).1 (heq ▸ List.prefix_rfl)).trans hstaging
  have hread : (io (sys (.read (canonical (stagingPos clock dir))))).run
      (FileTree.exec cred now) u =
      (some (.ok ⟨Node.info ⟨.file bytes false, attrs⟩, bytes, false⟩), u) := by
    have hexec : FileTree.exec cred now (.read (canonical (stagingPos clock dir))) u =
        (.ok ⟨Node.info ⟨.file bytes false, attrs⟩, bytes, false⟩, u) := by
      simp only [FileTree.exec, FileTree.read, stagingPos,
        FileTree.find_entry hcred hdir hstaging' rfl,
        Cred.may_of_privileged hcred, if_true]
    rw [io, Prog.run_mapError, run_sys_of_ok hexec]
    rfl
  refine ⟨u, ?_, ?_, fun q hq => hget q fun heq => hq (heq ▸ List.prefix_rfl)⟩
  · rw [extractArchive, Prog.run_bind_ok _ hexists]
    exact (Prog.run_bind_ok _ hmade).trans (Prog.run_bind_ok _ hread)
  · intro q
    cases q with
    | nil =>
      rw [List.append_nil, extractionPos, FileTree.get?_add, if_pos rfl]
      rfl
    | cons first q =>
      rw [hget _ (by simp), FileTree.get?_none_below h.extraction_free (List.prefix_append _ _)]
      rfl

variable (now) in
/-- An archive whose entries fit together is extracted beside the target. -/
theorem run_extractArchive (h : Received clock dir bytes t)
    (hU : layoutOf (codec.unpack bytes) = some U) :
    ∃ s, (extractArchive codec (canonical (stagingPos clock dir))
      (canonical (extractionPos clock dir))).run
        (FileTree.exec cred now) t = (some (.ok ()), s) ∧
      U.Closed ∧ Shows s (extractionPos clock dir) U ∧
      ∀ q, ¬ extractionPos clock dir <+: q → s.get? q = t.get? q := by
  obtain ⟨u, hrun, hshows, hsame⟩ := run_extractArchive_items now hcred codec h
  obtain ⟨s, hitems⟩ := run_extractItems now hcred Layout.closed_bare hshows hU
  obtain ⟨U', hU', hclosed, hshows', hframe⟩ := extractItems_ok Layout.closed_bare hshows hitems
  obtain rfl := Option.some.inj (hU.symm.trans hU')
  exact ⟨s, hrun.trans hitems, hclosed, hshows', fun q hq => (hframe q hq).trans (hsame q hq)⟩

variable (now) in
/-- Any other archive is not. -/
theorem run_extractArchive_none (h : Received clock dir bytes t)
    (hU : layoutOf (codec.unpack bytes) = none) :
    ((extractArchive codec (canonical (stagingPos clock dir))
      (canonical (extractionPos clock dir))).run
      (FileTree.exec cred now) t).1 ≠ some (.ok ()) := by
  obtain ⟨u, hrun, hshows, -⟩ := run_extractArchive_items now hcred codec h
  intro hok
  rw [hrun] at hok
  obtain ⟨U, hsome, -⟩ := extractItems_ok Layout.closed_bare hshows (Prod.ext hok rfl)
  cases hU.symm.trans hsome

omit hcred in
theorem Shows.sole_iff {root : Pos} (h : Shows t root U) {sole : String} :
    U.Sole sole ↔ SoleDir t root sole := by
  refine and_congr h.isDir_iff.symm (forall_congr' fun other => ?_)
  rw [Ne, Ne, h.none_iff]

omit hcred in
/-- What has been installed is what was extracted, without a sole directory around it. -/
theorem Installed.shows {staging expand : String}
    (h : Installed cred now t s dir staging expand name)
    (hclosed : U.Closed) (hU : Shows t (dir ++ [expand]) U) :
    ∃ V, U.Unwrapped V ∧ Shows s (dir ++ [name]) V := by
  rcases h.target with ⟨sole, hsole, hsame⟩ | ⟨hmany, hroot, hsame⟩
  · refine ⟨U.below sole, Or.inl ⟨sole, hU.sole_iff.mpr hsole, rfl⟩, fun q => ?_⟩
    rw [hsame]
    exact hU (sole :: q)
  · refine ⟨U, Or.inr ⟨?_, rfl⟩, fun q => ?_⟩
    · rintro ⟨sole, hsole⟩
      exact hmany ⟨sole, hU.sole_iff.mp hsole⟩
    · cases q with
      | nil =>
        rw [List.append_nil, hroot, hclosed.root]
        rfl
      | cons first q =>
        rw [hsame]
        exact hU (first :: q)

variable (now) in
/-- The archive is extracted beside the target; besides that, all is as it was. -/
theorem run_extractArchive_beside (h : Received clock dir bytes t)
    (hU : layoutOf (codec.unpack bytes) = some U) :
    ∃ x, (extractArchive codec (canonical (stagingPos clock dir))
      (canonical (extractionPos clock dir))).run
        (FileTree.exec cred now) t = (some (.ok ()), x) ∧
      U.Closed ∧ Shows x (extractionPos clock dir) U ∧ x.isDir dir = true ∧
      Extracted cred x (canonical dir) dir (transferName "import" clock.staging)
        (transferName "expand" clock.expand) ∧
      ∀ q, ¬ extractionPos clock dir <+: q → x.get? q = t.get? q := by
  let expand := transferName "expand" clock.expand
  obtain ⟨x, hextract, hclosed, hshows, hframe⟩ := run_extractArchive now hcred h hU
  have hdir : x.isDir dir = true := by
    rw [FileTree.isDir, hframe _ (not_entry_above dir _)]
    exact h.isDir
  have hslot : t.slot cred (canonical dir ++ [.normal expand]) = .ok (dir, expand) := by
    rw [← canonical_concat]
    exact FileTree.slot_entry hcred h.isDir
  have hlead := (FileTree.leads_of_slot hslot).free h.extraction_free
  obtain ⟨attrs, hstaging⟩ := h.staging
  have hstaged : x.get? (dir ++ [transferName "import" clock.staging]) =
      some ⟨.file bytes false, attrs⟩ :=
    (hframe _ (entry_apart dir (transferName_ne _ _).symm)).trans hstaging
  refine ⟨x, hextract, hclosed, hshows, hdir,
    ⟨opens_of_shows hlead hclosed hshows hframe, ⟨?_, ?_⟩, (transferName_ne _ _).symm⟩, hframe⟩
  · rw [hstaged]
    exact Option.some_ne_none _
  · rw [FileTree.isDir, hstaged]
    rfl

omit hcred in
/-- The archive's own names apart, what is extracted is not seen by who follows a link. -/
theorem look_of_extracted {x : FileTree}
    (hframe : ∀ q, ¬ extractionPos clock dir <+: q → x.get? q = t.get? q) (q : Pos)
    (_ : ¬ stagingPos clock dir <+: q) (hq : ¬ extractionPos clock dir <+: q) : t.look cred q =
      x.look cred q :=
  FileTree.look_congr (hframe q hq).symm

variable (now) in
/-- What was received takes the place of what stood at the target. -/
theorem run_replaceArchive (h : Received clock dir bytes t)
    (hU : layoutOf (codec.unpack bytes) = some U)
    (hname : Proper name) (hexpand : transferName "expand" clock.expand ≠ name)
    (hunaware : Unaware cred clock t dir name) (hgives : GivesWay cred t (dir ++ [name]) .tarGz) :
    ∃ s V, (replaceWorkspaceDirectoryFromArchivePath codec clock.expand
        (canonical (stagingPos clock dir)) (canonical (dir ++ [name]))).run
          (FileTree.exec cred now) t =
          (some (.ok ()), s) ∧
      U.Unwrapped V ∧ Shows s (dir ++ [name]) V ∧
      Tidied t s dir (transferName "import" clock.staging)
        (transferName "expand" clock.expand) name := by
  let expand := transferName "expand" clock.expand
  obtain ⟨x, hextract, hclosed, hshows, hdir, hextracted, hframe⟩ :=
    run_extractArchive_beside now hcred h hU
  -- what stood at the target goes
  have hfound : x.get? (dir ++ [name]) = none ∨ ∃ found, x.find cred (canonical (dir ++ [name])) =
      .ok found := by
    have hgives' := (hunaware.givesWay_iff (look_of_extracted hframe) hcred
      (hframe _ (entry_apart dir hexpand)) .tarGz).mpr hgives
    refine hgives'.imp_right fun hgives' => hgives'.resolve_right ?_
    rintro ⟨hraw, -⟩
    cases hraw
  obtain ⟨y, hremove, hcleared⟩ := run_removeEntry now hcred hdir hfound
  have hsource : ∀ q, y.get? (dir ++ [expand] ++ q) = x.get? (dir ++ [expand] ++ q) := by
    intro q
    rw [hcleared, if_neg (entries_apart hexpand.symm q)]
  have hroot := hsource []
  rw [List.append_nil] at hroot
  have hdir' : y.isDir dir = true := by
    rw [FileTree.isDir, hcleared, if_neg (not_entry_above dir name)]
    exact hdir
  have hsource' : y.isDir (dir ++ [expand]) = true := by
    rw [FileTree.isDir, hroot]
    exact hextracted.opens.isDir
  -- what was extracted comes in its place
  obtain ⟨s, hinstall⟩ := run_installExtracted now hcred hexpand hname hdir' hsource'
    (fun q node hnode => hextracted.opens.plain q node ((hsource q).symm.trans hnode))
    (by rw [hcleared, if_pos List.prefix_rfl]) (canonical (stagingPos clock dir))
  have hphase : (Replacement.tree.phase (canonical (stagingPos clock dir))
      (canonical (extractionPos clock dir)) (canonical (dir ++ [name]))).run
        (FileTree.exec cred now) x =
        (some (.ok ()), s) := (Prog.run_bind_ok _ hremove).trans hinstall
  have hphase' := hphase
  rw [stagingPos, extractionPos, canonical_concat, canonical_concat, canonical_concat] at hphase'
  obtain ⟨-, y', hcleared', -, hinstalled⟩ := replaceTree_ok hextracted hphase'
  obtain ⟨V, hV, hplaced⟩ := hinstalled.shows hclosed fun q => by
    rw [hcleared', if_neg (entries_apart hexpand.symm q)]
    exact hshows q
  refine ⟨s, V, ?_, hV, hplaced, hinstalled.extraction, hinstalled.removed, fun q hq => ?_⟩
  · rw [replaceWorkspaceDirectoryFromArchivePath, extractionPath_canonical, parentOrDot_canonical,
      Prog.run_bind_ok _ (run_io_createDirAll_there now hcred h.isDir), extractArchiveAndReplace_eq,
      Prog.run_bind_ok _ hextract]
    exact hphase
  · rw [hinstalled.same q hq, hcleared', if_neg (hq name List.mem_cons_self),
      hframe q (hq expand (List.mem_cons_of_mem _ List.mem_cons_self))]

variable (now name) in
/-- Any other archive does not, and only beside the target something has been written. -/
theorem run_replaceArchive_none (h : Received clock dir bytes t)
    (hU : layoutOf (codec.unpack bytes) = none) :
    ∃ e s, (replaceWorkspaceDirectoryFromArchivePath codec clock.expand
        (canonical (stagingPos clock dir)) (canonical (dir ++ [name]))).run
          (FileTree.exec cred now) t =
          (some (.error e), s) ∧
      ∀ q, ¬ (beside clock dir).Seen q → s.get? q = t.get? q := by
  have hstays := stays_extractArchive (R := beside clock dir) ⟨_, staging_own, rfl⟩
    ⟨_, extraction_own, rfl⟩ codec
  obtain ⟨result, s, hrun, -, -, hsame⟩ := run_minds cred now (hstays.weaken fun _ => Or.inl)
    (prompt_extractArchive _ _ _) h.ordinary
  rcases result with e | _
  · refine ⟨e, s, ?_, hsame⟩
    rw [replaceWorkspaceDirectoryFromArchivePath, extractionPath_canonical, parentOrDot_canonical,
      Prog.run_bind_ok _ (run_io_createDirAll_there now hcred h.isDir), extractArchiveAndReplace_eq,
      Prog.run_bind, hrun]
  · exact absurd (congrArg Prod.fst hrun) (run_extractArchive_none now hcred h hU)

variable (now) in
/-- Nor does any archive where a link stands that leads nowhere. -/
theorem run_replaceArchive_link (h : Received clock dir bytes t)
    (hU : layoutOf (codec.unpack bytes) = some U)
    (hname : Proper name) (hexpand : transferName "expand" clock.expand ≠ name)
    (hunaware : Unaware cred clock t dir name)
    (hdenied : ¬ GivesWay cred t (dir ++ [name]) .tarGz) :
    ∃ e s, (replaceWorkspaceDirectoryFromArchivePath codec clock.expand
        (canonical (stagingPos clock dir)) (canonical (dir ++ [name]))).run
          (FileTree.exec cred now) t =
          (some (.error e), s) ∧
      (s.get? (stagingPos clock dir)).isSome ∧ (s.get? (extractionPos clock dir)).isSome ∧
      ∀ q, ¬ (beside clock dir).Seen q → s.get? q = t.get? q := by
  obtain ⟨x, hextract, -, -, hdir, hextracted, hframe⟩ := run_extractArchive_beside now hcred h hU
  have hdenied' : ¬ GivesWay cred x (dir ++ [name]) .tarGz :=
    mt (hunaware.givesWay_iff (look_of_extracted hframe) hcred (hframe _ (entry_apart dir hexpand))
      .tarGz).mp hdenied
  obtain ⟨node, e, hnode, hlink, hfind, -⟩ := isLink_of_not_givesWay hcred hdenied'
  have hphase : ∃ e, (Replacement.tree.phase (canonical (stagingPos clock dir))
      (canonical (extractionPos clock dir)) (canonical (dir ++ [name]))).run
        (FileTree.exec cred now) x =
        (some (.error e), x) := by
    by_cases hmissing : e = .noent
    · subst hmissing
      obtain ⟨e, hinstall⟩ := run_installExtracted_link now hcred hexpand hname hdir
        hextracted.opens.isDir
        hextracted.opens.plain hnode hlink hfind (canonical (stagingPos clock dir))
      exact ⟨e, (Prog.run_bind_ok _ (run_removePathIfExists_missing now hfind)).trans hinstall⟩
    · refine ⟨.io (.os e), ?_⟩
      rw [Replacement.phase, Prog.run_bind, run_removePathIfExists_error now hfind hmissing]
  obtain ⟨e, hphase⟩ := hphase
  refine ⟨e, x, ?_, Option.isSome_iff_ne_none.mpr hextracted.staged.1,
    FileTree.isSome_of_isDir hextracted.opens.isDir, fun q hq => hframe q fun hpre => ?_⟩
  · rw [replaceWorkspaceDirectoryFromArchivePath, extractionPath_canonical, parentOrDot_canonical,
      Prog.run_bind_ok _ (run_io_createDirAll_there now hcred h.isDir), extractArchiveAndReplace_eq,
      Prog.run_bind_ok _ hextract]
    exact hphase
  · exact hq (Region.seen_of_own ((beside clock dir).below _ _ extraction_own hpre))

variable (now) in
/-- The staging file takes the place of what stood at the target. -/
theorem run_replaceFile (h : Received clock dir bytes t) (hname : Proper name)
    (hstaging : transferName "import" clock.staging ≠ name)
    (hexpand : transferName "expand" clock.expand ≠ name)
    (hgives : GivesWay cred t (dir ++ [name]) .raw) :
    ∃ s, (replaceWorkspaceFileFromStaging (canonical (stagingPos clock dir))
        (canonical (dir ++ [name]))).run (FileTree.exec cred now) t = (some (.ok ()), s) ∧
      Shows s (dir ++ [name]) (fileLayout bytes) ∧
      Tidied t s dir (transferName "import" clock.staging)
        (transferName "expand" clock.expand) name := by
  obtain ⟨u, hremove, hnot, hkept⟩ := run_removeEntry_file now hcred h.isDir hgives
  obtain ⟨attrs, hfile⟩ := h.staging
  have hout : ¬ dir ++ [name] <+: stagingPos clock dir := entry_apart dir hstaging.symm
  have hsource : u.get? (stagingPos clock dir) = some ⟨.file bytes false, attrs⟩ := by
    rw [hkept _ hout, hfile]
  have hdir : u.isDir dir = true := by
    rw [FileTree.isDir, hkept _ (not_entry_above dir name)]
    exact h.isDir
  have hcheck : ∀ crossing, u.renameCheck cred (stagingPos clock dir) ⟨.file bytes false, attrs⟩
      crossing
      (dir ++ [name]) = .ok () := by
    intro crossing
    have hkind : Node.isDir ⟨.file bytes false, attrs⟩ = false := rfl
    rw [FileTree.renameCheck_privileged hcred hsource, hnot, FileTree.children_of_not_dir hnot,
      hkind,
      if_pos (Or.inl rfl)]
    rfl
  obtain ⟨s, hrename, hmoved⟩ := FileTree.exec_rename_of_check now hcred hdir hdir hname hsource
    (not_entry_above dir _) hout (hcheck _)
  have hplaced : ∀ q, s.get? (dir ++ [name] ++ q) = u.get? (stagingPos clock dir ++ q) :=
    hmoved.subtree
  refine ⟨s, ?_, fun q => ?_, fun q => ?_, fun _ q => ?_, fun q hq => ?_⟩
  · have hmove :
        (io (sys (.rename (canonical (stagingPos clock dir)) (canonical (dir ++ [name]))))).run
        (FileTree.exec cred now) u = (some (.ok ()), s) := by
      rw [io, Prog.run_mapError, stagingPos, run_sys_of_ok hrename]
      rfl
    rw [replaceWorkspaceFileFromStaging, PathBuf.parent_canonical_concat]
    dsimp only
    rw [Prog.run_bind_ok _ (run_io_createDirAll_there now hcred h.isDir),
      Prog.run_bind_ok _ hremove]
    exact hmove
  · rw [hplaced]
    cases q with
    | nil =>
      rw [List.append_nil, hsource]
      rfl
    | cons first q =>
      rw [FileTree.get?_append_eq_none hsource rfl]
      rfl
  · rw [hmoved.other (entries_apart hexpand.symm q) (entries_apart (transferName_ne _ _) q),
      hkept _ (entries_apart hexpand.symm q)]
    exact FileTree.get?_none_below h.extraction_free (List.prefix_append _ _)
  · exact hmoved.source (entries_apart hstaging.symm q) (List.prefix_append _ _)
  · rw [hmoved.other (hq name (by simp)) (hq _ (by simp)), hkept _ (hq name (by simp))]

variable (now) in
/-- Nor does it where what a link leads to cannot be examined. -/
theorem run_replaceFile_link (h : Received clock dir bytes t)
    (hdenied : ¬ GivesWay cred t (dir ++ [name]) .raw) :
    ∃ e, (replaceWorkspaceFileFromStaging (canonical (stagingPos clock dir))
      (canonical (dir ++ [name]))).run (FileTree.exec cred now) t = (some (.error e), t) := by
  obtain ⟨-, e, -, -, hfind, hmissing⟩ := isLink_of_not_givesWay hcred hdenied
  refine ⟨.io (.os e), ?_⟩
  rw [replaceWorkspaceFileFromStaging, PathBuf.parent_canonical_concat]
  dsimp only
  rw [Prog.run_bind_ok _ (run_io_createDirAll_there now hcred h.isDir), Prog.run_bind,
    run_removePathIfExists_error now hfind fun heq => hmissing heq rfl]

end Archive

/-! ### The import -/

section Total

variable (cfg : ServiceConfig) {clock : ImportClock} {header : ImportHeader} {rest : ImportStream}
  {bytes : List UInt8} {V : ArchiveLayout}

omit hcred in
/-- What the bytes of an object stand for: a file that holds them, or what the archive
    describes, without a sole directory around it. -/
def Depicts (codec : Codec) (bytes : List UInt8) (V : ArchiveLayout) : WorkspaceObjectEncoding →
    Prop
  | .raw => V = fileLayout bytes
  | .tarGz => ∃ U, layoutOf (codec.unpack bytes) = some U ∧ U.Unwrapped V
  | .unspecified => False

omit hcred in
theorem Depicts.eq {codec : Codec} {V' : ArchiveLayout} {encoding : WorkspaceObjectEncoding}
    (h : Depicts codec bytes V encoding) (h' : Depicts codec bytes V' encoding) : V = V' := by
  cases encoding with
  | raw => exact Eq.trans h h'.symm
  | tarGz =>
    obtain ⟨U, hU, hV⟩ := h
    obtain ⟨U', hU', hV'⟩ := h'
    obtain rfl := Option.some.inj (hU.symm.trans hU')
    exact hV.eq hV'
  | unspecified => exact absurd h id

variable (now) in
/-- An object that stands for something is installed. -/
theorem run_installObject_ok (h : Received clock dir bytes t)
    (hV : Depicts cfg.codec bytes V (.ofInt header.encoding)) (hname : Proper name)
    (hstaging : transferName "import" clock.staging ≠ name)
    (hexpand : transferName "expand" clock.expand ≠ name)
    (hunaware : Unaware cred clock t dir name)
    (hgives : GivesWay cred t (dir ++ [name]) (.ofInt header.encoding)) (count : Nat) :
    ∃ contentType s, (installObject cfg clock header (canonical (stagingPos clock dir))
        (canonical (dir ++ [name])) count).run (FileTree.exec cred now) t =
          (some (.ok ⟨count, contentType⟩), s) ∧
      Shows s (dir ++ [name]) V ∧
      Tidied t s dir (transferName "import" clock.staging)
        (transferName "expand" clock.expand) name := by
  cases hencoding : WorkspaceObjectEncoding.ofInt header.encoding with
  | raw =>
    rw [hencoding] at hV hgives
    obtain rfl : V = fileLayout bytes := hV
    obtain ⟨s, hreplace, hshows, htidied⟩ :=
      run_replaceFile now hcred h hname hstaging hexpand hgives
    refine ⟨if isBlank header.contentType then "application/octet-stream" else header.contentType,
      s, ?_,
      hshows, htidied⟩
    simp only [installObject, hencoding]
    rw [Prog.run_bind, rpc, Prog.run_mapError, hreplace]
    rfl
  | tarGz =>
    rw [hencoding] at hV hgives
    obtain ⟨U, hU, hunwrapped⟩ := hV
    obtain ⟨s, V', hreplace, hunwrapped', hshows, htidied⟩ :=
      run_replaceArchive now hcred h hU hname hexpand hunaware hgives
    obtain rfl := hunwrapped.eq hunwrapped'
    refine ⟨"application/gzip", s, ?_, hshows, htidied⟩
    simp only [installObject, hencoding]
    rw [Prog.run_bind, rpc, Prog.run_mapError, hreplace]
    rfl
  | unspecified =>
    rw [hencoding] at hV
    exact absurd hV id

variable (now) in
/-- An object that stands for nothing is not, and none where a link is in its way. -/
theorem run_installObject_refused (h : Received clock dir bytes t) (hname : Proper name)
    (hexpand : transferName "expand" clock.expand ≠ name) (hunaware : Unaware cred clock t dir name)
    (hrefused : (∀ V, ¬ Depicts cfg.codec bytes V (.ofInt header.encoding)) ∨
      ¬ GivesWay cred t (dir ++ [name]) (.ofInt header.encoding)) (count : Nat) :
    ∃ status s, (installObject cfg clock header (canonical (stagingPos clock dir))
        (canonical (dir ++ [name])) count).run (FileTree.exec cred now) t =
          (some (.error status), s) ∧
      ∀ q, ¬ (beside clock dir).Seen q → s.get? q = t.get? q := by
  cases hencoding : WorkspaceObjectEncoding.ofInt header.encoding with
  | raw =>
    rw [hencoding] at hrefused
    have hdenied := hrefused.resolve_left fun hnone => hnone (fileLayout bytes) rfl
    obtain ⟨e, hreplace⟩ := run_replaceFile_link now hcred h hdenied
    refine ⟨e.toStatus, t, ?_, fun q _ => rfl⟩
    simp only [installObject, hencoding]
    rw [Prog.run_bind, rpc, Prog.run_mapError, hreplace]
    rfl
  | tarGz =>
    rw [hencoding] at hrefused
    obtain ⟨e, s, hreplace, hsame⟩ : ∃ e s,
        (replaceWorkspaceDirectoryFromArchivePath cfg.codec clock.expand
        (canonical (stagingPos clock dir)) (canonical (dir ++ [name]))).run
          (FileTree.exec cred now) t =
          (some (.error e), s) ∧ ∀ q, ¬ (beside clock dir).Seen q → s.get? q = t.get? q := by
      rcases hU : layoutOf (cfg.codec.unpack bytes) with _ | U
      · exact run_replaceArchive_none now name hcred h hU
      · have hdenied : ¬ GivesWay cred t (dir ++ [name]) .tarGz :=
          hrefused.resolve_left fun hnone => by
          obtain ⟨V, hV⟩ := U.exists_unwrapped
          exact hnone V ⟨U, hU, hV⟩
        obtain ⟨e, s, hreplace, -, -, hsame⟩ :=
          run_replaceArchive_link now hcred h hU hname hexpand hunaware hdenied
        exact ⟨e, s, hreplace, hsame⟩
    refine ⟨e.toStatus, s, ?_, hsame⟩
    simp only [installObject, hencoding]
    rw [Prog.run_bind, rpc, Prog.run_mapError, hreplace]
    rfl
  | unspecified => exact run_import_unspecified cfg clock cred now h hencoding _ count

-- The tree takes any name; no file system does.
/-- Names a file system can hold: no NUL in them, and at most 255 bytes. -/
def Storable (p : Pos) : Prop := ∀ n ∈ p, Char.ofNat 0 ∉ n.toList ∧ (utf8 n).length ≤ 255

instance (p : Pos) : Decidable (Storable p) := by unfold Storable; infer_instance

variable (cred) in
omit hcred in
/-- An import is aimed here: its target is an entry strictly below the home, which can be
    there, above it there is nothing but directories, and the names made up on the way are
    free and not where a link at the target leads. -/
structure Aimed (cfg : ServiceConfig) (clock : ImportClock) (header : ImportHeader) (t : FileTree)
    (dir : Pos) (name : String) : Prop where
  resolve : resolvePath cfg.root header.workspaceId header.targetPath =
    .ok (canonical (dir ++ [name]))
  below : homePos cfg.root header.workspaceId <+: dir
  storable : Storable (dir ++ [name])
  passable : Passable t dir
  fresh : Fresh clock t dir name
  unaware : Unaware cred clock t dir name

variable (cred) in
omit hcred in
/-- And it may be made, if what stands at the target gives way. -/
structure Welcome (cfg : ServiceConfig) (clock : ImportClock) (header : ImportHeader) (t : FileTree)
    (dir : Pos) (name : String) : Prop extends Aimed cred cfg clock header t dir name where
  gives : GivesWay cred t (dir ++ [name]) (.ofInt header.encoding)

/-- Where no link stands at the target, nothing is in the way. -/
theorem welcome_of_plain
    (hresolve : resolvePath cfg.root header.workspaceId header.targetPath =
      .ok (canonical (dir ++ [name])))
    (hhome : homePos cfg.root header.workspaceId <+: dir) (hnames : Storable (dir ++ [name]))
    (hopen : Passable t dir)
    (hplain : ∀ node, t.get? (dir ++ [name]) = some node → node.isLink = false)
    (hfresh : Fresh clock t dir name) :
    Welcome cred cfg clock header t dir name := by
  have hlinked : ∀ node, t.get? (dir ++ [name]) = some node → node.isLink = true → False := by
    intro node hnode hlink
    rw [hplain node hnode] at hlink
    cases hlink
  refine ⟨⟨hresolve, hhome, hnames, hopen, hfresh, fun node hnode hlink =>
    absurd (hlinked node hnode hlink) id⟩, ?_⟩
  by_contra hdenied
  obtain ⟨node, _, hnode, hlink, -⟩ := isLink_of_not_givesWay hcred hdenied
  exact hlinked node hnode hlink

omit hcred in
theorem Aimed.proper (hroot : RootPath cfg.root) (h : Aimed cred cfg clock header t dir name) :
    Proper name := by
  obtain ⟨-, p, hp, -, -, hproper⟩ := resolvePath_eq_ok hroot h.resolve
  obtain rfl := canonical_injective hp
  exact hproper name (by simp)

/-- Receiving an object does not change what stands at the target, nor where a link leads. -/
theorem Aimed.received (h : Aimed cred cfg clock header t dir name) {u : FileTree}
    (hframe : ∀ q, ¬ stagingPos clock dir <+: q → (¬ q <+: dir → u.get? q = t.get? q) ∧
      Paved (homePos cfg.root header.workspaceId) t u q) :
    Unaware cred clock u dir name ∧ ∀ encoding,
      GivesWay cred u (dir ++ [name]) encoding ↔ GivesWay cred t (dir ++ [name]) encoding := by
  have htarget : u.get? (dir ++ [name]) = t.get? (dir ++ [name]) :=
    (hframe _ (entry_apart dir h.fresh.staging_ne)).1 (not_entry_above dir name)
  rcases hnode : t.get? (dir ++ [name]) with _ | node
  · refine ⟨fun node hnode' => ?_, fun encoding =>
      iff_of_true (Or.inl (htarget.trans hnode)) (Or.inl hnode)⟩
    rw [htarget, hnode] at hnode'
    cases hnode'
  · have hthere : t.isDir dir = true := FileTree.isDir_parent (by rw [hnode]; rfl)
    have hlook : ∀ q, ¬ stagingPos clock dir <+: q → ¬ extractionPos clock dir <+: q →
        t.look cred q = u.look cred q := by
      intro q hq _
      obtain ⟨hout, hpaved⟩ := hframe q hq
      rcases hpaved with hsame | ⟨hmissing, -⟩ | ⟨-, old, attrs, hold, hnew⟩
      · exact FileTree.look_congr hsame.symm
      · refine FileTree.look_congr (hout fun hpre => ?_).symm
        have hsome := FileTree.isSome_above (FileTree.isSome_of_isDir hthere) hpre
        rw [hmissing] at hsome
        cases hsome
      · simp only [FileTree.look, hold, hnew, Node.view, Cred.may_of_privileged hcred]
    exact ⟨h.unaware.of_alike hlook htarget, h.unaware.givesWay_iff hlook hcred htarget⟩

variable (now) in
/-- Chunks that stand for something are imported. -/
theorem run_importObject_ok (hroot : RootPath cfg.root)
    (h : Welcome cred cfg clock header t dir name)
    (hrest : payload rest = some bytes) (hV : Depicts cfg.codec bytes V (.ofInt header.encoding)) :
    ∃ contentType s, (importObject cfg clock header rest).run (FileTree.exec cred now) t =
        (some (.ok ⟨min bytes.length maxBytesWritten, contentType⟩), s) ∧
      Shows s (dir ++ [name]) V ∧
      ∀ q, ¬ dir ++ [name] <+: q → (¬ q <+: dir → s.get? q = t.get? q) ∧
        Paved (homePos cfg.root header.workspaceId) t s q := by
  obtain ⟨u, hreceive, hreceived, hframe⟩ :=
    run_receiveObject_ok now hcred cfg clock hroot h.resolve h.below h.passable h.fresh hrest
  obtain ⟨hunaware, hgives⟩ := h.toAimed.received hcred cfg hframe
  obtain ⟨contentType, s, hinstall, hshows, htidied⟩ :=
    run_installObject_ok now hcred cfg hreceived hV
    (h.toAimed.proper cfg hroot) h.fresh.staging_ne h.fresh.extraction_ne hunaware
      ((hgives _).mpr h.gives)
    (min bytes.length maxBytesWritten)
  have hstaging : s.get? (stagingPos clock dir) = none := by
    have hgone := htidied.removed h.fresh.staging_ne []
    rwa [List.append_nil] at hgone
  have hextraction : s.get? (extractionPos clock dir) = none := by
    have hgone := htidied.extraction []
    rwa [List.append_nil] at hgone
  -- nothing is left to be removed
  have hunlink : (ignore (sys (.unlink (canonical (stagingPos clock dir)))) : Fs Status Unit).run
      (FileTree.exec cred now) s = (some (.ok ()), s) := by
    have hdir : s.isDir dir = true := by
      rw [FileTree.isDir, htidied.same _ fun n _ => not_entry_above dir n]
      exact hreceived.isDir
    have hclear := (ordinary_beside hdir (fun node hnode => by rw [hstaging] at hnode; cases hnode)
      hextraction).clear
    have hsame := run_ignore_unlink cred now (ε := Status) hclear (Region.seen_of_own staging_own)
      hstaging
    rw [run_ignore_ok (by simp) (by simp)] at hsame ⊢
    exact congrArg _ hsame
  refine ⟨contentType, s, ?_, hshows, fun q hq => ?_⟩
  · rw [importObject_eq, Prog.run_bind_ok _ hreceive, finishImport, stagingPath_canonical]
    dsimp only
    rw [Prog.run_bind_ok _ hinstall, Prog.run_bind_ok _ hunlink]
    rfl
  · by_cases hbelow : stagingPos clock dir <+: q
    · have hsame : s.get? q = t.get? q := by
        rw [FileTree.get?_none_below hstaging hbelow,
          FileTree.get?_none_below h.fresh.staging_free hbelow]
      exact ⟨fun _ => hsame, Or.inl hsame⟩
    by_cases hbelow' : extractionPos clock dir <+: q
    · have hsame : s.get? q = t.get? q := by
        rw [FileTree.get?_none_below hextraction hbelow',
          FileTree.get?_none_below h.fresh.extraction_free hbelow']
      exact ⟨fun _ => hsame, Or.inl hsame⟩
    · have hsame : s.get? q = u.get? q := by
        apply htidied.same
        simp only [List.forall_mem_cons]
        exact ⟨hq, hbelow', hbelow, fun _ h => absurd h List.not_mem_nil⟩
      obtain ⟨hout, hpaved⟩ := hframe q hbelow
      exact ⟨fun hnot => hsame.trans (hout hnot), hpaved.of_same hsame⟩

variable (now) in
/-- All others are refused. -/
theorem run_importObject_refused (hroot : RootPath cfg.root)
    (h : Aimed cred cfg clock header t dir name)
    (hrefused : (∀ bytes V, payload rest = some bytes →
      ¬ Depicts cfg.codec bytes V (.ofInt header.encoding)) ∨
      ¬ GivesWay cred t (dir ++ [name]) (.ofInt header.encoding)) :
    ∃ status s, (importObject cfg clock header rest).run (FileTree.exec cred now) t =
        (some (.error status), s) ∧
      ∀ q, ¬ (beside clock dir).Seen q → s.get? q = t.get? q := by
  rcases hrest : payload rest with _ | bytes
  · exact run_import_rejected cfg clock cred now name hroot h.resolve h.below h.fresh
      (Or.inr (Or.inl hrest))
  · obtain ⟨u, hreceive, hreceived, hframe⟩ :=
      run_receiveObject_ok now hcred cfg clock hroot h.resolve h.below h.passable h.fresh hrest
    obtain ⟨hunaware, hgives⟩ := h.received hcred cfg hframe
    obtain ⟨status, s, hinstall, hsame⟩ :=
      run_installObject_refused now hcred cfg hreceived (h.proper cfg hroot)
      h.fresh.extraction_ne hunaware
        (hrefused.imp (fun hnone V => hnone bytes V hrest) (mt (hgives _).mp))
      (min bytes.length maxBytesWritten)
    refine ⟨status, s, ?_, fun q hq => ?_⟩
    · rw [importObject_eq, Prog.run_bind_ok _ hreceive, finishImport, stagingPath_canonical,
        Prog.run_bind,
        hinstall]
    · rw [hsame q hq]
      rw [seen_beside, not_or, not_or] at hq
      exact (hframe q hq.2.1).1 hq.1

end Total

variable (cred now) in
/-- **Imports replace what gives way.**  Where the service may do everything and an import
    is aimed, and its chunks stand for a file or for the tree of an archive, it succeeds if
    and only if what stands at the target gives way.  Exactly what was brought stands then
    in its place, and what a link there led to is as it was. -/
theorem import_replaces_iff (cfg : ServiceConfig) (clock : ImportClock) (hroot : RootPath cfg.root)
    (t : FileTree) (header : ImportHeader) (rest : ImportStream) (dir : Pos) (name : String)
    (h : Aimed cred cfg clock header t dir name) {bytes : List UInt8} {V : ArchiveLayout}
    (hrest : payload rest = some bytes) (hV : Depicts cfg.codec bytes V (.ofInt header.encoding)) :
    (∃ response s, (doImportWorkspaceObject cfg clock (.ok (.header header) :: rest)).run
        (FileTree.exec cred now) t = (some (.ok response), s) ∧ Shows s (dir ++ [name]) V ∧
      ∀ q, ¬ dir ++ [name] <+: q → (¬ q <+: dir → s.get? q = t.get? q) ∧
        Paved (homePos cfg.root header.workspaceId) t s q) ↔
      GivesWay cred t (dir ++ [name]) (.ofInt header.encoding) := by
  constructor
  · rintro ⟨response, s, hrun, -, -⟩
    by_contra hdenied
    obtain ⟨status, u, hrefused, -⟩ :=
      run_importObject_refused now hcred cfg hroot h (Or.inr hdenied)
    cases congrArg Prod.fst (hrun.symm.trans hrefused)
  · intro hgives
    obtain ⟨contentType, s, hrun, hshows, hframe⟩ :=
      run_importObject_ok now hcred cfg hroot ⟨h, hgives⟩ hrest hV
    exact ⟨_, s, hrun, hshows, hframe⟩

end Success

/-- A service whose archives hold one directory with one file. -/
def wrappedConfig : ServiceConfig where
  root := "/srv"
  agentUid := 1000
  agentGid := 1000
  fetch := ⟨30, 1048576, false⟩
  oss := ⟨"", 8388608, 8388608, 600, ⟨none, .ok "upload", fun _ => none, none, none⟩⟩
  codec := ⟨fun _ => [], fun _ => [.entry ⟨"d", .directory, true, 0o755, 0, 0, 1, []⟩ true,
    .entry ⟨"d/k", .regular, true, 0o644, 0, 0, 1, [107]⟩ true]⟩
  sha256 := fun _ => ""

/-- The file `b` of the sample host may be replaced. -/
theorem welcome_file (cfg : ServiceConfig) (hroot : cfg.root = "/srv") (encoding : Int) :
    Welcome rootUser cfg ⟨0, 0⟩ ⟨"w1", "b", encoding, ""⟩ sampleHost ["srv", "w1", "home"] "b" := by
  have hresolve : resolvePath cfg.root "w1" "b" = .ok (canonical ["srv", "w1", "home", "b"]) := by
    rw [hroot]
    decide
  have hhome : homePos cfg.root "w1" <+: ["srv", "w1", "home"] := by
    rw [hroot]
    decide
  exact welcome_of_plain rfl cfg hresolve hhome (by decide) (passable_of_isDir (by decide))
    (fun node hnode => FileTree.symlinkFree_ofEntries (by decide) _ node hnode)
    ⟨by decide, by decide, by decide, by decide,
      fun q node _ hnode => FileTree.symlinkFree_ofEntries (by decide) q node hnode⟩

/-- A directory takes the place of the file `b`; the one around it is left out. -/
theorem import_replaces_sampleHost : ∃ response s,
    (doImportWorkspaceObject wrappedConfig ⟨0, 0⟩
        [.ok (.header ⟨"w1", "b", 2, ""⟩), .ok (.chunk [31])]).run
      (FileTree.exec rootUser 7) sampleHost = (some (.ok response), s) ∧
    (s.get? ["srv", "w1", "home", "b", "k"]).map Node.kind = some (.file [107] false) := by
  have hroot : RootPath wrappedConfig.root := ⟨by decide, by decide⟩
  let U : ArchiveLayout := (Layout.put (Layout.put .bare ["d"] .dir) ["d", "k"] (.leaf [107]))
  have hU : layoutOf (wrappedConfig.codec.unpack [31]) = some U := rfl
  have hsole : U.Sole "d" := by
    refine ⟨by decide, fun other hother => ?_⟩
    by_contra hne
    apply hother
    simp [U, Layout.put, Layout.bare, hne]
  have hwelcome := welcome_file wrappedConfig rfl 2
  have hV : Depicts wrappedConfig.codec [31] (U.below "d") .tarGz :=
    ⟨U, hU, Or.inl ⟨"d", hsole, rfl⟩⟩
  obtain ⟨response, s, hrun, hshows, -⟩ :=
    (import_replaces_iff rootUser 7 rfl wrappedConfig ⟨0, 0⟩ hroot
    sampleHost ⟨"w1", "b", 2, ""⟩ [.ok (.chunk [31])] ["srv", "w1", "home"] "b" hwelcome.toAimed rfl
      hV).mpr
      hwelcome.gives
  exact ⟨response, s, hrun, hshows ["k"]⟩

/-- A home with a link to a path that is missing, and one to itself. -/
def brokenLinkHost : FileTree := .ofEntries
  [([], hostDir), (["srv"], hostDir), (["srv", "w1"], hostDir), (["srv", "w1", "home"], hostDir),
    (["srv", "w1", "home", "l"], ⟨.link "missing", ⟨0o777, 1000, 1000, 0⟩⟩),
    (["srv", "w1", "home", "o"], ⟨.link "o", ⟨0o777, 1000, 1000, 0⟩⟩)]
  (by decide)

/-- How an import into the home of `w1` ends, and what it leaves at the target. -/
def importedAt (targetPath : String) (encoding : Int) : Option Bool × Option Node :=
  let (result, s) := (doImportWorkspaceObject wrappedConfig ⟨0, 0⟩
    [.ok (.header ⟨"w1", targetPath, encoding, ""⟩), .ok (.chunk [31])]).run
      (FileTree.exec rootUser 7) brokenLinkHost
  (result.map Except.isOk, s.get? ["srv", "w1", "home", targetPath])

/-- An archive does not replace a link that leads nowhere, and neither an archive nor a file
    one to itself. -/
theorem import_stopped_by_links :
    importedAt "l" 2 = (some false, some ⟨.link "missing", ⟨0o777, 1000, 1000, 0⟩⟩) ∧
    importedAt "o" 2 = (some false, some ⟨.link "o", ⟨0o777, 1000, 1000, 0⟩⟩) ∧
    importedAt "o" 1 = (some false, some ⟨.link "o", ⟨0o777, 1000, 1000, 0⟩⟩) :=
  ⟨by decide, by decide, by decide⟩

end Scriptorium
