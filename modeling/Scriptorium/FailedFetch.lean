import Scriptorium.FetchBody
import Scriptorium.Confinement

/-!
# A fetch that fails

`fetch_to_file` makes room for the body before it has received any of it: the old
file is removed, an empty one is created in its place, and only then the first chunk
is awaited.  `failedFetch_keeps_iff` says when a fetch that ends in an error has
nevertheless left its target alone.  The timeout of the client shows as the failure
of the request or of a chunk.
-/

namespace Scriptorium

open Posix Effects

/-! ### What a path holds -/

/-- The subtree at the directory entry a path names. -/
def subtreeAt (cred : Cred) (t : FileTree) (path : PathBuf) (rest : Pos) : Option Node :=
  match t.slot cred path with
  | .ok (dir, name) => t.get? (dir ++ [name] ++ rest)
  | .error _ => none

/-- The node a path leads to. -/
def nodeBehind (cred : Cred) (t : FileTree) (path : PathBuf) : Option Node :=
  match t.find cred path with
  | .ok (_, node) => some node
  | .error _ => none

/-- The target holds in `t'` what it held in `t`: its entry is the same, it leads to
    the same node, and nothing else has happened but that directories were made. -/
structure TargetKept (cred : Cred) (target : PathBuf) (t t' : FileTree) : Prop where
  entry : subtreeAt cred t' target = subtreeAt cred t target
  behind : nodeBehind cred t' target = nodeBehind cred t target
  nodes : ∀ q, t'.get? q = t.get? q ∨ (t.get? q = none ∧ t'.isDir q = true)

section

variable {cred : Cred} {now : Nat} {target : PathBuf} {t t' t'' : FileTree}

theorem TargetKept.refl : TargetKept cred target t t := ⟨rfl, rfl, fun _ => Or.inl rfl⟩

theorem TargetKept.trans (h : TargetKept cred target t t') (h' : TargetKept cred target t' t'') :
    TargetKept cred target t t'' := by
  refine ⟨h'.entry.trans h.entry, h'.behind.trans h.behind, fun q => ?_⟩
  rcases h.nodes q with hsame | ⟨hnone, hdir⟩
  · rw [← hsame]
    exact h'.nodes q
  · rcases h'.nodes q with hsame' | ⟨hnone', -⟩
    · right
      refine ⟨hnone, ?_⟩
      rw [FileTree.isDir, hsame']
      exact hdir
    · rw [FileTree.isDir, hnone'] at hdir
      cases hdir

/-- What stands at the same positions is seen at the same paths. -/
theorem TargetKept.congr (h : ∀ q, t'.get? q = t.get? q) : TargetKept cred target t t' := by
  have hlook : t'.look cred = t.look cred := funext fun q => FileTree.look_congr (h q)
  refine ⟨?_, ?_, fun q => Or.inl (h q)⟩
  · funext rest
    simp only [subtreeAt, FileTree.slot, hlook, h]
  · simp only [nodeBehind, FileTree.find, hlook, h]

/-- A file, link or pipe that was there still is, and nothing else can have become one. -/
theorem TargetKept.get?_eq_some (h : TargetKept cred target t t') {q : Pos} {node : Node}
    (hnode : node.isDir = false) : t'.get? q = some node ↔ t.get? q = some node := by
  rcases h.nodes q with hsame | ⟨hnone, hdir⟩
  · rw [hsame]
  · rw [hnone]
    obtain ⟨other, hother, hisDir⟩ := FileTree.isDir_iff.mp hdir
    rw [hother]
    constructor
    · rintro h
      obtain rfl := Option.some.inj h
      rw [hnode] at hisDir
      cases hisDir
    · intro h
      cases h

/-! ### Making the directory of the target -/

theorem subtreeAt_eq_none {path : PathBuf}
    (h : ∀ dir name, t.slot cred path = .ok (dir, name) → t.get? (dir ++ [name]) = none) :
    subtreeAt cred t path = fun _ => none := by
  funext rest
  unfold subtreeAt
  split
  · rename_i dir name hslot
    exact FileTree.get?_none_below (h dir name hslot) (List.prefix_append _ _)
  · rfl

theorem nodeBehind_eq_none {path : PathBuf} {e : Errno}
    (h : walk (t.look cred) maxLinks [] path = .error e) : nodeBehind cred t path = none := by
  simp [nodeBehind, FileTree.find, h]

/-- Beyond a missing name a path leads nowhere. -/
theorem walk_beyond {look : Pos → View} {path : PathBuf} {e : Errno}
    (h : walk look maxLinks [] path = .error e) (names : Pos) :
    ∃ e, walk look maxLinks [] (path ++ names.map .normal) = .error e := by
  cases names with
  | nil => exact ⟨e, by simpa using h⟩
  | cons name names =>
    refine ⟨e, ?_⟩
    rw [walk, ((resolve_append _ (by simp)).2 e h).1]

/-- Nor does it beyond an empty directory. -/
theorem walk_into_empty {look : Pos → View} {path : PathBuf} {p : Pos}
    (h : walk look maxLinks [] path = .ok p) {name : String} (hempty : look (p ++ [name]) = .absent)
    (names : Pos) : ∃ e, walk look maxLinks [] (path ++ (name :: names).map .normal) =
      .error e := by
  obtain ⟨fewer, -, hres, -⟩ := (resolve_append ((name :: names).map .normal) (by simp)).1 p h
  rw [walk, hres, List.map_cons, resolve_normal]
  rcases hsearch : search look p with e | _
  · exact ⟨e, rfl⟩
  · refine ⟨.noent, ?_⟩
    simp only [hempty]
    by_cases hnil : names = []
    · simp [hnil]
    · simp [hnil]

/-- Making a directory above the target does not change what the target holds: nothing
    before, because the directory was missing, and nothing after, because it is empty. -/
theorem targetKept_mkdir {p q : Pos} (hpq : p <+: q) (hne : p ≠ q) :
    TargetKept cred (canonical q) t (FileTree.exec cred now (.mkdir (canonical p)) t).2 := by
  simp only [FileTree.exec]
  rcases FileTree.mkdir_cases cred now t (canonical p) with
    ⟨e, he⟩ | ⟨dir, name, hdir, hfree, hname, hslot, hadd⟩
  · rw [he]
    exact TargetKept.refl
  · rw [hadd]
    obtain ⟨hpath, hwalk, hlook⟩ := FileTree.slot_eq_ok hslot
    obtain ⟨rest, rfl⟩ := hpq
    have hrest : rest ≠ [] := by simpa using hne
    have hcanonical : ∀ names : Pos, canonical (p ++ names) = canonical p ++ names.map .normal := by
      intro names
      simp [canonical]
    generalize hmade : t.add dir name ⟨.dir, FileTree.newAttrs cred now 0o777⟩ hdir hfree hname =
      made
    have hget : ∀ r, made.get? r =
        if r = dir ++ [name] then some ⟨.dir, FileTree.newAttrs cred now 0o777⟩ else t.get? r := by
      intro r
      rw [← hmade, FileTree.get?_add]
    -- the walk to the directory: missing before, there afterwards
    have hbefore : walk (t.look cred) maxLinks [] (canonical p) = .error .noent := by
      rw [hpath]
      exact walk_missing hwalk hlook (FileTree.look_eq_absent.mpr hfree)
    have hsee : ∀ r, t.look cred r ≠ .absent → made.look cred r = t.look cred r := by
      intro r hr
      apply FileTree.look_congr
      rw [hget, if_neg]
      rintro rfl
      exact hr (FileTree.look_eq_absent.mpr hfree)
    have hnew : made.look cred (dir ++ [name]) =
        .dir (cred.may (FileTree.newAttrs cred now 0o777) .search) := by
      simp [FileTree.look, hget, Node.view]
    have hafter : walk (made.look cred) maxLinks [] (canonical p) = .ok (dir ++ [name]) := by
      rw [hpath]
      refine walk_child (walk_extend hsee hwalk) ?_ (by simp [hnew]) (by simp [hnew])
      rw [hsee dir (by simp [hlook]), hlook]
    have hempty : ∀ x, made.get? (dir ++ [name] ++ [x]) = none := by
      intro x
      rw [hget, if_neg (by simp), FileTree.get?_none_below hfree (List.prefix_append _ _)]
    refine ⟨?_, ?_, fun r => ?_⟩
    · obtain ⟨above, last, rfl⟩ : ∃ above last, rest = above ++ [last] :=
        ⟨rest.dropLast, rest.getLast hrest, (List.dropLast_append_getLast hrest).symm⟩
      have hconcat : canonical (p ++ (above ++ [last])) =
          canonical p ++ above.map .normal ++ [.normal last] := by
        simp [hcanonical]
      rw [hconcat, subtreeAt_eq_none, subtreeAt_eq_none]
      · intro dir' name' hslot'
        obtain ⟨e, he⟩ := walk_beyond hbefore above
        rw [FileTree.slot_concat, he] at hslot'
        cases hslot'
      · intro dir' name' hslot'
        cases above with
        | nil =>
          rw [List.map_nil, List.append_nil, FileTree.slot_concat, hafter] at hslot'
          simp only at hslot'
          split at hslot'
          · cases hslot'
          · obtain ⟨rfl, rfl⟩ := Prod.mk.inj (Except.ok.inj hslot')
            exact hempty last
        | cons x above =>
          obtain ⟨e, he⟩ := walk_into_empty hafter (FileTree.look_eq_absent.mpr (hempty x)) above
          rw [FileTree.slot_concat, he] at hslot'
          cases hslot'
    · obtain ⟨e, he⟩ := walk_beyond hbefore rest
      rw [hcanonical, nodeBehind_eq_none he]
      cases rest with
      | nil => exact absurd rfl hrest
      | cons x rest =>
        obtain ⟨e, he⟩ := walk_into_empty hafter (FileTree.look_eq_absent.mpr (hempty x)) rest
        rw [nodeBehind_eq_none he]
    · rw [hget]
      by_cases hr : r = dir ++ [name]
      · subst hr
        exact Or.inr ⟨hfree, FileTree.isDir_of_look hnew⟩
      · exact Or.inl (if_neg hr)

/-- Neither does making all of them. -/
theorem targetKept_createDirAll {dir : Pos} {name : String} :
    TargetKept cred (canonical (dir ++ [name])) t
      ((createDirAll (canonical dir)).run (FileTree.exec cred now) t).2 := by
  have hwithin : (createDirAll (canonical dir)).Within
      (fun c => ∃ p, p <+: dir ∧ (c = .mkdir (canonical p) ∨ c = .fileType (canonical p)))
      (fun _ _ => True) fun _ => True := by
    refine within_createDirAll (N := fun path => ∃ p, p <+: dir ∧ path = canonical p) ?_ ?_
      ⟨dir, List.prefix_rfl, rfl⟩
    · rintro path parent ⟨p, hp, rfl⟩ hparent
      rcases List.eq_nil_or_concat' p with rfl | ⟨above, last, rfl⟩
      · cases hparent
      · rw [PathBuf.parent_canonical_concat] at hparent
        exact ⟨above, (List.prefix_append _ _).trans hp, (Option.some.inj hparent).symm⟩
    · rintro path ⟨p, hp, rfl⟩
      exact ⟨⟨p, hp, Or.inl rfl⟩, ⟨p, hp, Or.inr rfl⟩⟩
  refine hwithin.keeps (I := TargetKept cred (canonical (dir ++ [name])) t) ?_ TargetKept.refl
  rintro c s ⟨p, hp, rfl | rfl⟩ hs
  · have hne : p ≠ dir ++ [name] := by
      rintro rfl
      exact absurd hp.length_le (by simp)
    exact ⟨hs.trans (targetKept_mkdir (hp.trans (List.prefix_append _ _)) hne), trivial⟩
  · exact ⟨hs, trivial⟩

/-! ### From the removal of the old file to the end of the body -/

variable (cred now) in
/-- When, from the state `s` in which the directory of the target has been made, an
    error leaves the target alone: nothing is removed and nothing opened; or the body
    passes, so that there is no error; or what is written before the error is what the
    opened file was anyway. -/
def SparesFile (maxBodyBytes : Nat) (body : Body) (target : PathBuf) (s : FileTree) : Prop :=
  let removed := FileTree.exec cred now (.unlink target) s
  match FileTree.exec cred now (.create target) removed.2 with
  | (.error e, _) => e = .wouldblock ∨ removed.1.isOk = false
  | (.ok handle, opened) =>
    Passes maxBodyBytes 0 body ∨
      ∃ attrs, opened.get? handle = some ⟨.file [] false, attrs⟩ ∧
        s.get? handle = some ⟨.file (accepted maxBodyBytes 0 body).flatten false, attrs⟩

variable (cred now) in
/-- When a fetch that fails leaves its target alone. -/
def SparesTarget (maxBodyBytes : Nat) (reply : Except Error HttpResponse) (target : PathBuf)
    (t : FileTree) : Prop :=
  match reply with
  | .error _ => True
  | .ok resp =>
    ¬ (200 ≤ resp.status ∧ resp.status ≤ 299) ∨
      ∀ s, (createDirAll (parentOrDot target)).run (FileTree.exec cred now) t = (some (.ok ()), s) →
        SparesFile cred now maxBodyBytes resp.body target s

theorem unlink_ne_wouldblock {path : PathBuf} :
    (FileTree.exec cred now (.unlink path) t).1 ≠ .error .wouldblock := by
  simp only [FileTree.exec, FileTree.unlink]
  have hslot : t.slot cred path ≠ .error .wouldblock := FileTree.slot_ne_wouldblock
  grind

/-- After the removal of a file, `File::create` makes the new one at its entry. -/
theorem create_after_unlink {dir handle : Pos} {name : String} {s s' : FileTree}
    (hunlink : FileTree.exec cred now (.unlink (canonical (dir ++ [name]))) t = (.ok (), s))
    (hcreate : FileTree.exec cred now (.create (canonical (dir ++ [name]))) s = (.ok handle, s')) :
    ∃ node, t.get? handle = some node ∧ node.isDir = false ∧
      ∀ q, s.get? q = if handle <+: q then none else t.get? q := by
  simp only [FileTree.exec] at hunlink
  rcases FileTree.unlink_cases cred t (canonical (dir ++ [name])) with
    ⟨e, he⟩ | ⟨parent, name', node, hslot, hnode, hfile, hremoved⟩
  · rw [he] at hunlink
    cases hunlink
  · rw [hremoved] at hunlink
    obtain rfl : _ = s := congrArg Prod.snd hunlink
    have hconcat : canonical (dir ++ [name]) = canonical dir ++ [.normal name] := by
      simp [canonical]
    obtain ⟨hpath, hwalk, hlook⟩ := FileTree.slot_eq_ok hslot
    rw [hconcat, List.dropLast_concat] at hwalk hpath
    obtain rfl : name = name' := by simpa using hpath
    have hget : ∀ q, (t.removeAt parent name).get? q =
        if parent ++ [name] <+: q then none else t.get? q := fun q => FileTree.get?_removeAt
    generalize t.removeAt parent name = s at hget hcreate
    have hgone : s.look cred (parent ++ [name]) = .absent := by
      rw [FileTree.look_eq_absent, hget, if_pos List.prefix_rfl]
    have hthin : ∀ q, t.look cred q ≠ .absent → s.look cred q = t.look cred q ∨
        s.look cred q = .absent := by
      intro q _
      by_cases hq : parent ++ [name] <+: q
      · exact Or.inr (by rw [FileTree.look_eq_absent, hget, if_pos hq])
      · exact Or.inl (FileTree.look_congr (by rw [hget, if_neg hq]))
    -- the name is free now, so the file is made there, if anywhere
    have htarget : ∀ found, s.target cred (canonical (dir ++ [name])) = .ok found →
        found = .missing parent name := by
      intro found hfound
      rw [FileTree.target, hconcat] at hfound
      rcases walk_thinned hthin hwalk with hparent | ⟨e, he⟩
      · obtain ⟨fewer, -, hres, -⟩ := (resolve_append [.normal name] (by simp)).1 parent hparent
        rw [hres, resolve_normal] at hfound
        split at hfound
        · cases hfound
        · simpa [hgone] using hfound.symm
      · rw [((resolve_append [.normal name] (by simp)).2 e he).1] at hfound
        cases hfound
    have hhandle : handle = parent ++ [name] := by
      simp only [FileTree.exec] at hcreate
      rcases FileTree.create_cases cred now s (canonical (dir ++ [name])) with
        ⟨e, he⟩ | ⟨d, n, _, _, _, hmissing, hadd⟩ | ⟨p, _, _, _, hfound, -, -⟩
      · rw [he] at hcreate
        cases hcreate
      · obtain ⟨rfl, rfl⟩ := Target.missing.inj (htarget _ hmissing)
        rw [hadd] at hcreate
        exact (Except.ok.inj (congrArg Prod.fst hcreate)).symm
      · cases htarget _ hfound
    subst hhandle
    exact ⟨node, hnode, hfile, hget⟩

/-- `File::create` changes nothing but the file it opens. -/
theorem get?_of_create {handle q : Pos} {path : PathBuf} {s : FileTree}
    (h : FileTree.exec cred now (.create path) t = (.ok handle, s)) (hq : q ≠ handle) :
    s.get? q = t.get? q := by
  simp only [FileTree.exec] at h
  rcases FileTree.create_cases cred now t path with
    ⟨e, he⟩ | ⟨dir, name, _, _, _, -, hadd⟩ | ⟨p, _, _, _, -, -, hset⟩
  · rw [he] at h
    cases h
  · rw [hadd] at h
    cases h
    rw [FileTree.get?_add, if_neg hq]
  · rw [hset] at h
    cases h
    rw [FileTree.get?_setData, if_neg hq]

/-- What `let _ = …` around one call does. -/
theorem run_ignore_sys {ε : Type} {c : FsCall}
    (h : (FileTree.exec cred now c t).1 ≠ .error .wouldblock) :
    (ignore (sys c) : Fs ε Unit).run (FileTree.exec cred now) t =
      (some (.ok ()), (FileTree.exec cred now c t).2) := by
  rw [ignore, Prog.run_bind, Prog.run_attempt]
  rcases hreply : (FileTree.exec cred now c t).1 with e | out
  · rw [run_sys_error hreply fun he => h (by rw [hreply, he])]
    rfl
  · rw [run_sys_ok hreply]
    rfl

/-- The part of the fetch that removes, opens and writes. -/
def replaceFile (maxBodyBytes : Nat) (body : Body) (target : PathBuf) : Fs Error Nat := do
  ignore (sys (.unlink target))
  let handle ← io (sys (.create target))
  writeBody maxBodyBytes handle body 0

/-- If the file cannot be opened, then the run ends there, or waits. -/
theorem run_replaceFile_of_error {maxBodyBytes : Nat} {body : Body} {e : Errno} {s : FileTree}
    (h : FileTree.exec cred now (.create target) (FileTree.exec cred now (.unlink target) t).2 =
      (.error e, s)) :
    (replaceFile maxBodyBytes body target).run (FileTree.exec cred now) t =
      (if e = .wouldblock then none else some (.error (.io (.os e))),
        (FileTree.exec cred now (.unlink target) t).2) := by
  obtain rfl := FileTree.exec_error h
  rw [replaceFile, Prog.run_bind, run_ignore_sys unlink_ne_wouldblock]
  simp only
  rw [Prog.run_bind, io, Prog.run_mapError]
  by_cases he : e = .wouldblock
  · subst he
    have hspin : (sys (.create target)).run (FileTree.exec cred now)
        (FileTree.exec cred now (.unlink target) t).2 =
          (none, (FileTree.exec cred now (.unlink target) t).2) := by
      simp only [sys, Prog.run_call, h, Prog.run_spin]
    rw [hspin]
    rfl
  · rw [run_sys_of_error h he, if_neg he]
    rfl

theorem run_replaceFile_of_ok {maxBodyBytes : Nat} {body : Body} {handle : Pos} {s : FileTree}
    (h : FileTree.exec cred now (.create target) (FileTree.exec cred now (.unlink target) t).2 =
      (.ok handle, s)) :
    (replaceFile maxBodyBytes body target).run (FileTree.exec cred now) t =
      (writeBody maxBodyBytes handle body 0).run (FileTree.exec cred now) s := by
  rw [replaceFile, Prog.run_bind, run_ignore_sys unlink_ne_wouldblock]
  simp only
  rw [Prog.run_bind, io, Prog.run_mapError, run_sys_of_ok h]
  rfl

variable (now) in
theorem replaceFile_keeps_iff (maxBodyBytes : Nat) (body : Body) {dir : Pos} {name : String}
    {s : FileTree} (hkept : TargetKept cred (canonical (dir ++ [name])) t s) :
    (∀ e t', (replaceFile maxBodyBytes body (canonical (dir ++ [name]))).run
      (FileTree.exec cred now) s =
        (some (.error e), t') → TargetKept cred (canonical (dir ++ [name])) t t') ↔
      SparesFile cred now maxBodyBytes body (canonical (dir ++ [name])) s := by
  rcases hremoved : FileTree.exec cred now (.unlink (canonical (dir ++ [name]))) s with
    ⟨removal, s₁⟩
  rcases hcreate : FileTree.exec cred now (.create (canonical (dir ++ [name]))) s₁ with
    ⟨creation, s₂⟩
  have hcreate' : FileTree.exec cred now (.create (canonical (dir ++ [name])))
      (FileTree.exec cred now (.unlink (canonical (dir ++ [name]))) s).2 = (creation, s₂) := by
    rw [hremoved, hcreate]
  cases creation with
  | error e =>
    rw [run_replaceFile_of_error hcreate', SparesFile]
    simp only [hremoved, hcreate]
    by_cases he : e = .wouldblock
    · simp [he]
    · rw [if_neg he]
      simp only [he, false_or]
      cases removal with
      | error e' =>
        obtain rfl := FileTree.exec_error hremoved
        refine ⟨fun _ => rfl, fun _ e t' hrun => ?_⟩
        obtain rfl : s₁ = t' := congrArg Prod.snd hrun
        exact hkept
      | ok done =>
        -- the old file is gone and nothing has taken its place
        refine ⟨fun h => ?_, nofun⟩
        have hgone := h _ _ rfl
        simp only [FileTree.exec] at hremoved
        rcases FileTree.unlink_cases cred s (canonical (dir ++ [name])) with
          ⟨e', he'⟩ | ⟨parent, last, node, -, hnode, hfile, hremove⟩
        · rw [he'] at hremoved
          cases hremoved
        · rw [hremove] at hremoved
          obtain rfl : _ = s₁ := congrArg Prod.snd hremoved
          have hstill := (hgone.get?_eq_some hfile).mpr ((hkept.get?_eq_some hfile).mp hnode)
          rw [FileTree.get?_removeAt, if_pos List.prefix_rfl] at hstill
          cases hstill
  | ok handle =>
    obtain ⟨attrs, hnew, hmtime⟩ := node_of_create cred hcreate
    obtain ⟨result, s₃, hrun, hok, hget⟩ := run_writeBody cred hmtime hnew
    rw [run_replaceFile_of_ok hcreate', hrun, SparesFile]
    simp only [hremoved, hcreate]
    rw [List.nil_append] at hget
    cases result with
    | ok count => exact ⟨fun _ => Or.inl (hok.mp rfl), fun _ e t' h => (by cases h)⟩
    | error e =>
      have hfails : ¬ Passes maxBodyBytes 0 body := fun hpass => (by cases hok.mpr hpass)
      have hleft : s₃.get? handle =
          some ⟨.file (accepted maxBodyBytes 0 body).flatten false, attrs⟩ := by
        rw [hget, if_pos rfl]
      constructor
      · intro h
        have hgone := h _ _ rfl
        exact Or.inr ⟨attrs, hnew, (hkept.get?_eq_some rfl).mpr ((hgone.get?_eq_some rfl).mp hleft)⟩
      · rintro h e t' heq
        obtain rfl : s₃ = t' := congrArg Prod.snd heq
        obtain ⟨attrs', hnew', hold⟩ := h.resolve_left hfails
        obtain rfl : attrs = attrs' := by
          rw [hnew] at hnew'
          cases hnew'
          rfl
        refine hkept.trans (TargetKept.congr fun q => ?_)
        rw [hget]
        by_cases hq : q = handle
        · rw [if_pos hq, hq, hold]
        · rw [if_neg hq, get?_of_create hcreate hq]
          cases removal with
          | error e' => rw [FileTree.exec_error hremoved]
          | ok done =>
            obtain ⟨node, hnode, hfile, hrest⟩ := create_after_unlink hremoved hcreate
            rw [hrest]
            by_cases hbelow : handle <+: q
            · rw [if_pos hbelow]
              obtain ⟨rest, rfl⟩ := hbelow
              cases rest with
              | nil => exact absurd (List.append_nil _) hq
              | cons x rest => rw [FileTree.get?_append_eq_none hnode hfile]
            · rw [if_neg hbelow]

/-- `fetch_to_file` for a response of a target below the root. -/
theorem fetchToFile_eq {cfg : FetchConfig} {resp : HttpResponse} {dir : Pos} {name : String}
    (hstatus : 200 ≤ resp.status ∧ resp.status ≤ 299) :
    fetchToFile cfg (.ok resp) (canonical (dir ++ [name])) = (do
      io (createDirAll (canonical dir))
      let bytesWritten ← replaceFile cfg.maxBodyBytes resp.body (canonical (dir ++ [name]))
      pure ⟨bytesWritten, resp.contentType.getD "application/octet-stream", resp.status⟩) := by
  simp only [fetchToFile, PathBuf.parent_canonical_concat, replaceFile, Prog.bind_assoc]
  exact if_neg (not_not.mpr hstatus)

/-- **When a failed fetch leaves its target alone.**  For every reply of the network,
    every state of the file system and every caller: a fetch that returns an error has
    kept what the target held exactly when the request failed or was answered with
    another status than 2xx, the directory of the target could not be made, or the rest
    of the run spares the file (`SparesFile`). -/
theorem failedFetch_keeps_iff {root workspaceId relative : String} (hroot : RootPath root)
    (hresolve : resolvePath root workspaceId relative = .ok target) (cfg : FetchConfig)
    (reply : Except Error HttpResponse) (cred : Cred) (now : Nat) (t : FileTree) :
    (∀ e t', (fetchToFile cfg reply target).run (FileTree.exec cred now) t = (some (.error e), t') →
        TargetKept cred target t t') ↔
      SparesTarget cred now cfg.maxBodyBytes reply target t := by
  obtain ⟨-, q, rfl, hhome, -, -⟩ := resolvePath_eq_ok hroot hresolve
  obtain ⟨dir, name, rfl⟩ : ∃ dir name, q = dir ++ [name] := by
    rcases List.eq_nil_or_concat' q with rfl | h
    · exact absurd hhome.length_le (by simp [homePos])
    · exact h
  cases reply with
  | error e =>
    refine ⟨fun _ => trivial, fun _ e' t' hrun => ?_⟩
    obtain rfl : t = t' := congrArg Prod.snd hrun
    exact TargetKept.refl
  | ok resp =>
    by_cases hstatus : 200 ≤ resp.status ∧ resp.status ≤ 299
    · rw [fetchToFile_eq hstatus]
      have hspares : SparesTarget cred now cfg.maxBodyBytes (.ok resp) (canonical (dir ++ [name]))
          t ↔
          ∀ s, (createDirAll (canonical dir)).run (FileTree.exec cred now) t = (some (.ok ()), s) →
            SparesFile cred now cfg.maxBodyBytes resp.body (canonical (dir ++ [name])) s := by
        simp only [SparesTarget, parentOrDot, PathBuf.parent_canonical_concat, Option.getD_some,
          hstatus, and_self, not_true_eq_false, false_or]
      rw [hspares]
      have hmade : TargetKept cred (canonical (dir ++ [name])) t
          ((createDirAll (canonical dir)).run (FileTree.exec cred now) t).2 :=
            targetKept_createDirAll
      rcases hrun : (createDirAll (canonical dir)).run (FileTree.exec cred now) t with ⟨result, s⟩
      rw [hrun] at hmade
      rw [Prog.run_bind, io, Prog.run_mapError, hrun]
      rcases result with _ | e | done
      · constructor
        · intro _ s' hs'
          cases congrArg Prod.fst hs'
        · intro _ e t' h
          cases congrArg Prod.fst h
      · refine ⟨fun _ s' hs' => (by cases congrArg Prod.fst hs'), fun _ e' t' h => ?_⟩
        obtain rfl : s = t' := congrArg Prod.snd h
        exact hmade
      · have hkeeps := replaceFile_keeps_iff now cfg.maxBodyBytes resp.body hmade
        constructor
        · intro h s' hs'
          obtain rfl : s = s' := congrArg Prod.snd hs'
          refine hkeeps.mp fun e t' hreplace => h e t' ?_
          exact Prog.run_bind_error _ hreplace
        · intro h
          have hspare := hkeeps.mpr (h s rfl)
          intro e t' hfetch
          exact hspare e t' (Prog.run_error_of_bind_pure _ hfetch)
    · have hspares : SparesTarget cred now cfg.maxBodyBytes (.ok resp) (canonical (dir ++ [name]))
          t :=
        Or.inl hstatus
      refine ⟨fun _ => hspares, fun _ e t' hrun => ?_⟩
      have hthrow : fetchToFile cfg (.ok resp) (canonical (dir ++ [name])) =
          Prog.throw (.other ("fetch returned non-2xx status: " ++ toString resp.status)) :=
        if_pos hstatus
      rw [hthrow] at hrun
      obtain rfl : t = t' := congrArg Prod.snd hrun
      exact TargetKept.refl

end

/-- A reply whose body breaks off after its first chunk. -/
def brokenReply : Except Error HttpResponse := .ok ⟨200, none, [.ok [1, 2], .error "timed out"]⟩

/-- The old file is lost, and the first chunk stands in its place. -/
theorem failedFetch_truncates :
    resolvePath "/srv" "w1" "b" = .ok (canonical ["srv", "w1", "home", "b"]) ∧
    ((fetchToFile ⟨30, 1048576, false⟩ brokenReply (canonical ["srv", "w1", "home", "b"])).run
        (FileTree.exec ⟨0, 0, true, 0o022⟩ 7) sampleHost).1 =
      some (.error (.other "fetch body: timed out")) ∧
    sampleHost.get? ["srv", "w1", "home", "b"] =
      some ⟨.file [104, 105] false, ⟨0o644, 1000, 1000, 0⟩⟩ ∧
    ((fetchToFile ⟨30, 1048576, false⟩ brokenReply (canonical ["srv", "w1", "home", "b"])).run
        (FileTree.exec ⟨0, 0, true, 0o022⟩ 7) sampleHost).2.get? ["srv", "w1", "home", "b"] =
      some ⟨.file [1, 2] false, ⟨0o644, 0, 0, 7⟩⟩ := by
  decide

/-- A server that answers with an error page does not cost the old file. -/
theorem failedFetch_of_notFound : ∃ t',
    (fetchToFile ⟨30, 1048576, false⟩ (.ok ⟨404, none, [.ok [1]]⟩)
      (canonical ["srv", "w1", "home", "b"])).run (FileTree.exec ⟨0, 0, true, 0o022⟩ 7) sampleHost =
        (some (.error (.other "fetch returned non-2xx status: 404")), t') ∧
      TargetKept ⟨0, 0, true, 0o022⟩ (canonical ["srv", "w1", "home", "b"]) sampleHost t' := by
  have hroot : RootPath "/srv" := ⟨by decide, by decide⟩
  have hresolve : resolvePath "/srv" "w1" "b" = .ok (canonical ["srv", "w1", "home", "b"]) := by
    decide
  have hkeeps :=
    (failedFetch_keeps_iff hroot hresolve ⟨30, 1048576, false⟩ (.ok ⟨404, none, [.ok [1]]⟩)
    ⟨0, 0, true, 0o022⟩ 7 sampleHost).mpr (Or.inl (by decide))
  exact ⟨_, Prod.ext (by decide) rfl, hkeeps _ _ (Prod.ext (by decide) rfl)⟩

end Scriptorium
