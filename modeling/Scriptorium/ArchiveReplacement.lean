import Scriptorium.Isolation
import Scriptorium.ImportSuccess
import Scriptorium.Ingress
import Scriptorium.SparedTarget

/-!
# Replacing a directory by an archive

`extract_archive_and_replace` gets three paths, which its caller makes entries of one
directory.  Where there are no links, nothing beside them changes, an archive with an entry
that is not accepted ends in an error, and one that is installed stands at the target as its
entries describe it (`extractArchiveAndReplace_faithful`).
-/

namespace Scriptorium

open Posix Effects

/-! ### Calls that are answered -/

/-- The calls that do not wait for anyone. -/
def Answered : FsCall → Prop
  | .create _ | .read _ => False
  | _ => True

/-- Every path may be asked about and changed by such calls. -/
def answeredZone : Zone Answered fun _ _ => True where
  near _ := True
  inside _ := True
  handle _ := True
  parent _ _ _ _ := trivial
  of_inside _ _ := trivial
  asks _ _ := ⟨trivial, trivial, trivial, trivial⟩
  changes _ _ := ⟨trivial, trivial, fun _ => trivial⟩
  opens _ _ _ _ := trivial
  writes _ _ := ⟨fun _ => trivial, fun _ => trivial, fun _ => trivial⟩

section Run

variable {ε α : Type} {W : α → Prop}

/-- A program of such calls that is not cut short has a result. -/
theorem run_answered (cred : Cred) (now : Nat) (t : FileTree) {m : Fs ε α}
    (hm : m.Within Answered (fun _ _ => True) W) (hprompt : Prompt m) :
    ∃ result s, m.run (FileTree.exec cred now) t = (some result, s) := by
  have hstep : ∀ c s, Answered c → True →
      True ∧ True ∧ (FileTree.exec cred now c s).1 ≠ .error .wouldblock := by
    intro c s hc _
    refine ⟨trivial, trivial, fun hwait => ?_⟩
    obtain ⟨path, _, _, -, -, ⟨rfl, -⟩ | ⟨rfl, -⟩⟩ := FileTree.waits_of_exec hwait
    · exact hc
    · exact hc
  obtain ⟨result, hresult⟩ := Option.isSome_iff_exists.mp
    (hprompt.isSome (I := fun _ => True) hm hstep trivial)
  exact ⟨result, _, Prod.ext hresult rfl⟩

end Run

theorem answered_bareRoot (extractionRoot : PathBuf) :
    (bareRoot extractionRoot).Within Answered (fun _ _ => True) fun _ => True :=
  within_bareRoot trivial trivial (answeredZone.admits_createDirAll trivial)

theorem answered_replace (staging extractionRoot target : PathBuf) :
    (removePathIfExists target >>= fun _ => installExtracted staging extractionRoot target).Within
      Answered
      (fun _ _ => True) fun _ => True := by
  apply Prog.within_bind (within_removePathIfExists trivial trivial trivial)
  intro _ _
  exact within_installExtracted trivial (fun _ => trivial) (fun _ => trivial)
    (answeredZone.admits_createDirAll trivial) (fun _ => trivial) trivial trivial

/-! ### Entries of one directory -/

section Beside

variable {cred : Cred} {now : Nat} {t u s : FileTree} {dir : Pos} {staging expand name : String}
  {bytes : List UInt8} {holes : Bool} {attrs : Attrs}

variable (cred now) in
/-- Without links, calls on entries of a directory change nothing beside them, and make no
    links. -/
theorem run_entries {ε α : Type} {W : α → Prop} {m : Fs ε α} (names : List String)
    (hm : Stays (.of (names.map fun n => dir ++ [n])) W m) (ht : t.SymlinkFree)
    (hdir : t.isDir dir = true) :
    (m.run (FileTree.exec cred now) t).2.SymlinkFree ∧
      ∀ q, (∀ n ∈ names, ¬ dir ++ [n] <+: q) → (m.run (FileTree.exec cred now) t).2.get? q =
        t.get? q := by
  let R := Region.of (names.map fun n => dir ++ [n])
  let I := fun s : FileTree => s.SymlinkFree ∧ ∀ q, (∀ n ∈ names, ¬ dir ++ [n] <+: q) →
    s.get? q = t.get? q
  have hown : ∀ {q}, (∀ n ∈ names, ¬ dir ++ [n] <+: q) ↔ R.own q = false := by
    intro q
    rw [Bool.eq_false_iff, Ne, Region.own_of]
    simp only [List.mem_map, exists_exists_and_eq_and, not_exists, not_and]
  have hplain : ∀ s, I s → FileTree.Plain R s := by
    rintro s ⟨hs, hsame⟩
    refine ⟨fun q node _ hnode => hs q node hnode, fun q hq => ?_⟩
    rcases hq' : R.own q with _ | _
    · right
      obtain ⟨p, hp, hpre⟩ := Region.seen_of.mp hq
      obtain ⟨n, hn, rfl⟩ := List.mem_map.mp hp
      have habove : q <+: dir := by
        rcases hpre with hpre | hpre
        · rcases List.prefix_concat_iff.mp hpre with rfl | hpre
          · exact absurd List.prefix_rfl (hown.mpr hq' n hn)
          · exact hpre
        · exact absurd hpre (hown.mpr hq' n hn)
      rw [hsame q (hown.mpr hq')]
      exact FileTree.isSome_above (FileTree.isSome_of_isDir hdir) habove
    · exact Or.inl rfl
  refine hm.keeps (I := I) (fun c s hc hs =>
    ⟨⟨symlinkFree_exec hs.1 now c, ?_⟩, FileTree.returns_exec hc (hplain s hs).clear⟩)
    ⟨ht, fun _ _ => rfl⟩
  intro q hq
  rw [← hs.2 q hq]
  rcases FileTree.touched_own cred now hc (hplain s hs) with hsame | htouched
  · rw [hsame]
  · apply FileTree.get?_exec_of_not_touched
    intro p hp hpre
    have hbelow := R.below p q (htouched p hp) hpre
    rw [hown.mp hq] at hbelow
    cases hbelow

/-- The entries are in the region that they make up. -/
theorem inside_entries {names : List String} {n : String} (hn : n ∈ names) :
    Inside (.of (names.map fun n => dir ++ [n])) (canonical (dir ++ [n])) :=
  ⟨_, Region.own_of.mpr ⟨_, List.mem_map.mpr ⟨n, hn, rfl⟩, List.prefix_rfl⟩, rfl⟩

variable (cred now) in
/-- The archive is extracted, or the attempt ends in an error; where an item of it is not
    accepted, it does. -/
theorem run_extractArchive_returns (codec : Codec) (ht : t.SymlinkFree) (hdir : t.isDir dir = true)
    (hne : expand ≠ staging) (hfile : t.get? (dir ++ [staging]) = some ⟨.file bytes holes, attrs⟩) :
    ∃ result s,
      (extractArchive codec (canonical (dir ++ [staging])) (canonical (dir ++ [expand]))).run
        (FileTree.exec cred now) t = (some result, s) ∧
      ((∃ item ∈ codec.unpack bytes, item.Refused) → ∃ e, result = .error e) := by
  rw [extractArchive_eq]
  obtain ⟨made, u, hmade⟩ := run_answered cred now t
    (answered_bareRoot (canonical (dir ++ [expand]))) (prompt_bareRoot _)
  rcases made with e | _
  · exact ⟨_, u, Prog.run_bind_error _ hmade, fun _ => ⟨e, rfl⟩⟩
  have hstays : Stays (.of ([expand].map fun n => dir ++ [n])) (fun _ => True)
      (bareRoot (canonical (dir ++ [expand]))) :=
    stays_bareRoot (inside_entries (List.mem_singleton_self _))
  obtain ⟨hfree, hsame⟩ := run_entries cred now [expand] hstays ht hdir
  rw [hmade] at hfree hsame
  have hfile' : u.get? (dir ++ [staging]) = some ⟨.file bytes holes, attrs⟩ := by
    rw [hsame _ fun n hn => ?_, hfile]
    rw [List.mem_singleton.mp hn]
    exact entry_apart dir hne
  rw [Prog.run_bind_ok _ hmade]
  have hfound : ∀ p node, u.find cred (canonical (dir ++ [staging])) = .ok (p, node) →
      node.kind = .file bytes holes ∨ node.isDir = true := by
    intro p node hfind
    have hclear : FileTree.Clear (wayTo (dir ++ [staging])) u :=
      fun q node _ hnode => hfree q node hnode
    obtain rfl := hclear.find_eq (seen_wayTo.mpr (Or.inl List.prefix_rfl)) hfind
    rw [(FileTree.find_eq_ok hfind).2, Option.some_inj] at hfile'
    rw [hfile']
    exact Or.inl rfl
  rcases run_read_found cred now hfound with ⟨e, hread⟩ | ⟨contents, hread, hdata⟩
  · exact ⟨_, u, Prog.run_bind_error _ hread, fun _ => ⟨e, rfl⟩⟩
  rw [Prog.run_bind_ok _ hread, hdata]
  have hanswered : (extractItems (canonical (dir ++ [expand])) (codec.unpack bytes)).Within Answered
      (fun _ _ => True) fun _ => True :=
    answeredZone.admits_extractItems trivial (fun _ _ => trivial) _
  obtain ⟨result, s, hrun⟩ := run_answered cred now u hanswered (prompt_extractItems _ _)
  refine ⟨result, s, hrun, ?_⟩
  rintro ⟨item, hitem, hrefused⟩
  rcases result with e | _
  · exact ⟨e, rfl⟩
  · exact absurd hrefused (extractItems_accepts (congrArg Prod.fst hrun) item hitem)

/-- What a replacement that succeeds has read is what the staging file held. -/
theorem imported_from {codec : Codec} {place : Pos} {contents : Contents} {U : ArchiveLayout}
    {u x y : FileTree}
    (ht : t.SymlinkFree) (hfile : t.get? (dir ++ [staging]) = some ⟨.file bytes holes, attrs⟩)
    (h : Imported cred now codec t s (canonical dir) place staging expand name contents U u x y) :
    place = dir ∧ contents.data = bytes := by
  have hfree : u.SymlinkFree := by
    intro q node hnode
    rcases h.began.old q node hnode with hold | rfl
    · exact ht q node hold
    · rfl
  have hclear : ∀ p, FileTree.Clear (wayTo p) u := fun _ q node _ hnode => hfree q node hnode
  have hplace : place = dir :=
    (hclear dir).walk_eq (seen_wayTo.mpr (Or.inl List.prefix_rfl)) h.began.lead.walk
  subst hplace
  obtain ⟨hpresent, hnotDir⟩ := staged_of_read h.began.lead h.read
  obtain ⟨node, hnode⟩ := Option.ne_none_iff_exists'.mp hpresent
  obtain rfl : node = ⟨.file bytes holes, attrs⟩ := by
    rcases h.began.old _ node hnode with hold | hnew
    · exact Option.some.inj (hold.symm.trans hfile)
    · rw [FileTree.isDir, hnode, hnew] at hnotDir
      cases hnotDir
  refine ⟨rfl, ?_⟩
  have hfind := find_of_walk (h.began.lead.child hnode rfl) hnode
  have hread := h.read
  unfold FileTree.read at hread
  simp only [hfind] at hread
  split at hread
  · rw [← Except.ok.inj hread]
  · cases hread

variable (cred now) in
/-- **Replacing a directory by an archive.**  The staging file is an entry of a directory,
    and so are the extraction root and the target; there are no links.  The replacement ends
    and changes nothing beside the three entries.  An archive with an entry that is not
    accepted ends in an error.  After a success the target shows what the entries describe
    one after the other, without a sole directory around it, and the other two entries have
    gone. -/
theorem extractArchiveAndReplace_faithful (codec : Codec) (t : FileTree) (ht : t.SymlinkFree)
    (dir : Pos) (staging expand name : String) (hdir : t.isDir dir = true) (hne : expand ≠ staging)
    (hfile : t.get? (dir ++ [staging]) = some ⟨.file bytes holes, attrs⟩) :
    ∃ result s,
      (extractArchiveAndReplace codec (canonical (dir ++ [staging])) (canonical (dir ++ [expand]))
        (canonical (dir ++ [name]))).run (FileTree.exec cred now) t = (some result, s) ∧
      (∀ q, (∀ n ∈ [staging, expand, name], ¬ dir ++ [n] <+: q) → s.get? q = t.get? q) ∧
      ((∃ item ∈ codec.unpack bytes, item.Refused) → ∃ e, result = .error e) ∧
      (result = .ok () → (∃ U V, layoutOf (codec.unpack bytes) = some U ∧ U.Unwrapped V ∧
          Shows s (dir ++ [name]) V ∧ s.isDir (dir ++ [name]) = true) ∧
        s.get? (dir ++ [expand]) = none ∧ (staging ≠ name → s.get? (dir ++ [staging]) = none)) := by
  obtain ⟨result, s, hrun, hrefused⟩ : ∃ result s,
      (extractArchiveAndReplace codec (canonical (dir ++ [staging])) (canonical (dir ++ [expand]))
        (canonical (dir ++ [name]))).run (FileTree.exec cred now) t = (some result, s) ∧
      ((∃ item ∈ codec.unpack bytes, item.Refused) → ∃ e, result = .error e) := by
    rw [extractArchiveAndReplace_eq]
    obtain ⟨extracted, u, hextract, hrefused⟩ :=
      run_extractArchive_returns cred now codec ht hdir hne hfile
    rcases extracted with e | _
    · exact ⟨_, u, Prog.run_bind_error _ hextract, fun _ => ⟨e, rfl⟩⟩
    · rw [Prog.run_bind_ok _ hextract]
      obtain ⟨result, s, hreplace⟩ := run_answered cred now u
        (answered_replace (canonical (dir ++ [staging])) (canonical (dir ++ [expand]))
          (canonical (dir ++ [name])))
        (Prog.ends_bind (prompt_removePathIfExists _) fun _ => prompt_installExtracted _ _ _)
      refine ⟨result, s, hreplace, fun hitem => ?_⟩
      obtain ⟨e, he⟩ := hrefused hitem
      cases he
  have hstays : Stays (.of ([staging, expand, name].map fun n => dir ++ [n])) (fun _ => True)
      (extractArchiveAndReplace codec (canonical (dir ++ [staging])) (canonical (dir ++ [expand]))
        (canonical (dir ++ [name]))) :=
    stays_extractArchiveAndReplace (inside_entries (by simp)) (inside_entries (by simp))
      (inside_entries (by simp)) codec
  have hframe := (run_entries cred now _ hstays ht hdir).2
  rw [hrun] at hframe
  refine ⟨result, s, hrun, hframe, hrefused, ?_⟩
  rintro rfl
  have hrun' := hrun
  rw [canonical_concat, canonical_concat, canonical_concat] at hrun'
  obtain ⟨dir', contents, U, u, x, y, himported⟩ := extractArchiveAndReplace_ok hne hrun'
  obtain ⟨rfl, hdata⟩ := imported_from ht hfile himported
  have hU := himported.layout
  rw [hdata] at hU
  have hshows : Shows y (dir' ++ [expand]) U := by
    intro q
    rw [himported.cleared, if_neg (entries_apart himported.distinct.symm q)]
    exact himported.shows q
  obtain ⟨V, hV, htarget⟩ := himported.installed.shows himported.closed hshows
  refine ⟨⟨U, V, hU, hV, htarget, himported.target_isDir⟩, ?_, fun hname => ?_⟩
  · simpa using himported.installed.extraction []
  · simpa using himported.installed.removed hname []

end Beside

/-- A home with a file, and an archive `a` beside it. -/
def archiveHost : FileTree := .ofEntries
  [([], hostDir), (["srv"], hostDir), (["srv", "w1"], hostDir), (["srv", "w1", "home"], hostDir),
    (["srv", "w1", "home", "a"], ⟨.file [31] false, ⟨0o644, 0, 0, 0⟩⟩),
    (["srv", "w1", "home", "b"], ⟨.file [104, 105] false, ⟨0o644, 1000, 1000, 0⟩⟩)]
  (by decide)

/-- The file gives way to the directory in the archive. -/
theorem extractArchiveAndReplace_faithful_archiveHost : ∃ s,
    (extractArchiveAndReplace wrappedConfig.codec (canonical ["srv", "w1", "home", "a"])
        (canonical ["srv", "w1", "home", "x"]) (canonical ["srv", "w1", "home", "b"])).run
      (FileTree.exec rootUser 7) archiveHost = (some (.ok ()), s) ∧
    (∃ U V, layoutOf (wrappedConfig.codec.unpack [31]) = some U ∧ U.Unwrapped V ∧
      Shows s ["srv", "w1", "home", "b"] V) ∧
    s.get? ["srv", "w1", "home", "x"] = none ∧ s.get? ["srv", "w1", "home", "a"] = none := by
  have hfile : archiveHost.get? (["srv", "w1", "home"] ++ ["a"]) =
      some ⟨.file [31] false, ⟨0o644, 0, 0, 0⟩⟩ := rfl
  obtain ⟨result, s, hrun, -, -, hok⟩ :=
    extractArchiveAndReplace_faithful rootUser 7 wrappedConfig.codec
    archiveHost (FileTree.symlinkFree_ofEntries (by decide)) ["srv", "w1", "home"] "a" "x" "b"
      (by decide)
    (by decide) hfile
  have hresult :
      ((extractArchiveAndReplace wrappedConfig.codec (canonical ["srv", "w1", "home", "a"])
        (canonical ["srv", "w1", "home", "x"]) (canonical ["srv", "w1", "home", "b"])).run
      (FileTree.exec rootUser 7) archiveHost).1.map Except.isOk = some true := by decide
  have hfst := congrArg (fun r => r.1.map Except.isOk) hrun
  obtain rfl : result = .ok () := by
    rcases result with e | _
    · cases hresult.symm.trans hfst
    · rfl
  obtain ⟨⟨U, V, hU, hV, hshows, -⟩, hroot, hstaging⟩ := hok rfl
  exact ⟨s, hrun, ⟨U, V, hU, hV, hshows⟩, hroot, hstaging (by decide)⟩

end Scriptorium
