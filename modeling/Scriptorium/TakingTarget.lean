import Scriptorium.AmongOthers

/-!
# An import among others: the target

An import takes the target when it looks there: from then on the others leave it alone
(`Aim.Rely`), until the import has returned.  What stands there is removed
(`among_removePathIfExists`), the object comes in its place, and the whole import succeeds
(`among_importObject`).
-/

namespace Scriptorium

open Posix Effects

variable {ι : Type} {cred : Cred} {now : Nat} {a : Aim} {calls : ι → ImportCall} {i : ι}
  {s s' : Scene ι} {v : FileTree} {V : ArchiveLayout}

/-! ### Taking the target -/

theorem Aim.own_area_true {x : ImportCall} {q : Pos} : (a.area x true).own q = true ↔
    a.dir ++ [a.name] <+: q ∨ (a.area x false).own q = true := by
  simp only [Aim.area, if_true, Bool.false_eq_true, if_false, Region.own_entriesOf,
    List.exists_mem_cons_iff]

theorem target_own : (a.area (calls i) true).own (a.dir ++ [a.name]) = true :=
  Aim.own_area_true.mpr (Or.inl List.prefix_rfl)

theorem target_not_seen (hapart : a.Apart calls) {q : Pos}
    (hq : (a.area (calls i) false).Seen q) : ¬ a.dir ++ [a.name] <+: q := by
  have hown : (Region.entriesOf a.dir [a.name]).own (a.dir ++ [a.name]) = true :=
    Region.own_entriesOf.mpr ⟨_, List.mem_singleton_self _, List.prefix_rfl⟩
  refine Region.entries_apart (fun n hn => ?_) hown hq
  rw [List.mem_singleton.mp hn]
  exact hapart.target i

/-- The import holds the target, and what is its own besides is as in `v`. -/
structure Aim.Holds (a : Aim) (calls : ι → ImportCall) (i : ι) (v : FileTree)
    (s : Scene ι) : Prop where
  settled : a.Settled s.tree
  holder : s.holder = some i
  clear : FileTree.Clear (a.area (calls i) false) s.tree
  same : ∀ q, (a.area (calls i) false).Seen q → s.tree.get? q = v.get? q

/-- Others leave it the target. -/
theorem Aim.Holds.rely (h : a.Holds calls i v s) (hrely : a.Rely calls i s s') :
    a.Holds calls i v s' ∧
      ∀ q, a.dir ++ [a.name] <+: q → s'.tree.get? q = s.tree.get? q := by
  have hholder := hrely.holds h.holder
  have halike := hrely.spares.alike h.settled
  refine ⟨⟨hrely.steady.settled h.settled, hholder, fun q node hq hnode => ?_,
    fun q hq => (halike.get? q hq).symm.trans (h.same q hq)⟩, fun q hq => ?_⟩
  · rw [← halike.get? q hq] at hnode
    exact h.clear q node hq hnode
  · exact ((hrely.spares.target hholder h.settled).get? q
      (Region.seen_of_own (Aim.own_area_true.mpr (Or.inl hq)))).symm

/-- Where nothing stands at the target any more, the import sees its whole area. -/
theorem Aim.Holds.during (h : a.Holds calls i v s)
    (hfree : s.tree.get? (a.dir ++ [a.name]) = none) : a.During calls i true s s.tree := by
  refine ⟨h.settled, iff_of_true h.holder rfl,
    FileTree.clear_entriesOf h.settled.isDir fun q node hq hnode => ?_, .refl _ _⟩
  rcases Aim.own_area_true.mp hq with htarget | hown
  · rw [FileTree.get?_none_below hfree htarget] at hnode
    cases hnode
  · exact h.clear q node (Region.seen_of_own hown) hnode

/-- Nothing stands at the target any more, or it is a link that leads nowhere and a file is
    to take its place. -/
def Aim.Vacant (a : Aim) (encoding : WorkspaceObjectEncoding) (t : FileTree) : Prop :=
  t.get? (a.dir ++ [a.name]) = none ∨ encoding = .raw ∧ t.isDir (a.dir ++ [a.name]) = false

section Remove

variable (hapart : a.Apart calls) (hcred : cred.privileged = true)

include hapart hcred

variable (now) in
/-- A call that removes what stands at the target. -/
theorem Aim.Holds.removed (h : a.Holds calls i v s) {c : FsCall}
    (hc : c = .removeDirAll a.target ∨ c = .unlink a.target)
    (hremoved : (FileTree.exec cred now c s.tree).2 = s.tree.removeAt a.dir a.name) :
    a.Guarantee calls i s (Scene.exec cred now a.target i c s).2 ∧
      a.Holds calls i v (Scene.exec cred now a.target i c s).2 ∧
      (Scene.exec cred now a.target i c s).2.tree.get? (a.dir ++ [a.name]) = none := by
  have hget : ∀ q, (FileTree.exec cred now c s.tree).2.get? q =
      if a.dir ++ [a.name] <+: q then none else s.tree.get? q := by
    intro q
    rw [hremoved, FileTree.get?_removeAt]
  have htouched : ∀ p ∈ s.tree.touched cred c, (a.area (calls i) true).own p = true := by
    have hslot : s.tree.slot cred a.target = .ok (a.dir, a.name) :=
      FileTree.slot_entry hcred h.settled.isDir
    intro p hp
    rcases hc with rfl | rfl
    all_goals
      simp only [FileTree.touched, hslot, List.mem_singleton] at hp
      rw [hp]
      exact target_own
  have hguarantee : a.Guarantee calls i s (Scene.exec cred now a.target i c s).2 :=
    guarantee_of_touched hapart (fun _ => h.holder) (Or.inr htouched)
  have hkept : ∀ q, (a.area (calls i) false).Seen q →
      (FileTree.exec cred now c s.tree).2.get? q = s.tree.get? q := by
    intro q hq
    rw [hget, if_neg (target_not_seen hapart hq)]
  refine ⟨hguarantee, ⟨hguarantee.steady.settled h.settled, ?_, fun q node hq hnode => ?_,
    fun q hq => (hkept q hq).trans (h.same q hq)⟩, ?_⟩
  · rcases hc with rfl | rfl <;> exact h.holder
  · exact h.clear q node hq ((hkept q hq).symm.trans hnode)
  · simp only [Scene.exec]
    rw [hget, if_pos List.prefix_rfl]

variable (now) in
/-- What has been found at the target is removed from it; of a link, only the link. -/
theorem among_remove (h : a.Holds calls i v s) {p : Pos} {found : Node}
    (hfind : s.tree.find cred a.target = .ok (p, found)) :
    (found.isDir = true → Among cred now a calls i (io (sys (.removeDirAll a.target)))
      (fun r s' => r = .ok () ∧ a.Holds calls i v s' ∧ a.Vacant (calls i).encoding s'.tree) s) ∧
    (found.isDir = false → Among cred now a calls i (io (sys (.unlink a.target)))
      (fun r s' => r = .ok () ∧ a.Holds calls i v s' ∧ a.Vacant (calls i).encoding s'.tree)
      s) := by
  obtain ⟨node, hnode⟩ : ∃ node, s.tree.get? (a.dir ++ [a.name]) = some node := by
    rcases hnode : s.tree.get? (a.dir ++ [a.name]) with _ | node
    · rw [Aim.target, FileTree.find_missing hcred h.settled.isDir hnode] at hfind
      cases hfind
    · exact ⟨node, rfl⟩
  have hsame : node.isLink = false → found = node := by
    intro hlink
    rw [Aim.target, FileTree.find_entry hcred h.settled.isDir hnode hlink] at hfind
    exact (Prod.mk.inj (Except.ok.inj hfind)).2.symm
  refine ⟨fun hdir => ?_, fun hnot => ?_⟩
  · apply Prog.copes_mapError
    apply among_sys
    intro s₁ hrely _
    obtain ⟨h₁, htarget⟩ := h.rely hrely
    have hnode₁ : s₁.tree.get? (a.dir ++ [a.name]) = some node :=
      (htarget _ List.prefix_rfl).trans hnode
    have hexec : FileTree.exec cred now (.removeDirAll a.target) s₁.tree =
        (.ok (), s₁.tree.removeAt a.dir a.name) := by
      cases hlink : node.isLink with
      | true => exact (FileTree.exec_removeDirAll_link now hcred h₁.settled.isDir hnode₁ hlink).2
      | false =>
        exact FileTree.exec_removeDirAll_dir now hcred h₁.settled.isDir
          (FileTree.isDir_iff.mpr ⟨node, hnode₁, hsame hlink ▸ hdir⟩)
    obtain ⟨hguarantee, hholds, hfree⟩ := h₁.removed now hapart hcred (Or.inl rfl)
      (congrArg Prod.snd hexec)
    rw [hexec]
    exact ⟨hguarantee, rfl, hholds, Or.inl hfree⟩
  · apply Prog.copes_mapError
    apply among_sys
    intro s₁ hrely _
    obtain ⟨h₁, htarget⟩ := h.rely hrely
    have hnode₁ : s₁.tree.get? (a.dir ++ [a.name]) = some node :=
      (htarget _ List.prefix_rfl).trans hnode
    have hplain : node.isDir = false := by
      cases hlink : node.isLink with
      | true =>
        rcases hkind : node.kind with _ | ⟨data, holes⟩ | text | _ <;>
          simp_all [Node.isLink, Node.isDir]
      | false => exact hsame hlink ▸ hnot
    have hexec : FileTree.exec cred now (.unlink a.target) s₁.tree =
        (.ok (), s₁.tree.removeAt a.dir a.name) :=
      FileTree.exec_unlink_other now hcred h₁.settled.isDir (by rw [hnode₁]; rfl)
        (by rw [FileTree.isDir, hnode₁]; exact hplain)
    obtain ⟨hguarantee, hholds, hfree⟩ := h₁.removed now hapart hcred (Or.inr rfl)
      (congrArg Prod.snd hexec)
    rw [hexec]
    exact ⟨hguarantee, rfl, hholds, Or.inl hfree⟩

/-- The import takes the target, and what stands there goes. -/
theorem among_removePathIfExists (h : a.During calls i false s v) :
    Among cred now a calls i (removePathIfExists a.target)
      (fun r s' => r = .ok () ∧ a.Holds calls i v s' ∧ a.Vacant (calls i).encoding s'.tree)
      s := by
  rw [removePathIfExists]
  apply Prog.copes_attempt_then
  apply among_sys
  intro s₁ hrely hmay
  have h₁ := h.rely hrely
  have hlook : looksAt a.target (.fileType a.target) = true := beq_self_eq_true _
  have hguarantee : a.Guarantee calls i s₁
      (Scene.exec cred now a.target i (.fileType a.target) s₁).2 :=
    guarantee_of_touched hapart (fun hfalse : false = true => absurd hfalse (by simp))
      (Or.inl rfl)
  refine ⟨hguarantee, ?_⟩
  have hscene : (Scene.exec cred now a.target i (.fileType a.target) s₁).2 =
      ⟨s₁.tree, some i⟩ := by
    simp only [Scene.exec, hlook, if_true, FileTree.exec]
  have hreply : (FileTree.exec cred now (.fileType a.target) s₁.tree).1 =
      (s₁.tree.find cred a.target).map fun found => found.2.fileType := rfl
  have hholds : a.Holds calls i v ⟨s₁.tree, some i⟩ := ⟨h₁.settled, rfl, h₁.clear, h₁.alike.get?⟩
  rw [hscene, hreply]
  rcases hmay hlook with hfree | ⟨⟨p, found⟩, hfind⟩ | ⟨hraw, hnowhere⟩
  · rw [Aim.target, FileTree.find_missing hcred h₁.settled.isDir hfree]
    exact ⟨rfl, hholds, Or.inl hfree⟩
  · obtain ⟨htree, hfile⟩ := among_remove now hapart hcred hholds hfind
    rw [Aim.target, hfind]
    rcases hkind : found.kind with _ | ⟨data, holes⟩ | text | _
    · simp only [Except.map, Except.mapError, Node.fileType, hkind]
      exact htree (Node.isDir_iff.mpr hkind)
    all_goals
      simp only [Except.map, Except.mapError, Node.fileType, hkind]
      exact hfile (by simp [Node.isDir, hkind])
  · rw [Aim.target, hnowhere]
    refine ⟨rfl, hholds, Or.inr ⟨hraw, ?_⟩⟩
    rw [Bool.eq_false_iff]
    intro hdir
    obtain ⟨node, hfind, -⟩ := FileTree.find_dir hcred hdir
    rw [hnowhere] at hfind
    cases hfind

end Remove

/-! ### Installing -/

/-- The object has been installed, and the staging file is gone. -/
def Aim.Placed (a : Aim) (calls : ι → ImportCall) (i : ι) (V : ArchiveLayout) (s : Scene ι) :
    Prop :=
  ∃ y, a.During calls i true s y ∧ Shows y (a.dir ++ [a.name]) V ∧
    y.get? (stagingPos (calls i).clock a.dir) = none

theorem target_inside : Inside (a.area (calls i) true) a.target := ⟨_, target_own, rfl⟩

section Install

variable (hapart : a.Apart calls) (hcred : cred.privileged = true)

include hapart hcred

/-- A parent that is there is not made again. -/
theorem among_parent {holds : Bool} (h : a.During calls i holds s v) (hdir : v.isDir a.dir = true) :
    Among cred now a calls i (io (createDirAll (canonical a.dir)))
      (fun r s' => r = .ok () ∧ a.During calls i holds s' v) s :=
  among_of_run hapart (stays_io (stays_createDirAll ⟨_, dir_seen, rfl⟩))
    (run_io_createDirAll_there now hcred hdir) h

/-- The staging file is moved to the target. -/
theorem among_rename {bytes : List UInt8} (hname : Proper a.name)
    (hreceived : Received (calls i).clock a.dir bytes v) (h : a.Holds calls i v s)
    (hvacant : a.Vacant (calls i).encoding s.tree) :
    Among cred now a calls i
      (io (sys (.rename (canonical (stagingPos (calls i).clock a.dir)) a.target)))
      (fun r s' => r = .ok () ∧ a.Placed calls i (fileLayout bytes) s') s := by
  apply Prog.copes_mapError
  apply among_sys
  intro s₁ hrely _
  obtain ⟨h₁, htarget⟩ := h.rely hrely
  obtain ⟨attrs, hfile⟩ := hreceived.staging
  have hfile₁ : s₁.tree.get? (stagingPos (calls i).clock a.dir) =
      some ⟨.file bytes false, attrs⟩ :=
    (h₁.same _ (Region.seen_of_own (own_staging a calls i false))).trans hfile
  have hnot : s₁.tree.isDir (a.dir ++ [a.name]) = false := by
    rw [FileTree.isDir, htarget _ List.prefix_rfl]
    rcases hvacant with hfree | ⟨-, hnot⟩
    · rw [hfree]
      rfl
    · exact hnot
  have hne : transferName "import" (calls i).clock.staging ≠ a.name :=
    fun heq => hapart.target i (heq ▸ List.mem_cons_self)
  have hcheck : ∀ crossing, s₁.tree.renameCheck cred (stagingPos (calls i).clock a.dir)
      ⟨.file bytes false, attrs⟩ crossing (a.dir ++ [a.name]) = .ok () := by
    intro crossing
    have hkind : Node.isDir ⟨.file bytes false, attrs⟩ = false := rfl
    rw [FileTree.renameCheck_privileged hcred hfile₁, hnot, FileTree.children_of_not_dir hnot,
      hkind, if_pos (Or.inl rfl)]
    rfl
  have hout : ¬ a.dir ++ [a.name] <+: stagingPos (calls i).clock a.dir :=
    entry_apart a.dir hne.symm
  obtain ⟨u, hrename, hmoved⟩ := FileTree.exec_rename_of_check now hcred h₁.settled.isDir
    h₁.settled.isDir hname hfile₁ (not_entry_above a.dir _) hout (hcheck _)
  have htouched : ∀ p ∈ s₁.tree.touched cred
      (.rename (canonical (stagingPos (calls i).clock a.dir)) a.target),
      (a.area (calls i) true).own p = true := by
    intro p hp
    simp only [FileTree.touched, Aim.target, stagingPos,
      FileTree.slot_entry hcred h₁.settled.isDir, List.mem_cons, List.not_mem_nil, or_false] at hp
    rcases hp with rfl | rfl
    · exact own_staging a calls i true
    · exact target_own
  have hguarantee : a.Guarantee calls i s₁ (Scene.exec cred now a.target i
      (.rename (canonical (stagingPos (calls i).clock a.dir)) a.target) s₁).2 :=
    guarantee_of_touched hapart (fun _ => h₁.holder) (Or.inr htouched)
  have hscene : (Scene.exec cred now a.target i
      (.rename (canonical (stagingPos (calls i).clock a.dir)) a.target) s₁).2 =
        ⟨u, s₁.holder⟩ := by
    simp only [Scene.exec, looksAt, Bool.false_eq_true, if_false, Aim.target, stagingPos, hrename]
  have hreply : (FileTree.exec cred now
      (.rename (canonical (stagingPos (calls i).clock a.dir)) a.target) s₁.tree).1 = .ok () :=
    congrArg Prod.fst hrename
  have hsettled := hguarantee.steady.settled h₁.settled
  rw [hscene] at hguarantee hsettled ⊢
  rw [hreply]
  have hplaced : ∀ q, u.get? (a.dir ++ [a.name] ++ q) =
      s₁.tree.get? (stagingPos (calls i).clock a.dir ++ q) := hmoved.subtree
  have hgone : ∀ q, stagingPos (calls i).clock a.dir <+: q → u.get? q = none := by
    rintro q ⟨rest, rfl⟩
    exact hmoved.source (entries_apart hne.symm rest) (List.prefix_append _ _)
  have hshows : Shows u (a.dir ++ [a.name]) (fileLayout bytes) := by
    intro q
    rw [hplaced]
    cases q with
    | nil =>
      rw [List.append_nil, hfile₁]
      rfl
    | cons first q =>
      rw [FileTree.get?_append_eq_none hfile₁ rfl]
      rfl
  refine ⟨hguarantee, rfl, u, ⟨hsettled, iff_of_true h₁.holder rfl,
    FileTree.clear_entriesOf hsettled.isDir fun q node hq hnode => ?_, .refl _ _⟩, hshows,
    hgone _ List.prefix_rfl⟩
  rcases Aim.own_area_true.mp hq with ⟨rest, rfl⟩ | hown
  · exact hshows.isLink hnode
  · by_cases hstaging : stagingPos (calls i).clock a.dir <+: q
    · rw [hgone q hstaging] at hnode
      cases hnode
    · have hseen := Region.seen_of_own hown
      rw [hmoved.other (target_not_seen hapart hseen) hstaging] at hnode
      exact h₁.clear q node hseen hnode

/-- The staging file takes the place of what stood at the target. -/
theorem among_replaceFile {bytes : List UInt8} (hname : Proper a.name)
    (h : a.During calls i false s v) (hreceived : Received (calls i).clock a.dir bytes v) :
    Among cred now a calls i (replaceWorkspaceFileFromStaging
        (canonical (stagingPos (calls i).clock a.dir)) a.target)
      (fun r s' => r = .ok () ∧ a.Placed calls i (fileLayout bytes) s') s := by
  rw [replaceWorkspaceFileFromStaging, Aim.target, PathBuf.parent_canonical_concat]
  dsimp only
  refine (among_parent hapart hcred h hreceived.isDir).and_then ?_
  rintro r s₁ ⟨rfl, h₁⟩
  refine ⟨(), rfl, (among_removePathIfExists hapart hcred h₁).and_then ?_⟩
  rintro r s₂ ⟨rfl, h₂, hvacant⟩
  exact ⟨(), rfl, among_rename hapart hcred hname hreceived h₂ hvacant⟩

omit hapart in
/-- The directory of the target is reached without passing one of its entries. -/
theorem leads_directory {t : FileTree} {dir : Pos} (hdir : t.isDir dir = true)
    (names : List String) : FileTree.Leads cred t (canonical dir) dir names := by
  have hclear := (passable_of_isDir hdir).straight.clear
  refine ⟨FileTree.walk_dir hcred hdir, FileTree.look_of_isDir hcred hdir, fun q hq n _ hpre => ?_⟩
  have habove := (FileTree.Clear.resolve cred hclear (seen_wayTo.mpr (Or.inl List.prefix_rfl))
    maxLinks).1 q hq
  exact not_entry_above dir n (hpre.trans habove)

/-- What was received is extracted, and takes the place of what stood at the target. -/
theorem among_replaceArchive {bytes : List UInt8} {codec : Codec} {U : ArchiveLayout}
    (hname : Proper a.name) (harchive : (calls i).encoding = .tarGz)
    (h : a.During calls i false s v) (hreceived : Received (calls i).clock a.dir bytes v)
    (hU : layoutOf (codec.unpack bytes) = some U) :
    Among cred now a calls i (replaceWorkspaceDirectoryFromArchivePath codec (calls i).clock.expand
        (canonical (stagingPos (calls i).clock a.dir)) a.target)
      (fun r s' => r = .ok () ∧ ∃ V, U.Unwrapped V ∧ a.Placed calls i V s') s := by
  have hnames := hapart.target i
  simp only [ImportCall.madeUp, List.mem_cons, List.not_mem_nil, or_false, not_or] at hnames
  rw [replaceWorkspaceDirectoryFromArchivePath, Aim.target, extractionPath_canonical,
    parentOrDot_canonical]
  refine (among_parent hapart hcred h hreceived.isDir).and_then ?_
  rintro r s₁ ⟨rfl, h₁⟩
  obtain ⟨x, hextract, hclosed, hshows, -, hextracted, -⟩ :=
    run_extractArchive_beside now hcred hreceived hU
  rw [extractArchiveAndReplace_eq]
  refine ⟨(), rfl, (among_of_run hapart (stays_extractArchive staging_inside extraction_inside
    codec) hextract h₁).and_then ?_⟩
  rintro r s₂ ⟨rfl, h₂⟩
  refine ⟨(), rfl, (among_removePathIfExists hapart hcred h₂).and_then ?_⟩
  rintro r s₃ ⟨rfl, h₃, hvacant⟩
  refine ⟨(), rfl, ?_⟩
  have hfree : s₃.tree.get? (a.dir ++ [a.name]) = none := by
    refine hvacant.resolve_right fun hraw => ?_
    rw [harchive] at hraw
    cases hraw.1
  -- what has been extracted is untouched
  have hshows₃ : Shows s₃.tree (extractionPos (calls i).clock a.dir) U := by
    intro q
    rw [h₃.same _ (Region.seen_of_own ((a.area (calls i) false).below _ _
      (own_extraction a calls i false) (List.prefix_append _ q)))]
    exact hshows q
  have hstaged : s₃.tree.get? (stagingPos (calls i).clock a.dir) =
      x.get? (stagingPos (calls i).clock a.dir) :=
    h₃.same _ (Region.seen_of_own (own_staging a calls i false))
  have hready : Ready cred s₃.tree (canonical a.dir) a.dir
      (transferName "import" (calls i).clock.staging)
      (transferName "expand" (calls i).clock.expand) a.name := by
    refine ⟨leads_directory hcred h₃.settled.isDir _, hshows₃.isDir hclosed,
      fun _ _ hnode => hshows₃.isLink hnode, hfree, fun _ => ?_, Ne.symm hnames.2,
      (transferName_ne _ _).symm⟩
    rw [FileTree.isDir]
    exact hstaged ▸ hextracted.staged
  obtain ⟨y, hrun⟩ := run_installExtracted now hcred (Ne.symm hnames.2) hname
    h₃.settled.isDir hready.source hready.plain hfree
    (canonical (stagingPos (calls i).clock a.dir))
  have hinstalled := hrun
  rw [stagingPos, canonical_concat, canonical_concat, canonical_concat] at hinstalled
  replace hinstalled := installExtracted_ok hready hinstalled
  obtain ⟨V, hV, hplaced⟩ := hinstalled.shows hclosed hshows₃
  have hgone := hinstalled.removed (Ne.symm hnames.1) []
  rw [List.append_nil] at hgone
  apply (among_of_run hapart (stays_installExtracted staging_inside extraction_inside
    target_inside) hrun (h₃.during hfree)).mono
  rintro r s₄ ⟨rfl, h₄⟩
  exact ⟨rfl, V, hV, y, h₄, hplaced, hgone⟩

end Install

/-! ### The whole import -/

section Import

variable (hapart : a.Apart calls) (hcred : cred.privileged = true) {cfg : ServiceConfig}
  {bytes : List UInt8} (hV : Depicts cfg.codec bytes V (calls i).encoding)

include hapart hcred hV

theorem among_installObject (hname : Proper a.name) (h : a.During calls i false s v)
    (hreceived : Received (calls i).clock a.dir bytes v) (count : Nat) :
    Among cred now a calls i (installObject cfg (calls i).clock (calls i).header
        (canonical (stagingPos (calls i).clock a.dir)) a.target count)
      (fun r s' => (∃ response, r = .ok response) ∧ a.Placed calls i V s') s := by
  cases hencoding : (calls i).encoding with
  | raw =>
    have hofInt : WorkspaceObjectEncoding.ofInt (calls i).header.encoding = .raw := hencoding
    rw [hencoding] at hV
    obtain rfl : V = fileLayout bytes := hV
    simp only [installObject, hofInt]
    have hreplace : Among cred now a calls i (rpc (replaceWorkspaceFileFromStaging
        (canonical (stagingPos (calls i).clock a.dir)) a.target))
        (fun r s' => r = .ok () ∧ a.Placed calls i (fileLayout bytes) s') s := by
      apply Prog.copes_mapError
      apply (among_replaceFile hapart hcred hname h hreceived).mono
      rintro r s' ⟨rfl, hplaced⟩
      exact ⟨rfl, hplaced⟩
    refine hreplace.and_then ?_
    rintro r s' ⟨rfl, hplaced⟩
    exact ⟨(), rfl, ⟨_, rfl⟩, hplaced⟩
  | tarGz =>
    have hofInt : WorkspaceObjectEncoding.ofInt (calls i).header.encoding = .tarGz := hencoding
    rw [hencoding] at hV
    obtain ⟨U, hU, hunwrapped⟩ := hV
    simp only [installObject, hofInt]
    have hreplace : Among cred now a calls i (rpc (replaceWorkspaceDirectoryFromArchivePath
        cfg.codec (calls i).clock.expand (canonical (stagingPos (calls i).clock a.dir)) a.target))
        (fun r s' => r = .ok () ∧ a.Placed calls i V s') s := by
      apply Prog.copes_mapError
      apply (among_replaceArchive hapart hcred hname hencoding h hreceived hU).mono
      rintro r s' ⟨rfl, V', hunwrapped', hplaced⟩
      obtain rfl := hunwrapped.eq hunwrapped'
      exact ⟨rfl, hplaced⟩
    refine hreplace.and_then ?_
    rintro r s' ⟨rfl, hplaced⟩
    exact ⟨(), rfl, ⟨_, rfl⟩, hplaced⟩
  | unspecified =>
    rw [hencoding] at hV
    exact absurd hV id

/-- **An import among others.**  An import that may be made succeeds, and leaves its object
    at the target. -/
theorem among_importObject (hroot : RootPath cfg.root) (htakes : a.Takes cfg (calls i).header)
    (hrest : payload (calls i).rest = some bytes) (hs : a.Before calls i s) :
    Among cred now a calls i
      (importObject cfg (calls i).clock (calls i).header (calls i).rest)
      (fun r s' => (∃ response, r = .ok response) ∧ a.Placed calls i V s') s := by
  obtain ⟨-, p, hp, -, -, hproper⟩ := resolvePath_eq_ok hroot htakes.resolve
  obtain rfl := canonical_injective hp
  have hname : Proper a.name := hproper a.name (by simp)
  rw [importObject_eq]
  refine (among_receiveObject hapart hcred hroot htakes hrest hs).and_then ?_
  rintro r s₁ ⟨⟨count, rfl⟩, v, h₁, hreceived⟩
  refine ⟨_, rfl, ?_⟩
  rw [finishImport, Aim.target, stagingPath_canonical]
  refine (among_installObject hapart hcred hV hname h₁ hreceived count).and_then ?_
  rintro r s₂ ⟨⟨response, rfl⟩, y, h₂, hshows, hgone⟩
  refine ⟨response, rfl, ?_⟩
  -- the staging file is not there to be removed
  have hunlink : (ignore (sys (.unlink (canonical (stagingPos (calls i).clock a.dir)))) :
      Fs Status Unit).run (FileTree.exec cred now) y = (some (.ok ()), y) := by
    have hclear : FileTree.Clear (a.area (calls i) true) y := by
      intro q node hq hnode
      rw [← h₂.alike.get? q hq] at hnode
      exact h₂.clear q node hq hnode
    have hsame : ((ignore (sys (.unlink (canonical (stagingPos (calls i).clock a.dir)))) :
        Fs Status Unit).run (FileTree.exec cred now) y).2 = y :=
      run_ignore_unlink cred now hclear (Region.seen_of_own (own_staging a calls i true)) hgone
    rw [run_ignore_ok (by simp) (by simp)] at hsame ⊢
    exact congrArg _ hsame
  refine (among_of_run hapart (stays_ignore (stays_call (c := .unlink _) staging_inside)) hunlink
    h₂).and_then ?_
  rintro r s₃ ⟨rfl, h₃⟩
  exact ⟨(), rfl, ⟨response, rfl⟩, y, h₃, hshows, hgone⟩

end Import

end Scriptorium
