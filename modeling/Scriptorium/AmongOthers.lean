import Scriptorium.SharedTarget

/-!
# An import among others: up to its object

`Among` is the weakest precondition of a part of an import that is interfered with by the
others.  Until the way to the target has been made, what a call answers depends on how far
the others have come, and the calls are followed one by one (`among_prepareTarget`).  From
then on an import that does not hold the target sees in its area what it would see if it
were alone (`Aim.During`), so its object is received as it is then
(`among_receiveObject`).
-/

namespace Scriptorium

open Posix Effects

variable {ι : Type} {cred : Cred} {now : Nat} {a : Aim} {calls : ι → ImportCall} {i : ι}
  {s s' : Scene ι} {v : FileTree} {holds : Bool}

/-- The import `i` goes on among the others. -/
abbrev Among {ε α : Type} (cred : Cred) (now : Nat) (a : Aim) (calls : ι → ImportCall) (i : ι)
    (m : Fs ε α) (Q : Except ε α → Scene ι → Prop) (s : Scene ι) : Prop :=
  Prog.Copes (Scene.exec cred now a.target i) (a.May calls cred i) (a.Rely calls i)
    (a.Guarantee calls i) m Q s

/-- One call among others. -/
theorem among_sys {c : FsCall} {Q : Except IoError c.Out → Scene ι → Prop}
    (h : ∀ s₁, a.Rely calls i s s₁ → a.May calls cred i c s₁ →
      a.Guarantee calls i s₁ (Scene.exec cred now a.target i c s₁).2 ∧
      Q ((FileTree.exec cred now c s₁.tree).1.mapError .os)
        (Scene.exec cred now a.target i c s₁).2) :
    Among cred now a calls i (sys c) Q s := by
  intro s₁ hrely hmay
  obtain ⟨hguarantee, hQ⟩ := h s₁ hrely hmay
  refine ⟨hguarantee, ?_⟩
  simp only [Scene.exec] at hQ ⊢
  rcases hreply : (FileTree.exec cred now c s₁.tree).1 with e | out
  · rw [hreply] at hQ
    cases e <;> first | exact hQ | trivial
  · rw [hreply] at hQ
    exact hQ

/-! ### Making the way -/

/-- The import has not begun with what is its own. -/
structure Aim.Before (a : Aim) (calls : ι → ImportCall) (i : ι) (s : Scene ι) : Prop where
  passable : Passable s.tree a.dir
  fresh : ∀ n ∈ (calls i).madeUp, s.tree.get? (a.dir ++ [n]) = none
  idle : s.holder ≠ some i

theorem Aim.Before.rely (h : a.Before calls i s) (hrely : a.Rely calls i s s') :
    a.Before calls i s' := by
  refine ⟨hrely.steady.passable h.passable, fun n hn => ?_, mt hrely.spares.held h.idle⟩
  rw [hrely.spares.own _ (Region.own_entriesOf.mpr ⟨n, hn, List.prefix_rfl⟩)]
  exact h.fresh n hn

section Way

variable (hapart : a.Apart calls)

include hapart

/-- A call that makes the way. -/
theorem among_way {c : FsCall} {Q : Except IoError c.Out → Scene ι → Prop}
    (hc : a.Way c) (hs : a.Before calls i s)
    (hQ : ∀ s₁, a.Before calls i s₁ → a.Steady s s₁ →
      a.Before calls i (Scene.exec cred now a.target i c s₁).2 →
      a.Steady s (Scene.exec cred now a.target i c s₁).2 →
      Q ((FileTree.exec cred now c s₁.tree).1.mapError .os)
        (Scene.exec cred now a.target i c s₁).2) :
    Among cred now a calls i (sys c) Q s := by
  apply among_sys
  intro s₁ hrely _
  have hs₁ := hs.rely hrely
  have hguarantee := guarantee_of_way cred now i hapart hc hs₁.passable
  have hmade := hc.made cred now hapart.below hs₁.passable
  refine ⟨hguarantee, hQ s₁ hs₁ hrely.steady
    ⟨hguarantee.steady.passable hs₁.passable, fun n hn => ?_, ?_⟩
    (hrely.steady.trans hguarantee.steady)⟩
  · exact (hmade.beside _ (not_entry_above a.dir n)).trans (hs₁.fresh n hn)
  · simp only [Scene.exec, hc.looksAt, Bool.false_eq_true, if_false]
    exact hs₁.idle

section Making

variable (hcred : cred.privileged = true) {p : Pos} (hp : p <+: a.dir)

include hcred hp

/-- A directory on the way is found. -/
theorem among_isDir {ε : Type} (hs : a.Before calls i s) (hdir : s.tree.isDir p = true) :
    Among cred now a calls i (isDir (canonical p) : Fs ε Bool)
      (fun r s' => r = .ok true ∧ a.Before calls i s' ∧ a.Steady s s') s := by
  rw [isDir]
  apply Prog.copes_attempt_then
  apply among_way hapart (c := .fileType (canonical p)) ⟨p, hp, rfl⟩ hs
  intro s₁ hs₁ hsteady hs₂ hsteady₂
  obtain ⟨node, hfind, -, hkind⟩ := FileTree.find_dir hcred (hsteady.kept p hp hdir)
  have hreply : (FileTree.exec cred now (.fileType (canonical p)) s₁.tree).1 = .ok .dir := by
    simp only [FileTree.exec, hfind, Except.map, Node.fileType, Node.isDir_iff.mp hkind]
  rw [hreply]
  exact ⟨rfl, hs₂, hsteady₂⟩

/-- A directory that cannot be made is there already. -/
theorem among_found (e : IoError) (hs : a.Before calls i s) (hdir : s.tree.isDir p = true) :
    Among cred now a calls i
      (do if ← isDir (canonical p) then pure () else Prog.throw e : Fs IoError Unit)
      (fun r s' => r = .ok () ∧ a.Before calls i s' ∧ a.Steady s s' ∧ s'.tree.isDir p = true)
      s := by
  refine (among_isDir hapart hcred hp hs hdir).and_then ?_
  rintro r s' ⟨rfl, hs', hsteady⟩
  exact ⟨true, rfl, rfl, hs', hsteady, hsteady.kept _ hp hdir⟩

end Making

omit hapart in
variable (now) in
/-- In a directory, an entry that is a directory or missing is a directory afterwards. -/
theorem exec_mkdir_open (hcred : cred.privileged = true) {t : FileTree} {d : Pos} {n : String}
    (hdir : t.isDir d = true) (hopen : Passable t (d ++ [n])) (hname : Proper n) :
    (FileTree.exec cred now (.mkdir (canonical (d ++ [n]))) t).2.isDir (d ++ [n]) = true ∧
      ((FileTree.exec cred now (.mkdir (canonical (d ++ [n]))) t).1 = .ok () ∨
        (FileTree.exec cred now (.mkdir (canonical (d ++ [n]))) t).1 = .error .exist) := by
  rcases hopen _ List.prefix_rfl with hfree | hthere
  · rw [FileTree.exec_mkdir_entry now hcred hdir hfree hname]
    exact ⟨isDir_added hdir hfree hname, Or.inl rfl⟩
  · rw [FileTree.exec_mkdir_exists now hcred hdir (FileTree.isSome_of_isDir hthere)]
    exact ⟨hthere, Or.inr rfl⟩

/-- A directory on the way is made, with those above it: by induction on the way. -/
theorem among_createDirAllWithin (hcred : cred.privileged = true) {n : Nat} {p : Pos}
    (hn : p.length < n) (hp : p <+: a.dir) (hproper : ∀ name ∈ p, Proper name)
    (hs : a.Before calls i s) :
    Among cred now a calls i (createDirAllWithin n (canonical p))
      (fun r s' => r = .ok () ∧ a.Before calls i s' ∧ a.Steady s s' ∧ s'.tree.isDir p = true)
      s := by
  induction p using List.reverseRecOn generalizing n s with
  | nil =>
    obtain ⟨n, rfl⟩ : ∃ m, n = m + 1 := ⟨n - 1, by omega⟩
    rw [createDirAllWithin]
    apply Prog.copes_attempt_then
    apply among_way hapart (c := .mkdir (canonical [])) ⟨[], hp, rfl⟩ hs
    intro s₁ hs₁ hsteady hs₂ hsteady₂
    obtain ⟨e, he, hmkdir⟩ := FileTree.mkdir_of_walk now
      (FileTree.walk_dir hcred s₁.tree.isDir_root)
    have hreply : (FileTree.exec cred now (.mkdir (canonical [])) s₁.tree).1 = .error e :=
      congrArg Prod.fst hmkdir
    have hroot := (Scene.exec cred now a.target i (.mkdir (canonical [])) s₁).2.tree.isDir_root
    rw [hreply]
    rcases he with rfl | rfl
    all_goals
      apply (among_found hapart hcred hp _ hs₂ hroot).mono
      rintro r s₃ ⟨rfl, hs₃, hsteady₃, hdir⟩
      exact ⟨rfl, hs₃, hsteady₂.trans hsteady₃, hdir⟩
  | append_singleton d name ih =>
    obtain ⟨n, rfl⟩ : ∃ m, n = m + 1 := ⟨n - 1, by omega⟩
    have hname : Proper name := hproper name (by simp)
    have habove : d <+: a.dir := (List.prefix_append _ _).trans hp
    rw [createDirAllWithin]
    apply Prog.copes_attempt_then
    apply among_way hapart (c := .mkdir (canonical (d ++ [name]))) ⟨_, hp, rfl⟩ hs
    intro s₁ hs₁ hsteady hs₂ hsteady₂
    rcases hs₁.passable d habove with hmissing | hdir
    · rw [FileTree.exec_mkdir_noent now hcred (hs₁.passable.above habove) hmissing]
      dsimp only [Except.mapError]
      rw [PathBuf.parent_canonical_concat]
      have hparent := ih (n := n) (by rw [List.length_append] at hn; simp at hn; omega)
        habove (fun name hname => hproper name (List.mem_append_left _ hname)) hs₂
      refine hparent.and_then ?_
      rintro r s₃ ⟨rfl, hs₃, hsteady₃, hdir⟩
      refine ⟨(), rfl, ?_⟩
      -- now that its parent is there, the entry is made, or another import has made it
      apply Prog.copes_attempt_then
      apply among_way hapart (c := .mkdir (canonical (d ++ [name]))) ⟨_, hp, rfl⟩ hs₃
      intro s₄ hs₄ hsteady₄ hs₅ hsteady₅
      obtain ⟨hmade, hreply⟩ := exec_mkdir_open now hcred (hsteady₄.kept d habove hdir)
        (hs₄.passable.above hp) hname
      have hsteady₆ := (hsteady₂.trans hsteady₃).trans hsteady₅
      rcases hreply with hreply | hreply
      · rw [hreply]
        exact ⟨rfl, hs₅, hsteady₆, hmade⟩
      · rw [hreply]
        apply (among_found hapart hcred hp _ hs₅ hmade).mono
        rintro r s₆ ⟨rfl, hs₆, hsteady₇, hdir⟩
        exact ⟨rfl, hs₆, hsteady₆.trans hsteady₇, hdir⟩
    · obtain ⟨hmade, hreply⟩ := exec_mkdir_open now hcred hdir (hs₁.passable.above hp) hname
      rcases hreply with hreply | hreply
      · rw [hreply]
        exact ⟨rfl, hs₂, hsteady₂, hmade⟩
      · rw [hreply]
        apply (among_found hapart hcred hp _ hs₂ hmade).mono
        rintro r s₃ ⟨rfl, hs₃, hsteady₃, hdir⟩
        exact ⟨rfl, hs₃, hsteady₂.trans hsteady₃, hdir⟩

end Way

/-- An import is aimed here. -/
structure Aim.Takes (a : Aim) (cfg : ServiceConfig) (header : ImportHeader) : Prop where
  resolve : resolvePath cfg.root header.workspaceId header.targetPath =
    .ok (canonical (a.dir ++ [a.name]))
  storable : Storable (a.dir ++ [a.name])
  home : homePos cfg.root header.workspaceId = a.home
  uid : cfg.agentUid = a.uid
  gid : cfg.agentGid = a.gid

section Prepare

variable (hapart : a.Apart calls) (hcred : cred.privileged = true) {cfg : ServiceConfig}
  (hroot : RootPath cfg.root) {header : ImportHeader} (htakes : a.Takes cfg header)

include hapart hcred hroot htakes

/-- The home is made and given to the agent, whoever else does the same. -/
theorem among_ensureHome (hs : a.Before calls i s) :
    Among cred now a calls i (ensureHome cfg.root header.workspaceId cfg.agentUid cfg.agentGid)
      (fun r s' => (∃ home, r = .ok home) ∧ a.Before calls i s' ∧ a.Owned s'.tree) s := by
  obtain ⟨hid, p, hp, -, -, hproper⟩ := resolvePath_eq_ok hroot htakes.resolve
  obtain rfl := canonical_injective hp
  have hpath : homePath cfg.root header.workspaceId = canonical a.home :=
    (homePath_eq hroot hid).trans (congrArg canonical htakes.home)
  have hnames : ∀ name ∈ a.home, Proper name := fun name hname =>
    hproper name (List.mem_append_left _ (hapart.below.subset hname))
  rw [ensureHome, validateWorkspaceId_eq_ok.mpr hid, hpath, htakes.uid, htakes.gid]
  have hvalid : Among cred now a calls i (Prog.ofExcept (.ok ()) : Fs Error Unit)
      (fun r s' => r = .ok () ∧ s' = s) s := ⟨rfl, rfl⟩
  refine hvalid.and_then ?_
  rintro r s' ⟨rfl, rfl⟩
  refine ⟨(), rfl, ?_⟩
  have hmake : Among cred now a calls i (io (createDirAll (canonical a.home)))
      (fun r s₁ => r = .ok () ∧ a.Before calls i s₁ ∧ s₁.tree.isDir a.home = true) s' := by
    apply Prog.copes_mapError
    apply (among_createDirAllWithin hapart hcred (by simp [canonical]) hapart.below hnames hs).mono
    rintro r s₁ ⟨rfl, hs₁, -, hdir⟩
    exact ⟨rfl, hs₁, hdir⟩
  refine hmake.and_then ?_
  rintro r s₁ ⟨rfl, hs₁, hdir⟩
  refine ⟨(), rfl, ?_⟩
  apply Prog.copes_attempt_then
  apply among_way hapart (c := .chown (canonical a.home) a.uid a.gid) ⟨rfl, rfl, rfl⟩ hs₁
  intro s₂ hs₂ hsteady hs₃ _
  obtain ⟨node, hfind, hnode, -⟩ := FileTree.find_dir hcred (hsteady.kept a.home hapart.below hdir)
  have hchown : FileTree.exec cred now (.chown (canonical a.home) a.uid a.gid) s₂.tree =
      (.ok (), s₂.tree.setAttrs a.home fun attrs => { attrs with uid := a.uid, gid := a.gid }) := by
    simp only [FileTree.exec, FileTree.chown, hfind, hcred, Bool.true_or, if_true]
  have howned : a.Owned (Scene.exec cred now a.target i
      (.chown (canonical a.home) a.uid a.gid) s₂).2.tree := by
    simp only [Scene.exec, hchown]
    refine ⟨⟨node.kind, { node.attrs with uid := a.uid, gid := a.gid }⟩, ?_, rfl, rfl⟩
    rw [FileTree.get?_setAttrs, if_pos rfl, hnode]
    rfl
  rw [hchown]
  exact ⟨⟨_, rfl⟩, hs₃, howned⟩

/-- Up to the directory of the target: it is there then, whoever has made it. -/
theorem among_prepareTarget (hs : a.Before calls i s) :
    Among cred now a calls i (prepareTarget cfg header)
      (fun r s' => r = .ok a.target ∧ a.Before calls i s' ∧ a.Settled s'.tree) s := by
  obtain ⟨-, p, hp, -, -, hproper⟩ := resolvePath_eq_ok hroot htakes.resolve
  obtain rfl := canonical_injective hp
  rw [prepareTarget]
  have hhome : Among cred now a calls i
      (rpc (ensureHome cfg.root header.workspaceId cfg.agentUid cfg.agentGid))
      (fun r s₁ => (∃ home, r = .ok home) ∧ a.Before calls i s₁ ∧ a.Owned s₁.tree) s := by
    apply Prog.copes_mapError
    apply (among_ensureHome hapart hcred hroot htakes hs).mono
    rintro r s₁ ⟨⟨home, rfl⟩, hs₁, howned⟩
    exact ⟨⟨home, rfl⟩, hs₁, howned⟩
  refine hhome.and_then ?_
  rintro r s₁ ⟨⟨home, rfl⟩, hs₁, howned⟩
  refine ⟨home, rfl, ?_⟩
  rw [htakes.resolve]
  have hresolved : Among cred now a calls i (rpc (Prog.ofExcept (.ok a.target)))
      (fun r s' => r = .ok a.target ∧ s' = s₁) s₁ := ⟨rfl, rfl⟩
  refine hresolved.and_then ?_
  rintro r s' ⟨rfl, rfl⟩
  refine ⟨_, rfl, ?_⟩
  rw [Aim.target, parentOrDot_canonical]
  have hmake : Among cred now a calls i (ioRpc (createDirAll (canonical a.dir)))
      (fun r s₂ => r = .ok () ∧ a.Before calls i s₂ ∧ a.Settled s₂.tree) s' := by
    apply Prog.copes_mapError
    apply (among_createDirAllWithin hapart hcred (by simp [canonical]) List.prefix_rfl
      (fun name hname => hproper name (List.mem_append_left _ hname)) hs₁).mono
    rintro r s₂ ⟨rfl, hs₂, hsteady, hdir⟩
    exact ⟨rfl, hs₂, hsteady.owned howned, hdir⟩
  refine hmake.and_then ?_
  rintro r s₂ ⟨rfl, hs₂, hsettled⟩
  exact ⟨(), rfl, rfl, hs₂, hsettled⟩

end Prepare

/-! ### Once the way has been made -/

/-- The way has been made, and in its area the import sees what it would see in `v`, where
    it is alone. -/
structure Aim.During (a : Aim) (calls : ι → ImportCall) (i : ι) (holds : Bool) (s : Scene ι)
    (v : FileTree) : Prop where
  settled : a.Settled s.tree
  holder : s.holder = some i ↔ holds = true
  clear : FileTree.Clear (a.area (calls i) holds) s.tree
  alike : FileTree.Alike (a.area (calls i) holds) s.tree v

theorem Aim.Before.during (h : a.Before calls i s) (hsettled : a.Settled s.tree) :
    a.During calls i false s s.tree := by
  refine ⟨hsettled, iff_of_false h.idle (by simp),
    FileTree.clear_entriesOf hsettled.isDir fun q node hq hnode => ?_, .refl _ _⟩
  obtain ⟨n, hn, hpre⟩ := Region.own_entriesOf.mp hq
  rw [FileTree.get?_none_below (h.fresh n hn) hpre] at hnode
  cases hnode

theorem Aim.During.rely (h : a.During calls i holds s v) (hrely : a.Rely calls i s s') :
    a.During calls i holds s' v := by
  have hholder : s'.holder = some i ↔ holds = true := by
    rw [← h.holder]
    exact ⟨hrely.spares.held, hrely.holds⟩
  have halike : FileTree.Alike (a.area (calls i) holds) s.tree s'.tree := by
    cases holds with
    | false => exact hrely.spares.alike h.settled
    | true => exact hrely.spares.target (hholder.mpr rfl) h.settled
  refine ⟨hrely.steady.settled h.settled, hholder, fun q node hq hnode => ?_,
    halike.symm.trans h.alike⟩
  rw [← halike.get? q hq] at hnode
  exact h.clear q node hq hnode

theorem Aim.target_seen_iff (hapart : a.Apart calls) :
    (a.area (calls i) holds).Seen (a.dir ++ [a.name]) ↔ holds = true := by
  constructor
  · intro hseen
    cases holds with
    | true => rfl
    | false =>
      rcases Region.seen_entriesOf hseen with habove | hown
      · exact absurd habove (not_entry_above a.dir a.name)
      · obtain ⟨n, hn, hpre⟩ := Region.own_entriesOf.mp hown
        have heq : a.dir ++ [n] = a.dir ++ [a.name] := hpre.eq_of_length (by simp)
        have hname : n = a.name := by simpa using heq
        exact absurd (hname ▸ hn) (hapart.target i)
  · rintro rfl
    exact Region.seen_of_own (Region.own_entriesOf.mpr ⟨_, List.mem_cons_self, List.prefix_rfl⟩)

variable (cred now) in
/-- A call in the area has the answer and the effect that it has in `v`. -/
theorem Aim.During.exec (hapart : a.Apart calls) (h : a.During calls i holds s v) {c : FsCall}
    (hc : (a.area (calls i) holds).Admits c) :
    a.Guarantee calls i s (Scene.exec cred now a.target i c s).2 ∧
      (Scene.exec cred now a.target i c s).1 = (FileTree.exec cred now c v).1 ∧
      (a.area (calls i) holds).Returns c (FileTree.exec cred now c v).1 ∧
      a.During calls i holds (Scene.exec cred now a.target i c s).2
        (FileTree.exec cred now c v).2 := by
  obtain ⟨hreply, hnext⟩ : FileTree.Same _ (FileTree.exec cred now c s.tree)
    (FileTree.exec cred now c v) := FileTree.exec_alike hc h.clear h.alike
  have htouched := FileTree.touched_own cred now hc (h.clear.plain_entries h.settled.isDir)
  have hguarantee : a.Guarantee calls i s (Scene.exec cred now a.target i c s).2 :=
    guarantee_of_touched hapart h.holder.mpr htouched
  refine ⟨hguarantee, hreply, hreply ▸ FileTree.returns_exec hc h.clear,
    hguarantee.steady.settled h.settled, ?_, FileTree.clear_exec hc h.clear, hnext⟩
  by_cases hlook : looksAt a.target c = true
  · -- it asks about the target only when it has looked at it before
    have hholds : holds = true := by
      cases c with
      | fileType path =>
        obtain ⟨p, hp, rfl⟩ := hc
        obtain rfl := canonical_injective (beq_iff_eq.mp hlook)
        exact (Aim.target_seen_iff hapart).mp hp
      | _ => cases hlook
    simp only [Scene.exec, if_pos hlook, hholds]
  · simp only [Scene.exec, if_neg hlook, h.holder]

/-- A part of the import that works in its area ends as it would if the import were alone. -/
theorem among_of_run {ε α : Type} (hapart : a.Apart calls) {m : Fs ε α} {W : α → Prop}
    (hm : Stays (a.area (calls i) holds) W m) {r : Except ε α} {v' : FileTree}
    (hrun : m.run (FileTree.exec cred now) v = (some r, v')) (h : a.During calls i holds s v) :
    Among cred now a calls i m (fun r' s' => r' = r ∧ a.During calls i holds s' v') s :=
  Prog.copes_of_run hm (fun _ _ _ hrely hduring => hduring.rely hrely)
    (fun _ _ _ hc hduring => hduring.exec cred now hapart hc) hrun h

/-! ### Receiving -/

theorem own_of_madeUp {n : String} (hn : n ∈ (calls i).madeUp) :
    (a.area (calls i) holds).own (a.dir ++ [n]) = true := by
  refine Region.own_entriesOf.mpr ⟨n, ?_, List.prefix_rfl⟩
  cases holds with
  | false => exact hn
  | true => exact List.mem_cons_of_mem _ hn

variable (a calls i holds) in
theorem own_staging :
    (a.area (calls i) holds).own (stagingPos (calls i).clock a.dir) = true :=
  own_of_madeUp List.mem_cons_self

variable (a calls i holds) in
theorem own_extraction :
    (a.area (calls i) holds).own (extractionPos (calls i).clock a.dir) = true :=
  own_of_madeUp (List.mem_cons_of_mem _ List.mem_cons_self)

theorem staging_inside :
    Inside (a.area (calls i) holds) (canonical (stagingPos (calls i).clock a.dir)) :=
  ⟨_, own_staging a calls i holds, rfl⟩

theorem extraction_inside :
    Inside (a.area (calls i) holds) (canonical (extractionPos (calls i).clock a.dir)) :=
  ⟨_, own_extraction a calls i holds, rfl⟩

theorem dir_seen : (a.area (calls i) holds).Seen a.dir :=
  ⟨_, own_staging a calls i holds, List.prefix_append _ _⟩

/-- The chunks are received, while the others come and go. -/
theorem among_receiveObject (hapart : a.Apart calls) (hcred : cred.privileged = true)
    {cfg : ServiceConfig} (hroot : RootPath cfg.root) {header : ImportHeader}
    (htakes : a.Takes cfg header) {rest : ImportStream} {bytes : List UInt8}
    (hrest : payload rest = some bytes) (hs : a.Before calls i s) :
    Among cred now a calls i (receiveObject cfg (calls i).clock header rest)
      (fun r s' => (∃ count, r = .ok (a.target, count)) ∧ ∃ v, a.During calls i false s' v ∧
        Received (calls i).clock a.dir bytes v) s := by
  rw [receiveObject]
  refine (among_prepareTarget hapart hcred hroot htakes hs).and_then ?_
  rintro r s₁ ⟨rfl, h₁, hsettled⟩
  refine ⟨_, rfl, ?_⟩
  rw [Aim.target, stagingPath_canonical]
  have hfree := h₁.fresh _ List.mem_cons_self
  have hfree' := h₁.fresh _ (List.mem_cons_of_mem _ List.mem_cons_self)
  have hproper : Proper (transferName "import" (calls i).clock.staging) :=
    proper_transferName (by decide) _
  let u := s₁.tree.add a.dir _ ⟨.file [] false, FileTree.newAttrs cred now 0o666⟩ hsettled.isDir
    hfree hproper
  have hopen : (ioRpc (sys (.create (canonical (stagingPos (calls i).clock a.dir))))).run
      (FileTree.exec cred now) s₁.tree = (some (.ok (stagingPos (calls i).clock a.dir)), u) := by
    rw [ioRpc, Prog.run_mapError, stagingPos,
      run_sys_of_ok (FileTree.exec_create_entry now hcred hsettled.isDir hfree hproper)]
    rfl
  have hcreates : Stays (a.area (calls i) false) (fun _ => True)
      (ioRpc (sys (.create (canonical (stagingPos (calls i).clock a.dir))))) :=
    stays_ioRpc (stays_call (c := .create _) staging_inside)
  refine (among_of_run hapart hcreates hopen (h₁.during hsettled)).and_then ?_
  rintro r s₂ ⟨rfl, h₂⟩
  refine ⟨_, rfl, ?_⟩
  have hempty : u.get? (stagingPos (calls i).clock a.dir) =
      some ⟨.file [] false, FileTree.newAttrs cred now 0o666⟩ := by
    rw [stagingPos, FileTree.get?_add, if_pos rfl]
  obtain ⟨w, hchunks, hfile, hsame⟩ := run_receiveChunks cred now rfl hempty hrest (Nat.zero_le _)
  refine (among_of_run hapart (stays_receiveChunks (own_staging a calls i false) rest 0) hchunks
    h₂).and_then ?_
  rintro r s₃ ⟨rfl, h₃⟩
  refine ⟨_, rfl, ⟨_, rfl⟩, w, h₃, ?_, ⟨_, hfile⟩, ?_⟩
  · rw [← h₃.alike.isDir dir_seen]
    exact h₃.settled.isDir
  · have hne : extractionPos (calls i).clock a.dir ≠ stagingPos (calls i).clock a.dir :=
      fun heq => (extraction_apart (calls i).clock a.dir).1 (heq ▸ List.prefix_rfl)
    exact (hsame _ hne).trans (FileTree.get?_add.trans ((if_neg hne).trans hfree'))

end Scriptorium
