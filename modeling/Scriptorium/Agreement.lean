import Scriptorium.Syscalls

/-!
# Trees that agree inside a directory

Two trees that hold the same below a position `W`, and through which `W` is
reached alike, answer a reading call alike as long as the call looks at nothing
else (`exec_congr`).  A call that does look elsewhere can be told a different
story in another tree that still agrees: nothing may stand at the place it looks
at first, or a link to itself (`exists_absent_and_loop`).
-/

namespace Posix

/-- Inside the directory at `W`, or on the way to it. -/
def Visible (W q : Pos) : Prop := W <+: q ∨ q <+: W

instance (W q : Pos) : Decidable (Visible W q) := by unfold Visible; infer_instance

theorem visible_nil (W : Pos) : Visible W [] := Or.inr List.nil_prefix

theorem visible_dropLast {W q : Pos} (h : Visible W q) : Visible W q.dropLast := by
  rcases h with h | h
  · by_cases hq : q = W
    · exact Or.inr (hq ▸ List.dropLast_prefix q)
    · obtain ⟨rest, rfl⟩ := h
      have hrest : rest ≠ [] := by
        rintro rfl
        exact hq (List.append_nil W)
      rw [List.dropLast_append_of_ne_nil hrest]
      exact Or.inl (List.prefix_append W _)
  · exact Or.inr ((List.dropLast_prefix q).trans h)

namespace FileTree

variable (cred : Cred) (now : Nat) (W : Pos)

/-- Two trees with the same contents at and below `W`, listed in the same order,
    in which the way to `W` looks the same. -/
structure SameInside (t t' : FileTree) : Prop where
  nodes : ∀ q, W <+: q → t.get? q = t'.get? q
  order : ∀ q, W <+: q → t.children q = t'.children q
  above : ∀ q, q <+: W → t.look cred q = t'.look cred q
  types : ∀ q, q <+: W → (t.get? q).map Node.fileType = (t'.get? q).map Node.fileType

variable {cred now W} {t t' : FileTree}

theorem SameInside.refl (t : FileTree) : SameInside cred W t t :=
  ⟨fun _ _ => rfl, fun _ _ => rfl, fun _ _ => rfl, fun _ _ => rfl⟩

theorem SameInside.look_eq (h : SameInside cred W t t') {q : Pos} (hq : Visible W q) :
    t.look cred q = t'.look cred q := by
  rcases hq with hq | hq
  · exact look_congr (h.nodes q hq)
  · exact h.above q hq

theorem SameInside.fileType_eq (h : SameInside cred W t t') {q : Pos} (hq : Visible W q) :
    (t.get? q).map Node.fileType = (t'.get? q).map Node.fileType := by
  rcases hq with hq | hq
  · rw [h.nodes q hq]
  · exact h.types q hq

/-! ### Calls that stay inside -/

variable (cred W t)

/-- A path all of whose lookups stay inside `W` or on the way to it. -/
def WalkInside (path : List Component) : Prop :=
  ∀ q ∈ looks (t.look cred) maxLinks [] path, Visible W q

/-- A reading call that looks at nothing but `W` and the way to it, and describes,
    lists or reads only what lies at or below `W`.  Of what is on the way it may
    learn the type, no more. -/
def CallInside : FsCall → Prop
  | .fileType path => t.WalkInside cred W path
  | .stat path | .readDir path | .read path =>
    t.WalkInside cred W path ∧ ∀ p, walk (t.look cred) maxLinks [] path = .ok p → W <+: p
  | .lstat path => ∃ parent name, path = parent ++ [.normal name] ∧
      t.WalkInside cred W parent ∧
        ∀ p, walk (t.look cred) maxLinks [] parent = .ok p → W <+: p
  | _ => False

variable {cred W t}

theorem SameInside.walk_eq (h : SameInside cred W t t') {path : List Component}
    (hpath : t.WalkInside cred W path) :
    walk (t.look cred) maxLinks [] path = walk (t'.look cred) maxLinks [] path := by
  unfold walk
  rw [(resolve_congr fun q hq => h.look_eq (hpath q hq)).1]

theorem WalkInside.visible {path : List Component} (hpath : t.WalkInside cred W path) {p : Pos}
    (h : walk (t.look cred) maxLinks [] path = .ok p) : Visible W p :=
  region_of_walk (visible_nil W) (fun _ hp => visible_dropLast hp) (visible_nil W) hpath h

theorem SameInside.find_eq (h : SameInside cred W t t') {path : List Component}
    (hpath : t.WalkInside cred W path)
    (hin : ∀ p, walk (t.look cred) maxLinks [] path = .ok p → W <+: p) :
    t.find cred path = t'.find cred path := by
  unfold find
  rw [← h.walk_eq hpath]
  cases hw : walk (t.look cred) maxLinks [] path with
  | error e => rfl
  | ok p => simp only [h.nodes p (hin p hw)]

theorem SameInside.find_fileType_eq (h : SameInside cred W t t') {path : List Component}
    (hpath : t.WalkInside cred W path) :
    (t.find cred path).map (fun found => found.2.fileType) =
      (t'.find cred path).map fun found => found.2.fileType := by
  unfold find
  rw [← h.walk_eq hpath]
  cases hw : walk (t.look cred) maxLinks [] path with
  | error e => rfl
  | ok p =>
    have htype := h.fileType_eq (hpath.visible hw)
    simp only
    cases hp : t.get? p with
    | none =>
      rw [hp] at htype
      have hp' : t'.get? p = none := by simpa using htype.symm
      simp [hp']
    | some node =>
      rw [hp] at htype
      obtain ⟨node', hnode', heq⟩ := Option.map_eq_some_iff.mp htype.symm
      simp [hnode', Except.map, heq]

/-- Trees that agree inside give a call that stays inside the same answer. -/
theorem exec_congr (h : SameInside cred W t t') {c : FsCall} (hc : t.CallInside cred W c) :
    (exec cred now c t).1 = (exec cred now c t').1 := by
  cases c with
  | fileType path => exact h.find_fileType_eq hc
  | stat path =>
    simp only [exec]
    rw [h.find_eq hc.1 hc.2]
  | lstat path =>
    obtain ⟨parent, name, rfl, hwalk, hin⟩ := hc
    simp only [exec, lstat_concat, slot_concat, ← h.walk_eq hwalk]
    cases hw : walk (t.look cred) maxLinks [] parent with
    | error e => rfl
    | ok dir =>
      have hdir := hin dir hw
      have hnode := h.nodes (dir ++ [name]) (hdir.trans (List.prefix_append dir [name]))
      simp only [← search_congr (h.look_eq (Or.inl hdir))]
      cases hs : search (t.look cred) dir with
      | error e => rfl
      | ok _ => simp only [hnode]
  | readDir path =>
    simp only [exec, readDir]
    rw [← h.find_eq hc.1 hc.2]
    cases hf : t.find cred path with
    | error e => rfl
    | ok found =>
      obtain ⟨p, node⟩ := found
      have hp := hc.2 p (find_eq_ok hf).1
      have hchild : ∀ name, t.get? (p ++ [name]) = t'.get? (p ++ [name]) := fun name =>
        h.nodes _ (hp.trans (List.prefix_append p [name]))
      simp only [entries, h.order p hp, hchild]
  | read path =>
    simp only [exec, read]
    rw [h.find_eq hc.1 hc.2]
  | _ => exact hc.elim

theorem SameInside.walkInside (h : SameInside cred W t t') {path : List Component}
    (hpath : t.WalkInside cred W path) : t'.WalkInside cred W path := by
  have hlooks := (resolve_congr fun q hq => h.look_eq (hpath q hq)).2
  unfold WalkInside
  rw [← hlooks]
  exact hpath

/-- A call that stays inside one tree stays inside every tree that agrees with it. -/
theorem SameInside.callInside (h : SameInside cred W t t') {c : FsCall}
    (hc : t.CallInside cred W c) : t'.CallInside cred W c := by
  have hend : ∀ path : List Component, (t.WalkInside cred W path ∧
      ∀ p, walk (t.look cred) maxLinks [] path = .ok p → W <+: p) →
      t'.WalkInside cred W path ∧ ∀ p, walk (t'.look cred) maxLinks [] path = .ok p → W <+: p := by
    rintro path ⟨hwalk, hin⟩
    refine ⟨h.walkInside hwalk, ?_⟩
    rw [← h.walk_eq hwalk]
    exact hin
  cases c with
  | fileType path => exact h.walkInside hc
  | stat path => exact hend path hc
  | readDir path => exact hend path hc
  | read path => exact hend path hc
  | lstat path =>
    obtain ⟨parent, name, hpath, hparent⟩ := hc
    exact ⟨parent, name, hpath, hend parent hparent⟩
  | _ => exact hc.elim

/-- A call that stays inside changes nothing. -/
theorem exec_state_of_callInside {c : FsCall} (hc : t.CallInside cred W c) :
    (exec cred now c t).2 = t := by
  cases c <;> first | rfl | exact hc.elim

/-! ### Calls that look elsewhere -/

theorem sameInside_of_get?_eq (hnodes : ∀ q, Visible W q → t.get? q = t'.get? q)
    (horder : ∀ q, W <+: q → t.children q = t'.children q) : SameInside cred W t t' :=
  ⟨fun q hq => hnodes q (Or.inl hq), horder, fun q hq => look_congr (hnodes q (Or.inr hq)),
    fun q hq => by rw [hnodes q (Or.inr hq)]⟩

theorem sameInside_add {dir : Pos} {name : String} {node : Node} {hdir hfree hname}
    (hout : ¬ Visible W (dir ++ [name])) :
    SameInside cred W t (t.add dir name node hdir hfree hname) := by
  refine sameInside_of_get?_eq (fun q hq => ?_) (fun q hq => ?_)
  · rw [get?_add, if_neg]
    rintro rfl
    exact hout hq
  · rw [children_add_of_ne]
    rintro rfl
    exact hout (Or.inl (hq.trans (List.prefix_append q [name])))

/-- What lies below a position outside lies outside. -/
theorem not_visible_below {p q : Pos} (hout : ¬ Visible W p) (hpq : p <+: q) : ¬ Visible W q := by
  rintro (hq | hq)
  · exact hout (List.prefix_or_prefix_of_prefix hq hpq)
  · exact hout (Or.inr (hpq.trans hq))

theorem sameInside_prune {p : Pos} {hp} (hout : ¬ Visible W p) :
    SameInside cred W t (t.prune p hp) := by
  refine sameInside_of_get?_eq (fun q hq => ?_) (fun q hq => ?_)
  · rw [get?_prune, if_neg]
    intro hpq
    exact not_visible_below hout hpq hq
  · rw [children_prune]
    intro name hpq
    exact not_visible_below hout hpq (Or.inl (hq.trans (List.prefix_append q [name])))

theorem SameInside.trans {t'' : FileTree} (h : SameInside cred W t t')
    (h' : SameInside cred W t' t'') : SameInside cred W t t'' :=
  ⟨fun q hq => (h.nodes q hq).trans (h'.nodes q hq),
    fun q hq => (h.order q hq).trans (h'.order q hq),
    fun q hq => (h.above q hq).trans (h'.above q hq),
    fun q hq => (h.types q hq).trans (h'.types q hq)⟩

def linkTo (target : String) : Node := ⟨.link target, ⟨0o777, 0, 0, 0⟩⟩

theorem look_linkTo {p : Pos} (target : String) (h : t.get? p = some (linkTo target)) :
    t.look cred p = .link (segments target) := by
  simp [look, h, linkTo, Node.view]

theorem properNames_of_look {p : Pos} {target : List Component}
    (h : t.look cred p = .link target) : ProperNames target := by
  unfold look Node.view at h
  split at h
  · cases h
  · split at h
    · cases h
    · obtain rfl := View.link.inj h
      exact fun name hname => proper_of_mem_segments hname
    · cases h

/-- A path that looks outside fails in two ways, depending on what is outside. -/
theorem walk_differs {path : List Component} (hpath : ProperNames path)
    (hout : ¬ t.WalkInside cred W path) :
    ∃ t₁ t₂ : FileTree, SameInside cred W t t₁ ∧ SameInside cred W t t₂ ∧
      walk (t₁.look cred) maxLinks [] path = .error .noent ∧
      walk (t₂.look cred) maxLinks [] path = .error .loop := by
  obtain ⟨dir, name, hnot, hname, hdir, hdecide⟩ :=
    walk_escape (visible_nil W) (fun _ hp => visible_dropLast hp)
      (fun q target hq => properNames_of_look hq) hpath (visible_nil W) hout
  have hne : dir ++ [name] ≠ [] := by simp
  have hself : ¬ dir ++ [name] <+: dir := fun h => absurd h.length_le (by simp)
  have hgone : SameInside cred W t (t.prune (dir ++ [name]) hne) := sameInside_prune hnot
  have habsent : (t.prune (dir ++ [name]) hne).get? (dir ++ [name]) = none := by simp
  have hdir' : (t.prune (dir ++ [name]) hne).isDir dir = true := by
    have := isDir_of_look hdir
    simpa [isDir, hself] using this
  have hlinked : SameInside cred W (t.prune (dir ++ [name]) hne)
      ((t.prune (dir ++ [name]) hne).add dir name (linkTo name) hdir' habsent hname) :=
    sameInside_add hnot
  have hloop := hgone.trans hlinked
  refine ⟨_, _, hgone, hloop, ?_, ?_⟩
  · refine (hdecide _ fun q hq => (hgone.look_eq hq).symm).1 ?_
    exact look_eq_absent.mpr habsent
  · refine (hdecide _ fun q hq => (hloop.look_eq hq).symm).2 ?_
    rw [look_linkTo name (by simp), segments_of_proper hname]

/-! ### Children of a directory inside -/

/-- The path of an entry that is no link, in a directory inside. -/
theorem WalkInside.child {src : List Component} {p : Pos} (name : String)
    (hsrc : t.WalkInside cred W src) (hp : walk (t.look cred) maxLinks [] src = .ok p)
    (hin : W <+: p) (hlink : ∀ target, t.look cred (p ++ [name]) ≠ .link target) :
    t.WalkInside cred W (src ++ [.normal name]) ∧
      ∀ q, walk (t.look cred) maxLinks [] (src ++ [.normal name]) = .ok q → q = p ++ [name] := by
  obtain ⟨fewer, -, hres, hlooks⟩ :=
    (resolve_append [.normal name] (by simp)).1 p hp
  refine ⟨?_, ?_⟩
  · intro q hq
    rw [hlooks, List.mem_append, looks_normal] at hq
    rcases hq with hq | hq
    · exact hsrc q hq
    · rcases List.mem_cons.mp hq with rfl | hq
      · exact Or.inl hin
      · cases hs : search (t.look cred) p with
        | error e => simp [hs] at hq
        | ok _ =>
          simp only [hs] at hq
          rcases List.mem_cons.mp hq with rfl | hq
          · exact Or.inl (hin.trans (List.prefix_append p [name]))
          · cases hv : t.look cred (p ++ [name]) with
            | absent => simp [hv] at hq
            | link target => exact absurd hv (hlink target)
            | dir searchable => simp [hv] at hq
            | other => simp [hv] at hq
  · intro q hq
    rw [walk_eq_ok, hres, resolve_normal] at hq
    cases hs : search (t.look cred) p with
    | error e => simp [hs] at hq
    | ok _ =>
      simp only [hs] at hq
      cases hv : t.look cred (p ++ [name]) with
      | absent => simp [hv] at hq
      | link target => exact absurd hv (hlink target)
      | dir searchable => simpa [hv, eq_comm] using hq
      | other => simpa [hv, eq_comm] using hq

/-! ### Listing a directory on the way -/

/-- A name that can be a file name, is longer than `length`, and is not in use. -/
theorem exists_fresh (used : List String) (length : Nat) :
    ∃ name, Proper name ∧ name ∉ used ∧ length < (utf8 name).length := by
  let n := length + (used.map String.length).sum + 3
  have hchars : (String.ofList (List.replicate n 'x')).toList = List.replicate n 'x' :=
    String.toList_ofList
  have hlen : (String.ofList (List.replicate n 'x')).length = n := by
    rw [← String.length_toList, hchars, List.length_replicate]
  have hsum : ∀ names : List String, ∀ s ∈ names, s.length ≤ (names.map String.length).sum := by
    intro names
    induction names with
    | nil => simp
    | cons first names ih =>
      intro s hs
      rw [List.map_cons, List.sum_cons]
      rcases List.mem_cons.mp hs with rfl | hs
      · omega
      · have := ih s hs
        omega
  have hne : ∀ s : String, s.length < n → String.ofList (List.replicate n 'x') ≠ s := by
    rintro s hs rfl
    omega
  refine ⟨String.ofList (List.replicate n 'x'), ⟨hne _ ?_, hne _ ?_, hne _ ?_, ?_⟩, ?_, ?_⟩
  · exact Nat.lt_of_lt_of_le (m := 3) (by decide) (by omega)
  · exact Nat.lt_of_lt_of_le (m := 3) (by decide) (by omega)
  · exact Nat.lt_of_lt_of_le (m := 3) (by decide) (by omega)
  · rw [hchars]
    simp
  · intro hmem
    have hle := hsum used _ hmem
    omega
  · have hbytes : ∀ k, (List.replicate k 'x').flatMap String.utf8EncodeChar =
        List.replicate k 120 := by
      intro k
      induction k with
      | zero => rfl
      | succ k ih => rw [List.replicate_succ, List.flatMap_cons, ih]; rfl
    rw [utf8, hchars, hbytes, List.length_replicate]
    omega

/-- A directory on the way to `W` may hold one more entry, listed last, without
    anyone inside noticing.  The two trees differ in what that entry is: a link to
    nothing, or a link to itself, with texts of different lengths. -/
structure Twins (cred : Cred) (W : Pos) (t : FileTree) (p : Pos) (name target : String)
    (t₁ t₂ : FileTree) : Prop where
  same₁ : SameInside cred W t t₁
  same₂ : SameInside cred W t t₂
  name_proper : Proper name
  target_proper : Proper target
  longer : (utf8 name).length < (utf8 target).length
  free : t.get? (p ++ [name]) = none
  nothing : t.get? (p ++ [target]) = none
  get?₁ : ∀ q, t₁.get? q = if q = p ++ [name] then some (linkTo target) else t.get? q
  get?₂ : ∀ q, t₂.get? q = if q = p ++ [name] then some (linkTo name) else t.get? q
  children₁ : t₁.children p = t.children p ++ [name]
  children₂ : t₂.children p = t.children p ++ [name]

theorem exists_twins (cred : Cred) {p : Pos} (hdir : t.isDir p = true) (hup : p <+: W)
    (hne : p ≠ W) :
    ∃ name target t₁ t₂, Twins cred W t p name target t₁ t₂ := by
  obtain ⟨rest, rfl⟩ := hup
  cases rest with
  | nil => exact absurd (List.append_nil p).symm hne
  | cons next rest =>
    obtain ⟨name, hname, hfresh, -⟩ := exists_fresh (next :: t.children p) 0
    obtain ⟨target, htarget, hfresh', hlonger⟩ :=
      exists_fresh (name :: t.children p) (utf8 name).length
    rw [List.mem_cons, not_or] at hfresh hfresh'
    have hfree : ∀ n, n ∉ t.children p → t.get? (p ++ [n]) = none := by
      intro n hn
      rw [mem_children, Bool.not_eq_true, Option.isSome_eq_false_iff, Option.isNone_iff_eq_none]
        at hn
      exact hn
    have hout : ¬ Visible (p ++ next :: rest) (p ++ [name]) := by
      rintro (h | h)
      · obtain ⟨more, hmore⟩ := h
        rw [List.append_assoc, List.append_cancel_left_eq, List.cons_append] at hmore
        exact hfresh.1 (List.cons.inj hmore).1.symm
      · rw [List.prefix_append_right_inj, List.cons_prefix_cons] at h
        exact hfresh.1 h.1
    have hsame : ∀ node, SameInside cred (p ++ next :: rest) t
        (t.add p name node hdir (hfree name hfresh.2) hname) := fun node => sameInside_add hout
    exact ⟨name, target, _, _, hsame (linkTo target), hsame (linkTo name), hname, htarget, hlonger,
      hfree name hfresh.2, hfree target hfresh'.2, fun q => get?_add, fun q => get?_add,
      children_add_self, children_add_self⟩

/-- A path that leads to the entry the twins differ in, with a link to spare, fails
    in two ways. -/
theorem Twins.walk_differs {src : List Component} {p : Pos} {name target : String}
    {t₁ t₂ : FileTree} (h : Twins cred W t p name target t₁ t₂)
    (hspare : walk (t.look cred) (maxLinks - 1) [] src = .ok p) (hp : t.look cred p = .dir true) :
    walk (t₁.look cred) maxLinks [] (src ++ [.normal name]) = .error .noent ∧
      walk (t₂.look cred) maxLinks [] (src ++ [.normal name]) = .error .loop := by
  have hself : p ≠ p ++ [name] := by simp
  -- in a tree that differs in the entry alone, the walk arrives there with a link to spare
  have hfind : ∀ (s : FileTree) (node : Node),
      (∀ q, s.get? q = if q = p ++ [name] then some node else t.get? q) →
      s.look cred p = .dir true ∧ ∃ fewer,
        walk (s.look cred) maxLinks [] (src ++ [.normal name]) =
          walk (s.look cred) (fewer + 1) p [.normal name] := by
    intro s node hs
    refine ⟨?_, ?_⟩
    · rw [← hp]
      exact look_congr (by rw [hs, if_neg hself])
    · have hspare' : walk (s.look cred) (maxLinks - 1) [] src = .ok p := by
        refine walk_extend (fun q hq => ?_) hspare
        refine look_congr ?_
        rw [hs, if_neg]
        rintro rfl
        exact hq (look_eq_absent.mpr h.free)
      obtain ⟨fewer, hres⟩ := resolve_append_spare [.normal name] hspare'
      refine ⟨fewer, ?_⟩
      have hlinks : maxLinks = maxLinks - 1 + 1 := rfl
      unfold walk
      rw [hlinks, hres]
  obtain ⟨hdir₁, fewer₁, hwalk₁⟩ := hfind t₁ _ h.get?₁
  obtain ⟨hdir₂, fewer₂, hwalk₂⟩ := hfind t₂ _ h.get?₂
  have hlook₁ : t₁.look cred (p ++ [name]) = .link [.normal target] := by
    rw [look_linkTo target (by simp [h.get?₁]), segments_of_proper h.target_proper]
  have hlook₂ : t₂.look cred (p ++ [name]) = .link [.normal name] := by
    rw [look_linkTo name (by simp [h.get?₂]), segments_of_proper h.name_proper]
  have hgone : t₁.look cred (p ++ [target]) = .absent := by
    rw [look_eq_absent, h.get?₁, if_neg, h.nothing]
    intro heq
    have : target = name := by simpa using heq
    exact absurd h.longer (by simp [this])
  refine ⟨?_, ?_⟩
  · rw [hwalk₁, walk, resolve_normal, search_eq_ok.mpr hdir₁, hlook₁]
    simp [follow, resolve_normal, search_eq_ok.mpr hdir₁, hgone]
  · rw [hwalk₂, walk, resolve_self_link hdir₂ hlook₂]

end FileTree

end Posix
