import Scriptorium.Syscalls

/-!
# Regions of a tree

A `Region` is a set of whole subtrees; the directories above them are seen from it.
A call that names its files by canonical paths into a region, in a tree without links
there, is decided by the region alone: in two trees that are `Alike` on it the call
answers the same and leaves them alike (`exec_alike`), and what it changes lies in the
region (`touched_own`).
-/

namespace Posix

/-! ### Walks without links on the way -/

/-- Descending by names looks at nothing but the way down. -/
theorem resolve_plain (look : Pos → View) (links : Nat) (pos names : Pos)
    (hplain : ∀ q, pos <+: q → q <+: pos ++ names → ∀ target, look q ≠ .link target) :
    (∀ q ∈ looks look links pos (names.map .normal), q <+: pos ++ names) ∧
      (∀ p, resolve look links pos (names.map .normal) = .ok (.found p) → p = pos ++ names) ∧
      ∀ dir name, resolve look links pos (names.map .normal) = .ok (.missing dir name) →
        dir ++ [name] = pos ++ names := by
  induction names generalizing pos with
  | nil => simp
  | cons first names ih =>
    have hfirst : pos ++ [first] <+: pos ++ first :: names := by simp [List.prefix_append_right_inj]
    have hstep : pos ++ [first] ++ names = pos ++ first :: names := by simp
    have hplain' := hplain _ (List.prefix_append _ _) hfirst
    obtain ⟨hlooks, hfound, hmissing⟩ := ih (pos ++ [first]) fun q hq hq' =>
      hplain q ((List.prefix_append _ _).trans hq) (hstep ▸ hq')
    rw [hstep] at hlooks hfound hmissing
    rw [List.map_cons, looks_normal, resolve_normal]
    rcases search look pos with e | _
    · simp
    · simp only [List.mem_cons, forall_eq_or_imp]
      refine ⟨⟨List.prefix_append _ _, hfirst, ?_⟩, ?_⟩
      · rcases hview : look (pos ++ [first]) with _ | searchable | target | _
        · simp
        · exact hlooks
        · exact absurd hview (hplain' target)
        · exact hlooks
      · rcases hview : look (pos ++ [first]) with _ | searchable | target | _
        · rcases names with _ | ⟨second, names⟩
          · simp
          · simp
        · exact ⟨hfound, hmissing⟩
        · exact absurd hview (hplain' target)
        · exact ⟨hfound, hmissing⟩

/-- What is there, with no link on the way, is not reported missing. -/
theorem walk_canonical_ne_noent {look : Pos → View} {links : Nat} {p : Pos}
    (hpresent : ∀ q, q <+: p → look q ≠ .absent)
    (hlink : ∀ q, q <+: p → ∀ target, look q ≠ .link target) :
    walk look links [] (canonical p) ≠ .error .noent := by
  induction p using List.reverseRecOn with
  | nil => simp [walk, canonical]
  | append_singleton dir name ih =>
    have hdir : dir <+: dir ++ [name] := List.prefix_append _ _
    have habove := ih (fun q hq => hpresent q (hq.trans hdir)) (fun q hq => hlink q (hq.trans hdir))
    rw [canonical_concat]
    intro h
    rcases hwalk : walk look links [] (canonical dir) with e | p
    · rw [walk, ((resolve_append [.normal name] (by simp)).2 e hwalk).1] at h
      obtain rfl := Except.error.inj h
      exact habove hwalk
    · obtain rfl : p = dir := by
        have hplain := resolve_plain look links [] dir fun q _ hq => hlink q (hq.trans hdir)
        rw [walk_eq_ok, canonical, resolve_rootDir] at hwalk
        exact hplain.2.1 p hwalk
      obtain ⟨fewer, -, hres, -⟩ := (resolve_append [.normal name] (by simp)).1 p hwalk
      rw [walk, hres, resolve_normal] at h
      have hsearch : search look p ≠ .error .noent := by
        have hsome := hpresent p hdir
        unfold search
        split <;> simp_all
      rcases hs : search look p with e | _
      · rw [hs] at h hsearch
        simp only [Except.error.injEq] at h
        exact hsearch (congrArg _ h)
      · rw [hs] at h
        have hentry := hpresent (p ++ [name]) List.prefix_rfl
        have hplain := hlink (p ++ [name]) List.prefix_rfl
        rcases hview : look (p ++ [name]) with _ | searchable | target | _
        all_goals simp_all

/-! ### Regions -/

structure Region where
  own : Pos → Bool
  below : ∀ p q, own p = true → p <+: q → own q = true

/-- A position in the region, or on the way to it. -/
def Region.Seen (R : Region) (q : Pos) : Prop := ∃ p, R.own p = true ∧ q <+: p

/-- The subtrees at some positions. -/
def Region.of (roots : List Pos) : Region where
  own q := roots.any (·.isPrefixOf q)
  below p q hp hpq := by
    obtain ⟨root, hroot, hpre⟩ := List.any_eq_true.mp hp
    apply List.any_eq_true.mpr
    exact ⟨root, hroot, List.isPrefixOf_iff_prefix.mpr
      ((List.isPrefixOf_iff_prefix.mp hpre).trans hpq)⟩

theorem Region.own_of {roots : List Pos} {q : Pos} :
    (Region.of roots).own q = true ↔ ∃ p ∈ roots, p <+: q := by
  simp only [Region.of, List.any_eq_true, List.isPrefixOf_iff_prefix]

theorem Region.seen_of {roots : List Pos} {q : Pos} :
    (Region.of roots).Seen q ↔ ∃ p ∈ roots, q <+: p ∨ p <+: q := by
  constructor
  · rintro ⟨r, hr, hq⟩
    obtain ⟨p, hp, hpre⟩ := Region.own_of.mp hr
    exact ⟨p, hp, List.prefix_or_prefix_of_prefix hq hpre⟩
  · rintro ⟨p, hp, hq | hq⟩
    · exact ⟨p, Region.own_of.mpr ⟨p, hp, List.prefix_rfl⟩, hq⟩
    · exact ⟨q, Region.own_of.mpr ⟨p, hp, hq⟩, List.prefix_rfl⟩

/-- From one entry its directory, what is above it and what is below the entry are seen. -/
theorem Region.seen_of_entry {dir : Pos} {name : String} {q : Pos} :
    (Region.of [dir ++ [name]]).Seen q ↔ q <+: dir ∨ dir ++ [name] <+: q := by
  rw [Region.seen_of]
  simp only [List.mem_singleton, exists_eq_left, List.prefix_concat_iff]
  constructor
  · rintro ((rfl | h) | h)
    · exact Or.inr List.prefix_rfl
    · exact Or.inl h
    · exact Or.inr h
  · rintro (h | h)
    · exact Or.inl (Or.inr h)
    · exact Or.inr h

theorem Region.own_of_entry {dir : Pos} {name : String} :
    (Region.of [dir ++ [name]]).own (dir ++ [name]) = true :=
  Region.own_of.mpr ⟨_, List.mem_singleton_self _, List.prefix_rfl⟩

variable {R : Region}

theorem Region.seen_of_own {p : Pos} (h : R.own p = true) : R.Seen p := ⟨p, h, List.prefix_rfl⟩

theorem Region.Seen.above {p q : Pos} (h : R.Seen p) (hq : q <+: p) : R.Seen q := by
  obtain ⟨r, hr, hp⟩ := h
  exact ⟨r, hr, hq.trans hp⟩

theorem Region.not_prefix_of_not_seen {p q : Pos} (hp : ¬ R.Seen p) (hq : R.Seen q) : ¬ p <+: q :=
  fun h => hp (hq.above h)

/-- The calls that name their files by canonical paths into the region; asking, and making
    a directory, is also possible on the way to it. -/
def Region.Admits (R : Region) : FsCall → Prop
  | .fileType path | .stat path | .lstat path | .read path | .canonicalize path | .mkdir path =>
    ∃ p, R.Seen p ∧ path = canonical p
  | .readDir path | .create path | .createNew path | .chmod path _ | .chown path _ _
  | .unlink path | .removeDirAll path =>
    ∃ p, R.own p = true ∧ path = canonical p
  | .write handle _ | .setMtime handle _ | .fchmod handle _ => R.own handle = true
  | .rename src dst =>
    (∃ p, R.own p = true ∧ src = canonical p) ∧ ∃ p, R.own p = true ∧ dst = canonical p

/-- Opened files lie in the region. -/
def Region.Returns (R : Region) : (c : FsCall) → c.Reply → Prop
  | .create _ => fun reply => ∀ handle : Pos, reply = .ok handle → R.own handle = true
  | .createNew _ => fun reply => ∀ handle : Pos, reply = .ok handle → R.own handle = true
  | _ => fun _ => True

namespace FileTree

variable {cred : Cred} {now : Nat} {t t' : FileTree}

/-- No link is in sight. -/
def Clear (R : Region) (t : FileTree) : Prop :=
  ∀ q node, R.Seen q → t.get? q = some node → node.isLink = false

/-- Two trees that cannot be told apart from the region. -/
structure Alike (R : Region) (t t' : FileTree) : Prop where
  get? : ∀ q, R.Seen q → t.get? q = t'.get? q
  support : t.support.filter R.own = t'.support.filter R.own

/-- No link is in sight, and only in the region something may be missing. -/
structure Plain (R : Region) (t : FileTree) : Prop where
  no_link : ∀ q node, R.Seen q → t.get? q = some node → node.isLink = false
  ground : ∀ q, R.Seen q → R.own q = true ∨ (t.get? q).isSome

theorem Plain.clear (ht : Plain R t) : Clear R t := ht.no_link

theorem Alike.refl (R : Region) (t : FileTree) : Alike R t t := ⟨fun _ _ => rfl, rfl⟩

theorem Alike.symm (h : Alike R t t') : Alike R t' t :=
  ⟨fun q hq => (h.get? q hq).symm, h.support.symm⟩

theorem Alike.trans {t'' : FileTree} (h : Alike R t t') (h' : Alike R t' t'') : Alike R t t'' :=
  ⟨fun q hq => (h.get? q hq).trans (h'.get? q hq), h.support.trans h'.support⟩

/-! ### What the region decides -/

section Decides

variable {p : Pos}

theorem Alike.look (h : Alike R t t') (hp : R.Seen p) : t.look cred p = t'.look cred p :=
  look_congr (h.get? p hp)

theorem Alike.isDir (h : Alike R t t') (hp : R.Seen p) : t.isDir p = t'.isDir p := by
  rw [FileTree.isDir, FileTree.isDir, h.get? p hp]

theorem Alike.allows (h : Alike R t t') (hp : R.Seen p) (access : Access) :
    t.allows cred p access = t'.allows cred p access := by
  rw [FileTree.allows, FileTree.allows, h.get? p hp]

theorem children_eq_filter (hp : R.own p = true) :
    t.children p = (t.support.filter R.own).filterMap (childName p) := by
  rw [children, List.filterMap_filter]
  apply List.filterMap_congr
  intro q _
  rcases hname : childName p q with _ | name
  · simp
  · have hq : R.own q = true := R.below p q hp ⟨[name], (childName_eq_some.mp hname).symm⟩
    simp [hq]

theorem Alike.children (h : Alike R t t') (hp : R.own p = true) : t.children p = t'.children p := by
  rw [children_eq_filter hp, children_eq_filter hp, h.support]

theorem Alike.entries (h : Alike R t t') (hp : R.own p = true) : t.entries p = t'.entries p := by
  rw [FileTree.entries, FileTree.entries, h.children hp]
  apply List.filterMap_congr
  intro name _
  rw [h.get? _ (Region.seen_of_own (R.below p _ hp (List.prefix_append p [name])))]

theorem Clear.look_ne_link (ht : Clear R t) (hp : R.Seen p) (target : List Component) :
    t.look cred p ≠ .link target := by
  intro hlook
  rcases hnode : t.get? p with _ | node
  · simp [FileTree.look, hnode] at hlook
  · have hlink := ht p node hp hnode
    rcases hkind : node.kind with _ | ⟨data, holes⟩ | text | _
    all_goals simp [FileTree.look, hnode, Node.view, Node.isLink, hkind] at hlook hlink

variable (cred) in
theorem Clear.resolve (ht : Clear R t) (hp : R.Seen p) (links : Nat) :
    (∀ q ∈ looks (t.look cred) links [] (canonical p), q <+: p) ∧
      (∀ q, resolve (t.look cred) links [] (canonical p) = .ok (.found q) → q = p) ∧
      ∀ dir name, resolve (t.look cred) links [] (canonical p) = .ok (.missing dir name) →
        dir ++ [name] = p := by
  have hplain := resolve_plain (t.look cred) links [] p
    fun q _ hq target => ht.look_ne_link (hp.above hq) target
  simpa [canonical] using hplain

variable (cred) in
theorem Alike.target (h : Alike R t t') (ht : Clear R t) (hp : R.Seen p) :
    t.target cred (canonical p) = t'.target cred (canonical p) := by
  have hlook : ∀ q ∈ looks (t.look cred) maxLinks [] (canonical p),
      t.look cred q = t'.look cred q :=
    fun q hq => h.look (hp.above ((ht.resolve cred hp maxLinks).1 q hq))
  exact (resolve_congr hlook).1

theorem Alike.walk (h : Alike R t t') (ht : Clear R t) (hp : R.Seen p) :
    walk (t.look cred) maxLinks [] (canonical p) = walk (t'.look cred) maxLinks []
      (canonical p) := by
  have htarget := h.target cred ht hp
  rw [FileTree.target, FileTree.target] at htarget
  rw [Posix.walk, Posix.walk, htarget]

theorem Clear.walk_eq (ht : Clear R t) (hp : R.Seen p) {q : Pos}
    (h : walk (t.look cred) maxLinks [] (canonical p) = .ok q) : q = p :=
  (ht.resolve _ hp maxLinks).2.1 q (walk_eq_ok.mp h)

theorem Alike.find (h : Alike R t t') (ht : Clear R t) (hp : R.Seen p) :
    t.find cred (canonical p) = t'.find cred (canonical p) := by
  rw [FileTree.find, FileTree.find, ← h.walk ht hp]
  rcases hwalk : Posix.walk (t.look cred) maxLinks [] (canonical p) with e | q
  · rfl
  · obtain rfl := ht.walk_eq hp hwalk
    simp only [h.get? q hp]

theorem Clear.find_eq (ht : Clear R t) (hp : R.Seen p) {q : Pos} {node : Node}
    (h : t.find cred (canonical p) = .ok (q, node)) : q = p :=
  ht.walk_eq hp (find_eq_ok h).1

/-- What is not found is not there. -/
theorem Clear.get?_of_find_noent (ht : Clear R t) (hp : R.Seen p)
    (h : t.find cred (canonical p) = .error .noent) : t.get? p = none := by
  by_contra hsome
  have hne : Posix.walk (t.look cred) maxLinks [] (canonical p) ≠ .error .noent := by
    apply walk_canonical_ne_noent
    · intro q hq habsent
      have hq' := isSome_above (Option.ne_none_iff_isSome.mp hsome) hq
      rw [look_eq_absent.mp habsent] at hq'
      cases hq'
    · exact fun q hq => ht.look_ne_link (hp.above hq)
  unfold FileTree.find at h
  split at h
  · rename_i e hwalk
    obtain rfl := Except.error.inj h
    exact hne hwalk
  · rename_i q hwalk
    obtain rfl := ht.walk_eq hp hwalk
    split at h
    · rename_i hnone
      exact hsome hnone
    · cases h

theorem Alike.readDir (h : Alike R t t') (ht : Clear R t) (hp : R.own p = true) :
    t.readDir cred (canonical p) = t'.readDir cred (canonical p) := by
  have hseen := Region.seen_of_own hp
  rw [FileTree.readDir, FileTree.readDir, ← h.find ht hseen]
  rcases hfind : t.find cred (canonical p) with e | ⟨q, node⟩
  · rfl
  · obtain rfl := ht.find_eq hseen hfind
    simp only [h.entries hp]

theorem Alike.slot (h : Alike R t t') (ht : Clear R t) (hp : R.Seen p) :
    t.slot cred (canonical p) = t'.slot cred (canonical p) := by
  cases p using List.reverseRecOn with
  | nil => rfl
  | append_singleton dir name =>
    have hdir : R.Seen dir := hp.above (List.prefix_append _ _)
    rw [canonical_concat, slot_concat, slot_concat, ← h.walk ht hdir]
    rcases hwalk : Posix.walk (t.look cred) maxLinks [] (canonical dir) with e | q
    · rfl
    · obtain rfl := ht.walk_eq hdir hwalk
      simp only [search_congr (h.look hdir)]

theorem Clear.slot_eq (ht : Clear R t) (hp : R.Seen p) {dir : Pos} {name : String}
    (h : t.slot cred (canonical p) = .ok (dir, name)) : dir ++ [name] = p := by
  obtain ⟨hpath, hwalk, -⟩ := slot_eq_ok h
  cases p using List.reverseRecOn with
  | nil => cases h
  | append_singleton dir' name' =>
    rw [canonical_concat, List.dropLast_concat] at hpath hwalk
    obtain ⟨-, hname⟩ := List.append_inj' hpath rfl
    obtain rfl : name' = name := by simpa using hname
    rw [ht.walk_eq (hp.above (List.prefix_append _ _)) hwalk]

theorem Alike.lstat (h : Alike R t t') (ht : Clear R t) (hp : R.Seen p) :
    t.lstat cred (canonical p) = t'.lstat cred (canonical p) := by
  cases p using List.reverseRecOn with
  | nil =>
    have hfind : ∀ s : FileTree, s.lstat cred (canonical []) =
        (s.find cred (canonical [])).map fun found => found.2.info := fun _ => rfl
    rw [hfind, hfind, h.find ht hp]
  | append_singleton dir name =>
    rw [canonical_concat, lstat_concat, lstat_concat, ← canonical_concat, ← h.slot ht hp]
    rcases hslot : t.slot cred (canonical (dir ++ [name])) with e | ⟨dir', name'⟩
    · rfl
    · have hentry := ht.slot_eq hp hslot
      simp only [hentry, h.get? _ hp]

theorem removable_iff : t.removable cred p = true ↔ ∀ q, p <+: q → t.isDir q = true →
    t.allows cred q .read = true ∧
      (t.children q = [] ∨ t.allows cred q .write = true ∧ t.allows cred q .search = true) := by
  rw [removable, List.all_eq_true]
  constructor
  · intro h q hpre hdir
    have hq := h q ((t.mem_support q).mpr (isSome_of_isDir hdir))
    simpa [List.isPrefixOf_iff_prefix.mpr hpre, hdir] using hq
  · intro h q _
    rcases hpre : p.isPrefixOf q with _ | _
    · rfl
    · rcases hdir : t.isDir q with _ | _
      · rfl
      · simpa using h q (List.isPrefixOf_iff_prefix.mp hpre) hdir

theorem Alike.removable (h : Alike R t t') (hp : R.own p = true) :
    t.removable cred p = t'.removable cred p := by
  rw [Bool.eq_iff_iff, removable_iff, removable_iff]
  apply forall₂_congr
  intro q hpre
  have hq := R.below p q hp hpre
  have hseen := Region.seen_of_own hq
  rw [h.isDir hseen, h.children hq, h.allows hseen, h.allows hseen, h.allows hseen]

theorem Alike.renameCheck (h : Alike R t t') (hp : R.own p = true) {dst : Pos}
    (hdst : R.own dst = true) (node : Node) (crossing : Bool) :
    t.renameCheck cred p node crossing dst = t'.renameCheck cred p node crossing dst := by
  simp only [FileTree.renameCheck, h.allows (Region.seen_of_own hp), h.children hdst,
    h.get? dst (Region.seen_of_own hdst)]

end Decides

/-! ### Changing both trees -/

section Changes

variable (h : Alike R t t')

include h

theorem Alike.add {p : Pos} {name : String} {node : Node} (hp hfree hname hp' hfree') :
    Alike R (t.add p name node hp hfree hname) (t'.add p name node hp' hfree' hname) where
  get? q hq := by rw [get?_add, get?_add, h.get? q hq]
  support := by simp only [FileTree.add, List.filter_append, h.support]

theorem Alike.setData {p : Pos} {data : List UInt8} :
    Alike R (t.setData now p data) (t'.setData now p data) where
  get? q hq := by rw [get?_setData, get?_setData, h.get? q hq]
  support := h.support

theorem Alike.setAttrs (p : Pos) (f : Attrs → Attrs) : Alike R (t.setAttrs p f)
    (t'.setAttrs p f) where
  get? q hq := by rw [get?_setAttrs, get?_setAttrs, h.get? q hq]
  support := h.support

theorem Alike.removeAt {dir : Pos} {name : String} :
    Alike R (t.removeAt dir name) (t'.removeAt dir name) where
  get? q hq := by rw [get?_removeAt, get?_removeAt, h.get? q hq]
  support := by
    simp only [FileTree.removeAt, FileTree.prune]
    rw [List.filter_comm R.own, List.filter_comm R.own, h.support]

theorem Alike.move {src dir : Pos} {name : String} (hs : R.own src = true)
    (hd : R.own (dir ++ [name]) = true) (hsrc hdir hfree hout hname hsrc' hdir' hfree') :
    Alike R (t.move src dir name hsrc hdir hfree hout hname)
      (t'.move src dir name hsrc' hdir' hfree' hout hname) where
  get? q hq := by
    rw [get?_move, get?_move, h.get? q hq,
      h.get? _ (Region.seen_of_own (R.below _ _ hs (List.prefix_append _ _)))]
  support := by
    have hkeep : ∀ q, R.own (relocate src (dir ++ [name]) q) = R.own q := by
      intro q
      rw [relocate]
      split
      · rename_i hpre
        rw [R.below _ _ hd (List.prefix_append _ _), R.below _ _ hs hpre]
      · rfl
    have hfilter : ∀ l : List Pos, (l.map (relocate src (dir ++ [name]))).filter R.own =
        (l.filter R.own).map (relocate src (dir ++ [name])) := by
      intro l
      rw [List.filter_map]
      congr 2
      funext q
      exact hkeep q
    simp only [FileTree.move]
    rw [hfilter, hfilter, h.support]

theorem Alike.replaceAt {src dir : Pos} {name : String} (hs : R.own src = true)
    (hd : R.own (dir ++ [name]) = true) (hsrc hdir hname hin hout hsrc' hdir') :
    Alike R (t.replaceAt src dir name hsrc hdir hname hin hout)
      (t'.replaceAt src dir name hsrc' hdir' hname hin hout) :=
  h.removeAt.move hs hd _ _ _ _ _ _ _ _

end Changes

/-! ### Calls -/

/-- The answers are the same, and the trees are alike afterwards. -/
def Same {α : Type} (R : Region) (r r' : α × FileTree) : Prop := r.1 = r'.1 ∧ Alike R r.2 r'.2

theorem Alike.sameAttrs {α : Type} (h : Alike R t t') (reply : α) (p : Pos) (f : Attrs → Attrs) :
    Same R (reply, t.setAttrs p f) (reply, t'.setAttrs p f) :=
  ⟨rfl, h.setAttrs p f⟩

section Calls

variable (h : Alike R t t')

include h

variable (cred) in
theorem Alike.addEntry {dir : Pos} {name : String} (hp : R.Seen (dir ++ [name])) (node : Node) :
    Same R (t.addEntry cred dir name node) (t'.addEntry cred dir name node) := by
  have hdir : R.Seen dir := hp.above (List.prefix_append _ _)
  simp only [FileTree.addEntry, h.get? _ hp, h.isDir hdir, h.allows hdir]
  split
  · rename_i hfree
    split
    · rename_i hdir'
      split
      · rename_i hname
        split
        · exact ⟨rfl, h.add ((h.isDir hdir).trans hdir') ((h.get? _ hp).trans hfree) hname hdir'
            hfree⟩
        · exact ⟨rfl, h⟩
      · exact ⟨rfl, h⟩
    · exact ⟨rfl, h⟩
  · exact ⟨rfl, h⟩

theorem Alike.addFile {dir : Pos} {name : String} (hp : R.Seen (dir ++ [name])) :
    Same R (t.addFile cred now dir name) (t'.addFile cred now dir name) := by
  obtain ⟨hreply, hstate⟩ := h.addEntry cred hp ⟨.file [] false, newAttrs cred now 0o666⟩
  simp only [FileTree.addFile]
  rcases hadd : t.addEntry cred dir name ⟨.file [] false, newAttrs cred now 0o666⟩ with ⟨e | _, s⟩
  all_goals
    rcases hadd' : t'.addEntry cred dir name ⟨.file [] false, newAttrs cred now 0o666⟩ with
      ⟨e' | _, s'⟩
    all_goals rw [hadd, hadd'] at hreply hstate
  · obtain rfl := Except.error.inj hreply
    exact ⟨rfl, hstate⟩
  · cases hreply
  · cases hreply
  · exact ⟨rfl, hstate⟩

variable (ht : Clear R t) {p : Pos}

include ht

theorem Alike.mkdir (hp : R.Seen p) :
    Same R (t.mkdir cred now (canonical p)) (t'.mkdir cred now (canonical p)) := by
  simp only [FileTree.mkdir, ← h.slot ht hp]
  rcases hslot : t.slot cred (canonical p) with e | ⟨dir, name⟩
  · exact ⟨rfl, h⟩
  · exact h.addEntry cred (by rwa [ht.slot_eq hp hslot]) _

theorem Alike.createNew (hp : R.Seen p) :
    Same R (t.createNew cred now (canonical p)) (t'.createNew cred now (canonical p)) := by
  simp only [FileTree.createNew, ← h.slot ht hp]
  rcases hslot : t.slot cred (canonical p) with e | ⟨dir, name⟩
  · exact ⟨rfl, h⟩
  · exact h.addFile (by rwa [ht.slot_eq hp hslot])

theorem Alike.create (hp : R.Seen p) :
    Same R (t.create cred now (canonical p)) (t'.create cred now (canonical p)) := by
  simp only [FileTree.create, ← h.target _ ht hp]
  rcases htarget : t.target cred (canonical p) with e | q | ⟨dir, name⟩
  · exact ⟨rfl, h⟩
  · obtain rfl : q = p := (ht.resolve _ hp maxLinks).2.1 q htarget
    simp only [← h.get? q hp]
    rcases t.get? q with _ | node
    · exact ⟨rfl, h⟩
    · rcases hkind : node.kind with _ | ⟨data, holes⟩ | text | _
      all_goals simp only [hkind]
      · exact ⟨rfl, h⟩
      · split
        · exact ⟨rfl, h.setData⟩
        · exact ⟨rfl, h⟩
      · exact ⟨rfl, h⟩
      · exact ⟨rfl, h⟩
  · exact h.addFile (by rwa [(ht.resolve _ hp maxLinks).2.2 dir name htarget])

theorem Alike.chmod (hp : R.Seen p) (f : Attrs → Attrs) :
    Same R (t.chmod cred (canonical p) f) (t'.chmod cred (canonical p) f) := by
  simp only [FileTree.chmod, ← h.find ht hp]
  rcases t.find cred (canonical p) with e | ⟨q, node⟩
  · exact ⟨rfl, h⟩
  · simp only
    split
    · exact h.sameAttrs _ q _
    · exact ⟨rfl, h⟩

theorem Alike.chown (hp : R.Seen p) (uid gid : Nat) :
    Same R (t.chown cred (canonical p) uid gid) (t'.chown cred (canonical p) uid gid) := by
  simp only [FileTree.chown, ← h.find ht hp]
  rcases t.find cred (canonical p) with e | ⟨q, node⟩
  · exact ⟨rfl, h⟩
  · simp only
    split
    · exact h.sameAttrs _ q _
    · exact ⟨rfl, h⟩

theorem Alike.unlink (hp : R.Seen p) :
    Same R (t.unlink cred (canonical p)) (t'.unlink cred (canonical p)) := by
  simp only [FileTree.unlink, ← h.slot ht hp]
  rcases hslot : t.slot cred (canonical p) with e | ⟨dir, name⟩
  · exact ⟨rfl, h⟩
  · obtain rfl := ht.slot_eq hp hslot
    simp only [← h.get? _ hp, ← h.allows (hp.above (List.prefix_append dir [name]))]
    rcases t.get? (dir ++ [name]) with _ | node
    · exact ⟨rfl, h⟩
    · simp only
      split
      · split
        · exact ⟨rfl, h⟩
        · exact ⟨rfl, h.removeAt⟩
      · exact ⟨rfl, h⟩

theorem Alike.removeDirAll (hp : R.own p = true) :
    Same R (t.removeDirAll cred (canonical p)) (t'.removeDirAll cred (canonical p)) := by
  have hseen := Region.seen_of_own hp
  simp only [FileTree.removeDirAll, ← h.slot ht hseen]
  rcases hslot : t.slot cred (canonical p) with e | ⟨dir, name⟩
  · exact ⟨rfl, h⟩
  · obtain rfl := ht.slot_eq hseen hslot
    simp only [← h.get? _ hseen, ← h.allows (hseen.above (List.prefix_append dir [name])),
      ← h.removable hp]
    rcases t.get? (dir ++ [name]) with _ | node
    · exact ⟨rfl, h⟩
    · rcases hkind : node.kind with _ | ⟨data, holes⟩ | text | _
      all_goals simp only [hkind]
      · split
        · exact ⟨rfl, h.removeAt⟩
        · exact ⟨rfl, h⟩
      · exact ⟨rfl, h⟩
      · split
        · exact ⟨rfl, h.removeAt⟩
        · exact ⟨rfl, h⟩
      · exact ⟨rfl, h⟩

theorem Alike.rename (hp : R.own p = true) {dst : Pos} (hdst : R.own dst = true) :
    Same R (t.rename cred (canonical p) (canonical dst))
      (t'.rename cred (canonical p) (canonical dst)) := by
  have hseen := Region.seen_of_own hp
  have hseenDst := Region.seen_of_own hdst
  simp only [FileTree.rename, ← h.slot ht hseen, ← h.slot ht hseenDst]
  rcases hslot : t.slot cred (canonical p) with e | ⟨srcDir, srcName⟩
  · exact ⟨rfl, h⟩
  · obtain rfl := ht.slot_eq hseen hslot
    rcases hslotDst : t.slot cred (canonical dst) with e | ⟨dir, name⟩
    · exact ⟨rfl, h⟩
    · obtain rfl := ht.slot_eq hseenDst hslotDst
      have hsrcDir := hseen.above (List.prefix_append srcDir [srcName])
      have hdir := hseenDst.above (List.prefix_append dir [name])
      simp only
      split
      · rename_i hnone
        split
        · exact ⟨rfl, h⟩
        · rename_i node hnode
          rw [← h.get? _ hseen, hnone] at hnode
          cases hnode
      · rename_i node hnode
        split
        · rename_i hnone
          rw [← h.get? _ hseen, hnode] at hnone
          cases hnone
        · rename_i node' hnode'
          obtain rfl : node = node' := by
            rw [← h.get? _ hseen, hnode] at hnode'
            exact Option.some.inj hnode'
          simp only [FileTree.renameAt, h.isDir hdir, h.allows hsrcDir, h.allows hdir,
            h.renameCheck hp hdst]
          split
          · exact ⟨rfl, h⟩
          · split
            · exact ⟨rfl, h⟩
            · split
              · exact ⟨rfl, h⟩
              · split
                · rename_i hdir'
                  split
                  · split
                    · split
                      · exact ⟨rfl, h⟩
                      · exact ⟨rfl,
                          h.replaceAt hp hdst (by simp [hnode]) ((h.isDir hdir).trans hdir')
                          ‹_› ‹_› ‹_› (by simp [hnode']) hdir'⟩
                    · exact ⟨rfl, h⟩
                  · exact ⟨rfl, h⟩
                · exact ⟨rfl, h⟩

end Calls

section Exec

variable {c : FsCall}

/-- What a call answers, and what it leaves, is decided by the region. -/
theorem exec_alike (hc : R.Admits c) (ht : Clear R t) (h : Alike R t t') :
    Same R (exec cred now c t) (exec cred now c t') := by
  cases c with
  | fileType path =>
    obtain ⟨p, hp, rfl⟩ := hc
    exact ⟨by simp only [exec, h.find ht hp], h⟩
  | stat path =>
    obtain ⟨p, hp, rfl⟩ := hc
    exact ⟨by simp only [exec, h.find ht hp], h⟩
  | lstat path =>
    obtain ⟨p, hp, rfl⟩ := hc
    exact ⟨h.lstat ht hp, h⟩
  | readDir path =>
    obtain ⟨p, hp, rfl⟩ := hc
    exact ⟨h.readDir ht hp, h⟩
  | read path =>
    obtain ⟨p, hp, rfl⟩ := hc
    exact ⟨by simp only [exec, FileTree.read, h.find ht hp], h⟩
  | canonicalize path =>
    obtain ⟨p, hp, rfl⟩ := hc
    exact ⟨by simp only [exec, h.find ht hp], h⟩
  | mkdir path =>
    obtain ⟨p, hp, rfl⟩ := hc
    exact h.mkdir ht hp
  | create path =>
    obtain ⟨p, hp, rfl⟩ := hc
    exact h.create ht (Region.seen_of_own hp)
  | createNew path =>
    obtain ⟨p, hp, rfl⟩ := hc
    exact h.createNew ht (Region.seen_of_own hp)
  | write handle data =>
    refine ⟨rfl, ?_⟩
    simp only [exec, FileTree.write, ← h.get? handle (Region.seen_of_own hc)]
    split
    · exact h.setData
    · exact h
  | setMtime handle mtime => exact h.sameAttrs _ handle _
  | fchmod handle mode =>
    simp only [exec, FileTree.fchmod, ← h.get? handle (Region.seen_of_own hc)]
    split
    · exact ⟨rfl, h⟩
    · split
      · exact h.sameAttrs _ handle _
      · exact ⟨rfl, h⟩
  | chmod path mode =>
    obtain ⟨p, hp, rfl⟩ := hc
    exact h.chmod ht (Region.seen_of_own hp) _
  | chown path uid gid =>
    obtain ⟨p, hp, rfl⟩ := hc
    exact h.chown ht (Region.seen_of_own hp) uid gid
  | unlink path =>
    obtain ⟨p, hp, rfl⟩ := hc
    exact h.unlink ht (Region.seen_of_own hp)
  | removeDirAll path =>
    obtain ⟨p, hp, rfl⟩ := hc
    exact h.removeDirAll ht hp
  | rename src dst =>
    obtain ⟨⟨p, hp, rfl⟩, q, hq, rfl⟩ := hc
    exact h.rename ht hp hq

variable (cred) in
/-- A call touches the region only, unless it makes a directory on the way to it. -/
theorem touched_admitted (hc : R.Admits c) (ht : Clear R t) :
    (∃ p, R.Seen p ∧ c = .mkdir (canonical p)) ∨ ∀ p ∈ t.touched cred c, R.own p = true := by
  have hslot : ∀ {p}, R.own p = true → ∀ q ∈ t.touched cred (.unlink (canonical p)),
      R.own q = true := by
    intro p hp q hq
    rcases hslot : t.slot cred (canonical p) with e | ⟨dir, name⟩
    · simp [touched, hslot] at hq
    · simp only [touched, hslot, List.mem_singleton] at hq
      rwa [hq, ht.slot_eq (Region.seen_of_own hp) hslot]
  have hfind : ∀ {p}, R.own p = true → ∀ q ∈ t.touched cred (.chmod (canonical p) 0),
      R.own q = true := by
    intro p hp q hq
    rcases hfind : t.find cred (canonical p) with e | ⟨p', node⟩
    · simp [touched, hfind] at hq
    · simp only [touched, hfind, List.mem_singleton] at hq
      rwa [hq, ht.find_eq (Region.seen_of_own hp) hfind]
  cases c with
  | fileType path => exact Or.inr (by simp [touched])
  | stat path => exact Or.inr (by simp [touched])
  | lstat path => exact Or.inr (by simp [touched])
  | readDir path => exact Or.inr (by simp [touched])
  | read path => exact Or.inr (by simp [touched])
  | canonicalize path => exact Or.inr (by simp [touched])
  | mkdir path =>
    obtain ⟨p, hp, rfl⟩ := hc
    exact Or.inl ⟨p, hp, rfl⟩
  | create path =>
    obtain ⟨p, hp, rfl⟩ := hc
    right
    intro q hq
    have hplain := ht.resolve cred (Region.seen_of_own hp) maxLinks
    rcases htarget : t.target cred (canonical p) with e | q' | ⟨dir, name⟩
    · simp [touched, htarget] at hq
    · simp only [touched, htarget, List.mem_singleton] at hq
      rwa [hq, hplain.2.1 q' htarget]
    · simp only [touched, htarget, List.mem_singleton] at hq
      rwa [hq, hplain.2.2 dir name htarget]
  | createNew path =>
    obtain ⟨p, hp, rfl⟩ := hc
    exact Or.inr (hslot hp)
  | write handle data =>
    right
    intro q hq
    rwa [List.mem_singleton.mp hq]
  | setMtime handle mtime =>
    right
    intro q hq
    rwa [List.mem_singleton.mp hq]
  | fchmod handle mode =>
    right
    intro q hq
    rwa [List.mem_singleton.mp hq]
  | chmod path mode =>
    obtain ⟨p, hp, rfl⟩ := hc
    exact Or.inr (hfind hp)
  | chown path uid gid =>
    obtain ⟨p, hp, rfl⟩ := hc
    exact Or.inr (hfind hp)
  | unlink path =>
    obtain ⟨p, hp, rfl⟩ := hc
    exact Or.inr (hslot hp)
  | removeDirAll path =>
    obtain ⟨p, hp, rfl⟩ := hc
    exact Or.inr (hslot hp)
  | rename src dst =>
    obtain ⟨⟨p, hp, rfl⟩, p', hp', rfl⟩ := hc
    right
    intro q hq
    rcases hs : t.slot cred (canonical p) with e | ⟨srcDir, srcName⟩
    · simp [touched, hs] at hq
    · rcases hd : t.slot cred (canonical p') with e | ⟨dir, name⟩
      · simp [touched, hs, hd] at hq
      · simp only [touched, hs, hd, List.mem_cons, List.not_mem_nil, or_false] at hq
        rcases hq with rfl | rfl
        · rwa [ht.slot_eq (Region.seen_of_own hp) hs]
        · rwa [ht.slot_eq (Region.seen_of_own hp') hd]

variable (cred now) in
/-- A call changes nothing but the region. -/
theorem touched_own (hc : R.Admits c) (ht : Plain R t) :
    (exec cred now c t).2 = t ∨ ∀ p ∈ t.touched cred c, R.own p = true := by
  rcases touched_admitted cred hc ht.clear with ⟨p, hp, rfl⟩ | hown
  · rcases mkdir_cases cred now t (canonical p) with
      ⟨e, he⟩ | ⟨dir, name, hdir, hfree, hname, hs, -⟩
    · left
      simp only [exec, he]
    · right
      intro q hq
      simp only [touched, hs, List.mem_singleton] at hq
      rw [hq, ht.clear.slot_eq hp hs]
      have hmissing := ht.ground p hp
      rw [← ht.clear.slot_eq hp hs, hfree] at hmissing
      rw [← ht.clear.slot_eq hp hs]
      exact hmissing.resolve_right (by simp)
  · exact Or.inr hown

/-- Another region, none of which can be seen from here, is left alone. -/
theorem alike_exec {R' : Region} (hc : R.Admits c) (ht : Plain R t)
    (hapart : ∀ p, R.own p = true → ¬ R'.Seen p) : Alike R' t (exec cred now c t).2 := by
  rcases touched_own cred now hc ht with hsame | hown
  · rw [hsame]
    exact .refl R' t
  · constructor
    · intro q hq
      rw [get?_exec_of_not_touched]
      intro p hp
      exact Region.not_prefix_of_not_seen (hapart p (hown p hp)) hq
    · rw [support_exec_of_not_touched]
      intro p hp q hq
      exact Region.not_prefix_of_not_seen (hapart p (hown p hp)) (Region.seen_of_own hq)

theorem clear_exec (hc : R.Admits c) (ht : Clear R t) : Clear R (exec cred now c t).2 := by
  intro q node hq hnode
  rw [Bool.eq_false_iff]
  intro hlink
  rcases link_of_exec hnode hlink with
    ⟨old, hold, hlink'⟩ | ⟨src, dst, dir, name, rest, old, rfl, hslot, hold, hlink'⟩
  · rw [ht q old hq hold] at hlink'
    cases hlink'
  · obtain ⟨⟨p, hp, rfl⟩, -⟩ := hc
    have hown : R.own (dir ++ [name] ++ rest) = true := by
      apply R.below p _ hp
      rw [ht.slot_eq (Region.seen_of_own hp) hslot]
      exact List.prefix_append _ _
    rw [ht _ old (Region.seen_of_own hown) hold] at hlink'
    cases hlink'

theorem returns_exec (hc : R.Admits c) (ht : Clear R t) : R.Returns c (exec cred now c t).1 := by
  cases c with
  | create path =>
    obtain ⟨p, hp, rfl⟩ := hc
    intro handle hhandle
    have hplain := ht.resolve cred (Region.seen_of_own hp) maxLinks
    simp only [exec] at hhandle
    rcases create_cases cred now t (canonical p) with
      ⟨e, he⟩ | ⟨dir, name, hdir, hfree, hname, htarget, hok⟩
        | ⟨q, data, holes, attrs, htarget, -, hok⟩
    · rw [he] at hhandle
      cases hhandle
    · rw [hok] at hhandle
      rw [← Except.ok.inj hhandle, hplain.2.2 dir name htarget]
      exact hp
    · rw [hok] at hhandle
      rw [← Except.ok.inj hhandle, hplain.2.1 q htarget]
      exact hp
  | createNew path =>
    obtain ⟨p, hp, rfl⟩ := hc
    intro handle hhandle
    simp only [exec] at hhandle
    rcases createNew_cases cred now t (canonical p) with
      ⟨e, he⟩ | ⟨dir, name, hdir, hfree, hname, hslot, hok⟩
    · rw [he] at hhandle
      cases hhandle
    · rw [hok] at hhandle
      rw [← Except.ok.inj hhandle, ht.slot_eq (Region.seen_of_own hp) hslot]
      exact hp
  | _ => trivial

end Exec

end FileTree

/-! ### On the way to a region -/

/-- Neither a directory nor a regular file. -/
def Kind.isSpecial : Kind → Bool
  | .dir | .file _ _ => false
  | .link _ | .fifo => true

/-- Calls of the region, and those that change the attributes of what is on the way to it. -/
def Region.Minds (R : Region) (c : FsCall) : Prop :=
  R.Admits c ∨ (∃ p mode, R.Seen p ∧ c = .chmod (canonical p) mode) ∨
    ∃ p uid gid, R.Seen p ∧ c = .chown (canonical p) uid gid

namespace FileTree

variable {c : FsCall}

/-- Nothing but directories and regular files is in sight. -/
def Ordinary (R : Region) (t : FileTree) : Prop :=
  ∀ q node, R.Seen q → t.get? q = some node → node.kind.isSpecial = false

theorem Ordinary.clear (ht : Ordinary R t) : Clear R t := by
  intro q node hq hnode
  have hkind := ht q node hq hnode
  unfold Kind.isSpecial at hkind
  unfold Node.isLink
  split at hkind
  · rename_i hdir
    simp [hdir]
  · rename_i hfile
    simp [hfile]
  · cases hkind
  · cases hkind

/-- What cannot be seen from the region stays as it is. -/
theorem get?_exec_unseen (hc : R.Minds c) (ht : Clear R t) {q : Pos} (hq : ¬ R.Seen q) :
    (exec cred now c t).2.get? q = t.get? q := by
  have hattrs : ∀ p f, R.Seen p → (t.setAttrs p f).get? q = t.get? q := by
    intro p f hp
    rw [get?_setAttrs, if_neg]
    rintro rfl
    exact hq hp
  rcases hc with hc | ⟨p, mode, hp, rfl⟩ | ⟨p, uid, gid, hp, rfl⟩
  · rcases touched_admitted cred hc ht with ⟨p, hp, rfl⟩ | hown
    · simp only [exec]
      rcases mkdir_cases cred now t (canonical p) with
        ⟨e, he⟩ | ⟨dir, name, hdir, hfree, hname, hs, hadd⟩
      · rw [he]
      · rw [hadd, get?_add, if_neg]
        rintro rfl
        rw [ht.slot_eq hp hs] at hq
        exact hq hp
    · apply get?_exec_of_not_touched
      intro p hp hpre
      exact hq (Region.seen_of_own (R.below p q (hown p hp) hpre))
  · simp only [exec]
    rcases chmod_cases cred t (canonical p) (fun attrs => { attrs with mode }) with
      ⟨e, he⟩ | ⟨p', node, hfind, hset⟩
    · rw [he]
    · rw [hset]
      dsimp only
      apply hattrs
      rwa [ht.find_eq hp hfind]
  · simp only [exec]
    rcases chown_cases cred t (canonical p) uid gid with ⟨e, he⟩ | ⟨p', node, hfind, hset⟩
    · rw [he]
    · rw [hset]
      dsimp only
      apply hattrs
      rwa [ht.find_eq hp hfind]

theorem ordinary_exec (hc : R.Minds c) (ht : Ordinary R t) :
    Ordinary R (exec cred now c t).2 := by
  intro q node hq hnode
  rw [Bool.eq_false_iff]
  intro hspecial
  rcases special_of_exec Kind.isSpecial rfl (fun _ _ => rfl) hnode hspecial with
    ⟨old, hold, hspecial'⟩ | ⟨src, dst, dir, name, rest, old, rfl, hslot, hold, hspecial'⟩
  · rw [ht q old hq hold] at hspecial'
    cases hspecial'
  · obtain ⟨⟨p, hp, rfl⟩, -⟩ : R.Admits (.rename src dst) := by
      rcases hc with hc | ⟨_, _, _, hc⟩ | ⟨_, _, _, _, hc⟩
      · exact hc
      · cases hc
      · cases hc
    have hown : R.own (dir ++ [name] ++ rest) = true := by
      apply R.below p _ hp
      rw [ht.clear.slot_eq (Region.seen_of_own hp) hslot]
      exact List.prefix_append _ _
    rw [ht _ old (Region.seen_of_own hown) hold] at hspecial'
    cases hspecial'

theorem clear_of_minds (hc : R.Minds c) (ht : Clear R t) : Clear R (exec cred now c t).2 := by
  rcases hc with hc | hc
  · exact clear_exec hc ht
  · intro q node hq hnode
    rw [Bool.eq_false_iff]
    intro hlink
    rcases link_of_exec hnode hlink with ⟨old, hold, hlink'⟩ | ⟨_, _, _, _, _, _, rfl, -⟩
    · rw [ht q old hq hold] at hlink'
      cases hlink'
    · rcases hc with ⟨_, _, -, hc⟩ | ⟨_, _, _, -, hc⟩
      · cases hc
      · cases hc

theorem returns_of_minds (hc : R.Minds c) (ht : Clear R t) :
    R.Returns c (exec cred now c t).1 := by
  rcases hc with hc | ⟨p, mode, -, rfl⟩ | ⟨p, uid, gid, -, rfl⟩
  · exact returns_exec hc ht
  · trivial
  · trivial

/-- No call waits. -/
theorem ne_wouldblock_of_minds (hc : R.Minds c) (ht : Ordinary R t) :
    (exec cred now c t).1 ≠ .error .wouldblock := by
  intro h
  obtain ⟨path, p, node, hnode, hkind, hwait⟩ := waits_of_exec h
  have hseen : R.Seen p := by
    rcases hwait with ⟨rfl, htarget⟩ | ⟨rfl, hfind⟩
    · rcases hc with ⟨q, hq, rfl⟩ | ⟨_, _, _, hc⟩ | ⟨_, _, _, _, hc⟩
      · have hresolve := ht.clear.resolve cred (Region.seen_of_own hq) maxLinks
        rw [hresolve.2.1 p htarget]
        exact Region.seen_of_own hq
      · cases hc
      · cases hc
    · rcases hc with ⟨q, hq, rfl⟩ | ⟨_, _, _, hc⟩ | ⟨_, _, _, _, hc⟩
      · rwa [ht.clear.find_eq hq hfind]
      · cases hc
      · cases hc
  have hordinary := ht p node hseen hnode
  rw [hkind] at hordinary
  cases hordinary

end FileTree

/-! ### The entries of a directory -/

section Entries

variable {dir : Pos} {names others : List String}

/-- Some entries of a directory, and what is below them. -/
def Region.entriesOf (dir : Pos) (names : List String) : Region :=
  .of (names.map fun n => dir ++ [n])

theorem Region.own_entriesOf {q : Pos} :
    (Region.entriesOf dir names).own q = true ↔ ∃ n ∈ names, dir ++ [n] <+: q := by
  simp only [Region.entriesOf, Region.own_of, List.mem_map, exists_exists_and_eq_and]

theorem Region.seen_entriesOf {q : Pos} (h : (Region.entriesOf dir names).Seen q) :
    q <+: dir ∨ (Region.entriesOf dir names).own q = true := by
  obtain ⟨p, hp, hq⟩ := h
  obtain ⟨n, hn, hpre⟩ := Region.own_entriesOf.mp hp
  rcases List.prefix_or_prefix_of_prefix hq hpre with habove | hbelow
  · rcases List.prefix_concat_iff.mp habove with rfl | habove
    · exact Or.inr (Region.own_entriesOf.mpr ⟨n, hn, List.prefix_rfl⟩)
    · exact Or.inl habove
  · exact Or.inr (Region.own_entriesOf.mpr ⟨n, hn, hbelow⟩)

/-- What is below some entries is neither above the directory nor below other ones. -/
theorem Region.entries_apart (h : ∀ n ∈ names, n ∉ others) {p q : Pos}
    (hp : (Region.entriesOf dir names).own p = true) (hq : (Region.entriesOf dir others).Seen q) :
    ¬ p <+: q := by
  intro hpq
  obtain ⟨n, hn, hpre⟩ := Region.own_entriesOf.mp hp
  rcases Region.seen_entriesOf hq with habove | hown
  · exact absurd ((hpre.trans hpq).trans habove).length_le (by simp)
  · obtain ⟨m, hm, hpre'⟩ := Region.own_entriesOf.mp hown
    have heq : dir ++ [n] = dir ++ [m] :=
      (List.prefix_of_prefix_length_le (hpre.trans hpq) hpre' (by simp)).eq_of_length (by simp)
    have hnames : n = m := by simpa using heq
    exact h n hn (hnames ▸ hm)

namespace FileTree

variable {t : FileTree}

theorem isDir_along {p q : Pos} (hdir : t.isDir p = true) (hq : q <+: p) :
    t.isDir q = true := by
  by_cases heq : q = p
  · rwa [heq]
  · exact isDir_above (isSome_of_isDir hdir) hq heq

theorem clear_entriesOf (hdir : t.isDir dir = true)
    (h : ∀ q node, (Region.entriesOf dir names).own q = true → t.get? q = some node →
      node.isLink = false) : Clear (Region.entriesOf dir names) t := by
  intro q node hq hnode
  rcases Region.seen_entriesOf hq with habove | hown
  · obtain ⟨node', hnode', hkind⟩ := isDir_iff.mp (isDir_along hdir habove)
    obtain rfl := Option.some.inj (hnode.symm.trans hnode')
    rw [Node.isLink, Node.isDir_iff.mp hkind]
  · exact h q node hown hnode

theorem Clear.plain_entries (hdir : t.isDir dir = true) (h : Clear (Region.entriesOf dir names) t) :
    Plain (Region.entriesOf dir names) t := by
  refine ⟨h, fun q hq => ?_⟩
  rcases Region.seen_entriesOf hq with habove | hown
  · exact Or.inr (isSome_above (isSome_of_isDir hdir) habove)
  · exact Or.inl hown

end FileTree

end Entries

end Posix
