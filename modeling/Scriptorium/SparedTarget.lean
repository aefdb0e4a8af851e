import Scriptorium.FailedFetch
import Scriptorium.RejectedImport
import Scriptorium.Installation

/-!
# Targets that a rejected import spares

A rejected import has written by then: it has made the way to its target, opened its staging
file and perhaps unpacked a part of an archive, all at paths that may lead anywhere.  What a
path leads to is told here by an onlooker whom no permission stops, so that it does not
depend on who performs the calls.  `rejected_import_spares_target` says under which
conditions on the tree nothing of this happens at the target.
-/

namespace Posix

/-- Whoever is let through by more directories comes to the same end on the same way. -/
theorem resolve_wider {look look' : Pos → View}
    (h : ∀ q, look' q = look q ∨ ∃ searchable, look q = .dir searchable ∧ look' q = .dir true)
    {links : Nat} {pos : Pos} {components : List Component} {target : Target}
    (hres : resolve look links pos components = .ok target) :
    resolve look' links pos components = .ok target ∧
      looks look' links pos components = looks look links pos components := by
  have hsearch : ∀ {pos}, search look pos = .ok () → search look' pos = .ok () := by
    intro pos hs
    rw [search_eq_ok] at hs ⊢
    rcases h pos with hsame | ⟨searchable, -, hwide⟩
    · rw [hsame, hs]
    · exact hwide
  induction links, pos, components using walk_induction with
  | nil links pos => simpa using hres
  | rootDir links pos rest ih => simpa using ih (by simpa using hres)
  | curDir links pos rest ih =>
    rw [resolve_curDir] at hres ⊢
    rw [looks_curDir, looks_curDir]
    cases hs : search look pos with
    | error e => simp [hs] at hres
    | ok _ =>
      simp only [hs] at hres
      simp only [hsearch hs]
      rw [(ih hres).1, (ih hres).2]
      exact ⟨rfl, rfl⟩
  | parentDir links pos rest ih =>
    rw [resolve_parentDir] at hres ⊢
    rw [looks_parentDir, looks_parentDir]
    cases hs : search look pos with
    | error e => simp [hs] at hres
    | ok _ =>
      simp only [hs] at hres
      simp only [hsearch hs]
      rw [(ih hres).1, (ih hres).2]
      exact ⟨rfl, rfl⟩
  | normal links pos name rest ih ihl =>
    rw [resolve_normal] at hres ⊢
    rw [looks_normal, looks_normal]
    cases hs : search look pos with
    | error e => simp [hs] at hres
    | ok _ =>
      simp only [hs] at hres
      simp only [hsearch hs]
      rcases h (pos ++ [name]) with hsame | ⟨searchable, hdir, hwide⟩
      · rw [hsame]
        cases hv : look (pos ++ [name]) with
        | absent => simpa [hv] using hres
        | link target' =>
          simp only [hv] at hres ⊢
          cases links with
          | zero => simp [follow] at hres
          | succ links =>
            obtain ⟨hnext, hlooks⟩ := ihl links (target' ++ rest) rfl hres
            simp only [follow, followLooks]
            rw [hnext, hlooks]
            exact ⟨rfl, rfl⟩
        | dir searchable =>
          simp only [hv] at hres ⊢
          rw [(ih hres).1, (ih hres).2]
          exact ⟨rfl, rfl⟩
        | other =>
          simp only [hv] at hres ⊢
          rw [(ih hres).1, (ih hres).2]
          exact ⟨rfl, rfl⟩
      · simp only [hdir, hwide] at hres ⊢
        rw [(ih hres).1, (ih hres).2]
        exact ⟨rfl, rfl⟩

/-- The onlooker: no permission check stops it. -/
def onlooker : Cred := ⟨0, 0, true, 0o022⟩

/-- The place of what a path leads to: of a node, or of one that may be made. -/
def Target.place : Target → Pos
  | .found p => p
  | .missing dir name => dir ++ [name]

namespace FileTree

variable {cred : Cred} {t t' : FileTree} {path : List Component} {dir : Pos} {name : String}
  {names : List String}

theorem look_onlooker (cred : Cred) (t : FileTree) (q : Pos) : t.look onlooker q = t.look cred q ∨
    ∃ searchable, t.look cred q = .dir searchable ∧ t.look onlooker q = .dir true := by
  unfold look
  rcases t.get? q with _ | node
  · exact Or.inl rfl
  · simp only [Node.view]
    rcases node.kind with _ | _ | _ | _
    · exact Or.inr ⟨_, rfl, rfl⟩
    · exact Or.inl rfl
    · exact Or.inl rfl
    · exact Or.inl rfl

/-- What it sees are the kinds of the nodes. -/
theorem look_onlooker_congr {q : Pos} (h : (t'.get? q).map Node.kind = (t.get? q).map Node.kind) :
    t'.look onlooker q = t.look onlooker q := by
  have hview : ∀ node node' : Node, node'.kind = node.kind → node'.view onlooker =
      node.view onlooker := by
    intro node node' hkind
    unfold Node.view
    rw [hkind, Cred.may_of_privileged rfl, Cred.may_of_privileged rfl]
  unfold look
  rcases ht : t.get? q with _ | node
  · rw [ht, Option.map_none, Option.map_eq_none_iff] at h
    rw [h]
  · rw [ht, Option.map_some, Option.map_eq_some_iff] at h
    obtain ⟨node', hnode', hkind⟩ := h
    rw [hnode']
    exact hview node node' hkind

theorem target_onlooker {found : Target} (h : t.target cred path = .ok found) :
    t.target onlooker path = .ok found :=
  (resolve_wider (look_onlooker cred t) h).1

theorem walk_onlooker {p : Pos} (h : walk (t.look cred) maxLinks [] path = .ok p) :
    walk (t.look onlooker) maxLinks [] path = .ok p := by
  rw [walk_eq_ok] at h ⊢
  exact target_onlooker h

theorem search_onlooker {p : Pos} (h : t.look cred p = .dir true) : t.look onlooker p =
    .dir true := by
  rcases look_onlooker cred t p with hsame | ⟨_, -, hwide⟩
  · rw [hsame, h]
  · exact hwide

theorem slot_onlooker (h : t.slot cred path = .ok (dir, name)) : t.slot onlooker path = .ok
    (dir, name) := by
  obtain ⟨hpath, hwalk, hdir⟩ := slot_eq_ok h
  rw [hpath]
  exact slot_child (walk_onlooker hwalk) (search_onlooker hdir) name

theorem find_onlooker {p : Pos} {node : Node} (h : t.find cred path = .ok (p, node)) :
    t.find onlooker path = .ok (p, node) := by
  obtain ⟨hwalk, hnode⟩ := find_eq_ok h
  rw [find, walk_onlooker hwalk]
  simp only [hnode]

/-- A path that leads to a directory leads to no other. -/
theorem Leads.slot_eq (h : Leads onlooker t path dir names) {dir' : Pos} {name' : String}
    (hslot : t.slot cred (path ++ [.normal name]) = .ok (dir', name')) : dir' = dir ∧
      name' = name := by
  obtain ⟨rfl, rfl⟩ := Prod.mk.inj (Except.ok.inj ((slot_onlooker hslot).symm.trans (h.slot name)))
  exact ⟨rfl, rfl⟩

/-- What a path passes, it passes for the onlooker too. -/
theorem Leads.onlooker (h : Leads cred t path dir names) : Leads onlooker t path dir names := by
  refine ⟨walk_onlooker h.walk, search_onlooker h.search, ?_⟩
  rw [(resolve_wider (look_onlooker cred t) (walk_eq_ok.mp h.walk)).2]
  exact h.apart

end FileTree

end Posix

namespace Scriptorium

open Posix Effects

/-! ### Making the way -/

/-- What the onlooker finds at the end of a path. -/
abbrev leadsTo (t : FileTree) (path : PathBuf) : Except Errno Pos :=
  walk (t.look onlooker) maxLinks [] path

/-- The calls that make the way to an entry of a directory below the home. -/
def Approaches (home place : Pos) (c : FsCall) : Prop :=
  (∃ p, p <+: place ∧ (c = .mkdir (canonical p) ∨ c = .fileType (canonical p))) ∨
    (∃ uid gid, c = .chown (canonical home) uid gid) ∨ ∃ mode, c = .chmod (canonical home) mode

/-- What they do, as the onlooker sees it: where the directory was there, only the home has
    new attributes; where it was not, it is empty. -/
structure Approached (home place : Pos) (t s : FileTree) : Prop where
  kinds : ∀ dir, leadsTo t (canonical place) = .ok dir →
    ∀ q, (s.get? q).map Node.kind = (t.get? q).map Node.kind
  same : ∀ dir, leadsTo t (canonical place) = .ok dir →
    ∀ q, leadsTo t (canonical home) ≠ .ok q → s.get? q = t.get? q
  empty : ∀ e, leadsTo t (canonical place) = .error e →
    ∀ dir, leadsTo s (canonical place) = .ok dir → ∀ x, s.get? (dir ++ [x]) = none

section Approach

variable {cred : Cred} {now : Nat} {t s u : FileTree} {home place dir : Pos} {name : String}

theorem leadsTo_congr (h : ∀ q, (s.get? q).map Node.kind = (t.get? q).map Node.kind)
    (path : PathBuf) :
    leadsTo s path = leadsTo t path := by
  have hlook : s.look onlooker = t.look onlooker :=
    funext fun q => FileTree.look_onlooker_congr (h q)
  rw [leadsTo, hlook]

theorem Approached.refl : Approached home place t t where
  kinds _ _ _ := rfl
  same _ _ _ _ := rfl
  empty e he dir hdir := by
    rw [he] at hdir
    cases hdir

/-- Nothing is made above a directory that is there. -/
theorem not_made_above {p : Pos} (hp : p <+: place) (hthere : leadsTo s (canonical place) = .ok dir)
    {d : Pos} {n : String} (hslot : s.slot cred (canonical p) = .ok (d, n)) : s.get?
    (d ++ [n]) ≠ none := by
  intro hfree
  obtain ⟨hpath, hwalk, hlook⟩ := FileTree.slot_eq_ok hslot
  have hmissing : walk (s.look onlooker) maxLinks [] (canonical p) = .error .noent := by
    rw [hpath]
    exact walk_missing (FileTree.walk_onlooker hwalk) (FileTree.search_onlooker hlook)
      (FileTree.look_eq_absent.mpr hfree)
  obtain ⟨rest, rfl⟩ := hp
  obtain ⟨e, he⟩ := walk_beyond hmissing rest
  rw [← canonical_append, ← leadsTo, hthere] at he
  cases he

/-- A directory that is made at a prefix of the way is the end of the way, and empty; or the
    way does not lead on. -/
theorem made_empty {p : Pos} (hp : p <+: place) {d : Pos} {n : String} {attrs : Attrs}
    (hslot : s.slot cred (canonical p) = .ok (d, n)) (hfree : s.get? (d ++ [n]) = none)
    (hget : ∀ q, u.get? q = if q = d ++ [n] then some ⟨.dir, attrs⟩ else s.get? q)
    (hthere : leadsTo u (canonical place) = .ok dir) (x : String) : u.get? (dir ++ [x]) = none := by
  obtain ⟨hpath, hwalk, hlook⟩ := FileTree.slot_eq_ok hslot
  have hsee : ∀ q, s.look onlooker q ≠ .absent → u.look onlooker q = s.look onlooker q := by
    intro q hq
    apply FileTree.look_congr
    rw [hget, if_neg]
    rintro rfl
    exact hq (FileTree.look_eq_absent.mpr hfree)
  have hnew : u.look onlooker (d ++ [n]) = .dir true := by
    apply FileTree.look_of_isDir rfl
    exact FileTree.isDir_iff.mpr ⟨_, by rw [hget, if_pos rfl], rfl⟩
  have hend : walk (u.look onlooker) maxLinks [] (canonical p) = .ok (d ++ [n]) := by
    rw [hpath]
    have hsearch := FileTree.search_onlooker hlook
    refine walk_child (walk_extend hsee (FileTree.walk_onlooker hwalk)) ?_ (by simp [hnew])
      (by simp [hnew])
    rw [hsee d (by simp [hsearch]), hsearch]
  have hempty : ∀ x, u.get? (d ++ [n] ++ [x]) = none := by
    intro x
    rw [hget, if_neg (by simp), FileTree.get?_none_below hfree (List.prefix_append _ _)]
  obtain ⟨rest, rfl⟩ := hp
  cases rest with
  | nil =>
    rw [List.append_nil, leadsTo, hend] at hthere
    rw [← Except.ok.inj hthere]
    exact hempty x
  | cons first rest =>
    obtain ⟨e, he⟩ := walk_into_empty hend (FileTree.look_eq_absent.mpr (hempty first)) rest
    rw [← canonical_append, ← leadsTo, hthere] at he
    cases he

theorem Approached.setAttrs (h : Approached home place t s) {p : Pos} {node : Node}
    (f : Attrs → Attrs)
    (hfind : s.find cred (canonical home) = .ok (p, node)) : Approached home place t
    (s.setAttrs p f) where
  kinds dir hdir q := (kind_setAttrs s p q f).trans (h.kinds dir hdir q)
  same dir hdir q hq := by
    rw [FileTree.get?_setAttrs, if_neg]
    · exact h.same dir hdir q hq
    · rintro rfl
      apply hq
      rw [← leadsTo_congr (h.kinds dir hdir)]
      exact FileTree.walk_onlooker (FileTree.find_eq_ok hfind).1
  empty e he dir hdir x := by
    rw [leadsTo_congr (kind_setAttrs s p · f)] at hdir
    have hkind := kind_setAttrs s p (dir ++ [x]) f
    rwa [h.empty e he dir hdir x, Option.map_none, Option.map_eq_none_iff] at hkind

theorem approached_exec {c : FsCall} (hc : Approaches home place c)
    (h : Approached home place t s) :
    Approached home place t (FileTree.exec cred now c s).2 := by
  rcases hc with ⟨p, hp, rfl | rfl⟩ | ⟨uid, gid, rfl⟩ | ⟨mode, rfl⟩
  · simp only [FileTree.exec]
    rcases FileTree.mkdir_cases cred now s (canonical p) with
      ⟨e, he⟩ | ⟨d, n, hdir, hfree, hname, hslot, hadd⟩
    · rwa [he]
    · rw [hadd]
      have hthere : ∀ dir, leadsTo t (canonical place) ≠ .ok dir := by
        intro dir there
        rw [← leadsTo_congr (h.kinds dir there)] at there
        exact not_made_above hp there hslot hfree
      refine ⟨fun dir there => absurd there (hthere dir),
        fun dir there => absurd there (hthere dir), ?_⟩
      intro e _ dir there
      have hget : ∀ q, (s.add d n ⟨.dir, FileTree.newAttrs cred now 0o777⟩ hdir hfree hname).get?
          q =
          if q = d ++ [n] then some ⟨.dir, FileTree.newAttrs cred now 0o777⟩ else s.get? q :=
        fun _ => FileTree.get?_add
      exact made_empty hp hslot hfree hget there
  · exact h
  · simp only [FileTree.exec]
    rcases FileTree.chown_cases cred s (canonical home) uid gid with
      ⟨e, he⟩ | ⟨p, node, hfind, hset⟩
    · rwa [he]
    · rw [hset]
      exact h.setAttrs (fun attrs => { attrs with uid, gid }) hfind
  · simp only [FileTree.exec]
    rcases FileTree.chmod_cases cred s (canonical home) (fun attrs => { attrs with mode }) with
      ⟨e, he⟩ | ⟨p, node, hfind, hset⟩
    · rwa [he]
    · rw [hset]
      exact h.setAttrs (fun attrs => { attrs with mode }) hfind

/-- The way to the target, and to the home above it, is made with such calls. -/
theorem approaches_createDirAll (home : Pos) {p : Pos} (hp : p <+: place) :
    (createDirAll (canonical p)).Within (Approaches home place) (fun _ _ => True) fun _ => True :=
  within_createDirAll_canonical hp fun q hq =>
    ⟨Or.inl ⟨q, hq, Or.inl rfl⟩, Or.inl ⟨q, hq, Or.inr rfl⟩⟩

variable (cred now) in
theorem run_approaches {ε α : Type} {m : Fs ε α} {W : α → Prop}
    (hm : m.Within (Approaches home place) (fun _ _ => True) W) (t : FileTree) :
    Approached home place t (m.run (FileTree.exec cred now) t).2 :=
  hm.keeps (I := Approached home place t) (fun _ _ hc h => ⟨approached_exec hc h, trivial⟩) .refl

theorem approaches_ensureHome {root id : String} (hroot : RootPath root) (hid : ValidId id)
    (hhome : homePos root id <+: place) {uid gid : Nat} :
    (ensureHome root id uid gid).Within (Approaches (homePos root id) place) (fun _ _ => True)
      fun _ => True := by
  have hpath := homePath_eq hroot hid
  apply within_ensureHome
  · intro _
    rw [hpath]
    exact approaches_createDirAll _ hhome
  · intro _
    rw [hpath]
    exact Or.inr (Or.inl ⟨_, _, rfl⟩)
  · intro _
    rw [hpath]
    exact Or.inr (Or.inr ⟨_, rfl⟩)

/-- An import makes the way to its target. -/
theorem approaches_prepareTarget (cfg : ServiceConfig) {header : ImportHeader}
    (hroot : RootPath cfg.root)
    (hresolve : resolvePath cfg.root header.workspaceId header.targetPath =
      .ok (canonical (place ++ [name])))
    (hhome : homePos cfg.root header.workspaceId <+: place) :
    (prepareTarget cfg header).Within (Approaches (homePos cfg.root header.workspaceId) place)
      (fun _ _ => True) fun path => path = canonical (place ++ [name]) := by
  obtain ⟨hid, -⟩ := resolvePath_eq_ok hroot hresolve
  apply Prog.within_bind (W := fun _ => True)
  · exact Prog.within_mapError (approaches_ensureHome hroot hid hhome)
  · intro _ _
    rw [hresolve]
    apply Prog.within_bind (W := fun target => target = canonical (place ++ [name]))
    · intro target htarget
      exact (Except.ok.inj htarget).symm
    · rintro target rfl
      rw [parentOrDot_canonical]
      apply Prog.within_bind (Prog.within_mapError (approaches_createDirAll _ List.prefix_rfl))
      intro _ _
      exact Prog.within_pure rfl

end Approach

/-! ### Opening the staging file -/

/-- The staging file is opened clear of the target, as the onlooker sees the tree before the
    import: the names differ, the home does not stand at or below the target, and at the end
    of the path of the staging file there is neither a pipe nor what the target holds. -/
structure KeepsClear (clock : ImportClock) (t : FileTree) (home place : Pos)
    (name : String) : Prop where
  staging_ne : transferName "import" clock.staging ≠ name
  home : ∀ dir p, leadsTo t (canonical place) = .ok dir → leadsTo t (canonical home) = .ok p →
    ¬ dir ++ [name] <+: p
  staging : ∀ dir found, leadsTo t (canonical place) = .ok dir →
    t.target onlooker (canonical (stagingPos clock place)) = .ok found →
      ¬ dir ++ [name] <+: found.place ∧ ∀ node, t.get? found.place = some node →
        node.kind.isSpecial = false

/-- And so is the directory that an archive is unpacked in: it is not the target, and the
    path of the staging file does not pass through it. -/
structure ExtractsClear (clock : ImportClock) (t : FileTree) (place : Pos)
    (name : String) : Prop where
  extraction_ne : transferName "expand" clock.expand ≠ name
  way : ∀ dir, leadsTo t (canonical place) = .ok dir →
    ∀ q ∈ looks (t.look onlooker) maxLinks [] (canonical (stagingPos clock place)),
      ¬ extractionPos clock dir <+: q

/-- The staging file has been opened, and the target is as it was. -/
structure Opened (clock : ImportClock) (t s : FileTree) (place : Pos) (name : String)
    (dir handle : Pos) :
    Prop where
  lead : FileTree.Leads onlooker s (canonical place) dir [transferName "import" clock.staging]
  kept : ∀ rest, s.get? (dir ++ [name] ++ rest) =
    subtreeAt onlooker t (canonical (place ++ [name])) rest
  found : s.target onlooker (canonical (stagingPos clock place)) = .ok (.found handle)
  beside : ExtractsClear clock t place name →
    ∀ q ∈ looks (s.look onlooker) maxLinks [] (canonical (stagingPos clock place)),
      ¬ extractionPos clock dir <+: q

section Staging

variable {cred : Cred} {now : Nat} {clock : ImportClock} {t s u : FileTree}
  {home place dir handle : Pos}
  {name : String} {names : List String}

theorem subtreeAt_of_leads (h : FileTree.Leads onlooker s (canonical place) dir names)
    (rest : Pos) :
    subtreeAt onlooker s (canonical (place ++ [name])) rest = s.get? (dir ++ [name] ++ rest) := by
  rw [subtreeAt, canonical_concat, h.slot]

/-- Making the way leaves the target as it was. -/
theorem subtreeAt_approached (h : Approached home place t s)
    (hclear : KeepsClear clock t home place name) :
    subtreeAt onlooker s (canonical (place ++ [name])) = subtreeAt onlooker t
      (canonical (place ++ [name])) := by
  rcases hP : leadsTo t (canonical place) with e | dir
  · rw [subtreeAt_eq_none, subtreeAt_eq_none]
    · intro d n hslot
      obtain ⟨-, hwalk, -⟩ := FileTree.slot_eq_ok hslot
      rw [canonical_concat, List.dropLast_concat] at hwalk
      cases hP.symm.trans hwalk
    · intro d n hslot
      obtain ⟨-, hwalk, -⟩ := FileTree.slot_eq_ok hslot
      rw [canonical_concat, List.dropLast_concat] at hwalk
      exact h.empty e hP d hwalk n
  · have hlook : s.look onlooker = t.look onlooker :=
      funext fun q => FileTree.look_onlooker_congr (h.kinds dir hP q)
    funext rest
    simp only [subtreeAt, FileTree.slot, hlook]
    split
    · rename_i d n hslot
      obtain ⟨hpath, hwalk, -⟩ := FileTree.slot_eq_ok hslot
      rw [canonical_concat, List.dropLast_concat] at hwalk hpath
      obtain rfl : name = n := by simpa using hpath
      obtain rfl := Except.ok.inj (hP.symm.trans hwalk)
      apply h.same dir hP
      intro hhome
      exact hclear.home dir _ hP hhome (List.prefix_append _ _)
    · rfl

/-- Where a missing directory has been made, the staging file is a new one in it. -/
theorem target_in_empty (hempty : ∀ dir, leadsTo s (canonical place) = .ok dir → ∀ x,
    s.get? (dir ++ [x]) = none)
    {found : Target} (h : s.target onlooker (canonical (stagingPos clock place)) = .ok found) :
    ∃ dir, FileTree.Leads onlooker s (canonical place) dir [] ∧ found = .missing dir
      (transferName "import" clock.staging) ∧
      s.look onlooker (stagingPos clock dir) = .absent := by
  rw [stagingPos, canonical_concat] at h
  obtain ⟨dir, hwalk, hsearch, hlast⟩ := resolve_entry h
  have habsent : s.look onlooker (dir ++ [transferName "import" clock.staging]) = .absent :=
    FileTree.look_eq_absent.mpr (hempty dir hwalk _)
  refine ⟨dir, ⟨hwalk, hsearch, fun q _ name hname => by cases hname⟩, ?_, habsent⟩
  rcases hlast with ⟨-, hmissing⟩ | ⟨path, hlink⟩ | ⟨hpresent, -⟩
  · exact hmissing
  · rw [habsent] at hlink
    cases hlink
  · exact absurd habsent hpresent

variable (cred now) in
/-- The staging file is not one that is waited for. -/
theorem create_not_waiting (h : Approached home place t s)
    (hclear : KeepsClear clock t home place name) :
    (FileTree.exec cred now (.create (canonical (stagingPos clock place))) s).1 ≠
      .error .wouldblock := by
  intro hwait
  obtain ⟨path, p, node, hnode, hfifo, ⟨hcall, htarget⟩ | ⟨hcall, -⟩⟩ :=
    FileTree.waits_of_exec hwait
  · obtain rfl := FsCall.create.inj hcall
    have hfound := FileTree.target_onlooker htarget
    rcases hP : leadsTo t (canonical place) with e | dir
    · obtain ⟨_, -, hmissing, -⟩ := target_in_empty (h.empty e hP) hfound
      cases hmissing
    · have hlook : s.look onlooker = t.look onlooker :=
        funext fun q => FileTree.look_onlooker_congr (h.kinds dir hP q)
      rw [FileTree.target, hlook, ← FileTree.target] at hfound
      obtain ⟨-, hplain⟩ := hclear.staging dir _ hP hfound
      have hkind := h.kinds dir hP p
      rw [hnode] at hkind
      obtain ⟨old, hold, hsame⟩ := Option.map_eq_some_iff.mp hkind.symm
      have hspecial := hplain old hold
      rw [hsame, hfifo] at hspecial
      cases hspecial
  · cases hcall

/-- What `File::create` has opened: a new file where nothing was, or one that was there. -/
theorem opened_by_create {path : PathBuf}
    (h : FileTree.exec cred now (.create path) s = (.ok handle, u)) :
    ∃ found, s.target onlooker path = .ok found ∧ found.place = handle ∧
      (s.look onlooker handle = .absent ∧ (∃ d n, found = .missing d n) ∨
        s.look onlooker handle = .other ∧ found = .found handle) := by
  simp only [FileTree.exec] at h
  rcases FileTree.create_cases cred now s path with
    ⟨e, he⟩ | ⟨d, n, hdir, hfree, hname, htarget, hadd⟩
      | ⟨p, data, holes, attrs, htarget, hnode, hset⟩
  · rw [he] at h
    cases h
  · rw [hadd] at h
    obtain rfl := Except.ok.inj (congrArg Prod.fst h)
    exact ⟨_, FileTree.target_onlooker htarget, rfl,
      Or.inl ⟨FileTree.look_eq_absent.mpr hfree, d, n, rfl⟩⟩
  · rw [hset] at h
    obtain rfl := Except.ok.inj (congrArg Prod.fst h)
    refine ⟨_, FileTree.target_onlooker htarget, rfl, Or.inr ⟨?_, rfl⟩⟩
    simp [FileTree.look, hnode, Node.view]

/-- Where the staging file is opened. -/
theorem create_place (h : Approached home place t s) (hclear : KeepsClear clock t home place name)
    {found : Target} (htarget : s.target onlooker (canonical (stagingPos clock place)) = .ok found)
    (hopen : (∃ d n, found = .missing d n) ∨ ∃ p, found = .found p ∧ s.look onlooker p = .other) :
    ∃ dir, FileTree.Leads onlooker s (canonical place) dir [transferName "import" clock.staging] ∧
      ¬ dir ++ [name] <+: found.place ∧
      (ExtractsClear clock t place name →
        ∀ q ∈ looks (s.look onlooker) maxLinks [] (canonical (stagingPos clock place)),
          ¬ extractionPos clock dir <+: q) := by
  rcases hP : leadsTo t (canonical place) with e | dir
  · obtain ⟨dir, hlead, rfl, habsent⟩ := target_in_empty (h.empty e hP) htarget
    have hfree : ∀ x, s.get? (dir ++ [x]) = none := h.empty e hP dir hlead.walk
    refine ⟨dir, hlead.free (hfree _), entry_apart dir hclear.staging_ne.symm,
      fun hextract q hq => ?_⟩
    obtain ⟨fewer, -, -, hlooks⟩ :=
      (resolve_append [.normal (transferName "import" clock.staging)] (by simp)).1 dir hlead.walk
    rw [stagingPos, canonical_concat, hlooks, List.mem_append] at hq
    rcases hq with hq | hq
    · exact (hlead.free (hfree _)).apart q hq _ List.mem_cons_self
    · rw [stagingPos] at habsent
      rw [looks_normal, search_eq_ok.mpr hlead.search] at hq
      simp only [habsent, List.mem_cons, List.not_mem_nil, or_false] at hq
      rcases hq with rfl | rfl
      · exact not_entry_above q _
      · exact (extraction_apart clock dir).1
  · have hlook : s.look onlooker = t.look onlooker :=
      funext fun q => FileTree.look_onlooker_congr (h.kinds dir hP q)
    have hstaging := htarget
    rw [stagingPos, canonical_concat] at hstaging
    obtain ⟨dir', hwalk, hsearch, -⟩ := resolve_entry hstaging
    obtain rfl : dir = dir' := by
      rw [hlook] at hwalk
      exact Except.ok.inj (hP.symm.trans hwalk)
    have hlead : FileTree.Leads onlooker s (canonical place) dir [] :=
      ⟨hwalk, hsearch, fun q _ other hother => by cases hother⟩
    refine ⟨dir, ?_, ?_, fun hextract => ?_⟩
    · -- the way to a directory does not pass what a file is opened at
      rw [stagingPos, canonical_concat] at htarget
      rcases hopen with ⟨d, n, rfl⟩ | ⟨p, rfl, hother⟩
      · apply hlead.beside_missing
        rw [FileTree.find, walk, ← FileTree.target, htarget]
      · exact hlead.beside_other (by simp [canonical]) (walk_eq_ok.mpr htarget) hother
    · rw [FileTree.target, hlook, ← FileTree.target] at htarget
      exact (hclear.staging dir found hP htarget).1
    · rw [hlook]
      exact hextract.way dir hP

/-- Whatever is then received: the target is as it was, and the staging file is found. -/
theorem create_opened (h : Approached home place t s) (hclear : KeepsClear clock t home place name)
    (hcreate : FileTree.exec cred now (.create (canonical (stagingPos clock place))) s =
      (.ok handle, u))
    {v : FileTree} (hsame : ∀ q, q ≠ handle → v.get? q = u.get? q)
    (hfile : ∃ data attrs, v.get? handle = some ⟨.file data false, attrs⟩) :
    ∃ dir, Opened clock t v place name dir handle := by
  obtain ⟨found, htarget, hplace, hstate⟩ := opened_by_create hcreate
  have hopen : (∃ d n, found = .missing d n) ∨ ∃ p, found = .found p ∧
      s.look onlooker p = .other := by
    rcases hstate with ⟨-, hmissing⟩ | ⟨hother, hfound⟩
    · exact Or.inl hmissing
    · exact Or.inr ⟨handle, hfound, hother⟩
  obtain ⟨dir, hlead, hapart, hbeside⟩ := create_place h hclear htarget hopen
  have hget : ∀ q, q ≠ handle → v.get? q = s.get? q := by
    intro q hq
    rw [hsame q hq, get?_of_create hcreate hq]
  have hother : v.look onlooker handle = .other := by
    obtain ⟨data, attrs, hnode⟩ := hfile
    simp [FileTree.look, hnode, Node.view]
  have hlook : ∀ q, q ≠ handle → v.look onlooker q = s.look onlooker q :=
    fun q hq => FileTree.look_congr (hget q hq)
  have hsee : ∀ q, s.look onlooker q ≠ .absent → v.look onlooker q = s.look onlooker q := by
    intro q hq
    by_cases heq : q = handle
    · subst heq
      rcases hstate with ⟨habsent, -⟩ | ⟨hthere, -⟩
      · exact absurd habsent hq
      · rw [hother, hthere]
    · exact hlook q heq
  have hway : v.target onlooker (canonical (stagingPos clock place)) = .ok (.found handle) ∧
      looks (v.look onlooker) maxLinks [] (canonical (stagingPos clock place)) =
        looks (s.look onlooker) maxLinks [] (canonical (stagingPos clock place)) := by
    rcases hstate with ⟨habsent, d, n, rfl⟩ | ⟨-, rfl⟩
    · obtain rfl : d ++ [n] = handle := hplace
      exact resolve_added habsent hother hlook htarget
    · have hcongr := @resolve_congr (s.look onlooker) (v.look onlooker) maxLinks []
        (canonical (stagingPos clock place)) fun q hq =>
          (hsee q (ne_absent_of_mem_looks htarget q hq)).symm
      exact ⟨hcongr.1.symm.trans htarget, hcongr.2.symm⟩
  refine ⟨dir, hlead.of_seen hsee, fun rest => ?_, hway.1, fun hextract => ?_⟩
  · rw [← subtreeAt_approached h hclear, subtreeAt_of_leads hlead, hget]
    rintro rfl
    rw [hplace] at hapart
    exact hapart (List.prefix_append _ _)
  · rw [hway.2]
    exact hbeside hextract

end Staging

/-! ### Making the extraction directory -/

/-- The calls that make a bare directory at `root`. -/
def Begins (root : Pos) (c : FsCall) : Prop :=
  (∃ p, p <+: root ∧ (c = .mkdir (canonical p) ∨ c = .fileType (canonical p))) ∨
    c = .removeDirAll (canonical root)

/-- Only at the extraction root something has changed, and its directory is found as before. -/
structure KeptBeside (s u : FileTree) (place dir : Pos) (expand : String) : Prop where
  lead : FileTree.Leads onlooker u (canonical place) dir [expand]
  same : ∀ q, ¬ dir ++ [expand] <+: q → u.get? q = s.get? q

section Begin

variable {cred : Cred} {now : Nat} {s u v : FileTree} {place dir handle : Pos} {expand : String}
  {ε α : Type} {m : Fs ε α}

theorem KeptBeside.changed (h : KeptBeside s u place dir expand)
    (hsame : ∀ q, ¬ dir ++ [expand] <+: q → v.get? q = u.get? q) :
      KeptBeside s v place dir expand where
  lead := h.lead.of_same fun q hq => hsame q (hq expand (List.mem_singleton_self expand))
  same q hq := (hsame q hq).trans (h.same q hq)

theorem begins_createDirAll {root p : Pos} (hp : p <+: root) :
    (createDirAll (canonical p)).Within (Begins root) (fun _ _ => True) fun _ => True :=
  within_createDirAll_canonical hp fun q hq =>
    ⟨Or.inl ⟨q, hq, Or.inl rfl⟩, Or.inl ⟨q, hq, Or.inr rfl⟩⟩

theorem begins_bareRoot (root : Pos) :
    (bareRoot (canonical root)).Within (Begins root) (fun _ _ => True) fun _ => True :=
  within_bareRoot (Or.inl ⟨root, List.prefix_rfl, Or.inr rfl⟩) (Or.inr rfl)
    (begins_createDirAll List.prefix_rfl)

theorem prompt_bareRoot (root : PathBuf) : Prompt (bareRoot root) := by
  apply Prog.ends_bind (prompt_pathExists _)
  intro present
  split
  · apply Prog.ends_bind (prompt_io (prompt_sys _))
    intro _
    exact prompt_io (prompt_createDirAll _)
  · exact prompt_io (prompt_createDirAll _)

/-- The directories above the root are there already. -/
theorem keptBeside_exec {c : FsCall} (hc : Begins (place ++ [expand]) c)
    (h : KeptBeside s u place dir expand) :
    KeptBeside s (FileTree.exec cred now c u).2 place dir expand := by
  rcases hc with ⟨p, hp, rfl | rfl⟩ | rfl
  · simp only [FileTree.exec]
    rcases FileTree.mkdir_cases cred now u (canonical p) with
      ⟨e, he⟩ | ⟨d, n, _, hfree, _, hslot, hadd⟩
    · rwa [he]
    · rw [hadd]
      rcases List.prefix_concat_iff.mp hp with rfl | hp
      · rw [canonical_concat] at hslot
        obtain ⟨rfl, rfl⟩ := h.lead.slot_eq hslot
        apply h.changed
        intro q hq
        rw [FileTree.get?_add, if_neg]
        rintro rfl
        exact hq List.prefix_rfl
      · exact absurd hfree (not_made_above hp h.lead.walk hslot)
  · exact h
  · simp only [FileTree.exec]
    rcases FileTree.removeDirAll_cases cred u (canonical (place ++ [expand])) with
      ⟨e, he⟩ | ⟨d, n, _, hslot, -, hremove⟩
    · rwa [he]
    · rw [hremove]
      rw [canonical_concat] at hslot
      obtain ⟨rfl, rfl⟩ := h.lead.slot_eq hslot
      apply h.changed
      intro q hq
      rw [FileTree.get?_removeAt, if_neg hq]

variable (cred now) in
/-- Such programs have a result. -/
theorem run_begins {W : α → Prop} (hm : m.Within (Begins (place ++ [expand])) (fun _ _ => True) W)
    (hprompt : Prompt m) (h : KeptBeside s u place dir expand) :
    ∃ r v, m.run (FileTree.exec cred now) u = (some r, v) ∧ KeptBeside s v place dir expand := by
  have hstep : ∀ c u, Begins (place ++ [expand]) c → KeptBeside s u place dir expand →
      KeptBeside s (FileTree.exec cred now c u).2 place dir expand ∧ True ∧
        (FileTree.exec cred now c u).1 ≠ .error .wouldblock := by
    intro c u hc hu
    refine ⟨keptBeside_exec hc hu, trivial, fun hwait => ?_⟩
    obtain ⟨path, _, _, -, -, ⟨rfl, -⟩ | ⟨rfl, -⟩⟩ := FileTree.waits_of_exec hwait
    · rcases hc with ⟨p, -, hc | hc⟩ | hc <;> cases hc
    · rcases hc with ⟨p, -, hc | hc⟩ | hc <;> cases hc
  obtain ⟨r, hr⟩ := Option.isSome_iff_exists.mp (hprompt.isSome hm hstep h)
  refine ⟨r, _, Prod.ext hr rfl, ?_⟩
  exact hm.keeps (I := fun u => KeptBeside s u place dir expand)
    (fun c u hc hu => ⟨(hstep c u hc hu).1, trivial⟩) h

/-- What is then found at a path that did not pass through the root: the file that was there,
    unless the root has been made in its place. -/
theorem found_beside {path : PathBuf} {file : Node} (h : KeptBeside s u place dir expand)
    {x : FileTree} (hbegan : Began cred now x u (canonical place) dir expand)
    (htarget : s.target onlooker path = .ok (.found handle))
    (hlooks : ∀ q ∈ looks (s.look onlooker) maxLinks [] path, ¬ dir ++ [expand] <+: q)
    (hfile : s.get? handle = some file) {p : Pos} {node : Node}
    (hfind : u.find cred path = .ok (p, node)) :
    node = file ∨ node.isDir = true := by
  have hcongr := @resolve_congr (s.look onlooker) (u.look onlooker) maxLinks [] path fun q hq =>
    (FileTree.look_congr (h.same q (hlooks q hq))).symm
  obtain ⟨hwalk, hnode⟩ := FileTree.find_eq_ok (FileTree.find_onlooker hfind)
  rw [walk_eq_ok, ← hcongr.1] at hwalk
  obtain rfl : handle = p := by
    have hfound := htarget.symm.trans hwalk
    exact Target.found.inj (Except.ok.inj hfound)
  by_cases hroot : dir ++ [expand] <+: handle
  · right
    obtain ⟨rest, rfl⟩ := hroot
    cases rest with
    | nil =>
      rw [List.append_nil, hbegan.root] at hnode
      rw [← Option.some.inj hnode]
      rfl
    | cons first rest =>
      rw [hbegan.bare] at hnode
      cases hnode
  · left
    rw [h.same handle hroot, hfile] at hnode
    exact (Option.some.inj hnode).symm

end Begin

/-! ### Unpacking beside the target -/

/-- The calls that unpack an archive below `root`, with its files opened below `dirRoot`. -/
def Unpacks (root dirRoot : Pos) : FsCall → Prop
  | .mkdir path | .fileType path | .lstat path | .canonicalize path =>
    ∃ p, (p <+: root ∨ root <+: p) ∧ path = canonical p
  | .createNew path | .unlink path | .chmod path _ =>
    ∃ first rest, path = canonical (root ++ first :: rest)
  | .write handle _ | .setMtime handle _ | .fchmod handle _ =>
    ∃ first rest, handle = dirRoot ++ first :: rest
  | _ => False

/-- The files that they open. -/
def OpensBelow (dirRoot : Pos) : (c : FsCall) → c.Reply → Prop
  | .createNew _ => fun reply =>
    ∀ handle : Pos, reply = .ok handle → ∃ first rest, handle = dirRoot ++ first :: rest
  | _ => fun _ => True

def unpackZone (root dirRoot : Pos) : Zone (Unpacks root dirRoot) (OpensBelow dirRoot) where
  near path := ∃ p, (p <+: root ∨ root <+: p) ∧ path = canonical p
  inside path := ∃ first rest, path = canonical (root ++ first :: rest)
  handle opened := ∃ first rest, opened = dirRoot ++ first :: rest
  parent path parent := by
    rintro ⟨p, hp, rfl⟩ hparent
    rcases List.eq_nil_or_concat' p with rfl | ⟨above, last, rfl⟩
    · cases hparent
    · rw [PathBuf.parent_canonical_concat] at hparent
      refine ⟨above, ?_, (Option.some.inj hparent).symm⟩
      rcases hp with hp | hp
      · exact Or.inl ((List.prefix_append _ _).trans hp)
      · rcases List.prefix_concat_iff.mp hp with rfl | hp
        · exact Or.inl (List.prefix_append _ _)
        · exact Or.inr hp
  of_inside path := by
    rintro ⟨first, rest, rfl⟩
    exact ⟨_, Or.inr (List.prefix_append _ _), rfl⟩
  asks _ h := ⟨h, h, h, h⟩
  changes _ h := ⟨h, h, fun _ => h⟩
  opens _ opened _ hreply := hreply opened rfl
  writes _ h := ⟨fun _ => h, fun _ => h, fun _ => h⟩

theorem unpacks_extractItems (root dirRoot : Pos) (items : List TarItem) :
    (extractItems (canonical root) items).Within (Unpacks root dirRoot)
    (OpensBelow dirRoot) fun _ => True := by
  apply (unpackZone root dirRoot).admits_extractItems
  · exact ⟨root, Or.inl List.prefix_rfl, rfl⟩
  · intro names hne
    rcases names with _ | ⟨first, rest⟩
    · exact absurd rfl hne
    · exact ⟨first, rest, (canonical_append _ _).symm⟩

section Unpack

variable {cred : Cred} {now : Nat} {s u : FileTree} {place dir : Pos} {expand : String} {c : FsCall}

/-- Below the extraction root a path names its own place. -/
theorem slot_below (h : FileTree.Opens onlooker u (canonical place) dir expand) {first : String}
    {rest : Pos} {d : Pos} {n : String}
    (hslot : u.slot cred (canonical (place ++ [expand] ++ first :: rest)) = .ok (d, n)) :
    d ++ [n] = dir ++ [expand] ++ first :: rest := by
  have hseen := FileTree.slot_onlooker hslot
  rw [canonical_append, canonical_concat, h.slot_eq] at hseen
  exact (straight_opens h (first :: rest)).clear.slot_eq (seen_wayTo.mpr (Or.inl List.prefix_rfl))
    hseen

theorem find_below (h : FileTree.Opens onlooker u (canonical place) dir expand) {first : String}
    {rest : Pos} {p : Pos} {node : Node}
    (hfind : u.find cred (canonical (place ++ [expand] ++ first :: rest)) = .ok (p, node)) :
    p = dir ++ [expand] ++ first :: rest := by
  have hseen := FileTree.find_onlooker hfind
  rw [canonical_append, canonical_concat, (h.spells (first :: rest)).find] at hseen
  exact (straight_opens h (first :: rest)).clear.find_eq (seen_wayTo.mpr (Or.inl List.prefix_rfl))
    hseen

/-- What is unpacked comes below the root, which is there. -/
theorem touched_below (h : FileTree.Opens onlooker u (canonical place) dir expand)
    (hc : Unpacks (place ++ [expand]) (dir ++ [expand]) c) :
    (FileTree.exec cred now c u).2 = u ∨
      ∀ p ∈ u.touched cred c, ∃ first rest, p = dir ++ [expand] ++ first :: rest := by
  have hentry : ∀ {first : String} {rest p : Pos},
      p ∈ u.touched cred (.unlink (canonical (place ++ [expand] ++ first :: rest))) →
      p = dir ++ [expand] ++ first :: rest := by
    intro first rest p hp
    rcases hslot : u.slot cred (canonical (place ++ [expand] ++ first :: rest)) with e | ⟨d, n⟩
    · simp only [FileTree.touched, hslot, List.not_mem_nil] at hp
    · simp only [FileTree.touched, hslot, List.mem_singleton] at hp
      rw [hp, slot_below h hslot]
  cases c with
  | mkdir path =>
    obtain ⟨p, hp, rfl⟩ := hc
    by_cases hbelow : ∃ first rest, p = place ++ [expand] ++ first :: rest
    · obtain ⟨first, rest, rfl⟩ := hbelow
      exact Or.inr fun p hp => ⟨first, rest, hentry hp⟩
    · left
      have habove : p <+: place ++ [expand] := by
        rcases hp with hp | ⟨rest, rfl⟩
        · exact hp
        · rcases rest with _ | ⟨first, rest⟩
          · exact List.append_nil _ ▸ List.prefix_rfl
          · exact absurd ⟨first, rest, rfl⟩ hbelow
      simp only [FileTree.exec]
      rcases FileTree.mkdir_cases cred now u (canonical p) with
        ⟨e, he⟩ | ⟨d, n, _, hfree, _, hslot, -⟩
      · rw [he]
      · exfalso
        rcases List.prefix_concat_iff.mp habove with rfl | habove
        · rw [canonical_concat] at hslot
          obtain ⟨rfl, rfl⟩ := h.lead.slot_eq hslot
          have hsome := FileTree.isSome_of_isDir h.isDir
          rw [hfree] at hsome
          cases hsome
        · exact not_made_above habove h.lead.walk hslot hfree
  | createNew path =>
    obtain ⟨first, rest, rfl⟩ := hc
    exact Or.inr fun p hp => ⟨first, rest, hentry hp⟩
  | unlink path =>
    obtain ⟨first, rest, rfl⟩ := hc
    exact Or.inr fun p hp => ⟨first, rest, hentry hp⟩
  | chmod path mode =>
    obtain ⟨first, rest, rfl⟩ := hc
    right
    intro p hp
    rcases hfind : u.find cred (canonical (place ++ [expand] ++ first :: rest)) with e | ⟨q, node⟩
    · simp only [FileTree.touched, hfind, List.not_mem_nil] at hp
    · simp only [FileTree.touched, hfind, List.mem_singleton] at hp
      exact ⟨first, rest, hp.trans (find_below h hfind)⟩
  | write handle data => exact Or.inr fun p hp => (List.mem_singleton.mp hp).symm ▸ hc
  | setMtime handle mtime => exact Or.inr fun p hp => (List.mem_singleton.mp hp).symm ▸ hc
  | fchmod handle mode => exact Or.inr fun p hp => (List.mem_singleton.mp hp).symm ▸ hc
  | fileType path => exact Or.inl rfl
  | lstat path => exact Or.inl rfl
  | canonicalize path => exact Or.inl rfl
  | _ => exact hc.elim

/-- So the root stays where it is, and so does all that is not below it. -/
theorem opens_exec (h : FileTree.Opens onlooker u (canonical place) dir expand)
    (hc : Unpacks (place ++ [expand]) (dir ++ [expand]) c) :
    FileTree.Opens onlooker (FileTree.exec cred now c u).2 (canonical place) dir expand ∧
      (∀ q, ¬ dir ++ [expand] <+: q → (FileTree.exec cred now c u).2.get? q = u.get? q) ∧
      OpensBelow (dir ++ [expand]) c (FileTree.exec cred now c u).1 := by
  have hsame : ∀ q, q <+: dir ++ [expand] ∨ ¬ dir ++ [expand] <+: q →
      (FileTree.exec cred now c u).2.get? q = u.get? q := by
    intro q hq
    rcases touched_below h hc with hstate | htouched
    · rw [hstate]
    · apply FileTree.get?_exec_of_not_touched
      intro p hp hpq
      obtain ⟨first, rest, rfl⟩ := htouched p hp
      rcases hq with hq | hq
      · exact absurd (hpq.trans hq).length_le (by simp)
      · exact hq ((List.prefix_append _ _).trans hpq)
  refine ⟨h.of_same (fun q hq => hsame q (Or.inr hq)) ?_ fun q node hnode => ?_,
    fun q hq => hsame q (Or.inr hq), ?_⟩
  · rw [FileTree.isDir, hsame _ (Or.inl List.prefix_rfl)]
    exact h.isDir
  · by_contra hlink
    rcases FileTree.link_of_exec hnode (by simpa using hlink) with
      ⟨old, hold, hlink'⟩ | ⟨_, _, _, _, _, _, rfl, -⟩
    · rw [h.plain q old hold] at hlink'
      cases hlink'
    · exact hc
  · cases c with
    | createNew path =>
      obtain ⟨first, rest, rfl⟩ := hc
      intro handle hreply
      simp only [FileTree.exec] at hreply
      rcases FileTree.createNew_cases cred now u
        (canonical (place ++ [expand] ++ first :: rest)) with
        ⟨e, he⟩ | ⟨d, n, _, _, _, hslot, hadd⟩
      · rw [he] at hreply
        cases hreply
      · rw [hadd] at hreply
        exact ⟨first, rest, (Except.ok.inj hreply).symm.trans (slot_below h hslot)⟩
    | _ => trivial

variable (cred now) in
/-- Items that are not all accepted end in an error, with changes below the root only. -/
theorem run_extractItems_refused (h : FileTree.Opens onlooker u (canonical place) dir expand)
    {items : List TarItem} {item : TarItem} (hitem : item ∈ items) (hrefused : item.Refused) :
    ∃ e v, (extractItems (canonical (place ++ [expand])) items).run (FileTree.exec cred now) u =
        (some (.error e), v) ∧
      ∀ q, ¬ dir ++ [expand] <+: q → v.get? q = u.get? q := by
  let I := fun v : FileTree => FileTree.Opens onlooker v (canonical place) dir expand ∧
    ∀ q, ¬ dir ++ [expand] <+: q → v.get? q = u.get? q
  have hstep : ∀ c v, Unpacks (place ++ [expand]) (dir ++ [expand]) c → I v →
      I (FileTree.exec cred now c v).2 ∧
        OpensBelow (dir ++ [expand]) c (FileTree.exec cred now c v).1 ∧
        (FileTree.exec cred now c v).1 ≠ .error .wouldblock := by
    rintro c v hc ⟨hopens, hframe⟩
    obtain ⟨hopens', hsame, hreply⟩ := opens_exec hopens hc
    refine ⟨⟨hopens', fun q hq => (hsame q hq).trans (hframe q hq)⟩, hreply, fun hwait => ?_⟩
    obtain ⟨path, _, _, -, -, ⟨rfl, -⟩ | ⟨rfl, -⟩⟩ := FileTree.waits_of_exec hwait
    · exact hc
    · exact hc
  have hm := unpacks_extractItems (place ++ [expand]) (dir ++ [expand]) items
  obtain ⟨r, hr⟩ := Option.isSome_iff_exists.mp
    ((prompt_extractItems _ items).isSome hm hstep ⟨h, fun _ _ => rfl⟩)
  obtain ⟨-, hframe⟩ :=
    hm.keeps (I := I) (fun c v hc hv => ⟨(hstep c v hc hv).1, (hstep c v hc hv).2.1⟩)
    ⟨h, fun _ _ => rfl⟩
  rcases r with e | _
  · exact ⟨e, _, Prod.ext hr rfl, hframe⟩
  · exact absurd hrefused (extractItems_accepts hr item hitem)

end Unpack

/-! ### Rejections -/

section Spared

variable {cred : Cred} {now : Nat} {clock : ImportClock} {t s u v : FileTree}
  {home place dir handle : Pos}
  {name : String} {names : List String} {bytes : List UInt8} {attrs : Attrs}

/-- As long as the path leads on, it is enough that the target's place is left alone. -/
theorem Opened.spares (h : Opened clock t s place name dir handle)
    (hlead : FileTree.Leads onlooker v (canonical place) dir names)
    (hsame : ∀ rest, v.get? (dir ++ [name] ++ rest) = s.get? (dir ++ [name] ++ rest)) :
    subtreeAt onlooker v (canonical (place ++ [name])) = subtreeAt onlooker t
      (canonical (place ++ [name])) := by
  funext rest
  rw [subtreeAt_of_leads hlead, hsame, h.kept]

/-- The directory of the extraction root is found by a path that does not pass it. -/
theorem Opened.keptBeside (h : Opened clock t s place name dir handle)
    (hextract : ExtractsClear clock t place name) :
    KeptBeside s s place dir (transferName "expand" clock.expand) := by
  refine ⟨⟨h.lead.walk, h.lead.search, fun q hq other hother => ?_⟩, fun _ _ => rfl⟩
  obtain rfl := List.mem_singleton.mp hother
  obtain ⟨_, -, -, hlooks⟩ :=
    (resolve_append [.normal (transferName "import" clock.staging)] (by simp)).1 dir h.lead.walk
  apply h.beside hextract q
  rw [stagingPos, canonical_concat, hlooks]
  exact List.mem_append_left _ hq

variable (cred now) in
/-- A path that leads to a file or a directory is read, or refused. -/
theorem run_read_found {path : PathBuf} {holes : Bool}
    (hfound : ∀ p node, u.find cred path = .ok (p, node) →
      node.kind = .file bytes holes ∨ node.isDir = true) :
    (∃ e, (io (sys (.read path))).run (FileTree.exec cred now) u = (some (.error e), u)) ∨
      ∃ contents, (io (sys (.read path))).run (FileTree.exec cred now) u =
        (some (.ok contents), u) ∧
        contents.data = bytes := by
  have hreply : (∃ e, e ≠ .wouldblock ∧ u.read cred path = .error e) ∨
      ∃ contents, u.read cred path = .ok contents ∧ contents.data = bytes := by
    unfold FileTree.read
    rcases hfind : u.find cred path with e | ⟨p, node⟩
    · refine Or.inl ⟨e, ?_, rfl⟩
      rintro rfl
      exact FileTree.find_ne_wouldblock hfind
    · dsimp only
      split
      · rcases hfound p node hfind with hkind | hdir
        · rw [hkind]
          exact Or.inr ⟨_, rfl, rfl⟩
        · rw [Node.isDir_iff.mp hdir]
          exact Or.inl ⟨_, by decide, rfl⟩
      · exact Or.inl ⟨_, by decide, rfl⟩
  rw [io, Prog.run_mapError]
  rcases hreply with ⟨e, hne, hreply⟩ | ⟨contents, hreply, hdata⟩
  · have hcall : (FileTree.exec cred now (.read path) u).1 = .error e := hreply
    rw [run_sys_error hcall hne]
    exact Or.inl ⟨_, rfl⟩
  · have hcall : (FileTree.exec cred now (.read path) u).1 = .ok contents := hreply
    rw [run_sys_ok hcall]
    exact Or.inr ⟨contents, rfl, hdata⟩

variable (cred now) in
/-- An archive that is refused leaves the target as it was: its directory and the extraction
    root are made, it is read, and its items are unpacked below the root. -/
theorem run_refused_archive (h : Opened clock t s place name dir handle)
    (hextract : ExtractsClear clock t place name)
    (hfile : s.get? handle = some ⟨.file bytes false, attrs⟩)
    {codec : Codec} {item : TarItem} (hitem : item ∈ codec.unpack bytes) (hrefused : item.Refused) :
    ∃ e v, (replaceWorkspaceDirectoryFromArchivePath codec clock.expand
      (canonical (stagingPos clock place))
        (canonical (place ++ [name]))).run (FileTree.exec cred now) s = (some (.error e), v) ∧
      KeptBeside s v place dir (transferName "expand" clock.expand) := by
  rw [replaceWorkspaceDirectoryFromArchivePath, extractionPath_canonical, parentOrDot_canonical,
    extractArchiveAndReplace_eq, extractArchive_eq, Prog.bind_assoc]
  have hwithin : (io (createDirAll (canonical place))).Within (Begins (extractionPos clock place))
      (fun _ _ => True) fun _ => True :=
    Prog.within_mapError (begins_createDirAll (List.prefix_append _ _))
  obtain ⟨r₁, s₁, hmake, hs₁⟩ :=
    run_begins cred now hwithin (prompt_io (prompt_createDirAll _)) (h.keptBeside hextract)
  rcases r₁ with e | _
  · exact ⟨e, s₁, Prog.run_bind_error _ hmake, hs₁⟩
  obtain ⟨r₂, u, hbare, hu⟩ := run_begins cred now (begins_bareRoot (extractionPos clock place))
    (prompt_bareRoot _) hs₁
  rw [Prog.run_bind_ok _ hmake]
  rcases r₂ with e | _
  · exact ⟨e, u, Prog.run_bind_error _ hbare, hu⟩
  rw [Prog.run_bind_ok _ hbare, Prog.bind_assoc]
  have hbegan : Began cred now s₁ u (canonical place) dir (transferName "expand" clock.expand) := by
    rw [extractionPos, canonical_concat] at hbare
    obtain ⟨dir', hbegan⟩ := bareRoot_ok hbare
    obtain rfl := Except.ok.inj (hu.lead.walk.symm.trans (FileTree.walk_onlooker hbegan.lead.walk))
    exact hbegan
  have hopens : FileTree.Opens onlooker u (canonical place) dir
      (transferName "expand" clock.expand) := by
    refine ⟨hu.lead, hbegan.isDir, fun q node hnode => ?_⟩
    rcases q with _ | ⟨first, q⟩
    · rw [List.append_nil, hbegan.root] at hnode
      rw [← Option.some.inj hnode]
      rfl
    · rw [hbegan.bare] at hnode
      cases hnode
  -- what is read is the file that was received
  have hread := run_read_found cred now fun p node hfind =>
    (found_beside hu hbegan h.found (h.beside hextract) hfile hfind).imp_left (congrArg Node.kind)
  rcases hread with ⟨e, hread⟩ | ⟨contents, hread, hdata⟩
  · exact ⟨e, u, Prog.run_bind_error _ hread, hu⟩
  · obtain ⟨e, v, hrun, hframe⟩ := run_extractItems_refused cred now hopens (hdata ▸ hitem) hrefused
    rw [Prog.run_bind_ok _ hread]
    exact ⟨e, v, Prog.run_bind_error _ hrun, hu.changed hframe⟩

variable (cred now) in
/-- The staging file is removed, and the target is as it was. -/
theorem run_unlink_staging (h : Opened clock t s place name dir handle)
    (hne : transferName "import" clock.staging ≠ name) :
    ∃ v, (ignore (sys (.unlink (canonical (stagingPos clock place)))) : Fs Status Unit).run
        (FileTree.exec cred now) s = (some (.ok ()), v) ∧
      subtreeAt onlooker v (canonical (place ++ [name])) = subtreeAt onlooker t
        (canonical (place ++ [name])) := by
  refine ⟨_, run_ignore_sys unlink_ne_wouldblock, ?_⟩
  simp only [FileTree.exec]
  rcases FileTree.unlink_cases cred s (canonical (stagingPos clock place)) with
    ⟨e, he⟩ | ⟨d, n, _, hslot, -, -, hremove⟩
  · rw [he]
    exact h.spares h.lead fun _ => rfl
  · rw [hremove]
    rw [stagingPos, canonical_concat] at hslot
    obtain ⟨rfl, rfl⟩ := h.lead.slot_eq hslot
    have hlead : FileTree.Leads onlooker (s.removeAt d (transferName "import" clock.staging))
        (canonical place) d [transferName "import" clock.staging] := h.lead.of_same fun q hq => by
      rw [FileTree.get?_removeAt, if_neg (hq _ (List.mem_singleton_self _))]
    refine h.spares hlead fun rest => ?_
    rw [FileTree.get?_removeAt, if_neg (entries_apart hne rest)]

variable (cred now) in
/-- Whatever is received, the staging file stays a file. -/
theorem file_of_receiveChunks (rest : ImportStream) (total : Nat)
    (hfile : ∃ data attrs, s.get? handle = some ⟨.file data false, attrs⟩) :
    ∃ data attrs, ((receiveChunks handle rest total).run (FileTree.exec cred now) s).2.get? handle =
      some ⟨.file data false, attrs⟩ := by
  induction rest generalizing s total with
  | nil => exact hfile
  | cons message rest ih =>
    match message with
    | .error status => exact hfile
    | .ok (.header _) => exact hfile
    | .ok .empty => exact hfile
    | .ok (.chunk chunk) =>
      obtain ⟨data, attrs, hdata⟩ := hfile
      have hwritten : (s.write now handle chunk).get? handle =
          some ⟨.file (data ++ chunk) false, { attrs with mtime := now }⟩ := by
        simp [FileTree.write, hdata, Node.withData]
      exact ih (min (total + chunk.length) (2 ^ 64 - 1)) ⟨_, _, hwritten⟩

variable (cfg : ServiceConfig) {header : ImportHeader} {rest : ImportStream}

/-- An import that is to be rejected leaves its target as it was. -/
theorem run_import_spares (cred : Cred) (now : Nat) (hroot : RootPath cfg.root)
    (hresolve : resolvePath cfg.root header.workspaceId header.targetPath =
      .ok (canonical (place ++ [name])))
    (hhome : homePos cfg.root header.workspaceId <+: place)
    (hclear : KeepsClear clock t (homePos cfg.root header.workspaceId) place name)
    (hextract : WorkspaceObjectEncoding.ofInt header.encoding = .tarGz → (payload rest).isSome →
      ExtractsClear clock t place name)
    (hrejected : Rejected cfg (.ok (.header header) :: rest)) :
    ∃ status s, (importObject cfg clock header rest).run (FileTree.exec cred now) t =
        (some (.error status), s) ∧
      subtreeAt onlooker s (canonical (place ++ [name])) = subtreeAt onlooker t
        (canonical (place ++ [name])) := by
  have hprepares := approaches_prepareTarget cfg hroot hresolve hhome
  obtain ⟨result, hresult⟩ := Option.isSome_iff_exists.mp
    (prepareTarget_isSome cred now t cfg header)
  have hs := run_approaches cred now hprepares t
  rcases hrun : (prepareTarget cfg header).run (FileTree.exec cred now) t with ⟨r, s⟩
  rw [hrun] at hresult hs
  obtain rfl : r = some result := hresult
  rw [importObject_eq, receiveObject, Prog.bind_assoc]
  rcases result with status | path
  · exact ⟨status, s, Prog.run_bind_error _ hrun, subtreeAt_approached hs hclear⟩
  obtain rfl : path = canonical (place ++ [name]) :=
    hprepares.returns (I := fun _ => True) (fun _ _ _ _ => ⟨trivial, trivial⟩) trivial
      (congrArg Prod.fst hrun)
  rw [Prog.run_bind_ok _ hrun, stagingPath_canonical, Prog.bind_assoc]
  have hwait := create_not_waiting cred now hs hclear
  rcases hcreate : FileTree.exec cred now (.create (canonical (stagingPos clock place))) s with
    ⟨e | handle, u⟩
  · have hne : e ≠ .wouldblock := fun heq => hwait (by rw [hcreate, heq])
    obtain rfl := FileTree.exec_error hcreate
    obtain ⟨status, hfail⟩ : ∃ status,
        (ioRpc (sys (.create (canonical (stagingPos clock place))))).run
        (FileTree.exec cred now) u = (some (.error status), u) := by
      rw [ioRpc, Prog.run_mapError, run_sys_error (congrArg Prod.fst hcreate) hne, hcreate]
      exact ⟨_, rfl⟩
    exact ⟨status, u, Prog.run_bind_error _ hfail, subtreeAt_approached hs hclear⟩
  have hopen : (ioRpc (sys (.create (canonical (stagingPos clock place))))).run
      (FileTree.exec cred now) s =
      (some (.ok handle), u) := by
    rw [ioRpc, Prog.run_mapError, run_sys_ok (congrArg Prod.fst hcreate), hcreate]
    rfl
  rw [Prog.run_bind_ok _ hopen, Prog.bind_assoc]
  obtain ⟨attrs, hempty, htime⟩ := node_of_create cred hcreate
  have hopened : ∀ v, (∀ q, q ≠ handle → v.get? q = u.get? q) →
      (∃ data attrs, v.get? handle = some ⟨.file data false, attrs⟩) →
      ∃ dir, Opened clock t v place name dir handle :=
    fun v hsame hfile => create_opened hs hclear hcreate hsame hfile
  rcases hpayload : payload rest with _ | bytes
  · -- the stream ends in an error
    obtain ⟨status, v, hreceive, hsame⟩ := run_receiveChunks_none cred now (s := u) hpayload 0
    have hfile := file_of_receiveChunks cred now rest 0 ⟨_, _, hempty⟩
    rw [hreceive] at hfile
    obtain ⟨dir, hv⟩ := hopened v hsame hfile
    exact ⟨status, v, Prog.run_bind_error _ hreceive, hv.spares hv.lead fun _ => rfl⟩
  obtain ⟨v, hreceive, hfile, hsame⟩ :=
    run_receiveChunks cred now htime hempty hpayload (Nat.zero_le _)
  obtain ⟨dir, hv⟩ := hopened v hsame ⟨_, _, hfile⟩
  rw [Prog.run_bind_ok _ hreceive]
  suffices hinstall : ∃ status w,
      (installObject cfg clock header (canonical (stagingPos clock place))
      (canonical (place ++ [name])) (min (0 + bytes.length) maxBytesWritten)).run
        (FileTree.exec cred now) v =
        (some (.error status), w) ∧
      subtreeAt onlooker w (canonical (place ++ [name])) =
        subtreeAt onlooker t (canonical (place ++ [name])) by
    obtain ⟨status, w, hinstall, hkept⟩ := hinstall
    refine ⟨status, w, ?_, hkept⟩
    rw [Prog.run_bind_ok _ (Prog.run_pure _ _ _), finishImport, stagingPath_canonical]
    exact Prog.run_bind_error _ hinstall
  rcases hrejected with hnone | hnone | hencoding
    | ⟨hencoding, bytes', hbytes', item, hitem, hrefused⟩
  · exact absurd hresolve (hnone _)
  · rw [hpayload] at hnone
    cases hnone
  · obtain ⟨w, hunlink, hkept⟩ := run_unlink_staging cred now hv hclear.staging_ne
    simp only [installObject, hencoding]
    exact ⟨_, w, Prog.run_bind_ok _ hunlink, hkept⟩
  · obtain rfl : bytes = bytes' := Option.some.inj (hpayload.symm.trans hbytes')
    have hspare := hextract hencoding (by rw [hpayload]; rfl)
    obtain ⟨e, w, hrun', hw⟩ := run_refused_archive cred now hv hspare hfile hitem hrefused
    simp only [installObject, hencoding]
    refine ⟨e.toStatus, w, ?_, hv.spares hw.lead fun rest =>
      hw.same _ (entries_apart hspare.extraction_ne rest)⟩
    apply Prog.run_bind_error
    rw [rpc, Prog.run_mapError, hrun']
    rfl

/-- **Rejected imports.**  An import that is to be rejected returns an error, and what its
    target leads to, strictly below the home, is exactly what it was, when the names made up
    from the clock do not lead to the target. -/
theorem rejected_import_spares_target (clock : ImportClock) (cred : Cred) (now : Nat)
    (hroot : RootPath cfg.root) (t : FileTree) (stream : ImportStream)
    (hrejected : Rejected cfg stream)
    (hclear : ∀ header rest path, stream = .ok (.header header) :: rest →
      resolvePath cfg.root header.workspaceId header.targetPath = .ok path →
      ∃ place name, path = canonical (place ++ [name]) ∧
        homePos cfg.root header.workspaceId <+: place ∧
        KeepsClear clock t (homePos cfg.root header.workspaceId) place name ∧
        (WorkspaceObjectEncoding.ofInt header.encoding = .tarGz → (payload rest).isSome →
          ExtractsClear clock t place name)) :
    ∃ status s, (doImportWorkspaceObject cfg clock stream).run (FileTree.exec cred now) t =
        (some (.error status), s) ∧
      ∀ header rest path, stream = .ok (.header header) :: rest →
        resolvePath cfg.root header.workspaceId header.targetPath = .ok path →
        subtreeAt onlooker s path = subtreeAt onlooker t path := by
  match stream with
  | [] => exact ⟨_, t, rfl, fun _ _ _ h => by cases h⟩
  | .error status :: _ => exact ⟨status, t, rfl, fun _ _ _ h => by cases h⟩
  | .ok (.chunk _) :: _ => exact ⟨_, t, rfl, fun _ _ _ h => by cases h⟩
  | .ok .empty :: _ => exact ⟨_, t, rfl, fun _ _ _ h => by cases h⟩
  | .ok (.header header) :: rest =>
    rcases hresolve : resolvePath cfg.root header.workspaceId header.targetPath with e | path
    · obtain ⟨status, hstatus⟩ :=
        run_import_unresolved cfg clock header rest cred now t fun path hpath => by
        rw [hresolve] at hpath
        cases hpath
      refine ⟨status, _, Prod.ext hstatus rfl, ?_⟩
      intro header' rest' path hstream hpath
      obtain rfl := ImportMessage.header.inj (Except.ok.inj (List.cons.inj hstream).1)
      rw [hresolve] at hpath
      cases hpath
    · obtain ⟨place, name, rfl, hhome, hkeeps, hextract⟩ := hclear header rest path rfl hresolve
      obtain ⟨status, s, hrun, hspared⟩ :=
        run_import_spares cfg cred now hroot hresolve hhome hkeeps hextract hrejected
      refine ⟨status, s, hrun, ?_⟩
      intro header' rest' path hstream hpath
      obtain rfl := ImportMessage.header.inj (Except.ok.inj (List.cons.inj hstream).1)
      obtain rfl := Except.ok.inj (hresolve.symm.trans hpath)
      exact hspared

end Spared

/-! ### Imports into one home -/

/-- An import of an archive that cannot be decoded. -/
def brokenArchive (targetPath : String) : ImportStream :=
  [.ok (.header ⟨"w1", targetPath, 2, ""⟩), .ok (.chunk [1])]

/-- The file `b` is spared by an archive that is received, and refused. -/
theorem rejected_import_spares_sampleHost : ∃ status s,
    (doImportWorkspaceObject importConfig ⟨0, 0⟩ (brokenArchive "b")).run
      (FileTree.exec rootUser 7) sampleHost = (some (.error status), s) ∧
    subtreeAt onlooker s (canonical ["srv", "w1", "home", "b"]) =
      subtreeAt onlooker sampleHost (canonical ["srv", "w1", "home", "b"]) := by
  have hroot : RootPath importConfig.root := ⟨by decide, by decide⟩
  have hresolve : resolvePath "/srv" "w1" "b" = .ok (canonical ["srv", "w1", "home", "b"]) := by
    decide
  have hlead : leadsTo sampleHost (canonical ["srv", "w1", "home"]) =
      .ok ["srv", "w1", "home"] := by decide
  have hstaging : sampleHost.target onlooker (canonical (stagingPos ⟨0, 0⟩ ["srv", "w1", "home"])) =
      .ok (.missing ["srv", "w1", "home"] ".scriptorium-import-0.tmp") := by decide
  have hlooks : ∀ q ∈ looks (sampleHost.look onlooker) maxLinks []
      (canonical (stagingPos ⟨0, 0⟩ ["srv", "w1", "home"])),
      ¬ extractionPos ⟨0, 0⟩ ["srv", "w1", "home"] <+: q := by decide
  obtain ⟨status, s, hrun, hkept⟩ :=
    rejected_import_spares_target importConfig ⟨0, 0⟩ rootUser 7 hroot
    sampleHost (brokenArchive "b")
      (Or.inr (Or.inr (Or.inr ⟨rfl, [1], rfl, _, List.mem_singleton_self _, trivial⟩)))
    (by
      rintro header rest path hstream hpath
      obtain ⟨hheader, -⟩ := List.cons.inj hstream
      obtain rfl := ImportMessage.header.inj (Except.ok.inj hheader)
      obtain rfl := Except.ok.inj (hresolve.symm.trans hpath)
      refine ⟨["srv", "w1", "home"], "b", rfl, by
        decide, ⟨by decide, ?_, ?_⟩, fun _ _ => ⟨by decide, ?_⟩⟩
      · intro dir p hdir hp
        obtain rfl := Except.ok.inj (hlead.symm.trans hdir)
        obtain rfl := Except.ok.inj (hlead.symm.trans hp)
        decide
      · intro dir found hdir hfound
        obtain rfl := Except.ok.inj (hlead.symm.trans hdir)
        obtain rfl := Except.ok.inj (hstaging.symm.trans hfound)
        refine ⟨by decide, fun node hnode => ?_⟩
        have hfree : sampleHost.get? ["srv", "w1", "home", ".scriptorium-import-0.tmp"] = none := by
          decide
        cases hfree.symm.trans hnode
      · intro dir hdir
        obtain rfl := Except.ok.inj (hlead.symm.trans hdir)
        exact hlooks)
  exact ⟨status, s, hrun, hkept _ _ _ rfl hresolve⟩

/-- A home with a file and a directory at names that an import makes up at time 0. -/
def takenHost : FileTree := .ofEntries
  [([], hostDir), (["srv"], hostDir), (["srv", "w1"], hostDir), (["srv", "w1", "home"], hostDir),
    (["srv", "w1", "home", ".scriptorium-import-0.tmp"], ⟨.file [9] false, ⟨0o644, 1000, 1000, 0⟩⟩),
    (["srv", "w1", "home", ".scriptorium-expand-0.tmp"], hostDir),
    (["srv", "w1", "home", ".scriptorium-expand-0.tmp", "a"], hostDir)]
  (by decide)

/-- A home with a link at the name of the staging file, and one to the root. -/
def misledHost : FileTree := .ofEntries
  [([], hostDir), (["srv"], hostDir), (["srv", "w1"], hostDir), (["srv", "w1", "home"], hostDir),
    (["srv", "w1", "home", "b"], ⟨.file [104, 105] false, ⟨0o644, 1000, 1000, 0⟩⟩),
    (["srv", "w1", "home", "l"], ⟨.link "/", ⟨0o777, 1000, 1000, 0⟩⟩),
    (["srv", "w1", "home", ".scriptorium-import-0.tmp"], ⟨.link "b", ⟨0o777, 1000, 1000, 0⟩⟩)]
  (by decide)

/-- What a rejected import leaves at its target, and what it finds there. -/
def leftAtTarget (t : FileTree) (stream : ImportStream) (p : Pos) : Option Node × Option Node :=
  (((doImportWorkspaceObject importConfig ⟨0, 0⟩ stream).run (FileTree.exec rootUser 7) t).2.get? p,
    t.get? p)

/-- Names and links that lead a rejected import to its target: the name of the staging file,
    that of the extraction directory, a link at the former, and a link on the way. -/
theorem rejected_import_changes_target :
    (∀ targetPath, Rejected importConfig (brokenStream targetPath) ∧
      Rejected importConfig (brokenArchive targetPath)) ∧
    (resolvePath "/srv" "w1" ".scriptorium-import-0.tmp" =
        .ok (canonical ["srv", "w1", "home", ".scriptorium-import-0.tmp"]) ∧
      leftAtTarget takenHost (brokenStream ".scriptorium-import-0.tmp")
          ["srv", "w1", "home", ".scriptorium-import-0.tmp"] =
        (some ⟨.file [1] false, ⟨0o644, 1000, 1000, 7⟩⟩,
          some ⟨.file [9] false, ⟨0o644, 1000, 1000, 0⟩⟩)) ∧
    (resolvePath "/srv" "w1" ".scriptorium-expand-0.tmp" =
        .ok (canonical ["srv", "w1", "home", ".scriptorium-expand-0.tmp"]) ∧
      leftAtTarget takenHost (brokenArchive ".scriptorium-expand-0.tmp")
          ["srv", "w1", "home", ".scriptorium-expand-0.tmp", "a"] =
        (none, some hostDir)) ∧
    (resolvePath "/srv" "w1" "b" = .ok (canonical ["srv", "w1", "home", "b"]) ∧
      leftAtTarget misledHost (brokenStream "b") ["srv", "w1", "home", "b"] =
        (some ⟨.file [1] false, ⟨0o644, 1000, 1000, 7⟩⟩,
          some ⟨.file [104, 105] false, ⟨0o644, 1000, 1000, 0⟩⟩)) ∧
    resolvePath "/srv" "w1" "l/srv" = .ok (canonical ["srv", "w1", "home", "l", "srv"]) ∧
      leftAtTarget misledHost (brokenStream "l/srv") ["srv", "w1", "home"] =
        (some ⟨.dir, ⟨0o755, 1000, 1000, 0⟩⟩, some hostDir) := by
  refine ⟨?_, ?_, ?_, ?_, ?_⟩
  · intro targetPath
    constructor
    · exact Or.inr (Or.inl rfl)
    · exact Or.inr (Or.inr (Or.inr ⟨rfl, [1], rfl, _, List.mem_singleton_self _, trivial⟩))
  all_goals exact ⟨by decide, by decide⟩

end Scriptorium
