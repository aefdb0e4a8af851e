import Scriptorium.SparedTarget

/-!
# Ways that keep to a workspace

A transfer makes the way to its target on whatever an agent has put in the home.  The way
keeps to the workspace where its path leads into it, and where what is missing of it is made
in it (`KeepsInside`); making it then changes nothing outside (`KeepsInside.mkdir`).  The home
itself stands below directories that no agent can touch (`Housed`).
-/

namespace Scriptorium

open Posix Effects

/-- Outside the workspace everything is as before. -/
def SameOutside (ws : Pos) (t s : FileTree) : Prop := ∀ q, ¬ ws <+: q → s.get? q = t.get? q

/-- A path leads to a directory. -/
def LeadsIn (t : FileTree) (path : PathBuf) (d : Pos) : Prop :=
  leadsTo t path = .ok d ∧ t.isDir d = true

/-- The path of a directory keeps to the workspace: where it leads, and where it is made. -/
structure KeepsInside (ws place : Pos) (t : FileTree) : Prop where
  ends : ∀ d, LeadsIn t (canonical place) d → ws <+: d
  made : ∀ p n d, p ++ [n] <+: place → LeadsIn t (canonical p) d →
    t.get? (d ++ [n]) = none → ws <+: d ++ [n]

/-- What is opened at a path is in the workspace, unless no file is opened there. -/
def OpensInside (ws : Pos) (t : FileTree) (path : PathBuf) : Prop :=
  ∀ found, t.target onlooker path = .ok found → ws <+: found.place ∨
    ∃ node, t.get? found.place = some node ∧ ∀ data holes, node.kind ≠ .file data holes

section Steps

variable {cred : Cred} {now : Nat} {t s u : FileTree} {ws home place way p d : Pos} {n : String}

theorem SameOutside.exec {c : FsCall} (h : SameOutside ws t s)
    (hc : ∀ p ∈ s.touched cred c, ws <+: p) : SameOutside ws t (FileTree.exec cred now c s).2 :=
  fun q hq => (FileTree.get?_exec_of_not_touched c fun p hp hpq => hq ((hc p hp).trans hpq)).trans
    (h q hq)

/-- A path that leads on has all its prefixes lead on. -/
theorem leadsTo_above {rest : Pos} (h : leadsTo s (canonical (p ++ rest)) = .ok d) :
    ∃ e, leadsTo s (canonical p) = .ok e := by
  rcases hp : leadsTo s (canonical p) with e | e
  · obtain ⟨e', he⟩ := walk_beyond hp rest
    rw [← canonical_append, ← leadsTo, h] at he
    cases he
  · exact ⟨e, rfl⟩

/-- And stands on what its prefixes lead to. -/
theorem present_above {rest : Pos} (h : leadsTo s (canonical (p ++ n :: rest)) = .ok d) {e : Pos}
    (hp : leadsTo s (canonical p) = .ok e) : s.get? (e ++ [n]) ≠ none := by
  intro hnone
  obtain ⟨e', he⟩ := walk_into_empty hp (FileTree.look_eq_absent.mpr hnone) rest
  rw [← canonical_append, ← leadsTo, h] at he
  cases he

/-- Where the entry of a directory is, by its path. -/
theorem leadsIn_of_slot {x : String} (h : s.slot cred (canonical (place ++ [x])) = .ok (d, n)) :
    LeadsIn s (canonical place) d ∧ n = x := by
  obtain ⟨hpath, hwalk, hsearch⟩ := FileTree.slot_eq_ok h
  rw [canonical_concat, List.dropLast_concat] at hwalk hpath
  have hlast := List.append_cancel_left hpath
  exact ⟨⟨FileTree.walk_onlooker hwalk, FileTree.isDir_of_look hsearch⟩, by simpa using hlast.symm⟩

/-- A path that leads to a directory has all its prefixes lead to directories. -/
theorem LeadsIn.above {rest : Pos} (h : LeadsIn s (canonical (p ++ rest)) d) :
    ∃ e, LeadsIn s (canonical p) e := by
  induction rest using List.reverseRecOn generalizing d with
  | nil => exact ⟨d, by simpa using h⟩
  | append_singleton rest m ih =>
    have hwalk := h.1
    rw [← List.append_assoc, canonical_concat] at hwalk
    obtain ⟨e, he, hsearch, -⟩ := walk_concat hwalk
    exact ih ⟨he, FileTree.isDir_of_look hsearch⟩

theorem leadsIn_of_leads {path : PathBuf} {names : List String}
    (h : FileTree.Leads cred s path d names) : LeadsIn s path d :=
  ⟨FileTree.walk_onlooker h.walk, h.isDir⟩

theorem KeepsInside.of_leads (h : leadsTo s (canonical place) = .ok d) (hd : ws <+: d) :
    KeepsInside ws place s where
  ends d' hd' := by rwa [← Except.ok.inj (h.symm.trans hd'.1)]
  made p n e hp he hnone := by
    obtain ⟨rest, rfl⟩ := hp
    rw [List.append_assoc, List.singleton_append] at h
    exact absurd hnone (present_above h he.1)

/-! ### Making the way -/

section Made

variable {attrs : Attrs} (hslot : s.slot cred (canonical p) = .ok (d, n))
  (hfree : s.get? (d ++ [n]) = none)
  (hget : ∀ q, u.get? q = if q = d ++ [n] then some ⟨.dir, attrs⟩ else s.get? q)

include hslot hfree hget

omit hslot in
theorem look_made {q : Pos} (hq : s.look onlooker q ≠ .absent) :
    u.look onlooker q = s.look onlooker q := by
  apply FileTree.look_congr
  rw [hget, if_neg]
  rintro rfl
  exact hq (FileTree.look_eq_absent.mpr hfree)

/-- A directory that is made is the end of its path. -/
theorem leadsTo_made : leadsTo u (canonical p) = .ok (d ++ [n]) := by
  obtain ⟨hpath, hwalk, hlook⟩ := FileTree.slot_eq_ok hslot
  have hnew : u.look onlooker (d ++ [n]) = .dir true := by
    apply FileTree.look_of_isDir rfl
    exact FileTree.isDir_iff.mpr ⟨_, by rw [hget, if_pos rfl], rfl⟩
  have hsearch := FileTree.search_onlooker hlook
  rw [leadsTo, hpath]
  refine walk_child (walk_extend (fun q hq => look_made hfree hget hq)
    (FileTree.walk_onlooker hwalk)) ?_ (by simp [hnew]) (by simp [hnew])
  rw [look_made hfree hget (by simp [hsearch]), hsearch]

/-- What lies beyond it on a path leads nowhere. -/
theorem eq_made {P e : Pos} (hp : p <+: P) (h : leadsTo u (canonical P) = .ok e) :
    P = p ∧ e = d ++ [n] := by
  obtain ⟨rest, rfl⟩ := hp
  cases rest with
  | nil =>
    rw [List.append_nil] at h ⊢
    exact ⟨rfl, Except.ok.inj (h.symm.trans (leadsTo_made hslot hfree hget))⟩
  | cons first rest =>
    have hempty : u.get? (d ++ [n] ++ [first]) = none := by
      rw [hget, if_neg (by simp), FileTree.get?_none_below hfree (List.prefix_append _ _)]
    exact absurd hempty (present_above h (leadsTo_made hslot hfree hget))

/-- What lies before it leads where it led. -/
theorem leads_made {P : Pos} {m : String} (hp : P ++ [m] <+: p) :
    ∃ e, leadsTo s (canonical P) = .ok e ∧ leadsTo u (canonical P) = .ok e := by
  obtain ⟨-, hwalk, -⟩ := FileTree.slot_eq_ok hslot
  have hparent : ∃ rest, leadsTo s (canonical (P ++ rest)) = .ok d := by
    obtain ⟨rest, rfl⟩ := hp
    rcases List.eq_nil_or_concat' rest with rfl | ⟨above, last, rfl⟩
    · refine ⟨[], ?_⟩
      rw [List.append_nil, canonical_concat, List.dropLast_concat] at hwalk
      rw [List.append_nil]
      exact FileTree.walk_onlooker hwalk
    · refine ⟨m :: above, ?_⟩
      rw [← List.append_assoc, canonical_concat, List.dropLast_concat, List.append_assoc] at hwalk
      exact FileTree.walk_onlooker hwalk
  obtain ⟨rest, hrest⟩ := hparent
  obtain ⟨e, he⟩ := leadsTo_above hrest
  exact ⟨e, he, walk_extend (fun q hq => look_made hfree hget hq) he⟩

/-- What is made on a path that keeps to the workspace is in it, and the path does so still. -/
theorem KeepsInside.mkdir (h : KeepsInside ws place s) (hp : p <+: place) :
    ws <+: d ++ [n] ∧ KeepsInside ws place u := by
  have hin : ws <+: d ++ [n] := by
    rcases List.eq_nil_or_concat' p with rfl | ⟨above, last, rfl⟩
    · have hlast := congrArg List.getLast? (FileTree.slot_eq_ok hslot).1
      simp [canonical] at hlast
    · obtain ⟨hd, rfl⟩ := leadsIn_of_slot hslot
      exact h.made above _ d hp hd hfree
  refine ⟨hin, fun e he => ?_, fun P m e hP he hnone => ?_⟩
  · obtain ⟨-, rfl⟩ := eq_made hslot hfree hget hp he.1
    exact hin
  · have hcases : P ++ [m] <+: p ∨ p <+: P := by
      rcases List.prefix_or_prefix_of_prefix hP hp with hbefore | hbeyond
      · exact Or.inl hbefore
      · rcases List.prefix_concat_iff.mp hbeyond with rfl | hbeyond
        · exact Or.inl List.prefix_rfl
        · exact Or.inr hbeyond
    rcases hcases with hbefore | hbeyond
    · obtain ⟨e', hs, hu⟩ := leads_made hslot hfree hget hbefore
      obtain rfl := Except.ok.inj (hu.symm.trans he.1)
      have hne : e' ≠ d ++ [n] := by
        rintro rfl
        have hsome := FileTree.isSome_of_walk (FileTree.isSome_of_isDir FileTree.isDir_root) hs
        rw [hfree] at hsome
        cases hsome
      have hdir := he.2
      rw [FileTree.isDir, hget, if_neg hne] at hdir
      apply h.made P m _ hP ⟨hs, hdir⟩
      rw [hget] at hnone
      split at hnone
      · cases hnone
      · exact hnone
    · obtain ⟨-, rfl⟩ := eq_made hslot hfree hget hbeyond he.1
      exact hin.trans (List.prefix_append _ _)

end Made

theorem missing_congr {q : Pos} (h : (u.get? q).map Node.kind = (s.get? q).map Node.kind) :
    u.get? q = none ↔ s.get? q = none := by
  rw [← Option.map_eq_none_iff (f := Node.kind), h, Option.map_eq_none_iff]

/-- What is a directory is told by the kinds of nodes. -/
theorem isDir_congr {q : Pos}
    (h : (u.get? q).map Node.kind = (s.get? q).map Node.kind) : u.isDir q = s.isDir q := by
  have hisDir : ∀ t : FileTree, t.isDir q = ((t.get? q).map Node.kind).any (· == .dir) := by
    intro t
    rw [FileTree.isDir]
    rcases t.get? q with _ | node
    · rfl
    · simp only [Option.any_some, Option.map_some]
      rcases node with ⟨_ | _ | _ | _, attrs⟩ <;> rfl
  rw [hisDir, hisDir, h]

theorem leadsIn_congr (hkinds : ∀ q, (u.get? q).map Node.kind = (s.get? q).map Node.kind)
    {path : PathBuf} (h : LeadsIn u path d) : LeadsIn s path d :=
  ⟨leadsTo_congr hkinds path ▸ h.1, (isDir_congr (hkinds d)).symm.trans h.2⟩

theorem KeepsInside.congr (h : KeepsInside ws place s)
    (hkinds : ∀ q, (u.get? q).map Node.kind = (s.get? q).map Node.kind) :
    KeepsInside ws place u where
  ends d hd := h.ends d (leadsIn_congr hkinds hd)
  made p n d hp hd hnone :=
    h.made p n d hp (leadsIn_congr hkinds hd) ((missing_congr (hkinds _)).mp hnone)

theorem OpensInside.congr {path : PathBuf} (h : OpensInside ws s path)
    (hkinds : ∀ q, (u.get? q).map Node.kind = (s.get? q).map Node.kind) :
    OpensInside ws u path := by
  intro found hfound
  have hlook : u.look onlooker = s.look onlooker :=
    funext fun q => FileTree.look_onlooker_congr (hkinds q)
  rw [FileTree.target, hlook, ← FileTree.target] at hfound
  rcases h found hfound with hin | ⟨node, hnode, hnot⟩
  · exact Or.inl hin
  · right
    have hkind := hkinds found.place
    rw [hnode, Option.map_some, Option.map_eq_some_iff] at hkind
    obtain ⟨node', hnode', hsame⟩ := hkind
    exact ⟨node', hnode', hsame ▸ hnot⟩

/-- In an empty directory a new file is opened. -/
theorem opensInside_of_empty {x : String} (hin : KeepsInside ws place s)
    (hempty : ∀ d, LeadsIn s (canonical place) d → s.get? (d ++ [x]) = none) :
    OpensInside ws s (canonical (place ++ [x])) := by
  intro found hfound
  rw [canonical_concat] at hfound
  obtain ⟨d, hwalk, hsearch, hlast⟩ := resolve_entry hfound
  have hd : LeadsIn s (canonical place) d := ⟨hwalk, FileTree.isDir_of_look hsearch⟩
  have habsent : s.look onlooker (d ++ [x]) = .absent :=
    FileTree.look_eq_absent.mpr (hempty d hd)
  left
  rcases hlast with ⟨-, rfl⟩ | ⟨path, hlink⟩ | ⟨hpresent, -⟩
  · exact (hin.ends d hd).trans (List.prefix_append _ _)
  · rw [habsent] at hlink
    cases hlink
  · exact absurd habsent hpresent

end Steps

/-! ### Until a file is opened -/

/-- Whatever else stands in the directory may be removed, and made, by the caller. -/
def MayChange (cred : Cred) (place : Pos) (s : FileTree) : Prop :=
  ∀ d, LeadsIn s (canonical place) d → s.allows cred d .write = true

/-- The way to a target has been made as far as it has, and nothing outside is changed.  What
    is then opened is in the workspace, or it is unlinked before. -/
structure Entering (cred : Cred) (ws home place : Pos) (unlinks : Prop) (x : String)
    (t s : FileTree) : Prop where
  outside : SameOutside ws t s
  home : ∀ d, leadsTo s (canonical home) = .ok d → ws <+: d
  keeps : KeepsInside ws place s
  opens : OpensInside ws s (canonical (place ++ [x])) ∨ unlinks ∧ MayChange cred place s

/-- The calls that make the way to an entry of a directory below the home. -/
def Enters (home place : Pos) (c : FsCall) : Prop :=
  (∃ p, p <+: place ∧ (c = .mkdir (canonical p) ∨ c = .fileType (canonical p))) ∨
    (∃ uid gid, c = .chown (canonical home) uid gid) ∨ c = .chmod (canonical home) 0o777

section Entering

variable {cred : Cred} {now : Nat} {t s : FileTree} {ws home place p : Pos} {unlinks : Prop}
  {x : String} {c : FsCall}

theorem Entering.setAttrs (h : Entering cred ws home place unlinks x t s) {node : Node}
    {f : Attrs → Attrs} (hfind : s.find cred (canonical home) = .ok (p, node))
    (hmay : cred.may node.attrs .write = true → cred.may (f node.attrs) .write = true) :
    Entering cred ws home place unlinks x t (s.setAttrs p f) where
  outside q hq := by
    rw [FileTree.get?_setAttrs, if_neg]
    · exact h.outside q hq
    · rintro rfl
      exact hq (h.home _ (FileTree.walk_onlooker (FileTree.find_eq_ok hfind).1))
  home d hd := h.home d (leadsTo_congr (kind_setAttrs s p · f) _ ▸ hd)
  keeps := h.keeps.congr (kind_setAttrs s p · f)
  opens := by
    refine h.opens.imp (fun hopens => hopens.congr (kind_setAttrs s p · f)) fun hmany => ?_
    refine ⟨hmany.1, fun d hd => ?_⟩
    have hwrite := hmany.2 d (leadsIn_congr (kind_setAttrs s p · f) hd)
    rw [FileTree.allows, FileTree.get?_setAttrs]
    rw [FileTree.allows] at hwrite
    split
    · rename_i heq
      rw [heq, (FileTree.find_eq_ok hfind).2, Option.any_some] at hwrite
      rw [heq, (FileTree.find_eq_ok hfind).2, Option.map_some, Option.any_some]
      exact hmay hwrite
    · exact hwrite

theorem may_of_open (attrs : Attrs) (cred : Cred) :
    cred.may { attrs with mode := 0o777 } .write = true := by
  have hbits : Nat.testBit 0o777 7 = true ∧ Nat.testBit 0o777 4 = true ∧
      Nat.testBit 0o777 1 = true := by decide
  simp only [Cred.may, Access.bit]
  split
  · simp [hbits.1]
  · split
    · simp [hbits.2.1]
    · simp [hbits.2.2]

/-- A directory keeps its owner, unless the service may do anything. -/
theorem may_of_chown {attrs : Attrs} {uid gid : Nat}
    (hallowed : (cred.privileged || (cred.uid == attrs.uid && uid == attrs.uid &&
      (gid == cred.gid || gid == attrs.gid))) = true) (hmay : cred.may attrs .write = true) :
    cred.may { attrs with uid, gid } .write = true := by
  rcases Bool.or_eq_true_iff.mp hallowed with hprivileged | howner
  · exact Cred.may_of_privileged hprivileged _ _
  · simp only [Bool.and_eq_true, beq_iff_eq] at howner
    obtain ⟨⟨hown, rfl⟩, -⟩ := howner
    simpa [Cred.may, hown] using hmay

theorem entering_exec (hhome : home <+: place) (hc : Enters home place c)
    (h : Entering cred ws home place unlinks x t s) :
    Entering cred ws home place unlinks x t (FileTree.exec cred now c s).2 := by
  rcases hc with ⟨p, hp, rfl | rfl⟩ | ⟨uid, gid, rfl⟩ | rfl
  · simp only [FileTree.exec]
    rcases FileTree.mkdir_cases cred now s (canonical p) with
      ⟨e, he⟩ | ⟨d, n, hdir, hfree, hname, hslot, hadd⟩
    · rwa [he]
    rw [hadd]
    have hget : ∀ q, (s.add d n ⟨.dir, FileTree.newAttrs cred now 0o777⟩ hdir hfree hname).get? q =
        if q = d ++ [n] then some ⟨.dir, FileTree.newAttrs cred now 0o777⟩ else s.get? q :=
      fun _ => FileTree.get?_add
    obtain ⟨hin, hkeeps⟩ := h.keeps.mkdir hslot hfree hget hp
    refine ⟨fun q hq => ?_, fun e he => ?_, hkeeps, Or.inl ?_⟩
    · rw [hget, if_neg]
      · exact h.outside q hq
      · rintro rfl
        exact hq hin
    · rcases List.prefix_or_prefix_of_prefix hhome hp with ⟨rest, rfl⟩ | hbeyond
      · rcases rest with _ | ⟨m, rest⟩
        · rw [List.append_nil] at hslot
          obtain ⟨-, rfl⟩ := eq_made hslot hfree hget List.prefix_rfl he
          exact hin
        · have hbefore : home ++ [m] <+: home ++ m :: rest := ⟨rest, by simp⟩
          obtain ⟨e', hs, hu⟩ := leads_made hslot hfree hget hbefore
          obtain rfl := Except.ok.inj (hu.symm.trans he)
          exact h.home _ hs
      · obtain ⟨-, rfl⟩ := eq_made hslot hfree hget hbeyond he
        exact hin
    · apply opensInside_of_empty hkeeps
      intro e he
      obtain ⟨-, rfl⟩ := eq_made hslot hfree hget hp he.1
      rw [hget, if_neg (by simp), FileTree.get?_none_below hfree (List.prefix_append _ _)]
  · exact h
  · simp only [FileTree.exec, FileTree.chown]
    split
    · exact h
    · rename_i q node hfind
      split
      · rename_i hallowed
        exact h.setAttrs (f := fun attrs => { attrs with uid, gid }) hfind
          (may_of_chown hallowed)
      · exact h
  · simp only [FileTree.exec]
    rcases FileTree.chmod_cases cred s (canonical home) (fun attrs => { attrs with mode := 0o777 })
      with ⟨e, he⟩ | ⟨p, node, hfind, hset⟩
    · rwa [he]
    · rw [hset]
      exact h.setAttrs (f := fun attrs => { attrs with mode := 0o777 }) hfind
        fun _ => may_of_open _ _

end Entering

/-! ### The home -/

/-- Above the home of a workspace stand directories, and nothing beside it is a link. -/
structure Housed (root id : String) (t : FileTree) : Prop where
  rootDir : t.isDir (rootPos root) = true
  workspace : ∀ node, t.get? (workspacePos root id) = some node → node.isLink = false
  entries : ∀ x node, t.get? (workspacePos root id ++ [x]) = some node → node.isLink = false

section Housed

variable {cred : Cred} {now : Nat} {t s : FileTree} {root id : String} {place d : Pos}
  {n x : String} {c : FsCall}

theorem Housed.leads_root (h : Housed root id s) :
    leadsTo s (canonical (rootPos root)) = .ok (rootPos root) := by
  have hlook : ∀ q, q <+: rootPos root → s.look onlooker q = .dir true := by
    intro q hq
    apply FileTree.look_of_isDir rfl
    by_cases heq : q = rootPos root
    · rw [heq]
      exact h.rootDir
    · exact FileTree.isDir_above (FileTree.isSome_of_isDir h.rootDir) hq heq
  apply walk_canonical fun q hq _ => hlook q hq
  · rw [hlook _ List.prefix_rfl]
    simp
  · rw [hlook _ List.prefix_rfl]
    simp

/-- An entry that is no link is where its path leads. -/
theorem leads_entry {place : Pos} (hwalk : ∀ e, leadsTo s (canonical place) = .ok e → e = place)
    (hplain : ∀ node, s.get? (place ++ [n]) = some node → node.isLink = false)
    (h : leadsTo s (canonical (place ++ [n])) = .ok d) : d = place ++ [n] := by
  rw [canonical_concat, leadsTo, walk_eq_ok] at h
  obtain ⟨e, he, -, hlast⟩ := resolve_entry h
  obtain rfl := hwalk e he
  rcases hlast with ⟨-, hmissing⟩ | ⟨path, hlink⟩ | ⟨-, hfound⟩
  · cases hmissing
  · obtain ⟨node, hnode⟩ := Option.ne_none_iff_exists'.mp fun hnone => by
      rw [FileTree.look_eq_absent.mpr hnone] at hlink
      cases hlink
    exact absurd hlink (FileTree.look_entry_ne_link hnode (hplain node hnode) path)
  · exact Target.found.inj hfound

theorem Housed.leads_workspace (h : Housed root id s)
    (hd : leadsTo s (canonical (workspacePos root id)) = .ok d) : d = workspacePos root id :=
  leads_entry (fun _ he => (Except.ok.inj (h.leads_root.symm.trans he)).symm) h.workspace hd

theorem homePos_eq (root id : String) : homePos root id = workspacePos root id ++ ["home"] := by
  simp [homePos, workspacePos]

theorem Housed.leads_home (h : Housed root id s)
    (hd : leadsTo s (canonical (homePos root id)) = .ok d) : d = homePos root id := by
  rw [homePos_eq] at hd ⊢
  exact leads_entry (fun e he => h.leads_workspace he) (h.entries _) hd

/-- What is made for the home is the directory of the workspace, and the home. -/
theorem Housed.made (h : Housed root id s) {p : Pos} (hp : p <+: homePos root id)
    (hslot : s.slot cred (canonical p) = .ok (d, n)) (hfree : s.get? (d ++ [n]) = none) :
    d ++ [n] = workspacePos root id ∨ d ++ [n] = homePos root id := by
  rw [homePos_eq, workspacePos] at hp
  rcases List.prefix_concat_iff.mp hp with rfl | hp
  · obtain ⟨hd, rfl⟩ := leadsIn_of_slot hslot
    rw [h.leads_workspace hd.1, homePos_eq]
    exact Or.inr rfl
  · rcases List.prefix_concat_iff.mp hp with rfl | hp
    · obtain ⟨hd, rfl⟩ := leadsIn_of_slot hslot
      rw [← Except.ok.inj (h.leads_root.symm.trans hd.1)]
      exact Or.inl rfl
    · exact absurd hfree (not_made_above hp h.leads_root hslot)

/-- Where nothing outside changes, and no link is made, it stays housed. -/
theorem Housed.of_same (h : Housed root id s) {u : FileTree}
    (hsame : SameOutside (workspacePos root id) s u)
    (hlinks : ∀ q node, u.get? q = some node → node.isLink = true →
      ∃ old, s.get? q = some old ∧ old.isLink = true) : Housed root id u := by
  have hplain : ∀ q node, (∀ old, s.get? q = some old → old.isLink = false) →
      u.get? q = some node → node.isLink = false := by
    intro q node hold hnode
    by_contra hlink
    obtain ⟨old, hthere, hold'⟩ := hlinks q node hnode (by simpa using hlink)
    rw [hold old hthere] at hold'
    cases hold'
  refine ⟨?_, fun node hnode => hplain _ node h.workspace hnode,
    fun x node hnode => hplain _ node (h.entries x) hnode⟩
  rw [FileTree.isDir, hsame _ (not_entry_above _ id)]
  exact h.rootDir

variable (cred now) in
theorem touched_housed (h : Housed root id s) (hc : Enters (homePos root id) (homePos root id) c) :
    (FileTree.exec cred now c s).2 = s ∨
      ∀ p ∈ s.touched cred c, workspacePos root id <+: p := by
  have hhome : workspacePos root id <+: homePos root id := by
    rw [homePos_eq]
    exact List.prefix_append _ _
  have hfound : ∀ p ∈ s.touched cred (.chmod (canonical (homePos root id)) 0o777),
      workspacePos root id <+: p := by
    intro p hp
    rcases hfind : s.find cred (canonical (homePos root id)) with e | ⟨q, node⟩
    · simp only [FileTree.touched, hfind, List.not_mem_nil] at hp
    · simp only [FileTree.touched, hfind, List.mem_singleton] at hp
      rw [hp, h.leads_home (FileTree.walk_onlooker (FileTree.find_eq_ok hfind).1)]
      exact hhome
  rcases hc with ⟨p, hp, rfl | rfl⟩ | ⟨uid, gid, rfl⟩ | rfl
  · simp only [FileTree.exec]
    rcases FileTree.mkdir_cases cred now s (canonical p) with
      ⟨e, he⟩ | ⟨d, n, _, hfree, _, hslot, -⟩
    · rw [he]
      exact Or.inl rfl
    · right
      intro q hq
      simp only [FileTree.touched, hslot, List.mem_singleton] at hq
      rcases h.made hp hslot hfree with heq | heq
      · rw [hq, heq]
      · rwa [hq, heq]
  · exact Or.inl rfl
  · exact Or.inr hfound
  · exact Or.inr hfound

/-- Nothing outside the workspace is changed, and it is housed still. -/
theorem housed_exec (hc : Enters (homePos root id) (homePos root id) c)
    (h : SameOutside (workspacePos root id) t s ∧ Housed root id s) :
    SameOutside (workspacePos root id) t (FileTree.exec cred now c s).2 ∧
      Housed root id (FileTree.exec cred now c s).2 := by
  have hsame : SameOutside (workspacePos root id) s (FileTree.exec cred now c s).2 := by
    rcases touched_housed cred now h.2 hc with hstate | htouched
    · rw [hstate]
      exact fun _ _ => rfl
    · exact SameOutside.exec (fun _ _ => rfl) htouched
  refine ⟨fun q hq => (hsame q hq).trans (h.1 q hq), h.2.of_same hsame fun q node hnode hlink => ?_⟩
  rcases FileTree.link_of_exec hnode hlink with hold | ⟨_, _, _, _, _, _, rfl, -⟩
  · exact hold
  · rcases hc with ⟨p, -, hc | hc⟩ | ⟨_, _, hc⟩ | hc
    all_goals cases hc

theorem Housed.keepsInside (h : Housed root id s) :
    KeepsInside (workspacePos root id) (workspacePos root id) s where
  ends d hd := by rw [h.leads_workspace hd.1]
  made p n d hp hd hnone := by
    rcases List.prefix_concat_iff.mp hp with heq | hp
    · obtain ⟨rfl, hn⟩ := List.append_inj' heq rfl
      rw [← Except.ok.inj (h.leads_root.symm.trans hd.1), hn]
      exact List.prefix_rfl
    · obtain ⟨rest, hrest⟩ := hp
      have hroot := h.leads_root
      rw [← hrest, List.append_assoc, List.singleton_append] at hroot
      exact absurd hnone (present_above hroot hd.1)

/-- An entry of the directory of a workspace is opened where it stands. -/
theorem Housed.opensInside (h : Housed root id s) (x : String) :
    OpensInside (workspacePos root id) s (canonical (workspacePos root id ++ [x])) := by
  intro found hfound
  left
  rw [canonical_concat] at hfound
  obtain ⟨d, hwalk, -, hlast⟩ := resolve_entry hfound
  obtain rfl := h.leads_workspace hwalk
  rcases hlast with ⟨-, rfl⟩ | ⟨path, hlink⟩ | ⟨-, rfl⟩
  · exact List.prefix_append _ _
  · obtain ⟨node, hnode⟩ := Option.ne_none_iff_exists'.mp fun hnone => by
      rw [FileTree.look_eq_absent.mpr hnone] at hlink
      cases hlink
    exact absurd hlink (FileTree.look_entry_ne_link hnode (h.entries x node hnode) path)
  · exact List.prefix_append _ _

/-- The home is there, if a way from it does not keep to the workspace. -/
theorem Housed.home_there (h : Housed root id t)
    (hhome : homePos root id <+: place) (hout : ¬ KeepsInside (workspacePos root id) place t) :
    LeadsIn t (canonical (homePos root id)) (homePos root id) := by
  by_contra hno
  have hbelow : ∀ p d, homePos root id <+: p → ¬ LeadsIn t (canonical p) d := by
    rintro p d ⟨rest, rfl⟩ hd
    obtain ⟨e, he⟩ := hd.above
    obtain rfl := h.leads_home he.1
    exact hno he
  apply hout
  refine ⟨fun d hd => absurd hd (hbelow _ d hhome), fun p n d hp hd hfree => ?_⟩
  have habove : p ++ [n] <+: homePos root id := by
    rcases List.prefix_or_prefix_of_prefix hp hhome with habove | hbelow'
    · exact habove
    · rcases List.prefix_concat_iff.mp hbelow' with heq | hpre
      · rw [heq]
      · exact absurd hd (hbelow p d hpre)
  rw [homePos_eq] at habove
  rcases List.prefix_concat_iff.mp habove with heq | habove
  · obtain ⟨rfl, -⟩ := List.append_inj' heq rfl
    rw [h.leads_workspace hd.1]
    exact List.prefix_append _ _
  · exact h.keepsInside.made p n d habove hd hfree

/-- Beside what is outside there is no workspace, if the workspace is there. -/
theorem not_inside_of_missing (hthere : t.isDir (homePos root id) = true)
    (hout : ¬ workspacePos root id <+: d) (hfree : t.isDir (d ++ [n]) = false) :
    ¬ workspacePos root id <+: d ++ [n] := by
  intro hpre
  rcases List.prefix_concat_iff.mp hpre with heq | hpre
  · have hdir : t.isDir (workspacePos root id) = true := by
      rw [homePos_eq] at hthere
      exact FileTree.isDir_above (FileTree.isSome_of_isDir hthere) (List.prefix_append _ _)
        (by simp)
    rw [heq, hfree] at hdir
    cases hdir
  · exact hout hpre

end Housed

end Scriptorium
