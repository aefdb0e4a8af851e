import Scriptorium.Secrecy
import Scriptorium.Transfer
import Scriptorium.ListFiles

/-!
# What packing a directory discloses

The builder's loop is judged item by item: as long as the paths of its stack
resolve inside the directory at `W` it is confined, and the first one that does
not makes it split, be it a link that looks outside or one that leads to a
directory on the way to `W`.
-/

namespace Scriptorium

open Posix Effects

variable {cred : Cred} {now : Nat} {W : Pos} {t : FileTree}

/-! ### Questions and calls inside -/

theorem confined_isDir {ε : Type} {path : PathBuf} (h : t.WalkInside cred W path) :
    Confined cred now W (isDir path : Fs ε Bool) t := by
  intro c hc
  rw [calls_isDir, List.mem_singleton] at hc
  subst hc
  exact h

theorem run_walksInto {src : PathBuf} {item : Pending} :
    (walksInto src item).run (FileTree.exec cred now) t =
      (some (.ok (item.isDir || (item.isSymlink && dirAt cred t src))), t) := by
  unfold walksInto
  cases hdir : item.isDir with
  | true => rfl
  | false =>
    cases hlink : item.isSymlink with
    | true =>
      rw [if_neg (by simp), if_pos rfl, run_isDir]
      simp
    | false => rfl

theorem confined_walksInto {src : PathBuf} {item : Pending} (h : t.WalkInside cred W src) :
    Confined cred now W (walksInto src item) t := by
  unfold walksInto
  split
  · exact confined_pure true
  · split
    · exact confined_isDir h
    · exact confined_pure false

theorem dirAt_of_walk_error {src : PathBuf} {e : Errno}
    (h : walk (t.look cred) maxLinks [] src = .error e) : dirAt cred t src = false := by
  simp [dirAt, FileTree.find, h]

theorem isDir_of_dirAt {src : PathBuf} {p : Pos} (h : dirAt cred t src = true)
    (hp : walk (t.look cred) maxLinks [] src = .ok p) : t.isDir p = true := by
  obtain ⟨node, hnode, hfind⟩ := FileTree.find_of_walk hp
  rw [dirAt, hfind] at h
  exact FileTree.isDir_iff.mpr ⟨node, hnode, h⟩

theorem dirAt_of_isDir {src : PathBuf} {p : Pos} (h : t.isDir p = true)
    (hp : walk (t.look cred) maxLinks [] src = .ok p) : dirAt cred t src = true := by
  obtain ⟨node, hnode, hfind⟩ := FileTree.find_of_walk hp
  obtain ⟨node', hnode', hdir⟩ := FileTree.isDir_iff.mp h
  rw [hnode] at hnode'
  rw [dirAt, hfind, Option.some.inj hnode']
  exact hdir

/-! ### Failing runs -/

/-- An item whose path leads nowhere ends the loop with the error of its path. -/
theorem run_appendLoop_error {source : PathBuf} {rootName : String} {fuel : Nat} {item : Pending}
    {stack : List Pending} {out : List TarEntry} {e : Errno} (he : e ≠ .wouldblock)
    (h : walk (t.look cred) maxLinks [] (source ++ item.names.map .normal) = .error e) :
    (appendLoop source rootName (fuel + 1) (item :: stack) out).run (FileTree.exec cred now) t =
      (some (.error (.os e)), t) := by
  rw [appendLoop, Prog.run_bind_ok _ run_walksInto, dirAt_of_walk_error h, Bool.and_false,
    Bool.or_false]
  cases item.isDir with
  | true =>
    rw [if_pos rfl]
    refine Prog.run_bind_error _ ?_
    rw [appendDir]
    exact Prog.run_bind_error _ (run_sys_of_walk_error (Or.inr (Or.inr (Or.inl rfl))) he h)
  | false =>
    rw [if_neg (by simp)]
    refine Prog.run_bind_error _ ?_
    rw [appendOther]
    exact Prog.run_bind_error _ (run_sys_of_walk_error (Or.inr (Or.inl rfl)) he h)

theorem splits_appendLoop_of_walk {source : PathBuf} {rootName : String} {fuel : Nat}
    {item : Pending} {stack : List Pending} {out : List TarEntry}
    (hproper : ProperNames (source ++ item.names.map .normal))
    (hout : ¬ t.WalkInside cred W (source ++ item.names.map .normal)) :
    Splits cred now W (OsApart id)
      (appendLoop source rootName (fuel + 1) (item :: stack) out) t := by
  obtain ⟨t₁, t₂, h₁, h₂, hnoent, hloop⟩ := FileTree.walk_differs hproper hout
  refine ⟨t₁, t₂, _, _, h₁, h₂, ⟨.noent, .loop, by decide, rfl, rfl⟩, ?_, ?_⟩
  · rw [run_appendLoop_error (by decide) hnoent]
    rfl
  · rw [run_appendLoop_error (by decide) hloop]
    rfl

/-! ### The loop -/

/-- What the loop knows about an item of its stack. -/
structure ItemOk (cred : Cred) (W : Pos) (t : FileTree) (source : PathBuf) (item : Pending) :
    Prop where
  proper : ∀ name ∈ item.names, Proper name
  inside : item.isSymlink = false →
    t.WalkInside cred W (source ++ item.names.map .normal)
  real : item.isSymlink = true → (t.get? W).isSome ∧ item.isDir = false
  dir : item.isDir = true → ∀ p,
    walk (t.look cred) maxLinks [] (source ++ item.names.map .normal) = .ok p → t.isDir p = true
  other : item.isDir = false → item.isSymlink = false → ∀ p,
    walk (t.look cred) maxLinks [] (source ++ item.names.map .normal) = .ok p → W <+: p

theorem itemOk_child {source : PathBuf} {item : Pending} {p : Pos} {entry : String × FileType}
    (hnames : ∀ name ∈ item.names, Proper name)
    (hsrc : t.WalkInside cred W (source ++ item.names.map .normal))
    (hp : walk (t.look cred) maxLinks [] (source ++ item.names.map .normal) = .ok p)
    (hin : W <+: p) (hentry : entry ∈ t.entries p) :
    ItemOk cred W t source (pendingOf item.names entry) := by
  obtain ⟨child, hchild, htype⟩ := FileTree.mem_entries.mp hentry
  have hpath : source ++ (pendingOf item.names entry).names.map .normal =
      source ++ item.names.map .normal ++ [.normal entry.1] := by simp [pendingOf]
  have hlink : entry.2 ≠ .symlink → ∀ target, t.look cred (p ++ [entry.1]) ≠ .link target := by
    intro hne target hlook
    simp only [FileTree.look, hchild, Node.view] at hlook
    rw [← htype, Node.fileType] at hne
    cases hkind : child.kind <;> simp_all
  have hw : (t.get? W).isSome :=
    FileTree.isSome_above (q := p ++ [entry.1]) (by simp [hchild])
      (hin.trans (List.prefix_append p _))
  refine ⟨?_, ?_, ?_, ?_, ?_⟩
  · intro name hname
    rcases List.mem_append.mp hname with hname | hname
    · exact hnames name hname
    · rw [List.mem_singleton.mp hname]
      exact FileTree.proper_of_mem_entries hentry
  · intro hsymlink
    rw [hpath]
    exact (hsrc.child entry.1 hp hin (hlink (by simpa [pendingOf] using hsymlink))).1
  · intro hsymlink
    have htype' : entry.2 = .symlink := by simpa [pendingOf] using hsymlink
    exact ⟨hw, by simp [pendingOf, htype']⟩
  · intro hdir q hq
    have htype' : entry.2 = .dir := by simpa [pendingOf] using hdir
    rw [hpath] at hq
    rw [(hsrc.child entry.1 hp hin (hlink (by simp [htype']))).2 q hq]
    refine FileTree.isDir_iff.mpr ⟨child, hchild, ?_⟩
    rw [htype', Node.fileType] at htype
    cases hkind : child.kind <;> simp_all [Node.isDir]
  · intro hdir hsymlink q hq
    rw [hpath] at hq
    rw [(hsrc.child entry.1 hp hin (hlink (by simpa [pendingOf] using hsymlink))).2 q hq]
    exact hin.trans (List.prefix_append p _)

theorem run_sys_stat {src : PathBuf} {p : Pos} {node : Node}
    (hwalk : walk (t.look cred) maxLinks [] src = .ok p) (hnode : t.get? p = some node) :
    (sys (.stat src)).run (FileTree.exec cred now) t = (some (.ok node.info), t) := by
  refine run_sys_ok ?_
  simp [FileTree.exec, FileTree.find, hwalk, hnode, Except.map]

/-- One turn of the loop through a directory. -/
theorem run_appendLoop_dir (hcred : cred.privileged = true) {source : PathBuf} {rootName : String}
    {fuel : Nat} {item : Pending} {stack : List Pending} {out : List TarEntry} {p : Pos}
    {node : Node}
    (hwalk : walk (t.look cred) maxLinks [] (source ++ item.names.map .normal) = .ok p)
    (hnode : t.get? p = some node) (hdir : node.isDir = true)
    (hinto : item.isDir = true ∨ item.isSymlink = true) :
    (appendLoop source rootName (fuel + 1) (item :: stack) out).run (FileTree.exec cred now) t =
      (appendLoop source rootName fuel
        (((t.entries p).map (pendingOf item.names)).reverse ++ stack)
        (out ++ [entryOf (rootName :: item.names) .directory node.info []])).run
          (FileTree.exec cred now) t := by
  have hp : t.isDir p = true := FileTree.isDir_iff.mpr ⟨node, hnode, hdir⟩
  have hb : (item.isDir || (item.isSymlink &&
      dirAt cred t (source ++ item.names.map .normal))) = true := by
    rcases hinto with h | h <;> simp [h, dirAt_of_isDir hp hwalk]
  rw [appendLoop, Prog.run_bind_ok _ run_walksInto, hb, if_pos rfl, appendDir]
  refine Prog.run_bind_ok (a :=
    (t.entries p, entryOf (rootName :: item.names) .directory node.info [])) _ ?_
  rw [Prog.run_bind_ok _ (run_readDir hcred hwalk hp),
    Prog.run_bind_ok _ (run_sys_stat hwalk hnode)]
  rfl

/-- A directory on the way to `W` is not listed in secret: what else it holds
    decides how the loop ends. -/
theorem splits_appendLoop_of_listing (hcred : cred.privileged = true) {source : PathBuf}
    {rootName : String} {fuel : Nat} {item : Pending} {stack : List Pending} {out : List TarEntry}
    {p : Pos} (hsrc : t.WalkInside cred W (source ++ item.names.map .normal))
    (hwalk : walk (t.look cred) maxLinks [] (source ++ item.names.map .normal) = .ok p)
    (hspare : walk (t.look cred) (maxLinks - 1) [] (source ++ item.names.map .normal) = .ok p)
    (hdir : t.isDir p = true) (hinto : item.isDir = true ∨ item.isSymlink = true)
    (hup : p <+: W) (hne : p ≠ W) :
    Splits cred now W (OsApart id)
      (appendLoop source rootName (fuel + 2) (item :: stack) out) t := by
  obtain ⟨name, target, t₁, t₂, htwins⟩ := FileTree.exists_twins cred hdir hup hne
  obtain ⟨hwalk₁, hwalk₂⟩ := htwins.walk_differs hspare (FileTree.look_of_isDir hcred hdir)
  obtain ⟨node, hnode, hnodeDir⟩ := FileTree.isDir_iff.mp hdir
  have hself : p ≠ p ++ [name] := by simp
  -- in both trees the fresh entry is listed last, and therefore taken first
  have hfail : ∀ (s : FileTree) (text : String) (e : Errno), FileTree.SameInside cred W t s →
      s.get? p = some node → s.get? (p ++ [name]) = some (FileTree.linkTo text) →
      s.children p = t.children p ++ [name] → e ≠ .wouldblock →
      walk (s.look cred) maxLinks [] (source ++ item.names.map .normal ++ [.normal name]) =
        .error e →
      ((appendLoop source rootName (fuel + 2) (item :: stack) out).run
        (FileTree.exec cred now) s).1 = some (.error (.os e)) := by
    intro s text e hs hsp hsname hslist he hswalk
    have hwalk' : walk (s.look cred) maxLinks [] (source ++ item.names.map .normal) = .ok p := by
      rw [← hs.walk_eq hsrc]
      exact hwalk
    have hlast : s.entries p =
        (t.children p).filterMap (fun n =>
          (s.get? (p ++ [n])).map fun child => (n, child.fileType)) ++ [(name, .symlink)] := by
      rw [FileTree.entries, hslist, List.filterMap_append]
      simp [hsname, FileTree.linkTo, Node.fileType]
    rw [run_appendLoop_dir hcred hwalk' hsp hnodeDir hinto, hlast, List.map_append,
      List.reverse_append, List.map_singleton, List.reverse_singleton, List.append_assoc,
      List.singleton_append, run_appendLoop_error he]
    simpa [pendingOf] using hswalk
  refine ⟨t₁, t₂, _, _, htwins.same₁, htwins.same₂, ⟨.noent, .loop, by decide, rfl, rfl⟩, ?_, ?_⟩
  · refine hfail t₁ target .noent htwins.same₁ ?_ ?_ htwins.children₁ (by decide) hwalk₁
    · rw [htwins.get?₁, if_neg hself, hnode]
    · rw [htwins.get?₁, if_pos rfl]
  · refine hfail t₂ name .loop htwins.same₂ ?_ ?_ htwins.children₂ (by decide) hwalk₂
    · rw [htwins.get?₂, if_neg hself, hnode]
    · rw [htwins.get?₂, if_pos rfl]

/-- An item whose path stays inside, and does not lead to a directory on the way
    to `W`, is looked at in private. -/
theorem confined_appendOther {src : PathBuf} {dest : Pos} (hsrc : t.WalkInside cred W src)
    (hin : ∀ p, walk (t.look cred) maxLinks [] src = .ok p → W <+: p) :
    Confined cred now W (appendOther src dest) t := by
  refine confined_bind (confined_sys.mpr ⟨hsrc, hin⟩) fun info _ => ?_
  split
  · refine confined_bind (confined_sys.mpr ⟨hsrc, hin⟩) fun contents _ => ?_
    exact confined_pure _
  · exact confined_pure _
  · exact confined_throw _

theorem confined_appendDir {src : PathBuf} {dest : Pos} (hsrc : t.WalkInside cred W src)
    (hin : ∀ p, walk (t.look cred) maxLinks [] src = .ok p → W <+: p) :
    Confined cred now W (appendDir src dest) t := by
  refine confined_bind (confined_sys.mpr ⟨hsrc, hin⟩) fun children _ => ?_
  refine confined_bind (confined_sys.mpr ⟨hsrc, hin⟩) fun info _ => ?_
  exact confined_pure _

/-- The directories on the way to an existing `W` are the only positions that are
    visible without being inside. -/
theorem inside_of_not_dir {p : Pos} (hp : Visible W p) (hW : (t.get? W).isSome)
    (hdir : t.isDir p = false) : W <+: p := by
  rcases hp with hp | hp
  · exact hp
  · by_cases hne : p = W
    · exact hne ▸ List.prefix_rfl
    · rw [FileTree.isDir_above hW hp hne] at hdir
      cases hdir

/-- A listing through a path that has used up its links. -/
theorem exhausts_appendLoop {source : PathBuf} {rootName : String} {fuel : Nat} {item : Pending}
    {stack : List Pending} {out : List TarEntry}
    (hinto : (item.isDir || (item.isSymlink &&
      dirAt cred t (source ++ item.names.map .normal))) = true)
    (hspent : walk (t.look cred) (maxLinks - 1) [] (source ++ item.names.map .normal) ≠
      walk (t.look cred) maxLinks [] (source ++ item.names.map .normal)) :
    Exhausts cred now (appendLoop source rootName (fuel + 1) (item :: stack) out) t := by
  refine ⟨(.readDir (source ++ item.names.map .normal), t), ?_, _, rfl, hspent⟩
  rw [appendLoop, Prog.calls_bind, run_walksInto, hinto]
  refine List.mem_append_right _ ?_
  simp only [if_true]
  rw [Prog.calls_bind, appendDir, Prog.calls_bind, calls_sys]
  simp

/-- **The loop that packs a directory is confined, or it splits.** -/
theorem judged_appendLoop (hcred : cred.privileged = true) {source : PathBuf}
    (hsource : ProperNames source) {rootName : String} (fuel : Nat) (stack : List Pending)
    (out : List TarEntry) (hstack : ∀ item ∈ stack, ItemOk cred W t source item) :
    Judged cred now W (OsApart id) (appendLoop source rootName fuel stack out)
      (appendLoop source rootName (fuel + 1) stack out) t := by
  induction fuel generalizing stack out with
  | zero =>
    cases stack with
    | nil => exact judged_of_confined (confined_pure out)
    | cons item stack => exact judged_of_confined confined_spin
  | succ fuel ih =>
    cases stack with
    | nil => exact judged_of_confined (confined_pure out)
    | cons item stack =>
      rw [List.forall_mem_cons] at hstack
      obtain ⟨hitem, hstack⟩ := hstack
      have hproper : ProperNames (source ++ item.names.map .normal) := by
        intro name hname
        rcases List.mem_append.mp hname with hname | hname
        · exact hsource name hname
        · obtain ⟨n, hn, heq⟩ := List.mem_map.mp hname
          exact Component.normal.inj heq ▸ hitem.proper n hn
      by_cases hsrc : t.WalkInside cred W (source ++ item.names.map .normal)
      swap
      · exact judged_of_splits (splits_appendLoop_of_walk hproper hsrc)
      have hinto : (walksInto (source ++ item.names.map .normal) item).run
          (FileTree.exec cred now) t = (some (.ok (item.isDir || (item.isSymlink &&
            dirAt cred t (source ++ item.names.map .normal)))), t) := run_walksInto
      rcases hwalk : walk (t.look cred) maxLinks [] (source ++ item.names.map .normal) with e | p
      · -- the path leads nowhere: the error of the first call on it is the result
        have hnone : ∀ q, walk (t.look cred) maxLinks [] (source ++ item.names.map .normal) =
            .ok q →
            W <+: q := by simp [hwalk]
        have hne : e ≠ .wouldblock := by
          rcases walk_error hwalk with rfl | rfl | rfl | rfl <;> decide
        refine judged_of_confined ?_
        refine confined_bind (confined_walksInto hsrc) fun into _ => ?_
        cases into with
        | true =>
          rw [if_pos rfl]
          refine confined_bind (confined_appendDir hsrc hnone) fun found hfound => ?_
          rw [appendDir, Prog.run_bind_error _
            (run_sys_of_walk_error (Or.inr (Or.inr (Or.inl rfl))) hne hwalk)] at hfound
          cases hfound
        | false =>
          rw [if_neg (by simp)]
          refine confined_bind (confined_appendOther hsrc hnone) fun found hfound => ?_
          rw [appendOther, Prog.run_bind_error _
            (run_sys_of_walk_error (Or.inr (Or.inl rfl)) hne hwalk)] at hfound
          cases hfound
      · cases hb : item.isDir || (item.isSymlink && dirAt cred t (source ++ item.names.map .normal))
          with
        | true =>
          have hdir : t.isDir p = true := by
            rw [Bool.or_eq_true, Bool.and_eq_true] at hb
            rcases hb with hb | hb
            · exact hitem.dir hb p hwalk
            · exact isDir_of_dirAt hb.2 hwalk
          have hkind : item.isDir = true ∨ item.isSymlink = true := by
            rw [Bool.or_eq_true, Bool.and_eq_true] at hb
            exact hb.imp_right And.left
          by_cases hin : W <+: p
          · -- a directory inside: its entries are, too
            have hend : ∀ q, walk (t.look cred) maxLinks []
                (source ++ item.names.map .normal) = .ok q → W <+: q := by
              intro q hq
              rwa [← Except.ok.inj (hwalk.symm.trans hq)]
            refine judged_bind (judged_of_confined (confined_walksInto hsrc)) fun into _ hr => ?_
            rw [hinto, hb] at hr
            obtain rfl : true = into := by simpa using hr
            simp only [if_true]
            refine judged_bind (judged_of_confined (confined_appendDir hsrc hend)) fun found _ hr =>
              ?_
            obtain ⟨entries, s, hread, -⟩ := Prog.ok_of_run_bind _ hr
            rw [run_readDir hcred hwalk hdir] at hread
            rw [appendDir, Prog.run_bind_ok _ (run_readDir hcred hwalk hdir)] at hr
            obtain ⟨info, s', -, hr⟩ := Prog.ok_of_run_bind _ hr
            obtain rfl := by simpa using hr
            refine ih _ _ fun child hchild => ?_
            rcases List.mem_append.mp hchild with hchild | hchild
            · obtain ⟨entry, hentry, rfl⟩ := List.mem_map.mp (List.mem_reverse.mp hchild)
              exact itemOk_child hitem.proper hsrc hwalk hin hentry
            · exact hstack child hchild
          · -- a directory on the way to `W`
            have hup : p <+: W := (hsrc.visible hwalk).resolve_left hin
            have hne : p ≠ W := fun h => hin (h ▸ List.prefix_rfl)
            by_cases hspare : walk (t.look cred) (maxLinks - 1) []
                (source ++ item.names.map .normal) = .ok p
            · exact judged_of_splits
                (splits_appendLoop_of_listing hcred hsrc hwalk hspare hdir hkind hup hne)
            · exact Or.inr (Or.inr (exhausts_appendLoop hb (by rw [hwalk]; exact hspare)))
        | false =>
          have hend : ∀ q, walk (t.look cred) maxLinks []
              (source ++ item.names.map .normal) = .ok q → W <+: q := by
            intro q hq
            rw [Bool.or_eq_false_iff] at hb
            cases hlink : item.isSymlink with
            | false => exact hitem.other hb.1 hlink q hq
            | true =>
              refine inside_of_not_dir (hsrc.visible hq) (hitem.real hlink).1 ?_
              by_contra hdir
              rw [Bool.not_eq_false] at hdir
              simp [hlink, dirAt_of_isDir hdir hq] at hb
          refine judged_bind (judged_of_confined (confined_walksInto hsrc)) fun into _ hr => ?_
          rw [hinto, hb] at hr
          obtain rfl : false = into := by simpa using hr
          simp only [Bool.false_eq_true, if_false]
          refine judged_bind (judged_of_confined (confined_appendOther hsrc hend)) fun entry _ _ =>
            ?_
          exact ih stack _ hstack

end Scriptorium
