import Scriptorium.Installation

/-!
# The modes that an extraction leaves

`unpack_in` gives a file or directory the mode of its entry; a directory that is only
implied by a longer path keeps the mode of a new one.  The last entry of a path decides
(`extractItems_marked`), and the owner is always the service.
-/

namespace Scriptorium

open Posix Effects

/-- The mode at a path after one more item. -/
def modeAfter (modes : Pos → Nat) : TarItem → Pos → Nat
  | .entry e _, q => if entryNames (PathBuf.ofString e.path) = some q then e.mode % 512 else modes q
  | .broken _, q => modes q

/-- The modes in what the items of an archive describe: that of the last entry for a path,
    or that of a new directory under the umask `022`. -/
def archiveModes (items : List TarItem) : Pos → Nat := items.foldl modeAfter fun _ => 0o755

/-- Below a position everything is the service's, with the given modes. -/
structure Marked (cred : Cred) (s : FileTree) (root : Pos) (modes : Pos → Nat) : Prop where
  present : ∀ q node, q ≠ [] → s.get? (root ++ q) = some node →
    node.attrs.uid = cred.uid ∧ node.attrs.mode = modes q
  missing : ∀ q, q ≠ [] → s.get? (root ++ q) = none → modes q = 0o755

section

variable {cred : Cred} {now : Nat} {t s : FileTree} {R : Region} {dir root : Pos} {name : String}

theorem makes_unpackDir (path : PathBuf) :
    (unpackDir path).Within Makes (fun _ _ => True) fun _ => True := by
  apply Prog.within_bind (Prog.within_attempt (within_sys trivial))
  intro r _
  split
  · exact Prog.within_pure trivial
  · apply Prog.within_bind (W := fun _ => True)
    · split
      · exact within_isDir trivial
      · exact Prog.within_pure trivial
    · intro present _
      split
      · exact Prog.within_pure trivial
      · exact Prog.within_throw _

/-- What an entry is unpacked to has its mode, and is the service's or has kept its owner. -/
theorem unpackEntry_mode (ht : FileTree.Clear R t) (hp : R.Seen (dir ++ [name])) {e : TarEntry}
    {complete : Bool} (h : (unpackEntry e complete (canonical (dir ++ [name]))).run
      (FileTree.exec cred now) t = (some (.ok ()), s)) :
    ∃ node, s.get? (dir ++ [name]) = some node ∧ node.attrs.mode = e.mode % 512 ∧
      (node.attrs.uid = cred.uid ∨
        ∃ old, t.get? (dir ++ [name]) = some old ∧ node.attrs.uid = old.attrs.uid) := by
  rcases unpackEntry_steps ht hp h with ⟨-, u, hmake, rfl⟩ | ⟨-, -, u, mtime, hopen, rfl⟩
  · obtain ⟨-, -, hmade, -⟩ := unpackDir_ok ht hp hmake
    obtain ⟨node, hnode, -⟩ := FileTree.isDir_iff.mp hmade
    have hadds := keeps_adds cred now (makes_unpackDir (canonical (dir ++ [name]))) t
      (dir ++ [name])
    rw [hmake] at hadds
    refine ⟨_, by rw [FileTree.get?_setAttrs, if_pos rfl, hnode, Option.map_some], rfl, ?_⟩
    rcases hadds with hsame | ⟨-, hnew⟩
    · exact Or.inr ⟨node, hsame.symm.trans hnode, rfl⟩
    · left
      rw [Option.some.inj (hnode.symm.trans hnew)]
      rfl
  · obtain ⟨-, -, -, hget⟩ := openForUnpack_ok ht hp hopen
    have hplace : u.get? (dir ++ [name]) =
        some ⟨.file [] false, FileTree.newAttrs cred now 0o666⟩ := by
      rw [hget, if_pos rfl]
    have hnode : (((u.write now (dir ++ [name]) e.data).setAttrs (dir ++ [name]) fun attrs =>
        { attrs with mtime }).setAttrs (dir ++ [name]) fun attrs =>
          { attrs with mode := e.mode % 512 }).get? (dir ++ [name]) =
        some ⟨.file e.data false, ⟨e.mode % 512, cred.uid, cred.gid, mtime⟩⟩ := by
      simp only [FileTree.get?_setAttrs, if_true, FileTree.write, hplace, FileTree.get?_setData,
        Option.map_some, Node.withData, List.nil_append]
      rfl
    exact ⟨_, hnode, rfl, Or.inl rfl⟩

theorem newDir_mode (humask : cred.umask = 0o022) : (FileTree.newAttrs cred now 0o777).mode =
    0o755 := by
  rw [FileTree.newAttrs, humask]
  rfl

/-- **One item** sets the mode of its path. -/
theorem extractItem_marked (humask : cred.umask = 0o022) {T : ArchiveLayout} (hT : T.Closed)
    (h : Shows t root T) {modes : Pos → Nat} (hmarked : Marked cred t root modes) {item : TarItem}
    (hrun : (extractItem (canonical root) item).run (FileTree.exec cred now) t =
      (some (.ok ()), s)) :
    Marked cred s root (modeAfter modes item) := by
  obtain ⟨e, complete, rfl, ⟨hnames, rfl⟩ | ⟨m, name, u, hnames, hnew, hclear, hentry⟩⟩ :=
    extractItem_steps hT h hrun
  · have hmode : ∀ q, q ≠ [] → modeAfter modes (.entry e complete) q = modes q := by
      intro q hq
      rw [modeAfter, hnames, if_neg fun heq => hq (Option.some.inj heq).symm]
    constructor
    · intro q node hq hnode
      rw [hmode q hq]
      exact hmarked.present q node hq hnode
    · intro q hq hnone
      rw [hmode q hq]
      exact hmarked.missing q hq hnone
  · have hunpacked := unpackEntry_ok hclear (seen_wayTo.mpr (Or.inl List.prefix_rfl)) hentry
    obtain ⟨placed, hplaced, hmode, huid⟩ :=
      unpackEntry_mode hclear (seen_wayTo.mpr (Or.inl List.prefix_rfl)) hentry
    have happend : root ++ m ++ [name] = root ++ (m ++ [name]) := List.append_assoc _ _ _
    rw [happend] at hplaced huid
    -- the directories made on the way are new ones
    have hmade : ∀ q node, q ≠ [] → u.get? (root ++ q) = some node →
        node.attrs.uid = cred.uid ∧ (q ≠ m ++ [name] → node.attrs.mode = modes q) := by
      intro q node hq hnode
      rcases hnew (root ++ q) with hsame | ⟨-, hnone, hdir⟩
      · obtain ⟨howner, hmode⟩ := hmarked.present q node hq (hsame.symm.trans hnode)
        exact ⟨howner, fun _ => hmode⟩
      · obtain rfl := Option.some.inj (hdir.symm.trans hnode)
        exact ⟨rfl, fun _ => (newDir_mode humask).trans (hmarked.missing q hq hnone).symm⟩
    have hsame : ∀ q, q ≠ m ++ [name] → s.get? (root ++ q) = u.get? (root ++ q) := by
      intro q hq
      apply hunpacked.same
      rw [happend]
      exact fun heq => hq (List.append_cancel_left heq)
    constructor
    · intro q node hq hnode
      rw [modeAfter, hnames]
      by_cases heq : q = m ++ [name]
      · obtain rfl : placed = node := Option.some.inj (hplaced.symm.trans (heq ▸ hnode))
        rw [heq, if_pos rfl]
        refine ⟨?_, hmode⟩
        rcases huid with huid | ⟨old, hold, huid⟩
        · exact huid
        · exact huid.trans (hmade _ old (by simp) hold).1
      · rw [if_neg fun h => heq (Option.some.inj h).symm]
        rw [hsame q heq] at hnode
        exact ⟨(hmade q node hq hnode).1, (hmade q node hq hnode).2 heq⟩
    · intro q hq hnone
      rw [modeAfter, hnames]
      by_cases heq : q = m ++ [name]
      · rw [heq, hplaced] at hnone
        cases hnone
      · rw [if_neg fun h => heq (Option.some.inj h).symm]
        rw [hsame q heq] at hnone
        rcases hnew (root ++ q) with hsame' | ⟨-, hnone', -⟩
        · exact hmarked.missing q hq (hsame'.symm.trans hnone)
        · exact hmarked.missing q hq hnone'

/-- **All items.** -/
theorem extractItems_marked (humask : cred.umask = 0o022) {T : ArchiveLayout} (hT : T.Closed)
    (h : Shows t root T) {modes : Pos → Nat} (hmarked : Marked cred t root modes)
    {items : List TarItem}
    (hrun : (extractItems (canonical root) items).run (FileTree.exec cred now) t =
      (some (.ok ()), s)) :
    Marked cred s root (items.foldl modeAfter modes) := by
  induction items generalizing t T modes with
  | nil =>
    obtain rfl : t = s := congrArg Prod.snd hrun
    exact hmarked
  | cons item items ih =>
    obtain ⟨_, u, hitem, hrest⟩ := Prog.run_bind_eq_ok _ hrun
    obtain ⟨U, -, hclosed, hshows, -⟩ := extractItem_ok hT h hitem
    exact ih hclosed hshows (extractItem_marked humask hT h hmarked hitem) hrest

end

end Scriptorium
