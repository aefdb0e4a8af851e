import Scriptorium.Interference
import Scriptorium.ImportSuccess

/-!
# Imports that share a target

Several imports put their objects at one place.  What a single one of them works on is its
`area`: what it makes up beside the target, and, from the moment at which it looks at the
target in order to replace what stands there, the target itself.  `Rely` says what an import
can rely on while it is running, `Guarantee` what it guarantees to the others; calls that
make the way to the target (`guarantee_of_way`) and calls that touch the import's own area
(`guarantee_of_touched`) keep it.
-/

namespace Scriptorium

open Posix Effects

/-! ### The scene -/

/-- An import as it is asked for, and the clock it reads. -/
structure ImportCall where
  clock : ImportClock
  header : ImportHeader
  rest : ImportStream

def ImportCall.encoding (x : ImportCall) : WorkspaceObjectEncoding := .ofInt x.header.encoding

/-- The names that an import makes up. -/
def ImportCall.madeUp (x : ImportCall) : List String :=
  [transferName "import" x.clock.staging, transferName "expand" x.clock.expand]

/-- Where imports are aimed: at an entry of a directory in the home of their workspace, which
    is to belong to the agent. -/
structure Aim where
  home : Pos
  dir : Pos
  name : String
  uid : Nat
  gid : Nat

def Aim.target (a : Aim) : PathBuf := canonical (a.dir ++ [a.name])

/-- The tree, and who was the last to look at the target in order to replace what stands
    there. -/
structure Scene (ι : Type) where
  tree : FileTree
  holder : Option ι

/-- With this question the replacement of what stands at `target` begins. -/
def looksAt (target : PathBuf) : FsCall → Bool
  | .fileType path => path == target
  | _ => false

/-- The import `i` makes a call. -/
def Scene.exec {ι : Type} (cred : Cred) (now : Nat) (target : PathBuf) (i : ι) (c : FsCall)
    (s : Scene ι) : c.Reply × Scene ι :=
  ((FileTree.exec cred now c s.tree).1,
    ⟨(FileTree.exec cred now c s.tree).2, if looksAt target c then some i else s.holder⟩)

/-- What is an import's own: what it makes up, and the target once it has looked at it. -/
def Aim.area (a : Aim) (x : ImportCall) (holds : Bool) : Region :=
  .entriesOf a.dir (if holds then a.name :: x.madeUp else x.madeUp)

/-- The home belongs to the agent. -/
def Aim.Owned (a : Aim) (t : FileTree) : Prop :=
  ∃ node, t.get? a.home = some node ∧ node.attrs.uid = a.uid ∧ node.attrs.gid = a.gid

/-- The way to the target has been made. -/
structure Aim.Settled (a : Aim) (t : FileTree) : Prop where
  owned : a.Owned t
  isDir : t.isDir a.dir = true

section Scene

variable {ι : Type} (a : Aim) (calls : ι → ImportCall)

/-- What no import undoes. -/
structure Aim.Steady (s s' : Scene ι) : Prop where
  passable : Passable s.tree a.dir → Passable s'.tree a.dir
  kept : ∀ p, p <+: a.dir → s.tree.isDir p = true → s'.tree.isDir p = true
  owned : a.Owned s.tree → a.Owned s'.tree
  held : s.holder ≠ none → s'.holder ≠ none

/-- What is the import's own is left alone, and so is the way to it once it has been made. -/
structure Aim.Spares (i : ι) (s s' : Scene ι) : Prop where
  own : ∀ q, (a.area (calls i) false).own q = true → s'.tree.get? q = s.tree.get? q
  alike : a.Settled s.tree → FileTree.Alike (a.area (calls i) false) s.tree s'.tree
  held : s'.holder = some i → s.holder = some i
  target : s'.holder = some i → a.Settled s.tree →
    FileTree.Alike (a.area (calls i) true) s.tree s'.tree

/-- What the import `i` can rely on while it is running. -/
structure Aim.Rely (i : ι) (s s' : Scene ι) : Prop where
  steady : a.Steady s s'
  spares : a.Spares calls i s s'
  holds : s.holder = some i → s'.holder = some i

/-- What it guarantees to the others. -/
structure Aim.Guarantee (i : ι) (s s' : Scene ι) : Prop where
  steady : a.Steady s s'
  spares : ∀ j, j ≠ i → a.Spares calls j s s'

/-- The import is to find that what stands at the target gives way when it looks there. -/
def Aim.May (cred : Cred) (i : ι) (c : FsCall) (s : Scene ι) : Prop :=
  looksAt a.target c = true → GivesWay cred s.tree (a.dir ++ [a.name]) (calls i).encoding

/-- The target is below the home, and the names that the imports make up are all different,
    and none is that of the target. -/
structure Aim.Apart : Prop where
  below : a.home <+: a.dir
  target : ∀ i, a.name ∉ (calls i).madeUp
  others : ∀ i j, i ≠ j → ∀ n ∈ (calls i).madeUp, n ∉ (calls j).madeUp

variable {a calls} {i : ι} {s s' s'' : Scene ι}

theorem Aim.Steady.refl (s : Scene ι) : a.Steady s s := ⟨id, fun _ _ => id, id, id⟩

theorem Aim.Steady.trans (h : a.Steady s s') (h' : a.Steady s' s'') : a.Steady s s'' :=
  ⟨h'.passable ∘ h.passable, fun p hp => h'.kept p hp ∘ h.kept p hp, h'.owned ∘ h.owned,
    h'.held ∘ h.held⟩

theorem Aim.Steady.settled (h : a.Steady s s') (hs : a.Settled s.tree) : a.Settled s'.tree :=
  ⟨h.owned hs.owned, h.kept _ List.prefix_rfl hs.isDir⟩

theorem Aim.Spares.refl (s : Scene ι) : a.Spares calls i s s :=
  ⟨fun _ _ => rfl, fun _ => .refl _ _, id, fun _ _ => .refl _ _⟩

theorem Aim.Spares.trans (hsteady : a.Steady s s') (h : a.Spares calls i s s')
    (h' : a.Spares calls i s' s'') : a.Spares calls i s s'' where
  own q hq := (h'.own q hq).trans (h.own q hq)
  alike hs := (h.alike hs).trans (h'.alike (hsteady.settled hs))
  held hholder := h.held (h'.held hholder)
  target hholder hs := (h.target (h'.held hholder) hs).trans
    (h'.target hholder (hsteady.settled hs))

theorem Aim.Rely.refl (s : Scene ι) : a.Rely calls i s s := ⟨.refl s, .refl s, id⟩

theorem Aim.Rely.trans (h : a.Rely calls i s s') (h' : a.Rely calls i s' s'') :
    a.Rely calls i s s'' :=
  ⟨h.steady.trans h'.steady, h.spares.trans h.steady h'.spares, h'.holds ∘ h.holds⟩

end Scene

/-! ### Calls in the area -/

section Calls

variable {ι : Type} {cred : Cred} {now : Nat} {a : Aim} {calls : ι → ImportCall} {i : ι}
  {c : FsCall} {s : Scene ι}

/-- The areas of two imports are apart, unless both have the target. -/
theorem Aim.Apart.areas (h : a.Apart calls) {j : ι} (hne : j ≠ i) {mine yours : Bool}
    (hone : mine = true → yours = false) {p q : Pos} (hp : (a.area (calls i) mine).own p = true)
    (hq : (a.area (calls j) yours).Seen q) : ¬ p <+: q := by
  apply Region.entries_apart _ hp hq
  intro n hn hn'
  cases mine with
  | false =>
    cases yours with
    | false => exact h.others i j hne.symm n hn hn'
    | true =>
      rcases List.mem_cons.mp hn' with rfl | hn'
      · exact h.target i hn
      · exact h.others i j hne.symm n hn hn'
  | true =>
    obtain rfl := hone rfl
    rcases List.mem_cons.mp hn with rfl | hn
    · exact h.target j hn'
    · exact h.others i j hne.symm n hn hn'

theorem Aim.area_below {x : ImportCall} {holds : Bool} {p q : Pos}
    (hp : (a.area x holds).own p = true) (hq : q <+: a.dir) : ¬ p <+: q := by
  intro hpq
  obtain ⟨n, -, hpre⟩ := Region.own_entriesOf.mp hp
  exact not_entry_above a.dir n ((hpre.trans hpq).trans hq)

variable (cred now i c s) in
theorem Scene.holder_exec (target : PathBuf) :
    (Scene.exec cred now target i c s).2.holder = some i ∨
      (Scene.exec cred now target i c s).2.holder = s.holder := by
  by_cases hlook : looksAt target c = true
  · exact Or.inl (if_pos hlook)
  · exact Or.inr (if_neg hlook)

/-- A call that touches only the import's own area leaves the others alone. -/
theorem guarantee_of_touched (hapart : a.Apart calls) {holds : Bool}
    (hholds : holds = true → s.holder = some i)
    (htouched : (FileTree.exec cred now c s.tree).2 = s.tree ∨
      ∀ p ∈ s.tree.touched cred c, (a.area (calls i) holds).own p = true) :
    a.Guarantee calls i s (Scene.exec cred now a.target i c s).2 := by
  have hsame : ∀ q, (∀ p, (a.area (calls i) holds).own p = true → ¬ p <+: q) →
      (FileTree.exec cred now c s.tree).2.get? q = s.tree.get? q := by
    intro q hq
    rcases htouched with heq | hown
    · rw [heq]
    · exact FileTree.get?_exec_of_not_touched c fun p hp => hq p (hown p hp)
  have halike : ∀ R : Region, (∀ p, (a.area (calls i) holds).own p = true → ∀ q, R.Seen q →
      ¬ p <+: q) → FileTree.Alike R s.tree (FileTree.exec cred now c s.tree).2 := by
    intro R hR
    rcases htouched with heq | hown
    · rw [heq]
      exact .refl _ _
    · exact ⟨fun q hq => (hsame q fun p hp => hR p hp q hq).symm,
        (FileTree.support_exec_of_not_touched c fun p hp q hq =>
          hR p (hown p hp) q (Region.seen_of_own hq)).symm⟩
  have habove : ∀ q, q <+: a.dir → (FileTree.exec cred now c s.tree).2.get? q = s.tree.get? q :=
    fun q hq => hsame q fun p hp => Aim.area_below hp hq
  -- who holds the target after the call, held it before or is the one that calls
  have hheld : ∀ j, j ≠ i → (Scene.exec cred now a.target i c s).2.holder = some j →
      s.holder = some j := by
    intro j hj hholder
    rcases Scene.holder_exec cred now i c s a.target with hmine | hold
    · exact absurd (Option.some.inj (hholder.symm.trans hmine)) hj
    · exact hold.symm.trans hholder
  refine ⟨⟨fun hpass q hq => ?_, fun p hp hp' => ?_, fun howned => ?_, fun hheld => ?_⟩,
    fun j hj => ⟨fun q hq => ?_, fun _ => halike _ fun p hp q hq => ?_, hheld j hj,
      fun hholder _ => halike _ fun p hp q hq => ?_⟩⟩
  · simp only [Scene.exec]
    rw [FileTree.isDir, habove q hq]
    exact hpass q hq
  · simp only [Scene.exec]
    rwa [FileTree.isDir, habove p hp]
  · obtain ⟨node, hnode, hids⟩ := howned
    exact ⟨node, (habove _ hapart.below).trans hnode, hids⟩
  · rcases Scene.holder_exec cred now i c s a.target with hmine | hold
    · rw [hmine]
      exact Option.some_ne_none i
    · rwa [hold]
  · exact hsame q fun p hp => hapart.areas hj (fun _ => rfl) hp (Region.seen_of_own hq)
  · exact hapart.areas hj (fun _ => rfl) hp hq
  · refine hapart.areas hj (fun hmine => ?_) hp hq
    have hbefore := (hholds hmine).symm.trans (hheld j hj hholder)
    exact absurd (Option.some.inj hbefore).symm hj

/-! ### Calls on the way -/

/-- The calls that make the way to the target. -/
def Aim.Way (a : Aim) : FsCall → Prop
  | .mkdir path | .fileType path => ∃ p, p <+: a.dir ∧ path = canonical p
  | .chown path uid gid => path = canonical a.home ∧ uid = a.uid ∧ gid = a.gid
  | _ => False

theorem Aim.Way.looksAt (h : a.Way c) : looksAt a.target c = false := by
  cases c with
  | fileType path =>
    obtain ⟨p, hp, rfl⟩ := h
    refine beq_eq_false_iff_ne.mpr fun heq => ?_
    obtain rfl := canonical_injective heq
    exact not_entry_above a.dir a.name hp
  | _ => rfl

/-- They only add directories on it that are missing, and give the home to the agent; when
    the way has been made, they change nothing. -/
structure Aim.Made (a : Aim) (t t' : FileTree) : Prop where
  beside : ∀ q, ¬ q <+: a.dir → t'.get? q = t.get? q
  kept : ∀ p, t.isDir p = true → t'.isDir p = true
  owned : a.Owned t → a.Owned t'
  same : a.Settled t → ∀ R, FileTree.Alike R t t'

theorem Aim.Made.refl (t : FileTree) : a.Made t t :=
  ⟨fun _ _ => rfl, fun _ => id, id, fun _ _ => .refl _ _⟩

variable (cred now) in
theorem Aim.made_mkdir {t : FileTree} (hpass : Passable t a.dir) {p : Pos} (hp : p <+: a.dir) :
    a.Made t (t.mkdir cred now (canonical p)).2 := by
  rcases FileTree.mkdir_cases cred now t (canonical p) with
    ⟨e, he⟩ | ⟨dir, name, hdir, hfree, hname, hslot, hadd⟩
  · rw [he]
    exact .refl t
  · obtain rfl := hpass.straight.clear.slot_eq (seen_wayTo.mpr (Or.inl hp)) hslot
    rw [hadd]
    have hget : ∀ q, q ≠ dir ++ [name] → (t.add dir name ⟨.dir, FileTree.newAttrs cred now 0o777⟩
        hdir hfree hname).get? q = t.get? q := fun q hq => FileTree.get?_add.trans (if_neg hq)
    have hne : ∀ q, (t.get? q).isSome → q ≠ dir ++ [name] := by
      rintro q hq rfl
      rw [hfree] at hq
      cases hq
    refine ⟨fun q hq => hget q fun heq => hq (heq ▸ hp), fun q hq => ?_, fun howned => ?_,
      fun hsettled => ?_⟩
    · rwa [FileTree.isDir, hget q (hne q (FileTree.isSome_of_isDir hq))]
    · obtain ⟨node, hnode, hids⟩ := howned
      exact ⟨node, (hget _ (hne _ (by rw [hnode]; rfl))).trans hnode, hids⟩
    · exact absurd rfl (hne _ (FileTree.isSome_above (FileTree.isSome_of_isDir hsettled.isDir) hp))

variable (cred) in
theorem Aim.made_chown (hbelow : a.home <+: a.dir) {t : FileTree} (hpass : Passable t a.dir) :
    a.Made t (t.chown cred (canonical a.home) a.uid a.gid).2 := by
  rcases FileTree.chown_cases cred t (canonical a.home) a.uid a.gid with
    ⟨e, he⟩ | ⟨p, node, hfind, hset⟩
  · rw [he]
    exact .refl t
  · obtain rfl := hpass.straight.clear.find_eq (seen_wayTo.mpr (Or.inl hbelow)) hfind
    rw [hset]
    refine ⟨fun q hq => ?_, fun q hq => ?_, fun _ => ?_, fun hsettled R => ⟨fun q _ => ?_, rfl⟩⟩
    · rw [FileTree.get?_setAttrs, if_neg]
      rintro rfl
      exact hq hbelow
    · obtain ⟨old, hold, hkind⟩ := FileTree.isDir_iff.mp hq
      have hkinds := kind_setAttrs t a.home q fun attrs => { attrs with uid := a.uid, gid := a.gid }
      rw [hold] at hkinds
      obtain ⟨new, hnew, hsame⟩ := Option.map_eq_some_iff.mp hkinds
      exact FileTree.isDir_iff.mpr ⟨new, hnew, by rw [Node.isDir, hsame]; exact hkind⟩
    · refine ⟨⟨node.kind, { node.attrs with uid := a.uid, gid := a.gid }⟩, ?_, rfl, rfl⟩
      rw [FileTree.get?_setAttrs, if_pos rfl, (FileTree.find_eq_ok hfind).2]
      rfl
    · rw [FileTree.get?_setAttrs]
      split
      · rename_i heq
        obtain ⟨old, hold, huid, hgid⟩ := hsettled.owned
        rw [heq, hold, ← huid, ← hgid]
        rfl
      · rfl

variable (cred now) in
theorem Aim.Way.made (hbelow : a.home <+: a.dir) (h : a.Way c) {t : FileTree}
    (hpass : Passable t a.dir) : a.Made t (FileTree.exec cred now c t).2 := by
  cases c with
  | fileType path => exact .refl t
  | mkdir path =>
    obtain ⟨p, hp, rfl⟩ := h
    exact Aim.made_mkdir cred now hpass hp
  | chown path uid gid =>
    obtain ⟨rfl, rfl, rfl⟩ := h
    exact Aim.made_chown cred hbelow hpass
  | _ => exact absurd h id

variable (cred now i) in
/-- A call that makes the way leaves the others alone, whoever has made the way already. -/
theorem guarantee_of_way (hapart : a.Apart calls) (hc : a.Way c) (hpass : Passable s.tree a.dir) :
    a.Guarantee calls i s (Scene.exec cred now a.target i c s).2 := by
  have hmade := hc.made cred now hapart.below hpass
  have hpaves : Paves (canonical a.home) c := by
    cases c with
    | mkdir path => trivial
    | fileType path => trivial
    | chown path uid gid => exact hc.1
    | _ => exact absurd hc id
  have hholder : (Scene.exec cred now a.target i c s).2.holder = s.holder := by
    simp only [Scene.exec, hc.looksAt, Bool.false_eq_true, if_false]
  refine ⟨⟨fun hpass => passable_exec hpaves hpass, fun p _ => hmade.kept p, hmade.owned,
    fun hheld => ?_⟩, fun j _ => ⟨fun q hq => ?_, fun hsettled => hmade.same hsettled _,
      fun hheld => ?_, fun _ hsettled => hmade.same hsettled _⟩⟩
  · rwa [hholder]
  · exact hmade.beside q fun habove => Aim.area_below hq habove List.prefix_rfl
  · rwa [hholder] at hheld

end Calls

end Scriptorium
