import Scriptorium.Transitions
import Mathlib.Logic.Function.Basic
import Mathlib.Data.List.TakeDrop

/-!
# Files that several writers make under claimed names

A writer claims a name, makes a file (or a directory) there, fills it, and later
reads back, by name, what stands there.  A name leads to a node; making a file
empties the node that the name leads to, or takes a fresh one.  Names can be
renamed away, and whoever else has access can remove what stands at a name at any
time.

Nothing here prevents two writers from working on one node.  The rule of this
library is `step_sound`: if every claim is of a name that no other writer holds, and
nothing is renamed onto a name somebody holds, then every writer finds its own data
only.
-/

namespace SharedFiles

open Transitions

variable {κ ν α : Type}

/-- How far a writer is. -/
inductive Phase where
  | claimed
  /-- The name of a directory has been emptied. -/
  | cleared
  /-- The node was made. -/
  | made (node : Nat)
  /-- The file was renamed to where it belongs. -/
  | installed
deriving DecidableEq

structure Writer (κ α : Type) where
  claim : κ
  phase : Phase
  /-- What it has put into its file, in order. -/
  written : List α
  /-- The node it opened for reading. -/
  reopened : Option Nat
  /-- What it got back from its file. -/
  object : List α

structure State (κ ν α : Type) where
  names : ν → Option Nat
  nodes : Nat → List α
  fresh : Nat
  writers : Nat → Option (Writer κ α)

inductive Event (κ ν α : Type) where
  | start (i : Nat) (claim : κ)
  | clear (i : Nat)
  | create (i : Nat)
  | put (i : Nat) (data : List α)
  | reopen (i : Nat)
  | take (i : Nat) (count : Nat)
  | install (i : Nat) (target : ν)
  | finish (i : Nat) (remove : Bool)
  | vanish (path : ν)

/-- Data written at an offset of a file; a hole before it is filled up. -/
def writeAt [Inhabited α] (content : List α) (offset : Nat) (data : List α) : List α :=
  content.takeD offset default ++ data ++ content.drop (offset + data.length)

theorem writeAt_length [Inhabited α] (content data : List α) :
    writeAt content content.length data = content ++ data := by
  have htake : content.takeD content.length default = content := by
    simp [List.takeD_eq_take]
  have hdrop : content.drop (content.length + data.length) = [] :=
    List.drop_eq_nil_of_le (Nat.le_add_right _ _)
  rw [writeAt, htake, hdrop, List.append_nil]

section System

variable [DecidableEq ν]

/-- Another writer `i`. -/
def State.set (s : State κ ν α) (i : Nat) (u : Option (Writer κ α)) : State κ ν α :=
  { s with writers := Function.update s.writers i u }

/-- A name leads somewhere else. -/
def State.link (s : State κ ν α) (path : ν) (k : Option Nat) : State κ ν α :=
  { s with names := Function.update s.names path k }

/-- A node holds something else. -/
def State.fill (s : State κ ν α) (k : Nat) (content : List α) : State κ ν α :=
  { s with nodes := Function.update s.nodes k content }

/-- A new node under a name. -/
def State.add (s : State κ ν α) (path : ν) : State κ ν α :=
  { (s.link path (some s.fresh)).fill s.fresh [] with fresh := s.fresh + 1 }

variable (name : κ → ν) (isDir : κ → Bool)

def startAt (s : State κ ν α) (i : Nat) (claim : κ) : Option (State κ ν α) :=
  match s.writers i with
  | none => some (s.set i (some ⟨claim, .claimed, [], none, []⟩))
  | some _ => none

/-- Empty the name of a directory that is to be made. -/
def clearFor (s : State κ ν α) (i : Nat) (u : Writer κ α) : Option (State κ ν α) :=
  if u.phase = .claimed ∧ isDir u.claim then
    some ((s.link (name u.claim) none).set i (some { u with phase := .cleared }))
  else none

/-- The phase in which a writer makes its file. -/
def ready (u : Writer κ α) : Phase := if isDir u.claim then .cleared else .claimed

/-- Make the file of a writer: what stands at its name is emptied and used; a
    directory that stands there is used as it is. -/
def createFor (s : State κ ν α) (i : Nat) (u : Writer κ α) : Option (State κ ν α) :=
  if u.phase = ready isDir u then
    match s.names (name u.claim) with
    | some k =>
      let made := some { u with phase := .made k }
      some ((if isDir u.claim then s else s.fill k []).set i made)
    | none => some ((s.add (name u.claim)).set i (some { u with phase := .made s.fresh }))
  else none

/-- A file is written through its handle, a directory is filled by name. -/
def putFor [Inhabited α] (s : State κ ν α) (i : Nat) (u : Writer κ α) (data : List α) :
    Option (State κ ν α) :=
  let wrote := some { u with written := u.written ++ data }
  match u.phase, isDir u.claim with
  | .made k, false =>
    some ((s.fill k (writeAt (s.nodes k) u.written.length data)).set i wrote)
  | .made _, true => do
    let k ← s.names (name u.claim)
    some ((s.fill k (s.nodes k ++ data)).set i wrote)
  | _, _ => none

/-- Open for reading what stands at the name. -/
def reopenFor (s : State κ ν α) (i : Nat) (u : Writer κ α) : Option (State κ ν α) :=
  match u.phase with
  | .made _ => some (s.set i (some { u with reopened := s.names (name u.claim) }))
  | _ => none

/-- Where a writer reads from: a directory by name, a file through its handle. -/
def source (s : State κ ν α) (u : Writer κ α) : Option Nat :=
  match u.phase with
  | .made _ => if isDir u.claim then s.names (name u.claim) else u.reopened
  | _ => none

/-- Read on, or move on, `count` further items. -/
def takeFor (s : State κ ν α) (i : Nat) (u : Writer κ α) (count : Nat) :
    Option (State κ ν α) := do
  let k ← source name isDir s u
  let next := ((s.nodes k).drop u.object.length).take count
  some (s.set i (some { u with object := u.object ++ next }))

/-- Rename the file of a writer to its target. -/
def installFor (s : State κ ν α) (i : Nat) (u : Writer κ α) (target : ν) :
    Option (State κ ν α) :=
  match u.phase with
  | .made _ => do
    let k ← s.names (name u.claim)
    let installed := some { u with phase := .installed, object := s.nodes k }
    some (((s.link (name u.claim) none).link target (some k)).set i installed)
  | _ => none

def finishFor (s : State κ ν α) (i : Nat) (u : Writer κ α) (remove : Bool) : State κ ν α :=
  (if remove then s.link (name u.claim) none else s).set i none

def step [Inhabited α] (s : State κ ν α) : Event κ ν α → Option (State κ ν α)
  | .start i claim => startAt s i claim
  | .clear i => (s.writers i).bind (clearFor name isDir s i)
  | .create i => (s.writers i).bind (createFor name isDir s i)
  | .put i data => (s.writers i).bind fun u => putFor name isDir s i u data
  | .reopen i => (s.writers i).bind (reopenFor name s i)
  | .take i count => (s.writers i).bind fun u => takeFor name isDir s i u count
  | .install i target => (s.writers i).bind fun u => installFor name s i u target
  | .finish i remove => (s.writers i).map fun u => finishFor name s i u remove
  | .vanish path => some (s.link path none)

/-- No writer holds the name. -/
def Unheld (s : State κ ν α) (path : ν) : Prop :=
  ∀ j u, s.writers j = some u → name u.claim ≠ path

/-- A step that claims or takes over no name that is held. -/
def Polite (s : State κ ν α) : Event κ ν α → Prop
  | .start _ claim => Unheld name s (name claim)
  | .install _ target => Unheld name s target
  | _ => True

/-! ### What a writer can rely on -/

/-- The node of a writer holds what the writer put there, and only the writer's
    name leads to it. -/
structure Owns (s : State κ ν α) (u : Writer κ α) (k : Nat) : Prop where
  content : s.nodes k = u.written
  known : k < s.fresh
  only : ∀ path, s.names path = some k → path = name u.claim
  found : ∀ k', s.names (name u.claim) = some k' → k' = k
  handle : ∀ k', u.reopened = some k' → k' = k

structure Served (s : State κ ν α) (u : Writer κ α) : Prop where
  object : u.object <+: u.written
  begun : u.phase = .claimed ∨ u.phase = .cleared → u.written = [] ∧ u.reopened = none
  cleared : u.phase = .cleared → s.names (name u.claim) = none
  made : ∀ k, u.phase = .made k → Owns name s u k

/-- The names lead to different nodes, all of them known. -/
structure Named (s : State κ ν α) : Prop where
  known : ∀ path k, s.names path = some k → k < s.fresh
  injective : ∀ path path' k, s.names path = some k → s.names path' = some k → path = path'

structure Sound (s : State κ ν α) : Prop extends Named s where
  served : ∀ i u, s.writers i = some u → Served name s u
  held : ∀ i j u v, s.writers i = some u → s.writers j = some v → i ≠ j →
    name u.claim ≠ name v.claim
  nodes : ∀ i j u v k, s.writers i = some u → s.writers j = some v → i ≠ j →
    u.phase = .made k → v.phase ≠ .made k

variable {name} {isDir} {s t : State κ ν α} {i : Nat} {u v : Writer κ α}

/-! ### What the changes of a state keep -/

omit [DecidableEq ν] in
/-- A writer is served as well in a state that knows its name as little, and its
    node as well. -/
theorem Served.frame (h : Served name s v)
    (hplace : ∀ k, t.names (name v.claim) = some k → s.names (name v.claim) = some k)
    (hnode : ∀ k, v.phase = .made k →
      t.nodes k = s.nodes k ∧ ∀ path, t.names path = some k → s.names path = some k)
    (hfresh : s.fresh ≤ t.fresh) : Served name t v where
  object := h.object
  begun := h.begun
  cleared hphase := by
    rcases hfound : t.names (name v.claim) with _ | k
    · rfl
    · have hold := hplace k hfound
      rw [h.cleared hphase] at hold
      cases hold
  made k hphase := by
    have howns := h.made k hphase
    constructor
    · rw [(hnode k hphase).1, howns.content]
    · exact Nat.lt_of_lt_of_le howns.known hfresh
    · exact fun path hpath => howns.only path ((hnode k hphase).2 path hpath)
    · exact fun k' hk' => howns.found k' (hplace k' hk')
    · exact howns.handle

omit [DecidableEq ν] in
theorem Served.set (h : Served name s v) {w : Option (Writer κ α)} :
    Served name (s.set i w) v :=
  h.frame (fun _ hk => hk) (fun _ _ => ⟨rfl, fun _ hpath => hpath⟩) (Nat.le_refl _)

theorem names_of_link_none {path path' : ν} {k : Nat}
    (h : (s.link path none).names path' = some k) : s.names path' = some k := by
  by_cases heq : path' = path
  · simp [State.link, heq] at h
  · simpa [State.link, Function.update_of_ne heq] using h

theorem Served.link_none (h : Served name s v) {path : ν} : Served name (s.link path none) v :=
  h.frame (fun _ => names_of_link_none) (fun _ _ => ⟨rfl, fun _ => names_of_link_none⟩)
    (Nat.le_refl _)

omit [DecidableEq ν] in
theorem Served.fill (h : Served name s v) {k : Nat} {content : List α} (hk : v.phase ≠ .made k) :
    Served name (s.fill k content) v := by
  refine h.frame (fun _ hk' => hk') (fun k' hphase => ⟨?_, fun _ hpath => hpath⟩) (Nat.le_refl _)
  have hne : k' ≠ k := fun heq => hk (heq ▸ hphase)
  exact Function.update_of_ne hne _ _

/-- A name that the writer does not hold, and that leads to another node. -/
theorem Served.link (h : Served name s v) {path : ν} {k : Nat} (hpath : path ≠ name v.claim)
    (hk : v.phase ≠ .made k) : Served name (s.link path (some k)) v := by
  refine h.frame (fun k' hk' => ?_) (fun k' hphase => ⟨rfl, fun path' hpath' => ?_⟩) (Nat.le_refl _)
  · simpa [State.link, Function.update_of_ne hpath.symm] using hk'
  · by_cases heq : path' = path
    · have hsame : k = k' := by simpa [State.link, heq] using hpath'
      exact absurd (hsame ▸ hphase) hk
    · simpa [State.link, Function.update_of_ne heq] using hpath'

omit [DecidableEq ν] in
theorem Served.grow (h : Served name s v) : Served name { s with fresh := s.fresh + 1 } v :=
  h.frame (fun _ hk => hk) (fun _ _ => ⟨rfl, fun _ hpath => hpath⟩) (Nat.le_succ _)

omit [DecidableEq ν] in
theorem Served.not_fresh (h : Served name s v) : v.phase ≠ .made s.fresh :=
  fun hphase => Nat.lt_irrefl _ (h.made _ hphase).known

theorem Served.add (h : Served name s v) {path : ν} (hpath : path ≠ name v.claim) :
    Served name (s.add path) v :=
  ((h.link hpath h.not_fresh).fill h.not_fresh).grow

omit [DecidableEq ν] in
theorem Named.set (h : Named s) {w : Option (Writer κ α)} : Named (s.set i w) :=
  ⟨h.known, h.injective⟩

omit [DecidableEq ν] in
theorem Named.fill (h : Named s) {k : Nat} {content : List α} : Named (s.fill k content) :=
  ⟨h.known, h.injective⟩

theorem Named.link_none (h : Named s) {path : ν} : Named (s.link path none) where
  known path' k hk := h.known path' k (names_of_link_none hk)
  injective path' path'' k h' h'' :=
    h.injective path' path'' k (names_of_link_none h') (names_of_link_none h'')

/-- A node that no name leads to gets one. -/
theorem Named.link (h : Named s) {path : ν} {k : Nat} (hk : k < s.fresh)
    (hfree : ∀ path', path' ≠ path → s.names path' ≠ some k) : Named (s.link path (some k)) where
  known path' k' hk' := by
    by_cases heq : path' = path
    · have hsame : k = k' := by simpa [State.link, heq] using hk'
      exact hsame ▸ hk
    · exact h.known path' k' (by simpa [State.link, Function.update_of_ne heq] using hk')
  injective path' path'' k' h' h'' := by
    by_cases heq' : path' = path <;> by_cases heq'' : path'' = path
    · rw [heq', heq'']
    · have hsame : k = k' := by simpa [State.link, heq'] using h'
      rw [← hsame] at h''
      exact absurd (by simpa [State.link, Function.update_of_ne heq''] using h'')
        (hfree path'' heq'')
    · have hsame : k = k' := by simpa [State.link, heq''] using h''
      rw [← hsame] at h'
      exact absurd (by simpa [State.link, Function.update_of_ne heq'] using h') (hfree path' heq')
    · exact h.injective path' path'' k'
        (by simpa [State.link, Function.update_of_ne heq'] using h')
        (by simpa [State.link, Function.update_of_ne heq''] using h'')

theorem Named.add (h : Named s) {path : ν} : Named (s.add path) where
  known path' k hk := by
    by_cases heq : path' = path
    · have hsame : s.fresh = k := by simpa [State.add, State.fill, State.link, heq] using hk
      exact hsame ▸ Nat.lt_succ_self _
    · refine Nat.lt_succ_of_lt (h.known path' k ?_)
      simpa [State.add, State.fill, State.link, Function.update_of_ne heq] using hk
  injective := by
    have hfresh : ∀ path', path' ≠ path → s.names path' ≠ some s.fresh :=
      fun path' _ hpath' => Nat.lt_irrefl _ (h.known path' _ hpath')
    have hgrown : Named { s with fresh := s.fresh + 1 } :=
      ⟨fun path' k hk => Nat.lt_succ_of_lt (h.known path' k hk), h.injective⟩
    have hlinked := hgrown.link (Nat.lt_succ_self s.fresh) hfresh
    exact hlinked.injective

omit [DecidableEq ν] in
/-- One writer goes on, in a state that serves it and all others. -/
theorem Sound.set (hs : Sound name s) (hwriters : t.writers = s.writers) (hnamed : Named t)
    (hserved : Served name t u)
    (hothers : ∀ j v, j ≠ i → s.writers j = some v → Served name t v ∧
      name u.claim ≠ name v.claim ∧ ∀ k, u.phase = .made k → v.phase ≠ .made k) :
    Sound name (t.set i (some u)) := by
  have hown : (t.set i (some u)).writers i = some u := Function.update_self ..
  have hother : ∀ j, j ≠ i → (t.set i (some u)).writers j = s.writers j := fun j hj => by
    simp [State.set, Function.update_of_ne hj, hwriters]
  constructor
  · exact hnamed.set
  · intro j v hv
    by_cases hj : j = i
    · rw [hj, hown] at hv
      exact Option.some.inj hv ▸ hserved.set
    · rw [hother j hj] at hv
      exact (hothers j v hj hv).1.set
  · intro j j' v v' hv hv' hne
    by_cases hj : j = i <;> by_cases hj' : j' = i
    · exact absurd (hj.trans hj'.symm) hne
    · rw [hj, hown] at hv
      rw [hother j' hj'] at hv'
      exact Option.some.inj hv ▸ (hothers j' v' hj' hv').2.1
    · rw [hj', hown] at hv'
      rw [hother j hj] at hv
      exact Option.some.inj hv' ▸ (hothers j v hj hv).2.1.symm
    · rw [hother j hj] at hv
      rw [hother j' hj'] at hv'
      exact hs.held j j' v v' hv hv' hne
  · intro j j' v v' k hv hv' hne hk
    by_cases hj : j = i <;> by_cases hj' : j' = i
    · exact absurd (hj.trans hj'.symm) hne
    · rw [hj, hown] at hv
      rw [hother j' hj'] at hv'
      exact (hothers j' v' hj' hv').2.2 k (Option.some.inj hv ▸ hk)
    · rw [hj', hown] at hv'
      rw [hother j hj] at hv
      intro hk'
      exact (hothers j v hj hv).2.2 k (Option.some.inj hv' ▸ hk') hk
    · rw [hother j hj] at hv
      rw [hother j' hj'] at hv'
      exact hs.nodes j j' v v' k hv hv' hne hk

omit [DecidableEq ν] in
theorem Sound.others (hs : Sound name s) (hu : s.writers i = some u) {j : Nat} (hj : j ≠ i)
    (hv : s.writers j = some v) :
    Served name s v ∧ name u.claim ≠ name v.claim ∧ ∀ k, u.phase = .made k → v.phase ≠ .made k :=
  ⟨hs.served j v hv, hs.held i j u v hu hv hj.symm,
    fun k hk => hs.nodes i j u v k hu hv hj.symm hk⟩

theorem Sound.link_none (hs : Sound name s) {path : ν} : Sound name (s.link path none) where
  toNamed := hs.toNamed.link_none
  served j v hv := (hs.served j v hv).link_none
  held := hs.held
  nodes := hs.nodes

omit [DecidableEq ν] in
theorem Sound.drop (hs : Sound name s) : Sound name (s.set i none) := by
  have hold : ∀ j v, (s.set i none).writers j = some v → s.writers j = some v := by
    intro j v hv
    by_cases hj : j = i
    · simp [State.set, hj] at hv
    · simpa [State.set, Function.update_of_ne hj] using hv
  constructor
  · exact hs.toNamed.set
  · exact fun j v hv => (hs.served j v (hold j v hv)).set
  · exact fun j j' v v' hv hv' => hs.held j j' v v' (hold j v hv) (hold j' v' hv')
  · exact fun j j' v v' k hv hv' => hs.nodes j j' v v' k (hold j v hv) (hold j' v' hv')

/-! ### What each event keeps -/

omit [DecidableEq ν] in
theorem sound_start (hs : Sound name s) {claim : κ} (hclaim : Unheld name s (name claim))
    (h : startAt s i claim = some t) : Sound name t := by
  unfold startAt at h
  split at h
  · obtain rfl := Option.some.inj h
    refine hs.set rfl hs.toNamed ?_ fun j v _ hv => ?_
    · constructor
      · exact List.prefix_rfl
      · exact fun _ => ⟨rfl, rfl⟩
      · intro hphase
        cases hphase
      · intro k hphase
        cases hphase
    · refine ⟨hs.served j v hv, (hclaim j v hv).symm, fun k hphase => ?_⟩
      cases hphase
  · cases h

theorem sound_clear (hs : Sound name s) (hu : s.writers i = some u)
    (h : clearFor name isDir s i u = some t) : Sound name t := by
  unfold clearFor at h
  split at h
  · rename_i hphase
    obtain rfl := Option.some.inj h
    have hserved := hs.served i u hu
    refine hs.set rfl hs.toNamed.link_none ?_ fun j v hj hv => ?_
    · constructor
      · exact hserved.object
      · exact fun _ => hserved.begun (.inl hphase.1)
      · exact fun _ => Function.update_self ..
      · intro k hmade
        cases hmade
    · obtain ⟨hother, hname, -⟩ := hs.others hu hj hv
      exact ⟨hother.link_none, hname, fun k hmade => by cases hmade⟩
  · cases h

omit [DecidableEq ν] in
/-- A node at the name of a writer belongs to nobody else. -/
theorem Sound.not_made (hs : Sound name s) (hu : s.writers i = some u) {k : Nat}
    (hk : s.names (name u.claim) = some k) {j : Nat} (hj : j ≠ i) (hv : s.writers j = some v) :
    v.phase ≠ .made k := by
  obtain ⟨hserved, hname, -⟩ := hs.others hu hj hv
  exact fun hphase => hname ((hserved.made k hphase).only _ hk)

omit [DecidableEq ν] in
theorem Served.make (h : Served name s u) {k : Nat}
    (howns : Owns name t { u with phase := .made k } k) :
    Served name t { u with phase := .made k } where
  object := h.object
  begun hphase := by simp at hphase
  cleared hphase := by cases hphase
  made k' hk' := by
    obtain rfl := Phase.made.inj hk'
    exact howns

omit [DecidableEq ν] in
theorem ready_cases (h : u.phase = ready isDir u) :
    isDir u.claim = false ∧ u.phase = .claimed ∨ isDir u.claim = true ∧ u.phase = .cleared := by
  unfold ready at h
  cases hdir : isDir u.claim
  · rw [hdir] at h
    exact .inl ⟨rfl, h⟩
  · rw [hdir] at h
    exact .inr ⟨rfl, h⟩

theorem sound_create (hs : Sound name s) (hu : s.writers i = some u)
    (h : createFor name isDir s i u = some t) : Sound name t := by
  have hserved := hs.served i u hu
  unfold createFor at h
  split at h
  next hready =>
    have hbegun : u.written = [] ∧ u.reopened = none :=
      hserved.begun ((ready_cases hready).imp And.right And.right)
    have hhandle : ∀ k k', u.reopened = some k' → k' = k := by
      intro k k' hk'
      rw [hbegun.2] at hk'
      cases hk'
    split at h
    next k hk =>
      have hfile : isDir u.claim = false := by
        rcases ready_cases hready with ⟨hfile, -⟩ | ⟨-, hphase⟩
        · exact hfile
        · rw [hserved.cleared hphase] at hk
          cases hk
      simp only [hfile, Bool.false_eq_true, if_false, Option.some.injEq] at h
      subst h
      refine hs.set rfl hs.toNamed.fill ?_ fun j v hj hv => ?_
      · refine hserved.make ?_
        refine ⟨?_, hs.known _ _ hk, fun path hpath => hs.injective _ _ _ hpath hk,
          fun k' hk' => Option.some.inj (hk'.symm.trans hk), hhandle _⟩
        rw [hbegun.1]
        exact Function.update_self ..
      · obtain ⟨hother, hname, -⟩ := hs.others hu hj hv
        have hnot := hs.not_made hu hk hj hv
        exact ⟨hother.fill hnot, hname, fun k' hk' => by cases hk'; exact hnot⟩
    next hk =>
      obtain rfl := Option.some.inj h
      refine hs.set rfl hs.toNamed.add ?_ fun j v hj hv => ?_
      · refine hserved.make ?_
        have hfound : (s.add (name u.claim)).names (name u.claim) = some s.fresh :=
          Function.update_self ..
        refine ⟨?_, Nat.lt_succ_self _, fun path hpath => ?_, fun k' hk' => ?_, hhandle _⟩
        · rw [hbegun.1]
          exact Function.update_self ..
        · exact hs.toNamed.add.injective _ _ _ hpath hfound
        · exact (Option.some.inj (hfound.symm.trans hk')).symm
      · obtain ⟨hother, hname, -⟩ := hs.others hu hj hv
        exact ⟨hother.add hname, hname, fun k' hk' => by cases hk'; exact hother.not_fresh⟩
  next => cases h

omit [DecidableEq ν] in
theorem sound_put [Inhabited α] (hs : Sound name s) (hu : s.writers i = some u) {data : List α}
    (h : putFor name isDir s i u data = some t) : Sound name t := by
  have hserved := hs.served i u hu
  -- whichever way the data gets there, it follows what the node holds
  have hputs : ∀ k, u.phase = .made k → Sound name
      ((s.fill k (u.written ++ data)).set i (some { u with written := u.written ++ data })) := by
    intro k hphase
    have howns := hserved.made k hphase
    refine hs.set rfl hs.toNamed.fill ?_ fun j v hj hv => ?_
    · refine ⟨hserved.object.trans (List.prefix_append _ _), fun hbad => ?_, fun hbad => ?_,
        fun k' hk' => ?_⟩
      · simp [hphase] at hbad
      · exact hserved.cleared hbad
      · obtain rfl : k = k' := Phase.made.inj (hphase.symm.trans hk')
        exact ⟨Function.update_self .., howns.known, howns.only, howns.found, howns.handle⟩
    · obtain ⟨hother, hname, hnode⟩ := hs.others hu hj hv
      exact ⟨hother.fill (hnode k hphase), hname, hnode⟩
  unfold putFor at h
  split at h
  · rename_i k hphase _
    obtain rfl := Option.some.inj h
    rw [(hserved.made k hphase).content, writeAt_length]
    exact hputs k hphase
  · rename_i k hphase _
    obtain ⟨k', hk', h⟩ := Option.bind_eq_some_iff.mp h
    obtain rfl := Option.some.inj h
    obtain rfl := (hserved.made k hphase).found k' hk'
    rw [(hserved.made k' hphase).content]
    exact hputs k' hphase
  · cases h

omit [DecidableEq ν] in
theorem sound_reopen (hs : Sound name s) (hu : s.writers i = some u)
    (h : reopenFor name s i u = some t) : Sound name t := by
  have hserved := hs.served i u hu
  unfold reopenFor at h
  split at h
  · obtain rfl := Option.some.inj h
    refine hs.set rfl hs.toNamed ?_ fun j v hj hv => ?_
    · refine ⟨hserved.object, fun hbad => ?_, hserved.cleared, fun k hk => ?_⟩
      · rename_i hphase
        simp [hphase] at hbad
      · have howns := hserved.made k hk
        exact ⟨howns.content, howns.known, howns.only, howns.found, howns.found⟩
    · obtain ⟨hother, hname, hnode⟩ := hs.others hu hj hv
      exact ⟨hother, hname, hnode⟩
  · cases h

omit [DecidableEq ν] in
/-- A writer reads from its own node. -/
theorem source_own (hserved : Served name s u) {k : Nat} (h : source name isDir s u = some k) :
    u.phase = .made k := by
  unfold source at h
  split at h
  · rename_i k' hphase
    have howns := hserved.made k' hphase
    rw [hphase]
    split at h
    · rw [howns.found k h]
    · rw [howns.handle k h]
  · cases h

theorem prefix_read {object written : List α} (h : object <+: written) (count : Nat) :
    object ++ (written.drop object.length).take count <+: written := by
  obtain ⟨rest, rfl⟩ := h
  rw [List.drop_left, List.prefix_append_right_inj]
  exact List.take_prefix _ _

omit [DecidableEq ν] in
theorem sound_take (hs : Sound name s) (hu : s.writers i = some u) {count : Nat}
    (h : takeFor name isDir s i u count = some t) : Sound name t := by
  have hserved := hs.served i u hu
  obtain ⟨k, hk, h⟩ := Option.bind_eq_some_iff.mp h
  obtain rfl := Option.some.inj h
  refine hs.set rfl hs.toNamed ?_ fun j v hj hv => ?_
  · refine ⟨?_, hserved.begun, hserved.cleared, fun k hk => ?_⟩
    · have howns := hserved.made k (source_own hserved hk)
      rw [howns.content]
      exact prefix_read hserved.object count
    · have howns := hserved.made k hk
      exact ⟨howns.content, howns.known, howns.only, howns.found, howns.handle⟩
  · obtain ⟨hother, hname, hnode⟩ := hs.others hu hj hv
    exact ⟨hother, hname, hnode⟩

theorem sound_install (hs : Sound name s) (hu : s.writers i = some u) {target : ν}
    (htarget : Unheld name s target) (h : installFor name s i u target = some t) :
    Sound name t := by
  have hserved := hs.served i u hu
  unfold installFor at h
  split at h
  · rename_i k hphase
    obtain ⟨k', hk', h⟩ := Option.bind_eq_some_iff.mp h
    obtain rfl := Option.some.inj h
    have howns := hserved.made k hphase
    obtain rfl := howns.found k' hk'
    refine hs.set rfl (hs.toNamed.link_none.link howns.known fun path _ hpath => ?_) ?_
      fun j v hj hv => ?_
    · -- the node has lost the only name it had
      obtain rfl := howns.only path (names_of_link_none hpath)
      simp [State.link] at hpath
    · refine ⟨?_, fun hbad => (by simp at hbad), fun hbad => (by cases hbad),
        fun _ hbad => (by cases hbad)⟩
      exact howns.content ▸ List.prefix_rfl
    · obtain ⟨hother, hname, hnode⟩ := hs.others hu hj hv
      exact ⟨hother.link_none.link (htarget j v hv).symm (hnode k' hphase), hname,
        fun _ hbad => by cases hbad⟩
  · cases h

theorem step_sound [Inhabited α] (hs : Sound name s) {e : Event κ ν α} (hpolite : Polite name s e)
    (h : step name isDir s e = some t) : Sound name t := by
  cases e with
  | start i claim => exact sound_start hs hpolite h
  | clear i =>
    obtain ⟨u, hu, h⟩ := Option.bind_eq_some_iff.mp h
    exact sound_clear hs hu h
  | create i =>
    obtain ⟨u, hu, h⟩ := Option.bind_eq_some_iff.mp h
    exact sound_create hs hu h
  | put i data =>
    obtain ⟨u, hu, h⟩ := Option.bind_eq_some_iff.mp h
    exact sound_put hs hu h
  | reopen i =>
    obtain ⟨u, hu, h⟩ := Option.bind_eq_some_iff.mp h
    exact sound_reopen hs hu h
  | take i count =>
    obtain ⟨u, hu, h⟩ := Option.bind_eq_some_iff.mp h
    exact sound_take hs hu h
  | install i target =>
    obtain ⟨u, hu, h⟩ := Option.bind_eq_some_iff.mp h
    exact sound_install hs hu hpolite h
  | finish i remove =>
    obtain ⟨u, -, rfl⟩ := Option.map_eq_some_iff.mp h
    unfold finishFor
    split
    · exact hs.link_none.drop
    · exact hs.drop
  | vanish path =>
    obtain rfl := Option.some.inj h
    exact hs.link_none

/-! ### Runs -/

/-- Nobody is at work. -/
def State.Quiet (s : State κ ν α) : Prop := Named s ∧ ∀ i, s.writers i = none

omit [DecidableEq ν] in
theorem State.Quiet.sound (h : s.Quiet) : Sound name s where
  toNamed := h.1
  served i u hu := by
    rw [h.2 i] at hu
    cases hu
  held i j u v hu := by
    rw [h.2 i] at hu
    cases hu
  nodes i j u v k hu := by
    rw [h.2 i] at hu
    cases hu

variable (name) in
/-- No two writers hold one name, and each has got back its own data only. -/
structure Apart (s : State κ ν α) : Prop where
  names : ∀ i j u v, s.writers i = some u → s.writers j = some v → i ≠ j →
    name u.claim ≠ name v.claim
  objects : ∀ i u, s.writers i = some u → u.object <+: u.written

omit [DecidableEq ν] in
theorem Sound.apart (hs : Sound name s) : Apart name s :=
  ⟨hs.held, fun i u hu => (hs.served i u hu).object⟩

end System

end SharedFiles
