import Scriptorium.PathWalk
import Mathlib.Data.List.Nodup
import Mathlib.Data.List.Induction

/-!
# Trees of files, directories and symbolic links

A `FileTree` is a finite map from positions to nodes that carries the proof of
its own well-formedness: the root is a directory, and every other node lies in a
directory under a name that can be a file name.  The four ways to change a tree
(`add`, `update`, `prune`, `move`) take as arguments what they need to keep it
well-formed, and each says by `rfl` what stands at every position afterwards.

`look` is the view of a tree that path resolution (`PathWalk`) works on.
-/

namespace Posix

/-! ### Nodes -/

structure Attrs where
  mode : Nat
  uid : Nat
  gid : Nat
  mtime : Nat
deriving DecidableEq, Repr

/-- What a node is.  `holes` says whether a regular file is stored sparsely. -/
inductive Kind where
  | dir
  | file (data : List UInt8) (holes : Bool)
  | link (target : String)
  | fifo
deriving DecidableEq, Repr

structure Node where
  kind : Kind
  attrs : Attrs
deriving DecidableEq, Repr

def Node.isDir (node : Node) : Bool :=
  match node.kind with
  | .dir => true
  | _ => false

def Node.isLink (node : Node) : Bool :=
  match node.kind with
  | .link _ => true
  | _ => false

theorem Node.isDir_iff {node : Node} : node.isDir = true ↔ node.kind = .dir := by
  unfold Node.isDir
  split <;> simp_all

/-! ### Permission -/

inductive Access where
  | read | write | search
deriving DecidableEq, Repr

/-- Who performs the calls.  A `privileged` caller passes every permission check. -/
structure Cred where
  uid : Nat
  gid : Nat
  privileged : Bool
  umask : Nat
deriving DecidableEq, Repr

def Access.bit : Access → Nat
  | .read => 2
  | .write => 1
  | .search => 0

/-- The owner, group or other bits of the mode decide, in that order. -/
def Cred.may (cred : Cred) (attrs : Attrs) (access : Access) : Bool :=
  cred.privileged ||
    attrs.mode.testBit (access.bit +
      (if cred.uid = attrs.uid then 6 else if cred.gid = attrs.gid then 3 else 0))

theorem Cred.may_of_privileged {cred : Cred} (h : cred.privileged = true) (attrs : Attrs)
    (access : Access) : cred.may attrs access = true := by
  simp [Cred.may, h]

/-- What a caller with the permissions of `cred` sees when resolving a path. -/
def Node.view (cred : Cred) (node : Node) : View :=
  match node.kind with
  | .dir => .dir (cred.may node.attrs .search)
  | .link target => .link (segments target)
  | _ => .other

/-! ### Trees -/

structure FileTree where
  get? : Pos → Option Node
  support : List Pos
  nodup : support.Nodup
  mem_support : ∀ p, p ∈ support ↔ (get? p).isSome
  root_isDir : (get? []).any Node.isDir = true
  parent_isDir : ∀ p name, (get? (p ++ [name])).isSome → (get? p).any Node.isDir = true
  proper : ∀ p name, (get? (p ++ [name])).isSome → Proper name

namespace FileTree

variable (t : FileTree)

def isDir (p : Pos) : Bool := (t.get? p).any Node.isDir

variable {t}

theorem isDir_iff {p : Pos} : t.isDir p = true ↔ ∃ node, t.get? p = some node ∧
    node.isDir = true := by
  simp [isDir, Option.any_eq_true]

theorem isSome_of_isDir {p : Pos} (h : t.isDir p = true) : (t.get? p).isSome := by
  obtain ⟨node, hnode, -⟩ := isDir_iff.mp h
  simp [hnode]

@[simp] theorem isDir_root : t.isDir [] = true := t.root_isDir

theorem isDir_parent {p : Pos} {name : String} (h : (t.get? (p ++ [name])).isSome) :
    t.isDir p = true := t.parent_isDir p name h

/-- Everything above an existing node is a directory. -/
theorem isDir_above {p q : Pos} (h : (t.get? q).isSome) (hpq : p <+: q) (hne : p ≠ q) :
    t.isDir p = true := by
  obtain ⟨rest, rfl⟩ := hpq
  induction rest using List.reverseRecOn with
  | nil => simp at hne
  | append_singleton rest name ih =>
    have hdir : t.isDir (p ++ rest) = true := isDir_parent (by simpa using h)
    by_cases hrest : rest = []
    · simpa [hrest] using hdir
    · exact ih (isSome_of_isDir hdir) (by simpa using hrest)

theorem isSome_above {p q : Pos} (h : (t.get? q).isSome) (hpq : p <+: q) :
    (t.get? p).isSome := by
  by_cases hne : p = q
  · exact hne ▸ h
  · exact isSome_of_isDir (isDir_above h hpq hne)

/-- Nothing stands below a missing node. -/
theorem get?_none_below {p q : Pos} (h : t.get? p = none) (hpq : p <+: q) :
    t.get? q = none := by
  by_contra hq
  have := isSome_above (Option.isSome_iff_ne_none.mpr hq) hpq
  simp [h] at this

theorem get?_append_eq_none {p : Pos} {node : Node} (h : t.get? p = some node)
    (hnode : node.isDir = false) {name : String} {rest : Pos} :
    t.get? (p ++ name :: rest) = none := by
  refine get?_none_below (p := p ++ [name]) ?_ ⟨rest, by simp⟩
  by_contra hne
  have hdir := isDir_parent (Option.isSome_iff_ne_none.mpr hne)
  simp [isDir, h, hnode] at hdir

/-! ### The view of path resolution -/

variable (t)

def look (cred : Cred) (p : Pos) : View :=
  match t.get? p with
  | none => .absent
  | some node => node.view cred

variable {t}

theorem look_eq_absent {cred : Cred} {p : Pos} : t.look cred p = .absent ↔ t.get? p = none := by
  unfold look Node.view
  split
  · simp [*]
  · split <;> simp [*]

theorem look_congr {t' : FileTree} {cred : Cred} {p : Pos} (h : t.get? p = t'.get? p) :
    t.look cred p = t'.look cred p := by
  unfold look
  rw [h]

theorem isDir_of_look {cred : Cred} {p : Pos} {searchable : Bool}
    (h : t.look cred p = .dir searchable) : t.isDir p = true := by
  unfold look Node.view at h
  split at h
  · cases h
  · rename_i node hnode
    split at h
    · rename_i hkind
      exact isDir_iff.mpr ⟨node, hnode, Node.isDir_iff.mpr hkind⟩
    · cases h
    · cases h

theorem look_of_isDir {cred : Cred} (hcred : cred.privileged = true) {p : Pos}
    (h : t.isDir p = true) : t.look cred p = .dir true := by
  obtain ⟨node, hnode, hdir⟩ := isDir_iff.mp h
  simp [look, hnode, Node.view, Node.isDir_iff.mp hdir, Cred.may_of_privileged hcred]

theorem look_dropLast_ne_absent {cred : Cred} {p : Pos} (h : t.look cred p ≠ .absent) :
    t.look cred p.dropLast ≠ .absent := by
  rw [Ne, look_eq_absent] at h ⊢
  have hsome := isSome_above (Option.isSome_iff_ne_none.mpr h) (List.dropLast_prefix p)
  exact Option.isSome_iff_ne_none.mp hsome

theorem look_root_ne_absent {cred : Cred} : t.look cred [] ≠ .absent := by
  rw [Ne, look_eq_absent]
  exact Option.isSome_iff_ne_none.mp (isSome_of_isDir isDir_root)

/-- A walk from an existing node ends at an existing node. -/
theorem isSome_of_walk {cred : Cred} {links : Nat} {pos p : Pos} {components : List Component}
    (hpos : (t.get? pos).isSome) (h : walk (t.look cred) links pos components = .ok p) :
    (t.get? p).isSome := by
  have hpos' : t.look cred pos ≠ .absent := by
    rw [Ne, look_eq_absent]
    exact Option.isSome_iff_ne_none.mp hpos
  have hp := ne_absent_of_walk hpos' look_root_ne_absent
    (fun q hq => look_dropLast_ne_absent hq) h
  rw [Ne, look_eq_absent] at hp
  exact Option.isSome_iff_ne_none.mpr hp

/-! ### Trees given by a listing -/

/-- A listing of nodes that is a tree: each position once, and every node in a
    directory of the listing. -/
def WellFormed (entries : List (Pos × Node)) : Prop :=
  (entries.map Prod.fst).Nodup ∧ (entries.lookup []).any Node.isDir = true ∧
    ∀ e ∈ entries, (entries.lookup e.1.dropLast).any Node.isDir = true ∧ ∀ name ∈ e.1, Proper name

instance (entries : List (Pos × Node)) : Decidable (WellFormed entries) := by
  unfold WellFormed; infer_instance

theorem isSome_lookup {entries : List (Pos × Node)} {p : Pos} :
    (entries.lookup p).isSome ↔ p ∈ entries.map Prod.fst := by
  rw [List.lookup_isSome_iff, List.mem_map]
  refine exists_congr fun e => and_congr_right fun _ => ?_
  rw [beq_iff_eq]
  exact eq_comm

def ofEntries (entries : List (Pos × Node)) (h : WellFormed entries) : FileTree where
  get? p := entries.lookup p
  support := entries.map Prod.fst
  nodup := h.1
  mem_support p := isSome_lookup.symm
  root_isDir := h.2.1
  parent_isDir p name hname := by
    obtain ⟨e, he, hkey⟩ := List.mem_map.mp (isSome_lookup.mp hname)
    have hparent : (entries.lookup e.1.dropLast).any Node.isDir = true := (h.2.2 e he).1
    rwa [hkey, List.dropLast_concat] at hparent
  proper p name hname := by
    obtain ⟨e, he, hkey⟩ := List.mem_map.mp (isSome_lookup.mp hname)
    exact (h.2.2 e he).2 name (by simp [hkey])

/-- No node is a symbolic link. -/
def SymlinkFree (t : FileTree) : Prop := ∀ p node, t.get? p = some node → node.isLink = false

theorem SymlinkFree.look_ne_link (h : t.SymlinkFree) (cred : Cred) (p : Pos)
    (target : List Component) : t.look cred p ≠ .link target := by
  intro hlook
  unfold look Node.view at hlook
  split at hlook
  · cases hlook
  · rename_i node hnode
    have hlink := h p node hnode
    split at hlook
    · cases hlook
    · rename_i hkind
      simp [Node.isLink, hkind] at hlink
    · cases hlook

theorem symlinkFree_ofEntries {entries : List (Pos × Node)} {h : WellFormed entries}
    (hlinks : ∀ e ∈ entries, e.2.isLink = false) : (ofEntries entries h).SymlinkFree := by
  intro p node hnode
  have hmem : (p, node) ∈ entries := by
    obtain ⟨before, after, hsplit, -⟩ := List.lookup_eq_some_iff.mp hnode
    rw [hsplit]
    simp
  exact hlinks _ hmem

/-! ### Directory listings -/

/-- The name under which `q` stands in the directory `p`. -/
def childName (p q : Pos) : Option String := if q.dropLast = p then q.getLast? else none

theorem childName_eq_some {p q : Pos} {name : String} :
    childName p q = some name ↔ q = p ++ [name] := by
  unfold childName
  constructor
  · intro h
    split at h
    · rename_i hp
      rw [← hp, List.dropLast_append_getLast? name (by simpa using h)]
    · cases h
  · rintro rfl
    simp

variable (t)

/-- The names in a directory, in the order the file system lists them. -/
def children (p : Pos) : List String := t.support.filterMap (childName p)

variable {t}

theorem mem_children {p : Pos} {name : String} :
    name ∈ t.children p ↔ (t.get? (p ++ [name])).isSome := by
  simp [children, List.mem_filterMap, childName_eq_some, t.mem_support]

theorem children_nodup (p : Pos) : (t.children p).Nodup := by
  refine t.nodup.filterMap fun q q' name hq hq' => ?_
  rw [Option.mem_def, childName_eq_some] at hq hq'
  rw [hq, hq']

/-! ### Changing a tree -/

variable (t)

/-- Put a new node into a directory, under a name that is free. -/
def add (p : Pos) (name : String) (node : Node) (hp : t.isDir p = true)
    (hfree : t.get? (p ++ [name]) = none) (hname : Proper name) : FileTree where
  get? q := if q = p ++ [name] then some node else t.get? q
  support := t.support ++ [p ++ [name]]
  nodup := by
    rw [List.nodup_append]
    refine ⟨t.nodup, List.nodup_singleton _, fun q hq r hr => ?_⟩
    rw [List.mem_singleton.mp hr]
    rintro rfl
    rw [t.mem_support, hfree] at hq
    cases hq
  mem_support q := by
    by_cases hq : q = p ++ [name]
    · simp [hq]
    · simp [hq, t.mem_support]
  root_isDir := by simpa using t.root_isDir
  parent_isDir q n h := by
    by_cases hq : q = p ++ [name]
    · -- nothing stands below the name that was free
      subst hq
      rw [if_neg (by simp), get?_none_below hfree ⟨[n], rfl⟩] at h
      cases h
    · rw [if_neg hq]
      by_cases hqn : q ++ [n] = p ++ [name]
      · rw [(List.append_inj' hqn rfl).1]
        exact hp
      · rw [if_neg hqn] at h
        exact t.parent_isDir q n h
  proper q n h := by
    by_cases hqn : q ++ [n] = p ++ [name]
    · have hn : n = name := by simpa using (List.append_inj' hqn rfl).2
      exact hn ▸ hname
    · rw [if_neg hqn] at h
      exact t.proper q n h

/-- Change one node without turning a directory into something else or back. -/
def update (p : Pos) (f : Node → Node) (hf : ∀ node, (f node).isDir = node.isDir) : FileTree where
  get? q := if q = p then (t.get? q).map f else t.get? q
  support := t.support
  nodup := t.nodup
  mem_support q := by
    by_cases hq : q = p
    · simp [hq, t.mem_support]
    · simp [hq, t.mem_support]
  root_isDir := by
    have hroot := t.root_isDir
    by_cases hp : ([] : Pos) = p
    · rw [if_pos hp, Option.any_map]
      simpa [Function.comp_def, hf] using hroot
    · rw [if_neg hp]
      exact hroot
  parent_isDir q n h := by
    have hsome : (t.get? (q ++ [n])).isSome := by
      by_cases hq : q ++ [n] = p
      · simpa [hq] using h
      · simpa [hq] using h
    have hdir := t.parent_isDir q n hsome
    by_cases hq : q = p
    · rw [if_pos hq, Option.any_map]
      simpa [Function.comp_def, hf] using hdir
    · rw [if_neg hq]
      exact hdir
  proper q n h := by
    refine t.proper q n ?_
    by_cases hq : q ++ [n] = p
    · simpa [hq] using h
    · simpa [hq] using h

/-- Remove a node and everything below it. -/
def prune (p : Pos) (hp : p ≠ []) : FileTree where
  get? q := if p <+: q then none else t.get? q
  support := t.support.filter fun q => ¬ p <+: q
  nodup := t.nodup.filter _
  mem_support q := by
    by_cases hq : p <+: q
    · simp [hq]
    · simp [hq, t.mem_support]
  root_isDir := by simpa [hp] using t.root_isDir
  parent_isDir q n h := by
    by_cases hqn : p <+: q ++ [n]
    · simp [hqn] at h
    · rw [if_neg hqn] at h
      rw [if_neg fun hq => hqn (hq.trans (List.prefix_append q [n]))]
      exact t.parent_isDir q n h
  proper q n h := by
    by_cases hqn : p <+: q ++ [n]
    · simp [hqn] at h
    · rw [if_neg hqn] at h
      exact t.proper q n h

/-- Where a position goes when the subtree at `src` is moved to `dst`. -/
def relocate (src dst q : Pos) : Pos := if src <+: q then dst ++ q.drop src.length else q

/-- Move a subtree to a free name of a directory that is not inside it. -/
def move (src dir : Pos) (name : String) (hsrc : (t.get? src).isSome)
    (hdir : t.isDir dir = true) (hfree : t.get? (dir ++ [name]) = none)
    (hout : ¬ src <+: dir) (hname : Proper name) : FileTree where
  get? q :=
    if dir ++ [name] <+: q then t.get? (src ++ q.drop (dir.length + 1))
    else if src <+: q then none
    else t.get? q
  support := t.support.map (relocate src (dir ++ [name]))
  nodup := by
    refine t.nodup.map_on fun q hq r hr hqr => ?_
    -- no listed position lies under the free name, so only moved ones do
    have hnot : ∀ q ∈ t.support, ¬ dir ++ [name] <+: q := fun q hq hpre => by
      have := (t.mem_support q).mp hq
      rw [get?_none_below hfree hpre] at this
      cases this
    unfold relocate at hqr
    by_cases hq' : src <+: q <;> by_cases hr' : src <+: r
    · rw [if_pos hq', if_pos hr', List.append_cancel_left_eq] at hqr
      obtain ⟨a, rfl⟩ := hq'
      obtain ⟨b, rfl⟩ := hr'
      simpa using hqr
    · rw [if_pos hq', if_neg hr'] at hqr
      exact absurd ⟨_, hqr⟩ (hnot r hr)
    · rw [if_neg hq', if_pos hr'] at hqr
      exact absurd ⟨_, hqr.symm⟩ (hnot q hq)
    · rwa [if_neg hq', if_neg hr'] at hqr
  mem_support q := by
    rw [List.mem_map]
    constructor
    · rintro ⟨r, hr, rfl⟩
      rw [t.mem_support] at hr
      unfold relocate
      by_cases hsr : src <+: r
      · obtain ⟨a, rfl⟩ := hsr
        simpa using hr
      · have hdr : ¬ dir ++ [name] <+: r := fun hpre => by
          rw [get?_none_below hfree hpre] at hr
          cases hr
        simpa [hsr, hdr] using hr
    · intro hq
      by_cases hdq : dir ++ [name] <+: q
      · rw [if_pos hdq] at hq
        obtain ⟨a, rfl⟩ := hdq
        refine ⟨src ++ a, (t.mem_support _).mpr (by simpa using hq), ?_⟩
        simp [relocate]
      · rw [if_neg hdq] at hq
        by_cases hsq : src <+: q
        · simp [hsq] at hq
        · rw [if_neg hsq] at hq
          exact ⟨q, (t.mem_support _).mpr hq, by simp [relocate, hsq]⟩
  root_isDir := by
    have hsrc' : src ≠ [] := by
      rintro rfl
      exact hout (List.nil_prefix)
    simpa [hsrc'] using t.root_isDir
  parent_isDir q n h := by
    by_cases hdq : dir ++ [name] <+: q
    · -- inside the moved subtree
      obtain ⟨a, rfl⟩ := hdq
      rw [if_pos ⟨a ++ [n], by simp⟩] at h
      rw [if_pos ⟨a, rfl⟩]
      have hdrop : (dir ++ [name] ++ a ++ [n]).drop (dir.length + 1) = a ++ [n] := by
        rw [List.append_assoc]
        exact List.drop_left' (by simp)
      rw [hdrop, ← List.append_assoc] at h
      rw [List.drop_left' (by simp)]
      exact t.parent_isDir _ n h
    · by_cases hdqn : dir ++ [name] <+: q ++ [n]
      · -- the moved subtree's own directory
        have hqdir : q = dir := by
          obtain ⟨a, ha⟩ := hdqn
          cases a using List.reverseRecOn with
          | nil => exact (List.append_inj' ((List.append_nil _).symm.trans ha) rfl).1.symm
          | append_singleton a m =>
            rw [← List.append_assoc] at ha
            exact absurd ⟨a, (List.append_inj' ha rfl).1⟩ hdq
        subst hqdir
        rw [if_neg hdq, if_neg hout]
        exact hdir
      · rw [if_neg hdqn] at h
        by_cases hsqn : src <+: q ++ [n]
        · simp [hsqn] at h
        · rw [if_neg hsqn] at h
          rw [if_neg hdq, if_neg fun hq => hsqn (hq.trans (List.prefix_append q [n]))]
          exact t.parent_isDir q n h

  proper q n h := by
    by_cases hdqn : dir ++ [name] <+: q ++ [n]
    · rw [if_pos hdqn] at h
      obtain ⟨a, ha⟩ := hdqn
      cases a using List.reverseRecOn with
      | nil =>
        rw [List.append_nil] at ha
        have hn : name = n := by simpa using (List.append_inj' ha rfl).2
        exact hn ▸ hname
      | append_singleton a m =>
        rw [← List.append_assoc] at ha
        obtain ⟨hq, hn⟩ := List.append_inj' ha rfl
        have hdrop : (q ++ [n]).drop (dir.length + 1) = a ++ [n] := by
          rw [← hq, List.append_assoc]
          exact List.drop_left' (by simp)
        rw [hdrop, ← List.append_assoc] at h
        exact t.proper _ n h
    · rw [if_neg hdqn] at h
      by_cases hsqn : src <+: q ++ [n]
      · simp [hsqn] at h
      · rw [if_neg hsqn] at h
        exact t.proper q n h

variable {t}

@[simp] theorem get?_add {p : Pos} {name : String} {node : Node} {hp hfree hname} {q : Pos} :
    (t.add p name node hp hfree hname).get? q = if q = p ++ [name] then some node else t.get? q :=
      rfl

@[simp] theorem get?_prune {p : Pos} {hp} {q : Pos} :
    (t.prune p hp).get? q = if p <+: q then none else t.get? q := rfl

@[simp] theorem get?_move {src dir : Pos} {name : String} {hsrc hdir hfree hout hname} {q : Pos} :
    (t.move src dir name hsrc hdir hfree hout hname).get? q =
      if dir ++ [name] <+: q then t.get? (src ++ q.drop (dir.length + 1))
      else if src <+: q then none
      else t.get? q := rfl

/-! ### Listings after a change -/

theorem children_add_self {p : Pos} {name : String} {node : Node} {hp hfree hname} :
    (t.add p name node hp hfree hname).children p = t.children p ++ [name] := by
  have hself : childName p (p ++ [name]) = some name := childName_eq_some.mpr rfl
  simp [children, add, List.filterMap_append, hself]

theorem children_add_of_ne {p q : Pos} {name : String} {node : Node} {hp hfree hname}
    (h : q ≠ p) : (t.add p name node hp hfree hname).children q = t.children q := by
  have hother : childName q (p ++ [name]) = none := by
    rw [Option.eq_none_iff_forall_ne_some]
    intro n hn
    exact h (List.append_inj' (childName_eq_some.mp hn) rfl).1.symm
  simp [children, add, List.filterMap_append, hother]

theorem children_prune {p q : Pos} {hp} (h : ∀ name, ¬ p <+: q ++ [name]) :
    (t.prune p hp).children q = t.children q := by
  simp only [children, prune, List.filterMap_filter]
  refine List.filterMap_congr fun r _ => ?_
  by_cases hr : p <+: r
  · have hother : childName q r = none := by
      rw [Option.eq_none_iff_forall_ne_some]
      intro n hn
      exact h n (childName_eq_some.mp hn ▸ hr)
    simp [hr, hother]
  · simp [hr]

/-! The order of the positions that a change does not reach. -/

section Support

variable {keep : Pos → Bool}

theorem support_add {p : Pos} {name : String} {node : Node} {hp hfree hname}
    (h : ∀ q, keep q = true → ¬ p ++ [name] <+: q) :
    (t.add p name node hp hfree hname).support.filter keep = t.support.filter keep := by
  have hnew : keep (p ++ [name]) = false := by
    rw [Bool.eq_false_iff]
    intro hkeep
    exact h _ hkeep List.prefix_rfl
  simp [add, List.filter_append, hnew]

theorem support_prune {p : Pos} {hp} (h : ∀ q, keep q = true → ¬ p <+: q) :
    (t.prune p hp).support.filter keep = t.support.filter keep := by
  rw [prune, List.filter_filter]
  apply List.filter_congr
  intro q _
  rcases hkeep : keep q with _ | _
  · rfl
  · simp [h q hkeep]

theorem support_move {src dir : Pos} {name : String} {hsrc hdir hfree hout hname}
    (hs : ∀ q, keep q = true → ¬ src <+: q) (hd : ∀ q, keep q = true → ¬ dir ++ [name] <+: q) :
    (t.move src dir name hsrc hdir hfree hout hname).support.filter keep =
      t.support.filter keep := by
  have hall : ∀ l : List Pos, (l.map (relocate src (dir ++ [name]))).filter keep =
      l.filter keep := by
    intro l
    induction l with
    | nil => rfl
    | cons q l ih =>
      rw [List.map_cons, List.filter_cons, List.filter_cons, ih, relocate]
      by_cases hpre : src <+: q
      · have hfrom : ¬ keep q = true := fun hkeep => hs q hkeep hpre
        have hto : ¬ keep (dir ++ [name] ++ q.drop src.length) = true :=
          fun hkeep => hd _ hkeep (List.prefix_append _ _)
        rw [if_pos hpre, if_neg hfrom, if_neg hto]
      · rw [if_neg hpre]
  exact hall _

end Support

end FileTree

end Posix
