/-
  Scriptorium/PathWalk.lean
  =========================
  **Path resolution with symbolic links.**

  A path is walked component by component.  Every lookup is made in a directory
  that must be searchable, and a symbolic link is replaced by its own components
  followed by the rest of the path; at most `links` links are followed.  The
  walk sees the file system only through a `look` function from positions to
  `View`s, so that a fact about a walk is a fact about what was looked at:

    * `resolve_congr`: two file systems that agree on the positions a walk
      looks at give it the same result;
    * `walk_extend`: a walk that succeeded is not disturbed by what appears
      where nothing was;
    * `walk_eq_lexical`: without links, a walk that succeeds ends where the
      lexical reading of the path says.

  A path whose last component does not exist resolves to the directory and the
  free name (`Target.missing`): that is what a creating call needs.
-/
import Scriptorium.PosixPath
import Mathlib.Data.List.Induction

namespace Posix

inductive Errno where
  | perm | noent | acces | exist | notdir | isdir | inval | notempty | loop | busy | wouldblock
deriving DecidableEq, Repr

/-- What path resolution can see of a node. -/
inductive View where
  | absent
  | dir (searchable : Bool)
  | link (target : List Component)
  | other
deriving DecidableEq, Repr

inductive Target where
  | found (p : Pos)
  | missing (dir : Pos) (name : String)
deriving DecidableEq, Repr

/-! ### The walk -/

/-- Looking something up in `pos` needs a directory with search permission. -/
def search (look : Pos → View) (pos : Pos) : Except Errno Unit :=
  match look pos with
  | .absent => .error .noent
  | .dir true => .ok ()
  | .dir false => .error .acces
  | _ => .error .notdir

def resolveWith (follow : Pos → List Component → Except Errno Target) (look : Pos → View) :
    Pos → List Component → Except Errno Target
  | pos, [] => .ok (.found pos)
  | _, .rootDir :: rest => resolveWith follow look [] rest
  | pos, .curDir :: rest =>
    match search look pos with
    | .error e => .error e
    | .ok () => resolveWith follow look pos rest
  | pos, .parentDir :: rest =>
    match search look pos with
    | .error e => .error e
    | .ok () => resolveWith follow look pos.dropLast rest
  | pos, .normal name :: rest =>
    match search look pos with
    | .error e => .error e
    | .ok () =>
      match look (pos ++ [name]) with
      | .absent => if rest = [] then .ok (.missing pos name) else .error .noent
      | .link target => follow pos (target ++ rest)
      | _ => resolveWith follow look (pos ++ [name]) rest

/-- Resolve `components` from `pos`, following at most `links` symbolic links. -/
def resolve (look : Pos → View) : Nat → Pos → List Component → Except Errno Target
  | 0 => resolveWith (fun _ _ => .error .loop) look
  | links + 1 => resolveWith (resolve look links) look

/-- Continue behind a link, if another one may still be followed. -/
def follow (look : Pos → View) : Nat → Pos → List Component → Except Errno Target
  | 0, _, _ => .error .loop
  | links + 1, pos, components => resolve look links pos components

/-- The position of an existing node. -/
def walk (look : Pos → View) (links : Nat) (pos : Pos) (components : List Component) :
    Except Errno Pos :=
  match resolve look links pos components with
  | .ok (.found p) => .ok p
  | .ok (.missing _ _) => .error .noent
  | .error e => .error e

section Equations

variable (look : Pos → View) (links : Nat) (pos : Pos) (name : String) (rest : List Component)

@[simp] theorem resolve_nil : resolve look links pos [] = .ok (.found pos) := by
  cases links <;> rfl

@[simp] theorem resolve_rootDir :
    resolve look links pos (.rootDir :: rest) = resolve look links [] rest := by
  cases links <;> rfl

theorem resolve_curDir :
    resolve look links pos (.curDir :: rest) =
      match search look pos with
      | .error e => .error e
      | .ok () => resolve look links pos rest := by
  cases links <;> rfl

theorem resolve_parentDir :
    resolve look links pos (.parentDir :: rest) =
      match search look pos with
      | .error e => .error e
      | .ok () => resolve look links pos.dropLast rest := by
  cases links <;> rfl

theorem resolve_normal :
    resolve look links pos (.normal name :: rest) =
      match search look pos with
      | .error e => .error e
      | .ok () =>
        match look (pos ++ [name]) with
        | .absent => if rest = [] then .ok (.missing pos name) else .error .noent
        | .link target => follow look links pos (target ++ rest)
        | _ => resolve look links (pos ++ [name]) rest := by
  cases links with
  | zero =>
    simp only [resolve, resolveWith, follow]
  | succ links =>
    simp only [resolve, resolveWith, follow]

end Equations

variable {look look' : Pos → View}

/-- Induction along a walk: over the components that are left, and, through a
    link, over the number of links that may still be followed. -/
theorem walk_induction {motive : Nat → Pos → List Component → Prop}
    (nil : ∀ links pos, motive links pos [])
    (rootDir : ∀ links pos rest, motive links [] rest → motive links pos (.rootDir :: rest))
    (curDir : ∀ links pos rest, motive links pos rest → motive links pos (.curDir :: rest))
    (parentDir : ∀ links (pos : Pos) rest, motive links pos.dropLast rest →
      motive links pos (.parentDir :: rest))
    (normal : ∀ links pos name rest, motive links (pos ++ [name]) rest →
      (∀ fewer components, links = fewer + 1 → motive fewer pos components) →
      motive links pos (.normal name :: rest))
    (links : Nat) (pos : Pos) (components : List Component) : motive links pos components := by
  induction links generalizing pos components with
  | zero =>
    induction components generalizing pos with
    | nil => exact nil 0 pos
    | cons c rest ih =>
      cases c with
      | rootDir => exact rootDir 0 pos rest (ih [])
      | curDir => exact curDir 0 pos rest (ih pos)
      | parentDir => exact parentDir 0 pos rest (ih pos.dropLast)
      | normal name =>
        exact normal 0 pos name rest (ih _) fun _ _ h => absurd h (Nat.succ_ne_zero _).symm
  | succ links ihl =>
    induction components generalizing pos with
    | nil => exact nil _ pos
    | cons c rest ih =>
      cases c with
      | rootDir => exact rootDir _ pos rest (ih [])
      | curDir => exact curDir _ pos rest (ih pos)
      | parentDir => exact parentDir _ pos rest (ih pos.dropLast)
      | normal name =>
        refine normal _ pos name rest (ih _) fun fewer components h => ?_
        obtain rfl : links = fewer := Nat.succ.inj h
        exact ihl pos components

theorem search_eq_ok {pos : Pos} : search look pos = .ok () ↔ look pos = .dir true := by
  unfold search
  split <;> simp_all

theorem search_congr {pos : Pos} (h : look pos = look' pos) :
    search look pos = search look' pos := by
  unfold search
  rw [h]

theorem walk_eq_ok {links : Nat} {pos p : Pos} {components : List Component} :
    walk look links pos components = .ok p ↔
      resolve look links pos components = .ok (.found p) := by
  unfold walk
  split <;> simp_all

/-! ### What a walk looks at -/

def looksWith (follow : Pos → List Component → List Pos) (look : Pos → View) :
    Pos → List Component → List Pos
  | _, [] => []
  | _, .rootDir :: rest => looksWith follow look [] rest
  | pos, .curDir :: rest => pos ::
    match search look pos with
    | .error _ => []
    | .ok () => looksWith follow look pos rest
  | pos, .parentDir :: rest => pos ::
    match search look pos with
    | .error _ => []
    | .ok () => looksWith follow look pos.dropLast rest
  | pos, .normal name :: rest => pos ::
    match search look pos with
    | .error _ => []
    | .ok () => (pos ++ [name]) ::
      match look (pos ++ [name]) with
      | .absent => []
      | .link target => follow pos (target ++ rest)
      | _ => looksWith follow look (pos ++ [name]) rest

/-- The positions a walk looks at, in order. -/
def looks (look : Pos → View) : Nat → Pos → List Component → List Pos
  | 0 => looksWith (fun _ _ => []) look
  | links + 1 => looksWith (looks look links) look

def followLooks (look : Pos → View) : Nat → Pos → List Component → List Pos
  | 0, _, _ => []
  | links + 1, pos, components => looks look links pos components

section Equations

variable (look : Pos → View) (links : Nat) (pos : Pos) (name : String) (rest : List Component)

@[simp] theorem looks_nil : looks look links pos [] = [] := by
  cases links <;> rfl

@[simp] theorem looks_rootDir :
    looks look links pos (.rootDir :: rest) = looks look links [] rest := by
  cases links <;> rfl

theorem looks_curDir :
    looks look links pos (.curDir :: rest) = pos ::
      match search look pos with
      | .error _ => []
      | .ok () => looks look links pos rest := by
  cases links <;> rfl

theorem looks_parentDir :
    looks look links pos (.parentDir :: rest) = pos ::
      match search look pos with
      | .error _ => []
      | .ok () => looks look links pos.dropLast rest := by
  cases links <;> rfl

theorem looks_normal :
    looks look links pos (.normal name :: rest) = pos ::
      match search look pos with
      | .error _ => []
      | .ok () => (pos ++ [name]) ::
        match look (pos ++ [name]) with
        | .absent => []
        | .link target => followLooks look links pos (target ++ rest)
        | _ => looks look links (pos ++ [name]) rest := by
  cases links with
  | zero =>
    simp only [looks, looksWith, followLooks]
  | succ links =>
    simp only [looks, looksWith, followLooks]

end Equations

/-- Two file systems that agree on what a walk looks at are the same to it. -/
theorem resolve_congr {links : Nat} {pos : Pos} {components : List Component}
    (h : ∀ q ∈ looks look links pos components, look q = look' q) :
    resolve look links pos components = resolve look' links pos components ∧
      looks look links pos components = looks look' links pos components := by
  induction links, pos, components using walk_induction with
  | nil => simp
  | rootDir links pos rest ih => simpa using ih (by simpa using h)
  | curDir links pos rest ih =>
    rw [looks_curDir] at h
    rw [resolve_curDir, resolve_curDir, looks_curDir, looks_curDir,
      ← search_congr (h pos List.mem_cons_self)]
    cases hs : search look pos with
    | error e => simp
    | ok _ =>
      have hrest := ih fun q hq => h q (by simp [hs, hq])
      simp [hrest]
  | parentDir links pos rest ih =>
    rw [looks_parentDir] at h
    rw [resolve_parentDir, resolve_parentDir, looks_parentDir, looks_parentDir,
      ← search_congr (h pos List.mem_cons_self)]
    cases hs : search look pos with
    | error e => simp
    | ok _ =>
      have hrest := ih fun q hq => h q (by simp [hs, hq])
      simp [hrest]
  | normal links pos name rest ih ihl =>
    rw [looks_normal] at h
    rw [resolve_normal, resolve_normal, looks_normal, looks_normal,
      ← search_congr (h pos List.mem_cons_self)]
    cases hs : search look pos with
    | error e => simp
    | ok _ =>
      simp only [hs, List.mem_cons, forall_eq_or_imp] at h
      obtain ⟨-, hname, h⟩ := h
      simp only [← hname]
      cases hv : look (pos ++ [name]) with
      | absent => simp
      | link target =>
        simp only [hv] at h
        cases links with
        | zero => simp [follow, followLooks]
        | succ links =>
          have hrest := ihl links (target ++ rest) rfl h
          simp [follow, followLooks, hrest]
      | dir searchable =>
        have hrest := ih (by simpa [hv] using h)
        simp [hrest]
      | other =>
        have hrest := ih (by simpa [hv] using h)
        simp [hrest]

/-- A walk that ends at a node has only looked at nodes that exist. -/
theorem ne_absent_of_mem_looks {links : Nat} {pos p : Pos} {components : List Component}
    (h : resolve look links pos components = .ok (.found p)) :
    ∀ q ∈ looks look links pos components, look q ≠ .absent := by
  induction links, pos, components using walk_induction with
  | nil => simp
  | rootDir links pos rest ih => simpa using ih (by simpa using h)
  | curDir links pos rest ih =>
    rw [resolve_curDir] at h
    rw [looks_curDir]
    cases hs : search look pos with
    | error e => simp [hs] at h
    | ok _ => simpa [search_eq_ok.mp hs, hs] using ih (by simpa [hs] using h)
  | parentDir links pos rest ih =>
    rw [resolve_parentDir] at h
    rw [looks_parentDir]
    cases hs : search look pos with
    | error e => simp [hs] at h
    | ok _ => simpa [search_eq_ok.mp hs, hs] using ih (by simpa [hs] using h)
  | normal links pos name rest ih ihl =>
    rw [resolve_normal] at h
    rw [looks_normal]
    cases hs : search look pos with
    | error e => simp [hs] at h
    | ok _ =>
      simp only [hs] at h
      cases hv : look (pos ++ [name]) with
      | absent =>
        simp only [hv] at h
        split at h <;> cases h
      | link target =>
        cases links with
        | zero => simp [hv, follow] at h
        | succ links =>
          have hrest := ihl links (target ++ rest) rfl (by simpa [hv, follow] using h)
          simpa [search_eq_ok.mp hs, hv, followLooks] using hrest
      | dir searchable =>
        simpa [search_eq_ok.mp hs, hs, hv] using ih (by simpa [hv] using h)
      | other =>
        simpa [search_eq_ok.mp hs, hs, hv] using ih (by simpa [hv] using h)

/-- What appears where nothing was does not disturb a walk that succeeded. -/
theorem walk_extend (hext : ∀ q, look q ≠ .absent → look' q = look q) {links : Nat} {pos p : Pos}
    {components : List Component} (h : walk look links pos components = .ok p) :
    walk look' links pos components = .ok p := by
  rw [walk_eq_ok] at h ⊢
  rw [← h]
  refine (resolve_congr fun q hq => ?_).1.symm
  exact (hext q (ne_absent_of_mem_looks h q hq)).symm

/-- Where nodes have only gone, a walk leads where it led before, or nowhere. -/
theorem walk_thinned (hthin : ∀ q, look q ≠ .absent → look' q = look q ∨ look' q = .absent)
    {links : Nat} {pos p : Pos} {components : List Component}
    (h : walk look links pos components = .ok p) :
    walk look' links pos components = .ok p ∨ ∃ e, walk look' links pos components = .error e := by
  have hsearch : ∀ q, search look q = .ok () →
      search look' q = .ok () ∨ search look' q = .error .noent := by
    intro q hq
    rw [search_eq_ok] at hq
    rcases hthin q (by simp [hq]) with hsame | hgone
    · exact Or.inl (search_eq_ok.mpr (hsame.trans hq))
    · exact Or.inr (by simp [search, hgone])
  rw [walk_eq_ok] at h
  induction links, pos, components using walk_induction with
  | nil links pos =>
    left
    rw [walk_eq_ok]
    simpa using h
  | rootDir links pos rest ih =>
    have hrest := ih (by simpa using h)
    simpa only [walk, resolve_rootDir] using hrest
  | curDir links pos rest ih =>
    rw [resolve_curDir] at h
    split at h
    · cases h
    · rename_i hs
      rcases hsearch pos hs with hs' | hs'
      · have hrest := ih h
        simpa only [walk, resolve_curDir, hs'] using hrest
      · exact Or.inr ⟨.noent, by simp only [walk, resolve_curDir, hs']⟩
  | parentDir links pos rest ih =>
    rw [resolve_parentDir] at h
    split at h
    · cases h
    · rename_i hs
      rcases hsearch pos hs with hs' | hs'
      · have hrest := ih h
        simpa only [walk, resolve_parentDir, hs'] using hrest
      · exact Or.inr ⟨.noent, by simp only [walk, resolve_parentDir, hs']⟩
  | normal links pos name rest ih ihl =>
    rw [resolve_normal] at h
    split at h
    · cases h
    · rename_i hs
      rcases hsearch pos hs with hs' | hs'
      · by_cases hv : look (pos ++ [name]) = .absent
        · rw [hv] at h
          simp only at h
          split at h <;> cases h
        · rcases hthin _ hv with hsame | hgone
          · simp only [walk, resolve_normal, hs', hsame]
            split at h
            · exact absurd ‹_› hv
            · rename_i target htarget
              cases links with
              | zero => cases h
              | succ links => exact ihl links _ rfl h
            · rename_i hnot hnolink
              have hrest := ih h
              cases hview : look (pos ++ [name]) with
              | absent => exact absurd hview hv
              | link target => exact absurd hview (hnolink target)
              | dir searchable => exact hrest
              | other => exact hrest
          · right
            by_cases hrest : rest = []
            · exact ⟨.noent, by simp [walk, resolve_normal, hs', hgone, hrest]⟩
            · exact ⟨.noent, by simp [walk, resolve_normal, hs', hgone, hrest]⟩
      · exact Or.inr ⟨.noent, by simp only [walk, resolve_normal, hs']⟩

/-- Where things have only gone, a walk looks at nothing new. -/
theorem looks_thinned {look look' : Pos → View}
    (hthin : ∀ q, look' q = look q ∨ look' q = .absent) {links : Nat} {pos : Pos}
    {components : List Component} :
    looks look' links pos components ⊆ looks look links pos components := by
  have hsearch : ∀ {q}, search look' q = .ok () → search look q = .ok () := by
    intro q hq
    rw [search_eq_ok] at hq ⊢
    rcases hthin q with hsame | hgone
    · rw [← hsame, hq]
    · rw [hgone] at hq
      cases hq
  induction links, pos, components using walk_induction with
  | nil links pos => simp
  | rootDir links pos rest ih => simpa using ih
  | curDir links pos rest ih =>
    rw [looks_curDir, looks_curDir]
    apply List.cons_subset_cons
    cases hs : search look' pos with
    | error e => simp
    | ok _ =>
      rw [hsearch hs]
      exact ih
  | parentDir links pos rest ih =>
    rw [looks_parentDir, looks_parentDir]
    apply List.cons_subset_cons
    cases hs : search look' pos with
    | error e => simp
    | ok _ =>
      rw [hsearch hs]
      exact ih
  | normal links pos name rest ih ihl =>
    rw [looks_normal, looks_normal]
    apply List.cons_subset_cons
    cases hs : search look' pos with
    | error e => simp
    | ok _ =>
      rw [hsearch hs]
      apply List.cons_subset_cons
      rcases hthin (pos ++ [name]) with hsame | hgone
      · rw [hsame]
        cases hv : look (pos ++ [name]) with
        | absent => simp
        | link target =>
          cases links with
          | zero => simp [followLooks]
          | succ links => exact ihl links (target ++ rest) rfl
        | dir searchable => exact ih
        | other => exact ih
      · simp [hgone]

/-- A walk that did not come near `B` leads where it led, or nowhere, when things have gone
    elsewhere and anything has happened at `B`. -/
theorem walk_beside {look look' : Pos → View} {links : Nat} {pos p B : Pos}
    {components : List Component} (h : walk look links pos components = .ok p)
    (hB : ∀ q ∈ looks look links pos components, ¬ B <+: q)
    (hsame : ∀ q, ¬ B <+: q → look' q = look q ∨ look' q = .absent) :
    walk look' links pos components = .ok p ∨ ∃ e, walk look' links pos components = .error e := by
  let between := fun q => if B <+: q then look q else look' q
  have hthin : ∀ q, between q = look q ∨ between q = .absent := by
    intro q
    by_cases hq : B <+: q
    · exact Or.inl (if_pos hq)
    · simp only [between, if_neg hq]
      exact hsame q hq
  have hcongr := @resolve_congr between look' links pos components fun q hq =>
    if_neg (hB q (looks_thinned hthin hq))
  have hwalk : walk look' links pos components = walk between links pos components := by
    rw [walk, ← hcongr.1, ← walk]
  rw [hwalk]
  exact walk_thinned (fun q _ => hthin q) h

/-- A walk that ends at a node ends at one that exists. -/
theorem ne_absent_of_walk {links : Nat} {pos p : Pos} {components : List Component}
    (hpos : look pos ≠ .absent) (hroot : look [] ≠ .absent)
    (hup : ∀ q, look q ≠ .absent → look q.dropLast ≠ .absent)
    (h : walk look links pos components = .ok p) : look p ≠ .absent := by
  rw [walk_eq_ok] at h
  induction links, pos, components using walk_induction with
  | nil links pos =>
    obtain rfl : pos = p := by simpa using h
    exact hpos
  | rootDir links pos rest ih => exact ih hroot (by simpa using h)
  | curDir links pos rest ih =>
    rw [resolve_curDir] at h
    split at h
    · cases h
    · exact ih hpos h
  | parentDir links pos rest ih =>
    rw [resolve_parentDir] at h
    split at h
    · cases h
    · exact ih (hup pos hpos) h
  | normal links pos name rest ih ihl =>
    rw [resolve_normal] at h
    split at h
    · cases h
    · split at h
      · split at h <;> cases h
      · cases links with
        | zero => cases h
        | succ links => exact ihl links _ rfl hpos h
      · rename_i hv _
        exact ih hv h

/-- A longer path first walks its beginning, and then the rest from there with
    the links that are left. -/
theorem resolve_append {links : Nat} {pos : Pos} {cs : List Component} (ds : List Component)
    (hds : ds ≠ []) :
    (∀ p, walk look links pos cs = .ok p →
      ∃ fewer, fewer ≤ links ∧ resolve look links pos (cs ++ ds) = resolve look fewer p ds ∧
        looks look links pos (cs ++ ds) = looks look links pos cs ++ looks look fewer p ds) ∧
    ∀ e, walk look links pos cs = .error e →
      resolve look links pos (cs ++ ds) = .error e ∧
        looks look links pos (cs ++ ds) = looks look links pos cs := by
  unfold walk
  induction links, pos, cs using walk_induction with
  | nil links pos => simpa using ⟨links, Nat.le_refl links, rfl, rfl⟩
  | rootDir links pos rest ih => simpa using ih
  | curDir links pos rest ih =>
    rw [List.cons_append, resolve_curDir, resolve_curDir, looks_curDir, looks_curDir]
    cases hs : search look pos with
    | error e => simp
    | ok _ => simpa using ih
  | parentDir links pos rest ih =>
    rw [List.cons_append, resolve_parentDir, resolve_parentDir, looks_parentDir, looks_parentDir]
    cases hs : search look pos with
    | error e => simp
    | ok _ => simpa using ih
  | normal links pos name rest ih ihl =>
    rw [List.cons_append, resolve_normal, resolve_normal, looks_normal, looks_normal]
    cases hs : search look pos with
    | error e => simp
    | ok _ =>
      cases hv : look (pos ++ [name]) with
      | absent =>
        have hne : rest ++ ds ≠ [] := by simp [hds]
        by_cases hrest : rest = [] <;> simp [hrest, hds]
      | link target =>
        cases links with
        | zero => simp [follow, followLooks]
        | succ links =>
          have hfollow := ihl links (target ++ rest) rfl
          simp only [List.append_assoc] at hfollow
          simp only [follow, followLooks]
          refine ⟨fun p hp => ?_, fun e he => ?_⟩
          · obtain ⟨fewer, hle, hres, hlooks⟩ := hfollow.1 p hp
            exact ⟨fewer, Nat.le_succ_of_le hle, hres, by simp [hlooks]⟩
          · obtain ⟨hres, hlooks⟩ := hfollow.2 e he
            exact ⟨hres, by simp [hlooks]⟩
      | dir searchable => simpa using ih
      | other => simpa using ih

/-- The last step of a walk by name. -/
theorem walk_concat {links : Nat} {pos p : Pos} {parent : List Component} {name : String}
    (h : walk look links pos (parent ++ [.normal name]) = .ok p) :
    ∃ dir, walk look links pos parent = .ok dir ∧ look dir = .dir true ∧
      look (dir ++ [name]) ≠ .absent := by
  rw [walk_eq_ok] at h
  rcases hparent : walk look links pos parent with e | dir
  · rw [((resolve_append [.normal name] (by simp)).2 e hparent).1] at h
    cases h
  · obtain ⟨fewer, -, hres, -⟩ := (resolve_append [.normal name] (by simp)).1 dir hparent
    rw [hres, resolve_normal] at h
    refine ⟨dir, rfl, ?_⟩
    split at h
    · cases h
    · rename_i hs
      refine ⟨search_eq_ok.mp hs, fun habsent => ?_⟩
      rw [habsent] at h
      simp at h

/-- One more name, of a node that is no link, leads to that node. -/
theorem walk_child {links : Nat} {pos dir : Pos} {parent : List Component} {name : String}
    (hwalk : walk look links pos parent = .ok dir) (hdir : look dir = .dir true)
    (hpresent : look (dir ++ [name]) ≠ .absent)
    (hlink : ∀ target, look (dir ++ [name]) ≠ .link target) :
    walk look links pos (parent ++ [.normal name]) = .ok (dir ++ [name]) := by
  obtain ⟨fewer, -, hres, -⟩ := (resolve_append [.normal name] (by simp)).1 dir hwalk
  rw [walk_eq_ok, hres, resolve_normal, search_eq_ok.mpr hdir]
  cases hview : look (dir ++ [name]) with
  | absent => exact absurd hview hpresent
  | link target => exact absurd hview (hlink target)
  | dir searchable => simp
  | other => simp

theorem walk_missing {links : Nat} {pos dir : Pos} {parent : List Component} {name : String}
    (hwalk : walk look links pos parent = .ok dir) (hdir : look dir = .dir true)
    (habsent : look (dir ++ [name]) = .absent) :
    walk look links pos (parent ++ [.normal name]) = .error .noent := by
  obtain ⟨fewer, -, hres, -⟩ := (resolve_append [.normal name] (by simp)).1 dir hwalk
  rw [walk, hres, resolve_normal, search_eq_ok.mpr hdir, habsent]
  simp

/-- A walk that had a link to spare leaves one to the rest of the path. -/
theorem resolve_append_spare {links : Nat} {pos p : Pos} {cs : List Component}
    (ds : List Component) (h : walk look links pos cs = .ok p) :
    ∃ fewer, resolve look (links + 1) pos (cs ++ ds) = resolve look (fewer + 1) p ds := by
  rw [walk_eq_ok] at h
  induction links, pos, cs using walk_induction with
  | nil links pos =>
    obtain rfl : pos = p := by simpa using h
    exact ⟨links, rfl⟩
  | rootDir links pos rest ih => simpa using ih (by simpa using h)
  | curDir links pos rest ih =>
    rw [resolve_curDir] at h
    rw [List.cons_append, resolve_curDir]
    cases hs : search look pos with
    | error e => simp [hs] at h
    | ok _ => exact ih (by simpa [hs] using h)
  | parentDir links pos rest ih =>
    rw [resolve_parentDir] at h
    rw [List.cons_append, resolve_parentDir]
    cases hs : search look pos with
    | error e => simp [hs] at h
    | ok _ => exact ih (by simpa [hs] using h)
  | normal links pos name rest ih ihl =>
    rw [resolve_normal] at h
    rw [List.cons_append, resolve_normal]
    cases hs : search look pos with
    | error e => simp [hs] at h
    | ok _ =>
      simp only [hs] at h
      cases hv : look (pos ++ [name]) with
      | absent =>
        simp only [hv] at h
        split at h <;> cases h
      | link target =>
        simp only [hv] at h
        cases links with
        | zero => simp [follow] at h
        | succ links =>
          obtain ⟨fewer, hres⟩ := ihl links (target ++ rest) rfl h
          refine ⟨fewer, ?_⟩
          rw [List.append_assoc] at hres
          exact hres
      | dir searchable =>
        simp only [hv] at h
        exact ih h
      | other =>
        simp only [hv] at h
        exact ih h

/-- Without links, a walk goes on from where a part of it has led. -/
theorem resolve_append_of_no_link (hlink : ∀ q target, look q ≠ .link target) {links : Nat}
    {pos p : Pos} {cs : List Component} (ds : List Component)
    (h : walk look links pos cs = .ok p) :
    resolve look links pos (cs ++ ds) = resolve look links p ds := by
  rw [walk_eq_ok] at h
  induction cs generalizing pos with
  | nil =>
    obtain rfl : pos = p := by simpa using h
    rfl
  | cons c cs ih =>
    rw [List.cons_append]
    cases c with
    | rootDir =>
      rw [resolve_rootDir] at h ⊢
      exact ih h
    | curDir =>
      rw [resolve_curDir] at h ⊢
      cases hs : search look pos with
      | error e => simp [hs] at h
      | ok _ => exact ih (by simpa [hs] using h)
    | parentDir =>
      rw [resolve_parentDir] at h ⊢
      cases hs : search look pos with
      | error e => simp [hs] at h
      | ok _ => exact ih (by simpa [hs] using h)
    | normal name =>
      rw [resolve_normal] at h ⊢
      cases hs : search look pos with
      | error e => simp [hs] at h
      | ok _ =>
        simp only [hs] at h ⊢
        cases hv : look (pos ++ [name]) with
        | absent =>
          simp only [hv] at h
          split at h <;> cases h
        | link target => exact absurd hv (hlink _ target)
        | dir searchable =>
          simp only [hv] at h
          exact ih h
        | other =>
          simp only [hv] at h
          exact ih h

/-- The ways a walk can fail. -/
theorem walk_error {links : Nat} {pos : Pos} {components : List Component} {e : Errno}
    (h : walk look links pos components = .error e) :
    e = .noent ∨ e = .acces ∨ e = .notdir ∨ e = .loop := by
  have hsearch : ∀ pos e, search look pos = .error e → e = .noent ∨ e = .acces ∨ e = .notdir := by
    intro pos e hs
    unfold search at hs
    split at hs <;> simp_all
  have hsearch' : ∀ pos e, search look pos = .error e →
      e = .noent ∨ e = .acces ∨ e = .notdir ∨ e = .loop := by
    intro pos e hs
    rcases hsearch pos e hs with he | he | he <;> simp [he]
  unfold walk at h
  induction links, pos, components using walk_induction with
  | nil links pos => simp at h
  | rootDir links pos rest ih => exact ih (by simpa using h)
  | curDir links pos rest ih =>
    rw [resolve_curDir] at h
    cases hs : search look pos with
    | error e' =>
      obtain rfl : e' = e := by simpa [hs] using h
      exact hsearch' pos e' hs
    | ok _ => exact ih (by simpa [hs] using h)
  | parentDir links pos rest ih =>
    rw [resolve_parentDir] at h
    cases hs : search look pos with
    | error e' =>
      obtain rfl : e' = e := by simpa [hs] using h
      exact hsearch' pos e' hs
    | ok _ => exact ih (by simpa [hs] using h)
  | normal links pos name rest ih ihl =>
    rw [resolve_normal] at h
    cases hs : search look pos with
    | error e' =>
      obtain rfl : e' = e := by simpa [hs] using h
      exact hsearch' pos e' hs
    | ok _ =>
      simp only [hs] at h
      cases hv : look (pos ++ [name]) with
      | absent =>
        simp only [hv] at h
        by_cases hrest : rest = []
        · simp [hrest] at h
          simp [← h]
        · simp [hrest] at h
          simp [← h]
      | link target =>
        simp only [hv] at h
        cases links with
        | zero =>
          simp [follow] at h
          simp [← h]
        | succ links => exact ihl links _ rfl h
      | dir searchable =>
        simp only [hv] at h
        exact ih h
      | other =>
        simp only [hv] at h
        exact ih h

/-! ### Walks and regions -/

section Region

/-- Every name in a list of components can be a file name. -/
def ProperNames (components : List Component) : Prop :=
  ∀ name, .normal name ∈ components → Proper name

variable {V : Pos → Prop}

/-- A region that is closed upwards contains the end of a walk that only looks
    into the region. -/
theorem region_of_walk (hroot : V []) (hup : ∀ p, V p → V p.dropLast) {links : Nat} {pos p : Pos}
    {components : List Component} (hpos : V pos)
    (hlooks : ∀ q ∈ looks look links pos components, V q)
    (h : walk look links pos components = .ok p) : V p := by
  rw [walk_eq_ok] at h
  induction links, pos, components using walk_induction with
  | nil links pos =>
    obtain rfl : pos = p := by simpa using h
    exact hpos
  | rootDir links pos rest ih => exact ih hroot (by simpa using hlooks) (by simpa using h)
  | curDir links pos rest ih =>
    rw [resolve_curDir] at h
    rw [looks_curDir] at hlooks
    cases hs : search look pos with
    | error e => simp [hs] at h
    | ok _ =>
      simp only [hs, List.forall_mem_cons] at h hlooks
      exact ih hpos hlooks.2 h
  | parentDir links pos rest ih =>
    rw [resolve_parentDir] at h
    rw [looks_parentDir] at hlooks
    cases hs : search look pos with
    | error e => simp [hs] at h
    | ok _ =>
      simp only [hs, List.forall_mem_cons] at h hlooks
      exact ih (hup pos hpos) hlooks.2 h
  | normal links pos name rest ih ihl =>
    rw [resolve_normal] at h
    rw [looks_normal] at hlooks
    cases hs : search look pos with
    | error e => simp [hs] at h
    | ok _ =>
      simp only [hs, List.forall_mem_cons] at h hlooks
      obtain ⟨-, hname, hlooks⟩ := hlooks
      cases hv : look (pos ++ [name]) with
      | absent =>
        simp only [hv] at h
        split at h <;> cases h
      | link target =>
        simp only [hv] at h hlooks
        cases links with
        | zero => simp [follow] at h
        | succ links => exact ihl links _ rfl hpos hlooks h
      | dir searchable =>
        simp only [hv] at h hlooks
        exact ih hname hlooks h
      | other =>
        simp only [hv] at h hlooks
        exact ih hname hlooks h

/-- A link to itself uses up every link a walk may follow. -/
theorem resolve_self_link {pos : Pos} {name : String} (hpos : look pos = .dir true)
    (hlink : look (pos ++ [name]) = .link [.normal name]) (links : Nat) (rest : List Component) :
    resolve look links pos (.normal name :: rest) = .error .loop := by
  induction links with
  | zero => simp [resolve_normal, search_eq_ok.mpr hpos, hlink, follow]
  | succ links ih => simpa [resolve_normal, search_eq_ok.mpr hpos, hlink, follow] using ih

/-- A walk that looks out of a region first does so at one name of a directory
    inside, and what stands there decides between two different failures. -/
theorem walk_escape (hroot : V []) (hup : ∀ p, V p → V p.dropLast)
    (hlinks : ∀ q target, look q = .link target → ProperNames target) {links : Nat} {pos : Pos}
    {components : List Component} (hproper : ProperNames components) (hpos : V pos)
    (hlooks : ¬ ∀ q ∈ looks look links pos components, V q) :
    ∃ dir name, ¬ V (dir ++ [name]) ∧ Proper name ∧ look dir = .dir true ∧
      ∀ look' : Pos → View, (∀ q, V q → look' q = look q) →
        (look' (dir ++ [name]) = .absent → walk look' links pos components = .error .noent) ∧
        (look' (dir ++ [name]) = .link [.normal name] →
          walk look' links pos components = .error .loop) := by
  unfold walk
  induction links, pos, components using walk_induction with
  | nil links pos => simp at hlooks
  | rootDir links pos rest ih =>
    simpa using ih (fun n hn => hproper n (List.mem_cons_of_mem _ hn)) hroot (by simpa using hlooks)
  | curDir links pos rest ih =>
    rw [looks_curDir] at hlooks
    cases hs : search look pos with
    | error e => simp [hs, hpos] at hlooks
    | ok _ =>
      obtain ⟨dir, name, hout, hname, hdir, hdecide⟩ :=
        ih (fun n hn => hproper n (List.mem_cons_of_mem _ hn)) hpos
          (by simpa [hs, hpos] using hlooks)
      refine ⟨dir, name, hout, hname, hdir, fun look' hagree => ?_⟩
      rw [resolve_curDir, search_congr (hagree pos hpos), hs]
      exact hdecide look' hagree
  | parentDir links pos rest ih =>
    rw [looks_parentDir] at hlooks
    cases hs : search look pos with
    | error e => simp [hs, hpos] at hlooks
    | ok _ =>
      obtain ⟨dir, name, hout, hname, hdir, hdecide⟩ :=
        ih (fun n hn => hproper n (List.mem_cons_of_mem _ hn)) (hup pos hpos)
          (by simpa [hs, hpos] using hlooks)
      refine ⟨dir, name, hout, hname, hdir, fun look' hagree => ?_⟩
      rw [resolve_parentDir, search_congr (hagree pos hpos), hs]
      exact hdecide look' hagree
  | normal links pos name rest ih ihl =>
    rw [looks_normal] at hlooks
    have hrest : ProperNames rest := fun n hn => hproper n (List.mem_cons_of_mem _ hn)
    cases hs : search look pos with
    | error e => simp [hs, hpos] at hlooks
    | ok _ =>
      have hsearch : ∀ look' : Pos → View, (∀ q, V q → look' q = look q) →
          search look' pos = .ok () := fun look' hagree => by
        rw [search_congr (hagree pos hpos), hs]
      by_cases hin : V (pos ++ [name])
      · -- the look at this name stays inside; the escape comes later
        have hlooks' : ¬ ∀ q ∈ (match look (pos ++ [name]) with
            | .absent => []
            | .link target => followLooks look links pos (target ++ rest)
            | _ => looks look links (pos ++ [name]) rest), V q := by
          simpa [hs, hpos, hin] using hlooks
        cases hv : look (pos ++ [name]) with
        | absent => simp [hv] at hlooks'
        | link target =>
          simp only [hv] at hlooks'
          cases links with
          | zero => simp [followLooks] at hlooks'
          | succ links =>
            have hproper' : ProperNames (target ++ rest) := fun n hn => by
              rcases List.mem_append.mp hn with hn | hn
              · exact hlinks _ _ hv n hn
              · exact hrest n hn
            obtain ⟨dir, name', hout, hname, hdir, hdecide⟩ :=
              ihl links (target ++ rest) rfl hproper' hpos hlooks'
            refine ⟨dir, name', hout, hname, hdir, fun look' hagree => ?_⟩
            simp only [resolve_normal, hsearch look' hagree, hagree _ hin, hv, follow]
            exact hdecide look' hagree
        | dir searchable =>
          simp only [hv] at hlooks'
          obtain ⟨dir, name', hout, hname, hdir, hdecide⟩ := ih hrest hin hlooks'
          refine ⟨dir, name', hout, hname, hdir, fun look' hagree => ?_⟩
          simp only [resolve_normal, hsearch look' hagree, hagree _ hin, hv]
          exact hdecide look' hagree
        | other =>
          simp only [hv] at hlooks'
          obtain ⟨dir, name', hout, hname, hdir, hdecide⟩ := ih hrest hin hlooks'
          refine ⟨dir, name', hout, hname, hdir, fun look' hagree => ?_⟩
          simp only [resolve_normal, hsearch look' hagree, hagree _ hin, hv]
          exact hdecide look' hagree
      · refine ⟨pos, name, hin, hproper name (by simp), search_eq_ok.mp hs, fun look' hagree => ?_⟩
        refine ⟨fun habsent => ?_, fun hlink => ?_⟩
        · simp only [resolve_normal, hsearch look' hagree, habsent]
          by_cases hnil : rest = [] <;> simp [hnil]
        · rw [resolve_self_link (search_eq_ok.mp (hsearch look' hagree)) hlink]

end Region

/-! ### Walks without links -/

/-- Without links on the way, a walk ends where the path lexically says. -/
theorem resolve_lexical (hlink : ∀ q target, look q ≠ .link target) {links : Nat} {pos : Pos}
    {components : List Component} :
    (∀ p, resolve look links pos components = .ok (.found p) → p = lexical pos components) ∧
      ∀ dir name, resolve look links pos components = .ok (.missing dir name) →
        dir ++ [name] = lexical pos components := by
  induction links, pos, components using walk_induction with
  | nil links pos => simp
  | rootDir links pos rest ih => simpa [lexicalStep] using ih
  | curDir links pos rest ih =>
    rw [resolve_curDir]
    split
    · simp
    · simpa [lexicalStep] using ih
  | parentDir links pos rest ih =>
    rw [resolve_parentDir]
    split
    · simp
    · simpa [lexicalStep] using ih
  | normal links pos name rest ih =>
    rw [resolve_normal]
    split
    · simp
    · split
      · split
        · rename_i hrest
          simp [hrest, lexicalStep]
        · simp
      · exact absurd ‹_› (hlink _ _)
      · simpa [lexicalStep] using ih

theorem walk_eq_lexical (hlink : ∀ q target, look q ≠ .link target) {links : Nat} {pos p : Pos}
    {components : List Component} (h : walk look links pos components = .ok p) :
    p = lexical pos components :=
  (resolve_lexical hlink).1 p (walk_eq_ok.mp h)

/-- Descending by names through directories, whatever the last name denotes. -/
theorem resolve_names {links : Nat} {pos names : Pos} {name : String}
    (hdirs : ∀ p, pos <+: p → p <+: pos ++ names → look p = .dir true)
    (rest : List Component) :
    resolve look links pos ((names ++ [name]).map .normal ++ rest) =
      resolve look links (pos ++ names) (.normal name :: rest) := by
  induction names generalizing pos with
  | nil => simp
  | cons first names ih =>
    have hpos : look pos = .dir true := hdirs pos List.prefix_rfl (List.prefix_append _ _)
    have hfirst : look (pos ++ [first]) = .dir true :=
      hdirs _ (List.prefix_append _ _) (by simp [List.prefix_append_right_inj])
    rw [List.cons_append, List.map_cons, List.cons_append, resolve_normal,
      search_eq_ok.mpr hpos]
    simp only [hfirst]
    rw [ih fun p hp hp' => hdirs p ((List.prefix_append _ _).trans hp) (by simpa using hp')]
    simp

/-- The canonical path of a node reached through directories names that node. -/
theorem walk_canonical {links : Nat} {p : Pos}
    (hdirs : ∀ q, q <+: p → q ≠ p → look q = .dir true)
    (habsent : look p ≠ .absent) (hlink : ∀ target, look p ≠ .link target) :
    walk look links [] (canonical p) = .ok p := by
  rw [walk_eq_ok, canonical, resolve_rootDir]
  cases p using List.reverseRecOn with
  | nil => simp
  | append_singleton names name =>
    have hup : ∀ q, [] <+: q → q <+: [] ++ names → look q = .dir true := by
      intro q _ hq
      refine hdirs q (hq.trans (by simp)) ?_
      rintro rfl
      exact absurd hq.length_le (by simp)
    have h : resolve look links [] ((names ++ [name]).map .normal ++ []) = _ :=
      resolve_names hup []
    rw [List.append_nil] at h
    rw [h, resolve_normal, List.nil_append, search_eq_ok.mpr (hdirs names (by simp) (by simp))]
    cases hv : look (names ++ [name]) with
    | absent => exact absurd hv habsent
    | link target => exact absurd hv (hlink target)
    | dir searchable => simp
    | other => simp

end Posix
