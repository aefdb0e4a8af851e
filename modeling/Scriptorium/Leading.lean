import Scriptorium.Extraction

/-!
# Paths that lead somewhere, whatever stands there

The directory of a transfer is named by a path that may pass through links.  `Leads` says
where such a path ends, and that the entries of that directory which the transfer changes
are not on its way.  Below an entry that holds no links, its path and the canonical one
name the same files: a program that is run on the one is run on the other.
-/

namespace Posix

/-- A walk has passed through all directories above its end. -/
theorem searchable_above {look : Pos → View} {links : Nat} {pos p : Pos}
    {components : List Component} (hpos : ∀ q, q <+: pos → q ≠ pos → look q = .dir true)
    (h : walk look links pos components = .ok p) : ∀ q, q <+: p → q ≠ p → look q = .dir true := by
  rw [walk_eq_ok] at h
  induction links, pos, components using walk_induction with
  | nil links pos =>
    obtain rfl : pos = p := by simpa using h
    exact hpos
  | rootDir links pos rest ih =>
    apply ih _ (by simpa using h)
    intro q hq hne
    exact absurd (List.prefix_nil.mp hq) hne
  | curDir links pos rest ih =>
    rw [resolve_curDir] at h
    split at h
    · cases h
    · exact ih hpos h
  | parentDir links pos rest ih =>
    rw [resolve_parentDir] at h
    split at h
    · cases h
    · apply ih _ h
      intro q hq hne
      apply hpos q (hq.trans (List.dropLast_prefix pos))
      rintro rfl
      exact hne (hq.eq_of_length_le (List.dropLast_prefix q).length_le)
  | normal links pos name rest ih ihl =>
    rw [resolve_normal] at h
    split at h
    · cases h
    · rename_i hs
      have hbelow : ∀ q, q <+: pos ++ [name] → q ≠ pos ++ [name] → look q = .dir true := by
        intro q hq hne
        have hq' := (List.prefix_concat_iff.mp hq).resolve_left hne
        by_cases heq : q = pos
        · rw [heq, search_eq_ok.mp hs]
        · exact hpos q hq' heq
      split at h
      · split at h <;> cases h
      · cases links with
        | zero => cases h
        | succ links => exact ihl links _ rfl hpos h
      · exact ih hbelow h

/-- Where there are no links, it does not matter how many may be followed. -/
theorem resolve_links {look : Pos → View} (links fewer : Nat) (pos names : Pos)
    (hplain : ∀ q target, look (pos ++ q) ≠ .link target) :
    resolve look links pos (names.map .normal) = resolve look fewer pos (names.map .normal) := by
  induction names generalizing pos with
  | nil => simp
  | cons first names ih =>
    have hrest := ih (pos ++ [first]) fun q target => by
      rw [List.append_assoc]
      exact hplain _ target
    rw [List.map_cons, resolve_normal, resolve_normal, hrest]
    rcases search look pos with e | _
    · rfl
    · rcases hview : look (pos ++ [first]) with _ | searchable | target | _
      · rfl
      · rfl
      · exact absurd hview (hplain [first] target)
      · rfl

/-- A walk that comes to a directory has set out from one. -/
theorem dir_of_resolve {look : Pos → View} {links : Nat} {pos p : Pos} {components : List Component}
    (hroot : .rootDir ∉ components) (hp : ∃ searchable, look p = .dir searchable)
    (h : resolve look links pos components = .ok (.found p)) : ∃ searchable,
      look pos = .dir searchable := by
  cases components with
  | nil =>
    obtain rfl : pos = p := by simpa using h
    exact hp
  | cons c rest =>
    cases c with
    | rootDir => exact absurd List.mem_cons_self hroot
    | curDir =>
      rw [resolve_curDir] at h
      cases hs : search look pos with
      | error e => simp [hs] at h
      | ok _ => exact ⟨true, search_eq_ok.mp hs⟩
    | parentDir =>
      rw [resolve_parentDir] at h
      cases hs : search look pos with
      | error e => simp [hs] at h
      | ok _ => exact ⟨true, search_eq_ok.mp hs⟩
    | normal name =>
      rw [resolve_normal] at h
      cases hs : search look pos with
      | error e => simp [hs] at h
      | ok _ => exact ⟨true, search_eq_ok.mp hs⟩

/-- Nor has it looked at anything but directories and links, when a root can only stand at
    the head of a path. -/
theorem ne_other_of_mem_looks {look : Pos → View} {links : Nat} {pos p : Pos}
    {components : List Component} (hroot : .rootDir ∉ components.tail)
    (hlinks : ∀ q target, look q = .link target → .rootDir ∉ target.tail)
    (hp : ∃ searchable, look p = .dir searchable)
    (h : resolve look links pos components = .ok (.found p)) :
    ∀ q ∈ looks look links pos components, look q ≠ .other := by
  have htail : ∀ {rest : List Component}, .rootDir ∉ rest → .rootDir ∉ rest.tail :=
    fun hrest hmem => hrest (List.mem_of_mem_tail hmem)
  induction links, pos, components using walk_induction with
  | nil => simp
  | rootDir links pos rest ih => simpa using ih (htail hroot) (by simpa using h)
  | curDir links pos rest ih =>
    rw [resolve_curDir] at h
    rw [looks_curDir]
    cases hs : search look pos with
    | error e => simp [hs] at h
    | ok _ =>
      simp only [hs] at h
      simp only [List.mem_cons, forall_eq_or_imp, search_eq_ok.mp hs]
      exact ⟨by simp, ih (htail hroot) h⟩
  | parentDir links pos rest ih =>
    rw [resolve_parentDir] at h
    rw [looks_parentDir]
    cases hs : search look pos with
    | error e => simp [hs] at h
    | ok _ =>
      simp only [hs] at h
      simp only [List.mem_cons, forall_eq_or_imp, search_eq_ok.mp hs]
      exact ⟨by simp, ih (htail hroot) h⟩
  | normal links pos name rest ih ihl =>
    rw [resolve_normal] at h
    rw [looks_normal]
    cases hs : search look pos with
    | error e => simp [hs] at h
    | ok _ =>
      simp only [hs] at h
      simp only [List.mem_cons, forall_eq_or_imp, search_eq_ok.mp hs]
      refine ⟨by simp, ?_⟩
      cases hv : look (pos ++ [name]) with
      | absent =>
        simp only [hv] at h
        split at h <;> cases h
      | link target =>
        simp only [hv] at h
        cases links with
        | zero => simp [follow] at h
        | succ links =>
          refine ⟨by simp, ihl links (target ++ rest) rfl ?_ h⟩
          have htarget := hlinks _ _ hv
          cases target with
          | nil => exact htail hroot
          | cons c target =>
            rw [List.cons_append, List.tail_cons, List.mem_append, not_or]
            exact ⟨htarget, hroot⟩
      | dir searchable =>
        simp only [hv] at h
        exact ⟨by simp, ih (htail hroot) h⟩
      | other =>
        -- from here the walk could not come to a directory
        simp only [hv] at h
        obtain ⟨searchable, hdir⟩ := dir_of_resolve hroot hp h
        rw [hv] at hdir
        cases hdir

/-- How many links may be followed only decides whether a walk gives up. -/
theorem walk_links {look : Pos → View} {links : Nat} {pos p : Pos} {components : List Component}
    (h : walk look links pos components = .ok p) (fewer : Nat) :
    walk look fewer pos components = .ok p ∨ walk look fewer pos components = .error .loop := by
  unfold walk at h ⊢
  induction links, pos, components using walk_induction generalizing fewer with
  | nil => exact Or.inl (by simpa using h)
  | rootDir links pos rest ih => simpa using ih (by simpa using h) fewer
  | curDir links pos rest ih =>
    rw [resolve_curDir] at h ⊢
    cases hs : search look pos with
    | error e => simp [hs] at h
    | ok _ => exact ih (by simpa [hs] using h) fewer
  | parentDir links pos rest ih =>
    rw [resolve_parentDir] at h ⊢
    cases hs : search look pos with
    | error e => simp [hs] at h
    | ok _ => exact ih (by simpa [hs] using h) fewer
  | normal links pos name rest ih ihl =>
    rw [resolve_normal] at h ⊢
    cases hs : search look pos with
    | error e => simp [hs] at h
    | ok _ =>
      simp only [hs] at h ⊢
      cases hv : look (pos ++ [name]) with
      | absent =>
        simp only [hv] at h
        split at h
        · rename_i heq
          split at heq <;> simp at heq
        · cases h
        · cases h
      | link target =>
        simp only [hv] at h ⊢
        cases fewer with
        | zero => exact Or.inr rfl
        | succ fewer =>
          cases links with
          | zero => simp [follow] at h
          | succ links => exact ihl links (target ++ rest) rfl h fewer
      | dir searchable =>
        simp only [hv] at h ⊢
        exact ih h fewer
      | other =>
        simp only [hv] at h ⊢
        exact ih h fewer

/-- A link on the way of a walk leads somewhere; on the way to a directory, to a directory,
    when a root can only stand at the head of a path. -/
theorem walk_of_passed {look : Pos → View} {links : Nat} {pos p q : Pos} {name : String}
    {components target : List Component} (hlink : look (q ++ [name]) = .link target)
    (h : resolve look links pos components = .ok (.found p))
    (hmem : q ++ [name] ∈ looks look links pos components) :
    ∃ fewer end', walk look fewer q target = .ok end' ∧
      (.rootDir ∉ components.tail → (∀ q target, look q = .link target → .rootDir ∉ target.tail) →
        (∃ searchable, look p = .dir searchable) → ∃ searchable, look end' = .dir searchable) := by
  have hpos : ∀ {pos}, search look pos = .ok () → q ++ [name] ≠ pos := by
    rintro pos hs rfl
    rw [search_eq_ok, hlink] at hs
    cases hs
  have htail : ∀ {rest : List Component}, .rootDir ∉ rest → .rootDir ∉ rest.tail :=
    fun hrest hmem => hrest (List.mem_of_mem_tail hmem)
  induction links, pos, components using walk_induction with
  | nil => simp at hmem
  | rootDir links pos rest ih =>
    obtain ⟨fewer, end', hwalk, hdir⟩ := ih (by simpa using h) (by simpa using hmem)
    exact ⟨fewer, end', hwalk, fun hroot => hdir (htail hroot)⟩
  | curDir links pos rest ih =>
    rw [resolve_curDir] at h
    rw [looks_curDir] at hmem
    cases hs : search look pos with
    | error e => simp [hs] at h
    | ok _ =>
      simp only [hs, List.mem_cons] at h hmem
      obtain ⟨fewer, end', hwalk, hdir⟩ := ih h (hmem.resolve_left (hpos hs))
      exact ⟨fewer, end', hwalk, fun hroot => hdir (htail hroot)⟩
  | parentDir links pos rest ih =>
    rw [resolve_parentDir] at h
    rw [looks_parentDir] at hmem
    cases hs : search look pos with
    | error e => simp [hs] at h
    | ok _ =>
      simp only [hs, List.mem_cons] at h hmem
      obtain ⟨fewer, end', hwalk, hdir⟩ := ih h (hmem.resolve_left (hpos hs))
      exact ⟨fewer, end', hwalk, fun hroot => hdir (htail hroot)⟩
  | normal links pos first rest ih ihl =>
    rw [resolve_normal] at h
    rw [looks_normal] at hmem
    cases hs : search look pos with
    | error e => simp [hs] at h
    | ok _ =>
      simp only [hs, List.mem_cons] at h hmem
      replace hmem := hmem.resolve_left (hpos hs)
      cases hv : look (pos ++ [first]) with
      | absent =>
        simp only [hv] at h
        split at h <;> cases h
      | link target' =>
        simp only [hv] at h hmem
        cases links with
        | zero => simp [follow] at h
        | succ links =>
          rcases hmem with heq | hmem
          · -- this is the link: what comes after it starts where it leads
            obtain ⟨rfl, hname⟩ := List.append_inj' heq rfl
            obtain rfl := List.singleton_inj.mp hname
            obtain rfl : target = target' := View.link.inj (hlink.symm.trans hv)
            have hfollow : resolve look links q (target ++ rest) = .ok (.found p) := h
            by_cases hrest : rest = []
            · rw [hrest, List.append_nil] at hfollow
              exact ⟨links, p, walk_eq_ok.mpr hfollow, fun _ _ hp => hp⟩
            · rcases hwalk : walk look links q target with e | end'
              · rw [((resolve_append rest hrest).2 e hwalk).1] at hfollow
                cases hfollow
              · obtain ⟨fewer, -, hbehind, -⟩ := (resolve_append rest hrest).1 end' hwalk
                exact ⟨links, end', hwalk, fun hroot _ hp =>
                  dir_of_resolve hroot hp (hbehind.symm.trans hfollow)⟩
          · obtain ⟨fewer, end', hwalk, hdir⟩ := ihl links (target' ++ rest) rfl h hmem
            refine ⟨fewer, end', hwalk, fun hroot hlinks => hdir ?_ hlinks⟩
            have htarget := hlinks _ _ hv
            cases target' with
            | nil => exact htail hroot
            | cons c target' =>
              rw [List.cons_append, List.tail_cons, List.mem_append, not_or]
              exact ⟨htarget, hroot⟩
      | dir searchable =>
        simp only [hv] at h hmem
        obtain ⟨fewer, end', hwalk, hdir⟩ := ih h (hmem.resolve_left fun heq => by
          rw [heq, hv] at hlink
          cases hlink)
        exact ⟨fewer, end', hwalk, fun hroot => hdir (htail hroot)⟩
      | other =>
        simp only [hv] at h hmem
        obtain ⟨fewer, end', hwalk, hdir⟩ := ih h (hmem.resolve_left fun heq => by
          rw [heq, hv] at hlink
          cases hlink)
        exact ⟨fewer, end', hwalk, fun hroot => hdir (htail hroot)⟩

/-- Where the last name of a path leads. -/
theorem resolve_entry {look : Pos → View} {links : Nat} {pos : Pos} {parent : List Component}
    {name : String}
    {target : Target} (h : resolve look links pos (parent ++ [.normal name]) = .ok target) :
    ∃ dir, walk look links pos parent = .ok dir ∧ look dir = .dir true ∧
      (look (dir ++ [name]) = .absent ∧ target = .missing dir name ∨
        (∃ path, look (dir ++ [name]) = .link path) ∨
        look (dir ++ [name]) ≠ .absent ∧ target = .found (dir ++ [name])) := by
  rcases hparent : walk look links pos parent with e | dir
  · rw [((resolve_append [.normal name] (by simp)).2 e hparent).1] at h
    cases h
  · obtain ⟨fewer, -, hres, -⟩ := (resolve_append [.normal name] (by simp)).1 dir hparent
    rw [hres, resolve_normal] at h
    refine ⟨dir, rfl, ?_⟩
    cases hs : search look dir with
    | error e => simp [hs] at h
    | ok _ =>
      refine ⟨search_eq_ok.mp hs, ?_⟩
      simp only [hs] at h
      cases hv : look (dir ++ [name]) with
      | absent =>
        simp only [hv, if_true] at h
        exact Or.inl ⟨rfl, (Except.ok.inj h).symm⟩
      | link path => exact Or.inr (Or.inl ⟨path, rfl⟩)
      | dir searchable =>
        simp only [hv, resolve_nil] at h
        exact Or.inr (Or.inr ⟨by simp, (Except.ok.inj h).symm⟩)
      | other =>
        simp only [hv, resolve_nil] at h
        exact Or.inr (Or.inr ⟨by simp, (Except.ok.inj h).symm⟩)

/-- Where a path leads to a free name, it leads to what is put there, on the same way. -/
theorem resolve_added {look look' : Pos → View} {links : Nat} {pos dir : Pos} {name : String}
    {components : List Component} (habsent : look (dir ++ [name]) = .absent)
    (hnew : look' (dir ++ [name]) = .other) (hsame : ∀ q, q ≠ dir ++ [name] → look' q = look q)
    (h : resolve look links pos components = .ok (.missing dir name)) :
    resolve look' links pos components = .ok (.found (dir ++ [name])) ∧
      looks look' links pos components = looks look links pos components := by
  have hsearch : ∀ {pos}, search look pos = .ok () → search look' pos = .ok () := by
    intro pos hs
    have hdir := search_eq_ok.mp hs
    rw [search_eq_ok, hsame pos fun heq => by rw [heq, habsent] at hdir; cases hdir]
    exact hdir
  induction links, pos, components using walk_induction with
  | nil => simp at h
  | rootDir links pos rest ih => simpa using ih (by simpa using h)
  | curDir links pos rest ih =>
    rw [resolve_curDir] at h ⊢
    rw [looks_curDir, looks_curDir]
    cases hs : search look pos with
    | error e => simp [hs] at h
    | ok _ =>
      simp only [hsearch hs]
      obtain ⟨hnext, hlooks⟩ := ih (by simpa [hs] using h)
      rw [hnext, hlooks]
      exact ⟨rfl, rfl⟩
  | parentDir links pos rest ih =>
    rw [resolve_parentDir] at h ⊢
    rw [looks_parentDir, looks_parentDir]
    cases hs : search look pos with
    | error e => simp [hs] at h
    | ok _ =>
      simp only [hsearch hs]
      obtain ⟨hnext, hlooks⟩ := ih (by simpa [hs] using h)
      rw [hnext, hlooks]
      exact ⟨rfl, rfl⟩
  | normal links pos first rest ih ihl =>
    rw [resolve_normal] at h ⊢
    rw [looks_normal, looks_normal]
    cases hs : search look pos with
    | error e => simp [hs] at h
    | ok _ =>
      simp only [hsearch hs]
      simp only [hs] at h ⊢
      cases hv : look (pos ++ [first]) with
      | absent =>
        simp only [hv] at h
        split at h
        · rename_i hrest
          obtain ⟨rfl, rfl⟩ := Target.missing.inj (Except.ok.inj h)
          simp [hnew, hrest]
        · cases h
      | link target =>
        have hne : pos ++ [first] ≠ dir ++ [name] := fun heq => by rw [heq, habsent] at hv; cases hv
        simp only [hsame _ hne, hv] at h ⊢
        cases links with
        | zero => simp [follow] at h
        | succ links =>
          obtain ⟨hnext, hlooks⟩ := ihl links (target ++ rest) rfl h
          simp only [follow, followLooks]
          rw [hnext, hlooks]
          exact ⟨rfl, rfl⟩
      | dir searchable =>
        have hne : pos ++ [first] ≠ dir ++ [name] := fun heq => by rw [heq, habsent] at hv; cases hv
        simp only [hsame _ hne, hv] at h ⊢
        obtain ⟨hnext, hlooks⟩ := ih h
        rw [hnext, hlooks]
        exact ⟨rfl, rfl⟩
      | other =>
        have hne : pos ++ [first] ≠ dir ++ [name] := fun heq => by rw [heq, habsent] at hv; cases hv
        simp only [hsame _ hne, hv] at h ⊢
        obtain ⟨hnext, hlooks⟩ := ih h
        rw [hnext, hlooks]
        exact ⟨rfl, rfl⟩

namespace FileTree

variable {cred : Cred} {t t' : FileTree} {path : List Component} {dir : Pos} {name : String}
  {names : List String}

/-- A path leads to a directory in which one may search, and passes through none of the
    named entries of that directory. -/
structure Leads (cred : Cred) (t : FileTree) (path : List Component) (dir : Pos)
    (names : List String) :
    Prop where
  walk : walk (t.look cred) maxLinks [] path = .ok dir
  search : t.look cred dir = .dir true
  apart : ∀ q ∈ looks (t.look cred) maxLinks [] path, ∀ name ∈ names, ¬ dir ++ [name] <+: q

theorem leads_of_slot (h : t.slot cred (path ++ [.normal name]) = .ok (dir, name)) :
    Leads cred t path dir [] := by
  obtain ⟨-, hwalk, hsearch⟩ := slot_eq_ok h
  rw [List.dropLast_concat] at hwalk
  refine ⟨hwalk, hsearch, fun q _ name hname => ?_⟩
  cases hname

theorem Leads.slot (h : Leads cred t path dir names) (name : String) :
    t.slot cred (path ++ [.normal name]) = .ok (dir, name) :=
  slot_child h.walk h.search name

theorem Leads.isDir (h : Leads cred t path dir names) : t.isDir dir = true := isDir_of_look h.search

/-- What changes at the entries does not disturb the path. -/
theorem Leads.of_same (h : Leads cred t path dir names)
    (hsame : ∀ q, (∀ name ∈ names, ¬ dir ++ [name] <+: q) → t'.get? q = t.get? q) :
    Leads cred t' path dir names := by
  have hcongr := @resolve_congr (t.look cred) (t'.look cred) maxLinks [] path fun q hq =>
    (look_congr (hsame q (h.apart q hq))).symm
  refine ⟨?_, ?_, ?_⟩
  · rw [walk_eq_ok, ← hcongr.1, ← walk_eq_ok]
    exact h.walk
  · rw [look_congr (hsame dir fun name _ hpre => absurd hpre.length_le (by simp))]
    exact h.search
  · rw [← hcongr.2]
    exact h.apart

/-- What a link looks like is the text that it holds. -/
theorem link_of_look {p : Pos} {target : List Component} (h : t.look cred p = .link target) :
    ∃ text, target = segments text := by
  unfold look Node.view at h
  split at h
  · cases h
  · split at h
    · cases h
    · exact ⟨_, (View.link.inj h).symm⟩
    · cases h

theorem rootDir_not_mem_tail_segments (text : String) : .rootDir ∉ (segments text).tail := by
  have hpieces : .rootDir ∉ (pieces text).map componentOf := by
    intro h
    obtain ⟨piece, -, hpiece⟩ := List.mem_map.mp h
    exact Scriptorium.PathBuf.componentOf_ne_rootDir piece hpiece
  unfold segments
  split
  · exact hpieces
  · exact fun h => hpieces (List.mem_of_mem_tail h)

/-- A path that leads somewhere does not pass where nothing is. -/
theorem Leads.free (h : Leads cred t path dir names) (hfree : t.get? (dir ++ [name]) = none) :
    Leads cred t path dir (name :: names) := by
  refine ⟨h.walk, h.search, fun q hq other hother => ?_⟩
  rcases List.mem_cons.mp hother with rfl | hother
  · intro hpre
    apply ne_absent_of_mem_looks (walk_eq_ok.mp h.walk) q hq
    exact look_eq_absent.mpr (get?_none_below hfree hpre)
  · exact h.apart q hq other hother

/-- A path is not disturbed as long as all that was seen looks as before. -/
theorem Leads.of_seen (h : Leads cred t path dir names)
    (hsee : ∀ q, t.look cred q ≠ .absent → t'.look cred q = t.look cred q) :
      Leads cred t' path dir names := by
  have hcongr := @resolve_congr (t.look cred) (t'.look cred) maxLinks [] path fun q hq =>
    (hsee q (ne_absent_of_mem_looks (walk_eq_ok.mp h.walk) q hq)).symm
  refine ⟨?_, ?_, ?_⟩
  · rw [walk_eq_ok, ← hcongr.1, ← walk_eq_ok]
    exact h.walk
  · rw [hsee dir (by simp [h.search])]
    exact h.search
  · rw [← hcongr.2]
    exact h.apart

/-- What is added where nothing was does not disturb the path either. -/
theorem Leads.extend (h : Leads cred t path dir names)
    (hext : ∀ q, t.get? q ≠ none → t'.get? q = t.get? q) : Leads cred t' path dir names :=
  h.of_seen fun q hq => look_congr (hext q fun hnone => hq (look_eq_absent.mpr hnone))

/-- A path to a directory does not pass a file. -/
theorem Leads.beside (h : Leads cred t path dir names) (hroot : .rootDir ∉ path.tail) {node : Node}
    (hnode : t.get? (dir ++ [name]) = some node) (hdir : node.isDir = false)
    (hlink : node.isLink = false) :
    Leads cred t path dir (name :: names) := by
  have hother : t.look cred (dir ++ [name]) = .other := by
    unfold look Node.view
    rw [hnode]
    rw [Bool.eq_false_iff, Ne, Node.isDir_iff] at hdir
    cases hkind : node.kind with
    | dir => exact absurd hkind hdir
    | link target => simp [Node.isLink, hkind] at hlink
    | file data holes => simp [hkind]
    | fifo => simp [hkind]
  refine ⟨h.walk, h.search, fun q hq other hother' => ?_⟩
  rcases List.mem_cons.mp hother' with rfl | hmem
  · rintro ⟨rest, rfl⟩
    have hwalk := walk_eq_ok.mp h.walk
    cases rest with
    | nil =>
      rw [List.append_nil] at hq
      refine ne_other_of_mem_looks hroot ?_ ⟨true, h.search⟩ hwalk _ hq hother
      intro q target hlook
      obtain ⟨text, rfl⟩ := link_of_look hlook
      exact rootDir_not_mem_tail_segments text
    | cons first rest =>
      exact ne_absent_of_mem_looks hwalk _ hq (look_eq_absent.mpr (get?_append_eq_none hnode hdir))
  · exact h.apart q hq other hmem

theorem Leads.mono {fewer : List String} (h : Leads cred t path dir names) (hsub : fewer ⊆ names) :
    Leads cred t path dir fewer :=
  ⟨h.walk, h.search, fun q hq name hname => h.apart q hq name (hsub hname)⟩

/-- An entry that is no link is found. -/
theorem Leads.child (h : Leads cred t path dir names) {node : Node}
    (hnode : t.get? (dir ++ [name]) = some node) (hlink : node.isLink = false) :
    Posix.walk (t.look cred) maxLinks [] (path ++ [.normal name]) = .ok (dir ++ [name]) := by
  apply walk_child h.walk h.search
  · simp [look_eq_absent, hnode]
  · intro target hlook
    unfold look Node.view at hlook
    rw [hnode] at hlook
    simp only at hlook
    split at hlook
    · cases hlook
    · rename_i hkind
      rw [Node.isLink, hkind] at hlink
      cases hlink
    · cases hlook

/-- Nor does it pass a link, other than one that leads on: where a root can only stand at
    the head of a path, to a directory. -/
theorem Leads.beside_link (h : Leads cred t path dir names) {node : Node}
    (hnode : t.get? (dir ++ [name]) = some node) (hlink : node.isLink = true)
    (hloop : Posix.walk (t.look cred) maxLinks [] (path ++ [.normal name]) ≠ .error .loop)
    (hend : ∀ p, Posix.walk (t.look cred) maxLinks [] (path ++ [.normal name]) = .ok p →
      .rootDir ∉ path.tail ∧ ∀ searchable, t.look cred p ≠ .dir searchable) :
    Leads cred t path dir (name :: names) := by
  obtain ⟨text, hkind⟩ : ∃ text, node.kind = .link text := by
    unfold Node.isLink at hlink
    split at hlink
    · exact ⟨_, ‹_›⟩
    · cases hlink
  have hlook : t.look cred (dir ++ [name]) = .link (segments text) := by
    simp [look, hnode, Node.view, hkind]
  -- what ends the path of the link would end every path through it
  have hfollow : ∀ fewer p, Posix.walk (t.look cred) fewer dir (segments text) = .ok p →
      Posix.walk (t.look cred) maxLinks [] (path ++ [.normal name]) = .ok p := by
    intro fewer p hwalk
    obtain ⟨spare, -, hres, -⟩ := (resolve_append [.normal name] (by simp)).1 dir h.walk
    rw [resolve_normal, search_eq_ok.mpr h.search, hlook] at hres
    cases spare with
    | zero =>
      rw [Posix.walk, hres] at hloop
      exact absurd rfl hloop
    | succ spare =>
      have hsame : Posix.walk (t.look cred) maxLinks [] (path ++ [.normal name]) =
          Posix.walk (t.look cred) spare dir (segments text) := by
        rw [Posix.walk, Posix.walk, hres]
        simp only [List.append_nil, follow]
      rw [hsame] at hloop ⊢
      exact (walk_links hwalk spare).resolve_right hloop
  refine ⟨h.walk, h.search, fun q hq other hother => ?_⟩
  rcases List.mem_cons.mp hother with rfl | hmem
  · rintro ⟨rest, rfl⟩
    have hwalk := walk_eq_ok.mp h.walk
    cases rest with
    | nil =>
      rw [List.append_nil] at hq
      obtain ⟨fewer, p, hpassed, hdir⟩ := walk_of_passed hlook hwalk hq
      obtain ⟨hroot, hno⟩ := hend p (hfollow fewer p hpassed)
      obtain ⟨searchable, hp⟩ := hdir hroot (fun q target hq => by
        obtain ⟨text, rfl⟩ := link_of_look hq
        exact rootDir_not_mem_tail_segments text) ⟨true, h.search⟩
      exact hno searchable hp
    | cons first rest =>
      have hdir : node.isDir = false := by simp [Node.isDir, hkind]
      exact ne_absent_of_mem_looks hwalk _ hq (look_eq_absent.mpr (get?_append_eq_none hnode hdir))
  · exact h.apart q hq other hmem

/-- It does not pass what leads nowhere. -/
theorem Leads.beside_missing (h : Leads cred t path dir names)
    (hmissing : t.find cred (path ++ [.normal name]) = .error .noent) : Leads cred t path dir
    (name :: names) := by
  rcases hnode : t.get? (dir ++ [name]) with _ | node
  · exact h.free hnode
  have hwalk : Posix.walk (t.look cred) maxLinks [] (path ++ [.normal name]) = .error .noent := by
    rcases hwalk : Posix.walk (t.look cred) maxLinks [] (path ++ [.normal name]) with e | p
    · rw [find, hwalk] at hmissing
      rw [hwalk, Except.error.inj hmissing]
    · obtain ⟨found, hfound⟩ :=
        Option.isSome_iff_exists.mp (isSome_of_walk (isSome_of_isDir isDir_root) hwalk)
      rw [find, hwalk] at hmissing
      simp [hfound] at hmissing
  apply h.beside_link hnode
  · by_contra hlink
    rw [h.child hnode (by simpa using hlink)] at hwalk
    cases hwalk
  · simp [hwalk]
  · intro p hp
    rw [hwalk] at hp
    cases hp

/-- Nor what leads to something other than a directory. -/
theorem Leads.beside_other (h : Leads cred t path dir names) (hroot : .rootDir ∉ path.tail)
    {p : Pos} (hwalk : Posix.walk (t.look cred) maxLinks [] (path ++ [.normal name]) = .ok p)
    (hother : t.look cred p = .other) : Leads cred t path dir (name :: names) := by
  rcases hnode : t.get? (dir ++ [name]) with _ | node
  · exact h.free hnode
  by_cases hlink : node.isLink = true
  · apply h.beside_link hnode hlink
    · simp [hwalk]
    · intro p' hp'
      obtain rfl := Except.ok.inj (hwalk.symm.trans hp')
      exact ⟨hroot, fun searchable => by simp [hother]⟩
  · have hplain : node.isLink = false := by simpa using hlink
    obtain rfl := Except.ok.inj (hwalk.symm.trans (h.child hnode hplain))
    refine h.beside hroot hnode ?_ hplain
    rw [Bool.eq_false_iff]
    intro hdir
    simp [look, hnode, Node.view, Node.isDir_iff.mp hdir] at hother

/-- So does the canonical path of its directory. -/
theorem Leads.canonical (h : Leads cred t path dir names) : Leads cred t
    (canonical dir) dir names := by
  have habove := @searchable_above (t.look cred) maxLinks [] dir path
    (fun q hq hne => absurd (List.prefix_nil.mp hq) hne) h.walk
  refine ⟨?_, h.search, fun q hq name _ hpre => ?_⟩
  · apply walk_canonical habove
    · simp [h.search]
    · simp [h.search]
  · have hlink : ∀ q, q <+: dir → ∀ target, t.look cred q ≠ .link target := by
      intro q hq target hlook
      by_cases heq : q = dir
      · rw [heq, h.search] at hlook
        cases hlook
      · rw [habove q hq heq] at hlook
        cases hlook
    have hplain := resolve_plain (t.look cred) maxLinks [] dir fun q _ hq => hlink q hq
    rw [Posix.canonical, looks_rootDir] at hq
    exact absurd (hpre.trans (hplain.1 q hq)).length_le (by simp)

/-! ### The paths below an entry -/

/-- A directory that holds no links stands at the entry that a path leads to. -/
structure Opens (cred : Cred) (t : FileTree) (parent : List Component) (dir : Pos) (name : String) :
    Prop where
  lead : Leads cred t parent dir [name]
  isDir : t.isDir (dir ++ [name]) = true
  plain : ∀ q node, t.get? (dir ++ [name] ++ q) = some node → node.isLink = false

/-- Two paths that mean the same to every call. -/
structure Spells (cred : Cred) (t : FileTree) (path path' : List Component) : Prop where
  find : t.find cred path = t.find cred path'
  slot : t.slot cred path = t.slot cred path'
  lstat : t.lstat cred path = t.lstat cred path'

variable {parent : List Component}

theorem Opens.walk (h : Opens cred t parent dir name) :
    Posix.walk (t.look cred) maxLinks [] (parent ++ [.normal name]) = .ok (dir ++ [name]) := by
  obtain ⟨node, hnode, hkind⟩ := isDir_iff.mp h.isDir
  exact h.lead.child hnode (by rw [Node.isLink, Node.isDir_iff.mp hkind])

theorem Opens.canonical (h : Opens cred t parent dir name) : Opens cred t
    (canonical dir) dir name :=
  ⟨h.lead.canonical, h.isDir, h.plain⟩

theorem Opens.resolve (h : Opens cred t parent dir name) (names : Pos) :
    ∃ links, resolve (t.look cred) maxLinks [] (parent ++ [.normal name] ++ names.map .normal) =
      resolve (t.look cred) links (dir ++ [name]) (names.map .normal) := by
  cases names with
  | nil =>
    refine ⟨maxLinks, ?_⟩
    rw [List.map_nil, List.append_nil, resolve_nil, walk_eq_ok.mp h.walk]
  | cons first names =>
    obtain ⟨links, -, hres, -⟩ :=
      (resolve_append ((first :: names).map .normal) (by simp)).1 _ h.walk
    exact ⟨links, hres⟩

/-- Below the entry the canonical path leads where the given one does. -/
theorem Opens.walk_eq (h : Opens cred t parent dir name) (names : Pos) :
    Posix.walk (t.look cred) maxLinks [] (parent ++ [.normal name] ++ names.map .normal) =
      Posix.walk (t.look cred) maxLinks [] (Posix.canonical (dir ++ [name] ++ names)) := by
  obtain ⟨links, hres⟩ := h.resolve names
  obtain ⟨links', hres'⟩ := h.canonical.resolve names
  have hplain : ∀ q target, t.look cred (dir ++ [name] ++ q) ≠ .link target := by
    intro q target hlook
    unfold look Node.view at hlook
    split at hlook
    · cases hlook
    · rename_i node hnode
      have hlink := h.plain q node hnode
      split at hlook
      · cases hlook
      · rename_i hkind
        rw [Node.isLink, hkind] at hlink
        cases hlink
      · cases hlook
  rw [canonical_append, canonical_concat, Posix.walk, Posix.walk, hres, hres',
    resolve_links links links' _ _ hplain]

theorem Opens.slot_eq (h : Opens cred t parent dir name) (names : Pos) :
    t.slot cred (parent ++ [.normal name] ++ names.map .normal) =
      t.slot cred (Posix.canonical (dir ++ [name] ++ names)) := by
  rcases List.eq_nil_or_concat' names with rfl | ⟨names, last, rfl⟩
  · rw [List.map_nil, List.append_nil, List.append_nil, h.lead.slot, canonical_concat,
      h.lead.canonical.slot]
  · rw [List.map_append, List.map_singleton, ← List.append_assoc, slot_concat, h.walk_eq,
      ← List.append_assoc, canonical_concat (dir ++ [name] ++ names), slot_concat]

/-- Below the entry the canonical path means the same. -/
theorem Opens.spells (h : Opens cred t parent dir name) (names : Pos) :
    Spells cred t (parent ++ [.normal name] ++ names.map .normal)
      (Posix.canonical (dir ++ [name] ++ names)) := by
  refine ⟨?_, h.slot_eq names, ?_⟩
  · rw [FileTree.find, FileTree.find, h.walk_eq]
  · have hslot := h.slot_eq names
    rcases List.eq_nil_or_concat' names with rfl | ⟨names, last, rfl⟩
    · rw [List.map_nil, List.append_nil, List.append_nil, canonical_concat] at hslot ⊢
      rw [lstat_concat, lstat_concat, hslot]
    · rw [List.map_append, List.map_singleton, ← List.append_assoc, ← List.append_assoc,
        canonical_concat (dir ++ [name] ++ names)] at hslot ⊢
      rw [lstat_concat, lstat_concat, hslot]

/-- What happens below the entry, short of links, leaves it so. -/
theorem Opens.of_same (h : Opens cred t parent dir name)
    (hsame : ∀ q, ¬ dir ++ [name] <+: q → t'.get? q = t.get? q)
    (hdir : t'.isDir (dir ++ [name]) = true)
    (hplain : ∀ q node, t'.get? (dir ++ [name] ++ q) = some node → node.isLink = false) :
    Opens cred t' parent dir name :=
  ⟨h.lead.of_same fun q hq => hsame q (hq name (List.mem_singleton_self name)), hdir, hplain⟩

end FileTree

end Posix

namespace Scriptorium

open Posix Effects

/-! ### Programs on them -/

section Programs

variable {cred : Cred} {now : Nat} {t s : FileTree} {parent path path' : PathBuf} {dir : Pos}
  {name : String}

section Calls

open FileTree

theorem exec_lstat_spells (h : Spells cred t path path') :
    exec cred now (.lstat path) t = exec cred now (.lstat path') t := by
  simp only [exec, h.lstat]

theorem exec_canonicalize_spells (h : Spells cred t path path') :
    exec cred now (.canonicalize path) t = exec cred now (.canonicalize path') t := by
  simp only [exec, h.find]

theorem exec_mkdir_spells (h : Spells cred t path path') :
    exec cred now (.mkdir path) t = exec cred now (.mkdir path') t := by
  simp only [exec, mkdir, h.slot]

theorem exec_createNew_spells (h : Spells cred t path path') :
    exec cred now (.createNew path) t = exec cred now (.createNew path') t := by
  simp only [exec, createNew, h.slot]

theorem exec_unlink_spells (h : Spells cred t path path') :
    exec cred now (.unlink path) t = exec cred now (.unlink path') t := by
  simp only [exec, unlink, h.slot]

theorem exec_chmod_spells (h : Spells cred t path path') (mode : Nat) :
    exec cred now (.chmod path mode) t = exec cred now (.chmod path' mode) t := by
  simp only [exec, chmod, h.find]

theorem dirAt_spells (h : Spells cred t path path') : dirAt cred t path = dirAt cred t path' := by
  rw [dirAt, dirAt, h.find]

end Calls

theorem parent_concat (path : PathBuf) (name : String) :
    PathBuf.parent (path ++ [.normal name]) = some path := by
  rw [PathBuf.parent, List.getLast?_concat, List.dropLast_concat]

/-- What a program sees of a call. -/
def answered {α : Type} : Except Errno α × FileTree → Option (Except IoError α) × FileTree
  | (.ok out, s) => (some (.ok out), s)
  | (.error .wouldblock, s) => (none, s)
  | (.error e, s) => (some (.error (.os e)), s)

theorem run_sys_answered (c : FsCall) :
    (sys c).run (FileTree.exec cred now) t = answered (FileTree.exec cred now c t) := by
  rcases hexec : FileTree.exec cred now c t with ⟨e | out, s⟩
  · simp only [sys, Prog.run_call, hexec]
    cases e <;> rfl
  · simp only [sys, Prog.run_call, hexec]
    rfl

theorem run_attempt_some {ε ε' α : Type} {m : Fs ε α} {r : Except ε α}
    (h : m.run (FileTree.exec cred now) t = (some r, s)) :
    (m.attempt : Fs ε' (Except ε α)).run (FileTree.exec cred now) t = (some (.ok r), s) := by
  rw [Prog.run_attempt, h]
  rfl

theorem run_lstat_spells (h : FileTree.Spells cred t path path') :
    (sys (.lstat path)).run (FileTree.exec cred now) t =
      (sys (.lstat path')).run (FileTree.exec cred now) t := by
  rw [run_sys_answered, run_sys_answered, exec_lstat_spells h]

theorem run_canonicalize_spells (h : FileTree.Spells cred t path path') :
    (sys (.canonicalize path)).run (FileTree.exec cred now) t =
      (sys (.canonicalize path')).run (FileTree.exec cred now) t := by
  rw [run_sys_answered, run_sys_answered, exec_canonicalize_spells h]

theorem run_mkdir_spells (h : FileTree.Spells cred t path path') :
    (sys (.mkdir path)).run (FileTree.exec cred now) t =
      (sys (.mkdir path')).run (FileTree.exec cred now) t := by
  rw [run_sys_answered, run_sys_answered, exec_mkdir_spells h]

theorem run_createNew_spells (h : FileTree.Spells cred t path path') :
    (sys (.createNew path)).run (FileTree.exec cred now) t =
      (sys (.createNew path')).run (FileTree.exec cred now) t := by
  rw [run_sys_answered, run_sys_answered, exec_createNew_spells h]

theorem run_unlink_spells (h : FileTree.Spells cred t path path') :
    (sys (.unlink path)).run (FileTree.exec cred now) t =
      (sys (.unlink path')).run (FileTree.exec cred now) t := by
  rw [run_sys_answered, run_sys_answered, exec_unlink_spells h]

theorem run_chmod_spells (h : FileTree.Spells cred t path path') (mode : Nat) :
    (sys (.chmod path mode)).run (FileTree.exec cred now) t =
      (sys (.chmod path' mode)).run (FileTree.exec cred now) t := by
  rw [run_sys_answered, run_sys_answered, exec_chmod_spells h mode]

variable (h : FileTree.Opens cred t parent dir name)

include h

/-- An entry that is there answers. -/
theorem lstat_opens {e : Errno} : t.lstat cred (parent ++ [.normal name]) ≠ .error e := by
  obtain ⟨node, hnode, -⟩ := FileTree.isDir_iff.mp h.isDir
  rw [FileTree.lstat_concat, h.lead.slot]
  simp [hnode]

theorem missingDirs_opens {names : Pos} {n m : Nat} {missing : List PathBuf} (hn : names.length < n)
    (hm : names.length < m)
    (hrun : (missingDirs n (parent ++ [.normal name] ++ names.map .normal)).run
      (FileTree.exec cred now) t = (some (.ok missing), s)) :
    s = t ∧ ∃ l : List Pos, (∀ q ∈ l, q ≠ [] ∧ q <+: names) ∧
      missing = l.map (fun q => parent ++ [.normal name] ++ q.map .normal) ∧
      (missingDirs m (canonical (dir ++ [name] ++ names))).run (FileTree.exec cred now) t =
        (some (.ok (l.map fun q => canonical (dir ++ [name] ++ q))), t) := by
  induction names using List.reverseRecOn generalizing n m missing s with
  | nil =>
    obtain ⟨n, rfl⟩ : ∃ k, n = k + 1 := ⟨n - 1, by omega⟩
    obtain ⟨m, rfl⟩ : ∃ k, m = k + 1 := ⟨m - 1, by omega⟩
    rw [missingDirs] at hrun
    obtain ⟨r, u, hask, hrest⟩ := Prog.run_bind_eq_ok _ hrun
    have hlstat := Prog.run_attempt_eq_ok _ hask
    have hspelled := (run_lstat_spells (h.spells [])).symm.trans hlstat
    obtain rfl : u = t := (congrArg Prod.snd hlstat).symm.trans run_sys_state
    rcases r with e | info
    · obtain ⟨e', -, hexec⟩ := exec_of_run_sys_error hlstat
      rw [List.map_nil, List.append_nil] at hexec
      exact absurd (congrArg Prod.fst hexec) (lstat_opens h)
    · obtain ⟨hmissing, rfl⟩ := Prod.mk.inj hrest
      refine ⟨rfl, [], fun q hq => ?_, ?_, ?_⟩
      · cases hq
      · exact (Except.ok.inj (Option.some.inj hmissing)).symm
      · rw [missingDirs, Prog.run_bind_ok _ (run_attempt_some hspelled)]
        rfl
  | append_singleton names last ih =>
    obtain ⟨n, rfl⟩ : ∃ k, n = k + 1 := ⟨n - 1, by omega⟩
    obtain ⟨m, rfl⟩ : ∃ k, m = k + 1 := ⟨m - 1, by omega⟩
    rw [List.length_append, List.length_singleton] at hn hm
    rw [missingDirs] at hrun
    obtain ⟨r, u, hask, hrest⟩ := Prog.run_bind_eq_ok _ hrun
    have hlstat := Prog.run_attempt_eq_ok _ hask
    have hspelled := (run_lstat_spells (h.spells (names ++ [last]))).symm.trans hlstat
    obtain rfl : u = t := (congrArg Prod.snd hlstat).symm.trans run_sys_state
    rcases r with e | info
    · have hbelow : parent ++ [.normal name] ++ (names ++ [last]).map .normal =
          parent ++ [.normal name] ++ names.map .normal ++ [.normal last] := by simp
      have hcanonical : PathBuf.parent (canonical (dir ++ [name] ++ (names ++ [last]))) =
          some (canonical (dir ++ [name] ++ names)) := by
        rw [← List.append_assoc, PathBuf.parent_canonical_concat]
      simp only [hbelow, parent_concat] at hrest
      obtain ⟨more, v, habove, hdone⟩ := Prog.run_bind_eq_ok _ hrest
      obtain ⟨rfl, l, hl, rfl, hsame⟩ := ih (by omega) (m := m) (by omega) habove
      obtain ⟨hmissing, rfl⟩ := Prod.mk.inj hdone
      refine ⟨rfl, (names ++ [last]) :: l, ?_, ?_, ?_⟩
      · rw [List.forall_mem_cons]
        refine ⟨⟨by simp, List.prefix_rfl⟩, fun q hq => ⟨(hl q hq).1, ?_⟩⟩
        exact (hl q hq).2.trans (List.prefix_append _ _)
      · rw [List.map_cons, hbelow]
        exact (Except.ok.inj (Option.some.inj hmissing)).symm
      · rw [missingDirs, Prog.run_bind_ok _ (run_attempt_some hspelled)]
        simp only [hcanonical]
        rw [Prog.run_bind_ok _ hsame]
        rfl
    · obtain ⟨hmissing, rfl⟩ := Prod.mk.inj hrest
      refine ⟨rfl, [], fun q hq => ?_, ?_, ?_⟩
      · cases hq
      · exact (Except.ok.inj (Option.some.inj hmissing)).symm
      · rw [missingDirs, Prog.run_bind_ok _ (run_attempt_some hspelled)]
        rfl

theorem validateInsideDst_opens {names : Pos}
    (hrun : (validateInsideDst (parent ++ [.normal name])
      (parent ++ [.normal name] ++ names.map .normal)).run (FileTree.exec cred now) t =
        (some (.ok ()), s)) :
    (validateInsideDst (canonical (dir ++ [name])) (canonical (dir ++ [name] ++ names))).run
      (FileTree.exec cred now) t = (some (.ok ()), s) := by
  have hreal : ∀ {names : Pos} {q : Pos} {u v : FileTree}, FileTree.Opens cred u parent dir name →
      (realPath (parent ++ [.normal name] ++ names.map .normal)).run (FileTree.exec cred now) u =
        (some (.ok q), v) →
      v = u ∧ (realPath (canonical (dir ++ [name] ++ names))).run (FileTree.exec cred now) u =
        (some (.ok q), v) := by
    intro names q u v hu hreal
    have hcall := Prog.run_mapError_eq_ok _ hreal
    refine ⟨(congrArg Prod.snd hcall).symm.trans run_sys_state, ?_⟩
    rw [realPath, Prog.run_mapError, ← run_canonicalize_spells (hu.spells names), hcall]
    rfl
  obtain ⟨realDir, u, hfirst, hrest⟩ := Prog.run_bind_eq_ok _ hrun
  obtain ⟨realDst, v, hsecond, hcheck⟩ := Prog.run_bind_eq_ok _ hrest
  obtain ⟨rfl, hfirst'⟩ := hreal h hfirst
  have hbase : (realPath (parent ++ [.normal name] ++ ([] : Pos).map .normal)).run
      (FileTree.exec cred now) u = (some (.ok realDst), v) := by
    rw [List.map_nil, List.append_nil]
    exact hsecond
  obtain ⟨rfl, hsecond'⟩ := hreal h hbase
  rw [List.append_nil] at hsecond'
  rw [validateInsideDst, Prog.run_bind_ok _ hfirst', Prog.run_bind_ok _ hsecond']
  exact hcheck

/-- No link is on the way to anything below the entry. -/
theorem straight_opens (names : Pos) : Straight t (dir ++ [name] ++ names) := by
  intro q node hq hnode
  rcases List.prefix_or_prefix_of_prefix hq (List.prefix_append (dir ++ [name]) names) with
    habove | ⟨rest, rfl⟩
  · exact (firmAbove_of_isDir h.isDir).ordinary.clear q node (seen_wayTo.mpr (Or.inl habove)) hnode
  · exact h.plain rest node hnode

/-- Directories that are made below the entry leave it so. -/
theorem opens_made {ε α : Type} {W : α → Prop} {names : Pos} {m : Fs ε α} {r : Option (Except ε α)}
    (hm : Stays (wayTo (dir ++ [name] ++ names)) W m)
    (hrun : m.run (FileTree.exec cred now) t = (r, s)) : FileTree.Opens cred s parent dir name := by
  have hmade := keeps_made cred now hm (straight_opens h names).clear
  rw [hrun] at hmade
  have hsome := FileTree.isSome_of_isDir h.isDir
  apply h.of_same
  · intro q hq
    rcases hmade q with hsame | ⟨hway, hnone, -⟩
    · exact hsame
    · -- what is made is below the entry, which is there already
      have hbelow := (List.prefix_or_prefix_of_prefix hway (List.prefix_append _ _)).resolve_right
        hq
      rw [FileTree.get?_none_below hnone hbelow] at hsome
      cases hsome
  · rcases hmade (dir ++ [name]) with hsame | ⟨-, -, hdir⟩
    · rw [FileTree.isDir, hsame]
      exact h.isDir
    · exact hdir
  · intro q node hnode
    rcases hmade (dir ++ [name] ++ q) with hsame | ⟨-, -, hdir⟩
    · exact h.plain q node (hsame ▸ hnode)
    · obtain ⟨node', hnode', hkind⟩ := FileTree.isDir_iff.mp hdir
      obtain rfl := Option.some.inj (hnode.symm.trans hnode')
      rw [Node.isLink, Node.isDir_iff.mp hkind]

omit h in
theorem near_below (names : Pos) {q : Pos} (hq : q <+: names) :
    Near (wayTo (dir ++ [name] ++ names)) (canonical (dir ++ [name] ++ q)) :=
  ⟨_, seen_wayTo.mpr (Or.inl ((List.prefix_append_right_inj _).mpr hq)), rfl⟩

/-- Directories below the entry are made alike. -/
theorem createDirAllWithin_opens {names : Pos} {n m : Nat} (hn : names.length < n)
    (hm : names.length < m)
    (hrun : (createDirAllWithin n (parent ++ [.normal name] ++ names.map .normal)).run
      (FileTree.exec cred now) t = (some (.ok ()), s)) :
    (createDirAllWithin m (canonical (dir ++ [name] ++ names))).run (FileTree.exec cred now) t =
      (some (.ok ()), s) := by
  -- where something is in the way, the code asks whether it is a directory
  have hask : ∀ {names : Pos} {u : FileTree} {e : IoError}, FileTree.Opens cred u parent dir name →
      (do if ← isDir (parent ++ [.normal name] ++ names.map .normal)
        then pure () else Prog.throw e :
        Fs IoError Unit).run (FileTree.exec cred now) u =
      (do if ← isDir (canonical (dir ++ [name] ++ names)) then pure () else Prog.throw e :
        Fs IoError Unit).run (FileTree.exec cred now) u := by
    intro names u e hu
    rw [Prog.run_bind, Prog.run_bind, run_isDir, run_isDir, dirAt_spells (hu.spells names)]
  induction names using List.reverseRecOn generalizing n m s with
  | nil =>
    obtain ⟨n, rfl⟩ : ∃ k, n = k + 1 := ⟨n - 1, by omega⟩
    obtain ⟨m, rfl⟩ : ∃ k, m = k + 1 := ⟨m - 1, by omega⟩
    rw [createDirAllWithin] at hrun
    obtain ⟨r, u, hattempt, hrest⟩ := Prog.run_bind_eq_ok _ hrun
    have hmkdir := Prog.run_attempt_eq_ok _ hattempt
    have hspelled := (run_mkdir_spells (h.spells [])).symm.trans hmkdir
    rw [createDirAllWithin, Prog.run_bind_ok _ (run_attempt_some hspelled)]
    rcases r with e | _
    · obtain ⟨e, rfl, hexec⟩ := exec_of_run_sys_error hmkdir
      obtain rfl := (FileTree.exec_error hexec).symm
      have hne : e ≠ .noent := by
        apply FileTree.mkdir_error_ne now (h.lead.slot name)
        rw [List.map_nil, List.append_nil] at hexec
        exact congrArg Prod.fst hexec
      split at hrest
      · rename_i heq
        cases heq
      · rename_i heq
        exact absurd (IoError.os.inj (Except.error.inj heq)) hne
      · rename_i heq
        obtain rfl := Except.error.inj heq
        rw [hask h] at hrest
        exact hrest
    · exact hrest
  | append_singleton names last ih =>
    obtain ⟨n, rfl⟩ : ∃ k, n = k + 1 := ⟨n - 1, by omega⟩
    obtain ⟨m, rfl⟩ : ∃ k, m = k + 1 := ⟨m - 1, by omega⟩
    rw [List.length_append, List.length_singleton] at hn hm
    have hbelow : PathBuf.parent (parent ++ [.normal name] ++ (names ++ [last]).map .normal) =
        some (parent ++ [.normal name] ++ names.map .normal) := by
      rw [List.map_append, List.map_singleton, ← List.append_assoc, parent_concat]
    have hcanonical : PathBuf.parent (canonical (dir ++ [name] ++ (names ++ [last]))) =
        some (canonical (dir ++ [name] ++ names)) := by
      rw [← List.append_assoc, PathBuf.parent_canonical_concat]
    rw [createDirAllWithin] at hrun
    obtain ⟨r, u, hattempt, hrest⟩ := Prog.run_bind_eq_ok _ hrun
    have hmkdir := Prog.run_attempt_eq_ok _ hattempt
    have hspelled := (run_mkdir_spells (h.spells (names ++ [last]))).symm.trans hmkdir
    rw [createDirAllWithin, Prog.run_bind_ok _ (run_attempt_some hspelled)]
    rcases r with e | _
    · obtain ⟨e, rfl, hexec⟩ := exec_of_run_sys_error hmkdir
      obtain rfl := (FileTree.exec_error hexec).symm
      split at hrest
      · exact hrest
      · -- the directory above is missing, and is made first
        simp only [hbelow, hcanonical] at hrest ⊢
        obtain ⟨_, v, habove, hagain⟩ := Prog.run_bind_eq_ok _ hrest
        have habove' := ih (by omega) (m := m) (by omega) habove
        have hv : FileTree.Opens cred v parent dir name :=
          opens_made h (stays_createDirAllWithin m (near_below names List.prefix_rfl)) habove'
        rw [Prog.run_bind_ok _ habove']
        obtain ⟨r, w, hattempt, hlast⟩ := Prog.run_bind_eq_ok _ hagain
        have hmkdir := Prog.run_attempt_eq_ok _ hattempt
        have hspelled := (run_mkdir_spells (hv.spells (names ++ [last]))).symm.trans hmkdir
        rw [Prog.run_bind_ok _ (run_attempt_some hspelled)]
        rcases r with e | _
        · obtain ⟨e, rfl, hexec⟩ := exec_of_run_sys_error hmkdir
          obtain rfl := (FileTree.exec_error hexec).symm
          exact (hask hv).symm.trans hlast
        · exact hlast
      · exact (hask h).symm.trans hrest
    · exact hrest

theorem createDirAll_opens {names : Pos}
    (hrun : (createDirAll (parent ++ [.normal name] ++ names.map .normal)).run
      (FileTree.exec cred now) t = (some (.ok ()), s)) :
    (createDirAll (canonical (dir ++ [name] ++ names))).run (FileTree.exec cred now) t =
      (some (.ok ()), s) ∧ FileTree.Opens cred s parent dir name := by
  have hcanonical : (createDirAll (canonical (dir ++ [name] ++ names))).run
      (FileTree.exec cred now) t =
      (some (.ok ()), s) :=
    createDirAllWithin_opens h (by simp; omega) (by simp [canonical]; omega) hrun
  exact ⟨hcanonical, opens_made h (stays_createDirAll (near_below names List.prefix_rfl))
    hcanonical⟩

theorem createMissing_opens {l : List Pos} (hl : ∀ q ∈ l, q ≠ [])
    (hrun : (createMissing (parent ++ [.normal name])
      (l.map fun q => parent ++ [.normal name] ++ q.map .normal)).run (FileTree.exec cred now) t =
        (some (.ok ()), s)) :
    (createMissing (canonical (dir ++ [name])) (l.map fun q => canonical (dir ++ [name] ++ q))).run
      (FileTree.exec cred now) t = (some (.ok ()), s) := by
  induction l generalizing t with
  | nil => exact hrun
  | cons q l ih =>
    rw [List.forall_mem_cons] at hl
    rcases List.eq_nil_or_concat' q with rfl | ⟨names, last, rfl⟩
    · exact absurd rfl hl.1
    · have hbelow : PathBuf.parent (parent ++ [.normal name] ++ (names ++ [last]).map .normal) =
          some (parent ++ [.normal name] ++ names.map .normal) := by
        rw [List.map_append, List.map_singleton, ← List.append_assoc, parent_concat]
      have hcanonical : PathBuf.parent (canonical (dir ++ [name] ++ (names ++ [last]))) =
          some (canonical (dir ++ [name] ++ names)) := by
        rw [← List.append_assoc, PathBuf.parent_canonical_concat]
      rw [List.map_cons, createMissing] at hrun ⊢
      simp only [hbelow, hcanonical] at hrun ⊢
      obtain ⟨_, u, hinside, hrest⟩ := Prog.run_bind_eq_ok _ hrun
      obtain ⟨_, v, hmake, hmore⟩ := Prog.run_bind_eq_ok _ hrest
      have hinside' := validateInsideDst_opens h hinside
      obtain rfl := validateInsideDst_same hinside'
      obtain ⟨hmake', hv⟩ := createDirAll_opens h hmake
      rw [Prog.run_bind_ok _ hinside', Prog.run_bind_ok _ hmake']
      exact ih hv hl.2 hmore

theorem ensureDirCreated_opens {names : Pos}
    (hrun : (ensureDirCreated (parent ++ [.normal name])
      (parent ++ [.normal name] ++ names.map .normal)).run (FileTree.exec cred now) t =
        (some (.ok ()), s)) :
    (ensureDirCreated (canonical (dir ++ [name])) (canonical (dir ++ [name] ++ names))).run
      (FileTree.exec cred now) t = (some (.ok ()), s) ∧ FileTree.Opens cred s parent dir name := by
  have hcanonical :
      (ensureDirCreated (canonical (dir ++ [name])) (canonical (dir ++ [name] ++ names))).run
      (FileTree.exec cred now) t = (some (.ok ()), s) := by
    rw [ensureDirCreated] at hrun ⊢
    obtain ⟨missing, u, hask, hmake⟩ := Prog.run_bind_eq_ok _ hrun
    obtain ⟨rfl, l, hl, rfl, hask'⟩ :=
      missingDirs_opens h (by simp; omega) (m := (canonical (dir ++ [name] ++ names)).length)
        (by simp [canonical]; omega) hask
    rw [Prog.run_bind_ok _ hask']
    rw [← List.map_reverse] at hmake ⊢
    exact createMissing_opens h (fun q hq => (hl q (List.mem_reverse.mp hq)).1) hmake
  have hroot : Near (wayTo (dir ++ [name] ++ names)) (canonical (dir ++ [name] ++ [])) :=
    near_below names List.nil_prefix
  rw [List.append_nil] at hroot
  exact ⟨hcanonical, opens_made h (stays_ensureDirCreated hroot (near_below names List.prefix_rfl))
    hcanonical⟩

/-! ### Entries below the entry -/

variable {names : Pos} {last : String}

theorem clear_opens : FileTree.Clear (wayTo (dir ++ [name] ++ names ++ [last])) t := by
  have hstraight := straight_opens h (names ++ [last])
  rw [← List.append_assoc] at hstraight
  exact hstraight.clear

/-- What happens at one place below the entry, short of links, leaves it so. -/
theorem opens_changed (hsame : ∀ q, ¬ dir ++ [name] ++ names ++ [last] <+: q → s.get? q = t.get? q)
    (hplain : ∀ q node, dir ++ [name] ++ names ++ [last] <+: q → s.get? q = some node →
      node.isLink = false) : FileTree.Opens cred s parent dir name := by
  apply h.of_same
  · intro q hq
    apply hsame
    intro hpre
    rw [List.append_assoc] at hpre
    exact hq ((List.prefix_append _ _).trans hpre)
  · have habove : ¬ dir ++ [name] ++ names ++ [last] <+: dir ++ [name] := fun hpre =>
      absurd hpre.length_le (by simp)
    rw [FileTree.isDir, hsame _ habove]
    exact h.isDir
  · intro q node hnode
    by_cases hq : dir ++ [name] ++ names ++ [last] <+: dir ++ [name] ++ q
    · exact hplain _ node hq hnode
    · exact h.plain q node ((hsame _ hq).symm.trans hnode)

omit h in
theorem spelled_concat (names : Pos) (last : String) :
    parent ++ [.normal name] ++ (names ++ [last]).map .normal =
      parent ++ [.normal name] ++ names.map .normal ++ [.normal last] := by
  simp

theorem unpackDir_opens
    (hrun : (unpackDir (parent ++ [.normal name] ++ (names ++ [last]).map .normal)).run
      (FileTree.exec cred now) t = (some (.ok ()), s)) :
    (unpackDir (canonical (dir ++ [name] ++ names ++ [last]))).run (FileTree.exec cred now) t =
      (some (.ok ()), s) := by
  have hspells := h.spells (names ++ [last])
  rw [← List.append_assoc] at hspells
  rw [unpackDir] at hrun ⊢
  obtain ⟨r, u, hattempt, hrest⟩ := Prog.run_bind_eq_ok _ hrun
  have hmkdir := Prog.run_attempt_eq_ok _ hattempt
  rw [Prog.run_bind_ok _ (run_attempt_some ((run_mkdir_spells hspells).symm.trans hmkdir))]
  rcases r with e | _
  · obtain ⟨e, rfl, hexec⟩ := exec_of_run_sys_error hmkdir
    obtain rfl := (FileTree.exec_error hexec).symm
    obtain ⟨present, v, hpresent, hdone⟩ := Prog.run_bind_eq_ok _ hrest
    split at hdone
    · rename_i htrue
      subst htrue
      split at hpresent
      · rename_i heq
        obtain rfl := IoError.os.inj heq
        have hpresent' : (isDir (canonical (dir ++ [name] ++ names ++ [last])) :
            Fs IoError Bool).run
            (FileTree.exec cred now) t = (some (.ok true), v) := by
          rwa [run_isDir, ← dirAt_spells hspells, ← run_isDir]
        dsimp only
        rw [Prog.run_bind_ok _ hpresent']
        exact hdone
      · cases congrArg Prod.fst hpresent
    · cases hdone
  · exact hrest

/-- What an entry has been removed from. -/
theorem get?_unlink_opens
    (hexec : FileTree.exec cred now (.unlink (canonical (dir ++ [name] ++ names ++ [last]))) t =
      (.ok (), s)) (q : Pos) :
    s.get? q = if dir ++ [name] ++ names ++ [last] <+: q then none else t.get? q := by
  have hunlink : t.unlink cred (canonical (dir ++ [name] ++ names ++ [last])) = (.ok (), s) := hexec
  rcases FileTree.unlink_cases cred t (canonical (dir ++ [name] ++ names ++ [last])) with
    ⟨e, he⟩ | ⟨dir', name', node, hslot, -, -, hremove⟩
  · rw [he] at hunlink
    cases hunlink
  · have hplace := (clear_opens h).slot_eq (seen_wayTo.mpr (Or.inl List.prefix_rfl)) hslot
    rw [hremove] at hunlink
    obtain rfl : _ = s := congrArg Prod.snd hunlink
    rw [FileTree.get?_removeAt, hplace]

theorem openForUnpack_opens {handle : Pos}
    (hrun : (openForUnpack (parent ++ [.normal name] ++ (names ++ [last]).map .normal)).run
      (FileTree.exec cred now) t = (some (.ok handle), s)) :
    (openForUnpack (canonical (dir ++ [name] ++ names ++ [last]))).run (FileTree.exec cred now) t =
      (some (.ok handle), s) := by
  have hspells := h.spells (names ++ [last])
  rw [← List.append_assoc] at hspells
  rw [openForUnpack] at hrun ⊢
  obtain ⟨r, u, hattempt, hrest⟩ := Prog.run_bind_eq_ok _ hrun
  have hcreate := Prog.run_attempt_eq_ok _ hattempt
  rw [Prog.run_bind_ok _ (run_attempt_some ((run_createNew_spells hspells).symm.trans hcreate))]
  rcases r with e | place
  · obtain ⟨e, rfl, hexec⟩ := exec_of_run_sys_error hcreate
    obtain rfl := (FileTree.exec_error hexec).symm
    split at hrest
    · exact hrest
    · obtain ⟨r, v, hattempt, hagain⟩ := Prog.run_bind_eq_ok _ hrest
      have hunlink := Prog.run_attempt_eq_ok _ hattempt
      have hunlink' := (run_unlink_spells hspells).symm.trans hunlink
      rw [Prog.run_bind_ok _ (run_attempt_some hunlink')]
      split at hagain
      · have hv : FileTree.Opens cred v parent dir name := by
          have hget := get?_unlink_opens h (exec_of_run_sys_ok hunlink')
          apply opens_changed h
          · intro q hq
            rw [hget, if_neg hq]
          · intro q node hq hnode
            rw [hget, if_pos hq] at hnode
            cases hnode
        have hspells' := hv.spells (names ++ [last])
        rw [← List.append_assoc] at hspells'
        exact (run_createNew_spells hspells').symm.trans hagain
      · obtain ⟨_, -, hexec⟩ := exec_of_run_sys_error hunlink
        obtain rfl := (FileTree.exec_error hexec).symm
        exact (run_createNew_spells hspells).symm.trans hagain
      · cases hagain
    · cases congrArg Prod.fst hrest
  · exact hrest

theorem unpackEntry_opens {e : TarEntry} {complete : Bool}
    (hrun : (unpackEntry e complete (parent ++ [.normal name] ++ (names ++ [last]).map .normal)).run
      (FileTree.exec cred now) t = (some (.ok ()), s)) :
    (unpackEntry e complete (canonical (dir ++ [name] ++ names ++ [last]))).run
      (FileTree.exec cred now) t = (some (.ok ()), s) := by
  rw [unpackEntry] at hrun ⊢
  split at hrun
  · rename_i hasDir
    obtain ⟨_, u, hmake, hchmod⟩ := Prog.run_bind_eq_ok _ hrun
    have hmake' := unpackDir_opens h hmake
    obtain ⟨-, -, hmade, hsame⟩ :=
      unpackDir_ok (clear_opens h) (seen_wayTo.mpr (Or.inl List.prefix_rfl)) hmake'
    have hu : FileTree.Opens cred u parent dir name := by
      apply opens_changed h
      · intro q hq
        apply hsame
        rintro rfl
        exact hq List.prefix_rfl
      · rintro q node ⟨rest, rfl⟩ hnode
        by_cases hrest : rest = []
        · obtain ⟨node', hnode', hkind⟩ := FileTree.isDir_iff.mp hmade
          rw [hrest, List.append_nil] at hnode
          obtain rfl := Option.some.inj (hnode.symm.trans hnode')
          rw [Node.isLink, Node.isDir_iff.mp hkind]
        · rw [hsame _ (by simpa using hrest)] at hnode
          rw [List.append_assoc, List.append_assoc (dir ++ [name])] at hnode
          exact h.plain _ node hnode
    have hspells := hu.spells (names ++ [last])
    rw [← List.append_assoc] at hspells
    rw [if_pos hasDir, Prog.run_bind_ok _ hmake']
    exact (run_chmod_spells hspells _).symm.trans hchmod
  · rename_i hasFile
    obtain ⟨handle, u, hopen, hwrite⟩ := Prog.run_bind_eq_ok _ hrun
    rw [if_neg hasFile, Prog.run_bind_ok _ (openForUnpack_opens h hopen)]
    exact hwrite

omit h in
theorem run_tarError {α : Type} {m m' : Fs IoError α} {message message' : String} {a : α}
    {u : FileTree}
    (htransfer : m.run (FileTree.exec cred now) u = (some (.ok a), s) →
      m'.run (FileTree.exec cred now) u = (some (.ok a), s))
    (hrun : (tarError message m).run (FileTree.exec cred now) u = (some (.ok a), s)) :
    (tarError message' m').run (FileTree.exec cred now) u = (some (.ok a), s) := by
  rw [tarError, Prog.run_mapError, htransfer (Prog.run_mapError_eq_ok _ hrun)]
  rfl

theorem unpackIn_opens {e : TarEntry} {complete b : Bool}
    (hrun : (unpackIn (parent ++ [.normal name]) e complete).run (FileTree.exec cred now) t =
      (some (.ok b), s)) :
    (unpackIn (canonical (dir ++ [name])) e complete).run (FileTree.exec cred now) t =
      (some (.ok b), s) := by
  rcases hnames : entryNames (PathBuf.ofString e.path) with _ | names
  · rw [unpackIn, hnames] at hrun ⊢
    exact hrun
  rcases List.eq_nil_or_concat' names with rfl | ⟨names, last, rfl⟩
  · rw [unpackIn, hnames] at hrun ⊢
    exact hrun
  · rw [unpackIn_names complete _ hnames (by simp)] at hrun ⊢
    rw [canonical_below, ← List.append_assoc, canonical_concat (dir ++ [name] ++ names)]
    dsimp only at hrun ⊢
    have hdrop :
        (parent ++ [Component.normal name] ++ (names ++ [last]).map Component.normal).dropLast =
        parent ++ [Component.normal name] ++ names.map Component.normal := by
      rw [spelled_concat, List.dropLast_concat]
    rw [hdrop] at hrun
    rw [List.dropLast_concat, ← canonical_concat]
    obtain ⟨_, u, hmake, hrest⟩ := Prog.run_bind_eq_ok _ hrun
    obtain ⟨_, v, hinside, hunpack⟩ := Prog.run_bind_eq_ok _ hrest
    obtain ⟨_, w, hentry, hdone⟩ := Prog.run_bind_eq_ok _ hunpack
    have hu := (ensureDirCreated_opens h (Prog.run_mapError_eq_ok _ hmake)).2
    have hinside' := validateInsideDst_opens hu hinside
    obtain rfl := validateInsideDst_same hinside'
    rw [Prog.run_bind_ok _ (run_tarError (fun hrun => (ensureDirCreated_opens h hrun).1) hmake),
      Prog.run_bind_ok _ hinside', Prog.run_bind_ok _ (run_tarError (unpackEntry_opens hu) hentry)]
    exact hdone

theorem extractItem_opens {item : TarItem}
    (hrun : (extractItem (parent ++ [.normal name]) item).run (FileTree.exec cred now) t =
      (some (.ok ()), s)) :
    (extractItem (canonical (dir ++ [name])) item).run (FileTree.exec cred now) t =
      (some (.ok ()), s) := by
  cases item with
  | broken message => exact hrun
  | entry e complete =>
    rw [extractItem] at hrun ⊢
    split at hrun
    · cases congrArg Prod.fst hrun
    split at hrun
    · rename_i hinside hkind
      obtain ⟨b, u, hunpack, hdone⟩ := Prog.run_bind_eq_ok _ hrun
      have hunpack' := unpackIn_opens h (Prog.run_mapError_eq_ok _ hunpack)
      rw [if_neg hinside, if_pos hkind, Prog.run_bind, io, Prog.run_mapError, hunpack']
      exact hdone
    · cases congrArg Prod.fst hrun

omit h in
/-- What an archive describes opens as it stands. -/
theorem opens_of_shows {T : ArchiveLayout} (hlead : FileTree.Leads cred t parent dir [name])
    (hT : T.Closed) (hshows : Shows s (dir ++ [name]) T)
    (hsame : ∀ q, ¬ dir ++ [name] <+: q → s.get? q = t.get? q) :
      FileTree.Opens cred s parent dir name where
  lead := hlead.of_same fun q hq => hsame q (hq name (List.mem_singleton_self name))
  isDir := hshows.isDir hT
  plain _ _ hnode := hshows.isLink hnode

omit h in
/-- **The path of an extraction.**  What is extracted at a path is what is extracted at
    the canonical one. -/
theorem extractItems_opens {T : ArchiveLayout} (hlead : FileTree.Leads cred t parent dir [name])
    (hT : T.Closed) (hshows : Shows t (dir ++ [name]) T) {items : List TarItem}
    (hrun : (extractItems (parent ++ [.normal name]) items).run (FileTree.exec cred now) t =
      (some (.ok ()), s)) :
    (extractItems (canonical (dir ++ [name])) items).run (FileTree.exec cred now) t =
      (some (.ok ()), s) := by
  induction items generalizing t T with
  | nil => exact hrun
  | cons item items ih =>
    obtain ⟨_, u, hitem, hrest⟩ := Prog.run_bind_eq_ok _ hrun
    have hitem' := extractItem_opens (opens_of_shows hlead hT hshows fun _ _ => rfl) hitem
    obtain ⟨U, -, hclosed, hshows', hframe⟩ := extractItem_ok hT hshows hitem'
    have hlead' := (opens_of_shows hlead hclosed hshows' hframe).lead
    rw [extractItems, Prog.run_bind_ok _ hitem']
    exact ih hlead' hclosed hshows' hrest

end Programs

end Scriptorium
