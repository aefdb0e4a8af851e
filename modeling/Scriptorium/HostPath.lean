import Scriptorium.PosixPath
import Mathlib.Data.List.Basic
import Mathlib.Data.List.Induction

/-!
# `std::path` and `path_clean`

A `PathBuf` is modelled by its components, which is what `Path` equality,
`starts_with`, `parent` and `file_name` look at.  `clean` is the fold of the
`path_clean` crate: `.` is dropped, `..` removes a preceding name and stays put
at the root.

On absolute paths this is the lexical reading of `PosixPath` in disguise
(`clean_absolute`), which is what connects the service's purely textual checks
to what a path denotes in a file tree.
-/

namespace Scriptorium

open Posix

abbrev PathBuf := List Component

namespace PathBuf

/-- `Path::components`: repeated slashes and inner `.` vanish, a leading `.`
    of a relative path is kept. -/
def ofString (text : String) : PathBuf :=
  let rest := ((pieces text).map componentOf).filter (· ≠ .curDir)
  if isAbsolute text then .rootDir :: rest
  else if (pieces text).head? = some "." then .curDir :: rest
  else rest

/-- `Path::join`: an absolute argument replaces the base. -/
def join (base : PathBuf) (text : String) : PathBuf :=
  match ofString text with
  | .rootDir :: rest => .rootDir :: rest
  | .curDir :: rest => if base = [] then .curDir :: rest else base ++ rest
  | rest => base ++ rest

def cleanStep (out : PathBuf) : Component → PathBuf
  | .curDir => out
  | .parentDir =>
    match out.getLast? with
    | some .rootDir => out
    | some (.normal _) => out.dropLast
    | _ => out ++ [.parentDir]
  | c => out ++ [c]

/-- `path_clean::clean`. -/
def clean (path : PathBuf) : PathBuf :=
  let out := path.foldl cleanStep []
  if out = [] then [.curDir] else out

/-- `Path::starts_with`, which compares whole components. -/
def startsWith (path base : PathBuf) : Bool := base.isPrefixOf path

/-- `Path::parent`. -/
def parent (path : PathBuf) : Option PathBuf :=
  match path.getLast? with
  | none => none
  | some .rootDir => none
  | some _ => some path.dropLast

/-- `Path::file_name`. -/
def fileName (path : PathBuf) : Option String :=
  match path.getLast? with
  | some (.normal name) => some name
  | _ => none

/-- The text of a relative path. -/
def joinNames (names : Pos) : String :=
  String.ofList (['/'].intercalate (names.map String.toList))

/-- `Path::display`. -/
def display (path : PathBuf) : String :=
  let names := path.filterMap fun
    | .normal name => some name
    | .parentDir => some ".."
    | .curDir => some "."
    | .rootDir => none
  if path.head? = some .rootDir then "/" ++ joinNames names else joinNames names

/-! ### Texts and components -/

theorem display_normals (names : List String) : display (names.map Component.normal) =
    joinNames names := by
  have hrelative : (names.map Component.normal).head? ≠ some .rootDir := by
    cases names <;> simp
  simp only [display, if_neg hrelative, List.filterMap_map]
  congr 1
  exact List.filterMap_some

theorem ofString_of_proper {name : String} (h : Proper name) : ofString name = [.normal name] := by
  have hseg := componentOf_of_proper h
  have hdot : name ≠ "." := h.2.1
  have hslash := h.2.2.2
  simp [ofString, isAbsolute_eq_false_of_no_slash hslash, pieces_of_no_slash hslash, hseg, hdot]

theorem join_of_proper {base : PathBuf} {name : String} (h : Proper name) :
    base.join name = base ++ [.normal name] := by
  rw [join, ofString_of_proper h]

/-- A path text and the components `Path` sees in it read alike. -/
theorem lexical_ofString (pos : Pos) (text : String) :
    lexical pos (ofString text) = lexical pos (segments text) := by
  unfold ofString segments
  by_cases habs : isAbsolute text = true
  · simp only [habs, if_true, lexical_cons, lexicalStep]
    exact lexical_filter_curDir _ _
  · rw [if_neg habs, if_neg habs]
    split
    · rw [lexical_cons, lexicalStep]
      exact lexical_filter_curDir _ _
    · exact lexical_filter_curDir _ _

theorem proper_of_mem_ofString {text name : String} (h : .normal name ∈ ofString text) :
    Proper name := by
  have hmem : .normal name ∈ (pieces text).map componentOf := by
    unfold ofString at h
    split at h
    · rw [List.mem_cons] at h
      exact (List.mem_filter.mp (h.resolve_left (by simp))).1
    · split at h
      · rw [List.mem_cons] at h
        exact (List.mem_filter.mp (h.resolve_left (by simp))).1
      · exact (List.mem_filter.mp h).1
  obtain ⟨s, hs, hseg⟩ := List.mem_map.mp hmem
  exact proper_of_componentOf_eq (slash_not_mem_of_mem_pieces hs) hseg

theorem componentOf_ne_rootDir (s : String) : componentOf s ≠ .rootDir := by
  unfold componentOf
  split
  · simp
  · split <;> simp

theorem rootDir_not_mem_filter (text : String) :
    .rootDir ∉ ((pieces text).map componentOf).filter (· ≠ .curDir) := by
  intro h
  obtain ⟨s, -, hs⟩ := List.mem_map.mp (List.mem_filter.mp h).1
  exact componentOf_ne_rootDir s hs

theorem ofString_absolute {text : String} (h : isAbsolute text = true) :
    ∃ rest, ofString text = .rootDir :: rest ∧ .rootDir ∉ rest := by
  refine ⟨_, ?_, rootDir_not_mem_filter text⟩
  simp [ofString, h]

theorem rootDir_not_mem_ofString {text : String} (h : isAbsolute text = false) :
    .rootDir ∉ ofString text := by
  have hrest := rootDir_not_mem_filter text
  unfold ofString
  rw [if_neg (by simp [h])]
  split
  · rw [List.mem_cons, not_or]
    exact ⟨by simp, hrest⟩
  · exact hrest

/-! ### Cleaning -/

theorem cleanStep_canonical {pos : Pos} {c : Component} (hc : c ≠ .rootDir) :
    cleanStep (canonical pos) c = canonical (lexicalStep pos c) := by
  cases c with
  | rootDir => exact absurd rfl hc
  | curDir => rfl
  | parentDir =>
    cases pos using List.reverseRecOn with
    | nil => rfl
    | append_singleton names name =>
      have hlast : (canonical (names ++ [name])).getLast? = some (.normal name) := by
        simp [canonical, List.getLast?_cons]
      have hdrop : (canonical (names ++ [name])).dropLast = canonical names := by
        rw [canonical, List.map_append, List.map_singleton, ← List.cons_append,
          List.dropLast_concat, canonical]
      simp only [cleanStep, hlast, hdrop, lexicalStep, List.dropLast_concat]
  | normal name => simp [cleanStep, canonical, lexicalStep]

theorem foldl_cleanStep {pos : Pos} {cs : List Component} (hcs : .rootDir ∉ cs) :
    cs.foldl cleanStep (canonical pos) = canonical (lexical pos cs) := by
  induction cs generalizing pos with
  | nil => rfl
  | cons c cs ih =>
    rw [List.mem_cons, not_or] at hcs
    rw [List.foldl_cons, cleanStep_canonical (Ne.symm hcs.1), ih hcs.2, lexical_cons]

/-- Cleaning an absolute path gives the canonical path of the position it
    lexically names. -/
theorem clean_absolute {cs : List Component} (hcs : .rootDir ∉ cs) :
    clean (.rootDir :: cs) = canonical (lexical [] cs) := by
  have hstep : cleanStep [] .rootDir = canonical [] := rfl
  have hfold : cs.foldl cleanStep (canonical []) = canonical (lexical [] cs) := foldl_cleanStep hcs
  simp only [clean, List.foldl_cons, hstep, hfold]
  simp [canonical]

/-- Joining a text to a canonical path and cleaning reads the text from there. -/
theorem clean_join_canonical (pos : Pos) (text : String) :
    clean (join (canonical pos) text) = canonical (lexical pos (segments text)) := by
  rw [← lexical_ofString]
  have hnormal : ∀ rest : List Component, .rootDir ∉ rest →
      clean (canonical pos ++ rest) = canonical (lexical pos rest) := by
    intro rest hrest
    rw [canonical, List.cons_append, clean_absolute, lexical_append, lexical_normal,
      List.nil_append]
    simp [hrest]
  cases habs : isAbsolute text with
  | true =>
    obtain ⟨rest, htext, hrest⟩ := ofString_absolute habs
    rw [join, htext]
    simp only [clean_absolute hrest, lexical_cons, lexicalStep]
  | false =>
    have hroot := rootDir_not_mem_ofString habs
    unfold join
    split
    · rename_i rest htext
      simp [htext] at hroot
    · rename_i rest htext
      rw [htext, List.mem_cons, not_or] at hroot
      rw [if_neg (by simp [canonical]), hnormal rest hroot.2, htext, lexical_cons, lexicalStep]
    · exact hnormal _ hroot

/-! ### Canonical paths -/

theorem startsWith_canonical {p q : Pos} :
    startsWith (canonical q) (canonical p) = true ↔ p <+: q := by
  rw [startsWith, List.isPrefixOf_iff_prefix, canonical_prefix_iff]

@[simp] theorem parent_canonical_concat (dir : Pos) (name : String) :
    parent (canonical (dir ++ [name])) = some (canonical dir) := by
  have hcons : canonical (dir ++ [name]) = canonical dir ++ [.normal name] := by simp [canonical]
  rw [parent, hcons, List.getLast?_concat, List.dropLast_concat]

@[simp] theorem fileName_canonical_concat (dir : Pos) (name : String) :
    fileName (canonical (dir ++ [name])) = some name := by
  have hcons : canonical (dir ++ [name]) = canonical dir ++ [.normal name] := by simp [canonical]
  rw [fileName, hcons, List.getLast?_concat]

theorem mem_canonical {pos : Pos} {c : Component} (h : c ∈ canonical pos) :
    c ≠ .curDir ∧ c ≠ .parentDir := by
  rw [canonical, List.mem_cons, List.mem_map] at h
  rcases h with rfl | ⟨name, -, rfl⟩ <;> simp

/-- An absolute path without dot components is the canonical path of the
    position it names. -/
theorem eq_canonical_of_no_dots {cs : List Component} (hroot : .rootDir ∉ cs)
    (hdots : ∀ c ∈ cs, c ≠ .curDir ∧ c ≠ .parentDir) :
    (.rootDir :: cs : PathBuf) = canonical (lexical [] cs) := by
  have hnames : ∀ cs : List Component, .rootDir ∉ cs →
      (∀ c ∈ cs, c ≠ .curDir ∧ c ≠ .parentDir) → ∃ names : Pos, cs = names.map .normal := by
    intro cs
    induction cs with
    | nil => exact fun _ _ => ⟨[], rfl⟩
    | cons c cs ih =>
      intro hroot hdots
      rw [List.mem_cons, not_or] at hroot
      rw [List.forall_mem_cons] at hdots
      obtain ⟨names, rfl⟩ := ih hroot.2 hdots.2
      cases c with
      | rootDir => exact absurd rfl hroot.1
      | curDir => exact absurd rfl hdots.1.1
      | parentDir => exact absurd rfl hdots.1.2
      | normal name => exact ⟨name :: names, rfl⟩
  obtain ⟨names, rfl⟩ := hnames cs hroot hdots
  rw [lexical_normal, List.nil_append, canonical]

/-! ### Names and their text -/

section JoinNames

variable {names : Pos}

theorem pieces_joinNames (h : ∀ name ∈ names, Proper name) (hne : names ≠ []) :
    pieces (joinNames names) = names := by
  have hslash : ∀ cs ∈ names.map String.toList, '/' ∉ cs := by
    intro cs hcs
    obtain ⟨name, hname, rfl⟩ := List.mem_map.mp hcs
    exact (h name hname).2.2.2
  rw [pieces, joinNames, String.toList_ofList,
    List.splitOn_intercalate '/' hslash (by simpa using hne)]
  simp [List.map_map, Function.comp_def]

theorem head?_joinNames (h : ∀ name ∈ names, Proper name) :
    (joinNames names).toList.head? ≠ some '/' := by
  rw [joinNames, String.toList_ofList]
  cases names with
  | nil => simp
  | cons first rest =>
    obtain ⟨hempty, -, -, hslash⟩ := h first List.mem_cons_self
    cases hfirst : first.toList with
    | nil => exact absurd (by simpa using hfirst) hempty
    | cons c cs =>
      rw [hfirst, List.mem_cons, not_or] at hslash
      cases rest <;> simpa [hfirst, List.intercalate] using fun hc => hslash.1 hc.symm

theorem isAbsolute_joinNames (h : ∀ name ∈ names, Proper name) : isAbsolute
    (joinNames names) = false := by
  rw [isAbsolute]
  exact beq_eq_false_iff_ne.mpr (head?_joinNames h)

theorem getLast?_joinNames (h : ∀ name ∈ names, Proper name) :
    (joinNames names).toList.getLast? ≠ some '/' := by
  rw [joinNames, String.toList_ofList]
  induction names with
  | nil => simp
  | cons first rest ih =>
    rw [List.forall_mem_cons] at h
    cases rest with
    | nil =>
      simp only [List.map_cons, List.map_nil, List.intercalate_singleton]
      exact fun hlast => h.1.2.2.2 (List.mem_of_getLast? hlast)
    | cons second rest =>
      obtain ⟨c, cs, hsecond⟩ : ∃ c cs, second.toList = c :: cs := by
        apply List.exists_cons_of_ne_nil
        intro hnil
        exact (h.2 second List.mem_cons_self).1 (by simpa using hnil)
      have hnonempty : ['/'].intercalate ((second :: rest).map String.toList) ≠ [] := by
        rw [List.map_cons, hsecond, List.intercalate_cons_cons_left]
        exact List.cons_ne_nil _ _
      rw [List.map_cons, List.intercalate_cons_of_ne_nil (by simp),
        List.getLast?_append_of_ne_nil _ hnonempty]
      exact ih h.2

theorem segments_joinNames (h : ∀ name ∈ names, Proper name) (hne : names ≠ []) :
    segments (joinNames names) = names.map .normal := by
  rw [segments, isAbsolute_joinNames h, if_neg (by simp), pieces_joinNames h hne]
  exact List.map_congr_left fun name hname => componentOf_of_proper (h name hname)

theorem ofString_joinNames (h : ∀ name ∈ names, Proper name) (hne : names ≠ []) :
    ofString (joinNames names) = names.map .normal := by
  have hdot : names.head? ≠ some "." := by
    intro hhead
    exact (h "." (List.mem_of_mem_head? hhead)).2.1 rfl
  have hcomponents : names.map componentOf = names.map .normal :=
    List.map_congr_left fun name hname => componentOf_of_proper (h name hname)
  rw [ofString, isAbsolute_joinNames h, pieces_joinNames h hne, if_neg (by simp), if_neg hdot,
    hcomponents,
    List.filter_eq_self]
  intro c hc
  obtain ⟨name, -, rfl⟩ := List.mem_map.mp hc
  simp

end JoinNames
end PathBuf

end Scriptorium
