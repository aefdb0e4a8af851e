/-
  Scriptorium/PosixPath.lean
  ==========================
  **Path texts and their components.**

  A path text is cut at every `/`.  An empty segment (a repeated, leading or
  trailing slash) means the same to the kernel as `.`: stay where you are, which
  must be a directory.  `lexical` is the position a list of components names
  when nothing on the way is a symbolic link: the left fold in which `.` stays,
  `..` drops the last name (and stays put at the root) and a name descends.

  Positions are lists of names from the root of the tree.
-/
import Mathlib.Tactic.Common

namespace Posix

/-! ### Components -/

inductive Component where
  | rootDir
  | curDir
  | parentDir
  | normal (name : String)
deriving DecidableEq, Repr

/-- The position of a node: the names on the way to it from the root. -/
abbrev Pos := List String

/-- A string that can be the name of a directory entry. -/
def Proper (name : String) : Prop :=
  name ≠ "" ∧ name ≠ "." ∧ name ≠ ".." ∧ '/' ∉ name.toList

instance (name : String) : Decidable (Proper name) := by unfold Proper; infer_instance

/-- The bytes of a text. -/
def utf8 (s : String) : List UInt8 := s.toList.flatMap String.utf8EncodeChar

/-- How the kernel reads one segment of a path text. -/
def componentOf (s : String) : Component :=
  if s = "" ∨ s = "." then .curDir
  else if s = ".." then .parentDir
  else .normal s

def isAbsolute (text : String) : Bool := text.toList.head? == some '/'

/-- The pieces of a path text between its slashes. -/
def pieces (text : String) : List String :=
  (text.toList.splitOn '/').map String.ofList

/-- The components the kernel walks for a path text. -/
def segments (text : String) : List Component :=
  if isAbsolute text then .rootDir :: (pieces text).map componentOf
  else (pieces text).map componentOf

/-! ### Texts -/

theorem not_mem_of_mem_splitOn {sep : Char} {cs piece : List Char}
    (h : piece ∈ cs.splitOn sep) : sep ∉ piece := by
  induction cs generalizing piece with
  | nil =>
    rw [List.splitOn_nil, List.mem_singleton] at h
    simp [h]
  | cons c cs ih =>
    rw [List.splitOn_eq_splitOnP, List.splitOnP_cons_eq_if_modifyHead,
      ← List.splitOn_eq_splitOnP] at h
    by_cases hc : c = sep
    · rw [if_pos (by simpa using hc)] at h
      rcases List.mem_cons.mp h with rfl | h
      · simp
      · exact ih h
    · rw [if_neg (by simpa using hc)] at h
      cases hsplit : cs.splitOn sep with
      | nil => simp [hsplit] at h
      | cons first rest =>
        rw [hsplit, List.modifyHead_cons] at h
        rcases List.mem_cons.mp h with rfl | h
        · have hfirst : sep ∉ first := ih (by rw [hsplit]; exact List.mem_cons_self)
          simp [Ne.symm hc, hfirst]
        · exact ih (by rw [hsplit]; exact List.mem_cons_of_mem _ h)

theorem slash_not_mem_of_mem_pieces {text piece : String} (h : piece ∈ pieces text) :
    '/' ∉ piece.toList := by
  obtain ⟨cs, hcs, rfl⟩ := List.mem_map.mp h
  rw [String.toList_ofList]
  exact not_mem_of_mem_splitOn hcs

theorem pieces_ne_nil (text : String) : pieces text ≠ [] := by
  simp [pieces, List.splitOn_eq_splitOnP, List.splitOnP_ne_nil]

theorem segments_ne_nil (text : String) : segments text ≠ [] := by
  unfold segments
  split <;> simp [pieces_ne_nil]

/-- A text without a slash is its own only piece. -/
theorem pieces_of_no_slash {text : String} (h : '/' ∉ text.toList) : pieces text = [text] := by
  rw [pieces, List.splitOn_eq_singleton h, List.map_singleton, String.ofList_toList]

theorem isAbsolute_eq_false_of_no_slash {text : String} (h : '/' ∉ text.toList) :
    isAbsolute text = false := by
  cases hl : text.toList with
  | nil => simp [isAbsolute, hl]
  | cons c cs =>
    rw [hl, List.mem_cons, not_or] at h
    simpa [isAbsolute, hl] using Ne.symm h.1

theorem componentOf_of_proper {name : String} (h : Proper name) : componentOf name =
    .normal name := by
  obtain ⟨hempty, hdot, hdotdot, -⟩ := h
  simp [componentOf, hempty, hdot, hdotdot]

/-- A proper name, read as a path text, is that name. -/
theorem segments_of_proper {name : String} (h : Proper name) : segments name = [.normal name] := by
  rw [segments, isAbsolute_eq_false_of_no_slash h.2.2.2, if_neg (by simp),
    pieces_of_no_slash h.2.2.2, List.map_singleton, componentOf_of_proper h]

theorem proper_of_componentOf_eq {s name : String} (hslash : '/' ∉ s.toList)
    (h : componentOf s = .normal name) : Proper name := by
  unfold componentOf at h
  split at h
  · cases h
  · rename_i hdot
    split at h
    · cases h
    · rename_i hdotdot
      cases h
      rw [not_or] at hdot
      exact ⟨hdot.1, hdot.2, hdotdot, hslash⟩

/-- Every name a path text mentions is a proper one. -/
theorem proper_of_mem_segments {text name : String} (h : .normal name ∈ segments text) :
    Proper name := by
  have hmem : .normal name ∈ (pieces text).map componentOf := by
    unfold segments at h
    split at h
    · simpa using h
    · exact h
  obtain ⟨piece, hpiece, hseg⟩ := List.mem_map.mp hmem
  exact proper_of_componentOf_eq (slash_not_mem_of_mem_pieces hpiece) hseg

/-! ### The lexical reading -/

def lexicalStep (pos : Pos) : Component → Pos
  | .rootDir => []
  | .curDir => pos
  | .parentDir => pos.dropLast
  | .normal name => pos ++ [name]

/-- The position named by `components`, read from `pos` with no links on the way. -/
def lexical (pos : Pos) (components : List Component) : Pos :=
  components.foldl lexicalStep pos

@[simp] theorem lexical_nil (pos : Pos) : lexical pos [] = pos := rfl

@[simp] theorem lexical_cons (pos : Pos) (c : Component) (cs : List Component) :
    lexical pos (c :: cs) = lexical (lexicalStep pos c) cs := rfl

theorem lexical_append (pos : Pos) (cs ds : List Component) :
    lexical pos (cs ++ ds) = lexical (lexical pos cs) ds := List.foldl_append

theorem lexical_normal (pos names : Pos) : lexical pos (names.map .normal) = pos ++ names := by
  induction names generalizing pos with
  | nil => simp
  | cons name names ih => simp [lexicalStep, ih]

/-- Segments that only say "stay here" can be dropped. -/
theorem lexical_filter_curDir (pos : Pos) (cs : List Component) :
    lexical pos (cs.filter (· ≠ .curDir)) = lexical pos cs := by
  induction cs generalizing pos with
  | nil => rfl
  | cons c cs ih =>
    by_cases hc : c = .curDir
    · subst hc
      simpa [lexicalStep] using ih pos
    · simpa [hc] using ih (lexicalStep pos c)

/-- The components of the canonical path to a position. -/
def canonical (pos : Pos) : List Component := .rootDir :: pos.map .normal

theorem canonical_append (pos names : Pos) :
    canonical (pos ++ names) = canonical pos ++ names.map .normal := by
  simp [canonical]

theorem canonical_concat (pos : Pos) (name : String) :
    canonical (pos ++ [name]) = canonical pos ++ [.normal name] :=
  canonical_append pos [name]

theorem lexical_canonical (start pos : Pos) : lexical start (canonical pos) = pos := by
  simp [canonical, lexicalStep, lexical_normal]

theorem canonical_injective : Function.Injective canonical := by
  intro p q h
  have := congrArg (lexical []) h
  simpa [lexical_canonical] using this

theorem canonical_prefix_iff {p q : Pos} : canonical p <+: canonical q ↔ p <+: q := by
  have hinj : Function.Injective Component.normal := fun a b h => Component.normal.inj h
  rw [canonical, canonical, List.cons_prefix_cons]
  simp [List.prefix_map_iff_of_injective hinj]

end Posix
