import Mathlib.Data.List.Basic
import Mathlib.Data.List.Infix

/-!
# Layouts

A layout says what stands at which path below some directory: another directory, or a leaf
with its data.  `put` adds an item under a path, with the directories above it; where a
leaf is in the way of a directory, or a directory in that of a leaf, it does not fit.
A later leaf takes the place of an earlier one.  Names and data are parameters.
-/

/-- What stands at a path. -/
inductive Layout.Item (D : Type) where
  | dir
  | leaf (data : D)
deriving DecidableEq, Repr

/-- What stands where, relative to a directory. -/
abbrev Layout (α D : Type) := List α → Option (Layout.Item D)

namespace Layout

variable {α D : Type} [DecidableEq α]

/-- A directory without entries. -/
def bare : Layout α D := fun path => if path = [] then some .dir else none

/-- The layout has its directory, and above everything in it are directories. -/
structure Closed (T : Layout α D) : Prop where
  root : T [] = some .dir
  parent : ∀ path name, T (path ++ [name]) ≠ none → T path = some .dir

/-- Nothing, or a directory. -/
def Open (T : Layout α D) (path : List α) : Prop := T path = none ∨ T path = some .dir

/-- An item can be put under a path. -/
def Fits (T : Layout α D) (path : List α) (item : Item D) : Prop :=
  (∀ above ∈ path.inits, above ≠ path → T.Open above) ∧
    (item = .dir → T.Open path) ∧ (item ≠ .dir → T path ≠ some .dir)

instance [DecidableEq D] (T : Layout α D) (path : List α) : Decidable (T.Open path) :=
  inferInstanceAs (Decidable (_ ∨ _))

instance [DecidableEq D] (T : Layout α D) (path : List α) (item : Item D) :
    Decidable (T.Fits path item) :=
  inferInstanceAs (Decidable (_ ∧ _ ∧ _))

/-- An item under a path, and directories above it. -/
def put (T : Layout α D) (path : List α) (item : Item D) : Layout α D := fun q =>
  if q = path then some item else if q <+: path then some .dir else T q

/-- The part of a layout below an entry. -/
def below (T : Layout α D) (name : α) : Layout α D := fun path => T (name :: path)

/-- A directory that is the only entry. -/
def Sole (T : Layout α D) (name : α) : Prop :=
  T [name] = some .dir ∧ ∀ other, T [other] ≠ none → other = name

/-- A sole directory is left out: its entries come in its place. -/
def Unwrapped (T U : Layout α D) : Prop :=
  (∃ name, T.Sole name ∧ U = T.below name) ∨ (¬ ∃ name, T.Sole name) ∧ U = T

omit [DecidableEq α] in
theorem Sole.eq {T : Layout α D} {a b : α} (ha : T.Sole a) (hb : T.Sole b) : a = b := by
  apply hb.2
  rw [ha.1]
  exact Option.some_ne_none _

omit [DecidableEq α] in
theorem Unwrapped.eq {T U V : Layout α D} (hU : T.Unwrapped U) (hV : T.Unwrapped V) : U = V := by
  rcases hU with ⟨a, ha, rfl⟩ | ⟨hnone, rfl⟩
  · rcases hV with ⟨b, hb, rfl⟩ | ⟨hnone, -⟩
    · rw [ha.eq hb]
    · exact absurd ⟨a, ha⟩ hnone
  · rcases hV with ⟨b, hb, -⟩ | ⟨-, rfl⟩
    · exact absurd ⟨b, hb⟩ hnone
    · rfl

omit [DecidableEq α] in
theorem exists_unwrapped (T : Layout α D) : ∃ U, T.Unwrapped U := by
  by_cases h : ∃ name, T.Sole name
  · obtain ⟨name, hsole⟩ := h
    exact ⟨T.below name, Or.inl ⟨name, hsole, rfl⟩⟩
  · exact ⟨T, Or.inr ⟨h, rfl⟩⟩

omit [DecidableEq α] in
theorem closed_bare : (bare : Layout α D).Closed where
  root := by rw [bare, if_pos rfl]
  parent path name h := by simp [bare] at h

omit [DecidableEq α] in
theorem Closed.above {T : Layout α D} (h : T.Closed) {p q : List α} (hq : T q ≠ none)
    (hpq : p <+: q) (hne : p ≠ q) : T p = some .dir := by
  induction q using List.reverseRecOn with
  | nil => exact absurd (List.prefix_nil.mp hpq) hne
  | append_singleton parent name ih =>
    have hparent := h.parent parent name hq
    rcases List.prefix_concat_iff.mp hpq with heq | hpre
    · exact absurd heq hne
    · by_cases heq : p = parent
      · rw [heq, hparent]
      · exact ih (by rw [hparent]; nofun) hpre heq

/-- Putting an item where it fits leaves a layout. -/
theorem Closed.put {T : Layout α D} (h : T.Closed) {path : List α} {item : Item D}
    (hfits : T.Fits path item) (hne : path ≠ []) : (T.put path item).Closed where
  root := by
    rw [Layout.put, if_neg (Ne.symm hne), if_pos List.nil_prefix]
  parent above name hsome := by
    by_cases hpre : above ++ [name] <+: path
    · have habove : above <+: path := (List.prefix_append _ _).trans hpre
      have hneq : above ≠ path := by
        rintro rfl
        exact absurd hpre.length_le (by simp)
      rw [Layout.put, if_neg hneq, if_pos habove]
    · have hneq : above ++ [name] ≠ path := fun heq => hpre (heq ▸ List.prefix_rfl)
      rw [Layout.put, if_neg hneq, if_neg hpre] at hsome
      have hdir := h.parent above name hsome
      rw [Layout.put]
      split
      · -- only a directory can be put where one is
        rename_i heq
        subst heq
        by_cases hitem : item = .dir
        · rw [hitem]
        · exact absurd hdir (hfits.2.2 hitem)
      · split
        · rfl
        · exact hdir

/-! ### Putting a layout together -/

/-- What stands at some paths, and above them. -/
def upTo (U : Layout α D) (paths : List (List α)) : Layout α D := fun q =>
  if q = [] ∨ ∃ p ∈ paths, q <+: p then U q else none

theorem upTo_nil {U : Layout α D} (hU : U.Closed) : U.upTo [] = bare := by
  funext q
  by_cases hq : q = []
  · rw [upTo, if_pos (Or.inl hq), hq, hU.root, bare, if_pos rfl]
  · rw [upTo, if_neg (by simpa using hq), bare, if_neg hq]

theorem upTo_eq {U : Layout α D} {paths : List (List α)}
    (h : ∀ q, U q ≠ none → q = [] ∨ q ∈ paths) :
    U.upTo paths = U := by
  funext q
  by_cases hq : U q = none
  · rw [upTo, hq, ite_self]
  · rw [upTo, if_pos ((h q hq).imp_right fun hmem => ⟨q, hmem, List.prefix_rfl⟩)]

theorem upTo_cases (U : Layout α D) (paths : List (List α)) (q : List α) :
    U.upTo paths q = none ∨ U.upTo paths q = U q := by
  rw [upTo]
  split
  · exact Or.inr rfl
  · exact Or.inl rfl

/-- What stands in a layout fits into any part of it. -/
theorem fits_upTo {U : Layout α D} (hU : U.Closed) (paths : List (List α)) {path : List α}
    {item : Item D} (hitem : U path = some item) : (U.upTo paths).Fits path item := by
  have hsome : U path ≠ none := by
    rw [hitem]
    exact Option.some_ne_none item
  refine ⟨fun above habove hne => ?_, fun hdir => ?_, fun hleaf => ?_⟩
  · rw [Open, ← hU.above hsome ((List.mem_inits _ _).mp habove) hne]
    exact U.upTo_cases paths above
  · rw [Open, ← hdir, ← hitem]
    exact U.upTo_cases paths path
  · rcases U.upTo_cases paths path with hnone | hsame
    · rw [hnone]
      exact (Option.some_ne_none _).symm
    · rw [hsame, hitem]
      exact fun heq => hleaf (Option.some.inj heq)

/-- Putting it there gives a larger part. -/
theorem put_upTo {U : Layout α D} (hU : U.Closed) (paths : List (List α)) {path : List α}
    {item : Item D}
    (hitem : U path = some item) : (U.upTo paths).put path item = U.upTo (paths ++ [path]) := by
  have hsome : U path ≠ none := by
    rw [hitem]
    exact Option.some_ne_none item
  funext q
  have hlonger : (∃ p ∈ paths ++ [path], q <+: p) ↔ (∃ p ∈ paths, q <+: p) ∨ q <+: path := by
    simp [or_and_right, exists_or]
  by_cases hpre : q <+: path
  · rw [upTo, if_pos (Or.inr (hlonger.mpr (Or.inr hpre))), put]
    split
    · rename_i heq
      rw [heq, hitem]
    · rename_i hne
      rw [hU.above hsome hpre hne]
  · have hne : q ≠ path := fun heq => hpre (heq ▸ List.prefix_rfl)
    rw [put, if_neg hne, if_neg hpre, upTo, upTo]
    simp only [hlonger, or_iff_left hpre]

/-- A layout under one more name. -/
def wrap (name : α) (T : Layout α D) : Layout α D
  | [] => some .dir
  | first :: path => if first = name then T path else none

theorem Closed.wrap {T : Layout α D} (h : T.Closed) (name : α) : (T.wrap name).Closed where
  root := rfl
  parent path last hsome := by
    cases path with
    | nil => rfl
    | cons first path =>
      rw [List.cons_append, Layout.wrap] at hsome
      rw [Layout.wrap]
      split at hsome
      · rename_i heq
        rw [if_pos heq]
        exact h.parent path last hsome
      · exact absurd rfl hsome

/-- It comes out again. -/
theorem unwrapped_wrap {T : Layout α D} (h : T.Closed) (name : α) : (T.wrap name).Unwrapped T := by
  refine Or.inl ⟨name, ⟨?_, fun other hother => ?_⟩, ?_⟩
  · rw [wrap, if_pos rfl, h.root]
  · by_contra hne
    rw [wrap, if_neg hne] at hother
    exact hother rfl
  · funext path
    rw [below, wrap, if_pos rfl]

end Layout
