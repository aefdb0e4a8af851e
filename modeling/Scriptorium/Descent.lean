/-
  Scriptorium/Descent.lean
  ========================
  **Walking a tree of names with a stack.**

  A tree is given by the names below each path.  `visits` is the loop that walks it: a
  path is taken off a stack, and those one name longer are pushed.  `preorder` is the
  recursion: a path, and then whatever is below it.  On a tree of bounded depth the loop
  ends and does the same as the recursion (`visits_eq`), and this meets every path that
  can be reached, once (`mem_preorder`, `nodup_preorder`).
-/
import Mathlib.Data.List.Nodup
import Mathlib.Data.List.Infix
import Mathlib.Data.List.Induction
import Mathlib.Algebra.Order.Group.Nat

namespace Descent

variable {α : Type} (names : List α → List α)

/-- The paths one name longer. -/
def next (path : List α) : List (List α) := (names path).map fun name => path ++ [name]

/-- The paths in the order in which they are taken off the stack, if it is empty after as
    many turns at most. -/
def visits : Nat → List (List α) → Option (List (List α))
  | _, [] => some []
  | 0, _ :: _ => none
  | fuel + 1, path :: stack => (visits fuel (next names path ++ stack)).map (path :: ·)

/-- A path and those below it, to a depth. -/
def preorder : Nat → List α → List (List α)
  | 0, _ => []
  | depth + 1, path => path :: (next names path).flatMap (preorder depth)

/-- The names of `rest` lead from `path` downwards. -/
def Leads (path rest : List α) : Prop :=
  ∀ above name, above ++ [name] <+: rest → name ∈ names (path ++ above)

/-- Nothing is so far below a path. -/
def Shallow (depth : Nat) (path : List α) : Prop :=
  ∀ rest, Leads names path rest → rest.length < depth

variable {names} {path rest : List α} {name : α} {depth fuel : Nat}

theorem mem_next {q : List α} : q ∈ next names path ↔ ∃ name ∈ names path, q = path ++ [name] := by
  simp only [next, List.mem_map, eq_comm]

theorem leads_nil : Leads names path [] := by
  intro above name h
  simp at h

theorem leads_cons : Leads names path (name :: rest) ↔
    name ∈ names path ∧ Leads names (path ++ [name]) rest := by
  constructor
  · intro h
    refine ⟨?_, fun above other hpre => ?_⟩
    · have hfirst := h [] name (List.cons_prefix_cons.mpr ⟨rfl, List.nil_prefix⟩)
      rwa [List.append_nil] at hfirst
    · have hother := h (name :: above) other (List.cons_prefix_cons.mpr ⟨rfl, hpre⟩)
      rwa [List.append_assoc, List.singleton_append]
  · rintro ⟨hname, hrest⟩ above other hpre
    cases above with
    | nil =>
      obtain ⟨rfl, -⟩ := List.cons_prefix_cons.mp hpre
      rwa [List.append_nil]
    | cons first above =>
      obtain ⟨rfl, hbelow⟩ := List.cons_prefix_cons.mp hpre
      have hother := hrest above other hbelow
      rwa [List.append_assoc, List.singleton_append] at hother

theorem Shallow.pos (h : Shallow names depth path) : 0 < depth := h [] leads_nil

theorem Shallow.next (h : Shallow names (depth + 1) path) {q : List α} (hq : q ∈ next names path) :
    Shallow names depth q := by
  obtain ⟨name, hname, rfl⟩ := mem_next.mp hq
  intro rest hrest
  have hlength := h (name :: rest) (leads_cons.mpr ⟨hname, hrest⟩)
  rw [List.length_cons] at hlength
  omega

/-! ### The loop and the recursion -/

/-- A shallow path is worked off, with everything below it, before the rest of the stack:
    by induction on the depth, and in it on the paths one name longer. -/
theorem visits_cons (h : Shallow names depth path) (fuel : Nat) (stack : List (List α)) :
    visits names (fuel + (preorder names depth path).length) (path :: stack) =
      (visits names fuel stack).map (preorder names depth path ++ ·) := by
  induction depth generalizing path fuel stack with
  | zero => exact absurd h.pos (Nat.lt_irrefl 0)
  | succ depth ih =>
    have hall : ∀ (paths : List (List α)) fuel, (∀ q ∈ paths, Shallow names depth q) →
        visits names (fuel + (paths.flatMap (preorder names depth)).length) (paths ++ stack) =
          (visits names fuel stack).map (paths.flatMap (preorder names depth) ++ ·) := by
      intro paths
      induction paths with
      | nil =>
        intro fuel _
        simp
      | cons q paths ihpaths =>
        intro fuel hshallow
        rw [List.forall_mem_cons] at hshallow
        have hlength : fuel + ((q :: paths).flatMap (preorder names depth)).length =
            fuel + (paths.flatMap (preorder names depth)).length +
              (preorder names depth q).length := by
          rw [List.flatMap_cons, List.length_append]
          omega
        rw [hlength, List.cons_append, ih hshallow.1, ihpaths fuel hshallow.2, Option.map_map]
        congr 1
        funext out
        simp [List.flatMap_cons]
    have hlength : fuel + (preorder names (depth + 1) path).length =
        fuel + ((next names path).flatMap (preorder names depth)).length + 1 := by
      rw [preorder, List.length_cons]
      omega
    rw [hlength, visits, hall _ fuel fun q hq => h.next hq, Option.map_map]
    rfl

/-- **The loop ends**, with what the recursion computes. -/
theorem visits_eq (h : Shallow names depth path)
    (hfuel : (preorder names depth path).length ≤ fuel) :
    visits names fuel [path] = some (preorder names depth path) := by
  obtain ⟨more, rfl⟩ := Nat.exists_eq_add_of_le' hfuel
  rw [visits_cons h]
  cases more <;> simp [visits]

/-! ### What is met -/

/-- Every path below is met that can be reached, and no other. -/
theorem mem_preorder (h : Shallow names depth path) {q : List α} :
    q ∈ preorder names depth path ↔ ∃ rest, q = path ++ rest ∧ Leads names path rest := by
  induction depth generalizing path with
  | zero => exact absurd h.pos (Nat.lt_irrefl 0)
  | succ depth ih =>
    rw [preorder, List.mem_cons, List.mem_flatMap]
    constructor
    · rintro (rfl | ⟨r, hr, hq⟩)
      · exact ⟨[], (List.append_nil q).symm, leads_nil⟩
      · obtain ⟨rest, rfl, hrest⟩ := (ih (h.next hr)).mp hq
        obtain ⟨name, hname, rfl⟩ := mem_next.mp hr
        exact ⟨name :: rest, List.append_assoc _ _ _, leads_cons.mpr ⟨hname, hrest⟩⟩
    · rintro ⟨rest, rfl, hrest⟩
      cases rest with
      | nil => exact Or.inl (List.append_nil path)
      | cons name rest =>
        obtain ⟨hname, hrest⟩ := leads_cons.mp hrest
        have hq : path ++ [name] ∈ next names path := mem_next.mpr ⟨name, hname, rfl⟩
        exact Or.inr ⟨_, hq, (ih (h.next hq)).mpr ⟨rest, by simp, hrest⟩⟩

theorem prefix_of_mem_preorder {q : List α} (h : q ∈ preorder names depth path) : path <+: q := by
  induction depth generalizing path with
  | zero => cases h
  | succ depth ih =>
    rcases List.mem_cons.mp h with rfl | h
    · exact List.prefix_rfl
    · obtain ⟨r, hr, hq⟩ := List.mem_flatMap.mp h
      obtain ⟨name, -, rfl⟩ := mem_next.mp hr
      exact (List.prefix_append _ _).trans (ih hq)

/-- **No path is met twice** where no name is listed twice. -/
theorem nodup_preorder (hnames : ∀ path, (names path).Nodup) :
    (preorder names depth path).Nodup := by
  induction depth generalizing path with
  | zero => exact List.nodup_nil
  | succ depth ih =>
    have hlonger : ∀ q ∈ next names path, q.length = path.length + 1 := by
      intro q hq
      obtain ⟨name, -, rfl⟩ := mem_next.mp hq
      simp
    rw [preorder, List.nodup_cons, List.nodup_flatMap]
    refine ⟨fun h => ?_, fun q _ => ih, ?_⟩
    · obtain ⟨q, hq, hpath⟩ := List.mem_flatMap.mp h
      have hlength := (prefix_of_mem_preorder hpath).length_le
      rw [hlonger q hq] at hlength
      omega
    · have hnext : (next names path).Nodup := by
        apply (hnames path).map
        intro a b hab
        exact List.singleton_inj.mp (List.append_cancel_left hab)
      refine hnext.imp_of_mem ?_
      intro q r hq hr hne s hs hs'
      apply hne
      -- two paths of one length that begin the same path are one
      have hpre := List.prefix_of_prefix_length_le (prefix_of_mem_preorder hs)
        (prefix_of_mem_preorder hs')
        (by rw [hlonger q hq, hlonger r hr])
      exact hpre.eq_of_length (by rw [hlonger q hq, hlonger r hr])

end Descent
