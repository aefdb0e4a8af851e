/-
  Scriptorium/Transitions.lean
  ============================
  **Runs of a transition system.**

  A system is a partial function `step`: in a state, an event either cannot
  happen (`none`) or leads to the next state.  `Reaches ok s s'` says that a run
  leads from `s` to `s'` all of whose steps satisfy `ok` in the state they are
  taken in; with `ok` always true it is reachability.  What every step keeps,
  every run keeps (`Reaches.invariant`).
-/
import Mathlib.Tactic.Common

namespace Transitions

variable {S E : Type} (step : S → E → Option S)

/-- The state after the given events, if all of them can happen. -/
def run : S → List E → Option S
  | s, [] => some s
  | s, e :: es =>
    match step s e with
    | none => none
    | some s' => run s' es

/-- Each of the events that happens satisfies `ok` in the state it happens in. -/
def Fine (ok : S → E → Prop) : S → List E → Prop
  | _, [] => True
  | s, e :: es =>
    ok s e ∧
      match step s e with
      | none => True
      | some s' => Fine ok s' es

instance decidableFine (ok : S → E → Prop) [∀ s e, Decidable (ok s e)] :
    ∀ s es, Decidable (Fine step ok s es)
  | _, [] => isTrue trivial
  | s, e :: es =>
    match h : step s e with
    | none => decidable_of_iff (ok s e) (by simp [Fine, h])
    | some s' =>
      have := decidableFine ok s' es
      decidable_of_iff (ok s e ∧ Fine step ok s' es) (by simp [Fine, h])

/-- A state reached by steps that satisfy `ok`. -/
inductive Reaches (ok : S → E → Prop) (s : S) : S → Prop
  | refl : Reaches ok s s
  | tail {s' s'' : S} {e : E} : Reaches ok s s' → ok s' e → step s' e = some s'' → Reaches ok s s''

/-- Any step may be taken. -/
def Free : S → E → Prop := fun _ _ => True

variable {step} {ok : S → E → Prop} {s s' s'' : S}

theorem run_append {es es' : List E} (h : run step s es = some s')
    (h' : run step s' es' = some s'') : run step s (es ++ es') = some s'' := by
  induction es generalizing s with
  | nil =>
    obtain rfl := Option.some.inj h
    exact h'
  | cons e es ih =>
    unfold run at h
    rw [List.cons_append, run]
    split at h
    · cases h
    · exact ih h

theorem Reaches.trans (h : Reaches step ok s s') (h' : Reaches step ok s' s'') :
    Reaches step ok s s'' := by
  induction h' with
  | refl => exact h
  | tail _ hok hstep ih => exact .tail ih hok hstep

/-- What holds at first and is kept by every step holds of whatever is reached. -/
theorem Reaches.invariant {I : S → Prop} (h : Reaches step ok s s') (hs : I s)
    (hstep : ∀ t e t', I t → ok t e → step t e = some t' → I t') : I s' := by
  induction h with
  | refl => exact hs
  | tail _ hok hnext ih => exact hstep _ _ _ ih hok hnext

/-- A computed run of fine events is a run. -/
theorem reaches_of_fine (es : List E) (h : run step s es = some s') (hfine : Fine step ok s es) :
    Reaches step ok s s' := by
  induction es generalizing s with
  | nil =>
    obtain rfl := Option.some.inj h
    exact .refl
  | cons e es ih =>
    unfold run at h
    unfold Fine at hfine
    rcases hstep : step s e with _ | t
    · rw [hstep] at h
      cases h
    · rw [hstep] at h hfine
      exact Reaches.trans (.tail .refl hfine.1 hstep) (ih h hfine.2)

theorem fine_of_forall {es : List E} (hok : ∀ e ∈ es, ∀ t, ok t e) (s : S) :
    Fine step ok s es := by
  induction es generalizing s with
  | nil => trivial
  | cons e es ih =>
    rw [List.forall_mem_cons] at hok
    refine ⟨hok.1 s, ?_⟩
    split
    · trivial
    · exact ih hok.2 _

variable (step s) in
/-- A computed run. -/
theorem reaches_of_run (es : List E) (h : run step s es = some s') : Reaches step Free s s' :=
  reaches_of_fine es h (fine_of_forall (fun _ _ _ => trivial) s)

end Transitions
