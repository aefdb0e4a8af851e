/-
  Scriptorium/TakingTurns.lean
  ============================
  **Any number of programs over one world.**

  A `Crowd` is a family of programs and the world they share.  At every moment one of
  them makes its next call, and who comes next is decided by a schedule: a list of
  names, each with the handler's reading at that moment.  A program that is not named
  again has been abandoned where it stands.

  Two rules about such runs.  What every admitted call keeps, the crowd keeps
  (`Crowd.invariant`).  And where the calls of some programs cannot be told apart in
  two worlds that are alike, while the calls of the others leave the worlds alike, the
  others may as well not be there (`Crowd.run_filter`).
-/
import Scriptorium.Effects
import Mathlib.Logic.Function.Basic

namespace Effects

open Prog

variable {ι M E : Type} {R : E → Type} {ε α S : Type}

structure Crowd (ι E : Type) (R : E → Type) (ε α S : Type) where
  rest : ι → Prog E R ε α
  world : S

namespace Crowd

variable [DecidableEq ι] (exec : M → (e : E) → S → R e × S)

/-- The program `i` makes its next call. -/
def step (s : Crowd ι E R ε α S) (turn : ι × M) : Crowd ι E R ε α S :=
  match s.rest turn.1 with
  | .call e next =>
    ⟨Function.update s.rest turn.1 (next (exec turn.2 e s.world).1), (exec turn.2 e s.world).2⟩
  | _ => s

def run (s : Crowd ι E R ε α S) (turns : List (ι × M)) : Crowd ι E R ε α S :=
  turns.foldl (step exec) s

@[simp] theorem run_nil (s : Crowd ι E R ε α S) : s.run exec [] = s := rfl

@[simp] theorem run_cons (s : Crowd ι E R ε α S) (turn : ι × M) (turns : List (ι × M)) :
    s.run exec (turn :: turns) = (s.step exec turn).run exec turns := rfl

variable {P : ι → E → Prop} {A : ι → (e : E) → R e → Prop} {W : α → Prop}

/-- Each program makes admitted calls only. -/
def Admitted (P : ι → E → Prop) (A : ι → (e : E) → R e → Prop) (W : α → Prop)
    (s : Crowd ι E R ε α S) : Prop :=
  ∀ i, (s.rest i).Within (P i) (A i) W

/-- A turn is no call at all, or a call that is admitted and answered. -/
theorem step_cases (s : Crowd ι E R ε α S) (hs : s.Admitted P A W) (i : ι) (now : M) :
    s.step exec (i, now) = s ∨ ∃ e next, s.rest i = .call e next ∧ P i e ∧
      s.step exec (i, now) =
        ⟨Function.update s.rest i (next (exec now e s.world).1), (exec now e s.world).2⟩ := by
  have hi := hs i
  rcases hrest : s.rest i with r | _ | ⟨e, next⟩
  · left
    simp only [step, hrest]
  · left
    simp only [step, hrest]
  · right
    rw [hrest] at hi
    refine ⟨e, next, rfl, hi.1, ?_⟩
    simp only [step, hrest]

/-- After an admitted call that is answered as expected, the calls to come are admitted. -/
theorem admitted_update {s : Crowd ι E R ε α S} (hs : s.Admitted P A W) {i : ι} {e : E}
    {next : R e → Prog E R ε α} (hrest : s.rest i = .call e next) {reply : R e}
    (hreply : A i e reply) (world : S) :
    (⟨Function.update s.rest i (next reply), world⟩ : Crowd ι E R ε α S).Admitted P A W := by
  intro j
  by_cases hj : j = i
  · subst hj
    have hwithin := hs j
    rw [hrest] at hwithin
    simp only [Function.update_self]
    exact hwithin.2 reply hreply
  · simp only [Function.update_of_ne hj]
    exact hs j

/-- What every admitted call keeps, the crowd keeps. -/
theorem invariant {I : S → Prop}
    (hkeeps : ∀ i now e s, P i e → I s → I (exec now e s).2 ∧ A i e (exec now e s).1)
    (turns : List (ι × M)) {s : Crowd ι E R ε α S} (hs : s.Admitted P A W) (hworld : I s.world) :
    (s.run exec turns).Admitted P A W ∧ I (s.run exec turns).world := by
  induction turns generalizing s with
  | nil => exact ⟨hs, hworld⟩
  | cons turn turns ih =>
    obtain ⟨i, now⟩ := turn
    rw [run_cons]
    rcases s.step_cases exec hs i now with hstep | ⟨e, next, hrest, hcall, hstep⟩
    · rw [hstep]
      exact ih hs hworld
    · obtain ⟨hnext, hreply⟩ := hkeeps i now e s.world hcall hworld
      rw [hstep]
      exact ih (admitted_update hs hrest hreply _) hnext

section Filter

variable (keep : ι → Bool) (sim : S → S → Prop)

/-- Two crowds in which the kept programs stand at the same point of alike worlds. -/
structure SameFor (s t : Crowd ι E R ε α S) : Prop where
  rest : ∀ i, keep i = true → s.rest i = t.rest i
  world : sim s.world t.world

/-- A kept program makes one call in both crowds. -/
theorem SameFor.kept {keep : ι → Bool} {sim : S → S → Prop}
    (hsame : ∀ i now e u v, keep i = true → P i e → sim u v →
      (exec now e u).1 = (exec now e v).1 ∧ sim (exec now e u).2 (exec now e v).2)
    {s t : Crowd ι E R ε α S} (hs : s.Admitted P A W) (h : SameFor keep sim s t) {i : ι}
    (hi : keep i = true) (now : M) : SameFor keep sim (s.step exec (i, now))
    (t.step exec (i, now)) := by
  have hwithin := hs i
  have hrests := h.rest i hi
  rcases hrest : s.rest i with r | _ | ⟨e, next⟩
  · rw [hrest] at hrests
    simp only [step, hrest, ← hrests]
    exact h
  · rw [hrest] at hrests
    simp only [step, hrest, ← hrests]
    exact h
  · rw [hrest] at hrests hwithin
    obtain ⟨hreply, hworld⟩ := hsame i now e s.world t.world hi hwithin.1 h.world
    simp only [step, hrest, ← hrests]
    refine ⟨fun j hj => ?_, hworld⟩
    by_cases hji : j = i
    · subst hji
      simp only [Function.update_self, hreply]
    · simp only [Function.update_of_ne hji]
      exact h.rest j hj

/-- A program that is not kept makes a call in one of them. -/
theorem SameFor.other {keep : ι → Bool} {sim : S → S → Prop}
    (hother : ∀ i now e u v, keep i = false → P i e → sim u v →
      sim (exec now e u).2 v)
    {s t : Crowd ι E R ε α S} (hs : s.Admitted P A W) (h : SameFor keep sim s t) {i : ι}
    (hi : keep i = false) (now : M) : SameFor keep sim (s.step exec (i, now)) t := by
  rcases s.step_cases exec hs i now with hstep | ⟨e, next, -, hcall, hstep⟩
  · rw [hstep]
    exact h
  · rw [hstep]
    refine ⟨fun j hj => ?_, hother i now e s.world t.world hi hcall h.world⟩
    have hji : j ≠ i := by
      rintro rfl
      rw [hi] at hj
      cases hj
    simp only [Function.update_of_ne hji]
    exact h.rest j hj

/-- To the kept programs the run is the one without the others. -/
theorem run_filter
    (hsame : ∀ i now e u v, keep i = true → P i e → sim u v →
      (exec now e u).1 = (exec now e v).1 ∧ sim (exec now e u).2 (exec now e v).2)
    (hother : ∀ i now e u v, keep i = false → P i e → sim u v → sim (exec now e u).2 v)
    (hreply : ∀ i now e u v, P i e → sim u v → A i e (exec now e u).1)
    (turns : List (ι × M)) {s t : Crowd ι E R ε α S} (hs : s.Admitted P A W)
    (h : SameFor keep sim s t) :
    SameFor keep sim (s.run exec turns) (t.run exec (turns.filter fun turn => keep turn.1)) := by
  induction turns generalizing s t with
  | nil => exact h
  | cons turn turns ih =>
    obtain ⟨i, now⟩ := turn
    have hs' : (s.step exec (i, now)).Admitted P A W := by
      rcases s.step_cases exec hs i now with hstep | ⟨e, next, hrest, hcall, hstep⟩
      · rwa [hstep]
      · rw [hstep]
        exact admitted_update hs hrest (hreply i now e s.world t.world hcall h.world) _
    rw [run_cons, List.filter_cons]
    by_cases hi : keep i = true
    · rw [if_pos hi, run_cons]
      exact ih hs' (h.kept exec hsame hs hi now)
    · rw [if_neg hi]
      exact ih hs' (h.other exec hother hs (Bool.eq_false_iff.mpr hi) now)

end Filter

end Crowd

end Effects
