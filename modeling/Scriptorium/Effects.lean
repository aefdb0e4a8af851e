/-
  Scriptorium/Effects.lean
  ========================
  **Sequential programs over an effect signature.**

  Code that talks to an operating system is modelled as a `Prog`: a finite tree
  that either stops with a result, or performs one call and continues with the
  reply.  What a call does to the world is not part of the program; it is given
  by a handler `exec`, so one program can be run to its end (`run`), watched
  call by call (`calls`), or stopped after any number of calls (`stopAfter`),
  always by the same handler.

  `wp` is the weakest precondition of a program that has, besides its
  postcondition, an invariant that must hold after every single call.  Taking
  the trivial invariant gives ordinary partial correctness; taking a real one
  gives what a cancelled or crashed run has already done (`wp_stopAfter`).

  The signature, the error type and the state are parameters throughout.
-/
import Mathlib.Tactic.Common

namespace Effects

/-- A program over the calls `E` with replies `R`, failing with `ε` or returning
    `α`.  `spin` is a loop whose step budget has run out: it has no result. -/
inductive Prog (E : Type) (R : E → Type) (ε α : Type) where
  | done (result : Except ε α)
  | spin
  | call (e : E) (next : R e → Prog E R ε α)

variable {E : Type} {R : E → Type} {ε ε' α β γ S : Type}

namespace Prog

/-! ### Programs as an exception monad -/

def bind : Prog E R ε α → (α → Prog E R ε β) → Prog E R ε β
  | .done (.ok a), f => f a
  | .done (.error e), _ => .done (.error e)
  | .spin, _ => .spin
  | .call e next, f => .call e fun reply => (next reply).bind f

instance : Monad (Prog E R ε) where
  pure a := .done (.ok a)
  bind := bind

def throw (e : ε) : Prog E R ε α := .done (.error e)

def ofExcept (r : Except ε α) : Prog E R ε α := .done r

/-- Run a program for its result, success or failure, without failing. -/
def attempt : Prog E R ε α → Prog E R ε' (Except ε α)
  | .done r => .done (.ok r)
  | .spin => .spin
  | .call e next => .call e fun reply => (next reply).attempt

/-- Convert the error a program fails with. -/
def mapError (f : ε → ε') : Prog E R ε α → Prog E R ε' α
  | .done r => .done (r.mapError f)
  | .spin => .spin
  | .call e next => .call e fun reply => (next reply).mapError f

theorem bind_eq (m : Prog E R ε α) (f : α → Prog E R ε β) : m >>= f = m.bind f := rfl

theorem bind_assoc (m : Prog E R ε α) (f : α → Prog E R ε β) (g : β → Prog E R ε γ) :
    m >>= f >>= g = m >>= fun a => f a >>= g := by
  simp only [bind_eq]
  induction m with
  | done r => cases r <;> rfl
  | spin => rfl
  | call e next ih =>
    simp only [Prog.bind, Prog.call.injEq, heq_eq_eq, true_and]
    funext reply
    exact ih reply

/-! ### Running a program -/

variable (exec : (e : E) → S → R e × S)

/-- The result of a program (`none` when it spins) and the state it leaves. -/
def run : Prog E R ε α → S → Option (Except ε α) × S
  | .done r, s => (some r, s)
  | .spin, s => (none, s)
  | .call e next, s => (next (exec e s).1).run (exec e s).2

/-- The calls a program makes, each with the state it is made in. -/
def calls : Prog E R ε α → S → List (E × S)
  | .done _, _ => []
  | .spin, _ => []
  | .call e next, s => (e, s) :: (next (exec e s).1).calls (exec e s).2

/-- The state left by a program that is stopped after `n` calls. -/
def stopAfter : Nat → Prog E R ε α → S → S
  | n + 1, .call e next, s => stopAfter n (next (exec e s).1) (exec e s).2
  | _, _, s => s

@[simp] theorem run_done (r : Except ε α) (s : S) :
    (Prog.done r : Prog E R ε α).run exec s = (some r, s) := rfl

@[simp] theorem run_spin (s : S) :
    (Prog.spin : Prog E R ε α).run exec s = (none, s) := rfl

@[simp] theorem run_call (e : E) (next : R e → Prog E R ε α) (s : S) :
    (Prog.call e next).run exec s = (next (exec e s).1).run exec (exec e s).2 := rfl

@[simp] theorem run_pure (a : α) (s : S) :
    (pure a : Prog E R ε α).run exec s = (some (.ok a), s) := rfl

@[simp] theorem run_throw (e : ε) (s : S) :
    (throw e : Prog E R ε α).run exec s = (some (.error e), s) := rfl

@[simp] theorem run_ofExcept (r : Except ε α) (s : S) :
    (ofExcept r : Prog E R ε α).run exec s = (some r, s) := rfl

/-- Running a sequence runs its parts one after the other. -/
theorem run_bind (m : Prog E R ε α) (f : α → Prog E R ε β) (s : S) :
    (m >>= f).run exec s =
      match m.run exec s with
      | (some (.ok a), s') => (f a).run exec s'
      | (some (.error e), s') => (some (.error e), s')
      | (none, s') => (none, s') := by
  rw [bind_eq]
  induction m generalizing s with
  | done r => cases r <;> rfl
  | spin => rfl
  | call e next ih => exact ih _ _

theorem run_bind_ok {m : Prog E R ε α} {f : α → Prog E R ε β} {a : α} {s s' : S}
    (h : m.run exec s = (some (.ok a), s')) : (m >>= f).run exec s = (f a).run exec s' := by
  rw [run_bind, h]

theorem run_bind_error {m : Prog E R ε α} {f : α → Prog E R ε β} {e : ε} {s s' : S}
    (h : m.run exec s = (some (.error e), s')) :
    (m >>= f).run exec s = (some (.error e), s') := by
  rw [run_bind, h]

/-- A sequence that succeeds is two successes in a row. -/
theorem ok_of_run_bind {m : Prog E R ε α} {f : α → Prog E R ε β} {b : β} {s : S}
    (h : ((m >>= f).run exec s).1 = some (.ok b)) :
    ∃ a s', m.run exec s = (some (.ok a), s') ∧ ((f a).run exec s').1 = some (.ok b) := by
  rw [run_bind] at h
  cases hrun : m.run exec s with
  | mk r s' =>
    rw [hrun] at h
    cases r with
    | none => cases h
    | some r =>
      cases r with
      | error e => cases h
      | ok a => exact ⟨a, s', rfl, h⟩

/-- The same, with the state that is left. -/
theorem run_bind_eq_ok {m : Prog E R ε α} {f : α → Prog E R ε β} {b : β} {s s' : S}
    (h : (m >>= f).run exec s = (some (.ok b), s')) :
    ∃ a s'', m.run exec s = (some (.ok a), s'') ∧ (f a).run exec s'' = (some (.ok b), s') := by
  obtain ⟨a, s'', hm, -⟩ := ok_of_run_bind exec (congrArg Prod.fst h)
  rw [run_bind_ok exec hm] at h
  exact ⟨a, s'', hm, h⟩

theorem run_bind_pure {m : Prog E R ε α} {g : α → β} {s : S} :
    ((m >>= fun a => pure (g a)).run exec s).1 = (m.run exec s).1.map (Except.map g) := by
  rw [run_bind]
  cases m.run exec s with
  | mk r s' =>
    cases r with
    | none => rfl
    | some r => cases r <;> rfl

theorem run_error_of_bind_pure {m : Prog E R ε α} {g : α → β} {e : ε} {s s' : S}
    (h : (m >>= fun a => pure (g a)).run exec s = (some (.error e), s')) :
    m.run exec s = (some (.error e), s') := by
  rw [run_bind] at h
  rcases hrun : m.run exec s with ⟨_ | e' | a, s''⟩
  · rw [hrun] at h
    cases h
  · rw [hrun] at h
    cases h
    rfl
  · rw [hrun] at h
    cases h

theorem run_attempt (m : Prog E R ε α) (s : S) :
    (m.attempt : Prog E R ε' (Except ε α)).run exec s =
      ((m.run exec s).1.map Except.ok, (m.run exec s).2) := by
  induction m generalizing s with
  | done r => rfl
  | spin => rfl
  | call e next ih => exact ih _ _

theorem run_attempt_eq_ok {m : Prog E R ε α} {r : Except ε α} {s s' : S}
    (h : (m.attempt : Prog E R ε' (Except ε α)).run exec s = (some (.ok r), s')) :
    m.run exec s = (some r, s') := by
  rw [run_attempt] at h
  obtain ⟨hresult, hstate⟩ := Prod.mk.inj h
  obtain ⟨r', hr', heq⟩ := Option.map_eq_some_iff.mp hresult
  obtain rfl := Except.ok.inj heq
  exact Prod.ext hr' hstate

theorem run_mapError (f : ε → ε') (m : Prog E R ε α) (s : S) :
    (m.mapError f).run exec s =
      ((m.run exec s).1.map (Except.mapError f), (m.run exec s).2) := by
  induction m generalizing s with
  | done r => rfl
  | spin => rfl
  | call e next ih => exact ih _ _

theorem eq_of_run_mapError_ok {f : ε → ε'} {m : Prog E R ε α} {a : α} {s : S}
    (h : ((m.mapError f).run exec s).1 = some (.ok a)) : (m.run exec s).1 = some (.ok a) := by
  rw [run_mapError] at h
  obtain ⟨r, hr, hok⟩ := Option.map_eq_some_iff.mp h
  cases r with
  | error e => cases hok
  | ok b =>
    obtain rfl := Except.ok.inj hok
    exact hr

theorem run_mapError_eq_ok {f : ε → ε'} {m : Prog E R ε α} {a : α} {s s' : S}
    (h : (m.mapError f).run exec s = (some (.ok a), s')) : m.run exec s = (some (.ok a), s') := by
  have hok := eq_of_run_mapError_ok exec (congrArg Prod.fst h)
  rw [run_mapError] at h
  obtain ⟨-, hstate⟩ := Prod.mk.inj h
  exact Prod.ext hok hstate

theorem calls_bind (m : Prog E R ε α) (f : α → Prog E R ε β) (s : S) :
    (m >>= f).calls exec s = m.calls exec s ++
      match m.run exec s with
      | (some (.ok a), s') => (f a).calls exec s'
      | _ => [] := by
  rw [bind_eq]
  induction m generalizing s with
  | done r => cases r <;> rfl
  | spin => rfl
  | call e next ih =>
    simp only [Prog.bind, calls, run_call, List.cons_append]
    rw [ih]

theorem calls_attempt (m : Prog E R ε α) (s : S) :
    (m.attempt : Prog E R ε' (Except ε α)).calls exec s = m.calls exec s := by
  induction m generalizing s with
  | done r => rfl
  | spin => rfl
  | call e next ih => simp only [attempt, calls, ih]

theorem calls_mapError (f : ε → ε') (m : Prog E R ε α) (s : S) :
    (m.mapError f).calls exec s = m.calls exec s := by
  induction m generalizing s with
  | done r => rfl
  | spin => rfl
  | call e next ih => simp only [mapError, calls, ih]

/-! ### Weakest preconditions with an invariant -/

/-- `wp I m Q s`: run from `s`, the program `m` re-establishes `I` after every
    call it makes, and if it ends, its result and final state satisfy `Q`. -/
def wp (I : S → Prop) : Prog E R ε α → (Except ε α → S → Prop) → S → Prop
  | .done r, Q, s => Q r s
  | .spin, _, _ => True
  | .call e next, Q, s => I (exec e s).2 ∧ wp I (next (exec e s).1) Q (exec e s).2

variable {exec} {I : S → Prop}

@[simp] theorem wp_pure {a : α} {Q : Except ε α → S → Prop} {s : S} :
    wp exec I (pure a : Prog E R ε α) Q s ↔ Q (.ok a) s := Iff.rfl

@[simp] theorem wp_throw {e : ε} {Q : Except ε α → S → Prop} {s : S} :
    wp exec I (throw e : Prog E R ε α) Q s ↔ Q (.error e) s := Iff.rfl

@[simp] theorem wp_ofExcept {r : Except ε α} {Q : Except ε α → S → Prop} {s : S} :
    wp exec I (ofExcept r : Prog E R ε α) Q s ↔ Q r s := Iff.rfl

/-- A program stopped at any point has kept the invariant. -/
theorem wp_stopAfter {m : Prog E R ε α} {Q : Except ε α → S → Prop} {s : S}
    (h : wp exec I m Q s) (hs : I s) (n : Nat) : I (stopAfter exec n m s) := by
  induction m generalizing s n with
  | done r => cases n <;> exact hs
  | spin => cases n <;> exact hs
  | call e next ih =>
    cases n with
    | zero => exact hs
    | succ n => exact ih _ h.2 h.1 n

/-! ### Programs whose calls are of a kind -/

/-- As long as replies are as `A` says, the program makes only calls in `P`, and what it
    returns satisfies `W`. -/
def Within (P : E → Prop) (A : (e : E) → R e → Prop) (W : α → Prop) : Prog E R ε α → Prop
  | .done r => ∀ a, r = .ok a → W a
  | .spin => True
  | .call e next => P e ∧ ∀ reply, A e reply → Within P A W (next reply)

section Within

variable {P : E → Prop} {A : (e : E) → R e → Prop} {W : α → Prop} {V : β → Prop}

theorem within_pure {a : α} (h : W a) : Within P A W (pure a : Prog E R ε α) := by
  intro b hb
  rwa [← Except.ok.inj hb]

theorem within_throw (e : ε) : Within P A W (throw e : Prog E R ε α) := by
  intro a ha
  cases ha

theorem within_ofExcept {r : Except ε α} (h : ∀ a, r = .ok a → W a) :
    Within P A W (ofExcept r : Prog E R ε α) := h

theorem within_bind {m : Prog E R ε α} {f : α → Prog E R ε β} (hm : Within P A W m)
    (hf : ∀ a, W a → Within P A V (f a)) : Within P A V (m >>= f) := by
  rw [bind_eq]
  induction m with
  | done r =>
    cases r with
    | error e => exact within_throw e
    | ok a => exact hf a (hm a rfl)
  | spin => trivial
  | call e next ih =>
    constructor
    · exact hm.1
    · intro reply hreply
      exact ih reply (hm.2 reply hreply)

theorem within_attempt {m : Prog E R ε α} (hm : Within P A W m) :
    Within P A (fun r => ∀ a, r = .ok a → W a) (m.attempt : Prog E R ε' (Except ε α)) := by
  induction m with
  | done r => exact within_pure hm
  | spin => trivial
  | call e next ih => exact ⟨hm.1, fun reply hreply => ih reply (hm.2 reply hreply)⟩

theorem within_mapError {f : ε → ε'} {m : Prog E R ε α} (hm : Within P A W m) :
    Within P A W (m.mapError f) := by
  induction m with
  | done r =>
    cases r with
    | error e => exact within_throw (f e)
    | ok a => exact within_pure (hm a rfl)
  | spin => trivial
  | call e next ih => exact ⟨hm.1, fun reply hreply => ih reply (hm.2 reply hreply)⟩

/-- What all such calls keep, the program keeps. -/
theorem Within.keeps {m : Prog E R ε α} {I : S → Prop} (hm : Within P A W m)
    (hstep : ∀ e s, P e → I s → I (exec e s).2 ∧ A e (exec e s).1) {s : S} (hs : I s) :
    I (m.run exec s).2 := by
  induction m generalizing s with
  | done r => exact hs
  | spin => exact hs
  | call e next ih =>
    obtain ⟨hs', hreply⟩ := hstep e s hm.1 hs
    exact ih _ (hm.2 _ hreply) hs'

theorem Within.returns {m : Prog E R ε α} {I : S → Prop} (hm : Within P A W m)
    (hstep : ∀ e s, P e → I s → I (exec e s).2 ∧ A e (exec e s).1) {s : S} (hs : I s) {a : α}
    (h : (m.run exec s).1 = some (.ok a)) : W a := by
  induction m generalizing s with
  | done r => exact hm a (Option.some.inj h)
  | spin => cases h
  | call e next ih =>
    obtain ⟨hs', hreply⟩ := hstep e s hm.1 hs
    exact ih _ (hm.2 _ hreply) hs' h

/-- Two states that all such calls answer alike are alike to the program. -/
theorem Within.same {m : Prog E R ε α} {sim : S → S → Prop} (hm : Within P A W m)
    (hstep : ∀ e s t, P e → sim s t →
      (exec e s).1 = (exec e t).1 ∧ sim (exec e s).2 (exec e t).2 ∧ A e (exec e s).1) {s t : S}
    (hst : sim s t) : (m.run exec s).1 = (m.run exec t).1 ∧ sim (m.run exec s).2
    (m.run exec t).2 := by
  induction m generalizing s t with
  | done r => exact ⟨rfl, hst⟩
  | spin => exact ⟨rfl, hst⟩
  | call e next ih =>
    obtain ⟨hreply, hnext, hadmit⟩ := hstep e s t hm.1 hst
    rw [run_call, run_call, ← hreply]
    exact ih _ (hm.2 _ hadmit) hnext

theorem Within.weaken {P' : E → Prop} {m : Prog E R ε α} (hm : Within P A W m)
    (h : ∀ e, P e → P' e) : Within P' A W m := by
  induction m with
  | done r => exact hm
  | spin => trivial
  | call e next ih => exact ⟨h e hm.1, fun reply hreply => ih reply (hm.2 reply hreply)⟩

end Within

/-! ### Programs that end -/

/-- As long as replies are as `A` says, the program does not spin. -/
def Ends (A : (e : E) → R e → Prop) : Prog E R ε α → Prop
  | .done _ => True
  | .spin => False
  | .call e next => ∀ reply, A e reply → Ends A (next reply)

section Ends

variable {A B : (e : E) → R e → Prop}

theorem ends_pure (a : α) : Ends A (pure a : Prog E R ε α) := trivial

theorem ends_throw (e : ε) : Ends A (throw e : Prog E R ε α) := trivial

theorem ends_ofExcept (r : Except ε α) : Ends A (ofExcept r : Prog E R ε α) := trivial

theorem ends_bind {m : Prog E R ε α} {f : α → Prog E R ε β} (hm : Ends A m)
    (hf : ∀ a, Ends A (f a)) : Ends A (m >>= f) := by
  rw [bind_eq]
  induction m with
  | done r =>
    cases r with
    | error e => trivial
    | ok a => exact hf a
  | spin => exact hm
  | call e next ih => exact fun reply hreply => ih reply (hm reply hreply)

theorem ends_attempt {m : Prog E R ε α} (hm : Ends A m) :
    Ends A (m.attempt : Prog E R ε' (Except ε α)) := by
  induction m with
  | done r => trivial
  | spin => exact hm
  | call e next ih => exact fun reply hreply => ih reply (hm reply hreply)

theorem ends_mapError {f : ε → ε'} {m : Prog E R ε α} (hm : Ends A m) :
    Ends A (m.mapError f) := by
  induction m with
  | done r => trivial
  | spin => exact hm
  | call e next ih => exact fun reply hreply => ih reply (hm reply hreply)

/-- A program whose calls are answered so has a result. -/
theorem Ends.isSome {P : E → Prop} {W : α → Prop} {m : Prog E R ε α} {I : S → Prop} (h : Ends A m)
    (hm : Within P B W m)
    (hstep : ∀ e s, P e → I s → I (exec e s).2 ∧ B e (exec e s).1 ∧ A e (exec e s).1) {s : S}
    (hs : I s) : (m.run exec s).1.isSome := by
  induction m generalizing s with
  | done r => rfl
  | spin => exact h.elim
  | call e next ih =>
    obtain ⟨hnext, hreply, hanswer⟩ := hstep e s hm.1 hs
    exact ih _ (h _ hanswer) (hm.2 _ hreply) hnext

end Ends

end Prog

end Effects
