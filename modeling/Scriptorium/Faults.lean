/-
  Scriptorium/Faults.lean
  =======================
  **Programs some of whose calls fail.**

  `faulty exec plan` is the handler `exec`, except that `plan` may answer a call
  in its place; such a call has failed and leaves the world as it is.  `wpFaulty`
  is the weakest precondition of a program under every plan: its invariant holds
  after each call, whichever of the calls before it have failed.

  `wpFaulty_stopAfter` is what it is for: a run that has met failures, and is
  stopped at any point, has kept the invariant.
-/
import Scriptorium.Effects

namespace Effects

variable {E : Type} {R : E → Type} {ε ε' α β S : Type}

/-- The handler `exec`, with `plan n e` in place of the reply to the `n`-th call
    where that call is `e` and fails.  The state counts the calls. -/
def faulty (exec : (e : E) → S → R e × S) (plan : Nat → (e : E) → Option (R e)) (e : E)
    (s : Nat × S) : R e × (Nat × S) :=
  match plan s.1 e with
  | some reply => (reply, s.1 + 1, s.2)
  | none => ((exec e s.2).1, s.1 + 1, (exec e s.2).2)

/-- No call fails. -/
def noFaults : Nat → (e : E) → Option (R e) := fun _ _ => none

namespace Prog

variable {exec : (e : E) → S → R e × S} {fails : (e : E) → R e → Prop} {I : S → Prop}

variable (exec fails) in
/-- Run from `s`, with any call `e` failing with any reply that `fails` allows, the
    program keeps `I`, and where it ends, its result and final state satisfy `Q`. -/
def wpFaulty (I : S → Prop) : Prog E R ε α → (Except ε α → S → Prop) → S → Prop
  | .done r, Q, s => Q r s
  | .spin, _, _ => True
  | .call e next, Q, s =>
    (I (exec e s).2 ∧ wpFaulty I (next (exec e s).1) Q (exec e s).2) ∧
      ∀ reply, fails e reply → wpFaulty I (next reply) Q s

@[simp] theorem wpFaulty_pure {a : α} {Q : Except ε α → S → Prop} {s : S} :
    wpFaulty exec fails I (pure a : Prog E R ε α) Q s ↔ Q (.ok a) s := Iff.rfl

@[simp] theorem wpFaulty_throw {e : ε} {Q : Except ε α → S → Prop} {s : S} :
    wpFaulty exec fails I (throw e : Prog E R ε α) Q s ↔ Q (.error e) s := Iff.rfl

theorem wpFaulty_bind {m : Prog E R ε α} {f : α → Prog E R ε β} {Q : Except ε β → S → Prop}
    {s : S} :
    wpFaulty exec fails I (m >>= f) Q s ↔
      wpFaulty exec fails I m (fun r s' => match r with
        | .ok a => wpFaulty exec fails I (f a) Q s'
        | .error e => Q (.error e) s') s := by
  rw [bind_eq]
  induction m generalizing s with
  | done r => cases r <;> exact Iff.rfl
  | spin => exact Iff.rfl
  | call e next ih =>
    apply and_congr
    · exact and_congr_right fun _ => ih _
    · exact forall₂_congr fun reply _ => ih reply

theorem wpFaulty_attempt {m : Prog E R ε α} {Q : Except ε' (Except ε α) → S → Prop} {s : S} :
    wpFaulty exec fails I (m.attempt : Prog E R ε' (Except ε α)) Q s ↔
      wpFaulty exec fails I m (fun r => Q (.ok r)) s := by
  induction m generalizing s with
  | done r => exact Iff.rfl
  | spin => exact Iff.rfl
  | call e next ih =>
    apply and_congr
    · exact and_congr_right fun _ => ih _
    · exact forall₂_congr fun reply _ => ih reply

theorem wpFaulty_mapError {f : ε → ε'} {m : Prog E R ε α} {Q : Except ε' α → S → Prop} {s : S} :
    wpFaulty exec fails I (m.mapError f) Q s ↔
      wpFaulty exec fails I m (fun r => Q (r.mapError f)) s := by
  induction m generalizing s with
  | done r => exact Iff.rfl
  | spin => exact Iff.rfl
  | call e next ih =>
    apply and_congr
    · exact and_congr_right fun _ => ih _
    · exact forall₂_congr fun reply _ => ih reply

/-- A run with failures, stopped at any point, has kept the invariant. -/
theorem wpFaulty_stopAfter {m : Prog E R ε α} {Q : Except ε α → S → Prop} {s : S}
    (h : wpFaulty exec fails I m Q s) (hs : I s) {plan : Nat → (e : E) → Option (R e)}
    (hplan : ∀ k e reply, plan k e = some reply → fails e reply) (n k : Nat) :
    I (stopAfter (faulty exec plan) n m (k, s)).2 := by
  induction m generalizing s n k with
  | done r => cases n <;> exact hs
  | spin => cases n <;> exact hs
  | call e next ih =>
    cases n with
    | zero => exact hs
    | succ n =>
      simp only [stopAfter, faulty]
      split
      · rename_i reply hreply
        exact ih reply (h.2 reply (hplan k e reply hreply)) hs n (k + 1)
      · exact ih _ h.1.2 h.1.1 n (k + 1)

/-- Without failures the handler is the one it is made from. -/
theorem stopAfter_noFaults (m : Prog E R ε α) (s : S) (n k : Nat) :
    (stopAfter (faulty exec noFaults) n m (k, s)).2 = stopAfter exec n m s := by
  induction m generalizing s n k with
  | done r => cases n <;> rfl
  | spin => cases n <;> rfl
  | call e next ih =>
    cases n with
    | zero => rfl
    | succ n => exact ih _ _ n (k + 1)

@[simp] theorem stopAfter_zero (m : Prog E R ε α) (s : S) : stopAfter exec 0 m s = s := by
  cases m <;> rfl

/-- The state a program can be stopped in. -/
def Stops (exec : (e : E) → S → R e × S) (m : Prog E R ε α) (s s' : S) : Prop :=
  ∃ n, stopAfter exec n m s = s'

/-- A sequence can be stopped where its first part has ended, and after that. -/
theorem Stops.after {m : Prog E R ε α} {f : α → Prog E R ε β} {a : α} {s s' s'' : S}
    (h : m.run exec s = (some (.ok a), s')) (hstops : (f a).Stops exec s' s'') :
    (m >>= f).Stops exec s s'' := by
  obtain ⟨n, hn⟩ := hstops
  rw [bind_eq]
  induction m generalizing s with
  | done r =>
    obtain ⟨hr, rfl⟩ := Prod.mk.inj h
    obtain rfl := Option.some.inj hr
    exact ⟨n, hn⟩
  | spin => cases h
  | call e next ih =>
    obtain ⟨n', hn'⟩ := ih _ h
    exact ⟨n' + 1, hn'⟩

theorem Stops.end_of_run {m : Prog E R ε α} {f : α → Prog E R ε β} {a : α} {s s' : S}
    (h : m.run exec s = (some (.ok a), s')) : (m >>= f).Stops exec s s' :=
  .after h ⟨0, stopAfter_zero _ _⟩

/-- A sequence can be stopped wherever its first part can. -/
theorem Stops.bind {m : Prog E R ε α} {f : α → Prog E R ε β} {s s' : S}
    (h : m.Stops exec s s') : (m >>= f).Stops exec s s' := by
  obtain ⟨n, hn⟩ := h
  rw [bind_eq]
  induction m generalizing s n with
  | done r => exact ⟨0, by rw [stopAfter_zero, ← hn]; cases n <;> rfl⟩
  | spin => exact ⟨0, by rw [← hn]; cases n <;> rfl⟩
  | call e next ih =>
    cases n with
    | zero => exact ⟨0, hn⟩
    | succ n =>
      obtain ⟨k, hk⟩ := ih _ n hn
      exact ⟨k + 1, hk⟩

theorem Stops.mapError {m : Prog E R ε α} {f : ε → ε'} {s s' : S} (h : m.Stops exec s s') :
    (m.mapError f).Stops exec s s' := by
  obtain ⟨n, hn⟩ := h
  induction m generalizing s n with
  | done r => exact ⟨0, by rw [← hn]; cases n <;> rfl⟩
  | spin => exact ⟨0, by rw [← hn]; cases n <;> rfl⟩
  | call e next ih =>
    cases n with
    | zero => exact ⟨0, hn⟩
    | succ n =>
      obtain ⟨k, hk⟩ := ih _ n hn
      exact ⟨k + 1, hk⟩

theorem Stops.of_done {r : Except ε α} {s s' : S}
    (h : (Prog.done r : Prog E R ε α).Stops exec s s') : s' = s := by
  obtain ⟨n, rfl⟩ := h
  cases n <;> rfl

/-- A sequence that is stopped has not come to its second part, or is stopped in it. -/
theorem Stops.of_bind {m : Prog E R ε α} {f : α → Prog E R ε β} {s s' : S}
    (h : (m >>= f).Stops exec s s') :
    m.Stops exec s s' ∨ ∃ a u, m.run exec s = (some (.ok a), u) ∧ (f a).Stops exec u s' := by
  obtain ⟨n, hn⟩ := h
  rw [bind_eq] at hn
  induction m generalizing s n with
  | done r =>
    rcases r with e | a
    · exact Or.inl ⟨0, by rw [← hn]; cases n <;> rfl⟩
    · exact Or.inr ⟨a, s, rfl, n, hn⟩
  | spin => exact Or.inl ⟨0, by rw [← hn]; cases n <;> rfl⟩
  | call e next ih =>
    cases n with
    | zero => exact Or.inl ⟨0, hn⟩
    | succ n =>
      rcases ih _ n hn with ⟨k, hk⟩ | hright
      · exact Or.inl ⟨k + 1, hk⟩
      · exact Or.inr hright

theorem Stops.of_mapError {m : Prog E R ε α} {f : ε → ε'} {s s' : S}
    (h : (m.mapError f).Stops exec s s') : m.Stops exec s s' := by
  obtain ⟨n, hn⟩ := h
  induction m generalizing s n with
  | done r => exact ⟨0, by rw [← hn]; cases n <;> rfl⟩
  | spin => exact ⟨0, by rw [← hn]; cases n <;> rfl⟩
  | call e next ih =>
    cases n with
    | zero => exact ⟨0, hn⟩
    | succ n =>
      obtain ⟨k, hk⟩ := ih _ n hn
      exact ⟨k + 1, hk⟩

theorem Stops.of_attempt {m : Prog E R ε α} {s s' : S}
    (h : (m.attempt : Prog E R ε' (Except ε α)).Stops exec s s') : m.Stops exec s s' := by
  obtain ⟨n, hn⟩ := h
  induction m generalizing s n with
  | done r => exact ⟨0, by rw [← hn]; cases n <;> rfl⟩
  | spin => exact ⟨0, by rw [← hn]; cases n <;> rfl⟩
  | call e next ih =>
    cases n with
    | zero => exact ⟨0, hn⟩
    | succ n =>
      obtain ⟨k, hk⟩ := ih _ n hn
      exact ⟨k + 1, hk⟩

/-- A program that is not stopped is one stopped at its end. -/
theorem stops_run (m : Prog E R ε α) (s : S) : m.Stops exec s (m.run exec s).2 := by
  induction m generalizing s with
  | done r => exact ⟨0, rfl⟩
  | spin => exact ⟨0, rfl⟩
  | call e next ih =>
    obtain ⟨n, hn⟩ := ih (exec e s).1 (exec e s).2
    exact ⟨n + 1, hn⟩

theorem Within.keeps_stops {P : E → Prop} {A : (e : E) → R e → Prop} {W : α → Prop}
    {m : Prog E R ε α} {I : S → Prop} (hm : Within P A W m)
    (hstep : ∀ e s, P e → I s → I (exec e s).2 ∧ A e (exec e s).1) {s s' : S} (hs : I s)
    (h : m.Stops exec s s') : I s' := by
  obtain ⟨n, rfl⟩ := h
  induction m generalizing s n with
  | done r => cases n <;> exact hs
  | spin => cases n <;> exact hs
  | call e next ih =>
    cases n with
    | zero => exact hs
    | succ n =>
      obtain ⟨hs', hreply⟩ := hstep e s hm.1 hs
      exact ih _ (hm.2 _ hreply) hs' n

end Prog

end Effects
