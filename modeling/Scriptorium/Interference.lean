import Scriptorium.Effects

/-!
# Programs that are interfered with

Between any two calls of a program others may change the world, as far as `rely` lets them;
the program itself changes it as far as `guar` says, and makes a call only where it `may`.
`Copes` is the weakest precondition of a program under this: whatever the others do, each of
its calls keeps to `guar`, and where it ends, its result and the world satisfy `Q`.

Sequences are taken apart by `Copes.and_then` and `copes_attempt_then`; a stretch of calls
that the others do not disturb is taken at once (`copes_of_run`).
-/

namespace Effects

namespace Prog

variable {E : Type} {R : E → Type} {S ε ε' α β : Type} {exec : (e : E) → S → R e × S}
  {may : E → S → Prop} {rely guar : S → S → Prop}

variable (exec may rely guar) in
/-- Among others who change the world between the calls, the program keeps to `guar`, and
    where it ends, `Q` holds. -/
def Copes : Prog E R ε α → (Except ε α → S → Prop) → S → Prop
  | .done r, Q, s => Q r s
  | .spin, _, _ => True
  | .call e next, Q, s =>
    ∀ s', rely s s' → may e s' →
      guar s' (exec e s').2 ∧ Copes (next (exec e s').1) Q (exec e s').2

theorem Copes.mono {m : Prog E R ε α} {Q Q' : Except ε α → S → Prop} {s : S}
    (h : Copes exec may rely guar m Q s) (hQ : ∀ r s', Q r s' → Q' r s') :
    Copes exec may rely guar m Q' s := by
  induction m generalizing s with
  | done r => exact hQ r s h
  | spin => trivial
  | call e next ih => exact fun s' hs' hmay => ⟨(h s' hs' hmay).1, ih _ (h s' hs' hmay).2⟩

/-- A sequence whose first part succeeds. -/
theorem Copes.and_then {m : Prog E R ε α} {f : α → Prog E R ε β} {Q' : Except ε α → S → Prop}
    {Q : Except ε β → S → Prop} {s : S} (h : Copes exec may rely guar m Q' s)
    (hf : ∀ r s', Q' r s' → ∃ a, r = .ok a ∧ Copes exec may rely guar (f a) Q s') :
    Copes exec may rely guar (m >>= f) Q s := by
  rw [bind_eq]
  induction m generalizing s with
  | done r =>
    obtain ⟨a, rfl, hfa⟩ := hf r s h
    exact hfa
  | spin => trivial
  | call e next ih => exact fun s' hs' hmay => ⟨(h s' hs' hmay).1, ih _ (h s' hs' hmay).2⟩

/-- A sequence whose first part may fail without failing the whole. -/
theorem copes_attempt_then {m : Prog E R ε α} {f : Except ε α → Prog E R ε' β}
    {Q : Except ε' β → S → Prop} {s : S}
    (h : Copes exec may rely guar m (fun r s' => Copes exec may rely guar (f r) Q s') s) :
    Copes exec may rely guar ((m.attempt : Prog E R ε' (Except ε α)) >>= f) Q s := by
  rw [bind_eq]
  induction m generalizing s with
  | done r => exact h
  | spin => trivial
  | call e next ih => exact fun s' hs' hmay => ⟨(h s' hs' hmay).1, ih _ (h s' hs' hmay).2⟩

theorem copes_mapError {f : ε → ε'} {m : Prog E R ε α} {Q : Except ε' α → S → Prop} {s : S}
    (h : Copes exec may rely guar m (fun r => Q (r.mapError f)) s) :
    Copes exec may rely guar (m.mapError f) Q s := by
  induction m generalizing s with
  | done r => exact h
  | spin => trivial
  | call e next ih => exact fun s' hs' hmay => ⟨(h s' hs' hmay).1, ih _ (h s' hs' hmay).2⟩

/-- What the others have changed before a call, they may have changed before it anyway. -/
theorem Copes.disturbed {e : E} {next : R e → Prog E R ε α} {Q : Except ε α → S → Prop}
    {s s' : S} (htrans : ∀ {s s' s''}, rely s s' → rely s' s'' → rely s s'')
    (h : Copes exec may rely guar (.call e next) Q s) (hs : rely s s') :
    Copes exec may rely guar (.call e next) Q s' :=
  fun s'' hs'' hmay => h s'' (htrans hs hs'') hmay

/-- A program whose calls cannot tell the world from one in which nobody interferes ends as
    it does there. -/
theorem copes_of_run {P : E → Prop} {A : (e : E) → R e → Prop} {W : α → Prop}
    {m : Prog E R ε α} {T : Type} {solo : (e : E) → T → R e × T} {sim : S → T → Prop}
    (hm : m.Within P A W) (hrely : ∀ s s' v, rely s s' → sim s v → sim s' v)
    (hstep : ∀ e s v, P e → sim s v → guar s (exec e s).2 ∧ (exec e s).1 = (solo e v).1 ∧
      A e (solo e v).1 ∧ sim (exec e s).2 (solo e v).2)
    {r : Except ε α} {v v' : T} (hrun : m.run solo v = (some r, v')) {s : S} (hs : sim s v) :
    Copes exec may rely guar m (fun r' s' => r' = r ∧ sim s' v') s := by
  induction m generalizing s v with
  | done r' =>
    obtain ⟨hr, rfl⟩ := Prod.mk.inj hrun
    exact ⟨Option.some.inj hr, hs⟩
  | spin => trivial
  | call e next ih =>
    intro s' hs' _
    obtain ⟨hguar, hreply, hA, hsim⟩ := hstep e s' v hm.1 (hrely s s' v hs' hs)
    rw [hreply]
    exact ⟨hguar, ih _ (hm.2 _ hA) hrun hsim⟩

end Prog

end Effects
