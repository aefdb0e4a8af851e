import Scriptorium.Agreement
import Scriptorium.HostFs

/-!
# Programs that keep to one directory

Secrecy of a reading program with respect to the directory at `W`, read off the
calls it makes in one tree.  A `Confined` program makes calls that stay inside;
it gives the same result in every tree that agrees with this one inside
(`Confined.run_eq`).  A program that `Splits` fails in two different ways in two
trees that agree inside.  `Judged` puts the two together, and its rules follow
the structure of a program.
-/

namespace Scriptorium

open Posix Effects

variable (cred : Cred) (now : Nat) (W : Pos)

/-- Every call of the program, in the tree it is made in, stays inside. -/
def Confined {ε α : Type} (m : Fs ε α) (t : FileTree) : Prop :=
  ∀ c ∈ m.calls (FileTree.exec cred now) t, c.2.CallInside cred W c.1

/-- Two trees that agree inside make the program fail with related errors. -/
def Splits {ε α : Type} (R : ε → ε → Prop) (m : Fs ε α) (t : FileTree) : Prop :=
  ∃ t₁ t₂ e₁ e₂, FileTree.SameInside cred W t t₁ ∧ FileTree.SameInside cred W t t₂ ∧ R e₁ e₂ ∧
    (m.run (FileTree.exec cred now) t₁).1 = some (.error e₁) ∧
    (m.run (FileTree.exec cred now) t₂).1 = some (.error e₂)

/-- The program lists a directory through a path that follows as many links as
    the kernel allows. -/
def Exhausts {ε α : Type} (m : Fs ε α) (t : FileTree) : Prop :=
  ∃ c ∈ m.calls (FileTree.exec cred now) t, ∃ path, c.1 = .readDir path ∧
    walk (c.2.look cred) (maxLinks - 1) [] path ≠ walk (c.2.look cred) maxLinks [] path

/-- The first program is confined, or the second one splits; the two differ in the
    number of steps their loops may take.  A program that has no link left in a
    path it lists is not judged. -/
def Judged {ε α : Type} (R : ε → ε → Prop) (m m' : Fs ε α) (t : FileTree) : Prop :=
  Confined cred now W m t ∨ Splits cred now W R m' t ∨ Exhausts cred now m t

/-- Errors that are two different failures of the kernel, under `f`. -/
def OsApart {ε : Type} (f : IoError → ε) (e₁ e₂ : ε) : Prop :=
  ∃ a b : Errno, a ≠ b ∧ e₁ = f (.os a) ∧ e₂ = f (.os b)

variable {cred now W}
variable {ε ε' α β : Type} {t t' : FileTree}

/-! ### Confined programs -/

/-- A confined program reads: it leaves the tree, and answers as it would in
    every tree that agrees inside. -/
theorem Confined.run_same {m : Fs ε α} (h : Confined cred now W m t)
    (hsame : FileTree.SameInside cred W t t') :
    m.run (FileTree.exec cred now) t' = ((m.run (FileTree.exec cred now) t).1, t') ∧
      Confined cred now W m t' := by
  induction m with
  | done r => exact ⟨rfl, fun c hc => by cases hc⟩
  | spin => exact ⟨rfl, fun c hc => by cases hc⟩
  | call c next ih =>
    have hin := h (c, t) (by simp [Prog.calls])
    have hstate : (FileTree.exec cred now c t).2 = t := FileTree.exec_state_of_callInside hin
    have hin' := hsame.callInside hin
    have hstate' : (FileTree.exec cred now c t').2 = t' := FileTree.exec_state_of_callInside hin'
    have hreply : (FileTree.exec cred now c t).1 = (FileTree.exec cred now c t').1 :=
      FileTree.exec_congr hsame hin
    have hnext : Confined cred now W (next (FileTree.exec cred now c t).1) t := by
      intro d hd
      refine h d ?_
      rw [Prog.calls, hstate]
      exact List.mem_cons_of_mem _ hd
    obtain ⟨hrun, hconf⟩ := ih _ hnext
    rw [Prog.run_call, Prog.run_call, hstate, hstate', ← hreply]
    refine ⟨hrun, fun d hd => ?_⟩
    rw [Prog.calls, hstate', ← hreply] at hd
    rcases List.mem_cons.mp hd with rfl | hd
    · exact hin'
    · exact hconf d hd

theorem Confined.run_eq {m : Fs ε α} (h : Confined cred now W m t)
    (hsame : FileTree.SameInside cred W t t') :
    (m.run (FileTree.exec cred now) t').1 = (m.run (FileTree.exec cred now) t).1 := by
  rw [(h.run_same hsame).1]

theorem Confined.run_state {m : Fs ε α} (h : Confined cred now W m t) :
    (m.run (FileTree.exec cred now) t).2 = t := by
  rw [(h.run_same (.refl t)).1]

theorem Confined.eq_of_run {m : Fs ε α} (h : Confined cred now W m t)
    {r : Option (Except ε α)} {s : FileTree} (hr : m.run (FileTree.exec cred now) t = (r, s)) :
    t = s := by
  rw [← h.run_state, hr]

theorem confined_pure (a : α) : Confined cred now W (pure a : Fs ε α) t := by
  intro c hc
  cases hc

theorem confined_throw (e : ε) : Confined cred now W (Prog.throw e : Fs ε α) t := by
  intro c hc
  cases hc

theorem confined_spin : Confined cred now W (.spin : Fs ε α) t := by
  intro c hc
  cases hc

theorem confined_ofExcept (r : Except ε α) :
    Confined cred now W (Prog.ofExcept r : Fs ε α) t := by
  intro c hc
  cases hc

theorem confined_sys {c : FsCall} : Confined cred now W (sys c) t ↔ t.CallInside cred W c := by
  simp [Confined, calls_sys]

theorem confined_attempt {m : Fs ε α} :
    Confined cred now W (m.attempt : Fs ε' (Except ε α)) t ↔ Confined cred now W m t := by
  simp only [Confined, Prog.calls_attempt]

theorem confined_mapError {f : ε → ε'} {m : Fs ε α} :
    Confined cred now W (m.mapError f) t ↔ Confined cred now W m t := by
  simp only [Confined, Prog.calls_mapError]

theorem confined_bind {m : Fs ε α} {f : α → Fs ε β} (hm : Confined cred now W m t)
    (hf : ∀ a, (m.run (FileTree.exec cred now) t).1 = some (.ok a) → Confined cred now W (f a) t) :
    Confined cred now W (m >>= f) t := by
  have hstate := hm.run_state
  intro c hc
  rw [Prog.calls_bind, List.mem_append] at hc
  rcases hc with hc | hc
  · exact hm c hc
  · cases hrun : m.run (FileTree.exec cred now) t with
    | mk r s =>
      rw [hrun] at hc hstate hf
      cases r with
      | none => cases hc
      | some r =>
        cases r with
        | error e => cases hc
        | ok a =>
          simp only at hc hstate
          rw [hstate] at hc
          exact hf a rfl c hc

theorem Confined.fst {m : Fs ε α} {f : α → Fs ε β} (h : Confined cred now W (m >>= f) t) :
    Confined cred now W m t := by
  intro c hc
  refine h c ?_
  rw [Prog.calls_bind]
  exact List.mem_append_left _ hc

theorem Confined.snd {m : Fs ε α} {f : α → Fs ε β} {a : α} (h : Confined cred now W (m >>= f) t)
    (ha : (m.run (FileTree.exec cred now) t).1 = some (.ok a)) : Confined cred now W (f a) t := by
  have hrun : m.run (FileTree.exec cred now) t = (some (.ok a), t) := Prod.ext ha h.fst.run_state
  intro c hc
  refine h c ?_
  rw [Prog.calls_bind, hrun]
  exact List.mem_append_right _ hc

/-! ### Programs that split -/

theorem Splits.mapError {R : ε → ε → Prop} {R' : ε' → ε' → Prop} {f : ε → ε'} {m : Fs ε α}
    (h : Splits cred now W R m t) (hf : ∀ e₁ e₂, R e₁ e₂ → R' (f e₁) (f e₂)) :
    Splits cred now W R' (m.mapError f) t := by
  obtain ⟨t₁, t₂, e₁, e₂, h₁, h₂, hR, hrun₁, hrun₂⟩ := h
  refine ⟨t₁, t₂, f e₁, f e₂, h₁, h₂, hf e₁ e₂ hR, ?_, ?_⟩
  · rw [Prog.run_mapError, hrun₁]
    rfl
  · rw [Prog.run_mapError, hrun₂]
    rfl

theorem Splits.bind {R : ε → ε → Prop} {m : Fs ε α} (h : Splits cred now W R m t)
    (f : α → Fs ε β) : Splits cred now W R (m >>= f) t := by
  obtain ⟨t₁, t₂, e₁, e₂, h₁, h₂, hR, hrun₁, hrun₂⟩ := h
  have herror : ∀ s e, (m.run (FileTree.exec cred now) s).1 = some (.error e) →
      ((m >>= f).run (FileTree.exec cred now) s).1 = some (.error e) := by
    intro s e he
    rw [Prog.run_bind]
    cases hrun : m.run (FileTree.exec cred now) s with
    | mk r s' =>
      rw [hrun] at he
      obtain rfl : r = _ := he
      rfl
  exact ⟨t₁, t₂, e₁, e₂, h₁, h₂, hR, herror t₁ e₁ hrun₁, herror t₂ e₂ hrun₂⟩

/-- What a confined program computed here, it also computes in a tree that agrees. -/
theorem Confined.run_bind_same {m : Fs ε α} {f : α → Fs ε β} {a : α}
    (hm : Confined cred now W m t) (ha : (m.run (FileTree.exec cred now) t).1 = some (.ok a))
    (hsame : FileTree.SameInside cred W t t') :
    (m >>= f).run (FileTree.exec cred now) t' = (f a).run (FileTree.exec cred now) t' := by
  rw [Prog.run_bind, (hm.run_same hsame).1, ha]

theorem Splits.after {R : ε → ε → Prop} {m : Fs ε α} {f : α → Fs ε β} {a : α}
    (hm : Confined cred now W m t) (ha : (m.run (FileTree.exec cred now) t).1 = some (.ok a))
    (h : Splits cred now W R (f a) t) : Splits cred now W R (m >>= f) t := by
  obtain ⟨t₁, t₂, e₁, e₂, h₁, h₂, hR, hrun₁, hrun₂⟩ := h
  refine ⟨t₁, t₂, e₁, e₂, h₁, h₂, hR, ?_, ?_⟩
  · rw [hm.run_bind_same ha h₁]
    exact hrun₁
  · rw [hm.run_bind_same ha h₂]
    exact hrun₂

/-! ### Judging programs -/

section Judged

variable {R : ε → ε → Prop}

theorem Exhausts.bind {m : Fs ε α} (h : Exhausts cred now m t) (f : α → Fs ε β) :
    Exhausts cred now (m >>= f) t := by
  obtain ⟨c, hc, hpath⟩ := h
  refine ⟨c, ?_, hpath⟩
  rw [Prog.calls_bind]
  exact List.mem_append_left _ hc

theorem Exhausts.after {m : Fs ε α} {f : α → Fs ε β} {a : α} (hm : Confined cred now W m t)
    (ha : (m.run (FileTree.exec cred now) t).1 = some (.ok a)) (h : Exhausts cred now (f a) t) :
    Exhausts cred now (m >>= f) t := by
  obtain ⟨c, hc, hpath⟩ := h
  refine ⟨c, ?_, hpath⟩
  have hrun : m.run (FileTree.exec cred now) t = (some (.ok a), t) := Prod.ext ha hm.run_state
  rw [Prog.calls_bind, hrun]
  exact List.mem_append_right _ hc

theorem judged_of_confined {m m' : Fs ε α} (h : Confined cred now W m t) :
    Judged cred now W R m m' t := Or.inl h

theorem judged_of_splits {m m' : Fs ε α} (h : Splits cred now W R m' t) :
    Judged cred now W R m m' t := Or.inr (Or.inl h)

theorem judged_bind {m : Fs ε α} {f f' : α → Fs ε β} (hm : Judged cred now W R m m t)
    (hf : ∀ a, Confined cred now W m t → (m.run (FileTree.exec cred now) t).1 = some (.ok a) →
      Judged cred now W R (f a) (f' a) t) :
    Judged cred now W R (m >>= f) (m >>= f') t := by
  rcases hm with hm | hm | hm
  · by_cases hall : ∀ a, (m.run (FileTree.exec cred now) t).1 = some (.ok a) →
        Confined cred now W (f a) t
    · exact judged_of_confined (confined_bind hm hall)
    · push Not at hall
      obtain ⟨a, ha, hnot⟩ := hall
      rcases hf a hm ha with hconf | hsplit | hexhaust
      · exact absurd hconf hnot
      · exact judged_of_splits (hsplit.after hm ha)
      · exact Or.inr (Or.inr (hexhaust.after hm ha))
  · exact judged_of_splits (hm.bind f')
  · exact Or.inr (Or.inr (hm.bind f))

/-- Behind a program that decides, what is confined in any case adds nothing. -/
theorem judged_bind_confined {m m' : Fs ε α} {f f' : α → Fs ε β}
    (hm : Judged cred now W R m m' t)
    (hf : ∀ a, Confined cred now W m t → (m.run (FileTree.exec cred now) t).1 = some (.ok a) →
      Confined cred now W (f a) t) :
    Judged cred now W R (m >>= f) (m' >>= f') t := by
  rcases hm with hm | hm | hm
  · exact judged_of_confined (confined_bind hm fun a ha => hf a hm ha)
  · exact judged_of_splits (hm.bind f')
  · exact Or.inr (Or.inr (hm.bind f))

theorem judged_bind_pure (g : α → β) {m m' : Fs ε α} (hm : Judged cred now W R m m' t) :
    Judged cred now W R (do pure (g (← m))) (do pure (g (← m'))) t :=
  judged_bind_confined hm fun _ _ _ => confined_pure _

theorem judged_mapError {R' : ε' → ε' → Prop} {f : ε → ε'} {m m' : Fs ε α}
    (h : Judged cred now W R m m' t) (hf : ∀ e₁ e₂, R e₁ e₂ → R' (f e₁) (f e₂)) :
    Judged cred now W R' (m.mapError f) (m'.mapError f) t := by
  rcases h with h | h | h
  · exact judged_of_confined (confined_mapError.mpr h)
  · exact judged_of_splits (h.mapError hf)
  · obtain ⟨c, hc, hpath⟩ := h
    refine Or.inr (Or.inr ⟨c, ?_, hpath⟩)
    rw [Prog.calls_mapError]
    exact hc

end Judged

/-! ### Single calls -/

/-- What one call does, when it looks up `path` and finds nothing. -/
theorem run_sys_of_walk_error {c : FsCall} {path : PathBuf} {e : Errno}
    (hc : c = .fileType path ∨ c = .stat path ∨ c = .readDir path ∨ c = .read path)
    (he : e ≠ .wouldblock) (h : walk (t.look cred) maxLinks [] path = .error e) :
    (sys c).run (FileTree.exec cred now) t = (some (.error (.os e)), t) := by
  have hfind : t.find cred path = .error e := by simp [FileTree.find, h]
  rcases hc with rfl | rfl | rfl | rfl <;>
    exact run_sys_error
      (by simp [FileTree.exec, FileTree.readDir, FileTree.read, hfind, Except.map]) he

end Scriptorium
