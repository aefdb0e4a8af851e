import Scriptorium.ServiceError

/-!
# Containers

What the Docker daemon does with the container of one call.  A request that was
sent is carried out, or not, at a time of the daemon's choosing, whether or not
the caller still waits for the reply; a container that was started and has
exited, or whose start fails, is removed by `AutoRemove`.
-/

namespace Scriptorium

/-- Where a container is in its life. -/
inductive Phase where
  | absent | created | running | exited | removed
deriving DecidableEq, Repr

/-- A container, and the requests about it that have been sent. -/
structure Container where
  phase : Phase
  startSent : Bool
  killSent : Bool
  removeSent : Bool
deriving DecidableEq, Repr

/-- What the daemon does of its own accord. -/
inductive DaemonEvent where
  | creates | starts | refuses | exits | removes
deriving DecidableEq, Repr

namespace Container

/-- A container whose creation has been requested. -/
def requested : Container := ⟨.absent, false, false, false⟩

def daemon (c : Container) : DaemonEvent → Option Container
  | .creates => if c.phase = .absent then some { c with phase := .created } else none
  | .starts =>
    if c.phase = .created ∧ c.startSent = true then some { c with phase := .running } else none
  | .refuses =>
    if c.phase = .created ∧ c.startSent = true then some { c with phase := .removed } else none
  | .exits => if c.phase = .running then some { c with phase := .exited } else none
  | .removes =>
    if (c.phase = .created ∨ c.phase = .running) ∧ c.removeSent = true then
      some { c with phase := .removed }
    else none

def sendStart (c : Container) : Container := { c with startSent := true }
def sendKill (c : Container) : Container := { c with killSent := true }
def sendRemove (c : Container) : Container := { c with removeSent := true }

/-- The container has run and exited, or is gone. -/
def Over (c : Container) : Prop := c.phase = .exited ∨ c.phase = .removed

/-- It is over, or a kill or a forced removal has been requested. -/
def Settled (c : Container) : Prop := c.Over ∨ c.killSent = true ∨ c.removeSent = true

/-- It is over, or both have been requested. -/
def Cleaned (c : Container) : Prop := c.Over ∨ (c.killSent = true ∧ c.removeSent = true)

/-- It runs, and nothing has been requested against that. -/
def Live (c : Container) : Prop :=
  c.phase = .running ∧ c.killSent = false ∧ c.removeSent = false

/-- It is live, or a request to start it is on the way. -/
def MayLive (c : Container) : Prop :=
  (c.phase = .running ∨ (c.phase = .created ∨ c.phase = .absent) ∧ c.startSent = true) ∧
    c.killSent = false ∧ c.removeSent = false

instance (c : Container) : Decidable c.Over := by unfold Over; infer_instance
instance (c : Container) : Decidable c.Settled := by unfold Settled; infer_instance
instance (c : Container) : Decidable c.Cleaned := by unfold Cleaned; infer_instance
instance (c : Container) : Decidable c.Live := by unfold Live; infer_instance
instance (c : Container) : Decidable c.MayLive := by unfold MayLive; infer_instance

/-! ### What the daemon cannot undo -/

variable {c c' : Container} {e : DaemonEvent}

/-- The daemon changes the phase alone. -/
theorem daemon_requests (h : c.daemon e = some c') :
    c'.startSent = c.startSent ∧ c'.killSent = c.killSent ∧ c'.removeSent = c.removeSent := by
  cases e <;> simp only [daemon] at h <;> split at h <;> cases h <;> exact ⟨rfl, rfl, rfl⟩

/-- A container that is over stays over. -/
theorem Over.daemon (hover : c.Over) (h : c.daemon e = some c') : c'.Over := by
  cases e <;> simp only [Container.daemon] at h <;> split at h <;> cases h
  all_goals rename_i hphase
  all_goals rcases hover with hover | hover <;> simp [hover] at hphase

/-- Without a request to start or remove it, a container is created at most. -/
theorem unstarted_of_daemon (h : c.daemon e = some c') (hstart : c.startSent = false)
    (hremove : c.removeSent = false) (hphase : c.phase = .absent ∨ c.phase = .created) :
    c'.phase = .absent ∨ c'.phase = .created := by
  cases e <;> simp only [Container.daemon] at h <;> split at h <;> cases h
  · exact Or.inr rfl
  all_goals simp_all

theorem Settled.daemon (hsettled : c.Settled) (h : c.daemon e = some c') : c'.Settled := by
  obtain ⟨-, hkill, hremove⟩ := daemon_requests h
  rw [Settled, hkill, hremove]
  exact hsettled.imp_left fun hover => hover.daemon h

theorem Cleaned.daemon (hcleaned : c.Cleaned) (h : c.daemon e = some c') : c'.Cleaned := by
  obtain ⟨-, hkill, hremove⟩ := daemon_requests h
  rw [Cleaned, hkill, hremove]
  exact hcleaned.imp_left fun hover => hover.daemon h

/-- What can come to run now could come to run before. -/
theorem mayLive_of_daemon (h : c.daemon e = some c') (hlive : c'.MayLive) : c.MayLive := by
  obtain ⟨hphase, hkill, hremove⟩ := hlive
  obtain ⟨hstart, hkill', hremove'⟩ := daemon_requests h
  refine ⟨?_, hkill' ▸ hkill, hremove' ▸ hremove⟩
  rw [hstart] at hphase
  cases e <;> simp only [Container.daemon] at h <;> split at h <;> cases h <;> simp_all

theorem Live.mayLive (h : c.Live) : c.MayLive := ⟨Or.inl h.1, h.2⟩

theorem not_mayLive_of_settled (h : c.Settled) : ¬ c.MayLive := by
  rintro ⟨hphase, hkill, hremove⟩
  rcases h with (h | h) | h | h <;> simp_all

/-- The start has not been requested. -/
def Unstarted (c : Container) : Prop := c.startSent = false ∧ c.phase ≠ .running

theorem Unstarted.daemon (hunstarted : c.Unstarted) (h : c.daemon e = some c') : c'.Unstarted := by
  refine ⟨(daemon_requests h).1.trans hunstarted.1, ?_⟩
  cases e <;> simp only [Container.daemon] at h <;> split at h <;> cases h
  all_goals simp_all [Unstarted]

theorem Unstarted.not_mayLive (hunstarted : c.Unstarted) : ¬ c.MayLive := by
  rintro ⟨hphase | ⟨-, hstart⟩, -⟩
  · exact hunstarted.2 hphase
  · rw [hunstarted.1] at hstart
    cases hstart

/-- A kill that has been requested leaves no live container. -/
theorem not_mayLive_of_killSent (h : c.killSent = true) : ¬ c.MayLive := by
  rintro ⟨-, hkill, -⟩
  rw [h] at hkill
  cases hkill

theorem Cleaned.settled (h : c.Cleaned) : c.Settled := by
  rcases h with h | h
  · exact Or.inl h
  · exact Or.inr (Or.inl h.1)

end Container

end Scriptorium
