import Scriptorium.ExecStream

/-!
# Admission of executions

The semaphore that bounds how many containers run at a time.  A permit is taken
before the container is created.  `Exec` holds it until `exec_oneshot` is over;
`ExecStream` moves it into the response stream.

`live_le_capacity` says in which runs the bound holds of the containers, and not
only of the permits.
-/

namespace Scriptorium

open Transitions

/-- The limits on executions; 0 stands for a default of 10. -/
structure ConcurrencyConfig where
  maxConcurrentExecs : Nat
deriving DecidableEq, Repr

def ConcurrencyConfig.effectiveMax (cfg : ConcurrencyConfig) : Nat :=
  if cfg.maxConcurrentExecs = 0 then 10 else cfg.maxConcurrentExecs

/-- `Exec` and `CallTool(execute_shell)` collect the output, `ExecStream` streams it. -/
inductive CallKind where
  | exec | execStream
deriving DecidableEq, Repr

/-- A request: waiting for its permit, preparing its parameters with the permit in
    hand, running, or turned away. -/
inductive Call where
  | queued (kind : CallKind)
  | preparing (kind : CallKind)
  | oneshot (timeoutMs : Nat) (s : Oneshot)
  | streaming (timeoutMs : Nat) (s : ExecStream)
  | refused

namespace Call

/-- The call has a permit. -/
def holds : Call → Bool
  | .queued _ | .refused => false
  | .preparing _ => true
  | .oneshot _ s => !s.isOver
  | .streaming _ s => s.pc ≠ .failed ∧ s.pc ≠ .dropped

/-- Its container runs, and nothing has been requested against that. -/
def live : Call → Bool
  | .oneshot _ s => s.container.Live
  | .streaming _ s => s.container.Live
  | _ => false

def step : Call → CallEvent → Option Call
  | .oneshot timeoutMs s, e =>
    match s.step timeoutMs e with
    | none => none
    | some s' => some (.oneshot timeoutMs s')
  | .streaming timeoutMs s, e =>
    match s.step timeoutMs e with
    | none => none
    | some s' => some (.streaming timeoutMs s')
  | _, _ => none

end Call

/-- The permits that are free, and every request so far. -/
structure Pool where
  available : Nat
  calls : List Call

inductive PoolEvent where
  | arrive (kind : CallKind)
  | acquire (i : Nat)
  /-- The queue timeout, a failure to prepare, or the client cancelling either. -/
  | refuse (i : Nat)
  | prepared (i : Nat) (timeoutMs now : Nat)
  | call (i : Nat) (e : CallEvent)

namespace Pool

def start (capacity : Nat) : Pool := ⟨capacity, []⟩

def step (p : Pool) : PoolEvent → Option Pool
  | .arrive kind => some { p with calls := p.calls ++ [.queued kind] }
  | .acquire i =>
    match p.calls[i]? with
    | some (.queued kind) =>
      if p.available = 0 then none
      else some ⟨p.available - 1, p.calls.set i (.preparing kind)⟩
    | _ => none
  | .refuse i =>
    match p.calls[i]? with
    | some (.queued _) => some { p with calls := p.calls.set i .refused }
    | some (.preparing _) => some ⟨p.available + 1, p.calls.set i .refused⟩
    | _ => none
  | .prepared i timeoutMs now =>
    match p.calls[i]? with
    | some (.preparing .exec) =>
      some { p with calls := p.calls.set i (.oneshot timeoutMs (Oneshot.start now)) }
    | some (.preparing .execStream) =>
      some { p with calls := p.calls.set i (.streaming timeoutMs (ExecStream.start now)) }
    | _ => none
  | .call i e =>
    match p.calls[i]? with
    | none => none
    | some c =>
      match c.step e with
      | none => none
      | some c' =>
        -- the permit goes back when the call lets go of it
        some ⟨if c.holds && !c'.holds then p.available + 1 else p.available, p.calls.set i c'⟩

/-- The containers that run with nothing requested against them. -/
def live (p : Pool) : Nat := p.calls.countP Call.live

end Pool

/-! ### When a permit may go back -/

/-- The events by which an `Exec` gives its permit back only for a container that
    cannot come to run, or has a request against it. -/
def Oneshot.Releases (s : Oneshot) : CallEvent → Prop
  | .startReply (.error _) => ¬ s.container.MayLive
  | .attachItem item => item.isEnd = true → s.waitCode.isSome → ¬ s.container.MayLive
  | .waitItem _ => s.attachDone = true → ¬ s.container.MayLive
  | .drop => ¬ s.container.MayLive
  | _ => True

/-- The same for `ExecStream`: the guard, where there is one, makes the requests. -/
def ExecStream.Releases (s : ExecStream) : CallEvent → Prop
  | .startReply (.error _) => ¬ s.container.MayLive
  | .drop => s.guard = .armed ∨ ¬ s.container.MayLive
  | _ => True

def Call.Releases : Call → CallEvent → Prop
  | .oneshot _ s, e => s.Releases e
  | .streaming _ s, e => s.Releases e
  | _, _ => True

/-- A call gives its permit back only for a container that is not left running. -/
def Pool.Careful (p : Pool) : PoolEvent → Prop
  | .call i e =>
    match p.calls[i]? with
    | none => True
    | some c => c.Releases e
  | _ => True

instance (s : Oneshot) (e : CallEvent) : Decidable (s.Releases e) :=
  match e with
  | .startReply (.error _) => inferInstanceAs (Decidable (¬ _))
  | .attachItem _ => inferInstanceAs (Decidable (_ → _ → ¬ _))
  | .waitItem _ => inferInstanceAs (Decidable (_ → ¬ _))
  | .drop => inferInstanceAs (Decidable (¬ _))
  | .tick _ | .daemon _ | .createReply _ | .attachReply _ | .startReply (.ok _) | .deadline
  | .killReply | .removeReply | .poll => isTrue trivial

instance (s : ExecStream) (e : CallEvent) : Decidable (s.Releases e) :=
  match e with
  | .startReply (.error _) => inferInstanceAs (Decidable (¬ _))
  | .drop => inferInstanceAs (Decidable (_ ∨ ¬ _))
  | .tick _ | .daemon _ | .createReply _ | .attachReply _ | .startReply (.ok _) | .attachItem _
  | .waitItem _ | .deadline | .killReply | .removeReply | .poll => isTrue trivial

instance (c : Call) (e : CallEvent) : Decidable (c.Releases e) :=
  match c with
  | .oneshot _ s => inferInstanceAs (Decidable (s.Releases e))
  | .streaming _ s => inferInstanceAs (Decidable (s.Releases e))
  | .queued _ | .preparing _ | .refused => isTrue trivial

instance (p : Pool) (e : PoolEvent) : Decidable (p.Careful e) :=
  match e with
  | .call i e =>
    match h : p.calls[i]? with
    | none => isTrue (by simp [Pool.Careful, h])
    | some c => decidable_of_iff (c.Releases e) (by simp [Pool.Careful, h])
  | .arrive _ | .acquire _ | .refuse _ | .prepared _ _ _ => isTrue trivial

/-! ### What a call keeps -/

namespace Oneshot

/-- Before its start is requested the container cannot run; once the call is over, it
    is not left running. -/
structure Held (s : Oneshot) : Prop where
  unstarted : s.pc = .creating ∨ s.pc = .attaching → s.container.Unstarted
  cleanup : s.pc = .killing ∨ s.pc = .removing → s.container.killSent = true
  released : s.isOver = true → ¬ s.container.MayLive

theorem held_start (now : Nat) : (start now).Held := by
  refine ⟨fun _ => ⟨rfl, by simp [start, Container.requested]⟩, ?_, ?_⟩
  · rintro (h | h) <;> cases h
  · intro hover
    cases hover

theorem held_of_over {s : Oneshot} (hover : s.isOver = true) (h : ¬ s.container.MayLive) :
    s.Held := by
  rw [over_iff] at hover
  refine ⟨?_, ?_, fun _ => h⟩
  · rintro (hpc | hpc) <;> simp [hpc] at hover
  · rintro (hpc | hpc) <;> simp [hpc] at hover

theorem held_of_joining {s : Oneshot} (hpc : s.pc = .starting ∨ s.pc = .joining) : s.Held := by
  refine ⟨?_, ?_, ?_⟩
  · rintro (h | h) <;> simp [h] at hpc
  · rintro (h | h) <;> simp [h] at hpc
  · intro hover
    rw [over_iff] at hover
    rcases hpc with hpc | hpc <;> simp [hpc] at hover

theorem held_step {timeoutMs : Nat} {s s' : Oneshot} {e : CallEvent} (hs : s.Held)
    (hreleases : s.Releases e) (h : s.step timeoutMs e = some s') : s'.Held := by
  cases step_cases h with
  | tick ms => exact ⟨hs.unstarted, hs.cleanup, hs.released⟩
  | daemon hdaemon =>
    refine ⟨fun hpc => (hs.unstarted hpc).daemon hdaemon, fun hpc => ?_, fun hover hlive => ?_⟩
    · exact (Container.daemon_requests hdaemon).2.1.trans (hs.cleanup hpc)
    · exact hs.released hover (Container.mayLive_of_daemon hdaemon hlive)
  | createFails message hpc => exact held_of_over rfl (hs.unstarted (Or.inl hpc)).not_mayLive
  | created id hpc hphase =>
    refine ⟨fun _ => hs.unstarted (Or.inl hpc), ?_, ?_⟩
    · rintro (h | h) <;> cases h
    · intro hover
      cases hover
  | attachFails message hpc => exact held_of_over rfl (hs.unstarted (Or.inr hpc)).not_mayLive
  | attached hpc => exact held_of_joining (Or.inl rfl)
  | startFails message hpc => exact held_of_over rfl hreleases
  | started hpc hphase => exact held_of_joining (Or.inr rfl)
  | output item hpc hmore =>
    exact held_of_joining (Or.inr ((collect_fields (s := s) item).1.trans hpc))
  | outputLast item code hpc hend hcode =>
    refine held_of_over rfl ?_
    rw [finish, (collect_fields (s := s) item).2.1]
    exact hreleases hend (by simp [hcode])
  | waited item hpc hmore => exact held_of_joining (Or.inr hpc)
  | waitedLast item hpc hdone => exact held_of_over rfl (hreleases hdone)
  | expired hpc hclock =>
    refine ⟨?_, fun _ => rfl, ?_⟩
    · rintro (h | h) <;> cases h
    · intro hover
      cases hover
  | killed hpc =>
    refine ⟨?_, fun _ => hs.cleanup (Or.inl hpc), ?_⟩
    · rintro (h | h) <;> cases h
    · intro hover
      cases hover
  | removed hpc =>
    exact held_of_over rfl (Container.not_mayLive_of_killSent (hs.cleanup (Or.inr hpc)))
  | drop hwaiting => exact held_of_over rfl hreleases

/-- A call that is over stays so. -/
theorem over_of_step {timeoutMs : Nat} {s s' : Oneshot} {e : CallEvent} (hover : s.isOver = true)
    (h : s.step timeoutMs e = some s') : s'.isOver = true := by
  have hpc := over_iff.mp hover
  cases step_cases h with
  | tick ms => exact hover
  | daemon hdaemon => exact hover
  | drop hwaiting => rfl
  | _ => simp_all

end Oneshot

namespace ExecStream

/-- Before its start is requested the container cannot run; once the stream is gone,
    it is not left running. -/
structure Held (s : ExecStream) : Prop where
  unstarted : s.pc = .creating ∨ s.pc = .attaching → s.container.Unstarted
  released : s.pc = .failed ∨ s.pc = .dropped → ¬ s.container.MayLive

theorem held_start (now : Nat) : (start now).Held := by
  refine ⟨fun _ => ⟨rfl, by simp [start, Container.requested]⟩, ?_⟩
  rintro (h | h) <;> cases h

theorem held_of_gone {s : ExecStream} (hpc : s.pc = .failed ∨ s.pc = .dropped)
    (h : ¬ s.container.MayLive) : s.Held := by
  refine ⟨?_, fun _ => h⟩
  rintro (h | h) <;> simp [h] at hpc

theorem held_of_streaming {s : ExecStream}
    (hpc : s.pc ≠ .creating ∧ s.pc ≠ .attaching ∧ s.pc ≠ .failed ∧ s.pc ≠ .dropped) : s.Held := by
  refine ⟨?_, ?_⟩
  · rintro (h | h)
    · exact absurd h hpc.1
    · exact absurd h hpc.2.1
  · rintro (h | h)
    · exact absurd h hpc.2.2.1
    · exact absurd h hpc.2.2.2

theorem held_step {timeoutMs : Nat} {s s' : ExecStream} {e : CallEvent} (hs : s.Held)
    (hreleases : s.Releases e) (h : s.step timeoutMs e = some s') : s'.Held := by
  cases step_cases h with
  | tick ms => exact ⟨hs.unstarted, hs.released⟩
  | daemon hdaemon =>
    refine ⟨fun hpc => (hs.unstarted hpc).daemon hdaemon, fun hpc hlive => ?_⟩
    exact hs.released hpc (Container.mayLive_of_daemon hdaemon hlive)
  | createFails message hpc =>
    exact held_of_gone (Or.inl rfl) (hs.unstarted (Or.inl hpc)).not_mayLive
  | created id hpc hphase =>
    refine ⟨fun _ => hs.unstarted (Or.inl hpc), ?_⟩
    rintro (h | h) <;> cases h
  | attachFails message hpc =>
    exact held_of_gone (Or.inl rfl) (hs.unstarted (Or.inr hpc)).not_mayLive
  | startFails message hpc => exact held_of_gone (Or.inl rfl) hreleases
  | skip hpc hmore => exact hs
  | drop hfailed hdropped =>
    refine held_of_gone (Or.inr rfl) ?_
    rcases hreleases with harmed | hlive
    · exact Container.not_mayLive_of_settled (cleaned_dropGuard harmed).settled
    · by_cases harmed : s.guard = .armed
      · exact Container.not_mayLive_of_settled (cleaned_dropGuard harmed).settled
      · rwa [dropGuard, if_neg harmed]
  | outputEnds hpc hmore hend hwait => exact held_of_streaming (by simp [hpc])
  | waited item hpc hmore hattach => exact held_of_streaming (by simp [hpc])
  | _ => exact held_of_streaming (by simp [send, finish])

/-- A stream that is gone stays so. -/
theorem gone_of_step {timeoutMs : Nat} {s s' : ExecStream} {e : CallEvent}
    (hpc : s.pc = .failed ∨ s.pc = .dropped) (h : s.step timeoutMs e = some s') :
    s'.pc = .failed ∨ s'.pc = .dropped := by
  cases step_cases h with
  | tick ms => exact hpc
  | daemon hdaemon => exact hpc
  | drop hfailed hdropped => exact Or.inr rfl
  | skip hpc' hmore => exact hpc
  | _ => simp_all

end ExecStream

namespace Call

def Held : Call → Prop
  | .oneshot _ s => s.Held
  | .streaming _ s => s.Held
  | _ => True

theorem held_step {c c' : Call} {e : CallEvent} (hc : c.Held) (hreleases : c.Releases e)
    (h : c.step e = some c') : c'.Held := by
  cases c with
  | oneshot timeoutMs s =>
    simp only [step] at h
    split at h
    · cases h
    · rename_i hnext
      obtain rfl := Option.some.inj h
      exact Oneshot.held_step hc hreleases hnext
  | streaming timeoutMs s =>
    simp only [step] at h
    split at h
    · cases h
    · rename_i hnext
      obtain rfl := Option.some.inj h
      exact ExecStream.held_step hc hreleases hnext
  | _ => cases h

/-- A running call does not take a permit back. -/
theorem holds_of_step {c c' : Call} {e : CallEvent} (h : c.step e = some c')
    (hholds : c'.holds = true) : c.holds = true := by
  by_contra hfree
  cases c with
  | oneshot timeoutMs s =>
    simp only [step] at h
    split at h
    · cases h
    · rename_i s' hnext
      obtain rfl := Option.some.inj h
      have hover : s.isOver = true := by simpa [holds] using hfree
      simp [holds, Oneshot.over_of_step hover hnext] at hholds
  | streaming timeoutMs s =>
    simp only [step] at h
    split at h
    · cases h
    · rename_i s' hnext
      obtain rfl := Option.some.inj h
      have hgone : s.pc = .failed ∨ s.pc = .dropped := by
        by_contra hgone
        rw [not_or] at hgone
        simp [holds, hgone] at hfree
      rcases ExecStream.gone_of_step hgone hnext with hpc | hpc <;> simp [holds, hpc] at hholds
  | _ => cases h

/-- A call without a permit has no live container. -/
theorem holds_of_live {c : Call} (hc : c.Held) (hlive : c.live = true) : c.holds = true := by
  cases c with
  | oneshot timeoutMs s =>
    have hmay : s.container.MayLive := Container.Live.mayLive (of_decide_eq_true hlive)
    rw [holds, Bool.not_eq_true', ← Bool.not_eq_true]
    exact fun hover => hc.released hover hmay
  | streaming timeoutMs s =>
    have hmay : s.container.MayLive := Container.Live.mayLive (of_decide_eq_true hlive)
    refine decide_eq_true ⟨fun hpc => ?_, fun hpc => ?_⟩
    · exact hc.released (Or.inl hpc) hmay
    · exact hc.released (Or.inr hpc) hmay
  | _ => cases hlive

end Call

/-! ### The permits -/

/-- Replacing one element moves the count by that element. -/
theorem countP_set_add {α : Type} {p : α → Bool} {l : List α} {i : Nat} {a b : α}
    (h : l[i]? = some a) :
    (l.set i b).countP p + (if p a then 1 else 0) = l.countP p + (if p b then 1 else 0) := by
  obtain ⟨hi, rfl⟩ := List.getElem?_eq_some_iff.mp h
  rw [List.countP_set hi]
  split
  · rename_i hp
    have hpos : 0 < l.countP p := List.countP_pos_iff.mpr ⟨l[i], List.getElem_mem hi, hp⟩
    omega
  · rfl

namespace Pool

/-- Every permit is free or held by one call, and each call keeps its own. -/
structure Inv (capacity : Nat) (p : Pool) : Prop where
  permits : p.available + p.calls.countP Call.holds = capacity
  held : ∀ c ∈ p.calls, c.Held

theorem inv_start (capacity : Nat) : (start capacity).Inv capacity :=
  ⟨rfl, fun _ hc => absurd hc List.not_mem_nil⟩

theorem Inv.set {capacity available : Nat} {p : Pool} (hp : p.Inv capacity) {i : Nat} {c c' : Call}
    (hi : p.calls[i]? = some c) (hheld : c'.Held)
    (havailable : available + (if c'.holds then 1 else 0) =
      p.available + (if c.holds then 1 else 0)) :
    (Pool.mk available (p.calls.set i c')).Inv capacity := by
  refine ⟨?_, fun d hd => ?_⟩
  · have hcount := countP_set_add (p := Call.holds) (b := c') hi
    have hpermits := hp.permits
    simp only
    omega
  · rcases List.mem_or_eq_of_mem_set hd with hd | rfl
    · exact hp.held d hd
    · exact hheld

theorem inv_step {capacity : Nat} {p p' : Pool} {e : PoolEvent} (hp : p.Inv capacity)
    (hcareful : p.Careful e) (h : p.step e = some p') : p'.Inv capacity := by
  cases e with
  | arrive kind =>
    obtain rfl := Option.some.inj h
    refine ⟨?_, fun c hc => ?_⟩
    · simpa [List.countP_append, Call.holds] using hp.permits
    · rcases List.mem_append.mp hc with hc | hc
      · exact hp.held c hc
      · obtain rfl := List.mem_singleton.mp hc
        trivial
  | acquire i =>
    simp only [step] at h
    split at h
    · rename_i kind hi
      split at h
      · cases h
      · obtain rfl := Option.some.inj h
        refine hp.set hi trivial ?_
        simp only [Call.holds, Bool.false_eq_true, if_true, if_false]
        omega
    · cases h
  | refuse i =>
    simp only [step] at h
    split at h
    · rename_i kind hi
      obtain rfl := Option.some.inj h
      exact hp.set hi trivial rfl
    · rename_i kind hi
      obtain rfl := Option.some.inj h
      exact hp.set hi trivial rfl
    · cases h
  | prepared i timeoutMs now =>
    simp only [step] at h
    split at h
    · rename_i hi
      obtain rfl := Option.some.inj h
      exact hp.set hi (Oneshot.held_start now) rfl
    · rename_i hi
      obtain rfl := Option.some.inj h
      exact hp.set hi (ExecStream.held_start now) rfl
    · cases h
  | call i e =>
    simp only [step] at h
    split at h
    · cases h
    · rename_i c hi
      split at h
      · cases h
      · rename_i c' hnext
        obtain rfl := Option.some.inj h
        simp only [Careful, hi] at hcareful
        have hheld := Call.held_step (hp.held c (List.mem_of_getElem? hi)) hcareful hnext
        refine hp.set hi hheld ?_
        -- the permit goes back, or the call goes on as it was
        rcases hbefore : c.holds with _ | _ <;> rcases hafter : c'.holds with _ | _
        · rfl
        · rw [Call.holds_of_step hnext hafter] at hbefore
          cases hbefore
        · rfl
        · rfl

/-- **Admission bound.**  In a run in which no call gives its permit back for a
    container that is left running, at most `effective_max()` containers run with
    nothing requested against them. -/
theorem live_le_capacity (cfg : ConcurrencyConfig) {p : Pool}
    (h : Reaches step Careful (start cfg.effectiveMax) p) : p.live ≤ cfg.effectiveMax := by
  have hp : p.Inv cfg.effectiveMax :=
    h.invariant (inv_start _) fun _ _ _ ht he hstep => inv_step ht he hstep
  calc p.live ≤ p.calls.countP Call.holds :=
        List.countP_mono_left fun c hc => Call.holds_of_live (hp.held c hc)
    _ ≤ p.available + p.calls.countP Call.holds := Nat.le_add_left _ _
    _ = cfg.effectiveMax := hp.permits

/-- The events that take the `i`-th call to a running container. -/
def launchRun (i : Nat) : List PoolEvent :=
  [.arrive .exec, .acquire i, .prepared i 10 0, .call i (.daemon .creates),
    .call i (.createReply (.ok "c1")), .call i (.attachReply (.ok ())), .call i (.daemon .starts)]

/-- With two permits, two containers run. -/
theorem live_le_capacity_two :
    ∃ p, run step (start 2) (launchRun 0 ++ launchRun 1) = some p ∧ p.live = 2 ∧ p.live ≤ 2 := by
  refine ⟨_, rfl, rfl, ?_⟩
  exact live_le_capacity ⟨2⟩
    (reaches_of_fine (launchRun 0 ++ launchRun 1) rfl (by decide))

/-- With one permit: the client cancels an `Exec` whose container runs, and the next
    one starts beside it. -/
theorem cancelled_exec_exceeds_capacity :
    ¬ ∀ p, Reaches step Free (start (ConcurrencyConfig.effectiveMax ⟨1⟩)) p →
      p.live ≤ ConcurrencyConfig.effectiveMax ⟨1⟩ := by
  intro hbound
  have hreach := reaches_of_run step (start 1)
    (launchRun 0 ++ [.call 0 .drop] ++ launchRun 1) rfl
  exact absurd (hbound _ hreach) (by decide)

end Pool

end Scriptorium
