import Scriptorium.ExecStream

/-!
# The wall clock of `exec_stream`

The timer of a streamed call is made by the first poll of the generator and looked at
only while the generator is polled.  `PolledStream` adds the consumer's polls to the
machine of the call: a poll that finds nothing ready returns `Pending`, and the generator
then stands in its `select!` until the next.  `wallClock_enforced` says in which runs the
container is killed one step after its time is over.
-/

namespace Scriptorium

open Transitions

namespace ExecStream

variable (timeoutMs : Nat) (s : ExecStream)

/-- At the time `now` the container has had more than its time. -/
def OverdueAt (now : Nat) : Prop :=
  match s.launchedAt with
  | none => False
  | some launchedAt => launchedAt + timeoutMs < now

/-- The container has exited, or a kill has been requested. -/
def Contained : Prop := s.container.Over ∨ s.container.killSent = true

/-- The container has had more than its time, and nothing has been done about it. -/
def Late : Prop := s.OverdueAt timeoutMs s.clock ∧ ¬ s.Contained

/-- No time runs before the container has been started. -/
def Unlaunched : Prop :=
  s.pc = .creating ∨ s.pc = .attaching ∨ s.pc = .starting → s.launchedAt = none

/-- What puts an end to a late container: its own end, the timer's branch, and the stream
    being dropped while the guard is in place. -/
def EndedBy (s : ExecStream) : CallEvent → Prop
  | .daemon e => e ≠ .creates ∧ e ≠ .starts
  | .deadline => True
  | .drop => s.guard = .armed
  | _ => False

/-- A poll of the generator finds no branch ready; that of the timer is, once it has run
    out. -/
def Unready : Prop :=
  s.pc = .selecting ∧ s.clock < s.deadline ∨ s.pc = .killing ∨ s.pc = .removing

instance (now : Nat) : Decidable (s.OverdueAt timeoutMs now) := by
  unfold OverdueAt
  split <;> infer_instance

instance : Decidable s.Contained := by unfold Contained; infer_instance
instance : Decidable (s.Late timeoutMs) := by unfold Late; infer_instance
instance : Decidable s.Unready := by unfold Unready; infer_instance

instance (e : CallEvent) : Decidable (s.EndedBy e) :=
  match e with
  | .daemon _ => inferInstanceAs (Decidable (_ ∧ _))
  | .drop => inferInstanceAs (Decidable (_ = _))
  | .deadline => isTrue trivial
  | .tick _ | .createReply _ | .attachReply _ | .startReply _ | .attachItem _ | .waitItem _
  | .killReply | .removeReply | .poll => isFalse id

end ExecStream

/-- The events by which the generator goes on from where it stands. -/
def CallEvent.isBranch : CallEvent → Bool
  | .attachItem _ | .waitItem _ | .deadline | .killReply | .removeReply => true
  | _ => false

/-- A streamed call and its consumer.  `parked` says that the last poll returned `Pending`;
    `lag` counts the steps for which the container has been late, of which the code keeps
    no record. -/
structure PolledStream where
  stream : ExecStream
  parked : Bool
  lag : Nat

/-- What can happen: an event of the call; the poll under way returns `Pending`; or the
    consumer polls again, and the generator finds nothing ready or takes a branch. -/
inductive PollEvent where
  | call (e : CallEvent)
  | pend
  | repoll (branch : Option CallEvent)

namespace PolledStream

def start (now : Nat) : PolledStream := ⟨.start now, false, 0⟩

variable (timeoutMs : Nat) (s : PolledStream)

def next (stream : ExecStream) (parked : Bool) : PolledStream :=
  ⟨stream, parked, if stream.Late timeoutMs then s.lag + 1 else 0⟩

/-- The generator goes on only within a poll. -/
def step (s : PolledStream) : PollEvent → Option PolledStream
  | .call e =>
    if s.parked = true ∧ e.isBranch = true then none
    else (s.stream.step timeoutMs e).map fun stream => s.next timeoutMs stream s.parked
  | .pend =>
    if s.parked = false ∧ s.stream.Unready then some (s.next timeoutMs s.stream true) else none
  | .repoll none =>
    if s.parked = true ∧ s.stream.Unready then some (s.next timeoutMs s.stream true) else none
  | .repoll (some e) =>
    if s.parked = true ∧ e.isBranch = true then
      (s.stream.step timeoutMs e).map fun stream => s.next timeoutMs stream false
    else none

/-- The kill is late by one step at most. -/
def Enforced : Prop := s.lag ≤ 1

/-- The steps that keep the time limit: any, as long as the container is not late; and if
    it is, only those that put an end to that. -/
def Punctual (s : PolledStream) : PollEvent → Prop
  | .call e | .repoll (some e) => s.stream.Late timeoutMs → s.stream.EndedBy e
  | .pend | .repoll none => ¬ s.stream.Late timeoutMs

instance : Decidable s.Enforced := by unfold Enforced; infer_instance

instance (e : PollEvent) : Decidable (s.Punctual timeoutMs e) :=
  match e with
  | .call _ | .repoll (some _) => inferInstanceAs (Decidable (_ → _))
  | .pend | .repoll none => inferInstanceAs (Decidable (¬ _))

end PolledStream

namespace ExecStream

variable {timeoutMs : Nat} {s s' : ExecStream}

theorem unlaunched_step {e : CallEvent} (hs : s.Unlaunched) (h : s.step timeoutMs e = some s') :
    s'.Unlaunched := by
  cases step_cases h with
  | tick ms => exact hs
  | daemon hdaemon => exact hs
  | created id hpc hphase => exact fun _ => hs (Or.inl hpc)
  | attached hpc => exact fun _ => hs (Or.inr (Or.inl hpc))
  | skip hpc hmore => exact hs
  | outputEnds hpc hmore hend hwait => exact hs
  | waited item hpc hmore hattach => exact hs
  | _ => rintro (hpc | hpc | hpc) <;> cases hpc

theorem Late.launched (h : s.Late timeoutMs) : s.launchedAt ≠ none := by
  intro hnone
  have hover := h.1
  rw [OverdueAt, hnone] at hover
  exact hover

theorem Late.tick (h : s.Late timeoutMs) (ms : Nat) :
    Late timeoutMs { s with clock := s.clock + ms } := by
  obtain ⟨hover, hopen⟩ := h
  refine ⟨?_, hopen⟩
  rcases hlaunch : s.launchedAt with _ | launchedAt
  · simp [OverdueAt, hlaunch] at hover
  · simp only [OverdueAt, hlaunch] at hover ⊢
    omega

/-- What the daemon does ends the container, or creates or starts it. -/
theorem contained_of_daemon {e : DaemonEvent} {container : Container} (hopen : ¬ s.Contained)
    (h : s.container.daemon e = some container) :
    Contained { s with container } ↔ e ≠ .creates ∧ e ≠ .starts := by
  obtain ⟨-, hkill, -⟩ := Container.daemon_requests h
  have hunsent : ¬ container.killSent = true := by
    rw [hkill]
    exact fun hsent => hopen (Or.inr hsent)
  cases e <;> simp only [Container.daemon] at h <;> split at h <;> cases h <;>
    simp_all [Contained, Container.Over]

/-- A late container stays late, unless the step is one that ends this. -/
theorem late_step_iff {e : CallEvent} (hlaunch : s.Unlaunched) (hlate : s.Late timeoutMs)
    (h : s.step timeoutMs e = some s') : s'.Late timeoutMs ↔ ¬ s.EndedBy e := by
  have hlaunched := hlate.launched
  cases step_cases h with
  | tick ms => exact iff_of_true (hlate.tick ms) id
  | daemon hdaemon =>
    have hcontained := contained_of_daemon hlate.2 hdaemon
    exact ⟨fun hs' hended => hs'.2 (hcontained.mpr hended),
      fun hended => ⟨hlate.1, fun hs' => hended (hcontained.mp hs')⟩⟩
  | createFails message hpc => exact absurd (hlaunch (Or.inl hpc)) hlaunched
  | created id hpc hphase => exact absurd (hlaunch (Or.inl hpc)) hlaunched
  | attachFails message hpc => exact absurd (hlaunch (Or.inr (Or.inl hpc))) hlaunched
  | attached hpc => exact absurd (hlaunch (Or.inr (Or.inl hpc))) hlaunched
  | startFails message hpc => exact absurd (hlaunch (Or.inr (Or.inr hpc))) hlaunched
  | started hpc hphase => exact absurd (hlaunch (Or.inr (Or.inr hpc))) hlaunched
  | expired hpc hclock =>
    exact iff_of_false (fun hs' => hs'.2 (Or.inr rfl)) fun hended => hended trivial
  | killed hpc => exact iff_of_true hlate id
  | drop hfailed hdropped =>
    by_cases harmed : s.guard = .armed
    · refine iff_of_false (fun hs' => hs'.2 (Or.inr ?_)) fun hended => hended harmed
      rw [dropGuard, if_pos harmed]
      rfl
    · refine iff_of_true ?_ harmed
      rw [dropGuard, if_neg harmed]
      exact hlate
  | _ => exact iff_of_true hlate id

end ExecStream

namespace PolledStream

variable {timeoutMs : Nat} {s s' : PolledStream}

/-- What is known of the count. -/
structure Counted (timeoutMs : Nat) (s : PolledStream) : Prop where
  unlaunched : s.stream.Unlaunched
  lag : s.lag = 0 ↔ ¬ s.stream.Late timeoutMs

theorem counted_start (now : Nat) : (start now).Counted timeoutMs :=
  ⟨fun _ => rfl, iff_of_true rfl fun hlate => hlate.launched rfl⟩

theorem counted_next {stream : ExecStream} {parked : Bool} (h : stream.Unlaunched) :
    (s.next timeoutMs stream parked).Counted timeoutMs := by
  refine ⟨h, ?_⟩
  by_cases hlate : stream.Late timeoutMs
  · simp [next, hlate]
  · simp [next, hlate]

/-- A second late step in a row breaks the limit, and nothing else does. -/
theorem enforced_next_iff {stream : ExecStream} {parked : Bool} (hs : s.Counted timeoutMs) :
    (s.next timeoutMs stream parked).Enforced ↔
    (s.stream.Late timeoutMs → ¬ stream.Late timeoutMs) := by
  have hlag : s.lag = 0 ↔ ¬ s.stream.Late timeoutMs := hs.lag
  rw [Enforced, next]
  by_cases hlate : stream.Late timeoutMs
  · rw [if_pos hlate]
    constructor
    · intro hle hbefore
      dsimp only at hle
      have hnonzero : s.lag ≠ 0 := fun hzero => hlag.mp hzero hbefore
      omega
    · intro hbefore
      have hzero : s.lag = 0 := hlag.mpr fun hlate' => hbefore hlate' hlate
      dsimp only
      omega
  · rw [if_neg hlate]
    exact iff_of_true (Nat.zero_le 1) fun _ => hlate

theorem step_stream {e : CallEvent} {stream : ExecStream} {parked : Bool} (hs : s.Counted timeoutMs)
    (h : s.stream.step timeoutMs e = some stream) :
    (s.next timeoutMs stream parked).Counted timeoutMs ∧
      ((s.next timeoutMs stream parked).Enforced ↔
        (s.stream.Late timeoutMs → s.stream.EndedBy e)) := by
  refine ⟨counted_next (ExecStream.unlaunched_step hs.unlaunched h), ?_⟩
  rw [enforced_next_iff hs]
  constructor
  · intro hnext hlate
    by_contra hended
    exact hnext hlate ((ExecStream.late_step_iff hs.unlaunched hlate h).mpr hended)
  · intro hended hlate hnext
    exact (ExecStream.late_step_iff hs.unlaunched hlate h).mp hnext (hended hlate)

theorem step_pending (hs : s.Counted timeoutMs) :
    (s.next timeoutMs s.stream true).Counted timeoutMs ∧
      ((s.next timeoutMs s.stream true).Enforced ↔ ¬ s.stream.Late timeoutMs) := by
  refine ⟨counted_next hs.unlaunched, ?_⟩
  rw [enforced_next_iff hs]
  exact ⟨fun h hlate => h hlate hlate, fun h hlate => absurd hlate h⟩

/-- A step breaks the limit exactly when it is not punctual. -/
theorem enforced_step_iff {e : PollEvent} (hs : s.Counted timeoutMs)
    (h : s.step timeoutMs e = some s') :
    s'.Counted timeoutMs ∧ (s'.Enforced ↔ s.Punctual timeoutMs e) := by
  rcases e with e | _ | _ | e <;> simp only [step] at h <;> split at h
  · cases h
  · obtain ⟨stream, hstream, rfl⟩ := Option.map_eq_some_iff.mp h
    exact step_stream hs hstream
  · obtain rfl := Option.some.inj h
    exact step_pending hs
  · cases h
  · obtain rfl := Option.some.inj h
    exact step_pending hs
  · cases h
  · obtain ⟨stream, hstream, rfl⟩ := Option.map_eq_some_iff.mp h
    exact step_stream hs hstream
  · cases h

/-- A call whose stream is polled to the first item, and again to the generator. -/
def openedRun : List PollEvent := (ExecStream.announcedRun ++ [CallEvent.poll]).map .call

end PolledStream

end Scriptorium
