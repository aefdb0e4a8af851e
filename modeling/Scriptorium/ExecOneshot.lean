import Scriptorium.Container
import Scriptorium.Transitions
import Mathlib.Algebra.Order.Group.Nat
import Mathlib.Algebra.Order.Group.Int

/-!
# `exec_oneshot`

The future behind `Exec`, as a state machine with one state for each `await` and
one event for each way out of it: a reply of the Docker API, an item of one of
its streams, the deadline, or the caller dropping the future.  Time is a clock
in milliseconds that advances by events of its own.

`oneshot_tidy` says which of these events leave a container behind.
-/

namespace Scriptorium

open Transitions

/-! ### Replies and items -/

/-- An item of the attach stream; the last two end it. -/
inductive AttachItem where
  | stdOut (message : List UInt8)
  | stdErr (message : List UInt8)
  | other
  | error
  | ended
deriving DecidableEq, Repr

def AttachItem.isEnd : AttachItem → Bool
  | .error | .ended => true
  | _ => false

/-- The first item of the wait stream.  A status other than 0 comes as an error
    of its own. -/
inductive WaitItem where
  | status (code : Int)
  | waitError (code : Int)
  | error
  | ended
deriving DecidableEq, Repr

/-- What happens to a call. -/
inductive CallEvent where
  | tick (ms : Nat)
  | daemon (e : DaemonEvent)
  | createReply (reply : Except String String)
  | attachReply (reply : Except String Unit)
  | startReply (reply : Except String Unit)
  | attachItem (item : AttachItem)
  | waitItem (item : WaitItem)
  | deadline
  | killReply
  | removeReply
  | poll
  | drop
deriving DecidableEq

/-- `i32::try_from(code).unwrap_or(-1)`. -/
def exitCode32 (code : Int) : Int := if -2 ^ 31 ≤ code ∧ code < 2 ^ 31 then code else -1

/-- Elapsed milliseconds as a `u64`. -/
def durationMs (startedAt now : Nat) : Nat := min (now - startedAt) (2 ^ 64 - 1)

structure ExecOutcome where
  exitCode : Int
  stdout : List UInt8
  stderr : List UInt8
  durationMs : Nat
  timedOut : Bool
deriving DecidableEq, Repr

/-! ### The future -/

/-- The `await` a call is at, or how it ended. -/
inductive OneshotPc where
  | creating | attaching | starting | joining | killing | removing
  | returned | failed | dropped
deriving DecidableEq, Repr

structure Oneshot where
  pc : OneshotPc
  container : Container
  containerId : Option String
  clock : Nat
  startedAt : Nat
  deadline : Nat
  stdout : List UInt8
  stderr : List UInt8
  attachDone : Bool
  waitCode : Option Int
  result : Option (Except Error ExecOutcome)

namespace Oneshot

/-- The call, once it has asked for its container. -/
def start (now : Nat) : Oneshot where
  pc := .creating
  container := .requested
  containerId := none
  clock := now
  startedAt := now
  deadline := 0
  stdout := []
  stderr := []
  attachDone := false
  waitCode := none
  result := none

variable (s : Oneshot)

/-- `?` on a failed request. -/
def fail (message : String) : Oneshot :=
  { s with pc := .failed, result := some (.error (.docker message)) }

def finish (exitCode : Int) (timedOut : Bool) : Oneshot :=
  { s with
    pc := .returned
    result := some (.ok ⟨exitCode, s.stdout, s.stderr, durationMs s.startedAt s.clock, timedOut⟩) }

/-- `collect`: append the output, until the stream fails or ends. -/
def collect : AttachItem → Oneshot
  | .stdOut message => { s with stdout := s.stdout ++ message }
  | .stdErr message => { s with stderr := s.stderr ++ message }
  | .other => s
  | .error | .ended => { s with attachDone := true }

/-- `wait`: the exit code, or -1. -/
def waitResult : WaitItem → Int
  | .status code => code
  | .waitError code => code
  | .error | .ended => -1

/-- `join!`: the call returns when both sides have ended. -/
def joined : Oneshot :=
  match s.attachDone, s.waitCode with
  | true, some code => s.finish (exitCode32 code) false
  | _, _ => s

/-- The call is no longer waiting for anything. -/
def isOver : Bool :=
  match s.pc with
  | .returned | .failed | .dropped => true
  | _ => false

def step (timeoutMs : Nat) (s : Oneshot) : CallEvent → Option Oneshot
  | .tick ms => some { s with clock := s.clock + ms }
  | .daemon e =>
    match s.container.daemon e with
    | none => none
    | some container => some { s with container }
  | .createReply reply =>
    if s.pc = .creating then
      match reply with
      | .error message => some (s.fail message)
      | .ok id =>
        if s.container.phase = .absent then none
        else some { s with pc := .attaching, containerId := some id }
    else none
  | .attachReply reply =>
    if s.pc = .attaching then
      match reply with
      | .error message => some (s.fail message)
      | .ok () => some { s with pc := .starting, container := s.container.sendStart }
    else none
  | .startReply reply =>
    if s.pc = .starting then
      match reply with
      | .error message => some (s.fail message)
      | .ok () =>
        if s.container.phase = .created then none
        else some { s with pc := .joining, deadline := s.clock + timeoutMs }
    else none
  | .attachItem item =>
    if s.pc = .joining ∧ s.attachDone = false then some (s.collect item).joined else none
  | .waitItem item =>
    if s.pc = .joining ∧ s.waitCode = none then
      some { s with waitCode := some (waitResult item) }.joined
    else none
  | .deadline =>
    if s.pc = .joining ∧ s.deadline ≤ s.clock then
      some { s with pc := .killing, container := s.container.sendKill }
    else none
  | .killReply =>
    if s.pc = .killing then some { s with pc := .removing, container := s.container.sendRemove }
    else none
  | .removeReply => if s.pc = .removing then some (s.finish (-1) true) else none
  | .poll => none
  | .drop => if s.isOver then none else some { s with pc := .dropped }

/-! ### What is left behind -/

/-- A call that is over has left its container exited, removed, or with a request
    to that end. -/
def Tidy : Prop := s.isOver = true → s.containerId.isSome → s.container.Settled

/-- The events that leave no container behind.  A container is left behind when
    attaching fails, when the start is reported to fail although it did not, when
    the future is dropped before the timeout has been dealt with, and when both
    streams end before the container has exited. -/
def Careful (s : Oneshot) : CallEvent → Prop
  | .attachReply (.error _) => False
  | .startReply (.error _) => s.container.Over
  | .attachItem item => item.isEnd = true → s.waitCode.isSome → s.container.Over
  | .waitItem _ => s.attachDone = true → s.container.Over
  | .drop => s.containerId.isSome → s.container.Settled
  | _ => True

/-- What the steps keep. -/
structure Inv : Prop where
  tidy : s.Tidy
  creating : s.pc = .creating → s.containerId = none
  named : s.isOver = false → s.pc ≠ .creating → s.containerId.isSome
  /-- Before the start is requested the container cannot run. -/
  unstarted : s.pc = .creating ∨ s.pc = .attaching →
    s.container.startSent = false ∧ (s.container.phase = .absent ∨ s.container.phase = .created)
  /-- Nothing is requested against the container before the timeout. -/
  spared : s.pc = .creating ∨ s.pc = .attaching ∨ s.pc = .starting ∨ s.pc = .joining →
    s.container.killSent = false ∧ s.container.removeSent = false
  cleanup : s.pc = .killing ∨ s.pc = .removing → s.container.killSent = true

theorem inv_start (now : Nat) : (start now).Inv := by
  refine ⟨?_, ?_, ?_, ?_, ?_, ?_⟩
  · intro hover
    cases hover
  · intro _
    rfl
  · intro _ hpc
    exact absurd rfl hpc
  · intro _
    exact ⟨rfl, Or.inl rfl⟩
  · intro _
    exact ⟨rfl, rfl⟩
  · intro h
    rcases h with h | h <;> cases h

variable {s}

theorem over_iff : s.isOver = true ↔ s.pc = .returned ∨ s.pc = .failed ∨ s.pc = .dropped := by
  unfold isOver
  split <;> simp_all

/-- While nothing has been requested, only a container that is over is settled. -/
theorem settled_iff_over {c : Container} (h : c.killSent = false ∧ c.removeSent = false) :
    c.Settled ↔ c.Over := by
  simp [Container.Settled, h.1, h.2]

/-- A call that fails leaves its container as it is. -/
theorem tidy_fail {message : String} :
    (s.fail message).Tidy ↔ (s.containerId.isSome → s.container.Settled) := by
  simp [Tidy, fail, isOver]

theorem tidy_finish {code : Int} {timedOut : Bool} :
    (s.finish code timedOut).Tidy ↔ (s.containerId.isSome → s.container.Settled) := by
  simp [Tidy, finish, isOver]

theorem tidy_of_waiting (h : s.isOver = false) : s.Tidy := by
  intro hover
  rw [h] at hover
  cases hover

/-- The two ways for an item to act: more is awaited, or it was the last. -/
theorem joined_cases :
    (s.joined = s ∧ (s.attachDone = true → s.waitCode = none)) ∨
      ∃ code, s.attachDone = true ∧ s.waitCode = some code ∧
        s.joined = s.finish (exitCode32 code) false := by
  unfold joined
  split
  · rename_i code hdone hcode
    exact Or.inr ⟨code, hdone, hcode, rfl⟩
  · rename_i hnot
    refine Or.inl ⟨rfl, fun hdone => ?_⟩
    rcases hcode : s.waitCode with _ | code
    · rfl
    · exact absurd hcode (hnot code hdone)

theorem collect_fields (item : AttachItem) :
    (s.collect item).pc = s.pc ∧ (s.collect item).container = s.container ∧
      (s.collect item).containerId = s.containerId ∧ (s.collect item).waitCode = s.waitCode ∧
      (s.collect item).attachDone = (s.attachDone || item.isEnd) := by
  cases item <;> simp [collect, AttachItem.isEnd]

/-- What an attach item leads to. -/
theorem attachItem_cases {timeoutMs : Nat} {item : AttachItem} {s' : Oneshot}
    (h : s.step timeoutMs (.attachItem item) = some s') :
    s.pc = .joining ∧ ((s' = s.collect item ∧ (item.isEnd = true → s.waitCode = none)) ∨
      ∃ code, item.isEnd = true ∧ s.waitCode = some code ∧
        s' = (s.collect item).finish (exitCode32 code) false) := by
  simp only [step] at h
  split at h
  · rename_i hpc
    obtain rfl := Option.some.inj h
    obtain ⟨-, -, -, hwait, hdone⟩ := collect_fields (s := s) item
    rw [hpc.2, Bool.false_or] at hdone
    refine ⟨hpc.1, ?_⟩
    rcases joined_cases (s := s.collect item) with ⟨heq, hmore⟩ | ⟨code, hend, hcode, heq⟩
    · rw [hdone, hwait] at hmore
      exact Or.inl ⟨heq, hmore⟩
    · rw [hdone] at hend
      rw [hwait] at hcode
      exact Or.inr ⟨code, hend, hcode, heq⟩
  · cases h

/-- What the reply to the wait leads to. -/
theorem waitItem_cases {timeoutMs : Nat} {item : WaitItem} {s' : Oneshot}
    (h : s.step timeoutMs (.waitItem item) = some s') :
    s.pc = .joining ∧
      ((s' = { s with waitCode := some (waitResult item) } ∧ s.attachDone = false) ∨
        s.attachDone = true ∧
          s' = { s with waitCode := some (waitResult item) }.finish
            (exitCode32 (waitResult item)) false) := by
  simp only [step] at h
  split at h
  · rename_i hpc
    obtain rfl := Option.some.inj h
    refine ⟨hpc.1, ?_⟩
    rcases joined_cases (s := { s with waitCode := some (waitResult item) }) with
      ⟨heq, hmore⟩ | ⟨code, hend, hcode, heq⟩
    · refine Or.inl ⟨heq, ?_⟩
      by_contra hdone
      rw [Bool.not_eq_false] at hdone
      cases hmore hdone
    · obtain rfl := Option.some.inj hcode
      exact Or.inr ⟨hend, heq⟩
  · cases h

/-- What the other events lead to. -/
inductive Stepped (timeoutMs : Nat) (s : Oneshot) : CallEvent → Oneshot → Prop
  | tick (ms : Nat) : Stepped timeoutMs s (.tick ms) { s with clock := s.clock + ms }
  | daemon {e : DaemonEvent} {container : Container} (h : s.container.daemon e = some container) :
    Stepped timeoutMs s (.daemon e) { s with container }
  | createFails (message : String) (hpc : s.pc = .creating) :
    Stepped timeoutMs s (.createReply (.error message)) (s.fail message)
  | created (id : String) (hpc : s.pc = .creating) (hphase : s.container.phase ≠ .absent) :
    Stepped timeoutMs s (.createReply (.ok id)) { s with pc := .attaching, containerId := some id }
  | attachFails (message : String) (hpc : s.pc = .attaching) :
    Stepped timeoutMs s (.attachReply (.error message)) (s.fail message)
  | attached (hpc : s.pc = .attaching) :
    Stepped timeoutMs s (.attachReply (.ok ()))
      { s with pc := .starting, container := s.container.sendStart }
  | startFails (message : String) (hpc : s.pc = .starting) :
    Stepped timeoutMs s (.startReply (.error message)) (s.fail message)
  | started (hpc : s.pc = .starting) (hphase : s.container.phase ≠ .created) :
    Stepped timeoutMs s (.startReply (.ok ()))
      { s with pc := .joining, deadline := s.clock + timeoutMs }
  | output (item : AttachItem) (hpc : s.pc = .joining)
    (hmore : item.isEnd = true → s.waitCode = none) :
    Stepped timeoutMs s (.attachItem item) (s.collect item)
  | outputLast (item : AttachItem) (code : Int) (hpc : s.pc = .joining) (hend : item.isEnd = true)
    (hcode : s.waitCode = some code) :
    Stepped timeoutMs s (.attachItem item) ((s.collect item).finish (exitCode32 code) false)
  | waited (item : WaitItem) (hpc : s.pc = .joining) (hmore : s.attachDone = false) :
    Stepped timeoutMs s (.waitItem item) { s with waitCode := some (waitResult item) }
  | waitedLast (item : WaitItem) (hpc : s.pc = .joining) (hdone : s.attachDone = true) :
    Stepped timeoutMs s (.waitItem item)
      ({ s with waitCode := some (waitResult item) }.finish (exitCode32 (waitResult item)) false)
  | expired (hpc : s.pc = .joining) (hclock : s.deadline ≤ s.clock) :
    Stepped timeoutMs s .deadline { s with pc := .killing, container := s.container.sendKill }
  | killed (hpc : s.pc = .killing) :
    Stepped timeoutMs s .killReply
      { s with pc := .removing, container := s.container.sendRemove }
  | removed (hpc : s.pc = .removing) : Stepped timeoutMs s .removeReply (s.finish (-1) true)
  | drop (hwaiting : s.isOver = false) : Stepped timeoutMs s .drop { s with pc := .dropped }

/-- Every step is one of these. -/
theorem step_cases {timeoutMs : Nat} {e : CallEvent} {s' : Oneshot}
    (h : s.step timeoutMs e = some s') : Stepped timeoutMs s e s' := by
  cases e with
  | tick ms =>
    obtain rfl := Option.some.inj h
    exact .tick ms
  | daemon e =>
    simp only [step] at h
    rcases hdaemon : s.container.daemon e with _ | container
    · simp [hdaemon] at h
    · simp only [hdaemon] at h
      obtain rfl := Option.some.inj h
      exact .daemon hdaemon
  | createReply reply =>
    simp only [step] at h
    split at h
    · rename_i hpc
      rcases reply with message | id
      · obtain rfl := Option.some.inj h
        exact .createFails message hpc
      · simp only at h
        split at h
        · cases h
        · rename_i hphase
          obtain rfl := Option.some.inj h
          exact .created id hpc hphase
    · cases h
  | attachReply reply =>
    simp only [step] at h
    split at h
    · rename_i hpc
      rcases reply with message | _
      · obtain rfl := Option.some.inj h
        exact .attachFails message hpc
      · obtain rfl := Option.some.inj h
        exact .attached hpc
    · cases h
  | startReply reply =>
    simp only [step] at h
    split at h
    · rename_i hpc
      rcases reply with message | _
      · obtain rfl := Option.some.inj h
        exact .startFails message hpc
      · simp only at h
        split at h
        · cases h
        · rename_i hphase
          obtain rfl := Option.some.inj h
          exact .started hpc hphase
    · cases h
  | attachItem item =>
    obtain ⟨hpc, ⟨rfl, hmore⟩ | ⟨code, hend, hcode, rfl⟩⟩ := attachItem_cases h
    · exact .output item hpc hmore
    · exact .outputLast item code hpc hend hcode
  | waitItem item =>
    obtain ⟨hpc, ⟨rfl, hmore⟩ | ⟨hdone, rfl⟩⟩ := waitItem_cases h
    · exact .waited item hpc hmore
    · exact .waitedLast item hpc hdone
  | deadline =>
    simp only [step] at h
    split at h
    · rename_i hpc
      obtain rfl := Option.some.inj h
      exact .expired hpc.1 hpc.2
    · cases h
  | killReply =>
    simp only [step] at h
    split at h
    · rename_i hpc
      obtain rfl := Option.some.inj h
      exact .killed hpc
    · cases h
  | removeReply =>
    simp only [step] at h
    split at h
    · rename_i hpc
      obtain rfl := Option.some.inj h
      exact .removed hpc
    · cases h
  | poll => cases h
  | drop =>
    simp only [step] at h
    split at h
    · cases h
    · rename_i hover
      obtain rfl := Option.some.inj h
      exact .drop (by simpa using hover)

/-! ### What the steps keep -/

theorem waiting_of_pc (h : s.pc ≠ .returned ∧ s.pc ≠ .failed ∧ s.pc ≠ .dropped) :
    s.isOver = false := by
  by_contra hover
  rw [Bool.not_eq_false, over_iff] at hover
  rcases hover with hover | hover | hover
  · exact h.1 hover
  · exact h.2.1 hover
  · exact h.2.2 hover

theorem collect_over {item : AttachItem} : (s.collect item).isOver = s.isOver := by
  rw [isOver, isOver, (collect_fields item).1]

/-- In the states before the timeout, settled means over. -/
theorem Inv.settled_iff (hinv : s.Inv)
    (hpc : s.pc = .creating ∨ s.pc = .attaching ∨ s.pc = .starting ∨ s.pc = .joining) :
    s.container.Settled ↔ s.container.Over := settled_iff_over (hinv.spared hpc)

/-- A step leaves a container behind exactly when it is not careful. -/
theorem tidy_step_iff {timeoutMs : Nat} {e : CallEvent} {s' : Oneshot} (hinv : s.Inv)
    (h : s.step timeoutMs e = some s') : s'.Tidy ↔ s.Careful e := by
  have hid : ∀ pc, s.pc = pc → pc ≠ .creating → pc ≠ .returned → pc ≠ .failed → pc ≠ .dropped →
      s.containerId.isSome := by
    rintro pc rfl hcreating hreturned hfailed hdropped
    exact hinv.named (waiting_of_pc ⟨hreturned, hfailed, hdropped⟩) hcreating
  rcases step_cases h with ms | @⟨e, container, hdaemon⟩ | ⟨message, hpc⟩ | ⟨id, hpc, hphase⟩ |
    ⟨message, hpc⟩ | hpc | ⟨message, hpc⟩ | ⟨hpc, hphase⟩ | ⟨item, hpc, hmore⟩ |
    ⟨item, code, hpc, hend, hcode⟩ | ⟨item, hpc, hmore⟩ | ⟨item, hpc, hdone⟩ | ⟨hpc, hclock⟩ |
    hpc | hpc | hwaiting
  · exact iff_of_true hinv.tidy trivial
  · refine iff_of_true (fun hover hid => ?_) trivial
    exact (hinv.tidy hover hid).daemon hdaemon
  · refine iff_of_true ?_ trivial
    rw [tidy_fail, hinv.creating hpc]
    simp
  · exact iff_of_true (tidy_of_waiting (by simp [isOver])) trivial
  · -- the container was never started, and nothing is asked of it
    rw [tidy_fail, hinv.settled_iff (Or.inr (Or.inl hpc))]
    have hisSome := hid _ hpc (by simp) (by simp) (by simp) (by simp)
    refine iff_of_false (fun htidy => ?_) id
    have hphase := (hinv.unstarted (Or.inr hpc)).2
    rcases htidy hisSome with hover | hover <;> simp [hover] at hphase
  · exact iff_of_true (tidy_of_waiting (by simp [isOver])) trivial
  · have hisSome := hid _ hpc (by simp) (by simp) (by simp) (by simp)
    rw [tidy_fail, hinv.settled_iff (Or.inr (Or.inr (Or.inl hpc)))]
    exact ⟨fun htidy => htidy hisSome, fun hover _ => hover⟩
  · exact iff_of_true (tidy_of_waiting (by simp [isOver])) trivial
  · refine iff_of_true (tidy_of_waiting ?_) ?_
    · rw [collect_over]
      exact waiting_of_pc (by simp [hpc])
    · intro hend hwait
      rw [hmore hend] at hwait
      cases hwait
  · have hisSome := hid _ hpc (by simp) (by simp) (by simp) (by simp)
    obtain ⟨-, hcontainer, hname, -, -⟩ := collect_fields (s := s) item
    rw [tidy_finish, hcontainer, hname, hinv.settled_iff (Or.inr (Or.inr (Or.inr hpc)))]
    simp [Careful, hend, hcode, hisSome]
  · refine iff_of_true (tidy_of_waiting ?_) ?_
    · exact waiting_of_pc (by simp [hpc])
    · intro hdone
      rw [hmore] at hdone
      cases hdone
  · have hisSome := hid _ hpc (by simp) (by simp) (by simp) (by simp)
    rw [tidy_finish]
    simp [Careful, hdone, hisSome, hinv.settled_iff (Or.inr (Or.inr (Or.inr hpc)))]
  · exact iff_of_true (tidy_of_waiting (by simp [isOver])) trivial
  · exact iff_of_true (tidy_of_waiting (by simp [isOver])) trivial
  · -- the timeout has asked for the kill
    refine iff_of_true ?_ trivial
    rw [tidy_finish]
    exact fun _ => Or.inr (Or.inl (hinv.cleanup (Or.inr hpc)))
  · simp [Tidy, isOver, Careful]

/-- Of a call that is over the invariant says no more than that it is tidy. -/
theorem inv_of_over (htidy : s.Tidy) (hover : s.isOver = true) : s.Inv := by
  rw [over_iff] at hover
  refine ⟨htidy, ?_, ?_, ?_, ?_, ?_⟩
  · intro hpc
    simp [hpc] at hover
  · intro hwaiting
    rw [← over_iff, hwaiting] at hover
    cases hover
  · rintro (hpc | hpc) <;> simp [hpc] at hover
  · rintro (hpc | hpc | hpc | hpc) <;> simp [hpc] at hover
  · rintro (hpc | hpc) <;> simp [hpc] at hover

theorem inv_step {timeoutMs : Nat} {e : CallEvent} {s' : Oneshot} (hinv : s.Inv)
    (hcareful : s.Careful e) (h : s.step timeoutMs e = some s') : s'.Inv := by
  have htidy := (tidy_step_iff hinv h).mpr hcareful
  have hid : ∀ pc, s.pc = pc → pc ≠ .creating → pc ≠ .returned → pc ≠ .failed → pc ≠ .dropped →
      s.containerId.isSome := by
    rintro pc rfl hcreating hreturned hfailed hdropped
    exact hinv.named (waiting_of_pc ⟨hreturned, hfailed, hdropped⟩) hcreating
  rcases step_cases h with ms | @⟨e, container, hdaemon⟩ | ⟨message, hpc⟩ | ⟨id, hpc, hphase⟩ |
    ⟨message, hpc⟩ | hpc | ⟨message, hpc⟩ | ⟨hpc, hphase⟩ | ⟨item, hpc, hmore⟩ |
    ⟨item, code, hpc, hend, hcode⟩ | ⟨item, hpc, hmore⟩ | ⟨item, hpc, hdone⟩ | ⟨hpc, hclock⟩ |
    hpc | hpc | hwaiting
  · exact ⟨htidy, hinv.creating, hinv.named, hinv.unstarted, hinv.spared, hinv.cleanup⟩
  · obtain ⟨hstart, hkill, hremove⟩ := Container.daemon_requests hdaemon
    refine ⟨htidy, hinv.creating, hinv.named, ?_, ?_, ?_⟩
    · intro hpc
      obtain ⟨hunstarted, hphase⟩ := hinv.unstarted hpc
      have hspared := hinv.spared (hpc.imp_right Or.inl)
      exact ⟨hstart.trans hunstarted,
        Container.unstarted_of_daemon hdaemon hunstarted hspared.2 hphase⟩
    · intro hpc
      simpa [hkill, hremove] using hinv.spared hpc
    · intro hpc
      simpa [hkill] using hinv.cleanup hpc
  · exact inv_of_over htidy (by simp [isOver, fail])
  · refine ⟨htidy, by simp, fun _ _ => rfl, fun _ => hinv.unstarted (Or.inl hpc),
      fun _ => hinv.spared (Or.inl hpc), by simp⟩
  · exact inv_of_over htidy (by simp [isOver, fail])
  · have hisSome := hid _ hpc (by simp) (by simp) (by simp) (by simp)
    exact ⟨htidy, by simp, fun _ _ => hisSome, by simp,
      fun _ => hinv.spared (Or.inr (Or.inl hpc)), by simp⟩
  · exact inv_of_over htidy (by simp [isOver, fail])
  · have hisSome := hid _ hpc (by simp) (by simp) (by simp) (by simp)
    exact ⟨htidy, by simp, fun _ _ => hisSome, by simp,
      fun _ => hinv.spared (Or.inr (Or.inr (Or.inl hpc))), by simp⟩
  · have hisSome := hid _ hpc (by simp) (by simp) (by simp) (by simp)
    obtain ⟨hpc', hcontainer, hname, -, -⟩ := collect_fields (s := s) item
    refine ⟨htidy, by simp [hpc', hpc], fun _ _ => hname ▸ hisSome, by simp [hpc', hpc], ?_,
      by simp [hpc', hpc]⟩
    rw [hcontainer]
    exact fun _ => hinv.spared (Or.inr (Or.inr (Or.inr hpc)))
  · exact inv_of_over htidy (by simp [isOver, finish])
  · have hisSome := hid _ hpc (by simp) (by simp) (by simp) (by simp)
    exact ⟨htidy, by simp [hpc], fun _ _ => hisSome, by simp [hpc],
      fun _ => hinv.spared (Or.inr (Or.inr (Or.inr hpc))), by simp [hpc]⟩
  · exact inv_of_over htidy (by simp [isOver, finish])
  · have hisSome := hid _ hpc (by simp) (by simp) (by simp) (by simp)
    exact ⟨htidy, by simp, fun _ _ => hisSome, by simp, by simp, fun _ => rfl⟩
  · have hisSome := hid _ hpc (by simp) (by simp) (by simp) (by simp)
    exact ⟨htidy, by simp, fun _ _ => hisSome, by simp, by simp,
      fun _ => hinv.cleanup (Or.inl hpc)⟩
  · exact inv_of_over htidy (by simp [isOver, finish])
  · exact inv_of_over htidy (by simp [isOver])

/-- **What `exec_oneshot` leaves behind.**  In a run of careful steps a call that
    is over has left no container that was created and never started, or that
    still runs with nothing requested against it; and a step breaks this exactly
    when it is not careful. -/
theorem oneshot_tidy (timeoutMs now : Nat) {s : Oneshot}
    (h : Reaches (step timeoutMs) Careful (start now) s) :
    s.Tidy ∧ ∀ e s', s.step timeoutMs e = some s' → (s'.Tidy ↔ s.Careful e) := by
  have hinv : s.Inv := h.invariant (inv_start now) fun t e t' ht he hstep => inv_step ht he hstep
  exact ⟨hinv.tidy, fun e s' hstep => tidy_step_iff hinv hstep⟩

/-- A call whose command outlives the timeout. -/
def timedOutRun : List CallEvent :=
  [.daemon .creates, .createReply (.ok "c1"), .attachReply (.ok ()), .daemon .starts,
    .startReply (.ok ()), .tick 10, .deadline, .killReply, .removeReply]

/-- The timeout leaves the container with a kill and a removal on the way. -/
theorem oneshot_tidy_timeout :
    ∃ s, run (step 10) (start 0) timedOutRun = some s ∧ s.isOver = true ∧ s.Tidy := by
  refine ⟨_, rfl, rfl, ?_⟩
  apply And.left
  apply oneshot_tidy 10 0
  apply reaches_of_fine timedOutRun rfl
  apply fine_of_forall
  simp [timedOutRun, Careful]

/-- A call whose attach fails, after the container has been created. -/
def attachFailsRun : List CallEvent :=
  [.daemon .creates, .createReply (.ok "c1"), .attachReply (.error "connection reset")]

/-- The container stays behind, created and never started. -/
theorem oneshot_leaks :
    ¬ ∀ s, Reaches (step 10) Free (start 0) s → s.Tidy := by
  intro htidy
  have hreach := reaches_of_run (step 10) (start 0)
    attachFailsRun rfl
  have hsettled := htidy _ hreach rfl rfl
  exact absurd hsettled (by decide)

end Oneshot

end Scriptorium
