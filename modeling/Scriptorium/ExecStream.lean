import Scriptorium.ExecOneshot

/-!
# `exec_stream`

The future behind `ExecStream` and the response stream wrapped around it, as a
state machine.  The body of the generator runs only while the consumer polls:
between the start of the container and the first poll, and at every `yield`, it
stands still.  The guard that cleans up when the stream is dropped is made by the
first poll of the generator.

`stream_tidy` says which drops, errors and ends leave a container behind.
-/

namespace Scriptorium

open Transitions

/-- `ContainerCleanupGuard`: not made yet, in place, or disarmed. -/
inductive Guard where
  | absent | armed | disarmed
deriving DecidableEq, Repr

/-- What the consumer receives. -/
inductive ExecEvent where
  | started (containerId : String)
  | stdout (data : List UInt8)
  | stderr (data : List UInt8)
  | finished (exitCode : Int) (durationMs : Nat) (timedOut : Bool)
deriving DecidableEq, Repr

/-- Where a call is: at an `await` of `exec_stream`; with a stream of which nothing
    has been polled (`ready`), of which `Started` has been delivered (`announced`),
    whose generator is being polled (`selecting`, `killing`, `removing`) or stands at
    a `yield` (`yielded`, `finished`); or over. -/
inductive StreamPc where
  | creating | attaching | starting
  | ready | announced | selecting | yielded | killing | removing | finished
  | ended | failed | dropped
deriving DecidableEq, Repr

/-- A call.  `launchedAt` is when `start_container` returned; the code keeps no
    such record. -/
structure ExecStream where
  pc : StreamPc
  container : Container
  containerId : Option String
  clock : Nat
  startedAt : Nat
  launchedAt : Option Nat
  deadline : Nat
  guard : Guard
  attachDone : Bool
  waitDone : Bool
  pendingExit : Option Int
  sent : List ExecEvent
  failure : Option Error

namespace ExecStream

/-- The call, once it has asked for its container. -/
def start (now : Nat) : ExecStream where
  pc := .creating
  container := .requested
  containerId := none
  clock := now
  startedAt := now
  launchedAt := none
  deadline := 0
  guard := .absent
  attachDone := false
  waitDone := false
  pendingExit := none
  sent := []
  failure := none

variable (s : ExecStream)

/-- `?` on a failed request. -/
def fail (message : String) : ExecStream :=
  { s with pc := .failed, failure := some (.docker message) }

def send (e : ExecEvent) : ExecStream := { s with sent := s.sent ++ [e] }

/-- Disarm the guard and yield `Finished`. -/
def finish (exitCode : Int) (timedOut : Bool) : ExecStream :=
  { s with pc := .finished, guard := .disarmed }.send
    (.finished exitCode (durationMs s.startedAt s.clock) timedOut)

/-- The attach branch of the `select!`. -/
def collect : AttachItem → ExecStream
  | .stdOut message => { s with pc := .yielded }.send (.stdout message)
  | .stdErr message => { s with pc := .yielded }.send (.stderr message)
  | .other => s
  | .error | .ended => { s with attachDone := true }

/-- The exit code of the wait branch, if it has one. -/
def exitOf : WaitItem → Option Int
  | .status code => some (exitCode32 code)
  | .waitError code => some (exitCode32 code)
  | .error | .ended => none

/-- The condition of the loop: it is left when both sides are done. -/
def loop : ExecStream :=
  if s.waitDone = true ∧ s.attachDone = true then s.finish (s.pendingExit.getD (-1)) false else s

/-- The stream is gone, or has nothing more to deliver. -/
def isOver : Bool :=
  match s.pc with
  | .ended | .failed | .dropped => true
  | _ => false

/-- What dropping the future or the stream asks for: the guard, once made, spawns
    the kill and the removal. -/
def dropGuard : Container :=
  if s.guard = .armed then s.container.sendKill.sendRemove else s.container

def step (timeoutMs : Nat) (s : ExecStream) : CallEvent → Option ExecStream
  | .tick ms => some { s with clock := s.clock + ms }
  | .daemon e =>
    match s.container.daemon e with
    | none => none
    | some container => some { s with container }
  | .createReply reply =>
    if s.pc = .creating then
      match reply with
      | .error message => some (s.fail message)
      | .ok id =>
        if s.container.phase = .absent then none
        else some { s with pc := .attaching, containerId := some id, startedAt := s.clock }
    else none
  | .attachReply reply =>
    if s.pc = .attaching then
      match reply with
      | .error message => some (s.fail message)
      | .ok () => some { s with pc := .starting, container := s.container.sendStart }
    else none
  | .startReply reply =>
    if s.pc = .starting then
      match reply with
      | .error message => some (s.fail message)
      | .ok () =>
        if s.container.phase = .created then none
        else some { s with pc := .ready, launchedAt := some s.clock }
    else none
  | .poll =>
    match s.pc with
    | .ready => some ({ s with pc := .announced }.send (.started (s.containerId.getD "")))
    | .announced =>
      some { s with pc := .selecting, guard := .armed, deadline := s.clock + timeoutMs }
    | .yielded => some { s with pc := .selecting }
    | .finished => some { s with pc := .ended }
    | _ => none
  | .attachItem item =>
    if s.pc = .selecting ∧ s.attachDone = false then some (s.collect item).loop else none
  | .waitItem item =>
    if s.pc = .selecting ∧ s.waitDone = false then
      some { s with waitDone := true, pendingExit := exitOf item }.loop
    else none
  | .deadline =>
    if s.pc = .selecting ∧ s.deadline ≤ s.clock then
      some { s with pc := .killing, guard := .disarmed, container := s.container.sendKill }
    else none
  | .killReply =>
    if s.pc = .killing then some { s with pc := .removing, container := s.container.sendRemove }
    else none
  | .removeReply => if s.pc = .removing then some (s.finish (-1) true) else none
  | .drop =>
    if s.pc = .failed ∨ s.pc = .dropped then none
    else some { s with pc := .dropped, container := s.dropGuard }

/-! ### What is left behind -/

/-- Once the stream is gone, the container has exited or is removed, or the kill and
    the removal have both been requested. -/
def Tidy : Prop := s.isOver = true → s.containerId.isSome → s.container.Cleaned

/-- The events that leave no container behind.  A container is left behind when
    attaching fails, when the start is reported to fail although it did not, when the
    future or the stream is dropped with no guard in place, and when both streams of
    the container end, which disarms the guard, although it still runs. -/
def Careful (s : ExecStream) : CallEvent → Prop
  | .attachReply (.error _) => False
  | .startReply (.error _) => s.container.Over
  | .poll => s.pc = .finished → s.container.Cleaned
  | .drop => s.guard = .armed ∨ (s.containerId.isSome → s.container.Cleaned)
  | _ => True

instance (e : CallEvent) : Decidable (s.Careful e) :=
  match e with
  | .attachReply (.error _) => isFalse id
  | .startReply (.error _) => inferInstanceAs (Decidable s.container.Over)
  | .poll => inferInstanceAs (Decidable (_ → s.container.Cleaned))
  | .drop => inferInstanceAs (Decidable (_ ∨ (_ → s.container.Cleaned)))
  | .tick _ | .daemon _ | .createReply _ | .attachReply (.ok _) | .startReply (.ok _)
  | .attachItem _ | .waitItem _ | .deadline | .killReply | .removeReply => isTrue trivial

/-- What the steps keep. -/
structure Inv : Prop where
  tidy : s.Tidy
  creating : s.pc = .creating → s.containerId = none
  named : s.isOver = false → s.pc ≠ .creating → s.containerId.isSome
  /-- Before the start is requested the container cannot run. -/
  unstarted : s.pc = .creating ∨ s.pc = .attaching →
    s.container.startSent = false ∧ (s.container.phase = .absent ∨ s.container.phase = .created)
  /-- Nothing is requested against the container before there is a stream. -/
  spared : s.pc = .creating ∨ s.pc = .attaching ∨ s.pc = .starting →
    s.container.killSent = false ∧ s.container.removeSent = false

theorem inv_start (now : Nat) : (start now).Inv := by
  refine ⟨?_, ?_, ?_, ?_, ?_⟩
  · intro hover
    cases hover
  · intro _
    rfl
  · intro _ hpc
    exact absurd rfl hpc
  · intro _
    exact ⟨rfl, Or.inl rfl⟩
  · intro _
    exact ⟨rfl, rfl⟩

end ExecStream

/-! ### The steps -/

/-- The output an item carries. -/
def AttachItem.chunk : AttachItem → Option ExecEvent
  | .stdOut message => some (.stdout message)
  | .stdErr message => some (.stderr message)
  | _ => none

theorem isEnd_of_chunk {item : AttachItem} {e : ExecEvent} (h : item.chunk = some e) :
    item.isEnd = false := by
  cases item <;> cases h <;> rfl

theorem chunk_of_isEnd {item : AttachItem} (h : item.isEnd = true) : item.chunk = none := by
  cases item <;> cases h <;> rfl

namespace ExecStream

variable {s : ExecStream}

/-- The loop is left, or goes on. -/
theorem loop_cases :
    (s.loop = s ∧ (s.attachDone = true → s.waitDone = false)) ∨
      s.waitDone = true ∧ s.attachDone = true ∧
        s.loop = s.finish (s.pendingExit.getD (-1)) false := by
  unfold loop
  split
  · rename_i hdone
    exact Or.inr ⟨hdone.1, hdone.2, rfl⟩
  · rename_i hmore
    refine Or.inl ⟨rfl, fun hdone => ?_⟩
    by_contra hwait
    rw [Bool.not_eq_false] at hwait
    exact hmore ⟨hwait, hdone⟩

/-- What an event leads to. -/
inductive Stepped (timeoutMs : Nat) (s : ExecStream) : CallEvent → ExecStream → Prop
  | tick (ms : Nat) : Stepped timeoutMs s (.tick ms) { s with clock := s.clock + ms }
  | daemon {e : DaemonEvent} {container : Container} (h : s.container.daemon e = some container) :
    Stepped timeoutMs s (.daemon e) { s with container }
  | createFails (message : String) (hpc : s.pc = .creating) :
    Stepped timeoutMs s (.createReply (.error message)) (s.fail message)
  | created (id : String) (hpc : s.pc = .creating) (hphase : s.container.phase ≠ .absent) :
    Stepped timeoutMs s (.createReply (.ok id))
      { s with pc := .attaching, containerId := some id, startedAt := s.clock }
  | attachFails (message : String) (hpc : s.pc = .attaching) :
    Stepped timeoutMs s (.attachReply (.error message)) (s.fail message)
  | attached (hpc : s.pc = .attaching) :
    Stepped timeoutMs s (.attachReply (.ok ()))
      { s with pc := .starting, container := s.container.sendStart }
  | startFails (message : String) (hpc : s.pc = .starting) :
    Stepped timeoutMs s (.startReply (.error message)) (s.fail message)
  | started (hpc : s.pc = .starting) (hphase : s.container.phase ≠ .created) :
    Stepped timeoutMs s (.startReply (.ok ()))
      { s with pc := .ready, launchedAt := some s.clock }
  | announce (hpc : s.pc = .ready) :
    Stepped timeoutMs s .poll
      ({ s with pc := .announced }.send (.started (s.containerId.getD "")))
  | enter (hpc : s.pc = .announced) :
    Stepped timeoutMs s .poll
      { s with pc := .selecting, guard := .armed, deadline := s.clock + timeoutMs }
  | resume (hpc : s.pc = .yielded) : Stepped timeoutMs s .poll { s with pc := .selecting }
  | exhaust (hpc : s.pc = .finished) : Stepped timeoutMs s .poll { s with pc := .ended }
  | chunk {item : AttachItem} {e : ExecEvent} (hpc : s.pc = .selecting)
    (hmore : s.attachDone = false) (hchunk : item.chunk = some e) :
    Stepped timeoutMs s (.attachItem item) ({ s with pc := .yielded }.send e)
  | skip (hpc : s.pc = .selecting) (hmore : s.attachDone = false) :
    Stepped timeoutMs s (.attachItem .other) s
  | outputEnds {item : AttachItem} (hpc : s.pc = .selecting) (hmore : s.attachDone = false)
    (hend : item.isEnd = true) (hwait : s.waitDone = false) :
    Stepped timeoutMs s (.attachItem item) { s with attachDone := true }
  | outputEndsLast {item : AttachItem} (hpc : s.pc = .selecting) (hmore : s.attachDone = false)
    (hend : item.isEnd = true) (hwait : s.waitDone = true) :
    Stepped timeoutMs s (.attachItem item)
      ({ s with attachDone := true }.finish (s.pendingExit.getD (-1)) false)
  | waited (item : WaitItem) (hpc : s.pc = .selecting) (hmore : s.waitDone = false)
    (hattach : s.attachDone = false) :
    Stepped timeoutMs s (.waitItem item) { s with waitDone := true, pendingExit := exitOf item }
  | waitedLast (item : WaitItem) (hpc : s.pc = .selecting) (hmore : s.waitDone = false)
    (hattach : s.attachDone = true) :
    Stepped timeoutMs s (.waitItem item)
      ({ s with waitDone := true, pendingExit := exitOf item }.finish ((exitOf item).getD (-1))
        false)
  | expired (hpc : s.pc = .selecting) (hclock : s.deadline ≤ s.clock) :
    Stepped timeoutMs s .deadline
      { s with pc := .killing, guard := .disarmed, container := s.container.sendKill }
  | killed (hpc : s.pc = .killing) :
    Stepped timeoutMs s .killReply
      { s with pc := .removing, container := s.container.sendRemove }
  | removed (hpc : s.pc = .removing) : Stepped timeoutMs s .removeReply (s.finish (-1) true)
  | drop (hfailed : s.pc ≠ .failed) (hdropped : s.pc ≠ .dropped) :
    Stepped timeoutMs s .drop { s with pc := .dropped, container := s.dropGuard }

theorem attachItem_cases {timeoutMs : Nat} {item : AttachItem} {s' : ExecStream}
    (h : s.step timeoutMs (.attachItem item) = some s') :
    Stepped timeoutMs s (.attachItem item) s' := by
  simp only [step] at h
  split at h
  · rename_i hpc
    obtain ⟨hpc, hmore⟩ := hpc
    obtain rfl := Option.some.inj h
    -- an item that ends the output may end the loop, the others do not
    have hloop : ∀ t : ExecStream, t.attachDone = false → t.loop = t := by
      intro t ht
      rw [loop, if_neg]
      rintro ⟨-, hdone⟩
      rw [ht] at hdone
      cases hdone
    have hends : ∀ item : AttachItem, item.isEnd = true →
        Stepped timeoutMs s (.attachItem item) { s with attachDone := true }.loop := by
      intro item hend
      rcases loop_cases (s := { s with attachDone := true }) with ⟨heq, hwait⟩ | ⟨hwait, -, heq⟩
      · rw [heq]
        exact .outputEnds hpc hmore hend (hwait rfl)
      · rw [heq]
        exact .outputEndsLast hpc hmore hend hwait
    cases item with
    | stdOut message =>
      rw [hloop _ (by exact hmore)]
      exact .chunk hpc hmore rfl
    | stdErr message =>
      rw [hloop _ (by exact hmore)]
      exact .chunk hpc hmore rfl
    | other =>
      rw [collect, hloop s hmore]
      exact .skip hpc hmore
    | error => exact hends .error rfl
    | ended => exact hends .ended rfl
  · cases h

theorem waitItem_cases {timeoutMs : Nat} {item : WaitItem} {s' : ExecStream}
    (h : s.step timeoutMs (.waitItem item) = some s') :
    Stepped timeoutMs s (.waitItem item) s' := by
  simp only [step] at h
  split at h
  · rename_i hpc
    obtain ⟨hpc, hmore⟩ := hpc
    obtain rfl := Option.some.inj h
    rcases loop_cases (s := { s with waitDone := true, pendingExit := exitOf item }) with
      ⟨heq, hattach⟩ | ⟨-, hattach, heq⟩
    · rw [heq]
      refine .waited item hpc hmore ?_
      by_contra hdone
      rw [Bool.not_eq_false] at hdone
      cases hattach hdone
    · rw [heq]
      exact .waitedLast item hpc hmore hattach
  · cases h

theorem poll_cases {timeoutMs : Nat} {s' : ExecStream} (h : s.step timeoutMs .poll = some s') :
    Stepped timeoutMs s .poll s' := by
  simp only [step] at h
  split at h
  · rename_i hpc
    obtain rfl := Option.some.inj h
    exact .announce hpc
  · rename_i hpc
    obtain rfl := Option.some.inj h
    exact .enter hpc
  · rename_i hpc
    obtain rfl := Option.some.inj h
    exact .resume hpc
  · rename_i hpc
    obtain rfl := Option.some.inj h
    exact .exhaust hpc
  · cases h

/-- Every step is one of these. -/
theorem step_cases {timeoutMs : Nat} {e : CallEvent} {s' : ExecStream}
    (h : s.step timeoutMs e = some s') : Stepped timeoutMs s e s' := by
  cases e with
  | tick ms =>
    obtain rfl := Option.some.inj h
    exact .tick ms
  | daemon e =>
    simp only [step] at h
    rcases hdaemon : s.container.daemon e with _ | container
    · simp [hdaemon] at h
    · simp only [hdaemon] at h
      obtain rfl := Option.some.inj h
      exact .daemon hdaemon
  | createReply reply =>
    simp only [step] at h
    split at h
    · rename_i hpc
      rcases reply with message | id
      · obtain rfl := Option.some.inj h
        exact .createFails message hpc
      · simp only at h
        split at h
        · cases h
        · rename_i hphase
          obtain rfl := Option.some.inj h
          exact .created id hpc hphase
    · cases h
  | attachReply reply =>
    simp only [step] at h
    split at h
    · rename_i hpc
      rcases reply with message | _
      · obtain rfl := Option.some.inj h
        exact .attachFails message hpc
      · obtain rfl := Option.some.inj h
        exact .attached hpc
    · cases h
  | startReply reply =>
    simp only [step] at h
    split at h
    · rename_i hpc
      rcases reply with message | _
      · obtain rfl := Option.some.inj h
        exact .startFails message hpc
      · simp only at h
        split at h
        · cases h
        · rename_i hphase
          obtain rfl := Option.some.inj h
          exact .started hpc hphase
    · cases h
  | attachItem item => exact attachItem_cases h
  | waitItem item => exact waitItem_cases h
  | deadline =>
    simp only [step] at h
    split at h
    · rename_i hpc
      obtain rfl := Option.some.inj h
      exact .expired hpc.1 hpc.2
    · cases h
  | killReply =>
    simp only [step] at h
    split at h
    · rename_i hpc
      obtain rfl := Option.some.inj h
      exact .killed hpc
    · cases h
  | removeReply =>
    simp only [step] at h
    split at h
    · rename_i hpc
      obtain rfl := Option.some.inj h
      exact .removed hpc
    · cases h
  | poll => exact poll_cases h
  | drop =>
    simp only [step] at h
    split at h
    · cases h
    · rename_i hpc
      obtain rfl := Option.some.inj h
      rw [not_or] at hpc
      exact .drop hpc.1 hpc.2

/-! ### What the steps keep -/

theorem waiting_of_pc (h : s.pc ≠ .ended ∧ s.pc ≠ .failed ∧ s.pc ≠ .dropped) :
    s.isOver = false := by
  unfold isOver
  split <;> simp_all

theorem over_iff : s.isOver = true ↔ s.pc = .ended ∨ s.pc = .failed ∨ s.pc = .dropped := by
  unfold isOver
  split <;> simp_all

theorem tidy_of_waiting (h : s.isOver = false) : s.Tidy := by
  intro hover
  rw [h] at hover
  cases hover

/-- While nothing has been requested, only a container that is over is clean. -/
theorem cleaned_iff_over {c : Container} (h : c.killSent = false ∧ c.removeSent = false) :
    c.Cleaned ↔ c.Over := by
  simp [Container.Cleaned, h.1, h.2]

theorem tidy_of_over (h : s.isOver = true) :
    s.Tidy ↔ (s.containerId.isSome → s.container.Cleaned) := by
  simp [Tidy, h]

/-- A call that waits, and is past its creation, knows its container. -/
theorem Inv.isSome (hinv : s.Inv)
    (hpc : s.pc ≠ .creating ∧ s.pc ≠ .ended ∧ s.pc ≠ .failed ∧ s.pc ≠ .dropped) :
    s.containerId.isSome :=
  hinv.named (waiting_of_pc hpc.2) hpc.1

/-- The guard cleans up. -/
theorem cleaned_dropGuard (h : s.guard = .armed) : s.dropGuard.Cleaned := by
  rw [dropGuard, if_pos h]
  exact Or.inr ⟨rfl, rfl⟩

/-- A step leaves a container behind exactly when it is not careful. -/
theorem tidy_step_iff {timeoutMs : Nat} {e : CallEvent} {s' : ExecStream} (hinv : s.Inv)
    (h : s.step timeoutMs e = some s') : s'.Tidy ↔ s.Careful e := by
  cases step_cases h with
  | tick ms => exact iff_of_true hinv.tidy trivial
  | daemon hdaemon =>
    refine iff_of_true (fun hover hid => ?_) trivial
    exact (hinv.tidy hover hid).daemon hdaemon
  | createFails message hpc =>
    refine iff_of_true ?_ trivial
    rw [tidy_of_over rfl]
    simp [fail, hinv.creating hpc]
  | created id hpc hphase => exact iff_of_true (tidy_of_waiting rfl) trivial
  | attachFails message hpc =>
    -- the container was never started, and nothing is asked of it
    refine iff_of_false (fun htidy => ?_) id
    have hclean := htidy rfl (hinv.isSome (by simp [hpc]))
    rw [fail, cleaned_iff_over (hinv.spared (Or.inr (Or.inl hpc)))] at hclean
    have hphase := (hinv.unstarted (Or.inr hpc)).2
    rcases hclean with hover | hover <;> simp [hover] at hphase
  | attached hpc => exact iff_of_true (tidy_of_waiting rfl) trivial
  | startFails message hpc =>
    have hid : s.containerId.isSome := hinv.isSome (by simp [hpc])
    have hspared := hinv.spared (Or.inr (Or.inr hpc))
    rw [tidy_of_over rfl, fail, cleaned_iff_over hspared]
    exact ⟨fun htidy => htidy hid, fun hover _ => hover⟩
  | started hpc hphase => exact iff_of_true (tidy_of_waiting rfl) trivial
  | announce hpc => exact iff_of_true (tidy_of_waiting rfl) (by simp [Careful, hpc])
  | enter hpc => exact iff_of_true (tidy_of_waiting rfl) (by simp [Careful, hpc])
  | resume hpc => exact iff_of_true (tidy_of_waiting rfl) (by simp [Careful, hpc])
  | exhaust hpc =>
    have hid : s.containerId.isSome := hinv.isSome (by simp [hpc])
    rw [tidy_of_over rfl]
    exact ⟨fun htidy _ => htidy hid, fun hclean _ => hclean hpc⟩
  | chunk hpc hmore hchunk => exact iff_of_true (tidy_of_waiting rfl) trivial
  | skip hpc hmore => exact iff_of_true hinv.tidy trivial
  | outputEnds hpc hmore hend hwait =>
    exact iff_of_true (tidy_of_waiting (waiting_of_pc (by simp [hpc]))) trivial
  | outputEndsLast hpc hmore hend hwait => exact iff_of_true (tidy_of_waiting rfl) trivial
  | waited item hpc hmore hattach =>
    exact iff_of_true (tidy_of_waiting (waiting_of_pc (by simp [hpc]))) trivial
  | waitedLast item hpc hmore hattach => exact iff_of_true (tidy_of_waiting rfl) trivial
  | expired hpc hclock => exact iff_of_true (tidy_of_waiting rfl) trivial
  | killed hpc => exact iff_of_true (tidy_of_waiting rfl) trivial
  | removed hpc => exact iff_of_true (tidy_of_waiting rfl) trivial
  | drop hfailed hdropped =>
    rw [tidy_of_over rfl]
    by_cases harmed : s.guard = .armed
    · exact iff_of_true (fun _ => cleaned_dropGuard harmed) (Or.inl harmed)
    · simp [Careful, dropGuard, harmed]

/-- Of a call that is over the invariant says no more than that it is tidy. -/
theorem inv_of_over (htidy : s.Tidy) (hover : s.isOver = true) : s.Inv := by
  rw [over_iff] at hover
  refine ⟨htidy, ?_, ?_, ?_, ?_⟩
  · intro hpc
    simp [hpc] at hover
  · intro hwaiting
    rw [← over_iff, hwaiting] at hover
    cases hover
  · rintro (hpc | hpc) <;> simp [hpc] at hover
  · rintro (hpc | hpc | hpc) <;> simp [hpc] at hover

/-- With a stream in hand the invariant says no more than that the container is known. -/
theorem inv_of_streaming (hid : s.containerId.isSome) (hwaiting : s.isOver = false)
    (hpc : s.pc ≠ .creating ∧ s.pc ≠ .attaching ∧ s.pc ≠ .starting) : s.Inv := by
  refine ⟨tidy_of_waiting hwaiting, fun h => absurd h hpc.1, fun _ _ => hid, ?_, ?_⟩
  · rintro (h | h)
    · exact absurd h hpc.1
    · exact absurd h hpc.2.1
  · rintro (h | h | h)
    · exact absurd h hpc.1
    · exact absurd h hpc.2.1
    · exact absurd h hpc.2.2

theorem inv_step {timeoutMs : Nat} {e : CallEvent} {s' : ExecStream} (hinv : s.Inv)
    (hcareful : s.Careful e) (h : s.step timeoutMs e = some s') : s'.Inv := by
  have htidy := (tidy_step_iff hinv h).mpr hcareful
  cases step_cases h with
  | tick ms => exact ⟨htidy, hinv.creating, hinv.named, hinv.unstarted, hinv.spared⟩
  | daemon hdaemon =>
    obtain ⟨hstart, hkill, hremove⟩ := Container.daemon_requests hdaemon
    refine ⟨htidy, hinv.creating, hinv.named, ?_, ?_⟩
    · intro hpc
      obtain ⟨hunstarted, hphase⟩ := hinv.unstarted hpc
      have hspared := hinv.spared (hpc.imp_right Or.inl)
      exact ⟨hstart.trans hunstarted,
        Container.unstarted_of_daemon hdaemon hunstarted hspared.2 hphase⟩
    · intro hpc
      simpa [hkill, hremove] using hinv.spared hpc
  | createFails message hpc => exact inv_of_over htidy rfl
  | created id hpc hphase =>
    exact ⟨htidy, by simp, fun _ _ => rfl, fun _ => hinv.unstarted (Or.inl hpc),
      fun _ => hinv.spared (Or.inl hpc)⟩
  | attachFails message hpc => exact inv_of_over htidy rfl
  | attached hpc =>
    have hid := hinv.isSome (by simp [hpc])
    exact ⟨htidy, by simp, fun _ _ => hid, by simp, fun _ => hinv.spared (Or.inr (Or.inl hpc))⟩
  | startFails message hpc => exact inv_of_over htidy rfl
  | started hpc hphase => exact inv_of_streaming (hinv.isSome (by simp [hpc])) rfl (by simp)
  | announce hpc => exact inv_of_streaming (hinv.isSome (by simp [hpc])) rfl (by simp [send])
  | enter hpc => exact inv_of_streaming (hinv.isSome (by simp [hpc])) rfl (by simp)
  | resume hpc => exact inv_of_streaming (hinv.isSome (by simp [hpc])) rfl (by simp)
  | exhaust hpc => exact inv_of_over htidy rfl
  | chunk hpc hmore hchunk =>
    exact inv_of_streaming (hinv.isSome (by simp [hpc])) rfl (by simp [send])
  | skip hpc hmore => exact hinv
  | outputEnds hpc hmore hend hwait =>
    exact inv_of_streaming (hinv.isSome (by simp [hpc])) (waiting_of_pc (by simp [hpc]))
      (by simp [hpc])
  | outputEndsLast hpc hmore hend hwait =>
    exact inv_of_streaming (hinv.isSome (by simp [hpc])) rfl (by simp [finish, send])
  | waited item hpc hmore hattach =>
    exact inv_of_streaming (hinv.isSome (by simp [hpc])) (waiting_of_pc (by simp [hpc]))
      (by simp [hpc])
  | waitedLast item hpc hmore hattach =>
    exact inv_of_streaming (hinv.isSome (by simp [hpc])) rfl (by simp [finish, send])
  | expired hpc hclock => exact inv_of_streaming (hinv.isSome (by simp [hpc])) rfl (by simp)
  | killed hpc => exact inv_of_streaming (hinv.isSome (by simp [hpc])) rfl (by simp)
  | removed hpc =>
    exact inv_of_streaming (hinv.isSome (by simp [hpc])) rfl (by simp [finish, send])
  | drop hfailed hdropped => exact inv_of_over htidy rfl

/-- **What `exec_stream` leaves behind.**  In a run of careful steps a stream that is
    gone has left its container exited, removed, or with both the kill and the removal
    requested; and a step breaks this exactly when it is not careful. -/
theorem stream_tidy (timeoutMs now : Nat) {s : ExecStream}
    (h : Reaches (step timeoutMs) Careful (start now) s) :
    s.Tidy ∧ ∀ e s', s.step timeoutMs e = some s' → (s'.Tidy ↔ s.Careful e) := by
  have hinv : s.Inv := h.invariant (inv_start now) fun t e t' ht he hstep => inv_step ht he hstep
  exact ⟨hinv.tidy, fun e s' hstep => tidy_step_iff hinv hstep⟩

/-- A call whose stream is obtained and polled once. -/
def announcedRun : List CallEvent :=
  [.daemon .creates, .createReply (.ok "c1"), .attachReply (.ok ()), .daemon .starts,
    .startReply (.ok ()), .poll]

/-- A call whose command outlives the timeout, read to its end. -/
def timedOutRun : List CallEvent :=
  announcedRun ++ [.poll, .tick 10, .deadline, .killReply, .removeReply, .poll]

/-- The timeout leaves the container with a kill and a removal on the way. -/
theorem stream_tidy_timeout :
    ∃ s, run (step 10) (start 0) timedOutRun = some s ∧ s.isOver = true ∧ s.Tidy :=
  ⟨_, rfl, rfl,
    (stream_tidy 10 0 (reaches_of_fine timedOutRun rfl (by decide))).1⟩

/-- The consumer leaves between `Started` and the first poll of the generator: the
    container runs on. -/
theorem stream_leaks :
    ¬ ∀ s, Reaches (step 10) Free (start 0) s → s.Tidy := by
  intro htidy
  have hreach := reaches_of_run (step 10) (start 0)
    (announcedRun ++ [.drop]) rfl
  exact absurd (htidy _ hreach rfl rfl) (by decide)

end ExecStream

end Scriptorium
