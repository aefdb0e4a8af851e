import Scriptorium.ExecStream

/-!
# `ExecStream` and `Exec` on one order of events

Both calls listen to the same three sources: the items of the attach stream, the
result of the wait, and the deadline.  `Account` says what an order of these comes
to, without either machine: the output so far, whether the output has ended, the
exit code, and whether the deadline came first.  Each machine is at any time a
function of the account of what it has consumed (`ExecStream.Agrees`,
`Oneshot.Agrees`), so the two agree on every order (`stream_refines_oneshot`).
-/

namespace Scriptorium

open Transitions

/-- What happens to a call from outside, in one global order. -/
inductive Happening where
  | output (item : AttachItem)
  | exit (item : WaitItem)
  | deadline
deriving DecidableEq

def CallEvent.happening : CallEvent → Option Happening
  | .attachItem item => some (.output item)
  | .waitItem item => some (.exit item)
  | .deadline => some .deadline
  | _ => none

/-- The order in which a run consumes what happens. -/
def orderOf (es : List CallEvent) : List Happening := es.filterMap CallEvent.happening

/-! ### What an order of events comes to -/

structure Account where
  chunks : List ExecEvent
  attachDone : Bool
  exit : Option Int
  expired : Bool
deriving DecidableEq

namespace Account

def empty : Account := ⟨[], false, none, false⟩

variable (a : Account)

/-- Both sides have ended, or the deadline has come. -/
def settled : Bool := a.expired || (a.attachDone && a.exit.isSome)

/-- Whether a call at this point still listens to the source. -/
def accepts : Happening → Bool
  | .output _ => !a.settled && !a.attachDone
  | .exit _ => !a.settled && a.exit.isNone
  | .deadline => !a.settled

def add : Happening → Account
  | .output item =>
    { a with chunks := a.chunks ++ item.chunk.toList, attachDone := a.attachDone || item.isEnd }
  | .exit item => { a with exit := some ((ExecStream.exitOf item).getD (-1)) }
  | .deadline => { a with expired := true }

/-- Of the events from here on, those that are listened to. -/
def consumed : Account → List Happening → List Happening
  | _, [] => []
  | a, h :: hs => if a.accepts h then h :: consumed (a.add h) hs else consumed a hs

/-- The account after the given events. -/
def after (hs : List Happening) : Account := (a.consumed hs).foldl add a

def exitCode : Int := if a.expired then -1 else a.exit.getD (-1)

variable {a : Account}

theorem settled_eq_false :
    a.settled = false ↔ a.expired = false ∧ (a.attachDone = true → a.exit = none) := by
  rcases hexit : a.exit with _ | code <;> simp [settled, hexit]

theorem open_of_accepts {happening : Happening} (h : a.accepts happening = true) :
    a.settled = false := by
  cases happening <;> simp_all [accepts]

theorem accepts_output (h : a.settled = false) (hattach : a.attachDone = false)
    (item : AttachItem) : a.accepts (.output item) = true := by
  simp [accepts, h, hattach]

theorem accepts_exit (h : a.settled = false) (hexit : a.exit.isSome = false) (item : WaitItem) :
    a.accepts (.exit item) = true := by
  simp [accepts, h, ← Option.not_isSome, hexit]

end Account

/-- The bytes of the `Stdout` chunks, in order. -/
def stdoutOf (es : List ExecEvent) : List UInt8 :=
  es.flatMap fun
    | .stdout data => data
    | _ => []

/-- The bytes of the `Stderr` chunks, in order. -/
def stderrOf (es : List ExecEvent) : List UInt8 :=
  es.flatMap fun
    | .stderr data => data
    | _ => []

def ExecEvent.isChunk : ExecEvent → Bool
  | .stdout _ | .stderr _ => true
  | _ => false

theorem isChunk_of_chunk {item : AttachItem} {e : ExecEvent} (h : item.chunk = some e) :
    e.isChunk = true := by
  cases item <;> cases h <;> rfl

/-- An account holds output chunks only. -/
theorem Account.isChunk_of_mem_chunks (hs : List Happening) {a : Account}
    (h : ∀ e ∈ a.chunks, e.isChunk = true) :
    ∀ e ∈ (hs.foldl Account.add a).chunks, e.isChunk = true := by
  induction hs generalizing a with
  | nil => exact h
  | cons happening hs ih =>
    refine ih fun e he => ?_
    cases happening with
    | output item =>
      rw [Account.add, List.mem_append, Option.mem_toList] at he
      rcases he with he | he
      · exact h e he
      · exact isChunk_of_chunk he
    | exit item => exact h e he
    | deadline => exact h e he

/-- Both calls make the same exit code of the wait. -/
theorem exitCode32_waitResult (item : WaitItem) :
    exitCode32 (Oneshot.waitResult item) = (ExecStream.exitOf item).getD (-1) := by
  cases item <;> rfl

/-- The account of a run, event by event. -/
def Account.note (a : Account) (e : CallEvent) : Account :=
  match e.happening with
  | none => a
  | some h => a.add h

theorem foldl_note (a : Account) (es : List CallEvent) :
    es.foldl Account.note a = (orderOf es).foldl Account.add a := by
  induction es generalizing a with
  | nil => rfl
  | cons e es ih =>
    rw [List.foldl_cons, ih]
    unfold orderOf Account.note
    rcases h : e.happening with _ | happening
    · rw [List.filterMap_cons_none h]
    · rw [List.filterMap_cons_some h, List.foldl_cons]

/-- The event is one a call at this point listens to, if it comes from outside. -/
def Account.Hears (a : Account) (e : CallEvent) : Prop :=
  ∀ happening, e.happening = some happening → a.accepts happening = true

theorem quiet {P : Account → Prop} {a : Account} {e : CallEvent} (hnone : e.happening = none)
    (h : P a) : P (a.note e) ∧ a.Hears e := by
  rw [Account.note, hnone]
  refine ⟨h, fun happening hsome => ?_⟩
  rw [hnone] at hsome
  cases hsome

theorem heard {P : Account → Prop} {a : Account} {e : CallEvent} {happening : Happening}
    (hsome : e.happening = some happening) (haccepts : a.accepts happening = true)
    (h : P (a.add happening)) : P (a.note e) ∧ a.Hears e := by
  rw [Account.note, hsome]
  refine ⟨h, fun other hother => ?_⟩
  rw [hsome] at hother
  obtain rfl := Option.some.inj hother
  exact haccepts

theorem orderOf_append (es es' : List CallEvent) :
    orderOf (es ++ es') = orderOf es ++ orderOf es' := List.filterMap_append

/-- The requests and replies that get a container started. -/
def launch : List CallEvent :=
  [.daemon .creates, .createReply (.ok "c1"), .attachReply (.ok ()), .daemon .starts,
    .startReply (.ok ())]

theorem orderOf_launch : orderOf launch = [] := rfl

section Runs

variable {S : Type} {step : S → CallEvent → Option S} {Agrees : S → Account → Prop}

/-- The account follows a run. -/
theorem agrees_run
    (hstep : ∀ {s s' a e}, Agrees s a → step s e = some s' → Agrees s' (a.note e) ∧ a.Hears e)
    {es : List CallEvent} {s s' : S} {a : Account} (hagrees : Agrees s a)
    (h : run step s es = some s') : Agrees s' ((orderOf es).foldl Account.add a) := by
  rw [← foldl_note]
  induction es generalizing s a with
  | nil =>
    obtain rfl := Option.some.inj h
    exact hagrees
  | cons e es ih =>
    unfold run at h
    split at h
    · cases h
    · rename_i t hnext
      exact ih (hstep hagrees hnext).1 h

/-- A machine that can take in whatever its account accepts can take in any order. -/
theorem exists_run {Listens : S → Prop}
    (hstep : ∀ {s s' a e}, Agrees s a → step s e = some s' → Agrees s' (a.note e) ∧ a.Hears e)
    (hlistens : ∀ {s a happening}, Listens s → Agrees s a → a.accepts happening = true →
      ∃ es s', run step s es = some s' ∧ orderOf es = [happening] ∧ Listens s')
    (hs : List Happening) {s : S} {a : Account} (hlisten : Listens s) (hagrees : Agrees s a) :
    ∃ es s', run step s es = some s' ∧ orderOf es = a.consumed hs ∧ Listens s' := by
  induction hs generalizing s a with
  | nil => exact ⟨[], s, rfl, rfl, hlisten⟩
  | cons happening hs ih =>
    rw [Account.consumed]
    split
    · rename_i haccepts
      obtain ⟨es, t, hrun, horder, hlisten'⟩ := hlistens hlisten hagrees haccepts
      have hagrees' := agrees_run hstep hagrees hrun
      rw [horder] at hagrees'
      obtain ⟨es', s', hrun', horder', hlisten''⟩ := ih hlisten' hagrees'
      refine ⟨es ++ es', s', run_append hrun hrun', ?_, hlisten''⟩
      rw [orderOf_append, horder, horder']
      rfl
    · exact ih hlisten hagrees

end Runs

/-! ### The account of `exec_stream` -/

namespace ExecStream

/-- How a call stands to the account of what it has consumed. -/
def Agrees (s : ExecStream) (a : Account) : Prop :=
  match s.pc with
  | .creating | .attaching | .starting | .ready =>
    s.sent = [] ∧ s.attachDone = false ∧ s.waitDone = false ∧ a = .empty
  | .announced =>
    s.sent = [.started (s.containerId.getD "")] ∧ s.attachDone = false ∧ s.waitDone = false ∧
      a = .empty
  | .selecting | .yielded =>
    s.sent = .started (s.containerId.getD "") :: a.chunks ∧ s.attachDone = a.attachDone ∧
      s.waitDone = a.exit.isSome ∧
        (s.waitDone = true → s.pendingExit.getD (-1) = a.exit.getD (-1)) ∧
      a.settled = false
  | .killing | .removing =>
    s.sent = .started (s.containerId.getD "") :: a.chunks ∧ a.expired = true
  | .finished | .ended =>
    a.settled = true ∧ ∃ ms, s.sent =
      .started (s.containerId.getD "") :: a.chunks ++ [.finished a.exitCode ms a.expired]
  | .failed | .dropped => True

theorem agrees_start (now : Nat) : (start now).Agrees .empty := ⟨rfl, rfl, rfl, rfl⟩

theorem agrees_selecting {s : ExecStream} {a : Account} (hpc : s.pc = .selecting) :
    s.Agrees a ↔
      s.sent = .started (s.containerId.getD "") :: a.chunks ∧ s.attachDone = a.attachDone ∧
        s.waitDone = a.exit.isSome ∧
        (s.waitDone = true → s.pendingExit.getD (-1) = a.exit.getD (-1)) ∧ a.settled = false := by
  simp only [Agrees, hpc]

/-- A call listens to what its account accepts, and the account follows it. -/
theorem agrees_step {timeoutMs : Nat} {s s' : ExecStream} {a : Account} {e : CallEvent}
    (hagrees : s.Agrees a) (h : s.step timeoutMs e = some s') :
    s'.Agrees (a.note e) ∧ a.Hears e := by
  cases step_cases h with
  | tick ms => exact quiet rfl hagrees
  | daemon hdaemon => exact quiet rfl hagrees
  | createFails message hpc => exact quiet rfl trivial
  | created id hpc hphase =>
    simp only [Agrees, hpc] at hagrees
    exact quiet rfl hagrees
  | attachFails message hpc => exact quiet rfl trivial
  | attached hpc =>
    simp only [Agrees, hpc] at hagrees
    exact quiet rfl hagrees
  | startFails message hpc => exact quiet rfl trivial
  | started hpc hphase =>
    simp only [Agrees, hpc] at hagrees
    exact quiet rfl hagrees
  | announce hpc =>
    simp only [Agrees, hpc] at hagrees
    obtain ⟨hsent, hattach, hwait, rfl⟩ := hagrees
    exact quiet rfl ⟨by simp [send, hsent], hattach, hwait, rfl⟩
  | enter hpc =>
    simp only [Agrees, hpc] at hagrees
    obtain ⟨hsent, hattach, hwait, rfl⟩ := hagrees
    exact quiet rfl ⟨hsent, hattach, hwait, by simp [hwait], rfl⟩
  | resume hpc =>
    simp only [Agrees, hpc] at hagrees
    exact quiet rfl hagrees
  | exhaust hpc =>
    simp only [Agrees, hpc] at hagrees
    exact quiet rfl hagrees
  | chunk hpc hmore hchunk =>
    obtain ⟨hsent, hattach, hwait, hexit, hopen⟩ := (agrees_selecting hpc).mp hagrees
    have haccepts := Account.accepts_output hopen (hattach ▸ hmore)
    refine heard rfl (haccepts _) ⟨?_, ?_, hwait, hexit, ?_⟩
    · simp [send, hsent, Account.add, hchunk]
    · simp [send, Account.add, isEnd_of_chunk hchunk, hattach]
    · simpa [Account.settled, Account.add, isEnd_of_chunk hchunk] using hopen
  | skip hpc hmore =>
    obtain ⟨hsent, hattach, hwait, hexit, hopen⟩ := (agrees_selecting hpc).mp hagrees
    have haccepts := Account.accepts_output hopen (hattach ▸ hmore)
    have hsame : a.add (.output .other) = a := by
      simp [Account.add, AttachItem.chunk, AttachItem.isEnd]
    exact heard rfl (haccepts _) (hsame.symm ▸ hagrees)
  | outputEnds hpc hmore hend hwait =>
    obtain ⟨hsent, hattach, hwait', hexit, hopen⟩ := (agrees_selecting hpc).mp hagrees
    have haccepts := Account.accepts_output hopen (hattach ▸ hmore)
    rw [hwait, eq_comm, Option.isSome_eq_false_iff, Option.isNone_iff_eq_none] at hwait'
    refine heard rfl (haccepts _) ((agrees_selecting (by exact hpc)).mpr ⟨?_, ?_, ?_, ?_, ?_⟩)
    · simp [hsent, Account.add, chunk_of_isEnd hend]
    · simp [Account.add, hend]
    · simp [Account.add, hwait, hwait']
    · simp [hwait]
    · simpa [Account.settled, Account.add, hwait'] using (Account.settled_eq_false.mp hopen).1
  | outputEndsLast hpc hmore hend hwait =>
    obtain ⟨hsent, hattach, hwait', hexit, hopen⟩ := (agrees_selecting hpc).mp hagrees
    have haccepts := Account.accepts_output hopen (hattach ▸ hmore)
    have hexpired := (Account.settled_eq_false.mp hopen).1
    refine heard rfl (haccepts _) ⟨?_, durationMs s.startedAt s.clock, ?_⟩
    · simp [Account.settled, Account.add, hend, ← hwait', hwait]
    · simp [finish, send, hsent, Account.add, chunk_of_isEnd hend, Account.exitCode, hexpired,
        hexit hwait]
  | waited item hpc hmore hattach =>
    obtain ⟨hsent, hattach', hwait, hexit, hopen⟩ := (agrees_selecting hpc).mp hagrees
    have haccepts := Account.accepts_exit hopen (hwait ▸ hmore)
    refine heard rfl (haccepts _)
      ((agrees_selecting (by exact hpc)).mpr ⟨hsent, hattach', rfl, fun _ => rfl, ?_⟩)
    simpa [Account.settled, Account.add, ← hattach', hattach]
      using (Account.settled_eq_false.mp hopen).1
  | waitedLast item hpc hmore hattach =>
    obtain ⟨hsent, hattach', hwait, hexit, hopen⟩ := (agrees_selecting hpc).mp hagrees
    have haccepts := Account.accepts_exit hopen (hwait ▸ hmore)
    have hexpired := (Account.settled_eq_false.mp hopen).1
    refine heard rfl (haccepts _) ⟨?_, durationMs s.startedAt s.clock, ?_⟩
    · simp [Account.settled, Account.add, ← hattach', hattach]
    · simp [finish, send, hsent, Account.add, Account.exitCode, hexpired]
  | expired hpc hclock =>
    obtain ⟨hsent, hattach, hwait, hexit, hopen⟩ := (agrees_selecting hpc).mp hagrees
    exact heard rfl (by simp [Account.accepts, hopen]) ⟨hsent, rfl⟩
  | killed hpc =>
    simp only [Agrees, hpc] at hagrees
    exact quiet rfl hagrees
  | removed hpc =>
    simp only [Agrees, hpc] at hagrees
    obtain ⟨hsent, hexpired⟩ := hagrees
    refine quiet rfl ⟨by simp [Account.settled, hexpired], durationMs s.startedAt s.clock, ?_⟩
    simp [finish, send, hsent, Account.exitCode, hexpired]
  | drop hfailed hdropped => exact quiet rfl trivial

/-- The states of a call whose generator runs or has finished. -/
def Listens (s : ExecStream) : Prop := s.pc = .selecting ∨ s.pc = .killing ∨ s.pc = .finished

theorem listens {timeoutMs : Nat} {s : ExecStream} {a : Account} {happening : Happening}
    (h : s.Listens) (hagrees : s.Agrees a) (haccepts : a.accepts happening = true) :
    ∃ es s', run (step timeoutMs) s es = some s' ∧ orderOf es = [happening] ∧ s'.Listens := by
  have hopen := Account.open_of_accepts haccepts
  rcases h with hpc | hpc | hpc
  · obtain ⟨-, hattach, hwait, -, -⟩ := (agrees_selecting hpc).mp hagrees
    have hloop : ∀ t : ExecStream, t.pc = .selecting → t.loop.Listens := by
      intro t ht
      rcases loop_cases (s := t) with ⟨heq, -⟩ | ⟨-, -, heq⟩
      · rw [heq]
        exact Or.inl ht
      · rw [heq]
        exact Or.inr (Or.inr rfl)
    cases happening with
    | output item =>
      simp only [Account.accepts, Bool.and_eq_true, Bool.not_eq_true'] at haccepts
      rw [haccepts.2] at hattach
      rcases hchunk : item.chunk with _ | e
      · refine ⟨[.attachItem item], (s.collect item).loop, ?_, rfl, hloop _ ?_⟩
        · simp [run, step, hpc, hattach]
        · cases item <;> first | exact hpc | cases hchunk
      · -- the consumer takes the chunk and polls again
        have hloop' : (s.collect item).loop = { s with pc := .yielded }.send e := by
          cases item <;> cases hchunk <;> simp [collect, loop, send, hattach]
        refine ⟨[.attachItem item, .poll],
          { { s with pc := .yielded }.send e with pc := .selecting }, ?_, rfl, Or.inl rfl⟩
        simp [run, step, hpc, hattach, hloop', send]
    | exit item =>
      simp only [Account.accepts, Bool.and_eq_true, Option.isNone_iff_eq_none] at haccepts
      rw [haccepts.2] at hwait
      refine ⟨[.waitItem item], { s with waitDone := true, pendingExit := exitOf item }.loop, ?_,
        rfl, hloop _ (by exact hpc)⟩
      simp [run, step, hpc, hwait]
    | deadline =>
      refine ⟨[.tick s.deadline, .deadline],
        { s with
          pc := .killing, clock := s.clock + s.deadline, guard := .disarmed,
          container := s.container.sendKill },
        ?_, rfl, Or.inr (Or.inl rfl)⟩
      simp [run, step, hpc]
  · simp only [Agrees, hpc] at hagrees
    simp [Account.settled, hagrees.2] at hopen
  · simp only [Agrees, hpc] at hagrees
    rw [hagrees.1] at hopen
    cases hopen

/-- Any order that comes to an end can be played to `exec_stream`, to the end of its
    stream. -/
theorem exists_drained (timeoutMs now : Nat) {hs : List Happening}
    (h : (Account.empty.after hs).settled = true) :
    ∃ es s, run (step timeoutMs) (start now) es = some s ∧
      orderOf es = Account.empty.consumed hs ∧ s.pc = .ended := by
  have hlaunched : ∃ t, run (step timeoutMs) (start now) (launch ++ [.poll, .poll]) = some t ∧
      t.pc = .selecting := ⟨_, rfl, rfl⟩
  obtain ⟨t, hrun, hpc⟩ := hlaunched
  have hagrees : t.Agrees .empty := agrees_run agrees_step (agrees_start now) hrun
  obtain ⟨es, s, hrun', horder, hlisten⟩ := exists_run agrees_step listens hs (Or.inl hpc) hagrees
  have hagrees' := agrees_run agrees_step hagrees hrun'
  rw [horder] at hagrees'
  have hfinish : ∃ es' u, run (step timeoutMs) s es' = some u ∧ orderOf es' = [] ∧
      u.pc = .ended := by
    rcases hlisten with hpc' | hpc' | hpc'
    · have hopen := ((agrees_selecting hpc').mp hagrees').2.2.2.2
      rw [Account.after] at h
      rw [h] at hopen
      cases hopen
    · -- the timeout's own requests come to an end
      refine ⟨[.killReply, .removeReply, .poll], ?_⟩
      simp [run, step, hpc', finish, send, orderOf, CallEvent.happening]
    · refine ⟨[.poll], ?_⟩
      simp [run, step, hpc', orderOf, CallEvent.happening]
  obtain ⟨es', u, hrun'', horder', hpc''⟩ := hfinish
  refine ⟨_, u, run_append hrun (run_append hrun' hrun''), ?_, hpc''⟩
  rw [orderOf_append (launch ++ _), orderOf_append es, horder, horder']
  exact List.append_nil _

end ExecStream

/-! ### The account of `exec_oneshot` -/

theorem stdoutOf_append (es es' : List ExecEvent) :
    stdoutOf (es ++ es') = stdoutOf es ++ stdoutOf es' := List.flatMap_append

theorem stderrOf_append (es es' : List ExecEvent) :
    stderrOf (es ++ es') = stderrOf es ++ stderrOf es' := List.flatMap_append

namespace Oneshot

/-- How a call stands to the account of what it has consumed. -/
def Agrees (s : Oneshot) (a : Account) : Prop :=
  match s.pc with
  | .creating | .attaching | .starting =>
    s.stdout = [] ∧ s.stderr = [] ∧ s.attachDone = false ∧ s.waitCode = none ∧ a = .empty
  | .joining =>
    s.stdout = stdoutOf a.chunks ∧ s.stderr = stderrOf a.chunks ∧ s.attachDone = a.attachDone ∧
      s.waitCode.map exitCode32 = a.exit ∧ a.settled = false
  | .killing | .removing =>
    s.stdout = stdoutOf a.chunks ∧ s.stderr = stderrOf a.chunks ∧ a.expired = true
  | .returned =>
    a.settled = true ∧ ∃ ms,
      s.result = some (.ok ⟨a.exitCode, stdoutOf a.chunks, stderrOf a.chunks, ms, a.expired⟩)
  | .failed | .dropped => True

theorem agrees_start (now : Nat) : (start now).Agrees .empty := ⟨rfl, rfl, rfl, rfl, rfl⟩

theorem agrees_joining {s : Oneshot} {a : Account} (hpc : s.pc = .joining) :
    s.Agrees a ↔
      s.stdout = stdoutOf a.chunks ∧ s.stderr = stderrOf a.chunks ∧ s.attachDone = a.attachDone ∧
        s.waitCode.map exitCode32 = a.exit ∧ a.settled = false := by
  simp only [Agrees, hpc]

/-- `collect` appends what the item carries. -/
theorem collect_output (s : Oneshot) (item : AttachItem) :
    (s.collect item).stdout = s.stdout ++ stdoutOf item.chunk.toList ∧
      (s.collect item).stderr = s.stderr ++ stderrOf item.chunk.toList := by
  cases item <;> simp [collect, AttachItem.chunk, stdoutOf, stderrOf]

/-- A call listens to what its account accepts, and the account follows it. -/
theorem agrees_step {timeoutMs : Nat} {s s' : Oneshot} {a : Account} {e : CallEvent}
    (hagrees : s.Agrees a) (h : s.step timeoutMs e = some s') :
    s'.Agrees (a.note e) ∧ a.Hears e := by
  have hmore : ∀ item s', s.step timeoutMs (.attachItem item) = some s' → s.attachDone = false := by
    intro item s' h
    simp only [step] at h
    split at h
    · rename_i hpc
      exact hpc.2
    · cases h
  have hlate : ∀ item s', s.step timeoutMs (.waitItem item) = some s' → s.waitCode = none := by
    intro item s' h
    simp only [step] at h
    split at h
    · rename_i hpc
      exact hpc.2
    · cases h
  cases step_cases h with
  | tick ms => exact quiet rfl hagrees
  | daemon hdaemon => exact quiet rfl hagrees
  | createFails message hpc => exact quiet rfl trivial
  | created id hpc hphase =>
    simp only [Agrees, hpc] at hagrees
    exact quiet rfl hagrees
  | attachFails message hpc => exact quiet rfl trivial
  | attached hpc =>
    simp only [Agrees, hpc] at hagrees
    exact quiet rfl hagrees
  | startFails message hpc => exact quiet rfl trivial
  | started hpc hphase =>
    simp only [Agrees, hpc] at hagrees
    obtain ⟨hstdout, hstderr, hattach, hwait, rfl⟩ := hagrees
    exact quiet rfl ⟨hstdout, hstderr, hattach, by simp [hwait, Account.empty], rfl⟩
  | output item hpc hnot =>
    obtain ⟨hstdout, hstderr, hattach, hwait, hopen⟩ := (agrees_joining hpc).mp hagrees
    have haccepts := Account.accepts_output hopen (hattach ▸ hmore _ _ h) item
    obtain ⟨hpc', hcontainer, hname, hwait', hdone⟩ := collect_fields (s := s) item
    obtain ⟨hout, herr⟩ := collect_output s item
    refine heard rfl haccepts ((agrees_joining (hpc'.trans hpc)).mpr ⟨?_, ?_, ?_, ?_, ?_⟩)
    · rw [hout, hstdout, Account.add, stdoutOf_append]
    · rw [herr, hstderr, Account.add, stderrOf_append]
    · rw [hdone, hattach, Account.add]
    · rw [hwait', hwait, Account.add]
    · rw [Account.settled_eq_false] at hopen ⊢
      refine ⟨hopen.1, fun hend => ?_⟩
      rw [Account.add, Bool.or_eq_true] at hend
      rcases hend with hend | hend
      · exact hopen.2 hend
      · rw [Account.add, ← hwait, hnot hend]
        rfl
  | outputLast item code hpc hend hcode =>
    obtain ⟨hstdout, hstderr, hattach, hwait, hopen⟩ := (agrees_joining hpc).mp hagrees
    have haccepts := Account.accepts_output hopen (hattach ▸ hmore _ _ h) item
    obtain ⟨hout, herr⟩ := collect_output s item
    have hexpired := (Account.settled_eq_false.mp hopen).1
    refine heard rfl haccepts ⟨?_, durationMs (s.collect item).startedAt (s.collect item).clock, ?_⟩
    · simp [Account.settled, Account.add, hend, ← hwait, hcode]
    · simp [finish, hout, herr, hstdout, hstderr, Account.add, Account.exitCode, hexpired,
        chunk_of_isEnd hend, stdoutOf, stderrOf, ← hwait, hcode]
  | waited item hpc hdone =>
    obtain ⟨hstdout, hstderr, hattach, hwait, hopen⟩ := (agrees_joining hpc).mp hagrees
    have hnone := hlate _ _ h
    have haccepts := Account.accepts_exit hopen (by simp [← hwait, hnone]) item
    refine heard rfl haccepts ((agrees_joining (by exact hpc)).mpr
      ⟨hstdout, hstderr, hattach, ?_, ?_⟩)
    · simp [Account.add, exitCode32_waitResult]
    · simpa [Account.settled, Account.add, ← hattach, hdone]
        using (Account.settled_eq_false.mp hopen).1
  | waitedLast item hpc hdone =>
    obtain ⟨hstdout, hstderr, hattach, hwait, hopen⟩ := (agrees_joining hpc).mp hagrees
    have hnone := hlate _ _ h
    have haccepts := Account.accepts_exit hopen (by simp [← hwait, hnone]) item
    have hexpired := (Account.settled_eq_false.mp hopen).1
    refine heard rfl haccepts ⟨?_, durationMs s.startedAt s.clock, ?_⟩
    · simp [Account.settled, Account.add, ← hattach, hdone]
    · simp [finish, hstdout, hstderr, Account.add, Account.exitCode, hexpired,
        exitCode32_waitResult]
  | expired hpc hclock =>
    obtain ⟨hstdout, hstderr, hattach, hwait, hopen⟩ := (agrees_joining hpc).mp hagrees
    exact heard rfl (by simp [Account.accepts, hopen]) ⟨hstdout, hstderr, rfl⟩
  | killed hpc =>
    simp only [Agrees, hpc] at hagrees
    exact quiet rfl hagrees
  | removed hpc =>
    simp only [Agrees, hpc] at hagrees
    obtain ⟨hstdout, hstderr, hexpired⟩ := hagrees
    refine quiet rfl ⟨by simp [Account.settled, hexpired], durationMs s.startedAt s.clock, ?_⟩
    simp [finish, hstdout, hstderr, Account.exitCode, hexpired]
  | drop hwaiting => exact quiet rfl trivial

/-- The states of a call whose container has been started, while no request of its own
    is on the way. -/
def Listens (s : Oneshot) : Prop := s.pc = .joining ∨ s.pc = .killing ∨ s.pc = .returned

theorem listens {timeoutMs : Nat} {s : Oneshot} {a : Account} {happening : Happening}
    (h : s.Listens) (hagrees : s.Agrees a) (haccepts : a.accepts happening = true) :
    ∃ es s', run (step timeoutMs) s es = some s' ∧ orderOf es = [happening] ∧ s'.Listens := by
  have hopen := Account.open_of_accepts haccepts
  rcases h with hpc | hpc | hpc
  · obtain ⟨-, -, hattach, hwait, -⟩ := (agrees_joining hpc).mp hagrees
    cases happening with
    | output item =>
      simp only [Account.accepts, Bool.and_eq_true, Bool.not_eq_true'] at haccepts
      refine ⟨[.attachItem item], (s.collect item).joined, ?_, rfl, ?_⟩
      · simp [run, step, hpc, hattach, haccepts.2]
      · obtain ⟨hpc', -⟩ := collect_fields (s := s) item
        rcases joined_cases (s := s.collect item) with ⟨heq, -⟩ | ⟨code, -, -, heq⟩
        · rw [heq]
          exact Or.inl (hpc'.trans hpc)
        · rw [heq]
          exact Or.inr (Or.inr rfl)
    | exit item =>
      simp only [Account.accepts, Bool.and_eq_true, Option.isNone_iff_eq_none] at haccepts
      rw [haccepts.2, Option.map_eq_none_iff] at hwait
      refine ⟨[.waitItem item], { s with waitCode := some (waitResult item) }.joined, ?_, rfl, ?_⟩
      · simp [run, step, hpc, hwait]
      · rcases joined_cases (s := { s with waitCode := some (waitResult item) }) with
          ⟨heq, -⟩ | ⟨code, -, -, heq⟩
        · rw [heq]
          exact Or.inl hpc
        · rw [heq]
          exact Or.inr (Or.inr rfl)
    | deadline =>
      refine ⟨[.tick s.deadline, .deadline],
        { s with
          pc := .killing, clock := s.clock + s.deadline, container := s.container.sendKill },
        ?_, rfl, Or.inr (Or.inl rfl)⟩
      simp [run, step, hpc]
  · simp only [Agrees, hpc] at hagrees
    simp [Account.settled, hagrees.2.2] at hopen
  · simp only [Agrees, hpc] at hagrees
    rw [hagrees.1] at hopen
    cases hopen

/-- Any order that comes to an end can be played to `exec_oneshot`. -/
theorem exists_return (timeoutMs now : Nat) {hs : List Happening}
    (h : (Account.empty.after hs).settled = true) :
    ∃ es s, run (step timeoutMs) (start now) es = some s ∧
      orderOf es = Account.empty.consumed hs ∧ s.pc = .returned := by
  have hlaunched : ∃ t, run (step timeoutMs) (start now) launch = some t ∧ t.pc = .joining :=
    ⟨_, rfl, rfl⟩
  obtain ⟨t, hrun, hpc⟩ := hlaunched
  have hagrees : t.Agrees .empty := agrees_run agrees_step (agrees_start now) hrun
  obtain ⟨es, s, hrun', horder, hlisten⟩ := exists_run agrees_step listens hs (Or.inl hpc) hagrees
  have hagrees' := agrees_run agrees_step hagrees hrun'
  rw [horder] at hagrees'
  rcases hlisten with hpc' | hpc' | hpc'
  · have hopen := ((agrees_joining hpc').mp hagrees').2.2.2.2
    rw [Account.after] at h
    rw [h] at hopen
    cases hopen
  · -- the timeout's own requests come to an end
    have hfinish : ∃ u, run (step timeoutMs) s [.killReply, .removeReply] = some u ∧
        u.pc = .returned := by
      simp [run, step, hpc', finish]
    obtain ⟨u, hrun'', hpc''⟩ := hfinish
    refine ⟨_, u, run_append hrun (run_append hrun' hrun''), ?_, hpc''⟩
    rw [orderOf_append, orderOf_append, orderOf_launch, horder]
    exact List.append_nil _
  · refine ⟨_, s, run_append hrun hrun', ?_, hpc'⟩
    rw [orderOf_append, orderOf_launch, horder]
    rfl

end Oneshot

/-! ### The two calls agree -/

/-- **`ExecStream` refines `Exec`.**  Let the items of the attach stream, the result of
    the wait and the deadline come in any order that brings the calls to an end.  Both
    calls can be played it to their end; and however they are, the drained stream has
    delivered exactly `Started`, then output chunks, then one `Finished`, and
    `exec_oneshot` returns the concatenated chunks, the exit code and the timeout flag
    of that stream. -/
theorem stream_refines_oneshot (timeoutMs : Nat) (hs : List Happening) :
    ((Account.empty.after hs).settled = true → ∀ now,
      (∃ es s, run (ExecStream.step timeoutMs) (ExecStream.start now) es = some s ∧
        orderOf es = Account.empty.consumed hs ∧ s.pc = .ended) ∧
      ∃ es t, run (Oneshot.step timeoutMs) (Oneshot.start now) es = some t ∧
        orderOf es = Account.empty.consumed hs ∧ t.pc = .returned) ∧
    ∀ now now' es es' s t, run (ExecStream.step timeoutMs) (ExecStream.start now) es = some s →
      orderOf es = Account.empty.consumed hs → s.pc = .ended →
      run (Oneshot.step timeoutMs) (Oneshot.start now') es' = some t →
      orderOf es' = Account.empty.consumed hs → t.pc = .returned →
      ∃ chunks exitCode timedOut ms ms', (∀ e ∈ chunks, e.isChunk = true) ∧
        s.sent = .started (s.containerId.getD "") :: chunks ++ [.finished exitCode ms timedOut] ∧
        t.result = some (.ok ⟨exitCode, stdoutOf chunks, stderrOf chunks, ms', timedOut⟩) := by
  refine ⟨fun h now => ⟨ExecStream.exists_drained timeoutMs now h,
    Oneshot.exists_return timeoutMs now h⟩, ?_⟩
  intro now now' es es' s t hrun horder hpc hrun' horder' hpc'
  have hstream := agrees_run ExecStream.agrees_step (ExecStream.agrees_start now) hrun
  have honeshot := agrees_run Oneshot.agrees_step (Oneshot.agrees_start now') hrun'
  rw [horder] at hstream
  rw [horder'] at honeshot
  simp only [ExecStream.Agrees, hpc] at hstream
  simp only [Oneshot.Agrees, hpc'] at honeshot
  obtain ⟨-, ms, hsent⟩ := hstream
  obtain ⟨-, ms', hresult⟩ := honeshot
  refine ⟨_, _, _, ms, ms', ?_, hsent, hresult⟩
  exact Account.isChunk_of_mem_chunks _ fun e he => by cases he

end Scriptorium
