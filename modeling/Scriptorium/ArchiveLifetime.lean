import Scriptorium.Transitions

/-!
# The temporary archive of a call

`do_upload` and `do_export_workspace_object` have a blocking task make an archive in
the temp directory of the system, and guard it with a `TempFileGuard` as soon as the
task has reported success.  The task is detached: it goes on when its call is
dropped.  An upload keeps the guard to the end of the handler, an export moves it
into its response stream.
-/

namespace Scriptorium

open Transitions

inductive PackagingCall where
  | upload
  | «export»
deriving DecidableEq

/-- Where the call is. -/
inductive CallPc where
  /-- The source is resolved and looked at. -/
  | checking
  /-- It waits for the task. -/
  | packaging
  /-- It holds the guard: metadata, hash, upload. -/
  | handling
  /-- The guard is in the response stream; whether that was polled yet. -/
  | streaming (polled : Bool)
  | over
deriving DecidableEq

/-- Where the blocking task is. -/
inductive TaskPc where
  | idle
  | queued
  /-- The archive file exists, and so many entries have been put into it. -/
  | packing (entries : Nat)
  | done (ok : Bool)
deriving DecidableEq

structure ArchiveCall where
  pc : CallPc
  task : TaskPc
  /-- The archive is in the temp directory. -/
  file : Bool
deriving DecidableEq

inductive ArchiveEvent where
  | refuse
  | spawn
  | create (ok : Bool)
  | append
  /-- An entry cannot be read, has vanished or cannot be archived, or a write fails. -/
  | fail
  | finish
  /-- The call takes up the result of the task. -/
  | resume
  /-- The export hands its stream over. -/
  | handOver
  | poll
  /-- The handler or the stream ends, with success or an error. -/
  | «end» (removed : Bool)
  /-- The client drops the call or the stream, or its time is up. -/
  | drop (removed : Bool)
deriving DecidableEq

namespace ArchiveCall

def start : ArchiveCall := ⟨.checking, .idle, false⟩

variable (kind : PackagingCall) (c : ArchiveCall)

/-- The guard exists. -/
def guarded : Bool :=
  match c.pc with
  | .handling | .streaming _ => true
  | _ => false

/-- The call is over, and its values are dropped; the guard tries to remove the file. -/
def close (removed : Bool) : ArchiveCall :=
  { c with pc := .over, file := c.file && !(c.guarded && removed) }

def step : ArchiveEvent → Option ArchiveCall
  | .refuse => if c.pc = .checking then some { c with pc := .over } else none
  | .spawn =>
    if c.pc = .checking then some { c with pc := .packaging, task := .queued } else none
  | .create ok =>
    if c.task = .queued then
      some
        (if ok then { c with task := .packing 0, file := true } else { c with task := .done false })
    else none
  | .append =>
    match c.task with
    | .packing entries => some { c with task := .packing (entries + 1) }
    | _ => none
  | .fail =>
    match c.task with
    | .packing _ => some { c with task := .done false }
    | _ => none
  | .finish =>
    match c.task with
    | .packing _ => some { c with task := .done true }
    | _ => none
  | .resume =>
    match c.pc, c.task with
    | .packaging, .done ok => some { c with pc := if ok then .handling else .over }
    | _, _ => none
  | .handOver =>
    if c.pc = .handling ∧ kind = .export then some { c with pc := .streaming false } else none
  | .poll =>
    match c.pc with
    | .streaming _ => some { c with pc := .streaming true }
    | _ => none
  | .end removed =>
    if c.pc = .handling ∨ c.pc = .streaming true then some (c.close removed) else none
  | .drop removed => if c.pc = .over then none else some (c.close removed)

/-- The call is over, and so is its task. -/
def Over : Prop := c.pc = .over ∧ (c.task = .idle ∨ ∃ ok, c.task = .done ok)

/-- Dropping the values of the call leaves nothing behind: a guard removes the file, and
    without a guard there is none. -/
def Released (removed : Bool) : Prop :=
  if c.guarded = true then removed = true else c.file = false

instance (removed : Bool) : Decidable (c.Released removed) := by
  unfold Released; split <;> infer_instance

/-- What keeps the file from being left behind: the task makes it while the call waits
    for it and then succeeds, the call is not dropped between the two, and the guard's
    removal does not fail. -/
def Tidy : ArchiveEvent → Prop
  | .create ok => ok → c.pc = .packaging
  | .fail => False
  | .end removed | .drop removed => c.Released removed
  | _ => True

/-- Whatever file there is will be guarded. -/
structure Safe : Prop where
  file : c.file → c.guarded ∨ c.pc = .packaging ∧ c.task ≠ .done false
  queued : c.task = .queued → c.file = false ∧ (c.pc = .packaging ∨ c.pc = .over)
  packing : ∀ entries, c.task = .packing entries → c.file
  done : c.task = .done true → c.pc = .packaging → c.file
  guard : c.guarded → c.file ∧ c.task = .done true

/-- There is a file, and nobody will guard it. -/
def Doomed : Prop :=
  c.file ∧ (c.pc = .over ∨ c.pc = .packaging ∧ c.task = .done false)

variable {kind} {c} {c' : ArchiveCall} {e : ArchiveEvent}

theorem start_safe : start.Safe := by
  constructor <;> simp [start, guarded]

/-! ### One step -/

variable (kind) (c) in
/-- What a step can do. -/
inductive Steps : ArchiveEvent → ArchiveCall → Prop
  | refuse (hpc : c.pc = .checking) : Steps .refuse { c with pc := .over }
  | spawn (hpc : c.pc = .checking) : Steps .spawn { c with pc := .packaging, task := .queued }
  | created (htask : c.task = .queued) :
    Steps (.create true) { c with task := .packing 0, file := true }
  | uncreated (htask : c.task = .queued) : Steps (.create false) { c with task := .done false }
  | append (entries : Nat) (htask : c.task = .packing entries) :
    Steps .append { c with task := .packing (entries + 1) }
  | fail (entries : Nat) (htask : c.task = .packing entries) :
    Steps .fail { c with task := .done false }
  | finish (entries : Nat) (htask : c.task = .packing entries) :
    Steps .finish { c with task := .done true }
  | guard (hpc : c.pc = .packaging) (htask : c.task = .done true) :
    Steps .resume { c with pc := .handling }
  | giveUp (hpc : c.pc = .packaging) (htask : c.task = .done false) :
    Steps .resume { c with pc := .over }
  | handOver (hpc : c.pc = .handling) : Steps .handOver { c with pc := .streaming false }
  | poll (polled : Bool) (hpc : c.pc = .streaming polled) :
    Steps .poll { c with pc := .streaming true }
  | «end» (removed : Bool) (hguarded : c.guarded) : Steps (.end removed) (c.close removed)
  | drop (removed : Bool) (hpc : c.pc ≠ .over) : Steps (.drop removed) (c.close removed)

theorem steps_of_step (h : c.step kind e = some c') : c.Steps e c' := by
  cases e with
  | refuse =>
    simp only [step, Option.ite_none_right_eq_some, Option.some.injEq] at h
    obtain ⟨hpc, rfl⟩ := h
    exact .refuse hpc
  | spawn =>
    simp only [step, Option.ite_none_right_eq_some, Option.some.injEq] at h
    obtain ⟨hpc, rfl⟩ := h
    exact .spawn hpc
  | create ok =>
    simp only [step, Option.ite_none_right_eq_some, Option.some.injEq] at h
    obtain ⟨htask, rfl⟩ := h
    cases ok
    · exact .uncreated htask
    · exact .created htask
  | append =>
    simp only [step] at h
    split at h
    · rename_i entries htask
      obtain rfl := Option.some.inj h
      exact .append entries htask
    · cases h
  | fail =>
    simp only [step] at h
    split at h
    · rename_i entries htask
      obtain rfl := Option.some.inj h
      exact .fail entries htask
    · cases h
  | finish =>
    simp only [step] at h
    split at h
    · rename_i entries htask
      obtain rfl := Option.some.inj h
      exact .finish entries htask
    · cases h
  | resume =>
    simp only [step] at h
    split at h
    · rename_i ok hpc htask
      obtain rfl := Option.some.inj h
      cases ok
      · exact .giveUp hpc htask
      · exact .guard hpc htask
    · cases h
  | handOver =>
    simp only [step, Option.ite_none_right_eq_some, Option.some.injEq] at h
    obtain ⟨⟨hpc, -⟩, rfl⟩ := h
    exact .handOver hpc
  | poll =>
    simp only [step] at h
    split at h
    · rename_i polled hpc
      obtain rfl := Option.some.inj h
      exact .poll polled hpc
    · cases h
  | «end» removed =>
    simp only [step, Option.ite_none_right_eq_some, Option.some.injEq] at h
    obtain ⟨hpc, rfl⟩ := h
    have hguarded : c.guarded := by
      rcases hpc with hpc | hpc <;> simp [guarded, hpc]
    exact .end removed hguarded
  | drop removed =>
    simp only [step, Option.ite_none_left_eq_some, Option.some.injEq] at h
    obtain ⟨hpc, rfl⟩ := h
    exact .drop removed hpc

/-- The guard of a call that was safe leaves a file behind only where its removal
    fails. -/
theorem close_safe (hs : c.Safe) {removed : Bool} (hreleased : c.Released removed) :
    (c.close removed).Safe := by
  have hgone : (c.close removed).file = false := by
    cases hguarded : c.guarded
    · simp [Released, hguarded] at hreleased
      simp [close, hreleased]
    · simp [Released, hguarded] at hreleased
      simp [close, hguarded, hreleased]
  constructor
  · intro hfile
    rw [hgone] at hfile
    cases hfile
  · intro _
    exact ⟨hgone, .inr rfl⟩
  · intro entries htask
    -- a task that packs has made its file, which is not guarded
    have hfile := hs.packing entries htask
    cases hguarded : c.guarded
    · simp [Released, hguarded, hfile] at hreleased
    · have hdone := (hs.guard hguarded).2
      rw [show c.task = .packing entries from htask] at hdone
      cases hdone
  · intro _ hover
    cases hover
  · intro hguarded
    cases hguarded

theorem close_doomed (hs : c.Safe) {removed : Bool} (hkept : ¬ c.Released removed) :
    (c.close removed).Doomed := by
  refine ⟨?_, .inl rfl⟩
  cases hguarded : c.guarded
  · simp [Released, hguarded] at hkept
    simp [close, hguarded, hkept]
  · simp [Released, hguarded] at hkept
    simp [close, hkept, (hs.guard hguarded).1]

/-- A tidy step keeps a call safe. -/
theorem Steps.safe (h : c.Steps e c') (hs : c.Safe) (htidy : c.Tidy e) : c'.Safe := by
  have ⟨hfile, hqueued, hpacking, hdone, hguard⟩ := hs
  cases h with
  | refuse hpc | spawn hpc => constructor <;> simp_all [guarded]
  | created htask =>
    have hpc : c.pc = .packaging := htidy rfl
    constructor <;> simp_all [guarded]
  | uncreated htask => constructor <;> simp_all [guarded]
  | append entries htask | finish entries htask => constructor <;> simp_all [guarded]
  | fail entries htask => exact htidy.elim
  | guard hpc htask | giveUp hpc htask => constructor <;> simp_all [guarded]
  | handOver hpc => constructor <;> simp_all [guarded]
  | poll polled hpc => constructor <;> simp_all [guarded]
  | «end» removed hguarded => exact close_safe hs htidy
  | drop removed hpc => exact close_safe hs htidy

/-- Any other step dooms it. -/
theorem Steps.doomed (h : c.Steps e c') (hs : c.Safe) (hsloppy : ¬ c.Tidy e) : c'.Doomed := by
  cases h with
  | created htask =>
    refine ⟨rfl, ?_⟩
    rcases (hs.queued htask).2 with hpc | hpc
    · exact absurd (fun _ => hpc) hsloppy
    · exact .inl hpc
  | uncreated htask => exact absurd (fun hok => by cases hok) hsloppy
  | fail entries htask =>
    have hfile := hs.packing entries htask
    refine ⟨hfile, ?_⟩
    rcases hs.file hfile with hguarded | ⟨hpc, -⟩
    · rw [(hs.guard hguarded).2] at htask
      cases htask
    · exact .inr ⟨hpc, rfl⟩
  | «end» removed hguarded => exact close_doomed hs hsloppy
  | drop removed hpc => exact close_doomed hs hsloppy
  | _ => exact absurd trivial hsloppy

/-- Nobody comes back for a file that is not guarded. -/
theorem Steps.still_doomed (h : c.Steps e c') (hd : c.Doomed) : c'.Doomed := by
  obtain ⟨hfile, hpc | ⟨hpc, htask⟩⟩ := hd
  · -- the call is over: only its task goes on
    cases h <;> simp_all [Doomed, guarded]
  · -- the call has yet to learn that its task failed
    cases h <;> simp_all [Doomed, close, guarded]

/-! ### Runs -/

theorem run_doomed {es : List ArchiveEvent} (hd : c.Doomed) (h : run (step kind) c es = some c') :
    c'.Doomed := by
  induction es generalizing c with
  | nil =>
    obtain rfl := Option.some.inj h
    exact hd
  | cons e es ih =>
    unfold run at h
    split at h
    · cases h
    · rename_i next hstep
      exact ih ((steps_of_step hstep).still_doomed hd) h

theorem run_safe {es : List ArchiveEvent} (hs : c.Safe) (h : run (step kind) c es = some c') :
    (Fine (step kind) Tidy c es → c'.Safe) ∧ (¬ Fine (step kind) Tidy c es → c'.Doomed) := by
  induction es generalizing c with
  | nil =>
    obtain rfl := Option.some.inj h
    exact ⟨fun _ => hs, fun hbad => absurd trivial hbad⟩
  | cons e es ih =>
    unfold run at h
    split at h
    · cases h
    · rename_i next hstep
      have hsteps := steps_of_step hstep
      rw [Fine, hstep]
      by_cases htidy : c.Tidy e
      · have hrest := ih (hsteps.safe hs htidy) h
        exact ⟨fun hfine => hrest.1 hfine.2, fun hbad => hrest.2 fun hfine => hbad ⟨htidy, hfine⟩⟩
      · have hdoomed := run_doomed (hsteps.doomed hs htidy) h
        exact ⟨fun hfine => absurd hfine.1 htidy, fun _ => hdoomed⟩

/-- **No archive is left behind.**  When a call and its task are over, the archive is gone if
    and only if every step was tidy. -/
theorem no_archive_left_iff {es : List ArchiveEvent} (h : run (step kind) start es = some c)
    (hover : c.Over) : c.file = false ↔ Fine (step kind) Tidy start es := by
  obtain ⟨hsafe, hdoomed⟩ := run_safe start_safe h
  constructor
  · intro hgone
    by_contra hsloppy
    exact absurd (hdoomed hsloppy).1 (by simp [hgone])
  · intro hfine
    by_contra hleft
    rcases (hsafe hfine).file (by simpa using hleft) with hguarded | ⟨hpc, -⟩
    · simp [guarded, hover.1] at hguarded
    · rw [hover.1] at hpc
      cases hpc

instance (c : ArchiveCall) : DecidablePred c.Tidy := fun e => by
  cases e <;> unfold Tidy <;> infer_instance

/-- An export of two entries that is dropped while it streams. -/
def droppedExport : List ArchiveEvent :=
  [.spawn, .create true, .append, .append, .finish, .resume, .handOver, .poll, .drop true]

theorem no_archive_left_dropped : ∃ c,
    run (step .export) start droppedExport = some c ∧ c.Over ∧ c.file = false := by
  have hruns : run (step .export) start droppedExport = some ⟨.over, .done true, false⟩ := by
    decide
  have hover : Over ⟨.over, .done true, false⟩ := ⟨rfl, .inr ⟨true, rfl⟩⟩
  exact ⟨_, hruns, hover, (no_archive_left_iff hruns hover).mpr (by decide)⟩

/-- An entry that vanishes while it is packed leaves the archive behind, and so does a
    client that gives up while the task is packing. -/
theorem archive_left :
    (∃ c, run (step .upload) start [.spawn, .create true, .append, .fail, .resume] = some c ∧
      c.Over ∧ c.file = true) ∧
    ∃ c, run (step .export) start [.spawn, .create true, .drop true, .append, .finish] = some c ∧
      c.Over ∧ c.file = true :=
  ⟨⟨_, rfl, ⟨rfl, .inr ⟨false, rfl⟩⟩, rfl⟩, ⟨_, rfl, ⟨rfl, .inr ⟨true, rfl⟩⟩, rfl⟩⟩

end ArchiveCall

end Scriptorium
