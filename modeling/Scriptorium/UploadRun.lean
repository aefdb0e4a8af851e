import Scriptorium.Oss
import Scriptorium.Transitions

/-!
# An upload, await by await

`upload_file` as a state machine: the multipart path with its loop over the parts,
the two places that abort, and the timer that the whole future is raced against.  A
request that was sent is carried out by the store, or not, at a time of its own.

`upload_settled` says which runs leave an upload at the store neither completed nor
aborted.
-/

namespace Scriptorium

open Transitions

/-- What an upload is asked to do. -/
structure UploadJob where
  key : String
  contentType : String
  partSize : Nat
  multipartThreshold : Nat
  uploadTimeoutSeconds : Nat
  sha256 : List UInt8 → String

inductive UploadEvent where
  | statReply (reply : Except IoError Nat)
  | loadReply (reply : Except IoError (List UInt8))
  | putReply (reply : Except String Unit)
  | createReply (reply : Except String (Option String))
  | openReply (reply : Except IoError Unit)
  | readReply (reply : Except IoError (List UInt8))
  | partReply (reply : Except String (Option String))
  | storeCompletes
  | completeReply (reply : Except String Unit)
  | abortReply
  | timeout
  | drop

/-- The `await` an upload is at, or how it ended. -/
inductive UploadPc where
  | sizing | loading | putting
  | creating | opening | reading | sending | completing | aborting
  | returned | failed | dropped
deriving DecidableEq, Repr

/-- An upload.  `completed` says whether the store has carried out the completion. -/
structure UploadRun where
  pc : UploadPc
  sizeBytes : Nat
  uploadId : Option String
  buf : List UInt8
  partNumber : Nat
  parts : List (Nat × Option String)
  hashed : List UInt8
  completeSent : Bool
  completed : Bool
  abortSent : Bool
  pending : Option Error
  result : Option (Except Error UploadOutcome)

namespace UploadRun

def start : UploadRun where
  pc := .sizing
  sizeBytes := 0
  uploadId := none
  buf := []
  partNumber := 1
  parts := []
  hashed := []
  completeSent := false
  completed := false
  abortSent := false
  pending := none
  result := none

variable (job : UploadJob) (s : UploadRun)

def fail (e : Error) : UploadRun := { s with pc := .failed, result := some (.error e) }

def succeed (data : List UInt8) : UploadRun :=
  { s with
    pc := .returned
    result := some (.ok ⟨job.key, s.sizeBytes, job.contentType, job.sha256 data⟩) }

/-- All parts are up: ask for the completion. -/
def complete : UploadRun := { s with pc := .completing, completeSent := true }

/-- An error of `stream_parts`: ask for the abort, then report the error. -/
def abort (e : Error) : UploadRun :=
  { s with pc := .aborting, abortSent := true, pending := some e }

/-- The inner loop of `stream_parts` is left with a full buffer or at the end of the
    file; an empty buffer ends the outer loop, any other becomes a part. -/
def fill (atEnd : Bool) : UploadRun :=
  if s.buf.length < job.partSize ∧ atEnd = false then { s with pc := .reading }
  else if s.buf = [] then s.complete
  else { s with pc := .sending, hashed := s.hashed ++ s.buf }

/-- After a part: a short one was the last. -/
def next : UploadRun :=
  if s.buf.length < job.partSize then s.complete else { s with buf := [] }.fill job false

def isOver : Bool :=
  match s.pc with
  | .returned | .failed | .dropped => true
  | _ => false

def step (s : UploadRun) : UploadEvent → Option UploadRun
  | .statReply reply =>
    if s.pc = .sizing then
      match reply with
      | .error e => some (s.fail (.io e))
      | .ok size =>
        if size > job.multipartThreshold then some { s with pc := .creating, sizeBytes := size }
        else some { s with pc := .loading, sizeBytes := size }
    else none
  | .loadReply reply =>
    if s.pc = .loading then
      match reply with
      | .error e => some (s.fail (.io e))
      | .ok data => some { s with pc := .putting, hashed := data }
    else none
  | .putReply reply =>
    if s.pc = .putting then
      match reply with
      | .error e => some (s.fail (.other ("put_object: " ++ e)))
      | .ok () => some (s.succeed job s.hashed)
    else none
  | .createReply reply =>
    if s.pc = .creating then
      match reply with
      | .error e => some (s.fail (.other ("create_multipart_upload: " ++ e)))
      | .ok none => some (s.fail (.other "create_multipart_upload: missing upload_id"))
      | .ok (some id) => some { s with pc := .opening, uploadId := some id }
    else none
  | .openReply reply =>
    if s.pc = .opening then
      match reply with
      | .error e => some (s.abort (.io e))
      | .ok () => some (s.fill job false)
    else none
  | .readReply reply =>
    if s.pc = .reading then
      match reply with
      | .error e => some (s.abort (.io e))
      | .ok data =>
        if job.partSize - s.buf.length < data.length then none
        else some ({ s with buf := s.buf ++ data }.fill job (data = []))
    else none
  | .partReply reply =>
    if s.pc = .sending then
      match reply with
      | .error e =>
        some (s.abort (.other ("upload_part(" ++ toString s.partNumber ++ "): " ++ e)))
      | .ok eTag =>
        some ({ s with
          parts := s.parts ++ [(s.partNumber, eTag)], partNumber := s.partNumber + 1 }.next job)
    else none
  | .storeCompletes =>
    if s.completeSent = true ∧ s.abortSent = false then some { s with completed := true } else none
  | .completeReply reply =>
    if s.pc = .completing then
      match reply with
      | .error e =>
        some ({ s with abortSent := true }.fail (.other ("complete_multipart_upload: " ++ e)))
      | .ok () => if s.completed = true then some (s.succeed job s.hashed) else none
    else none
  | .abortReply =>
    if s.pc = .aborting then
      match s.pending with
      | none => none
      | some e => some (s.fail e)
    else none
  | .timeout =>
    if s.pc = .sizing ∨ s.isOver = true then none
    else
      some (s.fail (.other
        ("upload timed out after " ++ toString job.uploadTimeoutSeconds ++ "s")))
  | .drop => if s.isOver then none else some { s with pc := .dropped }

/-! ### What is left at the store -/

/-- The upload is completed, or its abort has been requested. -/
def Cleared : Prop := s.completed = true ∨ s.abortSent = true

/-- An upload that is over has left nothing unfinished at the store. -/
def Settled : Prop := s.isOver = true → s.uploadId.isSome → s.Cleared

/-- The timer fires, or the caller leaves, only when no upload is under way at the
    store. -/
def Careful (s : UploadRun) : UploadEvent → Prop
  | .timeout | .drop => s.uploadId.isSome → s.Cleared
  | _ => True

instance : Decidable s.Cleared := by unfold Cleared; infer_instance

instance (e : UploadEvent) : Decidable (s.Careful e) :=
  match e with
  | .timeout => inferInstanceAs (Decidable (_ → s.Cleared))
  | .drop => inferInstanceAs (Decidable (_ → s.Cleared))
  | .statReply _ | .loadReply _ | .putReply _ | .createReply _ | .openReply _ | .readReply _
  | .partReply _ | .storeCompletes | .completeReply _ | .abortReply => isTrue trivial

/-- What the steps keep. -/
structure Inv : Prop where
  settled : s.Settled
  /-- Before the reply to the create request there is no id. -/
  unnamed : s.pc = .sizing ∨ s.pc = .loading ∨ s.pc = .putting ∨ s.pc = .creating →
    s.uploadId = none
  aborted : s.pc = .aborting → s.abortSent = true

theorem inv_start : start.Inv := by
  refine ⟨?_, ?_, ?_⟩
  · intro hover
    cases hover
  · intro _
    rfl
  · intro hpc
    cases hpc

variable {job s}

theorem over_iff : s.isOver = true ↔ s.pc = .returned ∨ s.pc = .failed ∨ s.pc = .dropped := by
  unfold isOver
  split <;> simp_all

/-- While the parts are sent and completed, nothing has to be cleared yet. -/
theorem inv_of_sending
    (h : s.pc = .opening ∨ s.pc = .reading ∨ s.pc = .sending ∨ s.pc = .completing) : s.Inv := by
  refine ⟨?_, ?_, ?_⟩
  · intro hover
    rw [over_iff] at hover
    rcases h with h | h | h | h <;> simp [h] at hover
  · intro hpc
    rcases h with h | h | h | h <;> simp [h] at hpc
  · intro hpc
    rcases h with h | h | h | h <;> simp [h] at hpc

theorem inv_of_over (hover : s.isOver = true) (h : s.uploadId.isSome → s.Cleared) : s.Inv := by
  rw [over_iff] at hover
  refine ⟨fun _ => h, ?_, ?_⟩
  · intro hpc
    rcases hover with hover | hover | hover <;> simp [hover] at hpc
  · intro hpc
    rcases hover with hover | hover | hover <;> simp [hover] at hpc

theorem inv_of_unnamed
    (hpc : s.pc = .sizing ∨ s.pc = .loading ∨ s.pc = .putting ∨ s.pc = .creating)
    (hnone : s.uploadId = none) : s.Inv := by
  refine ⟨?_, fun _ => hnone, ?_⟩
  · intro _ hsome
    rw [hnone] at hsome
    cases hsome
  · intro habort
    rcases hpc with hpc | hpc | hpc | hpc <;> simp [hpc] at habort

theorem inv_fail {e : Error} (h : s.uploadId.isSome → s.Cleared) : (s.fail e).Inv :=
  inv_of_over rfl h

theorem inv_succeed {data : List UInt8} (h : s.uploadId.isSome → s.Cleared) :
    (s.succeed job data).Inv :=
  inv_of_over rfl h

theorem inv_abort {e : Error} : (s.abort e).Inv := by
  refine ⟨?_, ?_, ?_⟩
  · intro hover
    cases hover
  · intro hpc
    simp [abort] at hpc
  · intro _
    rfl

theorem inv_fill (atEnd : Bool) : (s.fill job atEnd).Inv := by
  unfold fill
  split
  · exact inv_of_sending (Or.inr (Or.inl rfl))
  · split
    · exact inv_of_sending (Or.inr (Or.inr (Or.inr rfl)))
    · exact inv_of_sending (Or.inr (Or.inr (Or.inl rfl)))

theorem inv_next : (s.next job).Inv := by
  unfold next
  split
  · exact inv_of_sending (Or.inr (Or.inr (Or.inr rfl)))
  · exact inv_fill false

/-- Before the create request is answered there is nothing to clear. -/
theorem Inv.cleared_of_unnamed (hs : s.Inv)
    (hpc : s.pc = .sizing ∨ s.pc = .loading ∨ s.pc = .putting ∨ s.pc = .creating) :
    s.uploadId.isSome → s.Cleared := by
  intro hsome
  rw [hs.unnamed hpc] at hsome
  cases hsome

/-! ### One step, and a run -/

/-- The replies while no upload id is known. -/
theorem inv_unnamed {e : UploadEvent} {s' : UploadRun} (hs : s.Inv)
    (he : e matches .statReply _ | .loadReply _ | .putReply _ | .createReply _)
    (h : s.step job e = some s') : s'.Inv := by
  cases e with
  | statReply reply =>
    simp only [step] at h
    split at h
    · rename_i hpc
      have hnone := hs.unnamed (Or.inl hpc)
      rcases reply with e | size
      · obtain rfl := Option.some.inj h
        exact inv_fail (hs.cleared_of_unnamed (Or.inl hpc))
      · simp only at h
        split at h
        · obtain rfl := Option.some.inj h
          exact inv_of_unnamed (Or.inr (Or.inr (Or.inr rfl))) hnone
        · obtain rfl := Option.some.inj h
          exact inv_of_unnamed (Or.inr (Or.inl rfl)) hnone
    · cases h
  | loadReply reply =>
    simp only [step] at h
    split at h
    · rename_i hpc
      have hpc : s.pc = .sizing ∨ s.pc = .loading ∨ s.pc = .putting ∨ s.pc = .creating :=
        Or.inr (Or.inl hpc)
      rcases reply with e | data
      · obtain rfl := Option.some.inj h
        exact inv_fail (hs.cleared_of_unnamed hpc)
      · obtain rfl := Option.some.inj h
        exact inv_of_unnamed (Or.inr (Or.inr (Or.inl rfl))) (hs.unnamed hpc)
    · cases h
  | putReply reply =>
    simp only [step] at h
    split at h
    · rename_i hpc
      have hcleared := hs.cleared_of_unnamed (Or.inr (Or.inr (Or.inl hpc)))
      rcases reply with e | _
      · obtain rfl := Option.some.inj h
        exact inv_fail hcleared
      · obtain rfl := Option.some.inj h
        exact inv_succeed hcleared
    · cases h
  | createReply reply =>
    simp only [step] at h
    split at h
    · rename_i hpc
      have hcleared := hs.cleared_of_unnamed (Or.inr (Or.inr (Or.inr hpc)))
      rcases reply with e | _ | id
      · obtain rfl := Option.some.inj h
        exact inv_fail hcleared
      · obtain rfl := Option.some.inj h
        exact inv_fail hcleared
      · obtain rfl := Option.some.inj h
        exact inv_of_sending (Or.inl rfl)
    · cases h
  | _ => cases he

/-- The replies while the parts are sent. -/
theorem inv_parts {e : UploadEvent} {s' : UploadRun}
    (he : e matches .openReply _ | .readReply _ | .partReply _)
    (h : s.step job e = some s') : s'.Inv := by
  cases e with
  | openReply reply =>
    simp only [step] at h
    split at h
    · rcases reply with e | _
      · obtain rfl := Option.some.inj h
        exact inv_abort
      · obtain rfl := Option.some.inj h
        exact inv_fill false
    · cases h
  | readReply reply =>
    simp only [step] at h
    split at h
    · rcases reply with e | data
      · obtain rfl := Option.some.inj h
        exact inv_abort
      · simp only at h
        split at h
        · cases h
        · obtain rfl := Option.some.inj h
          exact inv_fill _
    · cases h
  | partReply reply =>
    simp only [step] at h
    split at h
    · rcases reply with e | eTag
      · obtain rfl := Option.some.inj h
        exact inv_abort
      · obtain rfl := Option.some.inj h
        exact inv_next
    · cases h
  | _ => cases he

/-- The replies to the completion and to the abort. -/
theorem inv_last {e : UploadEvent} {s' : UploadRun} (hs : s.Inv)
    (he : e matches .storeCompletes | .completeReply _ | .abortReply)
    (h : s.step job e = some s') : s'.Inv := by
  cases e with
  | storeCompletes =>
    simp only [step] at h
    split at h
    · obtain rfl := Option.some.inj h
      exact ⟨fun _ _ => Or.inl rfl, hs.unnamed, hs.aborted⟩
    · cases h
  | completeReply reply =>
    simp only [step] at h
    split at h
    · rcases reply with e | _
      · obtain rfl := Option.some.inj h
        exact inv_fail fun _ => Or.inr rfl
      · simp only at h
        split at h
        · rename_i hcompleted
          obtain rfl := Option.some.inj h
          exact inv_succeed fun _ => Or.inl hcompleted
        · cases h
    · cases h
  | abortReply =>
    simp only [step] at h
    split at h
    · rename_i hpc
      split at h
      · cases h
      · obtain rfl := Option.some.inj h
        exact inv_fail fun _ => Or.inr (hs.aborted hpc)
    · cases h
  | _ => cases he

/-- The two ways to leave an upload from outside. -/
theorem left_cases {e : UploadEvent} {s' : UploadRun} (he : e matches .timeout | .drop)
    (h : s.step job e = some s') :
    s'.isOver = true ∧ (s'.uploadId.isSome → s'.Cleared ↔ s.Careful e) := by
  cases e with
  | timeout =>
    simp only [step] at h
    split at h
    · cases h
    · obtain rfl := Option.some.inj h
      exact ⟨rfl, Iff.rfl⟩
  | drop =>
    simp only [step] at h
    split at h
    · cases h
    · obtain rfl := Option.some.inj h
      exact ⟨rfl, Iff.rfl⟩
  | _ => cases he

theorem inv_step {e : UploadEvent} {s' : UploadRun} (hs : s.Inv) (hcareful : s.Careful e)
    (h : s.step job e = some s') : s'.Inv := by
  cases e with
  | statReply | loadReply | putReply | createReply => exact inv_unnamed hs rfl h
  | openReply | readReply | partReply => exact inv_parts rfl h
  | storeCompletes | completeReply | abortReply => exact inv_last hs rfl h
  | timeout | drop =>
    obtain ⟨hover, hiff⟩ := left_cases rfl h
    exact inv_of_over hover (hiff.mpr hcareful)

/-- A careless step leaves the upload stranded. -/
theorem careful_of_settled {e : UploadEvent} {s' : UploadRun} (h : s.step job e = some s')
    (hsettled : s'.Settled) : s.Careful e := by
  cases e with
  | timeout | drop =>
    obtain ⟨hover, hiff⟩ := left_cases rfl h
    exact hiff.mp (hsettled hover)
  | _ => trivial

theorem inv_of_reaches (h : Reaches (step job) Careful start s) : s.Inv :=
  h.invariant inv_start fun _ _ _ hs hcareful hstep => inv_step hs hcareful hstep

/-- In a run that is left from outside only where no upload is under way, no upload
    is stranded; its next step strands one exactly when it is not such a step. -/
theorem upload_settled (job : UploadJob) (h : Reaches (step job) Careful start s) :
    s.Settled ∧ ∀ e s', s.step job e = some s' → (s'.Settled ↔ s.Careful e) := by
  have hs := inv_of_reaches h
  constructor
  · exact hs.settled
  · intro e s' hstep
    constructor
    · exact careful_of_settled hstep
    · intro hcareful
      exact (inv_step hs hcareful hstep).settled

/-! ### What a step leaves alone -/

theorem uploadId_fill (s : UploadRun) (atEnd : Bool) :
    (s.fill job atEnd).uploadId = s.uploadId := by
  unfold fill complete
  split
  · rfl
  · split
    · rfl
    · rfl

theorem uploadId_next (s : UploadRun) : (s.next job).uploadId = s.uploadId := by
  unfold next
  split
  · rfl
  · rw [uploadId_fill]

/-- An upload keeps its id. -/
theorem uploadId_step {e : UploadEvent} {s' : UploadRun} (h : s.step job e = some s')
    (hs : s.uploadId.isSome = true) : s'.uploadId.isSome = true := by
  revert h
  fun_cases step job s e
  all_goals intro h
  all_goals grind [uploadId_fill, uploadId_next, abort, fail, succeed]

variable (job) in
/-- The end of the file has been met, or the upload has been given up. -/
def Ended (s : UploadRun) : Prop :=
  match s.pc with
  | .sizing | .loading | .creating | .opening | .reading => False
  | .sending => s.buf.length < job.partSize
  | .putting | .completing | .aborting | .returned | .failed | .dropped => True

/-- Nothing is read after the end. -/
theorem ended_step {e : UploadEvent} {s' : UploadRun} (h : s.step job e = some s')
    (hs : s.Ended job) : s'.Ended job ∧ s'.sizeBytes = s.sizeBytes := by
  revert h
  fun_cases step job s e
  all_goals intro h
  all_goals grind [next, complete, abort, fail, succeed, Ended]

/-- A buffer that the end of the file leaves short is the last. -/
theorem ended_fill {s : UploadRun} (h : s.buf.length < job.partSize) :
    (s.fill job true).Ended job ∧ (s.fill job true).sizeBytes = s.sizeBytes := by
  unfold fill
  rw [if_neg (by simp)]
  split
  · exact ⟨trivial, rfl⟩
  · exact ⟨h, rfl⟩

theorem result_fill (s : UploadRun) (atEnd : Bool) : (s.fill job atEnd).result = s.result := by
  unfold fill complete
  split
  · rfl
  · split
    · rfl
    · rfl

theorem result_next (s : UploadRun) : (s.next job).result = s.result := by
  unfold next
  split
  · rfl
  · rw [result_fill]

/-- Only an upload that has returned has an outcome. -/
theorem returned_step {e : UploadEvent} {s' : UploadRun} (h : s.step job e = some s')
    (hs : ∀ outcome, s.result = some (.ok outcome) → s.pc = .returned) {outcome : UploadOutcome}
    (hok : s'.result = some (.ok outcome)) : s'.pc = .returned := by
  revert h
  fun_cases step job s e
  all_goals intro h
  all_goals grind [result_fill, result_next, abort, fail, succeed, over_iff]

/-! ### Two uploads of three bytes in parts of two -/

def threeBytes : UploadJob where
  key := "default/ws/1970-01-01/00000000-a"
  contentType := "text/plain; charset=utf-8"
  partSize := 2
  multipartThreshold := 1
  uploadTimeoutSeconds := 600
  sha256 := fun _ => ""

/-- Up to the second part, the short one. -/
def secondPart : List UploadEvent :=
  [.statReply (.ok 3), .createReply (.ok (some "u1")), .openReply (.ok ()),
    .readReply (.ok [1, 2]), .partReply (.ok none), .readReply (.ok [3]), .readReply (.ok [])]

/-- The second part fails, and the timer fires while the abort is answered. -/
theorem upload_settled_part_fails :
    ∃ s, run (step threeBytes) start
        (secondPart ++ [.partReply (.error "broken pipe"), .timeout]) = some s ∧ s.Settled := by
  refine ⟨_, rfl, ?_⟩
  apply And.left
  apply upload_settled threeBytes
  apply reaches_of_fine (secondPart ++ [.partReply (.error "broken pipe"), .timeout]) rfl
  decide

/-- The timer fires while the second part is sent: the upload stays behind. -/
theorem upload_stranded : ¬ ∀ s, Reaches (step threeBytes) Free start s → s.Settled := by
  intro hsettled
  have hreach := reaches_of_run (step threeBytes) start (secondPart ++ [.timeout]) rfl
  have hcleared := hsettled _ hreach rfl rfl
  exact absurd hcleared (by decide)

end UploadRun

end Scriptorium
