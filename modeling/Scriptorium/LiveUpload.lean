import Scriptorium.UploadRun
import Mathlib.Algebra.Order.Group.Nat
import Mathlib.Algebra.Order.Group.Int

/-!
# The file under an upload, and the object it becomes

An upload reads a file that a container can change between any two of its steps, and
the store keeps what it is sent.  `LiveUpload` adds both to the state machine of the
upload: every reply that comes from the file is computed from its contents at that
moment, in pieces of any length, and the bodies of the parts are recorded.

    * `multipart_eq_single`: on a file nobody changes, both ways to upload it end, with
      the file as the object;
    * `outcome_describes_iff`: on a file that changes, when the outcome describes the
      object.
-/

namespace Scriptorium

open Transitions

/-- A part number, an `i32` that wraps around at 2^32. -/
def i32 (n : Nat) : Int := (n : Int).bmod 4294967296

/-- An upload with the file it reads and the object it writes.  `taken` is what its reads
    have returned, so its length is the offset of the open file; `uploaded` are the part
    requests that were sent. -/
structure LiveUpload where
  run : UploadRun
  file : List UInt8
  taken : List UInt8
  uploaded : List (Int × List UInt8)
  object : Option (List UInt8)

/-- What can happen: the container writes to the file, or the upload gets a reply, of
    which those about the file are computed from it.  A read asks for `count` bytes. -/
inductive LiveEvent where
  | change (data : List UInt8)
  | stat
  | opened
  | read (count : Nat)
  | reply (e : UploadEvent)

namespace LiveUpload

def start (file : List UInt8) : LiveUpload where
  run := .start
  file := file
  taken := []
  uploaded := []
  object := none

/-- `stream_parts`, called for a file of a known size. -/
def streaming (file : List UInt8) (id : String) : LiveUpload :=
  { start file with
    run := { UploadRun.start with pc := .opening, sizeBytes := file.length, uploadId := some id } }

variable (job : UploadJob) (w : LiveUpload)

def bodies : List (List UInt8) := w.uploaded.map Prod.snd

/-- The upload goes on; where it starts to wait for a part, it has sent one. -/
def note (s : UploadRun) : LiveUpload :=
  { w with
    run := s
    uploaded := if s.pc = .sending ∧ w.run.pc ≠ .sending
      then w.uploaded ++ [(i32 s.partNumber, s.buf)] else w.uploaded }

def advance (e : UploadEvent) : Option LiveUpload := (w.run.step job e).map w.note

/-- A read of the open file: at least one byte unless the file ends here. -/
def read (count : Nat) : List UInt8 := (w.file.drop w.taken.length).take count

/-- The store takes no part whose number is not positive, and joins the parts. -/
def answer (e : UploadEvent) : Option LiveUpload :=
  match e with
  | .statReply (.ok _) | .loadReply (.ok _) | .openReply (.ok _) | .readReply (.ok _) => none
  | .putReply (.ok ()) => (w.advance job e).map fun w' => { w' with object := some w.taken }
  | .partReply (.ok _) => if i32 w.run.partNumber < 1 then none else w.advance job e
  | .storeCompletes =>
    (w.advance job e).map fun w' => { w' with object := some w.bodies.flatten }
  | _ => w.advance job e

def step (w : LiveUpload) : LiveEvent → Option LiveUpload
  | .change data => some { w with file := data }
  | .stat => w.advance job (.statReply (.ok w.file.length))
  | .opened => w.advance job (.openReply (.ok ()))
  | .read count =>
    match w.run.pc with
    | .loading =>
      if count = 0 then none
      else if w.read count = [] then w.advance job (.loadReply (.ok w.taken))
      else some { w with taken := w.taken ++ w.read count }
    | .reading =>
      if count = 0 ∨ job.partSize - w.run.buf.length < count then none
      else { w with taken := w.taken ++ w.read count }.advance job (.readReply (.ok (w.read count)))
    | _ => none
  | .reply e => w.answer job e

/-! ### What is known where an upload waits -/

/-- The numbers of the first parts. -/
def numbers (n : Nat) : List Int := (List.range n).map fun i => i32 (i + 1)

theorem numbers_succ (n : Nat) : numbers (n + 1) = numbers n ++ [i32 (n + 1)] := by
  rw [numbers, numbers, List.range_succ, List.map_append, List.map_singleton]

end LiveUpload

/-- Parts that make up a byte string: numbered in order, none empty, and all of one size
    but the last. -/
structure PartsOf (partSize : Nat) (bytes : List UInt8) (parts : List (Int × List UInt8)) :
    Prop where
  numbered : parts.map Prod.fst = LiveUpload.numbers parts.length
  joined : (parts.map Prod.snd).flatten = bytes
  full : ∀ body ∈ (parts.map Prod.snd).dropLast, body.length = partSize
  nonempty : ∀ body ∈ parts.map Prod.snd, body ≠ []

theorem PartsOf.nil (partSize : Nat) : PartsOf partSize [] [] := by
  refine ⟨rfl, rfl, ?_, ?_⟩
  · intro body hbody
    cases hbody
  · intro body hbody
    cases hbody

/-- Behind full parts the next one may be of any size. -/
theorem PartsOf.snoc {partSize : Nat} {bytes body : List UInt8} {parts : List (Int × List UInt8)}
    (h : PartsOf partSize bytes parts) (hfull : ∀ b ∈ parts.map Prod.snd, b.length = partSize)
    (hbody : body ≠ []) :
    PartsOf partSize (bytes ++ body) (parts ++ [(i32 (parts.length + 1), body)]) := by
  obtain ⟨hnumbered, hjoined, -, hnonempty⟩ := h
  constructor
  · rw [List.map_append, hnumbered, List.length_append, List.length_singleton,
      LiveUpload.numbers_succ,
      List.map_singleton]
  · rw [List.map_append, List.flatten_append, hjoined]
    simp
  · rw [List.map_append, List.map_singleton, List.dropLast_concat]
    exact hfull
  · intro b hb
    rw [List.map_append, List.mem_append] at hb
    rcases hb with hb | hb
    · exact hnonempty b hb
    · rw [List.map_singleton, List.mem_singleton] at hb
      rwa [hb]

namespace LiveUpload

variable (job : UploadJob) (E : Nat → List UInt8 → Prop) (w : LiveUpload)

/-- The completion has not been asked for. -/
structure Unsent : Prop where
  completeSent : w.run.completeSent = false
  completed : w.run.completed = false

/-- Nothing has been read or sent. -/
structure Fresh : Prop extends w.Unsent where
  taken : w.taken = []
  uploaded : w.uploaded = []
  buf : w.run.buf = []
  hashed : w.run.hashed = []
  partNumber : w.run.partNumber = 1

/-- The parts so far are full, and the buffer has been read behind them. -/
structure Filling : Prop extends w.Unsent where
  named : w.run.uploadId.isSome = true
  parts : PartsOf job.partSize w.run.hashed w.uploaded
  full : ∀ body ∈ w.bodies, body.length = job.partSize
  taken : w.taken = w.run.hashed ++ w.run.buf
  partNumber : w.run.partNumber = w.uploaded.length + 1
  room : w.run.buf.length < job.partSize

/-- The buffer is on its way as a part; `E` is what holds of the size and the bytes read
    when the file has ended. -/
structure Sending : Prop extends w.Unsent where
  named : w.run.uploadId.isSome = true
  parts : PartsOf job.partSize w.taken w.uploaded
  last : w.bodies.getLast? = some w.run.buf
  hashed : w.run.hashed = w.taken
  fits : w.run.buf.length ≤ job.partSize
  short : w.run.buf.length < job.partSize → E w.run.sizeBytes w.taken
  partNumber : w.run.partNumber = w.uploaded.length

/-- The file is small enough for one request. -/
structure Single : Prop where
  unnamed : w.run.uploadId = none
  small : w.run.sizeBytes ≤ job.multipartThreshold

/-- What is known at each `await`, and after an outcome. -/
def At : Prop :=
  match w.run.pc with
  | .sizing => w.Fresh ∧ w.run.uploadId = none
  | .creating => w.Fresh
  | .opening => w.Fresh ∧ w.run.uploadId.isSome = true
  | .loading => w.Unsent ∧ w.Single job
  | .putting =>
    w.Unsent ∧ w.Single job ∧ w.run.hashed = w.taken ∧ E w.run.sizeBytes w.taken
  | .reading => w.Filling job
  | .sending => w.Sending job E
  | .completing =>
    PartsOf job.partSize w.taken w.uploaded ∧ E w.run.sizeBytes w.taken ∧
      w.run.hashed = w.taken ∧ w.run.completeSent = true ∧ w.run.uploadId.isSome = true ∧
      (w.run.completed = true → w.object = some w.taken)
  | .returned =>
    w.run.result =
        some (.ok ⟨job.key, w.run.sizeBytes, job.contentType, job.sha256 w.taken⟩) ∧
      E w.run.sizeBytes w.taken ∧ w.object = some w.taken ∧
      (w.run.completeSent = true ∨ w.run.uploadId.isSome = true →
        PartsOf job.partSize w.taken w.uploaded) ∧
      (w.run.uploadId = none → w.run.sizeBytes ≤ job.multipartThreshold)
  | .aborting | .failed | .dropped => True

variable {job E w}

theorem at_start (file : List UInt8) : (start file).At job E :=
  show (start file).Fresh ∧ _ from ⟨⟨⟨rfl, rfl⟩, rfl, rfl, rfl, rfl, rfl⟩, rfl⟩

theorem at_streaming (file : List UInt8) (id : String) : (streaming file id).At job E :=
  show (streaming file id).Fresh ∧ _ from ⟨⟨⟨rfl, rfl⟩, rfl, rfl, rfl, rfl, rfl⟩, rfl⟩

theorem at_over {pc : UploadPc} (hpc : w.run.pc = pc)
    (hover : pc = .aborting ∨ pc = .failed ∨ pc = .dropped) : w.At job E := by
  unfold At
  rcases hover with rfl | rfl | rfl
  all_goals rw [hpc]; trivial

theorem note_of_ne {s : UploadRun} (h : s.pc ≠ .sending) : w.note s = { w with run := s } := by
  unfold note
  rw [if_neg (fun hboth => h hboth.1)]

theorem note_of_eq {s : UploadRun} (h : s.pc = w.run.pc) : w.note s = { w with run := s } := by
  unfold note
  rw [if_neg (fun hboth => hboth.2 (h.symm.trans hboth.1))]

/-- The inner loop is left, or goes on. -/
theorem at_fill {s : UploadRun} (atEnd : Bool) (hpos : 0 < job.partSize)
    (hparts : PartsOf job.partSize s.hashed w.uploaded)
    (hfull : ∀ body ∈ w.bodies, body.length = job.partSize)
    (htaken : w.taken = s.hashed ++ s.buf) (hnumber : s.partNumber = w.uploaded.length + 1)
    (hsent : s.completeSent = false) (hcompleted : s.completed = false)
    (hnamed : s.uploadId.isSome = true)
    (hfits : s.buf.length ≤ job.partSize) (hend : atEnd = true → E s.sizeBytes w.taken)
    (hpc : w.run.pc ≠ .sending ∨ s.buf = []) : (w.note (s.fill job atEnd)).At job E := by
  unfold UploadRun.fill
  split
  · rename_i hroom
    rw [note_of_ne (by simp)]
    exact show Filling job _ from
      ⟨⟨hsent, hcompleted⟩, hnamed, hparts, hfull, htaken, hnumber, hroom.1⟩
  · rename_i hleft
    split
    · rename_i hempty
      have hatEnd : atEnd = true := by
        rcases hatEnd : atEnd with _ | _
        · exact absurd ⟨by simpa [hempty] using hpos, hatEnd⟩ hleft
        · rfl
      rw [hempty, List.append_nil] at htaken
      rw [UploadRun.complete, note_of_ne (by simp)]
      refine ⟨htaken ▸ hparts, hend hatEnd, htaken.symm, rfl, hnamed, ?_⟩
      intro hcompleted'
      rw [hcompleted] at hcompleted'
      cases hcompleted'
    · rename_i hnonempty
      have hpc' : w.run.pc ≠ .sending := hpc.resolve_right hnonempty
      unfold note
      rw [if_pos ⟨rfl, hpc'⟩]
      have hsnoc := hparts.snoc hfull hnonempty
      rw [← hnumber, ← htaken] at hsnoc
      refine show Sending job E _ from
        ⟨⟨hsent, hcompleted⟩, hnamed, hsnoc, ?_, htaken.symm, hfits, ?_, ?_⟩
      · simp [bodies]
      · intro hshort
        apply hend
        rcases hatEnd : atEnd with _ | _
        · exact absurd ⟨hshort, hatEnd⟩ hleft
        · rfl
      · simpa using hnumber

/-- A part is up: a short one was the last. -/
theorem at_next {s : UploadRun} (hpos : 0 < job.partSize) (hs : w.Sending job E)
    (hbuf : s.buf = w.run.buf) (hhashed : s.hashed = w.run.hashed)
    (hsize : s.sizeBytes = w.run.sizeBytes) (hnumber : s.partNumber = w.run.partNumber + 1)
    (hsent : s.completeSent = false) (hcompleted : s.completed = false)
    (hnamed : s.uploadId.isSome = true) : (w.note (s.next job)).At job E := by
  unfold UploadRun.next
  split
  · rename_i hshort
    rw [hbuf] at hshort
    rw [UploadRun.complete, note_of_ne (by simp)]
    refine ⟨hs.parts, ?_, hhashed.trans hs.hashed, rfl, hnamed, ?_⟩
    · have hended := hs.short hshort
      rw [← hsize] at hended
      exact hended
    · intro hcompleted'
      rw [hcompleted] at hcompleted'
      cases hcompleted'
  · rename_i hlong
    have hlen : w.run.buf.length = job.partSize := by
      have hfits := hs.fits
      rw [hbuf] at hlong
      omega
    have hfull : ∀ body ∈ w.bodies, body.length = job.partSize := by
      intro body hbody
      have hlast : w.bodies = w.bodies.dropLast ++ [w.run.buf] :=
        (List.dropLast_append_getLast? _ hs.last).symm
      rw [hlast, List.mem_append, List.mem_singleton] at hbody
      rcases hbody with hbody | rfl
      · exact hs.parts.full body hbody
      · exact hlen
    have htaken : s.hashed = w.taken := hhashed.trans hs.hashed
    apply at_fill false hpos
    · exact htaken ▸ hs.parts
    · exact hfull
    · rw [List.append_nil]
      exact htaken.symm
    · exact hnumber.trans (congrArg (· + 1) hs.partNumber)
    · exact hsent
    · exact hcompleted
    · exact hnamed
    · exact Nat.zero_le _
    · intro hatEnd
      cases hatEnd
    · exact Or.inr rfl

/-! ### One step -/

theorem advance_eq_some {e : UploadEvent} {w' : LiveUpload} (h : w.advance job e = some w') :
    ∃ s, w.run.step job e = some s ∧ w' = w.note s := by
  obtain ⟨s, hs, hw'⟩ := Option.map_eq_some_iff.mp h
  exact ⟨s, hs, hw'.symm⟩

theorem read_eq_nil_iff {count : Nat} (h : count ≠ 0) :
    w.read count = [] ↔ w.file.length ≤ w.taken.length := by
  rw [read, List.take_eq_nil_iff, List.drop_eq_nil_iff]
  exact or_iff_right h

/-- What is known does not speak of the file. -/
theorem at_change (data : List UInt8) (hw : w.At job E) : At job E { w with file := data } := by
  unfold At at hw ⊢
  generalize hpc : w.run.pc = pc at hw ⊢
  have hfresh : w.Fresh → Fresh { w with file := data } := by
    rintro ⟨⟨hsent, hcompleted⟩, htaken, huploaded, hbuf, hhashed, hnumber⟩
    exact ⟨⟨hsent, hcompleted⟩, htaken, huploaded, hbuf, hhashed, hnumber⟩
  have hunsent : w.Unsent → Unsent { w with file := data } := by
    rintro ⟨hsent, hcompleted⟩
    exact ⟨hsent, hcompleted⟩
  cases pc with
  | sizing => exact ⟨hfresh hw.1, hw.2⟩
  | creating => exact hfresh hw
  | opening => exact ⟨hfresh hw.1, hw.2⟩
  | loading => exact ⟨hunsent hw.1, hw.2.unnamed, hw.2.small⟩
  | putting => exact ⟨hunsent hw.1, ⟨hw.2.1.unnamed, hw.2.1.small⟩, hw.2.2⟩
  | reading =>
    obtain ⟨⟨hsent, hcompleted⟩, hnamed, hparts, hfull, htaken, hnumber, hroom⟩ := hw
    exact ⟨⟨hsent, hcompleted⟩, hnamed, hparts, hfull, htaken, hnumber, hroom⟩
  | sending =>
    obtain ⟨⟨hsent, hcompleted⟩, hnamed, hparts, hlast, hhashed, hfits, hshort, hnumber⟩ := hw
    exact ⟨⟨hsent, hcompleted⟩, hnamed, hparts, hlast, hhashed, hfits, hshort, hnumber⟩
  | completing => exact hw
  | returned => exact hw
  | aborting => trivial
  | failed => trivial
  | dropped => trivial

theorem at_stat {w' : LiveUpload} (hw : w.At job E)
    (h : w.advance job (.statReply (.ok w.file.length)) = some w') : w'.At job E := by
  obtain ⟨s, hs, rfl⟩ := advance_eq_some h
  simp only [UploadRun.step] at hs
  split at hs
  · rename_i hpc
    simp only [At, hpc] at hw
    obtain ⟨hw, hunnamed⟩ := hw
    split at hs
    · obtain rfl := Option.some.inj hs
      rw [note_of_ne (by simp)]
      exact show Fresh _ from
        ⟨⟨hw.completeSent, hw.completed⟩, hw.taken, hw.uploaded, hw.buf, hw.hashed, hw.partNumber⟩
    · rename_i hsmall
      obtain rfl := Option.some.inj hs
      rw [note_of_ne (by simp)]
      exact show Unsent _ ∧ Single job _ from
        ⟨⟨hw.completeSent, hw.completed⟩, hunnamed, Nat.le_of_not_lt hsmall⟩
  · cases hs

theorem at_opened {w' : LiveUpload} (hpos : 0 < job.partSize) (hw : w.At job E)
    (h : w.advance job (.openReply (.ok ())) = some w') : w'.At job E := by
  obtain ⟨s, hs, rfl⟩ := advance_eq_some h
  simp only [UploadRun.step] at hs
  split at hs
  · rename_i hpc
    simp only [At, hpc] at hw
    obtain ⟨hw, hnamed⟩ := hw
    obtain rfl := Option.some.inj hs
    apply at_fill false hpos
    · rw [hw.hashed, hw.uploaded]
      exact PartsOf.nil _
    · intro body hbody
      rw [bodies, hw.uploaded] at hbody
      cases hbody
    · rw [hw.taken, hw.hashed, hw.buf]
      rfl
    · rw [hw.partNumber, hw.uploaded]
      rfl
    · exact hw.completeSent
    · exact hw.completed
    · exact hnamed
    · rw [hw.buf]
      exact Nat.zero_le _
    · intro hatEnd
      cases hatEnd
    · exact Or.inr hw.buf
  · cases hs

theorem at_read {count : Nat} {w' : LiveUpload} (hpos : 0 < job.partSize) (hw : w.At job E)
    (hend : w.file.length ≤ w.taken.length → E w.run.sizeBytes w.taken)
    (h : w.step job (.read count) = some w') : w'.At job E := by
  simp only [step] at h
  split at h
  · rename_i hpc
    simp only [At, hpc] at hw
    split at h
    · cases h
    · rename_i hcount
      split at h
      · rename_i hempty
        obtain ⟨s, hs, rfl⟩ := advance_eq_some h
        simp only [UploadRun.step, hpc, if_true] at hs
        obtain rfl := Option.some.inj hs
        rw [note_of_ne (by simp)]
        exact ⟨⟨hw.1.completeSent, hw.1.completed⟩, ⟨hw.2.unnamed, hw.2.small⟩, rfl,
          hend ((read_eq_nil_iff hcount).mp hempty)⟩
      · obtain rfl := Option.some.inj h
        simp only [At, hpc]
        exact ⟨⟨hw.1.completeSent, hw.1.completed⟩, hw.2.unnamed, hw.2.small⟩
  · rename_i hpc
    simp only [At, hpc] at hw
    split at h
    · cases h
    · rename_i hcount
      obtain ⟨s, hs, rfl⟩ := advance_eq_some h
      simp only [UploadRun.step, hpc, if_true] at hs
      split at hs
      · cases hs
      · rename_i hfits
        obtain rfl := Option.some.inj hs
        have hroom := hw.room
        apply at_fill _ hpos
        · exact hw.parts
        · exact hw.full
        · change w.taken ++ w.read count = w.run.hashed ++ (w.run.buf ++ w.read count)
          rw [hw.taken, List.append_assoc]
        · exact hw.partNumber
        · exact hw.completeSent
        · exact hw.completed
        · exact hw.named
        · simp only [List.length_append]
          omega
        · intro hatEnd
          have hempty : w.read count = [] := of_decide_eq_true hatEnd
          simp only [hempty, List.append_nil]
          exact hend ((read_eq_nil_iff fun hzero => hcount (Or.inl hzero)).mp hempty)
        · left
          change w.run.pc ≠ .sending
          rw [hpc]
          simp
  · cases h

/-- The store carries the completion out. -/
theorem at_storeCompletes (hw : w.At job E) (hsent : w.run.completeSent = true) :
    At job E { w with
      run := { w.run with completed := true }, object := some w.bodies.flatten } := by
  have hunsent : ¬ w.Unsent := by
    intro hunsent
    rw [hunsent.completeSent] at hsent
    cases hsent
  unfold At at hw ⊢
  generalize hpc : w.run.pc = pc at hw ⊢
  cases pc with
  | sizing => exact absurd hw.1.toUnsent hunsent
  | creating => exact absurd hw.toUnsent hunsent
  | opening => exact absurd hw.1.toUnsent hunsent
  | loading => exact absurd hw.1 hunsent
  | putting => exact absurd hw.1 hunsent
  | reading => exact absurd hw.toUnsent hunsent
  | sending => exact absurd hw.toUnsent hunsent
  | completing =>
    obtain ⟨hparts, hended, hhashed, -, hnamed, -⟩ := hw
    exact ⟨hparts, hended, hhashed, hsent, hnamed, fun _ => congrArg some hparts.joined⟩
  | returned =>
    obtain ⟨hresult, hended, -, hparts, hsmall⟩ := hw
    exact ⟨hresult, hended, congrArg some (hparts (Or.inl hsent)).joined, hparts, hsmall⟩
  | aborting => trivial
  | failed => trivial
  | dropped => trivial

theorem at_reply {e : UploadEvent} {w' : LiveUpload} (hpos : 0 < job.partSize) (hw : w.At job E)
    (h : w.answer job e = some w') : w'.At job E := by
  have hover : ∀ {s : UploadRun}, s.pc = .aborting ∨ s.pc = .failed ∨ s.pc = .dropped →
      (w.note s).At job E := fun hpc => at_over rfl hpc
  cases e with
  | statReply reply =>
    rcases reply with e | size
    · obtain ⟨s, hs, rfl⟩ := advance_eq_some h
      simp only [UploadRun.step] at hs
      split at hs
      · obtain rfl := Option.some.inj hs
        exact hover (Or.inr (Or.inl rfl))
      · cases hs
    · cases h
  | loadReply reply =>
    rcases reply with e | data
    · obtain ⟨s, hs, rfl⟩ := advance_eq_some h
      simp only [UploadRun.step] at hs
      split at hs
      · obtain rfl := Option.some.inj hs
        exact hover (Or.inr (Or.inl rfl))
      · cases hs
    · cases h
  | putReply reply =>
    rcases reply with e | _
    · obtain ⟨s, hs, rfl⟩ := advance_eq_some h
      simp only [UploadRun.step] at hs
      split at hs
      · obtain rfl := Option.some.inj hs
        exact hover (Or.inr (Or.inl rfl))
      · cases hs
    · obtain ⟨w'', hw'', rfl⟩ := Option.map_eq_some_iff.mp h
      obtain ⟨s, hs, rfl⟩ := advance_eq_some hw''
      simp only [UploadRun.step] at hs
      split at hs
      · rename_i hpc
        simp only [At, hpc] at hw
        obtain ⟨hunsent, hsingle, hhashed, hended⟩ := hw
        obtain rfl := Option.some.inj hs
        rw [note_of_ne (by simp [UploadRun.succeed])]
        refine ⟨?_, hended, rfl, ?_, fun _ => hsingle.small⟩
        · simp only [UploadRun.succeed, hhashed]
        · rintro (hsent | hnamed)
          · rw [UploadRun.succeed, hunsent.completeSent] at hsent
            cases hsent
          · rw [UploadRun.succeed, hsingle.unnamed] at hnamed
            cases hnamed
      · cases hs
  | createReply reply =>
    obtain ⟨s, hs, rfl⟩ := advance_eq_some h
    simp only [UploadRun.step] at hs
    split at hs
    · rename_i hpc
      rcases reply with e | _ | id
      · obtain rfl := Option.some.inj hs
        exact hover (Or.inr (Or.inl rfl))
      · obtain rfl := Option.some.inj hs
        exact hover (Or.inr (Or.inl rfl))
      · obtain rfl := Option.some.inj hs
        simp only [At, hpc] at hw
        rw [note_of_ne (by simp)]
        exact show Fresh _ ∧ _ from ⟨⟨⟨hw.completeSent, hw.completed⟩, hw.taken, hw.uploaded,
          hw.buf, hw.hashed, hw.partNumber⟩, rfl⟩
    · cases hs
  | openReply reply =>
    rcases reply with e | _
    · obtain ⟨s, hs, rfl⟩ := advance_eq_some h
      simp only [UploadRun.step] at hs
      split at hs
      · obtain rfl := Option.some.inj hs
        exact hover (Or.inl rfl)
      · cases hs
    · cases h
  | readReply reply =>
    rcases reply with e | data
    · obtain ⟨s, hs, rfl⟩ := advance_eq_some h
      simp only [UploadRun.step] at hs
      split at hs
      · obtain rfl := Option.some.inj hs
        exact hover (Or.inl rfl)
      · cases hs
    · cases h
  | partReply reply =>
    rcases reply with e | eTag
    · obtain ⟨s, hs, rfl⟩ := advance_eq_some h
      simp only [UploadRun.step] at hs
      split at hs
      · obtain rfl := Option.some.inj hs
        exact hover (Or.inl rfl)
      · cases hs
    · simp only [answer] at h
      split at h
      · cases h
      · obtain ⟨s, hs, rfl⟩ := advance_eq_some h
        simp only [UploadRun.step] at hs
        split at hs
        · rename_i hpc
          simp only [At, hpc] at hw
          obtain rfl := Option.some.inj hs
          exact at_next hpos hw rfl rfl rfl rfl hw.completeSent hw.completed hw.named
        · cases hs
  | storeCompletes =>
    obtain ⟨w'', hw'', rfl⟩ := Option.map_eq_some_iff.mp h
    obtain ⟨s, hs, rfl⟩ := advance_eq_some hw''
    simp only [UploadRun.step] at hs
    split at hs
    · rename_i hsent
      obtain rfl := Option.some.inj hs
      rw [note_of_eq (by rfl)]
      exact at_storeCompletes hw hsent.1
    · cases hs
  | completeReply reply =>
    obtain ⟨s, hs, rfl⟩ := advance_eq_some h
    simp only [UploadRun.step] at hs
    split at hs
    · rename_i hpc
      rcases reply with e | _
      · obtain rfl := Option.some.inj hs
        exact hover (Or.inr (Or.inl rfl))
      · simp only at hs
        split at hs
        · rename_i hcompleted
          obtain rfl := Option.some.inj hs
          simp only [At, hpc] at hw
          obtain ⟨hparts, hended, hhashed, -, hnamed, hobject⟩ := hw
          rw [note_of_ne (by simp [UploadRun.succeed])]
          refine ⟨?_, hended, hobject hcompleted, fun _ => hparts, ?_⟩
          · simp only [UploadRun.succeed, hhashed]
          · intro hnone
            rw [UploadRun.succeed] at hnone
            rw [hnone] at hnamed
            cases hnamed
        · cases hs
    · cases hs
  | abortReply =>
    obtain ⟨s, hs, rfl⟩ := advance_eq_some h
    simp only [UploadRun.step] at hs
    split at hs
    · split at hs
      · cases hs
      · obtain rfl := Option.some.inj hs
        exact hover (Or.inr (Or.inl rfl))
    · cases hs
  | timeout =>
    obtain ⟨s, hs, rfl⟩ := advance_eq_some h
    simp only [UploadRun.step] at hs
    split at hs
    · cases hs
    · obtain rfl := Option.some.inj hs
      exact hover (Or.inr (Or.inl rfl))
  | drop =>
    obtain ⟨s, hs, rfl⟩ := advance_eq_some h
    simp only [UploadRun.step] at hs
    split at hs
    · cases hs
    · obtain rfl := Option.some.inj hs
      exact hover (Or.inr (Or.inr rfl))

/-- Every step keeps what is known, if `E` holds when a read meets the end of the file. -/
theorem at_step {e : LiveEvent} {w' : LiveUpload} (hpos : 0 < job.partSize) (hw : w.At job E)
    (hend : ∀ count, e = .read count → w.file.length ≤ w.taken.length →
      E w.run.sizeBytes w.taken)
    (h : w.step job e = some w') : w'.At job E := by
  cases e with
  | change data =>
    obtain rfl := Option.some.inj h
    exact at_change data hw
  | stat => exact at_stat hw h
  | opened => exact at_opened hpos hw h
  | read count => exact at_read hpos hw (hend count rfl) h
  | reply e => exact at_reply hpos hw h

/-! ### A file nobody changes -/

/-- Nobody writes to the file, every request succeeds, and the store carries the
    completion out before it says so. -/
def Smooth (w : LiveUpload) : LiveEvent → Prop
  | .stat | .opened | .read _ => True
  | .reply (.putReply (.ok _)) | .reply (.partReply (.ok _)) | .reply (.completeReply (.ok _)) =>
    True
  | .reply (.createReply (.ok id)) => id.isSome = true
  | .reply .storeCompletes => w.run.pc = .completing ∧ w.run.completed = false
  | _ => False

instance (e : LiveEvent) : Decidable (w.Smooth e) :=
  match e with
  | .stat | .opened | .read _ => isTrue trivial
  | .reply (.putReply (.ok _)) | .reply (.partReply (.ok _)) | .reply (.completeReply (.ok _)) =>
    isTrue trivial
  | .reply (.createReply (.ok id)) => inferInstanceAs (Decidable (id.isSome = true))
  | .reply .storeCompletes => inferInstanceAs (Decidable (_ ∧ _))
  | .change _ | .reply (.statReply _) | .reply (.loadReply _) | .reply (.putReply (.error _))
  | .reply (.createReply (.error _)) | .reply (.openReply _) | .reply (.readReply _)
  | .reply (.partReply (.error _)) | .reply (.completeReply (.error _)) | .reply .abortReply
  | .reply .timeout | .reply .drop => isFalse id

/-- What smooth steps keep beside what is known everywhere. -/
structure Calm (file : List UInt8) (w : LiveUpload) : Prop where
  unchanged : w.file = file
  taken : w.taken <+: file
  sized : w.run.pc = .sizing ∨ w.run.sizeBytes = file.length
  alive : w.run.pc ∉ [.aborting, .failed, .dropped]
  abortSent : w.run.abortSent = false

variable (job) in
/-- How far an upload is from its end when no bytes are left to read. -/
def rank (s : UploadRun) : Nat :=
  match s.pc with
  | .sizing => 8
  | .creating => 7
  | .opening => 6
  | .loading => 5
  | .reading => 4
  | .sending => if s.buf.length < job.partSize then 3 else 5
  | .completing => if s.completed then 1 else 2
  | .putting | .aborting => 1
  | .returned | .failed | .dropped => 0

variable (job) in
/-- The steps that are left, at most. -/
def stepsLeft (w : LiveUpload) : Nat := 3 * (w.file.length - w.taken.length) + rank job w.run

theorem calm_start (file : List UInt8) : Calm file (start file) :=
  ⟨rfl, List.nil_prefix, Or.inl rfl, show UploadPc.sizing ∉ _ by decide, rfl⟩

theorem calm_streaming (file : List UInt8) (id : String) : Calm file (streaming file id) :=
  ⟨rfl, List.nil_prefix, Or.inr rfl, show UploadPc.opening ∉ _ by decide, rfl⟩

/-- The pc and the fields that `fill` leaves. -/
theorem fill_cases (s : UploadRun) (atEnd : Bool) (hpos : 0 < job.partSize)
    (hfits : s.buf.length ≤ job.partSize) :
    (s.fill job atEnd).sizeBytes = s.sizeBytes ∧ (s.fill job atEnd).abortSent = s.abortSent ∧
      ((s.fill job atEnd).pc = .reading ∧ atEnd = false ∨
        (s.fill job atEnd).pc = .sending ∧ (s.fill job atEnd).buf = s.buf ∧
          (atEnd = false → s.buf.length = job.partSize) ∨
        (s.fill job atEnd).pc = .completing ∧ (s.fill job atEnd).completed = s.completed ∧
          atEnd = true) := by
  unfold UploadRun.fill
  split
  · rename_i hroom
    exact ⟨rfl, rfl, Or.inl ⟨rfl, hroom.2⟩⟩
  · rename_i hleft
    split
    · rename_i hempty
      refine ⟨rfl, rfl, Or.inr (Or.inr ⟨rfl, rfl, ?_⟩)⟩
      rcases hatEnd : atEnd with _ | _
      · exact absurd ⟨by simpa [hempty] using hpos, hatEnd⟩ hleft
      · rfl
    · refine ⟨rfl, rfl, Or.inr (Or.inl ⟨rfl, rfl, ?_⟩)⟩
      intro hatEnd
      have hlong : ¬ s.buf.length < job.partSize := fun hlt => hleft ⟨hlt, hatEnd⟩
      omega

theorem calm_note {file : List UInt8} {s : UploadRun} (hw : Calm file w)
    (hsized : s.sizeBytes = file.length)
    (halive : s.pc ∉ [.aborting, .failed, .dropped])
    (habort : s.abortSent = w.run.abortSent) : Calm file (w.note s) :=
  ⟨hw.unchanged, hw.taken, Or.inr hsized, halive, habort.trans hw.abortSent⟩

theorem Calm.stored {file : List UInt8} (hw : Calm file w) (object : Option (List UInt8)) :
    Calm file { w with object := object } :=
  ⟨hw.unchanged, hw.taken, hw.sized, hw.alive, hw.abortSent⟩

theorem calm_fill {file : List UInt8} {s : UploadRun} (atEnd : Bool) (hpos : 0 < job.partSize)
    (hfits : s.buf.length ≤ job.partSize) (hw : Calm file w)
    (hsized : s.sizeBytes = file.length) (habort : s.abortSent = w.run.abortSent) :
    Calm file (w.note (s.fill job atEnd)) := by
  obtain ⟨hsize, hsent, hcases⟩ := fill_cases s atEnd hpos hfits
  apply calm_note hw (hsize.trans hsized) _ (hsent.trans habort)
  rcases hcases with ⟨hpc, -⟩ | ⟨hpc, -⟩ | ⟨hpc, -⟩
  all_goals rw [hpc]; decide

variable (job) in
theorem rank_fill (s : UploadRun) (atEnd : Bool) :
    rank job (s.fill job atEnd) ≤ 5 ∧
      (atEnd = true → s.buf.length < job.partSize → rank job (s.fill job atEnd) ≤ 3) ∧
      (s.buf = [] → rank job (s.fill job atEnd) ≤ 4) := by
  unfold UploadRun.fill
  split
  · rename_i hroom
    refine ⟨by simp [rank], ?_, by simp [rank]⟩
    intro hatEnd
    rw [hatEnd] at hroom
    exact absurd hroom.2 (by decide)
  · split
    · have hle : rank job s.complete ≤ 2 := by
        cases hcompleted : s.completed
        · simp [rank, UploadRun.complete, hcompleted]
        · simp [rank, UploadRun.complete, hcompleted]
      exact ⟨by omega, fun _ _ => by omega, fun _ => by omega⟩
    · rename_i hnonempty
      refine ⟨?_, ?_, fun hempty => absurd hempty hnonempty⟩
      · simp only [rank]
        split <;> omega
      · intro _ hshort
        simp only [rank]
        rw [if_pos hshort]

theorem stepsLeft_note_eq (s : UploadRun) :
    stepsLeft job (w.note s) = 3 * (w.file.length - w.taken.length) + rank job s :=
  rfl

theorem stepsLeft_note {s : UploadRun} (h : rank job s < rank job w.run) :
    stepsLeft job (w.note s) < stepsLeft job w := by
  rw [stepsLeft_note_eq, stepsLeft]
  omega

/-- A read of a file nobody changes goes on where the last one ended. -/
theorem calm_read {file : List UInt8} (hw : Calm file w) (count : Nat) :
    Calm file { w with taken := w.taken ++ w.read count } := by
  refine ⟨hw.unchanged, ?_, hw.sized, hw.alive, hw.abortSent⟩
  obtain ⟨rest, hrest⟩ := hw.taken
  have hread : w.read count = rest.take count := by
    rw [read, hw.unchanged, ← hrest, List.drop_left]
  refine ⟨rest.drop count, ?_⟩
  rw [hread, List.append_assoc, List.take_append_drop, hrest]

theorem smooth_read {file : List UInt8} {count : Nat} {w' : LiveUpload} (hpos : 0 < job.partSize)
    (hw : w.At job E) (hcalm : Calm file w) (h : w.step job (.read count) = some w') :
    Calm file w' ∧ stepsLeft job w' < stepsLeft job w := by
  have hread := calm_read hcalm count
  have hle : w.taken.length + (w.read count).length ≤ w.file.length := by
    have hleft := hread.taken.length_le
    rw [hcalm.unchanged]
    simpa using hleft
  simp only [step] at h
  split at h
  · rename_i hpc
    have hsized : w.run.sizeBytes = file.length := by
      rcases hcalm.sized with hsizing | hsized
      · rw [hpc] at hsizing
        cases hsizing
      · exact hsized
    split at h
    · cases h
    · split at h
      · obtain ⟨s, hs, rfl⟩ := advance_eq_some h
        simp only [UploadRun.step, hpc, if_true] at hs
        obtain rfl := Option.some.inj hs
        refine ⟨calm_note hcalm hsized (show UploadPc.putting ∉ _ by decide) rfl, ?_⟩
        apply stepsLeft_note
        simp [rank, hpc]
      · rename_i hdata
        obtain rfl := Option.some.inj h
        refine ⟨hread, ?_⟩
        have hlong := List.length_pos_iff.mpr hdata
        simp only [stepsLeft, List.length_append]
        omega
  · rename_i hpc
    have hsized : w.run.sizeBytes = file.length := by
      rcases hcalm.sized with hsizing | hsized
      · rw [hpc] at hsizing
        cases hsizing
      · exact hsized
    simp only [At, hpc] at hw
    split at h
    · cases h
    · obtain ⟨s, hs, rfl⟩ := advance_eq_some h
      simp only [UploadRun.step, hpc, if_true] at hs
      split at hs
      · cases hs
      · rename_i hfits
        obtain rfl := Option.some.inj hs
        have hroom := hw.room
        have hfits' : (w.run.buf ++ w.read count).length ≤ job.partSize := by
          rw [List.length_append]
          omega
        refine ⟨calm_fill _ hpos hfits' hread hsized rfl, ?_⟩
        have hleft : stepsLeft job w = 3 * (w.file.length - w.taken.length) + 4 := by
          simp [stepsLeft, rank, hpc]
        have hrank := rank_fill job { w.run with buf := w.run.buf ++ w.read count }
          (decide (w.read count = []))
        rw [stepsLeft_note_eq, hleft]
        simp only [hpc] at hrank
        generalize UploadRun.fill job _ _ = s at hrank ⊢
        simp only [List.length_append]
        obtain ⟨hle', hend, -⟩ := hrank
        by_cases hdata : w.read count = []
        · have hlow := hend (decide_eq_true hdata) (by simpa [hdata] using hroom)
          omega
        · have hlong := List.length_pos_iff.mpr hdata
          omega
  · cases h

theorem Calm.size_eq {file : List UInt8} (hw : Calm file w) (hpc : w.run.pc ≠ .sizing) :
    w.run.sizeBytes = file.length :=
  hw.sized.resolve_left hpc

theorem smooth_reply {file : List UInt8} {e : UploadEvent} {w' : LiveUpload}
    (hpos : 0 < job.partSize) (hw : w.At job E) (hcalm : Calm file w)
    (hsmooth : w.Smooth (.reply e)) (h : w.answer job e = some w') :
    Calm file w' ∧ stepsLeft job w' < stepsLeft job w := by
  cases e with
  | putReply reply =>
    rcases reply with e | _
    · cases hsmooth
    · obtain ⟨w'', hw'', rfl⟩ := Option.map_eq_some_iff.mp h
      obtain ⟨s, hs, rfl⟩ := advance_eq_some hw''
      simp only [UploadRun.step] at hs
      split at hs
      · rename_i hpc
        obtain rfl := Option.some.inj hs
        have hsized := hcalm.size_eq (by simp [hpc])
        have hnote : Calm file (w.note (w.run.succeed job w.run.hashed)) :=
          calm_note hcalm hsized (show UploadPc.returned ∉ _ by decide) rfl
        have hless : stepsLeft job (w.note (w.run.succeed job w.run.hashed)) < stepsLeft job w :=
          stepsLeft_note (by simp [rank, UploadRun.succeed, hpc])
        exact ⟨hnote.stored _, hless⟩
      · cases hs
  | createReply reply =>
    rcases reply with e | _ | id
    · cases hsmooth
    · cases hsmooth
    · obtain ⟨s, hs, rfl⟩ := advance_eq_some h
      simp only [UploadRun.step] at hs
      split at hs
      · rename_i hpc
        obtain rfl := Option.some.inj hs
        have hsized := hcalm.size_eq (by simp [hpc])
        refine ⟨calm_note hcalm hsized (show UploadPc.opening ∉ _ by decide) rfl, ?_⟩
        exact stepsLeft_note (by simp [rank, hpc])
      · cases hs
  | partReply reply =>
    rcases reply with e | eTag
    · cases hsmooth
    · simp only [answer] at h
      split at h
      · cases h
      · obtain ⟨s, hs, rfl⟩ := advance_eq_some h
        simp only [UploadRun.step] at hs
        split at hs
        · rename_i hpc
          simp only [At, hpc] at hw
          obtain rfl := Option.some.inj hs
          have hsized := hcalm.size_eq (by simp [hpc])
          unfold UploadRun.next
          split
          · rename_i hshort
            refine ⟨calm_note hcalm hsized (show UploadPc.completing ∉ _ by decide) rfl, ?_⟩
            apply stepsLeft_note
            have hshort' : w.run.buf.length < job.partSize := hshort
            simp [rank, UploadRun.complete, hpc, hshort', hw.completed]
          · rename_i hlong
            have hlong' : ¬ w.run.buf.length < job.partSize := hlong
            refine ⟨calm_fill false hpos (Nat.zero_le _) hcalm hsized rfl, ?_⟩
            apply stepsLeft_note
            have hle := (rank_fill job { w.run with
              parts := w.run.parts ++ [(w.run.partNumber, eTag)],
              partNumber := w.run.partNumber + 1, buf := [] } false).2.2 rfl
            have hrank : rank job w.run = 5 := by simp [rank, hpc, hlong']
            rw [hrank]
            exact Nat.lt_succ_of_le hle
        · cases hs
  | storeCompletes =>
    obtain ⟨hpc, hcompleted⟩ := hsmooth
    obtain ⟨w'', hw'', rfl⟩ := Option.map_eq_some_iff.mp h
    obtain ⟨s, hs, rfl⟩ := advance_eq_some hw''
    simp only [UploadRun.step] at hs
    split at hs
    · obtain rfl := Option.some.inj hs
      have hsized := hcalm.size_eq (by simp [hpc])
      have hnote : Calm file (w.note { w.run with completed := true }) :=
        calm_note hcalm hsized hcalm.alive rfl
      have hless : stepsLeft job (w.note { w.run with completed := true }) < stepsLeft job w :=
        stepsLeft_note (by simp [rank, hpc, hcompleted])
      exact ⟨hnote.stored _, hless⟩
    · cases hs
  | completeReply reply =>
    rcases reply with e | _
    · cases hsmooth
    · obtain ⟨s, hs, rfl⟩ := advance_eq_some h
      simp only [UploadRun.step] at hs
      split at hs
      · rename_i hpc
        split at hs
        · rename_i hcompleted
          obtain rfl := Option.some.inj hs
          have hsized := hcalm.size_eq (by simp [hpc])
          refine ⟨calm_note hcalm hsized (show UploadPc.returned ∉ _ by decide) rfl, ?_⟩
          exact stepsLeft_note (by simp [rank, UploadRun.succeed, hpc, hcompleted])
        · cases hs
      · cases hs
  | _ => cases hsmooth

/-- A smooth step leaves the file and the replies in order, and comes closer to the end. -/
theorem smooth_step {file : List UInt8} {e : LiveEvent} {w' : LiveUpload}
    (hpos : 0 < job.partSize) (hw : w.At job E) (hcalm : Calm file w) (hsmooth : w.Smooth e)
    (h : w.step job e = some w') : Calm file w' ∧ stepsLeft job w' < stepsLeft job w := by
  cases e with
  | change data => cases hsmooth
  | stat =>
    obtain ⟨s, hs, rfl⟩ := advance_eq_some h
    simp only [UploadRun.step] at hs
    split at hs
    · rename_i hpc
      have hlen : w.file.length = file.length := congrArg List.length hcalm.unchanged
      split at hs
      · obtain rfl := Option.some.inj hs
        refine ⟨calm_note hcalm hlen (show UploadPc.creating ∉ _ by decide) rfl, ?_⟩
        exact stepsLeft_note (by simp [rank, hpc])
      · obtain rfl := Option.some.inj hs
        refine ⟨calm_note hcalm hlen (show UploadPc.loading ∉ _ by decide) rfl, ?_⟩
        exact stepsLeft_note (by simp [rank, hpc])
    · cases hs
  | opened =>
    obtain ⟨s, hs, rfl⟩ := advance_eq_some h
    simp only [UploadRun.step] at hs
    split at hs
    · rename_i hpc
      simp only [At, hpc] at hw
      obtain ⟨hw, -⟩ := hw
      obtain rfl := Option.some.inj hs
      have hsized := hcalm.size_eq (by simp [hpc])
      refine ⟨calm_fill false hpos (by rw [hw.buf]; exact Nat.zero_le _) hcalm hsized rfl, ?_⟩
      apply stepsLeft_note
      have hle := (rank_fill job w.run false).2.2 hw.buf
      have hrank : rank job w.run = 6 := by simp [rank, hpc]
      omega
    · cases hs
  | read count => exact smooth_read hpos hw hcalm h
  | reply e => exact smooth_reply hpos hw hcalm hsmooth h

/-! ### Numbers of parts -/

theorem i32_of_lt {n : Nat} (h : n < 2 ^ 31) : i32 n = n := by
  unfold i32
  rw [Int.bmod_def]
  omega

theorem numbers_of_lt {n : Nat} (h : n < 2 ^ 31) :
    numbers n = (List.range n).map fun i : Nat => (i : Int) + 1 := by
  unfold numbers
  apply List.map_congr_left
  intro i hi
  have hlt := List.mem_range.mp hi
  rw [i32_of_lt (by omega)]
  omega

end LiveUpload

/-- Full parts and a last one that is not empty take that many bytes. -/
theorem PartsOf.count {partSize : Nat} {bytes : List UInt8} {parts : List (Int × List UInt8)}
    (h : PartsOf partSize bytes parts) (hpos : 0 < partSize) :
    parts.length ≤ (bytes.length + partSize - 1) / partSize := by
  obtain ⟨-, hjoined, hfull, hnonempty⟩ := h
  rcases List.eq_nil_or_concat (parts.map Prod.snd) with hnil | ⟨front, last, hparts⟩
  · have hlen : parts.length = 0 := by
      have hmap : (parts.map Prod.snd).length = 0 := by rw [hnil]; rfl
      rwa [List.length_map] at hmap
    rw [hlen]
    exact Nat.zero_le _
  · rw [List.concat_eq_append] at hparts
    rw [hparts] at hjoined hfull hnonempty
    rw [List.dropLast_concat] at hfull
    have hlen : parts.length = front.length + 1 := by
      have hmap : (parts.map Prod.snd).length = front.length + 1 := by
        rw [hparts, List.length_append]
        rfl
      rwa [List.length_map] at hmap
    have hfront : front.flatten.length = front.length * partSize := by
      rw [List.length_flatten, List.map_eq_replicate_iff.mpr fun b hb => hfull b hb]
      simp
    have hlast : 0 < last.length := List.length_pos_iff.mpr (hnonempty last (by simp))
    have hbytes : bytes.length = front.length * partSize + last.length := by
      rw [← hjoined, List.flatten_append, List.length_append, hfront]
      simp
    rw [hlen, Nat.le_div_iff_mul_le hpos, hbytes, Nat.succ_mul]
    omega

namespace LiveUpload

variable {job : UploadJob} {E : Nat → List UInt8 → Prop} {w : LiveUpload}

/-! ### To the end -/

/-- As long as it is not over, a calm upload can take a smooth step. -/
theorem smooth_progress {file : List UInt8} (hpos : 0 < job.partSize)
    (hcount : (file.length + job.partSize - 1) / job.partSize < 2 ^ 31 - 1)
    (hw : w.At job E) (hcalm : Calm file w) (hover : w.run.isOver = false) :
    ∃ e w', w.Smooth e ∧ w.step job e = some w' := by
  have halive := hcalm.alive
  unfold At at hw
  generalize hpc : w.run.pc = pc at hw halive
  cases pc with
  | sizing =>
    refine ⟨.stat, ?_⟩
    simp only [Smooth, step, advance, UploadRun.step, hpc, if_true, true_and]
    split <;> exact ⟨_, rfl⟩
  | loading =>
    refine ⟨.read 1, ?_⟩
    simp only [Smooth, step, hpc, true_and]
    rw [if_neg (by decide)]
    split
    · simp only [advance, UploadRun.step, hpc, if_true]
      exact ⟨_, rfl⟩
    · exact ⟨_, rfl⟩
  | putting =>
    refine ⟨.reply (.putReply (.ok ())), ?_⟩
    simp only [Smooth, step, answer, advance, UploadRun.step, hpc, if_true, true_and]
    exact ⟨_, rfl⟩
  | creating =>
    refine ⟨.reply (.createReply (.ok (some ""))), ?_⟩
    simp only [Smooth, step, answer, advance, UploadRun.step, hpc, if_true]
    exact ⟨_, rfl, rfl⟩
  | opening =>
    refine ⟨.opened, ?_⟩
    simp only [Smooth, step, advance, UploadRun.step, hpc, if_true, true_and]
    exact ⟨_, rfl⟩
  | reading =>
    have hroom := hw.room
    have hshort : (w.read 1).length ≤ 1 := by simp [read]
    refine ⟨.read 1, ?_⟩
    simp only [Smooth, step, hpc, advance, UploadRun.step, if_true, true_and]
    rw [if_neg (by omega), if_neg (by omega)]
    exact ⟨_, rfl⟩
  | sending =>
    have hlong := hw.parts.count hpos
    have hleft := hcalm.taken.length_le
    have hle : (w.taken.length + job.partSize - 1) / job.partSize ≤
        (file.length + job.partSize - 1) / job.partSize := Nat.div_le_div_right (by omega)
    have hfirst : 0 < w.uploaded.length := by
      have hlast := hw.last
      rcases hparts : w.uploaded with _ | ⟨part, rest⟩
      · rw [bodies, hparts] at hlast
        cases hlast
      · exact Nat.succ_pos _
    have hnumber : ¬ i32 w.run.partNumber < 1 := by
      rw [hw.partNumber, i32_of_lt (by omega)]
      omega
    refine ⟨.reply (.partReply (.ok none)), ?_⟩
    simp only [Smooth, step, answer, advance, UploadRun.step, hpc, if_true, true_and]
    rw [if_neg hnumber]
    exact ⟨_, rfl⟩
  | completing =>
    obtain ⟨-, -, -, hsent, -, -⟩ := hw
    rcases hcompleted : w.run.completed with _ | _
    · refine ⟨.reply .storeCompletes, ?_⟩
      simp only [Smooth, step, answer, advance, UploadRun.step, hpc, hcompleted, hsent,
        hcalm.abortSent, and_self, if_true, true_and]
      exact ⟨_, rfl⟩
    · refine ⟨.reply (.completeReply (.ok ())), ?_⟩
      simp only [Smooth, step, answer, advance, UploadRun.step, hpc, hcompleted, if_true,
        true_and]
      exact ⟨_, rfl⟩
  | returned => simp [UploadRun.isOver, hpc] at hover
  | aborting => exact absurd (by simp) halive
  | failed => exact absurd (by simp) halive
  | dropped => exact absurd (by simp) halive

/-- An answer is a step of the upload, at which the store may write the object. -/
theorem answer_cases {e : UploadEvent} {w' : LiveUpload} (h : w.answer job e = some w') :
    ∃ s object, w.run.step job e = some s ∧ w' = { w.note s with object := object } := by
  have hadvance : ∀ {w'' : LiveUpload}, w.advance job e = some w'' →
      ∃ s, w.run.step job e = some s ∧ w'' = { w.note s with object := w.object } := by
    intro w'' h
    obtain ⟨s, hs, rfl⟩ := advance_eq_some h
    exact ⟨s, hs, rfl⟩
  unfold answer at h
  split at h
  · cases h
  · cases h
  · cases h
  · cases h
  · obtain ⟨w'', hw'', rfl⟩ := Option.map_eq_some_iff.mp h
    obtain ⟨s, hs, rfl⟩ := hadvance hw''
    exact ⟨s, _, hs, rfl⟩
  · split at h
    · cases h
    · obtain ⟨s, hs, rfl⟩ := hadvance h
      exact ⟨s, _, hs, rfl⟩
  · obtain ⟨w'', hw'', rfl⟩ := Option.map_eq_some_iff.mp h
    obtain ⟨s, hs, rfl⟩ := hadvance hw''
    exact ⟨s, _, hs, rfl⟩
  · obtain ⟨s, hs, rfl⟩ := hadvance h
    exact ⟨s, _, hs, rfl⟩

/-- Every step but a write to the file and a read of a small one is a step of the upload,
    at a state that has its place, its size and its id. -/
theorem step_cases {e : LiveEvent} {w' : LiveUpload} (h : w.step job e = some w') :
    (∃ data, e = .change data ∧ w' = { w with file := data }) ∨
      (∃ count, e = .read count ∧ w.run.pc = .loading ∧
        w' = { w with taken := w.taken ++ w.read count }) ∨
      ∃ e' s, w.run.step job e' = some s ∧ w'.run = s ∧
        (w'.taken = w.taken ∨ ∃ count, e = .read count ∧ w'.taken = w.taken ++ w.read count) := by
  cases e with
  | change data =>
    left
    exact ⟨data, rfl, (Option.some.inj h).symm⟩
  | stat =>
    obtain ⟨s, hs, rfl⟩ := advance_eq_some h
    exact Or.inr (Or.inr ⟨_, s, hs, rfl, Or.inl rfl⟩)
  | opened =>
    obtain ⟨s, hs, rfl⟩ := advance_eq_some h
    exact Or.inr (Or.inr ⟨_, s, hs, rfl, Or.inl rfl⟩)
  | read count =>
    simp only [step] at h
    split at h
    · rename_i hpc
      split at h
      · cases h
      · split at h
        · obtain ⟨s, hs, rfl⟩ := advance_eq_some h
          exact Or.inr (Or.inr ⟨_, s, hs, rfl, Or.inl rfl⟩)
        · exact Or.inr (Or.inl ⟨count, rfl, hpc, (Option.some.inj h).symm⟩)
    · split at h
      · cases h
      · obtain ⟨s, hs, rfl⟩ := advance_eq_some h
        exact Or.inr (Or.inr ⟨_, s, hs, rfl, Or.inr ⟨count, rfl, rfl⟩⟩)
    · cases h
  | reply e =>
    obtain ⟨s, object, hs, rfl⟩ := answer_cases h
    exact Or.inr (Or.inr ⟨_, s, hs, rfl, Or.inl rfl⟩)

/-- An upload in parts stays one. -/
theorem step_named {e : LiveEvent} {w' : LiveUpload} (h : w.step job e = some w')
    (hw : w.run.uploadId.isSome = true) : w'.run.uploadId.isSome = true := by
  rcases step_cases h with ⟨data, -, rfl⟩ | ⟨count, -, -, rfl⟩ | ⟨e', s, hs, hrun, -⟩
  · exact hw
  · exact hw
  · rw [hrun]
    exact UploadRun.uploadId_step hs hw

/-- What a run of smooth steps leaves, and how long it can be. -/
theorem smooth_run {file : List UInt8} (hpos : 0 < job.partSize) {es : List LiveEvent}
    {w' : LiveUpload} (hw : w.At job fun _ bytes => bytes = file) (hcalm : Calm file w)
    (hrun : Transitions.run (step job) w es = some w') (hsmooth : Fine (step job) Smooth w es) :
    w'.At job (fun _ bytes => bytes = file) ∧ Calm file w' ∧
      (w.run.uploadId.isSome = true → w'.run.uploadId.isSome = true) ∧
      es.length + stepsLeft job w' ≤ stepsLeft job w := by
  induction es generalizing w with
  | nil =>
    obtain rfl := Option.some.inj hrun
    exact ⟨hw, hcalm, id, by simp⟩
  | cons e es ih =>
    unfold Transitions.run at hrun
    unfold Fine at hsmooth
    rcases hstep : w.step job e with _ | next
    · rw [hstep] at hrun
      cases hrun
    · rw [hstep] at hrun hsmooth
      obtain ⟨hcalm', hless⟩ := smooth_step hpos hw hcalm hsmooth.1 hstep
      have hw' : next.At job fun _ bytes => bytes = file := by
        apply at_step hpos hw _ hstep
        intro count _ hend
        rw [hcalm.unchanged] at hend
        exact hcalm.taken.eq_of_length_le hend
      obtain ⟨hat, hcalm'', hnamed, hlen⟩ := ih hw' hcalm' hrun hsmooth.2
      refine ⟨hat, hcalm'', fun hid => hnamed (step_named hstep hid), ?_⟩
      rw [List.length_cons]
      omega

/-- **Multipart equals single-shot.**  On a file nobody changes, when every request
    succeeds, an upload takes a bounded number of steps, can always take the next one
    until it is over, and then the object is the file and the outcome has its size and
    its hash, in one request or in parts.  The parts, of `stream_parts` called for a file
    of any size too, are numbered from 1, all full but the last, which is not empty, and
    make up the file.  The client is built with a positive part size. -/
theorem multipart_eq_single (hpos : 0 < job.partSize) (file : List UInt8)
    (hcount : (file.length + job.partSize - 1) / job.partSize < 2 ^ 31 - 1) {begin : LiveUpload}
    (hbegin : begin = start file ∨ ∃ id, begin = streaming file id) {es : List LiveEvent}
    (hrun : Transitions.run (step job) begin es = some w)
    (hsmooth : Fine (step job) Smooth begin es) :
    es.length ≤ 3 * file.length + 8 ∧
      (w.run.isOver = false → ∃ e w', w.Smooth e ∧ w.step job e = some w') ∧
      (w.run.isOver = true → w.object = some file ∧
        w.run.result =
          some (.ok ⟨job.key, file.length, job.contentType, job.sha256 file⟩) ∧
        (job.multipartThreshold < file.length ∨ begin ≠ start file →
          w.uploaded.map Prod.fst = (List.range w.uploaded.length).map
            (fun i : Nat => (i : Int) + 1) ∧
          w.bodies.flatten = file ∧ (∀ body ∈ w.bodies.dropLast, body.length = job.partSize) ∧
          ∀ body ∈ w.bodies, body ≠ [])) := by
  have hfirst : begin.At job (fun _ bytes => bytes = file) ∧ Calm file begin ∧
      stepsLeft job begin ≤ 3 * file.length + 8 ∧
      (begin ≠ start file → begin.run.uploadId.isSome = true) := by
    rcases hbegin with rfl | ⟨id, rfl⟩
    · exact ⟨at_start file, calm_start file, Nat.le_refl _, fun hne => absurd rfl hne⟩
    · refine ⟨at_streaming file id, calm_streaming file id, ?_, fun _ => rfl⟩
      exact Nat.add_le_add_left (by decide : 6 ≤ 8) _
  obtain ⟨hat, hcalm, hleft, hnamed⟩ := hfirst
  obtain ⟨hat', hcalm', hkept, hlen⟩ := smooth_run hpos hat hcalm hrun hsmooth
  refine ⟨by omega, smooth_progress hpos hcount hat' hcalm', ?_⟩
  intro hover
  have hpc : w.run.pc = .returned := by
    have halive := hcalm'.alive
    rcases UploadRun.over_iff.mp hover with hpc | hpc | hpc
    · exact hpc
    · exact absurd (by simp [hpc]) halive
    · exact absurd (by simp [hpc]) halive
  simp only [At, hpc] at hat'
  obtain ⟨hresult, htaken, hobject, hparts, hsmall⟩ := hat'
  have hsize := hcalm'.size_eq (by simp [hpc])
  rw [htaken] at hresult hobject hparts
  rw [hsize] at hresult hsmall
  refine ⟨hobject, hresult, ?_⟩
  intro hmulti
  have hid : w.run.uploadId.isSome = true := by
    rcases hmulti with hlarge | hne
    · rcases hid : w.run.uploadId with _ | id
      · exact absurd (hsmall hid) (Nat.not_le.mpr hlarge)
      · rfl
    · exact hkept (hnamed hne)
  have hpartsOf := hparts (Or.inr hid)
  have hlong := hpartsOf.count hpos
  obtain ⟨hnumbered, hjoined, hfull, hnonempty⟩ := hpartsOf
  rw [numbers_of_lt (by omega)] at hnumbered
  exact ⟨hnumbered, hjoined, hfull, hnonempty⟩

/-- Three bytes in parts of two, read one or two at a time. -/
def threeByteRun : List LiveEvent :=
  [.stat, .reply (.createReply (.ok (some "u1"))), .opened, .read 1, .read 1,
    .reply (.partReply (.ok none)), .read 2, .read 1, .reply (.partReply (.ok none)),
    .reply .storeCompletes, .reply (.completeReply (.ok ()))]

theorem multipart_eq_single_threeBytes : ∃ w,
    Transitions.run (step UploadRun.threeBytes) (start [1, 2, 3]) threeByteRun = some w ∧
      w.object = some [1, 2, 3] ∧ w.bodies.flatten = [1, 2, 3] := by
  obtain ⟨w, hrun, hover⟩ : ∃ w, Transitions.run (step UploadRun.threeBytes) (start [1, 2, 3])
      threeByteRun = some w ∧ w.run.isOver = true :=
    Option.map_eq_some_iff.mp (by decide +kernel :
      (Transitions.run (step UploadRun.threeBytes) (start [1, 2, 3]) threeByteRun).map
        (fun w => w.run.isOver) = some true)
  refine ⟨w, hrun, ?_⟩
  have hsmooth : Fine (step UploadRun.threeBytes) Smooth (start [1, 2, 3]) threeByteRun := by
    decide +kernel
  have hcount : (([1, 2, 3] : List UInt8).length + UploadRun.threeBytes.partSize - 1) /
      UploadRun.threeBytes.partSize < 2 ^ 31 - 1 :=
    Nat.lt_of_le_of_lt (by decide : _ ≤ 2) (by omega)
  obtain ⟨-, -, hend⟩ := multipart_eq_single (by decide : 0 < UploadRun.threeBytes.partSize)
    [1, 2, 3] hcount (Or.inl rfl) hrun hsmooth
  obtain ⟨hobject, -, hparts⟩ := hend hover
  exact ⟨hobject, (hparts (Or.inl (by decide))).2.1⟩

/-! ### A file that changes -/

/-- A read that meets the end of the file meets it where its size said. -/
def Steady (w : LiveUpload) : LiveEvent → Prop
  | .read _ => w.file.length ≤ w.taken.length → w.taken.length = w.run.sizeBytes
  | _ => True

instance (e : LiveEvent) : Decidable (w.Steady e) :=
  match e with
  | .read _ => inferInstanceAs (Decidable (_ → _))
  | .change _ | .stat | .opened | .reply _ => isTrue trivial

/-- A read that meets the end of the file is the last one. -/
theorem ended_of_read {count : Nat} {w' : LiveUpload} (hw : w.At job E)
    (h : w.step job (.read count) = some w') (hend : w.file.length ≤ w.taken.length) :
    w'.run.Ended job ∧ w'.run.sizeBytes = w.run.sizeBytes ∧ w'.taken = w.taken := by
  simp only [step] at h
  split at h
  · rename_i hpc
    split at h
    · cases h
    · rename_i hcount
      rw [if_pos ((read_eq_nil_iff hcount).mpr hend)] at h
      obtain ⟨s, hs, rfl⟩ := advance_eq_some h
      simp only [UploadRun.step, hpc, if_true] at hs
      obtain rfl := Option.some.inj hs
      exact ⟨trivial, rfl, rfl⟩
  · rename_i hpc
    simp only [At, hpc] at hw
    split at h
    · cases h
    · rename_i hcount
      have hempty := (read_eq_nil_iff fun hzero => hcount (Or.inl hzero)).mpr hend
      obtain ⟨s, hs, rfl⟩ := advance_eq_some h
      simp only [UploadRun.step, hpc, if_true, hempty] at hs
      split at hs
      · cases hs
      · obtain rfl := Option.some.inj hs
        have hroom : (w.run.buf ++ []).length < job.partSize := by simpa using hw.room
        obtain ⟨hended, hsize⟩ := UploadRun.ended_fill
          (s := { w.run with buf := w.run.buf ++ [] }) hroom
        simp only [hpc] at hended hsize
        refine ⟨by simpa [note] using hended, by simpa [note] using hsize, ?_⟩
        rw [note, hempty]
        exact List.append_nil _
  · cases h

/-- After the end of the file no more is read. -/
theorem ended_run {es : List LiveEvent} {w' : LiveUpload} (hended : w.run.Ended job)
    (hrun : Transitions.run (step job) w es = some w') :
    w'.taken = w.taken ∧ w'.run.sizeBytes = w.run.sizeBytes := by
  induction es generalizing w with
  | nil =>
    obtain rfl := Option.some.inj hrun
    exact ⟨rfl, rfl⟩
  | cons e es ih =>
    unfold Transitions.run at hrun
    split at hrun
    · cases hrun
    · rename_i next hstep
      have hnoread : ∀ count, e ≠ .read count := by
        rintro count rfl
        simp only [step] at hstep
        unfold UploadRun.Ended at hended
        split at hstep
        · rename_i hpc
          simp [hpc] at hended
        · rename_i hpc
          simp [hpc] at hended
        · cases hstep
      rcases step_cases hstep with ⟨data, -, rfl⟩ | ⟨count, he, -⟩ | ⟨e', s, hs, hrun', htaken⟩
      · exact ih (w := { w with file := data }) hended hrun
      · exact absurd he (hnoread count)
      · obtain ⟨hended', hsize⟩ := UploadRun.ended_step hs hended
        rw [← hrun'] at hended' hsize
        obtain ⟨htaken', hsize'⟩ := ih hended' hrun
        refine ⟨htaken'.trans ?_, hsize'.trans hsize⟩
        rcases htaken with htaken | ⟨count, he, -⟩
        · exact htaken
        · exact absurd he (hnoread count)

/-- Reads that meet the end where the size said leave an upload with all its bytes. -/
theorem at_of_steady {es : List LiveEvent} {w' : LiveUpload} (hpos : 0 < job.partSize)
    (hw : w.At job fun size bytes => bytes.length = size)
    (hrun : Transitions.run (step job) w es = some w') (hfine : Fine (step job) Steady w es) :
    w'.At job fun size bytes => bytes.length = size := by
  apply (reaches_of_fine es hrun hfine).invariant hw
  intro w e w' hw hsteady hstep
  apply at_step hpos hw _ hstep
  rintro count rfl hend
  exact hsteady hend

/-- One that meets it elsewhere leaves another number of bytes. -/
theorem length_ne_of_not_steady {es : List LiveEvent} {w' : LiveUpload} (hpos : 0 < job.partSize)
    (hw : w.At job fun _ _ => True) (hrun : Transitions.run (step job) w es = some w')
    (hfine : ¬ Fine (step job) Steady w es) : w'.taken.length ≠ w'.run.sizeBytes := by
  induction es generalizing w with
  | nil => exact absurd trivial hfine
  | cons e es ih =>
    unfold Transitions.run at hrun
    unfold Fine at hfine
    rcases hstep : w.step job e with _ | next
    · rw [hstep] at hrun
      cases hrun
    · rw [hstep] at hrun hfine
      by_cases hsteady : w.Steady e
      · have hnext : next.At job fun _ _ => True := at_step hpos hw (fun _ _ _ => trivial) hstep
        exact ih hnext hrun fun hrest => hfine ⟨hsteady, hrest⟩
      · cases e with
        | read count =>
          obtain ⟨hend, hne⟩ := Classical.not_imp.mp hsteady
          obtain ⟨hended, hsize, htaken⟩ := ended_of_read hw hstep hend
          obtain ⟨htaken', hsize'⟩ := ended_run hended hrun
          rw [htaken', htaken, hsize', hsize]
          exact hne
        | change data => exact absurd trivial hsteady
        | stat => exact absurd trivial hsteady
        | opened => exact absurd trivial hsteady
        | reply e => exact absurd trivial hsteady

/-- An upload with an outcome has returned. -/
theorem returned_of_ok {es : List LiveEvent} {file : List UInt8} {outcome : UploadOutcome}
    (hrun : Transitions.run (step job) (start file) es = some w)
    (hok : w.run.result = some (.ok outcome)) : w.run.pc = .returned := by
  have hreach := reaches_of_run (step job) (start file) es hrun
  refine hreach.invariant
    (I := fun w => ∀ outcome, w.run.result = some (.ok outcome) → w.run.pc = .returned) ?_ ?_
    outcome hok
  · intro outcome hresult
    cases hresult
  · intro w e w' hw _ hstep outcome hresult
    rcases step_cases hstep with ⟨data, -, rfl⟩ | ⟨count, -, -, rfl⟩ | ⟨e', s, hs, hrun', -⟩
    · exact hw outcome hresult
    · exact hw outcome hresult
    · rw [hrun'] at hresult ⊢
      exact UploadRun.returned_step hs hw hresult

/-- **When the outcome describes the object.**  Whatever a container does to the file,
    the hash of an outcome is that of the object.  Its size is too exactly when the read
    that met the end of the file met it at the offset that `metadata` had given as the
    size. -/
theorem outcome_describes_iff (hpos : 0 < job.partSize) (file : List UInt8)
    (es : List LiveEvent) {outcome : UploadOutcome}
    (hrun : Transitions.run (step job) (start file) es = some w)
    (hok : w.run.result = some (.ok outcome)) :
    ∃ stored, w.object = some stored ∧ outcome.sha256Hex = job.sha256 stored ∧
      (outcome.sizeBytes = stored.length ∧ outcome.sha256Hex = job.sha256 stored ↔
        Fine (step job) Steady (start file) es) := by
  have hpc := returned_of_ok hrun hok
  have hat : w.At job fun _ _ => True := by
    refine (reaches_of_run (step job) (start file) es hrun).invariant (at_start file) ?_
    intro w e w' hw _ hstep
    exact at_step hpos hw (fun _ _ _ => trivial) hstep
  simp only [At, hpc] at hat
  obtain ⟨hresult, -, hobject, -, -⟩ := hat
  rw [hok] at hresult
  obtain rfl : outcome = ⟨job.key, w.run.sizeBytes, job.contentType, job.sha256 w.taken⟩ := by
    simpa using hresult
  refine ⟨w.taken, hobject, rfl, ?_⟩
  constructor
  · rintro ⟨hsize, -⟩
    by_contra hfine
    exact length_ne_of_not_steady hpos (at_start file) hrun hfine hsize.symm
  · intro hfine
    have hsteady := at_of_steady hpos (at_start file) hrun hfine
    simp only [At, hpc] at hsteady
    exact ⟨hsteady.2.1.symm, rfl⟩

/-- A file of one byte is rewritten before it is read. -/
def rewritten (data : List UInt8) : List LiveEvent :=
  [.stat, .change data, .read 5, .read 5, .reply (.putReply (.ok ()))]

/-- Another byte: size and hash fit the object. -/
theorem outcome_describes_overwritten : ∃ w outcome stored,
    Transitions.run (step UploadRun.threeBytes) (start [7]) (rewritten [8]) = some w ∧
      w.run.result = some (.ok outcome) ∧ w.object = some stored ∧
      outcome.sizeBytes = stored.length := by
  refine ⟨_, _, _, rfl, rfl, rfl, ?_⟩
  obtain ⟨stored, hobject, -, hiff⟩ := outcome_describes_iff
    (by decide : 0 < UploadRun.threeBytes.partSize) [7] (rewritten [8]) rfl rfl
  obtain rfl := Option.some.inj hobject
  exact (hiff.mpr (by decide)).1

/-- A byte is appended before the file is read: the outcome gives the old size. -/
theorem outcome_misses_append : ¬ ∀ (file : List UInt8) (es : List LiveEvent) (w : LiveUpload)
    (outcome : UploadOutcome),
    Transitions.run (step UploadRun.threeBytes) (start file) es = some w →
      w.run.result = some (.ok outcome) →
      ∃ stored, w.object = some stored ∧ outcome.sizeBytes = stored.length ∧
        outcome.sha256Hex = UploadRun.threeBytes.sha256 stored := by
  intro hall
  obtain ⟨stored, hobject, hsize, -⟩ := hall [7] (rewritten [7, 8]) _ _ rfl rfl
  obtain rfl := Option.some.inj hobject
  exact absurd hsize (by decide)

end LiveUpload

end Scriptorium
