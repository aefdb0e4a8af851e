import Scriptorium.Service
import Scriptorium.Transitions

/-!
# An export while a container writes

The steps of `export_workspace_object` one by one: the size, the hash and the chunks of
a payload are taken in three passes over its path.  Between any two steps a container
can write to any of its files and put another one at the path; an open file stays the
file that was opened.  An archive is made once and belongs to the export.

`header_describes_iff` says on which runs the header describes the chunks behind it.
-/

namespace Scriptorium

open Posix Transitions

/-- An export whose request has been resolved. -/
structure ExportJob where
  request : ExportRequest
  source : PathBuf
  sha256 : List UInt8 → String

def ExportJob.encoding (job : ExportJob) : WorkspaceObjectEncoding :=
  WorkspaceObjectEncoding.ofInt job.request.encoding

def ExportJob.header (job : ExportJob) (sizeBytes : Nat) (sha256Hex : String) : ExportHeader :=
  match job.encoding with
  | .tarGz => ⟨job.request.sourcePath, job.source.fileName.getD "workspace" ++ ".tar.gz",
      job.encoding.toInt, "application/gzip", sizeBytes, sha256Hex⟩
  | _ => ⟨job.request.sourcePath, job.source.fileName.getD "artifact", job.encoding.toInt,
      guessContentType job.source, sizeBytes, sha256Hex⟩

/-- What an export waits for, or how it ended: `refused` before the stream began,
    `broken` with an error in the stream. -/
inductive ExportPc where
  | checking | packing | sizing | opening | hashing | prepared | reopening | streaming
  | ended | refused | broken | dropped
deriving DecidableEq, Repr

inductive ExportEvent where
  | write (file : Nat) (data : List UInt8)
  | relink (file : Option Nat)
  | checked (isDir : Bool)
  | packed (data : List UInt8)
  | sized
  | opened
  | read (count : Nat)
  | polled
  | failed
  | drop

/-- An export, the files of the workspace and the one at its source path. -/
structure LiveExport where
  pc : ExportPc
  contents : Nat → List UInt8
  atSource : Option Nat
  archive : Option (List UInt8)
  handle : Option Nat
  offset : Nat
  sizeBytes : Nat
  hashed : List UInt8
  messages : List ExportMessage

namespace LiveExport

def start (contents : Nat → List UInt8) (atSource : Option Nat) : LiveExport where
  pc := .checking
  contents := contents
  atSource := atSource
  archive := none
  handle := none
  offset := 0
  sizeBytes := 0
  hashed := []
  messages := []

variable (job : ExportJob) (w : LiveExport)

/-- The payload as `metadata` and `open` find it. -/
def payload : Option (List UInt8) :=
  match w.archive with
  | some data => some data
  | none => w.atSource.map w.contents

/-- The payload as the open file shows it. -/
def open_ : List UInt8 :=
  match w.archive, w.handle with
  | some data, _ => data
  | none, some file => w.contents file
  | none, none => []

def read (count : Nat) : List UInt8 := (w.open_.drop w.offset).take count

def isOver : Bool :=
  match w.pc with
  | .ended | .refused | .broken | .dropped => true
  | _ => false

def step (w : LiveExport) : ExportEvent → Option LiveExport
  | .write file data => some { w with contents := Function.update w.contents file data }
  | .relink file => some { w with atSource := file }
  | .checked isDir =>
    if w.pc = .checking then
      match job.encoding with
      | .raw => some { w with pc := if isDir then .refused else .sizing }
      | .tarGz => some { w with pc := if isDir then .packing else .refused }
      | .unspecified => some { w with pc := .refused }
    else none
  | .packed data =>
    if w.pc = .packing then some { w with pc := .sizing, archive := some data } else none
  | .sized =>
    if w.pc = .sizing then
      w.payload.map fun data => { w with pc := .opening, sizeBytes := data.length }
    else none
  | .opened =>
    if w.pc = .opening then
      w.payload.map fun _ => { w with pc := .hashing, handle := w.atSource, offset := 0 }
    else if w.pc = .reopening then
      w.payload.map fun _ => { w with pc := .streaming, handle := w.atSource, offset := 0 }
    else none
  | .read count =>
    if count = 0 ∨ transferChunkSize < count then none
    else if w.pc = .hashing then
      if w.read count = [] then some { w with pc := .prepared }
      else some { w with
        offset := w.offset + (w.read count).length, hashed := w.hashed ++ w.read count }
    else if w.pc = .streaming then
      if w.read count = [] then some { w with pc := .ended }
      else some { w with
        offset := w.offset + (w.read count).length,
        messages := w.messages ++ [.chunk (w.read count)] }
    else none
  | .polled =>
    if w.pc = .prepared then
      some { w with
        pc := .reopening
        messages := [.header (job.header w.sizeBytes (job.sha256 w.hashed))] }
    else none
  | .failed =>
    match w.pc with
    | .checking | .packing | .sizing | .opening | .hashing => some { w with pc := .refused }
    | .reopening | .streaming => some { w with pc := .broken }
    | _ => none
  | .drop => if w.isOver then none else some { w with pc := .dropped }

/-- The bytes behind the header. -/
def streamed : List UInt8 :=
  w.messages.flatMap fun
    | .chunk data => data
    | .header _ => []

/-- The stream is a header and chunks of the length and with the hash it gives. -/
def Described : Prop :=
  ∃ (header : ExportHeader) (chunks : List (List UInt8)),
    w.messages = .header header :: chunks.map .chunk ∧
    header.sizeBytes = chunks.flatten.length ∧
    header.sha256Hex = job.sha256 chunks.flatten

/-- The passes agree: the hash meets the end of the payload where its size said, and each
    chunk is what the hash read at that place, up to the end. -/
def Steady (w : LiveExport) : ExportEvent → Prop
  | .read count =>
    (w.pc = .hashing → w.read count = [] → w.hashed.length = w.sizeBytes) ∧
      (w.pc = .streaming → w.streamed ++ w.read count <+: w.hashed ∧
        (w.read count = [] → w.streamed = w.hashed))
  | _ => True

/-! ### The messages of an export -/

/-- What has been sent at each place. -/
def At : Prop :=
  match w.pc with
  | .checking | .packing | .sizing | .opening | .hashing | .prepared => w.messages = []
  | .reopening => w.messages = [.header (job.header w.sizeBytes (job.sha256 w.hashed))]
  | .streaming | .ended =>
    ∃ chunks : List (List UInt8), w.messages =
      .header (job.header w.sizeBytes (job.sha256 w.hashed)) :: chunks.map .chunk
  | .refused | .broken | .dropped => True

/-- As far as the passes have come, they agree. -/
structure Agree : Prop where
  size : w.pc ∈ [.prepared, .reopening, .streaming, .ended] → w.hashed.length = w.sizeBytes
  chunks : w.pc = .streaming → w.streamed <+: w.hashed
  ended : w.pc = .ended → w.streamed = w.hashed

variable {job w}

theorem at_start (contents : Nat → List UInt8) (atSource : Option Nat) :
    (start contents atSource).At job :=
  rfl

theorem agree_of_early (pc : ExportPc) (hpc : w.pc = pc)
    (h : pc ∉ [.prepared, .reopening, .streaming, .ended]) : w.Agree := by
  subst hpc
  refine ⟨fun hlate => absurd hlate h, ?_, ?_⟩
  · intro hpc
    exact absurd (by simp [hpc]) h
  · intro hpc
    exact absurd (by simp [hpc]) h

theorem streamed_header {header : ExportHeader} {chunks : List (List UInt8)}
    (h : w.messages = .header header :: chunks.map .chunk) : w.streamed = chunks.flatten := by
  rw [streamed, h, List.flatMap_cons, List.nil_append, List.flatMap_map]
  simp [List.flatMap_id']

/-! ### One step -/

variable (job w) in
/-- What a step can do. -/
inductive Steps : ExportEvent → LiveExport → Prop
  | write (file : Nat) (data : List UInt8) :
    Steps (.write file data) { w with contents := Function.update w.contents file data }
  | relink (file : Option Nat) : Steps (.relink file) { w with atSource := file }
  | begin (isDir : Bool) (hpc : w.pc = .checking) (hraw : job.encoding = .raw) :
    Steps (.checked isDir) { w with pc := .sizing }
  | pack (isDir : Bool) (hpc : w.pc = .checking) (htar : job.encoding = .tarGz) :
    Steps (.checked isDir) { w with pc := .packing }
  | packed (data : List UInt8) (hpc : w.pc = .packing) :
    Steps (.packed data) { w with pc := .sizing, archive := some data }
  | sized (data : List UInt8) (hpc : w.pc = .sizing) (hdata : w.payload = some data) :
    Steps .sized { w with pc := .opening, sizeBytes := data.length }
  | opened (hpc : w.pc = .opening) :
    Steps .opened { w with pc := .hashing, handle := w.atSource, offset := 0 }
  | reopened (hpc : w.pc = .reopening) :
    Steps .opened { w with pc := .streaming, handle := w.atSource, offset := 0 }
  | hash (count : Nat) (hpc : w.pc = .hashing) (hdata : w.read count ≠ []) :
    Steps (.read count) { w with
      offset := w.offset + (w.read count).length, hashed := w.hashed ++ w.read count }
  | hashEnd (count : Nat) (hcount : count ≠ 0) (hpc : w.pc = .hashing) (hdata : w.read count = []) :
    Steps (.read count) { w with pc := .prepared }
  | chunk (count : Nat) (hpc : w.pc = .streaming) (hdata : w.read count ≠ []) :
    Steps (.read count) { w with
      offset := w.offset + (w.read count).length,
      messages := w.messages ++ [.chunk (w.read count)] }
  | finish (count : Nat) (hcount : count ≠ 0) (hpc : w.pc = .streaming)
    (hdata : w.read count = []) :
    Steps (.read count) { w with pc := .ended }
  | polled (hpc : w.pc = .prepared) :
    Steps .polled { w with
      pc := .reopening
      messages := [.header (job.header w.sizeBytes (job.sha256 w.hashed))] }
  | abandon (e : ExportEvent) (pc : ExportPc) (hpc : pc ∈ [.refused, .broken, .dropped])
    (hover : w.pc ≠ .ended) : Steps e { w with pc := pc }

theorem steps_of_step {e : ExportEvent} {w' : LiveExport} (h : w.step job e = some w') :
    Steps job w e w' := by
  cases e with
  | write file data =>
    obtain rfl := Option.some.inj h
    exact .write file data
  | relink file =>
    obtain rfl := Option.some.inj h
    exact .relink file
  | checked isDir =>
    simp only [step] at h
    split at h
    · rename_i hpc
      have hover : w.pc ≠ .ended := by simp [hpc]
      split at h
      · rename_i hraw
        cases isDir with
        | true =>
          obtain rfl := Option.some.inj h
          exact .abandon _ .refused (by decide) hover
        | false =>
          obtain rfl := Option.some.inj h
          exact .begin false hpc hraw
      · rename_i htar
        cases isDir with
        | true =>
          obtain rfl := Option.some.inj h
          exact .pack true hpc htar
        | false =>
          obtain rfl := Option.some.inj h
          exact .abandon _ .refused (by decide) hover
      · obtain rfl := Option.some.inj h
        exact .abandon _ .refused (by decide) hover
    · cases h
  | packed data =>
    simp only [step] at h
    split at h
    · rename_i hpc
      obtain rfl := Option.some.inj h
      exact .packed data hpc
    · cases h
  | sized =>
    simp only [step] at h
    split at h
    · rename_i hpc
      obtain ⟨data, hdata, rfl⟩ := Option.map_eq_some_iff.mp h
      exact .sized data hpc hdata
    · cases h
  | opened =>
    simp only [step] at h
    split at h
    · rename_i hpc
      obtain ⟨data, hdata, rfl⟩ := Option.map_eq_some_iff.mp h
      exact .opened hpc
    · split at h
      · rename_i hpc
        obtain ⟨data, hdata, rfl⟩ := Option.map_eq_some_iff.mp h
        exact .reopened hpc
      · cases h
  | read count =>
    simp only [step] at h
    split at h
    · cases h
    · rename_i hcount
      have hpos : count ≠ 0 := fun hzero => hcount (Or.inl hzero)
      split at h
      · rename_i hpc
        split at h
        · rename_i hdata
          obtain rfl := Option.some.inj h
          exact .hashEnd count hpos hpc hdata
        · rename_i hdata
          obtain rfl := Option.some.inj h
          exact .hash count hpc hdata
      · split at h
        · rename_i hpc
          split at h
          · rename_i hdata
            obtain rfl := Option.some.inj h
            exact .finish count hpos hpc hdata
          · rename_i hdata
            obtain rfl := Option.some.inj h
            exact .chunk count hpc hdata
        · cases h
  | polled =>
    simp only [step] at h
    split at h
    · rename_i hpc
      obtain rfl := Option.some.inj h
      exact .polled hpc
    · cases h
  | failed =>
    simp only [step] at h
    have hover : ∀ pc, w.pc = pc → pc ≠ .ended → w.pc ≠ .ended := by
      rintro pc rfl hne
      exact hne
    split at h
    all_goals cases h
    all_goals exact .abandon _ _ (by decide) (hover _ (by assumption) (by decide))
  | drop =>
    simp only [step] at h
    split at h
    · cases h
    · rename_i hover
      obtain rfl := Option.some.inj h
      refine .abandon _ .dropped (by decide) ?_
      intro hpc
      simp [isOver, hpc] at hover

theorem at_step {e : ExportEvent} {w' : LiveExport} (hw : w.At job) (h : w.step job e = some w') :
    w'.At job := by
  cases steps_of_step h with
  | write file data => exact hw
  | relink file => exact hw
  | begin isDir hpc hraw =>
    simp only [At, hpc] at hw
    exact hw
  | pack isDir hpc htar =>
    simp only [At, hpc] at hw
    exact hw
  | packed data hpc =>
    simp only [At, hpc] at hw
    exact hw
  | sized data hpc hdata =>
    simp only [At, hpc] at hw
    exact hw
  | opened hpc =>
    simp only [At, hpc] at hw
    exact hw
  | reopened hpc =>
    simp only [At, hpc] at hw
    exact ⟨[], hw⟩
  | hash count hpc hdata =>
    simp only [At, hpc] at hw ⊢
    exact hw
  | hashEnd count hcount hpc hdata =>
    simp only [At, hpc] at hw
    exact hw
  | chunk count hpc hdata =>
    simp only [At, hpc] at hw ⊢
    obtain ⟨chunks, hmessages⟩ := hw
    refine ⟨chunks ++ [w.read count], ?_⟩
    rw [hmessages, List.cons_append, List.map_append, List.map_singleton]
  | finish count hcount hpc hdata =>
    simp only [At, hpc] at hw
    exact hw
  | polled hpc => rfl
  | abandon e pc hpc hover =>
    simp only [List.mem_cons, List.not_mem_nil, or_false] at hpc
    rcases hpc with rfl | rfl | rfl
    · trivial
    · trivial
    · trivial

/-- The passes agree after a step exactly when they did before and the step was steady. -/
theorem agree_step {e : ExportEvent} {w' : LiveExport} (hw : w.At job)
    (h : w.step job e = some w') (halive : w'.pc ∉ [.refused, .broken, .dropped]) :
    w'.Agree ↔ w.Agree ∧ w.Steady e := by
  cases steps_of_step h with
  | write file data =>
    constructor
    · rintro ⟨hsize, hchunks, hended⟩
      exact ⟨⟨hsize, hchunks, hended⟩, trivial⟩
    · rintro ⟨⟨hsize, hchunks, hended⟩, -⟩
      exact ⟨hsize, hchunks, hended⟩
  | relink file =>
    constructor
    · rintro ⟨hsize, hchunks, hended⟩
      exact ⟨⟨hsize, hchunks, hended⟩, trivial⟩
    · rintro ⟨⟨hsize, hchunks, hended⟩, -⟩
      exact ⟨hsize, hchunks, hended⟩
  | begin isDir hpc hraw =>
    exact iff_of_true (agree_of_early .sizing rfl (by decide))
      ⟨agree_of_early _ hpc (by decide), trivial⟩
  | pack isDir hpc htar =>
    exact iff_of_true (agree_of_early .packing rfl (by decide))
      ⟨agree_of_early _ hpc (by decide), trivial⟩
  | packed data hpc =>
    exact iff_of_true (agree_of_early .sizing rfl (by decide))
      ⟨agree_of_early _ hpc (by decide), trivial⟩
  | sized data hpc hdata =>
    exact iff_of_true (agree_of_early .opening rfl (by decide))
      ⟨agree_of_early _ hpc (by decide), trivial⟩
  | opened hpc =>
    exact iff_of_true (agree_of_early .hashing rfl (by decide))
      ⟨agree_of_early _ hpc (by decide), trivial⟩
  | reopened hpc =>
    simp only [At, hpc] at hw
    have hnothing : w.streamed = [] := by rw [streamed, hw]; rfl
    constructor
    · rintro ⟨hsize, -, -⟩
      refine ⟨⟨fun _ => hsize (by simp), ?_, ?_⟩, trivial⟩
      · exact fun hpc' => nomatch hpc.symm.trans hpc'
      · exact fun hpc' => nomatch hpc.symm.trans hpc'
    · rintro ⟨⟨hsize, -, -⟩, -⟩
      refine ⟨fun _ => hsize (by simp [hpc]), ?_, nofun⟩
      intro _
      change w.streamed <+: w.hashed
      rw [hnothing]
      exact List.nil_prefix
  | hash count hpc hdata =>
    refine iff_of_true (agree_of_early _ hpc (by decide)) ⟨agree_of_early _ hpc (by decide), ?_⟩
    refine ⟨fun _ hempty => absurd hempty hdata, ?_⟩
    exact fun hpc' => nomatch hpc.symm.trans hpc'
  | hashEnd count hcount hpc hdata =>
    constructor
    · rintro ⟨hsize, -, -⟩
      refine ⟨agree_of_early _ hpc (by decide), fun _ _ => hsize (by simp), ?_⟩
      exact fun hpc' => nomatch hpc.symm.trans hpc'
    · rintro ⟨-, hend, -⟩
      exact ⟨fun _ => hend hpc hdata, nofun, nofun⟩
  | chunk count hpc hdata =>
    have hstreamed : streamed { w with
        offset := w.offset + (w.read count).length,
        messages := w.messages ++ [.chunk (w.read count)] } = w.streamed ++ w.read count := by
      simp [streamed]
    constructor
    · rintro ⟨hsize, hchunks, -⟩
      have hleft := hchunks hpc
      rw [hstreamed] at hleft
      refine ⟨⟨hsize, fun _ => (List.prefix_append _ _).trans hleft, ?_⟩, ?_, ?_⟩
      · exact fun hpc' => nomatch hpc.symm.trans hpc'
      · exact fun hpc' => nomatch hpc.symm.trans hpc'
      · exact fun _ => ⟨hleft, fun hempty => absurd hempty hdata⟩
    · rintro ⟨⟨hsize, -, -⟩, -, hsteady⟩
      refine ⟨hsize, ?_, ?_⟩
      · intro _
        rw [hstreamed]
        exact (hsteady hpc).1
      · intro hpc'
        change w.pc = .ended at hpc'
        rw [hpc] at hpc'
        cases hpc'
  | finish count hcount hpc hdata =>
    constructor
    · rintro ⟨hsize, -, hended⟩
      have heq : w.streamed = w.hashed := hended rfl
      refine ⟨⟨fun _ => hsize (by simp), fun _ => heq ▸ List.prefix_rfl, fun _ => heq⟩, ?_, ?_⟩
      · exact fun hpc' => nomatch hpc.symm.trans hpc'
      · intro _
        rw [hdata, List.append_nil]
        exact ⟨heq ▸ List.prefix_rfl, fun _ => heq⟩
    · rintro ⟨⟨hsize, -, -⟩, -, hsteady⟩
      exact ⟨fun _ => hsize (by simp [hpc]), nofun, fun _ => (hsteady hpc).2 hdata⟩
  | polled hpc =>
    constructor
    · rintro ⟨hsize, -, -⟩
      refine ⟨⟨fun _ => hsize (by simp), ?_, ?_⟩, trivial⟩
      · exact fun hpc' => nomatch hpc.symm.trans hpc'
      · exact fun hpc' => nomatch hpc.symm.trans hpc'
    · rintro ⟨⟨hsize, -, -⟩, -⟩
      exact ⟨fun _ => hsize (by simp [hpc]), nofun, nofun⟩
  | abandon e pc hpc hover => exact absurd hpc halive

/-! ### Runs -/

/-- Who is over stays so. -/
theorem dead_run {es : List ExportEvent} {w' : LiveExport}
    (hdead : w.pc ∈ [.refused, .broken, .dropped])
    (hrun : Transitions.run (step job) w es = some w') :
    w'.pc ∈ [.refused, .broken, .dropped] := by
  have hreach := reaches_of_run (step job) w es hrun
  refine hreach.invariant (I := fun w => w.pc ∈ [.refused, .broken, .dropped]) hdead ?_
  intro w e w' hdead _ hstep
  have hother : ∀ {pc}, w.pc = pc → pc ∉ [.refused, .broken, .dropped] → False := by
    rintro pc rfl hpc
    exact hpc hdead
  cases steps_of_step hstep with
  | write file data => exact hdead
  | relink file => exact hdead
  | abandon e pc hpc hover => exact hpc
  | begin isDir hpc hraw => exact (hother hpc (by decide)).elim
  | pack isDir hpc htar => exact (hother hpc (by decide)).elim
  | packed data hpc => exact (hother hpc (by decide)).elim
  | sized data hpc hdata => exact (hother hpc (by decide)).elim
  | opened hpc => exact (hother hpc (by decide)).elim
  | reopened hpc => exact (hother hpc (by decide)).elim
  | hash count hpc hdata => exact (hother hpc (by decide)).elim
  | hashEnd count hcount hpc hdata => exact (hother hpc (by decide)).elim
  | chunk count hpc hdata => exact (hother hpc (by decide)).elim
  | finish count hcount hpc hdata => exact (hother hpc (by decide)).elim
  | polled hpc => exact (hother hpc (by decide)).elim

/-- The passes agree at the end exactly when they did at first and every step was steady. -/
theorem agree_run {es : List ExportEvent} {w' : LiveExport} (hw : w.At job)
    (hrun : Transitions.run (step job) w es = some w')
    (halive : w'.pc ∉ [.refused, .broken, .dropped]) :
    w'.Agree ↔ w.Agree ∧ Fine (step job) Steady w es := by
  induction es generalizing w with
  | nil =>
    obtain rfl := Option.some.inj hrun
    exact (and_iff_left trivial).symm
  | cons e es ih =>
    unfold Transitions.run at hrun
    unfold Fine
    rcases hstep : w.step job e with _ | next
    · rw [hstep] at hrun
      cases hrun
    · rw [hstep] at hrun
      have hnext : next.pc ∉ [.refused, .broken, .dropped] :=
        fun hdead => halive (dead_run hdead hrun)
      rw [ih (at_step hw hstep) hrun, agree_step hw hstep hnext, and_assoc]

theorem described_iff_agree (hw : w.At job) (hended : w.pc = .ended)
    (hcollision : job.sha256 w.hashed = job.sha256 w.streamed → w.hashed = w.streamed) :
    w.Described job ↔ w.Agree := by
  simp only [At, hended] at hw
  obtain ⟨chunks, hmessages⟩ := hw
  have hstreamed := streamed_header hmessages
  have hheader : ∀ (sizeBytes : Nat) (sha256Hex : String),
      (job.header sizeBytes sha256Hex).sizeBytes = sizeBytes ∧
        (job.header sizeBytes sha256Hex).sha256Hex = sha256Hex := by
    intro sizeBytes sha256Hex
    unfold ExportJob.header
    split
    · exact ⟨rfl, rfl⟩
    · exact ⟨rfl, rfl⟩
  obtain ⟨hsize, hsha⟩ := hheader w.sizeBytes (job.sha256 w.hashed)
  constructor
  · rintro ⟨header, chunks', hmessages', hsize', hsha'⟩
    rw [← streamed_header hmessages'] at hsize' hsha'
    obtain rfl : job.header w.sizeBytes (job.sha256 w.hashed) = header := by
      rw [hmessages] at hmessages'
      exact ExportMessage.header.inj (List.cons.inj hmessages').1
    rw [hsha] at hsha'
    rw [hsize] at hsize'
    have heq := hcollision hsha'
    exact ⟨fun _ => (congrArg List.length heq).trans hsize'.symm,
      fun hpc => (nomatch hended.symm.trans hpc), fun _ => heq.symm⟩
  · rintro ⟨hlen, -, heq⟩
    have heq := heq hended
    have hlen := hlen (by simp [hended])
    refine ⟨_, chunks, hmessages, ?_, ?_⟩
    · rw [hsize, ← hstreamed, heq, hlen]
    · rw [hsha, ← hstreamed, heq]

/-! ### Payloads nobody writes to -/

/-- Nothing that the passes read is changed. -/
def Undisturbed (w : LiveExport) : ExportEvent → Prop
  | .write file _ => w.archive.isSome = true ∨ w.pc ∈ [.checking, .packing, .sizing] ∨
      w.atSource ≠ some file
  | .relink _ => w.archive.isSome = true ∨ w.pc ∈ [.checking, .packing, .sizing]
  | _ => True

/-- The file opened is the payload, and this is what it holds. -/
def Reads (w : LiveExport) (data : List UInt8) : Prop :=
  w.payload = some data ∧ (w.archive = none → w.handle = w.atSource)

/-- The passes over a payload nobody writes to. -/
def Sealed (w : LiveExport) : Prop :=
  match w.pc with
  | .checking | .packing | .sizing => w.messages = [] ∧ w.hashed = []
  | .opening => w.messages = [] ∧ w.hashed = [] ∧
      ∃ data, w.payload = some data ∧ w.sizeBytes = data.length
  | .hashing => w.messages = [] ∧
      ∃ data, w.Reads data ∧ w.sizeBytes = data.length ∧ w.hashed = data.take w.offset
  | .prepared | .reopening => w.streamed = [] ∧
      ∃ data, w.payload = some data ∧ w.sizeBytes = data.length ∧ w.hashed = data
  | .streaming => ∃ data, w.Reads data ∧ w.sizeBytes = data.length ∧ w.hashed = data ∧
      w.streamed = data.take w.offset
  | .ended => w.hashed.length = w.sizeBytes ∧ w.streamed = w.hashed
  | .refused | .broken | .dropped => True

theorem take_append_take_drop (data : List UInt8) (offset count : Nat) :
    data.take offset ++ (data.drop offset).take count =
      data.take (offset + ((data.drop offset).take count).length) := by
  rw [List.take_add, List.length_take, List.take_eq_take_min (l := data.drop offset) (i := count)]

theorem read_of_reads {data : List UInt8} (h : w.Reads data) (count : Nat) :
    w.read count = (data.drop w.offset).take count := by
  obtain ⟨hpayload, hhandle⟩ := h
  have hopen : w.open_ = data := by
    unfold payload at hpayload
    unfold open_
    rcases harchive : w.archive with _ | archive
    · rw [harchive] at hpayload
      obtain ⟨file, hfile, hdata⟩ := Option.map_eq_some_iff.mp hpayload
      rw [hhandle harchive, hfile]
      exact hdata
    · rw [harchive] at hpayload
      exact Option.some.inj hpayload
  rw [read, hopen]

theorem take_of_read_nil {data : List UInt8} (h : w.Reads data) {count : Nat}
    (hcount : count ≠ 0) (hread : w.read count = []) : data.take w.offset = data := by
  rw [read_of_reads h, List.take_eq_nil_iff] at hread
  apply List.take_of_length_le
  rcases hread with hzero | hdrop
  · exact absurd hzero hcount
  · exact List.drop_eq_nil_iff.mp hdrop

/-- A write elsewhere leaves the payload as it is. -/
theorem payload_write {file : Nat} (data : List UInt8)
    (h : w.archive.isSome = true ∨ w.atSource ≠ some file) :
    payload { w with contents := Function.update w.contents file data } = w.payload := by
  unfold payload
  rcases harchive : w.archive with _ | archive
  · rcases hsource : w.atSource with _ | source
    · rfl
    · have hne : source ≠ file := by
        rintro rfl
        rcases h with h | h
        · rw [harchive] at h
          cases h
        · exact h hsource
      simp [Function.update_of_ne hne]
  · rfl

theorem payload_relink (file : Option Nat) (h : w.archive.isSome = true) :
    payload { w with atSource := file } = w.payload := by
  obtain ⟨archive, harchive⟩ := Option.isSome_iff_exists.mp h
  simp [payload, harchive]

theorem sealed_step {e : ExportEvent} {w' : LiveExport} (hw : w.Sealed) (hcalm : w.Undisturbed e)
    (h : w.step job e = some w') : w'.Sealed := by
  cases steps_of_step h with
  | write file data =>
    by_cases hearly : w.pc ∈ [.checking, .packing, .sizing]
    · simp only [List.mem_cons, List.not_mem_nil, or_false] at hearly
      rcases hearly with hpc | hpc | hpc
      · simp only [Sealed, hpc] at hw ⊢
        exact hw
      · simp only [Sealed, hpc] at hw ⊢
        exact hw
      · simp only [Sealed, hpc] at hw ⊢
        exact hw
    · have helsewhere : w.archive.isSome = true ∨ w.atSource ≠ some file :=
        hcalm.imp_right fun h => h.resolve_left hearly
      simp only [Sealed, Reads, payload_write data helsewhere] at hw ⊢
      exact hw
  | relink file =>
    by_cases hearly : w.pc ∈ [.checking, .packing, .sizing]
    · simp only [List.mem_cons, List.not_mem_nil, or_false] at hearly
      rcases hearly with hpc | hpc | hpc
      · simp only [Sealed, hpc] at hw ⊢
        exact hw
      · simp only [Sealed, hpc] at hw ⊢
        exact hw
      · simp only [Sealed, hpc] at hw ⊢
        exact hw
    · have hsome : w.archive.isSome = true := hcalm.resolve_right hearly
      have hnone : w.archive ≠ none := by
        intro hnone
        rw [hnone] at hsome
        cases hsome
      simp only [Sealed, Reads, payload_relink file hsome, hnone, false_implies] at hw ⊢
      exact hw
  | begin isDir hpc hraw =>
    simp only [Sealed, hpc] at hw
    exact hw
  | pack isDir hpc htar =>
    simp only [Sealed, hpc] at hw
    exact hw
  | packed data hpc =>
    simp only [Sealed, hpc] at hw
    exact hw
  | sized data hpc hdata =>
    simp only [Sealed, hpc] at hw
    exact ⟨hw.1, hw.2, data, hdata, rfl⟩
  | opened hpc =>
    simp only [Sealed, hpc] at hw
    obtain ⟨hmessages, hhashed, data, hdata, hsize⟩ := hw
    exact ⟨hmessages, data, ⟨hdata, fun _ => rfl⟩, hsize, hhashed⟩
  | reopened hpc =>
    simp only [Sealed, hpc] at hw
    obtain ⟨hstreamed, data, hdata, hsize, hhashed⟩ := hw
    exact ⟨data, ⟨hdata, fun _ => rfl⟩, hsize, hhashed, hstreamed⟩
  | hash count hpc hdata =>
    simp only [Sealed, hpc] at hw ⊢
    obtain ⟨hmessages, data, hreads, hsize, hhashed⟩ := hw
    refine ⟨hmessages, data, hreads, hsize, ?_⟩
    rw [hhashed, read_of_reads hreads, take_append_take_drop]
  | hashEnd count hcount hpc hdata =>
    simp only [Sealed, hpc] at hw
    obtain ⟨hmessages, data, hreads, hsize, hhashed⟩ := hw
    rw [take_of_read_nil hreads hcount hdata] at hhashed
    exact ⟨show w.streamed = [] by rw [streamed, hmessages]; rfl, data, hreads.1, hsize, hhashed⟩
  | chunk count hpc hdata =>
    simp only [Sealed, hpc] at hw ⊢
    obtain ⟨data, hreads, hsize, hhashed, hstreamed⟩ := hw
    refine ⟨data, hreads, hsize, hhashed, ?_⟩
    have hnew : streamed { w with
        offset := w.offset + (w.read count).length,
        messages := w.messages ++ [.chunk (w.read count)] } = w.streamed ++ w.read count := by
      simp [streamed]
    rw [hpc] at hnew
    rw [hnew, hstreamed, read_of_reads hreads, take_append_take_drop]
  | finish count hcount hpc hdata =>
    simp only [Sealed, hpc] at hw
    obtain ⟨data, hreads, hsize, hhashed, hstreamed⟩ := hw
    rw [take_of_read_nil hreads hcount hdata] at hstreamed
    exact ⟨(congrArg List.length hhashed).trans hsize.symm, hstreamed.trans hhashed.symm⟩
  | polled hpc =>
    simp only [Sealed, hpc] at hw
    exact ⟨rfl, hw.2⟩
  | abandon e pc hpc hover =>
    simp only [List.mem_cons, List.not_mem_nil, or_false] at hpc
    rcases hpc with rfl | rfl | rfl
    · trivial
    · trivial
    · trivial

/-- An export of a directory reads an archive of its own. -/
def Archived (w : LiveExport) : Prop :=
  w.pc ∈ [.checking, .packing, .refused, .broken, .dropped] ∨ w.archive.isSome = true

theorem archived_step (htar : job.encoding = .tarGz) {e : ExportEvent} {w' : LiveExport}
    (hw : w.Archived) (h : w.step job e = some w') : w'.Archived := by
  have hlater : ∀ {pc}, w.pc = pc → pc ∉ [.checking, .packing, .refused, .broken, .dropped] →
      w.archive.isSome = true := by
    rintro pc rfl hpc
    exact hw.resolve_left hpc
  cases steps_of_step h with
  | write file data => exact hw
  | relink file => exact hw
  | begin isDir hpc hraw =>
    rw [htar] at hraw
    cases hraw
  | pack isDir hpc htar => exact Or.inl (by simp)
  | packed data hpc => exact Or.inr rfl
  | sized data hpc hdata => exact Or.inr (hlater hpc (by decide))
  | opened hpc => exact Or.inr (hlater hpc (by decide))
  | reopened hpc => exact Or.inr (hlater hpc (by decide))
  | hash count hpc hdata => exact Or.inr (hlater hpc (by decide))
  | hashEnd count hcount hpc hdata => exact Or.inr (hlater hpc (by decide))
  | chunk count hpc hdata => exact Or.inr (hlater hpc (by decide))
  | finish count hcount hpc hdata => exact Or.inr (hlater hpc (by decide))
  | polled hpc => exact Or.inr (hlater hpc (by decide))
  | abandon e pc hpc hover =>
    simp only [List.mem_cons, List.not_mem_nil, or_false] at hpc
    rcases hpc with rfl | rfl | rfl
    · exact Or.inl (by simp)
    · exact Or.inl (by simp)
    · exact Or.inl (by simp)

/-- Nobody can disturb the export of a directory once it is packed. -/
theorem undisturbed_of_archived (hw : w.Archived) (e : ExportEvent)
    (halive : w.pc ∉ [.refused, .broken, .dropped]) : w.Undisturbed e := by
  have hcases : w.archive.isSome = true ∨ w.pc ∈ [.checking, .packing, .sizing] := by
    rcases hw with hpc | harchive
    · right
      revert hpc halive
      cases w.pc with
      | checking => decide
      | packing => decide
      | refused => decide
      | broken => decide
      | dropped => decide
      | _ => decide
    · exact Or.inl harchive
  cases e with
  | write file data => exact hcases.imp_right Or.inl
  | relink file => exact hcases
  | _ => trivial

theorem sealed_run {es : List ExportEvent} {w' : LiveExport} (hw : w.Sealed)
    (hrun : Transitions.run (step job) w es = some w')
    (hcalm : Fine (step job) Undisturbed w es) : w'.Sealed :=
  (reaches_of_fine es hrun hcalm).invariant hw fun _ _ _ hw hcalm hstep =>
    sealed_step hw hcalm hstep

theorem undisturbed_run (htar : job.encoding = .tarGz) {es : List ExportEvent} {w' : LiveExport}
    (hw : w.Archived) (hrun : Transitions.run (step job) w es = some w')
    (halive : w'.pc ∉ [.refused, .broken, .dropped]) : Fine (step job) Undisturbed w es := by
  induction es generalizing w with
  | nil => trivial
  | cons e es ih =>
    have hcalm := undisturbed_of_archived hw e fun hdead => halive (dead_run hdead hrun)
    unfold Transitions.run at hrun
    unfold Fine
    rcases hstep : w.step job e with _ | next
    · rw [hstep] at hrun
      cases hrun
    · rw [hstep] at hrun
      exact ⟨hcalm, ih (archived_step htar hw hstep) hrun⟩

/-- **When the header describes the chunks.**  In every run of an export that ends
    without an error, with a hash that tells what it read from what it sent, the header
    describes the chunks exactly when the passes over the payload agreed at each read.
    They do where nobody wrote to the payload, and always over an archive. -/
theorem header_describes_iff (job : ExportJob) (contents : Nat → List UInt8)
    (atSource : Option Nat) (es : List ExportEvent)
    (hrun : Transitions.run (step job) (start contents atSource) es = some w)
    (hended : w.pc = .ended)
    (hcollision : job.sha256 w.hashed = job.sha256 w.streamed → w.hashed = w.streamed) :
    (w.Described job ↔ Fine (step job) Steady (start contents atSource) es) ∧
      (Fine (step job) Undisturbed (start contents atSource) es → w.Described job) ∧
      (job.encoding = .tarGz → w.Described job) := by
  have hstart : (start contents atSource).At job := at_start contents atSource
  have hreach := reaches_of_run (step job) (start contents atSource) es hrun
  have hat : w.At job := hreach.invariant hstart fun _ _ _ hw _ hstep => at_step hw hstep
  have hdescribed := described_iff_agree hat hended hcollision
  have halive : w.pc ∉ [.refused, .broken, .dropped] := by
    rw [hended]
    decide
  have hcalm : Fine (step job) Undisturbed (start contents atSource) es → w.Described job := by
    intro hcalm
    have hstart : (start contents atSource).Sealed := ⟨rfl, rfl⟩
    have hsealed := sealed_run hstart hrun hcalm
    simp only [Sealed, hended] at hsealed
    rw [hdescribed]
    exact ⟨fun _ => hsealed.1, fun hpc => (nomatch hended.symm.trans hpc), fun _ => hsealed.2⟩
  refine ⟨?_, hcalm, ?_⟩
  · rw [hdescribed, agree_run hstart hrun halive]
    exact and_iff_right (agree_of_early .checking rfl (by decide))
  · intro htar
    have hstart : (start contents atSource).Archived := Or.inl (by simp [start])
    exact hcalm (undisturbed_run htar hstart hrun halive)

instance (e : ExportEvent) : Decidable (w.Steady e) :=
  match e with
  | .read _ => inferInstanceAs (Decidable ((_ → _) ∧ (_ → _ ∧ _)))
  | .write .. | .relink _ | .checked _ | .packed _ | .sized | .opened | .polled | .failed | .drop =>
    isTrue trivial

/-- A job for `/out.bin`, with the digests of its three bytes and of all else. -/
def rawJob : ExportJob where
  request := ⟨"w", "/out.bin", 1⟩
  source := [.rootDir, .normal "srv", .normal "w", .normal "out.bin"]
  sha256 data :=
    if data = [1, 2, 3] then "039058c6f2c0cb492c533b0a4d14ef77cc0f78abccced5287d84a1a2011cfb81"
    else "4bf5122f344554c53bde2ebb8cd2b7e3d1600ad631c385a5d7cce23c7785459a"

/-- An export of file 0, with writes between its passes. -/
def rawRun (before after : List ExportEvent) : List ExportEvent :=
  [.checked false, .sized, .opened, .read 2, .read 2, .read 2] ++ before ++
    [.polled, .opened, .read 2] ++ after ++ [.read 2, .read 2]

/-- Another file is written: the header describes the chunks. -/
theorem header_describes_rawRun : ∃ w,
    Transitions.run (step rawJob) (start (fun _ => [1, 2, 3]) (some 0))
      (rawRun [.write 1 [4]] [.relink (some 1)]) = some w ∧ w.Described rawJob := by
  refine ⟨_, rfl, ?_⟩
  refine (header_describes_iff rawJob (fun _ => [1, 2, 3]) (some 0)
    (rawRun [.write 1 [4]] [.relink (some 1)]) rfl rfl (fun _ => rfl)).1.mpr ?_
  decide

/-- A byte is appended behind the header: more is sent than it says. -/
theorem header_misses_append : ¬ ∀ (job : ExportJob) (contents : Nat → List UInt8)
    (atSource : Option Nat) (es : List ExportEvent) (w : LiveExport),
    Transitions.run (step job) (start contents atSource) es = some w →
      w.pc = .ended → w.Described job := by
  intro hall
  obtain ⟨header, chunks, hmessages, hsize, -⟩ := hall rawJob (fun _ => [1, 2, 3]) (some 0)
    (rawRun [.write 0 [1, 2, 3, 4]] []) _ rfl rfl
  have hheader : header.sizeBytes = 3 := by
    rw [← ExportMessage.header.inj (List.cons.inj hmessages).1]
    rfl
  have hchunks : chunks.flatten = [1, 2, 3, 4] := (streamed_header hmessages).symm
  rw [hheader, hchunks] at hsize
  exact absurd hsize (by decide)

end LiveExport

end Scriptorium
