import Scriptorium.Packing
import Scriptorium.LiveUpload

/-!
# An upload step by step and in one piece

`LiveUpload` takes an upload await by await, `uploadFile` in one piece.  On a file nobody
changes, and with a store whose answers are settled beforehand, both come to the same: in
whatever pieces the file is read, the steps end, and with the same result and the same
parts (`upload_agrees`).
-/

namespace Scriptorium

open Transitions Posix Effects

/-! ### In one piece -/

section OnePiece

variable {cred : Cred} {t : FileTree} {dir : Pos} {root : String} {bytes : List UInt8}
  (hcred : cred.privileged = true)

include hcred

theorem run_io_read (now : Nat) {node : Node} {holes : Bool}
    (hnode : t.get? (dir ++ [root]) = some node) (hkind : node.kind = .file bytes holes) :
    (io (sys (.read (canonical (dir ++ [root]))))).run (FileTree.exec cred now) t =
      (some (.ok ⟨node.info, bytes, holes⟩), t) := by
  have hlink : node.isLink = false := by rw [Node.isLink, hkind]
  have hexec : FileTree.exec cred now (.read (canonical (dir ++ [root]))) t =
      (.ok ⟨node.info, bytes, holes⟩, t) := by
    simp only [FileTree.exec, FileTree.read,
      FileTree.find_entry hcred (FileTree.isDir_parent (by rw [hnode]; rfl)) hnode hlink,
      Cred.may_of_privileged hcred, if_true, hkind]
  rw [io, Prog.run_mapError, run_sys_of_ok hexec]
  rfl

/-- A file is sent as it is. -/
theorem run_uploadFile (now : Nat) {client : OssClient} {node : Node} {holes : Bool}
    (hnode : t.get? (dir ++ [root]) = some node) (hkind : node.kind = .file bytes holes)
    (sha256 : List UInt8 → String) (key contentType : String) :
    (uploadFile client sha256 key (canonical (dir ++ [root])) contentType).run
    (FileTree.exec cred now) t =
      (some (.ok (uploadArchive client sha256 key contentType bytes)), t) := by
  have hlink : node.isLink = false := by rw [Node.isLink, hkind]
  have hsize : node.info.size = bytes.length := by rw [Node.info, Node.size, hkind]
  have hstat : (io (sys (.stat (canonical (dir ++ [root]))))).run (FileTree.exec cred now) t =
      (some (.ok node.info), t) := by
    rw [io, Prog.run_mapError, run_sys_stat (walk_plain hcred hnode hlink) hnode]
    rfl
  have hread := run_io_read hcred now hnode hkind
  rw [uploadFile, Prog.run_bind_ok _ hstat, hsize, uploadArchive]
  split
  · split
    · rfl
    · split
      · rfl
      · rw [Prog.run_bind_ok _ hread]
        rfl
  · rw [Prog.run_bind_ok _ hread]
    rfl

end OnePiece

/-! ### Pieces -/

theorem chunksWithin_cons (size n : Nat) (byte : UInt8) (data : List UInt8) :
    chunksWithin size (n + 1) (byte :: data) =
      (byte :: data).take size :: chunksWithin size n ((byte :: data).drop size) :=
  rfl

theorem chunksWithin_eq {size n : Nat} (hsize : 0 < size) {data : List UInt8}
    (hn : data.length ≤ n) :
    chunksWithin size n data = chunksOf size data := by
  rw [chunksOf, if_neg (Nat.ne_of_gt hsize)]
  induction n using Nat.strongRecOn generalizing data with
  | ind n ih =>
    cases data with
    | nil => cases n <;> rfl
    | cons byte data =>
      rw [List.length_cons] at hn
      obtain ⟨m, rfl⟩ := Nat.exists_eq_add_of_lt hn
      have hdrop : ((byte :: data).drop size).length ≤ data.length := by
        rw [List.length_drop, List.length_cons]
        omega
      rw [List.length_cons, chunksWithin_cons, chunksWithin_cons]
      rw [ih _ (by omega) (hdrop.trans (by omega)), ih _ (by omega) hdrop]

/-- The first piece, and those of the rest. -/
theorem chunksOf_append {size : Nat} (hsize : 0 < size) {body rest : List UInt8} (hbody : body ≠ [])
    (hfits : body.length ≤ size) (hshort : body.length < size → rest = []) :
    chunksOf size (body ++ rest) = body :: chunksOf size rest := by
  have htake : (body ++ rest).take size = body ∧ (body ++ rest).drop size = rest := by
    rcases Nat.lt_or_ge body.length size with hlt | hge
    · obtain rfl := hshort hlt
      rw [List.append_nil]
      exact ⟨List.take_of_length_le hfits, List.drop_of_length_le hfits⟩
    · obtain rfl := Nat.le_antisymm hfits hge
      exact ⟨List.take_left, List.drop_left⟩
  rcases hdata : body ++ rest with _ | ⟨byte, data⟩
  · exact absurd (List.append_eq_nil_iff.mp hdata).1 hbody
  · rw [hdata] at htake
    have hrest : rest.length ≤ data.length := by
      rw [← htake.2, List.length_drop, List.length_cons]
      omega
    rw [chunksOf, if_neg (Nat.ne_of_gt hsize), List.length_cons, chunksWithin_cons, htake.1,
      htake.2,
      chunksWithin_eq hsize hrest]

theorem chunksOf_flatten {size : Nat} (hsize : 0 < size) {front : List (List UInt8)}
    (hfull : ∀ body ∈ front, body.length = size) (rest : List UInt8) :
    chunksOf size (front.flatten ++ rest) = front ++ chunksOf size rest := by
  induction front with
  | nil => rfl
  | cons body front ih =>
    obtain ⟨hbody, hfront⟩ := List.forall_mem_cons.mp hfull
    have hne : body ≠ [] := List.length_pos_iff.mp (by omega)
    rw [List.flatten_cons, List.append_assoc,
      chunksOf_append hsize hne (Nat.le_of_eq hbody) (by omega), ih hfront,
      List.cons_append]

theorem chunksOf_nil {size : Nat} (hsize : 0 < size) : chunksOf size [] = [] := by
  rw [chunksOf, if_neg (Nat.ne_of_gt hsize)]
  rfl

/-! ### The upload in one piece -/

/-- The client that runs a job against a store. -/
def UploadJob.client (job : UploadJob) (keyPrefix : String) (store : Store) : OssClient :=
  ⟨keyPrefix, job.partSize, job.multipartThreshold, job.uploadTimeoutSeconds, store⟩

section Oneshot

variable (job : UploadJob) (keyPrefix : String) (store : Store)

/-- The upload of a file that holds still. -/
def UploadJob.oneshot (file : List UInt8) : Upload :=
  uploadArchive (job.client keyPrefix store) job.sha256 job.key job.contentType file

variable {job keyPrefix store} (hintime : store.timeoutAt = none)

include hintime

theorem timedOut_client (requests : Nat) : (job.client keyPrefix store).timedOut requests =
    false := by
  rw [OssClient.timedOut, UploadJob.client, hintime, Option.any_none]

variable (job keyPrefix) in
theorem sendParts_append {number : Nat} {front : List (List UInt8)}
    (hfront : ∀ i < front.length, store.part (number + i) = none) (rest : List (List UInt8)) :
    sendParts (job.client keyPrefix store) number (front ++ rest) =
      (front ++ (sendParts (job.client keyPrefix store) (number + front.length) rest).1,
        (sendParts (job.client keyPrefix store) (number + front.length) rest).2) := by
  induction front generalizing number with
  | nil => rfl
  | cons body front ih =>
    have hfirst : (job.client keyPrefix store).store.part number = none := hfront 0 (Nat.succ_pos _)
    have hrest : ∀ i < front.length, store.part (number + 1 + i) = none := by
      intro i hi
      rw [Nat.add_assoc, Nat.add_comm 1 i]
      exact hfront (i + 1) (Nat.succ_lt_succ hi)
    rw [List.cons_append, sendParts, if_neg (by simp [timedOut_client hintime]), hfirst, ih hrest,
      List.length_cons,
      Nat.add_right_comm, Nat.add_assoc]
    rfl

theorem oneshot_small {file : List UInt8} (hsmall : ¬ job.multipartThreshold < file.length) :
    (job.oneshot keyPrefix store file).result =
      match store.put with
      | some e => .error (.other ("put_object: " ++ e))
      | none => .ok ⟨job.key, file.length, job.contentType, job.sha256 file⟩ := by
  have hsmall' : ¬ file.length > (job.client keyPrefix store).multipartThreshold := hsmall
  rw [UploadJob.oneshot, uploadArchive, if_neg hsmall', putObject,
    if_neg (by simp [timedOut_client hintime])]
  simp only [UploadJob.client]
  cases store.put <;> rfl

theorem oneshot_large {file : List UInt8} (hlarge : job.multipartThreshold < file.length) :
    job.oneshot keyPrefix store file =
      match store.create with
      | .error e => ⟨[], .error (.other ("create_multipart_upload: " ++ e))⟩
      | .ok _ => putParts (job.client keyPrefix store) job.sha256 job.key job.contentType
        file.length file := by
  have hlarge' : file.length > (job.client keyPrefix store).multipartThreshold := hlarge
  rw [UploadJob.oneshot, uploadArchive, if_pos hlarge', if_neg (by simp [timedOut_client hintime])]
  rfl

/-- A part the store does not take is the last one sent. -/
theorem oneshot_part {file : List UInt8} (hlarge : job.multipartThreshold < file.length)
    {id : String}
    (hcreate : store.create = .ok id) {front later : List (List UInt8)} {body : List UInt8}
    (hpieces : chunksOf job.partSize file = front ++ body :: later)
    (hfront : ∀ i < front.length, store.part (1 + i) = none) {e : String}
    (hpart : store.part (1 + front.length) = some e) :
    job.oneshot keyPrefix store file = ⟨front ++ [body],
      .error (.other ("upload_part(" ++ toString (1 + front.length) ++ "): " ++ e))⟩ := by
  have hpart' : (job.client keyPrefix store).store.part (1 + front.length) = some e := hpart
  have hpieces' : chunksOf (job.client keyPrefix store).partSize file = front ++ body :: later :=
    hpieces
  rw [oneshot_large hintime hlarge, hcreate]
  dsimp only
  rw [putParts, hpieces', sendParts_append job keyPrefix hintime hfront, sendParts,
    if_neg (by simp [timedOut_client hintime]), hpart']

variable (keyPrefix) in
/-- Parts the store takes are all sent, and then it is asked to join them. -/
theorem oneshot_parts {file : List UInt8} (hlarge : job.multipartThreshold < file.length)
    {id : String} (hcreate : store.create = .ok id)
    (hparts : ∀ i < (chunksOf job.partSize file).length, store.part (1 + i) = none) :
    job.oneshot keyPrefix store file = ⟨chunksOf job.partSize file,
      match store.complete with
      | some e => .error (.other ("complete_multipart_upload: " ++ e))
      | none => .ok ⟨job.key, file.length, job.contentType, job.sha256 file⟩⟩ := by
  have hsent : sendParts (job.client keyPrefix store) 1
      (chunksOf (job.client keyPrefix store).partSize file) =
      (chunksOf job.partSize file, none) := by
    have happend := sendParts_append job keyPrefix hintime hparts []
    rw [List.append_nil] at happend
    rw [show (job.client keyPrefix store).partSize = job.partSize from rfl, happend, sendParts,
      List.append_nil]
  rw [oneshot_large hintime hlarge, hcreate]
  dsimp only
  rw [putParts, hsent]
  dsimp only
  rw [if_neg (by simp [timedOut_client hintime])]
  simp only [UploadJob.client]
  cases store.complete <;> rfl

end Oneshot

/-! ### The upload step by step -/

namespace LiveUpload

/-- What the store says to a request for which this is settled. -/
def said : Option String → Except String Unit
  | none => .ok ()
  | some e => .error e

/-- Nobody writes to the file, its reads succeed, and the store answers as is settled; it
    may carry a completion out before it says anything. -/
def Answered (store : Store) (w : LiveUpload) : LiveEvent → Prop
  | .stat | .opened | .read _ | .reply .abortReply => True
  | .reply (.putReply reply) => reply = said store.put
  | .reply (.createReply reply) => reply = store.create.map some
  | .reply (.partReply reply) => (reply.map fun _ => ()) = said (store.part w.run.partNumber)
  | .reply (.completeReply reply) => reply = said store.complete
  | .reply .storeCompletes => w.run.pc = .completing ∧ w.run.completed = false
  | _ => False

section Agreement

variable (job : UploadJob) (keyPrefix : String) (store : Store) (file : List UInt8) (w : LiveUpload)

/-- The file is uploaded in parts. -/
def Created : Prop := job.multipartThreshold < file.length ∧ ∃ id, store.create = .ok id

/-- The store takes the first parts. -/
def TakesFirst (n : Nat) : Prop := ∀ i < n, store.part (1 + i) = none

/-- The end is that of the upload in one piece. -/
def EndsAs : Prop :=
  w.run.result = some (job.oneshot keyPrefix store file).result ∧
    (job.multipartThreshold < file.length → w.bodies = (job.oneshot keyPrefix store file).sent)

/-- What the store has answered so far. -/
def Heard : Prop :=
  match w.run.pc with
  | .sizing | .loading | .putting => True
  | .creating => job.multipartThreshold < file.length
  | .opening => Created job store file
  | .reading => Created job store file ∧ TakesFirst store w.uploaded.length
  | .sending => Created job store file ∧ TakesFirst store (w.uploaded.length - 1)
  | .completing =>
    Created job store file ∧ TakesFirst store w.uploaded.length ∧
      w.bodies = chunksOf job.partSize file
  | .aborting =>
    ∃ e, w.run.pending = some e ∧ job.oneshot keyPrefix store file = ⟨w.bodies, .error e⟩
  | .returned | .failed => EndsAs job keyPrefix store file w
  | .dropped => False

/-- The upload gives up. -/
def GivesUp (w w' : LiveUpload) : Prop :=
  (w'.run.pc = .aborting ∨ w'.run.pc = .failed) ∧ rank job w'.run < rank job w.run

/-- What every answered step keeps. -/
structure OnTrack : Prop where
  known : w.At job fun _ bytes => bytes = file
  heard : Heard job keyPrefix store file w
  calm : Calm file w ∨ w.run.pc = .aborting ∨ w.run.pc = .failed

variable {job keyPrefix store file w}

theorem Sending.bodies_eq (hw : w.Sending job fun _ bytes => bytes = file) :
    w.bodies = w.bodies.dropLast ++ [w.run.buf] :=
  (List.dropLast_append_getLast? _ hw.last).symm

theorem Sending.length_uploaded (hw : w.Sending job fun _ bytes => bytes = file) :
    w.uploaded.length = w.bodies.dropLast.length + 1 := by
  have hcount := congrArg List.length hw.bodies_eq
  simpa [bodies] using hcount

/-- The parts sent so far are the first pieces of the file. -/
theorem Sending.pieces (hpos : 0 < job.partSize) (hw : w.Sending job fun _ bytes => bytes = file)
    (htaken : w.taken <+: file) :
    ∃ later, chunksOf job.partSize file = w.bodies.dropLast ++ w.run.buf :: later ∧
      (w.run.buf.length < job.partSize → later = []) := by
  have hbodies := hw.bodies_eq
  obtain ⟨rest, hrest⟩ := htaken
  have hbuf : w.run.buf ≠ [] := by
    apply hw.parts.nonempty
    change w.run.buf ∈ w.bodies
    rw [hbodies]
    simp
  have hlast : w.run.buf.length < job.partSize → rest = [] := by
    intro hshort
    have hall := hw.short hshort
    rw [hall] at hrest
    simpa using hrest
  have hjoined : w.bodies.dropLast.flatten ++ w.run.buf = w.taken := by
    have hflatten : w.bodies.flatten = w.taken := hw.parts.joined
    rw [hbodies, List.flatten_append] at hflatten
    simpa using hflatten
  have hfull : ∀ body ∈ w.bodies.dropLast, body.length = job.partSize := hw.parts.full
  refine ⟨chunksOf job.partSize rest, ?_, fun hshort => ?_⟩
  · rw [← hrest, ← hjoined, List.append_assoc, chunksOf_flatten hpos hfull,
      chunksOf_append hpos hbuf hw.fits hlast]
  · rw [hlast hshort]
    exact chunksOf_nil hpos

/-- The inner loop is left, or goes on. -/
theorem heard_fill {s : UploadRun} (atEnd : Bool) (hpos : 0 < job.partSize)
    (hcreated : Created job store file) (htakes : TakesFirst store w.uploaded.length)
    (hend : s.buf = [] → atEnd = true → w.bodies = chunksOf job.partSize file)
    (hpc : w.run.pc ≠ .sending ∨ s.buf = []) : Heard job keyPrefix store file
    (w.note (s.fill job atEnd)) := by
  unfold UploadRun.fill
  split
  · rw [note_of_ne (by simp)]
    exact ⟨hcreated, htakes⟩
  · rename_i hleft
    split
    · rename_i hempty
      have hatEnd : atEnd = true := by
        rcases hatEnd : atEnd with _ | _
        · exact absurd ⟨by simpa [hempty] using hpos, hatEnd⟩ hleft
        · rfl
      rw [UploadRun.complete, note_of_ne (by simp)]
      exact ⟨hcreated, htakes, hend hempty hatEnd⟩
    · rename_i hnonempty
      unfold note
      rw [if_pos ⟨rfl, hpc.resolve_right hnonempty⟩]
      refine ⟨hcreated, fun i hi => htakes i ?_⟩
      simpa using hi

/-- A part is up. -/
theorem heard_next {s : UploadRun} (hpos : 0 < job.partSize)
    (hw : w.Sending job fun _ bytes => bytes = file)
    (htaken : w.taken <+: file) (hpc : w.run.pc = .sending)
    (hheard : Heard job keyPrefix store file w)
    (hpart : store.part w.run.partNumber = none) (hbuf : s.buf = w.run.buf) :
    Heard job keyPrefix store file (w.note (s.next job)) := by
  obtain ⟨later, hpieces, hshort⟩ := hw.pieces hpos htaken
  simp only [Heard, hpc] at hheard
  obtain ⟨hcreated, hfirst⟩ := hheard
  have hlen := hw.length_uploaded
  have htakes : TakesFirst store w.uploaded.length := by
    intro i hi
    rcases Nat.lt_or_ge i (w.uploaded.length - 1) with hlt | hge
    · exact hfirst i hlt
    · have hnumber := hw.partNumber
      rw [show 1 + i = w.run.partNumber by omega]
      exact hpart
  unfold UploadRun.next
  split
  · rename_i hlast
    rw [hbuf] at hlast
    rw [UploadRun.complete, note_of_ne (by simp)]
    refine ⟨hcreated, htakes, ?_⟩
    rw [hpieces, hshort hlast]
    exact hw.bodies_eq
  · apply heard_fill false hpos hcreated htakes
    · intro _ hatEnd
      cases hatEnd
    · exact Or.inr rfl

theorem heard_read {count : Nat} (hpos : 0 < job.partSize)
    (hw : w.At job fun _ bytes => bytes = file)
    (hcalm : Calm file w) (hheard : Heard job keyPrefix store file w)
    (h : w.step job (.read count) = some w') :
    Heard job keyPrefix store file w' := by
  simp only [step] at h
  split at h
  · rename_i hpc
    split at h
    · cases h
    · split at h
      · obtain ⟨s, hs, rfl⟩ := advance_eq_some h
        simp only [UploadRun.step, hpc, if_true] at hs
        obtain rfl := Option.some.inj hs
        trivial
      · obtain rfl := Option.some.inj h
        simp only [Heard, hpc]
  · rename_i hpc
    simp only [At, hpc] at hw
    simp only [Heard, hpc] at hheard
    split at h
    · cases h
    · rename_i hcount
      obtain ⟨s, hs, rfl⟩ := advance_eq_some h
      simp only [UploadRun.step, hpc, if_true] at hs
      split at hs
      · cases hs
      · obtain rfl := Option.some.inj hs
        apply heard_fill _ hpos hheard.1 hheard.2
        · intro hempty hatEnd
          obtain ⟨hbuf, hread⟩ := List.append_eq_nil_iff.mp hempty
          have hall : w.taken = file := by
            rw [read_eq_nil_iff (by omega), hcalm.unchanged] at hread
            exact hcalm.taken.eq_of_length_le hread
          have hhashed : w.bodies.flatten = file := by
            rw [← hall, hw.taken, hbuf, List.append_nil]
            exact hw.parts.joined
          have hpieces := chunksOf_flatten hpos hw.full []
          rw [List.append_nil, hhashed, chunksOf_nil hpos, List.append_nil] at hpieces
          exact hpieces.symm
        · exact Or.inl (by simp [hpc])
  · cases h

theorem heard_put {reply : Except String Unit} (hintime : store.timeoutAt = none)
    (hw : w.At job fun _ bytes => bytes = file) (hcalm : Calm file w)
    (hanswered : reply = said store.put) (h : w.answer job (.putReply reply) = some w') :
    Heard job keyPrefix store file w' ∧
      (GivesUp job w w' ∨ w.Smooth (.reply (.putReply reply))) := by
  have hends : ∀ {s : UploadRun}, w.run.pc = .putting →
      s.result = some (job.oneshot keyPrefix store file).result →
      ∀ object, EndsAs job keyPrefix store file { w.note s with object := object } := by
    intro s hpc hresult object
    simp only [At, hpc] at hw
    have hsmall := hw.2.1.small
    rw [hcalm.size_eq (by simp [hpc])] at hsmall
    exact ⟨hresult, fun hlarge => absurd hlarge (Nat.not_lt.mpr hsmall)⟩
  have hresult : w.run.pc = .putting → (job.oneshot keyPrefix store file).result =
      match store.put with
      | some e => .error (.other ("put_object: " ++ e))
      | none => .ok ⟨job.key, file.length, job.contentType, job.sha256 file⟩ := by
    intro hpc
    simp only [At, hpc] at hw
    have hsmall := hw.2.1.small
    rw [hcalm.size_eq (by simp [hpc])] at hsmall
    exact oneshot_small hintime (Nat.not_lt.mpr hsmall)
  rcases hput : store.put with _ | e
  · rw [hput] at hanswered hresult
    obtain rfl := hanswered
    obtain ⟨w'', hw'', rfl⟩ := Option.map_eq_some_iff.mp h
    obtain ⟨s, hs, rfl⟩ := advance_eq_some hw''
    simp only [UploadRun.step] at hs
    split at hs
    · rename_i hpc
      obtain rfl := Option.some.inj hs
      refine ⟨hends hpc ?_ _, Or.inr trivial⟩
      have hsize := hcalm.size_eq (by simp [hpc])
      simp only [At, hpc] at hw
      rw [hresult hpc, UploadRun.succeed, hsize, hw.2.2.1, hw.2.2.2]
    · cases hs
  · rw [hput] at hanswered hresult
    obtain rfl := hanswered
    obtain ⟨s, hs, rfl⟩ := advance_eq_some h
    simp only [UploadRun.step] at hs
    split at hs
    · rename_i hpc
      obtain rfl := Option.some.inj hs
      refine ⟨hends hpc ?_ w.object, Or.inl ⟨Or.inr rfl, ?_⟩⟩
      · rw [hresult hpc]
      · simp [rank, UploadRun.fail, note, hpc]
    · cases hs

theorem heard_create {reply : Except String (Option String)} (hintime : store.timeoutAt = none)
    (hw : w.At job fun _ bytes => bytes = file) (hheard : Heard job keyPrefix store file w)
    (hanswered : reply = store.create.map some) (h : w.answer job (.createReply reply) = some w') :
    Heard job keyPrefix store file w' ∧
      (GivesUp job w w' ∨ w.Smooth (.reply (.createReply reply))) := by
  obtain ⟨s, hs, rfl⟩ := advance_eq_some h
  simp only [UploadRun.step] at hs
  split at hs
  · rename_i hpc
    simp only [At, hpc] at hw
    simp only [Heard, hpc] at hheard
    rcases hcreate : store.create with e | id
    · rw [hcreate] at hanswered
      obtain rfl := hanswered
      obtain rfl := Option.some.inj hs
      refine ⟨⟨?_, fun _ => ?_⟩, Or.inl ⟨Or.inr rfl, ?_⟩⟩
      · rw [oneshot_large hintime hheard, hcreate]
        rfl
      · rw [oneshot_large hintime hheard, hcreate, note_of_ne (by simp [UploadRun.fail]), bodies,
          hw.uploaded]
        rfl
      · simp [rank, UploadRun.fail, note, hpc]
    · rw [hcreate] at hanswered
      obtain rfl := hanswered
      obtain rfl := Option.some.inj hs
      exact ⟨⟨hheard, id, hcreate⟩, Or.inr rfl⟩
  · cases hs

theorem heard_part {reply : Except String (Option String)} (hpos : 0 < job.partSize)
    (hintime : store.timeoutAt = none) (hw : w.At job fun _ bytes => bytes = file)
    (hcalm : Calm file w) (hheard : Heard job keyPrefix store file w)
    (hanswered : (reply.map fun _ => ()) = said (store.part w.run.partNumber))
    (h : w.answer job (.partReply reply) = some w') :
    Heard job keyPrefix store file w' ∧
      (GivesUp job w w' ∨ w.Smooth (.reply (.partReply reply))) := by
  rcases reply with e | eTag
  · obtain ⟨s, hs, rfl⟩ := advance_eq_some h
    simp only [UploadRun.step] at hs
    split at hs
    · rename_i hpc
      obtain rfl := Option.some.inj hs
      have hsending : w.Sending job fun _ bytes => bytes = file := by simpa only [At, hpc] using hw
      obtain ⟨later, hpieces, -⟩ := hsending.pieces hpos hcalm.taken
      simp only [Heard, hpc] at hheard
      obtain ⟨⟨hlarge, id, hcreate⟩, hfirst⟩ := hheard
      have hlen := hsending.length_uploaded
      have hnumber : w.run.partNumber = 1 + w.bodies.dropLast.length := by
        rw [hsending.partNumber, hlen, Nat.add_comm]
      have hpart : store.part (1 + w.bodies.dropLast.length) = some e := by
        rw [hnumber] at hanswered
        rcases hpart : store.part (1 + w.bodies.dropLast.length) with _ | e'
        · rw [hpart] at hanswered
          cases hanswered
        · rw [hpart] at hanswered
          rw [Except.error.inj hanswered]
      refine ⟨⟨_, rfl, ?_⟩, Or.inl ⟨Or.inl rfl, ?_⟩⟩
      · rw [oneshot_part hintime hlarge hcreate hpieces (fun i hi => hfirst i (by omega)) hpart,
          note_of_ne (by simp [UploadRun.abort]), ← hsending.bodies_eq, hnumber]
        rfl
      · simp only [rank, UploadRun.abort, note, hpc]
        split <;> decide
    · cases hs
  · refine ⟨?_, Or.inr trivial⟩
    have hpart : store.part w.run.partNumber = none := by
      rcases hpart : store.part w.run.partNumber with _ | e
      · rfl
      · rw [hpart] at hanswered
        cases hanswered
    simp only [answer] at h
    split at h
    · cases h
    · obtain ⟨s, hs, rfl⟩ := advance_eq_some h
      simp only [UploadRun.step] at hs
      split at hs
      · rename_i hpc
        obtain rfl := Option.some.inj hs
        have hsending : w.Sending job fun _ bytes => bytes = file := by
          simpa only [At, hpc] using hw
        exact heard_next hpos hsending hcalm.taken hpc hheard hpart rfl
      · cases hs

theorem heard_complete {reply : Except String Unit} (hintime : store.timeoutAt = none)
    (hw : w.At job fun _ bytes => bytes = file) (hcalm : Calm file w)
    (hheard : Heard job keyPrefix store file w)
    (hanswered : reply = said store.complete) (h : w.answer job (.completeReply reply) = some w') :
    Heard job keyPrefix store file w' ∧
      (GivesUp job w w' ∨ w.Smooth (.reply (.completeReply reply))) := by
  obtain ⟨s, hs, rfl⟩ := advance_eq_some h
  simp only [UploadRun.step] at hs
  split at hs
  · rename_i hpc
    have hsize := hcalm.size_eq (by simp [hpc])
    simp only [At, hpc] at hw
    simp only [Heard, hpc] at hheard
    obtain ⟨⟨hlarge, id, hcreate⟩, htakes, hbodies⟩ := hheard
    have hparts : ∀ i < (chunksOf job.partSize file).length, store.part (1 + i) = none := by
      rw [← hbodies, bodies, List.length_map]
      exact htakes
    have honeshot := oneshot_parts keyPrefix hintime hlarge hcreate hparts
    rcases hcomplete : store.complete with _ | e
    · rw [hcomplete] at hanswered honeshot
      have hok : reply = .ok () := hanswered
      obtain rfl := hok
      dsimp only at hs
      split at hs
      · obtain rfl := Option.some.inj hs
        refine ⟨⟨?_, fun _ => ?_⟩, Or.inr trivial⟩
        · rw [honeshot, note_of_ne (by simp [UploadRun.succeed]), UploadRun.succeed, hsize,
            hw.2.2.1, hw.2.1]
        · rw [honeshot, note_of_ne (by simp [UploadRun.succeed])]
          exact hbodies
      · cases hs
    · rw [hcomplete] at hanswered honeshot
      obtain rfl := hanswered
      obtain rfl := Option.some.inj hs
      refine ⟨⟨?_, fun _ => ?_⟩, Or.inl ⟨Or.inr rfl, ?_⟩⟩
      · rw [honeshot]
        rfl
      · rw [honeshot, note_of_ne (by simp [UploadRun.fail])]
        exact hbodies
      · simp only [rank, UploadRun.fail, note, hpc]
        split <;> decide
  · cases hs

/-- What is answered keeps to the upload in one piece, or gives up where that does. -/
theorem heard_reply {e : UploadEvent} (hpos : 0 < job.partSize) (hintime : store.timeoutAt = none)
    (hw : w.At job fun _ bytes => bytes = file) (hcalm : Calm file w)
    (hheard : Heard job keyPrefix store file w)
    (hanswered : w.Answered store (.reply e)) (h : w.answer job e = some w') :
    Heard job keyPrefix store file w' ∧ (GivesUp job w w' ∨ w.Smooth (.reply e)) := by
  cases e with
  | putReply reply => exact heard_put hintime hw hcalm hanswered h
  | createReply reply => exact heard_create hintime hw hheard hanswered h
  | partReply reply => exact heard_part hpos hintime hw hcalm hheard hanswered h
  | completeReply reply => exact heard_complete hintime hw hcalm hheard hanswered h
  | storeCompletes =>
    obtain ⟨hpc, hcompleted⟩ := hanswered
    obtain ⟨w'', hw'', rfl⟩ := Option.map_eq_some_iff.mp h
    obtain ⟨s, hs, rfl⟩ := advance_eq_some hw''
    simp only [UploadRun.step] at hs
    split at hs
    · obtain rfl := Option.some.inj hs
      refine ⟨?_, Or.inr ⟨hpc, hcompleted⟩⟩
      have hnote : w.note { w.run with completed := true } = _ := note_of_eq rfl
      rw [hnote]
      simp only [Heard, hpc] at hheard ⊢
      exact hheard
    · cases hs
  | abortReply =>
    obtain ⟨s, hs, rfl⟩ := advance_eq_some h
    simp only [UploadRun.step] at hs
    split at hs
    · rename_i hpc
      exact absurd (by simp [hpc]) hcalm.alive
    · cases hs
  | _ => cases hanswered

/-- After it has given up, an upload waits for nothing but the abort. -/
theorem idle_step {e : UploadEvent} {s s' : UploadRun} (hpc : s.pc = .aborting ∨ s.pc = .failed)
    (h : s.step job e = some s') : e = .abortReply ∨ e = .storeCompletes ∨ e = .timeout ∨
      e = .drop := by
  cases e with
  | abortReply | storeCompletes | timeout | drop => simp
  | _ reply =>
    simp only [UploadRun.step] at h
    split at h
    · rename_i hwaits
      simp [hwaits] at hpc
    · cases h

theorem onTrack_abort {e : LiveEvent} (hw : w.OnTrack job keyPrefix store file)
    (hpc : w.run.pc = .aborting ∨ w.run.pc = .failed) (hanswered : w.Answered store e)
    (h : w.step job e = some w') :
    w'.OnTrack job keyPrefix store file ∧ stepsLeft job w' < stepsLeft job w := by
  have hheard := hw.heard
  have habort : e = .reply .abortReply := by
    cases e with
    | change data => cases hanswered
    | stat =>
      obtain ⟨s, hs, -⟩ := advance_eq_some h
      simpa using idle_step hpc hs
    | opened =>
      obtain ⟨s, hs, -⟩ := advance_eq_some h
      simpa using idle_step hpc hs
    | read count =>
      simp only [step] at h
      split at h
      · rename_i hloading
        simp [hloading] at hpc
      · rename_i hreading
        simp [hreading] at hpc
      · cases h
    | reply e =>
      obtain ⟨s, object, hs, -⟩ := answer_cases (e := e) h
      rcases idle_step hpc hs with rfl | rfl | rfl | rfl
      · rfl
      · simp [hanswered.1] at hpc
      · cases hanswered
      · cases hanswered
  obtain rfl := habort
  obtain ⟨s, hs, rfl⟩ := advance_eq_some h
  simp only [UploadRun.step] at hs
  split at hs
  · rename_i haborting
    simp only [Heard, haborting] at hheard
    obtain ⟨error, hpending, honeshot⟩ := hheard
    rw [hpending] at hs
    obtain rfl := Option.some.inj hs
    refine ⟨⟨at_over rfl (Or.inr (Or.inl rfl)), ⟨?_, fun _ => ?_⟩, Or.inr (Or.inr rfl)⟩, ?_⟩
    · rw [honeshot]
      rfl
    · rw [honeshot, note_of_ne (by simp [UploadRun.fail])]
      rfl
    · exact stepsLeft_note (by simp [rank, UploadRun.fail, haborting])
  · cases hs

theorem onTrack_step {e : LiveEvent} (hpos : 0 < job.partSize) (hintime : store.timeoutAt = none)
    (hw : w.OnTrack job keyPrefix store file) (hanswered : w.Answered store e)
    (h : w.step job e = some w') :
    w'.OnTrack job keyPrefix store file ∧ stepsLeft job w' < stepsLeft job w := by
  obtain ⟨hknown, hheard, hcalm | hover⟩ := hw
  · have hknown' : w'.At job fun _ bytes => bytes = file := by
      apply at_step hpos hknown _ h
      intro count _ hend
      rw [hcalm.unchanged] at hend
      exact hcalm.taken.eq_of_length_le hend
    have hsmooth : w.Smooth e → Heard job keyPrefix store file w' →
        w'.OnTrack job keyPrefix store file ∧ stepsLeft job w' < stepsLeft job w := by
      intro hsmooth hheard'
      obtain ⟨hcalm', hless⟩ := smooth_step hpos hknown hcalm hsmooth h
      exact ⟨⟨hknown', hheard', Or.inl hcalm'⟩, hless⟩
    cases e with
    | change data => cases hanswered
    | stat =>
      apply hsmooth trivial
      obtain ⟨s, hs, rfl⟩ := advance_eq_some h
      simp only [UploadRun.step, hcalm.unchanged] at hs
      split at hs
      · split at hs
        · rename_i hlarge
          obtain rfl := Option.some.inj hs
          exact hlarge
        · obtain rfl := Option.some.inj hs
          trivial
      · cases hs
    | opened =>
      apply hsmooth trivial
      obtain ⟨s, hs, rfl⟩ := advance_eq_some h
      simp only [UploadRun.step] at hs
      split at hs
      · rename_i hpc
        obtain rfl := Option.some.inj hs
        simp only [At, hpc] at hknown
        simp only [Heard, hpc] at hheard
        apply heard_fill false hpos hheard
        · rw [hknown.1.uploaded]
          intro i hi
          cases hi
        · intro _ hatEnd
          cases hatEnd
        · exact Or.inl (by simp [hpc])
      · cases hs
    | read count => exact hsmooth trivial (heard_read hpos hknown hcalm hheard h)
    | reply e =>
      obtain ⟨hheard', hgives | hsmooth'⟩ :=
        heard_reply hpos hintime hknown hcalm hheard hanswered h
      · obtain ⟨s, object, -, rfl⟩ := answer_cases h
        exact ⟨⟨hknown', hheard', Or.inr hgives.1⟩, Nat.add_lt_add_left hgives.2 _⟩
      · exact hsmooth hsmooth' hheard'
  · exact onTrack_abort ⟨hknown, hheard, Or.inr hover⟩ hover hanswered h

theorem onTrack_run {es : List LiveEvent} (hpos : 0 < job.partSize)
    (hintime : store.timeoutAt = none)
    (hw : w.OnTrack job keyPrefix store file) (hrun : Transitions.run (step job) w es = some w')
    (hanswered : Fine (step job) (Answered store) w es) :
    w'.OnTrack job keyPrefix store file ∧ es.length + stepsLeft job w' ≤ stepsLeft job w := by
  induction es generalizing w with
  | nil =>
    obtain rfl := Option.some.inj hrun
    exact ⟨hw, by simp⟩
  | cons e es ih =>
    unfold Transitions.run at hrun
    unfold Fine at hanswered
    rcases hstep : w.step job e with _ | next
    · rw [hstep] at hrun
      cases hrun
    · rw [hstep] at hrun hanswered
      obtain ⟨hnext, hless⟩ := onTrack_step hpos hintime hw hanswered.1 hstep
      obtain ⟨hw', hlen⟩ := ih hnext hrun hanswered.2
      refine ⟨hw', ?_⟩
      rw [List.length_cons]
      omega

/-- As long as it is not over, an upload gets an answer. -/
theorem onTrack_progress (hpos : 0 < job.partSize)
    (hcount : (file.length + job.partSize - 1) / job.partSize < 2 ^ 31 - 1)
    (hw : w.OnTrack job keyPrefix store file) (hover : w.run.isOver = false) :
    ∃ e w', w.Answered store e ∧ w.step job e = some w' := by
  obtain ⟨hknown, hheard, hcalm | hpc | hpc⟩ := hw
  · obtain ⟨e, w', hsmooth, hstep⟩ := smooth_progress hpos hcount hknown hcalm hover
    cases e with
    | change data => cases hsmooth
    | stat => exact ⟨.stat, w', trivial, hstep⟩
    | opened => exact ⟨.opened, w', trivial, hstep⟩
    | read count => exact ⟨.read count, w', trivial, hstep⟩
    | reply e =>
      obtain ⟨s, object, hs, -⟩ := answer_cases (e := e) hstep
      cases e with
      | putReply reply =>
        simp only [UploadRun.step] at hs
        split at hs
        · rename_i hputting
          refine ⟨.reply (.putReply (said store.put)), ?_⟩
          rcases hput : store.put with _ | e
          · simp [Answered, said, hput, step, answer, advance, UploadRun.step, hputting]
          · simp [Answered, said, hput, step, answer, advance, UploadRun.step, hputting]
        · cases hs
      | createReply reply =>
        simp only [UploadRun.step] at hs
        split at hs
        · rename_i hcreating
          refine ⟨.reply (.createReply (store.create.map some)), ?_⟩
          rcases hcreate : store.create with e | id
          · simp [Answered, hcreate, step, answer, advance, UploadRun.step, hcreating, Except.map]
          · simp [Answered, hcreate, step, answer, advance, UploadRun.step, hcreating, Except.map]
        · cases hs
      | partReply reply =>
        rcases reply with e | eTag
        · cases hsmooth
        · rcases hpart : store.part w.run.partNumber with _ | e
          · exact ⟨.reply (.partReply (.ok eTag)), w', by rw [Answered, hpart]; rfl, hstep⟩
          · simp only [UploadRun.step] at hs
            split at hs
            · rename_i hsending
              refine ⟨.reply (.partReply (.error e)), ?_⟩
              simp [Answered, said, hpart, step, answer, advance, UploadRun.step, hsending,
                Except.map]
            · cases hs
      | completeReply reply =>
        rcases reply with e | _
        · cases hsmooth
        · rcases hcomplete : store.complete with _ | e
          · exact ⟨.reply (.completeReply (.ok ())), w', by rw [Answered, hcomplete]; rfl, hstep⟩
          · simp only [UploadRun.step] at hs
            split at hs
            · rename_i hcompleting
              refine ⟨.reply (.completeReply (.error e)), ?_⟩
              simp [Answered, said, hcomplete, step, answer, advance, UploadRun.step, hcompleting]
            · cases hs
      | storeCompletes => exact ⟨.reply .storeCompletes, w', hsmooth, hstep⟩
      | _ => cases hsmooth
  · simp only [Heard, hpc] at hheard
    obtain ⟨e, hpending, -⟩ := hheard
    refine ⟨.reply .abortReply, ?_⟩
    simp [Answered, step, answer, advance, UploadRun.step, hpc, hpending]
  · simp [UploadRun.isOver, hpc] at hover

variable (keyPrefix) in
/-- **Step by step as in one piece.**  On a file nobody changes, with a store whose answers
    are settled and come in time, an upload takes a bounded number of steps, in whatever
    pieces it reads, and can always take the next until it is over.  Then its result and
    its parts are those of `uploadFile`, whether the upload succeeds or not. -/
theorem upload_agrees (hpos : 0 < job.partSize) (hintime : store.timeoutAt = none)
    (hcount : (file.length + job.partSize - 1) / job.partSize < 2 ^ 31 - 1) {es : List LiveEvent}
    (hrun : Transitions.run (step job) (start file) es = some w)
    (hanswered : Fine (step job) (Answered store) (start file) es) :
    es.length ≤ 3 * file.length + 8 ∧
      (w.run.isOver = false → ∃ e w', w.Answered store e ∧ w.step job e = some w') ∧
      (w.run.isOver = true → ∀ (cred : Cred) now (t : FileTree) dir name node holes,
        cred.privileged = true → t.get? (dir ++ [name]) = some node → node.kind = .file file holes →
        ∃ upload,
          (uploadFile (job.client keyPrefix store) job.sha256 job.key (canonical (dir ++ [name]))
            job.contentType).run (FileTree.exec cred now) t = (some (.ok upload), t) ∧
          w.run.result = some upload.result ∧
          (job.multipartThreshold < file.length → w.bodies = upload.sent)) := by
  have hstart : (start file).OnTrack job keyPrefix store file :=
    ⟨at_start file, trivial, Or.inl (calm_start file)⟩
  obtain ⟨hw, hlen⟩ := onTrack_run hpos hintime hstart hrun hanswered
  have hbound : stepsLeft job (start file) = 3 * file.length + 8 := rfl
  refine ⟨by omega, onTrack_progress hpos hcount hw, ?_⟩
  intro hover cred now t dir name node holes hcred hnode hkind
  refine ⟨job.oneshot keyPrefix store file,
    run_uploadFile hcred now hnode hkind job.sha256 job.key job.contentType, ?_⟩
  have hheard := hw.heard
  rcases UploadRun.over_iff.mp hover with hpc | hpc | hpc
  · simp only [Heard, hpc] at hheard
    exact hheard
  · simp only [Heard, hpc] at hheard
    exact hheard
  · simp only [Heard, hpc] at hheard

end Agreement

/-- A store that takes no part. -/
def refusing : Store where
  put := none
  create := .ok "u1"
  part := fun _ => some "500"
  complete := none
  timeoutAt := none

/-- Two bytes read one by one, and the part they make is refused. -/
theorem upload_agrees_refused : ∃ w upload,
    Transitions.run (step UploadRun.threeBytes) (start [104, 105])
        [.stat, .reply (.createReply (.ok (some "u1"))), .opened, .read 1, .read 1,
          .reply (.partReply (.error "500")), .reply .abortReply] = some w ∧
      (uploadFile (UploadRun.threeBytes.client "" refusing) UploadRun.threeBytes.sha256
        UploadRun.threeBytes.key
          (canonical ["srv", "w1", "home", "b"]) UploadRun.threeBytes.contentType).run
          (FileTree.exec rootUser 7) sampleHost = (some (.ok upload), sampleHost) ∧
        w.run.result = some upload.result ∧ w.bodies = upload.sent := by
  obtain ⟨w, hrun, hover⟩ : ∃ w, Transitions.run (step UploadRun.threeBytes) (start [104, 105])
      [.stat, .reply (.createReply (.ok (some "u1"))), .opened, .read 1, .read 1,
        .reply (.partReply (.error "500")), .reply .abortReply] = some w ∧ w.run.isOver = true :=
          ⟨_, rfl, rfl⟩
  have hanswered : Fine (step UploadRun.threeBytes) (Answered refusing) (start [104, 105])
      [.stat, .reply (.createReply (.ok (some "u1"))), .opened, .read 1, .read 1,
        .reply (.partReply (.error "500")), .reply .abortReply] :=
    ⟨trivial, rfl, trivial, trivial, trivial, rfl, trivial, trivial⟩
  have hfile : ∃ node, sampleHost.get? ["srv", "w1", "home", "b"] = some node ∧
      node.kind = .file [104, 105] false := ⟨_, rfl, rfl⟩
  obtain ⟨node, hnode, hkind⟩ := hfile
  have hcount : (([104, 105] : List UInt8).length + UploadRun.threeBytes.partSize - 1) /
      UploadRun.threeBytes.partSize < 2 ^ 31 - 1 :=
        Nat.lt_of_le_of_lt (by decide : _ ≤ 1) (by omega)
  obtain ⟨-, -, hend⟩ := upload_agrees "" (by decide : 0 < UploadRun.threeBytes.partSize)
    (rfl : refusing.timeoutAt = none) hcount hrun hanswered
  obtain ⟨upload, hupload, hresult, hbodies⟩ :=
    hend hover rootUser 7 sampleHost ["srv", "w1", "home"] "b" node false rfl hnode hkind
  exact ⟨w, upload, hrun, hupload, hresult, hbodies (by decide)⟩

end LiveUpload

end Scriptorium
