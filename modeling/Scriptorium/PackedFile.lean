import Scriptorium.ServiceError

/-!
# Writing the archive of a transfer

`service/archive.rs`: what `tar_gz_into_temp` puts into its file.  The tar builder
hands the archive to a gzip encoder in pieces.  The encoder writes its header before the
first of them, and keeps part of its output back.  Each write to the file may take some
bytes, be interrupted or fail.  The writes that happen under a `?` are checked; what the
encoder still holds when builder and encoder are dropped, always the end of the stream, is
written then, and the errors of these writes are lost.
-/

namespace Scriptorium

/-- What one `write` to the file comes to. -/
inductive WriteOutcome where
  | wrote (count : Nat)
  | interrupted
  | failed (error : IoError)
deriving DecidableEq

/-- Output of the compressor can follow it.  Under a `write_all` an interrupted write is
    tried again. -/
def WriteOutcome.Goes (retry : Bool) : WriteOutcome → Prop
  | .wrote count => 0 < count
  | .interrupted => retry
  | .failed _ => False

/-- The header and the trailer go on even behind a write that took nothing. -/
def WriteOutcome.Carries (retry : Bool) : WriteOutcome → Prop
  | .wrote _ => True
  | .interrupted => retry
  | .failed _ => False

instance (retry : Bool) : DecidablePred (WriteOutcome.Goes retry) := fun outcome => by
  unfold WriteOutcome.Goes; split <;> infer_instance

instance (retry : Bool) : DecidablePred (WriteOutcome.Carries retry) := fun outcome => by
  unfold WriteOutcome.Carries; split <;> infer_instance

/-- A compressor: its header, what it puts out for each further piece, what is left at the
    end of its input, and its trailer, a checksum and a length. -/
structure Compressor where
  header : List UInt8
  State : Type
  start : State
  feed : State → List UInt8 → State × List UInt8
  close : State → List UInt8
  trailer : State → List UInt8
  trailer_length : ∀ s, (trailer s).length = 8

/-- What the compressor makes of the given pieces. -/
def Compressor.body (gz : Compressor) : gz.State → List (List UInt8) → List UInt8
  | s, [] => gz.close s ++ gz.trailer s
  | s, piece :: pieces => (gz.feed s piece).2 ++ gz.body (gz.feed s piece).1 pieces

/-! ### The encoder -/

/-- `GzEncoder`, with the file it writes to. -/
structure GzEncoder (gz : Compressor) where
  state : gz.State
  /-- What is not in the file yet of the header, or of the trailer. -/
  raw : List UInt8
  /-- Output that is not in the file yet. -/
  buf : List UInt8
  file : List UInt8

/-- What a call comes to, the encoder after it, and the outcomes that are left; `none`
    where the outcomes end before the call does. -/
abbrev Written (gz : Compressor) : Type :=
  Option (Except IoError Unit × GzEncoder gz × List WriteOutcome)

/-- The `?` operator. -/
def Written.andThen {gz : Compressor} (r : Written gz)
    (next : GzEncoder gz → List WriteOutcome → Written gz) : Written gz :=
  match r with
  | some (.ok (), e, outcomes) => next e outcomes
  | some (.error error, e, outcomes) => some (.error error, e, outcomes)
  | none => none

namespace GzEncoder

variable {gz : Compressor}

def new (gz : Compressor) : GzEncoder gz := ⟨gz.start, gz.header, [], []⟩

/-- The file has taken `count` bytes of the header or trailer. -/
def advanceRaw (e : GzEncoder gz) (count : Nat) : GzEncoder gz :=
  { e with raw := e.raw.drop count, file := e.file ++ e.raw.take count }

/-- The file has taken `count` bytes of the buffer. -/
def advance (e : GzEncoder gz) (count : Nat) : GzEncoder gz :=
  { e with buf := e.buf.drop count, file := e.file ++ e.buf.take count }

/-- `write_header`, and the loop that writes the trailer: a write that takes nothing is
    followed by the next. -/
def pour (retry : Bool) : GzEncoder gz → List WriteOutcome → Written gz
  | e, [] => if e.raw = [] then some (.ok (), e, []) else none
  | e, outcome :: outcomes =>
    if e.raw = [] then some (.ok (), e, outcome :: outcomes)
    else match outcome with
      | .wrote count => pour retry (e.advanceRaw count) outcomes
      | .interrupted =>
        if retry then pour retry e outcomes
        else some (.error (.custom "operation interrupted"), e, outcomes)
      | .failed error => some (.error error, e, outcomes)

/-- Write the buffer to the file. -/
def dump (retry : Bool) : GzEncoder gz → List WriteOutcome → Written gz
  | e, [] => if e.buf = [] then some (.ok (), e, []) else none
  | e, outcome :: outcomes =>
    if e.buf = [] then some (.ok (), e, outcome :: outcomes)
    else match outcome with
      | .wrote 0 => some (.error (.custom "write zero"), e, outcomes)
      | .wrote count => dump retry (e.advance count) outcomes
      | .interrupted =>
        if retry then dump retry e outcomes
        else some (.error (.custom "operation interrupted"), e, outcomes)
      | .failed error => some (.error error, e, outcomes)

/-- Take in a piece. -/
def feed (e : GzEncoder gz) (piece : List UInt8) : GzEncoder gz :=
  { e with state := (gz.feed e.state piece).1, buf := e.buf ++ (gz.feed e.state piece).2 }

/-- `write_all`: write the header if that is to be done, make room, then compress. -/
def writeAll (e : GzEncoder gz) (piece : List UInt8) (outcomes : List WriteOutcome) : Written gz :=
  ((pour true e outcomes).andThen (dump true)).andThen fun e outcomes =>
    some (.ok (), e.feed piece, outcomes)

/-- `Drop`: the rest of the stream is written, and then the trailer, with their errors
    discarded.  Where the rest is not written the writer inside, dropped too, tries once
    more.  `flushed` are the outcomes for the rest, `trailed` those of all later writes. -/
def drop (e : GzEncoder gz) (flushed trailed : List WriteOutcome) :
    Option (GzEncoder gz × List WriteOutcome) :=
  match (pour false { e with buf := e.buf ++ gz.close e.state } flushed).andThen (dump false) with
  | some (.ok (), e, []) => (pour false { e with raw := gz.trailer e.state } trailed).map Prod.snd
  | some (.error _, e, []) => (dump false e trailed).map Prod.snd
  | _ => none

end GzEncoder

/-! ### The builder -/

section Builder

variable {gz : Compressor}

/-- What the walk over the source hands on: a piece of the archive, or an error. -/
abbrev WalkItem : Type := Except IoError (List UInt8)

/-- The blocks at the end of an archive. -/
def endOfArchive : List UInt8 := List.replicate 1024 0

/-- `append_dir_all` or `append_file`. -/
def append : List WalkItem → GzEncoder gz → List WriteOutcome → Written gz
  | [], e, outcomes => some (.ok (), e, outcomes)
  | .error error :: _, e, outcomes => some (.error error, e, outcomes)
  | .ok piece :: items, e, outcomes => (e.writeAll piece outcomes).andThen (append items)

/-- `Drop` of a builder that was not finished. -/
def dropUnfinished (e : GzEncoder gz) (flushed trailed : List WriteOutcome) :
    Option (GzEncoder gz × List WriteOutcome) := do
  let (_, e, flushed) ← e.writeAll endOfArchive flushed
  e.drop flushed trailed

/-- `tar_gz_into_temp`, once its file was created.  `checked` are the outcomes of the
    writes that happen up to the end of the closure, `flushed` and `trailed` those of the
    writes that happen when its values are dropped. -/
def packIntoTemp (gz : Compressor) (items : List WalkItem)
    (checked flushed trailed : List WriteOutcome) : Option (Except IoError Unit × List UInt8) :=
  match append items (GzEncoder.new gz) checked with
  | some (.ok (), e, left) =>
    match e.writeAll endOfArchive left with
    | some (result, e, []) =>
      match e.drop flushed trailed with
      | some (e, []) => some (result, e.file)
      | _ => none
    | _ => none
  | some (.error error, e, []) =>
    match dropUnfinished e flushed trailed with
    | some (e, []) => some (.error error, e.file)
    | _ => none
  | _ => none

/-- The pieces of the archive. -/
def piecesOf (items : List WalkItem) : List (List UInt8) := items.filterMap Except.toOption

/-- The whole gzip stream of the whole archive. -/
def wholeStream (gz : Compressor) (items : List WalkItem) : List UInt8 :=
  gz.header ++ gz.body gz.start (piecesOf items ++ [endOfArchive])

/-- None of the checked writes is an error, the first of them being those of a header of
    the given length. -/
def AllWritten : Nat → List WriteOutcome → Prop
  | _, [] => True
  | 0, outcome :: outcomes => outcome.Goes true ∧ AllWritten 0 outcomes
  | _ + 1, .failed _ :: _ => False
  | n + 1, .interrupted :: outcomes => AllWritten (n + 1) outcomes
  | n + 1, .wrote count :: outcomes => AllWritten (n + 1 - count) outcomes

/-- The source can be read to the end, and no checked write fails. -/
def Checks (header : Nat) (items : List WalkItem) (checked : List WriteOutcome) : Prop :=
  (∀ item ∈ items, ∃ piece, item = .ok piece) ∧ AllWritten header checked

end Builder

/-! ### What a call leaves in the file -/

section Accounts

variable {gz : Compressor} {e e' : GzEncoder gz} {outcomes left flushed trailed : List WriteOutcome}
  {result : Except IoError Unit}

/-- The file, once `pieces` have followed and all has been written. -/
def GzEncoder.whole (e : GzEncoder gz) (pieces : List (List UInt8)) : List UInt8 :=
  e.file ++ e.raw ++ e.buf ++ gz.body e.state pieces

theorem whole_feed (e : GzEncoder gz) (piece : List UInt8) (pieces : List (List UInt8)) :
    (e.feed piece).whole pieces = e.whole (piece :: pieces) := by
  simp [GzEncoder.whole, GzEncoder.feed, Compressor.body]

theorem advanceRaw_file_raw (e : GzEncoder gz) (count : Nat) :
    (e.advanceRaw count).file ++ (e.advanceRaw count).raw = e.file ++ e.raw := by
  simp [GzEncoder.advanceRaw]

theorem advance_file_buf (e : GzEncoder gz) (count : Nat) :
    (e.advance count).file ++ (e.advance count).buf = e.file ++ e.buf := by
  simp [GzEncoder.advance]

theorem allWritten_zero (outcomes : List WriteOutcome) :
    AllWritten 0 outcomes ↔ ∀ outcome ∈ outcomes, outcome.Goes true := by
  induction outcomes with
  | nil => simp [AllWritten]
  | cons outcome outcomes ih => rw [AllWritten, ih, List.forall_mem_cons]

/-- A `pour` moves the header or the trailer to the file, as far as the outcomes let it. -/
theorem pour_spec {retry : Bool} (h : e.pour retry outcomes = some (result, e', left)) :
    e'.state = e.state ∧ e'.buf = e.buf ∧ e'.file ++ e'.raw = e.file ++ e.raw ∧
      (result = .ok () ↔ e'.raw = []) ∧ ∃ used, outcomes = used ++ left ∧
        (result = .ok () ↔ ∀ outcome ∈ used, outcome.Carries retry) := by
  induction outcomes generalizing e with
  | nil =>
    unfold GzEncoder.pour at h
    split at h
    · rename_i hraw
      cases h
      exact ⟨rfl, rfl, rfl, by simp [hraw], [], rfl, by simp⟩
    · cases h
  | cons outcome outcomes ih =>
    unfold GzEncoder.pour at h
    split at h
    · rename_i hraw
      cases h
      exact ⟨rfl, rfl, rfl, by simp [hraw], [], rfl, by simp⟩
    · rename_i hraw
      split at h
      · rename_i count
        obtain ⟨hstate, hbuf, hfile, hok, used, rfl, hused⟩ := ih h
        refine ⟨hstate, hbuf, hfile.trans (advanceRaw_file_raw e count), hok, .wrote count :: used,
          rfl, ?_⟩
        rw [hused, List.forall_mem_cons]
        simp [WriteOutcome.Carries]
      · split at h
        · rename_i hretry
          obtain ⟨hstate, hbuf, hfile, hok, used, rfl, hused⟩ := ih h
          refine ⟨hstate, hbuf, hfile, hok, .interrupted :: used, rfl, ?_⟩
          rw [hused, List.forall_mem_cons]
          simp [WriteOutcome.Carries, hretry]
        · rename_i hretry
          cases h
          exact ⟨rfl, rfl, rfl, by simp [hraw], [.interrupted], rfl,
            by simp [WriteOutcome.Carries, hretry]⟩
      · cases h
        exact ⟨rfl, rfl, rfl, by simp [hraw], [.failed _], rfl, by simp [WriteOutcome.Carries]⟩

/-- The outcomes a checked header uses are passed if and only if it gets into the file. -/
theorem pour_passes (h : e.pour true outcomes = some (result, e', left)) :
    ∃ used, outcomes = used ++ left ∧ ∀ more,
      AllWritten e.raw.length (used ++ more) ↔ result = .ok () ∧ AllWritten 0 more := by
  induction outcomes generalizing e with
  | nil =>
    unfold GzEncoder.pour at h
    split at h
    · rename_i hraw
      cases h
      exact ⟨[], rfl, by simp [hraw]⟩
    · cases h
  | cons outcome outcomes ih =>
    unfold GzEncoder.pour at h
    split at h
    · rename_i hraw
      cases h
      exact ⟨[], rfl, by simp [hraw]⟩
    · rename_i hraw
      obtain ⟨n, hn⟩ := Nat.exists_eq_succ_of_ne_zero (mt List.length_eq_zero_iff.mp hraw)
      split at h
      · rename_i count
        obtain ⟨used, rfl, hused⟩ := ih h
        refine ⟨.wrote count :: used, rfl, fun more => ?_⟩
        have hlen : (e.advanceRaw count).raw.length = e.raw.length - count := List.length_drop ..
        rw [← hused, hlen, hn]
        rfl
      · rw [if_pos rfl] at h
        obtain ⟨used, rfl, hused⟩ := ih h
        refine ⟨.interrupted :: used, rfl, fun more => ?_⟩
        rw [← hused, hn]
        rfl
      · cases h
        refine ⟨[.failed _], rfl, fun more => ?_⟩
        rw [hn]
        exact iff_of_false id fun hok => by cases hok.1

/-- A `dump` moves the buffer to the file, as far as the outcomes let it. -/
theorem dump_spec {retry : Bool} (h : e.dump retry outcomes = some (result, e', left)) :
    e'.state = e.state ∧ e'.raw = e.raw ∧ e'.file ++ e'.buf = e.file ++ e.buf ∧
      (result = .ok () ↔ e'.buf = []) ∧ ∃ used, outcomes = used ++ left ∧
        (result = .ok () ↔ ∀ outcome ∈ used, outcome.Goes retry) := by
  induction outcomes generalizing e with
  | nil =>
    unfold GzEncoder.dump at h
    split at h
    · rename_i hbuf
      cases h
      exact ⟨rfl, rfl, rfl, by simp [hbuf], [], rfl, by simp⟩
    · cases h
  | cons outcome outcomes ih =>
    unfold GzEncoder.dump at h
    split at h
    · rename_i hbuf
      cases h
      exact ⟨rfl, rfl, rfl, by simp [hbuf], [], rfl, by simp⟩
    · rename_i hbuf
      split at h
      · cases h
        exact ⟨rfl, rfl, rfl, by simp [hbuf], [.wrote 0], rfl, by simp [WriteOutcome.Goes]⟩
      · rename_i count hcount
        obtain ⟨hstate, hraw, hfile, hok, used, rfl, hused⟩ := ih h
        refine ⟨hstate, hraw, hfile.trans (advance_file_buf e count), hok, .wrote count :: used,
          rfl, ?_⟩
        have hpos : 0 < count := Nat.pos_of_ne_zero hcount
        rw [hused, List.forall_mem_cons]
        simp [WriteOutcome.Goes, hpos]
      · split at h
        · rename_i hretry
          obtain ⟨hstate, hraw, hfile, hok, used, rfl, hused⟩ := ih h
          refine ⟨hstate, hraw, hfile, hok, .interrupted :: used, rfl, ?_⟩
          rw [hused, List.forall_mem_cons]
          simp [WriteOutcome.Goes, hretry]
        · rename_i hretry
          cases h
          exact ⟨rfl, rfl, rfl, by simp [hbuf], [.interrupted], rfl,
            by simp [WriteOutcome.Goes, hretry]⟩
      · cases h
        exact ⟨rfl, rfl, rfl, by simp [hbuf], [.failed _], rfl, by simp [WriteOutcome.Goes]⟩

theorem writeAll_spec {piece : List UInt8}
    (h : e.writeAll piece outcomes = some (result, e', left)) :
    (result = .ok () → e'.raw = [] ∧ ∀ pieces, e'.whole pieces = e.whole (piece :: pieces)) ∧
      ∃ used, outcomes = used ++ left ∧ ∀ more,
        AllWritten e.raw.length (used ++ more) ↔ result = .ok () ∧ AllWritten 0 more := by
  unfold GzEncoder.writeAll Written.andThen at h
  split at h
  · rename_i dumped rest hdumped
    cases h
    split at hdumped
    · rename_i poured rest' hpour
      obtain ⟨hstate, hbuf, hfile, hraw, -⟩ := pour_spec hpour
      obtain ⟨used, rfl, hpasses⟩ := pour_passes hpour
      obtain ⟨hstate', hraw', hfile', -, used', rfl, hgoes⟩ := dump_spec hdumped
      have hempty := hraw.mp rfl
      refine ⟨fun _ => ⟨hraw'.trans hempty, fun pieces => ?_⟩, used ++ used', by
        simp, fun more => ?_⟩
      · rw [hempty, List.append_nil] at hfile
        rw [hbuf, hfile] at hfile'
        rw [whole_feed, GzEncoder.whole, GzEncoder.whole, hraw', hempty, List.append_nil, hfile',
          hstate', hstate]
      · rw [List.append_assoc, hpasses, allWritten_zero, allWritten_zero, List.forall_mem_append]
        have hall := hgoes.mp rfl
        exact ⟨fun hmore => ⟨rfl, hmore.2.2⟩, fun hmore => ⟨rfl, hall, hmore.2⟩⟩
    · cases hdumped
    · cases hdumped
  · rename_i error dumped rest hdumped
    cases h
    split at hdumped
    · rename_i poured rest' hpour
      obtain ⟨used, rfl, hpasses⟩ := pour_passes hpour
      obtain ⟨-, -, -, -, used', rfl, hgoes⟩ := dump_spec hdumped
      refine ⟨fun hok => (by cases hok), used ++ used', by simp, fun more => ?_⟩
      rw [List.append_assoc, hpasses, allWritten_zero, List.forall_mem_append]
      refine iff_of_false (fun hall => ?_) fun hok => by cases hok.1
      cases hgoes.mpr hall.2.1
    · rename_i error' poured rest' hpour
      cases hdumped
      obtain ⟨used, rfl, hpasses⟩ := pour_passes hpour
      exact ⟨fun hok => (by cases hok), used, rfl, hpasses⟩
    · cases hdumped
  · cases h

theorem append_spec {items : List WalkItem}
    (h : append items e outcomes = some (result, e', left)) :
    (result = .ok () → ∀ pieces, e'.whole pieces = e.whole (piecesOf items ++ pieces)) ∧
      ∃ used, outcomes = used ++ left ∧ ∀ more,
        Checks e.raw.length items (used ++ more) ↔ result = .ok () ∧
          AllWritten e'.raw.length more := by
  induction items generalizing e outcomes with
  | nil =>
    cases h
    exact ⟨fun _ pieces => rfl, [], rfl, by simp [Checks]⟩
  | cons item items ih =>
    cases item with
    | error error =>
      cases h
      exact ⟨fun hok => (by cases hok), [], rfl, by simp [Checks]⟩
    | ok piece =>
      unfold append Written.andThen at h
      split at h
      · rename_i middle rest hwrite
        obtain ⟨hwhole, used, rfl, hpasses⟩ := writeAll_spec hwrite
        obtain ⟨hraw, hwhole⟩ := hwhole rfl
        obtain ⟨hrest, used', rfl, hchecks⟩ := ih h
        refine ⟨fun hok pieces => ?_, used ++ used', by simp, fun more => ?_⟩
        · rw [hrest hok, hwhole]
          rfl
        · rw [hraw, List.length_nil] at hchecks
          rw [← hchecks, Checks, Checks, List.append_assoc, hpasses, List.forall_mem_cons]
          constructor
          · rintro ⟨⟨-, hitems⟩, -, hall⟩
            exact ⟨hitems, hall⟩
          · rintro ⟨hitems, hall⟩
            exact ⟨⟨⟨piece, rfl⟩, hitems⟩, rfl, hall⟩
      · rename_i error middle rest hwrite
        obtain ⟨-, used, rfl, hpasses⟩ := writeAll_spec hwrite
        cases h
        refine ⟨fun hok => (by cases hok), used, rfl, fun more => ?_⟩
        rw [Checks, hpasses]
        exact iff_of_false (fun hall => (by cases hall.2.1)) fun hok => by cases hok.1
      · cases h

/-- What is dropped is complete if and only if none of its writes falls short. -/
theorem drop_spec (hraw : e.raw = []) (h : e.drop flushed trailed = some (e', left)) :
    ∃ used, trailed = used ++ left ∧ (e'.file = e.whole [] ↔
      (∀ outcome ∈ flushed, outcome.Goes false) ∧ ∀ outcome ∈ used, outcome.Carries false) := by
  have hpour : GzEncoder.pour false { e with buf := e.buf ++ gz.close e.state } flushed =
      some (.ok (), { e with buf := e.buf ++ gz.close e.state }, flushed) := by
    cases flushed <;> simp [GzEncoder.pour, hraw]
  rw [GzEncoder.drop, hpour, Written.andThen] at h
  split at h
  · rename_i dumped hdump
    obtain ⟨hstate, hraw', hfile, hempty, used, rfl, hgoes⟩ := dump_spec hdump
    obtain ⟨⟨result, e'', left'⟩, htrailer, hpair⟩ := Option.map_eq_some_iff.mp h
    cases hpair
    obtain ⟨-, -, hfile', hraw'', used', hsplit, hcarries⟩ := pour_spec htrailer
    refine ⟨used', hsplit, ?_⟩
    have hwhole : e.whole [] = e'.file ++ e'.raw := by
      rw [hempty.mp rfl, List.append_nil] at hfile
      rw [hfile', hfile, hstate, GzEncoder.whole, hraw, Compressor.body]
      simp
    rw [hwhole, List.self_eq_append_right, ← hraw'', hcarries, List.append_nil]
    exact (and_iff_right (hgoes.mp rfl)).symm
  · rename_i error dumped hdump
    obtain ⟨hstate, hraw', hfile, -, used, rfl, hgoes⟩ := dump_spec hdump
    obtain ⟨⟨result, e'', left'⟩, hagain, hpair⟩ := Option.map_eq_some_iff.mp h
    cases hpair
    obtain ⟨-, -, hfile', -, used', hsplit, -⟩ := dump_spec hagain
    refine ⟨used', hsplit, iff_of_false (fun heq => ?_) fun hall => ?_⟩
    · -- the second attempt writes no trailer
      have hwhole : e.whole [] = e'.file ++ (e'.buf ++ gz.trailer e.state) := by
        rw [← List.append_assoc, hfile', hfile, GzEncoder.whole, hraw, Compressor.body]
        simp
      rw [hwhole] at heq
      have hnone := congrArg List.length (List.self_eq_append_right.mp heq)
      rw [List.length_append, gz.trailer_length, List.length_nil] at hnone
      omega
    · rw [List.append_nil] at hall
      cases hgoes.mpr hall.1
  · cases h

end Accounts

/-- **Completeness of an archive.**  A call that reports success has written the whole
    stream, unless one of the writes that happen while the encoder is dropped falls
    short. -/
theorem pack_complete_iff {gz : Compressor} {items : List WalkItem}
    {checked flushed trailed : List WriteOutcome} {result : Except IoError Unit} {file : List UInt8}
    (h : packIntoTemp gz items checked flushed trailed = some (result, file)) :
    (result = .ok () → file = wholeStream gz items) ↔
      (Checks gz.header.length items checked →
        (∀ outcome ∈ flushed, outcome.Goes false) ∧ ∀ outcome ∈ trailed,
          outcome.Carries false) := by
  unfold packIntoTemp at h
  split at h
  · rename_i packed rest happend
    obtain ⟨hpacked, used, rfl, hchecks⟩ := append_spec happend
    split at h
    · rename_i result' finished hfinish
      obtain ⟨hfinished, used', hsplit, hpasses⟩ := writeAll_spec hfinish
      rw [List.append_nil] at hsplit
      subst hsplit
      split at h
      · rename_i e hdrop
        cases h
        have hresult : result = .ok () ↔ Checks gz.header.length items (used ++ rest) := by
          have hrest := hpasses []
          rw [List.append_nil] at hrest
          have hall := hchecks rest
          rw [hrest] at hall
          simpa [AllWritten, GzEncoder.new] using hall.symm
        rw [← hresult]
        refine forall_congr' fun hok => ?_
        obtain ⟨hraw, hwhole⟩ := hfinished hok
        obtain ⟨used'', hsplit, hdropped⟩ := drop_spec hraw hdrop
        rw [List.append_nil] at hsplit
        subst hsplit
        rw [← hdropped, hwhole, hpacked rfl]
        simp [wholeStream, GzEncoder.whole, GzEncoder.new]
      · cases h
    · cases h
  · rename_i error e happend
    obtain ⟨-, used, hsplit, hchecks⟩ := append_spec happend
    rw [List.append_nil] at hsplit
    subst hsplit
    have hfails : ¬ Checks gz.header.length items checked := by
      intro hall
      have hnone := hchecks []
      rw [List.append_nil] at hnone
      cases (hnone.mp hall).1
    split at h
    · cases h
      exact ⟨fun _ hall => absurd hall hfails, fun _ hok => by cases hok⟩
    · cases h
  · cases h

/-- A compressor that writes the header of a gzip stream and holds everything else back to
    the end, as for a small archive. -/
def holdingBack : Compressor where
  header := [0x1f, 0x8b, 8, 0, 0, 0, 0, 0, 0, 0xff]
  State := List UInt8
  start := []
  feed held piece := (held ++ piece, [])
  close held := held
  trailer _ := List.replicate 8 0
  trailer_length _ := rfl

/-- One short file, and writes that take what they are given. -/
theorem pack_complete_small : ∃ file,
    packIntoTemp holdingBack [.ok [104, 105]] [.wrote 10] [.wrote 512, .wrote 1024] [.wrote 8] =
      some (.ok (), file) ∧ file = wholeStream holdingBack [.ok [104, 105]] := by
  have hruns : (packIntoTemp holdingBack [.ok [104, 105]] [.wrote 10] [.wrote 512, .wrote 1024]
      [.wrote 8]).map (fun run => run.1.isOk) = some true := by
    decide +kernel
  obtain ⟨⟨result, file⟩, hrun, hok⟩ := Option.map_eq_some_iff.mp hruns
  cases result with
  | error error => cases hok
  | ok =>
    refine ⟨file, hrun, (pack_complete_iff hrun).mpr (fun _ => ?_) rfl⟩
    decide

/-- The header is written, and the disk is full when the encoder is dropped: the call
    succeeds, and the file holds the header alone. -/
theorem pack_truncated :
    packIntoTemp holdingBack [.ok [104, 105]] [.wrote 10]
        [.failed (.custom "No space left on device")]
        [.failed (.custom "No space left on device")] =
      some (.ok (), holdingBack.header) ∧
    holdingBack.header ≠ wholeStream holdingBack [.ok [104, 105]] := by
  refine ⟨rfl, fun h => ?_⟩
  have hlen := congrArg List.length h
  revert hlen
  decide +kernel

end Scriptorium
