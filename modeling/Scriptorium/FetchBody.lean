import Scriptorium.Fetch
import Scriptorium.ResolvePath

/-!
# Receiving a body

The loop of `fetch_to_file`: a chunk is counted, checked against the cap and
written, in that order.  `run_writeBody` says how the loop ends for every
chunking, `wp_writeBody` what the file holds in the meantime, and
`writeBody_eq_writeCounted` that its 64-bit counter never wraps.
-/

namespace Scriptorium

open Posix Effects

/-- A body as it comes in: the stream ends at the end of the list, or breaks off
    at the first error. -/
abbrev Body : Type := List (Except String (List UInt8))

/-- The chunks that arrive. -/
def arrived : Body → List (List UInt8)
  | .ok chunk :: rest => chunk :: arrived rest
  | _ => []

/-- No chunk is an error. -/
def Complete (body : Body) : Prop := ∀ piece ∈ body, piece.isOk = true

/-- The chunks that are written, once the counter stands at `total`. -/
def accepted (maxBodyBytes : Nat) : Nat → Body → List (List UInt8)
  | total, .ok chunk :: rest =>
    if (total + chunk.length) % 2 ^ 64 > maxBodyBytes then []
    else chunk :: accepted maxBodyBytes ((total + chunk.length) % 2 ^ 64) rest
  | _, _ => []

/-- No chunk is an error, and the counter never stands above the cap. -/
def Passes (maxBodyBytes : Nat) : Nat → Body → Prop
  | _, [] => True
  | _, .error _ :: _ => False
  | total, .ok chunk :: rest =>
    (total + chunk.length) % 2 ^ 64 ≤ maxBodyBytes ∧
      Passes maxBodyBytes ((total + chunk.length) % 2 ^ 64) rest

/-- The whole body arrives and keeps to the cap. -/
def Fits (maxBodyBytes total : Nat) (body : Body) : Prop :=
  Complete body ∧ total + (arrived body).flatten.length ≤ maxBodyBytes

/-- The bytes of the regular file at a position. -/
def fileData (t : FileTree) (p : Pos) : Option (List UInt8) :=
  match t.get? p with
  | some ⟨.file data _, _⟩ => some data
  | _ => none

/-- Each chunk of a body is shorter than 2^63 bytes. -/
def Sized (body : Body) : Prop := ∀ chunk, .ok chunk ∈ body → chunk.length < 2 ^ 63

/-- The file holds whole chunks from the start of the stream, within the cap. -/
def HoldsPrefix (maxBodyBytes : Nat) (chunks : List (List UInt8)) (handle : Pos) (t : FileTree) :
    Prop :=
  ∃ k, fileData t handle = some (chunks.take k).flatten ∧
    (chunks.take k).flatten.length ≤ maxBodyBytes

/-- The receive loop with a counter that has no upper end. -/
def writeCounted (maxBodyBytes : Nat) (handle : Pos) : Body → Nat → Fs Error Nat
  | [], total => pure total
  | .error e :: _, _ => Prog.throw (.other ("fetch body: " ++ e))
  | .ok chunk :: rest, total =>
    let total := total + chunk.length
    if total > maxBodyBytes then
      Prog.throw (.other ("fetch body exceeded max_body_bytes (" ++ toString total ++ " > " ++
        toString maxBodyBytes ++ ")"))
    else do
      io (sys (.write handle chunk))
      writeCounted maxBodyBytes handle rest total

/-! ### The shape of a body -/

section

variable {maxBodyBytes total : Nat} {chunk : List UInt8} {rest : Body}

theorem complete_cons {piece : Except String (List UInt8)} :
    Complete (piece :: rest) ↔ piece.isOk = true ∧ Complete rest := List.forall_mem_cons

theorem fits_ok :
    Fits maxBodyBytes total (.ok chunk :: rest) ↔
      Fits maxBodyBytes (total + chunk.length) rest := by
  have hok : (Except.ok chunk : Except String (List UInt8)).isOk = true := rfl
  simp only [Fits, complete_cons, hok, true_and, arrived, List.flatten_cons, List.length_append,
    Nat.add_assoc]

theorem not_fits_error {e : String} : ¬ Fits maxBodyBytes total (.error e :: rest) := by
  intro h
  cases (complete_cons.mp h.1).1

/-- A body that passes is written as a whole. -/
theorem accepted_of_passes {body : Body} (h : Passes maxBodyBytes total body) :
    accepted maxBodyBytes total body = arrived body := by
  induction body generalizing total with
  | nil => rfl
  | cons piece rest ih =>
    cases piece with
    | error e => exact h.elim
    | ok chunk => rw [accepted, if_neg (Nat.not_lt.mpr h.1), ih h.2, arrived]

/-- Under a cap below 2^63 the counter is the number of bytes that have come in. -/
theorem passes_iff_fits (hmax : maxBodyBytes < 2 ^ 63) {body : Body} (hsizes : Sized body)
    (htotal : total ≤ maxBodyBytes) : Passes maxBodyBytes total body ↔
      Fits maxBodyBytes total body := by
  induction body generalizing total with
  | nil => exact ⟨fun _ => ⟨by simp [Complete], by simpa [arrived] using htotal⟩, fun _ => trivial⟩
  | cons piece rest ih =>
    cases piece with
    | error e => exact ⟨False.elim, fun h => not_fits_error h⟩
    | ok chunk =>
      have hlen : chunk.length < 2 ^ 63 := hsizes chunk List.mem_cons_self
      have hwrap : (total + chunk.length) % 2 ^ 64 = total + chunk.length :=
        Nat.mod_eq_of_lt (by omega)
      have hrest : Sized rest := fun c hc => hsizes c (List.mem_cons_of_mem _ hc)
      rw [fits_ok, Passes, hwrap]
      constructor
      · rintro ⟨hle, h⟩
        exact (ih hrest hle).mp h
      · intro h
        have hle : total + chunk.length ≤ maxBodyBytes := (Nat.le_add_right _ _).trans h.2
        exact ⟨hle, (ih hrest hle).mpr h⟩

end

/-! ### The file that is written -/

section

variable (cred : Cred) {now : Nat} {t : FileTree} {handle : Pos} {attrs : Attrs}

theorem fileData_of_node {data : List UInt8} {holes : Bool}
    (h : t.get? handle = some ⟨.file data holes, attrs⟩) : fileData t handle = some data := by
  simp [fileData, h]

/-- `File::create` leaves an empty file, modified now. -/
theorem node_of_create {target : PathBuf} {t' : FileTree}
    (h : FileTree.exec cred now (.create target) t = (.ok handle, t')) :
    ∃ attrs, t'.get? handle = some ⟨.file [] false, attrs⟩ ∧ attrs.mtime = now := by
  rcases FileTree.create_cases cred now t target with
    ⟨e, he⟩ | ⟨dir, name, hdir, hfree, hname, -, hadd⟩ | ⟨p, data, holes, attrs, -, hnode, hset⟩
  · rw [FileTree.exec, he] at h
    cases h
  · rw [FileTree.exec, hadd] at h
    cases h
    exact ⟨FileTree.newAttrs cred now 0o666, by simp, rfl⟩
  · rw [FileTree.exec, hset] at h
    cases h
    exact ⟨{ attrs with mtime := now }, by simp [hnode, Node.withData], rfl⟩

/-- A write appends to its file, and leaves everything else alone. -/
theorem get?_write {old chunk : List UInt8} {q : Pos}
    (h : t.get? handle = some ⟨.file old false, attrs⟩) (hmtime : attrs.mtime = now) :
    (FileTree.exec cred now (.write handle chunk) t).2.get? q =
      if q = handle then some ⟨.file (old ++ chunk) false, attrs⟩ else t.get? q := by
  subst hmtime
  simp only [FileTree.exec, FileTree.write, h, FileTree.get?_setData]
  by_cases hq : q = handle
  · rw [if_pos hq, if_pos hq, hq, h]
    rfl
  · rw [if_neg hq, if_neg hq]

theorem get?_nothing_written {old : List UInt8} (h : t.get? handle = some ⟨.file old false, attrs⟩)
    (q : Pos) : t.get? q = if q = handle then
      some ⟨.file (old ++ ([] : List (List UInt8)).flatten) false, attrs⟩ else t.get? q := by
  by_cases hq : q = handle
  · simp [hq, h]
  · rw [if_neg hq]

/-- The receive loop from any point on, for every chunking: it ends, with success
    exactly when the rest of the body passes, and the accepted chunks are appended. -/
theorem run_writeBody {maxBodyBytes total : Nat} {body : Body} {old : List UInt8}
    (hmtime : attrs.mtime = now) (h : t.get? handle = some ⟨.file old false, attrs⟩) :
    ∃ result t', (writeBody maxBodyBytes handle body total).run (FileTree.exec cred now) t =
        (some result, t') ∧
      (result.isOk = true ↔ Passes maxBodyBytes total body) ∧
      ∀ q, t'.get? q = if q = handle then
        some ⟨.file (old ++ (accepted maxBodyBytes total body).flatten) false, attrs⟩
        else t.get? q := by
  induction body generalizing total old t with
  | nil => exact ⟨.ok total, t, rfl, ⟨fun _ => trivial, fun _ => rfl⟩, get?_nothing_written h⟩
  | cons piece rest ih =>
    cases piece with
    | error e =>
      exact ⟨.error (.other ("fetch body: " ++ e)), t, rfl, ⟨nofun, False.elim⟩,
        get?_nothing_written h⟩
    | ok chunk =>
      rw [writeBody_ok]
      by_cases hover : (total + chunk.length) % 2 ^ 64 > maxBodyBytes
      · -- counted, but not written
        rw [if_pos hover, accepted, if_pos hover]
        exact ⟨_, t, rfl, ⟨nofun, fun hpass => absurd hpass.1 (Nat.not_le.mpr hover)⟩,
          get?_nothing_written h⟩
      · rw [if_neg hover, accepted, if_neg hover]
        have hstep : ∀ q, (FileTree.exec cred now (.write handle chunk) t).2.get? q =
            if q = handle then some ⟨.file (old ++ chunk) false, attrs⟩ else t.get? q :=
          fun q => get?_write cred h hmtime
        have hnode : (FileTree.exec cred now (.write handle chunk) t).2.get? handle =
            some ⟨.file (old ++ chunk) false, attrs⟩ := by rw [hstep, if_pos rfl]
        obtain ⟨result, t', hrun, hok, hget⟩ := ih hnode
        refine ⟨result, t', ?_, ?_, fun q => ?_⟩
        · rw [← hrun]
          rfl
        · rw [hok]
          exact ⟨fun hpass => ⟨Nat.le_of_not_lt hover, hpass⟩, fun hpass => hpass.2⟩
        · rw [hget, hstep]
          by_cases hq : q = handle
          · simp [hq]
          · simp [hq]

/-- The result of the loop is the length of what has come in. -/
theorem count_of_run_writeBody {maxBodyBytes total count : Nat} (hmax : maxBodyBytes < 2 ^ 63)
    {body : Body} (hsizes : Sized body) (htotal : total ≤ maxBodyBytes)
    (h : ((writeBody maxBodyBytes handle body total).run (FileTree.exec cred now) t).1 =
      some (.ok count)) : count = total + (arrived body).flatten.length := by
  induction body generalizing total t with
  | nil =>
    obtain rfl := Except.ok.inj (Option.some.inj h)
    simp [arrived]
  | cons piece rest ih =>
    cases piece with
    | error e => cases h
    | ok chunk =>
      have hlen : chunk.length < 2 ^ 63 := hsizes chunk List.mem_cons_self
      have hwrap : (total + chunk.length) % 2 ^ 64 = total + chunk.length :=
        Nat.mod_eq_of_lt (by omega)
      rw [writeBody_ok, hwrap] at h
      split at h
      · cases h
      · rename_i hover
        have hrest := ih (fun c hc => hsizes c (List.mem_cons_of_mem _ hc)) (Nat.le_of_not_lt hover)
          h
        rw [hrest, arrived, List.flatten_cons, List.length_append, Nat.add_assoc]

/-- At every point of the loop the file holds whole chunks from the start of the
    stream, and no more bytes than the cap allows. -/
theorem wp_writeBody {maxBodyBytes : Nat} (hmax : maxBodyBytes < 2 ^ 63) {body : Body}
    (hsizes : Sized body) {written all : List (List UInt8)} (hall : all = written ++ arrived body)
    (hcap : written.flatten.length ≤ maxBodyBytes) (hmtime : attrs.mtime = now)
    (h : t.get? handle = some ⟨.file written.flatten false, attrs⟩) :
    Prog.wp (FileTree.exec cred now) (HoldsPrefix maxBodyBytes all handle)
      (writeBody maxBodyBytes handle body written.flatten.length) (fun _ _ => True) t := by
  induction body generalizing written t with
  | nil => trivial
  | cons piece rest ih =>
    cases piece with
    | error e => trivial
    | ok chunk =>
      have hlen : chunk.length < 2 ^ 63 := hsizes chunk List.mem_cons_self
      have hwrap : (written.flatten.length + chunk.length) % 2 ^ 64 =
          (written ++ [chunk]).flatten.length := by
        rw [Nat.mod_eq_of_lt (by omega)]
        simp
      rw [writeBody_ok, hwrap]
      split
      · trivial
      · rename_i hover
        have hnext : (written ++ [chunk]).flatten.length ≤ maxBodyBytes := Nat.le_of_not_lt hover
        have hnode : (FileTree.exec cred now (.write handle chunk) t).2.get? handle =
            some ⟨.file (written ++ [chunk]).flatten false, attrs⟩ := by
          rw [get?_write cred h hmtime, if_pos rfl]
          simp
        have hall' : all = written ++ [chunk] ++ arrived rest := by
          rw [hall, arrived, List.append_assoc, List.singleton_append]
        have htake : all.take (written ++ [chunk]).length = written ++ [chunk] := by
          rw [hall', List.take_left]
        constructor
        · exact ⟨(written ++ [chunk]).length, by rw [htake]; exact fileData_of_node hnode,
            by rw [htake]; exact hnext⟩
        · exact ih (fun c hc => hsizes c (List.mem_cons_of_mem _ hc)) hall' hnext hnode

end

/-- The counter of the loop does not wrap. -/
theorem writeBody_eq_writeCounted {maxBodyBytes : Nat} (hmax : maxBodyBytes < 2 ^ 63)
    (handle : Pos) {body : Body} (hsizes : Sized body) {total : Nat}
    (htotal : total ≤ maxBodyBytes) :
    writeBody maxBodyBytes handle body total = writeCounted maxBodyBytes handle body total := by
  induction body generalizing total with
  | nil => rfl
  | cons piece rest ih =>
    cases piece with
    | error e => rfl
    | ok chunk =>
      have hlen : chunk.length < 2 ^ 63 := hsizes chunk List.mem_cons_self
      have hwrap : (total + chunk.length) % 2 ^ 64 = total + chunk.length :=
        Nat.mod_eq_of_lt (by omega)
      rw [writeBody_ok, hwrap, writeCounted]
      by_cases hover : total + chunk.length > maxBodyBytes
      · rw [if_pos hover, if_pos hover]
      · rw [if_neg hover, if_neg hover,
          ih (fun c hc => hsizes c (List.mem_cons_of_mem _ hc)) (Nat.le_of_not_lt hover)]

/-- What the receive loop does with a file it has opened: at every point the file holds
    whole chunks within the cap; the loop succeeds exactly when the whole body arrives
    and keeps to the cap, and then the file is the body and the result its length; and
    the counter has not wrapped. -/
structure ReceivesExactly (cred : Cred) (now : Nat) (t : FileTree) (handle : Pos)
    (maxBodyBytes : Nat) (body : Body) : Prop where
  always : ∀ n, HoldsPrefix maxBodyBytes (arrived body) handle
    (Prog.stopAfter (FileTree.exec cred now) n (writeBody maxBodyBytes handle body 0) t)
  ends : ∃ result t', (writeBody maxBodyBytes handle body 0).run (FileTree.exec cred now) t =
      (some result, t') ∧
    (result.isOk = true ↔ Complete body ∧ (arrived body).flatten.length ≤ maxBodyBytes) ∧
    ∀ count, result = .ok count →
      fileData t' handle = some (arrived body).flatten ∧ count = (arrived body).flatten.length
  counted : writeBody maxBodyBytes handle body 0 = writeCounted maxBodyBytes handle body 0

/-- **The body cap is exact.** -/
theorem receive_exact {cred : Cred} {now : Nat} {t₀ t : FileTree} {target : PathBuf} {handle : Pos}
    (hcreate : FileTree.exec cred now (.create target) t₀ = (.ok handle, t)) {maxBodyBytes : Nat}
    (hmax : maxBodyBytes < 2 ^ 63) {body : Body} (hsizes : Sized body) :
    ReceivesExactly cred now t handle maxBodyBytes body := by
  obtain ⟨attrs, hnode, hmtime⟩ := node_of_create cred hcreate
  have hfits : Passes maxBodyBytes 0 body ↔
      Complete body ∧ (arrived body).flatten.length ≤ maxBodyBytes := by
    rw [passes_iff_fits hmax hsizes (Nat.zero_le _), Fits, Nat.zero_add]
  constructor
  · intro n
    have hwp : Prog.wp (FileTree.exec cred now) (HoldsPrefix maxBodyBytes (arrived body) handle)
        (writeBody maxBodyBytes handle body ([] : List (List UInt8)).flatten.length)
        (fun _ _ => True) t :=
      wp_writeBody cred hmax hsizes (List.nil_append _).symm (Nat.zero_le _) hmtime hnode
    exact Prog.wp_stopAfter hwp ⟨0, fileData_of_node hnode, Nat.zero_le _⟩ n
  · obtain ⟨result, t', hrun, hok, hget⟩ := run_writeBody cred hmtime hnode
    refine ⟨result, t', hrun, hok.trans hfits, fun count hcount => ?_⟩
    subst hcount
    have hlength := count_of_run_writeBody cred hmax hsizes (Nat.zero_le _) (congrArg Prod.fst hrun)
    refine ⟨?_, by rw [hlength, Nat.zero_add]⟩
    have hfile := hget handle
    rw [if_pos rfl, List.nil_append, accepted_of_passes (hok.mp rfl)] at hfile
    exact fileData_of_node hfile
  · exact writeBody_eq_writeCounted hmax handle hsizes (Nat.zero_le _)

/-- Three chunks, one of them empty, received under a cap that they reach exactly. -/
theorem receive_of_sampleHost : ∃ t,
    FileTree.exec ⟨0, 0, true, 0o022⟩ 7 (.create (canonical ["srv", "w1", "home", "c"]))
      sampleHost =
      (.ok ["srv", "w1", "home", "c"], t) ∧
    ReceivesExactly ⟨0, 0, true, 0o022⟩ 7 t ["srv", "w1", "home", "c"] 3
      [.ok [1, 2], .ok [], .ok [3]] := by
  obtain ⟨t, hcreate⟩ : ∃ t, FileTree.exec ⟨0, 0, true, 0o022⟩ 7
      (.create (canonical ["srv", "w1", "home", "c"])) sampleHost =
        (.ok ["srv", "w1", "home", "c"], t) := ⟨_, Prod.ext (by decide) rfl⟩
  refine ⟨t, hcreate, receive_exact hcreate (by decide) ?_⟩
  intro chunk hchunk
  have hshort : chunk.length ≤ 2 := by
    simp only [List.mem_cons, Except.ok.injEq, List.not_mem_nil, or_false] at hchunk
    rcases hchunk with rfl | rfl | rfl <;> decide
  omega

end Scriptorium
