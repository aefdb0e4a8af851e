import Scriptorium.Confinement
import Scriptorium.Ending

/-!
# The run of an import

An import receives an object into a staging file beside its target, and then installs
it.  `receiveObject` is the first part; what it leaves is said here once, for the results
about rejected, finished and abandoned imports.
-/

namespace Scriptorium

open Posix Effects

/-! ### The stream -/

/-- The bytes that a stream of nothing but chunks carries. -/
def payload : ImportStream → Option (List UInt8)
  | [] => some []
  | .ok (.chunk data) :: rest => (payload rest).map (data ++ ·)
  | _ :: _ => none

theorem payload_chunks (chunks : List (List UInt8)) :
    payload (chunks.map fun data => .ok (.chunk data)) = some chunks.flatten := by
  induction chunks with
  | nil => rfl
  | cons data chunks ih => rw [List.map_cons, payload, ih, List.flatten_cons, Option.map_some]

/-- What `bytes_written` can say. -/
def maxBytesWritten : Nat := 18446744073709551615

section Receive

variable {cred : Cred} {now : Nat} {s : FileTree} {handle : Pos}

theorem get?_write_of_ne (s : FileTree) {q : Pos} (data : List UInt8) (hq : q ≠ handle) :
    (s.write now handle data).get? q = s.get? q := by
  rcases FileTree.write_cases now s handle data with hsame | ⟨old, holes, attrs, -, hset⟩
  · rw [hsame]
  · rw [hset, FileTree.get?_setData, if_neg hq]

variable (cred now) in
/-- A stream of chunks is appended to the open file, and nothing else changes. -/
theorem run_receiveChunks {data : List UInt8} {attrs : Attrs} (htime : attrs.mtime = now)
    (hfile : s.get? handle = some ⟨.file data false, attrs⟩) {rest : ImportStream}
    {bytes : List UInt8} (hrest : payload rest = some bytes) {total : Nat}
    (htotal : total ≤ maxBytesWritten) :
    ∃ s', (receiveChunks handle rest total).run (FileTree.exec cred now) s =
        (some (.ok (min (total + bytes.length) maxBytesWritten)), s') ∧
      s'.get? handle = some ⟨.file (data ++ bytes) false, attrs⟩ ∧
      ∀ q, q ≠ handle → s'.get? q = s.get? q := by
  induction rest generalizing s data total bytes with
  | nil =>
    obtain rfl := Option.some.inj hrest
    refine ⟨s, ?_, ?_, fun _ _ => rfl⟩
    · rw [List.length_nil, Nat.add_zero, Nat.min_eq_left htotal]
      rfl
    · rw [List.append_nil]
      exact hfile
  | cons message rest ih =>
    match message with
    | .error status => cases hrest
    | .ok (.header _) => cases hrest
    | .ok .empty => cases hrest
    | .ok (.chunk chunk) =>
      obtain ⟨bytes', hbytes, rfl⟩ := Option.map_eq_some_iff.mp hrest
      have hwritten : (s.write now handle chunk).get? handle =
          some ⟨.file (data ++ chunk) false, attrs⟩ := by
        simp [FileTree.write, hfile, Node.withData, ← htime]
      obtain ⟨s', hrun, hfile', hframe⟩ :=
        ih hwritten hbytes (Nat.min_le_right (total + chunk.length) maxBytesWritten)
      refine ⟨s', ?_, ?_, ?_⟩
      · have hcount : min (min (total + chunk.length) maxBytesWritten + bytes'.length)
            maxBytesWritten = min (total + (chunk ++ bytes').length) maxBytesWritten := by
          rw [List.length_append]
          omega
        rw [← hcount]
        exact hrun
      · rw [hfile', List.append_assoc]
      · intro q hq
        rw [hframe q hq, get?_write_of_ne s chunk hq]

variable (cred now) in
/-- Any other stream is refused. -/
theorem run_receiveChunks_none {rest : ImportStream} (hrest : payload rest = none) (total : Nat) :
    ∃ status s', (receiveChunks handle rest total).run (FileTree.exec cred now) s =
        (some (.error status), s') ∧ ∀ q, q ≠ handle → s'.get? q = s.get? q := by
  induction rest generalizing s total with
  | nil => cases hrest
  | cons message rest ih =>
    match message with
    | .error status => exact ⟨status, s, rfl, fun _ _ => rfl⟩
    | .ok (.header _) => exact ⟨_, s, rfl, fun _ _ => rfl⟩
    | .ok .empty => exact ⟨_, s, rfl, fun _ _ => rfl⟩
    | .ok (.chunk chunk) =>
      obtain ⟨status, s', hrun, hsame⟩ :=
        @ih (s.write now handle chunk) (Option.map_eq_none_iff.mp hrest)
          (min (total + chunk.length) (2 ^ 64 - 1))
      refine ⟨status, s', hrun, ?_⟩
      intro q hq
      rw [hsame q hq, get?_write_of_ne s chunk hq]

end Receive

/-! ### The parts of an import -/

section Parts

variable (cfg : ServiceConfig) (clock : ImportClock)

/-- The import up to the directory that its target is an entry of. -/
def prepareTarget (header : ImportHeader) : Fs Status PathBuf := do
  let _ ← rpc (ensureHome cfg.root header.workspaceId cfg.agentUid cfg.agentGid)
  let target ← rpc (Prog.ofExcept (resolvePath cfg.root header.workspaceId header.targetPath))
  ioRpc (createDirAll (parentOrDot target))
  pure target

/-- The import up to the end of its stream: the target, and the bytes counted. -/
def receiveObject (header : ImportHeader) (rest : ImportStream) : Fs Status (PathBuf × Nat) := do
  let target ← prepareTarget cfg header
  let handle ← ioRpc (sys (.create (buildWorkspaceTransferTempPath target "import" clock.staging)))
  let bytesWritten ← receiveChunks handle rest 0
  pure (target, bytesWritten)

/-- The import after the end of its stream. -/
def finishImport (header : ImportHeader) (received : PathBuf × Nat) : Fs Status ImportResponse := do
  let staging := buildWorkspaceTransferTempPath received.1 "import" clock.staging
  let response ← installObject cfg clock header staging received.1 received.2
  ignore (sys (.unlink staging))
  pure response

theorem importObject_eq (header : ImportHeader) (rest : ImportStream) :
    importObject cfg clock header rest =
      receiveObject cfg clock header rest >>= finishImport cfg clock header := by
  simp only [importObject, receiveObject, prepareTarget, Prog.bind_assoc]
  rfl

end Parts

/-! ### Beside the target -/

/-- Where an import into the directory `dir` receives its object. -/
def stagingPos (clock : ImportClock) (dir : Pos) : Pos :=
  dir ++ [transferName "import" clock.staging]

/-- Where it extracts an archive. -/
def extractionPos (clock : ImportClock) (dir : Pos) : Pos :=
  dir ++ [transferName "expand" clock.expand]

theorem not_entry_above (dir : Pos) (name : String) : ¬ dir ++ [name] <+: dir :=
  fun h => absurd h.length_le (by simp)

theorem transferName_ne (a b : Nat) : transferName "import" a ≠ transferName "expand" b := by
  simp [transferName, String.ext_iff]

/-- The staging file and what is extracted are two entries. -/
theorem extraction_apart (clock : ImportClock) (dir : Pos) :
    ¬ extractionPos clock dir <+: stagingPos clock dir ∧
      ¬ stagingPos clock dir <+: extractionPos clock dir := by
  constructor
  · exact Site.siblings_apart (transferName_ne _ _).symm
  · exact Site.siblings_apart (transferName_ne _ _)

section Paths

variable (dir : Pos) (name : String)

theorem parentOrDot_canonical : parentOrDot (canonical (dir ++ [name])) = canonical dir := by
  rw [parentOrDot, PathBuf.parent_canonical_concat, Option.getD_some]

theorem stagingPath_canonical (clock : ImportClock) :
    buildWorkspaceTransferTempPath (canonical (dir ++ [name])) "import" clock.staging =
      canonical (stagingPos clock dir) := by
  rw [buildWorkspaceTransferTempPath, parentOrDot_canonical, stagingPos, canonical_concat]

theorem extractionPath_canonical (clock : ImportClock) :
    buildWorkspaceTransferTempPath (canonical (dir ++ [name])) "expand" clock.expand =
      canonical (extractionPos clock dir) := by
  rw [buildWorkspaceTransferTempPath, parentOrDot_canonical, extractionPos, canonical_concat]

end Paths

/-- What an import works in before it installs its object. -/
def beside (clock : ImportClock) (dir : Pos) : Region :=
  .of [stagingPos clock dir, extractionPos clock dir]

section Beside

variable {clock : ImportClock} {dir : Pos}

theorem staging_own : (beside clock dir).own (stagingPos clock dir) = true :=
  Region.own_of.mpr ⟨_, List.mem_cons_self, List.prefix_rfl⟩

theorem extraction_own : (beside clock dir).own (extractionPos clock dir) = true :=
  Region.own_of.mpr ⟨_, List.mem_cons_of_mem _ List.mem_cons_self, List.prefix_rfl⟩

theorem seen_above {p : Pos} (h : p <+: dir) : (beside clock dir).Seen p :=
  Region.seen_of.mpr ⟨_, List.mem_cons_self, Or.inl (h.trans (List.prefix_append _ _))⟩

theorem seen_beside {p : Pos} : (beside clock dir).Seen p ↔
    p <+: dir ∨ stagingPos clock dir <+: p ∨ extractionPos clock dir <+: p := by
  constructor
  · intro h
    obtain ⟨root, hroot, hp⟩ := Region.seen_of.mp h
    rcases List.mem_pair.mp hroot with rfl | rfl
    · rcases hp with hp | hp
      · rcases List.prefix_concat_iff.mp hp with rfl | hp
        · exact Or.inr (Or.inl List.prefix_rfl)
        · exact Or.inl hp
      · exact Or.inr (Or.inl hp)
    · rcases hp with hp | hp
      · rcases List.prefix_concat_iff.mp hp with rfl | hp
        · exact Or.inr (Or.inr List.prefix_rfl)
        · exact Or.inl hp
      · exact Or.inr (Or.inr hp)
  · rintro (h | h | h)
    · exact seen_above h
    · exact Region.seen_of_own (Region.below _ _ _ staging_own h)
    · exact Region.seen_of_own (Region.below _ _ _ extraction_own h)

end Beside

section Prepare

variable (cfg : ServiceConfig) {header : ImportHeader} {dir : Pos} {name : String} {R : Region}
  (hroot : RootPath cfg.root) (hhome : R.Seen (homePos cfg.root header.workspaceId))

include hroot hhome

theorem minds_ensureHome (hid : ValidId header.workspaceId) :
    (ensureHome cfg.root header.workspaceId cfg.agentUid cfg.agentGid).Within R.Minds R.Returns
      fun _ => True := by
  have hpath := homePath_eq hroot hid
  apply within_ensureHome
  · intro _
    rw [hpath]
    exact (stays_createDirAll ⟨_, hhome, rfl⟩).weaken fun _ => Or.inl
  · intro _
    rw [hpath]
    exact Or.inr (Or.inr ⟨_, _, _, hhome, rfl⟩)
  · intro _
    rw [hpath]
    exact Or.inr (Or.inl ⟨_, _, hhome, rfl⟩)

/-- An import first gives the home to the agent, and makes what is missing above the
    target. -/
theorem minds_prepareTarget
    (hresolve : resolvePath cfg.root header.workspaceId header.targetPath =
      .ok (canonical (dir ++ [name])))
    (hdir : R.Seen dir) :
    (prepareTarget cfg header).Within R.Minds R.Returns fun path => path = canonical
    (dir ++ [name]) := by
  obtain ⟨hid, -⟩ := resolvePath_eq_ok hroot hresolve
  apply Prog.within_bind (Prog.within_mapError (minds_ensureHome cfg hroot hhome hid))
  intro _ _
  rw [hresolve]
  apply Prog.within_bind (W := fun target => target = canonical (dir ++ [name]))
  · intro target htarget
    exact (Except.ok.inj htarget).symm
  · rintro target rfl
    rw [parentOrDot_canonical]
    apply Prog.within_bind (Prog.within_mapError
      ((stays_createDirAll ⟨dir, hdir, rfl⟩).weaken fun _ => Or.inl))
    intro _ _
    exact Prog.within_pure rfl

end Prepare

/-! ### Runs among directories and regular files -/

section Runs

variable {cred : Cred} {now : Nat} {t : FileTree} {ε α : Type} {W : α → Prop}

variable (cred now) in
/-- Where nothing but directories and regular files is in sight, that stays so, and what
    cannot be seen stays as it is. -/
theorem keeps_minds {R : Region} {m : Fs ε α} (hm : m.Within R.Minds R.Returns W)
    (ht : FileTree.Ordinary R t) : FileTree.Ordinary R (m.run (FileTree.exec cred now) t).2 ∧
      ∀ q, ¬ R.Seen q → (m.run (FileTree.exec cred now) t).2.get? q = t.get? q := by
  apply hm.keeps (I := fun s => FileTree.Ordinary R s ∧ ∀ q, ¬ R.Seen q → s.get? q = t.get? q)
  · rintro c s hc ⟨hs, hsame⟩
    refine ⟨⟨FileTree.ordinary_exec hc hs, ?_⟩, FileTree.returns_of_minds hc hs.clear⟩
    intro q hq
    rw [FileTree.get?_exec_unseen hc hs.clear hq, hsame q hq]
  · exact ⟨ht, fun _ _ => rfl⟩

variable (cred now) in
/-- Moreover such a program has a result. -/
theorem run_minds {R : Region} {m : Fs ε α} (hm : m.Within R.Minds R.Returns W) (hprompt : Prompt m)
    (ht : FileTree.Ordinary R t) : ∃ result s, m.run (FileTree.exec cred now) t = (some result, s) ∧
      (∀ a, result = .ok a → W a) ∧ FileTree.Ordinary R s ∧
      ∀ q, ¬ R.Seen q → s.get? q = t.get? q := by
  have hstep : ∀ c s, R.Minds c → FileTree.Ordinary R s →
      FileTree.Ordinary R (FileTree.exec cred now c s).2 ∧
        R.Returns c (FileTree.exec cred now c s).1 :=
    fun c s hc hs => ⟨FileTree.ordinary_exec hc hs, FileTree.returns_of_minds hc hs.clear⟩
  obtain ⟨result, hresult⟩ := Option.isSome_iff_exists.mp (hprompt.isSome hm (fun c s hc hs =>
    ⟨(hstep c s hc hs).1, (hstep c s hc hs).2, FileTree.ne_wouldblock_of_minds hc hs⟩) ht)
  obtain ⟨hordinary, hsame⟩ := keeps_minds cred now hm ht
  refine ⟨result, _, Prod.ext hresult rfl, ?_, hordinary, hsame⟩
  rintro a rfl
  exact hm.returns hstep ht hresult

variable (cred now) in
theorem keeps_clear {R : Region} {m : Fs ε α} (hm : m.Within R.Minds R.Returns W)
    (ht : FileTree.Clear R t) : FileTree.Clear R (m.run (FileTree.exec cred now) t).2 ∧
      ∀ q, ¬ R.Seen q → (m.run (FileTree.exec cred now) t).2.get? q = t.get? q := by
  apply hm.keeps (I := fun s => FileTree.Clear R s ∧ ∀ q, ¬ R.Seen q → s.get? q = t.get? q)
  · rintro c s hc ⟨hs, hsame⟩
    refine ⟨⟨FileTree.clear_of_minds hc hs, ?_⟩, FileTree.returns_of_minds hc hs⟩
    intro q hq
    rw [FileTree.get?_exec_unseen hc hs hq, hsame q hq]
  · exact ⟨ht, fun _ _ => rfl⟩

/-- Where no link is in the way, a path leads to what stands at its position. -/
theorem isDir_of_clear {R : Region} {p : Pos} (ht : FileTree.Clear R t) (hp : R.Seen p)
    (h : dirAt cred t (canonical p) = true) : t.isDir p = true := by
  unfold dirAt at h
  split at h
  · rename_i q node hfind
    obtain rfl := ht.find_eq hp hfind
    exact FileTree.isDir_iff.mpr ⟨node, (FileTree.find_eq_ok hfind).2, h⟩
  · cases h

/-- A directory that has been made, or was found, is one. -/
theorem isDir_of_createDirAll {R : Region} {p : Pos} (hp : R.Seen p) (ht : FileTree.Clear R t)
    {s : FileTree}
    (h : (createDirAll (canonical p)).run (FileTree.exec cred now) t = (some (.ok ()), s)) :
    s.isDir p = true := by
  -- the directory is made by the last call, or is found afterwards
  have hmkdir : ∀ {u v : FileTree}, FileTree.Clear R u →
      (sys (.mkdir (canonical p))).run (FileTree.exec cred now) u = (some (.ok ()), v) →
        v.isDir p = true := by
    intro u v hu hrun
    have hcall := eq_of_run_sys_ok (congrArg Prod.fst hrun)
    have hstate : v = (FileTree.exec cred now (.mkdir (canonical p)) u).2 := by
      rw [← run_sys_state, hrun]
    simp only [FileTree.exec] at hcall hstate
    rcases FileTree.mkdir_cases cred now u (canonical p) with
      ⟨e, he⟩ | ⟨dir, name, hdir, hfree, hname, hslot, hadd⟩
    · rw [he] at hcall
      cases hcall
    · rw [hstate, hadd]
      have hplace := hu.slot_eq hp hslot
      apply FileTree.isDir_iff.mpr
      exact ⟨_, by rw [FileTree.get?_add, if_pos hplace.symm], rfl⟩
  have hask : ∀ {u v : FileTree} (e : IoError), FileTree.Clear R u →
      (do if ← isDir (canonical p) then pure () else Prog.throw e : Fs IoError Unit).run
        (FileTree.exec cred now) u = (some (.ok ()), v) → v.isDir p = true := by
    intro u v e hu hrun
    rw [Prog.run_bind, run_isDir] at hrun
    rcases hdir : dirAt cred u (canonical p) with _ | _
    · rw [hdir] at hrun
      cases congrArg Prod.fst hrun
    · rw [hdir] at hrun
      obtain rfl : u = v := congrArg Prod.snd hrun
      exact isDir_of_clear hu hp hdir
  have hwithin : ∀ {u : FileTree} n, FileTree.Clear R u →
      (createDirAllWithin (n + 1) (canonical p)).run (FileTree.exec cred now) u =
        (some (.ok ()), s) →
        s.isDir p = true := by
    intro u n hu hrun
    have hseen : Near R (canonical p) := ⟨p, hp, rfl⟩
    have hclear : ∀ {α ε : Type} {W : α → Prop} {m : Fs ε α} {v w : FileTree} {r}, Stays R W m →
        FileTree.Clear R v → m.run (FileTree.exec cred now) v = (r, w) → FileTree.Clear R w := by
      intro α ε W m v w r hm hv hrun
      have hkeeps := keeps_clear cred now (hm.weaken fun _ => Or.inl) hv
      rw [hrun] at hkeeps
      exact hkeeps.1
    have hcall : Stays R (fun _ => True) (sys (.mkdir (canonical p))) := stays_call hseen
    obtain ⟨r, v, hattempt, hrun⟩ := Prog.run_bind_eq_ok _ hrun
    have hfirst := Prog.run_attempt_eq_ok _ hattempt
    have hv := hclear hcall hu hfirst
    split at hrun
    · obtain rfl := congrArg Prod.snd hrun
      exact hmkdir hu hfirst
    · split at hrun
      · cases congrArg Prod.fst hrun
      · rename_i parent hparent
        obtain ⟨_, w, hmade, hrun⟩ := Prog.run_bind_eq_ok _ hrun
        have hw := hclear (stays_createDirAllWithin n (hseen.parent hparent)) hv hmade
        obtain ⟨r, x, hattempt, hrun⟩ := Prog.run_bind_eq_ok _ hrun
        have hsecond := Prog.run_attempt_eq_ok _ hattempt
        split at hrun
        · obtain rfl := congrArg Prod.snd hrun
          exact hmkdir hw hsecond
        · exact hask _ (hclear hcall hw hsecond) hrun
    · exact hask _ hv hrun
  unfold createDirAll at h
  rw [canonical, List.length_cons] at h
  exact hwithin _ ht h

/-- No link on the way to a directory. -/
def Straight (t : FileTree) (dir : Pos) : Prop :=
  ∀ q node, q <+: dir → t.get? q = some node → node.isLink = false

/-- Only directories and regular files on the way to a directory. -/
def FirmAbove (t : FileTree) (dir : Pos) : Prop :=
  ∀ q node, q <+: dir → t.get? q = some node → node.kind.isSpecial = false

theorem firmAbove_of_isDir {dir : Pos} (h : t.isDir dir = true) : FirmAbove t dir := by
  intro q node hq hnode
  have hdir : t.isDir q = true := by
    by_cases hne : q = dir
    · rwa [hne]
    · exact FileTree.isDir_above (FileTree.isSome_of_isDir h) hq hne
  obtain ⟨node', hnode', hkind⟩ := FileTree.isDir_iff.mp hdir
  obtain rfl : node = node' := Option.some.inj (hnode.symm.trans hnode')
  rw [Node.isDir_iff.mp hkind]
  rfl

theorem not_proper_empty : ¬ Proper "" := by decide

/-- A region that holds nothing, in a directory: from it the way to the directory is seen. -/
def wayTo (dir : Pos) : Region := .of [dir ++ [""]]

theorem seen_wayTo {dir q : Pos} : (wayTo dir).Seen q ↔ q <+: dir ∨ dir ++ [""] <+: q :=
  Region.seen_of_entry

theorem get?_below_empty (t : FileTree) {dir q : Pos} (h : dir ++ [""] <+: q) : t.get? q =
    none := by
  apply FileTree.get?_none_below _ h
  by_contra hsome
  exact not_proper_empty (t.proper dir "" (Option.isSome_iff_ne_none.mpr hsome))

theorem FirmAbove.ordinary {dir : Pos} (h : FirmAbove t dir) : FileTree.Ordinary (wayTo dir) t := by
  intro q node hq hnode
  rcases seen_wayTo.mp hq with hq | hq
  · exact h q node hq hnode
  · rw [get?_below_empty t hq] at hnode
    cases hnode

/-- Nothing stands at the one entry that is seen beside the way. -/
theorem same_of_wayTo {s : FileTree} {dir : Pos}
    (h : ∀ q, ¬ (wayTo dir).Seen q → s.get? q = t.get? q) {q : Pos} (hq : ¬ q <+: dir) :
    s.get? q = t.get? q := by
  by_cases hbelow : dir ++ [""] <+: q
  · rw [get?_below_empty s hbelow, get?_below_empty t hbelow]
  · apply h
    intro hseen
    exact (seen_wayTo.mp hseen).elim hq hbelow

variable (cred now) in
/-- Calls that are admitted on a way only make directories that are missing. -/
theorem made_exec {way : Pos} {c : FsCall} (hc : (wayTo way).Admits c)
    (ht : FileTree.Clear (wayTo way) t) {q : Pos} (hq : q <+: way) :
    (FileTree.exec cred now c t).2.get? q = t.get? q ∨ t.get? q = none ∧
      (FileTree.exec cred now c t).2.get? q = some ⟨.dir, FileTree.newAttrs cred now 0o777⟩ := by
  rcases FileTree.touched_admitted cred hc ht with ⟨p, hp, rfl⟩ | htouched
  · simp only [FileTree.exec]
    rcases FileTree.mkdir_cases cred now t (canonical p) with
      ⟨e, he⟩ | ⟨dir, name, _, hfree, _, -, hadd⟩
    · rw [he]
      exact Or.inl rfl
    · rw [hadd]
      by_cases hplace : q = dir ++ [name]
      · right
        exact ⟨hplace ▸ hfree, by rw [FileTree.get?_add, if_pos hplace]⟩
      · left
        rw [FileTree.get?_add, if_neg hplace]
  · left
    apply FileTree.get?_exec_of_not_touched
    intro p hp hpq
    obtain ⟨root, hroot, hbelow⟩ := Region.own_of.mp (htouched p hp)
    obtain rfl := List.mem_singleton.mp hroot
    exact not_entry_above way "" ((hbelow.trans hpq).trans hq)

variable (cred now) in
/-- A program that keeps to a way only makes directories that are missing on it. -/
theorem keeps_new {way : Pos} {m : Fs ε α} (hm : Stays (wayTo way) W m)
    (ht : FileTree.Clear (wayTo way) t) (q : Pos) :
    (m.run (FileTree.exec cred now) t).2.get? q = t.get? q ∨ q <+: way ∧ t.get? q = none ∧
      (m.run (FileTree.exec cred now) t).2.get? q = some
        ⟨.dir, FileTree.newAttrs cred now 0o777⟩ := by
  by_cases hq : q <+: way
  · let I := fun s : FileTree => FileTree.Clear (wayTo way) s ∧ (s.get? q = t.get? q ∨
      t.get? q = none ∧ s.get? q = some ⟨.dir, FileTree.newAttrs cred now 0o777⟩)
    have hkeeps : I (m.run (FileTree.exec cred now) t).2 := by
      apply hm.keeps (I := I) _ ⟨ht, Or.inl rfl⟩
      rintro c s hc ⟨hclear, hs⟩
      have hminds : (wayTo way).Minds c := Or.inl hc
      refine ⟨⟨FileTree.clear_of_minds hminds hclear, ?_⟩, FileTree.returns_of_minds hminds hclear⟩
      rcases made_exec cred now hc hclear hq with hsame | ⟨hnone, hdir⟩
      · rw [hsame]
        exact hs
      · right
        rcases hs with hsame | ⟨hnone', -⟩
        · exact ⟨hsame.symm.trans hnone, hdir⟩
        · exact ⟨hnone', hdir⟩
    rcases hkeeps.2 with hsame | hmade
    · exact Or.inl hsame
    · exact Or.inr ⟨hq, hmade⟩
  · left
    have hsame := (keeps_clear cred now (hm.weaken fun _ => Or.inl) ht).2
    exact same_of_wayTo hsame hq

variable (cred now) in
theorem keeps_made {way : Pos} {m : Fs ε α} (hm : Stays (wayTo way) W m)
    (ht : FileTree.Clear (wayTo way) t) (q : Pos) :
    (m.run (FileTree.exec cred now) t).2.get? q = t.get? q ∨
      q <+: way ∧ t.get? q = none ∧ (m.run (FileTree.exec cred now) t).2.isDir q = true :=
  (keeps_new cred now hm ht q).imp_right fun ⟨hq, hnone, hnew⟩ =>
    ⟨hq, hnone, FileTree.isDir_iff.mpr ⟨_, hnew, rfl⟩⟩

variable (cfg : ServiceConfig) {header : ImportHeader} {dir : Pos} {name : String}

/-- The calls that make the way to a target: directories are made, and the home is given
    to the agent. -/
def Paves (home : PathBuf) : FsCall → Prop
  | .mkdir _ | .fileType _ => True
  | .chown path _ _ | .chmod path _ => path = home
  | _ => False

theorem paves_prepareTarget : (prepareTarget cfg header).Within
    (Paves (homePath cfg.root header.workspaceId)) (fun _ _ => True) fun _ => True := by
  have hmake : ∀ path, (createDirAll path).Within (Paves (homePath cfg.root header.workspaceId))
      (fun _ _ => True) fun _ => True :=
    fun path => within_createDirAll (N := fun _ => True) (fun _ _ _ _ => trivial)
      (fun _ _ => ⟨trivial, trivial⟩) trivial
  apply Prog.within_bind (W := fun _ => True)
  · apply Prog.within_mapError
    exact within_ensureHome (fun _ => hmake _) (fun _ => rfl) (fun _ => rfl)
  · intro _ _
    apply Prog.within_bind (W := fun _ => True)
    · exact Prog.within_mapError (Prog.within_ofExcept fun _ _ => trivial)
    · intro target _
      apply Prog.within_bind (Prog.within_mapError (hmake _))
      intro _ _
      exact Prog.within_pure trivial

variable (cred now t header) in
/-- Up to the staging file, an import has a result. -/
theorem prepareTarget_isSome :
    ((prepareTarget cfg header).run (FileTree.exec cred now) t).1.isSome := by
  have hprompt : Prompt (prepareTarget cfg header) := by
    apply Prog.ends_bind (prompt_rpc (prompt_ensureHome _ _ _ _))
    intro _
    apply Prog.ends_bind (prompt_rpc (Prog.ends_ofExcept _))
    intro target
    apply Prog.ends_bind (prompt_ioRpc (prompt_createDirAll _))
    intro _
    exact Prog.ends_pure _
  apply hprompt.isSome (I := fun _ => True) (paves_prepareTarget cfg) _ trivial
  intro c s hc _
  refine ⟨trivial, trivial, ?_⟩
  intro hwait
  obtain ⟨path, _, _, -, -, ⟨rfl, -⟩ | ⟨rfl, -⟩⟩ := FileTree.waits_of_exec hwait
  · exact hc
  · exact hc

theorem Straight.clear {dir : Pos} (h : Straight t dir) : FileTree.Clear (wayTo dir) t := by
  intro q node hq hnode
  rcases seen_wayTo.mp hq with hq | hq
  · exact h q node hq hnode
  · rw [get?_below_empty t hq] at hnode
    cases hnode

/-- What making a way does at a position: a missing directory may be made, and the home
    may be given away. -/
def Paved (home : Pos) (t s : FileTree) (q : Pos) : Prop :=
  s.get? q = t.get? q ∨ (t.get? q = none ∧ s.isDir q = true) ∨
    (q = home ∧ ∃ node attrs, t.get? q = some node ∧ s.get? q = some { node with attrs })

theorem Paved.of_same {home q : Pos} {s s' : FileTree} (h : Paved home t s q)
    (hsame : s'.get? q = s.get? q) : Paved home t s' q := by
  rw [Paved, FileTree.isDir, hsame]
  exact h

/-- New attributes are given to the home only. -/
theorem Paved.setAttrs {home q : Pos} {s : FileTree} (h : Paved home t s q) {node : Node}
    (hnode : s.get? home = some node) (f : Attrs → Attrs) : Paved home t (s.setAttrs home f) q := by
  by_cases hq : q = home
  · have hnew : (s.setAttrs home f).get? q = some { node with attrs := f node.attrs } := by
      rw [FileTree.get?_setAttrs, if_pos hq, hq, hnode]
      rfl
    right
    rcases h with hsame | ⟨hnone, hdir⟩ | ⟨-, old, attrs, hold, hs⟩
    · right
      exact ⟨hq, node, _, by rw [← hsame, hq, hnode], hnew⟩
    · left
      refine ⟨hnone, FileTree.isDir_iff.mpr ⟨_, hnew, ?_⟩⟩
      obtain ⟨node', hnode', hkind⟩ := FileTree.isDir_iff.mp hdir
      rw [hq, hnode] at hnode'
      rwa [← Option.some.inj hnode'] at hkind
    · right
      rw [hq, hnode] at hs
      obtain rfl := Option.some.inj hs
      exact ⟨hq, old, _, hold, hnew⟩
  · apply h.of_same
    rw [FileTree.get?_setAttrs, if_neg hq]

variable (cred now) in
/-- Making a way keeps what stands, and adds directories. -/
theorem paved_exec {home : Pos} {c : FsCall} {s : FileTree} (hc : Paves (canonical home) c)
    (hclear : FileTree.Clear (wayTo home) s) {q : Pos} (h : Paved home t s q) :
    Paved home t (FileTree.exec cred now c s).2 q := by
  have hplace : ∀ {p node}, s.find cred (canonical home) = .ok (p, node) →
      p = home ∧ s.get? home = some node := by
    intro p node hfind
    obtain rfl := hclear.find_eq (seen_wayTo.mpr (Or.inl List.prefix_rfl)) hfind
    exact ⟨rfl, (FileTree.find_eq_ok hfind).2⟩
  cases c with
  | mkdir path =>
    simp only [FileTree.exec]
    rcases FileTree.mkdir_cases cred now s path with
      ⟨e, he⟩ | ⟨dir, name, hdir, hfree, hname, -, hadd⟩
    · rwa [he]
    · rw [hadd]
      by_cases hq : q = dir ++ [name]
      · right
        left
        constructor
        · rcases h with hsame | ⟨hnone, -⟩ | ⟨-, node, attrs, -, hs⟩
          · rw [← hsame, hq, hfree]
          · exact hnone
          · rw [hq, hfree] at hs
            cases hs
        · exact FileTree.isDir_iff.mpr ⟨_, by rw [FileTree.get?_add, if_pos hq], rfl⟩
      · apply h.of_same
        rw [FileTree.get?_add, if_neg hq]
  | fileType path => exact h
  | chown path uid gid =>
    obtain rfl : path = canonical home := hc
    simp only [FileTree.exec]
    rcases FileTree.chown_cases cred s (canonical home) uid gid with
      ⟨e, he⟩ | ⟨p, node, hfind, hset⟩
    · rwa [he]
    · obtain ⟨rfl, hnode⟩ := hplace hfind
      rw [hset]
      exact h.setAttrs hnode fun attrs => { attrs with uid, gid }
  | chmod path mode =>
    obtain rfl : path = canonical home := hc
    simp only [FileTree.exec]
    rcases FileTree.chmod_cases cred s (canonical home) (fun attrs => { attrs with mode }) with
      ⟨e, he⟩ | ⟨p, node, hfind, hset⟩
    · rwa [he]
    · obtain ⟨rfl, hnode⟩ := hplace hfind
      rw [hset]
      exact h.setAttrs hnode fun attrs => { attrs with mode }
  | _ => exact absurd hc id

/-- Making a way makes no link. -/
theorem straight_exec {home dir : Pos} {c : FsCall} {s : FileTree} (hc : Paves (canonical home) c)
    (h : Straight s dir) : Straight (FileTree.exec cred now c s).2 dir := by
  intro q node hq hnode
  rw [Bool.eq_false_iff]
  intro hlink
  rcases FileTree.link_of_exec hnode hlink with ⟨old, hold, hlink⟩ | ⟨src, dst, -, -, -, -, rfl, -⟩
  · rw [h q old hq hold] at hlink
    cases hlink
  · exact hc

variable (cred now) in
theorem prepareTarget_paved (hid : ValidId header.workspaceId) (hroot : RootPath cfg.root)
    (ht : Straight t (homePos cfg.root header.workspaceId)) (q : Pos) :
    Paved (homePos cfg.root header.workspaceId) t
      ((prepareTarget cfg header).run (FileTree.exec cred now) t).2 q := by
  have hwithin : (prepareTarget cfg header).Within (Paves (homePath cfg.root header.workspaceId))
      (fun _ _ => True) fun _ => True := paves_prepareTarget cfg
  rw [homePath_eq hroot hid] at hwithin
  let I := fun s => Straight s (homePos cfg.root header.workspaceId) ∧
    Paved (homePos cfg.root header.workspaceId) t s q
  have hkeeps : I ((prepareTarget cfg header).run (FileTree.exec cred now) t).2 := by
    apply hwithin.keeps (I := I) _ ⟨ht, Or.inl rfl⟩
    rintro c s hc ⟨hstraight, hpaved⟩
    exact ⟨⟨straight_exec hc hstraight, paved_exec cred now hc hstraight.clear hpaved⟩, trivial⟩
  exact hkeeps.2

variable (cred now) in
/-- Where no link is on the way to its target and to the home, it changes nothing beside
    this way; and when it goes on, the target is to be an entry of a directory. -/
theorem run_prepareTarget (hroot : RootPath cfg.root)
    (hresolve : resolvePath cfg.root header.workspaceId header.targetPath =
      .ok (canonical (dir ++ [name])))
    {way : Pos} (hdir : dir <+: way) (hhome : homePos cfg.root header.workspaceId <+: way)
    (ht : Straight t way) :
    ∃ result s, (prepareTarget cfg header).run (FileTree.exec cred now) t = (some result, s) ∧
      (∀ path, result = .ok path → path = canonical (dir ++ [name]) ∧ s.isDir dir = true) ∧
      ∀ q, ¬ q <+: way → s.get? q = t.get? q := by
  have hseen : ∀ p, p <+: way → (wayTo way).Seen p := fun p hp => seen_wayTo.mpr (Or.inl hp)
  have hminds := minds_prepareTarget cfg hroot (hseen _ hhome) hresolve (hseen dir hdir)
  obtain ⟨result, hresult⟩ := Option.isSome_iff_exists.mp
    (prepareTarget_isSome cred now t cfg header)
  obtain ⟨s, hrun⟩ : ∃ s, (prepareTarget cfg header).run (FileTree.exec cred now) t =
      (some result, s) :=
    ⟨_, Prod.ext hresult rfl⟩
  obtain ⟨-, hsame⟩ := keeps_clear cred now hminds ht.clear
  rw [hrun] at hsame
  refine ⟨result, s, hrun, ?_, fun _ hq => same_of_wayTo hsame hq⟩
  rintro path rfl
  -- the directory has just been made, or was found
  obtain ⟨hid, -⟩ := resolvePath_eq_ok hroot hresolve
  obtain ⟨_, s₁, hrun₁, hresolved⟩ := Prog.run_bind_eq_ok _ hrun
  obtain ⟨target, s₂, hrun₂, hmade⟩ := Prog.run_bind_eq_ok _ hresolved
  obtain ⟨_, s₃, hrun₃, hdone⟩ := Prog.run_bind_eq_ok _ hmade
  have hclear : FileTree.Clear (wayTo way) s₁ := by
    have hkeeps := keeps_clear cred now (m :=
      rpc (ensureHome cfg.root header.workspaceId cfg.agentUid cfg.agentGid))
      (Prog.within_mapError (minds_ensureHome cfg hroot (hseen _ hhome) hid)) ht.clear
    rw [hrun₁] at hkeeps
    exact hkeeps.1
  rw [hresolve] at hrun₂
  obtain ⟨htarget, rfl⟩ := Prod.mk.inj hrun₂
  obtain rfl := Except.ok.inj (Option.some.inj htarget)
  obtain ⟨hpath, rfl⟩ := Prod.mk.inj hdone
  rw [parentOrDot_canonical] at hrun₃
  constructor
  · exact (Except.ok.inj (Option.some.inj hpath)).symm
  · exact isDir_of_createDirAll (hseen dir hdir) hclear (Prog.run_mapError_eq_ok _ hrun₃)

/-- The names that an import makes up are free, and not that of its target; no link is on
    the way to it. -/
structure Fresh (clock : ImportClock) (t : FileTree) (dir : Pos) (name : String) : Prop where
  staging_ne : transferName "import" clock.staging ≠ name
  extraction_ne : transferName "expand" clock.expand ≠ name
  staging_free : t.get? (stagingPos clock dir) = none
  extraction_free : t.get? (extractionPos clock dir) = none
  straight : Straight t dir

variable {clock : ImportClock}

/-- A file that has been received, or nothing yet, in a directory. -/
theorem ordinary_beside (hdir : t.isDir dir = true)
    (hstaging : ∀ node, t.get? (stagingPos clock dir) = some node → node.kind ≠ .dir ∧
      node.kind.isSpecial = false)
    (hextraction : t.get? (extractionPos clock dir) = none) :
    FileTree.Ordinary (beside clock dir) t := by
  intro q node hq hnode
  rcases seen_beside.mp hq with hq | ⟨rest, rfl⟩ | hq
  · exact firmAbove_of_isDir hdir q node hq hnode
  · cases rest with
    | nil =>
      rw [List.append_nil] at hnode
      exact (hstaging node hnode).2
    | cons first rest =>
      rcases hfile : t.get? (stagingPos clock dir) with _ | file
      · rw [FileTree.get?_none_below hfile (List.prefix_append _ _)] at hnode
        cases hnode
      · have hnotdir : file.isDir = false := by
          rw [Bool.eq_false_iff, Ne, Node.isDir_iff]
          exact (hstaging file hfile).1
        rw [FileTree.get?_append_eq_none hfile hnotdir] at hnode
        cases hnode
  · rw [FileTree.get?_none_below hextraction hq] at hnode
    cases hnode

variable (cred now) in
/-- The staging file is created empty, at a name that is free, or not at all. -/
theorem create_staging (hfree : t.get? (stagingPos clock dir) = none)
    (ht : FileTree.Ordinary (.of [stagingPos clock dir]) t) :
    (∃ e, e ≠ .wouldblock ∧
      FileTree.exec cred now (.create (canonical (stagingPos clock dir))) t = (.error e, t)) ∨
      ∃ s, FileTree.exec cred now (.create (canonical (stagingPos clock dir))) t =
          (.ok (stagingPos clock dir), s) ∧
        s.get? (stagingPos clock dir) = some ⟨.file [] false, FileTree.newAttrs cred now 0o666⟩ ∧
        ∀ q, q ≠ stagingPos clock dir → s.get? q = t.get? q := by
  have hown : (Region.of [stagingPos clock dir]).own (stagingPos clock dir) = true :=
    Region.own_of_entry
  have hadmits : (Region.of [stagingPos clock dir]).Minds
      (.create (canonical (stagingPos clock dir))) :=
    Or.inl ⟨_, hown, rfl⟩
  have hwait : (FileTree.exec cred now (.create (canonical (stagingPos clock dir))) t).1 ≠
      .error .wouldblock := FileTree.ne_wouldblock_of_minds hadmits ht
  have hresolve := ht.clear.resolve cred (Region.seen_of_own hown) maxLinks
  simp only [FileTree.exec] at hwait ⊢
  rcases FileTree.create_cases cred now t (canonical (stagingPos clock dir)) with
    ⟨e, he⟩ | ⟨dir', name', hdir, hfree, hname, htarget, hadd⟩
      | ⟨p, data, holes, attrs, htarget, hnode, -⟩
  · left
    refine ⟨e, ?_, he⟩
    rintro rfl
    rw [he] at hwait
    exact hwait rfl
  · have hplace := hresolve.2.2 dir' name' htarget
    right
    rw [hadd, hplace]
    refine ⟨_, rfl, ?_, ?_⟩
    · rw [FileTree.get?_add, if_pos hplace.symm]
    · intro q hq
      rw [FileTree.get?_add, if_neg (by rwa [hplace])]
  · rw [hresolve.2.1 p htarget, hfree] at hnode
    cases hnode

/-- The staging file holds what was received, and nothing has been extracted. -/
structure Received (clock : ImportClock) (dir : Pos) (bytes : List UInt8)
    (s : FileTree) : Prop where
  isDir : s.isDir dir = true
  staging : ∃ attrs, s.get? (stagingPos clock dir) = some ⟨.file bytes false, attrs⟩
  extraction_free : s.get? (extractionPos clock dir) = none

theorem Received.ordinary {bytes : List UInt8} (h : Received clock dir bytes t) :
    FileTree.Ordinary (beside clock dir) t := by
  obtain ⟨attrs, hstaging⟩ := h.staging
  apply ordinary_beside h.isDir _ h.extraction_free
  intro node hnode
  obtain rfl := Option.some.inj (hstaging.symm.trans hnode)
  exact ⟨nofun, rfl⟩

variable (cred now) in
/-- **Receiving.**  With a free name for its staging file, and without links on the way to
    its target and to the home, an import that goes on to install an object has received
    nothing but chunks; the staging file holds their bytes, and besides only what is on
    that way has changed. -/
theorem run_receiveObject (hroot : RootPath cfg.root)
    (hresolve : resolvePath cfg.root header.workspaceId header.targetPath =
      .ok (canonical (dir ++ [name])))
    {way : Pos} (hdir : dir <+: way) (hhome : homePos cfg.root header.workspaceId <+: way)
    (ht : Straight t way) (hway : ¬ stagingPos clock dir <+: way)
    (hfree : t.get? (stagingPos clock dir) = none) (rest : ImportStream) :
    ∃ result s, (receiveObject cfg clock header rest).run (FileTree.exec cred now) t =
        (some result, s) ∧
      (∀ q, ¬ stagingPos clock dir <+: q → (¬ q <+: way → s.get? q = t.get? q) ∧
        Paved (homePos cfg.root header.workspaceId) t s q) ∧
      ∀ received, result = .ok received → ∃ bytes, payload rest = some bytes ∧
        received = (canonical (dir ++ [name]), min bytes.length maxBytesWritten) ∧
        s.isDir dir = true ∧ ∃ attrs, s.get? (stagingPos clock dir) = some
          ⟨.file bytes false, attrs⟩ := by
  obtain ⟨result, s, hrun, hresult, hsame⟩ :=
    run_prepareTarget cred now cfg hroot hresolve hdir hhome ht
  have hpaved : ∀ q, Paved (homePos cfg.root header.workspaceId) t s q := by
    intro q
    have h := prepareTarget_paved cred now cfg (resolvePath_eq_ok hroot hresolve).1 hroot
      (fun q node hq => ht q node (hq.trans hhome)) q
    rwa [hrun] at h
  rw [receiveObject, Prog.run_bind, hrun]
  rcases result with status | path
  · exact ⟨_, s, rfl, fun q _ => ⟨hsame q, hpaved q⟩, fun _ h => nomatch h⟩
  · obtain ⟨rfl, hisDir⟩ := hresult path rfl
    have hfree' : s.get? (stagingPos clock dir) = none := (hsame _ hway).trans hfree
    have hs : FileTree.Ordinary (.of [stagingPos clock dir]) s := by
      intro q node hq hnode
      rcases Region.seen_of_entry.mp hq with hq | hq
      · exact firmAbove_of_isDir hisDir q node hq hnode
      · rw [FileTree.get?_none_below hfree' hq] at hnode
        cases hnode
    dsimp only
    rw [stagingPath_canonical, Prog.run_bind, ioRpc, Prog.run_mapError]
    rcases create_staging cred now hfree' hs with ⟨e, he, hcreate⟩ | ⟨s', hcreate, hempty, hothers⟩
    · rw [run_sys_error (congrArg Prod.fst hcreate) he, hcreate]
      exact ⟨_, s, rfl, fun q _ => ⟨hsame q, hpaved q⟩, fun _ h => nomatch h⟩
    · rw [run_sys_ok (congrArg Prod.fst hcreate), hcreate]
      simp only [Option.map_some, Except.mapError]
      rw [Prog.run_bind]
      -- what comes next writes to the staging file only
      have hframe : ∀ s'' : FileTree, (∀ q, q ≠ stagingPos clock dir → s''.get? q = s'.get? q) →
          ∀ q, ¬ stagingPos clock dir <+: q → s''.get? q = s.get? q := by
        intro s'' hsame' q hq
        have hne : q ≠ stagingPos clock dir := fun heq => hq (heq ▸ List.prefix_rfl)
        rw [hsame' q hne, hothers q hne]
      have hkeeps : ∀ s'' : FileTree, (∀ q, q ≠ stagingPos clock dir → s''.get? q = s'.get? q) →
          ∀ q, ¬ stagingPos clock dir <+: q → (¬ q <+: way → s''.get? q = t.get? q) ∧
            Paved (homePos cfg.root header.workspaceId) t s'' q := by
        intro s'' hsame' q hq
        have hq' := hframe s'' hsame' q hq
        exact ⟨fun hnot => hq'.trans (hsame q hnot), (hpaved q).of_same hq'⟩
      rcases hrest : payload rest with _ | bytes
      · obtain ⟨status, s'', hrun', hsame'⟩ := run_receiveChunks_none cred now hrest 0
        rw [hrun']
        exact ⟨_, s'', rfl, hkeeps s'' hsame', fun _ h => nomatch h⟩
      · obtain ⟨s'', hrun', hfile, hsame'⟩ :=
          run_receiveChunks cred now rfl hempty hrest (Nat.zero_le _)
        rw [hrun']
        refine ⟨_, s'', rfl, hkeeps s'' hsame', ?_⟩
        intro received hreceived
        refine ⟨bytes, rfl, ?_, ?_, _, hfile⟩
        · rw [← Except.ok.inj hreceived, Nat.zero_add]
        · rwa [FileTree.isDir, hframe s'' hsame' dir (not_entry_above dir _)]

variable (cred now) in
/-- With free names, what has been received can be installed. -/
theorem run_receiveObject_fresh (hroot : RootPath cfg.root)
    (hresolve : resolvePath cfg.root header.workspaceId header.targetPath =
      .ok (canonical (dir ++ [name])))
    (hhome : homePos cfg.root header.workspaceId <+: dir) (h : Fresh clock t dir name)
    (rest : ImportStream) :
    ∃ result s, (receiveObject cfg clock header rest).run (FileTree.exec cred now) t =
        (some result, s) ∧
      (∀ q, ¬ q <+: dir → ¬ stagingPos clock dir <+: q → s.get? q = t.get? q) ∧
      ∀ received, result = .ok received → ∃ bytes, payload rest = some bytes ∧
        received = (canonical (dir ++ [name]), min bytes.length maxBytesWritten) ∧
        Received clock dir bytes s := by
  obtain ⟨result, s, hrun, hframe, hreceived⟩ := run_receiveObject cred now cfg hroot hresolve
    List.prefix_rfl hhome h.straight (not_entry_above dir _) h.staging_free rest
  have hsame : ∀ q, ¬ q <+: dir → ¬ stagingPos clock dir <+: q → s.get? q = t.get? q :=
    fun q hq hstaging => (hframe q hstaging).1 hq
  refine ⟨result, s, hrun, hsame, ?_⟩
  intro received hresult
  obtain ⟨bytes, hbytes, heq, hisDir, hfile⟩ := hreceived received hresult
  refine ⟨bytes, hbytes, heq, hisDir, hfile, ?_⟩
  have hextraction : ¬ extractionPos clock dir <+: dir := not_entry_above dir _
  exact (hsame _ hextraction (extraction_apart clock dir).2).trans h.extraction_free

end Runs

end Scriptorium
