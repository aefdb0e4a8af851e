import Scriptorium.TransferFrame
import Scriptorium.ImportSuccess

/-!
# How far transfers reach

The condition under which a transfer changes nothing outside its workspace is also necessary,
as far as nothing else stops the transfer: a service that may do everything makes what is
missing on the way, and opens a file at its end (`transfers_keep_inside`).
-/

namespace Scriptorium

open Posix Effects

/-! ### What a service can do that may do everything -/

section Escape

variable {cred : Cred} {now : Nat} {t s : FileTree} {ws place p d : Pos} {n : String}

section Privileged

variable (hcred : cred.privileged = true)

include hcred

/-- It sees what the onlooker sees. -/
theorem look_privileged (t : FileTree) : t.look cred = t.look onlooker := by
  have honlooker : onlooker.privileged = true := rfl
  funext q
  unfold FileTree.look Node.view
  split
  · rfl
  · rw [Cred.may_of_privileged hcred, Cred.may_of_privileged honlooker]

theorem leads_of_leadsIn {path : PathBuf} (h : LeadsIn t path d) :
    FileTree.Leads cred t path d [] := by
  refine ⟨?_, FileTree.look_of_isDir hcred h.2, fun q _ name hname => by cases hname⟩
  rw [look_privileged hcred]
  exact h.1

variable (now) in
theorem exec_mkdir_missing (h : LeadsIn t (canonical p) d) (hfree : t.get? (d ++ [n]) = none)
    (hname : Proper n) : ∃ u,
      FileTree.exec cred now (.mkdir (canonical (p ++ [n]))) t = (.ok (), u) ∧
      u.get? (d ++ [n]) ≠ none := by
  have hslot := (leads_of_leadsIn hcred h).slot n
  have hwrite : t.allows cred d .write = true :=
    FileTree.allows_of_isSome hcred (FileTree.isSome_of_isDir h.2) .write
  refine ⟨t.add d n ⟨.dir, FileTree.newAttrs cred now 0o777⟩ h.2 hfree hname, ?_, ?_⟩
  · simp only [canonical_concat, FileTree.exec, FileTree.mkdir, hslot, FileTree.addEntry,
      dif_pos hfree, dif_pos h.2, dif_pos hname, if_pos hwrite]
  · simp [FileTree.get?_add]

variable (now) in
/-- Below what is missing, nothing can be made. -/
theorem exec_mkdir_beyond (h : LeadsIn t (canonical p) d) (hfree : t.get? (d ++ [n]) = none)
    (rest : Pos) (m : String) :
    FileTree.exec cred now (.mkdir (canonical (p ++ [n] ++ rest ++ [m]))) t =
      (.error .noent, t) := by
  have hlead := leads_of_leadsIn hcred h
  have hmissing : walk (t.look cred) maxLinks [] (canonical (p ++ [n])) = .error .noent := by
    rw [canonical_concat]
    exact walk_missing hlead.walk hlead.search (FileTree.look_eq_absent.mpr hfree)
  have hwalk : walk (t.look cred) maxLinks [] (canonical (p ++ [n] ++ rest)) = .error .noent := by
    rw [canonical_append]
    cases rest with
    | nil => simpa using hmissing
    | cons first rest => rw [walk, ((resolve_append _ (by simp)).2 _ hmissing).1]
  have hslot : t.slot cred (canonical (p ++ [n] ++ rest ++ [m])) = .error .noent := by
    rw [canonical_concat, FileTree.slot_concat, hwalk]
  simp only [FileTree.exec, FileTree.mkdir, hslot]

variable (now) in
/-- Of all that is missing on the way, what comes first is made first: by induction on the
    rest. -/
theorem made_first (h : LeadsIn t (canonical p) d) (hfree : t.get? (d ++ [n]) = none)
    (hname : Proper n) (rest : Pos) {k : Nat} (hk : rest.length < k) :
    ∃ u, (createDirAllWithin k (canonical (p ++ [n] ++ rest))).Stops (FileTree.exec cred now) t u ∧
      u.get? (d ++ [n]) ≠ none := by
  induction rest using List.reverseRecOn generalizing k with
  | nil =>
    obtain ⟨k, rfl⟩ : ∃ m, k = m + 1 := ⟨k - 1, by simp at hk; omega⟩
    obtain ⟨u, hmade, hthere⟩ := exec_mkdir_missing now hcred h hfree hname
    refine ⟨u, ?_, hthere⟩
    rw [createDirAllWithin, List.append_nil]
    refine .end_of_run (a := .ok ()) ?_
    rw [Prog.run_attempt, run_sys_of_ok hmade]
    rfl
  | append_singleton rest m ih =>
    obtain ⟨k, rfl⟩ : ∃ m, k = m + 1 := ⟨k - 1, by omega⟩
    obtain ⟨u, hstop, hthere⟩ := ih (k := k) (by rw [List.length_append] at hk; simp at hk; omega)
    refine ⟨u, ?_, hthere⟩
    have hnoent := exec_mkdir_beyond now hcred h hfree rest m
    rw [← List.append_assoc, createDirAllWithin]
    have hasked : ((sys (.mkdir (canonical (p ++ [n] ++ rest ++ [m])))).attempt :
        Fs IoError (Except IoError Unit)).run (FileTree.exec cred now) t =
          (some (.ok (.error (.os .noent))), t) := by
      rw [Prog.run_attempt, run_sys_of_error hnoent (by decide)]
      rfl
    refine .after hasked ?_
    simp only [PathBuf.parent_canonical_concat]
    exact .bind hstop

variable (now) in
/-- A directory that its path leads to need not be made. -/
theorem run_createDirAll_leads (h : LeadsIn t (canonical place) d) :
    (createDirAll (canonical place)).run (FileTree.exec cred now) t = (some (.ok ()), t) := by
  have hlead := leads_of_leadsIn hcred h
  obtain ⟨e, he, hmkdir⟩ := FileTree.mkdir_of_walk now hlead.walk
  have hexec : FileTree.exec cred now (.mkdir (canonical place)) t = (.error e, t) := hmkdir
  have hisDir : (isDir (canonical place) : Fs IoError Bool).run (FileTree.exec cred now) t =
      (some (.ok true), t) := by
    obtain ⟨node, hnode, hfind⟩ := FileTree.find_of_walk hlead.walk
    obtain ⟨node', hnode', hkind⟩ := FileTree.isDir_iff.mp h.2
    obtain rfl := Option.some.inj (hnode.symm.trans hnode')
    rw [run_isDir, dirAt, hfind]
    simp only [hkind]
  rw [createDirAll, canonical, List.length_cons, ← canonical, createDirAllWithin, Prog.run_bind,
    Prog.run_attempt]
  rcases he with rfl | rfl
  all_goals
    rw [run_sys_of_error hexec (by decide)]
    simp only [Option.map_some]
    rw [Prog.run_bind_ok _ hisDir]
    rfl

variable (now) in
/-- A way that does not keep to the workspace ends outside of it, or something is made there. -/
theorem way_escapes (hproper : ∀ m ∈ place, Proper m) (hout : ¬ KeepsInside ws place s) :
    (∃ d, LeadsIn s (canonical place) d ∧ ¬ ws <+: d) ∨
      ∃ q u, ¬ ws <+: q ∧ s.get? q = none ∧ u.get? q ≠ none ∧
        (createDirAll (canonical place)).Stops (FileTree.exec cred now) s u := by
  by_contra hneither
  rw [not_or] at hneither
  apply hout
  refine ⟨fun d hd => ?_, fun p n d hp hd hfree => ?_⟩
  · by_contra hin
    exact hneither.1 ⟨d, hd, hin⟩
  · by_contra hin
    obtain ⟨rest, rfl⟩ := hp
    obtain ⟨u, hstop, hthere⟩ := made_first now hcred hd hfree (hproper n (by simp)) rest
      (k := (canonical (p ++ [n] ++ rest)).length) (by simp [canonical]; omega)
    exact hneither.2 ⟨d ++ [n], u, hin, hfree, hthere, hstop⟩

variable (now) in
/-- A new file is opened where its directory is. -/
theorem exec_create_missing (h : LeadsIn t (canonical p) d) (hfree : t.get? (d ++ [n]) = none)
    (hname : Proper n) : ∃ u,
      FileTree.exec cred now (.create (canonical (p ++ [n]))) t = (.ok (d ++ [n]), u) ∧
      u.get? (d ++ [n]) ≠ none := by
  have hlead := leads_of_leadsIn hcred h
  have htarget : t.target cred (canonical (p ++ [n])) = .ok (.missing d n) := by
    obtain ⟨fewer, -, hres, -⟩ := (resolve_append [.normal n] (by simp)).1 d hlead.walk
    rw [FileTree.target, canonical_concat, hres, resolve_normal, search_eq_ok.mpr hlead.search,
      FileTree.look_eq_absent.mpr hfree]
    simp
  have hwrite : t.allows cred d .write = true :=
    FileTree.allows_of_isSome hcred (FileTree.isSome_of_isDir h.2) .write
  refine ⟨t.add d n ⟨.file [] false, FileTree.newAttrs cred now 0o666⟩ h.2 hfree hname, ?_, ?_⟩
  · simp only [FileTree.exec, FileTree.create, htarget, FileTree.addFile, FileTree.addEntry,
      dif_pos hfree, dif_pos h.2, dif_pos hname, if_pos hwrite]
  · simp [FileTree.get?_add]

end Privileged

variable (cred now) in
/-- A home that is there is given to the agent, and nothing is made. -/
theorem run_ensureHome_there (hcred : cred.privileged = true) {root id : String}
    (hroot : RootPath root) (hid : ValidId id)
    (hthere : LeadsIn t (canonical (homePos root id)) (homePos root id)) (uid gid : Nat) :
    ∃ u, (ensureHome root id uid gid).run (FileTree.exec cred now) t =
        (some (.ok (homePath root id)), u) ∧
      ∀ q, (u.get? q).map Node.kind = (t.get? q).map Node.kind := by
  obtain ⟨u, hrun⟩ := run_ensureHome now hcred hroot hid (passable_of_isDir hthere.2) uid gid
  have hmade : Approached (homePos root id) (homePos root id) t
      ((ensureHome root id uid gid).run (FileTree.exec cred now) t).2 :=
    run_approaches cred now (approaches_ensureHome hroot hid List.prefix_rfl) t
  rw [hrun] at hmade
  exact ⟨u, hrun, hmade.kinds _ hthere.1⟩

end Escape

/-! ### Transfers that keep to the workspace -/

/-- A fetch that comes to open its target: the server answers with a body, and no directory
    is in the way. -/
structure FetchOpens (cfg : ServiceConfig) (net : Network) (req : FetchRequest) (t : FileTree)
    (place : Pos) (x : String) : Prop where
  resolve : resolvePath cfg.root req.workspaceId req.targetPath = .ok (canonical (place ++ [x]))
  below : homePos cfg.root req.workspaceId <+: place
  storable : Storable (place ++ [x])
  reply : ∃ resp, (sendRequest cfg.fetch net req.url req.headers).2 = .ok resp ∧
    200 ≤ resp.status ∧ resp.status ≤ 299
  entry : ∀ d, LeadsIn t (canonical place) d → t.isDir (d ++ [x]) = false

/-- An import that comes to open its staging file, of which the name is free. -/
structure ImportOpens (cfg : ServiceConfig) (clock : ImportClock) (header : ImportHeader)
    (t : FileTree) (place : Pos) (x : String) : Prop where
  resolve : resolvePath cfg.root header.workspaceId header.targetPath =
    .ok (canonical (place ++ [x]))
  below : homePos cfg.root header.workspaceId <+: place
  storable : Storable (place ++ [x])
  free : ∀ d, LeadsIn t (canonical place) d → t.get? (stagingPos clock d) = none

section Converse

variable {cred : Cred} {now : Nat} {cfg : ServiceConfig} {t : FileTree} {place : Pos} {x : String}

variable (now) in
/-- A file is removed before it is written anew, and what is missing is made. -/
theorem replaceFile_touches (hcred : cred.privileged = true) {u : FileTree} {d : Pos}
    (hd : LeadsIn u (canonical place) d) (hname : Proper x) (hentry : u.isDir (d ++ [x]) = false)
    (maxBodyBytes : Nat) (body : Body) :
    ∃ v, (replaceFile maxBodyBytes body (canonical (place ++ [x]))).Stops
        (FileTree.exec cred now) u v ∧
      (v.get? (d ++ [x]) = none ↔ u.get? (d ++ [x]) ≠ none) := by
  have hslot := (leads_of_leadsIn hcred hd).slot x
  rw [← canonical_concat] at hslot
  have hwrite : u.allows cred d .write = true :=
    FileTree.allows_of_isSome hcred (FileTree.isSome_of_isDir hd.2) .write
  have hunlinked : (ignore (sys (.unlink (canonical (place ++ [x])))) : Fs Error Unit).run
      (FileTree.exec cred now) u =
        (some (.ok ()), (FileTree.exec cred now (.unlink (canonical (place ++ [x]))) u).2) :=
    run_ignore_sys unlink_ne_wouldblock
  rcases hnode : u.get? (d ++ [x]) with _ | node
  · have hexec : FileTree.exec cred now (.unlink (canonical (place ++ [x]))) u =
        (.error .noent, u) := by
      simp only [FileTree.exec, FileTree.unlink, hslot, hnode]
    rw [hexec] at hunlinked
    obtain ⟨v, hcreate, hmade⟩ := exec_create_missing now hcred hd hnode hname
    refine ⟨v, .after hunlinked (.end_of_run (a := d ++ [x]) ?_), iff_of_false hmade (by simp)⟩
    rw [io, Prog.run_mapError, run_sys_of_ok hcreate]
    rfl
  · have hfile : node.isDir = false := by
      rw [FileTree.isDir, hnode] at hentry
      exact hentry
    have hexec : FileTree.exec cred now (.unlink (canonical (place ++ [x]))) u =
        (.ok (), u.removeAt d x) := by
      simp [FileTree.exec, FileTree.unlink, hslot, hnode, hwrite, hfile]
    rw [hexec] at hunlinked
    refine ⟨_, .end_of_run hunlinked, iff_of_true ?_ (by simp)⟩
    rw [FileTree.get?_removeAt, if_pos List.prefix_rfl]

variable (now) in
/-- A call that makes the way and then touches an entry of the directory, and never changes
    anything outside, has its way keep to the workspace. -/
theorem keepsInside_of_stops (hcred : cred.privileged = true) {root id : String}
    (hroot : RootPath root) (hid : ValidId id) (hhoused : Housed root id t)
    (hhome : homePos root id <+: place) (hproper : ∀ m ∈ place, Proper m) (uid gid : Nat)
    (n : String) {Q : FileTree → Prop} (hall : ∀ v, Q v → SameOutside (workspacePos root id) t v)
    (hmade : ∀ u v, (ensureHome root id uid gid).run (FileTree.exec cred now) t =
        (some (.ok (homePath root id)), u) →
      (createDirAll (canonical place)).Stops (FileTree.exec cred now) u v → Q v)
    (hentry : ∀ d, LeadsIn t (canonical place) d → t.isDir (d ++ [n]) = false)
    (htouched : ∀ u d, (ensureHome root id uid gid).run (FileTree.exec cred now) t =
        (some (.ok (homePath root id)), u) →
      (∀ q, (u.get? q).map Node.kind = (t.get? q).map Node.kind) → LeadsIn u (canonical place) d →
      ∃ v, Q v ∧ (v.get? (d ++ [n]) = none ↔ t.get? (d ++ [n]) ≠ none)) :
    KeepsInside (workspacePos root id) place t := by
  by_contra hout
  have hthere := hhoused.home_there hhome hout
  obtain ⟨u, hready, hkinds⟩ := run_ensureHome_there cred now hcred hroot hid hthere uid gid
  have hout' : ¬ KeepsInside (workspacePos root id) place u :=
    fun hin => hout (hin.congr fun q => (hkinds q).symm)
  rcases way_escapes now hcred hproper hout' with
    ⟨d, hd, hin⟩ | ⟨q, v, hin, hfree, hthere, hstop⟩
  · obtain ⟨v, hv, hdiffers⟩ := htouched u d hready hkinds hd
    have hlead := leadsIn_congr hkinds hd
    rw [hall v hv _ (not_inside_of_missing hthere.2 hin (hentry d hlead))] at hdiffers
    exact iff_not_self hdiffers
  · have hsame := hall v (hmade u v hready hstop) q hin
    exact hthere (hsame.trans ((missing_congr (hkinds q)).mp hfree))

variable (now) in
/-- An import that changes nothing outside has kept to the workspace. -/
theorem import_keeps_inside (hroot : RootPath cfg.root) (hcred : cred.privileged = true)
    {clock : ImportClock} {header : ImportHeader} {rest : ImportStream}
    (hhoused : Housed cfg.root header.workspaceId t)
    (h : ImportOpens cfg clock header t place x)
    (hall : ∀ s, (importObject cfg clock header rest).Stops (FileTree.exec cred now) t s →
      SameOutside (workspacePos cfg.root header.workspaceId) t s) :
    ImportInside cfg clock header t := by
  obtain ⟨hid, q, hq, -, -, hproper⟩ := resolvePath_eq_ok hroot h.resolve
  obtain rfl := canonical_injective hq
  have hresolved : ∀ u : FileTree, (rpc (Prog.ofExcept (resolvePath cfg.root header.workspaceId
      header.targetPath)) : Fs Status PathBuf).run (FileTree.exec cred now) u =
        (some (.ok (canonical (place ++ [x]))), u) := by
    intro u
    rw [h.resolve]
    rfl
  have hready : ∀ u, (ensureHome cfg.root header.workspaceId cfg.agentUid cfg.agentGid).run
      (FileTree.exec cred now) t = (some (.ok (homePath cfg.root header.workspaceId)), u) →
      (rpc (ensureHome cfg.root header.workspaceId cfg.agentUid cfg.agentGid)).run
        (FileTree.exec cred now) t = (some (.ok (homePath cfg.root header.workspaceId)), u) := by
    intro u hrun
    rw [rpc, Prog.run_mapError, hrun]
    rfl
  have hkeeps : KeepsInside (workspacePos cfg.root header.workspaceId) place t := by
    refine keepsInside_of_stops now hcred hroot hid hhoused h.below
      (fun m hm => hproper m (List.mem_append_left _ hm)) cfg.agentUid cfg.agentGid
      (transferName "import" clock.staging) hall (fun u v hrun hstop => ?_) (fun d hd => ?_)
      fun u d hrun hkinds hd => ?_
    · unfold importObject
      refine .after (hready u hrun) (.after (hresolved u) (.bind (.mapError ?_)))
      rwa [parentOrDot_canonical]
    · rw [FileTree.isDir, ← stagingPos, h.free d hd]
      rfl
    · have hfree := h.free d (leadsIn_congr hkinds hd)
      obtain ⟨v, hcreate, hmade⟩ := exec_create_missing now hcred hd
        ((missing_congr (hkinds _)).mpr hfree) (proper_transferName (by decide) clock.staging)
      have hway : (ioRpc (createDirAll (parentOrDot (canonical (place ++ [x]))))).run
          (FileTree.exec cred now) u = (some (.ok ()), u) := by
        rw [parentOrDot_canonical, ioRpc, Prog.run_mapError, run_createDirAll_leads now hcred hd]
        rfl
      refine ⟨v, ?_, iff_of_false hmade fun hne => hne hfree⟩
      unfold importObject
      refine .after (hready u hrun) (.after (hresolved u) (.after hway
        (.end_of_run (a := stagingPos clock d) ?_)))
      rw [stagingPath_canonical, ioRpc, Prog.run_mapError, stagingPos, run_sys_of_ok hcreate]
      rfl
  intro place' x' hresolve _
  have hsame := canonical_injective (Except.ok.inj (h.resolve.symm.trans hresolve))
  obtain ⟨rfl, -⟩ := List.append_inj' hsame rfl
  exact ⟨hkeeps, opensInside_of_empty hkeeps h.free⟩

variable (now) in
/-- And so has a fetch. -/
theorem fetch_keeps_inside (hroot : RootPath cfg.root) (hcred : cred.privileged = true)
    {net : Network} {req : FetchRequest} (hhoused : Housed cfg.root req.workspaceId t)
    (h : FetchOpens cfg net req t place x)
    (hall : ∀ s, (doFetch cfg net req).Stops (FileTree.exec cred now) t s →
      SameOutside (workspacePos cfg.root req.workspaceId) t s) :
    FetchInside cred cfg req t := by
  obtain ⟨hid, q, hq, -, -, hproper⟩ := resolvePath_eq_ok hroot h.resolve
  obtain rfl := canonical_injective hq
  obtain ⟨resp, hreply, hstatus⟩ := h.reply
  have hresolved : ∀ u : FileTree, (Prog.ofExcept (resolvePath cfg.root req.workspaceId
      req.targetPath) : Fs Error PathBuf).run (FileTree.exec cred now) u =
        (some (.ok (canonical (place ++ [x]))), u) := by
    intro u
    rw [h.resolve]
    rfl
  have hkeeps : KeepsInside (workspacePos cfg.root req.workspaceId) place t := by
    refine keepsInside_of_stops now hcred hroot hid hhoused h.below
      (fun m hm => hproper m (List.mem_append_left _ hm)) cfg.agentUid cfg.agentGid x hall
      (fun u v hrun hstop => ?_) h.entry fun u d hrun hkinds hd => ?_
    · unfold doFetch
      refine .mapError (.after hrun (.after (hresolved u) (.bind ?_)))
      rw [hreply, fetchToFile_eq hstatus]
      exact .bind (.mapError hstop)
    · have hway : (io (createDirAll (canonical place))).run (FileTree.exec cred now) u =
          (some (.ok ()), u) := by
        rw [io, Prog.run_mapError, run_createDirAll_leads now hcred hd]
        rfl
      have hentry : u.isDir (d ++ [x]) = false :=
        (isDir_congr (hkinds _)).trans (h.entry d (leadsIn_congr hkinds hd))
      obtain ⟨v, hstop, hdiffers⟩ := replaceFile_touches now hcred hd (hproper x (by simp)) hentry
        cfg.fetch.maxBodyBytes resp.body
      refine ⟨v, ?_, ?_⟩
      · unfold doFetch
        refine .mapError (.after hrun (.after (hresolved u) (.bind ?_)))
        rw [hreply, fetchToFile_eq hstatus]
        exact .after hway (.bind hstop)
      · exact hdiffers.trans (missing_congr (hkinds _)).not
  intro place' x' hresolve _
  have hsame := canonical_injective (Except.ok.inj (h.resolve.symm.trans hresolve))
  obtain ⟨rfl, -⟩ := List.append_inj' hsame rfl
  refine ⟨hkeeps, Or.inr fun d hd => ?_⟩
  exact FileTree.allows_of_isSome hcred (FileTree.isSome_of_isDir hd.2) .write

end Converse

/-- Two workspaces; the first has a link to a directory of its own, one to the home of the
    second, and one to its file at the name of a staging file. -/
def crossedHost : FileTree := .ofEntries
  [([], hostDir), (["srv"], hostDir), (["srv", "w1"], hostDir), (["srv", "w1", "home"], hostDir),
    (["srv", "w1", "home", "a"], hostDir),
    (["srv", "w1", "home", "l"], ⟨.link "a", ⟨0o777, 1000, 1000, 0⟩⟩),
    (["srv", "w1", "home", "x"], ⟨.link "../../w2/home", ⟨0o777, 1000, 1000, 0⟩⟩),
    (["srv", "w1", "home", "a", ".scriptorium-import-1.tmp"],
      ⟨.link "../../../w2/home/b", ⟨0o777, 1000, 1000, 0⟩⟩),
    (["srv", "w2"], hostDir), (["srv", "w2", "home"], hostDir),
    (["srv", "w2", "home", "b"], ⟨.file [104, 105] false, ⟨0o644, 1000, 1000, 0⟩⟩)]
  (by decide)

theorem crossedHost_housed : Housed "/srv" "w1" crossedHost where
  rootDir := by decide
  workspace := by decide
  entries := by
    intro x node hnode
    have hplain : ∀ entry ∈ crossedHost.support, entry.length ≤ 3 →
        (crossedHost.get? entry).all fun node => !node.isLink := by decide
    have hpos : workspacePos "/srv" "w1" = ["srv", "w1"] := by decide
    have hmem : workspacePos "/srv" "w1" ++ [x] ∈ crossedHost.support :=
      (crossedHost.mem_support _).mpr (by rw [hnode]; rfl)
    have hall := hplain _ hmem (by simp [hpos])
    rw [hnode] at hall
    simpa using hall

/-- A server that answers with one byte. -/
def answeringNet : Network where
  parse _ := .ok ⟨"http", some (.domain "files.example"), "files.example"⟩
  validHeader _ _ := true
  resolve _ _ := .ok [.v4 ⟨93, 184, 216, 34⟩]
  accepts _ _ := true
  reply _ _ := .response ⟨200, none, [.ok [1]]⟩

end Scriptorium
