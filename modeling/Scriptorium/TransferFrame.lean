import Scriptorium.TransferSteps

/-!
# What transfers touch

A fetch or an import is given a path below the home of its workspace, on which an agent may
have put any links.  It changes nothing outside the workspace, provided that the path of
its target keeps to the workspace, where it leads and where it has to be made, and that the
file it opens is not one outside (`confines_doFetch`, `confines_importObject`).
-/

namespace Scriptorium

open Posix Effects

/-! ### A fetch -/

section FetchFile

variable {cred : Cred} {now : Nat} {ws place handle : Pos} {x : String} {t s u : FileTree}

variable (cred now) in
theorem confines_writeBody (h : Receiving ws place x handle t s) (maxBodyBytes : Nat)
    (body : List (Except String (List UInt8))) (total : Nat) :
    Confines cred now ws t (writeBody maxBodyBytes handle body total) s
      fun _ u => Receiving ws place x handle t u := by
  induction body generalizing s total with
  | nil => exact confines_pure h.outside h
  | cons chunk rest ih =>
    rcases chunk with e | chunk
    · exact confines_throw h.outside
    · rw [writeBody_ok]
      split
      · exact confines_throw h.outside
      · have hwritten : Receiving ws place x handle t (s.write now handle chunk) := h.write chunk
        refine (confines_sys (c := .write handle chunk) (Q := fun _ u =>
          Receiving ws place x handle t u) h.outside hwritten.outside fun _ _ =>
            hwritten).mapError.bind ?_
        intro _ u _ _ hu
        exact ih hu _

/-- A file is opened, where what is opened is in the workspace. -/
theorem confines_create (hs : Kept ws place t s)
    (hinside : ∀ {handle : Pos} {u : FileTree},
      FileTree.exec cred now (.create (canonical (place ++ [x]))) s = (.ok handle, u) →
        ws <+: handle) :
    Confines cred now ws t (sys (.create (canonical (place ++ [x])))) s
      fun handle u => Receiving ws place x handle t u := by
  rcases hcreate : FileTree.exec cred now (.create (canonical (place ++ [x]))) s with
    ⟨e | handle, u⟩
  · obtain rfl := FileTree.exec_error hcreate
    apply confines_sys hs.1
    · rw [hcreate]
      exact hs.1
    · intro out hout
      rw [hcreate] at hout
      cases hout
  · have hu := receiving_create hs (hinside hcreate) hcreate
    apply confines_sys hs.1
    · rw [hcreate]
      exact hu.outside
    · intro out hout
      rw [hcreate] at hout ⊢
      exact Except.ok.inj hout ▸ hu

variable (cred now) in
theorem confines_replaceFile (hs : Kept ws place t s)
    (hopens : OpensInside ws s (canonical (place ++ [x])) ∨ MayChange cred place s)
    (maxBodyBytes : Nat) (body : Body) :
    Confines cred now ws t (replaceFile maxBodyBytes body (canonical (place ++ [x]))) s
      fun _ u => ∃ handle, Receiving ws place x handle t u := by
  have hv : Kept ws place t (FileTree.exec cred now (.unlink (canonical (place ++ [x]))) s).2 :=
    Kept.exec cred now ⟨x, rfl⟩ hs
  refine (confines_ignore (Q := fun _ v => v = (FileTree.exec cred now
    (.unlink (canonical (place ++ [x]))) s).2) hs.1 hv.1 rfl).bind ?_
  rintro _ v - - rfl
  have hcreate : Confines cred now ws t (io (sys (.create (canonical (place ++ [x])))))
      (FileTree.exec cred now (.unlink (canonical (place ++ [x]))) s).2
      fun handle u => Receiving ws place x handle t u :=
    (confines_create hv fun h => unlinked_handle hs.2 hopens h).mapError
  refine hcreate.bind fun handle u _ _ hu => ?_
  exact (confines_writeBody cred now hu _ _ _).mono fun _ _ _ h => ⟨handle, h⟩

/-- The file is given its mode. -/
theorem confines_chmod (h : Receiving ws place x handle t s) (mode : Nat) :
    Confines cred now ws t (io (sys (.chmod (canonical (place ++ [x])) mode))) s
      fun _ _ => True := by
  refine (confines_sys h.outside (h.outside.exec fun p hp => ?_) fun _ _ => trivial).mapError
  rcases hfind : s.find cred (canonical (place ++ [x])) with e | ⟨q, node⟩
  · simp only [FileTree.touched, hfind, List.not_mem_nil] at hp
  · simp only [FileTree.touched, hfind, List.mem_singleton] at hp
    have hwalk := FileTree.walk_onlooker (FileTree.find_eq_ok hfind).1
    rw [walk_eq_ok, ← FileTree.target, h.found] at hwalk
    rw [hp, ← Target.found.inj (Except.ok.inj hwalk)]
    exact h.inside

end FetchFile

/-- The path of a fetch keeps to the workspace, and what it opens is in it, unless the target
    can be unlinked before. -/
def FetchInside (cred : Cred) (cfg : ServiceConfig) (req : FetchRequest) (t : FileTree) : Prop :=
  ∀ place x, resolvePath cfg.root req.workspaceId req.targetPath = .ok (canonical (place ++ [x])) →
    homePos cfg.root req.workspaceId <+: place →
    KeepsInside (workspacePos cfg.root req.workspaceId) place t ∧
      (OpensInside (workspacePos cfg.root req.workspaceId) t (canonical (place ++ [x])) ∨
        MayChange cred place t)

section FetchCall

variable {cred : Cred} {now : Nat} {cfg : ServiceConfig} {t : FileTree}

/-- A target is an entry of a directory at or below the home, or of the one the home is in. -/
theorem resolved_entry {root id relative : String} (hroot : RootPath root) {path : PathBuf}
    (h : resolvePath root id relative = .ok path) :
    ∃ place x, path = canonical (place ++ [x]) ∧
      (homePos root id <+: place ∨ place = workspacePos root id) := by
  obtain ⟨-, q, rfl, hhome, -, -⟩ := resolvePath_eq_ok hroot h
  rcases List.eq_nil_or_concat' q with rfl | ⟨place, x, rfl⟩
  · exact absurd hhome.length_le (by simp [homePos])
  · refine ⟨place, x, rfl, ?_⟩
    rcases List.prefix_concat_iff.mp hhome with heq | hhome
    · rw [homePos_eq] at heq
      exact Or.inr (List.append_inj' heq rfl).1.symm
    · exact Or.inl hhome

variable (now) in
theorem confines_fetchToFile {id : String} {place : Pos} {x : String} {s : FileTree}
    (h : Arriving cred cfg.root id place True x t s) (reply : Except Error HttpResponse) :
    Confines cred now (workspacePos cfg.root id) t
      (fetchToFile cfg.fetch reply (canonical (place ++ [x]))) s
      fun _ u => ∃ handle, Receiving (workspacePos cfg.root id) place x handle t u := by
  rcases reply with e | resp
  · exact confines_throw h.outside
  by_cases hstatus : 200 ≤ resp.status ∧ resp.status ≤ 299
  · rw [fetchToFile_eq hstatus]
    refine (confines_way now h).mapError.bind fun _ u _ hu hway => ?_
    refine (confines_replaceFile cred now ⟨hu, hway.keeps⟩
      (hway.opens.imp_right And.right) _ _).bind fun written v _ hv hfile => ?_
    exact confines_pure hv hfile
  · have hrefused : fetchToFile cfg.fetch (.ok resp) (canonical (place ++ [x])) =
        Prog.throw (.other ("fetch returned non-2xx status: " ++ toString resp.status)) :=
      if_pos hstatus
    rw [hrefused]
    exact confines_throw h.outside

variable (cred now) in
/-- A fetch changes nothing outside the workspace. -/
theorem confines_doFetch (hroot : RootPath cfg.root) (net : Network) {req : FetchRequest}
    (hhoused : Housed cfg.root req.workspaceId t) (hinside : FetchInside cred cfg req t) :
    Confines cred now (workspacePos cfg.root req.workspaceId) t (doFetch cfg net req) t
      fun _ _ => True := by
  apply Confines.mapError
  rcases hresolve : resolvePath cfg.root req.workspaceId req.targetPath with e | path
  · have hstart : Arriving cred cfg.root req.workspaceId
        (workspacePos cfg.root req.workspaceId) True "" t t :=
      Or.inr ⟨rfl, fun _ _ => rfl, hhoused⟩
    exact (confines_ensureHome now hroot _ _ hstart).bind fun _ u _ hu _ => confines_throw hu
  · obtain ⟨place, x, rfl, hplace⟩ := resolved_entry hroot hresolve
    have hstart : Arriving cred cfg.root req.workspaceId place True x t t := by
      apply arriving_start hhoused hplace
      intro hhome
      obtain ⟨hkeeps, hopens⟩ := hinside place x hresolve hhome
      exact ⟨hkeeps, hopens.imp_right fun hmay => ⟨trivial, hmay⟩⟩
    refine (confines_ensureHome now hroot _ _ hstart).bind fun _ u _ hu hway => ?_
    refine (confines_fetchToFile now hway _).bind fun outcome v _ _ hv => ?_
    obtain ⟨handle, hv⟩ := hv
    exact (confines_chmod hv _).bind fun _ w _ hw _ => confines_pure hw trivial

end FetchCall

/-! ### Receiving an object -/

section Receive

variable {cred : Cred} {now : Nat} {ws place handle d : Pos} {x a name : String}
  {names : List String} {t s u v : FileTree}

variable (cred now) in
theorem confines_receiveChunks (h : Receiving ws place x handle t s) (rest : ImportStream)
    (total : Nat) : Confines cred now ws t (receiveChunks handle rest total) s
      fun _ u => Receiving ws place x handle t u := by
  induction rest generalizing s total with
  | nil => exact confines_pure h.outside h
  | cons message rest ih =>
    match message with
    | .error status => exact confines_throw h.outside
    | .ok (.header _) => exact confines_throw h.outside
    | .ok .empty => exact confines_throw h.outside
    | .ok (.chunk chunk) =>
      have hwritten : Receiving ws place x handle t (s.write now handle chunk) := h.write chunk
      refine (confines_sys (c := .write handle chunk) (Q := fun _ u =>
        Receiving ws place x handle t u) h.outside hwritten.outside fun _ _ =>
          hwritten).mapError.bind ?_
      intro _ u _ _ hu
      exact ih hu _

end Receive

/-! ### Installing a file -/

section InstallFile

variable {cred : Cred} {now : Nat} {ws place d : Pos} {a name : String} {names : List String}
  {t s u v : FileTree}

/-- Where the target has been cleared, the path of its directory does not pass it. -/
theorem leads_vacated (hremove : (removePathIfExists (canonical (place ++ [name]))).run
      (FileTree.exec cred now) s = (some (.ok ()), u))
    (hlead : FileTree.Leads cred u (canonical place) d names) :
    FileTree.Leads cred u (canonical place) d (name :: names) := by
  suffices h : FileTree.Leads cred u (canonical place) d [name] by
    refine ⟨hlead.walk, hlead.search, fun q hq other hother => ?_⟩
    rcases List.mem_cons.mp hother with rfl | hother
    · exact h.apart q hq _ List.mem_cons_self
    · exact hlead.apart q hq other hother
  rw [canonical_concat] at hremove
  rcases removePathIfExists_ok hremove with ⟨dir, other, hslot, rfl⟩ | ⟨rfl, hmissing⟩
  · obtain ⟨hpath, -, -⟩ := FileTree.slot_eq_ok hslot
    rw [List.dropLast_concat] at hpath
    obtain rfl : name = other := by simpa using List.append_cancel_left hpath
    have hvacated := leads_removed (FileTree.leads_of_slot hslot)
      (fun q => FileTree.get?_removeAt) hlead.walk
    rwa [Except.ok.inj (hlead.walk.symm.trans hvacated.walk)]
  · exact (hlead.mono (List.nil_subset _)).beside_missing hmissing

/-- What is moved to a place that the path does not pass leaves it leading where it led, or
    nowhere. -/
theorem ends_moved (hlead : FileTree.Leads onlooker u (canonical place) d [name]) (hd : ws <+: d)
    (hv : ∀ q, ¬ d ++ [name] <+: q → v.get? q = u.get? q ∨ v.get? q = none) {e : Pos}
    (he : LeadsIn v (canonical place) e) : ws <+: e := by
  have hlook : ∀ q, ¬ d ++ [name] <+: q →
      v.look onlooker q = u.look onlooker q ∨ v.look onlooker q = .absent :=
    fun q hq => (hv q hq).imp FileTree.look_congr FileTree.look_eq_absent.mpr
  have hapart : ∀ q ∈ looks (u.look onlooker) maxLinks [] (canonical place),
      ¬ d ++ [name] <+: q := fun q hq => hlead.apart q hq name (List.mem_singleton_self name)
  rcases walk_beside hlead.walk hapart hlook with hsame | ⟨e', he'⟩
  · rwa [← Except.ok.inj (hsame.symm.trans he.1)]
  · cases he'.symm.trans he.1

variable (cred now) in
/-- The staging file comes to the target, within their directory. -/
theorem confines_rename (hs : Kept ws place t u)
    (hlead : ∀ d, u.slot cred (canonical (place ++ [a])) = .ok (d, a) →
      FileTree.Leads onlooker u (canonical place) d [name]) :
    Confines cred now ws t
      (io (sys (.rename (canonical (place ++ [a])) (canonical (place ++ [name]))))) u
      fun _ v => ∀ e, LeadsIn v (canonical place) e → ws <+: e := by
  have hexec : SameOutside ws t (FileTree.exec cred now
        (.rename (canonical (place ++ [a])) (canonical (place ++ [name]))) u).2 ∧
      ∀ e, LeadsIn (FileTree.exec cred now
        (.rename (canonical (place ++ [a])) (canonical (place ++ [name]))) u).2
          (canonical place) e → ws <+: e := by
    simp only [FileTree.exec]
    rcases FileTree.rename_cases cred u (canonical (place ++ [a])) (canonical (place ++ [name]))
      with ⟨e, he⟩ | ⟨_, _, -, -, he⟩ |
      ⟨srcDir, srcName, dir, n, _, hsrc, hdir, hname, hin, hout, hs', hd', -, -, hmove⟩
    · rw [he]
      exact ⟨hs.1, hs.2.ends⟩
    · rw [he]
      exact ⟨hs.1, hs.2.ends⟩
    · rw [hmove]
      obtain ⟨hd, rfl⟩ := leadsIn_of_slot hs'
      obtain ⟨hdst, rfl⟩ := leadsIn_of_slot hd'
      obtain rfl := Except.ok.inj (hd.1.symm.trans hdst.1)
      have hws := hs.2.ends _ hd
      refine ⟨fun q hq => ?_, fun e he => ends_moved (hlead _ hs') hws (fun q hq => ?_) he⟩
      · rw [FileTree.get?_replaceAt, if_neg, if_neg]
        · exact hs.1 q hq
        · exact fun hpre => hq ((hws.trans (List.prefix_append _ _)).trans hpre)
        · exact fun hpre => hq ((hws.trans (List.prefix_append _ _)).trans hpre)
      · rw [FileTree.get?_replaceAt, if_neg hq]
        split
        · exact Or.inr rfl
        · exact Or.inl rfl
  exact (confines_sys hs.1 hexec.1 fun _ _ => hexec.2).mapError

variable (cred now) in
theorem confines_removePathIfExists (hs : Kept ws place t s) (name : String) :
    Confines cred now ws t (removePathIfExists (canonical (place ++ [name]))) s
      fun _ u => Kept ws place t u :=
  confines_sweeps cred now
    (within_removePathIfExists trivial ⟨name, rfl⟩ ⟨name, rfl⟩) hs

variable (cred now) in
theorem confines_replaceFileFromStaging (hs : Kept ws place t s) (a name : String) :
    Confines cred now ws t (replaceWorkspaceFileFromStaging (canonical (place ++ [a]))
      (canonical (place ++ [name]))) s
      fun _ v => ∀ e, LeadsIn v (canonical place) e → ws <+: e := by
  rw [replaceWorkspaceFileFromStaging, PathBuf.parent_canonical_concat]
  refine (confines_sweeps cred now (Prog.within_mapError
    (sweeps_createDirAll (Or.inl List.prefix_rfl))) hs).bind fun _ u _ _ hu => ?_
  refine (confines_removePathIfExists cred now hu name).bind fun _ v hremove _ hv => ?_
  apply confines_rename cred now hv
  intro d hslot
  rw [canonical_concat] at hslot
  exact (leads_vacated hremove (FileTree.leads_of_slot hslot)).onlooker

end InstallFile

/-! ### Installing an archive -/

section InstallArchive

variable {cred : Cred} {now : Nat} {ws place d : Pos} {a e name : String} {names : List String}
  {t s u v : FileTree}

variable (cred now) in
/-- An archive is unpacked into a bare directory beside the target. -/
theorem confines_extractArchive (hs : Kept ws place t s) (codec : Codec) (staging : PathBuf)
    (e : String) :
    Confines cred now ws t (extractArchive codec staging (canonical (place ++ [e]))) s
      fun _ u => SameOutside ws t u ∧ ∃ d, ws <+: d ∧
        FileTree.Opens onlooker u (canonical place) d e := by
  rw [extractArchive_eq]
  have hbare : (bareRoot (canonical (place ++ [e]))).Within (Sweeps place) (fun _ _ => True)
      fun _ => True :=
    within_bareRoot trivial ⟨e, rfl⟩ (sweeps_createDirAll (Or.inr ⟨e, rfl⟩))
  refine (confines_sweeps cred now hbare hs).bind fun _ u hrun _ hu => ?_
  rw [canonical_concat] at hrun
  obtain ⟨d, hbegan⟩ := bareRoot_ok hrun
  have hd : ws <+: d := hu.2.ends d (leadsIn_of_leads hbegan.lead)
  have hopens : FileTree.Opens onlooker u (canonical place) d e := by
    refine ⟨hbegan.lead.onlooker, hbegan.isDir, fun q node hnode => ?_⟩
    rcases q with _ | ⟨first, q⟩
    · rw [List.append_nil, hbegan.root] at hnode
      rw [← Option.some.inj hnode]
      rfl
    · rw [hbegan.bare] at hnode
      cases hnode
  refine (confines_sys (c := .read staging) (Q := fun _ v => v = u) hu.1
    hu.1 fun _ _ => rfl).mapError.bind fun archive v _ hv heq => ?_
  obtain rfl := heq
  let I := fun w : FileTree => SameOutside ws t w ∧ FileTree.Opens onlooker w (canonical place) d e
  have hstep : ∀ c w, Unpacks (place ++ [e]) (d ++ [e]) c → I w →
      I (FileTree.exec cred now c w).2 ∧
        OpensBelow (d ++ [e]) c (FileTree.exec cred now c w).1 := by
    rintro c w hc ⟨hw, hopens⟩
    have hopened : FileTree.Opens onlooker (FileTree.exec cred now c w).2 (canonical place) d e ∧
        _ := opens_exec hopens hc
    obtain ⟨hopens', hsame, hreply⟩ := hopened
    refine ⟨⟨fun q hq => ?_, hopens'⟩, hreply⟩
    rw [hsame, hw q hq]
    exact fun hpre => hq ((hd.trans (List.prefix_append _ _)).trans hpre)
  have hitems := confines_of_within (unpacks_extractItems (place ++ [e]) (d ++ [e])
    (codec.unpack archive.data)) (fun w (hw : I w) => hw.1) hstep ⟨hv, hopens⟩
  exact hitems.mono fun _ w _ hw => ⟨hw.1, d, hd, hw.2⟩

/-- What is in the way of an installation has gone, and what was unpacked is there. -/
structure Vacated (cred : Cred) (ws place d : Pos) (e name : String) (t s : FileTree) : Prop where
  kept : Kept ws place t s
  lead : FileTree.Leads onlooker s (canonical place) d [name, e]
  search : FileTree.Leads cred s (canonical place) d []
  source : s.isDir (d ++ [e]) = true
  missing : s.find cred (canonical (place ++ [name])) = .error .noent

/-- A removal takes an entry away, or nothing. -/
theorem removed_or_same (hremove : (removePathIfExists (canonical (place ++ [name]))).run
      (FileTree.exec cred now) s = (some (.ok ()), u)) :
    (∃ d, leadsTo s (canonical place) = .ok d ∧ u = s.removeAt d name) ∨
      u = s ∧ s.find cred (canonical (place ++ [name])) = .error .noent := by
  rcases removePathIfExists_ok hremove with ⟨d, n, hslot, rfl⟩ | hmissing
  · obtain ⟨hd, rfl⟩ := leadsIn_of_slot hslot
    exact Or.inl ⟨d, hd.1, rfl⟩
  · exact Or.inr hmissing

/-- A listing of what was unpacked shows that the target was cleared beside it. -/
theorem vacated_of_listed (hopens : FileTree.Opens onlooker s (canonical place) d e)
    (hremove : (removePathIfExists (canonical (place ++ [name]))).run
      (FileTree.exec cred now) s = (some (.ok ()), u)) (hu : Kept ws place t u)
    {entries : List (String × FileType)}
    (hlist : u.readDir cred (canonical (place ++ [e])) = .ok entries) :
    Vacated cred ws place d e name t u := by
  obtain ⟨p, hwalk, -, -⟩ := FileTree.readDir_eq_ok hlist
  rw [canonical_concat] at hwalk
  obtain ⟨d', hd', hsearch, hpresent⟩ := walk_concat hwalk
  have hlead : FileTree.Leads cred u (canonical place) d' [] :=
    ⟨hd', hsearch, fun q _ n hn => by cases hn⟩
  have hnamed := leads_vacated hremove hlead
  have hgone : ∀ q, u.get? q = s.get? q ∨ u.get? q = none := by
    intro q
    rcases removed_or_same hremove with ⟨dir, -, rfl⟩ | ⟨rfl, -⟩
    · rw [FileTree.get?_removeAt]
      split
      · exact Or.inr rfl
      · exact Or.inl rfl
    · exact Or.inl rfl
  obtain rfl : d = d' := by
    have hthere := FileTree.walk_onlooker hd'
    rcases removed_or_same hremove with ⟨dir, -, rfl⟩ | ⟨rfl, -⟩
    · exact Except.ok.inj (hopens.lead.walk.symm.trans (leadsTo_removed hthere))
    · exact Except.ok.inj (hopens.lead.walk.symm.trans hthere)
  have hthin : ∀ q, u.look onlooker q = s.look onlooker q ∨ u.look onlooker q = .absent :=
    fun q => (hgone q).imp FileTree.look_congr FileTree.look_eq_absent.mpr
  refine ⟨hu, ⟨hnamed.onlooker.walk, hnamed.onlooker.search, fun q hq n hn => ?_⟩, hlead, ?_, ?_⟩
  · rcases List.mem_pair.mp hn with rfl | rfl
    · exact hnamed.onlooker.apart q hq _ (List.mem_singleton_self _)
    · exact hopens.lead.apart q (looks_thinned hthin hq) _ (List.mem_singleton_self _)
  · rcases hgone (d ++ [e]) with hsame | hnone
    · rw [FileTree.isDir, hsame]
      exact hopens.isDir
    · exact absurd (FileTree.look_eq_absent.mpr hnone) hpresent
  · rcases removed_or_same hremove with ⟨dir, hdir, rfl⟩ | ⟨rfl, hmissing⟩
    · obtain rfl := Except.ok.inj (hopens.lead.walk.symm.trans hdir)
      have hnone : (s.removeAt d name).get? (d ++ [name]) = none := by
        rw [FileTree.get?_removeAt, if_pos List.prefix_rfl]
      rw [canonical_concat, FileTree.find,
        walk_missing hlead.walk hlead.search (FileTree.look_eq_absent.mpr hnone)]
    · exact hmissing

variable (cred now) in
/-- What happens at or below the two entries leaves their directory where it is. -/
theorem landed_exec {c : FsCall} (hs : SameOutside ws t s) (hd : ws <+: d)
    (hlead : FileTree.Leads onlooker s (canonical place) d [name, e])
    (hc : ∀ p ∈ s.touched cred c, d ++ [name] <+: p ∨ d ++ [e] <+: p) :
    SameOutside ws t (FileTree.exec cred now c s).2 ∧
      FileTree.Leads onlooker (FileTree.exec cred now c s).2 (canonical place) d [name, e] := by
  constructor
  · refine hs.exec fun p hp => ?_
    rcases hc p hp with hpre | hpre
    · exact (hd.trans (List.prefix_append _ _)).trans hpre
    · exact (hd.trans (List.prefix_append _ _)).trans hpre
  · refine hlead.of_same fun q hq => FileTree.get?_exec_of_not_touched c fun p hp hpq => ?_
    rcases hc p hp with hpre | hpre
    · exact hq name (by simp) (hpre.trans hpq)
    · exact hq e (by simp) (hpre.trans hpq)

theorem kept_of_leads (hs : SameOutside ws t s) (hd : ws <+: d)
    (hlead : FileTree.Leads cred s (canonical place) d names) : Kept ws place t s :=
  ⟨hs, .of_leads (FileTree.walk_onlooker hlead.walk) hd⟩

variable (cred now) in
/-- One entry is moved, or not, between two directories of the workspace. -/
theorem between_exec (hs : SameOutside ws t s) (hd : ws <+: d)
    (h : Between onlooker s (canonical place) d e name) (child : String) :
    SameOutside ws t (FileTree.exec cred now (.rename (canonical (place ++ [e] ++ [child]))
        (canonical (place ++ [name] ++ [child]))) s).2 ∧
      Between onlooker (FileTree.exec cred now (.rename (canonical (place ++ [e] ++ [child]))
        (canonical (place ++ [name] ++ [child]))) s).2 (canonical place) d e name := by
  have hslot : ∀ {entry : String} {p : Pos} {n : String}, s.isDir (d ++ [entry]) = true →
      s.slot cred (canonical (place ++ [entry] ++ [child])) = .ok (p, n) →
      p = d ++ [entry] := by
    intro entry p n hdir hslot
    have hseen := FileTree.slot_onlooker hslot
    rw [canonical_concat, canonical_concat] at hseen
    exact (slot_between h.lead hdir hseen).1
  have htouched : ∀ p ∈ s.touched cred (.rename (canonical (place ++ [e] ++ [child]))
      (canonical (place ++ [name] ++ [child]))), ∃ n,
        p = d ++ [name] ++ [n] ∨ p = d ++ [e] ++ [n] := by
    intro p hp
    rcases hsrc : s.slot cred (canonical (place ++ [e] ++ [child])) with _ | ⟨srcDir, srcName⟩
    · simp only [FileTree.touched, hsrc, List.not_mem_nil] at hp
    rcases hdst : s.slot cred (canonical (place ++ [name] ++ [child])) with _ | ⟨dir, n⟩
    · simp only [FileTree.touched, hsrc, hdst, List.not_mem_nil] at hp
    simp only [FileTree.touched, hsrc, hdst, List.mem_pair] at hp
    rcases hp with rfl | rfl
    · exact ⟨srcName, Or.inr (by rw [hslot h.source hsrc])⟩
    · exact ⟨n, Or.inl (by rw [hslot h.target hdst])⟩
  have hroot : ∀ entry, (FileTree.exec cred now (.rename (canonical (place ++ [e] ++ [child]))
      (canonical (place ++ [name] ++ [child]))) s).2.get? (d ++ [entry]) =
        s.get? (d ++ [entry]) := by
    intro entry
    apply FileTree.get?_exec_of_not_touched
    intro p hp hpre
    obtain ⟨n, rfl | rfl⟩ := htouched p hp
    · exact absurd hpre.length_le (by simp)
    · exact absurd hpre.length_le (by simp)
  obtain ⟨hsame, hlead⟩ := landed_exec cred now hs hd h.lead fun p hp => by
    obtain ⟨n, rfl | rfl⟩ := htouched p hp
    · exact Or.inl (List.prefix_append _ _)
    · exact Or.inr (List.prefix_append _ _)
  refine ⟨hsame, hlead, ?_, ?_, h.apart⟩
  · rw [FileTree.isDir, hroot]
    exact h.source
  · rw [FileTree.isDir, hroot]
    exact h.target

variable (cred now) in
theorem confines_moveEntries (hs : SameOutside ws t s) (hd : ws <+: d)
    (h : Between onlooker s (canonical place) d e name) (children : List String) :
    Confines cred now ws t (moveEntries (canonical (place ++ [e])) (canonical (place ++ [name]))
      children) s fun _ u => Kept ws place t u := by
  induction children generalizing s with
  | nil => exact confines_pure hs (kept_of_leads hs hd h.lead)
  | cons child children ih =>
    have hmoved := between_exec cred now hs hd h child
    rw [canonical_concat (place ++ [e]), canonical_concat (place ++ [name])] at hmoved
    refine (confines_sys (Q := fun _ u => SameOutside ws t u ∧
      Between onlooker u (canonical place) d e name) hs hmoved.1
      fun _ _ => hmoved).mapError.bind fun _ u _ _ hu => ih hu.1 hu.2

variable (cred now) in
theorem confines_finishExtraction (hs : Kept ws place t s) (a e : String) :
    Confines cred now ws t (finishExtraction (canonical (place ++ [a]))
      (canonical (place ++ [e]))) s fun _ u => Kept ws place t u := by
  have htree := Kept.exec cred now
    (c := .removeDirAll (canonical (place ++ [e]))) ⟨e, rfl⟩ hs
  refine (confines_ignore (Q := fun _ u => Kept ws place t u) hs.1 htree.1 htree).bind ?_
  intro _ u _ _ hu
  have hfile := Kept.exec cred now
    (c := .unlink (canonical (place ++ [a]))) ⟨a, rfl⟩ hu
  exact confines_ignore hu.1 hfile.1 hfile

variable (cred now) in
/-- The entries are moved one by one into a directory that has been made for them. -/
theorem confines_installEach (h : Vacated cred ws place d e name t s) (a : String) :
    Confines cred now ws t (installEach (canonical (place ++ [a])) (canonical (place ++ [e]))
      (canonical (place ++ [name]))) s fun _ u => Kept ws place t u := by
  have hd : ws <+: d := h.kept.2.ends d (leadsIn_of_leads h.lead)
  refine (confines_sweeps cred now (Prog.within_mapError
    (sweeps_createDirAll (Or.inr ⟨name, rfl⟩))) h.kept).bind fun _ u hmake hu _ => ?_
  have hslot := h.search.slot name
  rw [← canonical_concat] at hslot
  obtain ⟨-, hdir, hfree, hname, rfl⟩ := createDirAll_entry hslot (dirAt_eq_false h.missing)
    (Prog.run_mapError_eq_ok _ hmake)
  have hbetween : Between onlooker
      (s.add d name ⟨.dir, FileTree.newAttrs cred now 0o777⟩ hdir hfree hname)
      (canonical place) d e name := by
    have hget : ∀ q,
        (s.add d name ⟨.dir, FileTree.newAttrs cred now 0o777⟩ hdir hfree hname).get? q =
          if q = d ++ [name] then some ⟨.dir, FileTree.newAttrs cred now 0o777⟩ else s.get? q :=
      fun _ => FileTree.get?_add
    have hapart : e ≠ name := by
      rintro rfl
      have hsome := FileTree.isSome_of_isDir h.source
      rw [hfree] at hsome
      cases hsome
    refine ⟨h.lead.of_same fun q hq => ?_, ?_, ?_, hapart⟩
    · rw [hget, if_neg]
      rintro rfl
      exact hq name (by simp) List.prefix_rfl
    · rw [FileTree.isDir, hget, if_neg (by simpa using hapart)]
      exact h.source
    · exact FileTree.isDir_iff.mpr ⟨_, by rw [hget, if_pos rfl], rfl⟩
  refine (confines_sys (c := .readDir (canonical (place ++ [e]))) (Q := fun _ v =>
    v = s.add d name ⟨.dir, FileTree.newAttrs cred now 0o777⟩ hdir hfree hname) hu hu
    fun _ _ => rfl).mapError.bind fun entries v _ _ heq => ?_
  obtain rfl := heq
  refine (confines_moveEntries cred now hu hd hbetween _).bind fun _ v _ _ hv => ?_
  exact confines_finishExtraction cred now hv a e

variable (now) in
/-- A sole entry is moved to the target, or not. -/
theorem sole_exec (h : Vacated cred ws place d e name t s) (hd : ws <+: d) (entry : String) :
    SameOutside ws t (FileTree.exec cred now (.rename (canonical (place ++ [e]) ++ [.normal entry])
        (canonical (place ++ [name]))) s).2 ∧
      FileTree.Leads onlooker (FileTree.exec cred now
        (.rename (canonical (place ++ [e]) ++ [.normal entry]) (canonical (place ++ [name]))) s).2
          (canonical place) d [name, e] := by
  apply landed_exec cred now h.kept.1 hd h.lead
  intro p hp
  rcases hsrc : s.slot cred (canonical (place ++ [e]) ++ [.normal entry]) with _ | ⟨srcDir, srcName⟩
  · simp only [FileTree.touched, hsrc, List.not_mem_nil] at hp
  rcases hdst : s.slot cred (canonical (place ++ [name])) with _ | ⟨dir, n⟩
  · simp only [FileTree.touched, hsrc, hdst, List.not_mem_nil] at hp
  simp only [FileTree.touched, hsrc, hdst, List.mem_pair] at hp
  rcases hp with rfl | rfl
  · right
    have hseen := FileTree.slot_onlooker hsrc
    rw [canonical_concat] at hseen
    rw [(slot_between h.lead h.source hseen).1]
    exact List.prefix_append _ _
  · left
    obtain ⟨hdir, rfl⟩ := leadsIn_of_slot hdst
    rw [Except.ok.inj (hdir.1.symm.trans h.lead.walk)]

variable (cred now) in
/-- What was unpacked comes to the target. -/
theorem confines_installExtracted (hs : Kept ws place t u)
    (hopens : FileTree.Opens onlooker s (canonical place) d e)
    (hremove : (removePathIfExists (canonical (place ++ [name]))).run
      (FileTree.exec cred now) s = (some (.ok ()), u)) (a : String) :
    Confines cred now ws t (installExtracted (canonical (place ++ [a])) (canonical (place ++ [e]))
      (canonical (place ++ [name]))) u fun _ v => Kept ws place t v := by
  refine (confines_sys (c := .readDir (canonical (place ++ [e]))) (Q := fun entries v =>
    v = u ∧ u.readDir cred (canonical (place ++ [e])) = .ok entries) hs.1 hs.1
    fun _ hlist => ⟨rfl, hlist⟩).mapError.bind fun entries v hrun _ hlisted => ?_
  clear hrun
  obtain ⟨rfl, hlist⟩ := hlisted
  have hvacated : Vacated cred ws place d e name t v := vacated_of_listed hopens hremove hs hlist
  have hd : ws <+: d := hs.2.ends d (leadsIn_of_leads hvacated.lead)
  split
  · rename_i entry
    have hask : Confines cred now ws t
        (isDir (canonical (place ++ [e]) ++ [.normal entry.1]) : Fs Error Bool) v
        fun _ w => w = v :=
      confines_of_within (A := fun _ _ => True) (within_isDir (P := fun c => c = .fileType _) rfl)
        (fun w hw => hw ▸ hs.1) (fun c w hc hw => ⟨by rw [hc]; exact hw, trivial⟩) rfl
    refine hask.bind fun answer w _ _ heq => ?_
    obtain rfl := heq
    split
    · have hmoved := sole_exec now hvacated hd entry.1
      refine (confines_sys (Q := fun _ u => SameOutside ws t u ∧
        FileTree.Leads onlooker u (canonical place) d [name, e]) hs.1 hmoved.1
        fun _ _ => hmoved).mapError.bind fun _ u _ _ hu => ?_
      exact confines_finishExtraction cred now (kept_of_leads hu.1 hd hu.2) a e
    · exact confines_installEach cred now hvacated a
  · exact confines_installEach cred now hvacated a

variable (cred now) in
/-- An archive takes the place of what stands at the target. -/
theorem confines_replaceFromArchive (hs : Kept ws place t s) (codec : Codec)
    (clock : ImportClock) (name : String) :
    Confines cred now ws t (replaceWorkspaceDirectoryFromArchivePath codec clock.expand
      (canonical (stagingPos clock place)) (canonical (place ++ [name]))) s
      fun _ u => Kept ws place t u := by
  rw [replaceWorkspaceDirectoryFromArchivePath, extractionPath_canonical, parentOrDot_canonical,
    extractArchiveAndReplace_eq]
  refine (confines_sweeps cred now (Prog.within_mapError
    (sweeps_createDirAll (Or.inl List.prefix_rfl))) hs).bind fun _ u _ _ hu => ?_
  refine (confines_extractArchive cred now hu codec _ _).bind fun _ v _ hv hopened => ?_
  obtain ⟨-, d, hd, hopens⟩ := hopened
  have hkept := kept_of_leads hv hd hopens.lead
  refine (confines_removePathIfExists cred now hkept name).bind fun _ w hremove _ hw => ?_
  exact confines_installExtracted cred now hw hopens hremove _

end InstallArchive

/-! ### An import -/

/-- The path of an import keeps to the workspace, and its staging file is opened in it. -/
def ImportInside (cfg : ServiceConfig) (clock : ImportClock) (header : ImportHeader)
    (t : FileTree) : Prop :=
  ∀ place x, resolvePath cfg.root header.workspaceId header.targetPath =
      .ok (canonical (place ++ [x])) →
    homePos cfg.root header.workspaceId <+: place →
    KeepsInside (workspacePos cfg.root header.workspaceId) place t ∧
      OpensInside (workspacePos cfg.root header.workspaceId) t (canonical (stagingPos clock place))

section ImportCall

variable {cred : Cred} {now : Nat} {cfg : ServiceConfig} {t s : FileTree}

variable (cred now) in
theorem confines_installObject {ws place : Pos} (hs : Kept ws place t s) (clock : ImportClock)
    (header : ImportHeader) (name : String) (count : Nat) :
    Confines cred now ws t (installObject cfg clock header (canonical (stagingPos clock place))
      (canonical (place ++ [name])) count) s
      fun _ u => ∀ d, LeadsIn u (canonical place) d → ws <+: d := by
  unfold installObject
  split
  · refine (confines_replaceFileFromStaging cred now hs _ name).mapError.bind
      fun _ u _ hu hends => ?_
    exact confines_pure hu hends
  · refine (confines_replaceFromArchive cred now hs cfg.codec clock name).mapError.bind
      fun _ u _ hu hkept => ?_
    exact confines_pure hu hkept.2.ends
  · have hfile := Kept.exec cred now
      (c := .unlink (canonical (stagingPos clock place))) ⟨_, rfl⟩ hs
    refine (confines_ignore (Q := fun _ _ => True) hs.1 hfile.1 trivial).bind fun _ u _ hu _ => ?_
    exact confines_throw hu

variable (cred now) in
/-- An import changes nothing outside the workspace. -/
theorem confines_importObject (hroot : RootPath cfg.root) (clock : ImportClock)
    {header : ImportHeader} (rest : ImportStream) (hhoused : Housed cfg.root header.workspaceId t)
    (hinside : ImportInside cfg clock header t) :
    Confines cred now (workspacePos cfg.root header.workspaceId) t
      (importObject cfg clock header rest) t fun _ _ => True := by
  unfold importObject
  rcases hresolve : resolvePath cfg.root header.workspaceId header.targetPath with e | path
  · have hstart : Arriving cred cfg.root header.workspaceId
        (workspacePos cfg.root header.workspaceId) False "" t t :=
      Or.inr ⟨rfl, fun _ _ => rfl, hhoused⟩
    exact (confines_ensureHome now hroot _ _ hstart).mapError.bind
      fun _ u _ hu _ => confines_throw hu
  obtain ⟨place, name, rfl, hplace⟩ := resolved_entry hroot hresolve
  have hstart : Arriving cred cfg.root header.workspaceId place False
      (transferName "import" clock.staging) t t := by
    apply arriving_start hhoused hplace
    intro hhome
    obtain ⟨hkeeps, hopens⟩ := hinside place name hresolve hhome
    exact ⟨hkeeps, Or.inl hopens⟩
  refine (confines_ensureHome now hroot _ _ hstart).mapError.bind fun _ u _ hu hway => ?_
  refine Confines.bind (Q := fun target v => target = canonical (place ++ [name]) ∧ v = u)
    (confines_pure hu ⟨rfl, rfl⟩) fun target v _ _ hresolved => ?_
  obtain ⟨rfl, rfl⟩ := hresolved
  rw [parentOrDot_canonical, stagingPath_canonical]
  refine (confines_way now hway).mapError.bind fun _ u _ hu hway => ?_
  have hopens : OpensInside (workspacePos cfg.root header.workspaceId) u
      (canonical (stagingPos clock place)) := hway.opens.resolve_right And.left
  refine (confines_create ⟨hu, hway.keeps⟩ fun h => opens_handle hopens h).mapError.bind
    fun handle u _ _ hfile => ?_
  refine (confines_receiveChunks cred now hfile rest 0).bind fun count u _ hu hfile => ?_
  refine (confines_installObject cred now ⟨hu, hfile.keeps⟩ clock header name count).bind
    fun response u _ hu hends => ?_
  refine Confines.bind (Q := fun _ _ => True) ?_ fun _ v _ hv _ => confines_pure hv trivial
  refine confines_ignore hu (hu.exec fun p hp => ?_) trivial
  rcases hslot : u.slot cred (canonical (stagingPos clock place)) with _ | ⟨d, n⟩
  · simp only [FileTree.touched, hslot, List.not_mem_nil] at hp
  · simp only [FileTree.touched, hslot, List.mem_singleton] at hp
    rw [hp]
    exact (hends d (leadsIn_of_slot hslot).1).trans (List.prefix_append _ _)

end ImportCall

end Scriptorium
