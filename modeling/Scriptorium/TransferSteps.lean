import Scriptorium.KeptWay

/-!
# The steps of a transfer

What the parts of a fetch or an import keep, stopped at any point: making the way
(`Arriving`), calls on entries of the directory of the target (`Sweeps`), and writing to a
file that has been opened in the workspace (`Receiving`).
-/

namespace Scriptorium

open Posix Effects

/-! ### Parts of a transfer -/

/-- A part of a transfer, stopped at any point, has changed nothing outside the workspace, and
    where it succeeds it leaves the tree as `Q` says. -/
def Confines {ε α : Type} (cred : Cred) (now : Nat) (ws : Pos) (t : FileTree) (m : Fs ε α)
    (s : FileTree) (Q : α → FileTree → Prop) : Prop :=
  (∀ s', m.Stops (FileTree.exec cred now) s s' → SameOutside ws t s') ∧
    ∀ a u, m.run (FileTree.exec cred now) s = (some (.ok a), u) → Q a u

section Confines

variable {ε ε' α β : Type} {cred : Cred} {now : Nat} {ws : Pos} {t s : FileTree} {m : Fs ε α}
  {Q : α → FileTree → Prop} {R : β → FileTree → Prop} {c : FsCall}

theorem confines_pure {a : α} (hs : SameOutside ws t s) (h : Q a s) :
    Confines cred now ws t (pure a : Fs ε α) s Q := by
  refine ⟨fun s' hstop => hstop.of_done ▸ hs, fun b u hrun => ?_⟩
  obtain ⟨hresult, rfl⟩ := Prod.mk.inj hrun
  rwa [← Except.ok.inj (Option.some.inj hresult)]

theorem confines_throw {e : ε} (hs : SameOutside ws t s) :
    Confines cred now ws t (Prog.throw e : Fs ε α) s Q :=
  ⟨fun _ hstop => hstop.of_done ▸ hs, fun _ _ hrun => by cases congrArg Prod.fst hrun⟩

theorem Confines.bind {f : α → Fs ε β} (hm : Confines cred now ws t m s Q)
    (hf : ∀ a u, m.run (FileTree.exec cred now) s = (some (.ok a), u) → SameOutside ws t u →
      Q a u → Confines cred now ws t (f a) u R) : Confines cred now ws t (m >>= f) s R := by
  have hnext : ∀ a u, m.run (FileTree.exec cred now) s = (some (.ok a), u) →
      Confines cred now ws t (f a) u R := by
    intro a u hrun
    refine hf a u hrun (hm.1 u ?_) (hm.2 a u hrun)
    have hstop : m.Stops (FileTree.exec cred now) s _ := Prog.stops_run m s
    rwa [hrun] at hstop
  constructor
  · intro s' hstop
    rcases hstop.of_bind with hfirst | ⟨a, u, hrun, hsecond⟩
    · exact hm.1 s' hfirst
    · exact (hnext a u hrun).1 s' hsecond
  · intro b v hrun
    obtain ⟨a, u, hfirst, hsecond⟩ := Prog.run_bind_eq_ok _ hrun
    exact (hnext a u hfirst).2 b v hsecond

theorem Confines.mapError {f : ε → ε'} (hm : Confines cred now ws t m s Q) :
    Confines cred now ws t (m.mapError f) s Q :=
  ⟨fun s' hstop => hm.1 s' hstop.of_mapError,
    fun a u hrun => hm.2 a u (Prog.run_mapError_eq_ok _ hrun)⟩

theorem Confines.mono {Q' : α → FileTree → Prop} (hm : Confines cred now ws t m s Q)
    (h : ∀ a u, m.run (FileTree.exec cred now) s = (some (.ok a), u) → Q a u → Q' a u) :
    Confines cred now ws t m s Q' :=
  ⟨hm.1, fun a u hrun => h a u hrun (hm.2 a u hrun)⟩

/-- Programs whose calls all keep an invariant. -/
theorem confines_of_within {P : FsCall → Prop} {A : (c : FsCall) → c.Reply → Prop}
    {W : α → Prop} {I : FileTree → Prop} (hm : m.Within P A W)
    (hI : ∀ s, I s → SameOutside ws t s)
    (hstep : ∀ c s, P c → I s →
      I (FileTree.exec cred now c s).2 ∧ A c (FileTree.exec cred now c s).1) (hs : I s) :
    Confines cred now ws t m s fun _ u => I u := by
  refine ⟨fun s' hstop => hI s' (hm.keeps_stops hstep hs hstop), fun a u hrun => ?_⟩
  have hkeeps : I (m.run (FileTree.exec cred now) s).2 := hm.keeps hstep hs
  rwa [hrun] at hkeeps

/-- A call, by what it does. -/
theorem confines_sys {Q : c.Out → FileTree → Prop} (hs : SameOutside ws t s)
    (hs' : SameOutside ws t (FileTree.exec cred now c s).2)
    (hok : ∀ out, (FileTree.exec cred now c s).1 = .ok out → Q out (FileTree.exec cred now c s).2) :
    Confines cred now ws t (sys c) s Q := by
  constructor
  · rintro s' ⟨n, rfl⟩
    cases n with
    | zero => exact hs
    | succ n =>
      have hstate : Prog.stopAfter (FileTree.exec cred now) (n + 1) (sys c) s =
          (FileTree.exec cred now c s).2 := by
        simp only [sys, Prog.stopAfter]
        split <;> cases n <;> rfl
      rwa [hstate]
  · intro a u hrun
    have hexec := exec_of_run_sys_ok hrun
    have hQ := hok a (congrArg Prod.fst hexec)
    rwa [hexec] at hQ

theorem confines_ignore {Q : Unit → FileTree → Prop} (hs : SameOutside ws t s)
    (hs' : SameOutside ws t (FileTree.exec cred now c s).2)
    (hQ : Q () (FileTree.exec cred now c s).2) :
    Confines cred now ws t (ignore (sys c) : Fs ε Unit) s Q := by
  have hcall : Confines cred now ws t (sys c) s fun _ _ => True :=
    confines_sys hs hs' fun _ _ => trivial
  constructor
  · intro s' hstop
    rcases hstop.of_bind with hfirst | ⟨r, u, hrun, hsecond⟩
    · exact hcall.1 s' hfirst.of_attempt
    · have hstate : (FileTree.exec cred now c s).2 = u := by
        rw [← run_sys_state, Prog.run_attempt_eq_ok _ hrun]
      rwa [hsecond.of_done, ← hstate]
  · intro a u hrun
    rwa [run_ignore_sys_ok hrun]

end Confines

/-! ### The way to a target -/

/-- The way to an entry of a directory at or below the home, or of the one the home is in. -/
def Arriving (cred : Cred) (root id : String) (place : Pos) (unlinks : Prop) (x : String)
    (t s : FileTree) : Prop :=
  homePos root id <+: place ∧
      Entering cred (workspacePos root id) (homePos root id) place unlinks x t s ∨
    place = workspacePos root id ∧ SameOutside (workspacePos root id) t s ∧ Housed root id s

section Arriving

variable {cred : Cred} {now : Nat} {root id : String} {t s : FileTree} {place : Pos}
  {unlinks : Prop} {x : String} {c : FsCall}

theorem Arriving.outside (h : Arriving cred root id place unlinks x t s) :
    SameOutside (workspacePos root id) t s := by
  rcases h with ⟨-, h⟩ | ⟨-, h, -⟩
  · exact h.outside
  · exact h

theorem Arriving.keeps (h : Arriving cred root id place unlinks x t s) :
    KeepsInside (workspacePos root id) place s := by
  rcases h with ⟨-, h⟩ | ⟨rfl, -, h⟩
  · exact h.keeps
  · exact h.keepsInside

theorem Arriving.opens (h : Arriving cred root id place unlinks x t s) :
    OpensInside (workspacePos root id) s (canonical (place ++ [x])) ∨
      unlinks ∧ MayChange cred place s := by
  rcases h with ⟨-, h⟩ | ⟨rfl, -, h⟩
  · exact h.opens
  · exact Or.inl (h.opensInside x)

theorem Enters.trans {home way place : Pos} (h : Enters home place c) (hway : place <+: way) :
    Enters home way c :=
  h.imp_left fun ⟨p, hp, hc⟩ => ⟨p, hp.trans hway, hc⟩

theorem arriving_exec (hc : Enters (homePos root id) place c ∨
      Enters (homePos root id) (homePos root id) c)
    (h : Arriving cred root id place unlinks x t s) :
    Arriving cred root id place unlinks x t (FileTree.exec cred now c s).2 := by
  rcases h with ⟨hhome, h⟩ | ⟨rfl, h⟩
  · exact Or.inl ⟨hhome, entering_exec hhome (hc.elim (fun hc => hc) fun hc => hc.trans hhome) h⟩
  · have hhome : workspacePos root id <+: homePos root id := by
      rw [homePos_eq]
      exact List.prefix_append _ _
    exact Or.inr ⟨rfl, housed_exec (hc.elim (fun hc => hc.trans hhome) fun hc => hc) h⟩

theorem enters_createDirAll (home : Pos) {p : Pos} (hp : p <+: place) :
    (createDirAll (canonical p)).Within (Enters home place) (fun _ _ => True) fun _ => True :=
  within_createDirAll_canonical hp fun q hq =>
    ⟨Or.inl ⟨q, hq, Or.inl rfl⟩, Or.inl ⟨q, hq, Or.inr rfl⟩⟩

/-- What is at hand when a transfer is to open its file. -/
theorem arriving_start (hhoused : Housed root id t)
    (hplace : homePos root id <+: place ∨ place = workspacePos root id)
    (hinside : homePos root id <+: place → KeepsInside (workspacePos root id) place t ∧
      (OpensInside (workspacePos root id) t (canonical (place ++ [x])) ∨
        unlinks ∧ MayChange cred place t)) :
    Arriving cred root id place unlinks x t t := by
  rcases hplace with hhome | rfl
  · obtain ⟨hkeeps, hopens⟩ := hinside hhome
    refine Or.inl ⟨hhome, fun _ _ => rfl, fun d hd => ?_, hkeeps, hopens⟩
    rw [hhoused.leads_home hd, homePos_eq]
    exact List.prefix_append _ _
  · exact Or.inr ⟨rfl, fun _ _ => rfl, hhoused⟩

variable (now) in
theorem confines_ensureHome (hroot : RootPath root) (uid gid : Nat)
    (h : Arriving cred root id place unlinks x t s) :
    Confines cred now (workspacePos root id) t (ensureHome root id uid gid) s
      fun _ u => Arriving cred root id place unlinks x t u := by
  refine confines_of_within (A := fun _ _ => True) (W := fun _ => True)
    (within_ensureHome ?_ ?_ ?_) (fun _ hs => hs.outside)
    (fun _ _ hc hs => ⟨arriving_exec (Or.inr hc) hs, trivial⟩) h
  · intro hid
    rw [homePath_eq hroot hid]
    exact enters_createDirAll _ List.prefix_rfl
  · intro hid
    rw [homePath_eq hroot hid]
    exact Or.inr (Or.inl ⟨_, _, rfl⟩)
  · intro hid
    rw [homePath_eq hroot hid]
    exact Or.inr (Or.inr rfl)

variable (now) in
theorem confines_way (h : Arriving cred root id place unlinks x t s) :
    Confines cred now (workspacePos root id) t (createDirAll (canonical place)) s
      fun _ u => Arriving cred root id place unlinks x t u :=
  confines_of_within (enters_createDirAll _ List.prefix_rfl) (fun _ hs => hs.outside)
    (fun _ _ hc hs => ⟨arriving_exec (Or.inl hc) hs, trivial⟩) h

end Arriving

/-! ### Entries of the directory -/

/-- The calls that make the way to a directory, ask, and remove entries of it. -/
def Sweeps (place : Pos) : FsCall → Prop
  | .mkdir path => ∃ p, (p <+: place ∨ ∃ x, p = place ++ [x]) ∧ path = canonical p
  | .fileType _ | .read _ | .readDir _ => True
  | .removeDirAll path | .unlink path => ∃ x, path = canonical (place ++ [x])
  | _ => False

section Sweep

variable {cred : Cred} {now : Nat} {ws place : Pos} {t s u : FileTree} {c : FsCall} {x : String}

/-- When something has gone, a path that leads on leads where it led. -/
theorem leadsTo_removed {d e : Pos} {n : String} {path : PathBuf}
    (h : leadsTo (s.removeAt d n) path = .ok e) : leadsTo s path = .ok e := by
  apply walk_extend _ h
  intro q hq
  rw [Ne, FileTree.look_eq_absent, FileTree.get?_removeAt] at hq
  apply FileTree.look_congr
  rw [FileTree.get?_removeAt]
  split
  · rename_i hpre
    rw [if_pos hpre] at hq
    exact absurd rfl hq
  · rfl

theorem leadsIn_removed {d e : Pos} {n : String} {path : PathBuf}
    (h : LeadsIn (s.removeAt d n) path e) : LeadsIn s path e := by
  refine ⟨leadsTo_removed h.1, ?_⟩
  have hdir := h.2
  rw [FileTree.isDir, FileTree.get?_removeAt] at hdir
  split at hdir
  · cases hdir
  · exact hdir

theorem KeepsInside.removed (h : KeepsInside ws place s) {d : Pos} {n : String}
    (hd : LeadsIn s (canonical place) d) : KeepsInside ws place (s.removeAt d n) where
  ends e he := h.ends e (leadsIn_removed he)
  made p m e hp he hnone := by
    rw [FileTree.get?_removeAt] at hnone
    split at hnone
    · rename_i hpre
      exact ((h.ends d hd).trans (List.prefix_append _ _)).trans hpre
    · exact h.made p m e hp (leadsIn_removed he) hnone

/-- Nothing outside is changed, and the directory's path keeps to the workspace. -/
def Kept (ws place : Pos) (t s : FileTree) : Prop := SameOutside ws t s ∧ KeepsInside ws place s

theorem Kept.removed (h : Kept ws place t s) {d : Pos} {n : String}
    (hd : LeadsIn s (canonical place) d) : Kept ws place t (s.removeAt d n) := by
  refine ⟨fun q hq => ?_, h.2.removed hd⟩
  rw [FileTree.get?_removeAt, if_neg]
  · exact h.1 q hq
  · exact fun hpre => hq (((h.2.ends d hd).trans (List.prefix_append _ _)).trans hpre)

/-- What is made at an entry is in the workspace. -/
theorem Kept.made (h : Kept ws place t s) {p d : Pos} {n : String} {attrs : Attrs}
    (hp : p <+: place ∨ ∃ x, p = place ++ [x]) (hslot : s.slot cred (canonical p) = .ok (d, n))
    (hfree : s.get? (d ++ [n]) = none)
    (hget : ∀ q, u.get? q = if q = d ++ [n] then some ⟨.dir, attrs⟩ else s.get? q) :
    Kept ws place t u := by
  have hsame : ws <+: d ++ [n] → SameOutside ws t u := by
    intro hin q hq
    rw [hget, if_neg]
    · exact h.1 q hq
    · rintro rfl
      exact hq hin
  rcases hp with hp | ⟨x, rfl⟩
  · obtain ⟨hin, hkeeps⟩ := h.2.mkdir hslot hfree hget hp
    exact ⟨hsame hin, hkeeps⟩
  · obtain ⟨hd, rfl⟩ := leadsIn_of_slot hslot
    have hin := h.2.ends d hd
    exact ⟨hsame (hin.trans (List.prefix_append _ _)),
      .of_leads (walk_extend (fun q hq => look_made hfree hget hq) hd.1) hin⟩

variable (cred now) in
theorem Kept.exec (hc : Sweeps place c) (h : Kept ws place t s) :
    Kept ws place t (FileTree.exec cred now c s).2 := by
  cases c with
  | mkdir path =>
    obtain ⟨p, hp, rfl⟩ := hc
    simp only [FileTree.exec]
    rcases FileTree.mkdir_cases cred now s (canonical p) with
      ⟨e, he⟩ | ⟨d, n, hdir, hfree, hname, hslot, hadd⟩
    · rwa [he]
    · rw [hadd]
      have hget : ∀ q,
          (s.add d n ⟨.dir, FileTree.newAttrs cred now 0o777⟩ hdir hfree hname).get? q =
            if q = d ++ [n] then some ⟨.dir, FileTree.newAttrs cred now 0o777⟩ else s.get? q :=
        fun _ => FileTree.get?_add
      exact h.made hp hslot hfree hget
  | fileType path => exact h
  | read path => exact h
  | readDir path => exact h
  | removeDirAll path =>
    obtain ⟨x, rfl⟩ := hc
    simp only [FileTree.exec]
    rcases FileTree.removeDirAll_cases cred s (canonical (place ++ [x])) with
      ⟨e, he⟩ | ⟨d, n, _, hslot, -, hremove⟩
    · rwa [he]
    · rw [hremove]
      exact h.removed (leadsIn_of_slot hslot).1
  | unlink path =>
    obtain ⟨x, rfl⟩ := hc
    simp only [FileTree.exec]
    rcases FileTree.unlink_cases cred s (canonical (place ++ [x])) with
      ⟨e, he⟩ | ⟨d, n, _, hslot, -, -, hremove⟩
    · rwa [he]
    · rw [hremove]
      exact h.removed (leadsIn_of_slot hslot).1
  | _ => exact hc.elim

theorem sweeps_createDirAll {p : Pos} (hp : p <+: place ∨ ∃ x, p = place ++ [x]) :
    (createDirAll (canonical p)).Within (Sweeps place) (fun _ _ => True) fun _ => True := by
  apply within_createDirAll_canonical List.prefix_rfl
  intro q hq
  refine ⟨⟨q, ?_, rfl⟩, trivial⟩
  rcases hp with hp | ⟨x, rfl⟩
  · exact Or.inl (hq.trans hp)
  · rcases List.prefix_concat_iff.mp hq with rfl | hq
    · exact Or.inr ⟨x, rfl⟩
    · exact Or.inl hq

variable (cred now) in
/-- Programs that make only such calls. -/
theorem confines_sweeps {ε α : Type} {m : Fs ε α} {W : α → Prop}
    (hm : m.Within (Sweeps place) (fun _ _ => True) W) (h : Kept ws place t s) :
    Confines cred now ws t m s fun _ u => Kept ws place t u :=
  confines_of_within hm (fun _ hs => hs.1) (fun _ _ hc hs => ⟨Kept.exec cred now hc hs, trivial⟩) h

end Sweep

/-! ### Writing a file -/

/-- A file is open in the workspace, and found at its path. -/
structure Receiving (ws place : Pos) (x : String) (handle : Pos) (t s : FileTree) : Prop where
  outside : SameOutside ws t s
  there : ∃ d, leadsTo s (canonical place) = .ok d ∧ ws <+: d
  inside : ws <+: handle
  found : s.target onlooker (canonical (place ++ [x])) = .ok (.found handle)
  other : s.look onlooker handle = .other

section Writing

variable {cred : Cred} {now : Nat} {ws place handle : Pos} {x : String} {t s u : FileTree}

theorem Receiving.keeps (h : Receiving ws place x handle t s) : KeepsInside ws place s := by
  obtain ⟨d, hlead, hd⟩ := h.there
  exact .of_leads hlead hd

/-- What is done to the file alone. -/
theorem Receiving.of_same (h : Receiving ws place x handle t s)
    (hsame : ∀ q, q ≠ handle → u.get? q = s.get? q) (hother : u.look onlooker handle = .other) :
    Receiving ws place x handle t u := by
  have hlook : u.look onlooker = s.look onlooker := by
    funext q
    by_cases hq : q = handle
    · rw [hq, hother, h.other]
    · exact FileTree.look_congr (hsame q hq)
  refine ⟨fun q hq => ?_, ?_, h.inside, ?_, hother⟩
  · rw [hsame q, h.outside q hq]
    rintro rfl
    exact hq h.inside
  · rw [leadsTo, hlook]
    exact h.there
  · rw [FileTree.target, hlook]
    exact h.found

theorem Receiving.write (h : Receiving ws place x handle t s) (data : List UInt8) :
    Receiving ws place x handle t (s.write now handle data) := by
  rcases FileTree.write_cases now s handle data with he | ⟨old, holes, attrs, hnode, hset⟩
  · rwa [he]
  · rw [hset]
    apply h.of_same
    · intro q hq
      rw [FileTree.get?_setData, if_neg hq]
    · simp [FileTree.look, FileTree.get?_setData, hnode, Node.withData, Node.view]

/-- A new file is opened, or one that was there. -/
theorem file_of_create {path : PathBuf}
    (h : FileTree.exec cred now (.create path) s = (.ok handle, u)) {node : Node}
    (hnode : s.get? handle = some node) : ∃ data holes, node.kind = .file data holes := by
  simp only [FileTree.exec] at h
  rcases FileTree.create_cases cred now s path with
    ⟨e, he⟩ | ⟨d, n, _, hfree, _, -, hadd⟩ | ⟨p, data, holes, attrs, -, hfile, hset⟩
  · rw [he] at h
    cases h
  · rw [hadd] at h
    obtain rfl := Except.ok.inj (congrArg Prod.fst h)
    rw [hfree] at hnode
    cases hnode
  · rw [hset] at h
    obtain rfl := Except.ok.inj (congrArg Prod.fst h)
    rw [hfile] at hnode
    rw [← Option.some.inj hnode]
    exact ⟨data, holes, rfl⟩

theorem target_of_create {path : PathBuf}
    (h : FileTree.exec cred now (.create path) s = (.ok handle, u)) :
    ∃ found, s.target cred path = .ok found := by
  simp only [FileTree.exec] at h
  rcases FileTree.create_cases cred now s path with
    ⟨e, he⟩ | ⟨d, n, _, _, _, htarget, -⟩ | ⟨p, _, _, _, htarget, -, -⟩
  · rw [he] at h
    cases h
  · exact ⟨_, htarget⟩
  · exact ⟨_, htarget⟩

theorem opens_handle {path : PathBuf} (hopens : OpensInside ws s path)
    (h : FileTree.exec cred now (.create path) s = (.ok handle, u)) : ws <+: handle := by
  obtain ⟨found, htarget, hplace, -⟩ := opened_by_create h
  rcases hopens found htarget with hin | ⟨node, hnode, hnot⟩
  · rwa [← hplace]
  · rw [hplace] at hnode
    obtain ⟨data, holes, hkind⟩ := file_of_create h hnode
    exact absurd hkind (hnot data holes)

/-- A file that is opened in the workspace is found at its path from then on. -/
theorem receiving_create (hs : Kept ws place t s) (hinside : ws <+: handle)
    (h : FileTree.exec cred now (.create (canonical (place ++ [x]))) s = (.ok handle, u)) :
    Receiving ws place x handle t u := by
  obtain ⟨attrs, hempty, -⟩ := node_of_create cred h
  obtain ⟨found, htarget, hplace, hstate⟩ := opened_by_create h
  have hother : u.look onlooker handle = .other := by
    simp [FileTree.look, hempty, Node.view]
  have hget : ∀ q, q ≠ handle → u.get? q = s.get? q := fun q hq => get?_of_create h hq
  obtain ⟨d, hlead⟩ : ∃ d, LeadsIn s (canonical place) d := by
    rw [canonical_concat] at htarget
    obtain ⟨d, hwalk, hsearch, -⟩ := resolve_entry htarget
    exact ⟨d, hwalk, FileTree.isDir_of_look hsearch⟩
  have hlook : ∀ q, q ≠ handle → u.look onlooker q = s.look onlooker q :=
    fun q hq => FileTree.look_congr (hget q hq)
  have hsee : ∀ q, s.look onlooker q ≠ .absent → u.look onlooker q = s.look onlooker q := by
    intro q hq
    by_cases heq : q = handle
    · subst heq
      rcases hstate with ⟨habsent, -⟩ | ⟨hthere, -⟩
      · exact absurd habsent hq
      · rw [hother, hthere]
    · exact hlook q heq
  refine ⟨fun q hq => ?_, ⟨d, walk_extend hsee hlead.1, hs.2.ends d hlead⟩, hinside, ?_, hother⟩
  · rw [hget q, hs.1 q hq]
    rintro rfl
    exact hq hinside
  · rcases hstate with ⟨habsent, d', n, rfl⟩ | ⟨-, rfl⟩
    · obtain rfl : d' ++ [n] = handle := hplace
      exact (resolve_added habsent hother hlook htarget).1
    · have hcongr := @resolve_congr (s.look onlooker) (u.look onlooker) maxLinks []
        (canonical (place ++ [x])) fun q hq =>
          (hsee q (ne_absent_of_mem_looks htarget q hq)).symm
      exact hcongr.1.symm.trans htarget

/-- What is opened after the entry has been removed, where that was possible. -/
theorem unlinked_handle (hs : KeepsInside ws place s)
    (hopens : OpensInside ws s (canonical (place ++ [x])) ∨ MayChange cred place s)
    (h : FileTree.exec cred now (.create (canonical (place ++ [x])))
      (FileTree.exec cred now (.unlink (canonical (place ++ [x]))) s).2 = (.ok handle, u)) :
    ws <+: handle := by
  rcases FileTree.unlink_cases cred s (canonical (place ++ [x])) with
    ⟨e, he⟩ | ⟨d, n, _, hslot, -, -, hremove⟩
  · have hstate : (FileTree.exec cred now (.unlink (canonical (place ++ [x]))) s).2 = s := by
      simp only [FileTree.exec, he]
    rw [hstate] at h
    rcases hopens with hopens | hmay
    · exact opens_handle hopens h
    obtain ⟨d, hwalk, hsearch⟩ : ∃ d, walk (s.look cred) maxLinks [] (canonical place) = .ok d ∧
        s.look cred d = .dir true := by
      obtain ⟨found, htarget⟩ := target_of_create h
      rw [canonical_concat] at htarget
      obtain ⟨d, hwalk, hsearch, -⟩ := resolve_entry htarget
      exact ⟨d, hwalk, hsearch⟩
    have hd : LeadsIn s (canonical place) d :=
      ⟨FileTree.walk_onlooker hwalk, FileTree.isDir_of_look hsearch⟩
    have hslot : s.slot cred (canonical (place ++ [x])) = .ok (d, x) := by
      rw [canonical_concat]
      exact FileTree.slot_child hwalk hsearch x
    obtain ⟨found, htarget, rfl, -⟩ := opened_by_create h
    rw [canonical_concat] at htarget
    obtain ⟨d', hwalk', -, hlast⟩ := resolve_entry htarget
    obtain rfl := Except.ok.inj (hd.1.symm.trans hwalk')
    have hentry : ws <+: d ++ [x] := (hs.ends d hd).trans (List.prefix_append _ _)
    rcases hlast with ⟨-, rfl⟩ | ⟨path, hlink⟩ | ⟨-, rfl⟩
    · exact hentry
    · -- a link would have been removed
      exfalso
      rcases hnode : s.get? (d ++ [x]) with _ | node
      · rw [FileTree.look_eq_absent.mpr hnode] at hlink
        cases hlink
      · have hdir : node.isDir = false := by
          by_contra hdir
          have hisDir := FileTree.isDir_iff.mpr ⟨node, hnode, by simpa using hdir⟩
          rw [FileTree.look_of_isDir rfl hisDir] at hlink
          cases hlink
        rw [FileTree.unlink, hslot] at he
        simp [hnode, hmay d hd, hdir] at he
    · exact hentry
  · have hstate : (FileTree.exec cred now (.unlink (canonical (place ++ [x]))) s).2 =
        s.removeAt d n := by
      simp only [FileTree.exec, hremove]
    obtain ⟨hd, rfl⟩ := leadsIn_of_slot hslot
    rw [hstate] at h
    refine opens_handle (opensInside_of_empty (hs.removed hd) fun e he => ?_) h
    obtain rfl := Except.ok.inj (hd.1.symm.trans (leadsTo_removed he.1))
    rw [FileTree.get?_removeAt, if_pos List.prefix_rfl]

end Writing

end Scriptorium
