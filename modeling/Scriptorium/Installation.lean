import Scriptorium.Leading

/-!
# What a successful installation has done

The other half of `Replacement`: from a run that ended well, what stands where.  The
archive was unpacked into a bare directory; what stood at the target has gone, and what
was unpacked has come there, a sole directory in one piece and other entries one by one;
neither the directory nor the staging file is left (`extractArchiveAndReplace_ok`).  No
permission is assumed, and the parent's path may pass through links.
-/

namespace Scriptorium

open Posix Effects

section Steps

variable {cred : Cred} {now : Nat} {t s : FileTree} {path : PathBuf} {dir : Pos} {name : String}

/-- A removal that succeeds has taken the entry away, or found nothing. -/
theorem removePathIfExists_ok
    (h : (removePathIfExists path).run (FileTree.exec cred now) t = (some (.ok ()), s)) :
    (∃ dir name, t.slot cred path = .ok (dir, name) ∧ s = t.removeAt dir name) ∨
      s = t ∧ t.find cred path = .error .noent := by
  obtain ⟨r, u, hattempt, hrun⟩ := Prog.run_bind_eq_ok _ h
  have hask := Prog.run_attempt_eq_ok _ hattempt
  obtain rfl : u = t := (congrArg Prod.snd hask).symm.trans run_sys_state
  split at hrun
  · have hexec : u.removeDirAll cred path = (.ok (), s) := exec_of_run_io_ok hrun
    rcases FileTree.removeDirAll_cases cred u path with ⟨e, he⟩ | ⟨dir, name, _, hslot, -, hremove⟩
    · rw [he] at hexec
      cases hexec
    · rw [hremove] at hexec
      exact Or.inl ⟨dir, name, hslot, (congrArg Prod.snd hexec).symm⟩
  · have hexec : u.unlink cred path = (.ok (), s) := exec_of_run_io_ok hrun
    rcases FileTree.unlink_cases cred u path with ⟨e, he⟩ | ⟨dir, name, _, hslot, -, -, hremove⟩
    · rw [he] at hexec
      cases hexec
    · rw [hremove] at hexec
      exact Or.inl ⟨dir, name, hslot, (congrArg Prod.snd hexec).symm⟩
  · obtain ⟨e, heq, hexec⟩ := exec_of_run_sys_error hask
    obtain rfl := IoError.os.inj heq
    refine Or.inr ⟨(congrArg Prod.snd hrun).symm, ?_⟩
    simp only [FileTree.exec, Prod.mk.injEq, and_true] at hexec
    rcases hfind : u.find cred path with e | found
    · rw [hfind, Except.map] at hexec
      rw [Except.error.inj hexec]
    · rw [hfind] at hexec
      cases hexec
  · cases hrun

theorem dirAt_eq_false {e : Errno} (h : t.find cred path = .error e) : dirAt cred t path =
    false := by
  rw [dirAt, h]

theorem mkdir_ok (h : t.mkdir cred now path = (.ok (), s)) :
    ∃ (dir : Pos) (name : String) (hdir : _) (hfree : _) (hname : _),
      t.slot cred path = .ok (dir, name) ∧ t.allows cred dir .write = true ∧
        s = t.add dir name ⟨.dir, FileTree.newAttrs cred now 0o777⟩ hdir hfree hname := by
  unfold FileTree.mkdir at h
  split at h
  · cases h
  · rename_i dir name hslot
    rcases FileTree.addEntry_cases cred t dir name ⟨.dir, FileTree.newAttrs cred now 0o777⟩ with
      ⟨e, he⟩ | ⟨hdir, hfree, hname, hwrite, hadd⟩
    · rw [he] at h
      cases h
    · rw [hadd] at h
      exact ⟨dir, name, hdir, hfree, hname, hslot, hwrite, (congrArg Prod.snd h).symm⟩

/-- Where the directory of an entry is missing, its path leads nowhere. -/
theorem find_parent_of_slot (h : t.slot cred path = .error .noent) :
    ∃ (parent : PathBuf) (name : String), path = parent ++ [.normal name] ∧
      Posix.walk (t.look cred) maxLinks [] parent = .error .noent := by
  unfold FileTree.slot at h
  split at h
  · rename_i name hlast
    refine ⟨path.dropLast, name, (List.dropLast_append_getLast? _ hlast).symm, ?_⟩
    split at h
    · rename_i hwalk
      rw [hwalk, Except.error.inj h]
    · rename_i dir hwalk
      have hsome := FileTree.isSome_of_walk (FileTree.isSome_of_isDir FileTree.isDir_root) hwalk
      split at h
      · rename_i hsearch
        obtain rfl := Except.error.inj h
        unfold search at hsearch
        split at hsearch
        · rename_i habsent
          rw [FileTree.look_eq_absent.mp habsent] at hsome
          cases hsome
        · cases hsearch
        · cases hsearch
        · cases hsearch
      · cases h
  · cases h

theorem run_isDir_ok {e : IoError}
    (h : (do if ← isDir path then pure () else Prog.throw e : Fs IoError Unit).run
      (FileTree.exec cred now) t = (some (.ok ()), s)) : dirAt cred t path = true ∧ s = t := by
  rw [Prog.run_bind, run_isDir] at h
  rcases hdir : dirAt cred t path with _ | _
  · rw [hdir] at h
    cases congrArg Prod.fst h
  · rw [hdir] at h
    exact ⟨rfl, (congrArg Prod.snd h).symm⟩

/-- Nothing is found in a new directory. -/
theorem dirAt_in_new {parent : PathBuf} {hdir hfree hname} {attrs : Attrs} {last : String}
    (hslot : t.slot cred parent = .ok (dir, name)) :
    dirAt cred (t.add dir name ⟨.dir, attrs⟩ hdir hfree hname) (parent ++ [.normal last]) =
      false := by
  let v := t.add dir name ⟨.dir, attrs⟩ hdir hfree hname
  have hget : ∀ q, v.get? q = if q = dir ++ [name] then some ⟨.dir, attrs⟩ else t.get? q :=
    fun q => FileTree.get?_add
  obtain ⟨hpath, -, -⟩ := FileTree.slot_eq_ok hslot
  have hlead : FileTree.Leads cred v parent.dropLast dir [name] := by
    rw [hpath] at hslot
    apply ((FileTree.leads_of_slot hslot).free hfree).of_same
    intro q hq
    rw [hget, if_neg]
    rintro rfl
    exact hq name (List.mem_singleton_self name) List.prefix_rfl
  have hplace : v.get? (dir ++ [name]) = some ⟨.dir, attrs⟩ := by rw [hget, if_pos rfl]
  have hchild := hlead.child hplace rfl
  rw [← hpath] at hchild
  rcases hfind : v.find cred (parent ++ [.normal last]) with e | ⟨p, node⟩
  · exact dirAt_eq_false hfind
  · exfalso
    obtain ⟨d, hwalk, -, hpresent⟩ := walk_concat (FileTree.find_eq_ok hfind).1
    obtain rfl := Except.ok.inj (hchild.symm.trans hwalk)
    apply hpresent
    rw [FileTree.look_eq_absent, hget, if_neg (by simp)]
    exact FileTree.get?_none_below hfree (List.prefix_append _ _)

/-- A directory that was not there has been made by the last call, under a free name. -/
theorem createDirAllWithin_makes {n : Nat} (hn : n ≠ 0) (hnot : dirAt cred t path = false)
    (h : (createDirAllWithin n path).run (FileTree.exec cred now) t = (some (.ok ()), s)) :
    ∃ (u : FileTree) (dir : Pos) (name : String) (hdir : _) (hfree : _) (hname : _),
      u.slot cred path = .ok (dir, name) ∧ u.allows cred dir .write = true ∧
        s = u.add dir name ⟨.dir, FileTree.newAttrs cred now 0o777⟩ hdir hfree hname := by
  have hask : ∀ {path : PathBuf} {u v : FileTree} {e : IoError}, dirAt cred u path = false →
      (do if ← isDir path then pure () else Prog.throw e : Fs IoError Unit).run
        (FileTree.exec cred now) u ≠ (some (.ok ()), v) := by
    intro path u v e hfalse hrun
    rw [(run_isDir_ok hrun).1] at hfalse
    cases hfalse
  induction n generalizing path s with
  | zero => exact absurd rfl hn
  | succ n ih =>
    rw [createDirAllWithin] at h
    obtain ⟨r, u, hattempt, hrest⟩ := Prog.run_bind_eq_ok _ h
    have hmkdir := Prog.run_attempt_eq_ok _ hattempt
    rcases r with e | _
    · obtain ⟨e, rfl, hexec⟩ := exec_of_run_sys_error hmkdir
      obtain rfl := (FileTree.exec_error hexec).symm
      split at hrest
      · rename_i heq
        cases heq
      · rename_i heq
        obtain rfl := IoError.os.inj (Except.error.inj heq)
        have hslot : t.slot cred path = .error .noent := by
          rcases hslot : t.slot cred path with e | ⟨dir, name⟩
          · have hreply := congrArg Prod.fst hexec
            simp only [FileTree.exec, FileTree.mkdir, hslot] at hreply
            rw [Except.error.inj hreply]
          · exact absurd rfl (FileTree.mkdir_error_ne now hslot (congrArg Prod.fst hexec))
        obtain ⟨parent, last, rfl, hwalk⟩ := find_parent_of_slot hslot
        simp only [parent_concat] at hrest
        obtain ⟨_, v, habove, hagain⟩ := Prog.run_bind_eq_ok _ hrest
        obtain ⟨r, w, hattempt, hlast⟩ := Prog.run_bind_eq_ok _ hagain
        have hmkdir' := Prog.run_attempt_eq_ok _ hattempt
        rcases r with e | _
        · obtain ⟨e', rfl, hexec'⟩ := exec_of_run_sys_error hmkdir'
          obtain rfl := (FileTree.exec_error hexec').symm
          refine absurd hlast (hask ?_)
          by_cases hzero : n = 0
          · subst hzero
            obtain rfl : t = v := congrArg Prod.snd habove
            exact hnot
          · -- the directory above is new, so nothing is in it
            have hnot' : dirAt cred t parent = false := by
              apply dirAt_eq_false
              rw [FileTree.find, hwalk]
            obtain ⟨u, dir, name, hdir, hfree, hname, hslot', -, rfl⟩ := ih hzero hnot' habove
            exact dirAt_in_new hslot'
        · obtain rfl : w = s := congrArg Prod.snd hlast
          obtain ⟨dir, name, hdir, hfree, hname, hslot', hwrite, hadd⟩ :=
            mkdir_ok (exec_of_run_sys_ok hmkdir')
          exact ⟨v, dir, name, hdir, hfree, hname, hslot', hwrite, hadd⟩
      · exact absurd hrest (hask hnot)
    · obtain rfl : u = s := congrArg Prod.snd hrest
      obtain ⟨dir, name, hdir, hfree, hname, hslot, hwrite, hadd⟩ :=
        mkdir_ok (exec_of_run_sys_ok hmkdir)
      exact ⟨t, dir, name, hdir, hfree, hname, hslot, hwrite, hadd⟩

/-- An entry of a directory that is found needs one call. -/
theorem createDirAll_entry (hslot : t.slot cred path = .ok (dir, name))
    (hnot : dirAt cred t path = false)
    (h : (createDirAll path).run (FileTree.exec cred now) t = (some (.ok ()), s)) :
    t.allows cred dir .write = true ∧ ∃ hdir hfree hname,
      s = t.add dir name ⟨.dir, FileTree.newAttrs cred now 0o777⟩ hdir hfree hname := by
  obtain ⟨n, hn⟩ : ∃ n, path.length = n + 1 := by
    rw [(FileTree.slot_eq_ok hslot).1]
    exact ⟨path.dropLast.length, by simp⟩
  rw [createDirAll, hn, createDirAllWithin] at h
  obtain ⟨r, u, hattempt, hrest⟩ := Prog.run_bind_eq_ok _ h
  have hmkdir := Prog.run_attempt_eq_ok _ hattempt
  have hask : ∀ {e : IoError},
      (do if ← isDir path then pure () else Prog.throw e : Fs IoError Unit).run
      (FileTree.exec cred now) t ≠ (some (.ok ()), s) := by
    intro e hrun
    rw [(run_isDir_ok hrun).1] at hnot
    cases hnot
  rcases r with e | _
  · obtain ⟨e, rfl, hexec⟩ := exec_of_run_sys_error hmkdir
    obtain rfl := (FileTree.exec_error hexec).symm
    split at hrest
    · rename_i heq
      cases heq
    · rename_i heq
      exact absurd (IoError.os.inj (Except.error.inj heq))
        (FileTree.mkdir_error_ne now hslot (congrArg Prod.fst hexec))
    · exact absurd hrest hask
  · obtain rfl : u = s := congrArg Prod.snd hrest
    obtain ⟨dir', name', hdir, hfree, hname, hslot', hwrite, hadd⟩ :=
      mkdir_ok (exec_of_run_sys_ok hmkdir)
    obtain ⟨rfl, rfl⟩ := Prod.mk.inj (Except.ok.inj (hslot'.symm.trans hslot))
    exact ⟨hwrite, hdir, hfree, hname, hadd⟩

/-- A rename between two entries that succeeds has moved the one to the other. -/
theorem rename_moves {src dst : PathBuf} {srcDir : Pos} {srcName : String}
    (hsrc : t.slot cred src = .ok (srcDir, srcName)) (hdst : t.slot cred dst = .ok (dir, name))
    (hne : srcDir ++ [srcName] ≠ dir ++ [name]) (h : t.rename cred src dst = (.ok (), s)) :
    FileTree.Moved t s (srcDir ++ [srcName]) (dir ++ [name]) ∧ t.allows cred dir .write = true ∧
      ∃ node, t.get? (srcDir ++ [srcName]) = some node ∧
        t.renameCheck cred (srcDir ++ [srcName]) node (srcDir != dir) (dir ++ [name]) = .ok () := by
  unfold FileTree.rename at h
  simp only [hsrc, hdst] at h
  split at h
  · cases h
  · rename_i node hnode
    unfold FileTree.renameAt at h
    rw [if_neg hne] at h
    split at h
    · cases h
    split at h
    · cases h
    split at h
    · split at h
      · split at h
        · rename_i hwrite
          split at h
          · cases h
          · rename_i hcheck
            obtain rfl : _ = s := congrArg Prod.snd h
            refine ⟨fun q => ?_, (Bool.and_eq_true_iff.mp hwrite).2, node, hnode, hcheck⟩
            rw [FileTree.get?_replaceAt, List.length_append, List.length_singleton]
        · cases h
      · cases h
    · cases h

theorem run_ignore_sys_ok {ε : Type} {c : FsCall}
    (h : (ignore (sys c) : Fs ε Unit).run (FileTree.exec cred now) t = (some (.ok ()), s)) :
    s = (FileTree.exec cred now c t).2 := by
  obtain ⟨r, u, hattempt, hdone⟩ := Prog.run_bind_eq_ok _ h
  obtain rfl : u = s := congrArg Prod.snd hdone
  exact (congrArg Prod.snd (Prog.run_attempt_eq_ok _ hattempt)).symm.trans run_sys_state

end Steps

/-! ### Moving what has been extracted -/

section Moving

variable {cred : Cred} {now : Nat} {x t s : FileTree} {parent : PathBuf} {dir : Pos}
  {staging expand name : String}

/-- The two entries between which things are moved, both directories. -/
structure Between (cred : Cred) (t : FileTree) (parent : PathBuf) (dir : Pos)
    (expand name : String) :
    Prop where
  lead : FileTree.Leads cred t parent dir [name, expand]
  source : t.isDir (dir ++ [expand]) = true
  target : t.isDir (dir ++ [name]) = true
  apart : expand ≠ name

theorem entries_apart {a b : String} (h : a ≠ b) (q : Pos) : ¬ dir ++ [a] <+: dir ++ [b] ++ q := by
  rw [List.append_assoc, List.prefix_append_right_inj]
  intro hpre
  exact h (List.cons_prefix_cons.mp hpre).1

variable (dir) in
theorem entry_apart {a b : String} (h : a ≠ b) : ¬ dir ++ [a] <+: dir ++ [b] := by
  intro hpre
  exact entries_apart h [] (by rwa [List.append_nil])

theorem slot_between (hlead : FileTree.Leads cred t parent dir [name, expand])
    {entry child : String} (hdir : t.isDir (dir ++ [entry]) = true) {p : Pos} {found : String}
    (hslot : t.slot cred (parent ++ [.normal entry] ++ [.normal child]) = .ok (p, found)) :
    p = dir ++ [entry] ∧ found = child ∧ t.look cred (dir ++ [entry]) = .dir true := by
  obtain ⟨hpath, hwalk, hsearch⟩ := FileTree.slot_eq_ok hslot
  obtain ⟨node, hnode, hkind⟩ := FileTree.isDir_iff.mp hdir
  have hchild := hlead.child hnode (by rw [Node.isLink, Node.isDir_iff.mp hkind])
  rw [List.dropLast_concat] at hwalk hpath
  obtain rfl := Except.ok.inj (hchild.symm.trans hwalk)
  refine ⟨rfl, ?_, hsearch⟩
  have hlast := List.append_cancel_left hpath
  simpa using hlast.symm

/-- One entry is moved to its place under the target. -/
theorem moveEntry_ok (h : Between cred t parent dir expand name) {child : String}
    (hrun : (io (sys (.rename (parent ++ [.normal expand] ++ [.normal child])
      (parent ++ [.normal name] ++ [.normal child])))).run (FileTree.exec cred now) t =
        (some (.ok ()), s)) :
    FileTree.Moved t s (dir ++ [expand] ++ [child]) (dir ++ [name] ++ [child]) ∧
      Between cred s parent dir expand name ∧ t.look cred (dir ++ [expand]) = .dir true := by
  have hrename : t.rename cred (parent ++ [.normal expand] ++ [.normal child])
      (parent ++ [.normal name] ++ [.normal child]) = (.ok (), s) := exec_of_run_io_ok hrun
  obtain ⟨⟨p, found⟩, hsrc⟩ : ∃ r, t.slot cred (parent ++ [.normal expand] ++ [.normal child]) =
      .ok r := by
    unfold FileTree.rename at hrename
    split at hrename
    · cases hrename
    · exact ⟨_, ‹_›⟩
  obtain ⟨⟨p', found'⟩, hdst⟩ : ∃ r, t.slot cred (parent ++ [.normal name] ++ [.normal child]) =
      .ok r := by
    unfold FileTree.rename at hrename
    rw [hsrc] at hrename
    simp only at hrename
    split at hrename
    · cases hrename
    · exact ⟨_, ‹_›⟩
  obtain ⟨rfl, rfl, hsearch⟩ := slot_between h.lead h.source hsrc
  obtain ⟨rfl, rfl, -⟩ := slot_between h.lead h.target hdst
  have hne : dir ++ [expand] ++ [found'] ≠ dir ++ [name] ++ [found'] := by
    intro heq
    exact entries_apart h.apart [found'] (heq ▸ List.prefix_append _ _)
  obtain ⟨hmoved, -, -⟩ := rename_moves hsrc hdst hne hrename
  have hsame : ∀ q, (∀ n ∈ [name, expand], ¬ dir ++ [n] <+: q) → s.get? q = t.get? q := by
    intro q hq
    apply hmoved.other
    · exact fun hpre => hq name (by simp) ((List.prefix_append _ _).trans hpre)
    · exact fun hpre => hq expand (by simp) ((List.prefix_append _ _).trans hpre)
  have hroot : ∀ entry, s.get? (dir ++ [entry]) = t.get? (dir ++ [entry]) := by
    intro entry
    apply hmoved.other
    · exact fun hpre => absurd hpre.length_le (by simp)
    · exact fun hpre => absurd hpre.length_le (by simp)
  refine ⟨hmoved, ⟨h.lead.of_same hsame, ?_, ?_, h.apart⟩, hsearch⟩
  · rw [FileTree.isDir, hroot]
    exact h.source
  · rw [FileTree.isDir, hroot]
    exact h.target

/-- What moving a list of entries has done. -/
structure MovedAll (t s : FileTree) (dir : Pos) (expand name : String)
    (names : List String) : Prop where
  arrived : ∀ n ∈ names, ∀ q, s.get? (dir ++ [name] ++ n :: q) = t.get? (dir ++ [expand] ++ n :: q)
  gone : ∀ n ∈ names, ∀ q, s.get? (dir ++ [expand] ++ n :: q) = none
  same : ∀ q, (∀ n ∈ names, ¬ dir ++ [name] ++ [n] <+: q ∧ ¬ dir ++ [expand] ++ [n] <+: q) →
    s.get? q = t.get? q

/-- By induction on the entries that are left. -/
theorem moveEntries_ok (h : Between cred t parent dir expand name) {names : List String}
    (hnodup : names.Nodup)
    (hrun : (moveEntries (parent ++ [.normal expand]) (parent ++ [.normal name]) names).run
      (FileTree.exec cred now) t = (some (.ok ()), s)) :
    MovedAll t s dir expand name names ∧ Between cred s parent dir expand name ∧
      (names ≠ [] → t.look cred (dir ++ [expand]) = .dir true) := by
  induction names generalizing t with
  | nil =>
    obtain rfl : t = s := congrArg Prod.snd hrun
    refine ⟨⟨fun n hn => ?_, fun n hn => ?_, fun _ _ => rfl⟩, h, fun hne => absurd rfl hne⟩
    · cases hn
    · cases hn
  | cons child names ih =>
    obtain ⟨hfresh, hnodup'⟩ := List.nodup_cons.mp hnodup
    obtain ⟨_, u, hmove, hrest⟩ := Prog.run_bind_eq_ok _ hrun
    obtain ⟨hmoved, hu, hsearch⟩ := moveEntry_ok h hmove
    obtain ⟨hall, hs, -⟩ := ih hu hnodup' hrest
    have hbelow : ∀ (p : Pos) q, p ++ [child] <+: p ++ child :: q := by
      intro p q
      rw [List.prefix_append_right_inj]
      exact List.cons_prefix_cons.mpr ⟨rfl, List.nil_prefix⟩
    -- the entries that follow have other names
    have hother : ∀ {a b : String}, a ≠ b → ∀ (p : Pos) q, ¬ p ++ [a] <+: p ++ b :: q := by
      intro a b hab p q hpre
      rw [List.prefix_append_right_inj] at hpre
      exact hab (List.cons_prefix_cons.mp hpre).1
    have hcross : ∀ {a b : String}, a ≠ b → ∀ n m q,
        ¬ dir ++ [a] ++ [n] <+: dir ++ [b] ++ m :: q := by
      intro a b hab n m q hpre
      exact entries_apart hab (m :: q) ((List.prefix_append _ _).trans hpre)
    have hkept : ∀ q, s.get? (dir ++ [name] ++ child :: q) = u.get? (dir ++ [name] ++ child :: q) ∧
        s.get? (dir ++ [expand] ++ child :: q) = u.get? (dir ++ [expand] ++ child :: q) := by
      intro q
      constructor
      · apply hall.same
        intro n hn
        have hne : n ≠ child := fun heq => hfresh (heq ▸ hn)
        exact ⟨hother hne _ q, hcross h.apart n child q⟩
      · apply hall.same
        intro n hn
        have hne : n ≠ child := fun heq => hfresh (heq ▸ hn)
        exact ⟨hcross h.apart.symm n child q, hother hne _ q⟩
    refine ⟨⟨?_, ?_, ?_⟩, hs, fun _ => hsearch⟩
    · intro n hn q
      rcases List.mem_cons.mp hn with rfl | hn
      · have hsubtree := hmoved.subtree q
        rw [List.append_assoc, List.append_assoc (dir ++ [expand]), List.singleton_append]
          at hsubtree
        rw [(hkept q).1, hsubtree]
      · have hne : child ≠ n := fun heq => hfresh (heq ▸ hn)
        rw [hall.arrived n hn]
        exact hmoved.other (hcross h.apart.symm _ _ _) (hother hne _ q)
    · intro n hn q
      rcases List.mem_cons.mp hn with rfl | hn
      · rw [(hkept q).2]
        exact hmoved.source (hcross h.apart.symm _ _ _) (hbelow _ _)
      · exact hall.gone n hn q
    · intro q hq
      rw [hall.same q fun n hn => hq n (List.mem_cons_of_mem _ hn)]
      exact hmoved.other (hq child List.mem_cons_self).1 (hq child List.mem_cons_self).2

/-- A listing that is answered has been allowed. -/
theorem readDir_allowed {path : PathBuf} {entries : List (String × FileType)} {p : Pos}
    (hwalk : Posix.walk (t.look cred) maxLinks [] path = .ok p)
    (h : t.readDir cred path = .ok entries) :
    t.allows cred p .read = true ∧ entries = t.entries p := by
  unfold FileTree.readDir at h
  split at h
  · cases h
  · rename_i p' node hfind
    obtain ⟨hwalk', hnode⟩ := FileTree.find_eq_ok hfind
    obtain rfl := Except.ok.inj (hwalk.symm.trans hwalk')
    split at h
    · split at h
      · rename_i hmay
        exact ⟨by rw [FileTree.allows, hnode]; exact hmay, (Except.ok.inj h).symm⟩
      · cases h
    · cases h

/-- After the last move: the extraction root is empty, and what remains to be done may be done. -/
structure Emptied (cred : Cred) (t : FileTree) (parent : PathBuf) (dir : Pos)
    (staging expand name : String) :
    Prop extends Between cred t parent dir expand name where
  bare : ∀ first q, t.get? (dir ++ [expand] ++ first :: q) = none
  readable : t.allows cred (dir ++ [expand]) .read = true
  writable : t.allows cred dir .write = true
  staged : staging ≠ name → t.get? (dir ++ [staging]) ≠ none ∧ t.isDir (dir ++ [staging]) = false
  distinct : expand ≠ staging

/-- The extraction root and the staging file are removed. -/
theorem finishExtraction_ok (h : Emptied cred t parent dir staging expand name)
    (hrun : (finishExtraction (parent ++ [.normal staging]) (parent ++ [.normal expand])).run
      (FileTree.exec cred now) t = (some (.ok ()), s)) (q : Pos) :
    s.get? q = if dir ++ [expand] <+: q then none
      else if staging ≠ name ∧ dir ++ [staging] <+: q then none else t.get? q := by
  obtain ⟨_, u, hfirst, hsecond⟩ := Prog.run_bind_eq_ok _ hrun
  obtain rfl := run_ignore_sys_ok hfirst
  obtain rfl := run_ignore_sys_ok hsecond
  have hremove : FileTree.exec cred now (.removeDirAll (parent ++ [.normal expand])) t =
      (.ok (), t.removeAt dir expand) := by
    obtain ⟨node, hnode, hkind⟩ := FileTree.isDir_iff.mp h.source
    have hchildren : t.children (dir ++ [expand]) = [] := by
      rw [List.eq_nil_iff_forall_not_mem]
      intro first hfirst
      rw [FileTree.mem_children, List.append_assoc, List.singleton_append] at hfirst
      have hbare := h.bare first []
      rw [List.append_assoc, List.singleton_append] at hbare
      rw [hbare] at hfirst
      cases hfirst
    have hremovable : t.removable cred (dir ++ [expand]) = true := by
      rw [FileTree.removable_iff]
      rintro p ⟨rest, rfl⟩ hdir
      cases rest with
      | nil =>
        rw [List.append_nil]
        exact ⟨h.readable, Or.inl hchildren⟩
      | cons first rest =>
        rw [FileTree.isDir, h.bare] at hdir
        cases hdir
    simp only [FileTree.exec, FileTree.removeDirAll, h.lead.slot, hnode, Node.isDir_iff.mp hkind,
      h.writable, hremovable, Bool.and_self, if_true]
  have hget : ∀ p, (t.removeAt dir expand).get? p =
      if dir ++ [expand] <+: p then none else t.get? p :=
    fun p => FileTree.get?_removeAt
  have hlead : FileTree.Leads cred (t.removeAt dir expand) parent dir [name, expand] := by
    apply h.lead.of_same
    intro p hp
    rw [hget, if_neg (hp expand (by simp))]
  have hroot : ∀ {entry : String}, entry ≠ expand →
      (t.removeAt dir expand).get? (dir ++ [entry]) = t.get? (dir ++ [entry]) := by
    intro entry hentry
    rw [hget, if_neg (entry_apart dir hentry.symm)]
  have hwritable : (t.removeAt dir expand).allows cred dir .write = true := by
    rw [FileTree.allows, hget, if_neg (not_entry_above dir expand)]
    exact h.writable
  rw [hremove]
  by_cases hname : staging = name
  · -- the target has taken the place of the staging file, and is a directory
    have hrefused : (FileTree.exec cred now (.unlink (parent ++ [.normal staging]))
        (t.removeAt dir expand)).2 = t.removeAt dir expand := by
      obtain ⟨node, hnode, hkind⟩ := FileTree.isDir_iff.mp h.target
      rw [← hroot h.apart.symm, ← hname] at hnode
      simp only [FileTree.exec, FileTree.unlink, hlead.slot, hnode, hwritable, hkind, if_true]
    rw [hrefused, hget]
    simp [hname]
  · obtain ⟨hsome, hkind⟩ := h.staged hname
    obtain ⟨node, hnode⟩ := Option.ne_none_iff_exists'.mp hsome
    rw [FileTree.isDir, hnode, Option.any_some] at hkind
    rw [← hroot h.distinct.symm] at hnode
    have hunlink : FileTree.exec cred now (.unlink (parent ++ [.normal staging]))
        (t.removeAt dir expand) =
        (.ok (), (t.removeAt dir expand).removeAt dir staging) := by
      simp only [FileTree.exec, FileTree.unlink, hlead.slot, hnode, hwritable, hkind, if_true,
        Bool.false_eq_true, if_false]
    rw [hunlink, FileTree.get?_removeAt, hget]
    by_cases hq : dir ++ [expand] <+: q
    · simp [hq]
    · simp [hq, hname]

/-- Before the installation: what was extracted is in its place, and the target is free. -/
structure Ready (cred : Cred) (t : FileTree) (parent : PathBuf) (dir : Pos)
    (staging expand name : String) :
    Prop where
  lead : FileTree.Leads cred t parent dir [name, expand]
  source : t.isDir (dir ++ [expand]) = true
  plain : ∀ q node, t.get? (dir ++ [expand] ++ q) = some node → node.isLink = false
  free : t.get? (dir ++ [name]) = none
  staged : staging ≠ name → t.get? (dir ++ [staging]) ≠ none ∧ t.isDir (dir ++ [staging]) = false
  apart : expand ≠ name
  distinct : expand ≠ staging

/-- A directory that is the only entry. -/
def SoleDir (t : FileTree) (p : Pos) (entry : String) : Prop :=
  t.isDir (p ++ [entry]) = true ∧ ∀ other, t.get? (p ++ [other]) ≠ none → other = entry

/-- The extraction root and the staging file have gone, and nothing beside the target has
    changed. -/
structure Tidied (t s : FileTree) (dir : Pos) (staging expand name : String) : Prop where
  extraction : ∀ q, s.get? (dir ++ [expand] ++ q) = none
  removed : staging ≠ name → ∀ q, s.get? (dir ++ [staging] ++ q) = none
  same : ∀ q, (∀ n ∈ [name, expand, staging], ¬ dir ++ [n] <+: q) → s.get? q = t.get? q

/-- What the installation has made of it. -/
structure Installed (cred : Cred) (now : Nat) (t s : FileTree) (dir : Pos)
    (staging expand name : String) : Prop extends Tidied t s dir staging expand name where
  target : (∃ sole, SoleDir t (dir ++ [expand]) sole ∧
      ∀ q, s.get? (dir ++ [name] ++ q) = t.get? (dir ++ [expand] ++ sole :: q)) ∨
    (¬ ∃ sole, SoleDir t (dir ++ [expand]) sole) ∧
      s.get? (dir ++ [name]) = some ⟨.dir, FileTree.newAttrs cred now 0o777⟩ ∧
      ∀ first q, s.get? (dir ++ [name] ++ first :: q) = t.get? (dir ++ [expand] ++ first :: q)

theorem find_free (hlead : FileTree.Leads cred t parent dir [name, expand])
    (hfree : t.get? (dir ++ [name]) = none) :
    t.find cred (parent ++ [.normal name]) = .error .noent := by
  rw [FileTree.find, walk_missing hlead.walk hlead.search (FileTree.look_eq_absent.mpr hfree)]

/-- What `finishExtraction` leaves of a tree in which things have been moved. -/
theorem tidied (hdistinct : expand ≠ staging) (hnames : ∀ q, (∀ n ∈ [name, expand, staging],
      ¬ dir ++ [n] <+: q) → x.get? q = t.get? q)
    (hfinish : ∀ q, s.get? q = if dir ++ [expand] <+: q then none
      else if staging ≠ name ∧ dir ++ [staging] <+: q then none else x.get? q) :
    Tidied t s dir staging expand name where
  extraction q := by rw [hfinish, if_pos (List.prefix_append _ _)]
  removed hne q := by
    rw [hfinish, if_neg (entries_apart hdistinct q), if_pos ⟨hne, List.prefix_append _ _⟩]
  same q hq := by
    rw [hfinish, if_neg (hq expand (by simp)), if_neg fun h => hq staging (by simp) h.2,
      hnames q hq]

/-- The entries are moved one by one into a new directory. -/
theorem installEach_ok (h : Ready cred t parent dir staging expand name)
    (hrun : (installEach (parent ++ [.normal staging]) (parent ++ [.normal expand])
      (parent ++ [.normal name])).run (FileTree.exec cred now) t = (some (.ok ()), s)) :
    Tidied t s dir staging expand name ∧
      s.get? (dir ++ [name]) = some ⟨.dir, FileTree.newAttrs cred now 0o777⟩ ∧
      (∀ first q, s.get? (dir ++ [name] ++ first :: q) = t.get? (dir ++ [expand] ++ first :: q)) ∧
      (t.children (dir ++ [expand]) ≠ [] → t.look cred (dir ++ [expand]) = .dir true) := by
  obtain ⟨_, u, hmake, hrest⟩ := Prog.run_bind_eq_ok _ hrun
  obtain ⟨entries, v, hlist, hrest⟩ := Prog.run_bind_eq_ok _ hrest
  obtain ⟨_, w, hmove, hfinish⟩ := Prog.run_bind_eq_ok _ hrest
  obtain ⟨hwrite, hdir, hfree, hname, rfl⟩ :=
    createDirAll_entry (h.lead.slot name) (dirAt_eq_false (find_free h.lead h.free))
      (Prog.run_mapError_eq_ok _ hmake)
  let u := t.add dir name ⟨.dir, FileTree.newAttrs cred now 0o777⟩ hdir hfree hname
  have hget : ∀ q, u.get? q = if q = dir ++ [name] then
      some ⟨.dir, FileTree.newAttrs cred now 0o777⟩ else t.get? q := fun q => FileTree.get?_add
  have hsource : ∀ q, u.get? (dir ++ [expand] ++ q) = t.get? (dir ++ [expand] ++ q) := by
    intro q
    rw [hget, if_neg]
    intro heq
    exact entries_apart h.apart.symm q ⟨[], by rw [List.append_nil, heq]⟩
  have hroot := hsource []
  rw [List.append_nil] at hroot
  have hbetween : Between cred u parent dir expand name := by
    refine ⟨h.lead.of_same fun q hq => ?_, ?_, ?_, h.apart⟩
    · rw [hget, if_neg]
      rintro rfl
      exact hq name (by simp) List.prefix_rfl
    · rw [FileTree.isDir, hroot]
      exact h.source
    · exact FileTree.isDir_iff.mpr ⟨_, by rw [hget, if_pos rfl], rfl⟩
  -- the listing names what was extracted
  have hreadDir : FileTree.exec cred now (.readDir (parent ++ [.normal expand])) u =
      (.ok entries, v) :=
    exec_of_run_io_ok hlist
  obtain rfl : u = v := congrArg Prod.snd hreadDir
  have hwalk : Posix.walk (u.look cred) maxLinks [] (parent ++ [.normal expand]) =
      .ok (dir ++ [expand]) := by
    obtain ⟨node, hnode, hkind⟩ := FileTree.isDir_iff.mp hbetween.source
    exact hbetween.lead.child hnode (by rw [Node.isLink, Node.isDir_iff.mp hkind])
  obtain ⟨hread, rfl⟩ := readDir_allowed hwalk (congrArg Prod.fst hreadDir)
  rw [FileTree.map_fst_entries] at hmove
  obtain ⟨hall, hw, hsearch⟩ := moveEntries_ok hbetween (FileTree.children_nodup _) hmove
  -- the moves leave alone what is not below one of the two directories
  have hbeside : ∀ q, q.length ≤ dir.length + 1 → w.get? q = u.get? q := by
    intro q hq
    apply hall.same
    intro n _
    constructor
    · intro hpre
      have := hpre.length_le
      simp at this
      omega
    · intro hpre
      have := hpre.length_le
      simp at this
      omega
  have hne : ∀ {entry : String}, entry ≠ name → u.get? (dir ++ [entry]) =
      t.get? (dir ++ [entry]) := by
    intro entry hentry
    rw [hget, if_neg (by simpa using hentry)]
  have hempty : Emptied cred w parent dir staging expand name := by
    refine ⟨hw, fun first q => ?_, ?_, ?_, fun hstaging => ?_, h.distinct⟩
    · by_cases hchild : first ∈ u.children (dir ++ [expand])
      · exact hall.gone first hchild q
      · have hnone : u.get? (dir ++ [expand] ++ [first]) = none := by
          by_contra hsome
          exact hchild (FileTree.mem_children.mpr (Option.ne_none_iff_isSome.mp hsome))
        rw [hall.same]
        · exact FileTree.get?_none_below hnone (by simp [List.prefix_append_right_inj])
        · intro n hn
          refine ⟨fun hpre => ?_, fun hpre => ?_⟩
          · exact entries_apart h.apart.symm (first :: q) ((List.prefix_append _ _).trans hpre)
          · rw [List.prefix_append_right_inj] at hpre
            exact hchild ((List.cons_prefix_cons.mp hpre).1 ▸ hn)
    · rw [FileTree.allows, hbeside _ (by simp)]
      exact hread
    · rw [FileTree.allows, hbeside _ (by simp), hget, if_neg (by simp)]
      exact hwrite
    · rw [FileTree.isDir, hbeside _ (by simp), hne hstaging]
      exact h.staged hstaging
  have hend := finishExtraction_ok hempty hfinish
  have htarget : ∀ q, s.get? (dir ++ [name] ++ q) = w.get? (dir ++ [name] ++ q) := by
    intro q
    rw [hend, if_neg (entries_apart h.apart q), if_neg]
    rintro ⟨hstaging, hpre⟩
    exact entries_apart hstaging q hpre
  refine ⟨tidied h.distinct ?_ hend, ?_, ?_, ?_⟩
  · intro q hq
    rw [hall.same q fun n _ => ⟨fun hpre => hq name (by simp) ((List.prefix_append _ _).trans hpre),
      fun hpre => hq expand (by simp) ((List.prefix_append _ _).trans hpre)⟩, hget, if_neg]
    rintro rfl
    exact hq name (by simp) List.prefix_rfl
  · have hplace := htarget []
    rw [List.append_nil] at hplace
    rw [hplace, hbeside _ (by simp), hget, if_pos rfl]
  · intro first q
    rw [htarget]
    by_cases hchild : first ∈ u.children (dir ++ [expand])
    · rw [hall.arrived first hchild, hsource]
    · have hnone : t.get? (dir ++ [expand] ++ [first]) = none := by
        rw [← hsource]
        by_contra hsome
        exact hchild (FileTree.mem_children.mpr (Option.ne_none_iff_isSome.mp hsome))
      rw [hall.same]
      · rw [FileTree.get?_none_below hnone (by simp [List.prefix_append_right_inj]), hget,
          if_neg (by simp)]
        exact FileTree.get?_none_below hfree (List.prefix_append _ _)
      · intro n hn
        refine ⟨fun hpre => ?_, fun hpre => ?_⟩
        · rw [List.prefix_append_right_inj] at hpre
          exact hchild ((List.cons_prefix_cons.mp hpre).1 ▸ hn)
        · exact entries_apart h.apart (first :: q) ((List.prefix_append _ _).trans hpre)
  · intro hchildren
    rw [← FileTree.look_congr hroot]
    apply hsearch
    intro hnil
    apply hchildren
    rw [List.eq_nil_iff_forall_not_mem]
    intro first hfirst
    rw [FileTree.mem_children, ← hsource, ← FileTree.mem_children, hnil] at hfirst
    cases hfirst

theorem Ready.opens (h : Ready cred t parent dir staging expand name) :
    FileTree.Opens cred t parent dir expand :=
  ⟨h.lead.mono (by simp), h.source, h.plain⟩

/-- A sole directory makes a listing of one entry. -/
theorem SoleDir.children {p : Pos} {sole : String} (h : SoleDir t p sole) : t.children p =
    [sole] := by
  have hmem : sole ∈ t.children p := FileTree.mem_children.mpr (FileTree.isSome_of_isDir h.1)
  have hall : ∀ n ∈ t.children p, n = sole := by
    intro n hn
    exact h.2 n (Option.isSome_iff_ne_none.mp (FileTree.mem_children.mp hn))
  have hnodup := FileTree.children_nodup (t := t) p
  rcases hlist : t.children p with _ | ⟨first, rest⟩
  · rw [hlist] at hmem
    cases hmem
  · rw [hlist, List.forall_mem_cons] at hall
    rw [hlist] at hnodup
    obtain rfl := hall.1
    cases rest with
    | nil => rfl
    | cons second rest =>
      have hsecond := hall.2 second List.mem_cons_self
      rw [hsecond] at hnodup
      exact absurd List.mem_cons_self (List.nodup_cons.mp hnodup).1

/-- The sole directory is moved in one piece. -/
theorem installSole_ok (h : Ready cred t parent dir staging expand name) {sole : String}
    {u : FileTree} (hsole : SoleDir t (dir ++ [expand]) sole)
    (hread : t.allows cred (dir ++ [expand]) .read = true)
    (hmove :
      (io (sys (.rename (parent ++ [.normal expand] ++ [.normal sole])
      (parent ++ [.normal name])))).run
      (FileTree.exec cred now) t = (some (.ok ()), u))
    (hfinish : (finishExtraction (parent ++ [.normal staging]) (parent ++ [.normal expand])).run
      (FileTree.exec cred now) u = (some (.ok ()), s)) :
    Installed cred now t s dir staging expand name := by
  have hrename : t.rename cred (parent ++ [.normal expand] ++ [.normal sole])
      (parent ++ [.normal name]) =
      (.ok (), u) := exec_of_run_io_ok hmove
  obtain ⟨⟨p, found⟩, hsrc⟩ : ∃ r, t.slot cred (parent ++ [.normal expand] ++ [.normal sole]) =
      .ok r := by
    unfold FileTree.rename at hrename
    split at hrename
    · cases hrename
    · exact ⟨_, ‹_›⟩
  obtain ⟨rfl, rfl, -⟩ := slot_between h.lead h.source hsrc
  have hout : ∀ q, ¬ dir ++ [name] <+: dir ++ [expand] ++ q := entries_apart h.apart.symm
  have hne : dir ++ [expand] ++ [found] ≠ dir ++ [name] := by
    intro heq
    exact hout [found] ⟨[], by rw [List.append_nil, heq]⟩
  obtain ⟨hmoved, hwrite, -⟩ := rename_moves hsrc (h.lead.slot name) hne hrename
  have hsame : ∀ q, ¬ dir ++ [name] <+: q → ¬ dir ++ [expand] ++ [found] <+: q →
      u.get? q = t.get? q :=
    fun q hdst hsrc => hmoved.other hdst hsrc
  have hbeside : ∀ {entry : String}, entry ≠ name → u.get? (dir ++ [entry]) =
      t.get? (dir ++ [entry]) := by
    intro entry hentry
    exact hsame _ (entry_apart dir hentry.symm) fun hpre => absurd hpre.length_le (by simp)
  have hplace := hmoved.subtree []
  rw [List.append_nil, List.append_nil] at hplace
  have hempty : Emptied cred u parent dir staging expand name := by
    refine ⟨⟨h.lead.of_same fun q hq => ?_, ?_, ?_, h.apart⟩, fun first q => ?_, ?_, ?_,
      fun hstaging => ?_,
      h.distinct⟩
    · exact hsame q (hq name (by simp)) fun hpre =>
        hq expand (by simp) ((List.prefix_append _ _).trans hpre)
    · rw [FileTree.isDir, hbeside h.apart]
      exact h.source
    · rw [FileTree.isDir, hplace]
      exact hsole.1
    · by_cases hfirst : first = found
      · rw [hfirst]
        exact hmoved.source (hout _) (by simp [List.prefix_append_right_inj])
      · have hnone : t.get? (dir ++ [expand] ++ [first]) = none := by
          by_contra hsome
          exact hfirst (hsole.2 first hsome)
        rw [hsame _ (hout _)]
        · exact FileTree.get?_none_below hnone (by simp [List.prefix_append_right_inj])
        · intro hpre
          rw [List.prefix_append_right_inj] at hpre
          exact hfirst (List.cons_prefix_cons.mp hpre).1.symm
    · rw [FileTree.allows, hbeside h.apart]
      exact hread
    · rw [FileTree.allows, hsame _ (not_entry_above dir name) fun hpre =>
        absurd hpre.length_le (by simp)]
      exact hwrite
    · rw [FileTree.isDir, hbeside hstaging]
      exact h.staged hstaging
  have hend := finishExtraction_ok hempty hfinish
  refine ⟨tidied h.distinct (fun q hq => ?_) hend, Or.inl ⟨found, hsole, fun q => ?_⟩⟩
  · exact hsame q (hq name (by simp)) fun hpre =>
      hq expand (by simp) ((List.prefix_append _ _).trans hpre)
  · rw [hend, if_neg (entries_apart h.apart q), if_neg, hmoved.subtree, List.append_assoc _ [found]]
    · rfl
    · rintro ⟨hstaging, hpre⟩
      exact entries_apart hstaging q hpre

/-- **Installation.**  What was extracted has come to the target, a sole directory in
    place of its directory. -/
theorem installExtracted_ok (h : Ready cred t parent dir staging expand name)
    (hrun : (installExtracted (parent ++ [.normal staging]) (parent ++ [.normal expand])
      (parent ++ [.normal name])).run (FileTree.exec cred now) t = (some (.ok ()), s)) :
    Installed cred now t s dir staging expand name := by
  obtain ⟨entries, u, hlist, hrest⟩ := Prog.run_bind_eq_ok _ hrun
  have hreadDir : FileTree.exec cred now (.readDir (parent ++ [.normal expand])) t =
      (.ok entries, u) :=
    exec_of_run_io_ok hlist
  obtain rfl : t = u := congrArg Prod.snd hreadDir
  obtain ⟨hread, rfl⟩ := readDir_allowed h.opens.walk (congrArg Prod.fst hreadDir)
  have hchildren := FileTree.map_fst_entries (t := t) (dir ++ [expand])
  have heach : (¬ ∃ sole, SoleDir t (dir ++ [expand]) sole) →
      (installEach (parent ++ [.normal staging]) (parent ++ [.normal expand])
        (parent ++ [.normal name])).run
        (FileTree.exec cred now) t = (some (.ok ()), s) →
          Installed cred now t s dir staging expand name := by
    intro hmany hrun
    obtain ⟨htidied, hplace, hbelow, -⟩ := installEach_ok h hrun
    exact ⟨htidied, Or.inr ⟨hmany, hplace, hbelow⟩⟩
  split at hrest
  · rename_i entry hentries
    rw [hentries] at hchildren
    have hspells := h.opens.spells [entry.1]
    rw [List.map_singleton] at hspells
    obtain ⟨answer, u, hask, hinstall⟩ := Prog.run_bind_eq_ok _ hrest
    rw [run_isDir] at hask
    obtain ⟨hanswer, rfl⟩ := Prod.mk.inj hask
    obtain rfl := Except.ok.inj (Option.some.inj hanswer)
    have honly : ∀ other, t.get? (dir ++ [expand] ++ [other]) ≠ none → other = entry.1 := by
      intro other hother
      have hmem := FileTree.mem_children.mpr (Option.ne_none_iff_isSome.mp hother)
      rw [← hchildren] at hmem
      simpa using hmem
    split at hinstall
    · rename_i hdirAt
      obtain ⟨_, v, hmove, hfinish⟩ := Prog.run_bind_eq_ok _ hinstall
      rw [dirAt_spells hspells] at hdirAt
      have hclear := (straight_opens h.opens [entry.1]).clear
      have hdir := isDir_of_clear hclear (seen_wayTo.mpr (Or.inl List.prefix_rfl)) hdirAt
      exact installSole_ok h ⟨hdir, honly⟩ hread hmove hfinish
    · rename_i hdirAt
      apply heach _ hinstall
      rintro ⟨sole, hsole⟩
      -- the entry has been moved out of its directory, so it can be found there
      have hsearch := (installEach_ok h hinstall).2.2.2 (by rw [hsole.children]; simp)
      obtain ⟨node, hnode, hkind⟩ := FileTree.isDir_iff.mp hsole.1
      have hsome : t.get? (dir ++ [expand] ++ [sole]) ≠ none := by
        rw [hnode]
        exact Option.some_ne_none node
      obtain rfl := honly sole hsome
      have hwalk := walk_child h.opens.walk hsearch
        (fun habsent => hsome (FileTree.look_eq_absent.mp habsent))
        (FileTree.look_entry_ne_link hnode (by rw [Node.isLink, Node.isDir_iff.mp hkind]))
      apply hdirAt
      rw [dirAt, FileTree.find, hwalk]
      simp only [hnode]
      exact hkind
  · rename_i hentries
    apply heach _ hrest
    rintro ⟨sole, hsole⟩
    rw [hsole.children] at hchildren
    rcases hlist : t.entries (dir ++ [expand]) with _ | ⟨first, _ | ⟨second, rest⟩⟩
    · rw [hlist] at hchildren
      cases hchildren
    · exact hentries first hlist
    · rw [hlist] at hchildren
      cases hchildren

/-- What has been extracted, beside the staging file, before the target is touched. -/
structure Extracted (cred : Cred) (t : FileTree) (parent : PathBuf) (dir : Pos)
    (staging expand : String) :
    Prop where
  opens : FileTree.Opens cred t parent dir expand
  staged : t.get? (dir ++ [staging]) ≠ none ∧ t.isDir (dir ++ [staging]) = false
  distinct : expand ≠ staging

/-- A path that still leads somewhere after an entry has gone does not pass that entry. -/
theorem leads_removed {names : List String} (h : FileTree.Leads cred t parent dir names)
    (hs : ∀ q, s.get? q = if dir ++ [name] <+: q then none else t.get? q) {p : Pos}
    (hwalk : Posix.walk (s.look cred) maxLinks [] parent = .ok p) :
    FileTree.Leads cred s parent dir (name :: names) := by
  have hcongr := @resolve_congr (s.look cred) (t.look cred) maxLinks [] parent fun q hq => by
      have hpresent := ne_absent_of_mem_looks (walk_eq_ok.mp hwalk) q hq
      apply FileTree.look_congr
      rw [Ne, FileTree.look_eq_absent, hs] at hpresent
      rw [hs]
      split
      · rename_i hpre
        rw [if_pos hpre] at hpresent
        exact absurd rfl hpresent
      · rfl
  have hwalk' : Posix.walk (s.look cred) maxLinks [] parent = .ok dir := by
    rw [walk_eq_ok, hcongr.1, ← walk_eq_ok]
    exact h.walk
  have hlead : FileTree.Leads cred s parent dir names := by
    refine ⟨hwalk', ?_, ?_⟩
    · have hsame : s.get? dir = t.get? dir := by rw [hs, if_neg (not_entry_above dir name)]
      rw [FileTree.look_congr hsame]
      exact h.search
    · rw [hcongr.2]
      exact h.apart
  apply hlead.free
  rw [hs, if_pos List.prefix_rfl]

/-- Nothing that is not a directory is in the way of an installation that succeeds. -/
theorem installExtracted_free (h : FileTree.Opens cred t parent dir expand) (hapart : expand ≠ name)
    (hnot : dirAt cred t (parent ++ [.normal name]) = false)
    (hplain : t.isDir (dir ++ [name]) = false)
    (hrun : (installExtracted (parent ++ [.normal staging]) (parent ++ [.normal expand])
      (parent ++ [.normal name])).run (FileTree.exec cred now) t = (some (.ok ()), s)) :
    t.get? (dir ++ [name]) = none := by
  obtain ⟨entries, u, hlist, hrest⟩ := Prog.run_bind_eq_ok _ hrun
  have hreadDir : FileTree.exec cred now (.readDir (parent ++ [.normal expand])) t =
      (.ok entries, u) :=
    exec_of_run_io_ok hlist
  obtain rfl : t = u := congrArg Prod.snd hreadDir
  have heach : (installEach (parent ++ [.normal staging]) (parent ++ [.normal expand])
      (parent ++ [.normal name])).run (FileTree.exec cred now) t = (some (.ok ()), s) →
        t.get? (dir ++ [name]) = none := by
    intro hrun
    obtain ⟨_, u, hmake, -⟩ := Prog.run_bind_eq_ok _ hrun
    obtain ⟨-, -, hfree, -⟩ :=
      createDirAll_entry (h.lead.slot name) hnot (Prog.run_mapError_eq_ok _ hmake)
    exact hfree
  split at hrest
  · rename_i entry
    obtain ⟨answer, u, hask, hinstall⟩ := Prog.run_bind_eq_ok _ hrest
    rw [run_isDir] at hask
    obtain ⟨hanswer, rfl⟩ := Prod.mk.inj hask
    obtain rfl := Except.ok.inj (Option.some.inj hanswer)
    split at hinstall
    · rename_i hdirAt
      obtain ⟨_, v, hmove, -⟩ := Prog.run_bind_eq_ok _ hinstall
      have hspells := h.spells [entry.1]
      rw [List.map_singleton] at hspells
      rw [dirAt_spells hspells] at hdirAt
      have hclear := (straight_opens h [entry.1]).clear
      have hdir := isDir_of_clear hclear (seen_wayTo.mpr (Or.inl List.prefix_rfl)) hdirAt
      have hrename : t.rename cred (parent ++ [.normal expand] ++ [.normal entry.1])
          (parent ++ [.normal name]) = (.ok (), v) := exec_of_run_io_ok hmove
      obtain ⟨⟨p, found⟩, hsrc⟩ :
          ∃ r, t.slot cred (parent ++ [.normal expand] ++ [.normal entry.1]) = .ok r := by
        unfold FileTree.rename at hrename
        split at hrename
        · cases hrename
        · exact ⟨_, ‹_›⟩
      have hplace : (p, found) = (dir ++ [expand], entry.1) := by
        obtain ⟨hpath, hwalk, -⟩ := FileTree.slot_eq_ok hsrc
        rw [List.dropLast_concat] at hwalk hpath
        obtain rfl := Except.ok.inj (h.walk.symm.trans hwalk)
        have hlast := List.append_cancel_left hpath
        simpa using hlast.symm
      obtain ⟨rfl, rfl⟩ := Prod.mk.inj hplace
      have hne : dir ++ [expand] ++ [entry.1] ≠ dir ++ [name] := by
        intro heq
        exact entries_apart hapart.symm [entry.1] ⟨[], by rw [List.append_nil, heq]⟩
      obtain ⟨-, -, node, hnode, hcheck⟩ := rename_moves hsrc (h.lead.slot name) hne hrename
      -- a directory does not take the place of anything else
      by_contra hsome
      obtain ⟨old, hold⟩ := Option.ne_none_iff_exists'.mp hsome
      rw [FileTree.isDir, hnode, Option.any_some] at hdir
      rw [FileTree.isDir, hold, Option.any_some] at hplain
      simp [FileTree.renameCheck, hold, hdir, hplain] at hcheck
    · exact heach hinstall
  · exact heach hrest

/-- **Replacement.**  What stood at the target has gone, and what was extracted has come
    in its place. -/
theorem replaceTree_ok (h : Extracted cred t parent dir staging expand)
    (hrun : (Replacement.tree.phase (parent ++ [.normal staging]) (parent ++ [.normal expand])
      (parent ++ [.normal name])).run (FileTree.exec cred now) t = (some (.ok ()), s)) :
    expand ≠ name ∧ ∃ y : FileTree,
      (∀ q, y.get? q = if dir ++ [name] <+: q then none else t.get? q) ∧
      FileTree.Leads cred y parent dir [name, expand] ∧
        Installed cred now y s dir staging expand name := by
  obtain ⟨_, y, hremove, hinstall⟩ := Prog.run_bind_eq_ok _ hrun
  obtain ⟨d, hwalk, hpresent⟩ : ∃ d, Posix.walk (y.look cred) maxLinks [] parent = .ok d ∧
      y.get? (d ++ [expand]) ≠ none := by
    obtain ⟨entries, u, hlist, -⟩ := Prog.run_bind_eq_ok _ hinstall
    have hreadDir : FileTree.exec cred now (.readDir (parent ++ [.normal expand])) y =
        (.ok entries, u) :=
      exec_of_run_io_ok hlist
    obtain ⟨p, hp, -, -⟩ := FileTree.readDir_eq_ok (congrArg Prod.fst hreadDir)
    obtain ⟨d, hd, -, hlook⟩ := walk_concat hp
    exact ⟨d, hd, fun hnone => hlook (FileTree.look_eq_absent.mpr hnone)⟩
  have hready : (∀ q, y.get? q = if dir ++ [name] <+: q then none else t.get? q) →
      FileTree.Leads cred y parent dir [name, expand] →
      expand ≠ name ∧ Installed cred now y s dir staging expand name := by
    intro hy hlead
    obtain rfl := Except.ok.inj (hwalk.symm.trans hlead.walk)
    have hapart : expand ≠ name := by
      rintro rfl
      rw [hy, if_pos List.prefix_rfl] at hpresent
      exact hpresent rfl
    have hsource : ∀ q, y.get? (d ++ [expand] ++ q) = t.get? (d ++ [expand] ++ q) := by
      intro q
      rw [hy, if_neg (entries_apart hapart.symm q)]
    have hroot := hsource []
    rw [List.append_nil] at hroot
    refine ⟨hapart, installExtracted_ok ⟨hlead, ?_, fun q node hnode => ?_, ?_, fun hstaging => ?_,
      hapart,
      h.distinct⟩ hinstall⟩
    · rw [FileTree.isDir, hroot]
      exact h.opens.isDir
    · exact h.opens.plain q node ((hsource q).symm.trans hnode)
    · rw [hy, if_pos List.prefix_rfl]
    · rw [FileTree.isDir, hy, if_neg (entry_apart d hstaging.symm)]
      exact h.staged
  rcases removePathIfExists_ok hremove with ⟨d', n', hslot, hy⟩ | ⟨rfl, hfind⟩
  · obtain ⟨rfl, rfl⟩ := Prod.mk.inj (Except.ok.inj (hslot.symm.trans (h.opens.lead.slot name)))
    have hget : ∀ q, y.get? q = if d' ++ [n'] <+: q then none else t.get? q := by
      intro q
      rw [hy, FileTree.get?_removeAt]
    have hlead := leads_removed h.opens.lead hget hwalk
    obtain ⟨hapart, hinstalled⟩ := hready hget hlead
    exact ⟨hapart, y, hget, hlead, hinstalled⟩
  · have hnot := dirAt_eq_false hfind
    have hmissing : ∀ {node : Node}, y.get? (dir ++ [name]) = some node → node.isLink = true := by
      intro node hnode
      by_contra hlink
      rw [FileTree.find, h.opens.lead.child hnode (by simpa using hlink)] at hfind
      simp only [hnode] at hfind
      cases hfind
    have hplain : y.isDir (dir ++ [name]) = false := by
      rcases hnode : y.get? (dir ++ [name]) with _ | node
      · simp [FileTree.isDir, hnode]
      · have hlink := hmissing hnode
        rw [FileTree.isDir, hnode, Option.any_some, Node.isDir]
        unfold Node.isLink at hlink
        split at hlink
        · rename_i hkind
          rw [hkind]
        · cases hlink
    have hapart : expand ≠ name := by
      rintro rfl
      rw [h.opens.isDir] at hplain
      cases hplain
    have hfree := installExtracted_free h.opens hapart hnot hplain hinstall
    have hget : ∀ q, y.get? q = if dir ++ [name] <+: q then none else y.get? q := by
      intro q
      split
      · exact FileTree.get?_none_below hfree ‹_›
      · rfl
    have hlead := h.opens.lead.free hfree
    exact ⟨hapart, y, hget, hlead, (hready hget hlead).2⟩

/-- The extraction root has been made, and is bare. -/
structure Began (cred : Cred) (now : Nat) (t u : FileTree) (parent : PathBuf) (dir : Pos)
    (expand : String) : Prop where
  lead : FileTree.Leads cred u parent dir [expand]
  root : u.get? (dir ++ [expand]) = some ⟨.dir, FileTree.newAttrs cred now 0o777⟩
  bare : ∀ first q, u.get? (dir ++ [expand] ++ first :: q) = none
  old : ∀ q node, u.get? q = some node →
    t.get? q = some node ∨ node = ⟨.dir, FileTree.newAttrs cred now 0o777⟩

/-- The calls of `create_dir_all`. -/
def Makes : FsCall → Prop
  | .mkdir _ | .fileType _ => True
  | _ => False

variable (cred now) in
/-- They add new directories, and nothing else. -/
theorem keeps_adds {ε α : Type} {m : Fs ε α} {W : α → Prop}
    (hm : m.Within Makes (fun _ _ => True) W) (t : FileTree) (q : Pos) :
    (m.run (FileTree.exec cred now) t).2.get? q = t.get? q ∨ t.get? q = none ∧
      (m.run (FileTree.exec cred now) t).2.get? q = some
        ⟨.dir, FileTree.newAttrs cred now 0o777⟩ := by
  let I := fun s : FileTree => s.get? q = t.get? q ∨ t.get? q = none ∧
    s.get? q = some ⟨.dir, FileTree.newAttrs cred now 0o777⟩
  have hkeeps : ∀ c s, Makes c → I s → I (FileTree.exec cred now c s).2 ∧ True := by
    intro c s hc hs
    refine ⟨?_, trivial⟩
    cases c with
    | mkdir path =>
      simp only [FileTree.exec]
      rcases FileTree.mkdir_cases cred now s path with ⟨e, he⟩ | ⟨dir, name, _, hfree, _, -, hadd⟩
      · rw [he]
        exact hs
      · rw [hadd]
        by_cases hq : q = dir ++ [name]
        · right
          rw [FileTree.get?_add, if_pos hq]
          rcases hs with hsame | ⟨hnone, -⟩
          · exact ⟨hsame.symm.trans (hq ▸ hfree), rfl⟩
          · exact ⟨hnone, rfl⟩
        · simp only [I, FileTree.get?_add, if_neg hq]
          exact hs
    | fileType path => exact hs
    | _ => exact absurd hc id
  exact hm.keeps (I := I) hkeeps (Or.inl rfl)

theorem makes_createDirAll (path : PathBuf) :
    (createDirAll path).Within Makes (fun _ _ => True) fun _ => True :=
  within_createDirAll (N := fun _ => True) (fun _ _ _ _ => trivial) (fun _ _ => ⟨trivial, trivial⟩)
    trivial

/-- What a removal leaves at a path that named an entry. -/
theorem dirAt_removed {v : FileTree}
    (hexec : t.removeDirAll cred (parent ++ [.normal expand]) = (.ok (), v)) :
    (∀ q, v.get? q = t.get? q ∨ v.get? q = none) ∧ dirAt cred v (parent ++ [.normal expand]) =
      false := by
  rcases FileTree.removeDirAll_cases cred t (parent ++ [.normal expand]) with
    ⟨e, he⟩ | ⟨dir, name, node, hslot, -, hremove⟩
  · rw [he] at hexec
    cases hexec
  · rw [hremove] at hexec
    obtain rfl : _ = v := congrArg Prod.snd hexec
    constructor
    · intro q
      rw [FileTree.get?_removeAt]
      split
      · exact Or.inr rfl
      · exact Or.inl rfl
    · obtain ⟨hpath, -, -⟩ := FileTree.slot_eq_ok hslot
      rw [List.dropLast_concat] at hpath
      obtain rfl : expand = name := by simpa using List.append_cancel_left hpath
      rcases hfind : (t.removeAt dir expand).find cred (parent ++ [.normal expand]) with
        e | ⟨p, found⟩
      · exact dirAt_eq_false hfind
      · exfalso
        obtain ⟨d, hwalk, -, hpresent⟩ := walk_concat (FileTree.find_eq_ok hfind).1
        have hlead : FileTree.Leads cred (t.removeAt dir expand) parent dir [expand] :=
          leads_removed (FileTree.leads_of_slot hslot) (fun q => FileTree.get?_removeAt) hwalk
        obtain rfl := Except.ok.inj (hwalk.symm.trans hlead.walk)
        apply hpresent
        rw [FileTree.look_eq_absent, FileTree.get?_removeAt, if_pos List.prefix_rfl]

/-- Where no directory was found, a new one stands. -/
theorem makeRoot_ok {u v : FileTree}
    (hv : (∀ q, v.get? q = t.get? q ∨ v.get? q = none) ∧
      dirAt cred v (parent ++ [.normal expand]) = false)
    (hmake : (createDirAll (parent ++ [.normal expand])).run (FileTree.exec cred now) v =
      (some (.ok ()), u)) : ∃ dir, Began cred now t u parent dir expand := by
  have hlength : (parent ++ [Component.normal expand]).length ≠ 0 := by simp
  obtain ⟨w, dir, name, hdir, hfree, hname, hslot, -, hadd⟩ :=
    createDirAllWithin_makes hlength hv.2 hmake
  obtain ⟨hpath, -, -⟩ := FileTree.slot_eq_ok hslot
  rw [List.dropLast_concat] at hpath
  obtain rfl : expand = name := by simpa using List.append_cancel_left hpath
  have hget : ∀ q, u.get? q = if q = dir ++ [expand] then
      some ⟨.dir, FileTree.newAttrs cred now 0o777⟩ else w.get? q := by
    intro q
    rw [hadd, FileTree.get?_add]
  refine ⟨dir, ((FileTree.leads_of_slot hslot).free hfree).of_same fun q hq => ?_, ?_,
    fun first q => ?_, ?_⟩
  · rw [hget, if_neg]
    rintro rfl
    exact hq expand (List.mem_singleton_self expand) List.prefix_rfl
  · rw [hget, if_pos rfl]
  · rw [hget, if_neg (by simp)]
    exact FileTree.get?_none_below hfree (List.prefix_append _ _)
  · intro q node hnode
    have hadds := keeps_adds cred now (makes_createDirAll (parent ++ [.normal expand])) v q
    rw [hmake] at hadds
    rcases hadds with hsame | ⟨-, hnew⟩
    · left
      rcases hv.1 q with hsame' | hnone
      · rw [← hsame', ← hsame, hnode]
      · rw [hsame, hnone] at hnode
        cases hnode
    · exact Or.inr (Option.some.inj (hnode.symm.trans hnew))

theorem Began.isDir {u : FileTree} (h : Began cred now t u parent dir expand) :
    u.isDir (dir ++ [expand]) = true := FileTree.isDir_iff.mpr ⟨_, h.root, rfl⟩

/-- A new directory shows the layout without entries. -/
theorem Began.shows {u : FileTree} (h : Began cred now t u parent dir expand) :
    Shows u (dir ++ [expand]) .bare := by
  intro q
  cases q with
  | nil =>
    rw [List.append_nil, h.root]
    rfl
  | cons first q =>
    rw [h.bare]
    rfl

/-- The file that was read is the staging file, or a link to it. -/
theorem staged_of_read {contents : Contents} (hlead : FileTree.Leads cred t parent dir [expand])
    (hread : t.read cred (parent ++ [.normal staging]) = .ok contents) :
    t.get? (dir ++ [staging]) ≠ none ∧ t.isDir (dir ++ [staging]) = false := by
  unfold FileTree.read at hread
  split at hread
  · cases hread
  · rename_i p node hfind
    obtain ⟨hwalk, hnode⟩ := FileTree.find_eq_ok hfind
    obtain ⟨d, hd, -, hpresent⟩ := walk_concat hwalk
    obtain rfl := Except.ok.inj (hlead.walk.symm.trans hd)
    refine ⟨fun hnone => hpresent (FileTree.look_eq_absent.mpr hnone), ?_⟩
    rw [Bool.eq_false_iff]
    intro hdir
    obtain ⟨node', hnode', hkind⟩ := FileTree.isDir_iff.mp hdir
    have hchild := hlead.child hnode' (by rw [Node.isLink, Node.isDir_iff.mp hkind])
    obtain rfl := Except.ok.inj (hchild.symm.trans hwalk)
    obtain rfl := Option.some.inj (hnode'.symm.trans hnode)
    rw [Node.isDir_iff.mp hkind] at hread
    split at hread
    · cases hread
    · cases hread

/-- Whatever was there, it is bare. -/
theorem bareRoot_ok {u : FileTree}
    (hrun : (bareRoot (parent ++ [.normal expand])).run (FileTree.exec cred now) t =
    (some (.ok ()), u)) : ∃ dir, Began cred now t u parent dir expand := by
  obtain ⟨answer, v, hask, hrest⟩ := Prog.run_bind_eq_ok _ hrun
  rw [run_pathExists] at hask
  obtain ⟨hanswer, rfl⟩ := Prod.mk.inj hask
  obtain rfl := Except.ok.inj (Option.some.inj hanswer)
  split at hrest
  · obtain ⟨_, v, hclear, hmake⟩ := Prog.run_bind_eq_ok _ hrest
    exact makeRoot_ok (dirAt_removed (exec_of_run_io_ok hclear)) (Prog.run_mapError_eq_ok _ hmake)
  · rename_i hmissing
    refine makeRoot_ok ⟨fun q => Or.inl rfl, ?_⟩ (Prog.run_mapError_eq_ok _ hrest)
    rcases hfind : t.find cred (parent ++ [.normal expand]) with e | found
    · exact dirAt_eq_false hfind
    · rw [hfind] at hmissing
      exact absurd rfl hmissing

/-- **Extraction of an archive file.**  Its items were put into a bare directory, and what
    they describe stands there. -/
theorem extractArchive_ok {codec : Codec} (hdistinct : expand ≠ staging)
    (hrun : (extractArchive codec (parent ++ [.normal staging]) (parent ++ [.normal expand])).run
      (FileTree.exec cred now) t = (some (.ok ()), x)) :
    ∃ (dir : Pos) (u : FileTree) (contents : Contents) (U : ArchiveLayout),
      Began cred now t u parent dir expand ∧ u.read cred (parent ++ [.normal staging]) =
        .ok contents ∧
      (extractItems (canonical (dir ++ [expand])) (codec.unpack contents.data)).run
        (FileTree.exec cred now) u = (some (.ok ()), x) ∧
      layoutOf (codec.unpack contents.data) = some U ∧ U.Closed ∧ Shows x (dir ++ [expand]) U ∧
      (∀ q, ¬ dir ++ [expand] <+: q → x.get? q = u.get? q) ∧
      Extracted cred x parent dir staging expand := by
  rw [extractArchive_eq] at hrun
  obtain ⟨_, u, hbare, hrest⟩ := Prog.run_bind_eq_ok _ hrun
  obtain ⟨contents, w, hread, hitems⟩ := Prog.run_bind_eq_ok _ hrest
  obtain ⟨dir, hbegan⟩ := bareRoot_ok hbare
  have hexec : FileTree.exec cred now (.read (parent ++ [.normal staging])) u = (.ok contents, w) :=
    exec_of_run_io_ok hread
  obtain rfl : u = w := congrArg Prod.snd hexec
  have hcontents : u.read cred (parent ++ [.normal staging]) = .ok contents :=
    congrArg Prod.fst hexec
  have hitems' := extractItems_opens hbegan.lead Layout.closed_bare hbegan.shows hitems
  obtain ⟨U, hU, hclosed, hshows, hframe⟩ := extractItems_ok Layout.closed_bare hbegan.shows hitems'
  have hstaged := staged_of_read hbegan.lead hcontents
  have hne := entry_apart dir hdistinct
  refine ⟨dir, u, contents, U, hbegan, hcontents, hitems', hU, hclosed, hshows, hframe, ?_, ?_,
    hdistinct⟩
  · exact opens_of_shows hbegan.lead hclosed hshows hframe
  · rw [FileTree.isDir, hframe _ hne]
    exact hstaged

/-- The stages of the import of an archive file: the directory it is extracted to has been
    made, its items have been extracted there, what stood at the target has gone, and what
    was extracted has been installed. -/
structure Imported (cred : Cred) (now : Nat) (codec : Codec) (t s : FileTree) (parent : PathBuf)
    (dir : Pos)
    (staging expand name : String) (contents : Contents) (U : ArchiveLayout) (u x y : FileTree) :
    Prop where
  began : Began cred now t u parent dir expand
  read : u.read cred (parent ++ [.normal staging]) = .ok contents
  extracted : (extractItems (canonical (dir ++ [expand])) (codec.unpack contents.data)).run
    (FileTree.exec cred now) u = (some (.ok ()), x)
  layout : layoutOf (codec.unpack contents.data) = some U
  closed : U.Closed
  shows : Shows x (dir ++ [expand]) U
  frame : ∀ q, ¬ dir ++ [expand] <+: q → x.get? q = u.get? q
  distinct : expand ≠ name
  cleared : ∀ q, y.get? q = if dir ++ [name] <+: q then none else x.get? q
  lead : FileTree.Leads cred y parent dir [name, expand]
  installed : Installed cred now y s dir staging expand name

/-- **Importing an archive file.**  An import that succeeds has gone through all stages. -/
theorem extractArchiveAndReplace_ok {codec : Codec} (hdistinct : expand ≠ staging)
    (hrun : (extractArchiveAndReplace codec (parent ++ [.normal staging])
      (parent ++ [.normal expand])
      (parent ++ [.normal name])).run (FileTree.exec cred now) t = (some (.ok ()), s)) :
    ∃ dir contents U u x y,
      Imported cred now codec t s parent dir staging expand name contents U u x y := by
  rw [extractArchiveAndReplace_eq] at hrun
  obtain ⟨_, x, hextract, hreplace⟩ := Prog.run_bind_eq_ok _ hrun
  obtain ⟨dir, u, contents, U, hbegan, hread, hitems, hU, hclosed, hshows, hframe, hextracted⟩ :=
    extractArchive_ok hdistinct hextract
  obtain ⟨hname, y, hcleared, hlead, hinstalled⟩ := replaceTree_ok hextracted hreplace
  exact ⟨dir, contents, U, u, x, y,
    ⟨hbegan, hread, hitems, hU, hclosed, hshows, hframe, hname, hcleared, hlead, hinstalled⟩⟩

end Moving

end Scriptorium
