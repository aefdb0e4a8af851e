import Scriptorium.TakingTarget
import Scriptorium.Transitions

/-!
# Concurrent imports to one target

Any number of imports run at the same time, and at every step one of them makes its next
call.  Nothing in the code keeps two of them from replacing what stands at the target at the
same time, and then it can end up with the entries of both (`imports_mix`).  But as long as
each looks at the target only after the one that looked before it has returned, every import
succeeds and the target holds exactly what one of them has brought (`imports_serialize`).

Modification times are taken from one clock reading throughout; no call of an import asks
for them.
-/

namespace Scriptorium

open Posix Effects

variable {ι : Type} [DecidableEq ι]

/-! ### The system -/

/-- Imports that run at the same time, and the scene they share. -/
structure Imports (ι : Type) where
  rest : ι → Fs Status ImportResponse
  scene : Scene ι

/-- All of them are at their beginning. -/
def Imports.start (cfg : ServiceConfig) (calls : ι → ImportCall) (t : FileTree) : Imports ι :=
  ⟨fun i => doImportWorkspaceObject cfg (calls i).clock
    (.ok (.header (calls i).header) :: (calls i).rest), ⟨t, none⟩⟩

/-- The import `i` makes its next call. -/
def Imports.step (cred : Cred) (now : Nat) (target : PathBuf) (s : Imports ι) (i : ι) :
    Option (Imports ι) :=
  match s.rest i with
  | .call c next =>
    some ⟨Function.update s.rest i (next (Scene.exec cred now target i c s.scene).1),
      (Scene.exec cred now target i c s.scene).2⟩
  | _ => none

/-- The import has come to its end. -/
def Imports.returned (s : Imports ι) (i : ι) : Bool :=
  match s.rest i with
  | .done _ => true
  | _ => false

/-- And it has succeeded. -/
def Imports.succeeded (s : Imports ι) (i : ι) : Bool :=
  match s.rest i with
  | .done (.ok _) => true
  | _ => false

/-- With its next call the import begins to replace what stands at the target. -/
def Imports.begins (target : PathBuf) (s : Imports ι) (i : ι) : Bool :=
  match s.rest i with
  | .call c _ => looksAt target c
  | _ => false

/-- Where the import begins to replace what stands at the target, the one that began before
    it has returned, and what stands there gives way. -/
def Imports.InTurn (cred : Cred) (a : Aim) (calls : ι → ImportCall) (s : Imports ι) (i : ι) :
    Prop :=
  s.begins a.target i = true → (∀ j ∈ s.scene.holder, j = i ∨ s.returned j = true) ∧
    GivesWay cred s.scene.tree (a.dir ++ [a.name]) (calls i).encoding

instance (cred : Cred) (a : Aim) (calls : ι → ImportCall) (s : Imports ι) (i : ι) :
    Decidable (s.InTurn cred a calls i) :=
  inferInstanceAs (Decidable (_ → _ ∧ _))

section Run

variable {cred : Cred} {now : Nat} {a : Aim} {calls : ι → ImportCall} {V : ι → ArchiveLayout}
  {i : ι} {s s' : Imports ι}

/-- An import goes on among the others, or it has succeeded, and as long as no other has
    begun to replace what stands at the target its object stands there. -/
def Imports.Sound (cred : Cred) (now : Nat) (a : Aim) (calls : ι → ImportCall)
    (V : ι → ArchiveLayout) (s : Imports ι) (i : ι) : Prop :=
  ((∃ response, s.rest i = .done (.ok response)) ∧ s.scene.holder ≠ none ∧
      (s.scene.holder = some i → a.Placed calls i (V i) s.scene)) ∨
    s.returned i = false ∧ Among cred now a calls i (s.rest i)
      (fun r s' => (∃ response, r = .ok response) ∧ a.Placed calls i (V i) s') s.scene

omit [DecidableEq ι] in
theorem sound_of_among (h : Among cred now a calls i (s.rest i)
    (fun r s' => (∃ response, r = .ok response) ∧ a.Placed calls i (V i) s') s.scene) :
    s.Sound cred now a calls V i := by
  rcases hrest : s.rest i with r | _ | ⟨c, next⟩
  · left
    rw [hrest] at h
    obtain ⟨⟨response, rfl⟩, hplaced⟩ := h
    refine ⟨⟨response, hrest⟩, ?_, fun _ => hplaced⟩
    obtain ⟨y, hduring, -⟩ := hplaced
    rw [hduring.holder.mpr rfl]
    exact Option.some_ne_none i
  · exact Or.inr ⟨by rw [Imports.returned, hrest], h⟩
  · exact Or.inr ⟨by rw [Imports.returned, hrest], h⟩

omit [DecidableEq ι] in
/-- The others leave alone what an import that has returned has placed, until one of them
    begins with the target. -/
theorem placed_spared {u u' : Scene ι} {W : ArchiveLayout} (hsteady : a.Steady u u')
    (hspares : a.Spares calls i u u') (hplaced : u.holder = some i → a.Placed calls i W u)
    (hholder : u'.holder = some i) : a.Placed calls i W u' := by
  obtain ⟨y, hduring, hshows⟩ := hplaced (hspares.held hholder)
  exact ⟨y, hduring.rely ⟨hsteady, hspares, fun _ => hholder⟩, hshows⟩

/-- One step in turn keeps every import sound. -/
theorem sound_step (hs : ∀ i, s.Sound cred now a calls V i) (hturn : s.InTurn cred a calls i)
    (hstep : s.step cred now a.target i = some s') (j : ι) : s'.Sound cred now a calls V j := by
  rw [Imports.step] at hstep
  rcases hrest : s.rest i with r | _ | ⟨c, next⟩
  · rw [hrest] at hstep
    cases hstep
  · rw [hrest] at hstep
    cases hstep
  · rw [hrest] at hstep
    obtain rfl := Option.some.inj hstep
    have hbegins : looksAt a.target c = true → s.begins a.target i = true := by
      intro hlook
      rw [Imports.begins, hrest]
      exact hlook
    -- the import that makes the call is not at its end, so it keeps its guarantee
    have hmine := hs i
    rw [Imports.Sound, hrest] at hmine
    replace hmine := hmine.resolve_left fun ⟨⟨_, hdone⟩, _⟩ => by cases hdone
    obtain ⟨hguarantee, hnext⟩ := hmine.2 s.scene (.refl s.scene)
      fun hlook => (hturn (hbegins hlook)).2
    by_cases hj : j = i
    · subst hj
      apply sound_of_among
      simp only [Function.update_self]
      exact hnext
    · have hsame : Function.update s.rest i (next (Scene.exec cred now a.target i c s.scene).1) j =
          s.rest j := Function.update_of_ne hj _ _
      have hspares := hguarantee.spares j hj
      rcases hs j with ⟨⟨response, hdone⟩, hheld, hplaced⟩ | ⟨hruns, hcopes⟩
      · left
        refine ⟨⟨response, hsame.trans hdone⟩, hguarantee.steady.held hheld, fun hholder => ?_⟩
        exact placed_spared hguarantee.steady hspares hplaced hholder
      · right
        have hholds : s.scene.holder = some j →
            (Scene.exec cred now a.target i c s.scene).2.holder = some j := by
          intro hholder
          by_cases hlook : looksAt a.target c = true
          · rcases (hturn (hbegins hlook)).1 j hholder with heq | hreturned
            · exact absurd heq hj
            · rw [hruns] at hreturned
              cases hreturned
          · simp only [Scene.exec, if_neg hlook, hholder]
        refine ⟨by simpa only [Imports.returned, hsame] using hruns, ?_⟩
        simp only [hsame]
        rcases hrest' : s.rest j with r | _ | ⟨c', next'⟩
        · rw [Imports.returned, hrest'] at hruns
          cases hruns
        · trivial
        · rw [hrest'] at hcopes
          exact hcopes.disturbed (fun h h' => h.trans h') ⟨hguarantee.steady, hspares, hholds⟩

end Run

/-- **Imports that replace in turn serialize.**  Where the service may do everything, nothing
    but directories is on the way to the target, and the names the imports make up are free
    and all different: whatever the order in which the imports make their calls, as long as
    they begin in turn to replace what stands at the target, none of them fails; and whenever
    one has returned and the one that began last has, exactly the object of one that has
    succeeded stands at the target. -/
theorem imports_serialize (cred : Cred) (hcred : cred.privileged = true) (now : Nat)
    (cfg : ServiceConfig) (hroot : RootPath cfg.root) (a : Aim) (calls : ι → ImportCall)
    (bytes : ι → List UInt8) (V : ι → ArchiveLayout) (t : FileTree) (hapart : a.Apart calls)
    (htakes : ∀ i, a.Takes cfg (calls i).header)
    (hrest : ∀ i, payload (calls i).rest = some (bytes i))
    (hV : ∀ i, Depicts cfg.codec (bytes i) (V i) (calls i).encoding)
    (hpassable : Passable t a.dir)
    (hfresh : ∀ i, ∀ n ∈ (calls i).madeUp, t.get? (a.dir ++ [n]) = none) {s : Imports ι}
    (hreach : Transitions.Reaches (Imports.step cred now a.target) (Imports.InTurn cred a calls)
      (.start cfg calls t) s) :
    (∀ i, s.returned i = true → s.succeeded i = true) ∧
      ((∃ i, s.returned i = true) → (∀ i ∈ s.scene.holder, s.returned i = true) →
        ∃ i, s.succeeded i = true ∧ Shows s.scene.tree (a.dir ++ [a.name]) (V i)) := by
  have hsound : ∀ i, s.Sound cred now a calls V i := by
    refine hreach.invariant (fun i => ?_) (fun _ _ _ hs hturn hstep => sound_step hs hturn hstep)
    exact sound_of_among (among_importObject hapart hcred (hV i) hroot (htakes i) (hrest i)
      ⟨hpassable, hfresh i, (fun h => by cases h)⟩)
  have hdone : ∀ i, s.returned i = true → s.succeeded i = true ∧
      s.scene.holder ≠ none ∧ (s.scene.holder = some i → a.Placed calls i (V i) s.scene) := by
    intro i hreturned
    rcases hsound i with ⟨⟨response, hrest⟩, hplaced⟩ | ⟨hruns, -⟩
    · exact ⟨by rw [Imports.succeeded, hrest], hplaced⟩
    · rw [hreturned] at hruns
      cases hruns
  refine ⟨fun i hreturned => (hdone i hreturned).1, ?_⟩
  rintro ⟨j, hj⟩ hlast
  obtain ⟨i, hholder⟩ := Option.ne_none_iff_exists'.mp (hdone j hj).2.1
  obtain ⟨hok, -, hplaced⟩ := hdone i (hlast i hholder)
  obtain ⟨y, hduring, hshows, -⟩ := hplaced hholder
  refine ⟨i, hok, fun q => ?_⟩
  rw [hduring.alike.get? _ (Region.seen_of_own
    ((a.area (calls i) true).below _ _ target_own (List.prefix_append _ q)))]
  exact hshows q

/-! ### Two imports -/

/-- A service whose archives hold two empty files each. -/
def pairConfig : ServiceConfig where
  root := "/srv"
  agentUid := 1000
  agentGid := 1000
  fetch := ⟨30, 1048576, false⟩
  oss := ⟨"", 8388608, 8388608, 600, ⟨none, .ok "upload", fun _ => none, none, none⟩⟩
  codec := ⟨fun _ => [], fun bytes => (if bytes = [1] then ["k", "l"] else ["m", "n"]).map
    fun path => .entry ⟨path, .regular, true, 0o644, 0, 0, 1, []⟩ true⟩
  sha256 := fun _ => ""

/-- The target `p` in the home of `w1`. -/
def pairAim : Aim := ⟨["srv", "w1", "home"], ["srv", "w1", "home"], "p", 1000, 1000⟩

/-- Two archives, one for each of the imports. -/
def pairCalls : Bool → ImportCall
  | false => ⟨⟨1, 1⟩, ⟨"w1", "p", 2, ""⟩, [.ok (.chunk [1])]⟩
  | true => ⟨⟨2, 2⟩, ⟨"w1", "p", 2, ""⟩, [.ok (.chunk [2])]⟩

/-- What the archives describe. -/
def pairLayout : Bool → ArchiveLayout
  | false => Layout.put (Layout.put .bare ["k"] (.leaf [])) ["l"] (.leaf [])
  | true => Layout.put (Layout.put .bare ["m"] (.leaf [])) ["n"] (.leaf [])

theorem depicts_pair (i : Bool) : Depicts pairConfig.codec (if i then [2] else [1]) (pairLayout i)
    (pairCalls i).encoding := by
  have hfiles : ∀ name, pairLayout i [name] ≠ some .dir := by
    intro name hdir
    cases i
    all_goals
      simp only [pairLayout, Layout.put, Layout.bare] at hdir
      split at hdir <;> simp_all
  have harchive : Depicts pairConfig.codec (if i then [2] else [1]) (pairLayout i) .tarGz := by
    refine ⟨pairLayout i, by cases i <;> rfl, Or.inr ⟨?_, rfl⟩⟩
    rintro ⟨name, hsole⟩
    exact hfiles name hsole.1
  cases i <;> exact harchive

theorem apart_pair : pairAim.Apart pairCalls := ⟨by decide, by decide, by decide⟩

theorem takes_pair (i : Bool) : pairAim.Takes pairConfig (pairCalls i).header := by
  cases i
  all_goals exact ⟨by decide, by decide, by decide, rfl, rfl⟩

/-- The imports after some turns. -/
def pairRun (turns : List Bool) : Option (Imports Bool) :=
  Transitions.run (Imports.step rootUser 7 pairAim.target)
    (.start pairConfig pairCalls sampleHost) turns

/-- The first has got as far as its extraction when the second is made; then it goes on. -/
def turnsApart : List Bool :=
  List.replicate 26 false ++ List.replicate 35 true ++ List.replicate 10 false

/-- It replaces what the second has brought. -/
theorem imports_serialize_pair : ∃ s, pairRun turnsApart = some s ∧
    (∀ i, s.succeeded i = true) ∧
    ∃ i, Shows s.scene.tree ["srv", "w1", "home", "p"] (pairLayout i) := by
  obtain ⟨s, hrun⟩ : ∃ s, pairRun turnsApart = some s := Option.isSome_iff_exists.mp (by decide)
  have hended : (some s).map (fun s => (s.returned false, s.returned true)) =
      some (true, true) := by
    rw [← hrun]
    decide
  have hreturned : ∀ i, s.returned i = true := by
    obtain ⟨hfirst, hsecond⟩ := Prod.mk.inj (Option.some.inj hended)
    intro i
    cases i
    · exact hfirst
    · exact hsecond
  have hreach := Transitions.reaches_of_fine _ hrun
    (by decide +kernel : Transitions.Fine (Imports.step rootUser 7 pairAim.target)
      (Imports.InTurn rootUser pairAim pairCalls) (.start pairConfig pairCalls sampleHost) _)
  obtain ⟨hok, hholds⟩ := imports_serialize rootUser rfl 7 pairConfig ⟨by decide, by decide⟩ pairAim
    pairCalls (fun i => if i then [2] else [1]) pairLayout sampleHost apart_pair takes_pair
    (by decide) depicts_pair (passable_of_isDir (by decide)) (by decide) hreach
  obtain ⟨i, -, hshows⟩ := hholds ⟨true, hreturned true⟩ fun i _ => hreturned i
  exact ⟨s, hrun, fun i => hok i (hreturned i), i, hshows⟩

/-- Both have looked at the target before either of them has made it. -/
def turnsMixed : List Bool :=
  List.replicate 27 false ++ List.replicate 27 true ++ List.replicate 8 false ++
    List.replicate 9 true

/-- Both succeed, and the target holds the files of both. -/
theorem imports_mix :
    (∀ i, Depicts pairConfig.codec (if i then [2] else [1]) (pairLayout i)
      (pairCalls i).encoding) ∧ pairAim.Apart pairCalls ∧
    ∃ s, Transitions.Reaches (Imports.step rootUser 7 pairAim.target) Transitions.Free
        (.start pairConfig pairCalls sampleHost) s ∧
      (∀ i, s.succeeded i = true) ∧
      (∀ n ∈ ["k", "l", "m", "n"], (s.scene.tree.get? ["srv", "w1", "home", "p", n]).isSome) ∧
      ∀ i, ¬ Shows s.scene.tree ["srv", "w1", "home", "p"] (pairLayout i) := by
  obtain ⟨s, hrun⟩ : ∃ s, pairRun turnsMixed = some s := Option.isSome_iff_exists.mp (by decide)
  have hended : (some s).map (fun s => (s.succeeded false, s.succeeded true,
      ["k", "l", "m", "n"].map fun n =>
        (s.scene.tree.get? ["srv", "w1", "home", "p", n]).isSome)) =
      some (true, true, [true, true, true, true]) := by
    rw [← hrun]
    decide
  simp only [Option.map_some, List.map_cons, List.map_nil, Option.some.injEq, Prod.mk.injEq,
    List.cons.injEq, and_true] at hended
  obtain ⟨hfirst, hsecond, hk, hl, hm, hn⟩ := hended
  refine ⟨depicts_pair, apart_pair, s, Transitions.reaches_of_run _ _ _ hrun, ?_, ?_, ?_⟩
  · intro i
    cases i
    · exact hfirst
    · exact hsecond
  · simp only [List.forall_mem_cons]
    exact ⟨hk, hl, hm, hn, fun _ h => absurd h List.not_mem_nil⟩
  · intro i hshows
    cases i with
    | false =>
      have hnone := hshows.none_iff.mpr (by decide : pairLayout false ["m"] = none)
      rw [List.cons_append, List.cons_append, List.cons_append, List.singleton_append] at hnone
      rw [hnone] at hm
      cases hm
    | true =>
      have hnone := hshows.none_iff.mpr (by decide : pairLayout true ["k"] = none)
      rw [List.cons_append, List.cons_append, List.cons_append, List.singleton_append] at hnone
      rw [hnone] at hk
      cases hk

end Scriptorium
