import Scriptorium.Packing
import Scriptorium.ImportSuccess
import Mathlib.Logic.Equiv.List

/-!
# Exports that are imported again

What `ExportWorkspaceObject` streams for a directory, `ImportWorkspaceObject` takes: where
the directory holds nothing but directories and files without holes, what stands at the
target afterwards is a copy of it (`export_import_copies`).
-/

namespace Scriptorium

open Posix Effects

variable {cred : Cred} {now : Nat} {t : FileTree} {p : Pos}

theorem flatten_chunksWithin {size : Nat} (hsize : 0 < size) {n : Nat} {data : List UInt8}
    (hn : data.length ≤ n) : (chunksWithin size n data).flatten = data := by
  induction n generalizing data with
  | zero =>
    obtain rfl := List.length_eq_zero_iff.mp (Nat.le_zero.mp hn)
    rfl
  | succ n ih =>
    cases data with
    | nil => rfl
    | cons byte data =>
      rw [List.length_cons] at hn
      rw [chunksWithin, List.flatten_cons, ih, List.take_append_drop]
      · rw [List.length_drop, List.length_cons]
        omega
      · nofun

/-- Chunks are what they have been cut from. -/
theorem flatten_chunksOf {size : Nat} (hsize : 0 < size) (data : List UInt8) :
    (chunksOf size data).flatten = data := by
  rw [chunksOf, if_neg (Nat.ne_of_gt hsize)]
  exact flatten_chunksWithin hsize (Nat.le_refl _)

/-! ### The export -/

/-- The bytes of an archive of the nodes at some paths. -/
def packed (codec : Codec) (t : FileTree) (p : Pos) (root : String)
    (visited : List Pos) : List UInt8 :=
  codec.pack (visited.map fun q => entryOfNode (root :: q) (nodeAt t (p ++ q)))

theorem kind_entryOfNode_plain (path : Pos) {node : Node}
    (hplain : node.kind = .dir ∨ ∃ data, node.kind = .file data false) :
    (entryOfNode path node).kind ∈ [EntryKind.regular, .directory] := by
  rw [entryOfNode]
  rcases hplain with hkind | ⟨data, hkind⟩
  · simp [hkind, entryOf]
  · simp [hkind, fileEntry, entryOf]

section Export

variable (hcred : cred.privileged = true) (cfg : ServiceConfig)

include hcred

variable (now) in
/-- The source is examined. -/
theorem run_statSource {dir : Pos} {root : String} {node : Node}
    (hnode : t.get? (dir ++ [root]) = some node)
    (hlink : node.isLink = false) (sourcePath : String) :
    (statSource (canonical (dir ++ [root])) sourcePath).run (FileTree.exec cred now) t =
      (some (.ok node.fileType), t) := by
  have hfind := FileTree.find_entry hcred (FileTree.isDir_parent (by rw [hnode]; rfl)) hnode hlink
  have htype : FileTree.exec cred now (.fileType (canonical (dir ++ [root]))) t =
      (.ok node.fileType, t) := by
    simp only [FileTree.exec, hfind, Except.map]
  rw [statSource, Prog.run_bind, Prog.run_attempt, run_sys_of_ok htype]
  rfl

/-- A directory without links is packed, whatever else is in it. -/
theorem run_tarGzIntoTemp_dir {codec : Codec} {dir : Pos} {root : String}
    (hdir : t.isDir (dir ++ [root]) = true) (hlinks : Linkless t (dir ++ [root])) :
    ∃ visited : List Pos, (∀ q, q ∈ visited ↔ (t.get? (dir ++ [root] ++ q)).isSome) ∧
      ∀ now fuel, visited.length ≤ fuel →
        (tarGzIntoTemp codec fuel (canonical (dir ++ [root]))).run (FileTree.exec cred now) t =
          (some (.ok (packed codec t (dir ++ [root]) root visited)), t) := by
  obtain ⟨visited, -, hvisited, hpack⟩ := run_appendDirAll hcred hlinks hdir
  refine ⟨visited, hvisited, fun now fuel hfuel => ?_⟩
  have happend : (io (appendDirAll fuel root (canonical (dir ++ [root])))).run
      (FileTree.exec cred now) t =
      (some (.ok (visited.map fun q => entryOfNode (root :: q) (nodeAt t (dir ++ [root] ++ q)))),
        t) := by
    rw [io, Prog.run_mapError, hpack now root fuel hfuel]
    rfl
  have hisDir : (isDir (canonical (dir ++ [root])) : Fs Error Bool).run (FileTree.exec cred now) t =
      (some (.ok true), t) := run_isDir_dir now hcred hdir
  rw [tarGzIntoTemp, Prog.run_bind_ok _ hisDir, if_pos rfl, PathBuf.fileName_canonical_concat,
    Option.getD_some,
    Prog.run_bind_ok _ happend]
  rfl

omit hcred in
theorem workspaceId_not_empty (hroot : RootPath cfg.root) {workspaceId path : String}
    {target : PathBuf}
    (hresolve : resolvePath cfg.root workspaceId path = .ok target) : workspaceId.isEmpty =
      false := by
  have hlength := (resolvePath_eq_ok hroot hresolve).1.1
  rw [Bool.eq_false_iff, Ne, String.isEmpty_iff, ← String.length_eq_zero_iff]
  omega

/-- A directory without links is exported, whatever else is in it. -/
theorem run_exportWorkspaceObject (hroot : RootPath cfg.root) {dir : Pos} {root : String}
    (hdir : t.isDir (dir ++ [root]) = true) (hlinks : Linkless t (dir ++ [root]))
    {req : ExportRequest} (hencoding : WorkspaceObjectEncoding.ofInt req.encoding = .tarGz)
    (hsource : resolvePath cfg.root req.workspaceId req.sourcePath =
      .ok (canonical (dir ++ [root]))) :
    ∃ visited : List Pos, (∀ q, q ∈ visited ↔ (t.get? (dir ++ [root] ++ q)).isSome) ∧
      ∀ now fuel, visited.length ≤ fuel → ∃ header,
        (exportWorkspaceObject cfg fuel req).run (FileTree.exec cred now) t =
          (some (.ok (.header header :: (chunksOf transferChunkSize
            (packed cfg.codec t (dir ++ [root]) root visited)).map .chunk)), t) := by
  obtain ⟨visited, hvisited, hpack⟩ :=
    @run_tarGzIntoTemp_dir cred t hcred cfg.codec dir root hdir hlinks
  refine ⟨visited, hvisited, fun now fuel hfuel => ?_⟩
  let data := packed cfg.codec t (dir ++ [root]) root visited
  obtain ⟨node, hnode, hkind⟩ := FileTree.isDir_iff.mp hdir
  have hlink : node.isLink = false := hlinks [] node (by rw [List.append_nil]; exact hnode)
  have hstat : (statSource (canonical (dir ++ [root])) req.sourcePath).run
      (FileTree.exec cred now) t =
      (some (.ok .dir), t) := by
    rw [run_statSource now hcred hnode hlink, Node.fileType, Node.isDir_iff.mp hkind]
  have hresolved : (rpc (Prog.ofExcept (resolvePath cfg.root req.workspaceId req.sourcePath))).run
      (FileTree.exec cred now) t = (some (.ok (canonical (dir ++ [root]))), t) := by
    rw [hsource]
    rfl
  have hpayload : (exportPayload cfg fuel .tarGz (canonical (dir ++ [root])) .dir).run
      (FileTree.exec cred now) t =
      (some (.ok (.archive data, root ++ ".tar.gz", "application/gzip")), t) := by
    simp only [exportPayload, ne_eq, not_true_eq_false, if_false]
    have htar : (rpc (tarGzIntoTemp cfg.codec fuel (canonical (dir ++ [root])))).run
        (FileTree.exec cred now) t =
        (some (.ok data), t) := by
      rw [rpc, Prog.run_mapError, hpack now fuel hfuel]
      rfl
    rw [Prog.run_bind_ok _ htar, PathBuf.fileName_canonical_concat]
    rfl
  refine ⟨⟨req.sourcePath, root ++ ".tar.gz", 2, "application/gzip", data.length, cfg.sha256 data⟩,
    ?_⟩
  have hexport : (doExportWorkspaceObject cfg fuel req).run (FileTree.exec cred now) t =
      (some
        (.ok
        ⟨⟨req.sourcePath, root ++ ".tar.gz", 2, "application/gzip", data.length, cfg.sha256 data⟩,
        .archive data⟩), t) := by
    rw [doExportWorkspaceObject, if_neg (by simp [workspaceId_not_empty cfg hroot hsource]),
      Prog.run_bind_ok _ hresolved, Prog.run_bind_ok _ hstat,
      hencoding]
    dsimp only
    rw [Prog.run_bind_ok _ hpayload]
    rfl
  rw [exportWorkspaceObject, Prog.run_bind_ok _ hexport]
  rfl

end Export

/-! ### The import of an export -/

section Depicts

variable {codec : Codec} {kinds : List EntryKind} {root : String} {visited : List Pos}

theorem unpack_packed (hcodec : codec.Lossless kinds)
    (hkinds : ∀ path q node, t.get? (p ++ q) = some node → (entryOfNode path node).kind ∈ kinds)
    (hvisited : ∀ q, q ∈ visited ↔ (t.get? (p ++ q)).isSome) :
    codec.unpack (packed codec t p root visited) =
      (visited.map fun q => entryOfNode (root :: q) (nodeAt t (p ++ q))).map (.entry · true) := by
  apply hcodec
  intro e he
  obtain ⟨q, hq, rfl⟩ := List.mem_map.mp he
  obtain ⟨node, hnode⟩ := Option.isSome_iff_exists.mp ((hvisited q).mp hq)
  rw [nodeAt_eq hnode]
  exact hkinds _ q node hnode

/-- The archive of a plain directory stands for its layout: the directory around it is
    left out again. -/
theorem depicts_packed (hunpack : codec.unpack (packed codec t p root visited) =
      (visited.map fun q => entryOfNode (root :: q) (nodeAt t (p ++ q))).map (.entry · true))
    (hplain : Plain t p) (hdir : t.isDir p = true) (hroot : Proper root)
    (hvisited : ∀ q, q ∈ visited ↔ (t.get? (p ++ q)).isSome) :
    Depicts codec (packed codec t p root visited) (treeLayout t p) .tarGz := by
  refine ⟨(treeLayout t p).wrap root, ?_, Layout.unwrapped_wrap (hplain.closed hdir) root⟩
  rw [hunpack]
  exact layoutOf_packed hplain hdir hroot hvisited

/-- Bytes that stand for a plain directory are imported as a copy of it. -/
theorem import_copies (hcred : cred.privileged = true) (cfg : ServiceConfig)
    (hroot : RootPath cfg.root)
    (hplain : Plain t p) {bytes : List UInt8} (hV : Depicts cfg.codec bytes (treeLayout t p) .tarGz)
    {u : FileTree} {clock : ImportClock} {header : ImportHeader} {rest : ImportStream} {dir : Pos}
    {name : String} (hwelcome : Welcome cred cfg clock header u dir name)
    (hencoding : WorkspaceObjectEncoding.ofInt header.encoding = .tarGz)
    (hrest : payload rest = some bytes) :
    ∃ response s, (doImportWorkspaceObject cfg clock (.ok (.header header) :: rest)).run
        (FileTree.exec cred now) u = (some (.ok response), s) ∧
      ∀ q, (s.get? (dir ++ [name] ++ q)).map Node.kind = (t.get? (p ++ q)).map Node.kind := by
  rw [← hencoding] at hV
  obtain ⟨contentType, s, himport, hshows, -⟩ :=
    run_importObject_ok now hcred cfg hroot hwelcome hrest hV
  refine ⟨_, s, himport, fun q => ?_⟩
  rw [hshows q, hplain.shows q]

end Depicts

variable (cred) in
/-- **Export, then import.**  A directory that holds nothing but directories and files
    without holes is exported without a change to the tree.  Chunks that make up the same
    bytes, cut in any way, are imported at any target that can be there and is no link,
    below nothing but directories, and leave there the same directories and files with the
    same contents, when the names made up from the clock are free. -/
theorem export_import_copies (hcred : cred.privileged = true) (cfg : ServiceConfig)
    (hcodec : cfg.codec.Lossless [.regular, .directory]) (hroot : RootPath cfg.root) (t : FileTree)
    (req : ExportRequest) (hencoding : WorkspaceObjectEncoding.ofInt req.encoding = .tarGz)
    (source : Pos)
    (root : String) (hdir : t.isDir (source ++ [root]) = true) (hplain : Plain t (source ++ [root]))
    (hsource : resolvePath cfg.root req.workspaceId req.sourcePath =
      .ok (canonical (source ++ [root]))) :
    ∃ (chunks : List (List UInt8)) (turns : Nat), (∀ now fuel, turns ≤ fuel → ∃ header,
        (exportWorkspaceObject cfg fuel req).run (FileTree.exec cred now) t =
          (some (.ok (.header header :: chunks.map .chunk)), t)) ∧
      ∀ (u : FileTree) now clock (header : ImportHeader) (rest : ImportStream) dir name,
        resolvePath cfg.root header.workspaceId header.targetPath = .ok
          (canonical (dir ++ [name])) →
        homePos cfg.root header.workspaceId <+: dir → Storable (dir ++ [name]) → Passable u dir →
        (∀ node, u.get? (dir ++ [name]) = some node → node.isLink = false) →
        Fresh clock u dir name →
        WorkspaceObjectEncoding.ofInt header.encoding = .tarGz →
        payload rest = some chunks.flatten →
        ∃ response s, (doImportWorkspaceObject cfg clock (.ok (.header header) :: rest)).run
            (FileTree.exec cred now) u = (some (.ok response), s) ∧
          ∀ q, (s.get? (dir ++ [name] ++ q)).map Node.kind =
            (t.get? (source ++ [root] ++ q)).map Node.kind := by
  obtain ⟨visited, hvisited, hexport⟩ :=
    run_exportWorkspaceObject hcred cfg hroot hdir hplain.linkless hencoding hsource
  refine ⟨_, visited.length, hexport, ?_⟩
  rw [flatten_chunksOf (by decide)]
  intro u now clock header rest dir name hresolve hhome hnames hopen hlink hfresh hencoding' hrest
  have hwelcome := welcome_of_plain hcred cfg hresolve hhome hnames hopen hlink hfresh
  have hunpack := @unpack_packed t (source ++ [root]) cfg.codec _ root visited hcodec
    (fun path q node hnode => kind_entryOfNode_plain path (hplain q node hnode)) hvisited
  have hV := depicts_packed hunpack hplain hdir
    (t.proper source root (FileTree.isSome_of_isDir hdir)) hvisited
  exact import_copies hcred cfg hroot hplain hV hwelcome hencoding' hrest

/-! ### A directory copied within a home -/

def EntryKind.index : EntryKind → Nat
  | .regular => 0
  | .directory => 1
  | .fifo => 2
  | .gnuSparse => 3
  | .symlink => 4
  | .hardLink => 5
  | .other => 6

def EntryKind.ofIndex : Nat → EntryKind
  | 0 => .regular
  | 1 => .directory
  | 2 => .fifo
  | 3 => .gnuSparse
  | 4 => .symlink
  | 5 => .hardLink
  | _ => .other

/-- The fields of an entry as numbers. -/
def TarEntry.fields (e : TarEntry) : List Nat × Nat × Bool × Nat × Nat × Nat × Nat × List Nat :=
  (e.path.toList.map Char.toNat, e.kind.index, e.ustar, e.mode, e.uid, e.gid, e.mtime,
    e.data.map UInt8.toNat)

def TarEntry.ofFields : List Nat × Nat × Bool × Nat × Nat × Nat × Nat × List Nat → TarEntry
  | (path, kind, ustar, mode, uid, gid, mtime, data) =>
    ⟨String.ofList (path.map Char.ofNat), .ofIndex kind, ustar, mode, uid, gid, mtime,
      data.map UInt8.ofNat⟩

theorem TarEntry.ofFields_fields (e : TarEntry) : TarEntry.ofFields e.fields = e := by
  obtain ⟨path, kind, ustar, mode, uid, gid, mtime, data⟩ := e
  have hpath : (path.toList.map Char.toNat).map Char.ofNat = path.toList := by
    simp [List.map_map, Function.comp_def]
  have hdata : (data.map UInt8.toNat).map UInt8.ofNat = data := by
    simp [List.map_map, Function.comp_def]
  have hkind : EntryKind.ofIndex kind.index = kind := by cases kind <;> rfl
  simp only [fields, ofFields, hpath, hdata, hkind, String.ofList_toList]

/-- An archive format: as many bytes as the number of the list of entries. -/
def unaryCodec : Codec where
  pack entries := List.replicate (Encodable.encode (entries.map TarEntry.fields)) 0
  unpack bytes :=
    match (Encodable.decode bytes.length : Option
      (List (List Nat × Nat × Bool × Nat × Nat × Nat × Nat × List Nat))) with
    | some fields => fields.map fun f => .entry (TarEntry.ofFields f) true
    | none => []

theorem lossless_unaryCodec (kinds : List EntryKind) : unaryCodec.Lossless kinds := by
  intro entries _
  simp only [unaryCodec, List.length_replicate, Encodable.encodek, List.map_map]
  apply List.map_congr_left
  intro e _
  rw [Function.comp_apply, e.ofFields_fields]

def unaryConfig : ServiceConfig := { importConfig with codec := unaryCodec }

theorem welcome_sampleHost :
    Welcome rootUser unaryConfig ⟨0, 0⟩ ⟨"w1", "c", 2, ""⟩ sampleHost ["srv", "w1", "home"] "c" :=
  welcome_of_plain rfl unaryConfig (by decide) (by decide) (by decide)
    (passable_of_isDir (by decide))
    (fun node hnode => FileTree.symlinkFree_ofEntries (by decide) _ node hnode)
    ⟨by decide, by decide, by decide, by decide,
      fun q node _ hnode => FileTree.symlinkFree_ofEntries (by decide) q node hnode⟩

theorem plain_sampleHost : Plain sampleHost ["srv", "w1", "home"] := by
  intro q node hnode
  have hmem : ["srv", "w1", "home"] ++ q ∈ sampleHost.support :=
    (sampleHost.mem_support _).mpr (by rw [hnode]; rfl)
  have hkinds : ∀ p ∈ sampleHost.support, ∀ node ∈ sampleHost.get? p,
      node.kind = .dir ∨ node.kind = .file [104, 105] false := by decide
  exact (hkinds _ hmem node hnode).imp_right fun hkind => ⟨_, hkind⟩

/-- The home is exported, and comes back as an entry of itself. -/
theorem export_import_copies_home : ∃ (chunks : List (List UInt8)) (turns : Nat)
    (response : ImportResponse)
    (s : FileTree), (∃ header, (exportWorkspaceObject unaryConfig turns ⟨"w1", "", 2⟩).run
        (FileTree.exec rootUser 7) sampleHost =
          (some (.ok (.header header :: chunks.map .chunk)), sampleHost)) ∧
      (doImportWorkspaceObject unaryConfig ⟨0, 0⟩
          (.ok (.header ⟨"w1", "c", 2, ""⟩) :: chunks.map fun data => .ok (.chunk data))).run
        (FileTree.exec rootUser 8) sampleHost = (some (.ok response), s) ∧
      (s.get? ["srv", "w1", "home", "c", "b"]).map Node.kind = some (.file [104, 105] false) := by
  have hroot : RootPath unaryConfig.root := ⟨by decide, by decide⟩
  obtain ⟨chunks, turns, hexport, himport⟩ := export_import_copies rootUser rfl unaryConfig
    (lossless_unaryCodec _) hroot sampleHost ⟨"w1", "", 2⟩ rfl ["srv", "w1"] "home" (by decide)
    plain_sampleHost (by decide)
  obtain ⟨response, s, hrun, hcopy⟩ :=
    himport sampleHost 8 ⟨0, 0⟩ ⟨"w1", "c", 2, ""⟩ _ ["srv", "w1", "home"] "c"
    welcome_sampleHost.resolve welcome_sampleHost.below welcome_sampleHost.storable
    welcome_sampleHost.passable
    (fun node hnode => FileTree.symlinkFree_ofEntries (by decide) _ node hnode)
      welcome_sampleHost.fresh rfl
    (payload_chunks chunks)
  exact ⟨chunks, turns, response, s, hexport 7 turns (Nat.le_refl turns), hrun, hcopy ["b"]⟩

/-- A home with nothing in it. -/
def bareHost : FileTree := .ofEntries
  [([], hostDir), (["srv"], hostDir), (["srv", "w1"], hostDir), (["srv", "w1", "home"], hostDir)]
  (by decide)

/-- A service that can pack the bare home, and unpack it again. -/
def bareConfig : ServiceConfig :=
  { importConfig with codec :=
    ⟨fun _ => [31], fun _ => [.entry (entryOfNode ["home"] hostDir) true]⟩ }

/-- The bare home is exported, but not imported at the name that is made up for its own
    extraction. -/
theorem export_import_meets_name :
    (∀ entries, bareConfig.codec.unpack (bareConfig.codec.pack entries) =
      [entryOfNode ["home"] hostDir].map (.entry · true)) ∧
    ((exportWorkspaceObject bareConfig 1 ⟨"w1", "", 2⟩).run (FileTree.exec rootUser 7) bareHost).1 =
      some (.ok [.header ⟨"", "home.tar.gz", 2, "application/gzip", 1, ""⟩, .chunk [31]]) ∧
    ((doImportWorkspaceObject bareConfig ⟨0, 0⟩
        [.ok (.header ⟨"w1", ".scriptorium-expand-0.tmp", 2, ""⟩), .ok (.chunk [31])]).run
      (FileTree.exec rootUser 8) bareHost).1.map Except.isOk = some false :=
  ⟨fun _ => rfl, by decide, by decide⟩

end Scriptorium
