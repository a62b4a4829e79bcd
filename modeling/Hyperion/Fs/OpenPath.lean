import Hyperion.Fs.RemovePath

/-!
# What `open` opens and creates

`open` asks `resolve` whether the path exists, and if it does not, cuts the path at its last
slash to create the file.  The two decompositions agree where it matters: behind a trailing
slash the part in front has the same components as the whole path, so it is not found either
and nothing is created (`openPath_trailing`).  A file is therefore only created under a name
that is non-empty and has no slash.

`createUnder_cases` and `openPath_cases` say what the calls can do, for every path.
-/

namespace Hyperion.Fs

open Hyperion.Lib

variable {fs fs' : Ramfs} {path : String} {dir ref : InodeRef} {name : String}

/-! ## Creating a node -/

section

variable (wf : fs.WellFormed)

include wf

/-- A call that creates a node fails and changes nothing, or it enters the new node in the
directory that the path up to its last slash resolves to. -/
theorem createUnder_cases (path : String) (node : String → RamNode)
    (hnode : ∀ name entries, (node name).data = .dir entries → entries = .empty) :
    (∃ e, createUnder fs path (fun fs dir name => fs.create dir name (node name)) =
      (.error e, fs)) ∨
    ∃ dir fs', createUnder fs path (fun fs dir name => fs.create dir name (node name)) =
        (.ok fs.next, fs') ∧
      fs.locate (parentOf path) = some dir ∧ fs.entryAt dir = .branch ∧
      fs.lookup dir (lastComponent path) = none ∧
      Ramfs.Created fs fs' dir (lastComponent path) (node (lastComponent path)).data.entry := by
  rw [createUnder_eq, (splitParent_spec path).2.1]
  cases hparent : Root.resolve fs (Root.splitParent path).1 with
  | error e => exact .inl ⟨e, rfl⟩
  | ok dir =>
    have hlocate := locate_of_resolve hparent
    cases hkind : fs.entryAt dir with
    | leaf contents => exact .inl ⟨_, Ramfs.create_of_leaf hkind _⟩
    | branch =>
      cases hlookup : fs.lookup dir (lastComponent path) with
      | some found => exact .inl ⟨_, Ramfs.create_of_present hkind hlookup _⟩
      | none =>
        obtain ⟨fs', hcreate, hcreated⟩ := Ramfs.create_of_absent wf
          (Ramfs.locate_lt wf hlocate) hkind hlookup (hnode (lastComponent path))
        exact .inr ⟨dir, fs', hcreate, hlocate, hkind, hlookup, hcreated⟩

/-- Entering a node keeps the tree a tree, also where it fails. -/
theorem Ramfs.WellFormed.create (hdir : dir < fs.next) (name : String) {node : RamNode}
    (hnode : ∀ entries, node.data = .dir entries → entries = .empty) :
    (fs.create dir name node).2.WellFormed := by
  cases hkind : fs.entryAt dir with
  | leaf contents => rwa [Ramfs.create_of_leaf hkind]
  | branch =>
    cases hlookup : fs.lookup dir name with
    | some found => rwa [Ramfs.create_of_present hkind hlookup]
    | none =>
      obtain ⟨fs', hcreate, hcreated⟩ := Ramfs.create_of_absent wf hdir hkind hlookup hnode
      rw [hcreate]
      exact hcreated.wellFormed wf hdir

theorem Ramfs.WellFormed.createFile (hdir : dir < fs.next) (name : String) (contents : List UInt8) :
    (fs.createFile dir name contents).2.WellFormed := by
  refine wf.create hdir name ?_
  rintro entries ⟨⟩

theorem Ramfs.WellFormed.createDir (hdir : dir < fs.next) (name : String) :
    (fs.createDir dir name).2.WellFormed := by
  refine wf.create hdir name ?_
  rintro entries ⟨⟩
  rfl

theorem mkfile_cases (path : String) (contents : List UInt8) :
    (∃ e, mkfile fs path contents = (.error e, fs)) ∨
    ∃ dir fs', mkfile fs path contents = (.ok fs.next, fs') ∧
      fs.locate (parentOf path) = some dir ∧ fs.entryAt dir = .branch ∧
      fs.lookup dir (lastComponent path) = none ∧
      Ramfs.Created fs fs' dir (lastComponent path) (.leaf contents) := by
  refine createUnder_cases wf path (fun name => RamNode.newFile name contents) ?_
  rintro name entries ⟨⟩

theorem mkdir_cases (path : String) :
    (∃ e, mkdir fs path = (.error e, fs)) ∨
    ∃ dir fs', mkdir fs path = (.ok fs.next, fs') ∧
      fs.locate (parentOf path) = some dir ∧ fs.entryAt dir = .branch ∧
      fs.lookup dir (lastComponent path) = none ∧
      Ramfs.Created fs fs' dir (lastComponent path) .branch := by
  refine createUnder_cases wf path RamNode.newDir ?_
  rintro name entries ⟨⟩
  rfl

end

/-- A new node takes no path from the nodes that were there. -/
theorem Ramfs.Created.resolve_kept {found : Entry (List UInt8)} {parent : List String}
    (hcreated : Ramfs.Created fs fs' dir name found) (wf : fs.WellFormed)
    (habsent : fs.lookup dir name = none) (hparent : fs.locate parent = some dir) {other : String}
    (hresolve : Root.resolve fs other = .ok ref) : Root.resolve fs' other = .ok ref := by
  have hlocate := locate_of_resolve hresolve
  refine resolve_of_locate (ne_empty_of_resolve hresolve) ?_
  rw [hcreated.locate_eq wf habsent hparent, if_neg, hlocate]
  intro hsame
  rw [hsame, Ramfs.locate_concat hparent, habsent] at hlocate
  cases hlocate

/-! ## Opening -/

/-- `fs'` is `fs` with a new empty file, in a directory of the tree and under a name that
`resolve` can look up. -/
structure CreatedFile (fs fs' : Ramfs) (dir : InodeRef) (name : String) : Prop where
  name_ne : name ≠ ""
  name_slash : '/' ∉ name.toList
  reachable : ∃ comps, fs.locate comps = some dir
  directory : fs.ftype dir = .directory
  created : Ramfs.Created fs fs' dir name (.leaf [])

/-- What `open` of `path` with `flags` may answer, and what it may do to the tree. -/
structure OpensResolved (fs : Ramfs) (path : String) (flags : OpenFlags)
    (result : Except FsError File × Ramfs) : Prop where
  opened : ∀ file, result.1 = .ok file → Root.resolve result.2 path = .ok file.inode
  created : result.2 = fs ∨ flags.create = true ∧ Root.resolve fs path = .error .notFound ∧
    ∃ dir name, CreatedFile fs result.2 dir name
  kept : ∀ other ref, Root.resolve fs other = .ok ref → Root.resolve result.2 other = .ok ref
  failed : ∀ e, result.1 = .error e → result.2 = fs

theorem openPath_of_mkfile {flags : OpenFlags} (hmissing : Root.resolve fs path = .error .notFound)
    (hcreate : flags.create = true) :
    (∀ e, mkfile fs path [] = (.error e, fs) → Root.openPath fs path flags = (.error e, fs)) ∧
      ∀ inode fs', mkfile fs path [] = (.ok inode, fs') →
        Root.openPath fs path flags = (.ok ⟨inode, 0, flags⟩, fs') := by
  rw [Root.openPath, hmissing, mkfile, createUnder_eq]
  simp only [hcreate, and_self, if_true]
  cases Root.resolve fs (Root.splitParent path).1 with
  | error e =>
    constructor
    · intro e hfile
      cases hfile
      rfl
    · intro inode fs' hfile
      cases hfile
  | ok dir =>
    constructor
    · intro e hfile
      simp only at hfile
      simp only [hfile]
    · intro inode fs' hfile
      simp only at hfile
      simp only [hfile]

/-- Behind a slash there is nothing to create: the part in front of it is not found. -/
theorem openPath_trailing (hmissing : Root.resolve fs path = .error .notFound)
    (hpath : lastComponent path = "") (contents : List UInt8) :
    mkfile fs path contents = (.error .notFound, fs) := by
  have hne : path ≠ "" := by
    rintro rfl
    cases hmissing
  obtain ⟨hparent, _, hcomps⟩ := splitParent_trailing hpath
  have hsame : Root.resolve fs (Root.splitParent path).1 = Root.resolve fs path := by
    rw [resolve_eq fs hparent, resolve_eq fs hne, hcomps]
  rw [mkfile, createUnder_eq, hsame, hmissing]

/-- What `open` can do: open the node that is there, fail, or create the file. -/
inductive OpenCase (fs : Ramfs) (path : String) (flags : OpenFlags) :
    Except FsError File × Ramfs → Prop
  | found {ref : InodeRef} (hresolve : Root.resolve fs path = .ok ref) :
      OpenCase fs path flags (.ok ⟨ref, 0, flags⟩, fs)
  | failed (e : FsError) : OpenCase fs path flags (.error e, fs)
  | created {dir : InodeRef} {fs' : Ramfs} (hflag : flags.create = true)
      (hmissing : Root.resolve fs path = .error .notFound) (hpath : lastComponent path ≠ "")
      (hparent : fs.locate (parentOf path) = some dir) (hkind : fs.entryAt dir = .branch)
      (habsent : fs.lookup dir (lastComponent path) = none)
      (hcreated : Ramfs.Created fs fs' dir (lastComponent path) (.leaf [])) :
      OpenCase fs path flags (.ok ⟨fs.next, 0, flags⟩, fs')

theorem openPath_cases (wf : fs.WellFormed) (path : String) (flags : OpenFlags) :
    OpenCase fs path flags (Root.openPath fs path flags) := by
  cases hresolve : Root.resolve fs path with
  | ok ref =>
    rw [Root.openPath, hresolve]
    exact .found hresolve
  | error e =>
    by_cases hcreate : e = .notFound ∧ flags.create = true
    case neg =>
      rw [Root.openPath, hresolve]
      simp only [if_neg hcreate]
      exact .failed e
    case pos =>
      obtain ⟨rfl, hflag⟩ := hcreate
      obtain ⟨herror, hok⟩ := openPath_of_mkfile hresolve hflag
      by_cases hpath : lastComponent path = ""
      · rw [herror _ (openPath_trailing hresolve hpath [])]
        exact .failed _
      rcases mkfile_cases wf path [] with
        ⟨e, hfile⟩ | ⟨dir, fs', hfile, hparent, hkind, habsent, hcreated⟩
      · rw [herror e hfile]
        exact .failed e
      · rw [hok _ fs' hfile]
        exact .created hflag hresolve hpath hparent hkind habsent hcreated

/-- What was opened is what the path resolves to afterwards. -/
theorem OpenCase.resolve {flags : OpenFlags} {result : Except FsError File × Ramfs}
    (h : OpenCase fs path flags result) (wf : fs.WellFormed) {file : File}
    (hfile : result.1 = .ok file) : Root.resolve result.2 path = .ok file.inode := by
  cases h with
  | found hresolve =>
    cases hfile
    exact hresolve
  | failed e => cases hfile
  | created hflag hmissing hpath hparent hkind habsent hcreated =>
    cases hfile
    refine resolve_of_locate (ne_empty_of_lastComponent hpath) ?_
    rw [components_eq hpath, hcreated.locate_eq wf habsent hparent, if_pos rfl]

/-- A handle starts at offset 0, with the flags it was opened with. -/
theorem OpenCase.handle {flags : OpenFlags} {file : File}
    (h : OpenCase fs path flags (.ok file, fs')) : file.offset = 0 ∧ file.flags = flags := by
  cases h with
  | found hresolve => exact ⟨rfl, rfl⟩
  | created hflag hmissing hpath hparent hkind habsent hcreated => exact ⟨rfl, rfl⟩

/-- **`open` opens what the path resolves to**, and creates at most the one file that was not
found. -/
theorem openPath_resolved (wf : fs.WellFormed) (path : String) (flags : OpenFlags) :
    OpensResolved fs path flags (Root.openPath fs path flags) := by
  have hcases := openPath_cases wf path flags
  have hopened : ∀ file, (Root.openPath fs path flags).1 = .ok file →
      Root.resolve (Root.openPath fs path flags).2 path = .ok file.inode :=
    fun file hfile => hcases.resolve wf hfile
  generalize Root.openPath fs path flags = result at hcases hopened
  cases hcases with
  | found hresolve => exact ⟨hopened, .inl rfl, fun _ _ h => h, fun _ _ => rfl⟩
  | failed e => exact ⟨hopened, .inl rfl, fun _ _ h => h, fun _ _ => rfl⟩
  | created hflag hmissing hpath hparent hkind habsent hcreated =>
    have hfile := CreatedFile.mk hpath (splitParent_spec path).2.2.2 ⟨_, hparent⟩
      (Ramfs.ftype_eq_directory.mpr hkind) hcreated
    refine ⟨hopened, .inr ⟨hflag, hmissing, _, _, hfile⟩, ?_, ?_⟩
    · exact fun other ref hother => hcreated.resolve_kept wf habsent hparent hother
    · intro e herror
      cases herror

/-- On a root with one directory, `open("/d//f", CREATE)` creates the file. -/
theorem openPath_resolved_onlyD :
    onlyD.WellFormed ∧ OpensResolved onlyD "/d//f" ⟨false, true, true, false⟩
      (Root.openPath onlyD "/d//f" ⟨false, true, true, false⟩) :=
  ⟨wellFormed_onlyD, openPath_resolved wellFormed_onlyD "/d//f" ⟨false, true, true, false⟩⟩

end Hyperion.Fs
