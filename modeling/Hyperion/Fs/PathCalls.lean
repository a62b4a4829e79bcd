import Hyperion.Fs.FlatFs
import Hyperion.Fs.RamfsTree

/-!
# Calls by path, against the flat file system

One call at a time, for a ramfs whose view is a given map.  `resolve_eq_locate`
says what path resolution finds; it stops at the first file that has components
after it, which is where the map says that the path is blocked.  From it come
`createUnder_outcome` and `remove_cases`: a call fails with the error of the flat
file system and changes nothing, or it succeeds as the flat one does and replaces
one link of the tree.
-/

namespace Hyperion.Fs

open Hyperion.Lib Classical

variable {fs : Ramfs} {map : FlatFs} {path : String} {parent : List String}

/-! ## Path resolution -/

namespace Ramfs

theorem locate_concat {dir : InodeRef} (hparent : fs.locate parent = some dir) (name : String) :
    fs.locate (parent ++ [name]) = fs.lookup dir name := by
  rw [locate, descend_concat]
  show (fs.locate parent).bind _ = _
  rw [hparent]
  rfl

theorem view_of_locate {components : List String} {ref : InodeRef}
    (hpath : fs.locate components = some ref) : fs.view components = some (fs.entryAt ref) := by
  rw [view, hpath]
  rfl

end Ramfs

/-- Following `comps` from `cur` meets a file that has components after it. -/
def BlockedFrom (fs : Ramfs) (cur : InodeRef) (comps : List String) : Prop :=
  ∃ init, init <+: comps ∧ init ≠ comps ∧
    ∃ contents ref, descend fs.lookup cur init = some ref ∧ fs.entryAt ref = .leaf contents

theorem blockedFrom_of_leaf {cur : InodeRef} {contents : List UInt8}
    (hleaf : fs.entryAt cur = .leaf contents) (comp : String) (comps : List String) :
    BlockedFrom fs cur (comp :: comps) :=
  ⟨[], List.nil_prefix, by simp, contents, cur, rfl, hleaf⟩

/-- Below a directory, what blocks a path is beyond its first component. -/
theorem blockedFrom_cons {cur : InodeRef} (hbranch : fs.entryAt cur = .branch) (comp : String)
    (comps : List String) :
    BlockedFrom fs cur (comp :: comps) ↔
      ∃ next ∈ fs.lookup cur comp, BlockedFrom fs next comps := by
  constructor
  · rintro ⟨init, hinit, hne, contents, ref, hdescend, hleaf⟩
    cases init with
    | nil =>
      obtain rfl : cur = ref := by simpa using hdescend
      rw [hbranch] at hleaf
      cases hleaf
    | cons first rest =>
      obtain ⟨rfl, hrest⟩ := List.cons_prefix_cons.mp hinit
      rw [descend_cons] at hdescend
      obtain ⟨next, hnext, hdescend⟩ := Option.bind_eq_some_iff.mp hdescend
      exact ⟨next, hnext, rest, hrest, fun heq => hne (by rw [heq]), contents, ref, hdescend, hleaf⟩
  · rintro ⟨next, hnext, init, hinit, hne, contents, ref, hdescend, hleaf⟩
    refine ⟨comp :: init, List.cons_prefix_cons.mpr ⟨rfl, hinit⟩, by simpa using hne, contents, ref,
      ?_, hleaf⟩
    rw [descend_cons]
    exact Option.bind_eq_some_iff.mpr ⟨next, hnext, hdescend⟩

/-- The loop of `resolve` finds the node that the components lead to, and stops
with `NotADirectory` at a file that has components after it. -/
theorem resolveFrom_eq (fs : Ramfs) (cur : InodeRef) (comps : List String) :
    Root.resolveFrom fs cur comps =
      match descend fs.lookup cur comps with
      | some ref => .ok ref
      | none => .error (if BlockedFrom fs cur comps then .notADirectory else .notFound) := by
  induction comps generalizing cur with
  | nil => rfl
  | cons comp comps ih =>
    rw [Root.resolveFrom, descend_cons]
    cases hkind : fs.entryAt cur with
    | leaf contents =>
      rw [if_pos (Ramfs.ftype_of_leaf hkind), Ramfs.lookup_of_leaf hkind, Option.bind_none,
        if_pos (blockedFrom_of_leaf hkind comp comps)]
    | branch =>
      have hdir : fs.ftype cur = .directory := Ramfs.ftype_eq_directory.mpr hkind
      rw [if_neg (not_not.mpr hdir)]
      simp only [blockedFrom_cons hkind]
      cases fs.lookup cur comp with
      | none => simp
      | some next => simpa using ih next

theorem blocked_iff (hview : map.entry = fs.view) (comps : List String) :
    map.Blocked comps ↔ BlockedFrom fs Ramfs.root comps := by
  simp only [PathMap.Blocked, BlockedFrom, hview, Ramfs.view, Ramfs.locate, Option.map_eq_some_iff]

/-- `resolve` finds the node at the components of the path. -/
theorem resolve_eq_locate (hview : map.entry = fs.view) (hpath : path ≠ "") :
    Root.resolve fs path =
      match fs.locate (components path) with
      | some ref => .ok ref
      | none => .error (map.findError (components path)) := by
  rw [resolve_eq fs hpath, resolveFrom_eq, FlatFs.findError]
  simp only [blocked_iff hview, Ramfs.locate]

/-! ## Creating and removing -/

/-- The directory of a path in which its last component is looked up. -/
def parentOf (path : String) : List String := components (Root.splitParent path).1

theorem components_eq (hpath : lastComponent path ≠ "") :
    components path = parentOf path ++ [lastComponent path] :=
  (splitParent_components hpath).2.2

theorem eq_of_components (hpath : lastComponent path ≠ "") {name : String}
    (hcomps : components path = parent ++ [name]) :
    parentOf path = parent ∧ lastComponent path = name := by
  obtain ⟨hparent, hname⟩ := List.append_inj' ((components_eq hpath).symm.trans hcomps) rfl
  exact ⟨hparent, List.singleton_inj.mp hname⟩

theorem resolve_parent (hview : map.entry = fs.view) (hpath : lastComponent path ≠ "") :
    Root.resolve fs (Root.splitParent path).1 =
      match fs.locate (parentOf path) with
      | some ref => .ok ref
      | none => .error (map.findError (parentOf path)) := by
  rw [parentOf, resolve_eq_locate hview (splitParent_components hpath).1]

/-- Entering a node in a directory, against adding an entry to the map. -/
theorem create_cases (wf : fs.WellFormed) (hview : map.entry = fs.view) {dir : InodeRef}
    (hparent : fs.locate parent = some dir) (name : String) {node : RamNode}
    (hnode : ∀ entries, node.data = .dir entries → entries = .empty) :
    (∃ e, fs.create dir name node = (.error e, fs) ∧
      map.create parent name node.data.entry = (.error e, map)) ∨
    ∃ fs' map', fs.create dir name node = (.ok fs.next, fs') ∧
      map.create parent name node.data.entry = (.ok (), map') ∧
      Ramfs.Created fs fs' dir name node.data.entry ∧ fs.lookup dir name = none ∧
      map'.entry = fs'.view := by
  have hentry : map.entry parent = some (fs.entryAt dir) := by
    rw [hview, Ramfs.view_of_locate hparent]
  have hchild : map.entry (parent ++ [name]) = (fs.lookup dir name).map fs.entryAt := by
    rw [hview, Ramfs.view, Ramfs.locate_concat hparent]
  cases hkind : fs.entryAt dir with
  | leaf contents =>
    have hno : ¬map.Creatable parent name := by
      rintro ⟨hbranch, _⟩
      rw [hentry, hkind] at hbranch
      cases hbranch
    refine .inl ⟨.notADirectory, Ramfs.create_of_leaf hkind node, ?_⟩
    rw [FlatFs.create, dif_neg hno, FlatFs.createError, hentry, hkind]
  | branch =>
    cases hlookup : fs.lookup dir name with
    | some found =>
      have hno : ¬map.Creatable parent name := by
        rintro ⟨_, habsent⟩
        rw [hchild, hlookup] at habsent
        cases habsent
      refine .inl ⟨.alreadyExists, Ramfs.create_of_present hkind hlookup node, ?_⟩
      rw [FlatFs.create, dif_neg hno, FlatFs.createError, hentry, hkind]
    | none =>
      have hyes : map.Creatable parent name := by
        rw [FlatFs.Creatable, hentry, hchild, hkind, hlookup]
        exact ⟨rfl, rfl⟩
      obtain ⟨fs', hcreate, hcreated⟩ :=
        Ramfs.create_of_absent wf (Ramfs.locate_lt wf hparent) hkind hlookup hnode
      refine .inr ⟨fs', _, hcreate, dif_pos hyes, hcreated, rfl, ?_⟩
      rw [hcreated.view_eq wf hlookup hparent, ← hview]
      rfl

/-- The outcome of a call that creates `found` at `path`: the error of the flat
file system and no change, or its success and a new node. -/
def CreateOutcome (fs : Ramfs) (map : FlatFs) (path : String) (found : Entry (List UInt8))
    (result : Except FsError InodeRef × Ramfs) : Prop :=
  (∃ e, result = (.error e, fs) ∧
    map.create (parentOf path) (lastComponent path) found = (.error e, map)) ∨
  ∃ fs' map' dir, result = (.ok fs.next, fs') ∧
    map.create (parentOf path) (lastComponent path) found = (.ok (), map') ∧
    fs.locate (parentOf path) = some dir ∧ fs.lookup dir (lastComponent path) = none ∧
    Ramfs.Created fs fs' dir (lastComponent path) found ∧ map'.entry = fs'.view

section

variable (wf : fs.WellFormed)

include wf

theorem createUnder_outcome (hview : map.entry = fs.view) (hpath : lastComponent path ≠ "")
    (node : String → RamNode) {found : Entry (List UInt8)}
    (hfound : ∀ name, (node name).data.entry = found)
    (hnode : ∀ name entries, (node name).data = .dir entries → entries = .empty) :
    CreateOutcome fs map path found
      (createUnder fs path fun fs dir name => fs.create dir name (node name)) := by
  rw [createUnder_eq, resolve_parent hview hpath, (splitParent_components hpath).2.1]
  cases hparent : fs.locate (parentOf path) with
  | none =>
    have hentry : map.entry (parentOf path) = none := by
      rw [hview, Ramfs.view, hparent]
      rfl
    have hno : ¬map.Creatable (parentOf path) (lastComponent path) := by
      rintro ⟨hbranch, _⟩
      rw [hentry] at hbranch
      cases hbranch
    refine .inl ⟨_, rfl, ?_⟩
    rw [FlatFs.create, dif_neg hno, FlatFs.createError, hentry]
  | some dir =>
    rw [← hfound (lastComponent path)]
    rcases create_cases wf hview hparent (lastComponent path) (hnode (lastComponent path)) with
      ⟨e, hcreate, hflat⟩ | ⟨fs', map', hcreate, hflat, hcreated, habsent, hview'⟩
    · exact .inl ⟨e, hcreate, hflat⟩
    · exact .inr ⟨fs', map', dir, hcreate, hflat, hparent, habsent, hcreated, hview'⟩

theorem mkdir_outcome (hview : map.entry = fs.view) (hpath : lastComponent path ≠ "") :
    CreateOutcome fs map path .branch (mkdir fs path) := by
  refine createUnder_outcome wf hview hpath RamNode.newDir (fun _ => rfl) ?_
  rintro name entries ⟨⟩
  rfl

theorem mkfile_outcome (hview : map.entry = fs.view) (hpath : lastComponent path ≠ "")
    (contents : List UInt8) :
    CreateOutcome fs map path (.leaf contents) (mkfile fs path contents) := by
  refine createUnder_outcome wf hview hpath (fun name => RamNode.newFile name contents)
    (fun _ => rfl) ?_
  rintro name entries ⟨⟩

/-- Removing an entry of a directory, against dropping it from the map. -/
theorem removeEntry_cases (hview : map.entry = fs.view) {dir : InodeRef}
    (hparent : fs.locate parent = some dir) (name : String) :
    (∃ e, fs.remove dir name = (.error e, fs) ∧ map.remove parent name = (.error e, map)) ∨
    ∃ fs' map', fs.remove dir name = (.ok (), fs') ∧ map.remove parent name = (.ok (), map') ∧
      Ramfs.Removed fs fs' dir name ∧
      (∀ found ∈ fs.lookup dir name, ∀ key, fs.lookup found key = none) ∧
      map'.entry = fs'.view := by
  have hentry : map.entry parent = some (fs.entryAt dir) := by
    rw [hview, Ramfs.view_of_locate hparent]
  have hchild : map.entry (parent ++ [name]) = (fs.lookup dir name).map fs.entryAt := by
    rw [hview, Ramfs.view, Ramfs.locate_concat hparent]
  cases hlookup : fs.lookup dir name with
  | none =>
    rw [hlookup, Option.map_none] at hchild
    have hno : ¬map.Removable (parent ++ [name]) := fun hremovable => hremovable.mapped hchild
    cases hkind : fs.entryAt dir with
    | leaf contents =>
      refine .inl ⟨.notADirectory, Ramfs.remove_of_leaf hkind, ?_⟩
      rw [FlatFs.remove, dif_neg hno, FlatFs.removeError, hentry, hkind]
    | branch =>
      refine .inl ⟨.notFound, Ramfs.remove_of_absent hkind hlookup, ?_⟩
      rw [FlatFs.remove, dif_neg hno, FlatFs.removeError, hentry, hkind]
      simp only [if_pos hchild]
  | some found =>
    rw [hlookup, Option.map_some] at hchild
    have hlocate : fs.locate (parent ++ [name]) = some found := by
      rw [Ramfs.locate_concat hparent, hlookup]
    have hbelow : ∀ key, map.entry (parent ++ [name] ++ [key]) =
        (fs.lookup found key).map fs.entryAt := by
      intro key
      rw [hview, Ramfs.view, Ramfs.locate_concat hlocate]
    by_cases hempty : ∀ key, fs.lookup found key = none
    · have hchildless : map.Childless (parent ++ [name]) := by
        intro key
        rw [hbelow, hempty, Option.map_none]
      have hyes : map.Removable (parent ++ [name]) := by
        cases hkind : fs.entryAt found with
        | leaf contents => exact .inl ⟨contents, by rw [hchild, hkind]⟩
        | branch => exact .inr ⟨by rw [hchild, hkind], hchildless⟩
      obtain ⟨fs', hremove, hremoved⟩ := Ramfs.remove_of_childless hlookup hempty
      have hnone := Ramfs.childless_of_found hlookup hempty
      refine .inr ⟨fs', _, hremove, dif_pos hyes, hremoved, by rwa [← hlookup], ?_⟩
      rw [hremoved.view_eq wf hnone hparent, ← hview]
      rfl
    · obtain ⟨key, hkey⟩ := not_forall.mp hempty
      obtain ⟨child, hchildLink⟩ := Option.ne_none_iff_exists'.mp hkey
      have hno : ¬map.Removable (parent ++ [name]) := by
        intro hremovable
        have hgone := hremovable.childless key
        rw [hbelow, hchildLink] at hgone
        cases hgone
      have hkind := Ramfs.entryAt_of_lookup hlookup
      refine .inl ⟨.notEmpty, Ramfs.remove_of_child hkind hlookup hchildLink, ?_⟩
      rw [FlatFs.remove, dif_neg hno, FlatFs.removeError, hentry, hkind]
      simp only [hchild, reduceCtorEq, if_false]

/-- Removing by path. -/
theorem remove_cases (hview : map.entry = fs.view) (hpath : lastComponent path ≠ "") :
    (∃ e, Root.remove fs path = (.error e, fs) ∧
      map.remove (parentOf path) (lastComponent path) = (.error e, map)) ∨
    ∃ fs' map' dir, Root.remove fs path = (.ok (), fs') ∧
      map.remove (parentOf path) (lastComponent path) = (.ok (), map') ∧
      fs.locate (parentOf path) = some dir ∧
      (∀ found ∈ fs.lookup dir (lastComponent path), ∀ key, fs.lookup found key = none) ∧
      Ramfs.Removed fs fs' dir (lastComponent path) ∧ map'.entry = fs'.view := by
  rw [remove_eq, resolve_parent hview hpath, (splitParent_components hpath).2.1]
  cases hparent : fs.locate (parentOf path) with
  | none =>
    have hentry : map.entry (parentOf path) = none := by
      rw [hview, Ramfs.view, hparent]
      rfl
    have hno : ¬map.Removable (parentOf path ++ [lastComponent path]) := by
      intro hremovable
      rw [map.parent_closed _ _ hremovable.mapped] at hentry
      cases hentry
    refine .inl ⟨_, rfl, ?_⟩
    rw [FlatFs.remove, dif_neg hno, FlatFs.removeError, hentry]
  | some dir =>
    rcases removeEntry_cases wf hview hparent (lastComponent path) with
      ⟨e, hremove, hflat⟩ | ⟨fs', map', hremove, hflat, hremoved, hnone, hview'⟩
    · exact .inl ⟨e, hremove, hflat⟩
    · exact .inr ⟨fs', map', dir, hremove, hflat, rfl, hnone, hremoved, hview'⟩

end

/-! ## Opening -/

theorem ne_empty_of_lastComponent (hpath : lastComponent path ≠ "") : path ≠ "" := by
  rintro rfl
  exact hpath rfl

theorem openPath_of_found (hview : map.entry = fs.view) (hpath : lastComponent path ≠ "")
    {ref : InodeRef} (hfound : fs.locate (components path) = some ref) (flags : OpenFlags) :
    Root.openPath fs path flags = (.ok ⟨ref, 0, flags⟩, fs) := by
  rw [Root.openPath, resolve_eq_locate hview (ne_empty_of_lastComponent hpath), hfound]

/-- A path that is not found is opened by creating it, if it may be. -/
theorem openPath_of_missing (hview : map.entry = fs.view) (hpath : lastComponent path ≠ "")
    (hmissing : fs.locate (components path) = none) (flags : OpenFlags) :
    Root.openPath fs path flags =
      if map.findError (components path) = .notFound ∧ flags.create then
        match mkfile fs path [] with
        | (.error e, fs) => (.error e, fs)
        | (.ok inode, fs) => (.ok ⟨inode, 0, flags⟩, fs)
      else (.error (map.findError (components path)), fs) := by
  rw [Root.openPath, resolve_eq_locate hview (ne_empty_of_lastComponent hpath), hmissing, mkfile,
    createUnder_eq]
  simp only
  split
  · cases Root.resolve fs (Root.splitParent path).1 with
    | error e => rfl
    | ok parent => rfl
  · rfl

end Hyperion.Fs
