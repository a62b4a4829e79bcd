import Hyperion.Fs.Vfs
import Hyperion.Lib.PathTree

/-!
# The ramfs as a tree

The directories of a ramfs form a tree: a node is entered in one directory at most
and the root in none (`Ramfs.WellFormed`).  This module says what the methods of a
node do to the links of the tree and to what each node holds.  `create` and
`remove` each replace one link, whose old and new targets have no entries, so by
`TreeLike.descend_relink` they change what is found along one path.
-/

namespace Hyperion.Fs

open Hyperion.Lib

/-- What a node holds, as an entry of a path map. -/
def NodeData.entry : NodeData → Entry (List UInt8)
  | .file contents => .leaf contents
  | .dir _ => .branch

namespace Ramfs

variable {fs : Ramfs} {self : InodeRef} {name : String}

def entryAt (fs : Ramfs) (ref : InodeRef) : Entry (List UInt8) := (fs.node ref).data.entry

/-- The node at a path, given by its components. -/
def locate (fs : Ramfs) (path : List String) : Option InodeRef := descend fs.lookup root path

/-- The map from paths to what is found there. -/
def view (fs : Ramfs) (path : List String) : Option (Entry (List UInt8)) :=
  (fs.locate path).map fs.entryAt

/-- The links form a tree among the nodes allocated so far. -/
structure WellFormed (fs : Ramfs) : Prop where
  tree : TreeLike fs.lookup root
  root_lt : root < fs.next
  linked_lt : ∀ {ref c : InodeRef} {name : String}, fs.lookup ref name = some c → c < fs.next
  unused : ∀ {ref : InodeRef}, fs.next ≤ ref → ∀ name, fs.lookup ref name = none

theorem wellFormed_newRoot : newRoot.WellFormed where
  tree := ⟨(fun hlink => nomatch hlink), nofun⟩
  root_lt := Nat.lt_succ_self _
  linked_lt := fun hlink => nomatch hlink
  unused := fun _ _ => rfl

theorem locate_lt (wf : fs.WellFormed) {path : List String} {ref : InodeRef}
    (hpath : fs.locate path = some ref) : ref < fs.next := by
  rcases List.eq_nil_or_concat path with rfl | ⟨init, last, rfl⟩
  · obtain rfl : root = ref := by simpa [locate] using hpath
    exact wf.root_lt
  · rw [List.concat_eq_append, locate, descend_concat] at hpath
    obtain ⟨parent, _, hlink⟩ := Option.bind_eq_some_iff.mp hpath
    exact wf.linked_lt hlink

/-! ## What a node holds -/

theorem ftype_eq_directory : fs.ftype self = .directory ↔ fs.entryAt self = .branch := by
  unfold ftype entryAt
  cases (fs.node self).data with
  | file contents => simp [NodeData.entry]
  | dir entries => simp [NodeData.entry]

variable {contents : List UInt8} {v : List UInt8} {found : InodeRef}

theorem lookup_of_leaf (hleaf : fs.entryAt self = .leaf contents) :
    fs.lookup self name = none := by
  unfold lookup
  unfold entryAt at hleaf
  cases hdata : (fs.node self).data with
  | file contents => rfl
  | dir entries =>
    rw [hdata] at hleaf
    cases hleaf

theorem ftype_of_leaf (hleaf : fs.entryAt self = .leaf contents) :
    fs.ftype self ≠ .directory := by
  rw [Ne, ftype_eq_directory, hleaf]
  exact nofun

/-- Only a directory has entries. -/
theorem entryAt_of_lookup (hfound : fs.lookup self name = some found) :
    fs.entryAt self = .branch := by
  cases hentry : fs.entryAt self with
  | leaf contents =>
    rw [lookup_of_leaf hentry] at hfound
    cases hfound
  | branch => rfl

/-- What an entry leads to is all that the directory has under its name. -/
theorem childless_of_found (hfound : fs.lookup self name = some found)
    (hchildless : ∀ key, fs.lookup found key = none) :
    ∀ c ∈ fs.lookup self name, ∀ key, fs.lookup c key = none := by
  intro c hc
  obtain rfl : found = c := Option.some.inj (hfound.symm.trans hc)
  exact hchildless

theorem data_of_leaf (hleaf : fs.entryAt self = .leaf contents) :
    (fs.node self).data = .file contents := by
  unfold entryAt at hleaf
  cases hdata : (fs.node self).data with
  | file found =>
    rw [hdata] at hleaf
    cases hleaf
    rfl
  | dir entries =>
    rw [hdata] at hleaf
    cases hleaf

theorem data_of_branch (hbranch : fs.entryAt self = .branch) :
    ∃ entries, (fs.node self).data = .dir entries ∧
      ∀ name, fs.lookup self name = entries.get? name := by
  unfold entryAt at hbranch
  cases hdata : (fs.node self).data with
  | file contents =>
    rw [hdata] at hbranch
    cases hbranch
  | dir entries =>
    refine ⟨entries, rfl, ?_⟩
    intro name
    simp [lookup, hdata]

/-- A node lists nothing when it has no entries. -/
theorem list_eq_nil : fs.list self = [] ↔ ∀ name, fs.lookup self name = none := by
  unfold list lookup
  cases (fs.node self).data with
  | file contents => simp
  | dir entries =>
    have hkeys : entries.keys = [] ↔ entries.entries = [] := List.map_eq_nil_iff
    simp only [hkeys, OrdMap.get?_eq_none, List.eq_nil_iff_forall_not_mem]
    constructor
    · intro hnone name entry hentry
      exact absurd hentry (hnone entry)
    · intro hnone entry hentry
      exact hnone entry.1 entry hentry rfl

/-! ## Entering a new node -/

/-- `fs'` is `fs` with a new node, holding `found`, entered in `dir` under `name`. -/
structure Created (fs fs' : Ramfs) (dir : InodeRef) (name : String) (found : Entry (List UInt8)) :
    Prop where
  links : Relinked fs.lookup fs'.lookup dir name (some fs.next)
  entries : ∀ ref, fs'.entryAt ref = if ref = fs.next then found else fs.entryAt ref
  next : fs'.next = fs.next + 1

/-- Entering a node succeeds in a directory that does not have the name. -/
theorem create_of_absent (wf : fs.WellFormed) (hself : self < fs.next)
    (hbranch : fs.entryAt self = .branch) (habsent : fs.lookup self name = none) {node : RamNode}
    (hnode : ∀ entries, node.data = .dir entries → entries = .empty) :
    ∃ fs', fs.create self name node = (.ok fs.next, fs') ∧
      Created fs fs' self name node.data.entry := by
  obtain ⟨entries, hdata, hlookup⟩ := data_of_branch hbranch
  have hget : entries.get? name = none := by rw [← hlookup, habsent]
  refine ⟨_, by rw [create, hdata]; simp only [hget, Option.isSome_none]; rfl, ?_, ?_, rfl⟩
  · intro n k
    by_cases hn : n = self
    · subst hn
      simp [lookup, setData, alloc, hdata, OrdMap.get?_insert]
    · rw [if_neg (by simp [hn])]
      by_cases hnext : n = fs.next
      · rw [hnext, wf.unused (le_refl _)]
        have hne : fs.next ≠ self := fun heq => hn (hnext.trans heq)
        simp only [lookup, setData, alloc, Function.update_of_ne hne, Function.update_self]
        cases hnodeData : node.data with
        | file contents => rfl
        | dir entries =>
          rw [hnode entries hnodeData]
          rfl
      · simp [lookup, setData, alloc, Function.update_of_ne hn, Function.update_of_ne hnext]
  · intro ref
    by_cases href : ref = self
    · subst href
      rw [if_neg hself.ne, hbranch]
      simp [entryAt, setData, NodeData.entry]
    · by_cases hnext : ref = fs.next
      · rw [if_pos hnext, hnext]
        have hne : fs.next ≠ self := fun heq => href (hnext.trans heq)
        simp only [entryAt, setData, alloc, Function.update_of_ne hne, Function.update_self]
      · rw [if_neg hnext]
        simp only [entryAt, setData, alloc, Function.update_of_ne href, Function.update_of_ne hnext]

theorem create_of_leaf (hleaf : fs.entryAt self = .leaf contents) (node : RamNode) :
    fs.create self name node = (.error .notADirectory, fs) := by
  rw [create, data_of_leaf hleaf]

theorem create_of_present (hbranch : fs.entryAt self = .branch)
    (hpresent : fs.lookup self name = some found) (node : RamNode) :
    fs.create self name node = (.error .alreadyExists, fs) := by
  obtain ⟨entries, hdata, hlookup⟩ := data_of_branch hbranch
  have hget : entries.get? name = some found := by rw [← hlookup, hpresent]
  simp [create, hdata, hget]

namespace Created

variable {fs' : Ramfs} {found : Entry (List UInt8)}

theorem wellFormed (wf : fs.WellFormed) (hself : self < fs.next)
    (h : Created fs fs' self name found) : fs'.WellFormed where
  tree := by
    refine wf.tree.relink h.links ?_
    intro c hc
    obtain rfl : fs.next = c := by simpa using hc
    exact ⟨wf.root_lt.ne', fun n k hlink => (wf.linked_lt hlink).false⟩
  root_lt := by
    rw [h.next]
    exact Nat.lt_succ_of_lt wf.root_lt
  linked_lt := by
    intro ref c k hlink
    rw [h.links] at hlink
    rw [h.next]
    split at hlink
    · cases hlink
      exact Nat.lt_succ_self _
    · exact Nat.lt_succ_of_lt (wf.linked_lt hlink)
  unused := by
    intro ref href k
    rw [h.next] at href
    have hle : fs.next ≤ ref := Nat.le_of_succ_le href
    rw [h.links, if_neg (fun heq => (hself.trans_le hle).ne' heq.1), wf.unused hle]

/-- Only the path of the new node leads elsewhere than before. -/
theorem locate_eq (wf : fs.WellFormed) (h : Created fs fs' self name found)
    (habsent : fs.lookup self name = none) {parent : List String}
    (hparent : fs.locate parent = some self) (path : List String) :
    fs'.locate path = if path = parent ++ [name] then some fs.next else fs.locate path := by
  have hself := locate_lt wf hparent
  refine wf.tree.descend_relink h.links hparent ?_ ?_ path
  · intro c hc
    rw [habsent] at hc
    cases hc
  · intro c hc k
    obtain rfl : fs.next = c := by simpa using hc
    rw [h.links, if_neg (fun heq => hself.ne' heq.1), wf.unused (le_refl _)]

theorem view_eq (wf : fs.WellFormed) (h : Created fs fs' self name found)
    (habsent : fs.lookup self name = none) {parent : List String}
    (hparent : fs.locate parent = some self) :
    fs'.view = Function.update fs.view (parent ++ [name]) (some found) := by
  funext path
  rw [view, h.locate_eq wf habsent hparent]
  by_cases hpath : path = parent ++ [name]
  · rw [if_pos hpath, hpath, Function.update_self, Option.map_some, h.entries, if_pos rfl]
  · rw [if_neg hpath, Function.update_of_ne hpath, view]
    cases hfound : fs.locate path with
    | none => rfl
    | some ref => rw [Option.map_some, Option.map_some, h.entries, if_neg (locate_lt wf hfound).ne]

end Created

/-! ## Removing an entry -/

/-- `fs'` is `fs` without the entry of `dir` under `name`. -/
structure Removed (fs fs' : Ramfs) (dir : InodeRef) (name : String) : Prop where
  links : Relinked fs.lookup fs'.lookup dir name none
  entries : ∀ ref, fs'.entryAt ref = fs.entryAt ref
  next : fs'.next = fs.next

/-- Removing succeeds for an entry that has no entries of its own. -/
theorem remove_of_childless (hfound : fs.lookup self name = some found)
    (hchildless : ∀ name, fs.lookup found name = none) :
    ∃ fs', fs.remove self name = (.ok (), fs') ∧ Removed fs fs' self name := by
  have hbranch := entryAt_of_lookup hfound
  obtain ⟨entries, hdata, hlookup⟩ := data_of_branch hbranch
  have hget : entries.get? name = some found := by rw [← hlookup, hfound]
  have hlist : fs.list found = [] := list_eq_nil.mpr hchildless
  refine ⟨fs.setData self (.dir (entries.erase name)), ?_, ?_, ?_, rfl⟩
  · simp [remove, hdata, hget, hlist]
  · intro n k
    by_cases hn : n = self
    · subst hn
      simp [lookup, setData, hdata, OrdMap.get?_erase]
    · simp [lookup, setData, hn]
  · intro ref
    by_cases href : ref = self
    · subst href
      rw [hbranch]
      simp [entryAt, setData, NodeData.entry]
    · simp only [entryAt, setData, Function.update_of_ne href]

theorem remove_of_leaf (hleaf : fs.entryAt self = .leaf contents) :
    fs.remove self name = (.error .notADirectory, fs) := by
  rw [remove, data_of_leaf hleaf]

theorem remove_of_absent (hbranch : fs.entryAt self = .branch)
    (habsent : fs.lookup self name = none) : fs.remove self name = (.error .notFound, fs) := by
  obtain ⟨entries, hdata, hlookup⟩ := data_of_branch hbranch
  have hget : entries.get? name = none := by rw [← hlookup, habsent]
  simp [remove, hdata, hget]

theorem remove_of_child {found child : InodeRef} {key : String}
    (hbranch : fs.entryAt self = .branch)
    (hfound : fs.lookup self name = some found) (hchild : fs.lookup found key = some child) :
    fs.remove self name = (.error .notEmpty, fs) := by
  obtain ⟨entries, hdata, hlookup⟩ := data_of_branch hbranch
  have hget : entries.get? name = some found := by rw [← hlookup, hfound]
  have hdir : fs.ftype found = .directory := ftype_eq_directory.mpr (entryAt_of_lookup hchild)
  have hlist : fs.list found ≠ [] := by
    intro hnil
    rw [list_eq_nil.mp hnil key] at hchild
    cases hchild
  simp [remove, hdata, hget, hdir, hlist]

namespace Removed

variable {fs' : Ramfs}

theorem wellFormed (wf : fs.WellFormed) (h : Removed fs fs' self name) : fs'.WellFormed where
  tree := wf.tree.relink h.links nofun
  root_lt := by
    rw [h.next]
    exact wf.root_lt
  linked_lt := by
    intro ref c k hlink
    rw [h.links] at hlink
    rw [h.next]
    split at hlink
    · cases hlink
    · exact wf.linked_lt hlink
  unused := by
    intro ref href k
    rw [h.next] at href
    rw [h.links]
    split
    · rfl
    · exact wf.unused href k

/-- Only the path of the removed entry leads elsewhere than before. -/
theorem locate_eq (wf : fs.WellFormed) (h : Removed fs fs' self name)
    (hchildless : ∀ found ∈ fs.lookup self name, ∀ key, fs.lookup found key = none)
    {parent : List String} (hparent : fs.locate parent = some self) (path : List String) :
    fs'.locate path = if path = parent ++ [name] then none else fs.locate path :=
  wf.tree.descend_relink h.links hparent hchildless nofun path

theorem view_eq (wf : fs.WellFormed) (h : Removed fs fs' self name)
    (hchildless : ∀ found ∈ fs.lookup self name, ∀ key, fs.lookup found key = none)
    {parent : List String} (hparent : fs.locate parent = some self) :
    fs'.view = Function.update fs.view (parent ++ [name]) none := by
  funext path
  rw [view, h.locate_eq wf hchildless hparent]
  by_cases hpath : path = parent ++ [name]
  · rw [if_pos hpath, hpath, Function.update_self, Option.map_none]
  · rw [if_neg hpath, Function.update_of_ne hpath, view]
    cases fs.locate path with
    | none => rfl
    | some ref => rw [Option.map_some, Option.map_some, h.entries]

end Removed

/-! ## Writing to a file -/

/-- `fs'` is `fs` with other contents in the file `file`. -/
structure Written (fs fs' : Ramfs) (file : InodeRef) (contents : List UInt8) : Prop where
  links : fs'.lookup = fs.lookup
  entries : fs'.entryAt = Function.update fs.entryAt file (.leaf contents)
  next : fs'.next = fs.next

theorem written_setData {old : List UInt8} (hleaf : fs.entryAt self = .leaf old)
    (contents : List UInt8) : Written fs (fs.setData self (.file contents)) self contents where
  links := by
    funext ref name
    by_cases href : ref = self
    · subst href
      rw [lookup_of_leaf hleaf]
      simp [lookup, setData]
    · simp [lookup, setData, href]
  entries := by
    funext ref
    by_cases href : ref = self
    · subst href
      simp [entryAt, setData, NodeData.entry]
    · simp [entryAt, setData, href]
  next := rfl

/-- A write to a file that holds `v` can end at `stop`: a `Vec` does not grow beyond
`isize::MAX` bytes. -/
def CanEnd (v : List UInt8) (stop : ℕ) : Prop :=
  stop < usizeBound ∧ stop ≤ max v.length isizeMax

theorem canEnd_of_le {stop : ℕ} (hstop : stop ≤ isizeMax) : CanEnd v stop :=
  ⟨hstop.trans_lt (by decide), hstop.trans (le_max_right _ _)⟩

theorem CanEnd.le {stop : ℕ} (hend : CanEnd v stop) (hv : v.length ≤ isizeMax) :
    stop ≤ isizeMax :=
  hend.2.trans (max_le hv le_rfl)

theorem growTo_of_le {stop : ℕ} (hstop : stop ≤ max v.length isizeMax) :
    growTo v stop = .ok (v ++ List.replicate (stop - v.length) 0) := by
  unfold growTo
  split
  case isTrue hlt => rw [resize, if_neg (by omega), if_pos (by omega)]
  case isFalse hle =>
    rw [Nat.sub_eq_zero_of_le (by omega), List.replicate_zero, List.append_nil]
    rfl

/-- Copying the bytes into the grown contents. -/
theorem overwrite_grown (v buf : List UInt8) (offset : ℕ) :
    overwrite (v ++ List.replicate (offset + buf.length - v.length) 0) offset buf =
      splice v offset buf := by
  have hmin : min (offset - v.length) (offset + buf.length - v.length) = offset - v.length := by
    omega
  have hrest : offset + buf.length - v.length - (offset + buf.length - v.length) = 0 := by omega
  rw [overwrite, splice, List.take_append, List.take_replicate, hmin, List.drop_append,
    List.drop_replicate, hrest, List.replicate_zero, List.append_nil]

theorem writeAt_of_leaf (hleaf : fs.entryAt self = .leaf v) {offset : ℕ} {buf : List UInt8}
    (hend : CanEnd v (offset + buf.length)) :
    fs.writeAt self offset buf =
      .ok (.ok buf.length, fs.setData self (.file (splice v offset buf))) := by
  have hroom : offset + buf.length ≤
      (v ++ List.replicate (offset + buf.length - v.length) (0 : UInt8)).length := by
    rw [List.length_append, List.length_replicate]
    omega
  simp only [writeAt, data_of_leaf hleaf, addUsize_of_lt hend.1, bind, Except.bind,
    growTo_of_le hend.2, copyFromSlice_of_le hroom, overwrite_grown]
  rfl

theorem writeAt_of_branch (hbranch : fs.entryAt self = .branch) (offset : ℕ) (buf : List UInt8) :
    fs.writeAt self offset buf = .ok (.error .io, fs) := by
  obtain ⟨entries, hdata, _⟩ := data_of_branch hbranch
  rw [writeAt, hdata]
  rfl

/-- A write to a file that returns ends where it can. -/
theorem canEnd_of_writeAt (hleaf : fs.entryAt self = .leaf v) {offset : ℕ} {buf : List UInt8}
    {result : Except FsError ℕ × Ramfs} (hwrite : fs.writeAt self offset buf = .ok result) :
    CanEnd v (offset + buf.length) := by
  rw [writeAt, data_of_leaf hleaf] at hwrite
  obtain ⟨stop, hstop, hrest⟩ := bind_eq_ok.mp hwrite
  obtain ⟨hlt, rfl⟩ := addUsize_eq_ok.mp hstop
  obtain ⟨grown, hgrow, _⟩ := bind_eq_ok.mp hrest
  refine ⟨hlt, ?_⟩
  by_contra hbeyond
  rw [growTo, if_pos (by omega), resize, if_neg (by omega), if_neg (by omega)] at hgrow
  cases hgrow

/-- A read of a file returns the bytes at the offset, unless the file is longer than memory. -/
theorem readAt_of_leaf (hleaf : fs.entryAt self = .leaf v) (offset len : ℕ) :
    fs.readAt self offset len = .ok (.ok (bytesAt v offset len)) ∨
      usizeBound ≤ v.length ∧ fs.readAt self offset len = .error .overflow := by
  simp only [readAt, data_of_leaf hleaf]
  split
  case isTrue hend =>
    rw [bytesAt, List.drop_eq_nil_of_le hend, List.take_nil]
    exact .inl rfl
  case isFalse hinside =>
    by_cases hstop : offset + min (v.length - offset) len < usizeBound
    · have hbytes : (v.drop offset).take (min (v.length - offset) len) = bytesAt v offset len := by
        rw [bytesAt, ← List.length_drop, Nat.min_comm, ← List.take_eq_take_min]
      simp only [addUsize_of_lt hstop, bind, Except.bind]
      rw [slice_of_le (Nat.le_add_right _ _) (by omega), Nat.add_sub_cancel_left, hbytes]
      exact .inl rfl
    · refine .inr ⟨by omega, ?_⟩
      rw [addUsize, if_neg hstop]
      rfl

namespace Written

variable {fs' : Ramfs} {contents : List UInt8}

theorem wellFormed (wf : fs.WellFormed) (h : Written fs fs' self contents) : fs'.WellFormed where
  tree := by
    rw [h.links]
    exact wf.tree
  root_lt := by
    rw [h.next]
    exact wf.root_lt
  linked_lt := by
    rw [h.links, h.next]
    exact wf.linked_lt
  unused := by
    rw [h.links, h.next]
    exact wf.unused

theorem locate_eq (h : Written fs fs' self contents) : fs'.locate = fs.locate := by
  funext path
  rw [locate, locate, h.links]

/-- A write to a file that is in the tree changes what its path holds. -/
theorem view_eq (wf : fs.WellFormed) (h : Written fs fs' self contents) {path : List String}
    (hpath : fs.locate path = some self) :
    fs'.view = Function.update fs.view path (some (.leaf contents)) := by
  funext other
  rw [view, h.locate_eq, h.entries]
  by_cases hother : other = path
  · rw [hother, hpath, Function.update_self, Option.map_some, Function.update_self]
  · rw [Function.update_of_ne hother, view]
    cases hfound : fs.locate other with
    | none => rfl
    | some ref =>
      have hne : ref ≠ self := by
        rintro rfl
        exact hother (wf.tree.path_unique hfound hpath)
      rw [Option.map_some, Option.map_some, Function.update_of_ne hne]

/-- A write to a file that was removed changes nothing that a path leads to. -/
theorem view_of_detached (h : Written fs fs' self contents)
    (hdetached : ∀ path, fs.locate path ≠ some self) : fs'.view = fs.view := by
  funext path
  rw [view, h.locate_eq, h.entries, view]
  cases hfound : fs.locate path with
  | none => rfl
  | some ref =>
    have hne : ref ≠ self := by
      rintro rfl
      exact hdetached path hfound
    rw [Option.map_some, Option.map_some, Function.update_of_ne hne]

end Written

end Ramfs

end Hyperion.Fs
