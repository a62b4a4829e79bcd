import Hyperion.Fs.Vfs
import Hyperion.Lib.PathTree

/-!
# The flat file system

What the file system is for, without nodes and links: a `FlatFs` maps component
lists to file contents or to a directory, and a call reads or changes the entry of
one path.  A handle is at the path it was opened at until the entry is removed;
from then on it is detached, and what is done through it says nothing about the
map.

Each call is given by the condition under which it succeeds.  When it does not
hold the map stays as it is, and the error is that of the first component at
which the call had to stop.
-/

namespace Hyperion.Fs

open Hyperion.Lib

/-- A file system as a prefix-closed finite map. -/
abbrev FlatFs := PathMap String (List UInt8)

noncomputable section

open Classical

namespace FlatFs

variable (map : FlatFs)

/-- Why a path that is not mapped is not found. -/
def findError (path : List String) : FsError :=
  if map.Blocked path then .notADirectory else .notFound

def find (path : List String) : Except FsError (Entry (List UInt8)) :=
  match map.entry path with
  | some found => .ok found
  | none => .error (map.findError path)

/-- An entry can be added to a directory that does not have the name. -/
def Creatable (parent : List String) (name : String) : Prop :=
  map.entry parent = some .branch ∧ map.entry (parent ++ [name]) = none

def createError (parent : List String) : FsError :=
  match map.entry parent with
  | none => map.findError parent
  | some (.leaf _) => .notADirectory
  | some .branch => .alreadyExists

def create (parent : List String) (name : String) (found : Entry (List UInt8)) :
    Except FsError Unit × FlatFs :=
  if h : map.Creatable parent name then (.ok (), map.insert parent name found h.1 h.2)
  else (.error (map.createError parent), map)

/-- Files and empty directories can be removed. -/
def Removable (path : List String) : Prop :=
  (∃ contents, map.entry path = some (.leaf contents)) ∨
    map.entry path = some .branch ∧ map.Childless path

def removeError (parent : List String) (name : String) : FsError :=
  match map.entry parent with
  | none => map.findError parent
  | some (.leaf _) => .notADirectory
  | some .branch => if map.entry (parent ++ [name]) = none then .notFound else .notEmpty

variable {map} in
theorem Removable.mapped {path : List String} (h : map.Removable path) : map.entry path ≠ none := by
  rcases h with ⟨contents, hleaf⟩ | ⟨hbranch, _⟩
  · rw [hleaf]
    exact Option.some_ne_none _
  · rw [hbranch]
    exact Option.some_ne_none _

variable {map} in
theorem Removable.childless {path : List String} (h : map.Removable path) : map.Childless path := by
  rcases h with ⟨contents, hleaf⟩ | ⟨_, hchildless⟩
  · exact map.childless_of_leaf hleaf
  · exact hchildless

def remove (parent : List String) (name : String) : Except FsError Unit × FlatFs :=
  if h : map.Removable (parent ++ [name]) then
    (.ok (), map.erase (parent ++ [name]) (by simp) h.childless)
  else (.error (map.removeError parent name), map)

variable {map}

theorem find_eq_ok {path : List String} {found : Entry (List UInt8)} :
    map.find path = .ok found ↔ map.entry path = some found := by
  unfold find
  cases map.entry path with
  | none => simp
  | some other => simp

variable {parent : List String}

theorem create_ok_iff {name : String} {found : Entry (List UInt8)} :
    (map.create parent name found).1 = .ok () ↔ map.Creatable parent name := by
  unfold create
  split
  · rename_i hcreatable
    simp [hcreatable]
  · rename_i hno
    simp [hno]

theorem remove_ok_iff {name : String} :
    (map.remove parent name).1 = .ok () ↔ map.Removable (parent ++ [name]) := by
  unfold remove
  split
  · rename_i hremovable
    simp [hremovable]
  · rename_i hno
    simp [hno]

theorem entry_remove {name : String} (hremovable : map.Removable (parent ++ [name])) :
    (map.remove parent name).2.entry = Function.update map.entry (parent ++ [name]) none := by
  rw [remove, dif_pos hremovable]
  rfl

/-- A path that could be created is missing, not blocked. -/
theorem findError_of_creatable {name : String} (hcreatable : map.Creatable parent name) :
    map.findError (parent ++ [name]) = .notFound :=
  if_neg (map.not_blocked_of_parent hcreatable.1 name)

end FlatFs

/-! ## Handles and calls -/

/-- An open handle, at a path or detached from the map. -/
structure Handle where
  target : Option (List String)
  offset : ℕ
  flags : OpenFlags

/-- What becomes of a handle when `path` is removed. -/
def Handle.detach (path : List String) (handle : Handle) : Handle :=
  if handle.target = some path then { handle with target := none } else handle

structure Flat where
  map : FlatFs
  handles : List Handle

namespace Flat

def new : Flat := ⟨PathMap.empty, []⟩

def openPath (flat : Flat) (parent : List String) (name : String) (flags : OpenFlags) :
    Except FsError ℕ × Flat :=
  let opened : List Handle := flat.handles ++ [⟨some (parent ++ [name]), 0, flags⟩]
  match flat.map.find (parent ++ [name]) with
  | .ok _ => (.ok flat.handles.length, { flat with handles := opened })
  | .error e =>
    if e = .notFound ∧ flags.create then
      match flat.map.create parent name (.leaf []) with
      | (.ok _, map) => (.ok flat.handles.length, ⟨map, opened⟩)
      | (.error e, _) => (.error e, flat)
    else (.error e, flat)

theorem openPath_ok_iff {flat : Flat} {parent : List String} {name : String} {flags : OpenFlags} :
    (∃ handle, (flat.openPath parent name flags).1 = .ok handle) ↔
      flat.map.entry (parent ++ [name]) ≠ none ∨ flags.create ∧ flat.map.Creatable parent name := by
  cases hentry : flat.map.entry (parent ++ [name]) with
  | some found =>
    rw [openPath, FlatFs.find_eq_ok.mpr hentry]
    simp
  | none =>
    have hfind : flat.map.find (parent ++ [name]) =
        .error (flat.map.findError (parent ++ [name])) := by
      rw [FlatFs.find, hentry]
    rw [openPath, hfind]
    by_cases hcreatable : flat.map.Creatable parent name
    · have hcreate : flat.map.create parent name (.leaf []) = (.ok (), _) := dif_pos hcreatable
      rw [FlatFs.findError_of_creatable hcreatable, hcreate]
      cases flags.create with
      | false => simp
      | true => simp [hcreatable]
    · have hcreate : flat.map.create parent name (.leaf []) = (.error _, flat.map) :=
        dif_neg hcreatable
      rw [hcreate]
      simp only [hcreatable, and_false, or_false, ne_eq, not_true_eq_false, iff_false]
      split
      · simp
      · simp

def create (flat : Flat) (parent : List String) (name : String) (found : Entry (List UInt8)) :
    Except FsError Unit × Flat :=
  ((flat.map.create parent name found).1,
    { flat with map := (flat.map.create parent name found).2 })

def remove (flat : Flat) (parent : List String) (name : String) : Except FsError Unit × Flat :=
  match flat.map.remove parent name with
  | (.ok _, map) => (.ok (), ⟨map, flat.handles.map (Handle.detach (parent ++ [name]))⟩)
  | (.error e, _) => (.error e, flat)

/-- Give a file other contents. -/
def assign (flat : Flat) (path : List String) (contents : List UInt8)
    (hfile : ∃ old, flat.map.entry path = some (.leaf old)) : Flat :=
  { flat with map := flat.map.assign path contents hfile }

/-- Move the handle with number `i`. -/
def move (flat : Flat) (i : ℕ) (handle : Handle) (offset : ℕ) : Flat :=
  { flat with handles := flat.handles.set i { handle with offset } }

end Flat

/-- Where a write through a handle to a file with these contents starts. -/
def Handle.writeStart (handle : Handle) (contents : List UInt8) : ℕ :=
  if handle.flags.append then contents.length else handle.offset

/-- The calls on the flat file system.  A read or write through a handle is
refused without the flag for it and on a directory. -/
inductive FlatStep (flat : Flat) : Call → Flat → Prop
  | openPath {path name : String} {parent : List String} (flags : OpenFlags)
      (hpath : components path = parent ++ [name]) :
      FlatStep flat (.openPath path flags (flat.openPath parent name flags).1)
        (flat.openPath parent name flags).2
  | mkdir {path name : String} {parent : List String}
      (hpath : components path = parent ++ [name]) :
      FlatStep flat (.mkdir path (flat.create parent name .branch).1)
        (flat.create parent name .branch).2
  | mkfile {path name : String} {parent : List String} (contents : List UInt8)
      (hpath : components path = parent ++ [name]) :
      FlatStep flat (.mkfile path contents (flat.create parent name (.leaf contents)).1)
        (flat.create parent name (.leaf contents)).2
  | remove {path name : String} {parent : List String}
      (hpath : components path = parent ++ [name]) :
      FlatStep flat (.remove path (flat.remove parent name).1) (flat.remove parent name).2
  | read {i len : ℕ} {handle : Handle} {path : List String} {contents : List UInt8}
      (hhandle : flat.handles[i]? = some handle) (hflag : handle.flags.read)
      (htarget : handle.target = some path) (hfile : flat.map.entry path = some (.leaf contents)) :
      FlatStep flat (.read i len (.ok (bytesAt contents handle.offset len)))
        (flat.move i handle (handle.offset + (bytesAt contents handle.offset len).length))
  | readRefused {i len : ℕ} {handle : Handle} (hhandle : flat.handles[i]? = some handle)
      (hrefused : handle.flags.read = false ∨
        ∃ path, handle.target = some path ∧ flat.map.entry path = some .branch) :
      FlatStep flat (.read i len (.error .io)) flat
  | readDetached {i len : ℕ} {handle : Handle} (answer : Except FsError (List UInt8))
      (hhandle : flat.handles[i]? = some handle) (htarget : handle.target = none) :
      FlatStep flat (.read i len answer) flat
  | write {i : ℕ} {handle : Handle} {path : List String} {contents : List UInt8} (buf : List UInt8)
      (hhandle : flat.handles[i]? = some handle) (hflag : handle.flags.write)
      (htarget : handle.target = some path) (hfile : flat.map.entry path = some (.leaf contents)) :
      FlatStep flat (.write i buf (.ok buf.length))
        ((flat.assign path (splice contents (handle.writeStart contents) buf)
          ⟨contents, hfile⟩).move
          i handle (handle.writeStart contents + buf.length))
  | writeRefused {i : ℕ} {handle : Handle} (buf : List UInt8)
      (hhandle : flat.handles[i]? = some handle)
      (hrefused : handle.flags.write = false ∨
        ∃ path, handle.target = some path ∧ flat.map.entry path = some .branch) :
      FlatStep flat (.write i buf (.error .io)) flat
  | writeDetached {i : ℕ} {handle : Handle} (buf : List UInt8) (answer : Except FsError ℕ)
      (hhandle : flat.handles[i]? = some handle) (htarget : handle.target = none) :
      FlatStep flat (.write i buf answer) flat
  | seek {i : ℕ} {handle : Handle} (off : ℕ) (hhandle : flat.handles[i]? = some handle) :
      FlatStep flat (.seek i off) (flat.move i handle off)

end

end Hyperion.Fs
