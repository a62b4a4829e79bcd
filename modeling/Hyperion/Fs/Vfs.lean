import Hyperion.Fs.Ramfs
import Hyperion.Lib.Text
import Hyperion.Lib.Transition

/-!
# The file system namespace

`fs/vfs.rs`: path resolution from the root, open file handles, and the calls that
create and remove nodes; and from `shell/commands.rs` the path handling of
`mkdir`.  The root is mounted once, before anything else runs, so the mount point
is the constant `Ramfs.root`.

Paths are parsed in three places, `resolve`, `split_parent` and `mkdir`, each in
its own way.  What they agree on is the list of the non-empty components:
`resolve_eq` and `splitParent_components` say so, the second for a path whose last
component is non-empty.
-/

namespace Hyperion.Fs

open Hyperion.Lib

/-- The flags of `OpenFlags`, one field for each bit. -/
structure OpenFlags where
  read : Bool
  write : Bool
  create : Bool
  append : Bool
  deriving DecidableEq, Repr

structure File where
  inode : InodeRef
  offset : ℕ
  flags : OpenFlags
  deriving DecidableEq, Repr

namespace File

/-- `File::read` into a buffer of `len` bytes. -/
def read (file : File) (fs : Ramfs) (len : ℕ) : Checked (Except FsError (List UInt8) × File) :=
  if !file.flags.read then pure (.error .io, file)
  else do
    match ← fs.readAt file.inode file.offset len with
    | .error e => pure (.error e, file)
    | .ok bytes =>
      let offset ← addUsize file.offset bytes.length
      pure (.ok bytes, { file with offset })

/-- Where `write` puts its bytes: an appending handle first moves to the end. -/
def seekForWrite (file : File) (fs : Ramfs) : File :=
  if file.flags.append then { file with offset := fs.size file.inode } else file

/-- `File::write`. -/
def write (file : File) (fs : Ramfs) (buf : List UInt8) :
    Checked (Except FsError ℕ × File × Ramfs) :=
  if !file.flags.write then pure (.error .io, file, fs)
  else do
    let file := file.seekForWrite fs
    let (answer, fs) ← fs.writeAt file.inode file.offset buf
    match answer with
    | .error e => pure (.error e, file, fs)
    | .ok n =>
      let offset ← addUsize file.offset n
      pure (.ok n, { file with offset }, fs)

/-- `File::seek`. -/
def seek (file : File) (off : ℕ) : File := { file with offset := off }

end File

namespace Root

/-- The loop of `resolve`. -/
def resolveFrom (fs : Ramfs) : InodeRef → List String → Except FsError InodeRef
  | cur, [] => .ok cur
  | cur, comp :: comps =>
    if fs.ftype cur ≠ .directory then .error .notADirectory
    else
      match fs.lookup cur comp with
      | none => .error .notFound
      | some next => resolveFrom fs next comps

/-- `Root::resolve`. -/
def resolve (fs : Ramfs) (path : String) : Except FsError InodeRef :=
  if path = "" then .error .invalidPath
  else
    let path := (stripPrefix '/' path).getD path
    if path = "" then .ok Ramfs.root
    else resolveFrom fs Ramfs.root ((split '/' path).filter (· ≠ ""))

/-- `split_parent`. -/
def splitParent (path : String) : String × String :=
  match rsplitOnce '/' path with
  | some ("", n) => ("/", n)
  | some (p, n) => (p, n)
  | none => ("/", path)

/-- `Root::open`. -/
def openPath (fs : Ramfs) (path : String) (flags : OpenFlags) : Except FsError File × Ramfs :=
  match resolve fs path with
  | .ok inode => (.ok ⟨inode, 0, flags⟩, fs)
  | .error e =>
    if e = .notFound ∧ flags.create then
      let (parentPath, name) := splitParent path
      match resolve fs parentPath with
      | .error e => (.error e, fs)
      | .ok parent =>
        match fs.createFile parent name [] with
        | (.error e, fs) => (.error e, fs)
        | (.ok inode, fs) => (.ok ⟨inode, 0, flags⟩, fs)
    else (.error e, fs)

/-- `Root::remove`. -/
def remove (fs : Ramfs) (path : String) : Except FsError Unit × Ramfs :=
  let (parentPath, name) := splitParent path
  match resolve fs parentPath with
  | .error e => (.error e, fs)
  | .ok parent => fs.remove parent name

end Root

/-- How `mkdir` of the shell creates a node: with `create`, in the directory that
the path up to the last slash resolves to. -/
def createUnder (fs : Ramfs) (path : String)
    (create : Ramfs → InodeRef → String → Except FsError InodeRef × Ramfs) :
    Except FsError InodeRef × Ramfs :=
  let (parent, name) :=
    match rsplitOnce '/' path with
    | some ("", n) => ("/", n)
    | some (p, n) => (p, n)
    | none => ("/", path)
  match Root.resolve fs parent with
  | .ok p => create fs p name
  | .error e => (.error e, fs)

/-- `cmd_mkdir` up to its messages. -/
def mkdir (fs : Ramfs) (path : String) : Except FsError InodeRef × Ramfs :=
  createUnder fs path Ramfs.createDir

/-- The same way of creating a file. -/
def mkfile (fs : Ramfs) (path : String) (contents : List UInt8) : Except FsError InodeRef × Ramfs :=
  createUnder fs path fun fs parent name => fs.createFile parent name contents

/-! ## Paths and their components -/

/-- The non-empty components of a path. -/
def components (path : String) : List String := (split '/' path).filter (· ≠ "")

/-- What follows the last slash. -/
def lastComponent (path : String) : String := (split '/' path).getLastD ""

theorem components_append (before after : String) :
    components (before ++ String.singleton '/' ++ after) =
      components before ++ components after := by
  rw [components, split_append, List.filter_append]
  rfl

theorem components_empty : components "" = [] := rfl

theorem components_slash : components "/" = [] := rfl

theorem components_of_stripPrefix {path rest : String} (hstrip : stripPrefix '/' path = some rest) :
    components path = components rest := by
  have hpath : path = "" ++ String.singleton '/' ++ rest := by
    rw [stripPrefix_eq_some hstrip, String.empty_append]
  rw [hpath, components_append, components_empty, List.nil_append]

theorem components_stripped (path : String) :
    components ((stripPrefix '/' path).getD path) = components path := by
  cases hstrip : stripPrefix '/' path with
  | none => rfl
  | some rest => exact (components_of_stripPrefix hstrip).symm

/-- Resolution follows the non-empty components. -/
theorem resolve_eq (fs : Ramfs) {path : String} (hpath : path ≠ "") :
    Root.resolve fs path = Root.resolveFrom fs Ramfs.root (components path) := by
  simp only [Root.resolve, if_neg hpath]
  rw [← components_stripped]
  split
  · rename_i hempty
    rw [hempty, components_empty]
    rfl
  · rfl

theorem lastComponent_append {before after : String} (hafter : '/' ∉ after.toList) :
    lastComponent (before ++ String.singleton '/' ++ after) = after := by
  rw [lastComponent, split_append, split_of_not_mem hafter]
  simp

theorem lastComponent_of_not_mem {path : String} (hpath : '/' ∉ path.toList) :
    lastComponent path = path := by
  rw [lastComponent, split_of_not_mem hpath]
  rfl

theorem components_of_not_mem {name : String} (hname : '/' ∉ name.toList) (hne : name ≠ "") :
    components name = [name] := by
  simp [components, split_of_not_mem hname, hne]

/-- `split_parent` cuts off what is behind the last slash. -/
theorem splitParent_spec (path : String) :
    (Root.splitParent path).1 ≠ "" ∧ (Root.splitParent path).2 = lastComponent path ∧
      components path = components (Root.splitParent path).1 ++ components (lastComponent path) ∧
      '/' ∉ (lastComponent path).toList := by
  unfold Root.splitParent
  cases hsplit : rsplitOnce '/' path with
  | none =>
    have hslash := rsplitOnce_eq_none hsplit
    rw [lastComponent_of_not_mem hslash]
    exact ⟨by simp, rfl, by rw [components_slash, List.nil_append], hslash⟩
  | some parts =>
    obtain ⟨before, after⟩ := parts
    obtain ⟨rfl, hafter⟩ := rsplitOnce_eq_some hsplit
    rw [lastComponent_append hafter, components_append]
    split
    · rename_i heq
      cases heq
      exact ⟨by simp, rfl, by rw [components_empty, components_slash], hafter⟩
    · rename_i hbefore heq
      cases heq
      exact ⟨hbefore, rfl, rfl, hafter⟩
    · rename_i heq
      cases heq

/-- That is the last component, if there is one. -/
theorem splitParent_components {path : String} (hpath : lastComponent path ≠ "") :
    (Root.splitParent path).1 ≠ "" ∧ (Root.splitParent path).2 = lastComponent path ∧
      components path = components (Root.splitParent path).1 ++ [lastComponent path] := by
  obtain ⟨hne, hname, hcomps, hslash⟩ := splitParent_spec path
  rw [components_of_not_mem hslash hpath] at hcomps
  exact ⟨hne, hname, hcomps⟩

theorem createUnder_eq (fs : Ramfs) (path : String)
    (create : Ramfs → InodeRef → String → Except FsError InodeRef × Ramfs) :
    createUnder fs path create =
      match Root.resolve fs (Root.splitParent path).1 with
      | .ok parent => create fs parent (Root.splitParent path).2
      | .error e => (.error e, fs) :=
  rfl

theorem remove_eq (fs : Ramfs) (path : String) :
    Root.remove fs path =
      match Root.resolve fs (Root.splitParent path).1 with
      | .error e => (.error e, fs)
      | .ok parent => fs.remove parent (Root.splitParent path).2 :=
  rfl

/-! ## The calls on a mounted file system -/

/-- A file system and the handles that were opened on it, named by their place in
`files`. -/
structure Vfs where
  fs : Ramfs
  files : List File

namespace Vfs

/-- A fresh root with nothing open. -/
def new : Vfs := ⟨Ramfs.newRoot, []⟩

/-- Open a path and keep the handle. -/
def openPath (vfs : Vfs) (path : String) (flags : OpenFlags) : Except FsError ℕ × Vfs :=
  match Root.openPath vfs.fs path flags with
  | (.ok file, fs) => (.ok vfs.files.length, ⟨fs, vfs.files ++ [file]⟩)
  | (.error e, fs) => (.error e, ⟨fs, vfs.files⟩)

end Vfs

/-- A call and its answer; handles are given by their number. -/
inductive Call where
  | openPath (path : String) (flags : OpenFlags) (answer : Except FsError ℕ)
  | mkdir (path : String) (answer : Except FsError Unit)
  | mkfile (path : String) (contents : List UInt8) (answer : Except FsError Unit)
  | remove (path : String) (answer : Except FsError Unit)
  | read (handle len : ℕ) (answer : Except FsError (List UInt8))
  | write (handle : ℕ) (buf : List UInt8) (answer : Except FsError ℕ)
  | seek (handle off : ℕ)

/-- The call answered with an error. -/
def Call.Failed : Call → Prop
  | .openPath _ _ answer => ∃ e, answer = .error e
  | .mkdir _ answer => ∃ e, answer = .error e
  | .mkfile _ _ answer => ∃ e, answer = .error e
  | .remove _ answer => ∃ e, answer = .error e
  | .read _ _ answer => ∃ e, answer = .error e
  | .write _ _ answer => ∃ e, answer = .error e
  | .seek _ _ => False

/-- One call, on a path whose last component is non-empty or on an open handle. -/
inductive Step (vfs : Vfs) : Call → Vfs → Prop
  | openPath {path : String} (flags : OpenFlags) (hpath : lastComponent path ≠ "") :
      Step vfs (.openPath path flags (vfs.openPath path flags).1) (vfs.openPath path flags).2
  | mkdir {path : String} (hpath : lastComponent path ≠ "") :
      Step vfs (.mkdir path ((mkdir vfs.fs path).1.map fun _ => ()))
        { vfs with fs := (mkdir vfs.fs path).2 }
  | mkfile {path : String} (contents : List UInt8) (hpath : lastComponent path ≠ "") :
      Step vfs (.mkfile path contents ((mkfile vfs.fs path contents).1.map fun _ => ()))
        { vfs with fs := (mkfile vfs.fs path contents).2 }
  | remove {path : String} (hpath : lastComponent path ≠ "") :
      Step vfs (.remove path (Root.remove vfs.fs path).1)
        { vfs with fs := (Root.remove vfs.fs path).2 }
  | read {handle len : ℕ} {file moved : File} {answer : Except FsError (List UInt8)}
      (hfile : vfs.files[handle]? = some file)
      (hread : file.read vfs.fs len = .ok (answer, moved)) :
      Step vfs (.read handle len answer) { vfs with files := vfs.files.set handle moved }
  | write {handle : ℕ} {buf : List UInt8} {file moved : File} {answer : Except FsError ℕ}
      {fs : Ramfs}
      (hfile : vfs.files[handle]? = some file)
      (hwrite : file.write vfs.fs buf = .ok (answer, moved, fs)) :
      Step vfs (.write handle buf answer) ⟨fs, vfs.files.set handle moved⟩
  | seek {handle : ℕ} {file : File} (off : ℕ) (hfile : vfs.files[handle]? = some file) :
      Step vfs (.seek handle off) { vfs with files := vfs.files.set handle (file.seek off) }

/-! ## A failed call changes no node -/

section Failed

variable {fs fs' : Ramfs} {self : InodeRef} {name path : String} {e : FsError}

theorem Ramfs.create_failed {node : RamNode}
    (hcreate : fs.create self name node = (.error e, fs')) :
    fs' = fs := by
  unfold Ramfs.create at hcreate
  split at hcreate
  · split at hcreate
    · cases hcreate
      rfl
    · cases hcreate
  · cases hcreate
    rfl

theorem Ramfs.remove_failed (hremove : fs.remove self name = (.error e, fs')) : fs' = fs := by
  unfold Ramfs.remove at hremove
  split at hremove
  · split at hremove
    · cases hremove
      rfl
    · split at hremove
      · cases hremove
        rfl
      · cases hremove
  · cases hremove
    rfl

theorem Ramfs.writeAt_failed {offset : ℕ} {buf : List UInt8}
    (hwrite : fs.writeAt self offset buf = .ok (.error e, fs')) : fs' = fs := by
  unfold Ramfs.writeAt at hwrite
  split at hwrite
  · obtain ⟨stop, _, hrest⟩ := bind_eq_ok.mp hwrite
    obtain ⟨grown, _, hrest⟩ := bind_eq_ok.mp hrest
    obtain ⟨v, _, hpure⟩ := bind_eq_ok.mp hrest
    cases hpure
  · cases hwrite
    rfl

theorem Root.openPath_failed {flags : OpenFlags}
    (hopen : Root.openPath fs path flags = (.error e, fs')) : fs' = fs := by
  unfold Root.openPath at hopen
  split at hopen
  · cases hopen
  · split at hopen
    · simp only at hopen
      split at hopen
      · cases hopen
        rfl
      · split at hopen
        · rename_i hcreate
          cases hopen
          exact Ramfs.create_failed hcreate
        · cases hopen
    · cases hopen
      rfl

theorem createUnder_failed {create : Ramfs → InodeRef → String → Except FsError InodeRef × Ramfs}
    (hcreate : ∀ {dir name fs'}, create fs dir name = (.error e, fs') → fs' = fs)
    (hunder : createUnder fs path create = (.error e, fs')) : fs' = fs := by
  rw [createUnder_eq] at hunder
  split at hunder
  · exact hcreate hunder
  · cases hunder
    rfl

theorem Root.remove_failed (hremove : Root.remove fs path = (.error e, fs')) : fs' = fs := by
  rw [remove_eq] at hremove
  split at hremove
  · cases hremove
    rfl
  · exact Ramfs.remove_failed hremove

theorem File.write_failed {file moved : File} {buf : List UInt8}
    (hwrite : file.write fs buf = .ok (.error e, moved, fs')) : fs' = fs := by
  unfold File.write at hwrite
  split at hwrite
  · cases hwrite
    rfl
  · obtain ⟨⟨answer, after⟩, hanswer, hrest⟩ := bind_eq_ok.mp hwrite
    cases answer with
    | error e' =>
      cases hrest
      exact Ramfs.writeAt_failed hanswer
    | ok n =>
      obtain ⟨offset, _, hpure⟩ := bind_eq_ok.mp hrest
      cases hpure

theorem eq_error_of_map {x : Except FsError InodeRef} (hx : x.map (fun _ => ()) = .error e) :
    x = .error e := by
  cases x with
  | error e' =>
    cases hx
    rfl
  | ok ref => cases hx

/-- **A call that answers with an error leaves every node as it was.** -/
theorem step_failed {vfs vfs' : Vfs} {call : Call} (step : Step vfs call vfs')
    (hfailed : call.Failed) : vfs'.fs = vfs.fs := by
  cases step with
  | openPath flags hpath =>
    obtain ⟨e, hanswer⟩ := hfailed
    unfold Vfs.openPath at hanswer ⊢
    split at hanswer
    · cases hanswer
    · rename_i hopen
      exact Root.openPath_failed hopen
  | mkdir hpath =>
    obtain ⟨e, hanswer⟩ := hfailed
    exact createUnder_failed Ramfs.create_failed (Prod.ext (eq_error_of_map hanswer) rfl)
  | mkfile contents hpath =>
    obtain ⟨e, hanswer⟩ := hfailed
    exact createUnder_failed Ramfs.create_failed (Prod.ext (eq_error_of_map hanswer) rfl)
  | remove hpath =>
    obtain ⟨e, hanswer⟩ := hfailed
    exact Root.remove_failed (Prod.ext hanswer rfl)
  | read hfile hread => rfl
  | write hfile hwrite =>
    obtain ⟨e, rfl⟩ := hfailed
    exact File.write_failed hwrite
  | seek off hfile => rfl

end Failed

end Hyperion.Fs
