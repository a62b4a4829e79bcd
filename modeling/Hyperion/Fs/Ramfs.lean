import Hyperion.Lib.Bytes
import Hyperion.Lib.OrdMap

/-!
# The in-memory file system

`fs/inode.rs` and `fs/ramfs.rs`.  Inodes are shared: a directory entry and any
number of open handles may refer to the same one, and a write through any of the
references is seen through all.  So an inode is an `InodeRef` into a store of
nodes, and the methods of a node take the store and give it back.  A node that no
directory refers to any more stays in the store, where only its open handles can
see it.

The lock of a node is held for the whole of each method, so every method is one
step.
-/

namespace Hyperion.Fs

open Hyperion.Lib

/-- `Arc<dyn Inode>`: the place of a node in the store. -/
abbrev InodeRef := ℕ

inductive FileType where
  | regular
  | directory
  deriving DecidableEq, Repr

inductive FsError where
  | notFound
  | notADirectory
  | alreadyExists
  | invalidPath
  | io
  | notEmpty
  deriving DecidableEq, Repr

inductive NodeData where
  | file (contents : List UInt8)
  | dir (entries : OrdMap String InodeRef)

structure RamNode where
  name : String
  data : NodeData

namespace RamNode

/-- `RamNode::new_file`. -/
def newFile (name : String) (contents : List UInt8) : RamNode := ⟨name, .file contents⟩

/-- `RamNode::new_dir`. -/
def newDir (name : String) : RamNode := ⟨name, .dir .empty⟩

end RamNode

/-- The nodes allocated so far are those below `next`. -/
structure Ramfs where
  node : InodeRef → RamNode
  next : InodeRef

/-- `v.resize(len, 0)`.  A `Vec` panics rather than ask for more than `isize::MAX` bytes. -/
def resize (v : List UInt8) (len : ℕ) : Checked (List UInt8) :=
  if len ≤ v.length then .ok (v.take len)
  else if len ≤ isizeMax then .ok (v ++ List.replicate (len - v.length) 0)
  else .error .capacityOverflow

/-- The contents when `write_at` has made room for a write that ends at `stop`. -/
def growTo (v : List UInt8) (stop : ℕ) : Checked (List UInt8) :=
  if v.length < stop then resize v stop else pure v

namespace Ramfs

/-- The inode that `new_root` returns. -/
def root : InodeRef := 0

/-- `ramfs::new_root`. -/
def newRoot : Ramfs where
  node _ := RamNode.newDir ""
  next := root + 1

/-- `Arc::new(node)`. -/
def alloc (fs : Ramfs) (node : RamNode) : InodeRef × Ramfs :=
  (fs.next, { node := Function.update fs.node fs.next node, next := fs.next + 1 })

/-- Replace what is behind the lock of `self`. -/
def setData (fs : Ramfs) (self : InodeRef) (data : NodeData) : Ramfs :=
  { fs with node := Function.update fs.node self { fs.node self with data } }

/-- `Inode::ftype`. -/
def ftype (fs : Ramfs) (self : InodeRef) : FileType :=
  match (fs.node self).data with
  | .file _ => .regular
  | .dir _ => .directory

/-- `Inode::name`. -/
def name (fs : Ramfs) (self : InodeRef) : String := (fs.node self).name

/-- `Inode::size`. -/
def size (fs : Ramfs) (self : InodeRef) : ℕ :=
  match (fs.node self).data with
  | .file v => v.length
  | .dir entries => entries.entries.length

/-- `Inode::read_at` into a buffer of `len` bytes; the answer is what it put at
the buffer's front. -/
def readAt (fs : Ramfs) (self : InodeRef) (offset len : ℕ) :
    Checked (Except FsError (List UInt8)) :=
  match (fs.node self).data with
  | .file v =>
    if v.length ≤ offset then pure (.ok [])
    else do
      let n := min (v.length - offset) len
      let stop ← addUsize offset n
      let bytes ← slice v offset stop
      pure (.ok bytes)
  | .dir _ => pure (.error .io)

/-- `Inode::write_at`. -/
def writeAt (fs : Ramfs) (self : InodeRef) (offset : ℕ) (buf : List UInt8) :
    Checked (Except FsError ℕ × Ramfs) :=
  match (fs.node self).data with
  | .file v => do
      let stop ← addUsize offset buf.length
      let v ← growTo v stop
      let v ← copyFromSlice v offset stop buf
      pure (.ok buf.length, fs.setData self (.file v))
  | .dir _ => pure (.error .io, fs)

/-- `Inode::list`. -/
def list (fs : Ramfs) (self : InodeRef) : List String :=
  match (fs.node self).data with
  | .dir entries => entries.keys
  | .file _ => []

/-- `Inode::lookup`. -/
def lookup (fs : Ramfs) (self : InodeRef) (name : String) : Option InodeRef :=
  match (fs.node self).data with
  | .dir entries => entries.get? name
  | .file _ => none

/-- What `create_file` and `create_dir` share: enter a new node under `name`. -/
def create (fs : Ramfs) (self : InodeRef) (name : String) (node : RamNode) :
    Except FsError InodeRef × Ramfs :=
  match (fs.node self).data with
  | .dir entries =>
    if (entries.get? name).isSome then (.error .alreadyExists, fs)
    else
      let (n, fs) := fs.alloc node
      (.ok n, fs.setData self (.dir (entries.insert name n)))
  | .file _ => (.error .notADirectory, fs)

/-- `Inode::create_file`. -/
def createFile (fs : Ramfs) (self : InodeRef) (name : String) (contents : List UInt8) :
    Except FsError InodeRef × Ramfs :=
  fs.create self name (RamNode.newFile name contents)

/-- `Inode::create_dir`. -/
def createDir (fs : Ramfs) (self : InodeRef) (name : String) : Except FsError InodeRef × Ramfs :=
  fs.create self name (RamNode.newDir name)

/-- `Inode::remove`. -/
def remove (fs : Ramfs) (self : InodeRef) (name : String) : Except FsError Unit × Ramfs :=
  match (fs.node self).data with
  | .dir entries =>
    match entries.get? name with
    | none => (.error .notFound, fs)
    | some entry =>
      if fs.ftype entry = .directory ∧ fs.list entry ≠ [] then (.error .notEmpty, fs)
      else (.ok (), fs.setData self (.dir (entries.erase name)))
  | .file _ => (.error .notADirectory, fs)

end Ramfs

end Hyperion.Fs
