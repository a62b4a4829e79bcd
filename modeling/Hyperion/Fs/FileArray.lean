import Hyperion.Fs.FlatRefinement
import Hyperion.Lib.GrowArray

/-!
# A regular file is an array that grows

Any number of handles are open on one regular file, and `seek`, `read` and `write` are called
through them one at a time.  What they do is said without nodes by `ArrayFile`: the contents are
a `GrowArray` of bytes with zeros behind its length, a handle is an offset with its flags, a
write puts its bytes at the offset of its handle (at the length, for an appending handle), and a
read returns the bytes from the offset on, as many as there are.

`seek` takes any offset, so a write may be asked to end behind `isize::MAX`.  The contents are a
`Vec`, which has no more bytes than that, so such a write panics: in `resize`, or from `2^64` on
because the end wraps.  As long as there is none (`FitsAll`), the calls on the file answer as
those on the array (`performAll_refines`), and from the first one on there is no answer
(`contained_iff`).  Memory for the contents is taken to be there.
-/

namespace Hyperion.Fs

open Hyperion.Lib

variable {Handle : Type} [DecidableEq Handle]

/-! ## The calls -/

inductive FileOp (Handle : Type) where
  | seek (handle : Handle) (off : UInt64)
  /-- `read` into a buffer of `len` bytes. -/
  | read (handle : Handle) (len : ℕ)
  | write (handle : Handle) (buf : List UInt8)

inductive FileAnswer where
  | moved
  | bytes (answer : Except FsError (List UInt8))
  | count (answer : Except FsError ℕ)

def FileAnswer.Failed : FileAnswer → Prop
  | moved => False
  | bytes answer => ∃ e, answer = .error e
  | count answer => ∃ e, answer = .error e

/-- A file system and the handles that are open on it. -/
structure OpenFiles (Handle : Type) where
  fs : Ramfs
  file : Handle → File

/-- One call, with what it answers. -/
def FileOp.perform (s : OpenFiles Handle) : FileOp Handle → Checked (FileAnswer × OpenFiles Handle)
  | seek handle off =>
    pure (.moved, { s with file := Function.update s.file handle ((s.file handle).seek off.toNat) })
  | read handle len => do
      let (answer, file) ← (s.file handle).read s.fs len
      pure (.bytes answer, { s with file := Function.update s.file handle file })
  | write handle buf => do
      let (answer, file, fs) ← (s.file handle).write s.fs buf
      pure (.count answer, ⟨fs, Function.update s.file handle file⟩)

/-- One call after the other, with all the answers. -/
def performAll (s : OpenFiles Handle) :
    List (FileOp Handle) → Checked (List FileAnswer × OpenFiles Handle)
  | [] => pure ([], s)
  | op :: ops => do
      let (answer, s) ← op.perform s
      let (answers, s) ← performAll s ops
      pure (answer :: answers, s)

/-! ## The array -/

/-- The contents of a file and the handles on it. -/
structure ArrayFile (Handle : Type) where
  contents : GrowArray UInt8 0
  offset : Handle → ℕ
  flags : Handle → OpenFlags

namespace ArrayFile

omit [DecidableEq Handle] in
/-- Where a write starts. -/
def writeOffset (a : ArrayFile Handle) (handle : Handle) : ℕ :=
  if (a.flags handle).append then a.contents.len else a.offset handle

/-- The same calls on the array. -/
def perform (a : ArrayFile Handle) : FileOp Handle → FileAnswer × ArrayFile Handle
  | .seek handle off => (.moved, { a with offset := Function.update a.offset handle off.toNat })
  | .read handle len =>
    if (a.flags handle).read then
      let bytes := a.contents.read (a.offset handle) len
      (.bytes (.ok bytes),
        { a with offset := Function.update a.offset handle (a.offset handle + bytes.length) })
    else (.bytes (.error .io), a)
  | .write handle buf =>
    if (a.flags handle).write then
      (.count (.ok buf.length),
        { a with
          contents := a.contents.write (a.writeOffset handle) buf
          offset := Function.update a.offset handle (a.writeOffset handle + buf.length) })
    else (.count (.error .io), a)

def performAll (a : ArrayFile Handle) : List (FileOp Handle) → List FileAnswer × ArrayFile Handle
  | [] => ([], a)
  | op :: ops =>
    let (answer, a) := a.perform op
    let (answers, a) := a.performAll ops
    (answer :: answers, a)

omit [DecidableEq Handle] in
/-- A write ends at `limit` at the latest. -/
def Fits (limit : ℕ) (a : ArrayFile Handle) : FileOp Handle → Prop
  | .seek _ _ | .read _ _ => True
  | .write handle buf =>
    (a.flags handle).write = true → a.writeOffset handle + buf.length ≤ limit

/-- Every write of the sequence does. -/
def FitsAll (limit : ℕ) (a : ArrayFile Handle) : List (FileOp Handle) → Prop
  | [] => True
  | op :: ops => a.Fits limit op ∧ (a.perform op).2.FitsAll limit ops

end ArrayFile

/-! ## The refinement -/

/-- The handles are open on the regular file `node`, and its contents and their offsets are
those of the array.  The contents are a `Vec`, and the offsets are of type `usize`. -/
structure HoldsArray (node : InodeRef) (s : OpenFiles Handle) (a : ArrayFile Handle) : Prop where
  leaf : ∃ v, s.fs.entryAt node = .leaf v ∧ a.contents = .ofList v
  handle : ∀ handle, s.file handle = ⟨node, a.offset handle, a.flags handle⟩
  len_le : a.contents.len ≤ isizeMax
  offset_lt : ∀ handle, a.offset handle < usizeBound

section Calls

variable {fs : Ramfs} {file : File} {v : List UInt8}

/-- A read of a file returns, whatever the offset is. -/
theorem File.read_returns (hleaf : fs.entryAt file.inode = .leaf v) (hflag : file.flags.read = true)
    (hv : v.length < usizeBound) (hoff : file.offset < usizeBound) (len : ℕ) :
    file.read fs len = .ok (.ok (bytesAt v file.offset len),
      { file with offset := file.offset + (bytesAt v file.offset len).length }) := by
  have hsum : file.offset + (bytesAt v file.offset len).length < usizeBound := by
    rw [bytesAt, List.length_take, List.length_drop]
    omega
  have hbytes := (Ramfs.readAt_of_leaf hleaf file.offset len).resolve_right
    fun hlong => absurd hv (Nat.not_lt.mpr hlong.1)
  simp only [read, hflag, hbytes, bind, Except.bind, addUsize_of_lt hsum]
  rfl

end Calls

section Step

variable {node : InodeRef} {s : OpenFiles Handle} {a : ArrayFile Handle}

omit [DecidableEq Handle] in
theorem HoldsArray.seekForWrite (h : HoldsArray node s a) (handle : Handle) :
    (s.file handle).seekForWrite s.fs = ⟨node, a.writeOffset handle, a.flags handle⟩ := by
  obtain ⟨v, hleaf, hcontents⟩ := h.leaf
  rw [h.handle, File.seekForWrite, ArrayFile.writeOffset, hcontents]
  split
  · rw [Ramfs.size, Ramfs.data_of_leaf hleaf]
    rfl
  · rfl

/-- A handle moves. -/
theorem HoldsArray.move (h : HoldsArray node s a) (handle : Handle) {offset : ℕ}
    (hoffset : offset < usizeBound) :
    HoldsArray node { s with file := Function.update s.file handle ⟨node, offset, a.flags handle⟩ }
      { a with offset := Function.update a.offset handle offset } := by
  refine ⟨h.leaf, ?_, h.len_le, ?_⟩
  · intro other
    rcases eq_or_ne other handle with rfl | hne
    · simp
    · simp [hne, h.handle]
  · intro other
    rcases eq_or_ne other handle with rfl | hne
    · simpa using hoffset
    · simpa [hne] using h.offset_lt other

/-- **One call on the file answers as on the array**, if it fits. -/
theorem perform_refines (h : HoldsArray node s a) (op : FileOp Handle)
    (hfits : a.Fits isizeMax op) :
    ∃ s', op.perform s = .ok ((a.perform op).1, s') ∧ HoldsArray node s' (a.perform op).2 := by
  obtain ⟨v, hleaf, hcontents⟩ := h.leaf
  have hlen : a.contents.len = v.length := by rw [hcontents]; rfl
  have hlt : a.contents.len < usizeBound := h.len_le.trans_lt (by decide)
  have hfile := h.handle
  cases op with
  | seek handle off =>
    refine ⟨_, rfl, ?_⟩
    rw [hfile handle]
    exact h.move handle off.toNat_lt
  | read handle len =>
    rw [ArrayFile.perform, FileOp.perform, hfile handle]
    cases hflag : (a.flags handle).read with
    | false =>
      rw [File.read_of_refused (.inl hflag)]
      refine ⟨_, rfl, ?_⟩
      rw [← hfile handle, Function.update_eq_self]
      exact h
    | true =>
      have hread : a.contents.read (a.offset handle) len = bytesAt v (a.offset handle) len := by
        rw [hcontents, GrowArray.read_ofList, bytesAt, ← List.length_drop,
          ← List.take_eq_take_min]
      have hbound : a.offset handle + (a.contents.read (a.offset handle) len).length <
          usizeBound := by
        have hoff := h.offset_lt handle
        rw [GrowArray.length_read]
        omega
      rw [File.read_returns hleaf hflag (hlen ▸ hlt) (h.offset_lt handle), ← hread]
      exact ⟨_, rfl, h.move handle hbound⟩
  | write handle buf =>
    rw [ArrayFile.perform, FileOp.perform]
    cases hflag : (a.flags handle).write with
    | false =>
      rw [File.write_of_unwritable (by rw [hfile handle]; exact hflag)]
      refine ⟨_, rfl, ?_⟩
      rw [Function.update_eq_self]
      exact h
    | true =>
      have hseek := h.seekForWrite handle
      have hend : a.writeOffset handle + buf.length ≤ isizeMax := hfits hflag
      have hinode : (s.file handle).inode = node := by rw [hfile handle]
      rw [File.write_of_leaf (by rw [hinode]; exact hleaf) (by rw [hfile handle]; exact hflag)
        (by rw [hseek]; exact Ramfs.canEnd_of_le hend), hseek, hinode]
      refine ⟨_, rfl, ?_⟩
      have hmoved := h.move handle (hend.trans_lt (by decide))
      refine ⟨⟨splice v (a.writeOffset handle) buf, ?_, ?_⟩, hmoved.handle, ?_, hmoved.offset_lt⟩
      · rw [(Ramfs.written_setData hleaf _).entries, Function.update_self]
      · rw [GrowArray.ofList_splice, ← hcontents]
        rfl
      · exact max_le h.len_le hend

end Step

/-! ## Sequences of calls -/

section Sequences

variable {node : InodeRef} {s : OpenFiles Handle} {a : ArrayFile Handle}

/-- **The file refines the array.**  Whatever is called through whichever handles, with writes
that end at `isize::MAX` at the latest, every call returns, the answers are those of the array,
and so are the contents and the offsets afterwards. -/
theorem performAll_refines (h : HoldsArray node s a) (ops : List (FileOp Handle))
    (hfits : a.FitsAll isizeMax ops) :
    ∃ s', performAll s ops = .ok ((a.performAll ops).1, s') ∧
      HoldsArray node s' (a.performAll ops).2 := by
  induction ops generalizing s a with
  | nil => exact ⟨s, rfl, h⟩
  | cons op ops ih =>
    obtain ⟨next, hop, hnext⟩ := perform_refines h op hfits.1
    obtain ⟨last, hops, hlast⟩ := ih hnext hfits.2
    refine ⟨last, ?_, hlast⟩
    rw [performAll, hop]
    show (do
      let (answers, s) ← performAll next ops
      pure ((a.perform op).1 :: answers, s)) = _
    rw [hops]
    rfl

/-! ## Writes that end too far -/

omit [DecidableEq Handle] in
/-- The contents after a write are no longer than a `Vec` can be. -/
def FileOp.Representable (s : OpenFiles Handle) : FileOp Handle → Prop
  | seek _ _ | read _ _ => True
  | write handle buf => ((s.file handle).seekForWrite s.fs).offset + buf.length ≤ isizeMax

/-- Every call of the sequence returns, and a write that is not representable answers with an
error and changes neither the contents nor a handle. -/
def Contained (s : OpenFiles Handle) : List (FileOp Handle) → Prop
  | [] => True
  | op :: ops => ∃ answer s', op.perform s = .ok (answer, s') ∧
      (¬op.Representable s → answer.Failed ∧ s' = s) ∧ Contained s' ops

/-- A call that returns fits. -/
theorem fits_of_perform (h : HoldsArray node s a) {op : FileOp Handle}
    {result : FileAnswer × OpenFiles Handle} (hop : op.perform s = .ok result) :
    a.Fits isizeMax op := by
  cases op with
  | seek handle off => trivial
  | read handle len => trivial
  | write handle buf =>
    intro hflag
    obtain ⟨v, hleaf, hcontents⟩ := h.leaf
    have hv : v.length ≤ isizeMax := by
      have hlen := h.len_le
      rwa [hcontents] at hlen
    obtain ⟨written, hwrite, _⟩ := bind_eq_ok.mp hop
    have hinode : (s.file handle).inode = node := by rw [h.handle handle]
    have hend := (File.canEnd_of_write (by rw [hinode]; exact hleaf)
      (by rw [h.handle handle]; exact hflag) hwrite).le hv
    rwa [h.seekForWrite handle] at hend

/-- Only a write through a handle without `WRITE` can fit and end too far. -/
theorem perform_unrepresentable (h : HoldsArray node s a) {op : FileOp Handle}
    (hfits : a.Fits isizeMax op) (hend : ¬op.Representable s) :
    ∃ answer, op.perform s = .ok (answer, s) ∧ answer.Failed := by
  cases op with
  | seek handle off => exact absurd trivial hend
  | read handle len => exact absurd trivial hend
  | write handle buf =>
    rw [FileOp.Representable, h.seekForWrite handle] at hend
    have hflag : (s.file handle).flags.write = false := by
      rw [h.handle handle]
      exact Bool.eq_false_iff.mpr fun hflag => hend (hfits hflag)
    refine ⟨.count (.error .io), ?_, .io, rfl⟩
    rw [FileOp.perform, File.write_of_unwritable hflag]
    show Except.ok (FileAnswer.count (.error .io), OpenFiles.mk s.fs _) = _
    rw [Function.update_eq_self]

/-- **No call panics exactly if every write that is made ends at `isize::MAX` at the latest.** -/
theorem contained_iff (h : HoldsArray node s a) (ops : List (FileOp Handle)) :
    Contained s ops ↔ a.FitsAll isizeMax ops := by
  induction ops generalizing s a with
  | nil => exact Iff.rfl
  | cons op ops ih =>
    constructor
    · rintro ⟨answer, next, hop, _, hrest⟩
      have hfits := fits_of_perform h hop
      obtain ⟨next', hop', hnext⟩ := perform_refines h op hfits
      rw [hop'] at hop
      cases hop
      exact ⟨hfits, (ih hnext).mp hrest⟩
    · rintro ⟨hfits, hrest⟩
      obtain ⟨next, hop, hnext⟩ := perform_refines h op hfits
      refine ⟨_, next, hop, ?_, (ih hnext).mpr hrest⟩
      intro hend
      obtain ⟨answer, hsame, hfailed⟩ := perform_unrepresentable h hfits hend
      rw [hsame] at hop
      cases hop
      exact ⟨hfailed, rfl⟩

end Sequences

/-! ## Two handles on one file -/

/-- A file of three bytes, with a handle that appends and one that does not. -/
def twoHandles : OpenFiles Bool where
  fs := (Ramfs.newRoot.createFile Ramfs.root "f" [1, 2, 3]).2
  file appends := ⟨1, 0, ⟨true, true, false, appends⟩⟩

def twoOffsets : ArrayFile Bool where
  contents := .ofList [1, 2, 3]
  offset _ := 0
  flags appends := ⟨true, true, false, appends⟩

theorem holdsArray_twoHandles : HoldsArray 1 twoHandles twoOffsets where
  leaf := ⟨[1, 2, 3], rfl, rfl⟩
  handle _ := rfl
  len_le := by decide
  offset_lt _ := show 0 < usizeBound by decide

/-- Append a byte, write behind the end through the other handle, and read it all. -/
def holeCalls : List (FileOp Bool) :=
  [.write true [9], .seek false 6, .write false [7, 8], .seek false 0, .read false 100]

theorem fitsAll_holeCalls : twoOffsets.FitsAll isizeMax holeCalls :=
  ⟨fun _ => by decide, trivial, fun _ => by decide, trivial, trivial, trivial⟩

theorem performAll_refines_holeCalls :
    HoldsArray 1 twoHandles twoOffsets ∧ twoOffsets.FitsAll isizeMax holeCalls ∧
      ∃ s', performAll twoHandles holeCalls = .ok ((twoOffsets.performAll holeCalls).1, s') ∧
        HoldsArray 1 s' (twoOffsets.performAll holeCalls).2 :=
  ⟨holdsArray_twoHandles, fitsAll_holeCalls,
    performAll_refines holdsArray_twoHandles holeCalls fitsAll_holeCalls⟩

/-- `seek(1 << 63)` and a write of one byte: the end is a `usize`, and the write panics. -/
theorem write_beyondVec :
    HoldsArray 1 twoHandles twoOffsets ∧
      twoOffsets.FitsAll (usizeBound - 1) [.seek false 0x8000000000000000, .write false [7]] ∧
      ¬∃ s', performAll twoHandles [.seek false 0x8000000000000000, .write false [7]] =
        .ok ((twoOffsets.performAll [.seek false 0x8000000000000000, .write false [7]]).1, s') := by
  refine ⟨holdsArray_twoHandles, ⟨trivial, fun _ => by decide, trivial⟩, ?_⟩
  rintro ⟨s', hcalls⟩
  cases hcalls

theorem contained_iff_holeCalls :
    HoldsArray 1 twoHandles twoOffsets ∧ Contained twoHandles holeCalls :=
  ⟨holdsArray_twoHandles, (contained_iff holdsArray_twoHandles holeCalls).mpr fitsAll_holeCalls⟩

/-- `seek(usize::MAX)` and a write of one byte: the write panics. -/
theorem write_overTheEnd :
    HoldsArray 1 twoHandles twoOffsets ∧
      (performAll twoHandles [.seek false 0xffffffffffffffff, .write false [7]]).isOk = false ∧
      ¬Contained twoHandles [.seek false 0xffffffffffffffff, .write false [7]] := by
  refine ⟨holdsArray_twoHandles, rfl, ?_⟩
  rintro ⟨answer, s, hseek, _, answer', s', hwrite, _⟩
  cases hseek
  cases hwrite

end Hyperion.Fs
