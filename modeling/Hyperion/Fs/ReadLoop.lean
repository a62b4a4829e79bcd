import Hyperion.Fs.FileArray
import Hyperion.Fs.OpenPath
import Hyperion.Lib.Lossy

/-!
# Reading a file to its end

`read_to_string` opens a path and reads chunks of 256 bytes until a read returns none.  Here the
sizes of the buffers are arbitrary, one for each turn.  What has been read is always the front
of the contents up to the offset of the handle, and a turn that does not end the loop moves the
offset on, so the loop ends at the end of the contents, whatever their length is
(`readLoop_returns`).
-/

namespace Hyperion.Fs

open Hyperion.Lib

/-- One turn of the loop, the turn `i` with a buffer of `sizes i` bytes.  `out` is what has been
read so far. -/
def readTurn (fs : Ramfs) (sizes : ℕ → ℕ) :
    ℕ × File × List UInt8 → Checked (Turn (ℕ × File × List UInt8) (Except FsError (List UInt8)))
  | (i, file, out) => do
      match ← file.read fs (sizes i) with
      | (.error e, _) => pure (.leave (.error e))
      | (.ok bytes, file) =>
        if bytes.length = 0 then pure (.leave (.ok out))
        else pure (.again (i + 1, file, out ++ bytes))

/-- `OpenFlags::READ`. -/
def OpenFlags.onlyRead : OpenFlags := ⟨true, false, false, false⟩

/-- `read_to_string`.  A turn that goes round again has read a byte, so the size of the node
bounds the turns. -/
def readToString (fs : Ramfs) (path : String) : Checked (Except FsError String) :=
  match Root.openPath fs path .onlyRead with
  | (.error e, _) => pure (.error e)
  | (.ok f, fs) => do
      match ← loop (readTurn fs fun _ => 256) (fs.size f.inode + 1) (0, f, []) with
      | .error e => pure (.error e)
      | .ok out => pure (.ok (fromUtf8Lossy out))

variable {fs fs' : Ramfs} {path : String} {node : InodeRef} {v : List UInt8} {file : File}

/-- What holds before every turn: the handle is on the file, and what was read is the front of
the contents up to its offset. -/
structure ReadUpTo (node : InodeRef) (v : List UInt8) (state : ℕ × File × List UInt8) : Prop where
  inode : state.2.1.inode = node
  flag : state.2.1.flags.read = true
  offset_le : state.2.1.offset ≤ v.length
  out_eq : state.2.2 = v.take state.2.1.offset

theorem length_bytesAt_eq (v : List UInt8) (off n : ℕ) :
    (bytesAt v off n).length = min n (v.length - off) := by
  rw [bytesAt, List.length_take, List.length_drop]

/-- One turn reads on, or ends the loop at the end of the contents. -/
theorem readTurn_returns (hleaf : fs.entryAt node = .leaf v) (hv : v.length < usizeBound)
    {sizes : ℕ → ℕ} (hsizes : ∀ i, 0 < sizes i) {state : ℕ × File × List UInt8}
    (h : ReadUpTo node v state) :
    Returns (readTurn fs sizes state) (TurnPost (ReadUpTo node v)
      (fun state => v.length - state.2.1.offset) (fun result => result = .ok v) state) := by
  obtain ⟨i, file, out⟩ := state
  obtain ⟨hinode, hflag, hle, hout⟩ := h
  dsimp only at hinode hflag hle hout
  have hsize := hsizes i
  have hlength := length_bytesAt_eq v file.offset (sizes i)
  have hread := File.read_returns (by rw [hinode]; exact hleaf) hflag hv (hle.trans_lt hv) (sizes i)
  simp only [readTurn, hread, bind, Except.bind]
  split
  case isTrue hend =>
    refine returns_pure ?_
    show Except.ok out = Except.ok v
    rw [hout, List.take_of_length_le (by omega)]
  case isFalse hmore =>
    refine returns_pure ⟨⟨hinode, hflag, ?_, ?_⟩, ?_⟩
    · show file.offset + _ ≤ v.length
      omega
    · show out ++ _ = v.take (file.offset + _)
      rw [hout, List.take_add, hlength]
      congr 1
      rw [bytesAt, List.take_eq_take_min, List.length_drop]
    · show v.length - (file.offset + _) < v.length - file.offset
      omega

/-- The whole loop reads the contents. -/
theorem readLoop_returns (hleaf : fs.entryAt file.inode = .leaf v) (hv : v.length < usizeBound)
    (hflag : file.flags.read = true) (hstart : file.offset = 0) {sizes : ℕ → ℕ}
    (hsizes : ∀ i, 0 < sizes i) {fuel : ℕ} (hfuel : v.length < fuel) :
    loop (readTurn fs sizes) fuel (0, file, []) = .ok (.ok v) := by
  have hinit : ReadUpTo file.inode v (0, file, []) :=
    ⟨rfl, hflag, by simp [hstart], by simp [hstart]⟩
  obtain ⟨result, hloop, rfl⟩ := returns_loop
    (fun state hstate => readTurn_returns hleaf hv hsizes hstate) fuel (0, file, []) hinit
    (by simpa [hstart] using hfuel)
  exact hloop

theorem readToString_of_leaf {ref : InodeRef} (hresolve : Root.resolve fs path = .ok ref)
    (hleaf : fs.entryAt ref = .leaf v) (hv : v.length < usizeBound) :
    readToString fs path = .ok (.ok (fromUtf8Lossy v)) := by
  have hopen : Root.openPath fs path .onlyRead = (.ok ⟨ref, 0, .onlyRead⟩, fs) := by
    rw [Root.openPath, hresolve]
  have hsize : fs.size ref = v.length := by rw [Ramfs.size, Ramfs.data_of_leaf hleaf]
  have hloop : loop (readTurn fs fun _ => 256) (fs.size ref + 1) (0, ⟨ref, 0, .onlyRead⟩, []) =
      .ok (.ok v) :=
    readLoop_returns hleaf hv rfl rfl (fun _ => by decide) (by omega)
  simp only [readToString, hopen, hloop]
  rfl

/-- **Reading until a read returns nothing gives the whole file**, whatever the sizes of the
buffers are, and so does `read_to_string`. -/
theorem readLoop_complete (wf : fs.WellFormed) {flags : OpenFlags}
    (hopen : Root.openPath fs path flags = (.ok file, fs')) (hflag : flags.read = true)
    (hleaf : fs'.entryAt file.inode = .leaf v) (hv : v.length < usizeBound) :
    (∀ sizes : ℕ → ℕ, (∀ i, 0 < sizes i) → ∀ fuel, v.length < fuel →
      loop (readTurn fs' sizes) fuel (0, file, []) = .ok (.ok v)) ∧
    readToString fs' path = .ok (.ok (fromUtf8Lossy v)) ∧
    ∀ text, v = utf8 text → readToString fs' path = .ok (.ok text) := by
  have hcases := openPath_cases wf path flags
  rw [hopen] at hcases
  have hresolve : Root.resolve fs' path = .ok file.inode := hcases.resolve wf rfl
  obtain ⟨hstart, hflags⟩ := hcases.handle
  have hstring := readToString_of_leaf hresolve hleaf hv
  refine ⟨?_, hstring, ?_⟩
  · intro sizes hsizes fuel hfuel
    exact readLoop_returns hleaf hv (by rw [hflags]; exact hflag) hstart hsizes hfuel
  · rintro text rfl
    rw [hstring, fromUtf8Lossy_utf8]

/-- A root with one file `note`. -/
def oneNote (text : String) : Ramfs :=
  (Ramfs.newRoot.createFile Ramfs.root "note" (utf8 text)).2

theorem wellFormed_oneNote (text : String) : (oneNote text).WellFormed :=
  Ramfs.wellFormed_newRoot.createFile (Nat.lt_succ_self _) "note" (utf8 text)

theorem readLoop_complete_oneNote :
    Root.openPath (oneNote "hello") "/note" .onlyRead =
      (.ok ⟨1, 0, .onlyRead⟩, oneNote "hello") ∧
    readToString (oneNote "hello") "/note" = .ok (.ok "hello") := by
  have hresolve : Root.resolve (oneNote "hello") "/note" = .ok 1 := rfl
  have hopen : Root.openPath (oneNote "hello") "/note" .onlyRead =
      (.ok ⟨1, 0, .onlyRead⟩, oneNote "hello") := by
    rw [Root.openPath, hresolve]
  have hcomplete := readLoop_complete (wellFormed_oneNote "hello") hopen rfl rfl (by decide +kernel)
  exact ⟨hopen, hcomplete.2.2 "hello" rfl⟩

end Hyperion.Fs
