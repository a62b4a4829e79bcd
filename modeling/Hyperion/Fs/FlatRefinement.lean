import Hyperion.Fs.PathCalls

/-!
# The file system refines the flat one

The relation between the two is the view of the tree as a map, together with what
each open handle points to (`Refines`).

* **Handles.**  A handle keeps pointing where it did, except that removing the
  entry of its node detaches it.  `HandleRel` has a lemma for each kind of change
  to the tree.
* **Reads and writes.**  `File.read` and `File.write` are given by what the node
  of the handle holds.
* **Runs.**  `step_refines` matches every call by one of the flat file system with
  the same answer, so `Run.simulation` gives `vfs_refines_flatFs`.
-/

namespace Hyperion.Fs

open Hyperion.Lib Classical

variable {fs fs' : Ramfs} {map : FlatFs} {path name : String} {parent : List String}

/-! ## Handles -/

/-- A handle points to the node of its target path, or to one that no path leads
to.  The offset matters for files only. -/
structure HandleRel (fs : Ramfs) (file : File) (handle : Handle) : Prop where
  inode_lt : file.inode < fs.next
  flags : handle.flags = file.flags
  target : ∀ path, fs.locate path = some file.inode ↔ handle.target = some path
  offset : handle.target ≠ none → fs.entryAt file.inode ≠ .branch → handle.offset = file.offset

namespace HandleRel

variable {file : File} {handle : Handle} {dir : InodeRef}

theorem of_created (wf : fs.WellFormed) {found : Entry (List UInt8)}
    (hcreated : Ramfs.Created fs fs' dir name found) (habsent : fs.lookup dir name = none)
    (hparent : fs.locate parent = some dir) (h : HandleRel fs file handle) :
    HandleRel fs' file handle where
  inode_lt := by
    rw [hcreated.next]
    exact Nat.lt_succ_of_lt h.inode_lt
  flags := h.flags
  target := by
    intro path
    rw [hcreated.locate_eq wf habsent hparent, ← h.target]
    split
    · rename_i heq
      rw [heq, Ramfs.locate_concat hparent, habsent]
      simp [h.inode_lt.ne']
    · rfl
  offset := by
    rw [hcreated.entries, if_neg h.inode_lt.ne]
    exact h.offset

theorem of_removed (wf : fs.WellFormed) (hremoved : Ramfs.Removed fs fs' dir name)
    (hnone : ∀ found ∈ fs.lookup dir name, ∀ key, fs.lookup found key = none)
    (hparent : fs.locate parent = some dir) (h : HandleRel fs file handle) :
    HandleRel fs' file (handle.detach (parent ++ [name])) := by
  have hentry := hremoved.entries file.inode
  unfold Handle.detach
  split
  · rename_i htarget
    refine ⟨by rw [hremoved.next]; exact h.inode_lt, h.flags, ?_, fun hne => absurd rfl hne⟩
    intro path
    rw [hremoved.locate_eq wf hnone hparent]
    split
    · simp
    · rename_i hne
      rw [h.target, htarget]
      simpa using fun heq => hne heq.symm
  · rename_i htarget
    refine ⟨by rw [hremoved.next]; exact h.inode_lt, h.flags, ?_, by rw [hentry]; exact h.offset⟩
    intro path
    rw [hremoved.locate_eq wf hnone hparent]
    split
    · rename_i heq
      rw [heq]
      simpa using htarget
    · exact h.target path

theorem of_written {ref : InodeRef} {old contents : List UInt8} (hleaf : fs.entryAt ref = .leaf old)
    (hwritten : Ramfs.Written fs fs' ref contents) (h : HandleRel fs file handle) :
    HandleRel fs' file handle where
  inode_lt := by
    rw [hwritten.next]
    exact h.inode_lt
  flags := h.flags
  target := by
    rw [hwritten.locate_eq]
    exact h.target
  offset := by
    intro htarget hfile
    apply h.offset htarget
    by_cases href : file.inode = ref
    · rw [href, hleaf]
      exact nofun
    · rwa [hwritten.entries, Function.update_of_ne href] at hfile

/-- A handle just opened at a path. -/
theorem of_locate (wf : fs.WellFormed) {comps : List String} {ref : InodeRef}
    (hlocate : fs.locate comps = some ref) (flags : OpenFlags) :
    HandleRel fs ⟨ref, 0, flags⟩ ⟨some comps, 0, flags⟩ where
  inode_lt := Ramfs.locate_lt wf hlocate
  flags := rfl
  target := by
    intro other
    constructor
    · intro hother
      rw [wf.tree.path_unique hother hlocate]
    · rintro ⟨⟩
      exact hlocate
  offset := fun _ _ => rfl

/-- Both sides move to the same offset. -/
theorem moved (h : HandleRel fs file handle) (offset : ℕ) :
    HandleRel fs { file with offset } { handle with offset } where
  inode_lt := h.inode_lt
  flags := h.flags
  target := h.target
  offset := fun _ _ => rfl

/-- The offset of a directory handle and of a detached one is not seen. -/
theorem moved_of_unseen (h : HandleRel fs file handle)
    (hunseen : handle.target = none ∨ fs.entryAt file.inode = .branch) (offset : ℕ) :
    HandleRel fs { file with offset } handle where
  inode_lt := h.inode_lt
  flags := h.flags
  target := h.target
  offset := by
    intro htarget hfile
    rcases hunseen with hnone | hbranch
    · exact absurd hnone htarget
    · exact absurd hbranch hfile

/-- What the target path of a handle holds is what its node holds. -/
theorem entry_eq (hview : map.entry = fs.view) (h : HandleRel fs file handle) {comps : List String}
    (htarget : handle.target = some comps) : map.entry comps = some (fs.entryAt file.inode) := by
  rw [hview, Ramfs.view_of_locate ((h.target comps).mpr htarget)]

theorem detached (h : HandleRel fs file handle) (htarget : handle.target = none)
    (comps : List String) : fs.locate comps ≠ some file.inode := by
  rw [Ne, h.target, htarget]
  exact nofun

end HandleRel

/-! ## Reads and writes through a handle -/

namespace File

variable {file : File}

theorem read_of_refused {len : ℕ}
    (hrefused : file.flags.read = false ∨ fs.entryAt file.inode = .branch) :
    file.read fs len = .ok (.error .io, file) := by
  unfold read
  rcases hrefused with hflag | hbranch
  · rw [hflag]
    rfl
  · obtain ⟨entries, hdata, _⟩ := Ramfs.data_of_branch hbranch
    split
    · rfl
    · simp only [Ramfs.readAt, hdata]
      rfl

/-- A read of a file that returns gives the bytes at the offset. -/
theorem read_of_leaf {v : List UInt8} (hleaf : fs.entryAt file.inode = .leaf v)
    (hflag : file.flags.read) {len : ℕ} {result : Except FsError (List UInt8) × File}
    (hread : file.read fs len = .ok result) :
    result = (.ok (bytesAt v file.offset len),
      { file with offset := file.offset + (bytesAt v file.offset len).length }) := by
  simp only [read, hflag, Bool.not_true, Bool.false_eq_true, if_false] at hread
  obtain ⟨answer, hanswer, hread⟩ := bind_eq_ok.mp hread
  rcases Ramfs.readAt_of_leaf hleaf file.offset len with hbytes | ⟨_, hfault⟩
  · rw [hbytes] at hanswer
    cases hanswer
    obtain ⟨offset, hoffset, hread⟩ := bind_eq_ok.mp hread
    obtain ⟨_, rfl⟩ := addUsize_eq_ok.mp hoffset
    cases hread
    rfl
  · rw [hfault] at hanswer
    cases hanswer

variable {buf : List UInt8}

theorem write_of_unwritable (hflag : file.flags.write = false) :
    file.write fs buf = .ok (.error .io, file, fs) := by
  rw [write, hflag]
  rfl

theorem inode_seekForWrite (file : File) (fs : Ramfs) :
    (file.seekForWrite fs).inode = file.inode := by
  unfold seekForWrite
  split
  · rfl
  · rfl

theorem write_of_branch (hbranch : fs.entryAt file.inode = .branch) (hflag : file.flags.write) :
    file.write fs buf = .ok (.error .io, file.seekForWrite fs, fs) := by
  simp only [write, hflag, inode_seekForWrite, Ramfs.writeAt_of_branch hbranch]
  rfl

/-- A write to a file returns when it ends where it can. -/
theorem write_of_leaf {v : List UInt8} (hleaf : fs.entryAt file.inode = .leaf v)
    (hflag : file.flags.write) (hend : Ramfs.CanEnd v ((file.seekForWrite fs).offset + buf.length))
    :
    file.write fs buf = .ok (.ok buf.length,
      { file.seekForWrite fs with offset := (file.seekForWrite fs).offset + buf.length },
      fs.setData file.inode (.file (splice v (file.seekForWrite fs).offset buf))) := by
  simp only [write, hflag, inode_seekForWrite, Ramfs.writeAt_of_leaf hleaf hend, bind, Except.bind,
    addUsize_of_lt hend.1]
  rfl

theorem canEnd_of_write {v : List UInt8} (hleaf : fs.entryAt file.inode = .leaf v)
    (hflag : file.flags.write) {result : Except FsError ℕ × File × Ramfs}
    (hwrite : file.write fs buf = .ok result) :
    Ramfs.CanEnd v ((file.seekForWrite fs).offset + buf.length) := by
  rw [← inode_seekForWrite file fs] at hleaf
  simp only [write, hflag, Bool.not_true, Bool.false_eq_true, if_false] at hwrite
  obtain ⟨⟨answer, after⟩, hanswer, _⟩ := bind_eq_ok.mp hwrite
  exact Ramfs.canEnd_of_writeAt hleaf hanswer

end File

/-! ## The refinement relation -/

structure Refines (vfs : Vfs) (flat : Flat) : Prop where
  wf : vfs.fs.WellFormed
  view : flat.map.entry = vfs.fs.view
  length : flat.handles.length = vfs.files.length
  handle : ∀ {i : ℕ} {file : File} {handle : Handle}, vfs.files[i]? = some file →
    flat.handles[i]? = some handle → HandleRel vfs.fs file handle

theorem refines_new : Refines Vfs.new Flat.new where
  wf := Ramfs.wellFormed_newRoot
  view := by
    funext path
    cases path with
    | nil => rfl
    | cons key rest => rfl
  length := rfl
  handle := nofun

namespace Refines

variable {vfs : Vfs} {flat : Flat} {file : File} {handle : Handle}

section

variable (h : Refines vfs flat)

include h

theorem exists_handle {i : ℕ} (hfile : vfs.files[i]? = some file) :
    ∃ handle, flat.handles[i]? = some handle ∧ HandleRel vfs.fs file handle := by
  obtain ⟨hlt, _⟩ := List.getElem?_eq_some_iff.mp hfile
  rw [← h.length] at hlt
  have hhandle := List.getElem?_eq_getElem hlt
  exact ⟨_, hhandle, h.handle hfile hhandle⟩

/-- A new handle takes the same number on both sides. -/
theorem push (hrel : HandleRel vfs.fs file handle) :
    Refines ⟨vfs.fs, vfs.files ++ [file]⟩ ⟨flat.map, flat.handles ++ [handle]⟩ where
  wf := h.wf
  view := h.view
  length := by simp [h.length]
  handle := by
    intro i file' handle' hfile hhandle
    rcases Nat.lt_trichotomy i vfs.files.length with hlt | rfl | hgt
    · rw [List.getElem?_append_left hlt] at hfile
      rw [List.getElem?_append_left (by rwa [h.length])] at hhandle
      exact h.handle hfile hhandle
    · obtain rfl : file = file' := by simpa using hfile
      obtain rfl : handle = handle' := by simpa [← h.length] using hhandle
      exact hrel
    · rw [List.getElem?_eq_none (by simpa using hgt)] at hfile
      cases hfile

theorem set (hrel : HandleRel vfs.fs file handle) (i : ℕ) :
    Refines { vfs with files := vfs.files.set i file }
      { flat with handles := flat.handles.set i handle } where
  wf := h.wf
  view := h.view
  length := by simp [h.length]
  handle := by
    intro j file' handle' hfile hhandle
    rw [List.getElem?_set] at hfile hhandle
    split at hfile
    · rename_i heq
      rw [if_pos heq] at hhandle
      split at hfile
      · rename_i hlt
        rw [if_pos (by rwa [h.length])] at hhandle
        cases hfile
        cases hhandle
        exact hrel
      · cases hfile
    · rename_i hne
      rw [if_neg hne] at hhandle
      exact h.handle hfile hhandle

/-- Only the concrete side of handle `i` changes. -/
theorem set_file {i : ℕ} (hhandle : flat.handles[i]? = some handle)
    (hrel : HandleRel vfs.fs file handle) :
    Refines { vfs with files := vfs.files.set i file } flat := by
  have hset := h.set hrel i
  obtain ⟨hlt, rfl⟩ := List.getElem?_eq_some_iff.mp hhandle
  rwa [List.set_getElem_self hlt] at hset

/-- Adding a node keeps every handle where it was. -/
theorem of_created {dir : InodeRef} {found : Entry (List UInt8)}
    (hcreated : Ramfs.Created vfs.fs fs' dir name found) (habsent : vfs.fs.lookup dir name = none)
    (hparent : vfs.fs.locate parent = some dir) (hview : map.entry = fs'.view) :
    Refines { vfs with fs := fs' } { flat with map := map } where
  wf := hcreated.wellFormed h.wf (Ramfs.locate_lt h.wf hparent)
  view := hview
  length := h.length
  handle := fun hfile hhandle =>
    (h.handle hfile hhandle).of_created h.wf hcreated habsent hparent

theorem of_removed {dir : InodeRef} (hremoved : Ramfs.Removed vfs.fs fs' dir name)
    (hnone : ∀ found ∈ vfs.fs.lookup dir name, ∀ key, vfs.fs.lookup found key = none)
    (hparent : vfs.fs.locate parent = some dir) (hview : map.entry = fs'.view) :
    Refines { vfs with fs := fs' }
      ⟨map, flat.handles.map (Handle.detach (parent ++ [name]))⟩ where
  wf := hremoved.wellFormed h.wf
  view := hview
  length := by simp [h.length]
  handle := by
    intro i file handle hfile hhandle
    rw [List.getElem?_map] at hhandle
    obtain ⟨before, hbefore, rfl⟩ := Option.map_eq_some_iff.mp hhandle
    exact (h.handle hfile hbefore).of_removed h.wf hremoved hnone hparent

theorem of_written {ref : InodeRef} {old contents : List UInt8}
    (hleaf : vfs.fs.entryAt ref = .leaf old) (hwritten : Ramfs.Written vfs.fs fs' ref contents)
    (hview : map.entry = fs'.view) : Refines { vfs with fs := fs' } { flat with map := map } where
  wf := hwritten.wellFormed h.wf
  view := hview
  length := h.length
  handle := fun hfile hhandle => (h.handle hfile hhandle).of_written hleaf hwritten

end

end Refines

/-! ## One call -/

section Step

variable {vfs vfs' : Vfs} {flat : Flat} {call : Call}

/-- Creating a node, as a call of its own. -/
theorem create_refines (h : Refines vfs flat) {found : Entry (List UInt8)}
    {result : Except FsError InodeRef × Ramfs}
    (houtcome : CreateOutcome vfs.fs flat.map path found result) :
    result.1.map (fun _ => ()) = (flat.create (parentOf path) (lastComponent path) found).1 ∧
      Refines { vfs with fs := result.2 }
        (flat.create (parentOf path) (lastComponent path) found).2 := by
  rcases houtcome with
    ⟨e, rfl, hflat⟩ | ⟨fs', map', dir, rfl, hflat, hparent, habsent, hcreated, hview⟩
  · rw [Flat.create, hflat]
    exact ⟨rfl, h⟩
  · rw [Flat.create, hflat]
    exact ⟨rfl, h.of_created hcreated habsent hparent hview⟩

theorem remove_refines (h : Refines vfs flat) (hpath : lastComponent path ≠ "") :
    (Root.remove vfs.fs path).1 = (flat.remove (parentOf path) (lastComponent path)).1 ∧
      Refines { vfs with fs := (Root.remove vfs.fs path).2 }
        (flat.remove (parentOf path) (lastComponent path)).2 := by
  rcases remove_cases h.wf h.view hpath with
    ⟨e, hremove, hflat⟩ | ⟨fs', map', dir, hremove, hflat, hparent, hnone, hremoved, hview⟩
  · rw [Flat.remove, hflat, hremove]
    exact ⟨rfl, h⟩
  · rw [Flat.remove, hflat, hremove]
    exact ⟨rfl, h.of_removed hremoved hnone hparent hview⟩

theorem openPath_refines (h : Refines vfs flat) (hpath : lastComponent path ≠ "")
    (flags : OpenFlags) :
    (vfs.openPath path flags).1 = (flat.openPath (parentOf path) (lastComponent path) flags).1 ∧
      Refines (vfs.openPath path flags).2
        (flat.openPath (parentOf path) (lastComponent path) flags).2 := by
  have hcomps := components_eq hpath
  cases hlocate : vfs.fs.locate (components path) with
  | some ref =>
    have hfind : flat.map.find (parentOf path ++ [lastComponent path]) =
        .ok (vfs.fs.entryAt ref) := by
      rw [← hcomps, FlatFs.find, h.view, Ramfs.view_of_locate hlocate]
    rw [Vfs.openPath, openPath_of_found h.view hpath hlocate, Flat.openPath, hfind, ← hcomps]
    exact ⟨by rw [h.length], h.push (HandleRel.of_locate h.wf hlocate flags)⟩
  | none =>
    have hfind : flat.map.find (parentOf path ++ [lastComponent path]) =
        .error (flat.map.findError (components path)) := by
      rw [← hcomps, FlatFs.find, h.view, Ramfs.view, hlocate]
      rfl
    rw [Vfs.openPath, openPath_of_missing h.view hpath hlocate, Flat.openPath, hfind]
    by_cases hcreate : flat.map.findError (components path) = .notFound ∧ flags.create
    · simp only [if_pos hcreate]
      rcases mkfile_outcome h.wf h.view hpath [] with
        ⟨e, hmkfile, hflat⟩ | ⟨fs', map', dir, hmkfile, hflat, hparent, habsent, hcreated, hview⟩
      · rw [hmkfile, hflat]
        exact ⟨rfl, h⟩
      · rw [hmkfile, hflat, ← hcomps]
        have hnew : fs'.locate (components path) = some vfs.fs.next := by
          rw [hcreated.locate_eq h.wf habsent hparent, if_pos hcomps]
        have hnext := h.of_created hcreated habsent hparent hview
        exact ⟨by rw [h.length], hnext.push (HandleRel.of_locate hnext.wf hnew flags)⟩
    · simp only [if_neg hcreate]
      exact ⟨trivial, h⟩

theorem read_refines (h : Refines vfs flat) {i len : ℕ} {file moved : File}
    {answer : Except FsError (List UInt8)} (hfile : vfs.files[i]? = some file)
    (hread : file.read vfs.fs len = .ok (answer, moved)) :
    ∃ flat', FlatStep flat (.read i len answer) flat' ∧
      Refines { vfs with files := vfs.files.set i moved } flat' := by
  obtain ⟨handle, hhandle, hrel⟩ := h.exists_handle hfile
  by_cases hrefused : file.flags.read = false ∨ vfs.fs.entryAt file.inode = .branch
  · rw [File.read_of_refused hrefused] at hread
    cases hread
    refine ⟨flat, ?_, h.set_file hhandle hrel⟩
    cases htarget : handle.target with
    | none => exact FlatStep.readDetached _ hhandle htarget
    | some comps =>
      refine FlatStep.readRefused hhandle ?_
      rcases hrefused with hflag | hbranch
      · exact .inl (by rw [hrel.flags, hflag])
      · exact .inr ⟨comps, htarget, by rw [hrel.entry_eq h.view htarget, hbranch]⟩
  · obtain ⟨hflag, hfileNode⟩ := not_or.mp hrefused
    obtain ⟨v, hleaf⟩ : ∃ v, vfs.fs.entryAt file.inode = .leaf v := by
      cases hkind : vfs.fs.entryAt file.inode with
      | leaf v => exact ⟨v, rfl⟩
      | branch => exact absurd hkind hfileNode
    have hresult := File.read_of_leaf hleaf (by simpa using hflag) hread
    cases hresult
    cases htarget : handle.target with
    | none =>
      exact ⟨flat, FlatStep.readDetached _ hhandle htarget,
        h.set_file hhandle (hrel.moved_of_unseen (.inl htarget) _)⟩
    | some comps =>
      have hoffset : handle.offset = file.offset := hrel.offset (by simp [htarget]) hfileNode
      rw [← hoffset]
      exact ⟨_, FlatStep.read hhandle (by rw [hrel.flags]; simpa using hflag) htarget
        (by rw [hrel.entry_eq h.view htarget, hleaf]), h.set (hrel.moved _) i⟩

/-- Both sides start a write to a file at the same place. -/
theorem writeStart_eq {file : File} {handle : Handle} (hrel : HandleRel vfs.fs file handle)
    {v : List UInt8} (hleaf : vfs.fs.entryAt file.inode = .leaf v)
    (htarget : handle.target ≠ none) :
    handle.writeStart v = (file.seekForWrite vfs.fs).offset := by
  unfold Handle.writeStart File.seekForWrite
  rw [hrel.flags]
  split
  · rw [Ramfs.size, Ramfs.data_of_leaf hleaf]
  · exact hrel.offset htarget (by rw [hleaf]; exact nofun)

theorem seekForWrite_eq (file : File) (fs : Ramfs) :
    file.seekForWrite fs = { file with offset := (file.seekForWrite fs).offset } := by
  unfold File.seekForWrite
  split
  · rfl
  · rfl

theorem write_refines (h : Refines vfs flat) {i : ℕ} {buf : List UInt8} {file moved : File}
    {answer : Except FsError ℕ} (hfile : vfs.files[i]? = some file)
    (hwrite : file.write vfs.fs buf = .ok (answer, moved, fs')) :
    ∃ flat', FlatStep flat (.write i buf answer) flat' ∧
      Refines ⟨fs', vfs.files.set i moved⟩ flat' := by
  obtain ⟨handle, hhandle, hrel⟩ := h.exists_handle hfile
  cases hflag : file.flags.write with
  | false =>
    rw [File.write_of_unwritable hflag] at hwrite
    cases hwrite
    exact ⟨flat, FlatStep.writeRefused buf hhandle (.inl (by rw [hrel.flags, hflag])),
      h.set_file hhandle hrel⟩
  | true =>
    cases hkind : vfs.fs.entryAt file.inode with
    | branch =>
      rw [File.write_of_branch hkind hflag] at hwrite
      cases hwrite
      rw [seekForWrite_eq]
      refine ⟨flat, ?_, h.set_file hhandle (hrel.moved_of_unseen (.inr hkind) _)⟩
      cases htarget : handle.target with
      | none => exact FlatStep.writeDetached buf _ hhandle htarget
      | some comps =>
        exact FlatStep.writeRefused buf hhandle
          (.inr ⟨comps, htarget, by rw [hrel.entry_eq h.view htarget, hkind]⟩)
    | leaf v =>
      have hend := File.canEnd_of_write hkind hflag hwrite
      rw [File.write_of_leaf hkind hflag hend] at hwrite
      cases hwrite
      rw [seekForWrite_eq]
      have hwritten := Ramfs.written_setData hkind
        (splice v (file.seekForWrite vfs.fs).offset buf)
      cases htarget : handle.target with
      | none =>
        have hview : flat.map.entry = _ :=
          h.view.trans (hwritten.view_of_detached (hrel.detached htarget)).symm
        have hnext := h.of_written hkind hwritten hview
        exact ⟨flat, FlatStep.writeDetached buf _ hhandle htarget, hnext.set_file hhandle
          ((hrel.of_written hkind hwritten).moved_of_unseen (.inl htarget) _)⟩
      | some comps =>
        have hentry : flat.map.entry comps = some (.leaf v) := by
          rw [hrel.entry_eq h.view htarget, hkind]
        have hstart := writeStart_eq hrel hkind (by simp [htarget])
        have hpath := (hrel.target comps).mpr htarget
        generalize (file.seekForWrite vfs.fs).offset = start at hstart hwritten
        subst hstart
        have hview : (flat.map.assign comps
            (splice v (handle.writeStart v) buf) ⟨v, hentry⟩).entry =
            (vfs.fs.setData file.inode (.file (splice v (handle.writeStart v) buf))).view := by
          rw [hwritten.view_eq h.wf hpath, ← h.view]
          rfl
        have hnext := h.of_written hkind hwritten hview
        exact ⟨_, FlatStep.write buf hhandle (by rw [hrel.flags, hflag]) htarget hentry,
          hnext.set ((hrel.of_written hkind hwritten).moved _) i⟩

/-- **Every call is matched by a call of the flat file system with the same
answer.** -/
theorem step_refines (h : Refines vfs flat) (step : Step vfs call vfs') :
    ∃ flat', FlatStep flat call flat' ∧ Refines vfs' flat' := by
  cases step with
  | openPath flags hpath =>
    obtain ⟨hanswer, hnext⟩ := openPath_refines h hpath flags
    rw [hanswer]
    exact ⟨_, FlatStep.openPath flags (components_eq hpath), hnext⟩
  | mkdir hpath =>
    obtain ⟨hanswer, hnext⟩ := create_refines h (mkdir_outcome h.wf h.view hpath)
    rw [hanswer]
    exact ⟨_, FlatStep.mkdir (components_eq hpath), hnext⟩
  | mkfile contents hpath =>
    obtain ⟨hanswer, hnext⟩ := create_refines h (mkfile_outcome h.wf h.view hpath contents)
    rw [hanswer]
    exact ⟨_, FlatStep.mkfile contents (components_eq hpath), hnext⟩
  | remove hpath =>
    obtain ⟨hanswer, hnext⟩ := remove_refines h hpath
    rw [hanswer]
    exact ⟨_, FlatStep.remove (components_eq hpath), hnext⟩
  | read hfile hread => exact read_refines h hfile hread
  | write hfile hwrite => exact write_refines h hfile hwrite
  | seek off hfile =>
    obtain ⟨handle, hhandle, hrel⟩ := h.exists_handle hfile
    exact ⟨_, FlatStep.seek off hhandle, h.set (hrel.moved off) _⟩

end Step

/-! ## Every run -/

/-- The calls on a file system answer as the map says, for every path whose last
component is non-empty; `resolve` for every path that is not empty. -/
structure Agrees (vfs : Vfs) (map : FlatFs) : Prop where
  resolve : ∀ path, path ≠ "" →
    (Root.resolve vfs.fs path).map vfs.fs.entryAt = map.find (components path)
  openPath : ∀ path parent name flags, lastComponent path ≠ "" →
    components path = parent ++ [name] →
    ((∃ handle, (vfs.openPath path flags).1 = .ok handle) ↔
      map.entry (parent ++ [name]) ≠ none ∨ flags.create ∧ map.Creatable parent name)
  mkdir : ∀ path parent name, lastComponent path ≠ "" → components path = parent ++ [name] →
    ((∃ ref, (mkdir vfs.fs path).1 = .ok ref) ↔ map.Creatable parent name)
  mkfile : ∀ path parent name contents, lastComponent path ≠ "" →
    components path = parent ++ [name] →
    ((∃ ref, (mkfile vfs.fs path contents).1 = .ok ref) ↔ map.Creatable parent name)
  remove : ∀ path, lastComponent path ≠ "" →
    ((Root.remove vfs.fs path).1 = .ok () ↔ map.Removable (components path))
  removed : ∀ path, lastComponent path ≠ "" → (Root.remove vfs.fs path).1 = .ok () →
    (Root.remove vfs.fs path).2.view = Function.update map.entry (components path) none
  write_returns : ∀ (i : ℕ) (file : File) (buf : List UInt8), vfs.files[i]? = some file →
    (file.seekForWrite vfs.fs).offset + buf.length ≤ isizeMax →
    ∃ result, file.write vfs.fs buf = .ok result
  failed : ∀ call vfs', Step vfs call vfs' → call.Failed → vfs'.fs = vfs.fs

theorem exists_ok_iff {x : Except FsError InodeRef} :
    (∃ ref, x = .ok ref) ↔ x.map (fun _ => ()) = .ok () := by
  cases x with
  | error e => simp [Except.map]
  | ok ref => simp [Except.map]

theorem Refines.resolve_eq_find {vfs : Vfs} {flat : Flat} (h : Refines vfs flat)
    (hpath : path ≠ "") :
    (Root.resolve vfs.fs path).map vfs.fs.entryAt = flat.map.find (components path) := by
  rw [resolve_eq_locate h.view hpath, FlatFs.find, h.view, Ramfs.view]
  cases vfs.fs.locate (components path) with
  | none => rfl
  | some ref => rfl

theorem File.exists_write {file : File} {buf : List UInt8}
    (hend : (file.seekForWrite fs).offset + buf.length ≤ isizeMax) :
    ∃ result, file.write fs buf = .ok result := by
  cases hflag : file.flags.write with
  | false => exact ⟨_, write_of_unwritable hflag⟩
  | true =>
    cases hkind : fs.entryAt file.inode with
    | branch => exact ⟨_, write_of_branch hkind hflag⟩
    | leaf v => exact ⟨_, write_of_leaf hkind hflag (Ramfs.canEnd_of_le hend)⟩

theorem Refines.agrees {vfs : Vfs} {flat : Flat} (h : Refines vfs flat) : Agrees vfs flat.map where
  resolve := fun path hpath => h.resolve_eq_find hpath
  openPath := by
    intro path parent name flags hpath hcomps
    obtain ⟨rfl, rfl⟩ := eq_of_components hpath hcomps
    rw [(openPath_refines h hpath flags).1]
    exact Flat.openPath_ok_iff
  mkdir := by
    intro path parent name hpath hcomps
    obtain ⟨rfl, rfl⟩ := eq_of_components hpath hcomps
    rw [exists_ok_iff, (create_refines h (mkdir_outcome h.wf h.view hpath)).1]
    exact FlatFs.create_ok_iff
  mkfile := by
    intro path parent name contents hpath hcomps
    obtain ⟨rfl, rfl⟩ := eq_of_components hpath hcomps
    rw [exists_ok_iff, (create_refines h (mkfile_outcome h.wf h.view hpath contents)).1]
    exact FlatFs.create_ok_iff
  remove := by
    intro path hpath
    rw [components_eq hpath, ← FlatFs.remove_ok_iff]
    rcases remove_cases h.wf h.view hpath with
      ⟨e, hremove, hflat⟩ | ⟨fs', map', dir, hremove, hflat, _⟩
    · simp [hremove, hflat]
    · simp [hremove, hflat]
  removed := by
    intro path hpath hok
    rcases remove_cases h.wf h.view hpath with
      ⟨e, hremove, hflat⟩ | ⟨fs', map', dir, hremove, hflat, _, _, _, hview⟩
    · rw [hremove] at hok
      cases hok
    · have hremovable := FlatFs.remove_ok_iff.mp (congrArg Prod.fst hflat)
      rw [hremove, components_eq hpath, ← FlatFs.entry_remove hremovable, hflat]
      exact hview.symm
  write_returns := fun _ _ _ _ hend => File.exists_write hend
  failed := fun _ _ step hfailed => step_failed step hfailed

/-- **The file system refines a prefix-closed finite map.**  Whatever calls are
made on a fresh root, the flat file system can make the same calls with the same
answers, its map is the view of the tree, and the next call on any path answers
as that map says. -/
theorem vfs_refines_flatFs {calls : List Call} {vfs : Vfs} (run : Run Step Vfs.new calls vfs) :
    ∃ flat, Run FlatStep Flat.new calls flat ∧ flat.map.entry = vfs.fs.view ∧
      Agrees vfs flat.map := by
  have hstep : ∀ vfs flat call next, Refines vfs flat → Step vfs call next →
      ∃ flat', FlatStep flat call flat' ∧ Refines next flat' :=
    fun _ _ _ _ h step => step_refines h step
  obtain ⟨flat, hrun, hrefines⟩ := run.simulation Refines refines_new hstep
  exact ⟨flat, hrun, hrefines.view, hrefines.agrees⟩

/-- A root with one directory `a`. -/
def oneDir : Ramfs := (mkdir Ramfs.newRoot "/a").2

/-- The same with one file `f` in `a`. -/
def oneFile : Ramfs := (mkfile oneDir "a//f" [1]).2

theorem vfs_refines_flatFs_oneFile :
    ∃ flat, Run FlatStep Flat.new
      [.mkdir "/a" (.ok ()), .mkfile "a//f" [1] (.ok ()), .remove "/a" (.error .notEmpty)] flat ∧
      flat.map.entry ["a", "f"] = some (.leaf [1]) := by
  have hmkdir : Step Vfs.new (.mkdir "/a" (.ok ())) ⟨oneDir, []⟩ := by
    have hanswer : (mkdir Vfs.new.fs "/a").1.map (fun _ => ()) = .ok () := rfl
    rw [← hanswer]
    exact Step.mkdir (by decide +kernel)
  have hmkfile : Step ⟨oneDir, []⟩ (.mkfile "a//f" [1] (.ok ())) ⟨oneFile, []⟩ := by
    have hanswer : (mkfile oneDir "a//f" [1]).1.map (fun _ => ()) = .ok () := rfl
    rw [← hanswer]
    exact Step.mkfile [1] (by decide +kernel)
  have hremove : Step ⟨oneFile, []⟩ (.remove "/a" (.error .notEmpty))
      ⟨(Root.remove oneFile "/a").2, []⟩ := by
    have hanswer : (Root.remove oneFile "/a").1 = .error .notEmpty := rfl
    rw [← hanswer]
    exact Step.remove (by decide +kernel)
  obtain ⟨flat, hrun, hview, _⟩ :=
    vfs_refines_flatFs (((Run.nil.snoc hmkdir).snoc hmkfile).snoc hremove)
  refine ⟨flat, hrun, ?_⟩
  rw [hview]
  decide +kernel

end Hyperion.Fs
