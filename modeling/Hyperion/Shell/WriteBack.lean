import Hyperion.Shell.Commands

/-!
# Reading back what `write` wrote

`write` opens the file without truncating it and writes its text at offset 0.  What is behind
the text stays, so reading the file back gives the text followed by the end of the old contents
(`readToString_after_write`).  It is the text alone exactly if the old contents were not longer.
-/

namespace Hyperion.Shell

open Hyperion.Lib Hyperion.Fs

variable {fs fs' : Ramfs} {path : String}

theorem splice_zero (v buf : List UInt8) : splice v 0 buf = buf ++ v.drop buf.length := by
  simp [splice]

/-- The file after a write at offset 0, read as a string. -/
theorem readToString_after_write {ref : InodeRef} {v : List UInt8} (text : String)
    (hresolve : Root.resolve fs path = .ok ref) (hleaf : fs.entryAt ref = .leaf v)
    (hv : v.length < usizeBound) (htext : (utf8 text).length < usizeBound) :
    readToString (fs.setData ref (.file (splice v 0 (utf8 text)))) path =
      .ok (.ok (text ++ fromUtf8Lossy (v.drop (utf8 text).length))) := by
  have hwritten := Ramfs.written_setData hleaf (splice v 0 (utf8 text))
  have hafter : Root.resolve (fs.setData ref (.file (splice v 0 (utf8 text)))) path = .ok ref := by
    refine resolve_of_locate (ne_empty_of_resolve hresolve) ?_
    rw [hwritten.locate_eq, locate_of_resolve hresolve]
  have hentry : (fs.setData ref (.file (splice v 0 (utf8 text)))).entryAt ref =
      .leaf (splice v 0 (utf8 text)) := by
    rw [hwritten.entries, Function.update_self]
  have hlength : (splice v 0 (utf8 text)).length < usizeBound := by
    rw [length_splice, Nat.zero_add]
    exact max_lt hv htext
  rw [readToString_of_leaf hafter hentry hlength, splice_zero, fromUtf8Lossy_append]

/-- `write` to a file that is there. -/
theorem cmdWrite_of_leaf {ref : InodeRef} {v : List UInt8} {words : List String}
    (hwords : words ≠ [])
    (hresolve : Root.resolve fs path = .ok ref) (hleaf : fs.entryAt ref = .leaf v)
    (htext : (utf8 (textOf words)).length ≤ isizeMax) :
    cmdWrite fs (path :: words) = .ok (.wrote (utf8 (textOf words)).length,
      fs.setData ref (.file (splice v 0 (utf8 (textOf words))))) := by
  have hopen : Root.openPath fs path writeCreate = (.ok ⟨ref, 0, writeCreate⟩, fs) := by
    rw [Root.openPath, hresolve]
  have hend : (File.seekForWrite ⟨ref, 0, writeCreate⟩ fs).offset + (utf8 (textOf words)).length ≤
      isizeMax := by
    simpa [File.seekForWrite, writeCreate] using htext
  have hwrite := File.write_of_leaf hleaf rfl (Ramfs.canEnd_of_le hend)
  cases words with
  | nil => exact absurd rfl hwords
  | cons first rest =>
    simp only [cmdWrite, hopen, hwrite]
    rfl

/-- A `write` that reports success has opened a file and written its text at offset 0. -/
theorem cmdWrite_cases (wf : fs.WellFormed) {words : List String} {n : ℕ}
    (hrun : cmdWrite fs (path :: words) = .ok (.wrote n, fs')) :
    ∃ mid ref v, OpenCase fs path writeCreate (.ok ⟨ref, 0, writeCreate⟩, mid) ∧
      mid.entryAt ref = .leaf v ∧ (utf8 (textOf words)).length < usizeBound ∧
      fs' = mid.setData ref (.file (splice v 0 (utf8 (textOf words)))) := by
  cases words with
  | nil => cases hrun
  | cons first rest =>
    have hcases := openPath_cases wf path writeCreate
    rw [cmdWrite] at hrun
    · generalize Root.openPath fs path writeCreate = result at hcases hrun
      obtain ⟨answer, mid⟩ := result
      cases answer with
      | error e => cases hrun
      | ok file =>
        obtain ⟨ref, offset, flags⟩ := file
        obtain ⟨rfl, rfl⟩ := hcases.handle
        obtain ⟨⟨written, moved, last⟩, hwrite, hrest⟩ := bind_eq_ok.mp hrun
        cases hkind : mid.entryAt ref with
        | branch =>
          rw [File.write_of_branch hkind rfl] at hwrite
          cases hwrite
          cases hrest
        | leaf v =>
          have hend := File.canEnd_of_write hkind rfl hwrite
          rw [File.write_of_leaf hkind rfl hend] at hwrite
          cases hwrite
          cases hrest
          refine ⟨mid, ref, v, hcases, hkind, ?_, rfl⟩
          simpa [File.seekForWrite, writeCreate] using hend.1
    · simp

/-- **What `write` wrote is read back exactly if the file was not longer than the text.**  A
file is a `Vec`, so its length is a `usize`. -/
theorem write_readBack_iff (wf : fs.WellFormed)
    (hvec : ∀ ref v, fs.entryAt ref = .leaf v → v.length < usizeBound) {words : List String} {n : ℕ}
    (hrun : cmdWrite fs (path :: words) = .ok (.wrote n, fs')) :
    readToString fs' path = .ok (.ok (textOf words)) ↔
      ∀ ref v, Root.resolve fs path = .ok ref → fs.entryAt ref = .leaf v →
        v.length ≤ (utf8 (textOf words)).length := by
  obtain ⟨mid, ref, v, hopen, hleaf, htext, rfl⟩ := cmdWrite_cases wf hrun
  have hresolve : Root.resolve mid path = .ok ref := hopen.resolve wf rfl
  cases hopen with
  | found hfound =>
    rw [readToString_after_write _ hresolve hleaf (hvec ref v hleaf) htext]
    have hempty : fromUtf8Lossy (v.drop (utf8 (textOf words)).length) = "" ↔
        v.length ≤ (utf8 (textOf words)).length := by
      rw [fromUtf8Lossy_eq_empty, List.drop_eq_nil_iff]
    constructor
    · intro hread ref' v' hresolve' hleaf'
      cases hfound.symm.trans hresolve'
      cases hleaf.symm.trans hleaf'
      have hchars := congrArg String.toList (Except.ok.inj (Except.ok.inj hread))
      rw [String.toList_append, List.append_right_eq_self] at hchars
      exact hempty.mp (String.toList_eq_nil_iff.mp hchars)
    · intro hshort
      rw [hempty.mpr (hshort ref v hfound hleaf), String.append_empty]
  | created hflag hmissing hpath hparent hkind habsent hcreated =>
    have hnew : mid.entryAt fs.next = .leaf [] := by rw [hcreated.entries, if_pos rfl]
    cases hleaf.symm.trans hnew
    rw [readToString_after_write _ hresolve hleaf (by decide) htext]
    constructor
    · intro _ ref' v' hresolve'
      rw [hmissing] at hresolve'
      cases hresolve'
    · intro _
      rw [List.drop_nil, fromUtf8Lossy_nil, String.append_empty]

/-! ## A file of five bytes -/

theorem entryAt_oneNote {text : String} {ref : InodeRef} {v : List UInt8}
    (hleaf : (oneNote text).entryAt ref = .leaf v) : v = utf8 text := by
  obtain ⟨fs, hcreate, hcreated⟩ := Ramfs.create_of_absent Ramfs.wellFormed_newRoot
    (Nat.lt_succ_self _) rfl rfl (show ∀ entries, (RamNode.newFile "note" (utf8 text)).data =
      .dir entries → entries = .empty by rintro entries ⟨⟩)
  have hnote : oneNote text = fs := by rw [oneNote, Ramfs.createFile, hcreate]
  rw [hnote, hcreated.entries] at hleaf
  split at hleaf
  · cases hleaf
    rfl
  · cases hleaf

theorem resolve_oneNote (text : String) : Root.resolve (oneNote text) "/note" = .ok 1 := by
  refine resolve_of_locate (by decide) ?_
  have hcomponents : components "/note" = ["note"] := rfl
  rw [hcomponents]
  rfl

theorem write_readBack_iff_longer :
    ∃ fs', cmdWrite (oneNote "hello") ["/note", "good", "morning"] = .ok (.wrote 12, fs') ∧
      readToString fs' "/note" = .ok (.ok "good morning") := by
  have hrun := cmdWrite_of_leaf (show ["good", "morning"] ≠ [] by simp)
      (resolve_oneNote "hello") rfl
    (by decide +kernel)
  refine ⟨_, hrun, ?_⟩
  refine (write_readBack_iff (wellFormed_oneNote "hello") ?_ hrun).mpr ?_
  · intro ref v hleaf
    rw [entryAt_oneNote hleaf]
    decide +kernel
  · intro ref v _ hleaf
    rw [entryAt_oneNote hleaf]
    decide +kernel

/-- `write /note a` on a file that holds `hello` replaces one byte. -/
theorem write_shorter :
    ∃ fs', cmdWrite (oneNote "hello") ["/note", "a"] = .ok (.wrote 1, fs') ∧
      readToString fs' "/note" = .ok (.ok "aello") ∧
      readToString fs' "/note" ≠ .ok (.ok (textOf ["a"])) := by
  have hrun := cmdWrite_of_leaf (show ["a"] ≠ [] by simp) (resolve_oneNote "hello") rfl
    (by decide +kernel)
  have hread := readToString_after_write (textOf ["a"]) (resolve_oneNote "hello") rfl
    (by decide +kernel) (by decide +kernel)
  refine ⟨_, hrun, hread.trans rfl, ?_⟩
  rw [hread]
  decide +kernel

end Hyperion.Shell
