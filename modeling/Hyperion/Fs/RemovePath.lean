import Hyperion.Fs.PathCalls

/-!
# The node that `remove` removes

`resolve` follows the non-empty components of a path.  `remove` cuts the path at its last
slash, resolves what is before it, and removes the entry named by what is behind it.  Where
nothing is behind it the two mean different nodes: `resolve("/d/")` is the directory `d`, and
`remove("/d/")` looks for an entry of `d` with the empty name.

For a path whose last component is non-empty both mean the same node (`remove_of_found`,
`remove_of_missing`).
-/

namespace Hyperion.Fs

open Hyperion.Lib Classical

/-- A regular file, or an empty directory other than the root. -/
def Removable (fs : Ramfs) (ref : InodeRef) : Prop :=
  ref ≠ Ramfs.root ∧ (fs.ftype ref = .regular ∨ fs.ftype ref = .directory ∧ fs.list ref = [])

/-- Resolving `path` passes through the node, or ends there. -/
def PassesThrough (fs : Ramfs) (ref : InodeRef) (path : String) : Prop :=
  ∃ init, init <+: components path ∧ fs.locate init = some ref

/-- `remove` removes the node that `resolve` finds, and fails where it finds none. -/
structure RemovesResolved (fs : Ramfs) (path : String) : Prop where
  found : ∀ ref, Root.resolve fs path = .ok ref → Removable fs ref →
    ∃ fs', Root.remove fs path = (.ok (), fs') ∧ Root.resolve fs' path = .error .notFound ∧
      ∀ other, ¬PassesThrough fs ref other → Root.resolve fs' other = Root.resolve fs other
  missing : Root.resolve fs path = .error .notFound → ∃ e, Root.remove fs path = (.error e, fs)

variable {fs fs' : Ramfs} {path : String} {ref : InodeRef}

/-! ## Resolution and location -/

theorem ne_empty_of_resolve (hresolve : Root.resolve fs path = .ok ref) : path ≠ "" := by
  rintro rfl
  cases hresolve

theorem locate_of_resolve (hresolve : Root.resolve fs path = .ok ref) :
    fs.locate (components path) = some ref := by
  rw [resolve_eq fs (ne_empty_of_resolve hresolve), resolveFrom_eq] at hresolve
  show descend fs.lookup Ramfs.root (components path) = some ref
  split at hresolve
  · rename_i hfound
    cases hresolve
    exact hfound
  · cases hresolve

theorem resolve_of_locate (hpath : path ≠ "") (hlocate : fs.locate (components path) = some ref) :
    Root.resolve fs path = .ok ref := by
  rw [Ramfs.locate] at hlocate
  rw [resolve_eq fs hpath, resolveFrom_eq, hlocate]

/-- A path that leads to a node meets no file before it. -/
theorem not_blockedFrom_of_locate {comps : List String} (hlocate : fs.locate comps = some ref) :
    ¬BlockedFrom fs Ramfs.root comps := by
  rintro ⟨init, ⟨rest, rfl⟩, hne, contents, file, hinit, hleaf⟩
  cases rest with
  | nil => exact hne (by simp)
  | cons key rest =>
    rw [Ramfs.locate, descend_append, hinit, Option.bind_some, descend_cons,
      Ramfs.lookup_of_leaf hleaf] at hlocate
    cases hlocate

/-- What blocks a path is on the way, so only the nodes on the way count. -/
theorem blockedFrom_of_locate_eq {comps : List String}
    (hlocate : ∀ init, init <+: comps → init ≠ comps → fs'.locate init = fs.locate init)
    (hentries : ∀ ref, fs'.entryAt ref = fs.entryAt ref) :
    BlockedFrom fs' Ramfs.root comps ↔ BlockedFrom fs Ramfs.root comps := by
  refine exists_congr fun init => and_congr_right fun hinit => and_congr_right fun hne => ?_
  have hsame : descend fs'.lookup Ramfs.root init = descend fs.lookup Ramfs.root init :=
    hlocate init hinit hne
  simp only [hsame, hentries]

theorem resolve_congr {other : String}
    (hlocate : ∀ init, init <+: components other → fs'.locate init = fs.locate init)
    (hentries : ∀ ref, fs'.entryAt ref = fs.entryAt ref) :
    Root.resolve fs' other = Root.resolve fs other := by
  by_cases hother : other = ""
  · rw [hother]
    rfl
  · have hblocked := blockedFrom_of_locate_eq (fun init hinit _ => hlocate init hinit) hentries
    have hsame : descend fs'.lookup Ramfs.root (components other) =
        descend fs.lookup Ramfs.root (components other) :=
      hlocate _ (List.prefix_refl _)
    rw [resolve_eq fs' hother, resolve_eq fs hother, resolveFrom_eq, resolveFrom_eq, hsame]
    simp only [hblocked]

theorem Removable.childless (hremovable : Removable fs ref) (key : String) :
    fs.lookup ref key = none := by
  rcases hremovable.2 with hfile | ⟨_, hempty⟩
  · cases hentry : fs.entryAt ref with
    | leaf contents => exact Ramfs.lookup_of_leaf hentry
    | branch =>
      rw [Ramfs.ftype_eq_directory.mpr hentry] at hfile
      cases hfile
  · exact Ramfs.list_eq_nil.mp hempty key

/-! ## A last component that is non-empty -/

/-- Removing what the path resolves to. -/
theorem remove_of_found (wf : fs.WellFormed) (hpath : lastComponent path ≠ "")
    (hresolve : Root.resolve fs path = .ok ref) (hremovable : Removable fs ref) :
    ∃ fs', Root.remove fs path = (.ok (), fs') ∧ Root.resolve fs' path = .error .notFound ∧
      ∀ other, ¬PassesThrough fs ref other → Root.resolve fs' other = Root.resolve fs other := by
  have hlocate := locate_of_resolve hresolve
  obtain ⟨hne, hname, hcomps⟩ := splitParent_components hpath
  -- the directory that holds the node
  obtain ⟨dir, hparent, hlookup⟩ : ∃ dir,
      fs.locate (components (Root.splitParent path).1) = some dir ∧
        fs.lookup dir (lastComponent path) = some ref := by
    rw [hcomps, Ramfs.locate, descend_concat] at hlocate
    exact Option.bind_eq_some_iff.mp hlocate
  obtain ⟨fs', hremove, hremoved⟩ := Ramfs.remove_of_childless hlookup hremovable.childless
  have hafter : ∀ comps, fs'.locate comps =
      if comps = components path then none else fs.locate comps := by
    intro comps
    rw [hremoved.locate_eq wf (Ramfs.childless_of_found hlookup hremovable.childless) hparent,
      ← hcomps]
  refine ⟨fs', ?_, ?_, fun other hother => resolve_congr (fun init hinit => ?_) hremoved.entries⟩
  · rw [remove_eq, resolve_of_locate hne hparent, hname]
    exact hremove
  · have hblocked : ¬BlockedFrom fs' Ramfs.root (components path) := by
      rw [blockedFrom_of_locate_eq (fun init _ hinit => by rw [hafter, if_neg hinit])
        hremoved.entries]
      exact not_blockedFrom_of_locate hlocate
    have hgone : descend fs'.lookup Ramfs.root (components path) = none := by
      have hnone := hafter (components path)
      rwa [if_pos rfl] at hnone
    rw [resolve_eq fs' (ne_empty_of_resolve hresolve), resolveFrom_eq, hgone]
    simp only [if_neg hblocked]
  · have hinit : init ≠ components path := by
      rintro rfl
      exact hother ⟨_, hinit, hlocate⟩
    rw [hafter, if_neg hinit]

/-- Removing what the path does not resolve to. -/
theorem remove_of_missing (hpath : lastComponent path ≠ "")
    (hmissing : Root.resolve fs path = .error .notFound) :
    ∃ e, Root.remove fs path = (.error e, fs) := by
  obtain ⟨hne, hname, hcomps⟩ := splitParent_components hpath
  rw [remove_eq, hname]
  cases hparent : Root.resolve fs (Root.splitParent path).1 with
  | error e => exact ⟨e, rfl⟩
  | ok dir =>
    cases hentry : fs.entryAt dir with
    | leaf contents => exact ⟨_, Ramfs.remove_of_leaf hentry⟩
    | branch =>
      cases hlookup : fs.lookup dir (lastComponent path) with
      | none => exact ⟨_, Ramfs.remove_of_absent hentry hlookup⟩
      | some found =>
        have hlocate : descend fs.lookup Ramfs.root (components path) = some found := by
          rw [hcomps]
          exact (Ramfs.locate_concat (locate_of_resolve hparent) _).trans hlookup
        rw [resolve_eq fs (ne_empty_of_lastComponent hpath), resolveFrom_eq, hlocate]
          at hmissing
        cases hmissing

/-! ## A slash at the end -/

/-- `split_parent` leaves the empty name, and all the components before it. -/
theorem splitParent_trailing (hpath : lastComponent path = "") :
    (Root.splitParent path).1 ≠ "" ∧ (Root.splitParent path).2 = "" ∧
      components (Root.splitParent path).1 = components path := by
  obtain ⟨hne, hname, hcomps, _⟩ := splitParent_spec path
  rw [hpath] at hname
  rw [hpath, components_empty, List.append_nil] at hcomps
  exact ⟨hne, hname, hcomps.symm⟩

/-- Behind a slash, `remove` looks for the empty name in the node the path resolves to. -/
theorem remove_trailing (hne : path ≠ "") (hpath : lastComponent path = "") :
    (∀ ref, Root.resolve fs path = .ok ref → Root.remove fs path = fs.remove ref "") ∧
      ∀ e, Root.resolve fs path = .error e → Root.remove fs path = (.error e, fs) := by
  obtain ⟨hparent, hname, hcomps⟩ := splitParent_trailing hpath
  have hsame : Root.resolve fs (Root.splitParent path).1 = Root.resolve fs path := by
    rw [resolve_eq fs hparent, resolve_eq fs hne, hcomps]
  constructor
  · intro ref hresolve
    rw [remove_eq, hsame, hresolve, hname]
  · intro e hresolve
    rw [remove_eq, hsame, hresolve]

/-- There it finds nothing if the node is a file or an empty directory. -/
theorem remove_empty_name (hchildless : ∀ key, fs.lookup ref key = none) :
    ∃ e, fs.remove ref "" = (.error e, fs) := by
  cases hentry : fs.entryAt ref with
  | leaf contents => exact ⟨_, Ramfs.remove_of_leaf hentry⟩
  | branch => exact ⟨_, Ramfs.remove_of_absent hentry (hchildless "")⟩

/-- **`remove` and `resolve` agree on the node** for every path that does not end in a slash,
and for those that do only where there is nothing to remove. -/
theorem removesResolved_iff (wf : fs.WellFormed) (path : String) :
    RemovesResolved fs path ↔
      lastComponent path ≠ "" ∨ ∀ ref, Root.resolve fs path = .ok ref → ¬Removable fs ref := by
  constructor
  · intro agrees
    refine or_iff_not_imp_left.mpr fun hslash ref hresolve hremovable => ?_
    have hpath : lastComponent path = "" := not_not.mp hslash
    obtain ⟨fs', hremove, _⟩ := agrees.found ref hresolve hremovable
    obtain ⟨e, herror⟩ := remove_empty_name hremovable.childless
    rw [(remove_trailing (ne_empty_of_resolve hresolve) hpath).1 ref hresolve, herror] at hremove
    cases hremove
  · intro hcond
    by_cases hpath : lastComponent path = ""
    · refine ⟨fun ref hresolve hremovable => ?_, fun hmissing => ?_⟩
      · exact absurd hremovable (hcond.resolve_left (not_not.mpr hpath) ref hresolve)
      · have hne : path ≠ "" := by
          rintro rfl
          cases hmissing
        exact ⟨.notFound, (remove_trailing hne hpath).2 _ hmissing⟩
    · exact ⟨fun ref => remove_of_found wf hpath, remove_of_missing hpath⟩

/-- A root with one empty directory `d`. -/
def onlyD : Ramfs := (Ramfs.newRoot.createDir Ramfs.root "d").2

theorem wellFormed_onlyD : onlyD.WellFormed := by
  have hroot : Ramfs.root < Ramfs.newRoot.next := Nat.lt_succ_self _
  obtain ⟨fs', hcreate, hcreated⟩ : ∃ fs',
      Ramfs.newRoot.create Ramfs.root "d" (RamNode.newDir "d") = (.ok Ramfs.newRoot.next, fs') ∧
        Ramfs.Created Ramfs.newRoot fs' Ramfs.root "d" .branch :=
    Ramfs.create_of_absent Ramfs.wellFormed_newRoot hroot rfl rfl (by rintro entries ⟨⟩; rfl)
  have hfs : onlyD = fs' := by rw [onlyD, Ramfs.createDir, hcreate]
  rw [hfs]
  exact hcreated.wellFormed Ramfs.wellFormed_newRoot hroot

theorem removesResolved_iff_onlyD : onlyD.WellFormed ∧ RemovesResolved onlyD "//d" :=
  ⟨wellFormed_onlyD, (removesResolved_iff wellFormed_onlyD "//d").mpr (.inl (by decide +kernel))⟩

/-- `resolve("/d/")` is the empty directory, and `remove("/d/")` fails. -/
theorem remove_d_slash :
    onlyD.WellFormed ∧ Root.resolve onlyD "/d/" = .ok 1 ∧ Removable onlyD 1 ∧
      (Root.remove onlyD "/d/").1 = .error .notFound ∧ ¬RemovesResolved onlyD "/d/" := by
  have hresolve : Root.resolve onlyD "/d/" = .ok 1 := rfl
  have hremove : (Root.remove onlyD "/d/").1 = .error .notFound := rfl
  have hremovable : Removable onlyD 1 := ⟨by decide, .inr (by decide +kernel)⟩
  refine ⟨wellFormed_onlyD, hresolve, hremovable, hremove, fun agrees => ?_⟩
  obtain ⟨fs', hok, _⟩ := agrees.found 1 hresolve hremovable
  rw [hok] at hremove
  cases hremove

end Hyperion.Fs
