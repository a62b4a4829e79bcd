import Hyperion.Shell.Commands

/-!
# Every node has a path

A node of the tree is addressed by the names on the way to it, joined with slashes.  `resolve`
takes such a path apart again if no name is empty and none has a slash in it, and only then
(`addressable_iff_namesValid`).

`write` creates files under valid names only.  `mkdir` takes whatever is behind the last slash,
so a path that ends in a slash makes a directory with the empty name, which nothing can look up.
The nodes stay addressable exactly in the runs in which no `mkdir` succeeds with such a path.
-/

namespace Hyperion.Shell

open Hyperion.Lib Hyperion.Fs

/-! ## Paths from names -/

/-- The names on the way to a node, each after a slash. -/
def joinPath (names : List String) : String :=
  names.foldl (fun path name => path ++ String.singleton '/' ++ name) ""

/-- A name that `resolve` can look up. -/
def ValidName (name : String) : Prop := name ≠ "" ∧ '/' ∉ name.toList

/-- Every entry of a directory is found by the path of its names. -/
def Addressable (fs : Ramfs) : Prop :=
  ∀ names ref, names ≠ [] → fs.locate names = some ref →
    Root.resolve fs (joinPath names) = .ok ref

def NamesValid (fs : Ramfs) : Prop :=
  ∀ names ref, fs.locate names = some ref → ∀ name ∈ names, ValidName name

theorem joinPath_concat (names : List String) (name : String) :
    joinPath (names ++ [name]) = joinPath names ++ String.singleton '/' ++ name := by
  rw [joinPath, List.foldl_append]
  rfl

theorem joinPath_ne_empty {names : List String} (hne : names ≠ []) : joinPath names ≠ "" := by
  rcases List.eq_nil_or_concat names with rfl | ⟨front, last, rfl⟩
  · exact absurd rfl hne
  · intro hempty
    have hlist := congrArg String.toList hempty
    rw [List.concat_eq_append, joinPath_concat] at hlist
    simp at hlist

theorem components_joinPath {names : List String} (hvalid : ∀ name ∈ names, ValidName name) :
    components (joinPath names) = names := by
  induction names using List.reverseRecOn with
  | nil => exact components_empty
  | append_singleton names name ih =>
    have hname := hvalid name (by simp)
    rw [joinPath_concat, components_append, ih fun n hn => hvalid n (by simp [hn]),
      components_of_not_mem hname.2 hname.1]

theorem validName_of_mem_components {path name : String} (hname : name ∈ components path) :
    ValidName name := by
  obtain ⟨hmem, hne⟩ := List.mem_filter.mp hname
  exact ⟨by simpa using hne, not_mem_of_mem_split hmem⟩

section Tree

variable {fs fs' : Ramfs}

/-- Addressable trees are those with valid names. -/
theorem addressable_iff_namesValid (wf : fs.WellFormed) : Addressable fs ↔ NamesValid fs := by
  constructor
  · intro haddressable names ref hlocate name hname
    have hne : names ≠ [] := List.ne_nil_of_mem hname
    have hfound := locate_of_resolve (haddressable names ref hne hlocate)
    -- a node has one list of names, and the components of a path are valid
    have hsame : components (joinPath names) = names := wf.tree.path_unique hfound hlocate
    rw [← hsame] at hname
    exact validName_of_mem_components hname
  · intro hvalid names ref hne hlocate
    refine resolve_of_locate (joinPath_ne_empty hne) ?_
    rw [components_joinPath (hvalid names ref hlocate), hlocate]

/-! ## Changes of the tree -/

/-- A change of the tree that enters one node at most, with the name of the node. -/
inductive TreeStep (fs : Ramfs) : Option String → Ramfs → Prop
  | same : TreeStep fs none fs
  | entered {fs' : Ramfs} {dir : InodeRef} {parent : List String} {name : String}
      {found : Entry (List UInt8)} (hparent : fs.locate parent = some dir)
      (habsent : fs.lookup dir name = none) (hcreated : Ramfs.Created fs fs' dir name found) :
      TreeStep fs (some name) fs'
  | removed {fs' : Ramfs} {dir : InodeRef} {parent : List String} {name : String}
      (hparent : fs.locate parent = some dir)
      (hchildless : ∀ found ∈ fs.lookup dir name, ∀ key, fs.lookup found key = none)
      (hremoved : Ramfs.Removed fs fs' dir name) : TreeStep fs none fs'
  | written {fs' : Ramfs} {file : InodeRef} {contents : List UInt8}
      (hwritten : Ramfs.Written fs fs' file contents) : TreeStep fs none fs'

namespace TreeStep

variable {new : Option String}

theorem wellFormed (step : TreeStep fs new fs') (wf : fs.WellFormed) : fs'.WellFormed := by
  cases step with
  | same => exact wf
  | entered hparent habsent hcreated => exact hcreated.wellFormed wf (Ramfs.locate_lt wf hparent)
  | removed hparent hchildless hremoved => exact hremoved.wellFormed wf
  | written hwritten => exact hwritten.wellFormed wf

/-- Names stay valid if the new one is. -/
theorem namesValid (step : TreeStep fs new fs') (wf : fs.WellFormed) (hvalid : NamesValid fs)
    (hnew : ∀ name ∈ new, ValidName name) : NamesValid fs' := by
  intro names ref hlocate
  cases step with
  | same => exact hvalid names ref hlocate
  | entered hparent habsent hcreated =>
    rw [hcreated.locate_eq wf habsent hparent] at hlocate
    split at hlocate
    case isTrue hnames =>
      subst hnames
      intro name hname
      rcases List.mem_append.mp hname with hfront | hlast
      · exact hvalid _ _ hparent name hfront
      · rw [List.mem_singleton.mp hlast]
        exact hnew _ rfl
    case isFalse => exact hvalid names ref hlocate
  | removed hparent hchildless hremoved =>
    rw [hremoved.locate_eq wf hchildless hparent] at hlocate
    split at hlocate
    case isTrue => cases hlocate
    case isFalse => exact hvalid names ref hlocate
  | written hwritten =>
    rw [hwritten.locate_eq] at hlocate
    exact hvalid names ref hlocate

end TreeStep

/-! ## What the commands change -/

theorem treeStep_openPath {path : String} {flags : OpenFlags}
    {result : Except FsError File × Ramfs} (h : OpenCase fs path flags result) :
    ∃ new, TreeStep fs new result.2 ∧ ∀ name ∈ new, ValidName name := by
  cases h with
  | found hresolve => exact ⟨none, .same, by simp⟩
  | failed e => exact ⟨none, .same, by simp⟩
  | created hflag hmissing hpath hparent hkind habsent hcreated =>
    refine ⟨_, .entered hparent habsent hcreated, ?_⟩
    rintro name ⟨⟩
    exact ⟨hpath, (splitParent_spec path).2.2.2⟩

theorem treeStep_write {file moved : File} {buf : List UInt8} {answer : Except FsError ℕ}
    (hwrite : file.write fs buf = .ok (answer, moved, fs')) : TreeStep fs none fs' := by
  cases hflag : file.flags.write with
  | false =>
    rw [File.write_of_unwritable hflag] at hwrite
    cases hwrite
    exact .same
  | true =>
    cases hkind : fs.entryAt file.inode with
    | branch =>
      rw [File.write_of_branch hkind hflag] at hwrite
      cases hwrite
      exact .same
    | leaf v =>
      rw [File.write_of_leaf hkind hflag (File.canEnd_of_write hkind hflag hwrite)] at hwrite
      cases hwrite
      exact .written (Ramfs.written_setData hkind _)

theorem treeStep_remove (fs : Ramfs) (path : String) :
    TreeStep fs none (Root.remove fs path).2 := by
  rw [remove_eq]
  cases hparent : Root.resolve fs (Root.splitParent path).1 with
  | error e => exact .same
  | ok dir =>
    have hlocate := locate_of_resolve hparent
    generalize (Root.splitParent path).2 = name
    show TreeStep fs none (fs.remove dir name).2
    cases hkind : fs.entryAt dir with
    | leaf contents =>
      rw [Ramfs.remove_of_leaf hkind]
      exact .same
    | branch =>
      cases hlookup : fs.lookup dir name with
      | none =>
        rw [Ramfs.remove_of_absent hkind hlookup]
        exact .same
      | some found =>
        by_cases hempty : ∀ key, fs.lookup found key = none
        · obtain ⟨fs', hremove, hremoved⟩ := Ramfs.remove_of_childless hlookup hempty
          rw [hremove]
          exact .removed hlocate (Ramfs.childless_of_found hlookup hempty) hremoved
        · obtain ⟨key, hkey⟩ := not_forall.mp hempty
          obtain ⟨child, hchild⟩ := Option.ne_none_iff_exists'.mp hkey
          rw [Ramfs.remove_of_child hkind hlookup hchild]
          exact .same

theorem treeStep_create (wf : fs.WellFormed) {dir : InodeRef} {parent : List String}
    (hparent : fs.locate parent = some dir) (name : String) {node : RamNode}
    (hnode : ∀ entries, node.data = .dir entries → entries = .empty) :
    ∃ new, TreeStep fs new (fs.create dir name node).2 ∧ ∀ n ∈ new, n = name := by
  cases hkind : fs.entryAt dir with
  | leaf contents =>
    rw [Ramfs.create_of_leaf hkind]
    exact ⟨none, .same, by simp⟩
  | branch =>
    cases hlookup : fs.lookup dir name with
    | some found =>
      rw [Ramfs.create_of_present hkind hlookup]
      exact ⟨none, .same, by simp⟩
    | none =>
      obtain ⟨fs', hcreate, hcreated⟩ :=
        Ramfs.create_of_absent wf (Ramfs.locate_lt wf hparent) hkind hlookup hnode
      rw [hcreate]
      exact ⟨some name, .entered hparent hlookup hcreated, by simp⟩

/-- A `mkdir` that succeeds with a path that ends in a slash. -/
def MakesEmptyName (event : FileCommand × Report) : Prop :=
  ∃ path rest, event = (.mkdir (path :: rest), .created path) ∧ lastComponent path = ""

theorem treeStep_cmdMkdir (wf : fs.WellFormed) (args : List String) :
    TreeStep fs none (cmdMkdir fs args).2 ∧ (∀ path, (cmdMkdir fs args).1 ≠ .created path) ∨
    ∃ path rest, args = path :: rest ∧ (cmdMkdir fs args).1 = .created path ∧
      TreeStep fs (some (lastComponent path)) (cmdMkdir fs args).2 := by
  cases args with
  | nil => exact .inl ⟨.same, by simp [cmdMkdir]⟩
  | cons path rest =>
    rcases mkdir_cases wf path with ⟨e, hmkdir⟩ | ⟨dir, fs', hmkdir, hparent, _, habsent, hcreated⟩
    · rw [cmdMkdir, hmkdir]
      exact .inl ⟨.same, by simp⟩
    · rw [cmdMkdir, hmkdir]
      exact .inr ⟨path, rest, rfl, rfl, .entered hparent habsent hcreated⟩

theorem treeStep_cmdRm (fs : Ramfs) (args : List String) : TreeStep fs none (cmdRm fs args).2 := by
  cases args with
  | nil => exact .same
  | cons path rest =>
    have hremove := treeStep_remove fs path
    rw [cmdRm]
    generalize Root.remove fs path = result at hremove
    obtain ⟨answer, after⟩ := result
    cases answer with
    | error e => exact hremove
    | ok done => exact hremove

theorem treeStep_cmdWrite (wf : fs.WellFormed) {args : List String} {report : Report}
    (hrun : cmdWrite fs args = .ok (report, fs')) :
    ∃ new mid, TreeStep fs new mid ∧ TreeStep mid none fs' ∧ ∀ name ∈ new, ValidName name := by
  unfold cmdWrite at hrun
  split at hrun
  · cases hrun
    exact ⟨none, fs, .same, .same, by simp⟩
  · cases hrun
    exact ⟨none, fs, .same, .same, by simp⟩
  · rename_i path words _
    obtain ⟨new, hopen, hnew⟩ := treeStep_openPath (openPath_cases wf path writeCreate)
    split at hrun
    · rename_i e after hresult
      rw [hresult] at hopen
      cases hrun
      exact ⟨new, _, hopen, .same, hnew⟩
    · rename_i file after hresult
      rw [hresult] at hopen
      obtain ⟨⟨answer, moved, last⟩, hwrite, hrest⟩ := bind_eq_ok.mp hrun
      have hlast := treeStep_write hwrite
      cases answer with
      | error e =>
        cases hrest
        exact ⟨new, _, hopen, hlast, hnew⟩
      | ok n =>
        cases hrest
        exact ⟨new, _, hopen, hlast, hnew⟩

/-- What a command does: it enters one node at most, and then writes to one file at most.  Only
a `mkdir` enters a node whose name is not valid. -/
theorem step_treeSteps (wf : fs.WellFormed) {event : FileCommand × Report}
    (step : ShellStep fs event fs') :
    ∃ new mid, TreeStep fs new mid ∧ TreeStep mid none fs' ∧
      (MakesEmptyName event → new = some "" ∧ mid = fs') ∧
      (¬MakesEmptyName event → ∀ name ∈ new, ValidName name) := by
  obtain ⟨command, report⟩ := event
  cases command with
  | write args =>
    obtain ⟨new, mid, hopen, hwrite, hnew⟩ := treeStep_cmdWrite wf step
    refine ⟨new, mid, hopen, hwrite, ?_, fun _ => hnew⟩
    rintro ⟨path, rest, hevent, _⟩
    cases hevent
  | rm args =>
    have hrun : cmdRm fs args = (report, fs') := Except.ok.inj step
    have hremove := treeStep_cmdRm fs args
    rw [hrun] at hremove
    refine ⟨none, fs, .same, hremove, ?_, by simp⟩
    rintro ⟨path, rest, hevent, _⟩
    cases hevent
  | mkdir args =>
    have hrun : cmdMkdir fs args = (report, fs') := Except.ok.inj step
    have hcases := treeStep_cmdMkdir wf args
    rw [hrun] at hcases
    rcases hcases with ⟨hstep, hreport⟩ | ⟨path, rest, rfl, hreport, hstep⟩
    · refine ⟨none, _, hstep, .same, ?_, by simp⟩
      rintro ⟨path, rest, hevent, _⟩
      exact absurd (congrArg Prod.snd hevent) (hreport path)
    · refine ⟨_, _, hstep, .same, ?_, ?_⟩
      · rintro ⟨path', rest', hevent, hempty⟩
        cases hevent
        exact ⟨congrArg some hempty, rfl⟩
      · intro hno name hname
        obtain rfl : lastComponent path = name := by simpa using hname
        refine ⟨fun hempty => hno ⟨path, rest, ?_, hempty⟩, (splitParent_spec path).2.2.2⟩
        exact congrArg (Prod.mk _) hreport

/-- The node that was entered is in the tree. -/
theorem TreeStep.located {name : String} (step : TreeStep fs (some name) fs') (wf : fs.WellFormed) :
    ∃ names ref, fs'.locate (names ++ [name]) = some ref := by
  cases step with
  | entered hparent habsent hcreated =>
    exact ⟨_, _, (hcreated.locate_eq wf habsent hparent _).trans (if_pos rfl)⟩

end Tree

/-! ## Runs of the shell -/

section Runs

variable {start fs : Ramfs} {events : List (FileCommand × Report)}

/-- A tree with valid names. -/
structure Sound (fs : Ramfs) : Prop where
  wf : fs.WellFormed
  valid : NamesValid fs

/-- Entering a node with a valid name in the root. -/
theorem Sound.create (h : Sound fs) {name : String} (hname : ValidName name) {node : RamNode}
    (hnode : ∀ entries, node.data = .dir entries → entries = .empty) :
    Sound (fs.create Ramfs.root name node).2 := by
  have hroot : fs.locate [] = some Ramfs.root := rfl
  obtain ⟨new, hstep, hnew⟩ := treeStep_create h.wf hroot name hnode
  refine ⟨hstep.wellFormed h.wf, hstep.namesValid h.wf h.valid fun n hn => ?_⟩
  rwa [hnew n hn]

theorem Sound.createFile (h : Sound fs) {name : String} (hname : ValidName name)
    (contents : List UInt8) : Sound (fs.createFile Ramfs.root name contents).2 := by
  refine h.create hname ?_
  rintro entries ⟨⟩

theorem Sound.createDir (h : Sound fs) {name : String} (hname : ValidName name) :
    Sound (fs.createDir Ramfs.root name).2 := by
  refine h.create hname ?_
  rintro entries ⟨⟩
  rfl

theorem sound_newRoot : Sound Ramfs.newRoot := by
  refine ⟨Ramfs.wellFormed_newRoot, ?_⟩
  intro names ref hlocate
  cases names with
  | nil => simp
  | cons first rest => cases hlocate

theorem sound_init (pkgVersion archName : String) : Sound (init pkgVersion archName) := by
  have hwelcome : ValidName "welcome" := ⟨by decide, by decide⟩
  have hversion : ValidName "version" := ⟨by decide, by decide⟩
  have hdev : ValidName "dev" := ⟨by decide, by decide⟩
  have htmp : ValidName "tmp" := ⟨by decide, by decide⟩
  refine .createDir (.createDir ?_ hdev) htmp
  exact (sound_newRoot.createFile hwelcome _).createFile hversion _

/-- Runs keep the tree, and they keep its names valid as long as no `mkdir` makes an empty
one. -/
theorem run_sound (hstart : Sound start) (run : Run ShellStep start events fs) :
    fs.WellFormed ∧ ((∀ event ∈ events, ¬MakesEmptyName event) → NamesValid fs) := by
  induction run with
  | nil => exact ⟨hstart.wf, fun _ => hstart.valid⟩
  | snoc run step ih =>
    obtain ⟨wf, hvalid⟩ := ih
    obtain ⟨new, mid, hfirst, hsecond, _, hnew⟩ := step_treeSteps wf step
    have hmid := hfirst.wellFormed wf
    refine ⟨hsecond.wellFormed hmid, fun hno => ?_⟩
    have hbefore := hvalid fun event hevent => hno event (by simp [hevent])
    exact hsecond.namesValid hmid (hfirst.namesValid wf hbefore (hnew (hno _ (by simp)))) (by simp)

/-- **The nodes remain addressable exactly if no `mkdir` succeeds with a path that ends in a
slash.** -/
theorem remainsAddressable_iff (pkgVersion archName : String)
    (run : Run ShellStep (init pkgVersion archName) events fs) :
    (∀ before s, before <+: events → Run ShellStep (init pkgVersion archName) before s →
      Addressable s) ↔ ∀ event ∈ events, ¬MakesEmptyName event := by
  have hinit := sound_init pkgVersion archName
  constructor
  · intro haddressable event hevent hempty
    obtain ⟨front, back, rfl⟩ := List.append_of_mem hevent
    rw [List.append_cons] at run haddressable
    obtain ⟨after, hrun, _⟩ := run.split
    obtain ⟨before, hfront, step⟩ := hrun.exists_last
    have wf := (run_sound hinit hfront).1
    -- the new node has the empty name, so no path leads to it
    obtain ⟨new, mid, hfirst, _, hnew, _⟩ := step_treeSteps wf step
    obtain ⟨rfl, rfl⟩ := hnew hempty
    obtain ⟨names, ref, hlocate⟩ := hfirst.located wf
    have hvalid := (addressable_iff_namesValid (hfirst.wellFormed wf)).mp
      (haddressable _ mid (List.prefix_append _ _) hrun)
    exact (hvalid _ ref hlocate "" (by simp)).1 rfl
  · intro hno before s hfront hrun
    obtain ⟨wf, hvalid⟩ := run_sound hinit hrun
    exact (addressable_iff_namesValid wf).mpr
      (hvalid fun event hevent => hno event (hfront.subset hevent))

end Runs

/-! ## Two runs of one command -/

/-- The shell after one `mkdir`. -/
def afterMkdir (path : String) : Ramfs := (cmdMkdir (init "0.1.0" "x86_64") [path]).2

theorem run_mkdir {path : String}
    (hreport : (cmdMkdir (init "0.1.0" "x86_64") [path]).1 = .created path) :
    Run ShellStep (init "0.1.0" "x86_64") [(.mkdir [path], .created path)] (afterMkdir path) :=
  .snoc .nil (congrArg Except.ok (Prod.ext hreport rfl))

theorem remainsAddressable_iff_mkdirTmp :
    Run ShellStep (init "0.1.0" "x86_64") [(.mkdir ["/tmp//a"], .created "/tmp//a")]
        (afterMkdir "/tmp//a") ∧
      Addressable (afterMkdir "/tmp//a") := by
  have hrun := run_mkdir
      (show (cmdMkdir (init "0.1.0" "x86_64") ["/tmp//a"]).1 = .created "/tmp//a" by
    decide +kernel)
  refine ⟨hrun, (remainsAddressable_iff "0.1.0" "x86_64" hrun).mpr ?_ _ _ (List.prefix_refl _) hrun⟩
  rintro event hevent ⟨path, rest, rfl, hempty⟩
  cases List.mem_singleton.mp hevent
  exact absurd hempty (by decide +kernel)

/-- `mkdir /` makes a directory with the empty name in the root, and its path is the root's. -/
theorem mkdir_slash :
    Run ShellStep (init "0.1.0" "x86_64") [(.mkdir ["/"], .created "/")] (afterMkdir "/") ∧
      (afterMkdir "/").locate [""] = some 5 ∧
      Root.resolve (afterMkdir "/") (joinPath [""]) = .ok Ramfs.root ∧
      ¬Addressable (afterMkdir "/") := by
  have hlocate : (afterMkdir "/").locate [""] = some 5 := rfl
  have hresolve :
      Root.resolve (afterMkdir "/") (joinPath [""]) = .ok Ramfs.root := rfl
  refine ⟨run_mkdir rfl, hlocate, hresolve, fun haddressable => ?_⟩
  have hfound := haddressable [""] 5 (by simp) hlocate
  rw [hresolve] at hfound
  cases hfound

end Hyperion.Shell
