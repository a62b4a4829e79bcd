import Hyperion.Fs.Concurrent
import Hyperion.Fs.PathCalls

/-!
# Overlapping opens and removes, in some order

A thread that resolves a path holds an inode that others may remove meanwhile, but the
directories of a tree never move: what a thread holds is still where it was found, or
it was removed and has no entries any more (`Holds`).  So every answer that a call
gives was right at some moment while it ran, a removed inode being missing from its
path right after its removal.  The exception is `create_file`.  It acts on what was
true before, and it goes wrong when the file has appeared or the directory has been
removed in between.  With `Undisturbed`, which rules that out, every run is
`Linearizable`.
-/

namespace Hyperion.Fs.Concurrent

open Hyperion.Lib

/-! ## What a call answers in one state -/

section OneState

variable {fs : Ramfs} {cur : InodeRef}

theorem todoFor_of_ne {path : String} (hpath : path ≠ "") :
    todoFor path = .ok (components path) := by
  rw [todoFor, if_neg hpath, ← components_stripped]
  dsimp only
  split
  case isTrue hempty => rw [hempty, components_empty]
  case isFalse => rfl

theorem components_split (path : String) :
    components path = components (Root.splitParent path).1 ++
      components (Root.splitParent path).2 := by
  obtain ⟨_, hname, hcomps, _⟩ := splitParent_spec path
  rwa [hname]

theorem components_name {path : String} (hname : (Root.splitParent path).2 ≠ "") :
    components (Root.splitParent path).2 = [(Root.splitParent path).2] := by
  obtain ⟨_, hlast, _, hslash⟩ := splitParent_spec path
  rw [hlast] at hname ⊢
  exact components_of_not_mem hslash hname

theorem resolveFrom_append (fs : Ramfs) (cur : InodeRef) (front back : List String) :
    Root.resolveFrom fs cur (front ++ back) =
      (Root.resolveFrom fs cur front).bind fun next => Root.resolveFrom fs next back := by
  induction front generalizing cur with
  | nil => rfl
  | cons comp front ih =>
    rw [List.cons_append, Root.resolveFrom, Root.resolveFrom]
    split
    · rfl
    · cases fs.lookup cur comp with
      | none => rfl
      | some next => exact ih next

theorem resolveFrom_of_locate {pre : List String} (hpre : fs.locate pre = some cur) :
    Root.resolveFrom fs Ramfs.root pre = .ok cur := by
  have hdescend : descend fs.lookup Ramfs.root pre = some cur := hpre
  rw [resolveFrom_eq, hdescend]

theorem locate_of_resolveFrom {pre : List String}
    (hpre : Root.resolveFrom fs Ramfs.root pre = .ok cur) : fs.locate pre = some cur := by
  rw [resolveFrom_eq] at hpre
  cases hdescend : descend fs.lookup Ramfs.root pre with
  | none =>
    rw [hdescend] at hpre
    cases hpre
  | some ref =>
    rw [hdescend] at hpre
    cases hpre
    exact hdescend

/-- A path leads no further than its parent does. -/
theorem resolve_of_parent {path : String} {e : FsError}
    (hparent : Root.resolveFrom fs Ramfs.root (components (Root.splitParent path).1) = .error e) :
    Root.resolve fs path = .error e ∧ Root.resolve fs (Root.splitParent path).1 = .error e := by
  have hne := (splitParent_spec path).1
  have hcomps := components_split path
  have hpath : path ≠ "" := by
    rintro rfl
    have hnil := (List.append_eq_nil_iff.mp (hcomps.symm.trans components_empty)).1
    rw [hnil] at hparent
    cases hparent
  rw [resolve_eq fs hpath, resolve_eq fs hne, hcomps, resolveFrom_append, hparent]
  exact ⟨rfl, rfl⟩

/-- `NotFound` is the answer of the call, not a reason to create. -/
def Purpose.Final : Purpose → Prop
  | .find _ flags => flags.create = false
  | _ => True

/-- The parent is not the path itself, as it is for `create` with a path that ends in a
slash. -/
def Purpose.Named : Purpose → Prop
  | .create path _ => (Root.splitParent path).2 ≠ ""
  | _ => True

/-- What a path is resolved for by a call that got this far. -/
def Purpose.Valid : Purpose → Prop
  | .find path _ => path ≠ ""
  | .create _ flags => flags.create = true
  | .remove _ => True

variable {purpose : Purpose}

theorem Purpose.Valid.target_ne (hvalid : purpose.Valid) : purpose.target ≠ "" := by
  cases purpose with
  | find path flags => exact hvalid
  | create path flags => exact (splitParent_spec path).1
  | remove path => exact (splitParent_spec path).1

theorem seq_of_notFound (hfinal : purpose.Final) (hne : purpose.target ≠ "")
    (hmissing : Root.resolveFrom fs Ramfs.root (components purpose.target) = .error .notFound) :
    seq purpose.call fs = (purpose.error .notFound, fs) := by
  cases purpose with
  | find path flags =>
    have hresolve : Root.resolve fs path = .error .notFound :=
      (resolve_eq fs hne).trans hmissing
    have hcreate : flags.create = false := hfinal
    simp [seq, Purpose.call, Purpose.error, Root.openPath, hresolve, hcreate]
  | create path flags =>
    obtain ⟨hpath, hparent⟩ := resolve_of_parent hmissing
    simp only [seq, Purpose.call, Purpose.error, Root.openPath, hpath, hparent]
    split <;> rfl
  | remove path =>
    have hresolve : Root.resolve fs (Root.splitParent path).1 = .error .notFound :=
      (resolve_eq fs hne).trans hmissing
    rw [Purpose.call, seq, remove_eq, hresolve]
    rfl

theorem seq_of_notADirectory (hne : purpose.target ≠ "")
    (hblocked : Root.resolveFrom fs Ramfs.root (components purpose.target) =
      .error .notADirectory) :
    seq purpose.call fs = (purpose.error .notADirectory, fs) := by
  cases purpose with
  | find path flags =>
    have hresolve : Root.resolve fs path = .error .notADirectory :=
      (resolve_eq fs hne).trans hblocked
    simp [seq, Purpose.call, Purpose.error, Root.openPath, hresolve]
  | create path flags =>
    obtain ⟨hpath, _⟩ := resolve_of_parent hblocked
    simp [seq, Purpose.call, Purpose.error, Root.openPath, hpath]
  | remove path =>
    have hresolve : Root.resolve fs (Root.splitParent path).1 = .error .notADirectory :=
      (resolve_eq fs hne).trans hblocked
    rw [Purpose.call, seq, remove_eq, hresolve]
    rfl

/-- The parent is a file. -/
theorem seq_of_file (hne : purpose.target ≠ "") (hnamed : purpose.Named)
    (hfind : ∀ path flags, purpose ≠ .find path flags)
    (hparent : Root.resolveFrom fs Ramfs.root (components purpose.target) = .ok cur)
    {contents : List UInt8} (hleaf : fs.entryAt cur = .leaf contents) :
    seq purpose.call fs = (purpose.error .notADirectory, fs) := by
  cases purpose with
  | find path flags => exact absurd rfl (hfind path flags)
  | create path flags =>
    have hpath : path ≠ "" := by
      rintro rfl
      exact hnamed rfl
    have hresolve : Root.resolve fs path = .error .notADirectory := by
      rw [resolve_eq fs hpath, components_split path, resolveFrom_append]
      rw [show Root.resolveFrom fs Ramfs.root (components (Root.splitParent path).1) = .ok cur
        from hparent, components_name hnamed]
      show Root.resolveFrom fs cur [_] = _
      rw [Root.resolveFrom, if_pos (Ramfs.ftype_of_leaf hleaf)]
    simp [seq, Purpose.call, Purpose.error, Root.openPath, hresolve]
  | remove path =>
    have hresolve : Root.resolve fs (Root.splitParent path).1 = .ok cur :=
      (resolve_eq fs hne).trans hparent
    rw [Purpose.call, seq, remove_eq, hresolve]
    dsimp only
    rw [Ramfs.remove_of_leaf hleaf]
    rfl

end OneState

/-! ## What a call in progress holds -/

/-- The inode a thread holds is where the components so far lead to; or it was removed
meanwhile, as a directory without entries, and the call may answer `NotFound`; or as a
file, and it may answer `NotADirectory`. -/
inductive Holds (init : Ramfs) (log : List (Completed PathCall Answer)) (fs : Ramfs) (p : Pending) :
    Prop
  | attached (pre : List String) (hcomps : components p.purpose.target = pre ++ p.todo)
      (hpre : fs.locate pre = some p.cur)
  | emptied (hbranch : fs.entryAt p.cur = .branch) (hgone : ∀ path, fs.locate path ≠ some p.cur)
      (hchildless : ∀ name, fs.lookup p.cur name = none)
      (hmissing : p.purpose.Final →
        Possible seq init log p.purpose.call p.start (p.purpose.error .notFound))
  | file (contents : List UInt8) (hleaf : fs.entryAt p.cur = .leaf contents)
      (hgone : ∀ path, fs.locate path ≠ some p.cur)
      (hblocked : (p.todo = [] → p.purpose.Named) →
        Possible seq init log p.purpose.call p.start (p.purpose.error .notADirectory))

/-- What holds of a call in progress. -/
structure Justified (init : Ramfs) (log : List (Completed PathCall Answer)) (fs : Ramfs)
    (p : Pending) : Prop where
  lt : p.cur < fs.next
  checked : p.checked = true → fs.entryAt p.cur = .branch
  valid : p.purpose.Valid
  find : ∀ path flags, p.purpose = .find path flags → p.todo ≠ []
  holds : Holds init log fs p

/-- A call goes on as it should, or has an answer that was possible. -/
def Fine (init : Ramfs) (log : List (Completed PathCall Answer)) (fs : Ramfs) (call : PathCall)
    (start : ℕ) : Progress → Prop
  | .inl p => Justified init log fs p ∧ p.purpose.call = call ∧ p.start = start
  | .inr answer => Possible seq init log call start answer

/-- `create_file` is called in the directory that the parent path leads to, for a path
that leads nowhere; or it is called on a file, which changes nothing. -/
def Undisturbed (p : Pending) (fs : Ramfs) : Prop :=
  match p.purpose with
  | .create path _ => p.todo = [] →
      (Root.resolve fs path = .error .notFound ∧
        Root.resolve fs (Root.splitParent path).1 = .ok p.cur) ∨
      (fs.ftype p.cur ≠ .directory ∧ (Root.splitParent path).2 ≠ "")
  | _ => True

instance (p : Pending) (fs : Ramfs) : Decidable (Undisturbed p fs) :=
  match p with
  | ⟨.find _ _, _, _, _, _⟩ => inferInstanceAs (Decidable True)
  | ⟨.create _ _, _, todo, _, _⟩ => inferInstanceAs (Decidable (todo = [] → _ ∨ _))
  | ⟨.remove _, _, _, _, _⟩ => inferInstanceAs (Decidable True)

section Fine

variable {init fs : Ramfs} {log : List (Completed PathCall Answer)} {purpose : Purpose} {start : ℕ}
  {cur : InodeRef}

theorem fine_arrive (wf : fs.WellFormed) (hreplays : Replays seq init log fs)
    (hvalid : purpose.Valid) {pre todo : List String}
    (hcomps : components purpose.target = pre ++ todo) (hpre : fs.locate pre = some cur) :
    Fine init log fs purpose.call start (arrive purpose start cur todo) := by
  unfold arrive
  split
  · rename_i path flags
    rw [List.append_nil] at hcomps
    have hresolve : Root.resolve fs path = .ok cur := by
      refine (resolve_eq fs hvalid).trans ?_
      change components path = pre at hcomps
      rw [hcomps]
      exact resolveFrom_of_locate hpre
    exact possible_now hreplays (by simp [seq, Purpose.call, Root.openPath, hresolve])
  · rename_i hother
    refine ⟨⟨Ramfs.locate_lt wf hpre, by simp, hvalid, ?_, .attached pre hcomps hpre⟩, rfl, rfl⟩
    rintro path flags rfl rfl
    exact hother path flags rfl rfl

theorem fine_enter (wf : fs.WellFormed) (hreplays : Replays seq init log fs) (purpose : Purpose)
    (hvalid : purpose.Valid) :
    Fine init log fs purpose.call start (enter purpose start) := by
  rw [enter, todoFor_of_ne hvalid.target_ne]
  exact fine_arrive wf hreplays hvalid (List.nil_append _).symm rfl

theorem fine_begin (wf : fs.WellFormed) (hreplays : Replays seq init log fs) (call : PathCall) :
    Fine init log fs call start (begin call start) := by
  cases call with
  | remove path => exact fine_enter wf hreplays (.remove path) trivial
  | openPath path flags =>
    by_cases hpath : path = ""
    · -- answered before any inode is looked at
      subst hpath
      exact possible_now hreplays rfl
    · exact fine_enter wf hreplays (.find path flags) hpath

theorem fine_fail {p : Pending} (wf : fs.WellFormed) (hreplays : Replays seq init log fs)
    {e : FsError} (herror : (e = .notFound → p.purpose.Final) →
      Possible seq init log p.purpose.call p.start (p.purpose.error e)) :
    Fine init log fs p.purpose.call p.start (p.fail e) := by
  unfold Pending.fail
  cases hpurpose : p.purpose with
  | find path flags =>
    rw [hpurpose] at herror
    dsimp only
    split
    case isTrue hcreate => exact fine_enter wf hreplays (.create path flags) hcreate.2
    case isFalse hanswer =>
      apply herror
      intro he
      exact Bool.eq_false_iff.mpr fun hcreate => hanswer ⟨he, hcreate⟩
  | create path flags =>
    rw [hpurpose] at herror
    exact herror fun _ => trivial
  | remove path =>
    rw [hpurpose] at herror
    exact herror fun _ => trivial

/-! ## What a method does -/

/-- One link of the tree is new, or is gone with what it led to. -/
inductive Changed (fs fs' : Ramfs) : Prop
  | created (pre : List String) (dir : InodeRef) (name : String) (hdir : fs.locate pre = some dir)
      (habsent : fs.lookup dir name = none) (h : Ramfs.Created fs fs' dir name (.leaf []))
  | removed (pre : List String) (dir : InodeRef) (name : String) (found : InodeRef)
      (hdir : fs.locate pre = some dir) (hfound : fs.lookup dir name = some found)
      (hchildless : ∀ key, fs.lookup found key = none) (h : Ramfs.Removed fs fs' dir name)

/-- A method leaves the tree alone, and its call goes on as it should; or it does what the
call would do now, and the call is over. -/
inductive Effect (init : Ramfs) (log : List (Completed PathCall Answer)) (fs : Ramfs)
    (p : Pending) :
    Progress × Ramfs → Prop
  | none {progress : Progress} (hfine : Fine init log fs p.purpose.call p.start progress) :
      Effect init log fs p (progress, fs)
  | change {answer : Answer} {fs' : Ramfs} (hseq : seq p.purpose.call fs = (answer, fs'))
      (hchanged : Changed fs fs') : Effect init log fs p (.inr answer, fs')

/-- A file is entered in a directory of the tree, or nothing changes. -/
theorem createFile_changed (wf : fs.WellFormed) {pre : List String} {dir : InodeRef}
    (hdir : fs.locate pre = some dir) (name : String) :
    (fs.createFile dir name []).2 = fs ∨ Changed fs (fs.createFile dir name []).2 := by
  rw [Ramfs.createFile]
  cases hentry : fs.entryAt dir with
  | leaf contents => exact .inl (by rw [Ramfs.create_of_leaf hentry])
  | branch =>
    cases hfound : fs.lookup dir name with
    | some found => exact .inl (by rw [Ramfs.create_of_present hentry hfound])
    | none =>
      have hnode : ∀ entries, (RamNode.newFile name []).data = .dir entries →
          entries = .empty := nofun
      obtain ⟨fs', hcreate, hcreated⟩ :=
        Ramfs.create_of_absent wf (Ramfs.locate_lt wf hdir) hentry hfound hnode
      rw [hcreate]
      exact .inr (.created pre dir name hdir hfound hcreated)

/-- An entry without entries of its own is removed from a directory of the tree, or
nothing changes. -/
theorem remove_changed {pre : List String} {dir : InodeRef} (hdir : fs.locate pre = some dir)
    (name : String) : (fs.remove dir name).2 = fs ∨ Changed fs (fs.remove dir name).2 := by
  cases hentry : fs.entryAt dir with
  | leaf contents => exact .inl (by rw [Ramfs.remove_of_leaf hentry])
  | branch =>
    cases hfound : fs.lookup dir name with
    | none => exact .inl (by rw [Ramfs.remove_of_absent hentry hfound])
    | some found =>
      by_cases hchildless : ∀ key, fs.lookup found key = none
      · obtain ⟨fs', hremove, hremoved⟩ := Ramfs.remove_of_childless hfound hchildless
        rw [hremove]
        exact .inr (.removed pre dir name found hdir hfound hchildless hremoved)
      · obtain ⟨key, hkey⟩ := not_forall.mp hchildless
        obtain ⟨child, hchild⟩ := Option.ne_none_iff_exists'.mp hkey
        exact .inl (by rw [Ramfs.remove_of_child hentry hfound hchild])

/-- A method that does what the call would do now. -/
theorem effect_of_seq {p : Pending} (hreplays : Replays seq init log fs) {answer : Answer}
    {fs' : Ramfs} (hseq : seq p.purpose.call fs = (answer, fs'))
    (hchanged : fs' = fs ∨ Changed fs fs') : Effect init log fs p (.inr answer, fs') := by
  rcases hchanged with rfl | hchanged
  · exact .none (possible_now hreplays hseq)
  · exact .change hseq hchanged

section Methods

variable {p : Pending}

/-- A call that holds a file may answer `NotADirectory`. -/
theorem possible_notADirectory (hreplays : Replays seq init log fs) (hp : Justified init log fs p)
    {contents : List UInt8} (hleaf : fs.entryAt p.cur = .leaf contents)
    (hnamed : p.todo = [] → p.purpose.Named) :
    Possible seq init log p.purpose.call p.start (p.purpose.error .notADirectory) := by
  cases hp.holds with
  | emptied hbranch hgone hchildless hmissing =>
    rw [hleaf] at hbranch
    cases hbranch
  | file contents hleaf hgone hblocked => exact hblocked hnamed
  | attached pre hcomps hpre =>
    apply possible_now hreplays
    have hresolve : Root.resolveFrom fs Ramfs.root (components p.purpose.target) =
        Root.resolveFrom fs p.cur p.todo := by
      rw [hcomps, resolveFrom_append, resolveFrom_of_locate hpre]
      rfl
    cases htodo : p.todo with
    | nil =>
      rw [htodo] at hresolve
      refine seq_of_file hp.valid.target_ne (hnamed htodo) ?_ hresolve hleaf
      intro path flags hpurpose
      exact hp.find path flags hpurpose htodo
    | cons comp todo =>
      apply seq_of_notADirectory hp.valid.target_ne
      rw [hresolve, htodo, Root.resolveFrom, if_pos (Ramfs.ftype_of_leaf hleaf)]

theorem effect_create (wf : fs.WellFormed) (hreplays : Replays seq init log fs)
    (hp : Justified init log fs p) (htodo : p.todo = []) {path : String} {flags : OpenFlags}
    (hpurpose : p.purpose = .create path flags) (hguard : Undisturbed p fs) :
    Effect init log fs p (p.act fs) := by
  have hact : p.act fs =
      (.inr (.opened ((fs.createFile p.cur (Root.splitParent path).2 []).1.map
        fun inode => ⟨inode, 0, flags⟩)),
          (fs.createFile p.cur (Root.splitParent path).2 []).2) := by
    rw [Pending.act, hpurpose]
  rw [hact]
  have hcreate : flags.create = true := by
    have hvalid := hp.valid
    rwa [hpurpose] at hvalid
  rw [Undisturbed, hpurpose] at hguard
  rcases hguard htodo with ⟨hmissing, hparent⟩ | ⟨hfile, hname⟩
  · have hlocate : fs.locate (components (Root.splitParent path).1) = some p.cur := by
      rw [resolve_eq fs (splitParent_spec path).1] at hparent
      exact locate_of_resolveFrom hparent
    apply effect_of_seq hreplays _ (createFile_changed wf hlocate _)
    rw [hpurpose, Purpose.call, seq]
    simp only [Root.openPath, hmissing, hparent, hcreate, and_self, if_true]
    rcases hresult : fs.createFile p.cur (Root.splitParent path).2 [] with ⟨result, fs'⟩
    cases result <;> rfl
  · -- a file took the place of the parent
    have hnot : fs.entryAt p.cur ≠ .branch := by rwa [Ne, ← Ramfs.ftype_eq_directory]
    have hnamed : p.purpose.Named := by rwa [hpurpose]
    obtain ⟨contents, hleaf⟩ : ∃ contents, fs.entryAt p.cur = .leaf contents := by
      cases hentry : fs.entryAt p.cur with
      | leaf contents => exact ⟨contents, rfl⟩
      | branch => exact absurd hentry hnot
    rw [Ramfs.createFile, Ramfs.create_of_leaf hleaf]
    have hblocked := possible_notADirectory hreplays hp hleaf (fun _ => hnamed)
    rw [hpurpose, Purpose.error] at hblocked
    exact .none (hpurpose ▸ hblocked)

theorem effect_remove (hreplays : Replays seq init log fs) (hp : Justified init log fs p)
    (htodo : p.todo = []) {path : String} (hpurpose : p.purpose = .remove path) :
    Effect init log fs p (p.act fs) := by
  have hact : p.act fs = (.inr (.removed (fs.remove p.cur (Root.splitParent path).2).1),
      (fs.remove p.cur (Root.splitParent path).2).2) := by
    rw [Pending.act, hpurpose]
  rw [hact]
  cases hp.holds with
  | attached pre hcomps hpre =>
    apply effect_of_seq hreplays _ (remove_changed hpre _)
    have hresolve : Root.resolve fs (Root.splitParent path).1 = .ok p.cur := by
      rw [hpurpose, htodo, List.append_nil] at hcomps
      change components (Root.splitParent path).1 = pre at hcomps
      rw [resolve_eq fs (splitParent_spec path).1, hcomps]
      exact resolveFrom_of_locate hpre
    rw [hpurpose, Purpose.call, seq, remove_eq, hresolve]
  | emptied hbranch hgone hchildless hmissing =>
    rw [Ramfs.remove_of_absent hbranch (hchildless _)]
    have hanswer := hmissing (by rw [hpurpose]; trivial)
    rw [hpurpose, Purpose.error] at hanswer
    exact .none (hpurpose ▸ hanswer)
  | file contents hleaf hgone hblocked =>
    rw [Ramfs.remove_of_leaf hleaf]
    have hanswer := hblocked fun _ => by rw [hpurpose]; trivial
    rw [hpurpose, Purpose.error] at hanswer
    exact .none (hpurpose ▸ hanswer)

theorem fine_lookup (wf : fs.WellFormed) (hreplays : Replays seq init log fs)
    (hp : Justified init log fs p) (hchecked : p.checked = true) {comp : String}
    {todo : List String} (htodo : p.todo = comp :: todo) :
    Fine init log fs p.purpose.call p.start
      (match fs.lookup p.cur comp with
      | some next => arrive p.purpose p.start next todo
      | none => p.fail .notFound) := by
  have hbranch := hp.checked hchecked
  cases hp.holds with
  | file contents hleaf hgone hblocked =>
    rw [hbranch] at hleaf
    cases hleaf
  | emptied hbranch hgone hchildless hmissing =>
    rw [hchildless]
    exact fine_fail wf hreplays fun hfinal => hmissing (hfinal rfl)
  | attached pre hcomps hpre =>
    rw [htodo] at hcomps
    cases hnext : fs.lookup p.cur comp with
    | some next =>
      have hcomps' : components p.purpose.target = (pre ++ [comp]) ++ todo := by
        rw [hcomps, List.append_assoc, List.singleton_append]
      refine fine_arrive wf hreplays hp.valid hcomps' ?_
      rw [Ramfs.locate_concat hpre, hnext]
    | none =>
      apply fine_fail wf hreplays
      intro hfinal
      apply possible_now hreplays
      apply seq_of_notFound (hfinal rfl) hp.valid.target_ne
      have hdir : fs.ftype p.cur = .directory := Ramfs.ftype_eq_directory.mpr hbranch
      rw [hcomps, resolveFrom_append, resolveFrom_of_locate hpre]
      show Root.resolveFrom fs p.cur (comp :: todo) = _
      rw [Root.resolveFrom, if_neg (not_not.mpr hdir), hnext]

theorem fine_ftype (wf : fs.WellFormed) (hreplays : Replays seq init log fs)
    (hp : Justified init log fs p) (htodo : p.todo ≠ []) :
    Fine init log fs p.purpose.call p.start
      (if fs.ftype p.cur ≠ .directory then p.fail .notADirectory
      else .inl { p with checked := true }) := by
  cases hentry : fs.entryAt p.cur with
  | leaf contents =>
    rw [if_pos (Ramfs.ftype_of_leaf hentry)]
    apply fine_fail wf hreplays
    intro _
    exact possible_notADirectory hreplays hp hentry fun hnil => absurd hnil htodo
  | branch =>
    have hdir : fs.ftype p.cur = .directory := Ramfs.ftype_eq_directory.mpr hentry
    rw [if_neg (not_not.mpr hdir)]
    refine ⟨⟨hp.lt, fun _ => hentry, hp.valid, hp.find, ?_⟩, rfl, rfl⟩
    cases hp.holds with
    | attached pre hcomps hpre => exact .attached pre hcomps hpre
    | emptied hbranch hgone hchildless hmissing => exact .emptied hbranch hgone hchildless hmissing
    | file contents hleaf hgone hblocked => exact .file contents hleaf hgone hblocked

/-- **A method of an undisturbed call** either leaves the tree alone, with an answer that was
possible if it has one, or does what the call would do now. -/
theorem effect_advance (wf : fs.WellFormed) (hreplays : Replays seq init log fs)
    (hp : Justified init log fs p) (hguard : Undisturbed p fs) :
    Effect init log fs p (p.advance fs) := by
  unfold Pending.advance
  cases htodo : p.todo with
  | nil =>
    cases hpurpose : p.purpose with
    | find path flags => exact absurd htodo (hp.find path flags hpurpose)
    | create path flags => exact effect_create wf hreplays hp htodo hpurpose hguard
    | remove path => exact effect_remove hreplays hp htodo hpurpose
  | cons comp todo =>
    dsimp only
    split
    case isTrue hchecked =>
      have hfine := fine_lookup wf hreplays hp hchecked htodo
      cases hnext : fs.lookup p.cur comp with
      | some next =>
        rw [hnext] at hfine
        exact .none hfine
      | none =>
        rw [hnext] at hfine
        exact .none hfine
    case isFalse =>
      have hfine := fine_ftype wf hreplays hp (by simp [htodo])
      split
      case isTrue hfile =>
        rw [if_pos hfile] at hfine
        exact .none hfine
      case isFalse hdir =>
        rw [if_neg hdir, htodo] at hfine
        exact .none hfine

end Methods

/-! ## What a change means for the other calls -/

section Others

variable {p : Pending} {fs' : Ramfs} {entry : Completed PathCall Answer}

theorem Changed.wellFormed (wf : fs.WellFormed) (h : Changed fs fs') : fs'.WellFormed := by
  cases h with
  | created pre dir name hdir habsent hcreated =>
    exact hcreated.wellFormed wf (Ramfs.locate_lt wf hdir)
  | removed pre dir name found hdir hfound hchildless hremoved => exact hremoved.wellFormed wf

theorem Changed.next_le (h : Changed fs fs') : fs.next ≤ fs'.next := by
  cases h with
  | created pre dir name hdir habsent hcreated =>
    rw [hcreated.next]
    exact Nat.le_succ _
  | removed pre dir name found hdir hfound hchildless hremoved => exact hremoved.next.ge

/-- A node stays what it is. -/
theorem Changed.entryAt_eq (h : Changed fs fs') {ref : InodeRef} (href : ref < fs.next) :
    fs'.entryAt ref = fs.entryAt ref := by
  cases h with
  | created pre dir name hdir habsent hcreated => rw [hcreated.entries, if_neg href.ne]
  | removed pre dir name found hdir hfound hchildless hremoved => exact hremoved.entries ref

/-- A node that is in no directory of the tree stays out of it. -/
theorem Changed.gone (wf : fs.WellFormed) (h : Changed fs fs') {ref : InodeRef}
    (href : ref < fs.next) (hgone : ∀ path, fs.locate path ≠ some ref) (path : List String) :
    fs'.locate path ≠ some ref := by
  cases h with
  | created pre dir name hdir habsent hcreated =>
    rw [hcreated.locate_eq wf habsent hdir]
    split
    · intro heq
      exact href.ne' (Option.some.inj heq)
    · exact hgone path
  | removed pre dir name found hdir hfound hchildless hremoved =>
    rw [hremoved.locate_eq wf (Ramfs.childless_of_found hfound hchildless) hdir]
    split
    · exact nofun
    · exact hgone path

/-- And it gets no entries. -/
theorem Changed.childless (h : Changed fs fs') {ref : InodeRef}
    (hgone : ∀ path, fs.locate path ≠ some ref) (hchildless : ∀ name, fs.lookup ref name = none)
    (name : String) : fs'.lookup ref name = none := by
  cases h with
  | created pre dir key hdir habsent hcreated =>
    rw [hcreated.links, if_neg, hchildless]
    rintro ⟨rfl, _⟩
    exact hgone pre hdir
  | removed pre dir key found hdir hfound hchildless' hremoved =>
    rw [hremoved.links]
    split
    · rfl
    · exact hchildless name

/-- What was removed is nowhere in the tree, has no entries, and is missing from its path. -/
theorem gone_of_removed (wf : fs.WellFormed) {parent : List String} {dir found : InodeRef}
    {name : String} (hdir : fs.locate parent = some dir) (hfound : fs.lookup dir name = some found)
    (hchildless : ∀ key, fs.lookup found key = none) (hremoved : Ramfs.Removed fs fs' dir name) :
    (∀ path, fs'.locate path ≠ some found) ∧ (∀ key, fs'.lookup found key = none) ∧
      Root.resolveFrom fs' Ramfs.root (parent ++ [name]) = .error .notFound := by
  have hlocate := hremoved.locate_eq wf (Ramfs.childless_of_found hfound hchildless) hdir
  refine ⟨?_, ?_, ?_⟩
  · intro path
    rw [hlocate]
    split
    case isTrue => exact nofun
    case isFalse hother =>
      intro hpath
      have hold : fs.locate (parent ++ [name]) = some found := by
        rw [Ramfs.locate_concat hdir, hfound]
      exact hother (wf.tree.path_unique hpath hold)
  · intro key
    rw [hremoved.links]
    split
    case isTrue => rfl
    case isFalse => exact hchildless key
  · have hdir' : fs'.locate parent = some dir := by
      rw [hlocate, if_neg (by simp), hdir]
    have hbranch : fs'.entryAt dir = .branch := by
      rw [hremoved.entries]
      exact Ramfs.entryAt_of_lookup hfound
    have habsent : fs'.lookup dir name = none := by
      rw [hremoved.links, if_pos ⟨rfl, rfl⟩]
    rw [resolveFrom_append, resolveFrom_of_locate hdir']
    show Root.resolveFrom fs' dir [name] = _
    rw [Root.resolveFrom, if_neg (not_not.mpr (Ramfs.ftype_eq_directory.mpr hbranch)), habsent]

/-- A node of the tree stays at its path, or it is what was removed. -/
theorem Changed.locate_cases (wf : fs.WellFormed) (h : Changed fs fs') {pre : List String}
    {ref : InodeRef} (hpre : fs.locate pre = some ref) :
    fs'.locate pre = some ref ∨
      (∀ path, fs'.locate path ≠ some ref) ∧ (∀ name, fs'.lookup ref name = none) ∧
        Root.resolveFrom fs' Ramfs.root pre = .error .notFound := by
  cases h with
  | created parent dir name hdir habsent hcreated =>
    left
    rw [hcreated.locate_eq wf habsent hdir, if_neg, hpre]
    rintro rfl
    rw [Ramfs.locate_concat hdir, habsent] at hpre
    cases hpre
  | removed parent dir name found hdir hfound hchildless hremoved =>
    by_cases hsame : pre = parent ++ [name]
    · right
      subst hsame
      obtain rfl : found = ref := by
        rw [Ramfs.locate_concat hdir, hfound] at hpre
        exact Option.some.inj hpre
      exact gone_of_removed wf hdir hfound hchildless hremoved
    · left
      rw [hremoved.locate_eq wf (Ramfs.childless_of_found hfound hchildless) hdir, if_neg hsame,
        hpre]

/-- What holds of a call in progress still does after a change by another. -/
theorem Justified.changed (wf : fs.WellFormed) (hreplays : Replays seq init log fs)
    (hseq : seq entry.call fs = (entry.answer, fs')) (h : Changed fs fs')
    (hstop : p.start ≤ entry.stop) (hp : Justified init log fs p) :
    Justified init (log ++ [entry]) fs' p where
  lt := hp.lt.trans_le h.next_le
  checked := by
    intro hchecked
    rw [h.entryAt_eq hp.lt]
    exact hp.checked hchecked
  valid := hp.valid
  find := hp.find
  holds := by
    have hentry := h.entryAt_eq hp.lt
    have hreplays' : Replays seq init (log ++ [entry]) fs' := by
      refine replays_append.mpr ⟨fs, hreplays, ?_⟩
      rw [Replays, hseq]
      exact ⟨rfl, rfl⟩
    cases hp.holds with
    | emptied hbranch hgone hchildless hmissing =>
      exact .emptied (hentry.trans hbranch) (h.gone wf hp.lt hgone) (h.childless hgone hchildless)
        fun hfinal => (hmissing hfinal).append hstop
    | file contents hleaf hgone hblocked =>
      exact .file contents (hentry.trans hleaf) (h.gone wf hp.lt hgone)
        fun hnamed => (hblocked hnamed).append hstop
    | attached pre hcomps hpre =>
      rcases h.locate_cases wf hpre with hstays | ⟨hgone, hchildless, hmissing⟩
      · exact .attached pre hcomps hstays
      · -- it was removed: the answer is right after the removal, or before it for a file
        cases hkind : fs.entryAt p.cur with
        | branch =>
          refine .emptied (hentry.trans hkind) hgone hchildless fun hfinal => ?_
          apply possible_now hreplays'
          apply seq_of_notFound hfinal hp.valid.target_ne
          rw [hcomps, resolveFrom_append, hmissing]
          rfl
        | leaf contents =>
          refine .file contents (hentry.trans hkind) hgone fun hnamed => ?_
          exact (possible_notADirectory hreplays hp hkind hnamed).append hstop

/-- Nor does it matter what is added to the order, as long as what was possible stays so. -/
theorem Justified.of_possible {log' : List (Completed PathCall Answer)}
    (hpossible : ∀ answer, Possible seq init log p.purpose.call p.start answer →
      Possible seq init log' p.purpose.call p.start answer)
    (hp : Justified init log fs p) : Justified init log' fs p where
  lt := hp.lt
  checked := hp.checked
  valid := hp.valid
  find := hp.find
  holds := by
    cases hp.holds with
    | attached pre hcomps hpre => exact .attached pre hcomps hpre
    | emptied hbranch hgone hchildless hmissing =>
      exact .emptied hbranch hgone hchildless fun hfinal => hpossible _ (hmissing hfinal)
    | file contents hleaf hgone hblocked =>
      exact .file contents hleaf hgone fun hnamed => hpossible _ (hblocked hnamed)

end Others

end Fine

/-! ## Runs -/

section Runs

variable {Thread : Type} [DecidableEq Thread]

/-- The completed calls have an order, and the calls in progress are justified by it. -/
structure Explained (init : Ramfs) (completed : List (Completed PathCall Answer))
    (s : System Thread) (log : List (Completed PathCall Answer)) : Prop where
  wf : s.fs.WellFormed
  order : Ordered seq init completed s.fs log
  past : ∀ e ∈ log, e.start ≤ s.clock
  started : ∀ {thread : Thread} {p : Pending}, s.running thread = some p → p.start ≤ s.clock
  justified : ∀ {thread : Thread} {p : Pending}, s.running thread = some p →
    Justified init log s.fs p

variable {init : Ramfs} {completed log : List (Completed PathCall Answer)} {s : System Thread}
  {call : PathCall} {start : ℕ}

theorem running_after {thread other : Thread} {progress : Progress} {fs : Ramfs} {p : Pending}
    (hp : (s.after thread progress fs).running other = some p) :
    progress = .inl p ∨ s.running other = some p := by
  by_cases hother : other = thread
  · subst hother
    left
    simpa [System.after, Sum.getLeft?_eq_some_iff] using hp
  · right
    simpa [System.after, hother] using hp

section

variable (h : Explained init completed s log)

include h

/-- A thread goes on, or completes a call with an answer that was possible. -/
theorem Explained.fine (thread : Thread) {progress : Progress} (hstart : start ≤ s.clock)
    (hfine : Fine init log s.fs call start progress) :
    ∃ log', Explained init (completed ++ (s.seen call start progress).toList)
      (s.after thread progress s.fs) log' := by
  cases progress with
  | inl q =>
    obtain ⟨hq, _, hqstart⟩ := hfine
    refine ⟨log, h.wf, ?_, fun e he => (h.past e he).trans (Nat.le_succ _), ?_, ?_⟩
    · simpa [System.seen, System.after] using h.order
    · intro other p hp
      rcases running_after hp with heq | hold
      · cases heq
        exact hqstart.le.trans (hstart.trans (Nat.le_succ _))
      · exact (h.started hold).trans (Nat.le_succ _)
    · intro other p hp
      rcases running_after hp with heq | hold
      · cases heq
        exact hq
      · exact h.justified hold
  | inr answer =>
    let entry : Completed PathCall Answer := { call, answer, start, stop := s.clock }
    obtain ⟨log', horder, hperm, hpossible⟩ :=
      h.order.insert (show Possible seq init log entry.call entry.start entry.answer from hfine)
        h.past
    refine ⟨log', h.wf, horder, ?_, ?_, ?_⟩
    · intro e he
      rcases List.mem_cons.mp (hperm.mem_iff.mp he) with rfl | hold
      · exact hstart.trans (Nat.le_succ _)
      · exact (h.past e hold).trans (Nat.le_succ _)
    · intro other p hp
      rcases running_after hp with heq | hold
      · cases heq
      · exact (h.started hold).trans (Nat.le_succ _)
    · intro other p hp
      rcases running_after hp with heq | hold
      · cases heq
      · exact (h.justified hold).of_possible fun answer => hpossible _ _ answer (h.started hold)

/-- A thread completes a call by doing what the call does now. -/
theorem Explained.change (thread : Thread) {answer : Answer} {fs' : Ramfs}
    (hstart : start ≤ s.clock) (hseq : seq call s.fs = (answer, fs')) (hchanged : Changed s.fs fs')
    :
    ∃ log', Explained init (completed ++ (s.seen call start (.inr answer)).toList)
      (s.after thread (.inr answer) fs') log' := by
  let entry : Completed PathCall Answer := { call, answer, start, stop := s.clock }
  have hentry : seq entry.call s.fs = (entry.answer, fs') := hseq
  refine ⟨log ++ [entry], hchanged.wellFormed h.wf, h.order.append hentry h.past, ?_, ?_, ?_⟩
  · intro e he
    rcases List.mem_append.mp he with hold | hnew
    · exact (h.past e hold).trans (Nat.le_succ _)
    · rw [List.mem_singleton.mp hnew]
      exact hstart.trans (Nat.le_succ _)
  · intro other p hp
    rcases running_after hp with heq | hold
    · cases heq
    · exact (h.started hold).trans (Nat.le_succ _)
  · intro other p hp
    rcases running_after hp with heq | hold
    · cases heq
    · exact (h.justified hold).changed h.wf h.order.replays hentry hchanged (h.started hold)

/-- **One step** of a system whose calls are undisturbed. -/
theorem Explained.step {label : Seen} {next : System Thread} (step : Step Undisturbed s label next)
    :
    ∃ log', Explained init (completed ++ label.toList) next log' := by
  cases step with
  | @begin thread hidle call =>
    exact h.fine thread (le_refl _) (fine_begin h.wf h.order.replays call)
  | @advance thread p hrunning hguard =>
    have heffect := effect_advance h.wf h.order.replays (h.justified hrunning) hguard
    rcases hadvance : p.advance s.fs with ⟨progress, fs'⟩
    rw [hadvance] at heffect
    cases heffect with
    | none hfine => exact h.fine thread (h.started hrunning) hfine
    | change hseq hchanged => exact h.change thread (h.started hrunning) hseq hchanged

end

/-- **Where no `create_file` is disturbed, the answers and the final tree are those of some
sequential order of the calls**, for any number of threads. -/
theorem linearizable_of_undisturbed {labels : List Seen} (wf : init.WellFormed)
    (run : Run (Step Undisturbed) (System.new init : System Thread) labels s) :
    Linearizable seq init (labels.filterMap id) s.fs := by
  have hstart : Explained init [] (System.new init : System Thread) [] :=
    ⟨wf, Ordered.nil init, by simp, nofun, nofun⟩
  obtain ⟨log, hlog⟩ := run.history_invariant
    (fun labels s => ∃ log, Explained init (labels.filterMap id) s log) ⟨[], hstart⟩ (by
      rintro labels s label next ⟨log, h⟩ step
      obtain ⟨log', h'⟩ := h.step step
      refine ⟨log', ?_⟩
      rw [List.filterMap_append]
      cases label with
      | none => exact h'
      | some entry => exact h')
  exact ⟨log, hlog.order⟩

end Runs

/-! ## Schedules -/

theorem exists_run {guard : Pending → Ramfs → Prop} [∀ p fs, Decidable (guard p fs)] {init : Ramfs}
    {moves : List (Move Bool)} {completed : List (Completed PathCall Answer)}
    (hplay : (play guard (System.new init) moves).map (fun r => r.1.filterMap id) =
      some completed) :
    ∃ labels, ∃ s : System Bool, Run (Step guard) (System.new init) labels s ∧
      labels.filterMap id = completed := by
  obtain ⟨⟨labels, s⟩, hlast, hcompleted⟩ := Option.map_eq_some_iff.mp hplay
  exact ⟨labels, s, run_of_play .nil hlast, hcompleted⟩

def readWriteCreate : OpenFlags := ⟨true, true, true, false⟩

/-- The call `open("/x", READ | WRITE | CREATE)`. -/
def openX : PathCall := .openPath "/x" readWriteCreate

def openInDir : PathCall := .openPath "/d/x" readWriteCreate

def removeDir : PathCall := .remove "/d"

/-- A root with an empty directory `d`. -/
def withDir : Ramfs := (mkdir Ramfs.newRoot "/d").2

/-- A thread opens `/x`, and another creates it before the first has looked. -/
theorem linearizable_of_undisturbed_openX :
    ∃ labels, ∃ s : System Bool, Run (Step Undisturbed) (System.new Ramfs.newRoot) labels s ∧
      labels.filterMap id =
        [⟨openX, .opened (.ok ⟨1, 0, readWriteCreate⟩), 1, 4⟩,
          ⟨openX, .opened (.ok ⟨1, 0, readWriteCreate⟩), 0, 6⟩] ∧
      Linearizable seq Ramfs.newRoot (labels.filterMap id) s.fs := by
  have hplay : (play Undisturbed (System.new Ramfs.newRoot)
      [.begin true openX, .begin false openX, .advance false, .advance false, .advance false,
        .advance true, .advance true]).map (fun r => r.1.filterMap id) =
      some [⟨openX, .opened (.ok ⟨1, 0, readWriteCreate⟩), 1, 4⟩,
        ⟨openX, .opened (.ok ⟨1, 0, readWriteCreate⟩), 0, 6⟩] := rfl
  obtain ⟨labels, s, run, hcompleted⟩ := exists_run hplay
  exact ⟨labels, s, run, hcompleted, linearizable_of_undisturbed Ramfs.wellFormed_newRoot run⟩

/-- Two threads open `/x`, and the second one to create it gets `AlreadyExists`; and a
thread creates a file in a directory that another has removed meanwhile. -/
theorem disturbed_opens :
    (∃ labels, ∃ s : System Bool,
      Run (Step fun _ _ => True) (System.new Ramfs.newRoot) labels s ∧
      labels.filterMap id =
        [⟨openX, .opened (.ok ⟨1, 0, readWriteCreate⟩), 3, 6⟩,
          ⟨openX, .opened (.error .alreadyExists), 0, 7⟩] ∧
      ¬Linearizable seq Ramfs.newRoot (labels.filterMap id) s.fs) ∧
    (∃ labels, ∃ s : System Bool,
      Run (Step fun _ _ => True) (System.new withDir) labels s ∧
      labels.filterMap id =
        [⟨removeDir, .removed (.ok ()), 7, 8⟩,
          ⟨openInDir, .opened (.ok ⟨2, 0, readWriteCreate⟩), 0, 9⟩] ∧
      ¬Linearizable seq withDir (labels.filterMap id) s.fs) := by
  constructor
  · have hplay : (play (fun _ _ => True) (System.new Ramfs.newRoot)
        [.begin true openX, .advance true, .advance true, .begin false openX, .advance false,
          .advance false, .advance false, .advance true]).map (fun r => r.1.filterMap id) =
        some [⟨openX, .opened (.ok ⟨1, 0, readWriteCreate⟩), 3, 6⟩,
          ⟨openX, .opened (.error .alreadyExists), 0, 7⟩] := rfl
    obtain ⟨labels, s, run, hcompleted⟩ := exists_run hplay
    refine ⟨labels, s, run, hcompleted, ?_⟩
    rw [hcompleted]
    intro hlinear
    rcases hlinear.pair with h | h
    · exact absurd h.2.1 (by decide +kernel)
    · exact absurd h.1 (by decide +kernel)
  · have hplay : (play (fun _ _ => True) (System.new withDir)
        [.begin true openInDir, .advance true, .advance true, .advance true, .advance true,
          .advance true, .advance true, .begin false removeDir, .advance false,
          .advance true]).map (fun r => r.1.filterMap id) =
        some [⟨removeDir, .removed (.ok ()), 7, 8⟩,
          ⟨openInDir, .opened (.ok ⟨2, 0, readWriteCreate⟩), 0, 9⟩] := rfl
    obtain ⟨labels, s, run, hcompleted⟩ := exists_run hplay
    refine ⟨labels, s, run, hcompleted, ?_⟩
    rw [hcompleted]
    intro hlinear
    rcases hlinear.pair with h | h
    · exact absurd h.2.1 (by decide +kernel)
    · exact absurd h.2.1 (by decide +kernel)

end Hyperion.Fs.Concurrent
