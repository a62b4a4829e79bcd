import Hyperion.Fs.FlatRefinement

/-!
# Appending through several handles

An appending handle asks the inode for its size and then writes at that offset.  Each of
the two is done under the lock of the inode, but the lock is released in between.  If
another handle appends in that gap, the offset is out of date, and the bytes that were
appended in the gap are overwritten.

Nothing is lost exactly in the runs in which no bytes are appended in such a gap
(`Undisturbed`): a write at an offset that is out of date makes the file grow by less
than it wrote, and no later write makes up for it.
-/

namespace Hyperion.Fs

open Hyperion.Lib

namespace File

/-- The rest of `File::write`, once the offset is known. -/
def put (file : File) (fs : Ramfs) (buf : List UInt8) :
    Checked (Except FsError ℕ × File × Ramfs) := do
  let (answer, fs) ← fs.writeAt file.inode file.offset buf
  match answer with
  | .error e => pure (.error e, file, fs)
  | .ok n =>
    let offset ← addUsize file.offset n
    pure (.ok n, { file with offset }, fs)

/-- `File::write` is its two parts, one right after the other. -/
theorem write_eq_put {file : File} (hflag : file.flags.write = true) (fs : Ramfs)
    (buf : List UInt8) : file.write fs buf = (file.seekForWrite fs).put fs buf := by
  unfold write put
  rw [hflag]
  rfl

theorem put_of_leaf {file : File} {fs : Ramfs} {v buf : List UInt8}
    {result : Except FsError ℕ × File × Ramfs} (hleaf : fs.entryAt file.inode = .leaf v)
    (hput : file.put fs buf = .ok result) :
    result = (.ok buf.length, { file with offset := file.offset + buf.length },
      fs.setData file.inode (.file (splice v file.offset buf))) := by
  obtain ⟨⟨answer, after⟩, hwrite, hrest⟩ := bind_eq_ok.mp hput
  have hend := Ramfs.canEnd_of_writeAt hleaf hwrite
  rw [Ramfs.writeAt_of_leaf hleaf hend] at hwrite
  cases hwrite
  obtain ⟨offset, hoffset, hpure⟩ := bind_eq_ok.mp hrest
  rw [addUsize_of_lt hend.1] at hoffset
  cases hoffset
  cases hpure
  rfl

end File

/-! ## The system -/

/-- The handles, and for each one the buffer of the `write` that has asked for the size
and has not written yet. -/
structure AppendSystem (Handle : Type*) where
  fs : Ramfs
  file : Handle → File
  writing : Handle → Option (List UInt8)

inductive AppendEvent (Handle : Type*) where
  /-- A call of `write` with this buffer asks for the size. -/
  | size (handle : Handle) (buf : List UInt8)
  /-- It writes and is complete. -/
  | write (handle : Handle) (buf : List UInt8)

namespace AppendEvent

variable {Handle : Type*} [DecidableEq Handle]

/-- The handle asks for the size. -/
def isSizeOf (handle : Handle) : AppendEvent Handle → Bool
  | .size other _ => other = handle
  | .write _ _ => false

omit [DecidableEq Handle] in
/-- At least one byte is written. -/
def appends : AppendEvent Handle → Bool
  | .size _ _ => false
  | .write _ buf => !buf.isEmpty

omit [DecidableEq Handle] in
/-- The buffer of a write that is complete. -/
def completed? : AppendEvent Handle → Option (List UInt8)
  | .size _ _ => none
  | .write _ buf => some buf

end AppendEvent

variable {Handle : Type*} [DecidableEq Handle]

/-- The two steps of `File::write` on an appending handle.  A handle is borrowed for the
whole call, so it has one call in progress at most. -/
inductive AppendStep : AppendSystem Handle → AppendEvent Handle → AppendSystem Handle → Prop
  | size {s : AppendSystem Handle} {handle : Handle} {buf : List UInt8}
      (hidle : s.writing handle = none) (hflag : (s.file handle).flags.write = true) :
      AppendStep s (.size handle buf)
        { s with
          file := Function.update s.file handle ((s.file handle).seekForWrite s.fs)
          writing := Function.update s.writing handle (some buf) }
  | write {s : AppendSystem Handle} {handle : Handle} {buf : List UInt8} {n : ℕ} {file : File}
      {fs : Ramfs} (hwriting : s.writing handle = some buf)
      (hput : (s.file handle).put s.fs buf = .ok (.ok n, file, fs)) :
      AppendStep s (.write handle buf)
        { fs
          file := Function.update s.file handle file
          writing := Function.update s.writing handle none }

/-- The buffers of the writes that are complete, in the order in which they wrote. -/
def completed (events : List (AppendEvent Handle)) : List (List UInt8) :=
  events.filterMap AppendEvent.completed?

/-- Nothing has been appended since the handle last asked for the size. -/
def Quiet (handle : Handle) (events : List (AppendEvent Handle)) : Prop :=
  ∀ event ∈ events.rtakeWhile fun event => !event.isSizeOf handle, event.appends = false

/-- No bytes are appended between the two steps of a write that appends any. -/
def Undisturbed (events : List (AppendEvent Handle)) : Prop :=
  ∀ before handle buf, before ++ [.write handle buf] <+: events → buf ≠ [] → Quiet handle before

/-- A handle that was opened with `WRITE | APPEND` on `node`. -/
structure File.AppendsTo (node : InodeRef) (file : File) : Prop where
  inode : file.inode = node
  write : file.flags.write = true
  append : file.flags.append = true

/-- Every handle appends to the regular file `node`, which contains `v`. -/
structure Appending (node : InodeRef) (s : AppendSystem Handle) (v : List UInt8) : Prop where
  handles : ∀ handle, (s.file handle).AppendsTo node
  leaf : s.fs.entryAt node = .leaf v

/-- The handles after they were opened, before any call. -/
structure Opened (node : InodeRef) (s : AppendSystem Handle) (v : List UInt8) : Prop
    extends Appending node s v where
  idle : ∀ handle, s.writing handle = none

/-! ## The schedule -/

section Schedule

variable {events : List (AppendEvent Handle)} {event : AppendEvent Handle} {handle : Handle}
  {buf : List UInt8}

omit [DecidableEq Handle] in
theorem completed_snoc_size :
    completed (events ++ [.size handle buf]) = completed events := by
  simp [completed, AppendEvent.completed?]

omit [DecidableEq Handle] in
theorem completed_snoc_write :
    completed (events ++ [.write handle buf]) = completed events ++ [buf] := by
  simp [completed, AppendEvent.completed?]

theorem quiet_snoc_size_self : Quiet handle (events ++ [.size handle buf]) := by
  intro event hevent
  rw [List.rtakeWhile_concat_neg _ _ _ (by simp [AppendEvent.isSizeOf])] at hevent
  simp at hevent

theorem quiet_snoc (hother : event.isSizeOf handle = false) :
    Quiet handle (events ++ [event]) ↔ Quiet handle events ∧ event.appends = false := by
  unfold Quiet
  rw [List.rtakeWhile_concat_pos _ _ _ (by rw [hother]; rfl), List.forall_mem_append,
    List.forall_mem_singleton]

theorem undisturbed_nil : Undisturbed ([] : List (AppendEvent Handle)) := by
  intro before handle buf hprefix
  simp at hprefix

theorem undisturbed_snoc_size :
    Undisturbed (events ++ [.size handle buf]) ↔ Undisturbed events := by
  unfold Undisturbed
  simp [List.prefix_concat_iff]

theorem undisturbed_snoc_write :
    Undisturbed (events ++ [.write handle buf]) ↔
      Undisturbed events ∧ (buf ≠ [] → Quiet handle events) := by
  unfold Undisturbed
  simp only [List.prefix_concat_iff]
  constructor
  · intro hall
    exact ⟨fun before h b hprefix => hall before h b (.inr hprefix),
      hall events handle buf (.inl rfl)⟩
  · rintro ⟨hall, hquiet⟩ before h b (hlast | hprefix)
    · obtain ⟨rfl, hevent⟩ := List.append_inj' hlast rfl
      cases hevent
      exact hquiet
    · exact hall before h b hprefix

end Schedule

/-! ## What one step does -/

section Bytes

variable {v buf : List UInt8} {off : ℕ}

theorem splice_length (v buf : List UInt8) : splice v v.length buf = v ++ buf := by
  simp [splice]

theorem splice_nil (hle : off ≤ v.length) : splice v off [] = v := by
  simp [splice, Nat.sub_eq_zero_of_le hle]

end Bytes

/-- What the run has done to the file, and how old the offsets of the calls in progress
are. -/
structure Ledger (initial : List UInt8) (events : List (AppendEvent Handle))
    (file : Handle → File) (writing : Handle → Option (List UInt8)) (v : List UInt8) : Prop where
  offset_le : ∀ handle buf, writing handle = some buf → (file handle).offset ≤ v.length
  intact : Undisturbed events → v = initial ++ (completed events).flatten
  current : Undisturbed events → ∀ handle buf, writing handle = some buf →
    ((file handle).offset = v.length ↔ Quiet handle events)
  lost : ¬ Undisturbed events → v.length < initial.length + (completed events).flatten.length

section Step

variable {node : InodeRef} {s next : AppendSystem Handle} {v initial : List UInt8}
  {events : List (AppendEvent Handle)} {event : AppendEvent Handle}

theorem ledger_opened (hopened : Opened node s v) : Ledger v [] s.file s.writing v where
  offset_le handle buf hwriting := by simp [hopened.idle handle] at hwriting
  intact _ := by simp [completed]
  current _ handle buf hwriting := by simp [hopened.idle handle] at hwriting
  lost hdisturbed := absurd undisturbed_nil hdisturbed

/-- A handle moves, and the file is written. -/
theorem Appending.move (happending : Appending node s v) (handle : Handle) (offset : ℕ)
    (writing : Handle → Option (List UInt8)) {fs : Ramfs} {w : List UInt8}
    (hleaf : fs.entryAt node = .leaf w) :
    Appending node
      ⟨fs, Function.update s.file handle ((s.file handle).seek offset), writing⟩ w := by
  refine ⟨(Function.forall_update_iff s.file fun _ file => file.AppendsTo node).mpr ⟨?_, ?_⟩, hleaf⟩
  · obtain ⟨hinode, hwrite, happend⟩ := happending.handles handle
    exact ⟨hinode, hwrite, happend⟩
  · exact fun other _ => happending.handles other

omit [DecidableEq Handle] in
theorem Appending.seekForWrite (happending : Appending node s v) (handle : Handle) :
    (s.file handle).seekForWrite s.fs = (s.file handle).seek v.length := by
  have hsize : s.fs.size node = v.length := by
    rw [Ramfs.size, Ramfs.data_of_leaf happending.leaf]
  obtain ⟨hinode, _, happend⟩ := happending.handles handle
  rw [File.seekForWrite, happend, if_pos rfl, hinode, hsize, File.seek, hinode]

theorem entryAt_setData (fs : Ramfs) (node : InodeRef) (v : List UInt8) :
    (fs.setData node (.file v)).entryAt node = .leaf v := by
  simp [Ramfs.entryAt, Ramfs.setData, NodeData.entry]

section Ledger

variable {file : Handle → File} {writing : Handle → Option (List UInt8)}

theorem ledger_size (hledger : Ledger initial events file writing v) (handle : Handle)
    (buf : List UInt8) :
    Ledger initial (events ++ [.size handle buf])
      (Function.update file handle ((file handle).seek v.length))
      (Function.update writing handle (some buf)) v where
  offset_le other held hwriting := by
    rcases eq_or_ne other handle with rfl | hne
    · rw [Function.update_self]
      exact le_refl v.length
    · rw [Function.update_of_ne hne] at hwriting ⊢
      exact hledger.offset_le other held hwriting
  intact hundisturbed := by
    rw [completed_snoc_size]
    exact hledger.intact (undisturbed_snoc_size.mp hundisturbed)
  current hundisturbed other held hwriting := by
    rcases eq_or_ne other handle with rfl | hne
    · rw [Function.update_self]
      exact iff_of_true rfl quiet_snoc_size_self
    · rw [Function.update_of_ne hne] at hwriting ⊢
      have hother : (AppendEvent.size handle buf).isSizeOf other = false := by
        simp [AppendEvent.isSizeOf, hne.symm]
      rw [quiet_snoc hother, AppendEvent.appends, and_iff_left rfl]
      exact hledger.current (undisturbed_snoc_size.mp hundisturbed) other held hwriting
  lost hdisturbed := by
    rw [completed_snoc_size]
    exact hledger.lost fun h => hdisturbed (undisturbed_snoc_size.mpr h)

/-- A write puts its bytes at the end, or it loses some for good. -/
theorem ledger_write (hledger : Ledger initial events file writing v) {handle : Handle}
    {buf : List UInt8} (hwriting : writing handle = some buf) (offset : ℕ) :
    Ledger initial (events ++ [.write handle buf])
      (Function.update file handle ((file handle).seek offset))
      (Function.update writing handle none) (splice v (file handle).offset buf) := by
  have hle := hledger.offset_le handle buf hwriting
  have hlength : (splice v (file handle).offset buf).length = _ := length_splice _ _ _
  have hflatten : (completed (events ++ [.write handle buf])).flatten =
      (completed events).flatten ++ buf := by
    rw [completed_snoc_write, List.flatten_append, List.flatten_singleton]
  -- a call that is still in progress is another handle's
  have hother : ∀ other held, Function.update writing handle none other = some held →
      other ≠ handle ∧ writing other = some held := by
    intro other held hheld
    rcases eq_or_ne other handle with rfl | hne
    · simp at hheld
    · exact ⟨hne, by rwa [Function.update_of_ne hne] at hheld⟩
  refine ⟨?_, ?_, ?_, ?_⟩
  · intro other held hheld
    obtain ⟨hne, hheld⟩ := hother other held hheld
    have := hledger.offset_le other held hheld
    rw [Function.update_of_ne hne, hlength]
    omega
  · intro hundisturbed
    obtain ⟨hbefore, hquiet⟩ := undisturbed_snoc_write.mp hundisturbed
    rw [hflatten, ← List.append_assoc, ← hledger.intact hbefore]
    by_cases hempty : buf = []
    · rw [hempty, splice_nil hle, List.append_nil]
    · rw [(hledger.current hbefore handle buf hwriting).mpr (hquiet hempty), splice_length]
  · intro hundisturbed other held hheld
    obtain ⟨hbefore, _⟩ := undisturbed_snoc_write.mp hundisturbed
    obtain ⟨hne, hheld⟩ := hother other held hheld
    have hcurrent := hledger.current hbefore other held hheld
    rw [Function.update_of_ne hne, hlength, quiet_snoc rfl, ← hcurrent]
    cases buf with
    | nil =>
      rw [List.length_nil, Nat.add_zero, Nat.max_eq_left hle]
      exact (and_iff_left rfl).symm
    | cons byte rest =>
      -- the file has grown past the offset of the other handle
      have hgrown := (hledger.current hbefore handle _ hwriting).mpr
        ((undisturbed_snoc_write.mp hundisturbed).2 (List.cons_ne_nil _ _))
      have := hledger.offset_le other held hheld
      refine iff_of_false ?_ (fun h => Bool.noConfusion h.2)
      rw [List.length_cons]
      omega
  · intro hdisturbed
    rw [hflatten, List.length_append, hlength]
    by_cases hbefore : Undisturbed events
    · have hloses : buf ≠ [] ∧ ¬ Quiet handle events := by
        by_contra hnot
        exact hdisturbed (undisturbed_snoc_write.mpr ⟨hbefore, by tauto⟩)
      have hstale : (file handle).offset ≠ v.length :=
        fun h => hloses.2 ((hledger.current hbefore handle buf hwriting).mp h)
      have hpos := List.length_pos_iff.mpr hloses.1
      have htotal := congrArg List.length (hledger.intact hbefore)
      rw [List.length_append] at htotal
      omega
    · have := hledger.lost hbefore
      omega

end Ledger

/-- What one step does to the file and to the ledger. -/
theorem ledger_step (happending : Appending node s v)
    (hledger : Ledger initial events s.file s.writing v) (step : AppendStep s event next) :
    ∃ w, Appending node next w ∧
      Ledger initial (events ++ [event]) next.file next.writing w := by
  cases step with
  | @size handle buf hidle hflag =>
    rw [happending.seekForWrite handle]
    exact ⟨v, happending.move handle _ _ happending.leaf, ledger_size hledger handle buf⟩
  | @write handle buf n file fs hwriting hput =>
    have hleaf : s.fs.entryAt (s.file handle).inode = .leaf v := by
      rw [(happending.handles handle).inode]
      exact happending.leaf
    have hresult := File.put_of_leaf hleaf hput
    cases hresult
    refine ⟨_, happending.move handle _ _ ?_, ledger_write hledger hwriting _⟩
    rw [(happending.handles handle).inode]
    exact entryAt_setData s.fs node _

end Step

/-! ## Whole runs -/

variable {events : List (AppendEvent Handle)} {start s : AppendSystem Handle}

theorem ledger_run {node : InodeRef} {initial : List UInt8} (hopened : Opened node start initial)
    (run : Run AppendStep start events s) :
    ∃ v, Appending node s v ∧ Ledger initial events s.file s.writing v := by
  refine run.history_invariant
    (fun events s => ∃ v, Appending node s v ∧ Ledger initial events s.file s.writing v) ?_ ?_
  · exact ⟨initial, hopened.toAppending, ledger_opened hopened⟩
  · rintro labels s event next ⟨v, happending, hledger⟩ step
    exact ledger_step happending hledger step

/-- **Appended bytes.**  After any run, the file contains what it contained at first,
followed by the buffers of all complete writes in some order, exactly when no bytes were
appended between the two steps of a write. -/
theorem appends_kept_iff {node : InodeRef} {initial : List UInt8}
    (hopened : Opened node start initial) (run : Run AppendStep start events s) :
    (∃ order : List (List UInt8), order.Perm (completed events) ∧
      s.fs.entryAt node = .leaf (initial ++ order.flatten)) ↔ Undisturbed events := by
  obtain ⟨v, happending, hledger⟩ := ledger_run hopened run
  constructor
  · rintro ⟨order, hperm, hleaf⟩
    by_contra hdisturbed
    have hv : v = initial ++ order.flatten := by
      rw [happending.leaf] at hleaf
      exact Entry.leaf.inj hleaf
    have hlost := hledger.lost hdisturbed
    rw [hv, List.length_append, hperm.flatten.length_eq] at hlost
    exact absurd hlost (Nat.lt_irrefl _)
  · intro hundisturbed
    exact ⟨completed events, .refl _, by rw [happending.leaf, hledger.intact hundisturbed]⟩

/-! ## Runs that can be evaluated -/

/-- The system after an event, if it can take place. -/
def AppendSystem.act (s : AppendSystem Handle) : AppendEvent Handle → Option (AppendSystem Handle)
  | .size handle buf =>
    if s.writing handle = none ∧ (s.file handle).flags.write = true then
      some { s with
        file := Function.update s.file handle ((s.file handle).seekForWrite s.fs)
        writing := Function.update s.writing handle (some buf) }
    else none
  | .write handle buf =>
    if s.writing handle = some buf then
      match (s.file handle).put s.fs buf with
      | .ok (.ok _, file, fs) => some
          { fs
            file := Function.update s.file handle file
            writing := Function.update s.writing handle none }
      | _ => none
    else none

theorem step_of_act {s next : AppendSystem Handle} {event : AppendEvent Handle}
    (hact : s.act event = some next) : AppendStep s event next := by
  cases event with
  | size handle buf =>
    rw [AppendSystem.act] at hact
    split at hact
    case isTrue henabled =>
      cases hact
      exact .size henabled.1 henabled.2
    case isFalse => simp at hact
  | write handle buf =>
    rw [AppendSystem.act] at hact
    split at hact
    case isTrue hwriting =>
      split at hact
      case h_1 hput =>
        cases hact
        exact .write hwriting hput
      case h_2 => simp at hact
    case isFalse => simp at hact

theorem run_of_acts (hacts : events.foldlM AppendSystem.act start = some s) :
    Run AppendStep start events s := by
  induction events using List.reverseRecOn generalizing s with
  | nil =>
    cases hacts
    exact .nil
  | append_singleton events event ih =>
    rw [List.foldlM_append, Option.bind_eq_bind, Option.bind_eq_some_iff] at hacts
    obtain ⟨before, hbefore, hlast⟩ := hacts
    rw [List.foldlM_cons, Option.bind_eq_bind, Option.bind_eq_some_iff] at hlast
    obtain ⟨after, hact, hafter⟩ := hlast
    cases hafter
    exact (ih hbefore).snoc (step_of_act hact)

/-- A file system with one empty file, and two handles on it that append. -/
def twoAppenders : AppendSystem Bool where
  fs := (Ramfs.newRoot.createFile Ramfs.root "log" []).2
  file _ := ⟨1, 0, ⟨false, true, false, true⟩⟩
  writing _ := none

theorem opened_twoAppenders : Opened 1 twoAppenders [] :=
  { handles := fun _ => ⟨rfl, rfl, rfl⟩
    leaf := rfl
    idle := fun _ => rfl }

/-- One handle appends after the other. -/
def inTurn : List (AppendEvent Bool) :=
  [.size true [1], .write true [1], .size false [2], .write false [2]]

theorem appends_kept_iff_inTurn :
    ∃ s, Run AppendStep twoAppenders inTurn s ∧
      ∃ order : List (List UInt8), order.Perm (completed inTurn) ∧
        s.fs.entryAt 1 = .leaf ([] ++ order.flatten) := by
  have hacts : (inTurn.foldlM AppendSystem.act twoAppenders).isSome = true := rfl
  obtain ⟨s, hs⟩ := Option.isSome_iff_exists.mp hacts
  have hundisturbed : Undisturbed inTurn := by
    have hfirst : Undisturbed ([] ++ [.size true [1]] ++ [.write true [1]]) :=
      undisturbed_snoc_write.mpr ⟨undisturbed_snoc_size.mpr undisturbed_nil,
        fun _ => quiet_snoc_size_self⟩
    exact undisturbed_snoc_write.mpr ⟨undisturbed_snoc_size.mpr hfirst,
      fun _ => quiet_snoc_size_self⟩
  have run := run_of_acts hs
  exact ⟨s, run, (appends_kept_iff opened_twoAppenders run).mpr hundisturbed⟩

/-- Both handles ask for the size before one of them writes. -/
def sizesFirst : List (AppendEvent Bool) :=
  [.size true [1], .size false [2], .write true [1], .write false [2]]

/-- The first of the two bytes is gone. -/
theorem append_overwritten :
    ∃ s, Opened 1 twoAppenders [] ∧ Run AppendStep twoAppenders sizesFirst s ∧
      s.fs.entryAt 1 = .leaf [2] ∧
      ¬ ∃ order : List (List UInt8), order.Perm (completed sizesFirst) ∧
        s.fs.entryAt 1 = .leaf ([] ++ order.flatten) := by
  have hacts : (sizesFirst.foldlM AppendSystem.act twoAppenders).map
      (fun s => s.fs.entryAt 1) = some (.leaf [2]) := by rfl
  obtain ⟨s, hs, hleaf⟩ := Option.map_eq_some_iff.mp hacts
  refine ⟨s, opened_twoAppenders, run_of_acts hs, hleaf, ?_⟩
  rintro ⟨order, hperm, horder⟩
  have hbytes : [2] = order.flatten := Entry.leaf.inj (hleaf.symm.trans horder)
  have hlength := hperm.flatten.length_eq
  rw [← hbytes] at hlength
  exact absurd hlength (by decide)

end Hyperion.Fs
