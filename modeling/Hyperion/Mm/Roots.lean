import Hyperion.Mm.VmmInvariant

/-!
# The roots of address spaces

Any number of address spaces over one allocator.  `ensure_root` takes a frame when the
root of an address space is `0`, so `0` stands for "no root yet".  As long as no frame
has the address `0`, an address space takes one frame, at its first successful `map`,
and the outstanding frames are exactly the roots of the address spaces that have been
mapped (`Owned`).  A pool that starts at `0` hands out `0` first: the address space that
gets it has a root and still looks as if it had none, and takes another frame at its
next `map`.
-/

namespace Hyperion.Mm.Vmm

open Hyperion.Lib Hyperion.Hal

variable {ι : Type}

/-- Address spaces that share the allocator. -/
structure Spaces (ι : Type) where
  space : ι → AddressSpace
  pmm : Pmm.State

namespace Spaces

/-- No address space has been used since `pmm::init`. -/
def start (ι : Type) (memory : MemoryMap) (kernelEnd : UInt64) : Spaces ι where
  space := fun _ => AddressSpace.newUnmaterialised
  pmm := Pmm.init memory kernelEnd Pmm.State.new

def root (s : Spaces ι) (i : ι) : UInt64 := (s.space i).root

end Spaces

inductive SpacesEvent (ι : Type) where
  | map (i : ι) (va pa len : UInt64) (answer : Except MapError Unit)
  | unmap (i : ι) (va : UInt64) (answer : Option Mapping)

inductive SpacesStep [DecidableEq ι] : Spaces ι → SpacesEvent ι → Spaces ι → Prop
  | map (s : Spaces ι) (i : ι) (va pa len : UInt64) :
      SpacesStep s (.map i va pa len ((s.space i).map s.pmm va pa len).1)
        { space := Function.update s.space i ((s.space i).map s.pmm va pa len).2.1
          pmm := ((s.space i).map s.pmm va pa len).2.2 }
  | unmap (s : Spaces ι) (i : ι) (va : UInt64) :
      SpacesStep s (.unmap i va ((s.space i).unmap va).1)
        { s with space := Function.update s.space i ((s.space i).unmap va).2 }

/-- A `map` on the address space has succeeded. -/
def Mapped (events : List (SpacesEvent ι)) (i : ι) : Prop :=
  ∃ va pa len, .map i va pa len (.ok ()) ∈ events

/-- Every address space that has been mapped has one frame of its own, its root, and
nothing else is outstanding. -/
structure Owned (events : List (SpacesEvent ι)) (s : Spaces ι) : Prop where
  root_ne_zero : ∀ i, Mapped events i → s.root i ≠ 0
  root_inj : ∀ i j, Mapped events i → Mapped events j → s.root i = s.root j → i = j
  outstanding : ∃ out : Finset UInt64, Pmm.Refines s.pmm out ∧
    ∀ frame, frame ∈ out ↔ ∃ i, Mapped events i ∧ s.root i = frame

/-! ## What `map` does to the root -/

/-- `map` fails and changes nothing, or keeps the root it finds, or takes a free frame
for the root. -/
theorem map_root_cases (space : AddressSpace) (pmm : Pmm.State) (va pa len : UInt64) :
    (∃ e, space.map pmm va pa len = (.error e, space, pmm)) ∨
      ∃ mappings, (space.root ≠ 0 ∧
        space.map pmm va pa len = (.ok (), ⟨space.root, mappings⟩, pmm)) ∨
      (space.root = 0 ∧ ∃ idx < pmm.numFrames, pmm.bitmap.isSet idx = false ∧
        space.map pmm va pa len = (.ok (), ⟨pmm.frameAddr idx, mappings⟩,
          { pmm with
            bitmap := pmm.bitmap.set idx
            nextHint := (idx + 1) % pmm.numFrames
            freeFrames := pmm.freeFrames - 1 })) := by
  cases hcheck : space.checkMap va pa len with
  | error e => exact .inl ⟨e, by simp [AddressSpace.map, hcheck]⟩
  | ok rounded =>
    by_cases hroot : space.root = 0
    · rcases Pmm.allocFrame_cases pmm with ⟨_, halloc⟩ | ⟨idx, hidx, hclear, halloc⟩
      · refine .inl ⟨.outOfMemory, ?_⟩
        simp [AddressSpace.map, hcheck, AddressSpace.ensureRoot, hroot, halloc]
      · refine .inr ⟨space.mappings.insert va ⟨va, pa, rounded⟩,
          Or.inr ⟨hroot, idx, hidx, hclear, ?_⟩⟩
        simp [AddressSpace.map, hcheck, AddressSpace.ensureRoot, hroot, halloc]
    · refine .inr ⟨space.mappings.insert va ⟨va, pa, rounded⟩, .inl ⟨hroot, ?_⟩⟩
      simp [AddressSpace.map, hcheck, AddressSpace.ensureRoot, hroot]

/-! ## The invariant -/

/-- A root is non-zero exactly when the address space has been mapped, non-zero roots
are distinct, and they are the outstanding frames. -/
structure Rooted (events : List (SpacesEvent ι)) (s : Spaces ι) (out : Finset UInt64) : Prop where
  frame_ne_zero : s.pmm.base ≠ 0
  refines : Pmm.Refines s.pmm out
  mapped_iff : ∀ i, Mapped events i ↔ s.root i ≠ 0
  root_inj : ∀ i j, s.root i ≠ 0 → s.root i = s.root j → i = j
  mem_iff : ∀ frame, frame ∈ out ↔ frame ≠ 0 ∧ ∃ i, s.root i = frame

theorem rooted_start {memory : MemoryMap} {kernelEnd : UInt64}
    (hbase : (Pmm.init memory kernelEnd Pmm.State.new).base ≠ 0) :
    Rooted [] (Spaces.start ι memory kernelEnd) ∅ where
  frame_ne_zero := hbase
  refines := Pmm.refines_init memory kernelEnd
  mapped_iff := by simp [Mapped, Spaces.root, Spaces.start, AddressSpace.newUnmaterialised]
  root_inj := by simp [Spaces.root, Spaces.start, AddressSpace.newUnmaterialised]
  mem_iff := by
    intro frame
    simp only [Finset.notMem_empty, false_iff, not_and, not_exists]
    rintro hne i rfl
    exact hne rfl

section Steps

variable {events : List (SpacesEvent ι)} {s : Spaces ι} {out : Finset UInt64}

variable {event : SpacesEvent ι}

theorem mapped_snoc {i : ι} :
    Mapped (events ++ [event]) i ↔
      Mapped events i ∨ ∃ va pa len, event = .map i va pa len (.ok ()) := by
  simp [Mapped, List.mem_append, exists_or, eq_comm]

/-- A step that neither takes a frame nor changes a root. -/
theorem Rooted.of_root_eq (rooted : Rooted events s out) {next : Spaces ι} (hpmm : next.pmm = s.pmm)
    (hroot : ∀ i, next.root i = s.root i)
    (hmapped : ∀ i, Mapped (events ++ [event]) i ↔ Mapped events i) :
    Rooted (events ++ [event]) next out where
  frame_ne_zero := by
    rw [hpmm]
    exact rooted.frame_ne_zero
  refines := by
    rw [hpmm]
    exact rooted.refines
  mapped_iff := by
    intro i
    rw [hmapped, hroot]
    exact rooted.mapped_iff i
  root_inj := by
    intro i j
    rw [hroot, hroot]
    exact rooted.root_inj i j
  mem_iff := by
    intro frame
    simp only [hroot]
    exact rooted.mem_iff frame

theorem Rooted.frameAddr_ne_zero (rooted : Rooted events s out) {idx : ℕ}
    (hidx : idx < s.pmm.numFrames) : s.pmm.frameAddr idx ≠ 0 := by
  have hbase : s.pmm.base.toNat ≠ 0 := by
    intro hzero
    exact rooted.frame_ne_zero (UInt64.toNat_inj.mp hzero)
  intro hzero
  have hnat := Pmm.toNat_frameAddr rooted.refines.fits hidx
  rw [hzero, UInt64.toNat_zero] at hnat
  omega

variable [DecidableEq ι]

theorem root_update (space : ι → AddressSpace) (pmm : Pmm.State) (i : ι) (changed : AddressSpace)
    (j : ι) : (Spaces.mk (Function.update space i changed) pmm).root j =
      if j = i then changed.root else (space j).root := by
  change (Function.update space i changed j).root = _
  rw [Function.update_apply]
  split
  · rfl
  · rfl

/-- The first successful `map` on an address space takes a frame for its root. -/
theorem Rooted.take (rooted : Rooted events s out) {i : ι} {idx : ℕ} (hidx : idx < s.pmm.numFrames)
    (hclear : s.pmm.bitmap.isSet idx = false) (hzero : s.root i = 0) {next : Spaces ι}
    (hpmm : next.pmm = { s.pmm with
      bitmap := s.pmm.bitmap.set idx
      nextHint := (idx + 1) % s.pmm.numFrames
      freeFrames := s.pmm.freeFrames - 1 })
    (hroot : ∀ j, next.root j = if j = i then s.pmm.frameAddr idx else s.root j)
    (hmapped : ∀ j, Mapped (events ++ [event]) j ↔ Mapped events j ∨ j = i) :
    Rooted (events ++ [event]) next (insert (s.pmm.frameAddr idx) out) := by
  have hne := rooted.frameAddr_ne_zero hidx
  have hfresh := rooted.refines.frameAddr_notMem hidx hclear
  -- the new root is nobody else's: it was not outstanding
  have hother : ∀ j, s.root j ≠ s.pmm.frameAddr idx := by
    intro j hj
    exact hfresh ((rooted.mem_iff _).mpr ⟨hne, j, hj⟩)
  constructor
  case frame_ne_zero =>
    rw [hpmm]
    exact rooted.frame_ne_zero
  case refines =>
    rw [hpmm]
    exact Pmm.refines_alloc rooted.refines hidx hclear
  case mapped_iff =>
    intro j
    rw [hmapped, rooted.mapped_iff, hroot]
    split
    · rename_i hj
      simp [hj, hne]
    · rename_i hj
      simp [hj]
  case root_inj =>
    intro j k
    rw [hroot, hroot]
    split <;> split
    · rename_i hj hk
      exact fun _ _ => hj.trans hk.symm
    · exact fun _ heq => absurd heq.symm (hother k)
    · exact fun _ heq => absurd heq (hother j)
    · exact rooted.root_inj j k
  case mem_iff =>
    intro frame
    rw [Finset.mem_insert, rooted.mem_iff]
    simp only [hroot]
    constructor
    · rintro (rfl | ⟨hframe, j, rfl⟩)
      · exact ⟨hne, i, by simp⟩
      · have hj : j ≠ i := by
          rintro rfl
          exact hframe hzero
        exact ⟨hframe, j, if_neg hj⟩
    · rintro ⟨hframe, j, hj⟩
      split at hj
      · exact .inl hj.symm
      · exact .inr ⟨hframe, j, hj⟩

theorem step_rooted {next : Spaces ι} (rooted : Rooted events s out)
    (step : SpacesStep s event next) : ∃ out', Rooted (events ++ [event]) next out' := by
  cases step with
  | map i va pa len =>
    rcases map_root_cases (s.space i) s.pmm va pa len with ⟨e, heq⟩ | ⟨mappings, ⟨hroot, heq⟩ |
      ⟨hroot, idx, hidx, hclear, heq⟩⟩
    · rw [heq]
      refine ⟨out, rooted.of_root_eq rfl (fun j => ?_) fun j => ?_⟩
      · rw [root_update]
        split
        · rename_i hj
          rw [hj]
          rfl
        · rfl
      · simp [mapped_snoc]
    · rw [heq]
      refine ⟨out, rooted.of_root_eq rfl (fun j => ?_) fun j => ?_⟩
      · rw [root_update]
        split
        · rename_i hj
          rw [hj]
          rfl
        · rfl
      · rw [mapped_snoc]
        refine or_iff_left_of_imp ?_
        rintro ⟨_, _, _, hevent⟩
        cases hevent
        exact (rooted.mapped_iff _).mpr hroot
    · rw [heq]
      refine ⟨_, rooted.take hidx hclear hroot rfl (root_update _ _ _ _) fun j => ?_⟩
      rw [mapped_snoc]
      refine or_congr_right ⟨?_, ?_⟩
      · rintro ⟨_, _, _, hevent⟩
        cases hevent
        rfl
      · rintro rfl
        exact ⟨va, pa, len, rfl⟩
  | unmap i va =>
    refine ⟨out, rooted.of_root_eq rfl (fun j => ?_) fun j => ?_⟩
    · rw [root_update]
      split
      · rename_i hj
        rw [hj]
        rfl
      · rfl
    · simp [mapped_snoc]

theorem run_rooted {memory : MemoryMap} {kernelEnd : UInt64}
    (hbase : (Pmm.init memory kernelEnd Pmm.State.new).base ≠ 0)
    (run : Run SpacesStep (Spaces.start ι memory kernelEnd) events s) :
    ∃ out, Rooted events s out :=
  run.history_invariant (fun events s => ∃ out, Rooted events s out) ⟨∅, rooted_start hbase⟩
    fun _ _ _ _ ⟨_, rooted⟩ step => step_rooted rooted step

omit [DecidableEq ι] in
theorem Rooted.owned (rooted : Rooted events s out) : Owned events s where
  root_ne_zero := fun i => (rooted.mapped_iff i).mp
  root_inj := fun i j hi _ => rooted.root_inj i j ((rooted.mapped_iff i).mp hi)
  outstanding := by
    refine ⟨out, rooted.refines, fun frame => ?_⟩
    rw [rooted.mem_iff]
    constructor
    · rintro ⟨hne, i, rfl⟩
      exact ⟨i, (rooted.mapped_iff i).mpr hne, rfl⟩
    · rintro ⟨i, hi, rfl⟩
      exact ⟨(rooted.mapped_iff i).mp hi, i, rfl⟩

end Steps

/-! ## Roots over whole runs -/

/-- A root that is not `0` stays, whatever the pool. -/
theorem step_root [DecidableEq ι] {s next : Spaces ι} {event : SpacesEvent ι}
    (step : SpacesStep s event next) {i : ι} (hne : s.root i ≠ 0) : next.root i = s.root i := by
  cases step with
  | map j va pa len =>
    rw [root_update]
    split
    · rename_i hij
      rw [hij] at hne ⊢
      rcases map_root_cases (s.space j) s.pmm va pa len with ⟨e, heq⟩ | ⟨mappings, ⟨_, heq⟩ |
        ⟨hroot, _⟩⟩
      · rw [heq]
        rfl
      · rw [heq]
        rfl
      · exact absurd hroot hne
    · rfl
  | unmap j va =>
    rw [root_update]
    split
    · rename_i hij
      rw [hij]
      rfl
    · rfl

theorem run_root [DecidableEq ι] {s last : Spaces ι} {events : List (SpacesEvent ι)}
    (run : Run SpacesStep s events last) {i : ι} (hne : s.root i ≠ 0) :
    last.root i = s.root i := by
  refine run.invariant (fun state => state.root i = s.root i) rfl ?_
  intro state event next hroot step
  rw [step_root step (hroot ▸ hne), hroot]

/-- On an empty pool no `map` succeeds. -/
theorem run_empty [DecidableEq ι] {memory : MemoryMap} {kernelEnd : UInt64}
    (hempty : (Pmm.init memory kernelEnd Pmm.State.new).numFrames = 0)
    {events : List (SpacesEvent ι)} {s : Spaces ι}
    (run : Run SpacesStep (Spaces.start ι memory kernelEnd) events s) :
    (∀ i, ¬Mapped events i) ∧ s.pmm = Pmm.init memory kernelEnd Pmm.State.new := by
  have hinv : (∀ i, ¬Mapped events i ∧ s.root i = 0) ∧
      s.pmm = Pmm.init memory kernelEnd Pmm.State.new := by
    refine run.history_invariant (fun events s => (∀ i, ¬Mapped events i ∧ s.root i = 0) ∧
      s.pmm = Pmm.init memory kernelEnd Pmm.State.new) ⟨fun i => ⟨by simp [Mapped], rfl⟩, rfl⟩ ?_
    rintro events s event next ⟨hall, hpmm⟩ step
    cases step with
    | map i va pa len =>
      have hroot : (s.space i).root = 0 := (hall i).2
      rcases map_root_cases (s.space i) s.pmm va pa len with ⟨e, heq⟩ | ⟨_, ⟨hne, _⟩ |
        ⟨_, idx, hidx, _⟩⟩
      · rw [heq]
        refine ⟨fun j => ⟨by simp [mapped_snoc, (hall j).1], ?_⟩, hpmm⟩
        rw [root_update]
        split
        · exact hroot
        · exact (hall j).2
      · exact absurd hroot hne
      · rw [hpmm, hempty] at hidx
        exact absurd hidx (Nat.not_lt_zero _)
    | unmap i va =>
      refine ⟨fun j => ⟨by simp [mapped_snoc, (hall j).1], ?_⟩, hpmm⟩
      rw [root_update]
      split
      · exact (hall i).2
      · exact (hall j).2
  exact ⟨fun i => (hinv.1 i).1, hinv.2⟩

/-! ## A pool that starts at address 0 -/

theorem init_eq_fresh (memory : MemoryMap) (kernelEnd : UInt64) :
    ∃ base n hle, Pmm.init memory kernelEnd Pmm.State.new = Pmm.State.fresh base n hle := by
  unfold Pmm.init
  cases memory.largest with
  | none => exact ⟨0, 0, Nat.zero_le _, rfl⟩
  | some bank => exact ⟨_, _, _, rfl⟩

/-- A pool that nothing has been taken from hands out its first frame. -/
theorem allocFrame_fresh {base : UInt64} {n : ℕ} (hle : n ≤ Pmm.maxFrames) (hpos : 0 < n) :
    (Pmm.allocFrame (Pmm.State.fresh base n hle)).1 = some base := by
  have hscan : (Pmm.State.fresh base n hle).scan = some 0 := by
    obtain ⟨m, rfl⟩ : ∃ m, n = m + 1 := ⟨n - 1, by omega⟩
    simp [Pmm.PmmInner.scan, Pmm.State.fresh, List.range_succ_eq_map]
  have hne : ¬(Pmm.State.fresh base n hle).numFrames = 0 := hpos.ne'
  rw [Pmm.allocFrame, if_neg hne, hscan]
  simp [Pmm.PmmInner.frameAddr, Pmm.State.fresh]

/-- The first `map` on a new address space makes the next frame its root. -/
theorem map_newUnmaterialised {pmm : Pmm.State} {frame : UInt64}
    (halloc : (Pmm.allocFrame pmm).1 = some frame) :
    (AddressSpace.newUnmaterialised.map pmm 0 0 1).1 = .ok () ∧
      (AddressSpace.newUnmaterialised.map pmm 0 0 1).2.1.root = frame := by
  have hcheck : AddressSpace.newUnmaterialised.checkMap 0 0 1 = .ok 4096 := by decide +kernel
  obtain ⟨pmm', hpmm⟩ : ∃ pmm', Pmm.allocFrame pmm = (some frame, pmm') :=
    ⟨(Pmm.allocFrame pmm).2, Prod.ext halloc rfl⟩
  have hroot : AddressSpace.newUnmaterialised.ensureRoot pmm =
      (.ok (), { AddressSpace.newUnmaterialised with root := frame }, pmm') := by
    simp [AddressSpace.ensureRoot, AddressSpace.newUnmaterialised, hpmm]
  unfold AddressSpace.map
  rw [hcheck, hroot]
  exact ⟨rfl, rfl⟩

/-- **Address spaces own their roots unless the pool starts at address 0.**  For every
memory map and kernel image: in all runs of `map` and `unmap` on any address spaces,
each address space that has been mapped has taken exactly one frame, its root, which is
non-zero and no one else's and never changes, and no other frame is outstanding; this
is so exactly when the pool is empty or does not start at address 0. -/
theorem roots_owned_iff (memory : MemoryMap) (kernelEnd : UInt64) :
    (∀ (ι : Type) [DecidableEq ι] (events : List (SpacesEvent ι)) (s : Spaces ι),
      Run SpacesStep (Spaces.start ι memory kernelEnd) events s →
        Owned events s ∧
          ∀ later last, Run SpacesStep s later last →
            ∀ i, Mapped events i → last.root i = s.root i) ↔
      (Pmm.init memory kernelEnd Pmm.State.new).base ≠ 0 ∨
        (Pmm.init memory kernelEnd Pmm.State.new).numFrames = 0 := by
  constructor
  · intro hall
    by_contra hpool
    obtain ⟨hbase, hframes⟩ := not_or.mp hpool
    obtain ⟨base, n, hle, hfresh⟩ := init_eq_fresh memory kernelEnd
    rw [hfresh] at hbase hframes
    obtain rfl : base = 0 := not_ne_iff.mp hbase
    have halloc : (Pmm.allocFrame (Pmm.State.fresh 0 n hle)).1 = some 0 :=
      allocFrame_fresh hle (Nat.pos_of_ne_zero hframes)
    rw [← hfresh] at halloc
    obtain ⟨hok, hroot⟩ := map_newUnmaterialised halloc
    have hstep := SpacesStep.map (Spaces.start Unit memory kernelEnd) () 0 0 1
    have howned := (hall Unit _ _ (Run.nil.snoc hstep)).1
    refine howned.root_ne_zero () ⟨0, 0, 1, ?_⟩ hroot
    exact List.mem_singleton.mpr (congrArg (SpacesEvent.map () 0 0 1) hok.symm)
  · intro hpool ι _ events s run
    rcases hpool with hbase | hempty
    · obtain ⟨out, rooted⟩ := run_rooted hbase run
      exact ⟨rooted.owned, fun _ _ hlater i hi => run_root hlater ((rooted.mapped_iff i).mp hi)⟩
    · have hnone := run_empty hempty run
      refine ⟨⟨fun i hi => absurd hi (hnone.1 i), fun i _ hi => absurd hi (hnone.1 i), ∅, ?_, ?_⟩,
        fun _ _ _ i hi => absurd hi (hnone.1 i)⟩
      · rw [hnone.2]
        exact Pmm.refines_init memory kernelEnd
      · intro frame
        simp [hnone.1]

/-- The root of an address space that was mapped on a pool with frames at `0` and
`0x1000`: it is `0` after the first `map` and `0x1000` after the second. -/
theorem root_at_zero :
    let memory : MemoryMap := ⟨[⟨0, 0x2000⟩], by decide, by decide⟩
    ∃ (events : List (SpacesEvent Unit)) (s : Spaces Unit),
      Run SpacesStep (Spaces.start Unit memory 0x80000) events s ∧ Mapped events () ∧
        s.root () = 0 ∧ s.pmm.freeFrames = 1 ∧
        ∃ later last, Run SpacesStep s later last ∧ last.root () = 0x1000 ∧
          last.pmm.freeFrames = 0 := by
  intro memory
  have hfirst := SpacesStep.map (Spaces.start Unit memory 0x80000) () 0 0 1
  have hsecond := SpacesStep.map
    { space := Function.update (Spaces.start Unit memory 0x80000).space ()
        (AddressSpace.newUnmaterialised.map (Spaces.start Unit memory 0x80000).pmm 0 0 1).2.1
      pmm := (AddressSpace.newUnmaterialised.map (Spaces.start Unit memory 0x80000).pmm 0 0 1).2.2 }
    () 0x1000 0 1
  refine ⟨_, _, Run.nil.snoc hfirst, ⟨0, 0, 1, ?_⟩, by decide +kernel, by decide +kernel, _, _,
    Run.nil.snoc hsecond, by decide +kernel, by decide +kernel⟩
  refine List.mem_singleton.mpr (congrArg (SpacesEvent.map () 0 0 1) ?_)
  decide +kernel

end Hyperion.Mm.Vmm
