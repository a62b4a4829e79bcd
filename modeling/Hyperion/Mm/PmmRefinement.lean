import Hyperion.Mm.Pmm

/-!
# The allocator keeps the set of frames it has handed out

What the allocator is for can be said without bitmap, hint or counter: there is
a set of managed frames, `alloc_frame` hands out one that is not outstanding and
fails only when all of them are, and `free_frame` takes one back.  That is
`Outstanding.Step`.  The relation `Refines` ties a state of the code to such a
set, `init` establishes it for the empty set, and both calls keep it
(`refines_alloc`, `refines_free`), so every run of the code is a run of the
specification.

The search is complete because the indices `(next_hint + i) % num_frames` run
through all residues whatever the hint is (`scan_eq_none`).
-/

namespace Hyperion.Mm.Pmm

open Hyperion.Lib Hyperion.Hal

/-- The managed frames, by address. -/
def PmmInner.frames (pmm : PmmInner) : Finset UInt64 :=
  (Finset.range pmm.numFrames).image pmm.frameAddr

/-- What the allocator is for: `out` is the set of frames handed out and not yet
taken back.  Taking back an address that is not outstanding changes nothing. -/
inductive Outstanding.Step (frames : Finset UInt64) : Finset UInt64 → Event → Finset UInt64 → Prop
  | exhausted {out : Finset UInt64} (hall : frames ⊆ out) : Step frames out (.alloc none) out
  | handOut {out : Finset UInt64} {addr : UInt64} (hmem : addr ∈ frames) (hfresh : addr ∉ out) :
      Step frames out (.alloc (some addr)) (insert addr out)
  | takeBack {out : Finset UInt64} {addr : UInt64} : Step frames out (.free addr) (out.erase addr)

/-- The state `s` represents the outstanding set `out`. -/
structure Refines (s : State) (out : Finset UInt64) : Prop where
  fits : s.base.toNat + s.numFrames * pageSize < 2 ^ 64
  high_clear : ∀ i, s.numFrames ≤ i → s.bitmap.isSet i = false
  hint_lt : 0 < s.numFrames → s.nextHint < s.numFrames
  subset : out ⊆ s.frames
  isSet_iff : ∀ i < s.numFrames, s.bitmap.isSet i = true ↔ s.frameAddr i ∈ out
  free_eq : s.freeFrames.toNat + out.card = s.numFrames

/-! ## Addresses of frames -/

theorem numFrames_lt_capacity (pmm : PmmInner) {i : ℕ} (hi : i < pmm.numFrames) :
    i < 64 * bitmapWords :=
  lt_of_lt_of_le hi (pmm.numFrames_le.trans (by decide))

variable {out : Finset UInt64} {pmm : PmmInner} {s : State}

section

variable (hfits : pmm.base.toNat + pmm.numFrames * pageSize < 2 ^ 64)

include hfits

theorem toNat_frameAddr {idx : ℕ} (hidx : idx < pmm.numFrames) :
    (pmm.frameAddr idx).toNat = pmm.base.toNat + idx * pageSize := by
  have hle : idx * pageSize ≤ pmm.numFrames * pageSize := Nat.mul_le_mul_right _ hidx.le
  have hoff : (UInt64.ofNat (idx * pageSize)).toNat = idx * pageSize :=
    UInt64.toNat_ofNat_of_lt' (by rw [UInt64.size]; omega)
  rw [PmmInner.frameAddr, toNat_add_of_lt (by rw [hoff]; omega), hoff]

theorem frameAddr_inj {i j : ℕ} (hi : i < pmm.numFrames) (hj : j < pmm.numFrames)
    (heq : pmm.frameAddr i = pmm.frameAddr j) :
    i = j := by
  have hnat := congrArg UInt64.toNat heq
  rw [toNat_frameAddr hfits hi, toNat_frameAddr hfits hj] at hnat
  unfold pageSize at hnat
  omega

theorem card_frames :
    pmm.frames.card = pmm.numFrames := by
  have hinj : Set.InjOn pmm.frameAddr (Finset.range pmm.numFrames) := by
    intro i hi j hj heq
    exact frameAddr_inj hfits (by simpa using hi) (by simpa using hj) heq
  rw [PmmInner.frames, Finset.card_image_of_injOn hinj, Finset.card_range]

end

theorem mem_frames {addr : UInt64} :
    addr ∈ pmm.frames ↔ ∃ idx < pmm.numFrames, addr = pmm.frameAddr idx := by
  simp only [PmmInner.frames, Finset.mem_image, Finset.mem_range]
  exact ⟨fun ⟨idx, hidx, heq⟩ => ⟨idx, hidx, heq.symm⟩,
    fun ⟨idx, hidx, heq⟩ => ⟨idx, hidx, heq.symm⟩⟩

/-! ## The circular scan -/

/-- Whatever the hint is, the scan passes every frame. -/
theorem exists_scan_index {n : ℕ} (hint : ℕ) {i : ℕ} (hi : i < n) :
    ∃ j < n, (hint + j) % n = i := by
  have hn : 0 < n := by omega
  refine ⟨(i + (n - hint % n)) % n, Nat.mod_lt _ hn, ?_⟩
  have hrest : hint % n ≤ n := (Nat.mod_lt _ hn).le
  calc (hint + (i + (n - hint % n)) % n) % n
      = (hint % n + (i + (n - hint % n))) % n := by rw [Nat.add_mod_mod, Nat.mod_add_mod]
    _ = (i + n) % n := by congr 1; omega
    _ = i := by rw [Nat.add_mod_right, Nat.mod_eq_of_lt hi]

theorem scan_eq_some {idx : ℕ} (hscan : pmm.scan = some idx) :
    idx < pmm.numFrames ∧ pmm.bitmap.isSet idx = false := by
  obtain ⟨i, hi, rfl⟩ := List.mem_map.mp (List.mem_of_find?_eq_some hscan)
  have hpos : 0 < pmm.numFrames := (Nat.zero_le i).trans_lt (List.mem_range.mp hi)
  exact ⟨Nat.mod_lt _ hpos, by simpa using List.find?_some hscan⟩

theorem scan_eq_none :
    pmm.scan = none ↔ ∀ i < pmm.numFrames, pmm.bitmap.isSet i = true := by
  rw [PmmInner.scan, List.find?_eq_none]
  constructor
  · intro hnone i hi
    obtain ⟨j, hj, rfl⟩ := exists_scan_index pmm.nextHint hi
    simpa using hnone _ (List.mem_map.mpr ⟨j, List.mem_range.mpr hj, rfl⟩)
  · intro hall idx hidx
    obtain ⟨j, hj, rfl⟩ := List.mem_map.mp hidx
    have hpos : 0 < pmm.numFrames := (Nat.zero_le j).trans_lt (List.mem_range.mp hj)
    simpa using hall _ (Nat.mod_lt _ hpos)

/-! ## What one call does -/

/-- `alloc_frame` fails without a change when every frame is in use, and
otherwise takes one clear frame. -/
theorem allocFrame_cases (s : State) :
    ((∀ i < s.numFrames, s.bitmap.isSet i = true) ∧ allocFrame s = (none, s)) ∨
      ∃ idx < s.numFrames, s.bitmap.isSet idx = false ∧
        allocFrame s = (some (s.frameAddr idx),
          { s with
            bitmap := s.bitmap.set idx
            nextHint := (idx + 1) % s.numFrames
            freeFrames := s.freeFrames - 1 }) := by
  by_cases hzero : s.numFrames = 0
  · refine .inl ⟨fun i hi => absurd hi (by omega), ?_⟩
    simp [allocFrame, hzero]
  · cases hscan : s.scan with
    | none => exact .inl ⟨scan_eq_none.mp hscan, by simp [allocFrame, hzero, hscan]⟩
    | some idx =>
      obtain ⟨hidx, hclear⟩ := scan_eq_some hscan
      exact .inr ⟨idx, hidx, hclear, by simp [allocFrame, hzero, hscan]⟩

/-- `free_frame` takes back the addressed frame when it is one of the pool and in
use, and does nothing otherwise. -/
theorem freeFrame_cases (s : State)
    (hfits : s.base.toNat + s.numFrames * pageSize < 2 ^ 64) (addr : UInt64) :
    (∃ idx < s.numFrames, addr = s.frameAddr idx ∧ s.bitmap.isSet idx = true ∧
        freeFrame s addr =
          { s with bitmap := s.bitmap.clear idx, freeFrames := s.freeFrames + 1 }) ∨
      ((∀ idx < s.numFrames, addr = s.frameAddr idx → s.bitmap.isSet idx = false) ∧
        freeFrame s addr = s) := by
  unfold freeFrame
  by_cases hlow : addr < s.base
  · rw [if_pos hlow]
    refine .inr ⟨?_, rfl⟩
    rintro idx hidx rfl
    rw [UInt64.lt_iff_toNat_lt, toNat_frameAddr hfits hidx] at hlow
    omega
  · have hle : s.base ≤ addr := UInt64.not_lt.mp hlow
    have hoff : (addr - s.base).toNat = addr.toNat - s.base.toNat := UInt64.toNat_sub_of_le _ _ hle
    have hbase : s.base.toNat ≤ addr.toNat := UInt64.le_iff_toNat_le.mp hle
    have hdiv : ∀ idx < s.numFrames, addr = s.frameAddr idx →
        (addr.toNat - s.base.toNat) = idx * pageSize := by
      rintro idx hidx rfl
      rw [toNat_frameAddr hfits hidx]
      omega
    rw [if_neg hlow, hoff]
    simp only []
    by_cases halign : (addr.toNat - s.base.toNat) % pageSize = 0
    · rw [if_neg (by simpa using halign)]
      by_cases hpast : s.numFrames ≤ (addr.toNat - s.base.toNat) / pageSize
      · rw [if_pos hpast]
        refine .inr ⟨fun idx hidx heq => ?_, rfl⟩
        rw [hdiv idx hidx heq, Nat.mul_div_cancel _ (by decide)] at hpast
        omega
      · rw [if_neg hpast]
        set idx := (addr.toNat - s.base.toNat) / pageSize with hidx
        have haddr : addr = s.frameAddr idx := by
          have hexact : idx * pageSize = addr.toNat - s.base.toNat :=
            Nat.div_mul_cancel (Nat.dvd_of_mod_eq_zero halign)
          rw [← UInt64.toNat_inj, toNat_frameAddr hfits (not_le.mp hpast)]
          omega
        cases hset : s.bitmap.isSet idx with
        | true => exact .inl ⟨idx, not_le.mp hpast, haddr, hset, by simp⟩
        | false =>
          refine .inr ⟨fun other hother heq => ?_, by simp⟩
          rw [frameAddr_inj hfits hother (not_le.mp hpast) (heq.symm.trans haddr), hset]
    · rw [if_pos halign]
      refine .inr ⟨fun idx hidx heq => ?_, rfl⟩
      rw [hdiv idx hidx heq, Nat.mul_mod_left] at halign
      exact absurd rfl halign

/-! ## The refinement is kept -/

section

variable (href : Refines s out)

include href

theorem Refines.frameAddr_notMem {idx : ℕ} (hidx : idx < s.numFrames)
    (hclear : s.bitmap.isSet idx = false) : s.frameAddr idx ∉ out := by
  intro hmem
  rw [(href.isSet_iff idx hidx).mpr hmem] at hclear
  exact absurd hclear (by decide)

theorem Refines.frames_subset_iff :
    s.frames ⊆ out ↔ ∀ i < s.numFrames, s.bitmap.isSet i = true := by
  constructor
  · intro hall i hi
    exact (href.isSet_iff i hi).mpr (hall (Pmm.mem_frames.mpr ⟨i, hi, rfl⟩))
  · intro hall addr haddr
    obtain ⟨i, hi, rfl⟩ := Pmm.mem_frames.mp haddr
    exact (href.isSet_iff i hi).mp (hall i hi)

/-- An address is outstanding exactly when it is that of a marked frame. -/
theorem Refines.mem_iff {addr : UInt64} :
    addr ∈ out ↔ ∃ idx < s.numFrames, addr = s.frameAddr idx ∧ s.bitmap.isSet idx = true := by
  constructor
  · intro hmem
    obtain ⟨idx, hidx, rfl⟩ := Pmm.mem_frames.mp (href.subset hmem)
    exact ⟨idx, hidx, rfl, (href.isSet_iff idx hidx).mpr hmem⟩
  · rintro ⟨idx, hidx, rfl, hset⟩
    exact (href.isSet_iff idx hidx).mp hset

/-- While some frame is not outstanding the counter is positive, so the
`fetch_sub` does not wrap. -/
theorem Refines.freeFrames_pos {addr : UInt64} (hmem : addr ∈ s.frames) (hfresh : addr ∉ out) :
    0 < s.freeFrames.toNat := by
  have hcard : (insert addr out).card ≤ s.frames.card :=
    Finset.card_le_card (Finset.insert_subset hmem href.subset)
  rw [Finset.card_insert_of_notMem hfresh, card_frames href.fits] at hcard
  have := href.free_eq
  omega

theorem refines_alloc {idx : ℕ} (hidx : idx < s.numFrames) (hclear : s.bitmap.isSet idx = false) :
    Refines
      { s with
        bitmap := s.bitmap.set idx
        nextHint := (idx + 1) % s.numFrames
        freeFrames := s.freeFrames - 1 }
      (insert (s.frameAddr idx) out) := by
  have hfresh := href.frameAddr_notMem hidx hclear
  have hmem : s.frameAddr idx ∈ s.frames := Pmm.mem_frames.mpr ⟨idx, hidx, rfl⟩
  have hcap := numFrames_lt_capacity s.toPmmInner hidx
  refine ⟨href.fits, ?_, fun hpos => Nat.mod_lt _ hpos, Finset.insert_subset hmem href.subset,
    ?_, ?_⟩
  · intro i hi
    have hne : idx ≠ i := by simp only at hi; omega
    rw [Bitmap.isSet_set _ hcap, href.high_clear i hi]
    simp [hne]
  · intro i hi
    rw [Bitmap.isSet_set _ hcap, Bool.or_eq_true, href.isSet_iff i hi, decide_eq_true_eq,
      Finset.mem_insert, or_comm]
    refine or_congr_left ⟨fun heq => by rw [heq]; rfl, fun heq => ?_⟩
    exact (frameAddr_inj href.fits hi hidx heq).symm
  · have hpos := href.freeFrames_pos hmem hfresh
    have hle : (1 : UInt64) ≤ s.freeFrames := by
      rw [UInt64.le_iff_toNat_le]
      exact hpos
    have hsub : (s.freeFrames - 1).toNat = s.freeFrames.toNat - 1 := UInt64.toNat_sub_of_le _ _ hle
    have := href.free_eq
    rw [Finset.card_insert_of_notMem hfresh]
    simp only [hsub]
    omega

theorem refines_free {idx : ℕ} (hidx : idx < s.numFrames) (hset : s.bitmap.isSet idx = true) :
    Refines { s with bitmap := s.bitmap.clear idx, freeFrames := s.freeFrames + 1 }
      (out.erase (s.frameAddr idx)) := by
  have hmem : s.frameAddr idx ∈ out := (href.isSet_iff idx hidx).mp hset
  have hcap := numFrames_lt_capacity s.toPmmInner hidx
  refine ⟨href.fits, ?_, href.hint_lt, (Finset.erase_subset _ _).trans href.subset, ?_, ?_⟩
  · intro i hi
    rw [Bitmap.isSet_clear _ hcap, href.high_clear i hi, Bool.false_and]
  · intro i hi
    rw [Bitmap.isSet_clear _ hcap, Bool.and_eq_true, href.isSet_iff i hi, decide_eq_true_eq,
      Finset.mem_erase, and_comm]
    refine and_congr_left fun _ => not_congr ⟨fun heq => by rw [heq]; rfl, fun heq => ?_⟩
    exact (frameAddr_inj href.fits hi hidx heq).symm
  · have hcard := Finset.card_erase_add_one hmem
    have hfree := href.free_eq
    have hmax := s.numFrames_le
    have hadd : (s.freeFrames + 1).toNat = s.freeFrames.toNat + 1 := by
      refine toNat_add_of_lt ?_
      have : maxFrames = 65536 := by decide
      have : (1 : UInt64).toNat = 1 := rfl
      omega
    simp only [hadd]
    omega

end

/-! ## The state after `init` -/

theorem refines_fresh {base : UInt64} {numFrames : ℕ} (hle : numFrames ≤ maxFrames)
    (hfits : base.toNat + numFrames * pageSize < 2 ^ 64) :
    Refines (State.fresh base numFrames hle) ∅ := by
  refine ⟨hfits, fun i _ => Bitmap.isSet_replicate_zero i, fun hpos => hpos, by simp, ?_, ?_⟩
  · intro i _
    simp [State.fresh]
  · have hmax : maxFrames = 65536 := by decide
    simp only [State.fresh, Finset.card_empty, Nat.add_zero]
    exact UInt64.toNat_ofNat_of_lt' (by rw [UInt64.size]; omega)

/-- The pool ends inside the 64-bit address space: it was cut out below the
bank's end. -/
theorem poolFrames_fits (bank : MemoryRegion) (kernelEnd : UInt64) :
    (poolBase bank kernelEnd).toNat + poolFrames bank kernelEnd * pageSize < 2 ^ 64 := by
  have hbytes : poolFrames bank kernelEnd * pageSize ≤
      (bankEnd bank).toNat - (poolBase bank kernelEnd).toNat := by
    rw [← toNat_saturatingSub]
    refine le_trans (Nat.mul_le_mul_right _ (min_le_left _ _)) ?_
    exact (Nat.div_mul_le_self _ _).trans (min_le_left _ _)
  have hend := (bankEnd bank).toNat_lt
  have hbase := (poolBase bank kernelEnd).toNat_lt
  omega

theorem refines_init (memory : MemoryMap) (kernelEnd : UInt64) :
    Refines (init memory kernelEnd State.new) ∅ := by
  unfold init
  cases memory.largest with
  | none => exact refines_fresh _ (by decide)
  | some bank => exact refines_fresh _ (poolFrames_fits bank kernelEnd)

/-! ## Runs -/

/-- Every call of the code is a step of the specification. -/
theorem step_refines {frames : Finset UInt64} (s : State) (out : Finset UInt64) (event : Event)
    (next : State) (hrel : s.frames = frames ∧ Refines s out) (step : Step s event next) :
    ∃ out', Outstanding.Step frames out event out' ∧ next.frames = frames ∧ Refines next out' := by
  obtain ⟨rfl, href⟩ := hrel
  cases step with
  | alloc =>
    rcases allocFrame_cases s with ⟨hall, heq⟩ | ⟨idx, hidx, hclear, heq⟩
    · rw [heq]
      exact ⟨out, .exhausted (href.frames_subset_iff.mpr hall), rfl, href⟩
    · rw [heq]
      exact ⟨_, .handOut (mem_frames.mpr ⟨idx, hidx, rfl⟩) (href.frameAddr_notMem hidx hclear),
        rfl, refines_alloc href hidx hclear⟩
  | free addr =>
    rcases freeFrame_cases s href.fits addr with ⟨idx, hidx, rfl, hset, heq⟩ | ⟨hnone, heq⟩
    · rw [heq]
      exact ⟨_, .takeBack, rfl, refines_free href hidx hset⟩
    · rw [heq]
      refine ⟨_, .takeBack, rfl, ?_⟩
      -- an address that names no marked frame is not outstanding
      rw [Finset.erase_eq_of_notMem]
      · exact href
      · intro hmem
        obtain ⟨idx, hidx, heq, hset⟩ := href.mem_iff.mp hmem
        exact absurd hset (by simp [hnone idx hidx heq])

/-- Every run from `init` is a run of the specification. -/
theorem run_refines {memory : MemoryMap} {kernelEnd : UInt64} {events : List Event}
    (run : Run Step (init memory kernelEnd State.new) events s) :
    ∃ out, Run (Outstanding.Step s.frames) ∅ events out ∧ Refines s out := by
  obtain ⟨out, hrun, hframes, href⟩ := run.simulation (fun state out =>
    state.frames = (init memory kernelEnd State.new).frames ∧ Refines state out)
    ⟨rfl, refines_init memory kernelEnd⟩ step_refines
  exact ⟨out, hframes ▸ hrun, href⟩

/-- **The allocator refines a set of outstanding frames.**  In every state reached
from `init`, `out` being the frames handed out and not taken back: the counter,
the unused part of the bitmap and the hint are as they should be; `alloc_frame`
fails exactly when all managed frames are outstanding and otherwise hands out a
fresh one, marking it and nothing else; `free_frame` unmarks exactly the
addressed frame when it is outstanding and otherwise leaves the state alone. -/
theorem reachable_outstanding (memory : MemoryMap) (kernelEnd : UInt64) (events : List Event)
    (s : State) (run : Run Step (init memory kernelEnd State.new) events s) :
    ∃ out : Finset UInt64, Run (Outstanding.Step s.frames) ∅ events out ∧
      (out ⊆ s.frames ∧ s.frames.card = s.numFrames ∧
        s.freeFrames.toNat = s.numFrames - out.card ∧ out.card ≤ s.numFrames) ∧
      (∀ i, s.numFrames ≤ i → s.bitmap.isSet i = false) ∧
      (0 < s.numFrames → s.nextHint < s.numFrames) ∧
      ((allocFrame s).1 = none ↔ s.frames ⊆ out) ∧
      ((allocFrame s).1 = none → (allocFrame s).2 = s) ∧
      (∀ addr, (allocFrame s).1 = some addr →
        ∃ idx < s.numFrames, addr.toNat = s.base.toNat + idx * pageSize ∧ addr ∉ out ∧
          0 < s.freeFrames.toNat ∧
          (∀ j, (allocFrame s).2.bitmap.isSet j = (s.bitmap.isSet j || decide (idx = j))) ∧
          Refines (allocFrame s).2 (insert addr out)) ∧
      (∀ addr ∈ out,
        ∃ idx < s.numFrames, addr.toNat = s.base.toNat + idx * pageSize ∧
          freeFrame s addr =
            { s with bitmap := s.bitmap.clear idx, freeFrames := s.freeFrames + 1 } ∧
          (∀ j, (freeFrame s addr).bitmap.isSet j = (s.bitmap.isSet j && decide (idx ≠ j))) ∧
          Refines (freeFrame s addr) (out.erase addr)) ∧
      (∀ addr, addr ∉ out → freeFrame s addr = s) := by
  obtain ⟨out, hspec, href⟩ := run_refines run
  have hcard : out.card ≤ s.numFrames := by
    rw [← card_frames href.fits]
    exact Finset.card_le_card href.subset
  have hfree := href.free_eq
  refine ⟨out, hspec, ⟨href.subset, card_frames href.fits, by omega, hcard⟩, href.high_clear,
    href.hint_lt, ?_, ?_, ?_, ?_, ?_⟩
  · rcases allocFrame_cases s with ⟨hall, heq⟩ | ⟨idx, hidx, hclear, heq⟩
    · simp only [heq, true_iff]
      exact href.frames_subset_iff.mpr hall
    · simp only [heq, reduceCtorEq, false_iff]
      exact fun hall => href.frameAddr_notMem hidx hclear (hall (mem_frames.mpr ⟨idx, hidx, rfl⟩))
  · rcases allocFrame_cases s with ⟨_, heq⟩ | ⟨_, _, _, heq⟩
    · rw [heq]
      exact fun _ => rfl
    · rw [heq]
      exact fun hnone => absurd hnone (Option.some_ne_none _)
  · rcases allocFrame_cases s with ⟨_, heq⟩ | ⟨idx, hidx, hclear, heq⟩
    · rw [heq]
      exact fun addr haddr => absurd haddr.symm (Option.some_ne_none addr)
    · rw [heq]
      rintro addr ⟨rfl⟩
      have hfresh := href.frameAddr_notMem hidx hclear
      exact ⟨idx, hidx, toNat_frameAddr href.fits hidx, hfresh,
        href.freeFrames_pos (mem_frames.mpr ⟨idx, hidx, rfl⟩) hfresh,
        Bitmap.isSet_set _ (numFrames_lt_capacity _ hidx), refines_alloc href hidx hclear⟩
  · intro addr hmem
    rcases freeFrame_cases s href.fits addr with ⟨idx, hidx, rfl, hset, heq⟩ | ⟨hnone, _⟩
    · rw [heq]
      exact ⟨idx, hidx, toNat_frameAddr href.fits hidx, rfl,
        Bitmap.isSet_clear _ (numFrames_lt_capacity _ hidx), refines_free href hidx hset⟩
    · obtain ⟨idx, hidx, heq, hset⟩ := href.mem_iff.mp hmem
      exact absurd hset (by simp [hnone idx hidx heq])
  · intro addr hnot
    rcases freeFrame_cases s href.fits addr with ⟨idx, hidx, rfl, hset, _⟩ | ⟨_, heq⟩
    · exact absurd ((href.isSet_iff idx hidx).mp hset) hnot
    · exact heq

/-- One 12 KiB bank. -/
def smallBank : MemoryMap := ⟨[⟨0x1000, 0x3000⟩], by decide, by decide⟩

/-- A frame of a three-frame pool handed out and taken back. -/
theorem smallBank_outstanding :
    ∃ s : State, s.numFrames = 3 ∧
      ∃ out, Run (Outstanding.Step s.frames) ∅ [.alloc (some 0x1000), .free 0x1000] out ∧
        s.freeFrames.toNat = s.numFrames - out.card := by
  have hrun : Run Step (init smallBank 0 State.new) [.alloc (some 0x1000), .free 0x1000]
      (freeFrame (allocFrame (init smallBank 0 State.new)).2 0x1000) :=
    Run.nil.snoc (Step.alloc _) |>.snoc (Step.free _ 0x1000)
  obtain ⟨out, hspec, ⟨_, _, hfree, _⟩, _⟩ := reachable_outstanding smallBank 0 _ _ hrun
  exact ⟨_, by decide +kernel, out, hspec, hfree⟩

end Hyperion.Mm.Pmm
