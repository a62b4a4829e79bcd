import Hyperion.Hal.DtbProps

/-!
# The device-tree parser is safe on any blob

Whatever bytes the firmware hands over, `parse_or_fallback` returns: no access is
out of range, no addition overflows and both loops end.  The argument is one
invariant per loop.  A cursor may run past the block, but by less than the
largest property length (`reach`), which keeps every sum far below 2^64; the depth
stays below `MAX_DEPTH`, so the per-depth arrays are indexed in range.  Every turn
that goes round again moves the cursor by at least the four bytes of a token that
lay inside the block, which bounds the number of turns.
-/

namespace Hyperion.Hal.Dtb

open Hyperion.Lib

/-- How far a cursor into a block can get. -/
def reach (block : List UInt8) : ℕ := block.length + 2 ^ 33

section Cursors

variable {block : List UInt8} {cursor : ℕ}

theorem le_roundUp4 (n : ℕ) : n ≤ roundUp4 n := by
  unfold roundUp4
  omega

theorem roundUp4_le (n : ℕ) : roundUp4 n ≤ n + 3 := by
  unfold roundUp4
  omega

theorem skipName_eq {name : String} (hlt : cursor + (name.utf8ByteSize + 1) + 3 < usizeBound) :
    skipName cursor name = .ok (roundUp4 (cursor + (name.utf8ByteSize + 1))) := by
  unfold skipName
  rw [addUsize_of_lt (by omega)]
  simp only [bind, Except.bind]
  rw [addUsize_of_lt (by omega)]
  exact align4_eq hlt

/-- The name of a node leaves the cursor within reach. -/
theorem skipName_cstring (hblock : block.length ≤ 2 ^ 32) (hcursor : cursor ≤ block.length) :
    ∃ next, skipName cursor (cstring block cursor) = .ok next ∧ cursor < next ∧
      next ≤ reach block := by
  have hname := utf8ByteSize_cstring_le block cursor
  have hbound : usizeBound = 2 ^ 64 := rfl
  refine ⟨_, skipName_eq (by omega), ?_, ?_⟩
  · have := le_roundUp4 (cursor + ((cstring block cursor).utf8ByteSize + 1))
    omega
  · have := roundUp4_le (cursor + ((cstring block cursor).utf8ByteSize + 1))
    unfold reach
    omega

end Cursors

/-! ## Skipping a subtree -/

/-- The invariant of the skipping loop entered at `start`. -/
structure SkipInv (block : List UInt8) (start : ℕ) (state : ℕ × ℕ) : Prop where
  start_le : start ≤ state.1
  cursor_le : state.1 ≤ reach block
  nesting_le : state.2 ≤ state.1 + 1

/-- Where the skipping loop may leave the cursor. -/
def SkipPost (block : List UInt8) (start : ℕ) (result : Option ℕ) : Prop :=
  ∀ cursor, result = some cursor → start ≤ cursor ∧ cursor ≤ reach block

theorem skipToken_returns {block : List UInt8} (hblock : block.length ≤ 2 ^ 32)
    (token : UInt32) {cursor nesting : ℕ} (hcursor : cursor ≤ block.length)
    (hnesting : nesting ≤ cursor + 1) :
    Returns (skipToken block token cursor nesting) fun turn =>
      match turn with
      | .again next => cursor ≤ next.1 ∧ next.1 ≤ reach block ∧ next.2 ≤ next.1 + 1
      | .leave result => result = none := by
  have hbound : usizeBound = 2 ^ 64 := rfl
  have hlength : block.length < usizeBound := by omega
  have hreach : reach block = block.length + 2 ^ 33 := rfl
  simp only [skipToken, cstr_eq, be32_eq hlength, bind, Except.bind]
  split
  · obtain ⟨next, hskip, hlt, hle⟩ := skipName_cstring hblock hcursor
    rw [hskip]
    simp only
    rw [addUsize_of_lt (by omega)]
    exact returns_pure ⟨hlt.le, hle, by omega⟩
  split
  · exact returns_pure ⟨le_refl _, by omega, by omega⟩
  split
  · cases word32 block cursor with
    | none => exact returns_pure rfl
    | some plen =>
      have hplen := plen.toNat_lt
      have hge := le_roundUp4 (cursor + (8 + plen.toNat))
      have hle := roundUp4_le (cursor + (8 + plen.toNat))
      simp only
      rw [addUsize_of_lt (by omega)]
      simp only
      rw [addUsize_of_lt (by omega)]
      simp only
      rw [align4_eq (by omega)]
      exact returns_pure ⟨by omega, by omega, by omega⟩
  split
  · exact returns_pure ⟨le_refl _, by omega, by omega⟩
  · exact returns_pure rfl

theorem skipTurn_returns {block : List UInt8} (hblock : block.length ≤ 2 ^ 32) {start : ℕ}
    (state : ℕ × ℕ) (hinv : SkipInv block start state) :
    Returns (skipTurn block state)
      (TurnPost (SkipInv block start) (fun state => block.length - state.1) (SkipPost block start)
        state) := by
  obtain ⟨hstart, hcursor, hnesting⟩ := hinv
  have hbound : usizeBound = 2 ^ 64 := rfl
  have hlength : block.length < usizeBound := by omega
  have hreach : reach block = block.length + 2 ^ 33 := rfl
  have hhere : SkipPost block start (some state.1) := by
    intro found hfound
    cases hfound
    exact ⟨hstart, hcursor⟩
  have hnone : SkipPost block start none := by
    intro found hfound
    cases hfound
  simp only [skipTurn]
  split
  · exact returns_pure hhere
  rw [addUsize_of_lt (by omega)]
  simp only [bind, Except.bind]
  split
  · exact returns_pure hhere
  rename_i hinside
  rw [be32_eq hlength]
  cases word32 block state.1 with
  | none => exact returns_pure hnone
  | some token =>
    refine (skipToken_returns hblock token (by omega) (by omega)).mono ?_
    intro turn hturn
    cases turn with
    | leave result =>
      show SkipPost block start result
      rw [hturn]
      exact hnone
    | again next =>
      obtain ⟨hge, hle, hopen⟩ := hturn
      refine ⟨⟨by omega, hle, hopen⟩, ?_⟩
      -- the token itself lay inside the block
      show block.length - next.1 < block.length - state.1
      omega

theorem skip_returns {block : List UInt8} (hblock : block.length ≤ 2 ^ 32) {start : ℕ}
    (hstart : start ≤ reach block) :
    Returns (loop (skipTurn block) (block.length + 1) (start, 1)) (SkipPost block start) :=
  returns_loop (skipTurn_returns hblock) _ _ ⟨le_refl _, hstart, by simp⟩
    (Nat.lt_succ_of_le (Nat.sub_le _ _))

/-! ## The main loop -/

section Main

variable {ι : Type} {block strings : List UInt8}

/-- The invariant of the main loop. -/
structure WalkInv (block : List UInt8) (s : Walk ι) : Prop where
  cursor_le : s.cursor ≤ reach block
  depth_lt : s.depth < maxDepth

/-- A turn whose token ended at `cursor` leaves the loop or does not fall back. -/
def Progress (block : List UInt8) (cursor : ℕ) : Turn (Walk ι) ι → Prop
  | .again next => WalkInv block next ∧ cursor ≤ next.cursor
  | .leave _ => True

theorem beginTurn_returns (hblock : block.length ≤ 2 ^ 32) {s : Walk ι}
    (hcursor : s.cursor ≤ block.length) (hdepth : s.depth < maxDepth) :
    Returns (beginTurn block s) (Progress block s.cursor) := by
  have hbound : usizeBound = 2 ^ 64 := rfl
  have hmax : maxDepth = 8 := rfl
  obtain ⟨after, hskip, hlt, hle⟩ := skipName_cstring hblock hcursor
  simp only [beginTurn, cstr_eq, bind, Except.bind, hskip]
  rw [addUsize_of_lt (by omega)]
  simp only
  split
  · obtain ⟨result, hloop, hpost⟩ := skip_returns hblock hle
    rw [hloop]
    cases result with
    | none => exact returns_pure trivial
    | some cursor =>
      obtain ⟨hge, hcur⟩ := hpost cursor rfl
      exact returns_pure ⟨⟨hcur, hdepth⟩, (lt_of_lt_of_le hlt hge).le⟩
  · rename_i hshallow
    rw [openNode_eq (s := { s with cursor := after }) _ (Nat.not_le.mp hshallow)]
    exact returns_pure ⟨⟨hle, Nat.not_le.mp hshallow⟩, hlt.le⟩

theorem propTurn_returns (hblock : block.length ≤ 2 ^ 32) {s : Walk ι}
    (hcursor : s.cursor ≤ block.length) (hdepth : s.depth < maxDepth) :
    Returns (propTurn block strings s) (Progress block s.cursor) := by
  have hbound : usizeBound = 2 ^ 64 := rfl
  have hlength : block.length < usizeBound := by omega
  have hreach : reach block = block.length + 2 ^ 33 := rfl
  simp only [propTurn, be32_eq hlength, bind, Except.bind]
  cases word32 block s.cursor with
  | none => exact returns_pure trivial
  | some plen =>
    have hplen := plen.toNat_lt
    simp only
    rw [addUsize_of_lt (by omega)]
    simp only
    cases word32 block (s.cursor + 4) with
    | none => exact returns_pure trivial
    | some pnameoff =>
      simp only
      rw [addUsize_of_lt (by omega)]
      simp only
      rw [addUsize_of_lt (by omega)]
      simp only
      split
      · exact returns_pure trivial
      · rename_i hinside
        have hge := le_roundUp4 (s.cursor + 8 + plen.toNat)
        have hle := roundUp4_le (s.cursor + 8 + plen.toNat)
        rw [slice_of_le (by omega) (by omega)]
        simp only [cstr_eq]
        rw [handleProp_eq _ hdepth (by simp; omega)]
        simp only
        rw [align4_eq (by omega)]
        refine returns_pure ⟨⟨?_, hdepth⟩, ?_⟩
        · show roundUp4 _ ≤ reach block
          omega
        · show s.cursor ≤ roundUp4 _
          omega

theorem tokenTurn_returns (act : ι → NodeCall → ι) (hblock : block.length ≤ 2 ^ 32)
    (token : UInt32) {s : Walk ι} (hcursor : s.cursor ≤ block.length)
    (hdepth : s.depth < maxDepth) :
    Returns (tokenTurn act block strings token s) (Progress block s.cursor) := by
  have hreach : reach block = block.length + 2 ^ 33 := rfl
  simp only [tokenTurn, closeNode_eq act hdepth, bind, Except.bind]
  split
  · exact beginTurn_returns hblock hcursor hdepth
  split
  · split
    · exact returns_pure trivial
    · refine returns_pure ⟨⟨?_, lt_of_le_of_lt (Nat.sub_le _ _) hdepth⟩, le_refl _⟩
      show s.cursor ≤ reach block
      omega
  split
  · exact propTurn_returns hblock hcursor hdepth
  split
  · exact returns_pure ⟨⟨by omega, hdepth⟩, le_refl _⟩
  · exact returns_pure trivial

theorem walkTurn_returns (act : ι → NodeCall → ι) (hblock : block.length ≤ 2 ^ 32) (s : Walk ι)
    (hinv : WalkInv block s) :
    Returns (walkTurn act block strings s)
      (TurnPost (WalkInv block) (fun s => block.length - s.cursor) (fun _ => True) s) := by
  have hbound : usizeBound = 2 ^ 64 := rfl
  have hlength : block.length < usizeBound := by omega
  have hreach : reach block = block.length + 2 ^ 33 := rfl
  have hcursor := hinv.cursor_le
  simp only [walkTurn, bind, Except.bind]
  rw [addUsize_of_lt (by omega)]
  simp only
  split
  · exact returns_pure trivial
  rename_i hinside
  rw [be32_eq hlength]
  cases word32 block s.cursor with
  | none => exact returns_pure trivial
  | some token =>
    refine (tokenTurn_returns act (s := { s with cursor := s.cursor + 4 }) hblock token
      (Nat.not_lt.mp hinside) hinv.depth_lt).mono ?_
    intro turn hturn
    cases turn with
    | leave result => trivial
    | again next =>
      obtain ⟨hnext, hle⟩ := hturn
      refine ⟨hnext, ?_⟩
      -- the token itself lay inside the block
      have hmoved : s.cursor + 4 ≤ next.cursor := hle
      show block.length - next.cursor < block.length - s.cursor
      omega

theorem walkWith_returns (act : ι → NodeCall → ι) (hblock : block.length ≤ 2 ^ 32) (info : ι) :
    Returns (walkWith act block strings info) fun _ => True :=
  returns_loop (walkTurn_returns act hblock) _ _ ⟨Nat.zero_le _, Nat.succ_pos 7⟩
    (Nat.lt_succ_of_le (Nat.sub_le _ _))

end Main

/-! ## The entry point -/

/-- The `totalsize` field of the header at the start of `memory`. -/
def totalsizeOf (memory : List UInt8) : ℕ := fromBe (bytesAt memory 4 4)

theorem totalsizeOf_lt (memory : List UInt8) : totalsizeOf memory < 2 ^ 32 := by
  calc totalsizeOf memory < 256 ^ (bytesAt memory 4 4).reverse.length := fromLe_lt _
    _ ≤ 256 ^ 4 := Nat.pow_le_pow_right (by norm_num) (by simp [bytesAt])
    _ = 2 ^ 32 := by norm_num

theorem word32_totalsize {memory : List UInt8} (hheader : headerSize ≤ memory.length) :
    word32 (memory.take headerSize) 4 = some (UInt32.ofNat (totalsizeOf memory)) := by
  have hbytes : bytesAt (memory.take headerSize) 4 4 = bytesAt memory 4 4 := by
    rw [bytesAt, bytesAt, List.drop_take, List.take_take]
    rfl
  have hfits : 4 + 4 ≤ (memory.take headerSize).length := by
    rw [List.length_take, min_eq_left hheader]
    decide
  rw [word32, wordAt, if_pos hfits, hbytes]
  rfl

theorem parseBlob_returns (info : BootInfo) {totalsize : ℕ} {blob : List UInt8}
    (hlength : blob.length = totalsize) (htotal : totalsize < 2 ^ 32) :
    Returns (parseBlob info totalsize blob) fun _ => True := by
  have hbound : usizeBound = 2 ^ 64 := rfl
  have husize : blob.length < usizeBound := by omega
  simp only [parseBlob, be32_eq husize, bind, Except.bind]
  cases word32 blob 8 with
  | none => exact returns_pure trivial
  | some offStruct =>
  cases word32 blob 12 with
  | none => exact returns_pure trivial
  | some offStrings =>
  cases word32 blob 36 with
  | none => exact returns_pure trivial
  | some sizeStruct =>
  cases word32 blob 32 with
  | none => exact returns_pure trivial
  | some stringsSize =>
  simp only
  split
  · exact returns_pure trivial
  · rename_i hinside
    have hoffStruct := offStruct.toNat_lt
    have hoffStrings := offStrings.toNat_lt
    have hsizeStruct := sizeStruct.toNat_lt
    have hstringsSize := stringsSize.toNat_lt
    simp only [saturatingAddUsize] at hinside
    rw [addUsize_of_lt (by omega)]
    simp only
    rw [slice_of_le (by omega) (by omega)]
    simp only
    rw [addUsize_of_lt (by omega)]
    simp only
    rw [slice_of_le (by omega) (by omega)]
    refine walkWith_returns actOnNode ?_ info
    rw [List.length_take, List.length_drop]
    omega

/-- **`parse_or_fallback` is safe on every blob.**  For any memory of which the
header and the advertised `totalsize` are readable, it returns, and the memory map
it returns has at most eight regions, none of them empty. -/
theorem parseOrFallback_safe (dtbAddr : UInt64) (memory : List UInt8)
    (hheader : headerSize ≤ memory.length) (htotal : totalsizeOf memory ≤ memory.length) :
    Returns (parseOrFallback dtbAddr memory) fun info =>
      info.memory.regions.length ≤ 8 ∧ ∀ region ∈ info.memory.regions, 0 < region.size := by
  suffices hreturns : Returns (parseOrFallback dtbAddr memory) fun _ => True from
    hreturns.mono fun info _ => ⟨info.memory.length_le, info.memory.size_pos⟩
  have hsize : headerSize = 40 := rfl
  have husize : (memory.take headerSize).length < usizeBound := by
    have hbound : usizeBound = 2 ^ 64 := rfl
    rw [List.length_take]
    omega
  have htoNat : (UInt32.ofNat (totalsizeOf memory)).toNat = totalsizeOf memory :=
    UInt32.toNat_ofNat_of_lt' (totalsizeOf_lt memory)
  simp only [parseOrFallback]
  split
  · exact returns_pure trivial
  simp only [sliceAt, bind, Except.bind]
  rw [slice_of_le (Nat.zero_le _) hheader]
  simp only [List.drop_zero, Nat.sub_zero, be32_eq husize, word32_totalsize hheader, htoNat]
  cases word32 (memory.take headerSize) 0 with
  | none => exact returns_pure trivial
  | some magic =>
    simp only
    split
    · exact returns_pure trivial
    split
    · exact returns_pure trivial
    · rw [slice_of_le (Nat.zero_le _) htotal]
      refine parseBlob_returns _ ?_ (totalsizeOf_lt memory)
      simpa using htotal

/-- A blob whose root node has one property, of an advertised length of 2^32 - 1. -/
def overlongBlob : List UInt8 :=
  -- header: magic, totalsize 60, struct block at 40, strings block at 60
  [0xd0, 0x0d, 0xfe, 0xed, 0, 0, 0, 60, 0, 0, 0, 40, 0, 0, 0, 60, 0, 0, 0, 40, 0, 0, 0, 17,
    0, 0, 0, 16, 0, 0, 0, 0, 0, 0, 0, 0, 0, 0, 0, 20] ++
  -- FDT_BEGIN_NODE "" and FDT_PROP
  [0, 0, 0, 1, 0, 0, 0, 0, 0, 0, 0, 3, 255, 255, 255, 255, 0, 0, 0, 0]

theorem parseOrFallback_safe_overlongBlob :
    headerSize ≤ overlongBlob.length ∧ totalsizeOf overlongBlob = overlongBlob.length ∧
      Returns (parseOrFallback 0x44000000 overlongBlob) fun info =>
        info.memory.regions.length ≤ 8 ∧ ∀ region ∈ info.memory.regions, 0 < region.size :=
  ⟨by decide, by decide, parseOrFallback_safe _ _ (by decide) (by decide)⟩

end Hyperion.Hal.Dtb
