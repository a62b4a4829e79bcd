import Hyperion.Efi.Loader

/-!
# Where the loader writes

The loader asks for the pages of all loaded segments: from the first page of the lowest to the
last page of the highest (`Spans`).  A segment counts for that if its size in memory is not zero,
and by that size.  But it is copied if its size in the file is not zero, and by that size.  So a
copy leaves the pages if the file has more bytes of a segment than memory should have, and no
other segment reaches as far (`loadKernelElf_contained_iff`).
-/

namespace Hyperion.Efi

open Hyperion.Lib Attempt

/-! ## Program headers -/

namespace Elf64Phdr

/-- The first loop counts the segment. -/
def Loaded (phdr : Elf64Phdr) : Prop := phdr.pType = ptLoad ∧ phdr.pMemsz ≠ 0

/-- The second loop copies the segment, if the image has it. -/
def Copied (phdr : Elf64Phdr) : Prop := phdr.pType = ptLoad ∧ phdr.pFilesz ≠ 0

/-- The bytes of the segment are in an image of `len` bytes. -/
def FileInside (phdr : Elf64Phdr) (len : ℕ) : Prop :=
  phdr.pOffset.toNat + phdr.pFilesz.toNat < 2 ^ 64 ∧
    phdr.pOffset.toNat + phdr.pFilesz.toNat ≤ len

instance (phdr : Elf64Phdr) : Decidable phdr.Loaded := inferInstanceAs (Decidable (_ ∧ _))

instance (phdr : Elf64Phdr) : Decidable phdr.Copied := inferInstanceAs (Decidable (_ ∧ _))

instance (phdr : Elf64Phdr) (len : ℕ) : Decidable (phdr.FileInside len) :=
  inferInstanceAs (Decidable (_ ∧ _))

/-- Where the first page of the segment starts. -/
def pageStart (phdr : Elf64Phdr) : ℕ := phdr.pPaddr.toNat / 4096 * 4096

/-- Where the last page of the segment ends. -/
def pageEnd (phdr : Elf64Phdr) : ℕ :=
  (phdr.pPaddr.toNat + phdr.pMemsz.toNat + 4095) / 4096 * 4096

/-- The copy of the segment. -/
def copy (phdr : Elf64Phdr) : Access :=
  .copy phdr.pOffset.toNat phdr.pPaddr.toNat phdr.pFilesz.toNat

/-- Some loaded segment has its first page before the copy, and some has its last page behind
it. -/
def Covered (phdr : Elf64Phdr) (phdrs : List Elf64Phdr) : Prop :=
  (∃ low ∈ phdrs, low.Loaded ∧ low.pageStart ≤ phdr.pPaddr.toNat) ∧
    ∃ high ∈ phdrs, high.Loaded ∧ phdr.pPaddr.toNat + phdr.pFilesz.toNat ≤ high.pageEnd

instance (phdr : Elf64Phdr) (phdrs : List Elf64Phdr) : Decidable (phdr.Covered phdrs) :=
  inferInstanceAs (Decidable ((∃ _ ∈ _, _) ∧ ∃ _ ∈ _, _))

end Elf64Phdr

/-- The header of an image. -/
def ehdrOf (elf : List UInt8) : Elf64Ehdr := .ofBytes (bytesAt elf 0 ehdrSize)

/-- The program headers of an image. -/
def phdrsOf (elf : List UInt8) : List Elf64Phdr :=
  (List.range (ehdrOf elf).ePhnum.toNat).filterMap fun i => (readPhdr elf (ehdrOf elf) i).result

/-- Every segment that is copied before the image turns out to be too short is covered. -/
def CopiesCovered (elf : List UInt8) : Prop :=
  ∀ phdr ∈ (phdrsOf elf).takeWhile (fun phdr => decide (phdr.Copied → phdr.FileInside elf.length)),
    phdr.Copied → phdr.Covered (phdrsOf elf)

instance (elf : List UInt8) : Decidable (CopiesCovered elf) :=
  inferInstanceAs (Decidable (∀ _ ∈ _, _))

/-- What is read lies in the image, and what is written lies in pages that were granted. -/
def Contained (elf : List UInt8) (trace : List Access) : Prop :=
  (∀ access ∈ trace, ∀ offset size, access.reads = some (offset, size) →
    offset + size ≤ elf.length) ∧
  ∀ access ∈ trace, ∀ addr size, access.writes = some (addr, size) →
    ∃ start pages, .allocate start pages ∈ trace ∧ start ≤ addr ∧
      addr + size ≤ start + 4096 * pages

/-! ## Reading the headers -/

section Reading

variable {elf : List UInt8} {ehdr : Elf64Ehdr} {i : ℕ}

/-- A range of the image is read. -/
def ReadsImage (elf : List UInt8) (access : Access) : Prop :=
  ∃ offset size, access = .read offset size ∧ offset + size ≤ elf.length

theorem all_lift_bind {α β : Type} {p : Access → Prop} {x : Option α} {f : α → Loading β}
    (hrest : ∀ a, x = some a → (f a).All p) : (liftM x >>= f : Loading β).All p :=
  all_bind.mpr ⟨all_of_trace_eq_nil rfl, hrest⟩

theorem all_readAt (elf : List UInt8) (offset size : ℕ) :
    (readAt elf offset size).All (ReadsImage elf) := by
  refine all_lift_bind fun stop hstop => ?_
  unfold checkedAddUsize at hstop
  split at hstop
  case isFalse => cases hstop
  case isTrue =>
    cases hstop
    split
    · exact all_of_trace_eq_nil rfl
    · rename_i hinside
      refine all_bind.mpr ⟨all_emit.mpr ?_, fun _ _ => all_of_trace_eq_nil rfl⟩
      exact ⟨offset, size, rfl, not_lt.mp hinside⟩

theorem all_readPhdr (elf : List UInt8) (ehdr : Elf64Ehdr) (i : ℕ) :
    (readPhdr elf ehdr i).All (ReadsImage elf) := by
  refine all_lift_bind fun skip _ => all_lift_bind fun off _ => all_bind.mpr ⟨all_readAt _ _ _, ?_⟩
  exact fun bytes _ => all_of_trace_eq_nil rfl

theorem all_extentTurn (elf : List UInt8) (ehdr : Elf64Ehdr) (extent : UInt64 × UInt64) (i : ℕ) :
    (extentTurn elf ehdr extent i).All (ReadsImage elf) := by
  refine all_bind.mpr ⟨all_readPhdr elf ehdr i, fun phdr _ => ?_⟩
  split
  · exact all_of_trace_eq_nil rfl
  · apply all_lift_bind
    intro last _
    apply all_lift_bind
    intro stop _
    exact all_of_trace_eq_nil rfl

end Reading

/-! ## The range of addresses -/

section Range

theorem toNat_alignDown (value : UInt64) :
    (alignDown value efiPageSize).toNat = value.toNat / 4096 * 4096 :=
  toNat_and_not_mask (k := 12) rfl

theorem alignUp_eq_some {value stop : UInt64} :
    alignUp value efiPageSize = some stop ↔
      value.toNat + 4095 < 2 ^ 64 ∧ stop.toNat = (value.toNat + 4095) / 4096 * 4096 := by
  have hmask : (efiPageSize - 1).toNat = 4095 := rfl
  unfold alignUp
  rw [Option.map_eq_some_iff]
  constructor
  · rintro ⟨padded, hpadded, rfl⟩
    rw [checkedAdd_eq_some, hmask] at hpadded
    have hlt := padded.toNat_lt
    rw [toNat_alignDown, hpadded]
    omega
  · rintro ⟨hfits, hstop⟩
    refine ⟨value + (efiPageSize - 1), ?_, ?_⟩
    · rw [checkedAdd_eq_some, toNat_add_of_lt (by rwa [hmask])]
    · rw [← UInt64.toNat_inj, toNat_alignDown, toNat_add_of_lt (by rwa [hmask]), hmask, hstop]

/-- What the first loop makes of a range: the smallest one that has it and the pages of the
loaded segments. -/
structure Spans (phdrs : List Elf64Phdr) (before after : UInt64 × UInt64) : Prop where
  low_le : after.1.toNat ≤ before.1.toNat
  low_le_start : ∀ phdr ∈ phdrs, phdr.Loaded → after.1.toNat ≤ phdr.pageStart
  low_attained : after.1 = before.1 ∨ ∃ phdr ∈ phdrs, phdr.Loaded ∧ after.1.toNat = phdr.pageStart
  le_high : before.2.toNat ≤ after.2.toNat
  end_le_high : ∀ phdr ∈ phdrs, phdr.Loaded → phdr.pageEnd ≤ after.2.toNat
  high_attained : after.2 = before.2 ∨ ∃ phdr ∈ phdrs, phdr.Loaded ∧ after.2.toNat = phdr.pageEnd

variable {elf : List UInt8} {ehdr : Elf64Ehdr}

theorem extentTurn_eq_some {before after : UInt64 × UInt64} {i : ℕ}
    (hturn : (extentTurn elf ehdr before i).result = some after) :
    ∃ phdr, (readPhdr elf ehdr i).result = some phdr ∧ Spans [phdr] before after := by
  unfold extentTurn at hturn
  rw [result_bind] at hturn
  obtain ⟨phdr, hphdr, hrest⟩ := Option.bind_eq_some_iff.mp hturn
  refine ⟨phdr, hphdr, ?_⟩
  split at hrest
  case isTrue hskip =>
    cases hrest
    have hloaded : ¬phdr.Loaded := fun h => hskip.elim (· h.1) h.2
    refine ⟨le_rfl, ?_, .inl rfl, le_rfl, ?_, .inl rfl⟩
    · simp [hloaded]
    · simp [hloaded]
  case isFalse hload =>
    have hloaded : phdr.Loaded := by
      rw [not_or, not_not] at hload
      exact hload
    simp only [result_bind, result_lift, result_pure] at hrest
    obtain ⟨last, hlast, hrest⟩ := Option.bind_eq_some_iff.mp hrest
    obtain ⟨stop, hstop, hrest⟩ := Option.bind_eq_some_iff.mp hrest
    obtain rfl := Option.some.inj hrest
    rw [checkedAdd_eq_some] at hlast
    rw [alignUp_eq_some, hlast] at hstop
    have hstart := toNat_alignDown phdr.pPaddr
    refine ⟨?_, ?_, ?_, ?_, ?_, ?_⟩
    · exact UInt64.le_iff_toNat_le.mp (min_le_left _ _)
    · intro other hother _
      obtain rfl := List.mem_singleton.mp hother
      rw [Elf64Phdr.pageStart, ← hstart]
      exact UInt64.le_iff_toNat_le.mp (min_le_right _ _)
    · rcases min_choice before.1 (alignDown phdr.pPaddr efiPageSize) with hmin | hmin
      · exact .inl hmin
      · exact .inr ⟨phdr, List.mem_singleton.mpr rfl, hloaded,
          (congrArg UInt64.toNat hmin).trans hstart⟩
    · exact UInt64.le_iff_toNat_le.mp (le_max_left _ _)
    · intro other hother _
      obtain rfl := List.mem_singleton.mp hother
      rw [Elf64Phdr.pageEnd, ← hstop.2]
      exact UInt64.le_iff_toNat_le.mp (le_max_right _ _)
    · rcases max_choice before.2 stop with hmax | hmax
      · exact .inl hmax
      · exact .inr ⟨phdr, List.mem_singleton.mpr rfl, hloaded,
          (congrArg UInt64.toNat hmax).trans hstop.2⟩

theorem Spans.trans {first second : List Elf64Phdr} {before mid after : UInt64 × UInt64}
    (hfirst : Spans first before mid) (hsecond : Spans second mid after) :
    Spans (first ++ second) before after where
  low_le := hsecond.low_le.trans hfirst.low_le
  low_le_start := List.forall_mem_append.mpr
    ⟨fun phdr hphdr hloaded => hsecond.low_le.trans (hfirst.low_le_start phdr hphdr hloaded),
      hsecond.low_le_start⟩
  low_attained := by
    rcases hsecond.low_attained with hsame | ⟨phdr, hphdr, hattained⟩
    · rw [hsame]
      rcases hfirst.low_attained with hsame | ⟨phdr, hphdr, hattained⟩
      · exact .inl hsame
      · exact .inr ⟨phdr, List.mem_append_left _ hphdr, hattained⟩
    · exact .inr ⟨phdr, List.mem_append_right _ hphdr, hattained⟩
  le_high := hfirst.le_high.trans hsecond.le_high
  end_le_high := List.forall_mem_append.mpr
    ⟨fun phdr hphdr hloaded => (hfirst.end_le_high phdr hphdr hloaded).trans hsecond.le_high,
      hsecond.end_le_high⟩
  high_attained := by
    rcases hsecond.high_attained with hsame | ⟨phdr, hphdr, hattained⟩
    · rw [hsame]
      rcases hfirst.high_attained with hsame | ⟨phdr, hphdr, hattained⟩
      · exact .inl hsame
      · exact .inr ⟨phdr, List.mem_append_left _ hphdr, hattained⟩
    · exact .inr ⟨phdr, List.mem_append_right _ hphdr, hattained⟩

/-- The first loop reads every header and spans their segments. -/
theorem extent_eq_some {places : List ℕ} {before after : UInt64 × UInt64}
    (hloop : (places.foldlM (extentTurn elf ehdr) before).result = some after) :
    (∀ i ∈ places, ∃ phdr, (readPhdr elf ehdr i).result = some phdr) ∧
      Spans (places.filterMap fun i => (readPhdr elf ehdr i).result) before after := by
  induction places generalizing before with
  | nil =>
    obtain rfl := Option.some.inj hloop
    exact ⟨by simp, ⟨le_rfl, by simp, .inl rfl, le_rfl, by simp, .inl rfl⟩⟩
  | cons i places ih =>
    rw [List.foldlM_cons, result_bind] at hloop
    obtain ⟨mid, hturn, hrest⟩ := Option.bind_eq_some_iff.mp hloop
    obtain ⟨phdr, hphdr, hspans⟩ := extentTurn_eq_some hturn
    obtain ⟨hreadable, hspansRest⟩ := ih hrest
    refine ⟨List.forall_mem_cons.mpr ⟨⟨phdr, hphdr⟩, hreadable⟩, ?_⟩
    rw [List.filterMap_cons_some (f := fun i => (readPhdr elf ehdr i).result) hphdr]
    exact hspans.trans hspansRest

end Range

/-! ## The copies -/

section Copies

variable {elf : List UInt8} {ehdr : Elf64Ehdr} {p : Access → Prop}

/-- A segment is copied if it is to be copied and the image has it, and the loader gives up if the
image does not have it. -/
theorem copySegment_eq (elf : List UInt8) (phdr : Elf64Phdr) :
    copySegment elf phdr =
      if phdr.Copied then
        if phdr.FileInside elf.length then .emit phdr.copy else .giveUp
      else pure () := by
  unfold copySegment
  by_cases hcopied : phdr.Copied
  · rw [if_pos hcopied, if_neg (by rw [not_or, not_not]; exact hcopied)]
    by_cases hfits : phdr.pOffset.toNat + phdr.pFilesz.toNat < 2 ^ 64
    · have hsum : checkedAdd phdr.pOffset phdr.pFilesz = some (phdr.pOffset + phdr.pFilesz) :=
        if_pos hfits
      rw [hsum, bind_of_some (result_lift _), toNat_add_of_lt hfits, trace_lift, List.nil_append]
      by_cases hinside : phdr.pOffset.toNat + phdr.pFilesz.toNat ≤ elf.length
      · rw [if_neg (not_lt.mpr hinside), if_pos ⟨hfits, hinside⟩]
        rfl
      · rw [if_pos (not_le.mp hinside), if_neg fun h => hinside h.2]
    · have hsum : checkedAdd phdr.pOffset phdr.pFilesz = none := if_neg hfits
      rw [hsum, bind_of_none (result_lift _), if_neg fun h => hfits h.1]
      rfl
  · rw [if_neg hcopied, if_pos]
    rw [Elf64Phdr.Copied, not_and_or, not_not] at hcopied
    exact hcopied

/-- The events of the second loop: reads of headers, and the copies up to the first segment that
the image does not have. -/
theorem all_copies_iff (hreads : ∀ access, ReadsImage elf access → p access) {places : List ℕ}
    (hreadable : ∀ i ∈ places, ∃ phdr, (readPhdr elf ehdr i).result = some phdr) :
    (places.foldlM (copyTurn elf ehdr) ()).All p ↔
      ∀ phdr ∈ (places.filterMap fun i => (readPhdr elf ehdr i).result).takeWhile
          (fun phdr => decide (phdr.Copied → phdr.FileInside elf.length)),
        phdr.Copied → p phdr.copy := by
  induction places with
  | nil => exact ⟨fun _ phdr hphdr => absurd hphdr (by simp), fun _ => all_of_trace_eq_nil rfl⟩
  | cons i places ih =>
    obtain ⟨⟨phdr, hphdr⟩, hrest⟩ := List.forall_mem_cons.mp hreadable
    have hread : (readPhdr elf ehdr i).All p :=
      fun access haccess => hreads access (all_readPhdr elf ehdr i access haccess)
    rw [List.foldlM_cons, all_bind, copyTurn, all_bind, result_bind, hphdr, Option.bind_some,
      List.filterMap_cons_some (f := fun i => (readPhdr elf ehdr i).result) hphdr]
    simp only [Option.some_inj, forall_eq', copySegment_eq, hread, true_and]
    by_cases hcopied : phdr.Copied
    · by_cases hinside : phdr.FileInside elf.length
      · rw [if_pos hcopied, if_pos hinside, all_emit, List.takeWhile_cons,
          if_pos (decide_eq_true fun _ => hinside), List.forall_mem_cons]
        simp only [result_emit, ih hrest, hcopied, forall_const]
      · rw [if_pos hcopied, if_neg hinside, List.takeWhile_cons,
          if_neg (by simp [hcopied, hinside])]
        refine ⟨fun _ other hother => absurd hother (by simp),
          fun _ => ⟨all_of_trace_eq_nil rfl, ?_⟩⟩
        exact fun _ hgiven => absurd hgiven (by simp)
    · rw [if_neg hcopied, List.takeWhile_cons, if_pos (decide_eq_true fun h => absurd h hcopied),
        List.forall_mem_cons]
      simp only [result_pure, ih hrest, hcopied, false_imp_iff, true_and, forall_const]
      exact and_iff_right (all_of_trace_eq_nil (trace_pure ()))

end Copies

/-! ## A run of the loader -/

section Run

variable {arch : Arch} {elf : List UInt8} {allocatePages : ℕ → UInt64 → ℕ × UInt64}

theorem readAt_eq_some {offset size : ℕ} {bytes : List UInt8}
    (hread : (readAt elf offset size).result = some bytes) : bytes = bytesAt elf offset size := by
  unfold readAt at hread
  rw [result_bind] at hread
  obtain ⟨stop, _, hread⟩ := Option.bind_eq_some_iff.mp hread
  split at hread
  · cases hread
  · exact (Option.some.inj hread).symm

/-- The copies of a run. -/
def copies (elf : List UInt8) : Loading Unit :=
  (List.range (ehdrOf elf).ePhnum.toNat).foldlM (copyTurn elf (ehdrOf elf)) ()

/-- The pages of a run that gets as far as to write: every header is read, and they span the
pages. -/
structure Ready (elf : List UInt8) (low high : UInt64) : Prop where
  readable : ∀ i ∈ List.range (ehdrOf elf).ePhnum.toNat,
    ∃ phdr, (readPhdr elf (ehdrOf elf) i).result = some phdr
  spans : Spans (phdrsOf elf) (0xFFFFFFFFFFFFFFFF, 0) (low, high)
  low_ne : low ≠ 0xFFFFFFFFFFFFFFFF
  lt : low < high

/-- A run reads the headers and gives up, or it takes and fills the pages and then copies. -/
def GivesUpOrWrites (elf : List UInt8) (run : Loading UInt64) : Prop :=
  (run.All (ReadsImage elf) ∧ run.result = none) ∨
    ∃ low high front, Ready elf low high ∧ (∀ access ∈ front, ReadsImage elf access) ∧
      run = ⟨front ++ .allocate low.toNat ((high - low) / efiPageSize).toNat ::
          .fill low.toNat (high - low).toNat :: (copies elf).trace,
        (copies elf).result.map fun _ => (ehdrOf elf).eEntry⟩

theorem givesUpOrWrites_giveUp (elf : List UInt8) : GivesUpOrWrites elf .giveUp :=
  .inl ⟨all_of_trace_eq_nil rfl, rfl⟩

theorem givesUpOrWrites_bind {α : Type} {x : Loading α} {f : α → Loading UInt64}
    (hx : x.All (ReadsImage elf)) (hf : ∀ a, x.result = some a → GivesUpOrWrites elf (f a)) :
    GivesUpOrWrites elf (x >>= f) := by
  cases hresult : x.result with
  | none =>
    rw [bind_of_none hresult]
    exact .inl ⟨hx, rfl⟩
  | some a =>
    rw [bind_of_some hresult]
    rcases hf a hresult with ⟨hreads, hnone⟩ | ⟨low, high, front, hready, hfront, hrun⟩
    · exact .inl ⟨List.forall_mem_append.mpr ⟨hx, hreads⟩, hnone⟩
    · refine .inr ⟨low, high, x.trace ++ front, hready,
        List.forall_mem_append.mpr ⟨hx, hfront⟩, ?_⟩
      rw [hrun, List.append_assoc]

variable {low high : UInt64}

theorem givesUpOrWrites_loadSegments (hready : Ready elf low high)
    (allocatePages : ℕ → UInt64 → ℕ × UInt64) :
    GivesUpOrWrites elf (loadSegments elf allocatePages (ehdrOf elf) low high) := by
  unfold loadSegments
  dsimp only
  split
  case isTrue => exact givesUpOrWrites_giveUp elf
  case isFalse =>
    refine .inr ⟨low, high, [], hready, by simp, ?_⟩
    rw [bind_of_some (result_emit _), bind_of_some (result_emit _)]
    cases hcopies : (copies elf).result with
    | none =>
      rw [copies] at hcopies
      rw [bind_of_none hcopies]
      rfl
    | some _ =>
      rw [copies] at hcopies
      rw [bind_of_some hcopies, trace_pure, List.append_nil]
      rfl

theorem givesUpOrWrites_loadKernelElf (arch : Arch) (elf : List UInt8)
    (allocatePages : ℕ → UInt64 → ℕ × UInt64) :
    GivesUpOrWrites elf (loadKernelElf arch elf allocatePages) := by
  unfold loadKernelElf
  apply givesUpOrWrites_bind (all_readAt elf 0 ehdrSize)
  intro bytes hbytes
  obtain rfl := readAt_eq_some hbytes
  dsimp only
  split
  case isTrue => exact givesUpOrWrites_giveUp elf
  case isFalse =>
    apply givesUpOrWrites_bind (all_foldlM (fun i _ extent => all_extentTurn elf _ extent i) _)
    rintro ⟨low, high⟩ hextent
    obtain ⟨hreadable, hspans⟩ := extent_eq_some hextent
    split
    case isTrue => exact givesUpOrWrites_giveUp elf
    case isFalse hrange =>
      obtain ⟨hlow, hlt⟩ := not_or.mp hrange
      exact givesUpOrWrites_loadSegments ⟨hreadable, hspans, hlow, not_le.mp hlt⟩ allocatePages

namespace Ready

variable {low high : UInt64}

section

variable (hready : Ready elf low high)

include hready

theorem low_eq_start :
    ∃ phdr ∈ phdrsOf elf, phdr.Loaded ∧ low.toNat = phdr.pageStart :=
  hready.spans.low_attained.resolve_left hready.low_ne

theorem high_eq_end :
    ∃ phdr ∈ phdrsOf elf, phdr.Loaded ∧ high.toNat = phdr.pageEnd := by
  refine hready.spans.high_attained.resolve_left fun hzero => ?_
  have hlt := UInt64.lt_iff_toNat_lt.mp hready.lt
  rw [show high = 0 from hzero] at hlt
  exact absurd hlt (Nat.not_lt_zero _)

/-- The pages are exactly the range. -/
theorem pages_end :
    low.toNat + 4096 * ((high - low) / efiPageSize).toNat = high.toNat := by
  obtain ⟨first, _, _, hlow⟩ := hready.low_eq_start
  obtain ⟨last, _, _, hhigh⟩ := hready.high_eq_end
  have hlt := UInt64.lt_iff_toNat_lt.mp hready.lt
  rw [UInt64.toNat_div, UInt64.toNat_sub_of_le _ _ hready.lt.le,
    show efiPageSize.toNat = 4096 from rfl]
  unfold Elf64Phdr.pageStart at hlow
  unfold Elf64Phdr.pageEnd at hhigh
  omega

/-- A copy lies in the pages if its segment is covered. -/
theorem covered_iff (phdr : Elf64Phdr) :
    phdr.Covered (phdrsOf elf) ↔
      low.toNat ≤ phdr.pPaddr.toNat ∧ phdr.pPaddr.toNat + phdr.pFilesz.toNat ≤ high.toNat := by
  constructor
  · rintro ⟨⟨first, hfirst, hloaded, hstart⟩, last, hlast, hloaded', hend⟩
    exact ⟨(hready.spans.low_le_start first hfirst hloaded).trans hstart,
      hend.trans (hready.spans.end_le_high last hlast hloaded')⟩
  · rintro ⟨hstart, hend⟩
    obtain ⟨first, hfirst, hloaded, hlow⟩ := hready.low_eq_start
    obtain ⟨last, hlast, hloaded', hhigh⟩ := hready.high_eq_end
    exact ⟨⟨first, hfirst, hloaded, hlow ▸ hstart⟩, last, hlast, hloaded', hhigh ▸ hend⟩

end

end Ready

/-- An access reads from the image and writes to the pages. -/
def Within (elf : List UInt8) (low high : UInt64) (access : Access) : Prop :=
  (∀ offset size, access.reads = some (offset, size) → offset + size ≤ elf.length) ∧
    ∀ addr size, access.writes = some (addr, size) →
      low.toNat ≤ addr ∧ addr + size ≤ high.toNat

theorem within_of_readsImage {access : Access} (hreads : ReadsImage elf access) :
    Within elf low high access := by
  obtain ⟨offset, size, rfl, hle⟩ := hreads
  refine ⟨?_, ?_⟩
  · rintro _ _ heq
    cases heq
    exact hle
  · rintro _ _ heq
    cases heq

theorem contained_iff_within (hready : Ready elf low high) {trace : List Access}
    (hpages : ∀ start pages, .allocate start pages ∈ trace ↔
      start = low.toNat ∧ pages = ((high - low) / efiPageSize).toNat) :
    Contained elf trace ↔ ∀ access ∈ trace, Within elf low high access := by
  have hend := hready.pages_end
  constructor
  · rintro ⟨hreads, hwrites⟩ access haccess
    refine ⟨hreads access haccess, fun addr size heq => ?_⟩
    obtain ⟨start, pages, hallocated, hstart, hstop⟩ := hwrites access haccess addr size heq
    obtain ⟨rfl, rfl⟩ := (hpages start pages).mp hallocated
    exact ⟨hstart, hstop.trans_eq hend⟩
  · intro hwithin
    refine ⟨fun access haccess => (hwithin access haccess).1, ?_⟩
    intro access haccess addr size heq
    obtain ⟨hstart, hstop⟩ := (hwithin access haccess).2 addr size heq
    exact ⟨_, _, (hpages _ _).mpr ⟨rfl, rfl⟩, hstart, hstop.trans_eq hend.symm⟩

theorem not_writes_of_readsImage {access : Access} (hreads : ReadsImage elf access) :
    access.writes = none := by
  obtain ⟨offset, size, rfl, _⟩ := hreads
  rfl

theorem allocate_notMem_copies (hready : Ready elf low high) (start pages : ℕ) :
    .allocate start pages ∉ (copies elf).trace := by
  have hall : (copies elf).All fun access => access ≠ .allocate start pages := by
    refine (all_copies_iff ?_ hready.readable).mpr ?_
    · rintro access ⟨offset, size, rfl, _⟩ heq
      cases heq
    · rintro phdr _ _ heq
      cases heq
  exact fun hmem => hall _ hmem rfl

/-- The copies lie in the pages exactly if every segment that is copied is covered. -/
theorem all_copies_within_iff (hready : Ready elf low high) :
    (copies elf).All (Within elf low high) ↔ CopiesCovered elf := by
  rw [copies, all_copies_iff (fun access => within_of_readsImage) hready.readable]
  refine forall_congr' fun phdr => forall_congr' fun htaken => forall_congr' fun hcopied => ?_
  have havailable := List.mem_takeWhile_imp htaken
  rw [decide_eq_true_iff] at havailable
  have hinside := havailable hcopied
  rw [hready.covered_iff]
  constructor
  · exact fun hwithin => hwithin.2 _ _ rfl
  · intro hrange
    refine ⟨?_, ?_⟩
    · rintro _ _ heq
      cases heq
      exact hinside.2
    · rintro _ _ heq
      cases heq
      exact hrange

/-- A run that writes reads only from the image, and it writes only to the pages it was granted
if every segment that is copied is covered by the pages of the loaded segments. -/
theorem loadKernelElf_contained_iff (arch : Arch) (elf : List UInt8)
    (allocatePages : ℕ → UInt64 → ℕ × UInt64)
    (hwrites : ∃ access ∈ (loadKernelElf arch elf allocatePages).trace, access.writes ≠ none) :
    Contained elf (loadKernelElf arch elf allocatePages).trace ↔ CopiesCovered elf := by
  rcases givesUpOrWrites_loadKernelElf arch elf allocatePages with
    ⟨hreads, _⟩ | ⟨low, high, front, hready, hfront, hrun⟩
  · obtain ⟨access, haccess, hwrites⟩ := hwrites
    exact absurd (not_writes_of_readsImage (hreads access haccess)) hwrites
  · rw [hrun, contained_iff_within hready, ← all_copies_within_iff hready]
    · have hfill : Within elf low high (.fill low.toNat (high - low).toNat) := by
        have hlt := UInt64.lt_iff_toNat_lt.mp hready.lt
        refine ⟨fun _ _ heq => (by cases heq), ?_⟩
        rintro _ _ heq
        cases heq
        rw [UInt64.toNat_sub_of_le _ _ hready.lt.le]
        omega
      have hallocate : Within elf low high
          (.allocate low.toNat ((high - low) / efiPageSize).toNat) :=
        ⟨fun _ _ heq => (by cases heq), fun _ _ heq => (by cases heq)⟩
      rw [List.forall_mem_append, List.forall_mem_cons, List.forall_mem_cons]
      constructor
      · exact fun hall => hall.2.2.2
      · exact fun hall => ⟨fun access haccess => within_of_readsImage (hfront access haccess),
          hallocate, hfill, hall⟩
    · intro start pages
      have hnot : .allocate start pages ∉ front := by
        intro hmem
        obtain ⟨_, _, heq, _⟩ := hfront _ hmem
        cases heq
      simp [hnot, allocate_notMem_copies hready]

end Run

/-- The program headers of segments whose bytes are in the file from `offset` on.  A segment is
given by its address, its size in memory and its bytes in the file. -/
def phdrBytes (offset : ℕ) : List (ℕ × ℕ × List UInt8) → List UInt8
  | [] => []
  | (paddr, memsz, bytes) :: rest =>
    toLe 4 1 ++ toLe 4 5 ++ toLe 8 offset ++ toLe 8 paddr ++ toLe 8 paddr ++ toLe 8 bytes.length ++
      toLe 8 memsz ++ toLe 8 4096 ++ phdrBytes (offset + bytes.length) rest

/-- An image for aarch64. -/
def imageOf (entry : ℕ) (segments : List (ℕ × ℕ × List UInt8)) : List UInt8 :=
  [0x7f, 0x45, 0x4c, 0x46, 2, 1] ++ List.replicate 10 0 ++
    toLe 2 2 ++ toLe 2 0xb7 ++ toLe 4 1 ++ toLe 8 entry ++ toLe 8 64 ++ toLe 8 0 ++ toLe 4 0 ++
    toLe 2 64 ++ toLe 2 56 ++ toLe 2 segments.length ++ List.replicate 6 0 ++
    phdrBytes (64 + 56 * segments.length) segments ++ segments.flatMap fun segment => segment.2.2

def oneSegment (paddr memsz : ℕ) (bytes : List UInt8) : List UInt8 :=
  imageOf paddr [(paddr, memsz, bytes)]

/-- Firmware that grants every request. -/
def grantAll : ℕ → UInt64 → ℕ × UInt64 := fun _ addr => (efiSuccess, addr)

theorem loadKernelElf_contained_iff_oneSegment :
    Contained (oneSegment 0x40080ffe 2 [1, 2])
      (loadKernelElf .aarch64 (oneSegment 0x40080ffe 2 [1, 2]) grantAll).trace :=
  (loadKernelElf_contained_iff .aarch64 _ grantAll (by decide +kernel)).mpr (by decide +kernel)

/-- A segment with one byte in memory and two in the file, at the end of a page. -/
theorem copy_behind_pages :
    .allocate 0x40080000 1 ∈
        (loadKernelElf .aarch64 (oneSegment 0x40080fff 1 [1, 2]) grantAll).trace ∧
      .copy 120 0x40080fff 2 ∈
        (loadKernelElf .aarch64 (oneSegment 0x40080fff 1 [1, 2]) grantAll).trace ∧
      ¬Contained (oneSegment 0x40080fff 1 [1, 2])
        (loadKernelElf .aarch64 (oneSegment 0x40080fff 1 [1, 2]) grantAll).trace := by
  have htrace : (loadKernelElf .aarch64 (oneSegment 0x40080fff 1 [1, 2]) grantAll).trace =
      [.read 0 64, .read 64 56, .allocate 0x40080000 1, .fill 0x40080000 4096, .read 64 56,
        .copy 120 0x40080fff 2] := by decide +kernel
  rw [htrace]
  refine ⟨by decide, by decide, ?_⟩
  rintro ⟨_, hwrites⟩
  obtain ⟨start, pages, hallocated, _, hstop⟩ :=
    hwrites (.copy 120 0x40080fff 2) (by decide) _ _ rfl
  simp only [List.mem_cons, reduceCtorEq, Access.allocate.injEq, List.not_mem_nil, or_false,
    false_or] at hallocated
  omega

end Hyperion.Efi
