import Hyperion.Efi.LoadContained
import Hyperion.Lib.Overlay

/-!
# What the loader leaves in memory

The writes of a run are pictures laid over memory: zeros over all pages first, and then the
segments.  If the segments are apart in memory, no copy covers another one, so each segment has its
bytes of the file, and every other byte of the pages is zero (`loadKernelElf_view`).
-/

namespace Hyperion.Efi

open Hyperion.Lib Attempt

/-- An address of the segment. -/
def Elf64Phdr.Has (phdr : Elf64Phdr) (addr : ℕ) : Prop :=
  phdr.pPaddr.toNat ≤ addr ∧ addr < phdr.pPaddr.toNat + phdr.pMemsz.toNat

/-- Two loadable segments share no address. -/
def Elf64Phdr.Apart (first second : Elf64Phdr) : Prop :=
  first.pType = ptLoad → second.pType = ptLoad → ∀ addr, ¬(first.Has addr ∧ second.Has addr)

instance : Std.Symm Elf64Phdr.Apart where
  symm _ _ hapart hsecond hfirst addr hboth := hapart hfirst hsecond addr hboth.symm

/-- The load view of an image over a range of addresses. -/
structure LoadView (elf : List UInt8) (low high : ℕ) (mem : Memory) : Prop where
  segment : ∀ phdr ∈ phdrsOf elf, phdr.pType = ptLoad → ∀ k < phdr.pFilesz.toNat,
    elf[phdr.pOffset.toNat + k]? = some (mem (phdr.pPaddr.toNat + k))
  rest : ∀ addr, low ≤ addr → addr < high →
    (∀ phdr ∈ phdrsOf elf, phdr.pType = ptLoad →
      ¬(phdr.pPaddr.toNat ≤ addr ∧ addr < phdr.pPaddr.toNat + phdr.pFilesz.toNat)) →
    mem addr = 0

/-! ## Writes as pictures -/

namespace Access

/-- The bytes that the access writes. -/
def picture (elf : List UInt8) : Access → Picture ℕ UInt8
  | fill addr size => .area (fun a => addr ≤ a ∧ a < addr + size) 0
  | copy offset addr size =>
    fun a => if addr ≤ a ∧ a < addr + size then elf[offset + (a - addr)]? else none
  | read _ _ => fun _ => none
  | allocate _ _ => fun _ => none

/-- What the access reads lies in the image. -/
def ReadsInside (elf : List UInt8) (access : Access) : Prop :=
  ∀ offset size, access.reads = some (offset, size) → offset + size ≤ elf.length

theorem apply_eq_picture {elf : List UInt8} {access : Access} (hinside : access.ReadsInside elf)
    (mem : Memory) (a : ℕ) : access.apply elf mem a = (access.picture elf a).getD (mem a) := by
  cases access with
  | read offset size => rfl
  | allocate addr pages => rfl
  | fill addr size =>
    rw [apply, picture, Memory.store, Picture.area, List.length_replicate]
    split
    case isTrue hin =>
      rw [List.getD_replicate _ (by omega)]
      rfl
    case isFalse => rfl
  | copy offset addr size =>
    have hle : offset + size ≤ elf.length := hinside offset size rfl
    rw [apply, picture, Memory.store, length_bytesAt hle]
    dsimp only
    split
    case isTrue hin =>
      have hlt : offset + (a - addr) < elf.length := by omega
      rw [List.getD_eq_getElem?_getD, bytesAt, List.getElem?_take_of_lt (by omega),
        List.getElem?_drop, List.getElem?_eq_getElem hlt]
      rfl
    case isFalse => rfl

end Access

section Replay

variable {elf : List UInt8} {mem : Memory} {trace : List Access}

theorem replay_append (elf : List UInt8) (mem : Memory) (first second : List Access) :
    replay elf mem (first ++ second) = replay elf (replay elf mem first) second :=
  List.foldl_append

theorem replay_eq_stack (hinside : ∀ access ∈ trace, access.ReadsInside elf) (a : ℕ) :
    replay elf mem trace a = (Picture.stack (Access.picture elf) trace a).getD (mem a) := by
  induction trace using List.reverseRecOn with
  | nil => rfl
  | append_singleton trace last ih =>
    obtain ⟨hfront, hlast⟩ := List.forall_mem_append.mp hinside
    rw [replay_append, Picture.stack_concat, Picture.atop]
    refine (Access.apply_eq_picture (hlast last (by simp)) _ a).trans ?_
    rw [ih hfront]
    cases last.picture elf a with
    | none => rw [Option.getD_none, Option.none_or]
    | some byte => rfl

end Replay

/-! ## The copies of a run that succeeds -/

section Copies

variable {elf : List UInt8} {ehdr : Elf64Ehdr}

/-- Every segment that is to be copied is copied. -/
theorem copies_eq_some {places : List ℕ}
    (hloop : (places.foldlM (copyTurn elf ehdr) ()).result = some ()) :
    ∀ phdr ∈ places.filterMap fun i => (readPhdr elf ehdr i).result, phdr.Copied →
      phdr.FileInside elf.length ∧ phdr.copy ∈ (places.foldlM (copyTurn elf ehdr) ()).trace := by
  induction places with
  | nil => simp
  | cons i places ih =>
    rw [List.foldlM_cons, result_bind] at hloop
    obtain ⟨_, hturn, hrest⟩ := Option.bind_eq_some_iff.mp hloop
    rw [copyTurn, result_bind] at hturn
    obtain ⟨phdr, hphdr, hsegment⟩ := Option.bind_eq_some_iff.mp hturn
    rw [List.filterMap_cons_some (f := fun i => (readPhdr elf ehdr i).result) hphdr,
      List.forall_mem_cons, List.foldlM_cons]
    refine ⟨fun hcopied => ?_, fun other hother hcopied => ?_⟩
    · rw [copySegment_eq, if_pos hcopied] at hsegment
      by_cases hinside : phdr.FileInside elf.length
      · refine ⟨hinside, mem_trace_bind.mpr (.inl (mem_trace_bind.mpr (.inr ⟨phdr, hphdr, ?_⟩)))⟩
        rw [copySegment_eq, if_pos hcopied, if_pos hinside]
        exact List.mem_singleton.mpr rfl
      · rw [if_neg hinside] at hsegment
        cases hsegment
    · obtain ⟨hinside, hmem⟩ := ih hrest other hother hcopied
      refine ⟨hinside, mem_trace_bind.mpr (.inr ⟨(), ?_, hmem⟩)⟩
      rw [copyTurn, result_bind, hphdr]
      exact hsegment

/-- Nothing else happens. -/
theorem copies_accesses {low high : UInt64} (hready : Ready elf low high) :
    (copies elf).All fun access => ReadsImage elf access ∨
      ∃ phdr ∈ phdrsOf elf, phdr.Copied ∧ phdr.FileInside elf.length ∧ access = phdr.copy := by
  refine (all_copies_iff (fun access hreads => .inl hreads) hready.readable).mpr ?_
  intro phdr htaken hcopied
  have havailable := List.mem_takeWhile_imp htaken
  rw [decide_eq_true_iff] at havailable
  exact .inr ⟨phdr, (List.takeWhile_sublist _).subset htaken, hcopied, havailable hcopied, rfl⟩

/-- Among the accesses of the copies, only the copy of a segment writes to it. -/
theorem picture_eq_none_of_ne {low high : UInt64} (hready : Ready elf low high)
    (hapart : (phdrsOf elf).Pairwise Elf64Phdr.Apart)
    (hsizes : ∀ phdr ∈ phdrsOf elf, phdr.pType = ptLoad → phdr.pFilesz ≤ phdr.pMemsz)
    {phdr : Elf64Phdr} (hphdr : phdr ∈ phdrsOf elf) (hload : phdr.pType = ptLoad) {addr : ℕ}
    (hhas : phdr.Has addr) {access : Access} (haccess : access ∈ (copies elf).trace)
    (hne : access ≠ phdr.copy) : access.picture elf addr = none := by
  rcases copies_accesses hready access haccess with ⟨offset, size, rfl, _⟩ |
    ⟨other, hother, hcopied, _, rfl⟩
  · rfl
  · have hdiffer : other ≠ phdr := fun heq => hne (congrArg Elf64Phdr.copy heq)
    have hdisjoint := hapart.forall hother hphdr hdiffer hcopied.1 hload addr
    have hle := UInt64.le_iff_toNat_le.mp (hsizes other hother hcopied.1)
    refine if_neg fun hwritten => hdisjoint ⟨⟨hwritten.1, ?_⟩, hhas⟩
    omega

end Copies

/-! ## The load view -/

section View

variable {elf : List UInt8} {low high : UInt64} {mem : Memory}

theorem copies_readsInside (hready : Ready elf low high) :
    ∀ access ∈ (copies elf).trace, access.ReadsInside elf := by
  intro access haccess offset size hreads
  rcases copies_accesses hready access haccess with ⟨_, _, rfl, hle⟩ | ⟨phdr, _, _, hinside, rfl⟩
  · cases hreads
    exact hle
  · cases hreads
    exact hinside.2

/-- The segments are there after the copies, whatever was there before. -/
theorem replay_copies_segment (hready : Ready elf low high)
    (hapart : (phdrsOf elf).Pairwise Elf64Phdr.Apart)
    (hsizes : ∀ phdr ∈ phdrsOf elf, phdr.pType = ptLoad → phdr.pFilesz ≤ phdr.pMemsz)
    (hcopies : (copies elf).result = some ()) {phdr : Elf64Phdr} (hphdr : phdr ∈ phdrsOf elf)
    (hload : phdr.pType = ptLoad) {k : ℕ} (hk : k < phdr.pFilesz.toNat) :
    elf[phdr.pOffset.toNat + k]? =
      some (replay elf mem (copies elf).trace (phdr.pPaddr.toNat + k)) := by
  have hcopied : phdr.Copied := by
    refine ⟨hload, fun hzero => ?_⟩
    rw [hzero] at hk
    exact absurd hk (Nat.not_lt_zero k)
  obtain ⟨hinside, hmem⟩ := copies_eq_some hcopies phdr hphdr hcopied
  have hle := UInt64.le_iff_toNat_le.mp (hsizes phdr hphdr hload)
  have hhas : phdr.Has (phdr.pPaddr.toNat + k) := ⟨by omega, by omega⟩
  have hpicture : phdr.copy.picture elf (phdr.pPaddr.toNat + k) = elf[phdr.pOffset.toNat + k]? := by
    refine (if_pos ⟨by omega, by omega⟩).trans ?_
    rw [Nat.add_sub_cancel_left]
  have hlt : phdr.pOffset.toNat + k < elf.length := by
    have := hinside.2
    omega
  have honly : Picture.stack (Access.picture elf) (copies elf).trace (phdr.pPaddr.toNat + k) =
      phdr.copy.picture elf (phdr.pPaddr.toNat + k) :=
    Picture.stack_eq_of_only hmem fun access haccess hne =>
      picture_eq_none_of_ne hready hapart hsizes hphdr hload hhas haccess hne
  rw [replay_eq_stack (copies_readsInside hready), honly, hpicture, List.getElem?_eq_getElem hlt]
  rfl

/-- The copies leave what is not in a segment. -/
theorem replay_copies_rest (hready : Ready elf low high) {addr : ℕ}
    (hrest : ∀ phdr ∈ phdrsOf elf, phdr.pType = ptLoad →
      ¬(phdr.pPaddr.toNat ≤ addr ∧ addr < phdr.pPaddr.toNat + phdr.pFilesz.toNat)) :
    replay elf mem (copies elf).trace addr = mem addr := by
  rw [replay_eq_stack (copies_readsInside hready), Picture.stack_eq_none.mpr, Option.getD_none]
  intro access haccess
  rcases copies_accesses hready access haccess with ⟨_, _, rfl, _⟩ | ⟨phdr, hphdr, hcopied, _, rfl⟩
  · rfl
  · exact if_neg (hrest phdr hphdr hcopied.1)

/-- A run that succeeds returns the entry point and leaves the load view of the image in the pages
it was granted. -/
theorem loadKernelElf_view (arch : Arch) (elf : List UInt8)
    (allocatePages : ℕ → UInt64 → ℕ × UInt64) (mem : Memory) (entry : UInt64)
    (hresult : (loadKernelElf arch elf allocatePages).result = some entry)
    (hapart : (phdrsOf elf).Pairwise Elf64Phdr.Apart)
    (hsizes : ∀ phdr ∈ phdrsOf elf, phdr.pType = ptLoad → phdr.pFilesz ≤ phdr.pMemsz) :
    entry = (ehdrOf elf).eEntry ∧ ∃ low high pages, Ready elf low high ∧
      .allocate low.toNat pages ∈ (loadKernelElf arch elf allocatePages).trace ∧
      low.toNat + 4096 * pages = high.toNat ∧
      LoadView elf low.toNat high.toNat
        (replay elf mem (loadKernelElf arch elf allocatePages).trace) := by
  rcases givesUpOrWrites_loadKernelElf arch elf allocatePages with
    ⟨_, hnone⟩ | ⟨low, high, front, hready, hfront, hrun⟩
  · rw [hnone] at hresult
    cases hresult
  · rw [hrun] at hresult ⊢
    obtain ⟨_, hcopies, hentry⟩ := Option.map_eq_some_iff.mp hresult
    refine ⟨hentry.symm, low, high, _, hready, by simp, hready.pages_end, ?_⟩
    -- zeros first, the copies over them
    dsimp only
    rw [List.append_cons, List.append_cons, replay_append, replay_append]
    refine ⟨?_, ?_⟩
    · intro phdr hphdr hload k hk
      exact replay_copies_segment hready hapart hsizes hcopies hphdr hload hk
    · intro addr hlow hhigh hrest
      rw [replay_copies_rest hready hrest]
      have hsize : (high - low).toNat = high.toNat - low.toNat :=
        UInt64.toNat_sub_of_le _ _ hready.lt.le
      refine (if_pos ⟨hlow, ?_⟩).trans (List.getD_replicate _ ?_)
      · omega
      · rw [List.length_replicate]
        omega

/-- A segment of two bytes in the file and three in memory, and one behind it. -/
def twoSegments : List UInt8 := imageOf 0x40080ffe [(0x40080ffe, 3, [1, 2]), (0x40082000, 2, [3])]

theorem loadKernelElf_view_twoSegments :
    ∃ low high, LoadView twoSegments low high
      (replay twoSegments (fun _ => 0xff) (loadKernelElf .aarch64 twoSegments grantAll).trace) := by
  have hphdrs : phdrsOf twoSegments =
      [⟨1, 176, 0x40080ffe, 2, 3⟩, ⟨1, 178, 0x40082000, 1, 2⟩] := by decide +kernel
  have hapart : (phdrsOf twoSegments).Pairwise Elf64Phdr.Apart := by
    rw [hphdrs, List.pairwise_pair]
    rintro _ _ addr ⟨⟨_, hlt⟩, hle, _⟩
    exact absurd (hle.trans_lt hlt) (by decide)
  obtain ⟨_, low, high, _, _, _, _, hview⟩ := loadKernelElf_view .aarch64 twoSegments grantAll
    (fun _ => 0xff) 0x40080ffe (by decide +kernel) hapart (by decide +kernel)
  exact ⟨low.toNat, high.toNat, hview⟩

end View

end Hyperion.Efi
