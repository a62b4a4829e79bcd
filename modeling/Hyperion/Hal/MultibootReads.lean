import Hyperion.Hal.MultibootScan

/-!
# Which Multiboot2 blocks are read inside their bounds

The loop over the tags checks that the eight bytes of a tag header are inside the
block and nothing else.  `tagsFrom` lists the tags that the loop reaches, and
`Covered` says of each of them that the fields its branch uses are inside too.
Two branches read nothing in some states: basic memory information behind a memory
map that described RAM, and the EFI system table behind a table pointer that was
already found.

The tags and the memory map step over at most `2^32` bytes at a time, so no address
is `2^33` bytes behind the block; the block is that far below `2^64`.  (A loader
leaves its address in a 32-bit register.)
-/

namespace Hyperion.Hal.Multiboot

open Hyperion.Lib

/-! ## The tags the loop reaches -/

/-- A tag header at an address. -/
structure TagAt where
  cur : ℕ
  typ : UInt32
  size : UInt32
  deriving DecidableEq, Repr

namespace TagAt

variable (mem : Memory) (mbiPtr : UInt64) (tag : TagAt)

/-- A memory map that the parser takes: the lengths of its banks do not sum to zero,
modulo `2^64`. -/
def DescribesRam : Prop :=
  tag.typ = tagMemoryMap ∧ (mapOf (entriesAt mem tag.cur tag.size)).totalBytes ≠ 0

instance : Decidable (tag.DescribesRam mem) := inferInstanceAs (Decidable (_ ∧ _))

/-- A tag with a pointer to a firmware table. -/
def PointsToTable : Prop :=
  tag.typ = tagRsdpOld ∨ tag.typ = tagRsdpNew ∨
    tag.typ = tagEfi64Systab ∧ u64At mem (tag.cur + 8) ≠ mbiPtr

instance : Decidable (tag.PointsToTable mem mbiPtr) := inferInstanceAs (Decidable (_ ∨ _ ∨ _ ∧ _))

end TagAt

/-- The tags reached from `cur` on in a block that ends at `stop`. -/
def tagsFrom (mem : Memory) (stop : ℕ) : ℕ → ℕ → List TagAt
  | 0, _ => []
  | fuel + 1, cur =>
    if cur + 8 ≤ stop then
      let tag : TagAt := ⟨cur, u32At mem cur, u32At mem (cur + 4)⟩
      if tag.typ = tagEnd ∨ tag.size < 8 then []
      else tag :: tagsFrom mem stop fuel (cur + paddedSize tag.size)
    else []

/-- The fields that the branch of `tag` uses end at `stop` or before.  `ram` says
whether an earlier tag described RAM, `table` whether one pointed to a table. -/
structure TagAt.Covered (mem : Memory) (stop : ℕ) (ram table : Bool) (tag : TagAt) : Prop where
  memoryMap : tag.typ = tagMemoryMap → tag.cur + 12 ≤ stop ∧
    ∀ k < countAt mem tag.cur tag.size, tag.cur + 16 + k * strideAt mem tag.cur + 20 ≤ stop
  basicMemInfo : tag.typ = tagBasicMemInfo → ram = false → tag.cur + 16 ≤ stop
  framebuffer : tag.typ = tagFramebufferInfo → fbTagSize ≤ tag.size.toNat →
    tag.cur + 30 ≤ stop ∧ (IsRgb32 mem tag.cur → tag.cur + 33 ≤ stop)
  systab : tag.typ = tagEfi64Systab → table = false → tag.cur + 16 ≤ stop

/-- Every tag is covered, given what the ones before it described. -/
def Covered (mem : Memory) (mbiPtr : UInt64) (stop : ℕ) : Bool → Bool → List TagAt → Prop
  | _, _, [] => True
  | ram, table, tag :: tags =>
    tag.Covered mem stop ram table ∧
      Covered mem mbiPtr stop (ram || tag.DescribesRam mem)
        (table || tag.PointsToTable mem mbiPtr) tags

/-! ## The branches -/

section Branches

variable {mem : Memory} {mbiPtr : UInt64} {cur stop : ℕ} {typ size : UInt32} {st next : State}

section OneKind

variable {ram table : Bool}

theorem covered_memoryMap : TagAt.Covered mem stop ram table ⟨cur, tagMemoryMap, size⟩ ↔
    cur + 12 ≤ stop ∧
      ∀ k < countAt mem cur size, cur + 16 + k * strideAt mem cur + 20 ≤ stop := by
  constructor
  · exact fun h => h.memoryMap rfl
  · intro h
    refine ⟨fun _ => h, ?_, ?_, ?_⟩
    all_goals
      intro hother
      cases hother

theorem covered_basicMemInfo : TagAt.Covered mem stop ram table ⟨cur, tagBasicMemInfo, size⟩ ↔
    (ram = false → cur + 16 ≤ stop) := by
  constructor
  · exact fun h => h.basicMemInfo rfl
  · intro h
    refine ⟨?_, fun _ => h, ?_, ?_⟩
    all_goals
      intro hother
      cases hother

theorem covered_framebuffer : TagAt.Covered mem stop ram table ⟨cur, tagFramebufferInfo, size⟩ ↔
    (fbTagSize ≤ size.toNat → cur + 30 ≤ stop ∧ (IsRgb32 mem cur → cur + 33 ≤ stop)) := by
  constructor
  · exact fun h => h.framebuffer rfl
  · intro h
    refine ⟨?_, ?_, fun _ => h, ?_⟩
    all_goals
      intro hother
      cases hother

theorem covered_systab : TagAt.Covered mem stop ram table ⟨cur, tagEfi64Systab, size⟩ ↔
    (table = false → cur + 16 ≤ stop) := by
  constructor
  · exact fun h => h.systab rfl
  · intro h
    refine ⟨?_, ?_, ?_, fun _ => h⟩
    all_goals
      intro hother
      cases hother

/-- A tag of another kind has no fields that are read. -/
theorem covered_other (hmap : typ ≠ tagMemoryMap) (hbasic : typ ≠ tagBasicMemInfo)
    (hfb : typ ≠ tagFramebufferInfo) (hsystab : typ ≠ tagEfi64Systab) :
    TagAt.Covered mem stop ram table ⟨cur, typ, size⟩ :=
  ⟨fun h => absurd h hmap, fun h => absurd h hbasic, fun h => absurd h hfb,
    fun h => absurd h hsystab⟩

end OneKind

/-- The addresses of a memory map that begins inside the block. -/
theorem mapReaches_of_le (hcur : cur + 8 ≤ stop) (hstop : stop + 2 ^ 33 ≤ usizeBound) :
    MapReaches mem cur size := by
  have hsize := size.toNat_lt
  have hstride : strideAt mem cur < 2 ^ 32 := (u32At mem (cur + 8)).toNat_lt
  have hcount : countAt mem cur size * strideAt mem cur ≤ size.toNat - 16 :=
    Nat.div_mul_le_self _ _
  refine ⟨by omega, by omega, ?_⟩
  rw [Nat.succ_mul]
  omega

section Inside

variable {lo : ℕ} {table : Bool}

section

variable (hlo : lo ≤ cur)

include hlo

theorem handleMemoryMap_inside (hreaches : MapReaches mem cur size) :
    (handleTag mem mbiPtr cur tagMemoryMap size st).All (Inside lo stop) ↔
      TagAt.Covered mem stop st.haveRealMemory table ⟨cur, tagMemoryMap, size⟩ := by
  rw [handleTag, if_pos rfl, covered_memoryMap, Traced.all_bind,
    scanMemoryMap_inside hlo hreaches]
  apply and_iff_left
  intro map _
  split <;> simp

theorem handleBasicMemInfo_inside (hstop : stop < usizeBound) (hbody : cur + 8 < usizeBound) :
    (handleTag mem mbiPtr cur tagBasicMemInfo size st).All (Inside lo stop) ↔
      TagAt.Covered mem stop st.haveRealMemory table ⟨cur, tagBasicMemInfo, size⟩ := by
  rw [handleTag, if_neg (by decide), if_pos rfl, covered_basicMemInfo]
  split
  case isTrue hreal =>
    rw [Traced.all_pure, hreal]
    simp
  case isFalse hreal =>
    rw [Traced.all_bind, scanBasicMemInfo_inside hlo hstop hbody, Bool.eq_false_iff.mpr hreal,
      imp_iff_right rfl]
    apply and_iff_left
    intro map _
    split <;> simp

theorem handleFramebuffer_inside (hcur : cur + 32 < usizeBound) :
    (handleTag mem mbiPtr cur tagFramebufferInfo size st).All (Inside lo stop) ↔
      TagAt.Covered mem stop st.haveRealMemory table ⟨cur, tagFramebufferInfo, size⟩ := by
  rw [handleTag, if_neg (by decide), if_neg (by decide), if_pos rfl, covered_framebuffer]
  split
  case isTrue hsize =>
    rw [Traced.all_bind, scanFramebuffer_inside hlo hcur, imp_iff_right hsize]
    apply and_iff_left
    intro fb _
    cases fb <;> simp
  case isFalse hsize =>
    rw [Traced.all_pure]
    exact iff_of_true trivial fun hle => absurd hle hsize

/-- The pointer is read unless one was found before. -/
theorem handleSystab_inside (hbody : cur + 8 < usizeBound) :
    (handleTag mem mbiPtr cur tagEfi64Systab size st).All (Inside lo stop) ↔
      TagAt.Covered mem stop st.haveRealMemory (st.info.fwTableAddr ≠ mbiPtr)
        ⟨cur, tagEfi64Systab, size⟩ := by
  rw [handleTag, if_neg (by decide), if_neg (by decide), if_neg (by decide), if_neg (by decide),
    if_pos rfl, covered_systab]
  split
  case isTrue hopen =>
    rw [Traced.all_bind_of_ok (Traced.result_addUsize hbody), Traced.all_bind]
    simp only [Traced.all_lift, true_and, readU64_all, Traced.all_pure, implies_true, and_true]
    constructor
    · intro hread _
      exact hread.2
    · intro hcovered
      exact ⟨by show lo ≤ cur + 8; omega, hcovered (by simp [hopen])⟩
  case isFalse hopen =>
    rw [Traced.all_pure]
    simp [hopen]

/-- Each branch reads inside the block exactly if its tag is covered. -/
theorem handleTag_inside (hcur : cur + 8 ≤ stop) (hstop : stop + 2 ^ 33 ≤ usizeBound) :
    (handleTag mem mbiPtr cur typ size st).All (Inside lo stop) ↔
      TagAt.Covered mem stop st.haveRealMemory (st.info.fwTableAddr ≠ mbiPtr) ⟨cur, typ, size⟩ := by
  have hbody : cur + 8 < usizeBound := by omega
  by_cases hmap : typ = tagMemoryMap
  · subst hmap
    exact handleMemoryMap_inside hlo (mapReaches_of_le hcur hstop)
  by_cases hbasic : typ = tagBasicMemInfo
  · subst hbasic
    exact handleBasicMemInfo_inside hlo (by omega) hbody
  by_cases hfb : typ = tagFramebufferInfo
  · subst hfb
    exact handleFramebuffer_inside hlo (by omega)
  by_cases hsystab : typ = tagEfi64Systab
  · subst hsystab
    exact handleSystab_inside hlo hbody
  -- the other branches read nothing
  refine iff_of_true ?_ (covered_other hmap hbasic hfb hsystab)
  rw [handleTag, if_neg hmap, if_neg hbasic, if_neg hfb, if_neg hsystab]
  split
  · rw [Traced.all_bind]
    exact ⟨by simp, fun _ _ => by simp⟩
  · simp

end

end Inside

theorem handleMemoryMap_result (hreaches : MapReaches mem cur size) :
    (handleTag mem mbiPtr cur tagMemoryMap size st).result =
      .ok (if TagAt.DescribesRam mem ⟨cur, tagMemoryMap, size⟩ then
        ⟨{ st.info with memory := mapOf (entriesAt mem cur size) }, true⟩ else st) := by
  rw [handleTag, if_pos rfl, Traced.result_bind_of_ok (scanMemoryMap_result hreaches)]
  by_cases htotal : (mapOf (entriesAt mem cur size)).totalBytes ≠ 0
  · have hram : TagAt.DescribesRam mem ⟨cur, tagMemoryMap, size⟩ := ⟨rfl, htotal⟩
    rw [if_pos htotal, if_pos hram]
    rfl
  · have hram : ¬TagAt.DescribesRam mem ⟨cur, tagMemoryMap, size⟩ := fun h => htotal h.2
    rw [if_neg htotal, if_neg hram]
    rfl

section Flags

/-- What later tags depend on is left alone: whether RAM was described, and the table. -/
def KeepsFlags (st next : State) : Prop :=
  next.haveRealMemory = st.haveRealMemory ∧ next.info.fwTableAddr = st.info.fwTableAddr

theorem handleBasicMemInfo_keeps
    (hok : (handleTag mem mbiPtr cur tagBasicMemInfo size st).result = .ok next) :
    KeepsFlags st next := by
  rw [handleTag, if_neg (by decide), if_pos rfl] at hok
  split at hok
  · cases hok
    exact ⟨rfl, rfl⟩
  · rw [Traced.result_bind] at hok
    obtain ⟨map, _, hok⟩ := bind_eq_ok.mp hok
    split at hok <;> cases hok <;> exact ⟨rfl, rfl⟩

theorem handleFramebuffer_keeps
    (hok : (handleTag mem mbiPtr cur tagFramebufferInfo size st).result = .ok next) :
    KeepsFlags st next := by
  rw [handleTag, if_neg (by decide), if_neg (by decide), if_pos rfl] at hok
  split at hok
  · rw [Traced.result_bind] at hok
    obtain ⟨fb, _, hok⟩ := bind_eq_ok.mp hok
    cases fb <;> cases hok <;> exact ⟨rfl, rfl⟩
  · cases hok
    exact ⟨rfl, rfl⟩

/-- The address of the payload is not the address of the block. -/
theorem payload_ne (hbase : mbiPtr.toNat < cur + 8) (hbody : cur + 8 < usizeBound) :
    UInt64.ofNat (cur + 8) ≠ mbiPtr := by
  intro heq
  have hnat := congrArg UInt64.toNat heq
  rw [UInt64.toNat_ofNat_of_lt' hbody] at hnat
  omega

theorem flags_of_kept (htable : ¬TagAt.PointsToTable mem mbiPtr ⟨cur, typ, size⟩)
    (hram : ¬TagAt.DescribesRam mem ⟨cur, typ, size⟩) (hkeeps : KeepsFlags st next) :
    next.haveRealMemory = (st.haveRealMemory || TagAt.DescribesRam mem ⟨cur, typ, size⟩) ∧
      decide (next.info.fwTableAddr ≠ mbiPtr) =
        (decide (st.info.fwTableAddr ≠ mbiPtr) ||
          TagAt.PointsToTable mem mbiPtr ⟨cur, typ, size⟩) := by
  rw [hkeeps.1, hkeeps.2, decide_eq_false htable, decide_eq_false hram]
  simp

theorem handleMemoryMap_flags (hreaches : MapReaches mem cur size)
    (hok : (handleTag mem mbiPtr cur tagMemoryMap size st).result = .ok next) :
    next.haveRealMemory =
        (st.haveRealMemory || TagAt.DescribesRam mem ⟨cur, tagMemoryMap, size⟩) ∧
      next.info.fwTableAddr = st.info.fwTableAddr := by
  rw [handleMemoryMap_result hreaches] at hok
  cases hok
  by_cases hram : TagAt.DescribesRam mem ⟨cur, tagMemoryMap, size⟩
  · simp [hram]
  · simp [hram]

/-- The system table is taken unless a table was found before. -/
theorem handleSystab_flags (hbody : cur + 8 < usizeBound)
    (hok : (handleTag mem mbiPtr cur tagEfi64Systab size st).result = .ok next) :
    next.haveRealMemory = st.haveRealMemory ∧
      decide (next.info.fwTableAddr ≠ mbiPtr) =
        (decide (st.info.fwTableAddr ≠ mbiPtr) ||
          TagAt.PointsToTable mem mbiPtr ⟨cur, tagEfi64Systab, size⟩) := by
  rw [handleTag, if_neg (by decide), if_neg (by decide), if_neg (by decide), if_neg (by decide),
    if_pos rfl] at hok
  split at hok
  case isTrue hopen =>
    rw [Traced.result_bind_of_ok (Traced.result_addUsize hbody),
      Traced.result_bind_of_ok (readU64_result mem _)] at hok
    cases hok
    simp [TagAt.PointsToTable, hopen, tagRsdpOld, tagRsdpNew, tagEfi64Systab]
  case isFalse hopen =>
    cases hok
    simp [hopen]

/-- The two flags that the reads of later tags depend on. -/
theorem handleTag_flags (hbase : mbiPtr.toNat < cur + 8) (hcur : cur + 8 ≤ stop)
    (hstop : stop + 2 ^ 33 ≤ usizeBound)
    (hok : (handleTag mem mbiPtr cur typ size st).result = .ok next) :
    next.haveRealMemory = (st.haveRealMemory || TagAt.DescribesRam mem ⟨cur, typ, size⟩) ∧
      decide (next.info.fwTableAddr ≠ mbiPtr) =
        (decide (st.info.fwTableAddr ≠ mbiPtr) ||
          TagAt.PointsToTable mem mbiPtr ⟨cur, typ, size⟩) := by
  have hbody : cur + 8 < usizeBound := by omega
  by_cases hmap : typ = tagMemoryMap
  · subst hmap
    obtain ⟨hram, htable⟩ := handleMemoryMap_flags (mapReaches_of_le hcur hstop) hok
    have hnone : ¬TagAt.PointsToTable mem mbiPtr ⟨cur, tagMemoryMap, size⟩ := by
      rintro (h | h | ⟨h, _⟩) <;> cases h
    exact ⟨hram, by rw [htable, decide_eq_false hnone, Bool.or_false]⟩
  have hram : ¬TagAt.DescribesRam mem ⟨cur, typ, size⟩ := fun h => hmap h.1
  by_cases hbasic : typ = tagBasicMemInfo
  · subst hbasic
    refine flags_of_kept ?_ hram (handleBasicMemInfo_keeps hok)
    rintro (h | h | ⟨h, _⟩) <;> cases h
  by_cases hfb : typ = tagFramebufferInfo
  · subst hfb
    refine flags_of_kept ?_ hram (handleFramebuffer_keeps hok)
    rintro (h | h | ⟨h, _⟩) <;> cases h
  by_cases hsystab : typ = tagEfi64Systab
  · subst hsystab
    obtain ⟨hkept, htable⟩ := handleSystab_flags hbody hok
    exact ⟨by rw [hkept, decide_eq_false hram, Bool.or_false], htable⟩
  rw [handleTag, if_neg hmap, if_neg hbasic, if_neg hfb, if_neg hsystab] at hok
  split at hok
  case isTrue htyp =>
    -- the table is the payload of the tag
    have htable : TagAt.PointsToTable mem mbiPtr ⟨cur, typ, size⟩ := by
      rcases htyp with h | h
      · exact .inl h
      · exact .inr (.inl h)
    rw [Traced.result_bind_of_ok (Traced.result_addUsize hbody)] at hok
    cases hok
    refine ⟨by simp [hram], ?_⟩
    show decide (UInt64.ofNat (cur + 8) ≠ mbiPtr) = _
    rw [decide_eq_true (payload_ne hbase hbody), decide_eq_true htable, Bool.or_true]
  case isFalse hrsdp =>
    cases hok
    refine flags_of_kept ?_ hram ⟨rfl, rfl⟩
    rintro (h | h | ⟨h, _⟩)
    · exact hrsdp (.inl h)
    · exact hrsdp (.inr h)
    · exact hsystab h

end Flags

/-- Every tag is handled. -/
theorem handleTag_returns (hcur : cur + 8 ≤ stop) (hstop : stop + 2 ^ 33 ≤ usizeBound) :
    ∃ next, (handleTag mem mbiPtr cur typ size st).result = .ok next := by
  have hbody : cur + 8 < usizeBound := by omega
  by_cases hmap : typ = tagMemoryMap
  · subst hmap
    exact ⟨_, handleMemoryMap_result (mapReaches_of_le hcur hstop)⟩
  by_cases hbasic : typ = tagBasicMemInfo
  · subst hbasic
    exact ⟨_, handleBasicMemInfo_result (by omega)⟩
  rw [handleTag, if_neg hmap, if_neg hbasic]
  split
  case isTrue =>
    split
    case isTrue =>
      rw [Traced.result_bind_of_ok (scanFramebuffer_result (by omega))]
      split
      · exact ⟨_, rfl⟩
      · exact ⟨_, rfl⟩
    case isFalse => exact ⟨_, rfl⟩
  case isFalse =>
  split
  case isTrue =>
    rw [Traced.result_bind_of_ok (Traced.result_addUsize hbody)]
    exact ⟨_, rfl⟩
  case isFalse =>
  split
  case isTrue =>
    split
    case isTrue =>
      rw [Traced.result_bind_of_ok (Traced.result_addUsize hbody),
        Traced.result_bind_of_ok (readU64_result mem _)]
      exact ⟨_, rfl⟩
    case isFalse => exact ⟨_, rfl⟩
  case isFalse => exact ⟨_, rfl⟩

end Branches

/-! ## The loop -/

section Loop

variable {mem : Memory} {mbiPtr : UInt64} {stop : ℕ}

/-- One turn reads the header of the tag and what its branch reads. -/
theorem tagTurn_inside {cur : ℕ} {st : State} (hbase : mbiPtr.toNat ≤ cur)
    (hstop : stop + 2 ^ 33 ≤ usizeBound) :
    (tagTurn mem mbiPtr stop (cur, st)).All (Inside mbiPtr.toNat stop) ↔
      (cur + 8 ≤ stop → u32At mem cur ≠ tagEnd → ¬u32At mem (cur + 4) < 8 →
        TagAt.Covered mem stop st.haveRealMemory (st.info.fwTableAddr ≠ mbiPtr)
          ⟨cur, u32At mem cur, u32At mem (cur + 4)⟩) := by
  simp only [tagTurn, Traced.all_bind, Traced.all_lift, Traced.result_lift, true_and,
    addUsize_eq_ok]
  constructor
  · intro hall hcur htyp hsize
    have hturn := hall (cur + 8) ⟨by omega, rfl⟩
    rw [if_pos hcur, Traced.all_bind_of_ok (readU32_result mem _), if_neg htyp,
      Traced.all_bind_of_ok (readU32_result mem _), if_neg hsize, Traced.all_bind] at hturn
    exact (handleTag_inside hbase hcur hstop).mp hturn.2.2.1
  · rintro hcovered body ⟨_, rfl⟩
    split
    case isFalse => simp
    case isTrue hcur =>
    rw [Traced.all_bind_of_ok (readU32_result mem _), readU32_all]
    refine ⟨⟨hbase, by show cur + 4 ≤ stop; omega⟩, ?_⟩
    split
    case isTrue => simp
    case isFalse htyp =>
    rw [Traced.all_bind_of_ok (readU32_result mem _), readU32_all]
    refine ⟨⟨by show mbiPtr.toNat ≤ cur + 4; omega, by show cur + 4 + 4 ≤ stop; omega⟩, ?_⟩
    split
    case isTrue => simp
    case isFalse hsize =>
    rw [Traced.all_bind, handleTag_inside hbase hcur hstop]
    refine ⟨hcovered hcur htyp hsize, ?_⟩
    intro next _
    rw [Traced.all_bind]
    exact ⟨by simp, fun _ _ => by simp⟩

/-- When a turn goes round again, and where. -/
theorem tagTurn_again {cur cur' : ℕ} {st next : State} :
    (tagTurn mem mbiPtr stop (cur, st)).result = .ok (.again (cur', next)) ↔
      cur + 8 < usizeBound ∧ cur + 8 ≤ stop ∧ u32At mem cur ≠ tagEnd ∧ ¬u32At mem (cur + 4) < 8 ∧
        (handleTag mem mbiPtr cur (u32At mem cur) (u32At mem (cur + 4)) st).result = .ok next ∧
        cur + paddedSize (u32At mem (cur + 4)) < usizeBound ∧
        cur + paddedSize (u32At mem (cur + 4)) = cur' := by
  simp only [tagTurn, Traced.result_bind, Traced.result_lift, bind_eq_ok, addUsize_eq_ok]
  constructor
  · rintro ⟨body, ⟨hlt, rfl⟩, hturn⟩
    split at hturn
    case isFalse => cases hturn
    case isTrue hcur =>
    rw [Traced.result_bind_of_ok (readU32_result mem _)] at hturn
    split at hturn
    case isTrue => cases hturn
    case isFalse htyp =>
    rw [Traced.result_bind_of_ok (readU32_result mem _)] at hturn
    split at hturn
    case isTrue => cases hturn
    case isFalse hsize =>
    simp only [Traced.result_bind, Traced.result_lift, bind_eq_ok, addUsize_eq_ok] at hturn
    obtain ⟨st', hhandle, _, ⟨hadd, rfl⟩, hagain⟩ := hturn
    cases hagain
    exact ⟨hlt, hcur, htyp, hsize, hhandle, hadd, rfl⟩
  · rintro ⟨hlt, hcur, htyp, hsize, hhandle, hadd, rfl⟩
    refine ⟨cur + 8, ⟨hlt, rfl⟩, ?_⟩
    rw [if_pos hcur, Traced.result_bind_of_ok (readU32_result mem _), if_neg htyp,
      Traced.result_bind_of_ok (readU32_result mem _), if_neg hsize,
      Traced.result_bind_of_ok hhandle, Traced.result_bind_of_ok (Traced.result_addUsize hadd)]
    rfl

/-- The turns behind which the loop does not go on. -/
theorem tagTurn_ne_again {cur : ℕ} {st : State}
    (hends : ¬cur + 8 ≤ stop ∨ u32At mem cur = tagEnd ∨ u32At mem (cur + 4) < 8)
    (next : ℕ × State) : (tagTurn mem mbiPtr stop (cur, st)).result ≠ .ok (.again next) := by
  intro hagain
  obtain ⟨_, hcur, htyp, hsize, _⟩ := tagTurn_again.mp hagain
  rcases hends with h | h | h
  · exact h hcur
  · exact htyp h
  · exact hsize h

/-- The rest of the loop behind a tag that is handled: what it reads is said of the tags
that follow, with the flags as the tag leaves them. -/
theorem tagLoop_rest {fuel cur : ℕ} {st : State} (hbase : mbiPtr.toNat ≤ cur)
    (hstop : stop + 2 ^ 33 ≤ usizeBound) (hcur : cur + 8 ≤ stop) (htyp : u32At mem cur ≠ tagEnd)
    (hsize : ¬u32At mem (cur + 4) < 8)
    (ih : ∀ (cur : ℕ) (st : State), mbiPtr.toNat ≤ cur →
      ((Traced.loop (tagTurn mem mbiPtr stop) fuel (cur, st)).All (Inside mbiPtr.toNat stop) ↔
        Covered mem mbiPtr stop st.haveRealMemory (st.info.fwTableAddr ≠ mbiPtr)
          (tagsFrom mem stop fuel cur))) :
    (∀ next, (tagTurn mem mbiPtr stop (cur, st)).result = .ok (.again next) →
      (Traced.loop (tagTurn mem mbiPtr stop) fuel next).All (Inside mbiPtr.toNat stop)) ↔
    Covered mem mbiPtr stop
      (st.haveRealMemory || TagAt.DescribesRam mem ⟨cur, u32At mem cur, u32At mem (cur + 4)⟩)
      (st.info.fwTableAddr ≠ mbiPtr ||
        TagAt.PointsToTable mem mbiPtr ⟨cur, u32At mem cur, u32At mem (cur + 4)⟩)
      (tagsFrom mem stop fuel (cur + paddedSize (u32At mem (cur + 4)))) := by
  constructor
  · intro hrest
    have hpadded : paddedSize (u32At mem (cur + 4)) < 2 ^ 32 + 8 := by
      have hlt := (u32At mem (cur + 4)).toNat_lt
      rw [paddedSize_eq]
      omega
    obtain ⟨next, hhandle⟩ : ∃ next, (handleTag mem mbiPtr cur (u32At mem cur)
        (u32At mem (cur + 4)) st).result = .ok next := handleTag_returns hcur hstop
    have hagain := tagTurn_again.mpr ⟨by omega, hcur, htyp, hsize, hhandle, by omega, rfl⟩
    have hall := (ih _ next (by omega)).mp (hrest _ hagain)
    obtain ⟨hram, htable⟩ := handleTag_flags (by omega) hcur hstop hhandle
    rw [hram, htable] at hall
    exact hall
  · rintro hrest ⟨cur', next⟩ hagain
    obtain ⟨_, _, _, _, hhandle, _, rfl⟩ := tagTurn_again.mp hagain
    obtain ⟨hram, htable⟩ := handleTag_flags (by omega) hcur hstop hhandle
    rw [ih _ next (by omega), hram, htable]
    exact hrest

/-- The loop reads inside the block exactly if every tag it reaches is covered. -/
theorem tagLoop_inside (hstop : stop + 2 ^ 33 ≤ usizeBound) (fuel : ℕ) :
    ∀ (cur : ℕ) (st : State), mbiPtr.toNat ≤ cur →
      ((Traced.loop (tagTurn mem mbiPtr stop) fuel (cur, st)).All (Inside mbiPtr.toNat stop) ↔
        Covered mem mbiPtr stop st.haveRealMemory (st.info.fwTableAddr ≠ mbiPtr)
          (tagsFrom mem stop fuel cur)) := by
  induction fuel with
  | zero =>
    intro cur st _
    exact iff_of_true (by simp [Traced.loop, Traced.All]) trivial
  | succ fuel ih =>
    intro cur st hbase
    rw [Traced.all_loop_succ, tagTurn_inside hbase hstop, tagsFrom]
    by_cases hcur : cur + 8 ≤ stop
    · rw [if_pos hcur]
      by_cases hend : u32At mem cur = tagEnd ∨ u32At mem (cur + 4) < 8
      · -- the loop ends at this header
        rw [if_pos hend]
        refine iff_of_true ⟨fun _ htyp hsize => ?_, fun next hagain => ?_⟩ trivial
        · exact absurd hend (not_or.mpr ⟨htyp, hsize⟩)
        · exact absurd hagain (tagTurn_ne_again (.inr hend) next)
      · rw [if_neg hend]
        obtain ⟨htyp, hsize⟩ := not_or.mp hend
        have htag : (cur + 8 ≤ stop → u32At mem cur ≠ tagEnd → ¬u32At mem (cur + 4) < 8 →
            TagAt.Covered mem stop st.haveRealMemory (st.info.fwTableAddr ≠ mbiPtr)
              ⟨cur, u32At mem cur, u32At mem (cur + 4)⟩) ↔
            TagAt.Covered mem stop st.haveRealMemory (st.info.fwTableAddr ≠ mbiPtr)
              ⟨cur, u32At mem cur, u32At mem (cur + 4)⟩ :=
          ⟨fun h => h hcur htyp hsize, fun h _ _ _ => h⟩
        rw [htag]
        exact and_congr_right fun _ => tagLoop_rest hbase hstop hcur htyp hsize ih
    · rw [if_neg hcur]
      refine iff_of_true ⟨fun h => absurd h hcur, fun next hagain => ?_⟩ trivial
      exact absurd hagain (tagTurn_ne_again (.inl hcur) next)

end Loop

/-! ## The parser -/

/-- **Which blocks are read inside their bounds.**  For a block of any bytes whose
first word is a size in range, every read of the parser is inside the block exactly
if every tag that it reaches has the fields of its branch inside the block. -/
theorem parseOrFallback_inside_iff (mem : Memory) (mbiPtr magic : UInt64) (total : UInt32)
    (htotal : u32At mem mbiPtr.toNat = total) (hrange : 16 ≤ total ∧ total ≤ 16 * 1024 * 1024)
    (hblock : mbiPtr.toNat + total.toNat + 2 ^ 33 ≤ 2 ^ 64) :
    (parseOrFallback mem mbiPtr magic).All (Inside mbiPtr.toNat (mbiPtr.toNat + total.toNat)) ↔
      (magic = mb2Magic ∧ mbiPtr ≠ 0 →
        Covered mem mbiPtr (mbiPtr.toNat + total.toNat) false false
          (tagsFrom mem (mbiPtr.toNat + total.toNat) total.toNat (mbiPtr.toNat + 8))) := by
  subst htotal
  have hsixteen : 16 ≤ (u32At mem mbiPtr.toNat).toNat := hrange.1
  have hstop : saturatingAddUsize mbiPtr.toNat (u32At mem mbiPtr.toNat).toNat =
      mbiPtr.toNat + (u32At mem mbiPtr.toNat).toNat := by
    rw [saturatingAddUsize, usizeBound]
    omega
  have hcur : mbiPtr.toNat + 8 < usizeBound := by
    rw [usizeBound]
    omega
  have hinit : decide ((initialInfo mbiPtr).fwTableAddr ≠ mbiPtr) = false := by
    simp [initialInfo]
  unfold parseOrFallback
  by_cases hskip : magic ≠ mb2Magic ∨ mbiPtr = 0
  · rw [if_pos hskip, Traced.all_pure]
    refine iff_of_true trivial fun hread => ?_
    rcases hskip with h | h
    · exact absurd hread.1 h
    · exact absurd h hread.2
  · have hread : magic = mb2Magic ∧ mbiPtr ≠ 0 := by simpa using hskip
    rw [if_neg hskip, Traced.all_bind_of_ok (readU32_result mem _), readU32_all, if_pos hrange,
      hstop, Traced.all_bind_of_ok (Traced.result_addUsize hcur), Traced.all_bind,
      tagLoop_inside (by exact hblock) _ _ _ (by omega), hinit]
    simp only [Traced.all_lift, true_and, Traced.all_pure, implies_true, and_true]
    constructor
    · exact fun h _ => h.2
    · intro h
      exact ⟨⟨le_refl _, by show mbiPtr.toNat + 4 ≤ _; omega⟩, h hread⟩

/-- A block with 640 KiB of lower memory and nothing else. -/
def basicBlock : List UInt8 :=
  toLe 4 32 ++ toLe 4 0 ++ toLe 4 4 ++ toLe 4 16 ++ toLe 4 640 ++ toLe 4 0 ++ toLe 4 0 ++ toLe 4 8

theorem parseOrFallback_inside_iff_basicBlock :
    u32At (.ofBytes 0x1000 basicBlock) 0x1000 = 32 ∧
      (parseOrFallback (.ofBytes 0x1000 basicBlock) 0x1000 mb2Magic).All
        (Inside 0x1000 (0x1000 + 32)) := by
  have htotal : u32At (.ofBytes 0x1000 basicBlock) (0x1000 : UInt64).toNat = 32 := by
    decide +kernel
  have htags : tagsFrom (.ofBytes 0x1000 basicBlock) (0x1000 + 32) 32 (0x1000 + 8) =
      [⟨0x1008, 4, 16⟩] := by
    decide +kernel
  refine ⟨htotal, (parseOrFallback_inside_iff _ 0x1000 mb2Magic 32 htotal (by decide)
    (by decide)).mpr fun _ => ?_⟩
  show Covered _ _ (0x1000 + 32) false false (tagsFrom _ (0x1000 + 32) 32 (0x1000 + 8))
  rw [htags]
  exact ⟨⟨nofun, fun _ _ => by decide, nofun, nofun⟩, trivial⟩

/-- A block of sixteen bytes that ends with the header of a memory-map tag. -/
def truncatedBlock : List UInt8 := toLe 4 16 ++ toLe 4 0 ++ toLe 4 6 ++ toLe 4 8

/-- The parser reads the entry size of that tag, behind the block. -/
theorem parseOrFallback_reads_truncatedBlock :
    u32At (.ofBytes 0x1000 truncatedBlock) 0x1000 = 16 ∧
      ⟨0x1010, 4⟩ ∈ (parseOrFallback (.ofBytes 0x1000 truncatedBlock) 0x1000 mb2Magic).trace ∧
      ¬(parseOrFallback (.ofBytes 0x1000 truncatedBlock) 0x1000 mb2Magic).All
        (Inside 0x1000 (0x1000 + 16)) := by
  decide +kernel

end Hyperion.Hal.Multiboot
