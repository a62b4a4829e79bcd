import Hyperion.Hal.Multiboot
import Hyperion.Lib.Word

/-!
# What each branch of the Multiboot2 parser returns and reads

One pair of lemmas for each branch: its value as a function of memory, and the
condition under which all its reads are good.  The loop over the entries of a
memory map visits `mapCount` entries, stride by stride, and the map it returns is
the first eight usable ones.
-/

namespace Hyperion.Hal

open Hyperion.Lib

/-! ## Memory maps -/

namespace MemoryMap

/-- The sum of the sizes of some banks. -/
def bytesOf (regions : List MemoryRegion) : ℕ := (regions.map fun region => region.size.toNat).sum

/-- `total_bytes` is that sum, modulo `2^64`. -/
theorem toNat_totalBytes (memory : MemoryMap) :
    memory.totalBytes.toNat = bytesOf memory.regions % 2 ^ 64 := by
  have hfold : ∀ (regions : List MemoryRegion) (sum : UInt64),
      (regions.foldl (fun sum region => sum + region.size) sum).toNat =
        (sum.toNat + bytesOf regions) % 2 ^ 64 := by
    intro regions
    induction regions with
    | nil => exact fun sum => (Nat.mod_eq_of_lt sum.toNat_lt).symm
    | cons region rest ih =>
      intro sum
      rw [List.foldl_cons, ih, UInt64.toNat_add, Nat.mod_add_mod, bytesOf, bytesOf,
        List.map_cons, List.sum_cons, Nat.add_assoc]
  rw [totalBytes, hfold]
  simp

/-- A map without banks is the only one with no bytes. -/
theorem bytesOf_eq_zero_iff (memory : MemoryMap) :
    bytesOf memory.regions = 0 ↔ memory.regions = [] := by
  constructor
  · intro hzero
    cases hregions : memory.regions with
    | nil => rfl
    | cons region rest =>
      have hpos : 0 < region.size := memory.size_pos region (by rw [hregions]; simp)
      rw [hregions] at hzero
      have hnat : 0 < region.size.toNat := by
        rw [UInt64.lt_iff_toNat_lt] at hpos
        exact hpos
      simp only [bytesOf, List.map_cons, List.sum_cons] at hzero
      omega
  · intro hnil
    simp [hnil, bytesOf]

theorem totalBytes_ne_zero_iff {memory : MemoryMap} (hsum : bytesOf memory.regions < 2 ^ 64) :
    memory.totalBytes ≠ 0 ↔ memory.regions ≠ [] := by
  rw [Ne, Ne, ← bytesOf_eq_zero_iff, ← UInt64.toNat_inj, toNat_totalBytes, Nat.mod_eq_of_lt hsum]
  rfl

end MemoryMap

namespace Multiboot

/-! ## The entries of a memory map -/

/-- The fields of `MemMapEntry` that are used. -/
structure Entry where
  base : UInt64
  length : UInt64
  typ : UInt32
  deriving DecidableEq, Repr

/-- An entry that describes RAM. -/
def Entry.Usable (entry : Entry) : Prop := entry.typ = memTypeAvailable ∧ entry.length ≠ 0

instance (entry : Entry) : Decidable entry.Usable := inferInstanceAs (Decidable (_ ∧ _))

def Entry.region (entry : Entry) : MemoryRegion := ⟨entry.base, entry.length⟩

/-- The RAM banks among some entries. -/
def usableRegions (entries : List Entry) : List MemoryRegion :=
  (entries.filter fun entry => entry.Usable).map Entry.region

/-- The map of a list of entries: the first eight usable ones. -/
def mapOf (entries : List Entry) : MemoryMap := MemoryMap.empty.pushAll (usableRegions entries)

theorem size_pos_of_usable {entries : List Entry} :
    ∀ region ∈ usableRegions entries, 0 < region.size := by
  intro region hregion
  obtain ⟨entry, hentry, rfl⟩ := List.mem_map.mp hregion
  have husable : entry.Usable := by simpa using (List.mem_filter.mp hentry).2
  exact UInt64.pos_iff_ne_zero.mpr husable.2

theorem regions_mapOf (entries : List Entry) :
    (mapOf entries).regions = (usableRegions entries).take maxMemoryRegions := by
  rw [mapOf, MemoryMap.regions_pushAll size_pos_of_usable]
  rfl

/-- The entry at `p`. -/
def entryAt (mem : Memory) (p : ℕ) : Entry :=
  ⟨u64At mem p, u64At mem (p + 8), u32At mem (p + 16)⟩

/-- `count` entries from `p` on, `stride` bytes apart. -/
def entriesFrom (mem : Memory) (p stride count : ℕ) : List Entry :=
  (List.range count).map fun k => entryAt mem (p + k * stride)

theorem entriesFrom_succ (mem : Memory) (p stride count : ℕ) :
    entriesFrom mem p stride (count + 1) =
      entryAt mem p :: entriesFrom mem (p + stride) stride count := by
  rw [entriesFrom, entriesFrom, List.range_succ_eq_map, List.map_cons, List.map_map]
  refine congrArg₂ List.cons (by rw [Nat.zero_mul, Nat.add_zero]) ?_
  · apply List.map_congr_left
    intro k _
    have hadd : p + (k + 1) * stride = p + stride + k * stride := by
      rw [Nat.succ_mul]
      omega
    rw [Function.comp_apply, Nat.succ_eq_add_one, hadd]

/-- `scanEntry` pushes the bank of a usable entry. -/
theorem scanEntry_result (mem : Memory) (p : ℕ) (map : MemoryMap) :
    (scanEntry mem p map).result = .ok (map.pushAll (usableRegions [entryAt mem p])) := by
  unfold scanEntry
  rw [Traced.result_bind]
  show (if _ then _ else _ : Scan MemoryMap).result = _
  split
  case isTrue htyp =>
    rw [Traced.result_bind]
    show (if _ then _ else _ : Scan MemoryMap).result = _
    split
    case isTrue hlength =>
      have husable : (entryAt mem p).Usable := ⟨htyp, hlength⟩
      simp only [usableRegions, List.filter_cons, decide_eq_true husable]
      rfl
    case isFalse hlength =>
      have hnot : ¬(entryAt mem p).Usable := fun husable => hlength husable.2
      simp only [usableRegions, List.filter_cons, decide_eq_false hnot]
      rfl
  case isFalse htyp =>
    have hnot : ¬(entryAt mem p).Usable := fun husable => htyp husable.1
    simp only [usableRegions, List.filter_cons, decide_eq_false hnot]
    rfl

/-- How many entries of `stride` bytes the loop visits between `p` and `stop`. -/
def mapCount (p stop stride : ℕ) : ℕ := (stop - p) / stride

theorem mapCount_eq_zero {p stop stride : ℕ} (hstride : stride ≠ 0) :
    mapCount p stop stride = 0 ↔ stop < p + stride := by
  rw [mapCount, Nat.div_eq_zero_iff]
  omega

theorem mapCount_eq_succ {p stop stride count : ℕ} (hstride : stride ≠ 0)
    (hcount : mapCount p stop stride = count + 1) :
    p + stride ≤ stop ∧ mapCount (p + stride) stop stride = count := by
  have hle : p + stride ≤ stop := by
    by_contra hnot
    have hzero := (mapCount_eq_zero hstride).mpr (by omega : stop < p + stride)
    omega
  refine ⟨hle, ?_⟩
  have hsub : stop - p = stop - (p + stride) + stride := by omega
  rw [mapCount, hsub, Nat.add_div_right _ (Nat.pos_of_ne_zero hstride)] at hcount
  exact Nat.succ.inj hcount

section EntryLoop

variable {mem : Memory} {stride stop : ℕ}

theorem entryTurn_again {p : ℕ} {map : MemoryMap} (hstride : stride ≠ 0) (hle : p + stride ≤ stop)
    (hstop : stop < usizeBound) :
    (entryTurn mem stride stop (p, map)).result =
      .ok (.again (p + stride, map.pushAll (usableRegions [entryAt mem p]))) := by
  simp only [entryTurn, Traced.result_bind, Traced.result_lift,
    addUsize_of_lt (lt_of_le_of_lt hle hstop)]
  show (if _ then _ else _ : Scan _).result = _
  rw [if_pos ⟨hle, hstride⟩, Traced.result_bind, scanEntry_result]
  rfl

theorem entryTurn_leave {p : ℕ} {map : MemoryMap} (hlt : p + stride < usizeBound)
    (hdone : ¬(p + stride ≤ stop ∧ stride ≠ 0)) :
    (entryTurn mem stride stop (p, map)).result = .ok (.leave map) := by
  simp only [entryTurn, Traced.result_bind, Traced.result_lift, addUsize_of_lt hlt]
  show (if _ then _ else _ : Scan _).result = _
  rw [if_neg hdone]
  rfl

/-- The loop over the entries returns the banks of the entries it visits, if the
address behind the stride after the last one is below `2^64`. -/
theorem entryLoop_result (hstop : stop < usizeBound) (count : ℕ) :
    ∀ (p fuel : ℕ) (map : MemoryMap), mapCount p stop stride = count → count < fuel →
      p + (count + 1) * stride < usizeBound →
      (Traced.loop (entryTurn mem stride stop) fuel (p, map)).result =
        .ok (map.pushAll (usableRegions (entriesFrom mem p stride count))) := by
  induction count with
  | zero =>
    intro p fuel map hcount hfuel hbeyond
    obtain ⟨fuel, rfl⟩ : ∃ n, fuel = n + 1 := ⟨fuel - 1, by omega⟩
    have hdone : ¬(p + stride ≤ stop ∧ stride ≠ 0) := by
      rintro ⟨hle, hstride⟩
      have hlt := (mapCount_eq_zero hstride).mp hcount
      omega
    rw [Traced.result_loop, loop_leave (entryTurn_leave (by omega) hdone)]
    rfl
  | succ count ih =>
    intro p fuel map hcount hfuel hbeyond
    obtain ⟨fuel, rfl⟩ : ∃ n, fuel = n + 1 := ⟨fuel - 1, by omega⟩
    have hstride : stride ≠ 0 := by
      rintro rfl
      simp [mapCount] at hcount
    obtain ⟨hle, hrest⟩ := mapCount_eq_succ hstride hcount
    have hturn : (entryTurn mem stride stop (p, map)).result = .ok (.again (p + stride,
        map.pushAll (usableRegions [entryAt mem p]))) := entryTurn_again hstride hle hstop
    rw [Nat.succ_mul (count + 1)] at hbeyond
    rw [Traced.result_loop, loop_again hturn, ← Traced.result_loop,
      ih (p + stride) fuel _ hrest (by omega) (by omega), entriesFrom_succ]
    congr 1
    rw [MemoryMap.pushAll, MemoryMap.pushAll, ← List.foldl_append, MemoryMap.pushAll]
    congr 1
    simp only [usableRegions, ← List.map_append, ← List.filter_append]
    rfl

end EntryLoop

/-! ## Reads inside the block -/

/-- A read of bytes between `lo` and `hi`. -/
def Inside (lo hi : ℕ) (read : Read) : Prop := lo ≤ read.addr ∧ read.addr + read.width ≤ hi

instance (lo hi : ℕ) (read : Read) : Decidable (Inside lo hi read) :=
  inferInstanceAs (Decidable (_ ∧ _))

section Reads

variable {P : Read → Prop} (mem : Memory) (addr : ℕ)

@[simp] theorem readU8_result : (readU8 mem addr).result = .ok (u8At mem addr) := rfl
@[simp] theorem readU32_result : (readU32 mem addr).result = .ok (u32At mem addr) := rfl
@[simp] theorem readU64_result : (readU64 mem addr).result = .ok (u64At mem addr) := rfl

@[simp] theorem readU8_all : (readU8 mem addr).All P ↔ P ⟨addr, 1⟩ := Traced.all_emit _ _
@[simp] theorem readU32_all : (readU32 mem addr).All P ↔ P ⟨addr, 4⟩ := Traced.all_emit _ _
@[simp] theorem readU64_all : (readU64 mem addr).All P ↔ P ⟨addr, 8⟩ := Traced.all_emit _ _

end Reads

section MapReads

variable {mem : Memory} {lo hi stride stop : ℕ}

/-- The fields of an entry that are used end with its type. -/
theorem scanEntry_inside {p : ℕ} (map : MemoryMap) (hlo : lo ≤ p) :
    (scanEntry mem p map).All (Inside lo hi) ↔ p + 20 ≤ hi := by
  rw [scanEntry, Traced.all_bind_of_ok (readU32_result mem (p + 16)), readU32_all]
  constructor
  · rintro ⟨⟨_, hend⟩, _⟩
    exact hend
  · intro hend
    refine ⟨⟨by show lo ≤ p + 16; omega, hend⟩, ?_⟩
    split
    · rw [Traced.all_bind_of_ok (readU64_result mem (p + 8)), readU64_all]
      refine ⟨⟨by show lo ≤ p + 8; omega, by show p + 8 + 8 ≤ hi; omega⟩, ?_⟩
      split
      · rw [Traced.all_bind_of_ok (readU64_result mem p), readU64_all]
        exact ⟨⟨hlo, by show p + 8 ≤ hi; omega⟩, by simp⟩
      · simp
    · simp

theorem entryTurn_inside {p : ℕ} (map : MemoryMap) (hlo : lo ≤ p) (hstop : stop < usizeBound) :
    (entryTurn mem stride stop (p, map)).All (Inside lo hi) ↔
      (p + stride ≤ stop ∧ stride ≠ 0 → p + 20 ≤ hi) := by
  simp only [entryTurn, Traced.all_bind, Traced.all_lift, Traced.result_lift, true_and,
    addUsize_eq_ok]
  constructor
  · intro hall hvisit
    have hnext := hall (p + stride) ⟨lt_of_le_of_lt hvisit.1 hstop, rfl⟩
    rw [if_pos hvisit, Traced.all_bind, scanEntry_inside map hlo] at hnext
    exact hnext.1
  · rintro hinside next ⟨_, rfl⟩
    split
    · rename_i hvisit
      rw [Traced.all_bind, scanEntry_inside map hlo]
      exact ⟨hinside hvisit, fun _ _ => by simp⟩
    · simp

/-- The loop reads inside the block if every entry it visits is inside. -/
theorem entryLoop_inside (hstop : stop < usizeBound) (count : ℕ) :
    ∀ (p fuel : ℕ) (map : MemoryMap), lo ≤ p → mapCount p stop stride = count → count < fuel →
      p + (count + 1) * stride < usizeBound →
      ((Traced.loop (entryTurn mem stride stop) fuel (p, map)).All (Inside lo hi) ↔
        ∀ k < count, p + k * stride + 20 ≤ hi) := by
  induction count with
  | zero =>
    intro p fuel map hlo hcount hfuel hbeyond
    obtain ⟨fuel, rfl⟩ : ∃ n, fuel = n + 1 := ⟨fuel - 1, by omega⟩
    have hdone : ¬(p + stride ≤ stop ∧ stride ≠ 0) := by
      rintro ⟨hle, hstride⟩
      have hlt := (mapCount_eq_zero hstride).mp hcount
      omega
    rw [Traced.all_loop_succ, entryTurn_inside map hlo hstop]
    refine iff_of_true ⟨fun hvisit => absurd hvisit hdone, ?_⟩ (by simp)
    intro next hnext
    rw [entryTurn_leave (by omega) hdone] at hnext
    cases hnext
  | succ count ih =>
    intro p fuel map hlo hcount hfuel hbeyond
    obtain ⟨fuel, rfl⟩ : ∃ n, fuel = n + 1 := ⟨fuel - 1, by omega⟩
    rw [Nat.succ_mul (count + 1)] at hbeyond
    have hstride : stride ≠ 0 := by
      rintro rfl
      simp [mapCount] at hcount
    obtain ⟨hle, hrest⟩ := mapCount_eq_succ hstride hcount
    rw [Traced.all_loop_succ, entryTurn_inside map hlo hstop, entryTurn_again hstride hle hstop]
    simp only [Except.ok.injEq, Turn.again.injEq, forall_eq']
    rw [ih (p + stride) fuel _ (by omega) hrest (by omega) (by omega), Nat.forall_lt_succ_left]
    have hshift : ∀ k, p + stride + k * stride = p + (k + 1) * stride := by
      intro k
      rw [Nat.succ_mul]
      omega
    simp only [hshift, Nat.zero_mul, Nat.add_zero]
    constructor
    · rintro ⟨hfirst, hothers⟩
      exact ⟨hfirst ⟨hle, hstride⟩, hothers⟩
    · rintro ⟨hfirst, hothers⟩
      exact ⟨fun _ => hfirst, hothers⟩

end MapReads

/-! ## The branches -/

/-- `entry_size` of the memory-map tag at `cur`. -/
def strideAt (mem : Memory) (cur : ℕ) : ℕ := (u32At mem (cur + 8)).toNat

/-- The number of entries visited in a memory-map tag of `size` bytes at `cur`. -/
def countAt (mem : Memory) (cur : ℕ) (size : UInt32) : ℕ := (size.toNat - 16) / strideAt mem cur

/-- The entries visited in a memory-map tag of `size` bytes at `cur`. -/
def entriesAt (mem : Memory) (cur : ℕ) (size : UInt32) : List Entry :=
  entriesFrom mem (cur + 16) (strideAt mem cur) (countAt mem cur size)

/-- No address computed for a memory-map tag passes `2^64`. -/
structure MapReaches (mem : Memory) (cur : ℕ) (size : UInt32) : Prop where
  start_lt : cur + 16 < usizeBound
  end_lt : cur + size.toNat < usizeBound
  beyond_lt : cur + 16 + (countAt mem cur size + 1) * strideAt mem cur < usizeBound

section Branches

variable {mem : Memory} {cur : ℕ} {size : UInt32}

theorem countAt_eq (mem : Memory) (cur : ℕ) (size : UInt32) :
    mapCount (cur + 16) (cur + size.toNat) (strideAt mem cur) = countAt mem cur size := by
  rw [mapCount, countAt, Nat.add_sub_add_left]

theorem countAt_lt (mem : Memory) (cur : ℕ) (size : UInt32) :
    countAt mem cur size < size.toNat + 1 := by
  have hle : countAt mem cur size ≤ size.toNat - 16 := Nat.div_le_self _ _
  omega

theorem scanMemoryMap_result (hreaches : MapReaches mem cur size) :
    (scanMemoryMap mem cur size).result = .ok (mapOf (entriesAt mem cur size)) := by
  obtain ⟨hstart, hend, hbeyond⟩ := hreaches
  have hbody : cur + 8 < usizeBound := by omega
  have hstart' : cur + 8 + 8 < usizeBound := hstart
  simp only [scanMemoryMap, Traced.result_bind, Traced.result_lift, addUsize_of_lt hbody,
    readU32_result]
  show ((addUsize (cur + 8) 8 >>= fun start => addUsize cur size.toNat >>= fun stop =>
    (Traced.loop (entryTurn mem (strideAt mem cur) stop) (size.toNat + 1)
      (start, MemoryMap.empty)).result) : Checked MemoryMap) = _
  rw [addUsize_of_lt hstart', addUsize_of_lt hend]
  exact entryLoop_result hend (countAt mem cur size) (cur + 16) _ _ (countAt_eq mem cur size)
    (countAt_lt mem cur size) hbeyond

/-- The reads of a memory-map tag: its entry size, and the entries it visits. -/
theorem scanMemoryMap_inside {lo hi : ℕ} (hlo : lo ≤ cur) (hreaches : MapReaches mem cur size) :
    (scanMemoryMap mem cur size).All (Inside lo hi) ↔
      cur + 12 ≤ hi ∧ ∀ k < countAt mem cur size, cur + 16 + k * strideAt mem cur + 20 ≤ hi := by
  obtain ⟨hstart, hend, hbeyond⟩ := hreaches
  have hbody : cur + 8 < usizeBound := by omega
  have hstart' : cur + 8 + 8 < usizeBound := hstart
  have hread : Inside lo hi ⟨cur + 8, 4⟩ ↔ cur + 12 ≤ hi :=
    ⟨fun hinside => hinside.2, fun hend => ⟨by show lo ≤ cur + 8; omega, hend⟩⟩
  rw [scanMemoryMap, Traced.all_bind_of_ok (Traced.result_addUsize hbody), Traced.all_lift,
    true_and, Traced.all_bind_of_ok (readU32_result mem _), readU32_all, hread,
    Traced.all_bind_of_ok (Traced.result_addUsize hstart'), Traced.all_lift, true_and,
    Traced.all_bind_of_ok (Traced.result_addUsize hend), Traced.all_lift, true_and]
  exact and_congr_right fun _ => entryLoop_inside hend (countAt mem cur size) (cur + 16) _ _
    (by omega) (countAt_eq mem cur size) (countAt_lt mem cur size) hbeyond

/-- The banks of a basic-meminfo tag. -/
def basicRegions (lower upper : UInt32) : List MemoryRegion :=
  (if lower ≠ 0 then [⟨0, lower.toUInt64 * 1024⟩] else []) ++
    if upper ≠ 0 then [⟨0x100000, upper.toUInt64 * 1024⟩] else []

/-- The map of a basic-meminfo tag. -/
def basicMap (lower upper : UInt32) : MemoryMap :=
  MemoryMap.empty.pushAll (basicRegions lower upper)

theorem toNat_kib (n : UInt32) : (n.toUInt64 * 1024).toNat = n.toNat * 1024 := by
  have hlt := n.toNat_lt
  rw [UInt64.toNat_mul, UInt32.toNat_toUInt64]
  exact Nat.mod_eq_of_lt (by show n.toNat * 1024 < 2 ^ 64; omega)

theorem size_pos_of_basic {lower upper : UInt32} :
    ∀ region ∈ basicRegions lower upper, 0 < region.size := by
  have hpos : ∀ n : UInt32, n ≠ 0 → 0 < n.toUInt64 * 1024 := by
    intro n hn
    have hnat : n.toNat ≠ 0 := fun h => hn (UInt32.toNat_inj.mp h)
    rw [UInt64.lt_iff_toNat_lt, toNat_kib]
    show 0 < n.toNat * 1024
    omega
  intro region hregion
  rcases List.mem_append.mp hregion with hmem | hmem
  · split at hmem
    · rename_i hne
      rw [List.mem_singleton.mp hmem]
      exact hpos lower hne
    · cases hmem
  · split at hmem
    · rename_i hne
      rw [List.mem_singleton.mp hmem]
      exact hpos upper hne
    · cases hmem

theorem regions_basicMap (lower upper : UInt32) :
    (basicMap lower upper).regions = basicRegions lower upper := by
  rw [basicMap, MemoryMap.regions_pushAll size_pos_of_basic]
  apply List.take_of_length_le
  unfold basicRegions
  split <;> split <;> simp [MemoryMap.empty, maxMemoryRegions]

/-- The two numbers are of 32 bits, so their sum in bytes fits. -/
theorem bytesOf_basicMap (lower upper : UInt32) :
    MemoryMap.bytesOf (basicMap lower upper).regions < 2 ^ 64 := by
  have hlower := lower.toNat_lt
  have hupper := upper.toNat_lt
  rw [regions_basicMap, basicRegions, MemoryMap.bytesOf]
  split <;> split <;> simp only [List.map_append, List.map_cons, List.map_nil, List.sum_append,
    List.sum_cons, List.sum_nil, toNat_kib] <;> omega

theorem scanBasicMemInfo_result (hcur : cur + 12 < usizeBound) :
    (scanBasicMemInfo mem cur).result =
      .ok (basicMap (u32At mem (cur + 8)) (u32At mem (cur + 12))) := by
  have hbody : cur + 8 < usizeBound := by omega
  have hsecond : cur + 8 + 4 < usizeBound := hcur
  rw [scanBasicMemInfo, Traced.result_bind_of_ok (Traced.result_addUsize hbody),
    Traced.result_bind_of_ok (readU32_result mem _),
    Traced.result_bind_of_ok (Traced.result_addUsize hsecond),
    Traced.result_bind_of_ok (readU32_result mem _), Traced.result_pure, basicMap, basicRegions]
  split <;> split <;> rfl

/-- The branch for basic memory information. -/
theorem handleBasicMemInfo_result {mbiPtr : UInt64} {st : State} (hcur : cur + 12 < usizeBound) :
    (handleTag mem mbiPtr cur tagBasicMemInfo size st).result =
      .ok (if st.haveRealMemory = true ∨
          basicRegions (u32At mem (cur + 8)) (u32At mem (cur + 12)) = [] then st
        else { st with
          info.memory := basicMap (u32At mem (cur + 8)) (u32At mem (cur + 12)) }) := by
  rw [handleTag, if_neg (by decide), if_pos rfl]
  split
  case isTrue hreal =>
    rw [if_pos (.inl hreal)]
    rfl
  case isFalse hreal =>
    have htotal := MemoryMap.totalBytes_ne_zero_iff
      (bytesOf_basicMap (u32At mem (cur + 8)) (u32At mem (cur + 12)))
    rw [regions_basicMap] at htotal
    rw [Traced.result_bind_of_ok (scanBasicMemInfo_result hcur)]
    by_cases hnil : basicRegions (u32At mem (cur + 8)) (u32At mem (cur + 12)) = []
    · rw [if_pos (Or.inr hnil), if_neg fun h => htotal.mp h hnil]
      rfl
    · rw [if_neg (not_or.mpr ⟨hreal, hnil⟩), if_pos (htotal.mpr hnil)]
      rfl

theorem scanBasicMemInfo_inside {lo hi : ℕ} (hlo : lo ≤ cur) (hhi : hi < usizeBound)
    (hcur : cur + 8 < usizeBound) :
    (scanBasicMemInfo mem cur).All (Inside lo hi) ↔ cur + 16 ≤ hi := by
  simp only [scanBasicMemInfo, Traced.all_bind, Traced.all_lift, Traced.result_lift, readU32_all,
    readU32_result, addUsize_eq_ok, true_and, Except.ok.injEq]
  constructor
  · intro hall
    obtain ⟨hfirst, hrest⟩ := hall (cur + 8) ⟨hcur, rfl⟩
    have hend : cur + 12 ≤ hi := hfirst.2
    obtain ⟨hsecond, _⟩ := hrest _ rfl (cur + 12) ⟨by omega, rfl⟩
    exact hsecond.2
  · rintro hend body ⟨_, rfl⟩
    refine ⟨⟨by show lo ≤ cur + 8; omega, by show cur + 8 + 4 ≤ hi; omega⟩, ?_⟩
    rintro _ rfl second ⟨_, rfl⟩
    exact ⟨⟨by show lo ≤ cur + 8 + 4; omega, by show cur + 8 + 4 + 4 ≤ hi; omega⟩,
      fun _ _ => by simp⟩

/-- The tag at `cur` describes direct RGB with 32 bits per pixel. -/
def IsRgb32 (mem : Memory) (cur : ℕ) : Prop := u8At mem (cur + 29) = 1 ∧ u8At mem (cur + 28) = 32

instance (mem : Memory) (cur : ℕ) : Decidable (IsRgb32 mem cur) :=
  inferInstanceAs (Decidable (_ ∧ _))

/-- The framebuffer that a tag at `cur` describes. -/
def framebufferAt (mem : Memory) (cur : ℕ) : FramebufferInfo where
  base := u64At mem (cur + 8)
  width := u32At mem (cur + 20)
  height := u32At mem (cur + 24)
  strideBytes := u32At mem (cur + 16)
  bpp := 32
  format := if 16 ≤ u8At mem (cur + 32) then .bgra8888 else .rgba8888

theorem scanFramebuffer_result (hcur : cur + 32 < usizeBound) :
    (scanFramebuffer mem cur).result =
      .ok (if IsRgb32 mem cur then some (framebufferAt mem cur) else none) := by
  have hrgb : cur + fbTagSize < usizeBound := hcur
  rw [scanFramebuffer, Traced.result_bind_of_ok (readU8_result mem _)]
  by_cases htype : u8At mem (cur + 29) = 1
  · rw [if_pos htype, Traced.result_bind_of_ok (readU8_result mem _)]
    by_cases hbpp : u8At mem (cur + 28) = 32
    · rw [if_pos hbpp, if_pos ⟨htype, hbpp⟩, Traced.result_bind_of_ok (Traced.result_addUsize hrgb),
        Traced.result_bind_of_ok (readU8_result mem _),
        Traced.result_bind_of_ok (readU64_result mem _),
        Traced.result_bind_of_ok (readU32_result mem _),
        Traced.result_bind_of_ok (readU32_result mem _),
        Traced.result_bind_of_ok (readU32_result mem _), Traced.result_pure, hbpp]
      rfl
    · rw [if_neg hbpp, if_neg fun hrgb => hbpp hrgb.2]
      rfl
  · rw [if_neg htype, if_neg fun hrgb => htype hrgb.1]
    rfl

/-- The reads of a framebuffer tag: its type and depth, and the rest of its fields
with the colour descriptor behind them where they are used. -/
theorem scanFramebuffer_inside {lo hi : ℕ} (hlo : lo ≤ cur) (hcur : cur + 32 < usizeBound) :
    (scanFramebuffer mem cur).All (Inside lo hi) ↔
      cur + 30 ≤ hi ∧ (IsRgb32 mem cur → cur + 33 ≤ hi) := by
  have hinside : ∀ off width, Inside lo hi ⟨cur + off, width⟩ ↔ cur + off + width ≤ hi := by
    intro off width
    exact ⟨fun h => h.2, fun h => ⟨by show lo ≤ cur + off; omega, h⟩⟩
  rw [scanFramebuffer, Traced.all_bind_of_ok (readU8_result mem _), readU8_all, hinside]
  by_cases htype : u8At mem (cur + 29) = 1
  · rw [if_pos htype, Traced.all_bind_of_ok (readU8_result mem _), readU8_all, hinside]
    by_cases hbpp : u8At mem (cur + 28) = 32
    · rw [if_pos hbpp]
      simp only [Traced.all_bind, Traced.all_lift, Traced.result_lift, readU8_all, readU8_result,
        readU32_all, readU32_result, readU64_all, readU64_result, addUsize_eq_ok, true_and,
        Except.ok.injEq, forall_eq', hinside, Traced.all_pure, and_true, implies_true, fbTagSize]
      have hrgb : IsRgb32 mem cur := ⟨htype, hbpp⟩
      constructor
      · rintro ⟨hfirst, _, hrest⟩
        exact ⟨hfirst, fun _ => (hrest (cur + 32) ⟨hcur, rfl⟩).1.2⟩
      · rintro ⟨hfirst, hrest⟩
        refine ⟨hfirst, by omega, ?_⟩
        rintro rgb ⟨_, rfl⟩
        have hend := hrest hrgb
        refine ⟨⟨by show lo ≤ cur + 32; omega, hend⟩, ?_⟩
        omega
    · rw [if_neg hbpp]
      simp only [Traced.all_pure, and_true]
      constructor
      · rintro ⟨hfirst, _⟩
        exact ⟨hfirst, fun hrgb => absurd hrgb.2 hbpp⟩
      · rintro ⟨hfirst, _⟩
        exact ⟨hfirst, by omega⟩
  · rw [if_neg htype]
    simp only [Traced.all_pure, and_true]
    exact ⟨fun hfirst => ⟨hfirst, fun hrgb => absurd hrgb.1 htype⟩, fun h => h.1⟩

end Branches

/-- A tag takes its size, rounded up to a multiple of eight. -/
theorem paddedSize_eq (size : UInt32) : paddedSize size = (size.toNat + 7) / 8 * 8 :=
  ldiff_two_pow_sub_one (size.toNat + 7) 3

end Multiboot

end Hyperion.Hal
