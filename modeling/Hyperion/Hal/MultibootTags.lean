import Hyperion.Hal.MultibootReads

/-!
# What the Multiboot2 parser makes of a well-formed block

A block is a header, a list of tags padded to eight bytes, and an end tag.  `Tag` is
the syntax of the tags, as the boot loader writes them: entries of a memory map may
be longer than the fields the kernel knows, the bytes of the padding are arbitrary,
and a tag of another type may hold anything.

The parser carries two pieces of state from tag to tag, so the order of the tags
could matter.  `ramOf`, `framebufferOf` and `tableOf` say without any state what it
finds: the last tag of each kind that says something counts, a memory map goes
before basic memory information and a pointer to the RSDP before one to the EFI
system table.

Two kinds of blocks are left out.  A block at address zero is not read at all, and
the loop over a memory map computes the address one entry behind the last one, so
that address has to fit in 64 bits along with the block.
-/

namespace Hyperion.Hal.Multiboot

open Hyperion.Lib

/-! ## Tags -/

/-- An entry of a memory map; `rest` is what follows the three fields in use. -/
structure MapEntry where
  entry : Entry
  rest : List UInt8

def MapEntry.bytes (mapEntry : MapEntry) : List UInt8 :=
  toLe 8 mapEntry.entry.base.toNat ++ (toLe 8 mapEntry.entry.length.toNat ++
    (toLe 4 mapEntry.entry.typ.toNat ++ mapEntry.rest))

/-- The fields of a framebuffer tag; `colour` describes the pixels, and starts with the
position of the red field where the type is direct RGB. -/
structure FramebufferTag where
  addr : UInt64
  pitch : UInt32
  width : UInt32
  height : UInt32
  bpp : UInt8
  fbType : UInt8
  reserved : UInt16
  colour : List UInt8

def FramebufferTag.bytes (fb : FramebufferTag) : List UInt8 :=
  toLe 8 fb.addr.toNat ++ (toLe 4 fb.pitch.toNat ++ (toLe 4 fb.width.toNat ++
    (toLe 4 fb.height.toNat ++ ([fb.bpp] ++ ([fb.fbType] ++
      (toLe 2 fb.reserved.toNat ++ fb.colour))))))

inductive Tag where
  | memoryMap (entrySize version : UInt32) (entries : List MapEntry)
  | basicMemInfo (lower upper : UInt32)
  | framebuffer (fb : FramebufferTag)
  | rsdpOld (payload : List UInt8)
  | rsdpNew (payload : List UInt8)
  | efi64Systab (addr : UInt64)
  | other (typ : UInt32) (payload : List UInt8)

namespace Tag

def typ : Tag → UInt32
  | memoryMap .. => tagMemoryMap
  | basicMemInfo .. => tagBasicMemInfo
  | framebuffer _ => tagFramebufferInfo
  | rsdpOld _ => tagRsdpOld
  | rsdpNew _ => tagRsdpNew
  | efi64Systab _ => tagEfi64Systab
  | other typ _ => typ

/-- What follows the header of a tag. -/
def body : Tag → List UInt8
  | memoryMap entrySize version entries =>
    toLe 4 entrySize.toNat ++ (toLe 4 version.toNat ++ entries.flatMap MapEntry.bytes)
  | basicMemInfo lower upper => toLe 4 lower.toNat ++ toLe 4 upper.toNat
  | framebuffer fb => fb.bytes
  | rsdpOld payload => payload
  | rsdpNew payload => payload
  | efi64Systab addr => toLe 8 addr.toNat
  | other _ payload => payload

/-- The number in the `size` field of the header. -/
def size (tag : Tag) : ℕ := 8 + tag.body.length

/-- The types that the parser knows. -/
def knownTypes : List UInt32 :=
  [tagEnd, tagBasicMemInfo, tagMemoryMap, tagFramebufferInfo, tagEfi64Systab, tagRsdpOld,
    tagRsdpNew]

def WellFormed : Tag → Prop
  | memoryMap entrySize _ entries =>
    24 ≤ entrySize.toNat ∧ ∀ mapEntry ∈ entries, mapEntry.bytes.length = entrySize.toNat
  | framebuffer fb => fb.fbType = 1 → 6 ≤ fb.colour.length
  | other typ _ => typ ∉ knownTypes
  | basicMemInfo .. | rsdpOld _ | rsdpNew _ | efi64Systab _ => True

/-- The entry size of a memory map. -/
def stride : Tag → ℕ
  | memoryMap entrySize _ _ => entrySize.toNat
  | _ => 0

/-- The usable banks of a memory map. -/
def banks : Tag → List MemoryRegion
  | memoryMap _ _ entries => usableRegions (entries.map MapEntry.entry)
  | _ => []

/-- The RAM that a memory map describes, if it does. -/
def ram? (tag : Tag) : Option (List MemoryRegion) :=
  if tag.banks = [] then none else some (tag.banks.take maxMemoryRegions)

/-- The RAM that basic memory information describes, if it does. -/
def basic? : Tag → Option (List MemoryRegion)
  | basicMemInfo lower upper =>
    if basicRegions lower upper = [] then none else some (basicRegions lower upper)
  | _ => none

/-- The framebuffer of a tag for direct RGB with 32 bits per pixel. -/
def framebuffer? : Tag → Option FramebufferInfo
  | framebuffer fb =>
    if fb.fbType = 1 ∧ fb.bpp = 32 then
      some
        { base := fb.addr
          width := fb.width
          height := fb.height
          strideBytes := fb.pitch
          bpp := 32
          format := if 16 ≤ fb.colour.headD 0 then .bgra8888 else .rgba8888 }
    else none
  | _ => none

/-- Whether the payload of the tag is a copy of the RSDP. -/
def isRsdp : Tag → Bool
  | rsdpOld _ | rsdpNew _ => true
  | _ => false

/-- The address of the EFI system table. -/
def systab? : Tag → Option UInt64
  | efi64Systab addr => some addr
  | _ => none

end Tag

/-! ## Blocks -/

/-- A well-formed tag with the bytes that fill it up to a multiple of eight. -/
structure PaddedTag where
  tag : Tag
  padding : List UInt8
  wellFormed : tag.WellFormed
  length_padding : padding.length < 8 ∧ 8 ∣ tag.size + padding.length

def PaddedTag.length (padded : PaddedTag) : ℕ := padded.tag.size + padded.padding.length

def PaddedTag.bytes (padded : PaddedTag) : List UInt8 :=
  toLe 4 padded.tag.typ.toNat ++ (toLe 4 padded.tag.size ++ (padded.tag.body ++ padded.padding))

def endTag : List UInt8 := toLe 4 tagEnd.toNat ++ toLe 4 8

/-- The bytes that a list of tags takes. -/
def lengthOf (tags : List PaddedTag) : ℕ := (tags.map PaddedTag.length).sum

theorem lengthOf_cons (padded : PaddedTag) (tags : List PaddedTag) :
    lengthOf (padded :: tags) = padded.length + lengthOf tags := by
  simp [lengthOf]

theorem PaddedTag.eight_le_length (padded : PaddedTag) : 8 ≤ padded.length := by
  rw [PaddedTag.length, Tag.size]
  omega

/-- The tags between the header and the end tag. -/
structure Block where
  reserved : UInt32
  tags : List PaddedTag
  total_le : 16 + lengthOf tags ≤ 16 * 1024 * 1024

namespace Block

/-- `total_size`. -/
def total (block : Block) : ℕ := 16 + lengthOf block.tags

def bytes (block : Block) : List UInt8 :=
  toLe 4 block.total ++ (toLe 4 block.reserved.toNat ++
    (block.tags.flatMap PaddedTag.bytes ++ endTag))

/-- The tags of a block without their padding. -/
def contents (block : Block) : List Tag := block.tags.map PaddedTag.tag

end Block

/-- Each tag with its address, the first one at `cur`. -/
def place (cur : ℕ) : List PaddedTag → List (ℕ × Tag)
  | [] => []
  | padded :: tags => (cur, padded.tag) :: place (cur + padded.length) tags

/-- The tags of a block at `mbiPtr` with their addresses. -/
def Block.placed (block : Block) (mbiPtr : UInt64) : List (ℕ × Tag) :=
  place (mbiPtr.toNat + 8) block.tags

/-- The block is in memory at `mbiPtr`, and what it says is consistent. -/
structure Block.LoadedAt (block : Block) (mem : Memory) (mbiPtr : UInt64) : Prop where
  holds : mem.Holds mbiPtr.toNat block.bytes
  ne_zero : mbiPtr ≠ 0
  below : mbiPtr.toNat + block.total < 2 ^ 64
  stride_below : ∀ p ∈ block.placed mbiPtr, p.1 + p.2.size + p.2.stride < 2 ^ 64
  banks_below : ∀ tag ∈ block.contents, MemoryMap.bytesOf tag.banks < 2 ^ 64
  systab_ne : ∀ tag ∈ block.contents, tag.systab? ≠ some mbiPtr

/-! ## What a block says -/

/-- The RAM described by the last memory map that describes any, otherwise by the
last basic memory information that does. -/
def ramOf (tags : List Tag) : List MemoryRegion :=
  ((tags.filterMap Tag.ram?).getLast?).getD
    (((tags.filterMap Tag.basic?).getLast?).getD qemuQ35Fallback.memory.regions)

/-- The last framebuffer the kernel can use. -/
def framebufferOf (tags : List Tag) : Option FramebufferInfo :=
  (tags.filterMap Tag.framebuffer?).getLast?

/-- The tables that a description of the machine can point to. -/
inductive Table where
  | rsdp (tag : Tag)
  | systab (addr : UInt64)
  | block

/-- The RSDP in the last tag that has one, otherwise the first EFI system table,
otherwise the block itself. -/
def tableOf (tags : List Tag) : Table :=
  match (tags.filter Tag.isRsdp).getLast? with
  | some tag => .rsdp tag
  | none =>
    match (tags.filterMap Tag.systab?).head? with
    | some addr => .systab addr
    | none => .block

/-- The address of a table: the payload of a tag of the block, an address in a tag, or
that of the block. -/
def tableAddr (mbiPtr : UInt64) (placed : List (ℕ × Tag)) : UInt64 :=
  match (placed.filter fun p => p.2.isRsdp).getLast? with
  | some (cur, _) => UInt64.ofNat (cur + 8)
  | none => ((placed.filterMap fun p => p.2.systab?).head?).getD mbiPtr

/-- `addr` is the address of `table`. -/
def Table.At (mbiPtr : UInt64) (placed : List (ℕ × Tag)) (addr : UInt64) : Table → Prop
  | .rsdp tag => ∃ cur, (cur, tag) ∈ placed ∧ addr.toNat = cur + 8
  | .systab value => addr = value
  | .block => addr = mbiPtr

/-! ## Reading the fields back -/

section Fields

variable {mem : Memory} {addr : ℕ}

theorem toNat_u32At {n : ℕ} (hholds : mem.Holds addr (toLe 4 n)) (hn : n < 2 ^ 32) :
    (u32At mem addr).toNat = n := by
  rw [u32At, hholds.load_toLe hn, UInt32.toNat_ofNat_of_lt' hn]

theorem u32At_of_holds {value : UInt32} (hholds : mem.Holds addr (toLe 4 value.toNat)) :
    u32At mem addr = value :=
  UInt32.toNat_inj.mp (toNat_u32At hholds value.toNat_lt)

theorem u64At_of_holds {value : UInt64} (hholds : mem.Holds addr (toLe 8 value.toNat)) :
    u64At mem addr = value := by
  rw [u64At, hholds.load_toLe value.toNat_lt, UInt64.ofNat_toNat]

theorem u8At_of_holds {value : UInt8} {rest : List UInt8}
    (hholds : mem.Holds addr (value :: rest)) : u8At mem addr = value := by
  have hbyte : mem addr = value := by
    have hhead := congrArg List.head? hholds
    simpa [Memory.bytesFrom, List.head?_range] using hhead
  rw [u8At, Memory.load]
  simp [Memory.bytesFrom, fromLe, hbyte]

theorem entryAt_of_holds {mapEntry : MapEntry} (hholds : mem.Holds addr mapEntry.bytes) :
    entryAt mem addr = mapEntry.entry := by
  simp only [MapEntry.bytes, Memory.holds_append, length_toLe] at hholds
  obtain ⟨hbase, hlength, htyp, _⟩ := hholds
  rw [entryAt, u64At_of_holds hbase, u64At_of_holds hlength, u32At_of_holds htyp]

theorem length_entries {entries : List MapEntry} {stride : ℕ}
    (hstride : ∀ mapEntry ∈ entries, mapEntry.bytes.length = stride) :
    (entries.flatMap MapEntry.bytes).length = entries.length * stride := by
  rw [List.length_flatMap, List.map_congr_left hstride, List.map_const', List.sum_replicate,
    smul_eq_mul]

/-- The entries of a memory map are found stride by stride. -/
theorem entriesFrom_of_holds {entries : List MapEntry} {stride : ℕ}
    (hstride : ∀ mapEntry ∈ entries, mapEntry.bytes.length = stride)
    (hholds : mem.Holds addr (entries.flatMap MapEntry.bytes)) :
    entriesFrom mem addr stride entries.length = entries.map MapEntry.entry := by
  induction entries generalizing addr with
  | nil => rfl
  | cons first rest ih =>
    rw [List.flatMap_cons, Memory.holds_append, hstride first List.mem_cons_self] at hholds
    rw [List.length_cons, entriesFrom_succ, entryAt_of_holds hholds.1,
      ih (fun mapEntry hmem => hstride mapEntry (List.mem_cons_of_mem _ hmem)) hholds.2,
      List.map_cons]

end Fields

/-! ## One tag -/

/-- What a tag at `cur` does to the state of the parser. -/
def State.read (mbiPtr : UInt64) (st : State) : ℕ × Tag → State
  | (_, .memoryMap _ _ entries) =>
    if usableRegions (entries.map MapEntry.entry) = [] then st
    else ⟨{ st.info with memory := mapOf (entries.map MapEntry.entry) }, true⟩
  | (_, .basicMemInfo lower upper) =>
    if st.haveRealMemory = true ∨ basicRegions lower upper = [] then st
    else { st with info.memory := basicMap lower upper }
  | (_, .framebuffer fb) =>
    match (Tag.framebuffer fb).framebuffer? with
    | some info => { st with info.framebuffer := some info }
    | none => st
  | (cur, .rsdpOld _) | (cur, .rsdpNew _) =>
    { st with info.fwTableAddr := UInt64.ofNat (cur + 8) }
  | (_, .efi64Systab addr) =>
    if st.info.fwTableAddr = mbiPtr then { st with info.fwTableAddr := addr } else st
  | (_, .other _ _) => st

theorem MemoryMap.bytesOf_take_le (regions : List MemoryRegion) (n : ℕ) :
    MemoryMap.bytesOf (regions.take n) ≤ MemoryMap.bytesOf regions := by
  have hsplit : MemoryMap.bytesOf regions =
      MemoryMap.bytesOf (regions.take n) + MemoryMap.bytesOf (regions.drop n) := by
    conv_lhs => rw [← List.take_append_drop n regions]
    simp only [MemoryMap.bytesOf, List.map_append, List.sum_append]
  omega

section OneTag

variable {mem : Memory} {mbiPtr : UInt64} {cur : ℕ} {size : UInt32} {st : State}

/-- The entries of a memory map in memory are those of the tag. -/
theorem entriesAt_of_holds {entrySize version : UInt32} {entries : List MapEntry}
    (hwf : (Tag.memoryMap entrySize version entries).WellFormed)
    (hbody : mem.Holds (cur + 8) (Tag.memoryMap entrySize version entries).body)
    (hsize : size.toNat = (Tag.memoryMap entrySize version entries).size) :
    strideAt mem cur = entrySize.toNat ∧ countAt mem cur size = entries.length ∧
      entriesAt mem cur size = entries.map MapEntry.entry := by
  obtain ⟨hstride, hentries⟩ := hwf
  simp only [Tag.body, Memory.holds_append, length_toLe] at hbody
  obtain ⟨hword, _, hrest⟩ := hbody
  have hstrideAt : strideAt mem cur = entrySize.toNat := by
    rw [strideAt, u32At_of_holds hword]
  have hcount : countAt mem cur size = entries.length := by
    have hlength : size.toNat - 16 = entries.length * entrySize.toNat := by
      rw [hsize, Tag.size, Tag.body, List.length_append, List.length_append, length_toLe,
        length_toLe, length_entries hentries]
      omega
    rw [countAt, hstrideAt, hlength, Nat.mul_div_cancel _ (by omega)]
  refine ⟨hstrideAt, hcount, ?_⟩
  rw [entriesAt, hstrideAt, hcount]
  exact entriesFrom_of_holds hentries hrest

theorem handleTag_memoryMap {entrySize version : UInt32} {entries : List MapEntry}
    (hwf : (Tag.memoryMap entrySize version entries).WellFormed)
    (hbody : mem.Holds (cur + 8) (Tag.memoryMap entrySize version entries).body)
    (hsize : size.toNat = (Tag.memoryMap entrySize version entries).size)
    (hreach : cur + size.toNat + entrySize.toNat < usizeBound)
    (hbanks : MemoryMap.bytesOf (usableRegions (entries.map MapEntry.entry)) < usizeBound) :
    (handleTag mem mbiPtr cur tagMemoryMap size st).result =
      .ok (st.read mbiPtr (cur, .memoryMap entrySize version entries)) := by
  obtain ⟨hstrideAt, hcount, hentries⟩ := entriesAt_of_holds hwf hbody hsize
  have hlength : size.toNat = 16 + entries.length * entrySize.toNat := by
    rw [hsize, Tag.size, Tag.body, List.length_append, List.length_append, length_toLe,
      length_toLe, length_entries hwf.2]
    omega
  have hreaches : MapReaches mem cur size := by
    refine ⟨by omega, by omega, ?_⟩
    rw [hcount, hstrideAt, Nat.succ_mul]
    omega
  have hsum : MemoryMap.bytesOf (mapOf (entriesAt mem cur size)).regions < 2 ^ 64 := by
    rw [hentries, regions_mapOf]
    exact lt_of_le_of_lt (MemoryMap.bytesOf_take_le _ _) hbanks
  have hram : TagAt.DescribesRam mem ⟨cur, tagMemoryMap, size⟩ ↔
      usableRegions (entries.map MapEntry.entry) ≠ [] := by
    rw [TagAt.DescribesRam, MemoryMap.totalBytes_ne_zero_iff hsum, hentries, regions_mapOf]
    simp [maxMemoryRegions]
  rw [handleMemoryMap_result hreaches, State.read]
  by_cases hnil : usableRegions (entries.map MapEntry.entry) = []
  · rw [if_neg fun h => hram.mp h hnil, if_pos hnil]
  · rw [if_pos (hram.mpr hnil), if_neg hnil, hentries]

theorem handleTag_framebuffer {fb : FramebufferTag} (hwf : (Tag.framebuffer fb).WellFormed)
    (hbody : mem.Holds (cur + 8) fb.bytes) (hsize : size.toNat = (Tag.framebuffer fb).size)
    (hend : cur + size.toNat < usizeBound) :
    (handleTag mem mbiPtr cur tagFramebufferInfo size st).result =
      .ok (st.read mbiPtr (cur, .framebuffer fb)) := by
  have hlength : fbTagSize ≤ size.toNat := by
    rw [hsize, Tag.size, Tag.body, FramebufferTag.bytes, fbTagSize]
    simp only [List.length_append, length_toLe, List.length_singleton]
    omega
  simp only [FramebufferTag.bytes, Memory.holds_append, length_toLe, List.length_singleton]
    at hbody
  obtain ⟨haddr, hpitch, hwidth, hheight, hbpp, htype, _, hcolour⟩ := hbody
  have hbppAt : u8At mem (cur + 28) = fb.bpp := u8At_of_holds hbpp
  have htypeAt : u8At mem (cur + 29) = fb.fbType := u8At_of_holds htype
  have hthirtytwo : cur + 32 < usizeBound := by
    rw [fbTagSize] at hlength
    omega
  rw [handleTag, if_neg (by decide), if_neg (by decide), if_pos rfl, if_pos hlength,
    Traced.result_bind_of_ok (scanFramebuffer_result hthirtytwo), State.read, Tag.framebuffer?]
  by_cases hrgb : fb.fbType = 1 ∧ fb.bpp = 32
  · have hrgbAt : IsRgb32 mem cur := ⟨htypeAt.trans hrgb.1, hbppAt.trans hrgb.2⟩
    have hred : u8At mem (cur + 32) = fb.colour.headD 0 := by
      have hsix := hwf hrgb.1
      cases hcase : fb.colour with
      | nil =>
        rw [hcase] at hsix
        simp at hsix
      | cons red rest =>
        rw [hcase] at hcolour
        exact u8At_of_holds hcolour
    rw [if_pos hrgbAt, if_pos hrgb, framebufferAt, hred, u64At_of_holds haddr,
      u32At_of_holds hwidth, u32At_of_holds hheight, u32At_of_holds hpitch]
    rfl
  · have hrgbAt : ¬IsRgb32 mem cur := fun h =>
      hrgb ⟨htypeAt.symm.trans h.1, hbppAt.symm.trans h.2⟩
    rw [if_neg hrgbAt, if_neg hrgb]
    rfl

/-- Each branch does what its tag says. -/
theorem handleTag_of_holds {tag : Tag} (hwf : tag.WellFormed)
    (hbody : mem.Holds (cur + 8) tag.body) (hsize : size.toNat = tag.size)
    (hreach : cur + size.toNat + tag.stride < usizeBound)
    (hbanks : MemoryMap.bytesOf tag.banks < usizeBound) :
    (handleTag mem mbiPtr cur tag.typ size st).result = .ok (st.read mbiPtr (cur, tag)) := by
  have hcur : cur + 8 < usizeBound := by
    rw [hsize, Tag.size] at hreach
    omega
  cases tag with
  | memoryMap entrySize version entries => exact handleTag_memoryMap hwf hbody hsize hreach hbanks
  | basicMemInfo lower upper =>
    have hlength : size.toNat = 16 := by
      rw [hsize, Tag.size, Tag.body, List.length_append, length_toLe, length_toLe]
    simp only [Tag.body, Memory.holds_append, length_toLe] at hbody
    have hlower : u32At mem (cur + 8) = lower := u32At_of_holds hbody.1
    have hupper : u32At mem (cur + 12) = upper := u32At_of_holds hbody.2
    have hcur : cur + 12 < usizeBound := by omega
    rw [Tag.typ, handleBasicMemInfo_result hcur, hlower, hupper]
    rfl
  | framebuffer fb => exact handleTag_framebuffer hwf hbody hsize (by omega)
  | rsdpOld payload =>
    rw [Tag.typ, handleTag, if_neg (by decide), if_neg (by decide), if_neg (by decide),
      if_pos (by decide), Traced.result_bind_of_ok (Traced.result_addUsize hcur)]
    rfl
  | rsdpNew payload =>
    rw [Tag.typ, handleTag, if_neg (by decide), if_neg (by decide), if_neg (by decide),
      if_pos (by decide), Traced.result_bind_of_ok (Traced.result_addUsize hcur)]
    rfl
  | efi64Systab addr =>
    rw [Tag.typ, handleTag, if_neg (by decide), if_neg (by decide), if_neg (by decide),
      if_neg (by decide), if_pos rfl, State.read]
    split
    · rw [Traced.result_bind_of_ok (Traced.result_addUsize hcur),
        Traced.result_bind_of_ok (readU64_result mem _), u64At_of_holds hbody]
      rfl
    · rfl
  | other typ payload =>
    have hunknown : typ ∉ Tag.knownTypes := hwf
    simp only [Tag.knownTypes, List.mem_cons, List.not_mem_nil, or_false, not_or] at hunknown
    obtain ⟨_, hbasic, hmap, hfb, hsystab, hold, hnew⟩ := hunknown
    rw [Tag.typ, handleTag, if_neg hmap, if_neg hbasic, if_neg hfb, if_neg (by tauto),
      if_neg hsystab]
    rfl

end OneTag

/-! ## The loop -/

theorem length_bytes (padded : PaddedTag) : padded.bytes.length = padded.length := by
  simp only [PaddedTag.bytes, PaddedTag.length, Tag.size, List.length_append, length_toLe]
  omega

theorem typ_ne_end {tag : Tag} (hwf : tag.WellFormed) : tag.typ ≠ tagEnd := by
  cases tag with
  | other typ payload =>
    rintro rfl
    exact hwf List.mem_cons_self
  | _ => simp [Tag.typ, tagEnd, tagMemoryMap, tagBasicMemInfo, tagFramebufferInfo, tagRsdpOld,
      tagRsdpNew, tagEfi64Systab]

/-- The padding takes a tag to where the parser looks for the next one. -/
theorem paddedSize_of_eq {padded : PaddedTag} {size : UInt32}
    (hsize : size.toNat = padded.tag.size) :
    paddedSize size = padded.length := by
  obtain ⟨hlt, hdvd⟩ := padded.length_padding
  rw [paddedSize_eq, hsize, PaddedTag.length]
  omega

section Loop

variable {mem : Memory} {mbiPtr : UInt64} {stop : ℕ}

/-- One turn of the loop at a tag. -/
theorem tagTurn_of_holds {padded : PaddedTag} {cur : ℕ} {st : State}
    (hholds : mem.Holds cur padded.bytes) (hcur : cur + padded.length ≤ stop)
    (hstop : stop < usizeBound)
    (hreach : cur + padded.tag.size + padded.tag.stride < usizeBound)
    (hbanks : MemoryMap.bytesOf padded.tag.banks < usizeBound) (hlength : padded.length < 2 ^ 32) :
    (tagTurn mem mbiPtr stop (cur, st)).result =
      .ok (.again (cur + padded.length, st.read mbiPtr (cur, padded.tag))) := by
  simp only [PaddedTag.bytes, Memory.holds_append, length_toLe] at hholds
  obtain ⟨htyp, hword, hbody, _⟩ := hholds
  have hle : padded.tag.size ≤ padded.length := Nat.le_add_right _ _
  have height : 8 ≤ padded.tag.size := Nat.le_add_right _ _
  have htypAt : u32At mem cur = padded.tag.typ := u32At_of_holds htyp
  have hsizeAt : (u32At mem (cur + 4)).toNat = padded.tag.size := toNat_u32At hword (by omega)
  refine tagTurn_again.mpr ⟨by omega, by omega, ?_, ?_, ?_, ?_, ?_⟩
  · rw [htypAt]
    exact typ_ne_end padded.wellFormed
  · rw [UInt32.lt_iff_toNat_lt, hsizeAt]
    show ¬padded.tag.size < 8
    omega
  · rw [htypAt]
    exact handleTag_of_holds padded.wellFormed hbody hsizeAt (by omega) hbanks
  · rw [paddedSize_of_eq hsizeAt]
    omega
  · rw [paddedSize_of_eq hsizeAt]

/-- The loop ends at the end tag. -/
theorem tagTurn_endTag {cur : ℕ} {st : State} (hholds : mem.Holds cur endTag)
    (hcur : cur + 8 ≤ stop) (hstop : stop < usizeBound) :
    (tagTurn mem mbiPtr stop (cur, st)).result = .ok (.leave st) := by
  have htyp : u32At mem cur = tagEnd := by
    rw [endTag, Memory.holds_append] at hholds
    exact u32At_of_holds hholds.1
  have hbody : cur + 8 < usizeBound := by omega
  rw [tagTurn, Traced.result_bind_of_ok (Traced.result_addUsize hbody), if_pos hcur,
    Traced.result_bind_of_ok (readU32_result mem _), if_pos htyp]
  rfl

/-- The loop reads the tags one after the other. -/
theorem tagLoop_of_holds (hstop : stop < usizeBound) (tags : List PaddedTag) :
    ∀ (cur fuel : ℕ) (st : State), mem.Holds cur (tags.flatMap PaddedTag.bytes ++ endTag) →
      cur + lengthOf tags + 8 ≤ stop → lengthOf tags < 2 ^ 32 →
      (∀ p ∈ place cur tags, p.1 + p.2.size + p.2.stride < usizeBound) →
      (∀ padded ∈ tags, MemoryMap.bytesOf padded.tag.banks < usizeBound) →
      tags.length < fuel →
      (Traced.loop (tagTurn mem mbiPtr stop) fuel (cur, st)).result =
        .ok ((place cur tags).foldl (State.read mbiPtr) st) := by
  induction tags with
  | nil =>
    intro cur fuel st hholds hcur _ _ _ hfuel
    obtain ⟨fuel, rfl⟩ : ∃ n, fuel = n + 1 := ⟨fuel - 1, by omega⟩
    have hend : cur + 8 ≤ stop := by simpa [lengthOf] using hcur
    rw [Traced.result_loop, loop_leave (tagTurn_endTag hholds hend hstop)]
    rfl
  | cons padded tags ih =>
    intro cur fuel st hholds hcur hlength hreach hbanks hfuel
    obtain ⟨fuel, rfl⟩ : ∃ n, fuel = n + 1 := ⟨fuel - 1, by omega⟩
    have hsum := lengthOf_cons padded tags
    rw [List.flatMap_cons, List.append_assoc, Memory.holds_append, length_bytes] at hholds
    have hturn : (tagTurn mem mbiPtr stop (cur, st)).result =
        .ok (.again (cur + padded.length, st.read mbiPtr (cur, padded.tag))) :=
      tagTurn_of_holds hholds.1 (by omega) hstop (hreach _ List.mem_cons_self)
        (hbanks padded List.mem_cons_self) (by omega)
    rw [Traced.result_loop, loop_again hturn, ← Traced.result_loop,
      ih _ fuel _ hholds.2 (by omega) (by omega)
        (fun p hp => hreach p (List.mem_cons_of_mem _ hp))
        (fun p hp => hbanks p (List.mem_cons_of_mem _ hp)) (Nat.lt_of_succ_lt_succ hfuel)]
    rfl

end Loop

/-! ## What the state says after some tags -/

/-- The state of the parser after the tags `placed`. -/
structure Reading (mbiPtr : UInt64) (placed : List (ℕ × Tag)) (st : State) : Prop where
  ram : st.haveRealMemory = ((placed.map Prod.snd).filterMap Tag.ram?).getLast?.isSome
  memory : st.info.memory.regions = ramOf (placed.map Prod.snd)
  framebuffer : st.info.framebuffer = framebufferOf (placed.map Prod.snd)
  table : st.info.fwTableAddr = tableAddr mbiPtr placed
  console : st.info.console = (initialInfo mbiPtr).console
  intc : st.info.intc = (initialInfo mbiPtr).intc
  timerFreqHz : st.info.timerFreqHz = (initialInfo mbiPtr).timerFreqHz

section Folding

variable {mbiPtr : UInt64} {placed : List (ℕ × Tag)} {st : State}

theorem reading_initial (mbiPtr : UInt64) : Reading mbiPtr [] ⟨initialInfo mbiPtr, false⟩ := by
  constructor <;> rfl

/-- A placed tag points to a table other than the block. -/
def Apart (mbiPtr : UInt64) (p : ℕ × Tag) : Prop :=
  UInt64.ofNat (p.1 + 8) ≠ mbiPtr ∧ p.2.systab? ≠ some mbiPtr

/-- The address is that of the block as long as no tag points to a table. -/
theorem tableAddr_eq_block (hapart : ∀ p ∈ placed, Apart mbiPtr p) :
    tableAddr mbiPtr placed = mbiPtr ↔
      (placed.filter fun p => p.2.isRsdp).getLast? = none ∧
        (placed.filterMap fun p => p.2.systab?).head? = none := by
  rw [tableAddr]
  cases hrsdp : (placed.filter fun p => p.2.isRsdp).getLast? with
  | some p =>
    have hmem := List.mem_of_getLast? hrsdp
    have hne := (hapart p (List.mem_of_mem_filter hmem)).1
    exact iff_of_false hne nofun
  | none =>
    cases hsystab : (placed.filterMap fun p => p.2.systab?).head? with
    | some addr =>
      have hmem := List.mem_of_head? hsystab
      obtain ⟨p, hp, haddr⟩ := List.mem_filterMap.mp hmem
      have hne : addr ≠ mbiPtr := by
        rintro rfl
        exact (hapart p hp).2 haddr
      simp [hne]
    | none => simp

/-! A tag says at most one thing; the others keep what was said before. -/

variable {tag : Tag}

theorem ramOf_concat_ram {tags : List Tag} {regions : List MemoryRegion}
    (hram : tag.ram? = some regions) : ramOf (tags ++ [tag]) = regions := by
  simp [ramOf, hram]

theorem ramOf_concat_basic {tags : List Tag} {regions : List MemoryRegion} (hram : tag.ram? = none)
    (hbasic : tag.basic? = some regions) :
    ramOf (tags ++ [tag]) =
      if (tags.filterMap Tag.ram?).getLast?.isSome then ramOf tags else regions := by
  cases hlast : (tags.filterMap Tag.ram?).getLast? with
  | none => simp [ramOf, hram, hbasic, hlast]
  | some kept => simp [ramOf, hram, hlast]

theorem ramOf_concat_silent {tags : List Tag} (hram : tag.ram? = none) (hbasic : tag.basic? = none)
    : ramOf (tags ++ [tag]) = ramOf tags := by
  simp [ramOf, hram, hbasic]

theorem framebufferOf_concat (tags : List Tag) (tag : Tag) :
    framebufferOf (tags ++ [tag]) = (tag.framebuffer?).or (framebufferOf tags) := by
  cases hfb : tag.framebuffer? with
  | none => simp [framebufferOf, hfb]
  | some info => simp [framebufferOf, hfb]

theorem tableAddr_concat_rsdp {cur : ℕ} (hrsdp : tag.isRsdp = true) :
    tableAddr mbiPtr (placed ++ [(cur, tag)]) = UInt64.ofNat (cur + 8) := by
  simp [tableAddr, hrsdp]

theorem tableAddr_concat_silent {cur : ℕ} (hrsdp : tag.isRsdp = false)
    (hsystab : tag.systab? = none) :
    tableAddr mbiPtr (placed ++ [(cur, tag)]) = tableAddr mbiPtr placed := by
  simp [tableAddr, hrsdp, hsystab]

theorem tableAddr_concat_systab {cur : ℕ} {addr : UInt64} (hapart : ∀ p ∈ placed, Apart mbiPtr p)
    (hrsdp : tag.isRsdp = false) (hsystab : tag.systab? = some addr) :
    tableAddr mbiPtr (placed ++ [(cur, tag)]) =
      if tableAddr mbiPtr placed = mbiPtr then addr else tableAddr mbiPtr placed := by
  by_cases hblock : tableAddr mbiPtr placed = mbiPtr
  · obtain ⟨hnone, hfirst⟩ := (tableAddr_eq_block hapart).mp hblock
    rw [if_pos hblock]
    simp [tableAddr, hrsdp, hsystab, hnone, hfirst]
  · rw [if_neg hblock]
    rw [tableAddr_eq_block hapart] at hblock
    cases hlast : (placed.filter fun p => p.2.isRsdp).getLast? with
    | some p => simp [tableAddr, hrsdp, hlast]
    | none =>
      cases hfirst : (placed.filterMap fun p => p.2.systab?).head? with
      | some first => simp [tableAddr, hrsdp, hlast, hfirst]
      | none => exact absurd ⟨hlast, hfirst⟩ hblock

/-! What one tag changes in the state, field by field. -/

theorem read_haveRealMemory (mbiPtr : UInt64) (st : State) (cur : ℕ) (tag : Tag) :
    (st.read mbiPtr (cur, tag)).haveRealMemory = (st.haveRealMemory || tag.ram?.isSome) := by
  cases tag <;> simp only [State.read, Tag.ram?, Tag.banks] <;> split <;> simp_all

theorem read_memory (mbiPtr : UInt64) (st : State) (cur : ℕ) (tag : Tag) :
    (st.read mbiPtr (cur, tag)).info.memory.regions =
      (tag.ram?).getD
        (if st.haveRealMemory then st.info.memory.regions
        else (tag.basic?).getD st.info.memory.regions) := by
  cases tag with
  | memoryMap entrySize version entries =>
    by_cases hnil : usableRegions (entries.map MapEntry.entry) = []
    · simp [State.read, Tag.ram?, Tag.banks, Tag.basic?, hnil]
    · simp [State.read, Tag.ram?, Tag.banks, hnil, regions_mapOf]
  | basicMemInfo lower upper =>
    by_cases hnil : basicRegions lower upper = []
    · simp [State.read, Tag.ram?, Tag.banks, Tag.basic?, hnil]
    · cases hreal : st.haveRealMemory <;>
        simp [State.read, Tag.ram?, Tag.banks, Tag.basic?, hnil, hreal, regions_basicMap]
  | framebuffer fb =>
    simp only [State.read, Tag.ram?, Tag.banks, Tag.basic?]
    split <;> simp
  | efi64Systab addr =>
    simp only [State.read, Tag.ram?, Tag.banks, Tag.basic?]
    split <;> simp
  | _ => simp [State.read, Tag.ram?, Tag.banks, Tag.basic?]

theorem read_framebuffer (mbiPtr : UInt64) (st : State) (cur : ℕ) (tag : Tag) :
    (st.read mbiPtr (cur, tag)).info.framebuffer =
      (tag.framebuffer?).or st.info.framebuffer := by
  cases tag with
  | framebuffer fb =>
    rw [State.read]
    cases (Tag.framebuffer fb).framebuffer? <;> rfl
  | rsdpOld _ | rsdpNew _ | other _ _ => rfl
  | _ =>
    simp only [State.read, Tag.framebuffer?]
    split <;> rfl

theorem read_fwTableAddr (mbiPtr : UInt64) (st : State) (cur : ℕ) (tag : Tag) :
    (st.read mbiPtr (cur, tag)).info.fwTableAddr =
      if tag.isRsdp then UInt64.ofNat (cur + 8)
      else if st.info.fwTableAddr = mbiPtr then (tag.systab?).getD st.info.fwTableAddr
      else st.info.fwTableAddr := by
  cases tag with
  | other _ _ => simp [State.read, Tag.isRsdp, Tag.systab?]
  | _ =>
    simp only [State.read, Tag.isRsdp, Tag.systab?]
    split <;> simp_all

theorem read_rest (mbiPtr : UInt64) (st : State) (cur : ℕ) (tag : Tag) :
    (st.read mbiPtr (cur, tag)).info.console = st.info.console ∧
      (st.read mbiPtr (cur, tag)).info.intc = st.info.intc ∧
      (st.read mbiPtr (cur, tag)).info.timerFreqHz = st.info.timerFreqHz := by
  cases tag with
  | rsdpOld _ | rsdpNew _ | other _ _ => exact ⟨rfl, rfl, rfl⟩
  | _ =>
    simp only [State.read]
    split <;> exact ⟨rfl, rfl, rfl⟩

theorem Reading.read {p : ℕ × Tag} (hreading : Reading mbiPtr placed st)
    (hapart : ∀ q ∈ placed, Apart mbiPtr q) :
    Reading mbiPtr (placed ++ [p]) (st.read mbiPtr p) := by
  obtain ⟨cur, tag⟩ := p
  obtain ⟨hram, hmemory, hfb, htable, hconsole, hintc, htimer⟩ := hreading
  obtain ⟨hconsole', hintc', htimer'⟩ := read_rest mbiPtr st cur tag
  have htags : (placed ++ [(cur, tag)]).map Prod.snd = placed.map Prod.snd ++ [tag] := by simp
  constructor
  case ram =>
    rw [read_haveRealMemory, hram, htags]
    cases hone : tag.ram? <;> simp [hone]
  case memory =>
    rw [read_memory, htags]
    cases hone : tag.ram? with
    | some regions => rw [ramOf_concat_ram hone, Option.getD_some]
    | none =>
      cases htwo : tag.basic? with
      | some regions => rw [ramOf_concat_basic hone htwo, hram, hmemory]; rfl
      | none => rw [ramOf_concat_silent hone htwo, hmemory]; simp
  case framebuffer => rw [read_framebuffer, htags, framebufferOf_concat, hfb]
  case table =>
    rw [read_fwTableAddr, htable]
    cases hrsdp : tag.isRsdp with
    | true => rw [tableAddr_concat_rsdp hrsdp]; rfl
    | false =>
      cases hsystab : tag.systab? with
      | some addr => rw [tableAddr_concat_systab hapart hrsdp hsystab]; rfl
      | none => rw [tableAddr_concat_silent hrsdp hsystab]; simp
  case console => rw [hconsole', hconsole]
  case intc => rw [hintc', hintc]
  case timerFreqHz => rw [htimer', htimer]

/-- The state after all tags. -/
theorem reading_foldl (hapart : ∀ p ∈ placed, Apart mbiPtr p) :
    Reading mbiPtr placed (placed.foldl (State.read mbiPtr) ⟨initialInfo mbiPtr, false⟩) := by
  induction placed using List.reverseRecOn with
  | nil => exact reading_initial mbiPtr
  | append_singleton placed p ih =>
    have hbefore : ∀ q ∈ placed, Apart mbiPtr q := fun q hq =>
      hapart q (List.mem_append_left _ hq)
    rw [List.foldl_append]
    exact (ih hbefore).read hbefore

end Folding

/-! ## The parser on a block -/

theorem map_snd_place (cur : ℕ) (tags : List PaddedTag) :
    (place cur tags).map Prod.snd = tags.map PaddedTag.tag := by
  induction tags generalizing cur with
  | nil => rfl
  | cons padded tags ih => rw [place, List.map_cons, ih, List.map_cons]

/-- A tag is between the ends of the list. -/
theorem mem_place {cur : ℕ} {tags : List PaddedTag} {p : ℕ × Tag} (hp : p ∈ place cur tags) :
    cur ≤ p.1 ∧ p.1 + 8 ≤ cur + lengthOf tags := by
  induction tags generalizing cur with
  | nil => cases hp
  | cons padded tags ih =>
    have hsum := lengthOf_cons padded tags
    have height := padded.eight_le_length
    rcases List.mem_cons.mp hp with rfl | hrest
    · exact ⟨le_refl _, by show cur + 8 ≤ _; omega⟩
    · obtain ⟨hlower, hupper⟩ := ih hrest
      omega

theorem length_le_lengthOf (tags : List PaddedTag) : 8 * tags.length ≤ lengthOf tags := by
  induction tags with
  | nil => rfl
  | cons padded tags ih =>
    have hsum := lengthOf_cons padded tags
    have height := padded.eight_le_length
    rw [List.length_cons]
    omega

namespace Block

variable {block : Block} {mem : Memory} {mbiPtr : UInt64}

theorem apart_of_loadedAt (hloaded : block.LoadedAt mem mbiPtr) :
    ∀ p ∈ block.placed mbiPtr, Apart mbiPtr p := by
  intro p hp
  obtain ⟨hlower, hupper⟩ := mem_place hp
  have hbelow := hloaded.below
  rw [Block.total] at hbelow
  constructor
  · intro heq
    have hnat := congrArg UInt64.toNat heq
    rw [UInt64.toNat_ofNat_of_lt' (by show p.1 + 8 < 2 ^ 64; omega)] at hnat
    omega
  · apply hloaded.systab_ne
    rw [contents, ← map_snd_place (mbiPtr.toNat + 8) block.tags]
    exact List.mem_map_of_mem hp

/-- The parser returns the state after all tags of the block. -/
theorem parseOrFallback_of_loadedAt (hloaded : block.LoadedAt mem mbiPtr) :
    ∃ st, (parseOrFallback mem mbiPtr mb2Magic).result = .ok st.info ∧
      Reading mbiPtr (block.placed mbiPtr) st := by
  have hreading := reading_foldl (apart_of_loadedAt hloaded)
  refine ⟨_, ?_, hreading⟩
  have hbelow := hloaded.below
  have htotal := block.total_le
  have hholds := hloaded.holds
  simp only [bytes, Memory.holds_append, length_toLe] at hholds
  rw [← Memory.holds_append] at hholds
  obtain ⟨hword, _, htags⟩ := hholds
  have hsize : (u32At mem mbiPtr.toNat).toNat = block.total :=
    toNat_u32At hword (by rw [total]; omega)
  have hrange : 16 ≤ u32At mem mbiPtr.toNat ∧ u32At mem mbiPtr.toNat ≤ 16 * 1024 * 1024 := by
    rw [UInt32.le_iff_toNat_le, UInt32.le_iff_toNat_le, hsize, total]
    exact ⟨Nat.le_add_right _ _, htotal⟩
  have hstop : saturatingAddUsize mbiPtr.toNat (u32At mem mbiPtr.toNat).toNat =
      mbiPtr.toNat + block.total := by
    rw [saturatingAddUsize, usizeBound, hsize]
    omega
  have hcur : mbiPtr.toNat + 8 < usizeBound := by
    rw [usizeBound]
    rw [total] at hbelow
    omega
  have hfuel := length_le_lengthOf block.tags
  have hloop : (Traced.loop (tagTurn mem mbiPtr (mbiPtr.toNat + block.total))
      (u32At mem mbiPtr.toNat).toNat (mbiPtr.toNat + 8, ⟨initialInfo mbiPtr, false⟩)).result =
        .ok ((block.placed mbiPtr).foldl (State.read mbiPtr) ⟨initialInfo mbiPtr, false⟩) := by
    apply tagLoop_of_holds hbelow block.tags _ _ _ htags
    · rw [total]
      omega
    · omega
    · exact hloaded.stride_below
    · exact fun p hp => hloaded.banks_below _ (List.mem_map_of_mem hp)
    · rw [hsize, total]
      omega
  have hskip : ¬(mb2Magic ≠ mb2Magic ∨ mbiPtr = 0) := by
    rintro (h | h)
    · exact h rfl
    · exact hloaded.ne_zero h
  rw [parseOrFallback, if_neg hskip, Traced.result_bind_of_ok (readU32_result mem _),
    if_pos hrange, hstop, Traced.result_bind_of_ok (Traced.result_addUsize hcur),
    Traced.result_bind_of_ok hloop, Traced.result_pure, overrideConsole, if_neg]
  rw [hreading.console]
  simp [initialInfo, qemuQ35Fallback]

/-- The address that the parser finds is that of the table. -/
theorem tableAt_of_loadedAt (hloaded : block.LoadedAt mem mbiPtr) :
    Table.At mbiPtr (block.placed mbiPtr) (tableAddr mbiPtr (block.placed mbiPtr))
      (tableOf block.contents) := by
  have hcontents : block.contents = (block.placed mbiPtr).map Prod.snd :=
    (map_snd_place _ _).symm
  have hlast : (block.contents.filter Tag.isRsdp).getLast? =
      ((block.placed mbiPtr).filter fun p => p.2.isRsdp).getLast?.map Prod.snd := by
    rw [hcontents, List.filter_map, List.getLast?_map]
    rfl
  have hfirst : (block.contents.filterMap Tag.systab?).head? =
      ((block.placed mbiPtr).filterMap fun p => p.2.systab?).head? := by
    rw [hcontents, List.filterMap_map]
    rfl
  rw [tableOf, tableAddr, hlast, hfirst]
  cases hrsdp : ((block.placed mbiPtr).filter fun p => p.2.isRsdp).getLast? with
  | some p =>
    obtain ⟨cur, tag⟩ := p
    have hmem : (cur, tag) ∈ block.placed mbiPtr :=
      List.mem_of_mem_filter (List.mem_of_getLast? hrsdp)
    refine ⟨cur, hmem, ?_⟩
    obtain ⟨_, hupper⟩ := mem_place hmem
    have hbelow := hloaded.below
    rw [total] at hbelow
    exact UInt64.toNat_ofNat_of_lt' (by show cur + 8 < 2 ^ 64; simp only at hupper; omega)
  | none =>
    cases ((block.placed mbiPtr).filterMap fun p => p.2.systab?).head? with
    | some addr => rfl
    | none => rfl

end Block

/-! ## The order of the tags -/

/-- A permutation leaves alone what at most one tag says. -/
theorem filterMap_eq_of_perm {α : Type} {f : Tag → Option α} {tags tags' : List Tag}
    (hperm : tags.Perm tags') (hone : tags.Pairwise fun s t => f s = none ∨ f t = none) :
    tags.filterMap f = tags'.filterMap f := by
  have hsingle : (tags.filterMap f).Pairwise fun _ _ => False := by
    rw [List.pairwise_filterMap]
    apply hone.imp
    rintro s t (hs | ht) b hb b' hb'
    · rw [hs] at hb
      cases hb
    · rw [ht] at hb'
      cases hb'
  have hperm' := hperm.filterMap f
  exact hperm'.eq_of_pairwise (fun _ _ _ _ h _ => h.elim) hsingle
    (hperm'.pairwise hsingle fun h => h)

/-- What only tags of one type say. -/
theorem filterMap_eq_of_typ {α : Type} {f : Tag → Option α} {tags tags' : List Tag} (typ : UInt32)
    (hperm : tags.Perm tags') (hnodup : (tags.map Tag.typ).Nodup)
    (htyp : ∀ tag, f tag ≠ none → tag.typ = typ) : tags.filterMap f = tags'.filterMap f := by
  apply filterMap_eq_of_perm hperm
  apply (List.pairwise_map.mp hnodup).imp
  intro s t hne
  by_contra hboth
  obtain ⟨hs, ht⟩ := not_or.mp hboth
  exact hne ((htyp s hs).trans (htyp t ht).symm)

/-! ### The type of a tag, from what it says -/

section Kinds

variable {tag : Tag}

theorem typ_of_ram (htag : tag.ram? ≠ none) : tag.typ = tagMemoryMap := by
  cases tag with
  | memoryMap _ _ _ => rfl
  | basicMemInfo _ _ | framebuffer _ | rsdpOld _ | rsdpNew _ | efi64Systab _ | other _ _ =>
    exact absurd (if_pos rfl) htag

theorem typ_of_basic (htag : tag.basic? ≠ none) : tag.typ = tagBasicMemInfo := by
  cases tag with
  | basicMemInfo _ _ => rfl
  | memoryMap _ _ _ | framebuffer _ | rsdpOld _ | rsdpNew _ | efi64Systab _ | other _ _ =>
    exact absurd rfl htag

theorem typ_of_framebuffer (htag : tag.framebuffer? ≠ none) : tag.typ = tagFramebufferInfo := by
  cases tag with
  | framebuffer _ => rfl
  | memoryMap _ _ _ | basicMemInfo _ _ | rsdpOld _ | rsdpNew _ | efi64Systab _ | other _ _ =>
    exact absurd rfl htag

theorem typ_of_systab (htag : tag.systab? ≠ none) : tag.typ = tagEfi64Systab := by
  cases tag with
  | efi64Systab _ => rfl
  | memoryMap _ _ _ | basicMemInfo _ _ | framebuffer _ | rsdpOld _ | rsdpNew _ | other _ _ =>
    exact absurd rfl htag

theorem typ_of_isRsdp (hrsdp : Option.guard Tag.isRsdp tag ≠ none) :
    tag.typ = tagRsdpOld ∨ tag.typ = tagRsdpNew := by
  cases tag with
  | rsdpOld _ => exact .inl rfl
  | rsdpNew _ => exact .inr rfl
  | memoryMap _ _ _ | basicMemInfo _ _ | framebuffer _ | efi64Systab _ | other _ _ =>
    exact absurd rfl hrsdp

end Kinds

section Order

variable {tags tags' : List Tag}

theorem ramOf_perm (hperm : tags.Perm tags') (hnodup : (tags.map Tag.typ).Nodup) :
    ramOf tags = ramOf tags' := by
  have hram : tags.filterMap Tag.ram? = tags'.filterMap Tag.ram? :=
    filterMap_eq_of_typ tagMemoryMap hperm hnodup fun _ => typ_of_ram
  have hbasic : tags.filterMap Tag.basic? = tags'.filterMap Tag.basic? :=
    filterMap_eq_of_typ tagBasicMemInfo hperm hnodup fun _ => typ_of_basic
  rw [ramOf, ramOf, hram, hbasic]

theorem framebufferOf_perm (hperm : tags.Perm tags') (hnodup : (tags.map Tag.typ).Nodup) :
    framebufferOf tags = framebufferOf tags' := by
  have hfb : tags.filterMap Tag.framebuffer? = tags'.filterMap Tag.framebuffer? :=
    filterMap_eq_of_typ tagFramebufferInfo hperm hnodup fun _ => typ_of_framebuffer
  rw [framebufferOf, framebufferOf, hfb]

theorem tableOf_perm (hperm : tags.Perm tags') (hnodup : (tags.map Tag.typ).Nodup)
    (hversion : ¬(tagRsdpOld ∈ tags.map Tag.typ ∧ tagRsdpNew ∈ tags.map Tag.typ)) :
    tableOf tags = tableOf tags' := by
  have hsystab : tags.filterMap Tag.systab? = tags'.filterMap Tag.systab? :=
    filterMap_eq_of_typ tagEfi64Systab hperm hnodup fun _ => typ_of_systab
  have hrsdp : tags.filter Tag.isRsdp = tags'.filter Tag.isRsdp := by
    rw [← List.filterMap_eq_filter]
    apply filterMap_eq_of_perm hperm
    apply (List.pairwise_map.mp hnodup).imp_of_mem
    intro s t hs ht hne
    by_contra hboth
    -- two tags with an RSDP are of the two versions
    obtain ⟨hsome, hsome'⟩ := not_or.mp hboth
    have hmem := List.mem_map_of_mem (f := Tag.typ) hs
    have hmem' := List.mem_map_of_mem (f := Tag.typ) ht
    rcases typ_of_isRsdp hsome with hold | hnew
    · rcases typ_of_isRsdp hsome' with hold' | hnew'
      · exact hne (hold.trans hold'.symm)
      · exact hversion ⟨hold ▸ hmem, hnew' ▸ hmem'⟩
    · rcases typ_of_isRsdp hsome' with hold' | hnew'
      · exact hversion ⟨hold' ▸ hmem', hnew ▸ hmem⟩
      · exact hne (hnew.trans hnew'.symm)
  rw [tableOf, tableOf, hrsdp, hsystab]

end Order

/-- **What the parser makes of a block.**  On every well-formed block it returns what
the tags say; and if no type occurs twice and there is one version of the RSDP at
most, the order of the tags does not matter, wherever the two blocks are. -/
theorem parseOrFallback_reads_block (block : Block) (mem : Memory) (mbiPtr : UInt64)
    (hloaded : block.LoadedAt mem mbiPtr) :
    ∃ info, (parseOrFallback mem mbiPtr mb2Magic).result = .ok info ∧
      info.memory.regions = ramOf block.contents ∧
      info.framebuffer = framebufferOf block.contents ∧
      info.fwTableAddr = tableAddr mbiPtr (block.placed mbiPtr) ∧
      info.console = qemuQ35Fallback.console ∧ info.intc = qemuQ35Fallback.intc ∧
      info.timerFreqHz = qemuQ35Fallback.timerFreqHz ∧
      ∀ (block' : Block) (mem' : Memory) (mbiPtr' : UInt64), block'.LoadedAt mem' mbiPtr' →
        block.contents.Perm block'.contents → (block.contents.map Tag.typ).Nodup →
        ¬(tagRsdpOld ∈ block.contents.map Tag.typ ∧ tagRsdpNew ∈ block.contents.map Tag.typ) →
        ∃ info', (parseOrFallback mem' mbiPtr' mb2Magic).result = .ok info' ∧
          info'.memory.regions = info.memory.regions ∧ info'.framebuffer = info.framebuffer ∧
          ∃ table, Table.At mbiPtr (block.placed mbiPtr) info.fwTableAddr table ∧
            Table.At mbiPtr' (block'.placed mbiPtr') info'.fwTableAddr table := by
  have hcontents : ∀ (b : Block) (ptr : UInt64), (b.placed ptr).map Prod.snd = b.contents :=
    fun b ptr => map_snd_place _ _
  obtain ⟨st, hresult, hreading⟩ := Block.parseOrFallback_of_loadedAt hloaded
  have hmemory := hreading.memory
  have hfb := hreading.framebuffer
  rw [hcontents] at hmemory hfb
  refine ⟨st.info, hresult, hmemory, hfb, hreading.table, hreading.console, hreading.intc,
    hreading.timerFreqHz, ?_⟩
  intro block' mem' mbiPtr' hloaded' hperm hnodup hversion
  obtain ⟨st', hresult', hreading'⟩ := Block.parseOrFallback_of_loadedAt hloaded'
  have hmemory' := hreading'.memory
  have hfb' := hreading'.framebuffer
  rw [hcontents] at hmemory' hfb'
  refine ⟨st'.info, hresult', ?_, ?_, tableOf block.contents, ?_, ?_⟩
  · rw [hmemory, hmemory', ramOf_perm hperm hnodup]
  · rw [hfb, hfb', framebufferOf_perm hperm hnodup]
  · rw [hreading.table]
    exact Block.tableAt_of_loadedAt hloaded
  · rw [hreading'.table, tableOf_perm hperm hnodup hversion]
    exact Block.tableAt_of_loadedAt hloaded'

/-- 640 KiB of lower memory. -/
def lowMemory : PaddedTag := ⟨.basicMemInfo 640 0, [], trivial, by decide⟩

/-- One MiB of RAM at four MiB, in an entry of 24 bytes. -/
def oneBank : PaddedTag :=
  ⟨.memoryMap 24 0 [⟨⟨0x400000, 0x100000, 1⟩, [0, 0, 0, 0]⟩], [], ⟨by decide, by decide⟩,
    by decide⟩

/-- An RSDP of nine bytes, and padding that is not zero. -/
def smallRsdp : PaddedTag :=
  ⟨.rsdpNew [82, 83, 68, 32, 80, 84, 82, 32, 2], [1, 2, 3, 4, 5, 6, 7], trivial, by decide⟩

def firstOrder : Block := ⟨0, [oneBank, smallRsdp, lowMemory], by decide⟩

def secondOrder : Block := ⟨0, [lowMemory, oneBank, smallRsdp], by decide⟩

theorem parseOrFallback_reads_orders :
    ∃ info info',
      (parseOrFallback (.ofBytes 0x9000 firstOrder.bytes) 0x9000 mb2Magic).result = .ok info ∧
      (parseOrFallback (.ofBytes 0x5000 secondOrder.bytes) 0x5000 mb2Magic).result = .ok info' ∧
      info.memory.regions = [⟨0x400000, 0x100000⟩] ∧
      info'.memory.regions = info.memory.regions ∧ info.fwTableAddr = 0x9038 := by
  have hfirst : firstOrder.LoadedAt (.ofBytes 0x9000 firstOrder.bytes) 0x9000 :=
    ⟨Memory.holds_ofBytes _ _, by decide, by decide, by decide, by decide, by decide⟩
  have hsecond : secondOrder.LoadedAt (.ofBytes 0x5000 secondOrder.bytes) 0x5000 :=
    ⟨Memory.holds_ofBytes _ _, by decide, by decide, by decide, by decide, by decide⟩
  obtain ⟨info, hresult, hmemory, _, htable, _, _, _, horder⟩ :=
    parseOrFallback_reads_block _ _ _ hfirst
  have hperm : firstOrder.contents.Perm secondOrder.contents :=
    show ([oneBank.tag, smallRsdp.tag] ++ [lowMemory.tag]).Perm
      ([lowMemory.tag] ++ [oneBank.tag, smallRsdp.tag]) from List.perm_append_comm
  obtain ⟨info', hresult', hmemory', _⟩ := horder _ _ _ hsecond hperm (by decide) (by decide)
  exact ⟨info, info', hresult, hresult', hmemory, hmemory', htable⟩

def lowBlock : Block := ⟨0, [lowMemory], by decide⟩

def topBlock : Block := ⟨0, [oneBank], by decide⟩

/-- The blocks left out: the first one below is at address zero, and the parser
returns the fallback; the second one ends eight bytes below `2^64`, and the address
behind the entry after the last one overflows. -/
theorem parseOrFallback_misses_block :
    ((Memory.ofBytes 0 lowBlock.bytes).Holds 0 lowBlock.bytes ∧
      ((parseOrFallback (.ofBytes 0 lowBlock.bytes) 0 mb2Magic).result.toOption.map
        fun info => info.memory.regions) ≠ some (ramOf lowBlock.contents)) ∧
    (Memory.ofBytes (2 ^ 64 - 64) topBlock.bytes).Holds (2 ^ 64 - 64) topBlock.bytes ∧
      2 ^ 64 - 64 + topBlock.total < 2 ^ 64 ∧
      (parseOrFallback (.ofBytes (2 ^ 64 - 64) topBlock.bytes) (UInt64.ofNat (2 ^ 64 - 64))
        mb2Magic).result = .error .overflow := by
  refine ⟨⟨Memory.holds_ofBytes _ _, ?_⟩, Memory.holds_ofBytes _ _, ?_⟩
  · decide +kernel
  · exact ⟨by decide, by decide +kernel⟩

end Hyperion.Hal.Multiboot
