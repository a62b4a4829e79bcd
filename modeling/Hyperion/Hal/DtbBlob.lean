import Hyperion.Hal.DtbTree

/-!
# The parser on the blob of a device tree

`HoldsTree memory root` says that the memory at the blob's address starts with a
well-formed blob of the tree `root`: a header, a struct block with the tokens of the
tree, no-op tokens anywhere in between, and a strings block, each wherever the header
says.  On such a blob the parser is a fold over the tree (`parseOrFallback_of_tree`).

Every tree has a blob.  `Node.blob` is one, with the blocks right behind the header
and a strings block that lists the names of the properties as they occur.
-/

namespace Hyperion.Hal.Dtb

open Hyperion.Lib

/-! ## Blobs -/

/-- The header at the start of `memory` points to these two blocks. -/
structure Blocks (memory : List UInt8) (offStruct offStrings : UInt32)
    (structBlock stringsBlock : List UInt8) : Prop where
  magic : word32 memory 0 = some fdtMagic
  header_le : headerSize ≤ totalsizeOf memory
  total_le : totalsizeOf memory ≤ memory.length
  struct_off : word32 memory 8 = some offStruct
  strings_off : word32 memory 12 = some offStrings
  strings_size : word32 memory 32 = some (UInt32.ofNat stringsBlock.length)
  struct_size : word32 memory 36 = some (UInt32.ofNat structBlock.length)
  struct_le : offStruct.toNat + structBlock.length ≤ totalsizeOf memory
  strings_le : offStrings.toNat + stringsBlock.length ≤ totalsizeOf memory
  struct_eq : bytesAt memory offStruct.toNat structBlock.length = structBlock
  strings_eq : bytesAt memory offStrings.toNat stringsBlock.length = stringsBlock

/-- The blob at the start of `memory` is one of the tree `root`. -/
def HoldsTree (memory : List UInt8) (root : Node) : Prop :=
  ∃ (offStruct offStrings : UInt32) (tokens : List Token) (off : String → UInt32)
    (strings : List UInt8),
    Blocks memory offStruct offStrings (encodeAll off tokens) strings ∧
      tokens.filter (· ≠ .nop) = root.tokens ++ [.finish] ∧
      ∀ token ∈ root.tokens, token.Valid off strings

/-- The description of the machine before the tree is walked. -/
def initialInfo (dtbAddr : UInt64) : BootInfo := { qemuVirtFallback with fwTableAddr := dtbAddr }

theorem word32_take {memory : List UInt8} {n offset : ℕ} (hn : offset + 4 ≤ n)
    (hle : n ≤ memory.length) : word32 (memory.take n) offset = word32 memory offset := by
  have hbytes : bytesAt (memory.take n) offset 4 = bytesAt memory offset 4 := by
    rw [bytesAt, bytesAt, List.drop_take, List.take_take, min_eq_left (by omega)]
  rw [word32, word32, wordAt, wordAt, hbytes, List.length_take, if_pos (by omega),
    if_pos (by omega)]

theorem slice_take {memory : List UInt8} {n off len : ℕ} (hle : off + len ≤ n)
    (hn : n ≤ memory.length) :
    slice (memory.take n) off (off + len) = .ok (bytesAt memory off len) := by
  rw [slice_of_le (Nat.le_add_right _ _) (by rw [List.length_take]; omega), bytesAt,
    List.drop_take, List.take_take, Nat.add_sub_cancel_left, min_eq_left (by omega)]

section Parsing

variable {memory structBlock stringsBlock : List UInt8} {offStruct offStrings : UInt32}

/-- The parser walks the two blocks. -/
theorem parseBlob_of_blocks (hblocks : Blocks memory offStruct offStrings structBlock stringsBlock)
    (info : BootInfo) :
    parseBlob info (totalsizeOf memory) (memory.take (totalsizeOf memory)) =
      walk structBlock stringsBlock info := by
  have hheader : 40 ≤ totalsizeOf memory := hblocks.header_le
  have htotal := hblocks.total_le
  have hlt := totalsizeOf_lt memory
  have hstruct := hblocks.struct_le
  have hstrings := hblocks.strings_le
  have hbound : usizeBound = 2 ^ 64 := rfl
  have hlength : (memory.take (totalsizeOf memory)).length < usizeBound := by
    rw [List.length_take]
    omega
  have hstructSize : (UInt32.ofNat structBlock.length).toNat = structBlock.length :=
    UInt32.toNat_ofNat_of_lt' (by show structBlock.length < 2 ^ 32; omega)
  have hstringsSize : (UInt32.ofNat stringsBlock.length).toNat = stringsBlock.length :=
    UInt32.toNat_ofNat_of_lt' (by show stringsBlock.length < 2 ^ 32; omega)
  simp only [parseBlob, be32_eq hlength, bind, Except.bind]
  rw [word32_take (by omega) htotal, word32_take (by omega) htotal, word32_take (by omega) htotal,
    word32_take (by omega) htotal, hblocks.struct_off, hblocks.strings_off, hblocks.struct_size,
    hblocks.strings_size]
  simp only [hstructSize, hstringsSize, saturatingAddUsize]
  rw [if_neg (by omega), addUsize_of_lt (by omega)]
  simp only
  rw [slice_take hstruct htotal, addUsize_of_lt (by omega)]
  simp only
  rw [slice_take hstrings htotal, hblocks.struct_eq, hblocks.strings_eq]

theorem parseOrFallback_of_blocks {dtbAddr : UInt64} (haddr : dtbAddr ≠ 0)
    (hblocks : Blocks memory offStruct offStrings structBlock stringsBlock) :
    parseOrFallback dtbAddr memory = walk structBlock stringsBlock (initialInfo dtbAddr) := by
  have hheader : 40 ≤ totalsizeOf memory := hblocks.header_le
  have htotal := hblocks.total_le
  have hforty : headerSize ≤ memory.length := by
    show 40 ≤ memory.length
    omega
  have hbound : usizeBound = 2 ^ 64 := rfl
  have hlength : (memory.take headerSize).length < usizeBound := by
    rw [List.length_take, headerSize]
    omega
  have htoNat : (UInt32.ofNat (totalsizeOf memory)).toNat = totalsizeOf memory :=
    UInt32.toNat_ofNat_of_lt' (totalsizeOf_lt memory)
  have hmagic : word32 (memory.take headerSize) 0 = some fdtMagic := by
    rw [word32_take (by decide) hforty, hblocks.magic]
  simp only [parseOrFallback, if_neg haddr, sliceAt, bind, Except.bind]
  rw [slice_of_le (Nat.zero_le _) hforty]
  simp only [List.drop_zero, Nat.sub_zero, be32_eq hlength, hmagic, word32_totalsize hforty, htoNat]
  rw [if_neg (by simp), if_neg (by show ¬_ < 40; omega), slice_of_le (Nat.zero_le _) htotal]
  exact parseBlob_of_blocks hblocks _

end Parsing

/-- The parser on the blob of a tree makes one call of `act_on_node` after the other. -/
theorem parseOrFallback_of_tree {dtbAddr : UInt64} {memory : List UInt8} {root : Node}
    (haddr : dtbAddr ≠ 0) (htree : HoldsTree memory root) :
    parseOrFallback dtbAddr memory =
      .ok (root.calls.foldl actOnNode (initialInfo dtbAddr)) := by
  obtain ⟨offStruct, offStrings, tokens, off, strings, hblocks, htokens, hvalid⟩ := htree
  have hsize : (encodeAll off tokens).length < 2 ^ 32 := by
    have hlt := totalsizeOf_lt memory
    have hle := hblocks.struct_le
    omega
  rw [parseOrFallback_of_blocks haddr hblocks]
  exact walkWith_eq_fold htokens hvalid hsize actOnNode _

/-! ## Every tree has a blob -/

/-- The name in a property token. -/
def Token.propName? : Token → Option String
  | .prop name _ => some name
  | _ => none

/-- A strings block with these names. -/
def stringsFor (names : List String) : List UInt8 := names.flatMap fun name => utf8 name ++ [0]

/-- The place of a name in `stringsFor names`. -/
def placeIn (names : List String) (name : String) : ℕ :=
  (stringsFor (names.takeWhile (· ≠ name))).length

theorem stringsFor_split {names : List String} {name : String} (hname : name ∈ names) :
    ∃ before after, stringsFor names = before ++ (utf8 name ++ 0 :: after) ∧
      before.length = placeIn names name := by
  induction names with
  | nil => cases hname
  | cons first names ih =>
    by_cases heq : first = name
    · subst heq
      refine ⟨[], stringsFor names, by simp [stringsFor], by simp [placeIn, stringsFor]⟩
    · have hrest : name ∈ names := by
        rcases List.mem_cons.mp hname with h | h
        · exact absurd h.symm heq
        · exact h
      obtain ⟨before, after, hsplit, hlength⟩ := ih hrest
      refine ⟨utf8 first ++ [0] ++ before, after, ?_, ?_⟩
      · rw [stringsFor, List.flatMap_cons, List.append_assoc (utf8 first ++ [0]), ← hsplit]
        rfl
      · have hplace : placeIn (first :: names) name =
            (utf8 first ++ [0]).length + placeIn names name := by
          rw [placeIn, List.takeWhile_cons_of_pos (by simpa using heq), stringsFor,
            List.flatMap_cons, List.length_append]
          rfl
        rw [List.length_append, hlength, hplace]

namespace Node

/-- The names of the properties in the order of the tokens. -/
def propNames (root : Node) : List String := root.tokens.filterMap Token.propName?

def placeOf (root : Node) (name : String) : UInt32 := UInt32.ofNat (placeIn root.propNames name)

def structBlock (root : Node) : List UInt8 := encodeAll root.placeOf (root.tokens ++ [.finish])

def stringsBlock (root : Node) : List UInt8 := stringsFor root.propNames

/-- The words of the header: magic, totalsize, the offsets of the struct block, of the
strings block and of the memory reservation block, versions, boot CPU, and the sizes
of the strings block and of the struct block. -/
def header (root : Node) : List ℕ :=
  [fdtMagic.toNat, 40 + root.structBlock.length + root.stringsBlock.length, 40,
    40 + root.structBlock.length, 40, 17, 16, 0, root.stringsBlock.length,
    root.structBlock.length]

/-- A blob of the tree. -/
def blob (root : Node) : List UInt8 :=
  root.header.flatMap (toBe 4) ++ (root.structBlock ++ root.stringsBlock)

end Node

/-- No name has a NUL in it. -/
def Token.Clean : Token → Prop
  | .beginNode name => 0 ∉ utf8 name
  | .prop name _ => 0 ∉ utf8 name
  | _ => True

instance (token : Token) : Decidable token.Clean := by
  cases token with
  | beginNode name => exact inferInstanceAs (Decidable (0 ∉ utf8 name))
  | prop name _ => exact inferInstanceAs (Decidable (0 ∉ utf8 name))
  | _ => exact inferInstanceAs (Decidable True)

theorem length_words (words : List ℕ) : (words.flatMap (toBe 4)).length = 4 * words.length := by
  induction words with
  | nil => rfl
  | cons word words ih =>
    rw [List.flatMap_cons, List.length_append, ih, length_toBe, List.length_cons]
    omega

/-- The words of a header are read back. -/
theorem word32_words {words : List ℕ} (rest : List UInt8) {i word : ℕ}
    (hword : words[i]? = some word)
    (hlt : word < 2 ^ 32) :
    word32 (words.flatMap (toBe 4) ++ rest) (4 * i) = some (UInt32.ofNat word) := by
  obtain ⟨hi, rfl⟩ := List.getElem?_eq_some_iff.mp hword
  have hsplit : words.flatMap (toBe 4) ++ rest = (words.take i).flatMap (toBe 4) ++
      (toBe 4 words[i] ++ ((words.drop (i + 1)).flatMap (toBe 4) ++ rest)) := by
    conv_lhs => rw [← List.take_append_drop i words, List.drop_eq_getElem_cons hi]
    rw [List.flatMap_append, List.flatMap_cons, List.append_assoc, List.append_assoc]
  have hbefore : ((words.take i).flatMap (toBe 4)).length = 4 * i := by
    rw [length_words, List.length_take, min_eq_left (by omega)]
  rw [hsplit, ← hbefore]
  exact word32_append _ _ hlt

section EveryTree

variable {root : Node}

theorem length_blob (root : Node) :
    root.blob.length = 40 + root.structBlock.length + root.stringsBlock.length := by
  rw [Node.blob, List.length_append, length_words, List.length_append, ← Nat.add_assoc]
  rfl

theorem length_encode_le {off : String → UInt32} {tokens : List Token} {token : Token}
    (htoken : token ∈ tokens) : (token.encode off).length ≤ (encodeAll off tokens).length := by
  induction tokens with
  | nil => cases htoken
  | cons first tokens ih =>
    rw [encodeAll, List.flatMap_cons, List.length_append]
    rcases List.mem_cons.mp htoken with rfl | hrest
    · exact Nat.le_add_right _ _
    · exact le_trans (ih hrest) (Nat.le_add_left _ _)

theorem valid_of_clean (hclean : ∀ token ∈ root.tokens, token.Clean)
    (hsize : root.blob.length < 2 ^ 32) :
    ∀ token ∈ root.tokens, token.Valid root.placeOf root.stringsBlock := by
  have hlength := length_blob root
  intro token htoken
  have hone := hclean token htoken
  cases token with
  | beginNode name => exact hone
  | prop name value =>
    have hname : name ∈ root.propNames := List.mem_filterMap.mpr ⟨_, htoken, rfl⟩
    obtain ⟨before, after, hsplit, hplace⟩ := stringsFor_split hname
    have hbefore : before.length < 2 ^ 32 := by
      have hstrings :
          root.stringsBlock.length = before.length + (utf8 name ++ 0 :: after).length := by
        rw [Node.stringsBlock, hsplit, List.length_append]
      omega
    refine ⟨?_, hone, before, after, hsplit, ?_⟩
    · have hle : ((Token.prop name value).encode root.placeOf).length ≤ root.structBlock.length :=
        length_encode_le (List.mem_append_left _ htoken)
      have hvalue := le_roundUp4 value.length
      simp only [Token.encode, List.length_append, length_toBe, length_pad4] at hle
      omega
    · rw [hplace, Node.placeOf, UInt32.toNat_ofNat_of_lt' (by rw [← hplace]; exact hbefore)]
  | endNode | nop | finish => trivial

theorem mem_tokensAll {token : Token} {nodes : List Node} (htoken : token ∈ Node.tokensAll nodes) :
    ∃ node ∈ nodes, token ∈ node.tokens := by
  induction nodes with
  | nil => cases htoken
  | cons node nodes ih =>
    rcases List.mem_append.mp htoken with hfirst | hrest
    · exact ⟨node, List.mem_cons_self, hfirst⟩
    · obtain ⟨other, hother, hmem⟩ := ih hrest
      exact ⟨other, List.mem_cons_of_mem _ hother, hmem⟩

/-- The tokens of a node itself are no-ops nowhere. -/
theorem ne_nop_of_mem_tokens (root : Node) : ∀ token ∈ root.tokens, token ≠ .nop := by
  induction root using Node.induction with
  | hnode name props children ih =>
    intro token htoken
    simp only [Node.tokens, List.mem_cons, List.mem_append, List.mem_map, List.not_mem_nil,
      or_false] at htoken
    rcases htoken with rfl | ⟨p, _, rfl⟩ | hbelow | rfl
    · simp
    · simp
    · obtain ⟨child, hchild, hmem⟩ := mem_tokensAll hbelow
      exact ih child hchild token hmem
    · simp

theorem totalsizeOf_blob (hsize : root.blob.length < 2 ^ 32) :
    totalsizeOf root.blob = root.blob.length := by
  have hlength := length_blob root
  have hword : word32 root.blob 4 = some (UInt32.ofNat root.blob.length) := by
    rw [hlength]
    exact word32_words _ (i := 1) rfl (by omega)
  have hread : word32 root.blob 4 = some (UInt32.ofNat (totalsizeOf root.blob)) := by
    rw [word32, wordAt, if_pos (by omega)]
    rfl
  have hsame := congrArg UInt32.toNat (Option.some.inj (hread.symm.trans hword))
  rwa [UInt32.toNat_ofNat_of_lt' (totalsizeOf_lt _), UInt32.toNat_ofNat_of_lt' hsize] at hsame

/-- A tree whose names have no NUL and whose blob is small enough is in its blob. -/
theorem holdsTree_blob (root : Node)
    (hfits : (∀ token ∈ root.tokens, token.Clean) ∧ root.blob.length < 2 ^ 32) :
    HoldsTree root.blob root := by
  obtain ⟨hclean, hsize⟩ := hfits
  have hlength := length_blob root
  have htotal := totalsizeOf_blob hsize
  have hheader : (root.header.flatMap (toBe 4)).length = 40 := length_words _
  have hoff : (UInt32.ofNat (40 + root.structBlock.length)).toNat = 40 + root.structBlock.length :=
    UInt32.toNat_ofNat_of_lt' (by show _ < 2 ^ 32; omega)
  refine ⟨40, UInt32.ofNat (40 + root.structBlock.length), root.tokens ++ [.finish], root.placeOf,
    root.stringsBlock, ?_, ?_, valid_of_clean hclean hsize⟩
  · constructor
    case magic => exact word32_words _ (i := 0) rfl (by decide)
    case header_le =>
      rw [htotal, headerSize]
      omega
    case total_le => rw [htotal]
    case struct_off => exact word32_words _ (i := 2) rfl (by decide)
    case strings_off => exact word32_words _ (i := 3) rfl (by omega)
    case strings_size => exact word32_words _ (i := 8) rfl (by omega)
    case struct_size =>
      exact word32_words _ (i := 9) rfl (by show root.structBlock.length < 2 ^ 32; omega)
    case struct_le =>
      show 40 + root.structBlock.length ≤ _
      omega
    case strings_le =>
      rw [hoff]
      omega
    case struct_eq =>
      show bytesAt root.blob 40 root.structBlock.length = root.structBlock
      rw [Node.blob, ← hheader]
      exact bytesAt_append _ _ _
    case strings_eq =>
      have hfront : (root.header.flatMap (toBe 4) ++ root.structBlock).length =
          40 + root.structBlock.length := by rw [List.length_append, hheader]
      have hstrings := bytesAt_append (root.header.flatMap (toBe 4) ++ root.structBlock)
        root.stringsBlock []
      rw [List.append_nil, hfront, List.append_assoc] at hstrings
      rw [hoff]
      exact hstrings
  · rw [List.filter_append, List.filter_eq_self.mpr]
    · rfl
    · intro token htoken
      simpa using ne_nop_of_mem_tokens root token htoken

end EveryTree

end Hyperion.Hal.Dtb
