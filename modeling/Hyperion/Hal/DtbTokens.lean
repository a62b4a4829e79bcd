import Hyperion.Hal.DtbSafety

/-!
# The walk as a machine on tokens

The struct block of an FDT is a sequence of tokens, each padded to four bytes.
`encodeAll` lays a token list out as bytes, and `run` is what the walk does on the
tokens themselves: one flat pass that counts the open nodes of a subtree it skips.
The result of this file is that the two agree (`walkWith_encodeAll`), for every
token list, whether or not it comes from a tree.

The proof is by induction on the tokens still to come.  A turn of the main loop
reads one token, except where it enters the skipping loop; there
`skip_encodeAll` says which tokens are left when that loop ends.
-/

namespace Hyperion.Hal.Dtb

open Hyperion.Lib

/-! ## Tokens and their bytes -/

inductive Token where
  | beginNode (name : String)
  | endNode
  | prop (name : String) (value : List UInt8)
  | nop
  | finish
  deriving DecidableEq, Repr

/-- `bytes` followed by zeros up to a multiple of four. -/
def pad4 (bytes : List UInt8) : List UInt8 :=
  bytes ++ List.replicate (roundUp4 bytes.length - bytes.length) 0

/-- The bytes of a token, where `off` gives the place of a property's name in the
strings block. -/
def Token.encode (off : String → UInt32) : Token → List UInt8
  | .beginNode name => toBe 4 fdtBeginNode.toNat ++ pad4 (utf8 name ++ [0])
  | .endNode => toBe 4 fdtEndNode.toNat
  | .prop name value =>
    toBe 4 fdtProp.toNat ++ (toBe 4 value.length ++ (toBe 4 (off name).toNat ++ pad4 value))
  | .nop => toBe 4 fdtNop.toNat
  | .finish => toBe 4 fdtEnd.toNat

def encodeAll (off : String → UInt32) (tokens : List Token) : List UInt8 :=
  tokens.flatMap (Token.encode off)

/-- What the format asks of a token: names have no NUL, the length of a value fits
its field, and the name of a property stands in the strings block. -/
def Token.Valid (off : String → UInt32) (strings : List UInt8) : Token → Prop
  | .beginNode name => 0 ∉ utf8 name
  | .prop name value => value.length < 2 ^ 32 ∧ 0 ∉ utf8 name ∧
      ∃ before after, strings = before ++ (utf8 name ++ 0 :: after) ∧
        before.length = (off name).toNat
  | _ => True

theorem length_pad4 (bytes : List UInt8) : (pad4 bytes).length = roundUp4 bytes.length := by
  have hle := le_roundUp4 bytes.length
  simp [pad4]
  omega

theorem four_dvd_roundUp4 (n : ℕ) : 4 ∣ roundUp4 n := Dvd.intro_left _ rfl

theorem roundUp4_add {a : ℕ} (ha : 4 ∣ a) (b : ℕ) : roundUp4 (a + b) = a + roundUp4 b := by
  unfold roundUp4
  omega

section

variable (off : String → UInt32)

theorem four_dvd_length_encode (token : Token) :
    4 ∣ (token.encode off).length := by
  cases token with
  | beginNode name =>
    have := four_dvd_roundUp4 (utf8 name ++ [0]).length
    simp only [Token.encode, List.length_append, length_toBe, length_pad4] at this ⊢
    omega
  | prop name value =>
    have := four_dvd_roundUp4 value.length
    simp only [Token.encode, List.length_append, length_toBe, length_pad4]
    omega
  | endNode => simp [Token.encode]
  | nop => simp [Token.encode]
  | finish => simp [Token.encode]

theorem four_le_length_encode (token : Token) :
    4 ≤ (token.encode off).length := by
  cases token <;> simp [Token.encode]

theorem four_dvd_length_encodeAll (tokens : List Token) :
    4 ∣ (encodeAll off tokens).length := by
  induction tokens with
  | nil => simp [encodeAll]
  | cons token tokens ih =>
    simp only [encodeAll, List.flatMap_cons, List.length_append] at ih ⊢
    exact Nat.dvd_add (four_dvd_length_encode off token) ih

theorem length_le_length_encodeAll (tokens : List Token) :
    tokens.length ≤ (encodeAll off tokens).length := by
  induction tokens with
  | nil => simp
  | cons token tokens ih =>
    have := four_le_length_encode off token
    simp only [encodeAll, List.flatMap_cons, List.length_cons, List.length_append] at ih ⊢
    omega

end

/-- What follows `before` in `block`, at an aligned place, are the bytes of `tokens`. -/
structure Encodes (off : String → UInt32) (strings block before : List UInt8)
    (tokens : List Token) : Prop where
  block_eq : block = before ++ encodeAll off tokens
  aligned : 4 ∣ before.length
  valid : ∀ token ∈ tokens, token.Valid off strings

namespace Encodes

variable {off : String → UInt32} {strings block before : List UInt8} {token : Token}
  {tokens passed rest : List Token}

/-- Some of the tokens can be moved to what comes before. -/
theorem drop (h : Encodes off strings block before (passed ++ rest)) :
    Encodes off strings block (before ++ encodeAll off passed) rest where
  block_eq := by
    rw [h.block_eq, encodeAll, encodeAll, encodeAll, List.flatMap_append, List.append_assoc]
  aligned := by
    rw [List.length_append]
    exact Nat.dvd_add h.aligned (four_dvd_length_encodeAll off passed)
  valid := fun token htoken => h.valid token (List.mem_append_right passed htoken)

section

variable (h : Encodes off strings block before (token :: tokens))

include h

theorem tail :
    Encodes off strings block (before ++ token.encode off) tokens := by
  have hone : encodeAll off [token] = token.encode off := List.flatMap_singleton _ _
  rw [← hone]
  exact drop h

theorem head_eq :
    block = before ++ (token.encode off ++ encodeAll off tokens) := by
  rw [h.tail.block_eq, List.append_assoc]

theorem head_valid :
    token.Valid off strings :=
  h.valid token List.mem_cons_self

end

theorem length_le (h : Encodes off strings block before tokens) :
    before.length + tokens.length ≤ block.length := by
  rw [h.block_eq, List.length_append]
  exact Nat.add_le_add_left (length_le_length_encodeAll off tokens) _

theorem length_eq_of_nil (h : Encodes off strings block before []) :
    block.length = before.length := by
  rw [h.block_eq]
  simp [encodeAll]

end Encodes

/-! ## Reading a token back -/

section Reads

variable {before after : List UInt8}

theorem bytesAt_append (before mid after : List UInt8) :
    bytesAt (before ++ (mid ++ after)) before.length mid.length = mid := by
  rw [bytesAt, List.drop_left, List.take_left]

theorem word32_append (before after : List UInt8) {n : ℕ} (hn : n < 2 ^ 32) :
    word32 (before ++ (toBe 4 n ++ after)) before.length = some (UInt32.ofNat n) := by
  have hread : bytesAt (before ++ (toBe 4 n ++ after)) before.length 4 = toBe 4 n := by
    have := bytesAt_append before (toBe 4 n) after
    rwa [length_toBe] at this
  have hmod : n % 256 ^ 4 = n := Nat.mod_eq_of_lt hn
  rw [word32, wordAt, if_pos (by simp), hread, fromBe_toBe, hmod]
  rfl

theorem cstring_append {name : String} (hname : 0 ∉ utf8 name) (before after : List UInt8) :
    cstring (before ++ (utf8 name ++ 0 :: after)) before.length = name := by
  have hwhile : (utf8 name ++ 0 :: after).takeWhile (· != 0) = utf8 name := by
    rw [List.takeWhile_append_of_pos]
    · simp
    · intro byte hbyte
      have hne : byte ≠ 0 := fun h => hname (h ▸ hbyte)
      simpa using hne
  rw [cstring, textOf, List.drop_left, hwhile, fromUtf8_utf8]
  rfl

end Reads

/-! ## The machine -/

variable {ι : Type}

/-- The walk on tokens, with the number of nodes still open in a subtree that is
being skipped. -/
def run (act : ι → NodeCall → ι) : List Token → ℕ → Walk ι → ι
  | [], _, s => s.info
  | token :: tokens, skipping, s =>
    match token with
    | .nop => run act tokens skipping s
    | .finish => s.info
    | .beginNode name =>
      if skipping ≠ 0 then run act tokens (skipping + 1) s
      else if maxDepth ≤ s.depth + 1 then run act tokens 1 s
      else run act tokens 0 (s.opened name)
    | .endNode =>
      if skipping ≠ 0 then run act tokens (skipping - 1) s
      else if s.depth = 0 then s.info
      else run act tokens 0 (s.closed act)
    | .prop name value =>
      if skipping ≠ 0 then run act tokens skipping s
      else run act tokens 0 (s.propped name value)

/-- The machine does not depend on the cursor. -/
theorem run_cursor (act : ι → NodeCall → ι) (tokens : List Token) (skipping : ℕ) (s : Walk ι)
    (cursor : ℕ) : run act tokens skipping { s with cursor } = run act tokens skipping s := by
  induction tokens generalizing skipping s with
  | nil => rfl
  | cons token tokens ih =>
    cases token with
    | nop => exact ih skipping s
    | finish => rfl
    | beginNode name =>
      simp only [run, ih]
      rw [← ih 0 (s.opened name)]
      rfl
    | endNode =>
      simp only [run, ih]
      rw [← ih 0 (s.closed act)]
      rfl
    | prop name value =>
      simp only [run, ih]
      rw [← ih 0 (s.propped name value)]
      rfl

/-! ## One token -/

section OneToken

variable {block strings before after : List UInt8} {off : String → UInt32}

/-- Behind a token word, the walk is in the arm for it. -/
theorem walkTurn_token (act : ι → NodeCall → ι) {s : Walk ι} (token : UInt32)
    (hsize : block.length < 2 ^ 32) (hblock : block = before ++ (toBe 4 token.toNat ++ after))
    (hcursor : s.cursor = before.length) :
    walkTurn act block strings s =
      tokenTurn act block strings token { s with cursor := before.length + 4 } := by
  have hbound : usizeBound = 2 ^ 64 := rfl
  have hlength : block.length = before.length + (4 + after.length) := by simp [hblock]
  have hword : word32 block before.length = some token := by
    rw [hblock, word32_append _ _ token.toNat_lt, UInt32.ofNat_toNat]
  simp only [walkTurn, hcursor, bind, Except.bind]
  rw [addUsize_of_lt (by omega)]
  simp only
  rw [if_neg (by omega), be32_eq (by omega), hword]

theorem skipTurn_token (token : UInt32) {nesting : ℕ} (hnesting : nesting ≠ 0)
    (hsize : block.length < 2 ^ 32) (hblock : block = before ++ (toBe 4 token.toNat ++ after)) :
    skipTurn block (before.length, nesting) =
      skipToken block token (before.length + 4) nesting := by
  have hbound : usizeBound = 2 ^ 64 := rfl
  have hlength : block.length = before.length + (4 + after.length) := by simp [hblock]
  have hword : word32 block before.length = some token := by
    rw [hblock, word32_append _ _ token.toNat_lt, UInt32.ofNat_toNat]
  simp only [skipTurn, bind, Except.bind]
  rw [if_neg hnesting, addUsize_of_lt (by omega)]
  simp only
  rw [if_neg (by omega), be32_eq (by omega), hword]

/-- The name behind a begin token, and the end of its padding. -/
theorem read_beginNode {name : String} (hname : 0 ∉ utf8 name) (hbefore : 4 ∣ before.length)
    (hsize : block.length < 2 ^ 32)
    (hblock : block = before ++ ((Token.beginNode name).encode off ++ after)) :
    cstring block (before.length + 4) = name ∧
      skipName (before.length + 4) name =
        .ok (before.length + ((Token.beginNode name).encode off).length) := by
  have hbound : usizeBound = 2 ^ 64 := rfl
  have hwidth : ((Token.beginNode name).encode off).length =
      4 + roundUp4 (name.utf8ByteSize + 1) := by
    simp [Token.encode, length_pad4]
  have hlength : block.length =
      before.length + (4 + roundUp4 (name.utf8ByteSize + 1) + after.length) := by
    simp [hblock, hwidth]
  have hle := le_roundUp4 (name.utf8ByteSize + 1)
  constructor
  · have hsplit : block = (before ++ toBe 4 fdtBeginNode.toNat) ++ (utf8 name ++ 0 ::
        (List.replicate (roundUp4 (utf8 name ++ [0]).length - (utf8 name ++ [0]).length) 0 ++
          after)) := by
      rw [hblock, Token.encode, pad4]
      simp
    have hlen : before.length + 4 = (before ++ toBe 4 fdtBeginNode.toNat).length := by simp
    rw [hlen, hsplit]
    exact cstring_append hname _ _
  · rw [skipName_eq (by omega), Nat.add_assoc, roundUp4_add hbefore, hwidth,
      roundUp4_add (by norm_num)]

/-- The fields behind a property token, and the end of its padding. -/
theorem read_prop {name : String} {value : List UInt8} (hvalue : value.length < 2 ^ 32)
    (hbefore : 4 ∣ before.length)
    (hblock : block = before ++ ((Token.prop name value).encode off ++ after)) :
    word32 block (before.length + 4) = some (UInt32.ofNat value.length) ∧
      word32 block (before.length + 8) = some (off name) ∧
      bytesAt block (before.length + 12) value.length = value ∧
      roundUp4 (before.length + 12 + value.length) =
        before.length + ((Token.prop name value).encode off).length ∧
      before.length + 12 + value.length ≤ block.length := by
  have hwidth : ((Token.prop name value).encode off).length = 12 + roundUp4 value.length := by
    simp [Token.encode, length_pad4]
    omega
  have hle := le_roundUp4 value.length
  have hlength : block.length =
      before.length + (12 + roundUp4 value.length + after.length) := by
    simp [hblock, hwidth]
  have htoken : (before ++ toBe 4 fdtProp.toNat).length = before.length + 4 := by simp
  have hplen : (before ++ toBe 4 fdtProp.toNat ++ toBe 4 value.length).length =
      before.length + 8 := by simp
  have hoff : (before ++ toBe 4 fdtProp.toNat ++ toBe 4 value.length ++
      toBe 4 (off name).toNat).length = before.length + 12 := by simp
  refine ⟨?_, ?_, ?_, ?_, by omega⟩
  · rw [← htoken, ← word32_append (before ++ toBe 4 fdtProp.toNat)
      (toBe 4 (off name).toNat ++ pad4 value ++ after) hvalue, hblock, Token.encode]
    simp
  · have hword := word32_append (before ++ toBe 4 fdtProp.toNat ++ toBe 4 value.length)
      (pad4 value ++ after) (off name).toNat_lt
    rw [hplen, UInt32.ofNat_toNat] at hword
    rw [← hword, hblock, Token.encode]
    simp
  · have hbytes := bytesAt_append (before ++ toBe 4 fdtProp.toNat ++ toBe 4 value.length ++
      toBe 4 (off name).toNat) value
      (List.replicate (roundUp4 value.length - value.length) 0 ++ after)
    rw [hoff] at hbytes
    rw [hblock, Token.encode, pad4]
    simpa using hbytes
  · rw [Nat.add_assoc, roundUp4_add hbefore, hwidth, roundUp4_add (by norm_num)]

/-- The arm for a property, on an encoded property. -/
theorem propTurn_prop {name : String} {value : List UInt8} {s : Walk ι}
    (hvalid : (Token.prop name value).Valid off strings) (hbefore : 4 ∣ before.length)
    (hsize : block.length < 2 ^ 32)
    (hblock : block = before ++ ((Token.prop name value).encode off ++ after))
    (hdepth : s.depth < maxDepth) :
    propTurn block strings { s with cursor := before.length + 4 } =
      .ok (.again { s.propped name value with
        cursor := before.length + ((Token.prop name value).encode off).length }) := by
  obtain ⟨hvalue, hname, prior, later, hstrings, hprior⟩ := hvalid
  obtain ⟨hplen, hnameoff, hbytes, hend, hinside⟩ := read_prop hvalue hbefore hblock
  have hbound : usizeBound = 2 ^ 64 := rfl
  have htoNat : (UInt32.ofNat value.length).toNat = value.length := UInt32.toNat_ofNat_of_lt' hvalue
  have hpname : cstring strings (off name).toNat = name := by
    rw [hstrings, ← hprior]
    exact cstring_append hname _ _
  have hslice : slice block (before.length + 12) (before.length + 12 + value.length) =
      .ok value := by
    rw [slice_of_le (by omega) hinside, Nat.add_sub_cancel_left]
    exact congrArg Except.ok hbytes
  simp only [propTurn, be32_eq (show block.length < usizeBound by omega), bind, Except.bind, hplen]
  rw [addUsize_of_lt (by omega)]
  simp only [Nat.add_assoc, Nat.reduceAdd, hnameoff, htoNat]
  rw [addUsize_of_lt (by omega)]
  simp only [Nat.add_assoc, Nat.reduceAdd]
  rw [addUsize_of_lt (by omega)]
  simp only
  rw [if_neg (by omega), hslice]
  simp only [cstr_eq, hpname]
  rw [handleProp_eq (s := { s with cursor := before.length + 4 }) name hdepth (by omega)]
  simp only
  rw [align4_eq (by omega), hend]
  rfl

end OneToken

/-! ## Skipping tokens -/

/-- The number of open nodes after a token of a skipped subtree, if skipping goes on. -/
def Token.skipNext : Token → ℕ → Option ℕ
  | .beginNode _, nesting => some (nesting + 1)
  | .endNode, nesting => some (nesting - 1)
  | .prop _ _, nesting => some nesting
  | .nop, nesting => some nesting
  | .finish, _ => none

theorem run_skipping (act : ι → NodeCall → ι) (token : Token) (tokens : List Token) {nesting : ℕ}
    (hnesting : nesting ≠ 0) (s : Walk ι) :
    run act (token :: tokens) nesting s =
      match token.skipNext nesting with
      | some nesting => run act tokens nesting s
      | none => s.info := by
  cases token <;> simp [run, Token.skipNext, hnesting]

section Skip

variable {block strings before after : List UInt8} {off : String → UInt32}

theorem skipTurn_encode {token : Token} (hvalid : token.Valid off strings) {nesting : ℕ}
    (hnesting : nesting ≠ 0) (hopen : nesting ≤ before.length + 1) (hbefore : 4 ∣ before.length)
    (hsize : block.length < 2 ^ 32) (hblock : block = before ++ (token.encode off ++ after)) :
    skipTurn block (before.length, nesting) =
      .ok (match token.skipNext nesting with
        | some nesting => .again (before.length + (token.encode off).length, nesting)
        | none => .leave none) := by
  have hbound : usizeBound = 2 ^ 64 := rfl
  have hlength : before.length ≤ block.length := by simp [hblock]
  cases token with
  | beginNode name =>
    obtain ⟨hname, hskip⟩ := read_beginNode hvalid hbefore hsize hblock
    have hword : block = before ++ (toBe 4 fdtBeginNode.toNat ++
        (pad4 (utf8 name ++ [0]) ++ after)) := by
      rw [hblock, Token.encode, List.append_assoc]
    rw [skipTurn_token fdtBeginNode hnesting hsize hword]
    simp only [skipToken, cstr_eq, hname, hskip, bind, Except.bind]
    rw [addUsize_of_lt (by omega)]
    rfl
  | endNode =>
    rw [skipTurn_token fdtEndNode hnesting hsize hblock]
    simp [skipToken, Token.skipNext, Token.encode, fdtEndNode, fdtBeginNode, pure, Except.pure]
  | prop name value =>
    obtain ⟨hvalue, _⟩ := hvalid
    obtain ⟨hplen, _, _, hend, hinside⟩ := read_prop hvalue hbefore hblock
    have htoNat : (UInt32.ofNat value.length).toNat = value.length :=
      UInt32.toNat_ofNat_of_lt' hvalue
    have hword : block = before ++ (toBe 4 fdtProp.toNat ++
        (toBe 4 value.length ++ (toBe 4 (off name).toNat ++ pad4 value) ++ after)) := by
      rw [hblock, Token.encode, List.append_assoc]
    have hcursor : before.length + 4 + (8 + value.length) = before.length + 12 + value.length := by
      omega
    rw [skipTurn_token fdtProp hnesting hsize hword, skipToken, if_neg (by decide),
      if_neg (by decide), if_pos rfl]
    simp only [be32_eq (show block.length < usizeBound by omega), bind, Except.bind, hplen, htoNat]
    rw [addUsize_of_lt (by omega)]
    simp only
    rw [addUsize_of_lt (by omega)]
    simp only [hcursor]
    rw [align4_eq (by omega), hend]
    rfl
  | nop =>
    rw [skipTurn_token fdtNop hnesting hsize hblock]
    simp [skipToken, Token.skipNext, Token.encode, fdtEndNode, fdtBeginNode, fdtProp, fdtNop,
      pure, Except.pure]
  | finish =>
    rw [skipTurn_token fdtEnd hnesting hsize hblock]
    simp [skipToken, Token.skipNext, fdtEndNode, fdtBeginNode, fdtProp, fdtNop, fdtEnd,
      pure, Except.pure]

/-- How the skipping loop ends on the tokens still to come: it stops the walk, or it
has passed some of them. -/
def SkipEnds (act : ι → NodeCall → ι) (off : String → UInt32) (before : List UInt8)
    (tokens : List Token) (nesting : ℕ) (result : Option ℕ) : Prop :=
  (result = none ∧ ∀ s, run act tokens nesting s = s.info) ∨
    ∃ passed rest, tokens = passed ++ rest ∧
      result = some (before ++ encodeAll off passed).length ∧
      ∀ s, run act tokens nesting s = run act rest 0 s

theorem skipTurn_end (hsize : block.length < 2 ^ 32) (nesting : ℕ) :
    skipTurn block (block.length, nesting) = .ok (.leave (some block.length)) := by
  have hbound : usizeBound = 2 ^ 64 := rfl
  simp only [skipTurn, bind, Except.bind]
  split
  · rfl
  · rw [addUsize_of_lt (by omega)]
    simp only
    rw [if_pos (by omega)]
    rfl

/-- A token that is skipped is passed. -/
theorem SkipEnds.cons {act : ι → NodeCall → ι} {token : Token} {tokens : List Token}
    {nesting next : ℕ} {result : Option ℕ} (hnesting : nesting ≠ 0)
    (hnext : token.skipNext nesting = some next)
    (h : SkipEnds act off (before ++ token.encode off) tokens next result) :
    SkipEnds act off before (token :: tokens) nesting result := by
  have hrun : ∀ s, run act (token :: tokens) nesting s = run act tokens next s := by
    intro s
    rw [run_skipping act token tokens hnesting, hnext]
  rcases h with ⟨hnone, hinfo⟩ | ⟨passed, rest, htokens, hresult, hrest⟩
  · exact .inl ⟨hnone, fun s => (hrun s).trans (hinfo s)⟩
  · refine .inr ⟨token :: passed, rest, by rw [htokens]; rfl, ?_,
      fun s => (hrun s).trans (hrest s)⟩
    rw [hresult]
    simp [encodeAll]

theorem skip_encodeAll (act : ι → NodeCall → ι) (hsize : block.length < 2 ^ 32)
    (tokens : List Token) :
    ∀ (before : List UInt8) (nesting fuel : ℕ), Encodes off strings block before tokens →
      nesting ≤ before.length + 1 → tokens.length < fuel →
      ∃ result, loop (skipTurn block) fuel (before.length, nesting) = .ok result ∧
        SkipEnds act off before tokens nesting result := by
  induction tokens with
  | nil =>
    intro before nesting fuel henc _ hfuel
    obtain ⟨fuel, rfl⟩ : ∃ n, fuel = n + 1 := ⟨fuel - 1, by simp at hfuel; omega⟩
    rw [← henc.length_eq_of_nil]
    refine ⟨_, loop_leave (skipTurn_end hsize nesting) fuel, .inr ⟨[], [], rfl, ?_, fun _ => rfl⟩⟩
    rw [henc.length_eq_of_nil]
    simp [encodeAll]
  | cons token tokens ih =>
    intro before nesting fuel henc hopen hfuel
    obtain ⟨fuel, rfl⟩ : ∃ n, fuel = n + 1 := ⟨fuel - 1, by simp at hfuel; omega⟩
    by_cases hnesting : nesting = 0
    · subst hnesting
      refine ⟨_, loop_leave rfl fuel, .inr ⟨[], token :: tokens, rfl, ?_, fun _ => rfl⟩⟩
      simp [encodeAll]
    have hturn := skipTurn_encode henc.head_valid hnesting hopen henc.aligned hsize henc.head_eq
    cases hnext : token.skipNext nesting with
    | none =>
      rw [hnext] at hturn
      refine ⟨none, loop_leave hturn fuel, .inl ⟨rfl, ?_⟩⟩
      intro s
      rw [run_skipping act token tokens hnesting, hnext]
    | some next =>
      rw [hnext] at hturn
      have hwide := four_le_length_encode off token
      have hle : next ≤ nesting + 1 := by
        cases token <;> simp [Token.skipNext] at hnext <;> omega
      obtain ⟨result, hloop, hends⟩ := ih (before ++ token.encode off) next fuel henc.tail
        (by rw [List.length_append]; omega) (by simpa using hfuel)
      rw [List.length_append] at hloop
      exact ⟨result, by rw [loop_again hturn]; exact hloop, hends.cons hnesting hnext⟩

end Skip

/-! ## The whole walk -/

section Whole

variable {block strings : List UInt8} {off : String → UInt32}

/-- The walk after a token at a depth where nodes are not skipped, if it goes on. -/
def Token.walkNext (act : ι → NodeCall → ι) (s : Walk ι) : Token → Option (Walk ι)
  | .beginNode name => some (s.opened name)
  | .endNode => if s.depth = 0 then none else some (s.closed act)
  | .prop name value => some (s.propped name value)
  | .nop => some s
  | .finish => none

/-- A token opens a node that is nested too deeply. -/
def Token.TooDeep (s : Walk ι) : Token → Prop
  | .beginNode _ => maxDepth ≤ s.depth + 1
  | _ => False

variable {s : Walk ι}

theorem Token.exists_of_tooDeep {token : Token} (hdeep : token.TooDeep s) :
    ∃ name, token = .beginNode name ∧ maxDepth ≤ s.depth + 1 := by
  cases token with
  | beginNode name => exact ⟨name, rfl, hdeep⟩
  | endNode => exact hdeep.elim
  | prop name value => exact hdeep.elim
  | nop => exact hdeep.elim
  | finish => exact hdeep.elim

theorem run_walking (act : ι → NodeCall → ι) {token : Token} (tokens : List Token)
    (hdeep : ¬token.TooDeep s) :
    run act (token :: tokens) 0 s =
      match token.walkNext act s with
      | some next => run act tokens 0 next
      | none => s.info := by
  cases token with
  | beginNode name => simp [run, Token.walkNext, show ¬maxDepth ≤ s.depth + 1 from hdeep]
  | endNode =>
    by_cases hzero : s.depth = 0
    · simp [run, Token.walkNext, hzero]
    · simp [run, Token.walkNext, hzero]
  | prop name value => simp [run, Token.walkNext]
  | nop => rfl
  | finish => rfl

theorem depth_walkNext_lt (act : ι → NodeCall → ι) {token : Token} {s next : Walk ι}
    (hdeep : ¬token.TooDeep s) (hdepth : s.depth < maxDepth)
    (hnext : token.walkNext act s = some next) : next.depth < maxDepth := by
  cases token with
  | beginNode name =>
    cases hnext
    exact Nat.not_le.mp hdeep
  | endNode =>
    simp only [Token.walkNext] at hnext
    split at hnext
    · cases hnext
    · cases hnext
      exact lt_of_le_of_lt (Nat.sub_le _ _) hdepth
  | prop name value =>
    cases hnext
    exact hdepth
  | nop =>
    cases hnext
    exact hdepth
  | finish => cases hnext

variable {before after : List UInt8}

section

variable (act : ι → NodeCall → ι)

/-- One turn of the main loop on an encoded token. -/
theorem walkTurn_encode {token : Token} (hvalid : token.Valid off strings)
    (hdeep : ¬token.TooDeep s) (hdepth : s.depth < maxDepth) (hcursor : s.cursor = before.length)
    (hbefore : 4 ∣ before.length) (hsize : block.length < 2 ^ 32)
    (hblock : block = before ++ (token.encode off ++ after)) :
    walkTurn act block strings s =
      .ok (match token.walkNext act s with
        | some next => .again { next with cursor := before.length + (token.encode off).length }
        | none => .leave s.info) := by
  have hbound : usizeBound = 2 ^ 64 := rfl
  have hmax : maxDepth = 8 := rfl
  cases token with
  | beginNode name =>
    obtain ⟨hname, hskip⟩ := read_beginNode hvalid hbefore hsize hblock
    have hshallow : ¬maxDepth ≤ s.depth + 1 := hdeep
    have hword : block = before ++ (toBe 4 fdtBeginNode.toNat ++
        (pad4 (utf8 name ++ [0]) ++ after)) := by
      rw [hblock, Token.encode, List.append_assoc]
    rw [walkTurn_token act fdtBeginNode hsize hword hcursor, tokenTurn, if_pos rfl]
    simp only [beginTurn, cstr_eq, hname, hskip, bind, Except.bind]
    rw [addUsize_of_lt (by omega)]
    simp only
    have hopen := openNode_eq name (Nat.not_le.mp hshallow)
      (s := { s with cursor := before.length + ((Token.beginNode name).encode off).length })
    rw [if_neg hshallow, hopen]
    rfl
  | endNode =>
    rw [walkTurn_token act fdtEndNode hsize hblock hcursor, tokenTurn, if_neg (by decide),
      if_pos rfl]
    by_cases hzero : s.depth = 0
    · simp only [Token.walkNext, hzero, if_true]
      rfl
    · simp only [Token.walkNext, hzero, if_false]
      rw [closeNode_eq act (s := { s with cursor := before.length + 4 }) hdepth]
      simp only [Token.encode, length_toBe]
      rfl
  | prop name value =>
    have hword : block = before ++ (toBe 4 fdtProp.toNat ++
        (toBe 4 value.length ++ (toBe 4 (off name).toNat ++ pad4 value) ++ after)) := by
      rw [hblock, Token.encode, List.append_assoc]
    rw [walkTurn_token act fdtProp hsize hword hcursor, tokenTurn, if_neg (by decide),
      if_neg (by decide), if_pos rfl]
    exact propTurn_prop hvalid hbefore hsize hblock hdepth
  | nop =>
    rw [walkTurn_token act fdtNop hsize hblock hcursor, tokenTurn, if_neg (by decide),
      if_neg (by decide), if_neg (by decide), if_pos rfl]
    simp only [Token.encode, length_toBe]
    rfl
  | finish =>
    rw [walkTurn_token act fdtEnd hsize hblock hcursor, tokenTurn, if_neg (by decide),
      if_neg (by decide), if_neg (by decide), if_neg (by decide)]
    rfl

/-- The turn that meets a node nested too deeply skips its subtree. -/
theorem walkTurn_tooDeep {name : String} (hvalid : (Token.beginNode name).Valid off strings)
    (hdeep : maxDepth ≤ s.depth + 1) (hdepth : s.depth < maxDepth)
    (hcursor : s.cursor = before.length) (hbefore : 4 ∣ before.length)
    (hsize : block.length < 2 ^ 32)
    (hblock : block = before ++ ((Token.beginNode name).encode off ++ after)) {result : Option ℕ}
    (hskip : loop (skipTurn block) (block.length + 1)
      (before.length + ((Token.beginNode name).encode off).length, 1) = .ok result) :
    walkTurn act block strings s =
      .ok (result.elim (.leave s.info) fun cursor => .again { s with cursor }) := by
  have hbound : usizeBound = 2 ^ 64 := rfl
  have hmax : maxDepth = 8 := rfl
  obtain ⟨hname, hend⟩ := read_beginNode hvalid hbefore hsize hblock
  have hword : block = before ++ (toBe 4 fdtBeginNode.toNat ++
      (pad4 (utf8 name ++ [0]) ++ after)) := by
    rw [hblock, Token.encode, List.append_assoc]
  rw [walkTurn_token act fdtBeginNode hsize hword hcursor, tokenTurn, if_pos rfl]
  simp only [beginTurn, cstr_eq, hname, hend, bind, Except.bind]
  rw [addUsize_of_lt (by omega)]
  simp only
  rw [if_pos hdeep, hskip]
  cases result with
  | none => rfl
  | some cursor => rfl

theorem walkTurn_end (hsize : block.length < 2 ^ 32) (hcursor : s.cursor = block.length) :
    walkTurn act block strings s = .ok (.leave s.info) := by
  have hbound : usizeBound = 2 ^ 64 := rfl
  simp only [walkTurn, bind, Except.bind, hcursor]
  rw [addUsize_of_lt (by omega)]
  simp only
  rw [if_pos (by omega)]
  rfl

/-- From a node nested too deeply the loop ends, as the machine does, or it is
after some of the tokens, where the machine gets to as well. -/
theorem loop_tooDeep (hsize : block.length < 2 ^ 32) {name : String} {tokens : List Token}
    (henc : Encodes off strings block before (.beginNode name :: tokens))
    (hdeep : maxDepth ≤ s.depth + 1) (hdepth : s.depth < maxDepth)
    (hcursor : s.cursor = before.length) (fuel : ℕ) :
    loop (walkTurn act block strings) (fuel + 1) s =
        .ok (run act (.beginNode name :: tokens) 0 s) ∨
      ∃ passed rest bytes, tokens = passed ++ rest ∧ Encodes off strings block bytes rest ∧
        loop (walkTurn act block strings) (fuel + 1) s =
          loop (walkTurn act block strings) fuel { s with cursor := bytes.length } ∧
        run act (.beginNode name :: tokens) 0 s =
          run act rest 0 { s with cursor := bytes.length } := by
  have hlength := henc.length_le
  rw [List.length_cons] at hlength
  obtain ⟨result, hskip, hends⟩ := skip_encodeAll act hsize tokens
    (before ++ (Token.beginNode name).encode off) 1 (block.length + 1) henc.tail (by omega)
    (by omega)
  rw [List.length_append] at hskip
  have hturn := walkTurn_tooDeep act henc.head_valid hdeep hdepth hcursor henc.aligned hsize
    henc.head_eq hskip
  have hrun : run act (.beginNode name :: tokens) 0 s = run act tokens 1 s := by
    simp [run, hdeep]
  rw [hrun]
  rcases hends with ⟨rfl, hinfo⟩ | ⟨passed, rest, rfl, rfl, hgo⟩
  · rw [hinfo]
    exact .inl (loop_leave hturn fuel)
  · refine .inr ⟨passed, rest, _, rfl, henc.tail.drop, loop_again hturn fuel, ?_⟩
    rw [hgo]
    exact (run_cursor act rest 0 s _).symm

/-- The main loop on an encoded token list, by induction on a bound for its length:
a turn of the loop may pass several tokens at once. -/
theorem loop_encodeAll (hsize : block.length < 2 ^ 32) (bound : ℕ) :
    ∀ (tokens : List Token) (before : List UInt8) (s : Walk ι) (fuel : ℕ),
      tokens.length ≤ bound → Encodes off strings block before tokens →
      s.cursor = before.length → s.depth < maxDepth → tokens.length < fuel →
      loop (walkTurn act block strings) fuel s = .ok (run act tokens 0 s) := by
  induction bound with
  | zero =>
    intro tokens before s fuel htokens henc hcursor _ hfuel
    obtain rfl : tokens = [] := List.eq_nil_of_length_eq_zero (Nat.le_zero.mp htokens)
    obtain ⟨fuel, rfl⟩ : ∃ n, fuel = n + 1 := ⟨fuel - 1, by simp at hfuel; omega⟩
    exact loop_leave (walkTurn_end act hsize (hcursor.trans henc.length_eq_of_nil.symm)) fuel
  | succ bound ih =>
    intro tokens before s fuel htokens henc hcursor hdepth hfuel
    cases tokens with
    | nil => exact ih [] before s fuel (Nat.zero_le _) henc hcursor hdepth hfuel
    | cons token tokens =>
      rw [List.length_cons] at htokens hfuel
      obtain ⟨fuel, rfl⟩ : ∃ n, fuel = n + 1 := ⟨fuel - 1, by omega⟩
      by_cases hdeep : token.TooDeep s
      · obtain ⟨name, rfl, hdeep⟩ := Token.exists_of_tooDeep hdeep
        rcases loop_tooDeep act hsize henc hdeep hdepth hcursor fuel with
          hend | ⟨passed, rest, bytes, rfl, hrest, hloop, hrun⟩
        · exact hend
        · rw [hloop, hrun]
          rw [List.length_append] at htokens hfuel
          exact ih rest bytes _ fuel (by omega) hrest rfl hdepth (by omega)
      · have hturn := walkTurn_encode act henc.head_valid hdeep hdepth hcursor henc.aligned
          hsize henc.head_eq
        rw [run_walking act tokens hdeep]
        cases hnext : token.walkNext act s with
        | none =>
          rw [hnext] at hturn
          exact loop_leave hturn fuel
        | some next =>
          rw [hnext] at hturn
          show _ = Except.ok (run act tokens 0 next)
          rw [loop_again hturn, ← List.length_append,
            ← run_cursor act tokens 0 next (before ++ token.encode off).length]
          have hnextDepth : next.depth < maxDepth := depth_walkNext_lt act hdeep hdepth hnext
          exact ih tokens (before ++ token.encode off) _ fuel (by omega) henc.tail rfl
            hnextDepth (by omega)

/-- **The walk over the bytes of a token list is the machine on the tokens.** -/
theorem walkWith_encodeAll {tokens : List Token}
    (hvalid : ∀ token ∈ tokens, token.Valid off strings)
    (hsize : (encodeAll off tokens).length < 2 ^ 32) (info : ι) :
    walkWith act (encodeAll off tokens) strings info =
      .ok (run act tokens 0
        { cursor := 0, depth := 0, frames := startFrames, stdoutPath := "", inChosen := false,
          info }) :=
  loop_encodeAll act hsize tokens.length tokens [] _ _ (le_refl _) ⟨rfl, by simp, hvalid⟩ rfl
    (Nat.succ_pos 7) (Nat.lt_succ_of_le (length_le_length_encodeAll off tokens))

end

end Whole

/-- Tokens that do nothing can be left out. -/
theorem run_filter_nop (act : ι → NodeCall → ι) (tokens : List Token) (skipping : ℕ)
    (s : Walk ι) :
    run act (tokens.filter (· ≠ .nop)) skipping s = run act tokens skipping s := by
  induction tokens generalizing skipping s with
  | nil => rfl
  | cons token tokens ih =>
    cases token with
    | nop => simpa [run] using ih skipping s
    | finish => simp [run]
    | beginNode name =>
      rw [List.filter_cons_of_pos (by simp)]
      simp only [run, ih]
    | endNode =>
      rw [List.filter_cons_of_pos (by simp)]
      simp only [run, ih]
    | prop name value =>
      rw [List.filter_cons_of_pos (by simp)]
      simp only [run, ih]

end Hyperion.Hal.Dtb
