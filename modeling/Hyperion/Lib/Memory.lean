import Hyperion.Lib.Bytes

/-!
# Byte-addressed memory

Memory as a function from addresses to bytes, read through raw pointers: there is a
byte at every address, and whether a program may look at it is a question about
the program.  `Holds mem addr bytes` says what is stored where, and splits along
`++`.
-/

namespace Hyperion.Lib

/-- A byte at every address. -/
abbrev Memory := ℕ → UInt8

namespace Memory

variable {mem : Memory} {addr : ℕ} {bytes left right : List UInt8}

/-- The `n` bytes from `addr` on. -/
def bytesFrom (mem : Memory) (addr n : ℕ) : List UInt8 :=
  (List.range n).map fun i => mem (addr + i)

/-- The little-endian integer of `width` bytes at `addr`. -/
def load (mem : Memory) (addr width : ℕ) : ℕ := fromLe (mem.bytesFrom addr width)

/-- Memory after `bytes` are written from `addr` on. -/
def store (mem : Memory) (addr : ℕ) (bytes : List UInt8) : Memory :=
  fun a => if addr ≤ a ∧ a < addr + bytes.length then bytes.getD (a - addr) 0 else mem a

/-- `bytes` is stored at `addr`. -/
def Holds (mem : Memory) (addr : ℕ) (bytes : List UInt8) : Prop :=
  mem.bytesFrom addr bytes.length = bytes

/-- Memory with `bytes` at `addr` and zeros elsewhere. -/
def ofBytes (addr : ℕ) (bytes : List UInt8) : Memory :=
  fun a => if addr ≤ a then bytes.getD (a - addr) 0 else 0

theorem holds_ofBytes (addr : ℕ) (bytes : List UInt8) : (ofBytes addr bytes).Holds addr bytes := by
  apply List.ext_getElem
  · simp [bytesFrom]
  · intro i hi hi'
    simp [bytesFrom, ofBytes, List.getD_eq_getElem?_getD, hi']

@[simp] theorem length_bytesFrom (mem : Memory) (addr n : ℕ) :
    (mem.bytesFrom addr n).length = n := by
  simp [bytesFrom]

theorem bytesFrom_add (mem : Memory) (addr m n : ℕ) :
    mem.bytesFrom addr (m + n) = mem.bytesFrom addr m ++ mem.bytesFrom (addr + m) n := by
  rw [bytesFrom, bytesFrom, bytesFrom, List.range_add, List.map_append, List.map_map]
  congr 1
  apply List.map_congr_left
  intro i _
  simp [Nat.add_assoc]

theorem holds_append :
    mem.Holds addr (left ++ right) ↔
      mem.Holds addr left ∧ mem.Holds (addr + left.length) right := by
  unfold Holds
  rw [List.length_append, bytesFrom_add]
  constructor
  · intro heq
    exact List.append_inj heq (by simp)
  · rintro ⟨hleft, hright⟩
    rw [hleft, hright]

/-- A write leaves what is beside it. -/
theorem bytesFrom_store_of_disjoint {other n : ℕ}
    (hdisjoint : other + n ≤ addr ∨ addr + bytes.length ≤ other) :
    (mem.store addr bytes).bytesFrom other n = mem.bytesFrom other n := by
  unfold bytesFrom
  apply List.map_congr_left
  intro i hi
  have hlt : i < n := List.mem_range.mp hi
  exact if_neg (by omega)

/-- An integer that was stored is loaded. -/
theorem Holds.load_toLe {width value : ℕ} (hholds : mem.Holds addr (toLe width value))
    (hvalue : value < 256 ^ width) : mem.load addr width = value := by
  rw [Holds, length_toLe] at hholds
  rw [load, hholds, fromLe_toLe, Nat.mod_eq_of_lt hvalue]

theorem holds_store (mem : Memory) (addr : ℕ) (bytes : List UInt8) :
    (mem.store addr bytes).Holds addr bytes := by
  apply List.ext_getElem
  · simp [bytesFrom]
  · intro i hi hi'
    simp [bytesFrom, store, List.getD_eq_getElem?_getD, hi']

/-! ## Words -/

/-- The 64-bit word at `addr`. -/
def load64 (mem : Memory) (addr : ℕ) : UInt64 := UInt64.ofNat (mem.load addr 8)

/-- Memory after a 64-bit word is written to `addr`. -/
def store64 (mem : Memory) (addr : ℕ) (word : UInt64) : Memory :=
  mem.store addr (toLe 8 word.toNat)

variable {word : UInt64}

theorem load64_store64_self : (mem.store64 addr word).load64 addr = word := by
  have hholds := holds_store mem addr (toLe 8 word.toNat)
  rw [load64, store64, hholds.load_toLe word.toNat_lt, UInt64.ofNat_toNat]

theorem load64_store64_of_disjoint {other : ℕ} (hdisjoint : other + 8 ≤ addr ∨ addr + 8 ≤ other) :
    (mem.store64 addr word).load64 other = mem.load64 other := by
  rw [load64, load64, load, load, store64, bytesFrom_store_of_disjoint]
  rwa [length_toLe]

/-- An array of words, written from the first to the last. -/
theorem load64_foldl_store64 (mem : Memory) (base : ℕ) (words : ℕ → UInt64) (n : ℕ) :
    (∀ i < n, ((List.range n).foldl (fun mem i => mem.store64 (base + 8 * i) (words i)) mem).load64
        (base + 8 * i) = words i) ∧
      ∀ other, other + 8 ≤ base ∨ base + 8 * n ≤ other →
        ((List.range n).foldl
          (fun mem i => mem.store64 (base + 8 * i) (words i)) mem).load64 other =
          mem.load64 other := by
  induction n with
  | zero => exact ⟨fun i hi => absurd hi (Nat.not_lt_zero i), fun _ _ => rfl⟩
  | succ n ih =>
    rw [List.range_succ, List.foldl_append, List.foldl_cons, List.foldl_nil]
    refine ⟨?_, ?_⟩
    · intro i hi
      rcases Nat.lt_succ_iff_lt_or_eq.mp hi with hlt | rfl
      · rw [load64_store64_of_disjoint (by omega), ih.1 i hlt]
      · exact load64_store64_self
    · intro other hother
      rw [load64_store64_of_disjoint (by omega), ih.2 other (by omega)]

/-- A word depends on its own bytes only. -/
theorem load64_congr {mem' : Memory} (hsame : ∀ a ∈ Set.Ico addr (addr + 8), mem' a = mem a) :
    mem'.load64 addr = mem.load64 addr := by
  have hbytes : mem'.bytesFrom addr 8 = mem.bytesFrom addr 8 := by
    refine List.map_congr_left fun i hi => hsame _ ⟨Nat.le_add_right .., ?_⟩
    have hlt : i < 8 := List.mem_range.mp hi
    omega
  rw [load64, load64, load, load, hbytes]

theorem store64_apply_of_notMem {a : ℕ} (ha : a ∉ Set.Ico addr (addr + 8)) :
    mem.store64 addr word a = mem a :=
  if_neg (by rwa [length_toLe])

/-! ## Words of 32 bits -/

/-- The 32-bit word at `addr`. -/
def load32 (mem : Memory) (addr : ℕ) : UInt32 := UInt32.ofNat (mem.load addr 4)

/-- Memory after a 32-bit word is written to `addr`. -/
def store32 (mem : Memory) (addr : ℕ) (word : UInt32) : Memory :=
  mem.store addr (toLe 4 word.toNat)

theorem load32_store32_self {word : UInt32} : (mem.store32 addr word).load32 addr = word := by
  have hholds := holds_store mem addr (toLe 4 word.toNat)
  rw [load32, store32, hholds.load_toLe word.toNat_lt, UInt32.ofNat_toNat]

theorem load32_store32_of_disjoint {other : ℕ} {word : UInt32}
    (hdisjoint : other + 4 ≤ addr ∨ addr + 4 ≤ other) :
    (mem.store32 addr word).load32 other = mem.load32 other := by
  rw [load32, load32, load, load, store32, bytesFrom_store_of_disjoint]
  rwa [length_toLe]

theorem store32_apply_of_notMem {a : ℕ} {word : UInt32} (ha : a ∉ Set.Ico addr (addr + 4)) :
    mem.store32 addr word a = mem a :=
  if_neg (by rwa [length_toLe])

theorem load32_congr {mem' : Memory} (hsame : ∀ a ∈ Set.Ico addr (addr + 4), mem' a = mem a) :
    mem'.load32 addr = mem.load32 addr := by
  have hbytes : mem'.bytesFrom addr 4 = mem.bytesFrom addr 4 := by
    refine List.map_congr_left fun i hi => hsame _ ⟨Nat.le_add_right .., ?_⟩
    have hlt : i < 4 := List.mem_range.mp hi
    omega
  rw [load32, load32, load, load, hbytes]

theorem load32_eq_zero (hzero : ∀ a ∈ Set.Ico addr (addr + 4), mem a = 0) :
    mem.load32 addr = 0 := by
  have hload : mem.load32 addr = load32 (fun _ => 0) addr := load32_congr hzero
  rw [hload]
  rfl

/-- Two words of 32 bits make one of 64, the lower one first. -/
theorem toNat_load64 (mem : Memory) (addr : ℕ) :
    (mem.load64 addr).toNat =
      (mem.load32 addr).toNat + 2 ^ 32 * (mem.load32 (addr + 4)).toNat := by
  have hlow : mem.load addr 4 < 256 ^ 4 := by
    simpa [load] using fromLe_lt (mem.bytesFrom addr 4)
  have hhigh : mem.load (addr + 4) 4 < 256 ^ 4 := by
    simpa [load] using fromLe_lt (mem.bytesFrom (addr + 4) 4)
  have hsplit : mem.load addr 8 = mem.load addr 4 + 2 ^ 32 * mem.load (addr + 4) 4 := by
    rw [load, bytesFrom_add mem addr 4 4, fromLe, List.map_append, Nat.ofDigits_append]
    simp [load, fromLe]
  rw [load64, load32, load32, UInt64.toNat_ofNat_of_lt', UInt32.toNat_ofNat_of_lt',
    UInt32.toNat_ofNat_of_lt', hsplit]
  · exact hhigh
  · exact hlow
  · show mem.load addr 8 < 2 ^ 64
    omega

/-- Memory after `n` words of 32 bits are written from `addr` on, all the same. -/
def fill32 (mem : Memory) (addr : ℕ) (word : UInt32) : ℕ → Memory
  | 0 => mem
  | n + 1 => (mem.store32 addr word).fill32 (addr + 4) word n

theorem fill32_apply_of_notMem {a n : ℕ} {word : UInt32} (ha : a ∉ Set.Ico addr (addr + 4 * n)) :
    mem.fill32 addr word n a = mem a := by
  induction n generalizing mem addr with
  | zero => rfl
  | succ n ih =>
    rw [Set.mem_Ico] at ha
    have hfirst : a ∉ Set.Ico addr (addr + 4) := by
      rw [Set.mem_Ico]
      omega
    have hrest : a ∉ Set.Ico (addr + 4) (addr + 4 + 4 * n) := by
      rw [Set.mem_Ico]
      omega
    exact (ih hrest).trans (store32_apply_of_notMem hfirst)

theorem fill32_zero_apply {a n : ℕ} (ha : a ∈ Set.Ico addr (addr + 4 * n)) :
    mem.fill32 addr 0 n a = 0 := by
  induction n generalizing mem addr with
  | zero =>
    rw [Set.mem_Ico] at ha
    omega
  | succ n ih =>
    rw [Set.mem_Ico] at ha
    by_cases hfirst : a < addr + 4
    · have hrest : a ∉ Set.Ico (addr + 4) (addr + 4 + 4 * n) := by
        rw [Set.mem_Ico]
        omega
      have hin : addr ≤ a ∧ a < addr + (toLe 4 (0 : UInt32).toNat).length :=
        ⟨ha.1, by rwa [length_toLe]⟩
      have hzero : ∀ i < 4, (toLe 4 (0 : UInt32).toNat).getD i 0 = 0 := by decide
      refine (fill32_apply_of_notMem hrest).trans ((if_pos hin).trans ?_)
      exact hzero _ (by omega)
    · exact ih (Set.mem_Ico.mpr (by omega))

/-! ## Lists of words -/

/-- Memory after `words` are written from `addr` on. -/
def storeWords (mem : Memory) (addr : ℕ) : List UInt64 → Memory
  | [] => mem
  | word :: words => (mem.store64 addr word).storeWords (addr + 8) words

theorem storeWords_apply_of_notMem {words : List UInt64} {a : ℕ}
    (ha : a ∉ Set.Ico addr (addr + 8 * words.length)) : mem.storeWords addr words a = mem a := by
  induction words generalizing mem addr with
  | nil => rfl
  | cons word words ih =>
    rw [List.length_cons, Set.mem_Ico] at ha
    have hfirst : a ∉ Set.Ico addr (addr + 8) := by
      rw [Set.mem_Ico]
      omega
    have hrest : a ∉ Set.Ico (addr + 8) (addr + 8 + 8 * words.length) := by
      rw [Set.mem_Ico]
      omega
    exact (ih hrest).trans (store64_apply_of_notMem hfirst)

/-- The `n` words from `addr` on. -/
def loadWords (mem : Memory) (addr : ℕ) : ℕ → List UInt64
  | 0 => []
  | n + 1 => mem.load64 addr :: mem.loadWords (addr + 8) n

theorem loadWords_getElem? {n i : ℕ} (hi : i < n) :
    (mem.loadWords addr n)[i]? = some (mem.load64 (addr + 8 * i)) := by
  induction n generalizing addr i with
  | zero => omega
  | succ n ih =>
    cases i with
    | zero => rfl
    | succ i =>
      rw [loadWords, List.getElem?_cons_succ, ih (by omega),
        show addr + 8 * (i + 1) = addr + 8 + 8 * i by omega]

theorem load64_of_loadWords {n i : ℕ} {words : List UInt64} (hwords : mem.loadWords addr n = words)
    (hi : i < n) (hword : words[i]? = some word) : mem.load64 (addr + 8 * i) = word := by
  rw [← hwords, loadWords_getElem? hi] at hword
  exact Option.some.inj hword

theorem loadWords_congr {mem' : Memory} {n : ℕ}
    (hsame : ∀ a ∈ Set.Ico addr (addr + 8 * n), mem' a = mem a) :
    mem'.loadWords addr n = mem.loadWords addr n := by
  induction n generalizing addr with
  | zero => rfl
  | succ n ih =>
    refine congrArg₂ List.cons (load64_congr fun a ha => hsame a ?_) (ih fun a ha => hsame a ?_)
    all_goals
      rw [Set.mem_Ico] at ha ⊢
      omega

theorem loadWords_storeWords (mem : Memory) (addr : ℕ) (words : List UInt64) :
    (mem.storeWords addr words).loadWords addr words.length = words := by
  induction words generalizing mem addr with
  | nil => rfl
  | cons word words ih =>
    have hrest : ∀ a ∈ Set.Ico addr (addr + 8),
        (mem.store64 addr word).storeWords (addr + 8) words a = mem.store64 addr word a := by
      intro a ha
      refine storeWords_apply_of_notMem ?_
      rw [Set.mem_Ico] at ha ⊢
      omega
    exact congrArg₂ List.cons ((load64_congr hrest).trans load64_store64_self) (ih ..)

end Memory

end Hyperion.Lib
