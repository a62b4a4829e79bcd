import Hyperion.Hal.DtbPlaces

/-!
# With which cell counts a `reg` is read

An entry of a `reg` is an address of `#address-cells` cells and a size of `#size-cells` cells, where
the counts are those of the parent.  A parent that does not give a count has the standard one, 2 and
1, whatever the nodes above it give, and a count may be zero.

The walk reads the first entry with other counts: a parent that does not give a count has that of
the nearest node above it that gives one, and zero is taken for one.  The two readings of an entry
are the same exactly if the two pairs of counts are, or if the cells that they divide differently
are zero (`nodeCalls_reg_iff`).
-/

namespace Hyperion.Hal.Dtb

open Hyperion.Lib

/-! ## Entries -/

/-- How many cells an address and a size have. -/
structure Cells where
  address : ℕ
  size : ℕ
  deriving DecidableEq, Repr

/-- A range of addresses. -/
structure Range where
  base : ℕ
  size : ℕ
  deriving DecidableEq, Repr

/-- The cells of a value from `i` up to `j`. -/
def cellsOf (value : List UInt8) (i j : ℕ) : List UInt8 := bytesAt value (4 * i) (4 * (j - i))

/-- The cells from `i` up to `j` are zero. -/
def Zeros (value : List UInt8) (i j : ℕ) : Prop := ∀ byte ∈ cellsOf value i j, byte = 0

namespace Cells

/-- The number of cells of an entry. -/
def width (cells : Cells) : ℕ := cells.address + cells.size

/-- The value does not have a whole entry. -/
def NoEntry (cells : Cells) (value : List UInt8) : Prop :=
  cells.width = 0 ∨ value.length < 4 * cells.width

instance (cells : Cells) (value : List UInt8) : Decidable (cells.NoEntry value) :=
  inferInstanceAs (Decidable (_ ∨ _))

/-- All entries of a `reg`. -/
def entries (cells : Cells) (value : List UInt8) : List Range :=
  (List.range (value.length / (4 * cells.width))).map fun i =>
    ⟨fromBe (cellsOf value (i * cells.width) (i * cells.width + cells.address)),
      fromBe (cellsOf value (i * cells.width + cells.address) ((i + 1) * cells.width))⟩

/-- The first entry of a `reg`.  A size of no cells is zero. -/
def firstEntry (cells : Cells) (value : List UInt8) : Option (UInt64 × UInt64) :=
  if cells.NoEntry value then none
  else some (UInt64.ofNat (fromBe (cellsOf value 0 cells.address)),
    UInt64.ofNat (fromBe (cellsOf value cells.address cells.width)))

/-- What the walk makes of a `reg`.  A number of more than two cells is zero. -/
def read (cells : Cells) (value : List UInt8) : Option (UInt64 × UInt64) :=
  if value.length < 4 * cells.width then none
  else some (cellsAt value 0 cells.address, cellsAt value (4 * cells.address) cells.size)

/-- No count is more than two, so that numbers have 64 bits. -/
structure Small (cells : Cells) : Prop where
  address_le : cells.address ≤ 2
  size_le : cells.size ≤ 2

/-- Two pairs of counts read the same in a value: either no entry, or entries that differ only
in where zeros belong. -/
def Agree (first second : Cells) (value : List UInt8) : Prop :=
  first.NoEntry value ∧ second.NoEntry value ∨
    ¬first.NoEntry value ∧ ¬second.NoEntry value ∧
      (first.address = second.address ∨ Zeros value 0 (max first.address second.address)) ∧
      (first.width = second.width ∨
        Zeros value (max first.address second.address) (max first.width second.width))

end Cells

/-! ## Numbers of cells -/

section Numbers

variable {value : List UInt8} {i j k m : ℕ}

theorem cellsOf_append (hij : i ≤ j) (hjk : j ≤ k) :
    cellsOf value i j ++ cellsOf value j k = cellsOf value i k := by
  have hsum : 4 * (k - i) = 4 * (j - i) + 4 * (k - j) := by omega
  have hstart : 4 * i + 4 * (j - i) = 4 * j := by omega
  rw [cellsOf, cellsOf, cellsOf, hsum, bytesAt_add, hstart]

theorem cellsOf_of_le (hle : j ≤ i) : cellsOf value i j = [] := by
  rw [cellsOf, Nat.sub_eq_zero_of_le hle]
  exact List.take_zero

theorem length_cellsOf (hle : 4 * j ≤ value.length) : (cellsOf value i j).length = 4 * (j - i) := by
  rcases Nat.le_total i j with hij | hji
  · exact length_bytesAt (by omega)
  · rw [cellsOf_of_le hji, Nat.sub_eq_zero_of_le hji]
    rfl

theorem fromBe_cellsOf_lt (hle : j - i ≤ 2) : fromBe (cellsOf value i j) < 2 ^ 64 := by
  calc fromBe (cellsOf value i j)
      < 256 ^ (cellsOf value i j).length := fromBe_lt _
    _ ≤ 256 ^ 8 := by
        apply Nat.pow_le_pow_right (by norm_num)
        exact (length_bytesAt_le _ _ _).trans (by omega)
    _ = 2 ^ 64 := by norm_num

/-- Zeros in front do not count. -/
theorem fromBe_cellsOf_of_zeros (hzeros : Zeros value 0 m) (him : i ≤ m) :
    fromBe (cellsOf value i j) = fromBe (cellsOf value m j) := by
  have hfront : ∀ k ≤ m, fromBe (cellsOf value i k) = 0 := by
    intro k hk
    rw [fromBe_eq_zero]
    intro byte hbyte
    rcases Nat.le_total i k with hik | hki
    · apply hzeros
      rw [← cellsOf_append (Nat.zero_le i) him, ← cellsOf_append hik hk]
      exact List.mem_append_right _ (List.mem_append_left _ hbyte)
    · rw [cellsOf_of_le hki] at hbyte
      cases hbyte
  rcases Nat.le_total m j with hmj | hjm
  · rw [← cellsOf_append him hmj, fromBe_append, hfront m (le_refl m)]
    simp
  · rw [hfront j hjm, cellsOf_of_le hjm]
    rfl

/-- Two numbers that begin with the same cell. -/
theorem fromBe_cellsOf_eq_iff (hi : i ≤ max j k) (hj : 4 * j ≤ value.length)
    (hk : 4 * k ≤ value.length) :
    fromBe (cellsOf value i j) = fromBe (cellsOf value i k) ↔
      j = k ∨ Zeros value i (max j k) := by
  wlog hjk : j ≤ k generalizing j k with hsymm
  · rw [eq_comm, eq_comm (a := j), max_comm]
    exact hsymm (by rwa [max_comm]) hk hj (Nat.le_of_not_le hjk)
  rw [max_eq_right hjk] at hi ⊢
  rcases Nat.le_total i j with hij | hji
  · rw [Zeros, ← cellsOf_append hij hjk, eq_comm, fromBe_append_eq_left,
      ← List.length_eq_zero_iff, length_cellsOf hk]
    refine or_congr ?_ Iff.rfl
    omega
  · rw [cellsOf_of_le hji, Zeros, ← fromBe_eq_zero]
    rcases Nat.eq_or_lt_of_le hjk with rfl | hlt
    · rw [cellsOf_of_le hji]
      simp
    · have hnil : fromBe [] = 0 := rfl
      rw [hnil, eq_comm]
      simp [hlt.ne]

end Numbers

/-! ## Two readings of an entry -/

namespace Cells

variable {first second : Cells} {value : List UInt8}

theorem ofNat_cellsOf_inj {i j k l : ℕ} (hij : j - i ≤ 2) (hkl : l - k ≤ 2) :
    UInt64.ofNat (fromBe (cellsOf value i j)) = UInt64.ofNat (fromBe (cellsOf value k l)) ↔
      fromBe (cellsOf value i j) = fromBe (cellsOf value k l) := by
  rw [← UInt64.toNat_inj, UInt64.toNat_ofNat_of_lt' (fromBe_cellsOf_lt hij),
    UInt64.toNat_ofNat_of_lt' (fromBe_cellsOf_lt hkl)]

/-- The sizes, if the addresses are the same. -/
theorem sizes_eq_iff (hfirst : 4 * first.width ≤ value.length)
    (hsecond : 4 * second.width ≤ value.length)
    (haddress : first.address = second.address ∨
      Zeros value 0 (max first.address second.address)) :
    fromBe (cellsOf value first.address first.width) =
        fromBe (cellsOf value second.address second.width) ↔
      first.width = second.width ∨
        Zeros value (max first.address second.address) (max first.width second.width) := by
  have hmax : max first.address second.address ≤ max first.width second.width :=
    max_le_max (Nat.le_add_right _ _) (Nat.le_add_right _ _)
  rw [← fromBe_cellsOf_eq_iff hmax hfirst hsecond]
  rcases haddress with hsame | hzeros
  · rw [hsame, max_self]
  · rw [fromBe_cellsOf_of_zeros hzeros (le_max_left _ _),
      fromBe_cellsOf_of_zeros hzeros (le_max_right _ _)]

theorem firstEntry_eq_iff (hfirst : first.Small) (hsecond : second.Small) :
    first.firstEntry value = second.firstEntry value ↔ first.Agree second value := by
  unfold firstEntry Agree
  by_cases hnone : first.NoEntry value
  · by_cases hnone' : second.NoEntry value
    · simp [hnone, hnone']
    · simp [hnone, hnone']
  · by_cases hnone' : second.NoEntry value
    · simp [hnone, hnone']
    · rw [if_neg hnone, if_neg hnone', Option.some.injEq, Prod.mk.injEq]
      have hwidth : first.width = first.address + first.size := rfl
      have hwidth' : second.width = second.address + second.size := rfl
      obtain ⟨ha, hs⟩ := hfirst
      obtain ⟨ha', hs'⟩ := hsecond
      have hin : 4 * first.width ≤ value.length := by
        unfold NoEntry at hnone
        omega
      have hin' : 4 * second.width ≤ value.length := by
        unfold NoEntry at hnone'
        omega
      rw [ofNat_cellsOf_inj (by omega) (by omega), ofNat_cellsOf_inj (by omega) (by omega),
        fromBe_cellsOf_eq_iff (Nat.zero_le _) (by omega) (by omega)]
      simp only [hnone, hnone', false_and, false_or, not_false_eq_true, true_and]
      exact and_congr_right fun haddress => sizes_eq_iff hin hin' haddress

end Cells

/-! ## The entry that a place has -/

namespace Place

/-- The counts for the `reg` of a node: those of its parent. -/
def declared (place : Place) : Cells where
  address := ((place.ancestors.head?.bind (countOf "#address-cells")).getD 2).toNat
  size := ((place.ancestors.head?.bind (countOf "#size-cells")).getD 1).toNat

/-- The counts of the nearest nodes above, at least one. -/
def inherited (place : Place) : Cells where
  address := max (nearest "#address-cells" 2 place.ancestors).toNat 1
  size := max (nearest "#size-cells" 1 place.ancestors).toNat 1

/-- The entries of a node as the specification has them. -/
def entries (place : Place) : List Range :=
  (valuesOf "reg" place.props).flatMap place.declared.entries

/-- What the walk reads of the node: a later `reg` replaces an earlier one. -/
def read? (place : Place) : Option (UInt64 × UInt64) :=
  ((valuesOf "reg" place.props).filterMap place.inherited.read).getLast?

/-- The `reg` of a node. -/
def reg? (place : Place) : Option (List UInt8) := (valuesOf "reg" place.props).getLast?

/-- The first entry of the `reg` as the specification has it. -/
def firstEntry? (place : Place) : Option (UInt64 × UInt64) :=
  place.reg?.bind place.declared.firstEntry

/-- A node has one `reg` at most. -/
def OneReg (place : Place) : Prop := (valuesOf "reg" place.props).length ≤ 1

/-- No node above gives a count of more than two. -/
def SmallCounts (place : Place) : Prop :=
  ∀ props ∈ place.ancestors,
    (countOf "#address-cells" props).getD 0 ≤ 2 ∧ (countOf "#size-cells" props).getD 0 ≤ 2

instance (place : Place) : Decidable place.OneReg := inferInstanceAs (Decidable (_ ≤ _))

instance (place : Place) : Decidable place.SmallCounts :=
  inferInstanceAs (Decidable (∀ props ∈ place.ancestors, _ ∧ _))

/-- The counts of the parent and those of the nearest nodes read the same. -/
def Agrees (place : Place) : Prop :=
  ∀ value ∈ place.reg?, place.declared.Agree place.inherited value

end Place

section Counts

variable {ancestors : List (List (String × List UInt8))} {pname : String} {standard : UInt32}

theorem nearest_le (hstandard : standard ≤ 2)
    (hsmall : ∀ props ∈ ancestors, (countOf pname props).getD 0 ≤ 2) :
    nearest pname standard ancestors ≤ 2 := by
  induction ancestors with
  | nil => exact hstandard
  | cons props ancestors ih =>
    rw [List.forall_mem_cons] at hsmall
    rw [nearest_cons]
    cases hcount : countOf pname props with
    | none => exact ih hsmall.2
    | some count =>
      rw [hcount] at hsmall
      exact hsmall.1

theorem head_le (hstandard : standard ≤ 2)
    (hsmall : ∀ props ∈ ancestors, (countOf pname props).getD 0 ≤ 2) :
    (ancestors.head?.bind (countOf pname)).getD standard ≤ 2 := by
  -- the parent is the nearest of the first node above alone
  have hparent : (ancestors.head?.bind (countOf pname)).getD standard =
      nearest pname standard (ancestors.take 1) := by
    cases ancestors with
    | nil => rfl
    | cons props ancestors =>
      rw [List.take_succ_cons, nearest_cons]
      rfl
  rw [hparent]
  exact nearest_le hstandard fun props hprops => hsmall props (List.mem_of_mem_take hprops)

variable {place : Place}

theorem Place.SmallCounts.declared (hsmall : place.SmallCounts) : place.declared.Small where
  address_le := UInt32.le_iff_toNat_le.mp
    (head_le (by decide) fun props hprops => (hsmall props hprops).1)
  size_le := UInt32.le_iff_toNat_le.mp
    (head_le (by decide) fun props hprops => (hsmall props hprops).2)

theorem Place.SmallCounts.inherited (hsmall : place.SmallCounts) : place.inherited.Small where
  address_le := max_le
    (UInt32.le_iff_toNat_le.mp (nearest_le (by decide) fun props hprops => (hsmall props hprops).1))
    (by decide)
  size_le := max_le
    (UInt32.le_iff_toNat_le.mp (nearest_le (by decide) fun props hprops => (hsmall props hprops).2))
    (by decide)

end Counts

/-! ## The entry that the walk reads -/

theorem cellsAt_eq {value : List UInt8} {i n : ℕ} (hn : n = 1 ∨ n = 2)
    (hin : 4 * (i + n) ≤ value.length) :
    cellsAt value (4 * i) n = UInt64.ofNat (fromBe (cellsOf value i (i + n))) := by
  rw [cellsOf, Nat.add_sub_cancel_left]
  rcases hn with rfl | rfl
  · rw [cellsAt, if_pos rfl, word32, wordAt, if_pos (by omega)]
    have hlt : fromBe (bytesAt value (4 * i) 4) < 2 ^ 32 := by
      have := fromBe_lt (bytesAt value (4 * i) 4)
      rwa [length_bytesAt (by omega)] at this
    rw [Option.map_some, Option.getD_some, ← UInt64.toNat_inj, UInt32.toNat_toUInt64,
      UInt32.toNat_ofNat_of_lt' hlt, UInt64.toNat_ofNat_of_lt' (hlt.trans (by norm_num))]
  · rw [cellsAt, if_neg (by decide), if_pos rfl, word64, wordAt, if_pos (by omega)]
    rfl

theorem Cells.read_eq_firstEntry {cells : Cells} (hsmall : cells.Small)
    (haddress : 1 ≤ cells.address) (hsize : 1 ≤ cells.size) (value : List UInt8) :
    cells.read value = cells.firstEntry value := by
  have hwidth : cells.width = cells.address + cells.size := rfl
  obtain ⟨ha, hs⟩ := hsmall
  have hshort : value.length < 4 * cells.width ↔ cells.NoEntry value := by
    unfold NoEntry
    omega
  rw [read, firstEntry]
  by_cases hnone : cells.NoEntry value
  · rw [if_pos (hshort.mpr hnone), if_pos hnone]
  · have hlong := mt hshort.mp hnone
    have hfirst : cellsAt value 0 cells.address = _ :=
      cellsAt_eq (i := 0) (n := cells.address) (by omega) (by omega)
    rw [if_neg hlong, if_neg hnone, hfirst, cellsAt_eq (by omega) (by omega), Nat.zero_add]
    rfl

theorem reg_withProp {parent frame : Frame} {p : String × List UInt8} (hname : p.1 ≠ "reg") :
    (frame.withProp parent p.1 p.2).reg = frame.reg :=
  Frame.withProp_rule (P := fun next => next.reg = frame.reg) rfl (fun _ _ => rfl)
    (fun _ _ => rfl) (fun _ _ => rfl) (fun h => absurd h hname) (fun _ _ => rfl) (fun _ _ => rfl)
    parent p.2

/-- The walk reads a `reg` with the counts it has for the parent, at least one. -/
theorem withReg_reg {frame parent : Frame} {cells : Cells}
    (haddress : cells.address = max parent.addressCells.toNat 1)
    (hsize : cells.size = max parent.sizeCells.toNat 1) (value : List UInt8) :
    (frame.withReg parent value).reg = (cells.read value).or frame.reg := by
  have hwidth : 4 * cells.width = (cells.address + cells.size) * 4 := Nat.mul_comm _ _
  rw [Cells.read, hwidth, Nat.mul_comm 4]
  simp only [Frame.withReg, ← haddress, ← hsize]
  by_cases hshort : value.length < (cells.address + cells.size) * 4
  · rw [if_pos hshort, if_pos hshort, Option.none_or]
  · rw [if_neg hshort, if_neg hshort]
    rfl

/-- The walk reads the `reg` of a node with the counts of the nearest nodes. -/
theorem NodeCall.IsFor.reg_eq {call : NodeCall} {place : Place} (hfor : call.IsFor place) :
    call.reg = place.read? := by
  obtain ⟨parent, stdoutPath, inChosen, hparent, rfl⟩ := hfor
  have haddress : place.inherited.address = max parent.addressCells.toNat 1 := by
    rw [hparent.address_eq]
    rfl
  have hsize : place.inherited.size = max parent.sizeCells.toNat 1 := by
    rw [hparent.size_eq]
    rfl
  have hset : ∀ (frame : Frame) (p : String × List UInt8),
      (frame.withProp parent p.1 p.2).reg =
        (if p.1 = "reg" then (place.inherited.read p.2).map some else none).getD frame.reg := by
    intro frame p
    by_cases hname : p.1 = "reg"
    · have hwith : frame.withProp parent p.1 p.2 = frame.withReg parent p.2 := by
        rw [Frame.withProp, hname]
        rfl
      rw [hwith, withReg_reg haddress hsize, if_pos hname]
      cases place.inherited.read p.2 with
      | none => rfl
      | some entry => rfl
    · rw [reg_withProp hname, if_neg hname]
      rfl
  have hlast := field_ownFrame Frame.reg (f := fun value => (place.inherited.read value).map some)
    hset place.name place.props
  refine hlast.trans ?_
  rw [← List.map_filterMap, List.getLast?_map, Place.read?]
  cases List.getLast? _ with
  | none => rfl
  | some entry => rfl

theorem Place.read_eq {place : Place} (hsmall : place.SmallCounts) (hone : place.OneReg) :
    place.read? = place.reg?.bind place.inherited.firstEntry := by
  have hread : ∀ value, place.inherited.read value = place.inherited.firstEntry value :=
    Cells.read_eq_firstEntry hsmall.inherited (le_max_right _ _) (le_max_right _ _)
  rw [Place.OneReg] at hone
  rw [Place.read?, Place.reg?]
  cases hvalues : valuesOf "reg" place.props with
  | nil => rfl
  | cons value values =>
    obtain rfl : values = [] := by simpa [hvalues] using hone
    rw [List.getLast?_singleton, Option.bind_some, List.filterMap_cons, List.filterMap_nil, hread]
    cases place.inherited.firstEntry value with
    | none => rfl
    | some entry => rfl

theorem Place.agrees_iff {place : Place} (hsmall : place.SmallCounts) :
    place.reg?.bind place.inherited.firstEntry = place.firstEntry? ↔ place.Agrees := by
  rw [Place.firstEntry?, Place.Agrees]
  cases place.reg? with
  | none => simp
  | some value =>
    rw [Option.bind_some, Option.bind_some, eq_comm,
      Cells.firstEntry_eq_iff hsmall.declared hsmall.inherited]
    simp

/-- **The register range of each node.**  It is the first entry of the node's `reg` exactly if the
counts of the nearest nodes above, at least one, read there what those of the parent read. -/
theorem nodeCalls_reg_iff {dtbAddr : UInt64} {memory : List UInt8} {root : Node}
    (haddr : dtbAddr ≠ 0) (htree : HoldsTree memory root) :
    List.Forall₂ (fun call place => call.name = place.name ∧
        (place.SmallCounts → place.OneReg → (call.reg = place.firstEntry? ↔ place.Agrees)))
      (nodeCalls dtbAddr memory) root.places := by
  refine (forall₂_nodeCalls_places haddr htree).imp fun call place hfor => ⟨hfor.name_eq, ?_⟩
  intro hsmall hone
  rw [hfor.reg_eq, Place.read_eq hsmall hone]
  exact Place.agrees_iff hsmall

/-- A bus below the root, with one device. -/
def busTree (rootProps busProps : List (String × List UInt8)) (reg : List UInt8) : Node :=
  .mk "" rootProps [.mk "soc" busProps [.mk "pl011@9000000" [("reg", reg)] []]]

/-- The counts of the bus are those of the root. -/
def plainBus : Node :=
  busTree [] [] [0, 0, 0, 0, 9, 0, 0, 0, 0, 0, 0x10, 0]

/-- The bus has the standard counts, and the root has other ones. -/
def narrowRoot : Node :=
  busTree [("#address-cells", [0, 0, 0, 1])] [] [0, 0, 0, 0, 9, 0, 0, 0, 0, 0, 0x10, 0]

theorem nodeCalls_reg_iff_plainBus :
    List.Forall₂ (fun call place => call.name = place.name ∧
        (place.SmallCounts → place.OneReg → (call.reg = place.firstEntry? ↔ place.Agrees)))
      (nodeCalls 0x48000000 plainBus.blob) plainBus.places :=
  nodeCalls_reg_iff (by decide) (holdsTree_blob plainBus (by decide +kernel))

/-- The address becomes the size. -/
theorem counts_inherited :
    (∀ place ∈ narrowRoot.places, place.SmallCounts ∧ place.OneReg) ∧
      narrowRoot.places.map Place.firstEntry? = [some (0x09000000, 0x1000), none, none] ∧
      (nodeCalls 0x48000000 narrowRoot.blob).map NodeCall.reg =
        [some (0, 0x09000000), none, none] := by
  refine ⟨by decide +kernel, by decide +kernel, ?_⟩
  rw [nodeCalls_of_tree (by decide) (holdsTree_blob narrowRoot (by decide +kernel))]
  decide +kernel

end Hyperion.Hal.Dtb
