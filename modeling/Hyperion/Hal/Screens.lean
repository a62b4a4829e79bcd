import Hyperion.Hal.DtbCalls
import Hyperion.Hal.MultibootReads

/-!
# Which framebuffer the parsers publish

Both parsers take the last framebuffer they come across.  For the device tree that is
the last node that `act_on_node` takes for a framebuffer and that has a `reg`; its
width, height and stride are the node's properties, and a stride of zero stands for
rows without a gap.  For Multiboot2 it is the last tag for direct RGB with 32 bits per
pixel that the loop reaches, and its fields are taken as they are.

Neither parser compares the stride with the width.
-/

namespace Hyperion.Hal

open Hyperion.Lib

/-- A row of pixels of four bytes is not longer than the distance from row to row. -/
def FramebufferInfo.RowsFit (fb : FramebufferInfo) : Prop :=
  4 * fb.width.toNat ≤ fb.strideBytes.toNat

instance (fb : FramebufferInfo) : Decidable fb.RowsFit := inferInstanceAs (Decidable (_ ≤ _))

/-- The last of a list of optional values that is there. -/
theorem getLast?_filterMap_concat {α β : Type} (f : α → Option β) (list : List α) (a : α) :
    ((list ++ [a]).filterMap f).getLast? = (f a).or (list.filterMap f).getLast? := by
  cases ha : f a with
  | none => simp [ha]
  | some b => simp [ha]

/-! ## The device tree -/

namespace Dtb

/-- The node is one that `act_on_node` takes for a framebuffer. -/
def NodeCall.IsFramebuffer (call : NodeCall) : Prop :=
  startsWith call.name "memory" = false ∧
    compatibleMatches call.compatible ["arm,gic-v3"] = false ∧
    compatibleMatches call.compatible
      ["arm,gic-400", "arm,cortex-a15-gic", "arm,cortex-a9-gic", "arm,gic"] = false ∧
    ¬(compatibleMatches call.compatible ["arm,armv8-timer", "arm,armv7-timer"] = true ∧
      call.clockHz ≠ 0) ∧
    uartKindFor call.compatible = none ∧
    (call.compatible = "simple-framebuffer" ∨
      call.inChosen = true ∧ startsWith call.name "framebuffer" = true)

instance (call : NodeCall) : Decidable call.IsFramebuffer :=
  inferInstanceAs (Decidable (_ ∧ _ ∧ _ ∧ _ ∧ _ ∧ _))

/-- The framebuffer that a node describes, with the stride that the node gives. -/
def NodeCall.screen? (call : NodeCall) : Option FramebufferInfo :=
  if call.IsFramebuffer then do
    let fb ← call.fb
    let reg ← call.reg
    some { fb with base := reg.1 }
  else none

/-- A stride of zero is filled in from the width. -/
def fillStride (fb : FramebufferInfo) : FramebufferInfo :=
  { fb with
    strideBytes :=
      if fb.strideBytes = 0 ∧ fb.bpp ≠ 0 ∧ fb.width ≠ 0 then saturatingMul fb.width (fb.bpp / 8)
      else fb.strideBytes }

section Nodes

variable {info : BootInfo} {call : NodeCall}

/-- A node of another kind leaves the framebuffer alone. -/
theorem framebuffer_of_not (hother : ¬call.IsFramebuffer) :
    (actOnNode info call).framebuffer = info.framebuffer := by
  obtain ⟨name, compatible, reg, clockHz, fb, stdoutPath, inChosen⟩ := call
  delta actOnNode
  dsimp only
  split
  case isTrue => cases reg <;> rfl
  case isFalse hname =>
  split
  case isTrue => cases reg <;> rfl
  case isFalse hgic3 =>
  split
  case isTrue => cases reg <;> rfl
  case isFalse hgic2 =>
  split
  case isTrue => rfl
  case isFalse htimer =>
  cases huart : uartKindFor compatible with
  | some kind =>
    dsimp only
    repeat' split
    all_goals rfl
  | none =>
    have hscreen : ¬(compatible = "simple-framebuffer" ∨
        inChosen = true ∧ startsWith name "framebuffer" = true) := fun hscreen =>
      hother ⟨by simpa using hname, by simpa using hgic3, by simpa using hgic2, htimer, huart,
        hscreen⟩
    simp only [if_neg hscreen]

/-- A framebuffer node publishes what it describes, with its stride filled in. -/
theorem framebuffer_of_isFramebuffer (hscreen : call.IsFramebuffer) :
    (actOnNode info call).framebuffer = (call.screen?.map fillStride).or info.framebuffer := by
  rw [NodeCall.screen?, if_pos hscreen]
  obtain ⟨name, compatible, reg, clockHz, fb, stdoutPath, inChosen⟩ := call
  obtain ⟨hname, hgic3, hgic2, htimer, huart, hscreen⟩ := hscreen
  delta actOnNode
  dsimp only at hname hgic3 hgic2 htimer huart hscreen ⊢
  rw [if_neg (by simp [hname]), if_neg (by simp [hgic3]), if_neg (by simp [hgic2]), if_neg htimer,
    huart]
  simp only [if_pos hscreen]
  cases fb with
  | none => rfl
  | some fb =>
    cases reg with
    | none => rfl
    | some reg => rfl

theorem framebuffer_actOnNode (info : BootInfo) (call : NodeCall) :
    (actOnNode info call).framebuffer = (call.screen?.map fillStride).or info.framebuffer := by
  by_cases hscreen : call.IsFramebuffer
  · exact framebuffer_of_isFramebuffer hscreen
  · rw [framebuffer_of_not hscreen, NodeCall.screen?, if_neg hscreen]
    rfl

end Nodes

/-- The last of the framebuffers that the nodes describe is published. -/
theorem framebuffer_foldl (calls : List NodeCall) (info : BootInfo) :
    (calls.foldl actOnNode info).framebuffer =
      ((calls.filterMap NodeCall.screen?).getLast?.map fillStride).or info.framebuffer := by
  induction calls using List.reverseRecOn with
  | nil => rfl
  | append_singleton calls call ih =>
    rw [List.foldl_append, List.foldl_cons, List.foldl_nil, framebuffer_actOnNode, ih,
      getLast?_filterMap_concat]
    cases call.screen? with
    | none => rfl
    | some fb => rfl

/-- The framebuffer that the blob at the start of `memory` describes last, with the
stride that its node gives. -/
def screenAt (dtbAddr : UInt64) (memory : List UInt8) : Option FramebufferInfo :=
  ((nodeCalls dtbAddr memory).filterMap NodeCall.screen?).getLast?

theorem framebuffer_of_parse {dtbAddr : UInt64} {memory : List UInt8} {info : BootInfo}
    (hparse : parseOrFallback dtbAddr memory = .ok info) :
    info.framebuffer = (screenAt dtbAddr memory).map fillStride := by
  rw [parseOrFallback_eq_foldl hparse, framebuffer_foldl, screenAt]
  exact Option.or_none

/-! ### The number of bits per pixel -/

/-- A node always describes pixels of 32 bits. -/
def Frame.Bpp32 (frame : Frame) : Prop := ∀ fb, frame.fb = some fb → fb.bpp = 32

theorem Frame.Bpp32.withFb {frame : Frame} (hframe : frame.Bpp32)
    {f : FramebufferInfo → FramebufferInfo} (hf : ∀ fb, fb.bpp = 32 → (f fb).bpp = 32) :
    (frame.withFb f).Bpp32 := by
  intro fb hfb
  cases hfb
  cases hold : frame.fb with
  | none => exact hf blankFb rfl
  | some fb => exact hf fb (hframe fb hold)

theorem Frame.Bpp32.withProp {frame : Frame} (hframe : frame.Bpp32) (parent : Frame)
    (name : String) (value : List UInt8) : (frame.withProp parent name value).Bpp32 :=
  Frame.withProp_rule hframe (fun _ _ => hframe) (fun _ _ => hframe) (fun _ _ => hframe)
    (fun _ _ => hframe) (fun _ _ => hframe) (fun _ hf => hframe.withFb hf) parent value

theorem bpp_of_screenAt {dtbAddr : UInt64} {memory : List UInt8} {fb : FramebufferInfo}
    (hscreen : screenAt dtbAddr memory = some fb) : fb.bpp = 32 := by
  obtain ⟨call, hcall, hfb⟩ := List.mem_filterMap.mp (List.mem_of_getLast? hscreen)
  have hchild : ∀ (parent : Frame) name, (parent.child name).Bpp32 := by
    intro parent name fb hnone
    cases hnone
  have hblank : Frame.Bpp32 {} := by
    intro fb hnone
    cases hnone
  have habove : Frame.Bpp32 aboveRoot := by
    intro fb hnone
    cases hnone
  obtain ⟨frame, _, _, hframe, rfl⟩ := forall_nodeCalls hchild
    (fun _ parent name value h => Frame.Bpp32.withProp h parent name value) hblank habove call hcall
  unfold NodeCall.screen? at hfb
  split at hfb
  case isFalse => cases hfb
  case isTrue =>
    simp only [Option.bind_eq_bind, Option.bind_eq_some_iff] at hfb
    obtain ⟨own, hown, _, _, heq⟩ := hfb
    cases heq
    exact hframe own hown

/-! ### Strides -/

/-- The stride of the last framebuffer of the blob is not shorter than its row: the node
has one that is not, or has none, and the length of the row is a number of 32 bits. -/
def RowsFit (dtbAddr : UInt64) (memory : List UInt8) : Prop :=
  ∀ fb, screenAt dtbAddr memory = some fb →
    fb.RowsFit ∨ fb.strideBytes = 0 ∧ 4 * fb.width.toNat < 2 ^ 32

theorem rowsFit_fillStride {fb : FramebufferInfo} (hbpp : fb.bpp = 32) :
    (fillStride fb).RowsFit ↔ fb.RowsFit ∨ fb.strideBytes = 0 ∧ 4 * fb.width.toNat < 2 ^ 32 := by
  have hbytes : ((32 : UInt32) / 8).toNat = 4 := by decide
  by_cases hzero : fb.strideBytes = 0 ∧ fb.width ≠ 0
  case neg =>
    have hsame : fillStride fb = fb := by
      rw [fillStride, if_neg fun h => hzero ⟨h.1, h.2.2⟩]
    rw [hsame]
    constructor
    · exact .inl
    · rintro (hfit | ⟨hstride, _⟩)
      · exact hfit
      · have hwidth : fb.width = 0 := not_not.mp fun hne => hzero ⟨hstride, hne⟩
        rw [FramebufferInfo.RowsFit, hwidth]
        exact Nat.zero_le _
  case pos =>
    have hpos : 0 < fb.width.toNat := by
      rw [Nat.pos_iff_ne_zero]
      exact fun h => hzero.2 (UInt32.toNat_inj.mp h)
    have hfill : (fillStride fb).strideBytes = saturatingMul fb.width 4 := by
      have hcond : fb.strideBytes = 0 ∧ fb.bpp ≠ 0 ∧ fb.width ≠ 0 :=
        ⟨hzero.1, by rw [hbpp]; decide, hzero.2⟩
      show (if _ then _ else _) = _
      rw [if_pos hcond, hbpp]
      rfl
    have hstride : (saturatingMul fb.width 4).toNat = min (fb.width.toNat * 4) (2 ^ 32 - 1) :=
      UInt32.toNat_ofNat_of_lt' (by show min _ _ < 2 ^ 32; omega)
    show 4 * fb.width.toNat ≤ (fillStride fb).strideBytes.toNat ↔ _
    rw [hfill, hstride, FramebufferInfo.RowsFit, hzero.1]
    simp only [true_and]
    show _ ↔ 4 * fb.width.toNat ≤ 0 ∨ _
    omega

/-- **When the parser publishes rows that fit.** -/
theorem rowsFit_iff {dtbAddr : UInt64} {memory : List UInt8} {info : BootInfo}
    {fb : FramebufferInfo} (hparse : parseOrFallback dtbAddr memory = .ok info)
    (hfb : info.framebuffer = some fb) : fb.RowsFit ↔ RowsFit dtbAddr memory := by
  rw [framebuffer_of_parse hparse, Option.map_eq_some_iff] at hfb
  obtain ⟨own, hown, rfl⟩ := hfb
  rw [rowsFit_fillStride (bpp_of_screenAt hown)]
  constructor
  · intro hfit other hother
    cases hown.symm.trans hother
    exact hfit
  · exact fun hfit => hfit own hown

end Dtb

/-! ## Multiboot2 -/

namespace Multiboot

variable {mem : Memory} {mbiPtr magic : UInt64}

/-- The framebuffer of a tag that the kernel can use. -/
def TagAt.screen? (mem : Memory) (tag : TagAt) : Option FramebufferInfo :=
  if tag.typ = tagFramebufferInfo ∧ fbTagSize ≤ tag.size.toNat ∧ IsRgb32 mem tag.cur then
    some (framebufferAt mem tag.cur)
  else none

theorem scanFramebuffer_eq_ok {cur : ℕ} {out : Option FramebufferInfo}
    (hok : (scanFramebuffer mem cur).result = .ok out) :
    out = if IsRgb32 mem cur then some (framebufferAt mem cur) else none := by
  by_cases hcur : cur + 32 < usizeBound
  · rw [scanFramebuffer_result hcur] at hok
    exact (Except.ok.inj hok).symm
  -- the colour descriptor has no address, so the scan did not get there
  rw [scanFramebuffer, Traced.result_bind_of_ok (readU8_result mem _)] at hok
  split at hok
  case isFalse htype =>
    cases hok
    rw [if_neg fun h => htype h.1]
  case isTrue =>
  rw [Traced.result_bind_of_ok (readU8_result mem _)] at hok
  split at hok
  case isFalse hbpp =>
    cases hok
    rw [if_neg fun h => hbpp h.2]
  case isTrue =>
    rw [Traced.result_bind, Traced.result_lift] at hok
    obtain ⟨rgb, hadd, _⟩ := bind_eq_ok.mp hok
    exact absurd (addUsize_eq_ok.mp hadd).1 hcur

section Tags

variable {cur : ℕ} {typ size : UInt32} {st next : State}

theorem framebuffer_of_typ
    (hok : (handleTag mem mbiPtr cur tagFramebufferInfo size st).result = .ok next) :
    next.info.framebuffer =
      (TagAt.screen? mem ⟨cur, tagFramebufferInfo, size⟩).or st.info.framebuffer := by
  rw [handleTag, if_neg (by decide), if_neg (by decide), if_pos rfl] at hok
  split at hok
  case isFalse hsize =>
    cases hok
    rw [TagAt.screen?, if_neg fun h => hsize h.2.1]
    rfl
  case isTrue hsize =>
    rw [Traced.result_bind] at hok
    obtain ⟨out, hscan, hok⟩ := bind_eq_ok.mp hok
    rw [scanFramebuffer_eq_ok hscan] at hok
    by_cases hrgb : IsRgb32 mem cur
    · rw [if_pos hrgb] at hok
      cases hok
      rw [TagAt.screen?, if_pos ⟨rfl, hsize, hrgb⟩]
      rfl
    · rw [if_neg hrgb] at hok
      cases hok
      rw [TagAt.screen?, if_neg fun h => hrgb h.2.2]
      rfl

theorem framebuffer_of_typ_ne (htyp : typ ≠ tagFramebufferInfo)
    (hok : (handleTag mem mbiPtr cur typ size st).result = .ok next) :
    next.info.framebuffer = st.info.framebuffer := by
  rw [handleTag, if_neg htyp] at hok
  split at hok
  case isTrue =>
    simp only [Traced.result_bind, bind_eq_ok] at hok
    obtain ⟨map, _, hok⟩ := hok
    split at hok <;> cases hok <;> rfl
  case isFalse =>
  split at hok
  case isTrue =>
    split at hok
    case isTrue => cases hok; rfl
    case isFalse =>
      simp only [Traced.result_bind, bind_eq_ok] at hok
      obtain ⟨map, _, hok⟩ := hok
      split at hok <;> cases hok <;> rfl
  case isFalse =>
  split at hok
  case isTrue =>
    simp only [Traced.result_bind, Traced.result_lift, bind_eq_ok] at hok
    obtain ⟨body, _, hok⟩ := hok
    cases hok
    rfl
  case isFalse =>
  split at hok
  case isTrue =>
    split at hok
    case isTrue =>
      simp only [Traced.result_bind, Traced.result_lift, bind_eq_ok] at hok
      obtain ⟨body, _, systab, _, hok⟩ := hok
      cases hok
      rfl
    case isFalse => cases hok; rfl
  case isFalse => cases hok; rfl

/-- A tag publishes its framebuffer, and no other tag changes it. -/
theorem framebuffer_handleTag
    (hok : (handleTag mem mbiPtr cur typ size st).result = .ok next) :
    next.info.framebuffer = (TagAt.screen? mem ⟨cur, typ, size⟩).or st.info.framebuffer := by
  by_cases htyp : typ = tagFramebufferInfo
  · subst htyp
    exact framebuffer_of_typ hok
  · rw [framebuffer_of_typ_ne htyp hok, TagAt.screen?, if_neg fun h => htyp h.1]
    rfl

end Tags

/-- A turn that leaves the loop found no further tag. -/
theorem tagTurn_leave {stop cur : ℕ} {st out : State} (fuel : ℕ)
    (hturn : (tagTurn mem mbiPtr stop (cur, st)).result = .ok (.leave out)) :
    out = st ∧ tagsFrom mem stop (fuel + 1) cur = [] := by
  simp only [tagTurn, Traced.result_bind, Traced.result_lift, bind_eq_ok, addUsize_eq_ok] at hturn
  obtain ⟨body, ⟨_, rfl⟩, hturn⟩ := hturn
  rw [tagsFrom]
  split at hturn
  case isFalse hcur =>
    cases hturn
    exact ⟨rfl, if_neg hcur⟩
  case isTrue hcur =>
  rw [if_pos hcur]
  rw [Traced.result_bind_of_ok (readU32_result mem _)] at hturn
  split at hturn
  case isTrue htyp =>
    cases hturn
    exact ⟨rfl, if_pos (.inl htyp)⟩
  case isFalse =>
  rw [Traced.result_bind_of_ok (readU32_result mem _)] at hturn
  split at hturn
  case isTrue hsize =>
    cases hturn
    exact ⟨rfl, if_pos (.inr hsize)⟩
  case isFalse =>
    simp only [Traced.result_bind, Traced.result_lift, bind_eq_ok] at hturn
    obtain ⟨_, _, _, _, hagain⟩ := hturn
    cases hagain

/-- A turn that goes round again handled the first of the tags. -/
theorem tagsFrom_again {stop cur cur' : ℕ} {st next : State} (fuel : ℕ)
    (hturn : (tagTurn mem mbiPtr stop (cur, st)).result = .ok (.again (cur', next))) :
    ∃ tag : TagAt, tagsFrom mem stop (fuel + 1) cur = tag :: tagsFrom mem stop fuel cur' ∧
      (handleTag mem mbiPtr tag.cur tag.typ tag.size st).result = .ok next := by
  obtain ⟨_, hcur, htyp, hsize, hhandle, _, rfl⟩ := tagTurn_again.mp hturn
  refine ⟨⟨cur, u32At mem cur, u32At mem (cur + 4)⟩, ?_, hhandle⟩
  rw [tagsFrom, if_pos hcur]
  dsimp only
  rw [if_neg (not_or.mpr ⟨htyp, hsize⟩)]

/-- The loop publishes the last framebuffer among the tags it reaches. -/
theorem framebuffer_tagLoop {stop : ℕ} (fuel : ℕ) :
    ∀ {cur : ℕ} {st out : State},
      (Traced.loop (tagTurn mem mbiPtr stop) fuel (cur, st)).result = .ok out →
      out.info.framebuffer =
        ((tagsFrom mem stop fuel cur).filterMap (TagAt.screen? mem)).getLast?.or
          st.info.framebuffer := by
  induction fuel with
  | zero =>
    intro cur st out hok
    cases hok
  | succ fuel ih =>
    intro cur st out hok
    rw [Traced.loop, Traced.result_bind] at hok
    obtain ⟨turn, hturn, hok⟩ := bind_eq_ok.mp hok
    cases turn with
    | leave result =>
      cases hok
      obtain ⟨rfl, htags⟩ := tagTurn_leave fuel hturn
      rw [htags]
      rfl
    | again state =>
      obtain ⟨cur', next⟩ := state
      obtain ⟨tag, htags, hhandle⟩ := tagsFrom_again fuel hturn
      rw [ih hok, framebuffer_handleTag hhandle, htags, List.filterMap_cons]
      cases TagAt.screen? mem tag with
      | none => rfl
      | some fb =>
        rw [Option.some_or, List.getLast?_cons]
        cases ((tagsFrom mem stop fuel cur').filterMap (TagAt.screen? mem)).getLast? with
        | none => rfl
        | some last => rfl

/-- The tags that the parser reaches in a block. -/
def tagsOf (mem : Memory) (mbiPtr magic : UInt64) : List TagAt :=
  let totalSize := u32At mem mbiPtr.toNat
  if magic = mb2Magic ∧ mbiPtr ≠ 0 ∧ 16 ≤ totalSize ∧ totalSize ≤ 16 * 1024 * 1024 then
    tagsFrom mem (saturatingAddUsize mbiPtr.toNat totalSize.toNat) totalSize.toNat
      (mbiPtr.toNat + 8)
  else []

/-- The framebuffer that the block describes last. -/
def screenAt (mem : Memory) (mbiPtr magic : UInt64) : Option FramebufferInfo :=
  ((tagsOf mem mbiPtr magic).filterMap (TagAt.screen? mem)).getLast?

theorem framebuffer_overrideConsole (info : BootInfo) :
    (overrideConsole info).framebuffer = info.framebuffer := by
  unfold overrideConsole
  split <;> rfl

theorem framebuffer_of_parse {info : BootInfo}
    (hparse : (parseOrFallback mem mbiPtr magic).result = .ok info) :
    info.framebuffer = screenAt mem mbiPtr magic := by
  unfold parseOrFallback at hparse
  unfold screenAt tagsOf
  split at hparse
  case isTrue hskip =>
    cases hparse
    rw [if_neg (by tauto)]
    rfl
  case isFalse hread =>
  rw [Traced.result_bind_of_ok (readU32_result mem _)] at hparse
  split at hparse
  case isFalse hrange =>
    cases hparse
    rw [if_neg (by tauto)]
    rfl
  case isTrue hrange =>
    simp only [Traced.result_bind, Traced.result_lift, bind_eq_ok, addUsize_eq_ok] at hparse
    obtain ⟨cur, ⟨_, rfl⟩, st, hloop, hparse⟩ := hparse
    cases hparse
    rw [if_pos (by tauto), framebuffer_overrideConsole, framebuffer_tagLoop _ hloop]
    exact Option.or_none

/-- The pitch of the last framebuffer of the block is not shorter than its row. -/
def RowsFit (mem : Memory) (mbiPtr magic : UInt64) : Prop :=
  ∀ fb, screenAt mem mbiPtr magic = some fb → fb.RowsFit

/-- **When the parser publishes rows that fit.** -/
theorem rowsFit_iff {info : BootInfo} {fb : FramebufferInfo}
    (hparse : (parseOrFallback mem mbiPtr magic).result = .ok info)
    (hfb : info.framebuffer = some fb) : fb.RowsFit ↔ RowsFit mem mbiPtr magic := by
  rw [framebuffer_of_parse hparse] at hfb
  constructor
  · intro hfit other hother
    cases hfb.symm.trans hother
    exact hfit
  · exact fun hfit => hfit fb hfb

end Multiboot

end Hyperion.Hal
