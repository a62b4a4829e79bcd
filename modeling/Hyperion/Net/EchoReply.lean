import Hyperion.Net.Checksum

/-!
# Which frames are answered, and how

The length check of `try_reply_echo` is made for an IPv4 header of 20 bytes, but the UDP
header is where the header length of the frame says.  The spec of the checks has three
parts: a frame that is not `Screened` is dropped (`checkEcho_of_not_screened`), one that is
and whose ports are beyond its end faults (`checkEcho_of_short`), and for any other one the
destination port decides (`checkEcho_of_ports`).

The reply is the frame with a list of edits (`replyEdits`) at places that do not overlap,
except for the checksum, which is zeroed, computed and stored.  All that is said about the
reply is said about those edits.
-/

namespace Hyperion.Net

open Hyperion.Lib Hyperion.Virtio.Net

/-! ## The fields of a frame -/

def ethertype (frame : List UInt8) : UInt16 := be16 (bytesAt frame 12 2)

/-- The length of the IPv4 header, in bytes. -/
def ihl (frame : List UInt8) : ℕ := (frame.getD 14 0 &&& 0x0f).toNat * 4

/-- The version field of the IPv4 header. -/
def version (frame : List UInt8) : ℕ := (frame.getD 14 0 >>> 4).toNat

def protocol (frame : List UInt8) : UInt8 := frame.getD 23 0

def dstMac (frame : List UInt8) : List UInt8 := bytesAt frame 0 6

/-- Where the UDP header is. -/
def udpOff (frame : List UInt8) : ℕ := 14 + ihl frame

def dstPort (frame : List UInt8) : UInt16 := be16 (bytesAt frame (udpOff frame + 2) 2)

/-- The frame passes the checks that are made in front of the UDP header. -/
structure Screened (frame : List UInt8) : Prop where
  length : 42 ≤ frame.length
  ethertype : ethertype frame = 0x0800
  ihl : 20 ≤ ihl frame
  protocol : protocol frame = 17

/-- The UDP header is inside the frame, as far as it is used. -/
def PortsInside (frame : List UInt8) : Prop :=
  udpOff frame + 4 ≤ frame.length ∧ (dstPort frame = 7 → udpOff frame + 8 ≤ frame.length)

instance (frame : List UInt8) : Decidable (PortsInside frame) :=
  inferInstanceAs (Decidable (_ ∧ _))

theorem ihl_le (frame : List UInt8) : ihl frame ≤ 60 := by
  have hnibble : (frame.getD 14 0 &&& 0x0f).toNat ≤ 15 := Nat.and_le_right
  unfold ihl
  omega

/-! ## The checks -/

section Checks

variable {frame : List UInt8}

/-- The checks, with what they read in front of the UDP header. -/
theorem checkEcho_eq (hlength : 42 ≤ frame.length) :
    checkEcho frame =
      if ethertype frame ≠ 0x0800 then .ok none
      else if ihl frame < 20 ∨ protocol frame ≠ 17 then .ok none
      else checkPort (frame.drop 14) (ihl frame) := by
  have hip : slice frame 14 frame.length = .ok (frame.drop 14) := by
    rw [slice_of_le (by omega) le_rfl, List.take_of_length_le (by simp)]
  have hbyte : ∀ i, i < 28 → index (frame.drop 14) i = .ok (frame.getD (14 + i) 0) := by
    intro i hi
    rw [index_eq_ok, List.getElem?_drop, List.getD_eq_getElem?_getD,
      List.getElem?_eq_getElem (by omega), Option.getD_some]
  rw [checkEcho, if_neg (by omega), readBytes_of_le (by omega)]
  simp only [bind, Except.bind, hip, hbyte 0 (by omega), hbyte 9 (by omega)]
  rfl

theorem checkEcho_of_not_screened (hnot : ¬Screened frame) : checkEcho frame = .ok none := by
  by_cases hlength : 42 ≤ frame.length
  · rw [checkEcho_eq hlength]
    by_cases htype : ethertype frame = 0x0800
    · rw [if_neg (not_not.mpr htype), if_pos]
      by_contra hpass
      rw [not_or, not_lt, not_not] at hpass
      exact hnot ⟨hlength, htype, hpass.1, hpass.2⟩
    · rw [if_pos htype]
  · rw [checkEcho, if_pos (by omega)]
    rfl

/-- What is left of the checks for a frame that passes those in front of the UDP header. -/
theorem checkEcho_of_screened (hscreened : Screened frame) :
    checkEcho frame = checkPort (frame.drop 14) (ihl frame) := by
  rw [checkEcho_eq hscreened.length, if_neg (not_not.mpr hscreened.ethertype), if_neg]
  rw [not_or, not_lt, not_not]
  exact ⟨hscreened.ihl, hscreened.protocol⟩

theorem checkEcho_of_ports (hscreened : Screened frame) (hports : udpOff frame + 4 ≤ frame.length) :
    checkEcho frame =
      .ok (if dstPort frame ≠ 7 then none else some (ihl frame, dstPort frame)) := by
  have hudp : slice (frame.drop 14) (ihl frame) (frame.drop 14).length =
      .ok (frame.drop (udpOff frame)) := by
    have hinside : ihl frame ≤ (frame.drop 14).length := by
      unfold udpOff at hports
      simp
      omega
    rw [slice_of_le hinside le_rfl, ← List.length_drop, List.take_length, List.drop_drop]
    rfl
  have hread : readBytes (frame.drop (udpOff frame)) 2 2 =
      .ok (bytesAt frame (udpOff frame + 2) 2) := by
    rw [readBytes_of_le (by simp; omega), bytesAt, List.drop_drop]
    rfl
  rw [checkEcho_of_screened hscreened, checkPort, hudp]
  simp only [bind, Except.bind, hread]
  rw [dstPort]
  split <;> rfl

theorem checkEcho_of_short (hscreened : Screened frame) (hshort : frame.length < udpOff frame + 4)
    (result : Option (ℕ × UInt16)) : checkEcho frame ≠ .ok result := by
  intro hcheck
  rw [checkEcho_of_screened hscreened] at hcheck
  obtain ⟨udp, hudp, hcheck⟩ := bind_eq_ok.mp hcheck
  obtain ⟨bytes, hread, _⟩ := bind_eq_ok.mp hcheck
  obtain ⟨hle, _, rfl⟩ := slice_eq_ok.mp hudp
  have hinside := le_of_readBytes (by decide) hread
  have hlength := hscreened.length
  simp only [List.length_take, List.length_drop] at hinside hle
  unfold udpOff at hshort
  omega

end Checks

/-! ## The edits -/

section Reply

variable (mac : Vector UInt8 6) (frame : List UInt8)

/-- What is written before the header is summed. -/
def swapEdits : List (ℕ × List UInt8) :=
  [(0, bytesAt frame 6 6), (6, mac.toList), (26, bytesAt frame 30 4), (30, bytesAt frame 26 4),
    (24, [0, 0])]

/-- What is written then, up to the ports of the UDP header at `off`. -/
def portEdits (csum : UInt16) (off : ℕ) : List (ℕ × List UInt8) :=
  [(24, toBe 2 csum.toNat), (off, bytesAt frame (off + 2) 2), (off + 2, bytesAt frame off 2)]

/-- All that is written. -/
def replyEdits (csum : UInt16) (off : ℕ) : List (ℕ × List UInt8) :=
  swapEdits mac frame ++ portEdits frame csum off ++ [(off + 6, [0, 0])]

/-- `csum` is the complement of the sum of the header with its checksum zeroed. -/
def Complements (len : ℕ) (csum : UInt16) : Prop :=
  Reduces 0xffff (0xffff - csum.toNat)
    (beWords (bytesAt (overwriteAll frame (swapEdits mac frame)) 14 len)).sum

variable {mac frame} {csum : UInt16} {off : ℕ}

section

variable (hlength : 34 ≤ frame.length)

include hlength

theorem fit_swapEdits : Fit frame.length (swapEdits mac frame) := by
  have hmac := length_bytesAt (show 6 + 6 ≤ frame.length by omega)
  have hsrc := length_bytesAt (show 26 + 4 ≤ frame.length by omega)
  have hdst := length_bytesAt (show 30 + 4 ≤ frame.length by omega)
  simp [Fit, swapEdits, hmac, hsrc, hdst]
  omega

theorem fit_portEdits (hports : off + 4 ≤ frame.length) :
    Fit frame.length (swapEdits mac frame ++ portEdits frame csum off) := by
  have hsrc := length_bytesAt (show off + 2 ≤ frame.length by omega)
  have hdst := length_bytesAt (show off + 2 + 2 ≤ frame.length by omega)
  refine List.forall_mem_append.mpr ⟨fit_swapEdits hlength, ?_⟩
  simp [portEdits, hsrc, hdst]
  omega

theorem fit_replyEdits (hudp : off + 8 ≤ frame.length) :
    Fit frame.length (replyEdits mac frame csum off) := by
  refine List.forall_mem_append.mpr ⟨fit_portEdits hlength (by omega), ?_⟩
  simpa using hudp

theorem swapAddresses_eq :
    swapAddresses mac frame = .ok (overwriteAll frame (swapEdits mac frame)) := by
  have hfit : Fit frame.length (swapEdits mac frame) := fit_swapEdits hlength
  have hmac : slice frame 6 12 = .ok (bytesAt frame 6 6) := slice_of_le (by omega) (by omega)
  have hsrc : slice frame 26 30 = .ok (bytesAt frame 26 4) := slice_of_le (by omega) (by omega)
  have hdst : slice frame 30 34 = .ok (bytesAt frame 30 4) := slice_of_le (by omega) (by omega)
  -- each write is one more edit
  let edits₁ := [(0, bytesAt frame 6 6)]
  let edits₂ := edits₁ ++ [(6, mac.toList)]
  let edits₃ := edits₂ ++ [(26, bytesAt frame 30 4)]
  let edits₄ := edits₃ ++ [(30, bytesAt frame 26 4)]
  have hcopy₁ : copyFromSlice frame 0 6 (bytesAt frame 6 6) = .ok (overwriteAll frame edits₁) := by
    show copyFromSlice (overwriteAll frame []) 0 6 _ = _
    exact copyFromSlice_overwriteAll (hfit.of_prefix List.nil_prefix)
      (by rw [length_bytesAt (by omega)]) (by omega)
  have hcopy₂ : copyFromSlice (overwriteAll frame edits₁) 6 12 mac.toList =
      .ok (overwriteAll frame edits₂) :=
    copyFromSlice_overwriteAll (hfit.of_prefix ⟨_, rfl⟩) (by simp) (by omega)
  have hcopy₃ : copyFromSlice (overwriteAll frame edits₂) 26 30 (bytesAt frame 30 4) =
      .ok (overwriteAll frame edits₃) :=
    copyFromSlice_overwriteAll (hfit.of_prefix ⟨_, rfl⟩) (by rw [length_bytesAt (by omega)])
      (by omega)
  have hcopy₄ : copyFromSlice (overwriteAll frame edits₃) 30 34 (bytesAt frame 26 4) =
      .ok (overwriteAll frame edits₄) :=
    copyFromSlice_overwriteAll (hfit.of_prefix ⟨_, rfl⟩) (by rw [length_bytesAt (by omega)])
      (by omega)
  have hzero : writeBytes (overwriteAll frame edits₄) 24 [0, 0] =
      .ok (overwriteAll frame (swapEdits mac frame)) :=
    writeBytes_overwriteAll (hfit.of_prefix ⟨_, rfl⟩) (by simp; omega)
  unfold swapAddresses
  simp only [bind, Except.bind, hmac, hsrc, hdst, hcopy₁, hcopy₂, hcopy₃, hcopy₄, hzero]

end

/-- The header is summed with its checksum zeroed. -/
theorem returns_storeChecksum {len : ℕ} (hlen : len ≤ 60) (hinside : 14 + len ≤ frame.length)
    (hlength : 34 ≤ frame.length) :
    Returns (storeChecksum (overwriteAll frame (swapEdits mac frame)) len) fun new =>
      ∃ csum, Complements mac frame len csum ∧
        new = overwriteAll frame (swapEdits mac frame ++ [(24, toBe 2 csum.toNat)]) := by
  have hfit : Fit frame.length (swapEdits mac frame) := fit_swapEdits hlength
  have hheader : slice (overwriteAll frame (swapEdits mac frame)) 14 (14 + len) =
      .ok (bytesAt (overwriteAll frame (swapEdits mac frame)) 14 len) := by
    rw [slice_of_le (by omega) (by rwa [length_overwriteAll hfit]), Nat.add_sub_cancel_left]
    rfl
  have hsum : Returns (csum16 (bytesAt (overwriteAll frame (swapEdits mac frame)) 14 len))
      (Complements mac frame len) :=
    returns_csum16 ((length_bytesAt_le _ _ _).trans (by omega))
  rw [storeChecksum, hheader]
  refine hsum.bind fun csum hcsum => ?_
  rw [writeBytes_overwriteAll hfit (by simp; omega)]
  exact ⟨_, rfl, csum, hcsum, rfl⟩

theorem toBe_be16 {bytes : List UInt8} (hlength : bytes.length = 2) :
    toBe 2 (be16 bytes).toNat = bytes := by
  obtain ⟨hi, lo, rfl⟩ := List.length_eq_two.mp hlength
  rw [toNat_be16]
  exact toBe_fromBe [hi, lo]

/-- The last write is the one of the UDP checksum. -/
theorem swapPorts_eq {edits : List (ℕ × List UInt8)} (hfit : Fit frame.length edits)
    (hports : off + 4 ≤ frame.length) :
    swapPorts frame (overwriteAll frame edits) off (be16 (bytesAt frame (off + 2) 2)) =
      writeBytes (overwriteAll frame (edits ++
        [(off, bytesAt frame (off + 2) 2), (off + 2, bytesAt frame off 2)])) (off + 6) [0, 0] := by
  have hsrc := length_bytesAt (show off + 2 ≤ frame.length by omega)
  have hdst := length_bytesAt (show off + 2 + 2 ≤ frame.length by omega)
  have hfit₁ : Fit frame.length (edits ++ [(off, bytesAt frame (off + 2) 2)]) := by
    intro edit hedit
    rcases List.mem_append.mp hedit with hedit | hedit
    · exact hfit edit hedit
    · rw [List.mem_singleton.mp hedit, hdst]
      omega
  unfold swapPorts
  rw [readBytes_of_le (by omega)]
  simp only [bind, Except.bind, toBe_be16 hsrc, toBe_be16 hdst,
    writeBytes_overwriteAll hfit
      (show off + (bytesAt frame (off + 2) 2).length ≤ frame.length by omega),
    writeBytes_overwriteAll hfit₁
      (show off + 2 + (bytesAt frame off 2).length ≤ frame.length by omega),
    List.append_assoc, List.singleton_append]

theorem tryReplyEcho_of_none (hcheck : checkEcho frame = .ok none) :
    tryReplyEcho mac frame = .ok none := by
  rw [tryReplyEcho, hcheck]
  rfl

/-- A frame with both ports that is for the service is answered up to the last write. -/
theorem tryReplyEcho_of_ports (hscreened : Screened frame)
    (hports : udpOff frame + 4 ≤ frame.length) (hport : dstPort frame = 7) :
    ∃ csum, Complements mac frame (ihl frame) csum ∧
      tryReplyEcho mac frame =
        (writeBytes
          (overwriteAll frame (swapEdits mac frame ++ portEdits frame csum (udpOff frame)))
          (udpOff frame + 6) [0, 0] >>= fun reply => pure (some reply)) := by
  have hlength : 34 ≤ frame.length := hscreened.length.trans' (by decide)
  have hinside : 14 + ihl frame ≤ frame.length := by
    unfold udpOff at hports
    omega
  have hstored : Returns (storeChecksum (overwriteAll frame (swapEdits mac frame)) (ihl frame)) _ :=
    returns_storeChecksum (ihl_le frame) hinside hlength
  obtain ⟨new, hstore, csum, hcsum, hnew⟩ := hstored
  rw [hnew] at hstore
  have hall : Fit frame.length (swapEdits mac frame ++ portEdits frame csum (udpOff frame)) :=
    fit_portEdits hlength hports
  have hfit : Fit frame.length (swapEdits mac frame ++ [(24, toBe 2 csum.toNat)]) :=
    hall.of_prefix ⟨_, rfl⟩
  have hswap := swapPorts_eq hfit hports
  rw [List.append_assoc] at hswap
  refine ⟨csum, hcsum, ?_⟩
  rw [tryReplyEcho, checkEcho_of_ports hscreened hports, if_neg (not_not.mpr hport), dstPort]
  simp only [bind, Except.bind, swapAddresses_eq hlength, hstore]
  change Except.bind (swapPorts frame _ (udpOff frame) _) _ = _
  rw [hswap]
  rfl

/-- The answer to a frame that has a UDP header. -/
theorem tryReplyEcho_of_echo (hscreened : Screened frame)
    (hudp : udpOff frame + 8 ≤ frame.length) (hport : dstPort frame = 7) :
    ∃ csum, Complements mac frame (ihl frame) csum ∧
      tryReplyEcho mac frame =
        .ok (some (overwriteAll frame (replyEdits mac frame csum (udpOff frame)))) := by
  obtain ⟨csum, hcsum, hreply⟩ := tryReplyEcho_of_ports hscreened (by omega) hport
  refine ⟨csum, hcsum, ?_⟩
  have hlength : 34 ≤ frame.length := hscreened.length.trans' (by decide)
  have hfit : Fit frame.length (replyEdits mac frame csum (udpOff frame)) :=
    fit_replyEdits hlength hudp
  rw [hreply, writeBytes_overwriteAll (hfit.of_prefix ⟨[(udpOff frame + 6, [0, 0])], rfl⟩)
    (by simpa using hudp)]
  rfl

/-- A frame for the service that ends inside its UDP header faults. -/
theorem tryReplyEcho_of_cut (hscreened : Screened frame)
    (hports : udpOff frame + 4 ≤ frame.length) (hcut : frame.length < udpOff frame + 8)
    (hport : dstPort frame = 7) (result : Option (List UInt8)) :
    tryReplyEcho mac frame ≠ .ok result := by
  intro hresult
  obtain ⟨csum, _, hreply⟩ := tryReplyEcho_of_ports hscreened hports hport
  rw [hreply] at hresult
  obtain ⟨reply, hwrite, _⟩ := bind_eq_ok.mp hresult
  have hinside := le_of_writeBytes (by simp) hwrite
  have hlength : 34 ≤ frame.length := hscreened.length.trans' (by decide)
  rw [length_overwriteAll (fit_portEdits hlength hports)] at hinside
  exact absurd hinside (by simpa using hcut)

end Reply

/-! ## No fault -/

section Returns

variable {mac : Vector UInt8 6} {frame : List UInt8} {result : Option (List UInt8)}

theorem portsInside_of_ok (hresult : tryReplyEcho mac frame = .ok result)
    (hscreened : Screened frame) : PortsInside frame := by
  by_contra hnot
  by_cases hports : udpOff frame + 4 ≤ frame.length
  · have hcut : ¬(dstPort frame = 7 → udpOff frame + 8 ≤ frame.length) :=
      fun himp => hnot ⟨hports, himp⟩
    rw [Classical.not_imp, not_le] at hcut
    exact tryReplyEcho_of_cut hscreened hports hcut.2 hcut.1 result hresult
  · obtain ⟨checked, hcheck, _⟩ := bind_eq_ok.mp hresult
    exact checkEcho_of_short hscreened (by omega) checked hcheck

/-- A frame that the service does not answer is dropped. -/
theorem tryReplyEcho_of_dropped (hinside : Screened frame → PortsInside frame)
    (hother : Screened frame → dstPort frame ≠ 7) : tryReplyEcho mac frame = .ok none := by
  apply tryReplyEcho_of_none
  by_cases hscreened : Screened frame
  · rw [checkEcho_of_ports hscreened (hinside hscreened).1, if_pos (hother hscreened)]
  · exact checkEcho_of_not_screened hscreened

end Returns

/-- **When `try_reply_echo` returns.**  It does for every frame but those that pass the
checks in front of the UDP header and end before what is used of that header. -/
theorem tryReplyEcho_returns_iff (mac : Vector UInt8 6) (frame : List UInt8) :
    (∃ result, tryReplyEcho mac frame = .ok result) ↔ (Screened frame → PortsInside frame) := by
  constructor
  · rintro ⟨result, hresult⟩
    exact portsInside_of_ok hresult
  · intro hinside
    by_cases hecho : Screened frame ∧ dstPort frame = 7
    · obtain ⟨hscreened, hport⟩ := hecho
      obtain ⟨csum, _, hreply⟩ :=
        tryReplyEcho_of_echo hscreened ((hinside hscreened).2 hport) hport
      exact ⟨_, hreply⟩
    · rw [not_and] at hecho
      exact ⟨none, tryReplyEcho_of_dropped hinside hecho⟩

/-- A frame of 42 bytes whose header length is 60: a UDP packet with 40 bytes of options, if
they were there. -/
def longHeader : List UInt8 :=
  List.replicate 12 0xff ++ [0x08, 0x00, 0x4f] ++ List.replicate 8 0 ++ [17] ++ List.replicate 18 0

theorem tryReplyEcho_longHeader :
    longHeader.length = 42 ∧
      tryReplyEcho (Vector.replicate 6 0) longHeader = .error .sliceOutOfRange := by
  decide +kernel

/-! ## The reply -/

/-- What the answer to an echo request has to be. -/
structure IsReply (mac : Vector UInt8 6) (frame reply : List UInt8) : Prop where
  length : reply.length = frame.length
  dst_mac : bytesAt reply 0 6 = bytesAt frame 6 6
  src_mac : bytesAt reply 6 6 = mac.toList
  src_ip : bytesAt reply 26 4 = bytesAt frame 30 4
  dst_ip : bytesAt reply 30 4 = bytesAt frame 26 4
  src_port : bytesAt reply (udpOff frame) 2 = bytesAt frame (udpOff frame + 2) 2
  dst_port : bytesAt reply (udpOff frame + 2) 2 = bytesAt frame (udpOff frame) 2
  udp_checksum : bytesAt reply (udpOff frame + 6) 2 = [0, 0]
  header_sum : internetSum (bytesAt reply 14 (ihl frame)) = 0xffff
  /-- the bytes that are not in one of these fields or in the header checksum -/
  rest : ∀ i, 12 ≤ i → i ∉ Set.Ico 24 34 → i ∉ Set.Ico (udpOff frame) (udpOff frame + 4) →
    i ∉ Set.Ico (udpOff frame + 6) (udpOff frame + 8) → reply[i]? = frame[i]?

section IsReply

variable {mac : Vector UInt8 6} {frame reply : List UInt8} {csum : UInt16}

/-- What is known of a frame that was answered. -/
theorem exists_edits (hsent : tryReplyEcho mac frame = .ok (some reply)) :
    ∃ csum, Complements mac frame (ihl frame) csum ∧ Screened frame ∧
      udpOff frame + 8 ≤ frame.length ∧ dstPort frame = 7 ∧
      reply = overwriteAll frame (replyEdits mac frame csum (udpOff frame)) := by
  have hdropped : checkEcho frame ≠ .ok none := by
    intro hcheck
    rw [tryReplyEcho_of_none hcheck] at hsent
    cases hsent
  have hscreened : Screened frame := by
    by_contra hnot
    exact hdropped (checkEcho_of_not_screened hnot)
  obtain ⟨hports, hudp⟩ := portsInside_of_ok hsent hscreened
  have hport : dstPort frame = 7 := by
    by_contra hport
    apply hdropped
    rw [checkEcho_of_ports hscreened hports, if_pos hport]
  obtain ⟨csum, hcsum, hreply⟩ := tryReplyEcho_of_echo hscreened (hudp hport) hport
  rw [hreply] at hsent
  cases hsent
  exact ⟨csum, hcsum, hscreened, hudp hport, hport, rfl⟩

theorem header_split (buf : List UInt8) {len : ℕ} (hlen : 12 ≤ len) :
    bytesAt buf 14 len = bytesAt buf 14 10 ++ bytesAt buf 24 2 ++ bytesAt buf 26 (len - 12) := by
  rw [← bytesAt_add, ← bytesAt_add]
  congr 1
  omega

/-- The checksum of the header verifies. -/
theorem internetSum_header (hscreened : Screened frame) (hudp : udpOff frame + 8 ≤ frame.length)
    (hcsum : Complements mac frame (ihl frame) csum) :
    internetSum (bytesAt (overwriteAll frame (replyEdits mac frame csum (udpOff frame))) 14
      (ihl frame)) = 0xffff := by
  have hlen : 12 ≤ ihl frame := hscreened.ihl.trans' (by decide)
  have hlength : 34 ≤ frame.length := hscreened.length.trans' (by decide)
  have hfit : Fit frame.length (replyEdits mac frame csum (udpOff frame)) :=
    fit_replyEdits hlength hudp
  let swapped := overwriteAll frame (swapEdits mac frame)
  let later := portEdits frame csum (udpOff frame) ++ [(udpOff frame + 6, [0, 0])]
  have hlater : Fit swapped.length later := by
    intro edit hedit
    rw [length_overwriteAll (fit_swapEdits hlength)]
    exact hfit edit (by rw [replyEdits, List.append_assoc]; exact List.mem_append_right _ hedit)
  have hreply : overwriteAll frame (replyEdits mac frame csum (udpOff frame)) =
      overwriteAll swapped later := by
    rw [replyEdits, List.append_assoc, overwriteAll_append]
  have hsrc := length_bytesAt (show udpOff frame + 2 ≤ frame.length by omega)
  have hdst := length_bytesAt (show udpOff frame + 2 + 2 ≤ frame.length by omega)
  -- of the header, only the checksum is written after the sum
  have hoff : 34 ≤ udpOff frame := Nat.add_le_add_left hscreened.ihl 14
  have hspare : ∀ pos n, pos + n ≤ 24 ∨ 26 ≤ pos ∧ pos + n ≤ udpOff frame → Spare pos n later := by
    intro pos n hpos
    simp [Spare, later, portEdits, hsrc, hdst]
    omega
  have hfront : bytesAt (overwriteAll swapped later) 14 10 = bytesAt swapped 14 10 :=
    bytesAt_overwriteAll hlater (hspare 14 10 (by omega))
  have hback : bytesAt (overwriteAll swapped later) 26 (ihl frame - 12) =
      bytesAt swapped 26 (ihl frame - 12) := by
    refine bytesAt_overwriteAll hlater (hspare 26 _ (.inr ⟨le_rfl, ?_⟩))
    unfold udpOff
    omega
  have hfield : bytesAt (overwriteAll swapped later) 24 2 = toBe 2 csum.toNat := by
    have hget : later[0]? = some (24, toBe 2 csum.toNat) := rfl
    have hwritten := bytesAt_edit hlater hget (by
      simp [Spare, later, portEdits, hsrc, hdst]
      omega)
    rwa [length_toBe] at hwritten
  have hzero : bytesAt swapped 24 2 = [0, 0] := by
    have hget : (swapEdits mac frame)[4]? = some (24, [0, 0]) := rfl
    have hspare : Spare 24 [0, 0].length ((swapEdits mac frame).drop 5) := by
      simp [Spare, swapEdits]
    have hwritten := bytesAt_edit (fit_swapEdits hlength) hget hspare
    rwa [List.length_cons, List.length_singleton] at hwritten
  have hfrontEven : Even (bytesAt swapped 14 10).length := by
    rw [length_bytesAt (by rw [length_overwriteAll (fit_swapEdits hlength)]; omega)]
    decide
  have hsum := hcsum
  rw [Complements, header_split _ hlen, hzero] at hsum
  rw [hreply, header_split _ hlen, hfront, hback, hfield]
  have hle : csum.toNat ≤ 0xffff := Nat.le_of_lt_succ csum.toNat_lt
  have hstored := internetSum_of_checksum hfrontEven hsum
  rwa [Nat.sub_sub_self hle] at hstored

/-- **The reply is right.**  Whenever a frame is answered, the reply has its length, the
addresses and ports are swapped, both checksums are as they should be, and every other byte
is the one of the frame. -/
theorem reply_correct (mac : Vector UInt8 6) (frame reply : List UInt8)
    (hsent : tryReplyEcho mac frame = .ok (some reply)) : IsReply mac frame reply := by
  obtain ⟨csum, hcsum, hscreened, hudp, _, hreply⟩ := exists_edits hsent
  subst hreply
  have hlength : 34 ≤ frame.length := hscreened.length.trans' (by decide)
  have hoff : 34 ≤ udpOff frame := Nat.add_le_add_left hscreened.ihl 14
  have hfit : Fit frame.length (replyEdits mac frame csum (udpOff frame)) :=
    fit_replyEdits hlength hudp
  have hmac := length_bytesAt (show 6 + 6 ≤ frame.length by omega)
  have hsrcIp := length_bytesAt (show 26 + 4 ≤ frame.length by omega)
  have hdstIp := length_bytesAt (show 30 + 4 ≤ frame.length by omega)
  have hsrc := length_bytesAt (show udpOff frame + 2 ≤ frame.length by omega)
  have hdst := length_bytesAt (show udpOff frame + 2 + 2 ≤ frame.length by omega)
  -- the edits are numbered in the order of `replyEdits`
  have hfield : ∀ {k pos n : ℕ} {bytes : List UInt8},
      (replyEdits mac frame csum (udpOff frame))[k]? = some (pos, bytes) → bytes.length = n →
      Spare pos n ((replyEdits mac frame csum (udpOff frame)).drop (k + 1)) →
      bytesAt (overwriteAll frame (replyEdits mac frame csum (udpOff frame))) pos n = bytes := by
    intro k pos n bytes hedit hn hspare
    subst hn
    exact bytesAt_edit hfit hedit hspare
  refine ⟨length_overwriteAll hfit, ?_, ?_, ?_, ?_, ?_, ?_, ?_,
    internetSum_header hscreened hudp hcsum, ?_⟩
  · apply hfield (k := 0) rfl hmac
    simp [Spare, replyEdits, swapEdits, portEdits]
    omega
  · apply hfield (k := 1) rfl (by simp)
    simp [Spare, replyEdits, swapEdits, portEdits]
    omega
  · apply hfield (k := 2) rfl hdstIp
    simp [Spare, replyEdits, swapEdits, portEdits]
    omega
  · apply hfield (k := 3) rfl hsrcIp
    simp [Spare, replyEdits, swapEdits, portEdits]
    omega
  · apply hfield (k := 6) rfl hdst
    simp [Spare, replyEdits, swapEdits, portEdits]
  · apply hfield (k := 7) rfl hsrc
    simp [Spare, replyEdits, swapEdits, portEdits]
  · apply hfield (k := 8) rfl rfl
    simp [Spare, replyEdits, swapEdits, portEdits]
  · intro i hi hip hports hsum
    rw [getElem?_eq_head?_bytesAt, getElem?_eq_head?_bytesAt frame i, bytesAt_overwriteAll hfit]
    simp only [Set.mem_Ico, not_and, not_lt] at hip hports hsum
    simp [Spare, replyEdits, swapEdits, portEdits, hmac, hsrcIp, hdstIp, hsrc, hdst]
    omega

/-- The address of a device. -/
def ownMac : Vector UInt8 6 := #v[2, 0, 0, 0, 0, 1]

/-- A UDP packet of two bytes to port 7, with four bytes of options in its header. -/
def echoRequest : List UInt8 :=
  [2, 0, 0, 0, 0, 1, 2, 0, 0, 0, 0, 9, 0x08, 0x00,
    0x46, 0, 0, 34, 0, 0, 0, 0, 64, 17, 0, 0, 10, 0, 0, 9, 10, 0, 0, 1, 1, 1, 1, 0,
    0x12, 0x34, 0, 7, 0, 10, 0xab, 0xcd, 0xbe, 0xef]

theorem reply_correct_echoRequest :
    let reply : List UInt8 :=
      [2, 0, 0, 0, 0, 9, 2, 0, 0, 0, 0, 1, 0x08, 0x00,
        0x46, 0, 0, 34, 0, 0, 0, 0, 64, 17, 0x63, 0xc1, 10, 0, 0, 1, 10, 0, 0, 9, 1, 1, 1, 0,
        0, 7, 0x12, 0x34, 0, 10, 0, 0, 0xbe, 0xef]
    tryReplyEcho ownMac echoRequest = .ok (some reply) ∧ IsReply ownMac echoRequest reply := by
  intro reply
  have hsent : tryReplyEcho ownMac echoRequest = .ok (some reply) := rfl
  exact ⟨hsent, reply_correct ownMac echoRequest reply hsent⟩

end IsReply

end Hyperion.Net
