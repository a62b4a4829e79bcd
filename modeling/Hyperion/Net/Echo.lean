import Hyperion.Virtio.Net

/-!
# The UDP echo service

`drivers/net/mod.rs`.  `poll_echo` takes one frame from the primary device, and
`try_reply_echo` answers it if it is a UDP packet to port 7: the reply is a copy of the
frame with addresses and ports swapped and a new IPv4 checksum.

The device is a virtio network device, of which the driver has the receiving side and the
address; what is handed to its `send` is part of the result.  All reads and writes go
through indices and slices that fault outside their buffer.
-/

namespace Hyperion.Net

open Hyperion.Lib Hyperion.Virtio.Net

/-- `u16::from_be_bytes`. -/
def be16 (bytes : List UInt8) : UInt16 := UInt16.ofNat (fromBe bytes)

/-! ## The checksum -/

/-- `a + b` on `u32`, which wraps unless the build checks for overflows. -/
def addU32 (overflowChecks : Bool) (a b : UInt32) : Checked UInt32 :=
  if overflowChecks = true ∧ 2 ^ 32 ≤ a.toNat + b.toNat then .error .overflow else .ok (a + b)

/-- One turn of the loop over the pairs of bytes. -/
def sumTurn (overflowChecks : Bool) (bytes : List UInt8) :
    ℕ × UInt32 → Checked (Turn (ℕ × UInt32) (ℕ × UInt32))
  | (i, sum) =>
    if i + 1 < bytes.length then do
      let word := be16 (← readBytes bytes i 2)
      let sum ← addU32 overflowChecks sum word.toUInt32
      pure (.again (i + 2, sum))
    else pure (.leave (i, sum))

/-- The odd byte behind the last pair. -/
def addLast (overflowChecks : Bool) (bytes : List UInt8) (i : ℕ) (sum : UInt32) :
    Checked UInt32 :=
  if i < bytes.length then do
    let last ← index bytes i
    addU32 overflowChecks sum (last.toUInt32 <<< 8)
  else pure sum

/-- One turn of the loop that adds the carries back. -/
def foldTurn (overflowChecks : Bool) (sum : UInt32) : Checked (Turn UInt32 UInt32) :=
  if sum >>> 16 ≠ 0 then do
    let sum ← addU32 overflowChecks (sum &&& 0xffff) (sum >>> 16)
    pure (.again sum)
  else pure (.leave sum)

/-- `csum16` of either build.  The first loop ends behind the last byte; no sum needs its
carries added back more than twice. -/
def csum16With (overflowChecks : Bool) (bytes : List UInt8) : Checked UInt16 := do
  let (i, sum) ← loop (sumTurn overflowChecks bytes) (bytes.length + 1) (0, 0)
  let sum ← addLast overflowChecks bytes i sum
  let sum ← loop (foldTurn overflowChecks) 3 sum
  pure (~~~ sum.toUInt16)

/-- `csum16` of the release build. -/
def csum16 (bytes : List UInt8) : Checked UInt16 := csum16With false bytes

/-! ## The reply -/

/-- The check of the destination port, with the length of the IPv4 header and the port of a
frame that passes it. -/
def checkPort (ip : List UInt8) (ihl : ℕ) : Checked (Option (ℕ × UInt16)) := do
  let udp ← slice ip ihl ip.length
  let dstPort := be16 (← readBytes udp 2 2)
  if dstPort ≠ 7 then pure none else pure (some (ihl, dstPort))

/-- The checks of `try_reply_echo`. -/
def checkEcho (frame : List UInt8) : Checked (Option (ℕ × UInt16)) :=
  if frame.length < 14 + 20 + 8 then pure none
  else do
    let ethertype := be16 (← readBytes frame 12 2)
    if ethertype ≠ 0x0800 then pure none
    else do
      let ip ← slice frame 14 frame.length
      let ihl := ((← index ip 0) &&& 0x0f).toNat * 4
      let protocol ← index ip 9
      if ihl < 20 ∨ protocol ≠ 17 then pure none else checkPort ip ihl

/-- The part of `try_reply_echo` that swaps the Ethernet and IP addresses in a copy of the
frame and zeroes the checksum of the header. -/
def swapAddresses (mac : Vector UInt8 6) (frame : List UInt8) : Checked (List UInt8) := do
  let new ← copyFromSlice frame 0 6 (← slice frame 6 12)
  let new ← copyFromSlice new 6 12 mac.toList
  let ipOff := 14
  let srcIp ← slice frame (ipOff + 12) (ipOff + 16)
  let dstIp ← slice frame (ipOff + 16) (ipOff + 20)
  let new ← copyFromSlice new (ipOff + 12) (ipOff + 16) dstIp
  let new ← copyFromSlice new (ipOff + 16) (ipOff + 20) srcIp
  writeBytes new (ipOff + 10) [0, 0]

/-- The part that computes and stores the checksum of the header. -/
def storeChecksum (new : List UInt8) (ihl : ℕ) : Checked (List UInt8) := do
  let ipOff := 14
  let ipCsum ← csum16 (← slice new ipOff (ipOff + ihl))
  writeBytes new (ipOff + 10) (toBe 2 ipCsum.toNat)

/-- The part that swaps the ports and zeroes the UDP checksum. -/
def swapPorts (frame new : List UInt8) (udpOff : ℕ) (dstPort : UInt16) :
    Checked (List UInt8) := do
  let srcPort := be16 (← readBytes frame udpOff 2)
  let new ← writeBytes new udpOff (toBe 2 dstPort.toNat)
  let new ← writeBytes new (udpOff + 2) (toBe 2 srcPort.toNat)
  writeBytes new (udpOff + 6) [0, 0]

/-- `try_reply_echo`: the frame that it hands to `send`, if it returns `Some(())`. -/
def tryReplyEcho (mac : Vector UInt8 6) (frame : List UInt8) : Checked (Option (List UInt8)) := do
  match ← checkEcho frame with
  | none => pure none
  | some (ihl, dstPort) =>
    let new ← swapAddresses mac frame
    let new ← storeChecksum new ihl
    let new ← swapPorts frame new (14 + ihl) dstPort
    pure (some new)

/-! ## Polling -/

/-- A registered device: its address and the receiving side of its driver. -/
structure NetDevice where
  mac : Vector UInt8 6
  net : VirtioNet
  deriving DecidableEq, Repr

/-- `poll_echo`, for the device that `primary` returns: the device afterwards and the frame
that was handed to its `send`. -/
def pollEcho (primary : Option NetDevice) (mem : Memory) :
    Checked (Option NetDevice × Option (List UInt8)) :=
  match primary with
  | none => pure (none, none)
  | some dev => do
      let buf := List.replicate 1600 0
      match ← recv dev.net mem buf with
      | (none, net) => pure (some { dev with net }, none)
      | (some answer, net) =>
        let frame ← slice answer.filled 0 answer.n
        let sent ← tryReplyEcho dev.mac frame
        pure (some { dev with net }, sent)

end Hyperion.Net
