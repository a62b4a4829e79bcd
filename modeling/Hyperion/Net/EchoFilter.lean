import Hyperion.Net.EchoReply
import Hyperion.Virtio.NetUntrusted

/-!
# What the service answers, and what it should

The doc of `poll_echo` promises an answer to IPv4 UDP packets for port 7 that are addressed
to the device, and to nothing else.  The code looks at the ethertype, the header length, the
protocol and the port; neither the version of the header nor the destination address of the
frame is checked.
-/

namespace Hyperion.Net

open Hyperion.Lib Hyperion.Virtio Hyperion.Virtio.Net

/-- An IPv4 UDP packet to port 7 that is addressed to the device. -/
structure EchoRequest (mac : Vector UInt8 6) (frame : List UInt8) : Prop where
  ethertype : ethertype frame = 0x0800
  version : version frame = 4
  ihl : 20 ≤ ihl frame
  protocol : protocol frame = 17
  inside : udpOff frame + 8 ≤ frame.length
  port : dstPort frame = 7
  addressed : dstMac frame = mac.toList

/-- The frame that a call of `recv` left in the buffer of `poll_echo`. -/
def received (answer : Answer) : List UInt8 := answer.filled.take answer.n

/-- Only an echo request is answered, and any other frame is dropped. -/
structure Filtered (dev : NetDevice) (mem : Memory) (frame : List UInt8) : Prop where
  answered : ∀ next reply, pollEcho (some dev) mem = .ok (next, some reply) →
    EchoRequest dev.mac frame
  dropped : ¬EchoRequest dev.mac frame → ∃ next, pollEcho (some dev) mem = .ok (next, none)

section Poll

variable {dev : NetDevice} {mem : Memory} {out : List UInt8} {answer : Answer} {net : VirtioNet}

theorem n_le_of_recv (hrecv : recv dev.net mem out = .ok (some answer, net)) :
    answer.n ≤ answer.filled.length := by
  obtain ⟨⟨popped, q⟩, _, hrest⟩ := bind_eq_ok.mp hrecv
  cases popped with
  | none => cases hrest
  | some elem =>
    obtain ⟨id, len⟩ := elem
    obtain ⟨⟨head, copied⟩, hcopy, hrest⟩ := bind_eq_ok.mp hrest
    obtain ⟨_, _, hrest⟩ := bind_eq_ok.mp hrest
    cases hrest
    obtain ⟨b, _, hcopy⟩ := bind_eq_ok.mp hcopy
    obtain ⟨stop, _, hcopy⟩ := bind_eq_ok.mp hcopy
    obtain ⟨bytes, _, hcopy⟩ := bind_eq_ok.mp hcopy
    obtain ⟨filled, hfilled, hcopy⟩ := bind_eq_ok.mp hcopy
    cases hcopy
    obtain ⟨target, htarget, hfilled⟩ := bind_eq_ok.mp hfilled
    obtain ⟨_, hle, rfl⟩ := slice_eq_ok.mp htarget
    split at hfilled
    · rename_i hsame
      cases hfilled
      rw [length_overwrite]
      · exact hle
      · rw [← hsame]
        simp
    · cases hfilled

/-- A poll that receives a frame is the answer to it. -/
theorem pollEcho_of_recv
    (hrecv : recv dev.net mem (List.replicate 1600 0) = .ok (some answer, net)) :
    pollEcho (some dev) mem =
      (tryReplyEcho dev.mac (received answer) >>= fun sent =>
        pure (some { dev with net }, sent)) := by
  have hslice : slice answer.filled 0 answer.n = .ok (received answer) := by
    rw [slice_of_le (Nat.zero_le _) (n_le_of_recv hrecv)]
    rfl
  simp only [pollEcho, hrecv, bind, Except.bind, hslice]

end Poll

/-- **What the filter lets through.**  A received frame is treated as it should be exactly
if it does not pass the checks in front of the UDP header, or its UDP header is there as far
as it is used and, if it is for port 7, its version is 4 and its destination is the device. -/
theorem pollEcho_filtered_iff (dev : NetDevice) (mem : Memory) (answer : Answer) (net : VirtioNet)
    (hrecv : recv dev.net mem (List.replicate 1600 0) = .ok (some answer, net)) :
    Filtered dev mem (received answer) ↔
      (Screened (received answer) → PortsInside (received answer) ∧
        (dstPort (received answer) = 7 →
          version (received answer) = 4 ∧ dstMac (received answer) = dev.mac.toList)) := by
  generalize hframe : received answer = frame
  have hpoll := pollEcho_of_recv hrecv
  rw [hframe] at hpoll
  constructor
  · intro hfiltered hscreened
    by_cases hecho : EchoRequest dev.mac frame
    · have hports : udpOff frame + 4 ≤ frame.length := hecho.inside.trans' (by omega)
      exact ⟨⟨hports, fun _ => hecho.inside⟩, fun _ => ⟨hecho.version, hecho.addressed⟩⟩
    · obtain ⟨next, hnone⟩ := hfiltered.dropped hecho
      rw [hpoll] at hnone
      obtain ⟨sent, hsent, hnone⟩ := bind_eq_ok.mp hnone
      cases hnone
      have hinside := portsInside_of_ok hsent hscreened
      refine ⟨hinside, fun hport => ?_⟩
      obtain ⟨csum, _, hreply⟩ := tryReplyEcho_of_echo hscreened (hinside.2 hport) hport
      rw [hreply] at hsent
      cases hsent
  · intro hproper
    have hother : ¬EchoRequest dev.mac frame → Screened frame → dstPort frame ≠ 7 := by
      intro hecho hscreened hport
      obtain ⟨hinside, haddressed⟩ := hproper hscreened
      obtain ⟨hversion, hmac⟩ := haddressed hport
      exact hecho ⟨hscreened.ethertype, hversion, hscreened.ihl, hscreened.protocol,
        hinside.2 hport, hport, hmac⟩
    have hdropped : ¬EchoRequest dev.mac frame →
        pollEcho (some dev) mem = .ok (some { dev with net }, none) := by
      intro hecho
      rw [hpoll, tryReplyEcho_of_dropped (fun hscreened => (hproper hscreened).1) (hother hecho)]
      rfl
    constructor
    · intro next reply hanswered
      by_contra hecho
      rw [hdropped hecho] at hanswered
      cases hanswered
    · exact fun hecho => ⟨_, hdropped hecho⟩

/-! ## Two frames -/

/-- A device whose only receive buffer holds a frame: one completion, at index 0. -/
def withFrame (frame : List UInt8) (avail : UInt8) (lastUsedIdx : UInt16) : NetDevice :=
  ⟨ownMac, netOfOne [0, 0, avail, 0, 0, 0, 0, 0]
    ([0, 0, 1, 0] ++ toLe 4 0 ++ toLe 4 (hdrBytes + frame.length) ++ [0, 0]) lastUsedIdx⟩

/-- The memory with that buffer. -/
def frameMemory (frame : List UInt8) : Memory :=
  Memory.store (fun _ => 0) 0x1000 (List.replicate hdrBytes 0 ++ frame)

theorem pollEcho_filtered_iff_echoRequest :
    Filtered (withFrame echoRequest 1 0) (frameMemory echoRequest) echoRequest := by
  let answer : Answer := ⟨List.replicate 1600 0, 48, echoRequest ++ List.replicate 1552 0⟩
  have hrecv : recv (withFrame echoRequest 1 0).net (frameMemory echoRequest)
      (List.replicate 1600 0) = .ok (some answer, (withFrame echoRequest 2 1).net) := by
    decide +kernel
  have hframe : received answer = echoRequest := rfl
  have hiff := pollEcho_filtered_iff _ _ answer _ hrecv
  rw [hframe] at hiff
  exact hiff.mpr fun _ => ⟨by decide +kernel, fun _ => by decide +kernel⟩

/-- The same packet, sent to every station on the network. -/
def broadcastRequest : List UInt8 := List.replicate 6 0xff ++ echoRequest.drop 6

theorem broadcast_answered :
    ∃ answer net reply,
      recv (withFrame broadcastRequest 1 0).net (frameMemory broadcastRequest)
        (List.replicate 1600 0) = .ok (some answer, net) ∧
      received answer = broadcastRequest ∧ ¬EchoRequest ownMac broadcastRequest ∧
      pollEcho (some (withFrame broadcastRequest 1 0)) (frameMemory broadcastRequest) =
        .ok (some { withFrame broadcastRequest 1 0 with net }, some reply) := by
  let reply : List UInt8 :=
    [2, 0, 0, 0, 0, 9, 2, 0, 0, 0, 0, 1, 0x08, 0x00,
      0x46, 0, 0, 34, 0, 0, 0, 0, 64, 17, 0x63, 0xc1, 10, 0, 0, 1, 10, 0, 0, 9, 1, 1, 1, 0,
      0, 7, 0x12, 0x34, 0, 10, 0, 0, 0xbe, 0xef]
  refine ⟨⟨List.replicate 1600 0, 48, broadcastRequest ++ List.replicate 1552 0⟩,
    (withFrame broadcastRequest 2 1).net, reply, by decide +kernel, by decide +kernel, ?_,
    by decide +kernel⟩
  intro hecho
  exact absurd hecho.addressed (by decide +kernel)

end Hyperion.Net
