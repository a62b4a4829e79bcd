import Hyperion.Display.Drawing
import Hyperion.Hal.Screens

/-!
# Drawing on the firmware's framebuffer

From the bytes that the firmware hands over to the slice that the compositor writes:
the parser publishes a framebuffer, `display::init` makes it monitor 0, and whether
drawing on monitor 0 stays inside the slice is decided by the stride and the width that
the firmware gave.  `hal::init` publishes the description as the parser returns it.

The kernel checks the two numbers nowhere, so that a stride in pixels, say, is found out
when the first frame is composed.
-/

namespace Hyperion.Display

open Hyperion.Lib Hyperion.Hal

/-- What the firmware hands over: a device tree at an address where `memory` is readable,
or a Multiboot2 block in memory. -/
inductive Firmware where
  | deviceTree (dtbAddr : UInt64) (memory : List UInt8)
  | multiboot (mem : Memory) (mbiPtr magic : UInt64)

namespace Firmware

/-- The parser of each architecture. -/
def parse : Firmware → Checked BootInfo
  | deviceTree dtbAddr memory => Dtb.parseOrFallback dtbAddr memory
  | multiboot mem mbiPtr magic => (Multiboot.parseOrFallback mem mbiPtr magic).result

/-- The framebuffer that the firmware describes last has rows that fit its stride, with
the stride that stands for zero in a device tree. -/
def RowsFit : Firmware → Prop
  | deviceTree dtbAddr memory => Dtb.RowsFit dtbAddr memory
  | multiboot mem mbiPtr magic => Multiboot.RowsFit mem mbiPtr magic

theorem rowsFit_iff {firmware : Firmware} {info : BootInfo} {fb : FramebufferInfo}
    (hparse : firmware.parse = .ok info) (hfb : info.framebuffer = some fb) :
    fb.RowsFit ↔ firmware.RowsFit := by
  cases firmware with
  | deviceTree dtbAddr memory => exact Dtb.rowsFit_iff hparse hfb
  | multiboot mem mbiPtr magic => exact Multiboot.rowsFit_iff hparse hfb

end Firmware

section Monitor

/-- Monitor 0 is the published framebuffer. -/
theorem exists_monitor (mem : Memory) {info : BootInfo} {fb : FramebufferInfo}
    (hfb : info.framebuffer = some fb) :
    ∃ monitor, get (init mem info []) 0 = some monitor ∧ monitor.width = fb.width ∧
      monitor.height = fb.height ∧ HasShape fb.width fb.height fb.strideBytes monitor.fb := by
  unfold init
  rw [hfb]
  exact ⟨_, rfl, rfl, rfl, hasShape_fromMmio mem fb.base (formatFor fb.format)⟩

variable {width height stride : UInt32}

theorem wellFormed_iff {surface : Framebuffer} (hshape : HasShape width height stride surface) :
    surface.WellFormed ↔ 4 * width.toNat ≤ stride.toNat := by
  constructor
  · intro hwell
    have hrows := hwell.rows
    rwa [Framebuffer.RowsFit, hshape.width_eq, hshape.stride_eq] at hrows
  · exact hshape.wellFormed

/-- A composition clears first, and that faults if the rows do not fit. -/
theorem render_faults {monitor : Monitor} (hshape : HasShape width height stride monitor.fb)
    (hheight : 0 < height) (hnarrow : ¬4 * width.toNat ≤ stride.toNat) (compositor : Compositor) :
    ∃ fault, compositor.render monitor = .error (.target, fault) := by
  unfold Compositor.render
  cases hclear : monitor.fb.clear compositor.background with
  | ok cleared => exact absurd (rows_of_clear hshape hheight hclear) hnarrow
  | error fault => exact ⟨fault, rfl⟩

end Monitor

/-- **When the firmware's framebuffer can be drawn on.**  Monitor 0 is well formed exactly
if the rows that the firmware describes fit its stride.  Then no sequence of drawings
inside the screen indexes the slice outside its bounds, whatever the layers, and with
well-formed layers every drawing returns.  Otherwise every composition on a screen with a
row indexes the slice outside its bounds. -/
theorem screen_drawable_iff (firmware : Firmware) (mem : Memory) {info : BootInfo}
    {fb : FramebufferInfo} (hparse : firmware.parse = .ok info)
    (hfb : info.framebuffer = some fb) :
    ∃ monitor, get (init mem info []) 0 = some monitor ∧
      (monitor.fb.WellFormed ↔ firmware.RowsFit) ∧
      (firmware.RowsFit → ∀ draws : List Draw,
        (∀ draw ∈ draws, draw.Inside monitor.width monitor.height) →
          (∀ fault, drawAll draws monitor ≠ .error (.target, fault)) ∧
          ((∀ draw ∈ draws, ∀ layer ∈ draw.layers, layer.fb.WellFormed) →
            ∃ after, drawAll draws monitor = .ok after)) ∧
      (¬firmware.RowsFit → 0 < fb.height →
        ∀ compositor : Compositor, ∃ fault,
          compositor.render monitor = .error (.target, fault)) := by
  obtain ⟨monitor, hmonitor, hwidth, hheight, hshape⟩ := exists_monitor mem hfb
  have hrows := Firmware.rowsFit_iff hparse hfb
  refine ⟨monitor, hmonitor, (wellFormed_iff hshape).trans hrows, ?_, ?_⟩
  · intro hfit draws hinside
    rw [hwidth, hheight] at hinside
    have hends := drawAll_ends (hrows.mpr hfit) hshape hinside
    cases hdraw : drawAll draws monitor with
    | ok after => exact ⟨nofun, fun _ => ⟨after, rfl⟩⟩
    | error fault =>
      rw [hdraw] at hends
      obtain ⟨hlayer, draw, hmem, layer, hlayers, hbad⟩ := hends
      constructor
      · intro other heq
        cases heq
        cases hlayer
      · exact fun hgood => absurd (hgood draw hmem layer hlayers) hbad
  · intro hnarrow hpos compositor
    exact render_faults hshape hpos (fun hfit => hnarrow (hrows.mp hfit)) compositor

/-- A display of 1024 x 768 pixels with a stride of `stride` bytes. -/
def screenTree (stride : ℕ) : Dtb.Node :=
  .mk "" []
    [.mk "framebuffer@9c000000"
      [("compatible", utf8 "simple-framebuffer" ++ [0]),
        ("reg", [0, 0, 0, 0, 0x9c, 0, 0, 0, 0, 0x30, 0, 0]), ("width", toBe 4 1024),
        ("height", toBe 4 768), ("stride", toBe 4 stride),
        ("format", utf8 "a8r8g8b8" ++ [0])] []]

/-- What the parser makes of that display. -/
def screenInfo (stride : UInt32) : FramebufferInfo where
  base := 0x9c000000
  width := 1024
  height := 768
  strideBytes := stride
  bpp := 32
  format := .bgra8888

theorem holdsTree_wide : Dtb.HoldsTree (screenTree 4096).blob (screenTree 4096) :=
  Dtb.holdsTree_blob _ (by decide +kernel)

theorem holdsTree_narrow : Dtb.HoldsTree (screenTree 1024).blob (screenTree 1024) :=
  Dtb.holdsTree_blob _ (by decide +kernel)

theorem screen_drawable_iff_wide :
    ∃ info, (Firmware.deviceTree 0x48000000 (screenTree 4096).blob).parse = .ok info ∧
      info.framebuffer = some (screenInfo 4096) ∧
      ∃ monitor, get (init (fun _ => 0) info []) 0 = some monitor ∧ monitor.fb.WellFormed := by
  have haddr : (0x48000000 : UInt64) ≠ 0 := by decide
  have hscreen : Dtb.screenAt 0x48000000 (screenTree 4096).blob = some (screenInfo 4096) := by
    rw [Dtb.screenAt, Dtb.nodeCalls_of_tree haddr holdsTree_wide]
    decide +kernel
  have hfit : (Firmware.deviceTree 0x48000000 (screenTree 4096).blob).RowsFit := by
    intro fb hfb
    rw [hscreen] at hfb
    cases hfb
    exact .inl (by decide)
  have hparse := Dtb.parseOrFallback_of_tree haddr holdsTree_wide
  have hfb := Dtb.framebuffer_of_parse hparse
  rw [hscreen] at hfb
  obtain ⟨monitor, hmonitor, hwell, _⟩ := screen_drawable_iff
    (.deviceTree 0x48000000 (screenTree 4096).blob) (fun _ => 0) hparse hfb
  exact ⟨_, hparse, hfb, monitor, hmonitor, hwell.mpr hfit⟩

/-- A stride in pixels is published as one in bytes, and the first composition indexes
the slice outside its bounds. -/
theorem narrow_stride_published :
    ∃ info, Dtb.parseOrFallback 0x48000000 (screenTree 1024).blob = .ok info ∧
      info.framebuffer = some (screenInfo 1024) ∧
      ∀ mem, ∃ monitor, get (init mem info []) 0 = some monitor ∧ ¬monitor.fb.WellFormed ∧
        ∃ fault, Compositor.new.render monitor = .error (.target, fault) := by
  have haddr : (0x48000000 : UInt64) ≠ 0 := by decide
  have hscreen : Dtb.screenAt 0x48000000 (screenTree 1024).blob = some (screenInfo 1024) := by
    rw [Dtb.screenAt, Dtb.nodeCalls_of_tree haddr holdsTree_narrow]
    decide +kernel
  have hparse := Dtb.parseOrFallback_of_tree haddr holdsTree_narrow
  have hfb := Dtb.framebuffer_of_parse hparse
  rw [hscreen] at hfb
  refine ⟨_, hparse, hfb, ?_⟩
  intro mem
  obtain ⟨monitor, hmonitor, _, _, hshape⟩ := exists_monitor mem hfb
  have hnarrow : ¬4 * (screenInfo 1024).width.toNat ≤ (screenInfo 1024).strideBytes.toNat := by
    decide
  exact ⟨monitor, hmonitor, fun hwell => hnarrow ((wellFormed_iff hshape).mp hwell),
    render_faults hshape (by decide) hnarrow .new⟩

end Hyperion.Display
