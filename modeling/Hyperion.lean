import Hyperion.Mm.Roots
import Hyperion.Mm.PoolBounds
import Hyperion.Ipc.RegistryInvariant
import Hyperion.Ipc.Caps
import Hyperion.Virtio.BlkTurns
import Hyperion.Proc.InterruptMask
import Hyperion.Hal.MultibootTags
import Hyperion.Fs.Linearization
import Hyperion.Fs.Append
import Hyperion.Display.FirmwareScreen
import Hyperion.Net.EchoFilter
import Hyperion.Virtio.AnyChain
import Hyperion.Virtio.BlkSectors
import Hyperion.Ipc.PortSend
import Hyperion.Mm.PhysicalEnds
import Hyperion.Proc.RoundRobin
import Hyperion.Shell.Addressable
import Hyperion.Shell.WriteBack
import Hyperion.Ui.Line
import Hyperion.Ui.Text
import Hyperion.Efi.LoadView
import Hyperion.Efi.Recorded
import Hyperion.Hal.DtbBanks
import Hyperion.Hal.DtbStdout
import Hyperion.Mm.Mmu
import Hyperion.Aarch64.Context
import Hyperion.Aarch64.Traps
import Hyperion.X86.Context
import Hyperion.X86.Traps
import Hyperion.X86.Boot
