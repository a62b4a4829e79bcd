import Hyperion.Shell.Uptime

/-!
# System calls

`SyscallNr` of `libos-api/src/syscall.rs` and `dispatch` of `syscall/mod.rs`.  What the calls do to
the rest of the kernel is a parameter: the scheduler, the console and the timer are `Services` on a
state of any type.
-/

namespace Hyperion.Syscall

open Hyperion.Shell

inductive SyscallNr where
  | yield
  | exit
  | putChar
  | getChar
  | uptime
  | reboot
  | shutdown
  deriving DecidableEq, Repr

/-- `nr as u64`. -/
def SyscallNr.toUInt64 : SyscallNr → UInt64
  | .yield => 0
  | .exit => 1
  | .putChar => 2
  | .getChar => 3
  | .uptime => 4
  | .reboot => 5
  | .shutdown => 6

/-- `SyscallNr::try_from`. -/
def SyscallNr.tryFrom (v : UInt64) : Option SyscallNr :=
  if v = 0 then some .yield
  else if v = 1 then some .exit
  else if v = 2 then some .putChar
  else if v = 3 then some .getChar
  else if v = 4 then some .uptime
  else if v = 5 then some .reboot
  else if v = 6 then some .shutdown
  else none

/-- What the system calls use of the kernel. -/
structure Services (World : Type) where
  yieldNow : World → World
  putb : UInt8 → World → World
  getbBlocking : World → UInt8 × World
  timerFreq : World → UInt64
  timerCount : World → UInt64

/-- How a system call ends.  Only the first returns to its caller. -/
inductive Outcome (World : Type) where
  | returned (ret : Int64) (world : World)
  | exited (world : World)
  | reset
  | off

variable {World : Type} (services : Services World)

def sysYield (world : World) : Outcome World := .returned 0 (services.yieldNow world)

def sysPutchar (b : UInt8) (world : World) : Outcome World := .returned 0 (services.putb b world)

def sysGetchar (world : World) : Outcome World :=
  .returned (services.getbBlocking world).1.toUInt64.toInt64 (services.getbBlocking world).2

def sysUptime (world : World) : Outcome World :=
  .returned (Uptime.sysUptime (services.timerFreq world) (services.timerCount world)) world

/-- `dispatch`.  `sys_exit` does not look at its argument. -/
def dispatch (nr : UInt64) (args : Fin 6 → UInt64) (world : World) : Outcome World :=
  match SyscallNr.tryFrom nr with
  | some .yield => sysYield services world
  | some .exit => .exited world
  | some .putChar => sysPutchar services (args 0).toUInt8 world
  | some .getChar => sysGetchar services world
  | some .uptime => sysUptime services world
  | some .reboot => .reset
  | some .shutdown => .off
  | none => .returned (-1) world

theorem dispatch_of_none {nr : UInt64} (hnr : SyscallNr.tryFrom nr = none) (args : Fin 6 → UInt64)
    (world : World) : dispatch services nr args world = .returned (-1) world := by
  rw [dispatch, hnr]

end Hyperion.Syscall
