import Hyperion.Fs.ReadLoop

/-!
# The shell commands that change files

`cmd_write`, `cmd_rm` and `cmd_mkdir` of `shell/commands.rs`, on the root as `fs/mod.rs` seeds it.
A command prints one line; the line is a `Report`, and `Report.line` is its text.
-/

namespace Hyperion.Fs

open Hyperion.Lib

/-- `format_version`, for the version of the package and the name of the architecture. -/
def formatVersion (pkgVersion archName : String) : String :=
  "hyperion-os " ++ pkgVersion ++ " " ++ archName ++ "\r\n"

/-- `init` of `fs/mod.rs`: the root with the files that are there at boot. -/
def init (pkgVersion archName : String) : Ramfs :=
  let fs := Ramfs.newRoot
  let fs := (fs.createFile Ramfs.root "welcome" (utf8 "Welcome to Hyperion OS!\r\nTry: help\r\n")).2
  let fs := (fs.createFile Ramfs.root "version" (utf8 (formatVersion pkgVersion archName))).2
  let fs := (fs.createDir Ramfs.root "dev").2
  (fs.createDir Ramfs.root "tmp").2

end Hyperion.Fs

namespace Hyperion.Shell

open Hyperion.Lib Hyperion.Fs

/-- `{:?}` of an error. -/
def debug : FsError → String
  | .notFound => "NotFound"
  | .notADirectory => "NotADirectory"
  | .alreadyExists => "AlreadyExists"
  | .invalidPath => "InvalidPath"
  | .io => "Io"
  | .notEmpty => "NotEmpty"

/-- What a command reports. -/
inductive Report where
  | usage (text : String)
  | wrote (n : ℕ)
  | removed (path : String)
  | created (path : String)
  | error (command : String) (e : FsError)
  deriving DecidableEq

/-- The line it prints. -/
def Report.line : Report → String
  | usage text => "usage: " ++ text
  | wrote n => "wrote " ++ toString n ++ " bytes"
  | removed path => "removed " ++ path
  | created path => "created " ++ path
  | error command e => command ++ ": " ++ debug e

/-- `OpenFlags::WRITE | OpenFlags::CREATE`. -/
def writeCreate : OpenFlags := ⟨false, true, true, false⟩

/-- The text that `write` writes, `args[1..].join(" ")`. -/
def textOf (words : List String) : String := String.intercalate " " words

/-- `cmd_write`. -/
def cmdWrite (fs : Ramfs) : List String → Checked (Report × Ramfs)
  | [] | [_] => pure (.usage "write <path> <text...>", fs)
  | path :: words =>
    match Root.openPath fs path writeCreate with
    | (.error e, fs) => pure (.error "write" e, fs)
    | (.ok f, fs) => do
        let (answer, _, fs) ← f.write fs (utf8 (textOf words))
        match answer with
        | .ok n => pure (.wrote n, fs)
        | .error e => pure (.error "write" e, fs)

/-- `cmd_rm`. -/
def cmdRm (fs : Ramfs) : List String → Report × Ramfs
  | [] => (.usage "rm <path>", fs)
  | path :: _ =>
    match Root.remove fs path with
    | (.ok (), fs) => (.removed path, fs)
    | (.error e, fs) => (.error "rm" e, fs)

/-- `cmd_mkdir`. -/
def cmdMkdir (fs : Ramfs) : List String → Report × Ramfs
  | [] => (.usage "mkdir <path>", fs)
  | path :: _ =>
    match mkdir fs path with
    | (.ok _, fs) => (.created path, fs)
    | (.error e, fs) => (.error "mkdir" e, fs)

/-- A command with its arguments. -/
inductive FileCommand where
  | write (args : List String)
  | rm (args : List String)
  | mkdir (args : List String)
  deriving DecidableEq

def FileCommand.run (fs : Ramfs) : FileCommand → Checked (Report × Ramfs)
  | write args => cmdWrite fs args
  | rm args => pure (cmdRm fs args)
  | mkdir args => pure (cmdMkdir fs args)

/-- The shell runs a command and prints its report. -/
def ShellStep (fs : Ramfs) (event : FileCommand × Report) (fs' : Ramfs) : Prop :=
  event.1.run fs = .ok (event.2, fs')

end Hyperion.Shell
