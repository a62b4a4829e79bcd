import Hyperion.Fs.Vfs
import Hyperion.Lib.Linearizable

/-!
# Threads that open and remove at the same time

`Root::open` and `Root::remove` of `fs/vfs.rs` as threads run them: every method of an
inode is one step under the lock of that inode, and between two steps of a thread the
others may run.  A call resolves its path, or the path of the parent, with an `ftype`
and a `lookup` for each component, and ends with `create_file` or `remove` in the
directory it has found.  A call that has not completed is a `Pending`: what it is
resolving a path for, the inode it has reached, and the components it has left.
-/

namespace Hyperion.Fs.Concurrent

open Hyperion.Lib

inductive PathCall where
  | openPath (path : String) (flags : OpenFlags)
  | remove (path : String)
  deriving DecidableEq, Repr

inductive Answer where
  | opened (result : Except FsError File)
  | removed (result : Except FsError Unit)
  deriving DecidableEq

/-- A call that nothing interrupts. -/
def seq : PathCall → Ramfs → Answer × Ramfs
  | .openPath path flags, fs =>
    (.opened (Root.openPath fs path flags).1, (Root.openPath fs path flags).2)
  | .remove path, fs => (.removed (Root.remove fs path).1, (Root.remove fs path).2)

/-! ## Calls in progress -/

/-- What a path is resolved for. -/
inductive Purpose where
  /-- The first `resolve` of `open`. -/
  | find (path : String) (flags : OpenFlags)
  /-- The `resolve` of the parent in `open`, and the `create_file` behind it. -/
  | create (path : String) (flags : OpenFlags)
  /-- The `resolve` of the parent in `remove`, and the `remove` behind it. -/
  | remove (path : String)
  deriving DecidableEq, Repr

structure Pending where
  purpose : Purpose
  /-- `cur` of `resolve`, in the end the parent. -/
  cur : InodeRef
  /-- The components that are left. -/
  todo : List String
  /-- `cur.ftype()` was a directory, and `cur.lookup` is next. -/
  checked : Bool
  start : ℕ
  deriving DecidableEq, Repr

/-- What `resolve` does before it looks at an inode: the components to follow. -/
def todoFor (path : String) : Except FsError (List String) :=
  if path = "" then .error .invalidPath
  else
    let path := (stripPrefix '/' path).getD path
    if path = "" then .ok [] else .ok ((split '/' path).filter (· ≠ ""))

namespace Purpose

def call : Purpose → PathCall
  | .find path flags => .openPath path flags
  | .create path flags => .openPath path flags
  | .remove path => .remove path

/-- The path that is resolved. -/
def target : Purpose → String
  | .find path _ => path
  | .create path _ => (Root.splitParent path).1
  | .remove path => (Root.splitParent path).1

def error (e : FsError) : Purpose → Answer
  | .find _ _ => .opened (.error e)
  | .create _ _ => .opened (.error e)
  | .remove _ => .removed (.error e)

end Purpose

/-- A call goes on, or has its answer. -/
abbrev Progress := Pending ⊕ Answer

/-- A directory that was resolved is the answer of `find`; the others have a method to call. -/
def arrive (purpose : Purpose) (start : ℕ) (cur : InodeRef) (todo : List String) : Progress :=
  match purpose, todo with
  | .find _ flags, [] => .inr (.opened (.ok ⟨cur, 0, flags⟩))
  | _, _ => .inl { purpose, cur, todo, checked := false, start }

/-- The start of a `resolve`. -/
def enter (purpose : Purpose) (start : ℕ) : Progress :=
  match todoFor purpose.target with
  | .error e => .inr (purpose.error e)
  | .ok todo => arrive purpose start Ramfs.root todo

def begin (call : PathCall) (start : ℕ) : Progress :=
  match call with
  | .openPath path flags => enter (.find path flags) start
  | .remove path => enter (.remove path) start

namespace Pending

/-- `resolve` fails.  Where `open` may create, `NotFound` leads to the parent. -/
def fail (p : Pending) (e : FsError) : Progress :=
  match p.purpose with
  | .find path flags =>
    if e = .notFound ∧ flags.create then enter (.create path flags) p.start
    else .inr (p.purpose.error e)
  | _ => .inr (p.purpose.error e)

/-- The method that is called on the resolved parent. -/
def act (p : Pending) (fs : Ramfs) : Progress × Ramfs :=
  match p.purpose with
  | .find _ flags => (.inr (.opened (.ok ⟨p.cur, 0, flags⟩)), fs)
  | .create path flags =>
    let (result, fs) := fs.createFile p.cur (Root.splitParent path).2 []
    (.inr (.opened (result.map fun inode => ⟨inode, 0, flags⟩)), fs)
  | .remove path =>
    let (result, fs) := fs.remove p.cur (Root.splitParent path).2
    (.inr (.removed result), fs)

/-- The next method of an inode. -/
def advance (p : Pending) (fs : Ramfs) : Progress × Ramfs :=
  match p.todo with
  | [] => p.act fs
  | comp :: todo =>
    if p.checked then
      match fs.lookup p.cur comp with
      | some next => (arrive p.purpose p.start next todo, fs)
      | none => (p.fail .notFound, fs)
    else if fs.ftype p.cur ≠ .directory then (p.fail .notADirectory, fs)
    else (.inl { p with checked := true }, fs)

end Pending

/-! ## Threads -/

/-- A ramfs, what each thread is doing, and the number of steps so far. -/
structure System (Thread : Type) where
  fs : Ramfs
  running : Thread → Option Pending
  clock : ℕ

/-- What is seen of a step: the call it completes, if it does. -/
abbrev Seen := Option (Completed PathCall Answer)

namespace System

variable {Thread : Type} [DecidableEq Thread]

def new (fs : Ramfs) : System Thread := ⟨fs, fun _ => none, 0⟩

/-- What is seen of a call that gets this far. -/
def seen (s : System Thread) (call : PathCall) (start : ℕ) : Progress → Seen
  | .inl _ => none
  | .inr answer => some { call, answer, start, stop := s.clock }

/-- The system behind a step of a thread. -/
def after (s : System Thread) (thread : Thread) (progress : Progress) (fs : Ramfs) :
    System Thread where
  fs := fs
  running := Function.update s.running thread progress.getLeft?
  clock := s.clock + 1

end System

/-- A step of a system, where methods are called only if `guard` allows it. -/
inductive Step {Thread : Type} [DecidableEq Thread] (guard : Pending → Ramfs → Prop)
    (s : System Thread) : Seen → System Thread → Prop
  | begin {thread : Thread} (hidle : s.running thread = none) (call : PathCall) :
      Step guard s (s.seen call s.clock (begin call s.clock))
        (s.after thread (begin call s.clock) s.fs)
  | advance {thread : Thread} {p : Pending} (hrunning : s.running thread = some p)
      (hguard : guard p s.fs) :
      Step guard s (s.seen p.purpose.call p.start (p.advance s.fs).1)
        (s.after thread (p.advance s.fs).1 (p.advance s.fs).2)

/-! ## Schedules -/

inductive Move (Thread : Type) where
  | begin (thread : Thread) (call : PathCall)
  | advance (thread : Thread)

section Schedules

variable {Thread : Type} [DecidableEq Thread] (guard : Pending → Ramfs → Prop)
  [∀ p fs, Decidable (guard p fs)]

/-- The run of a schedule, if its moves are possible. -/
def play (s : System Thread) : List (Move Thread) → Option (List Seen × System Thread)
  | [] => some ([], s)
  | .begin thread call :: moves =>
    match s.running thread with
    | some _ => none
    | none =>
      (play (s.after thread (begin call s.clock) s.fs) moves).map fun (labels, last) =>
        (s.seen call s.clock (begin call s.clock) :: labels, last)
  | .advance thread :: moves =>
    match s.running thread with
    | none => none
    | some p =>
      if guard p s.fs then
        (play (s.after thread (p.advance s.fs).1 (p.advance s.fs).2) moves).map
          fun (labels, last) =>
            (s.seen p.purpose.call p.start (p.advance s.fs).1 :: labels, last)
      else none

variable {guard}

/-- A schedule that can be played is a run. -/
theorem run_of_play {moves : List (Move Thread)} {start s last : System Thread}
    {before labels : List Seen} (run : Run (Step guard) start before s)
    (hplay : play guard s moves = some (labels, last)) :
    Run (Step guard) start (before ++ labels) last := by
  induction moves generalizing s before labels with
  | nil =>
    cases hplay
    rwa [List.append_nil]
  | cons move moves ih =>
    cases move with
    | begin thread call =>
      rw [play] at hplay
      split at hplay
      · cases hplay
      · rename_i hidle
        obtain ⟨⟨labels', last'⟩, hrest, heq⟩ := Option.map_eq_some_iff.mp hplay
        cases heq
        rw [List.append_cons]
        exact ih (run.snoc (.begin hidle call)) hrest
    | advance thread =>
      rw [play] at hplay
      split at hplay
      · cases hplay
      · rename_i p hrunning
        split at hplay
        · rename_i hguard
          obtain ⟨⟨labels', last'⟩, hrest, heq⟩ := Option.map_eq_some_iff.mp hplay
          cases heq
          rw [List.append_cons]
          exact ih (run.snoc (.advance hrunning hguard)) hrest
        · cases hplay

end Schedules

end Hyperion.Fs.Concurrent
