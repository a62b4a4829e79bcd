import Hyperion.Ipc.Port
import Hyperion.Lib.OrdMap
import Hyperion.Lib.Word

/-!
# The port registry

The second half of `ipc/port.rs`: ports by identifier and by name.  Ports are shared
through `Arc`, so a port is a `PortRef` into the store of all ports, and two
callers have the same port when they have the same reference.

`register`, `get` and `lookup` hold the registry lock from beginning to end.  `create`
does not: it looks the name up, builds a port and registers it, and other threads may
run in between.  A call of `create` that has not returned is a `Creating`.
-/

namespace Hyperion.Ipc

open Hyperion.Lib

/-- `Arc<Port>`: the place of a port in the store. -/
abbrev PortRef := ℕ

structure Registry where
  byId : OrdMap UInt64 PortRef
  byName : OrdMap String UInt64

/-- `Registry::new`. -/
def Registry.new : Registry := ⟨.empty, .empty⟩

/-- The statics of the module, with the ports built so far, those below `next`. -/
structure Ports where
  port : PortRef → Port
  next : PortRef
  nextPortId : UInt64
  registry : Registry

namespace Ports

/-- The statics before `init`. -/
def new : Ports := ⟨fun _ => Port.new 0 "", 0, 1, Registry.new⟩

/-- `alloc_port_id`: `fetch_add(1)`, which wraps. -/
def allocPortId (s : Ports) : UInt64 × Ports :=
  (s.nextPortId, { s with nextPortId := s.nextPortId + 1 })

/-- `Port::new`. -/
def newPort (s : Ports) (name : String) : PortRef × Ports :=
  let (id, s) := s.allocPortId
  (s.next,
    { s with port := Function.update s.port s.next (Port.new id name), next := s.next + 1 })

/-- The check of `register`: neither the identifier nor the name is taken. -/
def free (s : Ports) (ref : PortRef) : Bool :=
  (s.registry.byId.get? (s.port ref).id).isNone &&
    (s.registry.byName.get? (s.port ref).name).isNone

/-- `register`. -/
def register (s : Ports) (ref : PortRef) : Bool × Ports :=
  if s.free ref then
    (true, { s with
      registry.byName := s.registry.byName.insert (s.port ref).name (s.port ref).id
      registry.byId := s.registry.byId.insert (s.port ref).id ref })
  else (false, s)

/-- `get`. -/
def get (s : Ports) (id : UInt64) : Option PortRef := s.registry.byId.get? id

/-- `lookup`. -/
def lookup (s : Ports) (name : String) : Option PortRef :=
  (s.registry.byName.get? name).bind s.registry.byId.get?

/-- `create`, when nothing interrupts it.  The answer of `register` is ignored. -/
def create (s : Ports) (name : String) : PortRef × Ports :=
  match s.lookup name with
  | some ref => (ref, s)
  | none =>
    let (ref, s) := s.newPort name
    (ref, (s.register ref).2)

/-- `list`. -/
def list (s : Ports) : List (UInt64 × String × ℕ) :=
  s.registry.byId.values.map fun ref =>
    ((s.port ref).id, (s.port ref).name, (s.port ref).pending)

/-- `init`. -/
def init (s : Ports) : Ports := (s.create "kernel").2

end Ports

/-! ## Threads -/

/-- How far a call of `create` has come. -/
inductive Creating where
  /-- `lookup` has not found the name -/
  | missed (name : String)
  /-- the port is built, and `register` is next -/
  | made (ref : PortRef)
  deriving DecidableEq, Repr

structure PortSystem (Thread : Type) where
  ports : Ports
  creating : Thread → Option Creating

inductive RegistryEvent (Thread : Type) where
  /-- the `lookup` of `create`, which returns at once if the name is found -/
  | createLookup (thread : Thread) (name : String) (found : Option PortRef)
  | createNew (thread : Thread) (name : String) (ref : PortRef)
  /-- the `register` of `create`, which then returns the port -/
  | createRegister (thread : Thread) (name : String) (ref : PortRef)
  | newPort (name : String) (ref : PortRef)
  | register (ref : PortRef) (answer : Bool)
  | get (id : UInt64) (answer : Option PortRef)
  | lookup (name : String) (answer : Option PortRef)

namespace PortSystem

variable {Thread : Type} [DecidableEq Thread]

def new : PortSystem Thread := ⟨Ports.new, fun _ => none⟩

/-- The thread is now here in `create`, or has left it. -/
def goto (s : PortSystem Thread) (thread : Thread) (point : Option Creating) : PortSystem Thread :=
  { s with creating := Function.update s.creating thread point }

/-- Some thread is about to register this port, and no one else has it. -/
def Private (s : PortSystem Thread) (ref : PortRef) : Prop :=
  ∃ thread, s.creating thread = some (.made ref)

end PortSystem

/-- One step under the registry lock, or the allocation of a port.  A thread can
register any port it has a reference to. -/
inductive RegistryStep {Thread : Type} [DecidableEq Thread] :
    PortSystem Thread → RegistryEvent Thread → PortSystem Thread → Prop
  | createFound {s : PortSystem Thread} {thread : Thread} {name : String} {ref : PortRef}
      (hidle : s.creating thread = none) (hfound : s.ports.lookup name = some ref) :
      RegistryStep s (.createLookup thread name (some ref)) s
  | createMissed {s : PortSystem Thread} {thread : Thread} {name : String}
      (hidle : s.creating thread = none) (hmissed : s.ports.lookup name = none) :
      RegistryStep s (.createLookup thread name none) (s.goto thread (some (.missed name)))
  | createNew {s : PortSystem Thread} {thread : Thread} {name : String}
      (hpoint : s.creating thread = some (.missed name)) :
      RegistryStep s (.createNew thread name (s.ports.newPort name).1)
        ({ s with ports := (s.ports.newPort name).2 }.goto thread
          (some (.made (s.ports.newPort name).1)))
  | createRegister {s : PortSystem Thread} {thread : Thread} {ref : PortRef}
      (hpoint : s.creating thread = some (.made ref)) :
      RegistryStep s (.createRegister thread (s.ports.port ref).name ref)
        ({ s with ports := (s.ports.register ref).2 }.goto thread none)
  | newPort (s : PortSystem Thread) (name : String) :
      RegistryStep s (.newPort name (s.ports.newPort name).1)
        { s with ports := (s.ports.newPort name).2 }
  | register {s : PortSystem Thread} {ref : PortRef} (hbuilt : ref < s.ports.next)
      (hshared : ¬s.Private ref) :
      RegistryStep s (.register ref (s.ports.register ref).1)
        { s with ports := (s.ports.register ref).2 }
  | get (s : PortSystem Thread) (id : UInt64) : RegistryStep s (.get id (s.ports.get id)) s
  | lookup (s : PortSystem Thread) (name : String) :
      RegistryStep s (.lookup name (s.ports.lookup name)) s

end Hyperion.Ipc
