import Hyperion.Ipc.Registry

/-!
# The registry is consistent, and `create` can lose a race

`by_name` and `by_id` are kept inverse to each other because `register` inserts into
both or into neither, and only when both keys are free (`linked_register`).  For the
same reason nothing is ever rebound: `Grows` says that the registry, the store and the
number of ports only grow.

`create` ignores the answer of `register`.  A port whose registration was refused is
returned all the same; its name or its identifier belongs to another port and always
will (`Lost`), so that nobody else can get at it.
-/

namespace Hyperion.Ipc

open Hyperion.Lib

/-! ## The two maps -/

namespace Ports

/-- The maps are inverse to each other, and what is registered has been built. -/
structure Linked (s : Ports) : Prop where
  keyed : ∀ id ref, s.registry.byId.get? id = some ref → (s.port ref).id = id
  named : ∀ name id, s.registry.byName.get? name = some id ↔
    ∃ ref, s.registry.byId.get? id = some ref ∧ (s.port ref).name = name
  built : ∀ id ref, s.registry.byId.get? id = some ref → ref < s.next

/-- No port is changed, and no name or identifier is rebound. -/
structure Grows (s s' : Ports) : Prop where
  port_eq : ∀ ref < s.next, s'.port ref = s.port ref
  next_le : s.next ≤ s'.next
  byId : ∀ id ref, s.registry.byId.get? id = some ref → s'.registry.byId.get? id = some ref
  byName : ∀ name id, s.registry.byName.get? name = some id →
    s'.registry.byName.get? name = some id

variable {s s' : Ports}

variable {ref : PortRef}

theorem free_iff : s.free ref = true ↔
    s.registry.byId.get? (s.port ref).id = none ∧
      s.registry.byName.get? (s.port ref).name = none := by
  simp [free]

theorem linked_new : Ports.new.Linked where
  keyed := by simp [Ports.new, Registry.new, OrdMap.empty, OrdMap.get?]
  named := by simp [Ports.new, Registry.new, OrdMap.empty, OrdMap.get?]
  built := by simp [Ports.new, Registry.new, OrdMap.empty, OrdMap.get?]

/-- Under inverse maps `lookup` finds exactly the registered ports, by their names. -/
theorem Linked.lookup_eq_some (linked : s.Linked) {name : String} :
    s.lookup name = some ref ↔ s.get (s.port ref).id = some ref ∧ (s.port ref).name = name := by
  unfold lookup get
  rw [Option.bind_eq_some_iff]
  constructor
  · rintro ⟨id, hname, hid⟩
    obtain ⟨other, hother, hnamed⟩ := (linked.named name id).mp hname
    obtain rfl : other = ref := Option.some.inj (hother.symm.trans hid)
    rw [linked.keyed id other hid]
    exact ⟨hid, hnamed⟩
  · rintro ⟨hid, hnamed⟩
    exact ⟨_, (linked.named name _).mpr ⟨ref, hid, hnamed⟩, hid⟩

theorem lookup_of_grows (grows : s.Grows s') {name : String} (hlookup : s.lookup name = some ref) :
    s'.lookup name = some ref := by
  obtain ⟨id, hname, hid⟩ := Option.bind_eq_some_iff.mp hlookup
  exact Option.bind_eq_some_iff.mpr ⟨id, grows.byName name id hname, grows.byId id ref hid⟩

theorem Grows.refl (s : Ports) : s.Grows s :=
  ⟨fun _ _ => rfl, le_refl _, fun _ _ h => h, fun _ _ h => h⟩

theorem Grows.trans {s'' : Ports} (first : s.Grows s') (second : s'.Grows s'') : s.Grows s'' where
  port_eq := fun ref hlt =>
    (second.port_eq ref (hlt.trans_le first.next_le)).trans (first.port_eq ref hlt)
  next_le := first.next_le.trans second.next_le
  byId := fun id ref h => second.byId id ref (first.byId id ref h)
  byName := fun name id h => second.byName name id (first.byName name id h)

/-! ## Building a port -/

theorem port_newPort_of_lt (hlt : ref < s.next) (name : String) :
    (s.newPort name).2.port ref = s.port ref :=
  Function.update_of_ne hlt.ne ..

theorem grows_newPort (s : Ports) (name : String) : s.Grows (s.newPort name).2 where
  port_eq := fun _ hlt => port_newPort_of_lt hlt name
  next_le := Nat.le_succ _
  byId := fun _ _ h => h
  byName := fun _ _ h => h

theorem linked_newPort (linked : s.Linked) (name : String) : (s.newPort name).2.Linked where
  keyed := by
    intro id ref hid
    rw [port_newPort_of_lt (linked.built id ref hid)]
    exact linked.keyed id ref hid
  named := by
    intro other id
    refine (linked.named other id).trans (exists_congr fun ref => and_congr_right fun hid => ?_)
    rw [port_newPort_of_lt (linked.built id ref hid)]
  built := fun id ref hid => (linked.built id ref hid).trans (Nat.lt_succ_self _)

/-! ## Registering a port -/

/-- The registry with a port that was free. -/
def registered (s : Ports) (ref : PortRef) : Ports :=
  { s with
    registry.byName := s.registry.byName.insert (s.port ref).name (s.port ref).id
    registry.byId := s.registry.byId.insert (s.port ref).id ref }

theorem register_of_free (hfree : s.free ref = true) :
    s.register ref = (true, s.registered ref) :=
  if_pos hfree

theorem register_of_not_free (hfree : ¬s.free ref = true) :
    s.register ref = (false, s) :=
  if_neg hfree

theorem get?_byId_registered (s : Ports) (ref : PortRef) (id : UInt64) :
    (s.registered ref).registry.byId.get? id =
      if id = (s.port ref).id then some ref else s.registry.byId.get? id :=
  OrdMap.get?_insert ..

theorem get?_byName_registered (s : Ports) (ref : PortRef) (name : String) :
    (s.registered ref).registry.byName.get? name =
      if name = (s.port ref).name then some (s.port ref).id else s.registry.byName.get? name :=
  OrdMap.get?_insert ..

theorem grows_registered (hfree : s.free ref = true) :
    s.Grows (s.registered ref) where
  port_eq := fun _ _ => rfl
  next_le := le_refl _
  byId := by
    intro id other hid
    have hne : id ≠ (s.port ref).id := by
      rintro rfl
      simp [(free_iff.mp hfree).1] at hid
    rw [get?_byId_registered, if_neg hne, hid]
  byName := by
    intro name id hname
    have hne : name ≠ (s.port ref).name := by
      rintro rfl
      simp [(free_iff.mp hfree).2] at hname
    rw [get?_byName_registered, if_neg hne, hname]

theorem linked_registered (linked : s.Linked) (hfree : s.free ref = true) (hbuilt : ref < s.next) :
    (s.registered ref).Linked where
  keyed := by
    intro id other hid
    rw [get?_byId_registered] at hid
    split at hid
    · rename_i heq
      cases hid
      exact heq.symm
    · exact linked.keyed id other hid
  named := by
    -- the new identifier has the new name, and the others have theirs, which is another one
    intro name id
    rw [get?_byName_registered, get?_byId_registered]
    by_cases hid : id = (s.port ref).id
    · have hunbound : s.registry.byName.get? name ≠ some id := by
        intro hname
        obtain ⟨other, hother, _⟩ := (linked.named name id).mp hname
        rw [hid, (free_iff.mp hfree).1] at hother
        cases hother
      by_cases hname : name = (s.port ref).name
      · simp [hid, hname, registered]
      · simpa [hid, hname, registered, eq_comm] using hid ▸ hunbound
    · by_cases hname : name = (s.port ref).name
      · rw [if_pos hname, if_neg hid]
        have hfresh := linked.named name id
        rw [hname, (free_iff.mp hfree).2] at hfresh
        simpa [registered, hname, Ne.symm hid] using hfresh.not.mp (by simp)
      · rw [if_neg hname, if_neg hid]
        exact linked.named name id
  built := by
    intro id other hid
    rw [get?_byId_registered] at hid
    split at hid
    · cases hid
      exact hbuilt
    · exact linked.built id other hid

theorem grows_register (s : Ports) (ref : PortRef) : s.Grows (s.register ref).2 := by
  by_cases hfree : s.free ref = true
  · rw [register_of_free hfree]
    exact grows_registered hfree
  · rw [register_of_not_free hfree]
    exact Grows.refl s

theorem linked_register (linked : s.Linked) (hbuilt : ref < s.next) :
    (s.register ref).2.Linked := by
  by_cases hfree : s.free ref = true
  · rw [register_of_free hfree]
    exact linked_registered linked hfree hbuilt
  · rw [register_of_not_free hfree]
    exact linked

end Ports

/-! ## Threads -/

section Threads

variable {Thread : Type}

/-- The registry is consistent, and a port that `create` is about to register is held
by that call alone. -/
structure Sound (s : PortSystem Thread) : Prop where
  linked : s.ports.Linked
  made_built : ∀ thread ref, s.creating thread = some (.made ref) → ref < s.ports.next
  made_unregistered : ∀ thread ref, s.creating thread = some (.made ref) →
    ∀ id, s.ports.registry.byId.get? id ≠ some ref
  made_inj : ∀ first second ref, s.creating first = some (.made ref) →
    s.creating second = some (.made ref) → first = second

theorem sound_new : Sound (PortSystem.new : PortSystem Thread) where
  linked := Ports.linked_new
  made_built := fun _ _ hmade => absurd hmade.symm (Option.some_ne_none _)
  made_unregistered := fun _ _ hmade => absurd hmade.symm (Option.some_ne_none _)
  made_inj := fun _ _ _ hmade => absurd hmade.symm (Option.some_ne_none _)

variable {s s' : PortSystem Thread} {event : RegistryEvent Thread}

theorem Sound.newPort (sound : Sound s) (name : String) :
    Sound { s with ports := (s.ports.newPort name).2 } where
  linked := Ports.linked_newPort sound.linked name
  made_built := fun thread ref hmade =>
    (sound.made_built thread ref hmade).trans (Nat.lt_succ_self _)
  made_unregistered := sound.made_unregistered
  made_inj := sound.made_inj

/-- A port that no call of `create` is about to register may be registered. -/
theorem Sound.register (sound : Sound s) {ref : PortRef} (hbuilt : ref < s.ports.next)
    (hshared : ∀ thread, s.creating thread ≠ some (.made ref)) :
    Sound { s with ports := (s.ports.register ref).2 } := by
  have hlinked := Ports.linked_register sound.linked hbuilt
  by_cases hfree : s.ports.free ref = true
  · rw [Ports.register_of_free hfree] at hlinked ⊢
    refine ⟨hlinked, sound.made_built, ?_, sound.made_inj⟩
    intro thread other hmade id hid
    change (s.ports.registered ref).registry.byId.get? id = some other at hid
    rw [Ports.get?_byId_registered] at hid
    split at hid
    · cases hid
      exact hshared thread hmade
    · exact sound.made_unregistered thread other hmade id hid
  · rw [Ports.register_of_not_free hfree]
    exact sound

variable [DecidableEq Thread]

theorem creating_goto (s : PortSystem Thread) (thread other : Thread) (point : Option Creating) :
    (s.goto thread point).creating other = if other = thread then point else s.creating other :=
  Function.update_apply ..

/-- A thread that stops being about to register a port, or never was, changes nothing. -/
theorem Sound.goto (sound : Sound s) (thread : Thread) {point : Option Creating}
    (hpoint : ∀ ref, point ≠ some (.made ref)) : Sound (s.goto thread point) := by
  have hold : ∀ other ref, (s.goto thread point).creating other = some (.made ref) →
      s.creating other = some (.made ref) := by
    intro other ref hmade
    rw [creating_goto] at hmade
    split at hmade
    · exact absurd hmade (hpoint ref)
    · exact hmade
  exact
    { linked := sound.linked
      made_built := fun other ref hmade => sound.made_built other ref (hold other ref hmade)
      made_unregistered := fun other ref hmade =>
        sound.made_unregistered other ref (hold other ref hmade)
      made_inj := fun first second ref hfirst hsecond =>
        sound.made_inj first second ref (hold first ref hfirst) (hold second ref hsecond) }

/-- The port that was just built is nobody else's. -/
theorem Sound.make (sound : Sound s) (thread : Thread) (name : String) :
    Sound ({ s with ports := (s.ports.newPort name).2 }.goto thread
      (some (.made (s.ports.newPort name).1))) := by
  have hnew := sound.newPort name
  have hfresh : ∀ other, s.creating other ≠ some (.made (s.ports.newPort name).1) :=
    fun other hmade => (lt_irrefl _ (sound.made_built other _ hmade)).elim
  constructor
  case linked => exact hnew.linked
  case made_built =>
    intro other ref hmade
    rw [creating_goto] at hmade
    split at hmade
    · cases hmade
      exact Nat.lt_succ_self _
    · exact hnew.made_built other ref hmade
  case made_unregistered =>
    intro other ref hmade id hid
    rw [creating_goto] at hmade
    split at hmade
    · cases hmade
      exact (lt_irrefl _ (sound.linked.built id _ hid)).elim
    · exact hnew.made_unregistered other ref hmade id hid
  case made_inj =>
    intro first second ref hfirst hsecond
    rw [creating_goto] at hfirst hsecond
    split at hfirst <;> split at hsecond
    · simp_all
    · cases hfirst
      exact absurd hsecond (hfresh second)
    · cases hsecond
      exact absurd hfirst (hfresh first)
    · exact sound.made_inj first second ref hfirst hsecond

/-- The end of `create`: the thread registers its port and leaves. -/
theorem Sound.createRegister (sound : Sound s) {thread : Thread} {ref : PortRef}
    (hpoint : s.creating thread = some (.made ref)) :
    Sound ({ s with ports := (s.ports.register ref).2 }.goto thread none) := by
  have hleft : Sound (s.goto thread none) :=
    sound.goto thread fun _ => (Option.some_ne_none _).symm
  refine Sound.register hleft (sound.made_built thread ref hpoint) ?_
  intro other hmade
  rw [creating_goto] at hmade
  split at hmade
  · cases hmade
  · rename_i hne
    exact hne (sound.made_inj other thread ref hmade hpoint)

theorem step_sound (s : PortSystem Thread) (event : RegistryEvent Thread) (s' : PortSystem Thread)
    (sound : Sound s) (step : RegistryStep s event s') : Sound s' := by
  cases step with
  | createFound _ _ => exact sound
  | createMissed _ _ => exact sound.goto _ fun ref heq => by cases heq
  | createNew hpoint => exact sound.make _ _
  | createRegister hpoint => exact sound.createRegister hpoint
  | newPort name => exact sound.newPort name
  | register hbuilt hshared =>
    exact sound.register hbuilt fun thread hmade => hshared ⟨thread, hmade⟩
  | get id => exact sound
  | lookup name => exact sound

theorem step_grows (step : RegistryStep s event s') : s.ports.Grows s'.ports := by
  cases step with
  | createNew | newPort => exact Ports.grows_newPort _ _
  | createRegister _ | register _ _ => exact Ports.grows_register _ _
  | createFound _ _ | createMissed _ _ | get | lookup => exact Ports.Grows.refl _

theorem run_sound {events : List (RegistryEvent Thread)}
    (run : Run RegistryStep PortSystem.new events s) : Sound s :=
  run.invariant Sound sound_new step_sound

theorem run_grows {events : List (RegistryEvent Thread)} (run : Run RegistryStep s events s') :
    s.ports.Grows s'.ports :=
  run.invariant (fun state => s.ports.Grows state.ports) (Ports.Grows.refl _)
    fun _ _ _ grows step => grows.trans (step_grows step)

end Threads

/-- **The registry is consistent in every reachable state.**  For every interleaving of
`create`, `register`, `get` and `lookup`: a name maps to an identifier exactly when the
port stored under the identifier has that identifier and that name, so `lookup` finds
every registered name; and what a name or an identifier resolves to, it resolves to for
ever. -/
theorem registry_consistent {Thread : Type} [DecidableEq Thread]
    (events : List (RegistryEvent Thread)) (s : PortSystem Thread)
    (run : Run RegistryStep PortSystem.new events s) :
    (∀ name id, s.ports.registry.byName.get? name = some id ↔
      ∃ ref, s.ports.registry.byId.get? id = some ref ∧ (s.ports.port ref).id = id ∧
        (s.ports.port ref).name = name) ∧
    (∀ name id, s.ports.registry.byName.get? name = some id →
      ∃ ref, s.ports.lookup name = some ref ∧ s.ports.get id = some ref ∧
        (s.ports.port ref).name = name) ∧
    ∀ later last, Run RegistryStep s later last →
      (∀ name ref, s.ports.lookup name = some ref → last.ports.lookup name = some ref) ∧
      ∀ id ref, s.ports.get id = some ref → last.ports.get id = some ref := by
  have linked := (run_sound run).linked
  refine ⟨?_, ?_, ?_⟩
  · intro name id
    rw [linked.named]
    refine exists_congr fun ref => and_congr_right fun hid => ?_
    simp [linked.keyed id ref hid]
  · intro name id hname
    obtain ⟨ref, hid, hnamed⟩ := (linked.named name id).mp hname
    refine ⟨ref, linked.lookup_eq_some.mpr ⟨?_, hnamed⟩, hid, hnamed⟩
    rw [linked.keyed id ref hid]
    exact hid
  · intro later last hlater
    have grows := run_grows hlater
    exact ⟨fun _ _ hlookup => Ports.lookup_of_grows grows hlookup, grows.byId⟩

/-- A port is created, and a second port of the same name is refused. -/
theorem registry_consistent_refused :
    ∃ (events : List (RegistryEvent Bool)) (s : PortSystem Bool),
      Run RegistryStep PortSystem.new events s ∧ s.ports.lookup "log" = some 0 ∧
        s.ports.get 1 = some 0 ∧ s.ports.get 2 = none ∧
        ∃ ref, s.ports.registry.byId.get? 1 = some ref ∧ (s.ports.port ref).id = 1 ∧
          (s.ports.port ref).name = "log" := by
  let s₀ : PortSystem Bool := PortSystem.new
  let s₁ := s₀.goto true (some (.missed "log"))
  let s₂ := { s₁ with ports := (s₁.ports.newPort "log").2 }.goto true (some (.made 0))
  let s₃ := { s₂ with ports := (s₂.ports.register 0).2 }.goto true none
  let s₄ : PortSystem Bool := { s₃ with ports := (s₃.ports.newPort "log").2 }
  have hmissed : RegistryStep s₀ (.createLookup true "log" none) s₁ :=
    .createMissed rfl rfl
  have hnew : RegistryStep s₁ (.createNew true "log" 0) s₂ := .createNew rfl
  have hregister : RegistryStep s₂ (.createRegister true "log" 0) s₃ :=
    @RegistryStep.createRegister Bool _ s₂ true 0 rfl
  have hsecond : RegistryStep s₃ (.newPort "log" 1) s₄ := .newPort s₃ "log"
  have hshared : ¬s₄.Private 1 := by
    rintro ⟨thread, hmade⟩
    cases thread <;> cases hmade
  have hrefused : RegistryStep s₄ (.register 1 _) _ := .register (by decide +kernel) hshared
  have hrun :=
    ((((Run.nil.snoc hmissed).snoc hnew).snoc hregister).snoc hsecond).snoc hrefused
  refine ⟨_, _, hrun, rfl, rfl, rfl, ?_⟩
  exact ((registry_consistent _ _ hrun).1 "log" 1).mp rfl

/-! ## Racing calls of `create` -/

section Races

variable {Thread : Type}

/-- The name a call of `create` was given, with the port it returns. -/
def RegistryEvent.returned : RegistryEvent Thread → Option (String × PortRef)
  | .createLookup _ name (some ref) => some (name, ref)
  | .createRegister _ name ref => some (name, ref)
  | _ => none

/-- Whatever `create` returned for a name is the port that the name and its identifier
resolve to. -/
def SamePort (events : List (RegistryEvent Thread)) (s : Ports) : Prop :=
  ∀ name ref, (name, ref) ∈ events.filterMap RegistryEvent.returned →
    s.lookup name = some ref ∧ s.get (s.port ref).id = some ref

/-- When a call of `create` comes to its `register`, no other registration has taken
the name or the identifier. -/
def Unraced (s : PortSystem Thread) : RegistryEvent Thread → Prop
  | .createRegister _ _ ref => s.ports.free ref = true
  | _ => True

/-- The name or the identifier of this port belongs to another port. -/
def Ports.Lost (s : Ports) (ref : PortRef) : Prop :=
  ∃ other, other ≠ ref ∧
    (s.lookup (s.port ref).name = some other ∨ s.get (s.port ref).id = some other)

variable {s s' : PortSystem Thread} {event : RegistryEvent Thread}
  {events : List (RegistryEvent Thread)}

theorem mem_returned_snoc {name : String} {ref : PortRef} :
    (name, ref) ∈ (events ++ [event]).filterMap RegistryEvent.returned ↔
      (name, ref) ∈ events.filterMap RegistryEvent.returned ∨
        event.returned = some (name, ref) := by
  rw [List.filterMap_append, List.mem_append]
  cases hreturned : event.returned with
  | none => simp [hreturned]
  | some pair => simp [hreturned, eq_comm]

theorem lost_of_grows {p p' : Ports} (grows : p.Grows p') {ref : PortRef} (hbuilt : ref < p.next)
    (lost : p.Lost ref) : p'.Lost ref := by
  obtain ⟨other, hne, hother⟩ := lost
  refine ⟨other, hne, ?_⟩
  rw [grows.port_eq ref hbuilt]
  exact hother.imp (Ports.lookup_of_grows grows) (grows.byId _ _)

/-- A port that `register` refuses is lost. -/
theorem lost_of_not_free (sound : Sound s) {thread : Thread} {ref : PortRef}
    (hpoint : s.creating thread = some (.made ref)) (hfree : ¬s.ports.free ref = true) :
    s.ports.Lost ref := by
  have hunregistered := sound.made_unregistered thread ref hpoint
  cases hid : s.ports.registry.byId.get? (s.ports.port ref).id with
  | some other =>
    refine ⟨other, ?_, .inr hid⟩
    rintro rfl
    exact hunregistered _ hid
  | none =>
    obtain ⟨id, hname⟩ :=
      Option.ne_none_iff_exists'.mp fun hname => hfree (Ports.free_iff.mpr ⟨hid, hname⟩)
    obtain ⟨other, hother, hnamed⟩ := (sound.linked.named _ id).mp hname
    refine ⟨other, ?_, .inl (sound.linked.lookup_eq_some.mpr ⟨?_, hnamed⟩)⟩
    · rintro rfl
      exact hunregistered _ hother
    · rw [sound.linked.keyed id other hother]
      exact hother

/-- One of the ports returned so far is lost. -/
def SomeLost (events : List (RegistryEvent Thread)) (s : Ports) : Prop :=
  ∃ ref, (∃ name, (name, ref) ∈ events.filterMap RegistryEvent.returned ∧
    (s.port ref).name = name) ∧ ref < s.next ∧ s.Lost ref

theorem not_samePort_of_someLost {p : Ports} (lost : SomeLost events p) : ¬SamePort events p := by
  obtain ⟨ref, ⟨name, hmem, rfl⟩, _, other, hne, hother⟩ := lost
  intro same
  obtain ⟨hlookup, hget⟩ := same _ ref hmem
  rcases hother with hother | hother
  · exact hne (Option.some.inj (hother.symm.trans hlookup))
  · exact hne (Option.some.inj (hother.symm.trans hget))

variable [DecidableEq Thread]

/-- What a step that is not raced returns is registered. -/
theorem registered_of_returned (sound : Sound s) (step : RegistryStep s event s')
    (hunraced : Unraced s event) {name : String} {ref : PortRef}
    (hreturned : event.returned = some (name, ref)) :
    s'.ports.get (s'.ports.port ref).id = some ref ∧ (s'.ports.port ref).name = name := by
  cases step with
  | createFound _ hfound =>
    cases hreturned
    exact sound.linked.lookup_eq_some.mp hfound
  | createRegister _ =>
    cases hreturned
    have hregister := Ports.register_of_free hunraced
    simp only [PortSystem.goto, hregister]
    refine ⟨?_, rfl⟩
    unfold Ports.get
    rw [Ports.get?_byId_registered]
    exact if_pos rfl
  | createMissed _ _ | createNew _ | newPort _ | register _ _ | get _ | lookup _ => cases hreturned

theorem samePort_snoc (sound : Sound s) (same : SamePort events s.ports)
    (step : RegistryStep s event s') (hunraced : Unraced s event) :
    SamePort (events ++ [event]) s'.ports := by
  have sound' := step_sound s event s' sound step
  have grows := step_grows step
  intro name ref hmem
  rcases mem_returned_snoc.mp hmem with hearlier | hreturned
  · obtain ⟨hlookup, hget⟩ := same name ref hearlier
    rw [grows.port_eq ref (sound.linked.built _ _ hget)]
    exact ⟨Ports.lookup_of_grows grows hlookup, grows.byId _ _ hget⟩
  · have hregistered := registered_of_returned sound step hunraced hreturned
    exact ⟨sound'.linked.lookup_eq_some.mpr hregistered, hregistered.1⟩

theorem someLost_snoc (lost : SomeLost events s.ports) (step : RegistryStep s event s') :
    SomeLost (events ++ [event]) s'.ports := by
  obtain ⟨ref, ⟨name, hmem, hnamed⟩, hbuilt, hlost⟩ := lost
  have grows := step_grows step
  refine ⟨ref, ⟨name, mem_returned_snoc.mpr (.inl hmem), ?_⟩, hbuilt.trans_le grows.next_le,
    lost_of_grows grows hbuilt hlost⟩
  rw [grows.port_eq ref hbuilt]
  exact hnamed

theorem someLost_of_raced (sound : Sound s) (step : RegistryStep s event s')
    (hraced : ¬Unraced s event) : SomeLost (events ++ [event]) s'.ports := by
  cases step with
  | @createRegister thread ref hpoint =>
    have hbuilt := sound.made_built thread ref hpoint
    have hlost := lost_of_not_free sound hpoint hraced
    rw [Ports.register_of_not_free hraced]
    exact ⟨ref, ⟨_, mem_returned_snoc.mpr (.inr rfl), rfl⟩, hbuilt, hlost⟩
  | createFound _ _ | createMissed _ _ | createNew _ | newPort _ | register _ _ | get _
  | lookup _ => exact absurd trivial hraced

/-- A run either was never raced or has lost a port. -/
theorem unraced_or_someLost (run : Run RegistryStep PortSystem.new events s) :
    (Run (fun s event s' => RegistryStep s event s' ∧ Unraced s event) PortSystem.new events s ∧
      SamePort events s.ports) ∨ SomeLost events s.ports := by
  induction run with
  | nil => exact .inl ⟨.nil, fun _ _ hmem => absurd hmem List.not_mem_nil⟩
  | @snoc events event s s' run step ih =>
    have sound := run_sound run
    rcases ih with ⟨unraced, same⟩ | lost
    · by_cases hunraced : Unraced s event
      · exact .inl ⟨unraced.snoc ⟨step, hunraced⟩, samePort_snoc sound same step hunraced⟩
      · exact .inr (someLost_of_raced sound step hunraced)
    · exact .inr (someLost_snoc lost step)

end Races

/-- **`create` returns one port for a name unless it is raced.**  In a run, every port
that a call of `create` has returned is the one that its name and its identifier
resolve to, exactly when each call that came to its `register` found the name and the
identifier still free. -/
theorem create_samePort_iff {Thread : Type} [DecidableEq Thread]
    (events : List (RegistryEvent Thread)) (s : PortSystem Thread)
    (run : Run RegistryStep PortSystem.new events s) :
    SamePort events s.ports ↔
      Run (fun s event s' => RegistryStep s event s' ∧ Unraced s event)
        PortSystem.new events s := by
  constructor
  · intro same
    rcases unraced_or_someLost run with ⟨unraced, _⟩ | lost
    · exact unraced
    · exact absurd same (not_samePort_of_someLost lost)
  · intro unraced
    have hboth : Sound s ∧ SamePort events s.ports := by
      refine unraced.history_invariant (fun events s => Sound s ∧ SamePort events s.ports)
        ⟨sound_new, fun _ _ hmem => absurd hmem List.not_mem_nil⟩ ?_
      rintro events s event s' ⟨sound, same⟩ ⟨step, hunraced⟩
      exact ⟨step_sound s event s' sound step, samePort_snoc sound same step hunraced⟩
    exact hboth.2

/-- Two calls of `create`, the second after the first has returned. -/
theorem create_samePort_iff_sequential :
    ∃ (events : List (RegistryEvent Bool)) (s : PortSystem Bool),
      Run RegistryStep PortSystem.new events s ∧
        events.filterMap RegistryEvent.returned = [("log", 0), ("log", 0)] ∧
        SamePort events s.ports := by
  let s₀ : PortSystem Bool := PortSystem.new
  let s₁ := s₀.goto true (some (.missed "log"))
  let s₂ := { s₁ with ports := (s₁.ports.newPort "log").2 }.goto true (some (.made 0))
  let s₃ := { s₂ with ports := (s₂.ports.register 0).2 }.goto true none
  have hmissed : RegistryStep s₀ (.createLookup true "log" none) s₁ :=
    .createMissed rfl rfl
  have hnew : RegistryStep s₁ (.createNew true "log" 0) s₂ := .createNew rfl
  have hregister : RegistryStep s₂ (.createRegister true "log" 0) s₃ :=
    @RegistryStep.createRegister Bool _ s₂ true 0 rfl
  have hfound : RegistryStep s₃ (.createLookup false "log" (some 0)) s₃ :=
    .createFound rfl rfl
  have hfree : s₂.ports.free 0 = true := rfl
  have hrun := (((Run.nil.snoc hmissed).snoc hnew).snoc hregister).snoc hfound
  refine ⟨_, _, hrun, rfl, (create_samePort_iff _ _ hrun).mpr ?_⟩
  exact (((Run.nil.snoc ⟨hmissed, trivial⟩).snoc ⟨hnew, trivial⟩).snoc ⟨hregister, hfree⟩).snoc
    ⟨hfound, trivial⟩

/-- Two calls of `create` that both miss the name: the second returns a port that
neither `lookup` nor `get` will ever find. -/
theorem create_raced :
    ∃ (events : List (RegistryEvent Bool)) (s : PortSystem Bool),
      Run RegistryStep PortSystem.new events s ∧
        events.filterMap RegistryEvent.returned = [("log", 0), ("log", 1)] ∧
        s.ports.lookup "log" = some 0 ∧ s.ports.get (s.ports.port 1).id = none ∧
        ¬SamePort events s.ports := by
  let s₀ : PortSystem Bool := PortSystem.new
  let s₁ := s₀.goto true (some (.missed "log"))
  let s₂ := s₁.goto false (some (.missed "log"))
  let s₃ := { s₂ with ports := (s₂.ports.newPort "log").2 }.goto true (some (.made 0))
  let s₄ := { s₃ with ports := (s₃.ports.newPort "log").2 }.goto false (some (.made 1))
  let s₅ := { s₄ with ports := (s₄.ports.register 0).2 }.goto true none
  let s₆ := { s₅ with ports := (s₅.ports.register 1).2 }.goto false none
  have hmissed₁ : RegistryStep s₀ (.createLookup true "log" none) s₁ :=
    .createMissed rfl rfl
  have hmissed₂ : RegistryStep s₁ (.createLookup false "log" none) s₂ :=
    .createMissed rfl rfl
  have hnew₁ : RegistryStep s₂ (.createNew true "log" 0) s₃ := .createNew rfl
  have hnew₂ : RegistryStep s₃ (.createNew false "log" 1) s₄ := .createNew rfl
  have hregister₁ : RegistryStep s₄ (.createRegister true "log" 0) s₅ :=
    @RegistryStep.createRegister Bool _ s₄ true 0 rfl
  have hregister₂ : RegistryStep s₅ (.createRegister false "log" 1) s₆ :=
    @RegistryStep.createRegister Bool _ s₅ false 1 rfl
  have hlookup : s₆.ports.lookup "log" = some 0 := rfl
  refine ⟨_, s₆, (((((Run.nil.snoc hmissed₁).snoc hmissed₂).snoc hnew₁).snoc hnew₂).snoc
    hregister₁).snoc hregister₂, rfl, hlookup, rfl, ?_⟩
  intro same
  have hsecond := (same "log" 1 (by simp [RegistryEvent.returned])).1
  rw [hlookup] at hsecond
  cases hsecond

end Hyperion.Ipc
