import Mathlib.Logic.Function.Basic

/-!
# The loader (`Loader.hh`, `Loader.cc`)

`startAll` initializes the services of the configuration, each one after the applications it depends
on, and starts what has been initialized. The loader waits for `init`, whatever the thread it is
called in; so the threads are not modelled. An application is named by what it provides.
-/

namespace Loader

/-- `ApplicationState` -/
inductive AppState
  | registered | initializing | initialized | started
  deriving DecidableEq, Repr

structure Application (α : Type) where
  provides : α
  dependsOn : List α
  deriving DecidableEq, Repr

/-- The states in `apps`, and the calls of `init` so far. -/
structure LoaderImpl (α : Type) where
  state : α → AppState
  inits : List α

/-- How a call of `initializeService` ends. -/
inductive Outcome
  /-- It returns the application. -/
  | info
  | null
  /-- `LOG(FATAL)` with `Cyclic dependencies detected` -/
  | cyclic
  | outOfFuel
  deriving DecidableEq, Repr

variable {α : Type} [DecidableEq α]

/-- `apps.find`; of the applications that provide the same, the first one was inserted. -/
def find (registry : List (Application α)) (serviceId : α) : Option (Application α) :=
  registry.find? fun app => app.provides = serviceId

namespace LoaderImpl

def setState (s : LoaderImpl α) (serviceId : α) (state : AppState) : LoaderImpl α :=
  { s with state := Function.update s.state serviceId state }

/-- The call of `init`, after which the application is initialized. -/
def initApp (s : LoaderImpl α) (serviceId : α) : LoaderImpl α :=
  { s with inits := s.inits ++ [serviceId] }.setState serviceId .initialized

end LoaderImpl

/-- The loop over the dependencies of an application. -/
def dependencies (call : LoaderImpl α → α → Outcome × LoaderImpl α) (s : LoaderImpl α) :
    List α → Outcome × LoaderImpl α
  | [] => (.info, s)
  | dependsOn :: rest =>
    match call s dependsOn with
    | (.info, s) =>
      if s.state dependsOn = .initializing then (.cyclic, s) else dependencies call s rest
    | r => r

/-- `initialize` of `LoaderImpl` -/
def initializeService (registry : List (Application α)) :
    Nat → LoaderImpl α → α → Outcome × LoaderImpl α
  | 0, s, _ => (.outOfFuel, s)
  | fuel + 1, s, serviceId =>
    match find registry serviceId with
    | none => (.null, s)
    | some app =>
      if s.state serviceId ≠ .registered then (.info, s)
      else
        match dependencies (initializeService registry fuel) (s.setState serviceId .initializing)
          app.dependsOn with
        | (.info, s) => (.info, s.initApp serviceId)
        | r => r

/-- The loop over the services; what the calls return is not used. -/
def initializeAll (registry : List (Application α)) (fuel : Nat) (s : LoaderImpl α) :
    List α → Outcome × LoaderImpl α
  | [] => (.info, s)
  | serviceName :: rest =>
    match initializeService registry fuel s serviceName with
    | (.info, s) => initializeAll registry fuel s rest
    | (.null, s) => initializeAll registry fuel s rest
    | r => r

/-- The loop that starts the applications. -/
def LoaderImpl.startApps (s : LoaderImpl α) : LoaderImpl α :=
  { s with state := fun a => if s.state a = .initialized then .started else s.state a }

def init : LoaderImpl α := ⟨fun _ => .registered, []⟩

/-- `startAll`. One more call than there are applications can be under way. -/
def startAll (registry : List (Application α)) (services : List α) : Outcome × LoaderImpl α :=
  match initializeAll registry (registry.length + 1) init services with
  | (.info, s) => (.info, s.startApps)
  | r => r

end Loader
