import Mathlib.Logic.Function.Basic
import Runos.Lib.OrderedSet
import Runos.Lib.Signals
import Runos.Topology.Port

/-!
# Link discovery (`LinkDiscovery.hh`, `LinkDiscovery.cc`)

The database of `LinkDiscovery`: `m_links`, ordered by expiry time alone, and `m_out_edges`, which
holds iterators into it. The signals a call emits are kept with the state, the latest first.
The sending of LLDP packets and the invalidation of the trace tree touch neither and are left out.

Clock values are ticks of the steady clock (nanoseconds), unbounded. `ndebug` says how the program
was built: with `NDEBUG` the operand of an `assert` is not evaluated, and the two
`m_out_edges.erase` calls of `timerEvent` stand inside one. `CHECK` is never skipped.
-/

/-- How a call can fail to return. -/
inductive LinkDiscovery.Fault
  /-- a failed `CHECK` -/
  | check
  /-- a failed `assert` -/
  | assertion
  /-- an iterator to an erased element is used -/
  | undefined
  deriving DecidableEq, Repr

structure DiscoveredLink where
  source : SwitchAndPort
  target : SwitchAndPort
  validThrough : Nat
  deriving DecidableEq, Repr

def DiscoveredLink.ports (l : DiscoveredLink) : PortPair := (l.source, l.target)

/-- The other port of a link at `ap`. -/
def DiscoveredLink.opposite (l : DiscoveredLink) (ap : SwitchAndPort) : SwitchAndPort :=
  if l.source = ap then l.target else l.source

structure LinkDiscovery where
  links : OrderedSet DiscoveredLink DiscoveredLink.validThrough
  outEdges : SwitchAndPort → Option Nat
  signals : List (Signal PortPair)

namespace LinkDiscovery

def init : LinkDiscovery where
  links := .empty
  outEdges _ := none
  signals := []

/-- `std::chrono::seconds(c_poll_interval * 2)` -/
def lifetime (pollInterval : UInt32) : Nat := (pollInterval * 2).toNat * 1000000000

def emit (s : LinkDiscovery) (signal : Signal PortPair) : LinkDiscovery :=
  { s with signals := signal :: s.signals }

/-- `m_out_edges.erase(ap) == 1`, under a check that fails with `fault`. -/
def eraseOne (fault : Fault) (outEdges : SwitchAndPort → Option Nat) (ap : SwitchAndPort) :
    Except Fault (SwitchAndPort → Option Nat) :=
  if outEdges ap = none then .error fault else .ok (Function.update outEdges ap none)

/-- The first half of `handleBeacon`: the older edge at `source` is removed. The flag is
`isNew`. -/
def removeOlder (s : LinkDiscovery) (source target : SwitchAndPort) :
    Except Fault (LinkDiscovery × Bool) :=
  match s.outEdges source with
  | none => .ok (s, true)
  | some it =>
    match s.links.find it with
    | none => .error .undefined
    | some _ =>
      .ok ({ s with
        links := s.links.erase it
        outEdges := Function.update (Function.update s.outEdges source none) target none }, false)

def handleBeacon (pollInterval : UInt32) (s : LinkDiscovery) (now : Nat)
    (source target : SwitchAndPort) : Except Fault LinkDiscovery := do
  let link : DiscoveredLink := ⟨source, target, now + lifetime pollInterval⟩
  let (s, isNew) ← s.removeOlder source target
  let (links, it) := s.links.insert link
  let s := { s with
    links
    outEdges := Function.update (Function.update s.outEdges source (some it)) target (some it) }
  .ok (if isNew then s.emit (.up (source, target)) else s)

def clearLinkAt (ndebug : Bool) (s : LinkDiscovery) (source : SwitchAndPort) :
    Except Fault LinkDiscovery :=
  match s.outEdges source with
  | none => .ok s
  | some it =>
    match s.links.find it with
    | none => .error .undefined
    | some edge =>
      if edge.source ≠ source ∧ ndebug = false ∧ edge.target ≠ source then
        .error .assertion
      else do
        let target := edge.opposite source
        let outEdges ← eraseOne .check s.outEdges source
        let outEdges ← eraseOne .check outEdges target
        let s := { s with links := s.links.erase it, outEdges }
        .ok (s.emit (.down (if source < target then (source, target) else (target, source))))

/-- One pass of the loop of `timerEvent`, for the link that expires first. -/
def expireTop (ndebug : Bool) (s : LinkDiscovery) (it : Nat) (top : DiscoveredLink) :
    Except Fault LinkDiscovery := do
  let outEdges ←
    if ndebug then
      .ok s.outEdges
    else do
      let outEdges ← eraseOne .assertion s.outEdges top.source
      eraseOne .assertion outEdges top.target
  .ok ({ s with links := s.links.erase it, outEdges }.emit (.down top.ports))

/-- The loop of `timerEvent`. Every pass erases one link, so as many passes as there are links are
enough. -/
def expire (ndebug : Bool) (now : Nat) : Nat → LinkDiscovery → Except Fault LinkDiscovery
  | 0, s => .ok s
  | passes + 1, s =>
    match s.links.begin? with
    | none => .ok s
    | some (it, top) =>
      if top.validThrough < now then do
        let s ← s.expireTop ndebug it top
        expire ndebug now passes s
      else
        .ok s

def timerEvent (ndebug : Bool) (s : LinkDiscovery) (now : Nat) : Except Fault LinkDiscovery :=
  expire ndebug now s.links.size s

/-! ## Calls -/

inductive Event
  | beacon (now : Nat) (source target : SwitchAndPort)
  | clear (source : SwitchAndPort)
  | timer (now : Nat)
  deriving DecidableEq, Repr

/-- The application and the clock value of its last beacon. -/
structure System where
  app : LinkDiscovery
  lastBeacon : Option Nat

def System.init : System := ⟨.init, none⟩

def System.step (pollInterval : UInt32) (ndebug : Bool) (s : System) : Event → Except Fault System
  | .beacon now source target => do
    let app ← s.app.handleBeacon pollInterval now source target
    .ok ⟨app, some now⟩
  | .clear source => do
    let app ← s.app.clearLinkAt ndebug source
    .ok { s with app }
  | .timer now => do
    let app ← s.app.timerEvent ndebug now
    .ok { s with app }

end LinkDiscovery
