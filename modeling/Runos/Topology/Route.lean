import Runos.Topology.Topology

/-!
# Routes (`Topology::computeRoute`)

Boost's part of the computation is a parameter: the predecessor map of Dijkstra's algorithm, and the
edge that a lookup gives when there are several. The loop along the predecessors runs on fuel; without
enough of it there is no result.
-/

namespace Topology

/-- What `computeRoute` uses of Boost. -/
structure Boost where
  /-- The predecessors of the vertices of a graph, on the paths to a root. -/
  dijkstra : Multigraph UInt64 LinkProperty → Nat → Nat → Nat
  edge : EdgeChoice LinkProperty

/-- One pass of the loop: the ports of the link from `v` to its predecessor `w`. -/
def routeStep (ndebug : Bool) (edge : EdgeChoice LinkProperty)
    (g : Multigraph UInt64 LinkProperty) (v w : Nat) :
    Except Fault (SwitchAndPort × SwitchAndPort) :=
  match g.edge edge v w with
  | none => .error (if ndebug then .undefined else .assertion)
  | some link =>
    match g.vertices[v]? with
    | none => .error .undefined
    | some dpid =>
      if link.source.dpid = dpid then
        if ndebug = false ∧ g.vertices[w]? ≠ some link.target.dpid then .error .assertion
        else .ok (link.source, link.target)
      else if ndebug = false ∧
          (link.target.dpid ≠ dpid ∨ g.vertices[w]? ≠ some link.source.dpid) then
        .error .assertion
      else
        .ok (link.target, link.source)

/-- The loop from the vertex `v` on. -/
def routeLoop (ndebug : Bool) (edge : EdgeChoice LinkProperty)
    (g : Multigraph UInt64 LinkProperty) (p : Nat → Nat) :
    Nat → Nat → Option (Except Fault (List SwitchAndPort))
  | 0, _ => none
  | fuel + 1, v =>
    if v = p v then
      some (.ok [])
    else
      match routeStep ndebug edge g v (p v) with
      | .error fault => some (.error fault)
      | .ok (out, in_) => (routeLoop ndebug edge g p fuel (p v)).map (·.map (out :: in_ :: ·))

/-- The vertices of the two switches, which are added when there are none. -/
def routeEnds (ndebug : Bool) (s : Topology) (source target : UInt64) :
    Except Fault (Topology × Nat × Nat) := do
  let (m, v) ← s.m.vertex ndebug source
  let (m, root) ← m.vertex ndebug target
  .ok ({ s with m }, v, root)

def computeRoute (boost : Boost) (ndebug : Bool) (fuel : Nat) (s : Topology)
    (source target : UInt64) : Option (Except Fault (Topology × List SwitchAndPort)) :=
  match s.routeEnds ndebug source target with
  | .error fault => some (.error fault)
  | .ok (s, v, root) =>
    (routeLoop ndebug boost.edge s.m.graph (boost.dijkstra s.m.graph root) fuel v).map
      (·.map fun route => (s, route))

end Topology
