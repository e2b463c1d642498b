import Mathlib.Data.List.Basic

/-!
# Undirected multigraphs with numbered vertices

Vertices are numbered in the order they are added and carry a property; edges carry one too, and
there can be several between two vertices. `between u v` lists the properties of the edges that
join `u` and `v`, in whichever order their ends were given. Removing the edge between two vertices
removes them all, and looking one up gives any of them (`EdgeChoice`).
-/

/-- An edge with its property. -/
structure Multigraph.Edge (ε : Type) where
  u : Nat
  v : Nat
  property : ε
  deriving DecidableEq, Repr

structure Multigraph (ν ε : Type) where
  vertices : List ν
  edges : List (Multigraph.Edge ε)
  deriving Repr

/-- Which of several edges a lookup gives. -/
structure EdgeChoice (ε : Type) where
  pick : List ε → Option ε
  mem : ∀ l e, pick l = some e → e ∈ l
  isSome : ∀ l, l ≠ [] → pick l ≠ none

/-- The edge that was added first. -/
def EdgeChoice.first {ε : Type} : EdgeChoice ε where
  pick := List.head?
  mem _ _ h := List.mem_of_mem_head? h
  isSome l h := by simpa using h

namespace Multigraph

variable {ν ε : Type}

def empty : Multigraph ν ε := ⟨[], []⟩

/-- The edge joins `u` and `v`. -/
def Edge.Joins (e : Edge ε) (u v : Nat) : Prop := e.u = u ∧ e.v = v ∨ e.u = v ∧ e.v = u

instance (e : Edge ε) (u v : Nat) : Decidable (e.Joins u v) :=
  inferInstanceAs (Decidable (_ ∨ _))

def addVertex (g : Multigraph ν ε) (property : ν) : Multigraph ν ε × Nat :=
  ({ g with vertices := g.vertices ++ [property] }, g.vertices.length)

def addEdge (g : Multigraph ν ε) (u v : Nat) (property : ε) : Multigraph ν ε :=
  { g with edges := g.edges ++ [⟨u, v, property⟩] }

def removeEdge (g : Multigraph ν ε) (u v : Nat) : Multigraph ν ε :=
  { g with edges := g.edges.filter fun e => ¬ e.Joins u v }

def between (g : Multigraph ν ε) (u v : Nat) : List ε :=
  (g.edges.filter fun e => e.Joins u v).map (·.property)

/-- The lookup of an edge. -/
def edge (choice : EdgeChoice ε) (g : Multigraph ν ε) (u v : Nat) : Option ε :=
  choice.pick (g.between u v)

theorem mem_between {g : Multigraph ν ε} {u v : Nat} {x : ε} :
    x ∈ g.between u v ↔ ∃ e ∈ g.edges, e.Joins u v ∧ e.property = x := by
  simp [between, and_assoc]

theorem edge_mem {choice : EdgeChoice ε} {g : Multigraph ν ε} {u v : Nat} {x : ε}
    (h : g.edge choice u v = some x) : x ∈ g.between u v := choice.mem _ _ h

theorem edge_eq_none {choice : EdgeChoice ε} {g : Multigraph ν ε} {u v : Nat}
    (h : g.edge choice u v = none) : g.between u v = [] := by
  by_contra hne
  exact choice.isSome _ hne h

end Multigraph
