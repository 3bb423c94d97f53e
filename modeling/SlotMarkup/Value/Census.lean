import SlotMarkup.Value.Basic

/-!
# Census of a tree

The size of what a template renders to: how many nodes it has, how many other
values stand among their children, and how deep the nodes are nested.
-/

namespace SlotMarkup

/-- The size of a tree. -/
structure Census where
  nodes : Nat
  others : Nat
  /-- The largest number of nodes on a path from the root. -/
  depth : Nat
  deriving DecidableEq, Repr

namespace Census

/-- Two trees side by side. -/
def beside (a b : Census) : Census := ⟨a.nodes + b.nodes, a.others + b.others, max a.depth b.depth⟩

/-- A node around a forest. -/
def around (c : Census) : Census := ⟨c.nodes + 1, c.others, c.depth + 1⟩

mutual

/-- The census of a value. A list counts for its items, and of a node only its
    sequence of children is looked into. -/
def ofValue : Value → Census
  | .node ⟨_, _, _, children, _⟩ => (ofChildren children).around
  | .list items => ofList items
  | _ => ⟨0, 1, 0⟩

/-- The census of a sequence. -/
def ofList : List Value → Census
  | [] => ⟨0, 0, 0⟩
  | v :: vs => (ofValue v).beside (ofList vs)

/-- The census of the content of a node. -/
def ofChildren : Option (Children Value) → Census
  | some (.list items) => ofList items
  | _ => ⟨0, 0, 0⟩

end

end Census

end SlotMarkup
