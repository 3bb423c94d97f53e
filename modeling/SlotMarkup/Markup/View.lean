import SlotMarkup.Markup.Attributes

/-!
# The tree that markup stands for

A markup tree has a block around every run of items, whether the run needs it or
not. The tree that is shown has none of these wrappers: a block inside a block is
its items, comments are gone, and only several roots need a fragment to hold them
(`Block.toValue`).

* `contentOf_gather`: values that are no fragments are the content of an element as they
  are.
-/

namespace SlotMarkup

/-- One value for several: nothing for none, the value itself for one, and a
    fragment for more. -/
def gather : List Value → Option Value
  | [] => none
  | [v] => some v
  | vs => some (.node (Node.fragment vs))

/-- The content of an element around a gathered value. A fragment gives way to its
    own children. -/
def contentOf : Option Value → Option (Children Value)
  | none => none
  | some (.node n) =>
    if n.isFragment then some (n.children.getD (.list [])) else some (.list [.node n])
  | some v => some (.list [v])

mutual

/-- The values that an item stands for among its siblings. -/
def itemValues : Item → List Value
  | .block b => blockValues b
  | .tag t => [tagValue t]
  | .text t => [.node (Node.text t.value)]
  | .comment _ => []

/-- The values that a run of items stands for. -/
def itemsValues : List Item → List Value
  | [] => []
  | i :: is => itemValues i ++ itemsValues is

/-- The values that the items of a block stand for. -/
def blockValues : BlockOf Item → List Value
  | ⟨nodes, _⟩ => itemsValues nodes

/-- The values that the body of a tag stands for. -/
def bodyValues : Option (BlockOf Item) → List Value
  | none => []
  | some b => blockValues b

/-- The element of a tag. -/
def tagValue : TagOf Item → Value
  | ⟨name, attrs, body, _⟩ =>
    .node (Node.make name (contentOf (gather (bodyValues body))) (Attribute.toDict? attrs))

end

/-- The tree that a block stands for, undefined if it is empty. -/
def Block.toValue (b : Block) : Value := (gather (blockValues b)).getD .undefined

theorem itemsValues_eq_flatMap (is : List Item) : itemsValues is = is.flatMap itemValues := by
  induction is with
  | nil => rfl
  | cons i is ih => rw [itemsValues, ih, List.flatMap_cons]

/-- Items one after the other stand for values one after the other. -/
theorem itemsValues_append (is js : List Item) :
    itemsValues (is ++ js) = itemsValues is ++ itemsValues js := by
  simp [itemsValues_eq_flatMap]

/-! ## Elements -/

/-- A node that is no group. -/
def IsElement (v : Value) : Prop := ∃ n : Node, v = .node n ∧ n.isFragment = false

/-- The content of a node that holds some elements. -/
def listContent (vs : List Value) : Option (Children Value) :=
  if vs.isEmpty then none else some (.list vs)

/-- No element gives way to its children. -/
theorem contentOf_gather {vs : List Value} (h : ∀ v ∈ vs, IsElement v) :
    contentOf (gather vs) = listContent vs := by
  match vs with
  | [] => rfl
  | [v] =>
    obtain ⟨n, rfl, hn⟩ := h v List.mem_cons_self
    rw [gather, contentOf, hn]
    rfl
  | v :: w :: vs => rfl

end SlotMarkup
