import SlotMarkup.Slots
import SlotMarkup.Value.Normal

/-!
# Filling the slots of a tree

The tree of a template has tokens where its values belong. Filling it
(`fill`) goes over the nodes of the tree, but never into a value that was put in:

* a tag that is a token gives way to the normalized value, which takes the place
  of a node without content, and heads the content of any other;
* a text is cut at its tokens, and the values stand between the pieces;
* an attribute's name or value that is a token is filled in, and so are several
  attributes at once for a token that is only named (`expand`).

A node's key is taken anew from its attributes.
-/

namespace SlotMarkup

/-- What fills the slots of a tree. -/
structure Filling where
  /-- The slots of the tree. -/
  slots : Slots
  /-- Their values, possibly not one for every slot. -/
  values : List Value

namespace Filling

variable (f : Filling)

/-- The value of a slot, undefined past the end of the values. -/
def value (index : Nat) : Value := (f.values[index]?).getD .undefined

/-! ## Attributes -/

/-- The name that a value stands for in the place of an attribute's name. -/
def nameOf? : Value → Option String
  | .bool b => some (toString b)
  | v => v.text?

/-- The value of an attribute: that of its slot if it is a token. -/
def fillAttr : Value → Value
  | .str s =>
    match f.slots.index? s with
    | some index => f.value index
    | none => .str s
  | v => v

/-- The attributes that an attribute turns into. A token that is only named is
    spread: a handler goes under its name, a dictionary under its names. Any other
    token names the attribute. -/
def expand (name : String) (v : Value) : List (String × Value) :=
  match f.slots.index? name with
  | none => [(name, f.fillAttr v)]
  | some index =>
    match v with
    | .bool true =>
      match f.value index with
      | .handler h =>
        match h.name? with
        | some own => [(own, .handler h)]
        | none => [(name, v)]
      | .dict entries => entries
      | _ => [(name, v)]
    | _ =>
      match nameOf? (f.value index) with
      | some dynamic => [(dynamic, f.fillAttr v)]
      | none => []

/-- The attributes of a filled node. -/
def attrs (d : Dict Value) : Dict Value := Dict.ofList (d.flatMap fun e => f.expand e.1 e.2)

/-! ## Nodes -/

/-- The pieces of a text after the first, each after the value of the token before
    it. -/
def pieces : List (Nat × List Char) → List Value
  | [] => []
  | (index, piece) :: more => f.value index :: .str (String.ofList piece) :: pieces more

/-- A text as content: cut at its tokens if it has any. -/
def text (s : String) : Children Value :=
  let c := f.slots.cut s.toList
  match c.tail with
  | [] => .text s
  | tail => .list (.str (String.ofList c.head) :: f.pieces tail)

/-- A list stands for its items, any other value for itself. -/
def spread : Value → List Value
  | .list items => items
  | v => [v]

/-- The items of some content. -/
def itemsOf : Option (Children Value) → List Value
  | none => []
  | some (.text s) => [.str s]
  | some (.list items) => items

/-- The slot whose token is the tag of a node. -/
def tagSlot? (tag : Option String) : Option Nat := tag.bind f.slots.index?

/-- A filled node with its key. -/
def rebuild (tag : Option String) (old : Option (Dict Value)) (children : Option (Children Value))
    (reserved : Reserved) : Value :=
  let new := old.map f.attrs
  .node ⟨tag, Node.keyOf new, new, children, reserved⟩

/-- The tag of a node with filled content: a text that was cut is a group now. -/
def retag (tag : Option String) : Option (Children Value) → Option String
  | some (.list _) => if tag = some textTag then some fragmentTag else tag
  | _ => tag

mutual

/-- A value with its slots filled. -/
def fill : Value → Value
  | .node ⟨tag, key, old, children, reserved⟩ =>
    let content := fillContent children
    match f.tagSlot? tag with
    | none => f.rebuild (retag tag content) old content reserved
    | some index =>
      let head := (f.value index).normalize
      if (⟨tag, key, old, children, reserved⟩ : Node).isChildless then head
      else f.rebuild (some fragmentTag) old (some (.list (head :: itemsOf content))) reserved
  | .undefined => .undefined
  | .null => .null
  | .bool b => .bool b
  | .number x => .number x
  | .str s => .str s
  | .list items => .list items
  | .dict entries => .dict entries
  | .handler h => .handler h
  | .foreign identity => .foreign identity

/-- Values with their slots filled, lists among them spread. -/
def fillAll : List Value → List Value
  | [] => []
  | v :: vs => spread (fill v) ++ fillAll vs

/-- The content of a node with its slots filled. -/
def fillContent : Option (Children Value) → Option (Children Value)
  | none => none
  | some (.text s) => some (f.text s)
  | some (.list items) => some (.list (fillAll items))

end

end Filling

end SlotMarkup
