import SlotMarkup.Dict

/-!
# Values and nodes

A `Value` is what a slot of a template can be given and what a template renders
to. Most values mean something to a few rules only: nothing, text, lists,
dictionaries, named handlers and nodes. All others travel through a template
unchanged.

A *node* (`Node`) is an element of the tree that a renderer shows. Its tag is the
name of an element, or marks a run of text (`textTag`) or a group without an
element of its own (`fragmentTag`). Its key is that of its attributes when it is
made (`Node.make`), and its reserved fields stay empty for the renderer.
-/

namespace SlotMarkup

/-- A function of the host program, such as an event handler. Two handlers are
    the same if they have the same identity, whatever they are called. -/
structure Handler where
  /-- What the handler was named, if anything. -/
  label : Option String
  identity : Nat
  deriving DecidableEq, Repr, Inhabited

/-- The name of a handler. An empty name is none. -/
def Handler.name? (h : Handler) : Option String := h.label.filter fun name => !name.isEmpty

/-- What a log shows for a handler. -/
def Handler.logText (h : Handler) : String := "Handler(" ++ h.name?.getD "<anonymous>" ++ ")"

/-- The content of a node: a run of text or a sequence of values. -/
inductive Children (α : Type)
  | text (s : String)
  | list (items : List α)
  deriving Inhabited

/-- No items at all; a text is content even if it is empty. -/
def Children.isEmpty {α : Type} : Children α → Bool
  | .text _ => false
  | .list items => items.isEmpty

/-- The fields of a node that belong to the renderer. Its objects are known by
    their identity. -/
structure Reserved where
  text : Option String := none
  dom : Option Nat := none
  domSize : Option Nat := none
  state : Option Nat := none
  events : Option Nat := none
  component : Option Nat := none
  deriving DecidableEq, Repr, Inhabited

/-- A node over a type of values. -/
structure NodeOf (α : Type) where
  tag : Option String
  key : Option α
  /-- The attributes. None at all is not the same as an empty dictionary. -/
  attrs : Option (List (String × α))
  children : Option (Children α)
  reserved : Reserved
  deriving Inhabited

/-- A value. -/
inductive Value
  /-- Absent, as a value that was not supplied. -/
  | undefined
  | null
  | bool (b : Bool)
  | number (x : Float)
  | str (s : String)
  | list (items : List Value)
  | dict (entries : List (String × Value))
  | handler (h : Handler)
  | node (n : NodeOf Value)
  /-- An object of the renderer, known by its identity. -/
  | foreign (identity : Nat)
  deriving Inhabited

/-- An element of the tree that is shown. -/
abbrev Node := NodeOf Value

/-- What a log shows for an object of the renderer. -/
def foreignLogText : String := "Opaque(..)"

namespace Value

/-- Undefined or null. -/
def isNothing : Value → Bool
  | undefined | null => true
  | _ => false

/-- The string of a string. -/
def str? : Value → Option String
  | str s => some s
  | _ => none

/-- The node of a node. -/
def node? : Value → Option Node
  | node n => some n
  | _ => none

/-- A value that may be absent. -/
def ofOption : Option Value → Value := (·.getD undefined)

/-- A whole number as the nearest double, a tie going to the even one. -/
def ofInt (n : Int) : Value := number (Float.ofInt n)

/-- A single-precision number, exactly. -/
def ofFloat32 (x : Float32) : Value := number x.toFloat

end Value

/-- The tag of a group of children without an element. -/
def fragmentTag : String := "["

/-- The tag of a run of text. -/
def textTag : String := "#"

namespace NodeOf

variable {α : Type} (n : NodeOf α)

/-- Whether a node is a group. -/
def isFragment : Bool := n.tag == some fragmentTag

/-- Whether a node is a run of text. -/
def isText : Bool := n.tag == some textTag

/-- The sequence of children, of a node that has one. -/
def childList? : Option (List α) :=
  match n.children with
  | some (.list items) => some items
  | _ => none

/-- Whether a node has no content at all. -/
def isChildless : Bool :=
  match n.children with
  | none => true
  | some c => c.isEmpty

end NodeOf

namespace Node

/-- The value that identifies a node among its siblings: its attribute `key`. -/
def keyOf (attrs : Option (Dict Value)) : Option Value := attrs.bind fun d => d.get? "key"

/-- A node, its key taken from its attributes. -/
def make (tag : String) (children : Option (Children Value)) (attrs : Option (Dict Value)) : Node :=
  ⟨some tag, keyOf attrs, attrs, children, {}⟩

/-- A run of text. -/
def text (s : String) : Node := make textTag (some (.text s)) none

/-- A group of values. -/
def fragment (items : List Value) : Node := make fragmentTag (some (.list items)) none

end Node

end SlotMarkup
