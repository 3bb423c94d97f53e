import SlotMarkup.Token.Basic

/-!
# Markup trees

The tree that a template's text is parsed to. Its nodes are *items*: tags, runs of
text, comments and blocks. A *block* is a run of items without a tag of its own:
the whole template, what is in a tag, and there again the lines nested below the
tag's line.

Every node carries the span it was read from.
-/

namespace SlotMarkup

/-- An attribute as written. -/
structure Attribute where
  name : String
  value : AttrValue
  span : Span
  deriving DecidableEq, Repr, Inhabited

/-- A run of text. -/
structure Text where
  value : String
  span : Span
  deriving DecidableEq, Repr, Inhabited

/-- A comment, kept for the reader of the page if it is `buffered`. -/
structure Comment where
  value : String
  buffered : Bool
  span : Span
  deriving DecidableEq, Repr, Inhabited

/-- A run of nodes of a type. -/
structure BlockOf (α : Type) where
  nodes : List α
  span : Span
  deriving Inhabited

/-- An element over a type of nodes. -/
structure TagOf (α : Type) where
  name : String
  /-- The attributes in the order of the text, shorthands among them. -/
  attrs : List Attribute
  /-- What is in the element, if it was ever given a body. -/
  body : Option (BlockOf α)
  span : Span
  deriving Inhabited

/-- A node of a markup tree. -/
inductive Item
  | block (b : BlockOf Item)
  | tag (t : TagOf Item)
  | text (t : Text)
  | comment (c : Comment)
  deriving Inhabited

/-- A run of items. -/
abbrev Block := BlockOf Item

/-- An element. -/
abbrev Tag := TagOf Item

/-- Where an item was read. -/
def Item.span : Item → Span
  | block b => b.span
  | tag t => t.span
  | text t => t.span
  | comment c => c.span

namespace Block

/-- Whether a block has no items. -/
def isEmpty (b : Block) : Bool := b.nodes.isEmpty

/-- The block of some items. It spans from the first to the last of them, and
    `fallback` if there is none. -/
def ofItems (items : List Item) (fallback : Span) : Block :=
  ⟨items,
    match items.head?, items.getLast? with
    | some first, some last => first.span.merge last.span
    | _, _ => fallback⟩

end Block

end SlotMarkup
