import SlotMarkup.Markup.Parser
import SlotMarkup.Markup.View
import SlotMarkup.Template.Fill
import SlotMarkup.Text.Dedent

/-!
# Templates

A template is made of text fragments with a slot between each two. It is compiled
once (`Template.compile`) and rendered with values as often as needed
(`Template.render`). Without slots there is nothing to fill in, and the compiled
tree is what is rendered.
-/

namespace SlotMarkup

/-- A compiled template. -/
inductive Template
  /-- A template without slots: its tree. -/
  | fixed (tree : Value)
  /-- The tree of a template, with tokens in it. -/
  | slotted (slots : Slots) (tree : Value)
  deriving Inhabited

namespace Template

/-- Compiles the template of these fragments. -/
def compile (fragments : List String) : Except ParseError Template :=
  let slots := Slots.ofFragments fragments
  (Block.parse (dedent (slots.encode fragments))).map fun block =>
    if slots.count = 0 then fixed block.toValue else slotted slots block.toValue

/-- The compiled tree, with tokens where there are slots. -/
def tree : Template → Value
  | fixed tree => tree
  | slotted _ tree => tree

/-- The number of slots. -/
def slotCount : Template → Nat
  | fixed _ => 0
  | slotted slots _ => slots.count

/-- Whether the template has no slots. -/
def isFixed : Template → Bool
  | fixed _ => true
  | slotted _ _ => false

/-- The tree with the slots filled by `values`, in order. Values left over are
    ignored, and slots left over are undefined. -/
def render (t : Template) (values : List Value) : Value :=
  match t with
  | fixed tree => tree
  | slotted slots tree => Filling.fill ⟨slots, values⟩ tree

end Template

end SlotMarkup
