import SlotMarkup.Markup.View
import SlotMarkup.Proofs.DictEntries
import SlotMarkup.Proofs.ParseMeasure
import SlotMarkup.Proofs.SlotRewording
import SlotMarkup.Template.Fill

/-!
# Trees of markup

What markup is built to is a tree of named nodes (`IsTree`): in its children there are
no other values than nodes, and its attributes are strings or only named
(`isTree_toValue`). Filled, a node of it is never a string or a list
(`StandsAlone`), so the children of a filled node are the filled children.

What is true of texts, and of an element whenever it is true of the values in it, is true
of all values that items stand for (`Inherits.items`).
-/

namespace SlotMarkup

/-! ## Properties of trees -/

/-- A property of every text, and of every element that it is true of the values in. The
    heads of the elements have the property `P`. -/
structure Inherits (P : TagHead → Prop) (Q : Value → Prop) : Prop where
  text : ∀ s, Q (.node (Node.text s))
  element : ∀ {name attrs vs}, P ⟨name, attrs⟩ → (∀ v ∈ vs, Q v) →
    Q (.node (Node.make name (contentOf (gather vs)) (Attribute.toDict? attrs)))

namespace Inherits

variable {P : TagHead → Prop} {Q : Value → Prop}

mutual

/-- What is inherited holds of all that an item stands for, by recursion on the tree. -/
theorem item (hQ : Inherits P Q) : (i : Item) → (∀ head ∈ itemHeads i, P head) →
    ∀ v ∈ itemValues i, Q v
  | .block b, h => hQ.block b h
  | .tag t, h => fun v hv => by
    rw [itemValues, List.mem_singleton] at hv
    exact hv ▸ hQ.tag t h
  | .text t, _ => fun v hv => by
    rw [itemValues, List.mem_singleton] at hv
    exact hv ▸ hQ.text t.value
  | .comment _, _ => fun v hv => by simp [itemValues] at hv

/-- It is a property of all values that items stand for. -/
theorem items (hQ : Inherits P Q) : (is : List Item) → (∀ head ∈ itemsHeads is, P head) →
    ∀ v ∈ itemsValues is, Q v
  | [], _ => fun v hv => by simp [itemsValues] at hv
  | i :: is, h => fun v hv => by
    rw [itemsValues, List.mem_append] at hv
    exact hv.elim (hQ.item i (fun head hh => h head (List.mem_append_left _ hh)) v)
      (hQ.items is (fun head hh => h head (List.mem_append_right _ hh)) v)

theorem block (hQ : Inherits P Q) : (b : BlockOf Item) → (∀ head ∈ blockHeads b, P head) →
    ∀ v ∈ blockValues b, Q v
  | ⟨nodes, _⟩, h => hQ.items nodes h

theorem body (hQ : Inherits P Q) : (b : Option (BlockOf Item)) →
    (∀ head ∈ bodyHeads b, P head) → ∀ v ∈ bodyValues b, Q v
  | none, _ => fun v hv => by simp [bodyValues] at hv
  | some b, h => hQ.block b h

theorem tag (hQ : Inherits P Q) : (t : TagOf Item) → (∀ head ∈ tagHeads t, P head) →
    Q (tagValue t)
  | ⟨name, attrs, body, _⟩, h => by
    rw [tagValue]
    exact hQ.element (h _ List.mem_cons_self)
      (hQ.body body fun head hh => h head (List.mem_cons_of_mem _ hh))

end

end Inherits

/-! ## Trees -/

/-- The value of an attribute as it is written: a string, or true. -/
def IsWritten (v : Value) : Prop := v = .bool true ∨ ∃ s, v = .str s

/-- A tree as it is built from markup. -/
inductive IsTree : Value → Prop
  | node {name : String} {children : Option (Children Value)} {attrs : Option (Dict Value)}
      (hchildren : ∀ items, children = some (.list items) → ∀ v ∈ items, IsTree v)
      (hattrs : ∀ d, attrs = some d → ∀ e ∈ d, IsWritten e.2) :
      IsTree (.node (Node.make name children attrs))

theorem isTree_text (s : String) : IsTree (.node (Node.text s)) :=
  .node (fun _ h => by cases h) (fun _ h => by cases h)

/-- A group of trees is one. -/
theorem isTree_fragment {vs : List Value} (h : ∀ v ∈ vs, IsTree v) :
    IsTree (.node (Node.fragment vs)) :=
  .node (fun items hitems => by cases hitems; exact h) (fun _ hd => by cases hd)

/-! ## Building -/

/-- An attribute has a string for a value, or is only named. -/
theorem Attribute.isWritten_toDict? {attrs : List Attribute} {d : Dict Value}
    (h : Attribute.toDict? attrs = some d) : ∀ e ∈ d, IsWritten e.2 := by
  have hothers : ∀ e ∈ Attribute.others attrs, IsWritten e.2 := by
    intro e he
    obtain ⟨a, -, rfl⟩ := List.mem_map.1 (Dict.mem_ofList he)
    cases ha : a.value with
    | bare => exact .inl rfl
    | raw text => exact .inr ⟨unquote text, rfl⟩
  rw [Attribute.toDict?] at h
  split at h
  · simp at h
  · split at h
    · obtain rfl := Option.some.inj h
      exact hothers
    · obtain rfl := Option.some.inj h
      intro e he
      rcases Dict.mem_insert he with he | rfl
      · exact hothers e he
      · exact .inr ⟨_, rfl⟩

/-- Trees are gathered to one. -/
theorem isTree_of_gather {vs : List Value} (h : ∀ v ∈ vs, IsTree v) {v : Value}
    (hv : gather vs = some v) : IsTree v := by
  match vs with
  | [] => cases hv
  | [w] =>
    obtain rfl := Option.some.inj hv
    exact h w List.mem_cons_self
  | w :: u :: vs =>
    obtain rfl := Option.some.inj hv
    exact isTree_fragment h

/-- What is lifted into an element is a tree again. -/
theorem isTree_of_contentOf {vs : List Value} (h : ∀ v ∈ vs, IsTree v) {items : List Value}
    (hitems : contentOf (gather vs) = some (.list items)) : ∀ v ∈ items, IsTree v := by
  cases hg : gather vs with
  | none =>
    rw [hg] at hitems
    cases hitems
  | some w =>
    have hw := isTree_of_gather h hg
    rw [hg] at hitems
    cases hw with
    | @node name children attrs hchildren hattrs =>
      rw [contentOf] at hitems
      split at hitems
      · -- A group gives way to its own children.
        cases hc : children with
        | none =>
          simp only [Node.make, hc, Option.getD_none, Option.some.injEq, Children.list.injEq]
            at hitems
          simp [← hitems]
        | some c =>
          simp only [Node.make, hc, Option.getD_some] at hitems
          exact hchildren items (hc.trans hitems)
      · simp only [Option.some.injEq, Children.list.injEq] at hitems
        rw [← hitems]
        intro v hv
        rw [List.mem_singleton.1 hv]
        exact .node hchildren hattrs

/-- Whatever the names of tags are, items stand for trees. -/
theorem inherits_isTree : Inherits (fun _ => True) IsTree where
  text := isTree_text
  element _ h := .node (fun _ hitems => isTree_of_contentOf h hitems)
    fun _ hd => Attribute.isWritten_toDict? hd

/-- The values that items stand for are trees. -/
theorem isTree_items (is : List Item) : ∀ v ∈ itemsValues is, IsTree v :=
  inherits_isTree.items is fun _ _ => trivial

theorem isTree_block (b : Block) : ∀ v ∈ blockValues b, IsTree v :=
  inherits_isTree.block b fun _ _ => trivial

theorem isTree_tag (t : Tag) : IsTree (tagValue t) := inherits_isTree.tag t fun _ _ => trivial

/-- The tree of a block, if the block is not empty. -/
theorem isTree_toValue (b : Block) : b.toValue = .undefined ∨ IsTree b.toValue := by
  rw [Block.toValue]
  cases hg : gather (blockValues b) with
  | none => exact .inl rfl
  | some v => exact .inr (isTree_of_gather (isTree_block b) hg)

/-! ## Filling -/

/-- A value that is put among others as it is, and is no string. -/
structure StandsAlone (v : Value) : Prop where
  spread : Filling.spread v = [v]
  ne_str : ∀ s, v ≠ .str s

theorem standsAlone_node (n : Node) : StandsAlone (.node n) := ⟨rfl, nofun⟩

theorem standsAlone_of_node {v : Value} (h : ∃ n : Node, v = .node n) : StandsAlone v := by
  obtain ⟨n, rfl⟩ := h
  exact standsAlone_node n

/-- A normalized value stands alone. -/
theorem standsAlone_normalize (v : Value) : StandsAlone v.normalize := by
  cases v <;> exact ⟨rfl, nofun⟩

/-- A filled node keeps its tag or becomes a group. -/
theorem retag_cases (tag : Option String) (content : Option (Children Value)) :
    Filling.retag tag content = some fragmentTag ∨ Filling.retag tag content = tag := by
  match content with
  | none | some (.text _) => exact .inr rfl
  | some (.list _) =>
    rw [Filling.retag]
    split
    · exact .inl rfl
    · exact .inr rfl

variable (f : Filling)

/-- What a node with a name and a content is filled to: the node with its content and
    attributes filled, or the value whose token its name is. -/
theorem fill_make_cases (name : String) (children : Option (Children Value))
    (attrs : Option (Dict Value)) :
    (f.slots.index? name = none ∧ f.fill (.node (Node.make name children attrs)) =
      f.rebuild (Filling.retag (some name) (f.fillContent children)) attrs
        (f.fillContent children) {}) ∨
    ∃ index, f.slots.index? name = some index ∧
      (f.fill (.node (Node.make name children attrs)) = (f.value index).normalize ∨
        f.fill (.node (Node.make name children attrs)) = f.rebuild (some fragmentTag) attrs
          (some (.list ((f.value index).normalize :: Filling.itemsOf (f.fillContent children))))
          {}) := by
  rw [Node.make, Filling.fill]
  have hslot : f.tagSlot? (some name) = f.slots.index? name := rfl
  cases hindex : f.slots.index? name with
  | none =>
    rw [hindex] at hslot
    exact .inl ⟨rfl, by simp only [hslot]⟩
  | some index =>
    rw [hindex] at hslot
    refine .inr ⟨index, rfl, ?_⟩
    simp only [hslot]
    split
    · exact .inl rfl
    · exact .inr rfl

/-- A filled node is a node or a normalized value. -/
theorem IsTree.standsAlone_fill {v : Value} (h : IsTree v) : StandsAlone (f.fill v) := by
  cases h with
  | @node name children attrs _ _ =>
    rcases fill_make_cases f name children attrs with ⟨-, hfill⟩ | ⟨index, -, hfill | hfill⟩
    · exact hfill ▸ standsAlone_node _
    · exact hfill ▸ standsAlone_normalize _
    · exact hfill ▸ standsAlone_node _

variable {f}

/-- Values that stand alone when they are filled are filled one by one. -/
theorem fillAll_of_standsAlone {vs : List Value} (h : ∀ v ∈ vs, StandsAlone (f.fill v)) :
    f.fillAll vs = vs.map f.fill := by
  induction vs with
  | nil => rfl
  | cons v vs ih =>
    rw [Filling.fillAll, (h v List.mem_cons_self).spread,
      ih fun w hw => h w (List.mem_cons_of_mem _ hw), List.map_cons]
    rfl

/-- The filled children of a tree. -/
theorem fillAll_of_isTree {vs : List Value} (h : ∀ v ∈ vs, IsTree v) :
    f.fillAll vs = vs.map f.fill :=
  fillAll_of_standsAlone fun v hv => (h v hv).standsAlone_fill f

/-- Values are filled part by part. -/
theorem fillAll_append (vs ws : List Value) :
    f.fillAll (vs ++ ws) = f.fillAll vs ++ f.fillAll ws := by
  induction vs with
  | nil => rfl
  | cons v vs ih => rw [List.cons_append, Filling.fillAll, Filling.fillAll, ih, List.append_assoc]

/-- The mark of a text is no token, so a text is filled to its pieces. -/
theorem fill_text (text : String) : f.fill (.node (Node.text text)) =
    .node ⟨Filling.retag (some textTag) (some (f.text text)), none, none, some (f.text text),
      {}⟩ := by
  have hslot : f.tagSlot? (some textTag) = none :=
    show f.slots.index? textTag = none from Slots.index?_of_length_lt (by decide)
  rw [Node.text, Node.make, Filling.fill]
  simp only [hslot]
  rfl

/-- A node that is not named by a token keeps its name, unless it is a text. -/
theorem fill_children {name : String} (hname : f.slots.index? name = none) (htext : name ≠ textTag)
    {vs : List Value} {d : Option (Dict Value)} :
    f.fill (.node (Node.make name (some (.list vs)) d)) =
      .node (Node.make name (some (.list (f.fillAll vs))) (d.map f.attrs)) := by
  have hslot : f.tagSlot? (some name) = none := hname
  have htag : ¬some name = some textTag := by simpa using htext
  rw [Node.make, Filling.fill]
  simp only [hslot, Filling.fillContent, Filling.retag, if_neg htag]
  rfl

end SlotMarkup
