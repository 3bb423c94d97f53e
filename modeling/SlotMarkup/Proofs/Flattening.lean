import SlotMarkup.Proofs.CleanValues
import SlotMarkup.Proofs.TreeFilling

/-!
# Flat trees

The tree that a block stands for has no trace of the blocks that its markup was read in.
It can be told without them: the elements and texts of a block are put in a row, with those
of the blocks inside it in their places (`flatBlock`), an element holds the row of its body,
and only a row of several roots needs a group to hold it (`unite`).

A builder that goes over the items once has less to look at: a block does not know what it
will be put into. It gives nothing, one value, or a run of values for the block around it
(`Built`), groups what has to be one value, and an element takes the children of a group for
its own. None of these groups is left in the end.

* `build_eq_toValue`: one pass over the items builds the tree of a block;
* `toValue_eq_flat`: if no tag has the name of a group, the tree is the flat one, so that
  there is no group but one at the root, and neither blocks nor comments show in it.
-/

namespace SlotMarkup

open Value (Everywhere)

/-! ## Rows of values -/

mutual

/-- The values that an item adds to the row it stands in. -/
def flatItem : Item → List Value
  | .block b => flatBlock b
  | .tag t => [flatTag t]
  | .text t => [.node (Node.text t.value)]
  | .comment _ => []

/-- The row of some items. -/
def flatItems : List Item → List Value
  | [] => []
  | i :: is => flatItem i ++ flatItems is

/-- The row of a block. -/
def flatBlock : BlockOf Item → List Value
  | ⟨nodes, _⟩ => flatItems nodes

/-- The row of a body. -/
def flatBody : Option (BlockOf Item) → List Value
  | none => []
  | some b => flatBlock b

/-- The element of a tag. It has no children at all if there is nothing in its row. -/
def flatTag : TagOf Item → Value
  | ⟨name, attrs, body, _⟩ =>
    .node (Node.make name (listContent (flatBody body)) (Attribute.toDict? attrs))

end

/-- The root of a tree with a row of values at its top. -/
def unite : List Value → Value
  | [] => .undefined
  | [v] => v
  | vs => .node (Node.fragment vs)

/-! ## Building in one pass -/

/-- What is built of an item. -/
inductive Built
  | nothing
  | one (v : Value)
  /-- The values of a block inside another one. -/
  | spliced (vs : List Value)

namespace Built

/-- What is put among the values of the block around. -/
def values : Built → List Value
  | nothing => []
  | one v => [v]
  | spliced vs => vs

/-- What is built of a block with some values in it. Only a block inside another one is
    `splice`d into it. -/
def ofValues (splice : Bool) : List Value → Built
  | [] => nothing
  | vs =>
    if splice then spliced vs
    else match vs with
      | [v] => one v
      | vs => one (.node (Node.fragment vs))

/-- The content of the element around a body. A group gives way to its own children. -/
def content : Built → Option (Children Value)
  | nothing => none
  | one (.node n) =>
    if n.isFragment then some (n.children.getD (.list [])) else some (.list [.node n])
  | one v => some (.list [v])
  | spliced vs => some (.list vs)

/-- The root of a tree. -/
def root : Built → Value
  | one v => v
  | _ => .undefined

end Built

mutual

/-- What is built of an item. -/
def buildItem : Item → Built
  | .block b => buildBlock true b
  | .tag t => .one (buildTag t)
  | .text t => .one (.node (Node.text t.value))
  | .comment _ => .nothing

/-- The values that are built of some items. -/
def buildItems : List Item → List Value
  | [] => []
  | i :: is => (buildItem i).values ++ buildItems is

/-- What is built of a block. -/
def buildBlock (splice : Bool) : BlockOf Item → Built
  | ⟨nodes, _⟩ => .ofValues splice (buildItems nodes)

/-- What is built of a body. -/
def buildBody : Option (BlockOf Item) → Built
  | none => .nothing
  | some b => buildBlock false b

/-- The element that is built of a tag. -/
def buildTag : TagOf Item → Value
  | ⟨name, attrs, body, _⟩ =>
    .node (Node.make name (buildBody body).content (Attribute.toDict? attrs))

end

/-- The tree that is built of a block. -/
def Block.build (b : Block) : Value := (buildBlock false b).root

namespace Built

/-- A block inside another one gives it all of its values. -/
theorem values_ofValues_splice (vs : List Value) : (ofValues true vs).values = vs := by
  cases vs <;> rfl

/-- A group is made of several values and given up again for its children, so that nothing is
    grouped twice. -/
theorem content_ofValues (vs : List Value) :
    (ofValues false vs).content = contentOf (gather vs) := by
  match vs with
  | [] => rfl
  | [v] => cases v <;> rfl
  | _ :: _ :: _ => rfl

/-- The values of a template are gathered to its root. -/
theorem root_ofValues (vs : List Value) :
    (ofValues false vs).root = (gather vs).getD .undefined := by
  match vs with
  | [] => rfl
  | [_] => rfl
  | _ :: _ :: _ => rfl

end Built

mutual

/-- What is built of an item are the values it stands for. -/
theorem values_buildItem : (i : Item) → (buildItem i).values = itemValues i
  | .block ⟨nodes, _⟩ => by
    rw [buildItem, buildBlock, Built.values_ofValues_splice, buildItems_eq nodes, itemValues,
      blockValues]
  | .tag t => by rw [buildItem, itemValues, buildTag_eq t, Built.values]
  | .text _ => rfl
  | .comment _ => rfl

theorem buildItems_eq : (is : List Item) → buildItems is = itemsValues is
  | [] => rfl
  | i :: is => by rw [buildItems, itemsValues, values_buildItem i, buildItems_eq is]

theorem content_buildBody : (b : Option (BlockOf Item)) →
    (buildBody b).content = contentOf (gather (bodyValues b))
  | none => rfl
  | some ⟨nodes, _⟩ => by
    rw [buildBody, buildBlock, Built.content_ofValues, buildItems_eq nodes, bodyValues,
      blockValues]

/-- What is built of a tag is the element it stands for. -/
theorem buildTag_eq : (t : TagOf Item) → buildTag t = tagValue t
  | ⟨name, attrs, body, _⟩ => by rw [buildTag, tagValue, content_buildBody body]

end

/-- One pass over the items builds the tree of a block. -/
theorem Block.build_eq_toValue (b : Block) : b.build = b.toValue := by
  obtain ⟨nodes, span⟩ := b
  rw [build, buildBlock, Built.root_ofValues, buildItems_eq, toValue, blockValues]

/-! ## No group in a row -/

/-- A head that does not give its tag the name of a group. -/
def NamesElement (head : TagHead) : Prop := head.name ≠ fragmentTag

/-- No tag that names an element stands for a group. -/
theorem inherits_isElement : Inherits NamesElement IsElement where
  text := isElement_text
  element hname _ := isElement_make hname _ _

mutual

/-- An item stands for its flat values, if no tag in it is named as a group. -/
theorem flatItem_eq : (i : Item) → (∀ head ∈ itemHeads i, NamesElement head) →
    flatItem i = itemValues i
  | .block b, h => flatBlock_eq b h
  | .tag t, h => by rw [flatItem, itemValues, flatTag_eq t h]
  | .text _, _ => rfl
  | .comment _, _ => rfl

theorem flatItems_eq : (is : List Item) → (∀ head ∈ itemsHeads is, NamesElement head) →
    flatItems is = itemsValues is
  | [], _ => rfl
  | i :: is, h => by
    rw [flatItems, itemsValues, flatItem_eq i fun head hh => h head (List.mem_append_left _ hh),
      flatItems_eq is fun head hh => h head (List.mem_append_right _ hh)]

theorem flatBlock_eq : (b : BlockOf Item) → (∀ head ∈ blockHeads b, NamesElement head) →
    flatBlock b = blockValues b
  | ⟨nodes, _⟩, h => flatItems_eq nodes h

theorem flatBody_eq : (b : Option (BlockOf Item)) → (∀ head ∈ bodyHeads b, NamesElement head) →
    flatBody b = bodyValues b
  | none, _ => rfl
  | some b, h => flatBlock_eq b h

/-- What is in a body is no group, so that nothing gives way to its own children. -/
theorem flatTag_eq : (t : TagOf Item) → (∀ head ∈ tagHeads t, NamesElement head) →
    flatTag t = tagValue t
  | ⟨name, attrs, body, _⟩, h => by
    have hbody : ∀ head ∈ bodyHeads body, NamesElement head :=
      fun head hh => h head (List.mem_cons_of_mem _ hh)
    rw [flatTag, tagValue, flatBody_eq body hbody,
      contentOf_gather (inherits_isElement.body body hbody)]

end

/-- Gathering values is uniting them. -/
theorem gather_getD (vs : List Value) : (gather vs).getD .undefined = unite vs := by
  match vs with
  | [] => rfl
  | [_] => rfl
  | _ :: _ :: _ => rfl

/-! ## Groups -/

/-- A value that is no group, as none of those inside it is. -/
def GroupFree (v : Value) : Prop :=
  Everywhere (fun w => ∀ n : Node, w = .node n → n.isFragment = false) v

/-- There is no group in what an attribute is written as. -/
theorem IsWritten.groupFree {v : Value} (h : IsWritten v) : GroupFree v := by
  rcases h with rfl | ⟨s, rfl⟩
  · exact .leaf (fun _ hn => by cases hn) rfl
  · exact .leaf (fun _ hn => by cases hn) rfl

/-- An element holds no group if its attributes and children do not. -/
theorem groupFree_make {name : String} (hname : name ≠ fragmentTag) {attrs : Option (Dict Value)}
    (hattrs : ∀ d, attrs = some d → ∀ e ∈ d, IsWritten e.2) {children : Option (Children Value)}
    (hchildren : ∀ items, children = some (.list items) → ∀ v ∈ items, GroupFree v) :
    GroupFree (.node (Node.make name children attrs)) := by
  refine .node (fun n hn => ?_) (fun k hk => ?_) (fun d hd e he => (hattrs d hd e he).groupFree)
    hchildren
  · obtain rfl := Value.node.inj hn
    simpa [NodeOf.isFragment, Node.make] using hname
  · obtain ⟨d, hd, hget⟩ := Option.bind_eq_some_iff.1 hk
    exact (hattrs d hd _ (Dict.mem_of_get? hget)).groupFree

/-- An element of markup is no group, and neither is anything in it. -/
theorem inherits_groupFree : Inherits NamesElement fun v => IsElement v ∧ GroupFree v where
  text s := ⟨isElement_text s, groupFree_make (by decide) (fun _ h => by cases h)
    fun _ h => by cases h⟩
  element {name attrs vs} hname hvs := by
    refine ⟨isElement_make hname _ _, groupFree_make hname
      (fun _ hd => Attribute.isWritten_toDict? hd) fun items hitems v hv => ?_⟩
    -- None of the values is a group, so that they are the children as they are.
    rw [contentOf_gather fun w hw => (hvs w hw).1, listContent] at hitems
    split at hitems
    · simp at hitems
    · obtain rfl := Children.list.inj (Option.some.inj hitems)
      exact (hvs v hv).2

/-- A group at the root of a tree has several children, and there is no other group. -/
theorem group_unite {vs : List Value} (h : ∀ v ∈ vs, GroupFree v) :
    (∀ n : Node, unite vs = .node n → n.isFragment = true →
      ∃ v w ws, n.children = some (.list (v :: w :: ws))) ∧
    ∀ v ∈ (unite vs).inside, GroupFree v := by
  match vs, h with
  | [], _ => exact ⟨fun _ hn => (by cases hn), by simp [unite, Value.inside]⟩
  | [v], h =>
    -- The only value is the root itself, and no group.
    have hv := h v List.mem_cons_self
    exact ⟨fun n hn hgroup => absurd hgroup (by simp [hv.here n hn]), fun w hw => hv.of_mem hw⟩
  | v :: w :: ws, h =>
    refine ⟨fun n hn _ => ?_, fun u hu => h u ?_⟩
    · obtain rfl := Value.node.inj hn
      exact ⟨v, w, ws, rfl⟩
    · simpa [unite, Node.fragment, Node.make, Node.keyOf, Value.inside, NodeOf.childList?] using hu

/-! ## What does not show -/

/-- Runs of items that differ in blocks around some of them, in comments and in bodies with
    nothing in them, and in where they were read. -/
inductive Rewraps : List Item → List Item → Prop
  | refl (is : List Item) : Rewraps is is
  | symm {is js} (h : Rewraps is js) : Rewraps js is
  | trans {is js ks} (h : Rewraps is js) (k : Rewraps js ks) : Rewraps is ks
  | append {is js ks ls} (h : Rewraps is js) (k : Rewraps ks ls) : Rewraps (is ++ ks) (js ++ ls)
  | block (is : List Item) (span : Span) : Rewraps [.block ⟨is, span⟩] is
  | comment (c : Comment) : Rewraps [.comment c] []
  | body (name : String) (attrs : List Attribute) (span tagSpan : Span) :
      Rewraps [.tag ⟨name, attrs, some ⟨[], span⟩, tagSpan⟩] [.tag ⟨name, attrs, none, tagSpan⟩]
  | tag (name : String) (attrs : List Attribute) {is js} (h : Rewraps is js)
      (span span' tagSpan tagSpan' : Span) :
      Rewraps [.tag ⟨name, attrs, some ⟨is, span⟩, tagSpan⟩]
        [.tag ⟨name, attrs, some ⟨js, span'⟩, tagSpan'⟩]

/-- Blocks around items make no difference to the values. -/
theorem Rewraps.itemsValues_eq {is js : List Item} (h : Rewraps is js) :
    itemsValues is = itemsValues js := by
  induction h with
  | refl => rfl
  | symm _ ih => exact ih.symm
  | trans _ _ ih ih' => exact ih.trans ih'
  | append _ _ ih ih' => rw [itemsValues_append, itemsValues_append, ih, ih']
  | block is span => rw [itemsValues, itemValues, blockValues, itemsValues, List.append_nil]
  | comment c => rfl
  | body => rfl
  | tag name attrs _ _ _ _ _ ih =>
    simp only [itemsValues, itemValues, tagValue, bodyValues, blockValues, ih]

/-! ## Trees -/

/-- If no tag has the name of a group, the tree of a block is that of its row of values: it
    is built in one pass, a group is in it only at the root and with several children, and
    it stays the same with other blocks and comments in the markup. -/
theorem Block.toValue_eq_flat {b : Block} (h : ∀ head ∈ blockHeads b, head.name ≠ fragmentTag) :
    b.build = b.toValue ∧ b.toValue = unite (flatBlock b) ∧
      (∀ n : Node, b.toValue = .node n → n.isFragment = true →
        ∃ v w vs, n.children = some (.list (v :: w :: vs))) ∧
      (∀ v ∈ b.toValue.inside, GroupFree v) ∧
      ∀ c : Block, Rewraps b.nodes c.nodes → c.toValue = b.toValue := by
  have hflat : b.toValue = unite (flatBlock b) := by
    rw [toValue, gather_getD, flatBlock_eq b h]
  have hfree : ∀ v ∈ flatBlock b, GroupFree v := fun v hv =>
    (inherits_groupFree.block b h v (flatBlock_eq b h ▸ hv)).2
  refine ⟨b.build_eq_toValue, hflat, ?_, ?_, fun c hc => ?_⟩
  · exact hflat ▸ (group_unite hfree).1
  · exact hflat ▸ (group_unite hfree).2
  · rw [toValue, toValue, blockValues, blockValues, hc.itemsValues_eq]

/-- A comment, and a tag with two texts in blocks of their own. -/
def wrappedTexts : Block :=
  ⟨[.comment ⟨"c", true, .nowhere⟩,
    .block ⟨[.tag ⟨"p", [], some ⟨[.block ⟨[.text ⟨"a", .nowhere⟩], .nowhere⟩,
      .block ⟨[.block ⟨[.text ⟨"b", .nowhere⟩], .nowhere⟩], .nowhere⟩], .nowhere⟩, .nowhere⟩],
      .nowhere⟩], .nowhere⟩

/-- The comment is left out, the blocks around the texts are not seen, and the tag in a block of
    its own is the tree. -/
theorem Block.toValue_eq_flat_wrapped :
    (∀ head ∈ blockHeads wrappedTexts, head.name ≠ fragmentTag) ∧
      wrappedTexts.build = wrappedTexts.toValue ∧
      wrappedTexts.toValue = .node (Node.make "p"
        (some (.list [.node (Node.text "a"), .node (Node.text "b")])) none) := by
  have h : ∀ head ∈ blockHeads wrappedTexts, head.name ≠ fragmentTag := by decide
  exact ⟨h, (Block.toValue_eq_flat h).1, (Block.toValue_eq_flat h).2.1.trans rfl⟩

end SlotMarkup
