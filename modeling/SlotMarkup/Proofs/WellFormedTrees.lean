import SlotMarkup.Proofs.SlotFreeTrees

/-!
# Well-formed trees

The nodes of a rendered tree are made in three places: from markup, in filling, and for
values in the place of a node. All of them are well formed (`NodeOf.WellFormed`): the key is
that of the attributes, also of those that were filled in, and the content goes with the
tag.

* `wellFormed_normalize`: values without nodes are well formed in the place of a node;
* `IsView.wellFormed_fill`: a filled tree is well formed, if the values put in have no nodes;
* `render_wellFormed`: so is what a template renders.
-/

namespace SlotMarkup

open Value (Everywhere)

/-- The content that goes with a tag. A text has a text, a group has a list, and an element
    has a list that is not empty, or nothing. -/
inductive ContentFits : String → Option (Children Value) → Prop
  | text (s : String) : ContentFits textTag (some (.text s))
  | group (items : List Value) : ContentFits fragmentTag (some (.list items))
  | nothing {name : String} (h : IsElementName name) : ContentFits name none
  | element {name : String} {items : List Value} (h : IsElementName name) (hitems : items ≠ []) :
      ContentFits name (some (.list items))

/-- A node whose key and content go with its attributes and its tag, and that the renderer
    has not seen yet. -/
structure NodeOf.WellFormed (n : Node) : Prop where
  key : n.key = Node.keyOf n.attrs
  content : ∃ tag, n.tag = some tag ∧ ContentFits tag n.children
  reserved : n.reserved = {}

/-- A value that is no node, or a well-formed one. -/
def Value.WellFormed (v : Value) : Prop := ∀ n : Node, v = .node n → n.WellFormed

/-- A value that neither is a node nor has one inside. -/
def Value.NodeFree (v : Value) : Prop := Everywhere (fun v => v.node? = none) v

namespace Value

theorem wellFormed_of_node? {v : Value} (h : v.node? = none) : v.WellFormed := by
  intro n hn
  rw [hn, node?] at h
  cases h

/-- A value without nodes has none that is not well-formed. -/
theorem NodeFree.wellFormed {v : Value} (h : v.NodeFree) : Everywhere WellFormed v :=
  Everywhere.mono (fun _ => wellFormed_of_node?) h

theorem nodeFree_undefined : undefined.NodeFree := .leaf rfl rfl

theorem wellFormed_str (s : String) : Everywhere WellFormed (.str s) :=
  .leaf (wellFormed_of_node? rfl) rfl

end Value

/-! ## Nodes -/

/-- A node is well-formed everywhere if its content fits its tag and what is in it is
    well-formed. -/
theorem wellFormed_node {tag : String} {children : Option (Children Value)}
    {attrs : Option (Dict Value)} (hfits : ContentFits tag children)
    (hattrs : ∀ d, attrs = some d → ∀ e ∈ d, Everywhere Value.WellFormed e.2)
    (hchildren : ∀ items, children = some (.list items) →
      ∀ v ∈ items, Everywhere Value.WellFormed v) :
    Everywhere Value.WellFormed (.node (Node.make tag children attrs)) := by
  refine .node (fun n hn => ?_) (fun k hk => ?_) hattrs hchildren
  · obtain rfl := Value.node.inj hn
    exact ⟨rfl, ⟨tag, rfl, hfits⟩, rfl⟩
  · obtain ⟨d, hd, hget⟩ := Option.bind_eq_some_iff.1 hk
    exact hattrs d hd _ (Dict.mem_of_get? hget)

/-- A node of a text is well-formed. -/
theorem wellFormed_text (s : String) : Everywhere Value.WellFormed (.node (Node.text s)) :=
  wellFormed_node (.text s) nofun nofun

/-- A group is well-formed if the values in it are. -/
theorem wellFormed_fragment {vs : List Value} (h : ∀ v ∈ vs, Everywhere Value.WellFormed v) :
    Everywhere Value.WellFormed (.node (Node.fragment vs)) :=
  wellFormed_node (.group vs) nofun fun items hitems => by
    cases hitems
    exact h

/-- The content of an element is a list only if there is something in it. -/
theorem contentFits_listContent {name : String} (h : IsElementName name) (vs : List Value) :
    ContentFits name (listContent vs) := by
  cases vs with
  | nil => exact .nothing h
  | cons v vs => exact .element h (List.cons_ne_nil v vs)

theorem itemsOf_listContent (vs : List Value) : Filling.itemsOf (listContent vs) = vs := by
  cases vs <;> rfl

/-- What content there is of some values are these values. -/
theorem listContent_eq_some {vs items : List Value}
    (h : listContent vs = some (.list items)) : items = vs := by
  rw [← itemsOf_listContent vs, h, Filling.itemsOf]

/-- A value without nodes is well formed in the form in which it stands in the place of a
    node. -/
theorem wellFormed_normalize {v : Value} (h : v.NodeFree) :
    Everywhere Value.WellFormed v.normalize := by
  induction h with
  | intro here hinside ih =>
    rename_i v
    have hv : v.NodeFree := ⟨here, hinside⟩
    cases v with
    | undefined | null | bool => exact .leaf (Value.wellFormed_of_node? rfl) rfl
    | str s => exact wellFormed_text s
    | number x => exact wellFormed_text _
    | list items =>
      rw [Value.normalize, Value.normalizeAll_eq_map]
      refine wellFormed_fragment fun w hw => ?_
      obtain ⟨u, hu, rfl⟩ := List.mem_map.1 hw
      exact ih u hu
    | dict | handler | foreign => exact hv.wellFormed
    | node n => cases here

/-! ## Filling -/

section Filling

variable {f : Filling}

/-- What is true everywhere of the values of attributes and of those put in is true
    everywhere of the values of the filled attributes. -/
theorem everywhere_attrs {P : Value → Prop} (hslots : ∀ index, Everywhere P (f.value index))
    {d : Dict Value} (hd : ∀ e ∈ d, Everywhere P e.2) : ∀ e ∈ f.attrs d, Everywhere P e.2 := by
  have hfill {v : Value} (hv : Everywhere P v) : Everywhere P (f.fillAttr v) := by
    rw [Filling.fillAttr.eq_def]
    split
    · split
      · exact hslots _
      · exact hv
    · exact hv
  have hone {name : String} {v : Value} (hv : Everywhere P v) :
      ∀ e ∈ [(name, v)], Everywhere P e.2 := fun e he => List.mem_singleton.1 he ▸ hv
  intro e he
  obtain ⟨⟨name, v⟩, hmem, hexpand⟩ := List.mem_flatMap.1 (Dict.mem_ofList he)
  have hv : Everywhere P v := hd _ hmem
  revert e
  rw [Filling.expand]
  split
  · exact fun e _ => hone (hfill hv) e
  · rename_i index _
    have hindex := hslots index
    split
    · -- Only named: the value is spread.
      split
      · rename_i h hvalue
        rw [hvalue] at hindex
        split
        · exact fun e _ => hone hindex e
        · exact fun e _ => hone hv e
      · rename_i entries hvalue
        rw [hvalue] at hindex
        exact fun e _ he => hindex.of_mem (List.mem_map_of_mem he)
      · exact fun e _ => hone hv e
    · split
      · exact fun e _ => hone (hfill hv) e
      · exact fun e _ he => absurd he List.not_mem_nil

/-- A node that is rebuilt with filled attributes is well-formed if its filled children are and
    its content fits. -/
theorem wellFormed_rebuild (hfree : ∀ index, (f.value index).NodeFree) {tag : String}
    {children : Option (Children Value)} {old : Option (Dict Value)}
    (hfits : ContentFits tag children) (hold : ∀ d, old = some d → ∀ e ∈ d, IsWritten e.2)
    (hchildren : ∀ items, children = some (.list items) →
      ∀ v ∈ items, Everywhere Value.WellFormed v) :
    Everywhere Value.WellFormed (f.rebuild (some tag) old children {}) := by
  refine wellFormed_node hfits (fun d hd => ?_) hchildren
  obtain ⟨d', hd', rfl⟩ := Option.map_eq_some_iff.1 hd
  refine everywhere_attrs (fun index => (hfree index).wellFormed) fun e he => ?_
  rcases hold d' hd' e he with hbool | ⟨s, hs⟩
  · rw [hbool]
    exact .leaf (Value.wellFormed_of_node? rfl) rfl
  · rw [hs]
    exact Value.wellFormed_str s

/-- The pieces of a text are texts and the values of its slots. -/
theorem wellFormed_pieces (hfree : ∀ index, (f.value index).NodeFree)
    (tail : List (Nat × List Char)) : ∀ v ∈ f.pieces tail, Everywhere Value.WellFormed v := by
  induction tail with
  | nil => simp [Filling.pieces]
  | cons e tail ih =>
    rw [Filling.pieces, List.forall_mem_cons, List.forall_mem_cons]
    exact ⟨(hfree e.1).wellFormed, Value.wellFormed_str _, ih⟩

/-- Only a node of a text may become a group when it is filled. -/
theorem retag_of_ne {name : String} (h : name ≠ textTag) (content : Option (Children Value)) :
    Filling.retag (some name) content = some name := by
  rw [Filling.retag.eq_def]
  split
  · rw [if_neg (by simpa using h)]
  · rfl

/-- The content of an element is filled value by value. -/
theorem fillContent_listContent {vs : List Value} (h : ∀ v ∈ vs, IsView v) :
    f.fillContent (listContent vs) = listContent (vs.map f.fill) := by
  have hfill : f.fillAll vs = vs.map f.fill := fillAll_of_isTree fun v hv => (h v hv).isTree
  cases vs with
  | nil => rfl
  | cons v vs => exact congrArg (fun ws => some (Children.list ws)) hfill

/-- A filled tree is well formed, if the values put in have no nodes. -/
theorem IsView.wellFormed_fill (hfree : ∀ index, (f.value index).NodeFree) {v : Value}
    (h : IsView v) : Everywhere Value.WellFormed (f.fill v) := by
  induction h with
  | text s =>
    rw [fill_text, Filling.text]
    split
    · exact wellFormed_text s
    · -- The text was cut, and its mark has become that of a group.
      refine wellFormed_fragment ?_
      rw [List.forall_mem_cons]
      exact ⟨Value.wellFormed_str _, wellFormed_pieces hfree _⟩
  | @group vs h ih =>
    rw [fill_group f h]
    exact wellFormed_fragment (List.forall_mem_map.2 ih)
  | @element name vs attrs hname h ih =>
    have hold : ∀ d, Attribute.toDict? attrs = some d → ∀ e ∈ d, IsWritten e.2 :=
      fun d hd => Attribute.isWritten_toDict? hd
    have hvs : ∀ v ∈ vs.map f.fill, Everywhere Value.WellFormed v := List.forall_mem_map.2 ih
    rcases fill_make_cases f name (listContent vs) (Attribute.toDict? attrs) with
      ⟨-, hfill⟩ | ⟨index, -, hfill | hfill⟩ <;> rw [hfill]
    · -- The name stays, and so does how much there is in the element.
      rw [fillContent_listContent h, retag_of_ne hname.startsWithWord.ne_textTag]
      exact wellFormed_rebuild hfree (contentFits_listContent hname _) hold fun items hitems =>
        listContent_eq_some hitems ▸ hvs
    · exact wellFormed_normalize (hfree index)
    · -- The value heads the content of the element, which is a group now.
      refine wellFormed_rebuild hfree (.group _) hold fun items hhead => ?_
      cases hhead
      rw [fillContent_listContent h, itemsOf_listContent, List.forall_mem_cons]
      exact ⟨wellFormed_normalize (hfree index), hvs⟩

end Filling

/-! ## Rendering -/

/-- A missing value is no node, either. -/
theorem Filling.nodeFree_value {s : Slots} {values : List Value} (h : ∀ v ∈ values, v.NodeFree)
    (index : Nat) : (Filling.value ⟨s, values⟩ index).NodeFree := by
  rw [Filling.value]
  cases hv : values[index]? with
  | none => exact Value.nodeFree_undefined
  | some v => exact h v (List.mem_of_getElem? hv)

/-- Every node of what a template renders is well formed, at any depth, if the values have no
    nodes. It makes no difference how many values there are. -/
theorem Template.render_wellFormed {fragments : List String} {t : Template}
    (h : Template.compile fragments = .ok t) {values : List Value}
    (hvalues : ∀ v ∈ values, v.NodeFree) : Everywhere Value.WellFormed (t.render values) := by
  obtain ⟨block, hparse, -, hrender⟩ := render_eq_fill h
  rw [hrender]
  rcases isView_of_parse hparse with hundefined | hview
  · rw [hundefined]
    exact Value.nodeFree_undefined.wellFormed
  · exact hview.wellFormed_fill (Filling.nodeFree_value hvalues)

/-- A tag of a slot with content, one without, a key that is spread over the written one, a
    text that is cut, a list that stands for several nodes, and a slot without a value. -/
theorem Template.render_wellFormed_spread :
    let fragments := ["", "\n  a(key='k' ", ")\n    | b ", " c\n  ", "\n  ", ""]
    let values := [.list [.str "x", .number 1], .dict [("key", .null), ("id", .list [])],
      .bool true, .list [.str "y", .list []]]
    (∀ v ∈ values, v.NodeFree) ∧ ∃ t, Template.compile fragments = .ok t ∧
      Everywhere Value.WellFormed (t.render values) := by
  intro fragments values
  have hleaf {v : Value} (h : v.node? = none) (hinside : v.inside = []) : v.NodeFree :=
    .leaf h hinside
  have hlist {vs : List Value} (h : ∀ v ∈ vs, v.NodeFree) : (Value.list vs).NodeFree := ⟨rfl, h⟩
  have hvalues : ∀ v ∈ values, v.NodeFree := by
    simp only [values, List.forall_mem_cons]
    refine ⟨hlist ?_, ⟨rfl, ?_⟩, hleaf rfl rfl, hlist ?_, fun v hv => absurd hv List.not_mem_nil⟩
    · simp only [List.forall_mem_cons]
      exact ⟨hleaf rfl rfl, hleaf rfl rfl, fun v hv => absurd hv List.not_mem_nil⟩
    · simp only [Value.inside, List.map_cons, List.map_nil, List.forall_mem_cons]
      exact ⟨hleaf rfl rfl, hleaf rfl rfl, fun v hv => absurd hv List.not_mem_nil⟩
    · simp only [List.forall_mem_cons]
      exact ⟨hleaf rfl rfl, hleaf rfl rfl, fun v hv => absurd hv List.not_mem_nil⟩
  have hcompile : (Template.compile fragments).toOption.isSome = true := by decide +kernel
  obtain ⟨t, ht⟩ := Option.isSome_iff_exists.1 hcompile
  exact ⟨hvalues, t, ok_of_toOption ht, render_wellFormed (ok_of_toOption ht) hvalues⟩

end SlotMarkup
