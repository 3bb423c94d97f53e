import SlotMarkup.Proofs.SlotLines
import SlotMarkup.Proofs.TokenFree
import SlotMarkup.Proofs.TreeFilling

/-!
# Rendered outlines

What a template renders has the shape of the outline of its lines (`Renders`): the values
of the lines stand one after the other, and those of the lines nested below a line at the
end of the children of a node of that line (`HoldsLast`). What is told is the order of
the values and that those of siblings have nothing between them. How many nodes are
around the values of nested lines, and what is before them, is left open. A line with one
slot has the value of the slot. A line with several slots, one directly after the other,
has an element instead that is named by all of their tokens (`LineValues`).

* `renders_of_shows`: what is parsed in the shape of an outline renders in this shape;
* `Template.render_outline`: of the lines that are made only of slots, those with one
  slot render its value, and no other renders its values.
-/

namespace SlotMarkup

/-! ## The shape of what is rendered -/

/-- These values stand, in this order and with nothing between or behind them, at the end of the
    children of a node, or of its last child's, and so on. At which depth they stand is left open,
    and so is what stands before them. -/
inductive HoldsLast (vs : List Value) : Value → Prop
  | nothing {v : Value} (h : vs = []) : HoldsLast vs v
  | children {n : Node} {us : List Value} (h : n.childList? = some (us ++ vs)) :
      HoldsLast vs (.node n)
  | last {n : Node} {us : List Value} {v : Value} (h : n.childList? = some (us ++ [v]))
      (more : HoldsLast vs v) : HoldsLast vs (.node n)

/-- The values of the lines of a forest. A line with none nested below it has its `own` values,
    any other has a node that holds the values of those below it. Only the order of siblings and
    that they are next to each other is told, not how deep in the node they are. -/
inductive Renders (own : OpeningLine → List Value → Prop) : Forest OpeningLine → List Value → Prop
  | nil : Renders own .nil []
  | leaf {l f us vs} (h : own l us) (more : Renders own f vs) :
      Renders own (.cons l .nil f) (us ++ vs)
  | nested {l g f v ws vs} (hg : g ≠ .nil) (below : Renders own g ws) (h : HoldsLast ws v)
      (more : Renders own f vs) : Renders own (.cons l g f) (v :: vs)

/-- What a line renders to if none is nested below it: a comment to nothing, a text to the
    nodes of the text, a slot to its value, several slots in a row to an element that is
    named by their tokens, and any other tag to a value. -/
inductive LineValues (f : Filling) (l : OpeningLine) : List Value → Prop
  | comment {t value buffered} (hl : l.content = [t]) (ht : t.lexeme = .comment value buffered) :
      LineValues f l []
  | text {t value} (hl : l.content = [t]) (ht : t.lexeme = .text value) (afterText : Bool) :
      LineValues f l (f.fillAll (itemsValues (textItems afterText value t.span)))
  | slot {i} (h : l.OnlySlots f.slots [i]) : LineValues f l [(f.value i).normalize]
  | slots {is} (h : l.OnlySlots f.slots is) (hlength : is.length ≠ 1) :
      LineValues f l [.node (Node.make (String.ofList (f.slots.tokens is)) none none)]
  | tag {v} (h : ∀ is, ¬l.OnlySlots f.slots is) (hchain : IsChain l.content) : LineValues f l [v]

/-! ## Filling elements -/

theorem IsTree.fillAll_single {f : Filling} {v : Value} (h : IsTree v) :
    f.fillAll [v] = [f.fill v] :=
  fillAll_of_isTree (List.forall_mem_singleton.2 h)

/-- The filled children of an element stand at the end of what the element is filled to. -/
theorem fill_nonempty (f : Filling) (name : String) (attrs : Option (Dict Value))
    {vs : List Value} (hne : vs ≠ []) : ∃ n us,
      f.fill (.node (Node.make name (some (.list vs)) attrs)) = .node n ∧
        n.childList? = some (us ++ f.fillAll vs) := by
  rw [Node.make, Filling.fill]
  cases hslot : f.tagSlot? (some name) with
  | none => exact ⟨_, [], rfl, rfl⟩
  | some index =>
    dsimp only
    rw [if_neg]
    · exact ⟨_, [(f.value index).normalize], rfl, rfl⟩
    · simpa [NodeOf.isChildless, Children.isEmpty] using hne

/-- An element with nothing in it is its value if its name is the token of a slot, and
    stays as it is if there is no token in its place. -/
theorem fill_empty (f : Filling) (name : String) :
    f.fill (.node (Node.make name none none)) =
      match f.slots.index? name with
      | some index => (f.value index).normalize
      | none => .node (Node.make name none none) := by
  have hslot : f.tagSlot? (some name) = f.slots.index? name := rfl
  rw [Node.make, Filling.fill, hslot]
  cases f.slots.index? name with
  | none => rfl
  | some index => rfl

/-- Elements are what items stand for, if no tag is named as a group. -/
theorem elements_of_heads (is : List Item)
    (h : ∀ head ∈ itemsHeads is, head.name ≠ fragmentTag) :
    ∀ v ∈ itemsValues is, IsElement v :=
  fun v hv => ((treeMap_id.items is h).element v hv).1

/-! ## Lines -/

section Lines

variable {f : Filling}

/-- The items in the last tag of a line are in the line's tag. -/
theorem ShowsTag.heads {js : List Item} {ts : List Token} {tag : Tag} (h : ShowsTag js ts tag) :
    ∀ head ∈ itemsHeads js, head ∈ tagHeads tag := by
  induction h with
  | last hh hb inner span =>
    intro head hhead
    rw [tagHeads, bodyHeads, blockHeads, itemsHeads_append]
    exact List.mem_cons_of_mem _ (List.mem_append_right _ hhead)
  | colon hh hc only inner span ih =>
    exact fun head hhead => List.mem_cons_of_mem _ (List.mem_append_left _ (ih head hhead))

theorem ShowsTag.isChain {js : List Item} {ts : List Token} {tag : Tag} (h : ShowsTag js ts tag) :
    IsChain ts := by
  induction h with
  | last hh hb => exact .last hh hb
  | colon hh hc _ _ _ ih => exact .colon hh hc ih

/-- What is filled in for a tag with items in its last tag holds the values of these. -/
theorem holdsLast_of_showsTag {js : List Item} {ts : List Token} {tag : Tag}
    (h : ShowsTag js ts tag) (hnames : ∀ head ∈ tagHeads tag, head.name ≠ fragmentTag) :
    HoldsLast (f.fillAll (itemsValues js)) (f.fill (tagValue tag)) := by
  induction h with
  | @last hs bs hh hb inner span =>
    have helements := elements_of_heads (bs.filterMap Token.bodyText? ++ js)
      fun head hhead => hnames head (List.mem_cons_of_mem _ hhead)
    rw [tagValue, bodyValues, blockValues, contentOf_gather helements, listContent]
    rw [itemsValues_append]
    -- Behind the text of the line there are the items below it, if there are any.
    split
    · rename_i hempty
      have hnone := (List.append_eq_nil_iff.1 (List.isEmpty_iff.1 hempty)).2
      rw [hnone]
      exact .nothing rfl
    · rename_i hne
      obtain ⟨n, us, hfill, hchildren⟩ := fill_nonempty f (headName hs)
        (Attribute.toDict? (hs.filterMap Token.attribute?)) (mt List.isEmpty_iff.2 hne)
      rw [hfill]
      rw [fillAll_append, ← List.append_assoc] at hchildren
      exact .children hchildren
  | @colon hs c ts child hh hc only inner span ih =>
    have hchild : ∀ head ∈ tagHeads child, head.name ≠ fragmentTag := fun head hhead =>
      hnames head (List.mem_cons_of_mem _ (List.mem_append_left _ hhead))
    have helements := elements_of_heads [.tag child]
      fun head hhead => hnames head (List.mem_cons_of_mem _ hhead)
    have hvalues : itemsValues [.tag child] = [tagValue child] := rfl
    rw [tagValue, bodyValues, blockValues, contentOf_gather helements, hvalues]
    obtain ⟨n, us, hfill, hchildren⟩ := fill_nonempty f (headName hs)
      (Attribute.toDict? (hs.filterMap Token.attribute?)) (List.cons_ne_nil (tagValue child) [])
    rw [(isTree_tag child).fillAll_single] at hchildren
    have hlist : listContent [tagValue child] = some (.list [tagValue child]) := rfl
    rw [hlist, hfill]
    exact .last hchildren (ih hchild)

/-- What is filled in for a line of slots. -/
theorem fill_of_onlySlots {l : OpeningLine} {is : List Nat} {tag : Tag}
    (hslots : l.OnlySlots f.slots is)
    (hcontent : l.content.map Token.lexeme = [.tag (String.ofList (f.slots.tokens is))])
    (h : ShowsTag [] l.content tag) : LineValues f l [f.fill (tagValue tag)] := by
  have hvalue : tagValue tag =
      .node (Node.make (String.ofList (f.slots.tokens is)) none none) :=
    tagValue_of_showsTag (e := ⟨f.slots.tagName is hslots.ne_nil, none, 0⟩) h hcontent
      (fun v hv => by simp [itemsValues] at hv)
  rw [hvalue, fill_empty, Slots.index?_tokens hslots.lt]
  by_cases hone : is.length = 1
  · obtain ⟨i, rfl⟩ := List.length_eq_one_iff.1 hone
    exact .slot hslots
  · rw [if_neg hone]
    exact .slots hslots hone

/-- What is parsed in the shape of an outline renders in this shape. -/
theorem renders_of_shows {a : Bool} {g : Forest OpeningLine} {is : List Item} (h : Shows a g is)
    (hnames : ∀ head ∈ itemsHeads is, head.name ≠ fragmentTag)
    (hcontent : ∀ l ∈ g.toList, ∀ is, l.OnlySlots f.slots is →
      l.content.map Token.lexeme = [.tag (String.ofList (f.slots.tokens is))]) :
    Renders (LineValues f) g (f.fillAll (itemsValues is)) := by
  induction h with
  | nil => exact .nil
  | @text a l t value g is hl ht more ih =>
    rw [itemsHeads_append] at hnames
    rw [itemsValues_append, fillAll_append]
    exact .leaf (.text hl ht a) (ih (fun head hhead => hnames head (List.mem_append_right _ hhead))
      fun l hl => hcontent l (List.mem_cons_of_mem _ hl))
  | @comment a l t value buffered g is hl ht more ih =>
    have hmore := ih hnames fun l hl => hcontent l (List.mem_cons_of_mem _ hl)
    exact .leaf (.comment hl ht) hmore
  | @tag a l tag g is ht more ih =>
    have hvalues : itemsValues (.tag tag :: is) = [tagValue tag] ++ itemsValues is := rfl
    have hmore := ih (fun head hhead => hnames head (List.mem_append_right _ hhead))
      fun l hl => hcontent l (List.mem_cons_of_mem _ hl)
    rw [hvalues, fillAll_append, (isTree_tag tag).fillAll_single]
    refine .leaf ?_ hmore
    by_cases hslots : ∃ is, l.OnlySlots f.slots is
    · obtain ⟨is, hslots⟩ := hslots
      exact fill_of_onlySlots hslots (hcontent l List.mem_cons_self is hslots) ht
    · exact .tag (not_exists.1 hslots) ht.isChain
  | @nested a l below js tag g is hg hbelow span ht more ih ih' =>
    have hvalues : itemsValues (.tag tag :: is) = [tagValue tag] ++ itemsValues is := rfl
    have hblock : itemsValues [.block ⟨js, span⟩] = itemsValues js := by
      simp [itemsValues, itemValues, blockValues]
    have htag : ∀ head ∈ tagHeads tag, head.name ≠ fragmentTag := fun head hhead =>
      hnames head (List.mem_append_left _ hhead)
    have hholds := holdsLast_of_showsTag (f := f) ht htag
    rw [hblock] at hholds
    have hjs : ∀ head ∈ itemsHeads js, head.name ≠ fragmentTag := fun head hhead =>
      htag head (ht.heads head (List.mem_append_left _ hhead))
    have hmore := ih' (fun head hhead => hnames head (List.mem_append_right _ hhead))
      fun l hl => hcontent l (List.mem_cons_of_mem _ (List.mem_append_right _ hl))
    rw [hvalues, fillAll_append, (isTree_tag tag).fillAll_single]
    exact .nested hg (ih hjs fun l hl => hcontent l
      (List.mem_cons_of_mem _ (List.mem_append_left _ hl))) hholds hmore

end Lines

/-! ## Templates -/

/-- The values of a block are gathered to what the block's tree is filled to. -/
theorem fill_toValue (f : Filling) (b : Block) :
    f.fill b.toValue = Value.ofOption (gather (f.fillAll (itemsValues b.nodes))) := by
  rw [Block.toValue, blockValues]
  have htrees := isTree_items b.nodes
  generalize itemsValues b.nodes = vs at htrees ⊢
  rcases vs with _ | ⟨v, _ | ⟨w, vs⟩⟩
  · rfl
  · rw [(htrees v List.mem_cons_self).fillAll_single]
    rfl
  · -- Two values or more are in a group, which stays one when it is filled.
    have hgroup : f.slots.index? fragmentTag = none := Slots.index?_of_length_lt (by decide)
    rw [fillAll_of_isTree htrees]
    exact (fill_children hgroup (by decide)).trans (by rw [fillAll_of_isTree htrees]; rfl)

/-- The values that a line of slots renders to are those of its slots, with no token left in
    them, just if there is one slot on the line. -/
theorem lineValues_eq_iff {f : Filling} (hclean : ∀ index, (f.value index).Clean)
    {l : OpeningLine} {is : List Nat} (hslots : l.OnlySlots f.slots is)
    (hcontent : l.content.map Token.lexeme = [.tag (String.ofList (f.slots.tokens is))])
    {us : List Value} (h : LineValues f l us) :
    (us = is.map (fun i => (f.value i).normalize) ∧ ∀ u ∈ us, u.Clean) ↔ is.length = 1 := by
  cases h with
  | comment hl ht | text hl ht => simp [hl, ht] at hcontent
  | tag h => exact absurd hslots (h is)
  | slot h =>
    obtain rfl := h.unique hslots
    simpa using (hclean _).normalize
  | slots h hlength =>
    -- The element is named by tokens, so it is not clean, whatever the values are.
    obtain rfl := hslots.unique h
    refine ⟨fun ⟨_, hall⟩ => ?_, fun hone => absurd hone hlength⟩
    have hname := (hall _ List.mem_cons_self).own (s := String.ofList (f.slots.tokens is)) (by
      simp [Value.ownTexts, Node.make])
    rw [String.toList_ofList] at hname
    exact absurd (Slots.mark_prefix_tokens h.ne_nil).isInfix hname

/-- What a template with slots renders has the shape of the outline of its text: the values of
    sibling lines are in order, with nothing between them. How deep the values of nested lines
    stand in the node of the line above them is left open. Where a line is made only of slots,
    with none nested below it, there are the values of the slots, with no token left in them, just
    if it is one slot. -/
theorem Template.render_outline {fragments : List String} {t : Template}
    (h : Template.compile fragments = .ok t) (hcount : 0 < (Slots.ofFragments fragments).count)
    {values : List Value} (hvalues : ∀ v ∈ values, v.Clean) :
    let s := Slots.ofFragments fragments
    let f : Filling := ⟨s, values⟩
    ∃ lines, ∃ g : Forest OpeningLine, ∃ vs,
      openingLines (dedent (s.encode fragments)) = .ok lines ∧
      g.toList = lines ∧ g.edges none = enclosers [] lines ∧ g.Level 0 ∧
      Renders (LineValues f) g vs ∧ t.render values = Value.ofOption (gather vs) ∧
      ∀ l ∈ lines, ∀ is us, l.OnlySlots s is → LineValues f l us →
        ((us = is.map (fun i => (f.value i).normalize) ∧ ∀ u ∈ us, u.Clean) ↔
          is.length = 1) := by
  intro s f
  obtain ⟨tokens, block, hscan, hparse, rfl⟩ := compile_eq_ok h
  have hblock : Block.parse (dedent (s.encode fragments)) = .ok block := by
    rw [Block.parse, hscan]
    exact hparse
  -- What is parsed has the shape of the outline, so what is rendered has it.
  obtain ⟨ms, hms, hm⟩ := misplaced_of_parse hblock
  obtain ⟨block', hblock', lines, g, hlines, rfl, hlevel, hshows⟩ := shows_of_scanMarked hms hm
  obtain rfl := Except.ok.inj (hblock.symm.trans hblock')
  have hnames := blockHeads_name_ne hscan hparse
  rw [blockHeads] at hnames
  have hcontent : ∀ l ∈ g.toList, ∀ is, l.OnlySlots s is →
      l.content.map Token.lexeme = [.tag (String.ofList (s.tokens is))] :=
    fun l hl is hslots => content_of_onlySlots hlines hl hslots
  refine ⟨_, g, f.fillAll (itemsValues block.nodes), hlines, rfl, edges_eq_enclosers hlevel,
    hlevel, renders_of_shows hshows hnames hcontent, ?_,
    fun l hl is us hslots => lineValues_eq_iff (Filling.clean_value hvalues) hslots
      (hcontent l hl is hslots)⟩
  rw [if_neg (Nat.pos_iff_ne_zero.1 hcount)]
  exact fill_toValue f block

/-- A line with one slot and a line with two of them, in a list. -/
theorem Template.render_outline_list :
    let fragments := ["ul\n  ", "\n  ", "", "\np"]
    let s := Slots.ofFragments fragments
    let f : Filling := ⟨s, [.str "a", .str "b", .str "c"]⟩
    ∃ t lines, ∃ g : Forest OpeningLine, ∃ vs, Template.compile fragments = .ok t ∧
      0 < s.count ∧ (∀ v ∈ f.values, v.Clean) ∧ g.toList = lines ∧
      Renders (LineValues f) g vs ∧ t.render f.values = Value.ofOption (gather vs) ∧
      (∃ l ∈ lines, l.OnlySlots s [0] ∧ ∀ us, LineValues f l us →
        us = [.node (Node.text "a")]) ∧
      ∃ l ∈ lines, l.OnlySlots s [1, 2] ∧ ∀ us, LineValues f l us →
        ¬(us = [.node (Node.text "b"), .node (Node.text "c")] ∧ ∀ u ∈ us, u.Clean) := by
  intro fragments s f
  have hvalues : ∀ v ∈ f.values, v.Clean := by
    simp only [f, List.forall_mem_cons]
    refine ⟨Value.clean_str ?_, Value.clean_str ?_, Value.clean_str ?_,
      fun v hv => absurd hv List.not_mem_nil⟩
    all_goals exact Slots.clean_of_length_lt (by decide)
  have hcount : 0 < s.count := by decide
  have hcompile : (Template.compile fragments).toOption.isSome = true := by decide +kernel
  have htexts : (openingLines (dedent (s.encode fragments))).toOption.map
      (·.map fun l => (l.start.drop l.indent).line) =
        some ["ul".toList, s.tokens [0], s.tokens [1, 2], "p".toList] := by
    decide +kernel
  obtain ⟨t, ht⟩ := Option.isSome_iff_exists.1 hcompile
  obtain ⟨lines, g, vs, hlines, hg, -, -, hrenders, hrender, hslots⟩ :=
    render_outline (ok_of_toOption ht) hcount hvalues
  rw [hlines] at htexts
  have htexts := Option.some.inj htexts
  have hline (is : List Nat) (hmem : s.tokens is ∈ lines.map fun l => (l.start.drop l.indent).line)
      (hne : is ≠ []) (hlt : ∀ i ∈ is, i < s.count) : ∃ l ∈ lines, l.OnlySlots s is := by
    obtain ⟨l, hl, hl'⟩ := List.mem_map.1 hmem
    exact ⟨l, hl, hl', hne, hlt⟩
  obtain ⟨l, hl, hone⟩ := hline [0] (by simp [htexts]) (by decide) (by decide)
  obtain ⟨l', hl', htwo⟩ := hline [1, 2] (by simp [htexts]) (by decide) (by decide)
  refine ⟨t, lines, g, vs, ok_of_toOption ht, hcount, hvalues, hg, hrenders, hrender,
    ⟨l, hl, hone, fun us hus => ((hslots l hl _ us hone hus).2 rfl).1⟩, l', hl', htwo, ?_⟩
  exact fun us hus hall => absurd ((hslots l' hl' _ us htwo hus).1 hall) (by decide)

/-- Two slots on one line are read as the name of one element, and neither value is
    shown. -/
theorem Template.render_adjacent_slots :
    let tree := (Template.compile ["ul\n  ", "", ""]).toOption.map fun t =>
      t.render [.str "a", .str "b"]
    let children := (tree.bind Value.node?).bind NodeOf.childList?
    children.map (·.map fun v => v.node?.bind NodeOf.tag) =
        some [some "emjay_substitution0emjay_substitution1"] ∧
      ¬Slots.Clean "emjay_substitution0emjay_substitution1".toList := by
  refine ⟨by decide +kernel, fun h => h ?_⟩
  decide +kernel

end SlotMarkup
