import SlotMarkup.Proofs.MarkupTrees
import SlotMarkup.Proofs.SlotRewording
import SlotMarkup.Proofs.TreeMeasure

/-!
# Filling a tree with strings

A text that is filled becomes a group of strings. Joined again (`Value.rejoin`), it is
the text with the strings in the place of the tokens. So a tree that is filled with
strings and joined again is the tree of the same items in other words
(`treeMap_fill`), if tokens stand in texts only, or are all of an attribute's value
(`Fillable`).

A function on values that goes along with the building of trees is a `TreeMap`. It
has to be checked on texts, on single tags and on groups only (`TreeMap.toValue`).
-/

namespace SlotMarkup

/-! ## Joining texts -/

/-- The concatenation of some strings, of which there is at least one. -/
def joinPieces? : List Value → Option String
  | [.str s] => some s
  | .str s :: vs => (joinPieces? vs).map (s ++ ·)
  | _ => none

/-- The text that a node's content was split from, if the node is a group of strings. -/
def splitText? (tag : Option String) : Option (Children Value) → Option String
  | some (.list items) => if tag = some fragmentTag then joinPieces? items else none
  | _ => none

mutual

/-- A value in which every group of strings is one text again. -/
def Value.rejoin : Value → Value
  | .node ⟨tag, key, attrs, children, reserved⟩ =>
    match splitText? tag children with
    | some text => .node ⟨some textTag, key, attrs, some (.text text), reserved⟩
    | none => .node ⟨tag, key, attrs, rejoinContent children, reserved⟩
  | .undefined => .undefined
  | .null => .null
  | .bool b => .bool b
  | .number x => .number x
  | .str s => .str s
  | .list items => .list items
  | .dict entries => .dict entries
  | .handler h => .handler h
  | .foreign identity => .foreign identity

/-- Values in which every group of strings is one text again. -/
def rejoinAll : List Value → List Value
  | [] => []
  | v :: vs => v.rejoin :: rejoinAll vs

/-- The content of a node in which every group of strings is one text again. -/
def rejoinContent : Option (Children Value) → Option (Children Value)
  | none => none
  | some (.text s) => some (.text s)
  | some (.list items) => some (.list (rejoinAll items))

end

theorem rejoinAll_eq_map (vs : List Value) : rejoinAll vs = vs.map Value.rejoin := by
  induction vs with
  | nil => rfl
  | cons v vs ih => rw [rejoinAll, ih, List.map_cons]

/-! ## Maps of trees -/

/-- A function takes some elements to others. -/
structure Maps (g : Value → Value) (vs ws : List Value) : Prop where
  map : vs.map g = ws
  element : ∀ v ∈ vs, IsElement v ∧ IsElement (g v)

theorem Maps.nil {g : Value → Value} : Maps g [] [] where
  map := rfl
  element _ hv := absurd hv List.not_mem_nil

/-- Rows of values are mapped one after the other. -/
theorem Maps.append {g : Value → Value} {vs ws vs' ws' : List Value} (h : Maps g vs ws)
    (h' : Maps g vs' ws') : Maps g (vs ++ vs') (ws ++ ws') where
  map := by rw [List.map_append, h.map, h'.map]
  element v hv := (List.mem_append.1 hv).elim (h.element v) (h'.element v)

/-- The values that elements are mapped to are elements. -/
theorem Maps.element_right {g : Value → Value} {vs ws : List Value} (h : Maps g vs ws) :
    ∀ w ∈ ws, IsElement w := by
  rw [← h.map]
  intro w hw
  obtain ⟨v, hv, rfl⟩ := List.mem_map.1 hw
  exact (h.element v hv).2

/-- The tree of a block is taken to the tree of another one if the values of its items are. -/
theorem Maps.toValue {g : Value → Value} {b b' : Block}
    (h : Maps g (blockValues b) (blockValues b'))
    (hgroup : ∀ {vs ws}, Maps g vs ws → g (.node (Node.fragment vs)) = .node (Node.fragment ws))
    (hundefined : g .undefined = .undefined) : g b.toValue = b'.toValue := by
  rw [Block.toValue, Block.toValue]
  generalize blockValues b = vs at h ⊢
  generalize blockValues b' = ws at h ⊢
  have hgroup := hgroup h
  obtain rfl := h.map
  rcases vs with _ | ⟨v, _ | ⟨w, vs⟩⟩
  · exact hundefined
  · rfl
  · exact hgroup

/-- A function that takes the tree of items to the tree of the same items in other words.
    The heads of their tags have the property `P`. -/
structure TreeMap (g : Value → Value) (σ : List Char → List Char) (P : TagHead → Prop) : Prop where
  text : ∀ s, Maps g [.node (Node.text s)] [.node (Node.text (reword σ s))]
  tag : ∀ {name attrs vs ws}, P ⟨name, attrs⟩ → Maps g vs ws →
    Maps g [.node (Node.make name (listContent vs) (Attribute.toDict? attrs))]
      [.node (Node.make (reword σ name) (listContent ws)
        (Attribute.toDict? (attrs.map (Attribute.outline σ))))]
  group : ∀ {vs ws}, Maps g vs ws → g (.node (Node.fragment vs)) = .node (Node.fragment ws)
  undefined : g .undefined = .undefined

namespace TreeMap

variable {g : Value → Value} {σ : List Char → List Char} {P : TagHead → Prop}

mutual

/-- An item is mapped to the item in the changed outline. The induction is on the markup, with a
    lemma for each kind of it. -/
theorem item (hg : TreeMap g σ P) : (i : Item) → (∀ head ∈ itemHeads i, P head) →
    Maps g (itemValues i) (itemValues (outlineItem σ i))
  | .block b, h => hg.block b h
  | .tag t, h => hg.tagItem t h
  | .text t, _ => hg.text t.value
  | .comment _, _ => .nil

/-- The values that items stand for are taken to those of the items in other words. -/
theorem items (hg : TreeMap g σ P) : (is : List Item) → (∀ head ∈ itemsHeads is, P head) →
    Maps g (itemsValues is) (itemsValues (outline σ is))
  | [], _ => .nil
  | i :: is, h => (hg.item i fun head hh => h head (List.mem_append_left _ hh)).append
      (hg.items is fun head hh => h head (List.mem_append_right _ hh))

theorem block (hg : TreeMap g σ P) : (b : BlockOf Item) → (∀ head ∈ blockHeads b, P head) →
    Maps g (blockValues b) (blockValues (outlineBlock σ b))
  | ⟨nodes, _⟩, h => hg.items nodes h

theorem body (hg : TreeMap g σ P) : (b : Option (BlockOf Item)) → (∀ head ∈ bodyHeads b, P head) →
    Maps g (bodyValues b) (bodyValues (outlineBody σ b))
  | none, _ => .nil
  | some b, h => hg.block b h

theorem tagItem (hg : TreeMap g σ P) : (t : TagOf Item) → (∀ head ∈ tagHeads t, P head) →
    Maps g [tagValue t] [tagValue (outlineTag σ t)]
  | ⟨name, attrs, body, _⟩, h => by
    have hbody := hg.body body fun head hh => h head (List.mem_cons_of_mem _ hh)
    rw [tagValue, contentOf_gather fun v hv => (hbody.element v hv).1, outlineTag, tagValue,
      contentOf_gather hbody.element_right]
    exact hg.tag (h _ List.mem_cons_self) hbody

end

/-- The tree of a block is taken to that of the block in other words. -/
theorem toValue (hg : TreeMap g σ P) (b : Block) (h : ∀ head ∈ blockHeads b, P head) :
    g b.toValue = Block.toValue (outlineBlock σ b) := (hg.block b h).toValue hg.group hg.undefined

end TreeMap

/-! ## Attributes -/

theorem filter_map_of_mem {α β : Type} {f : α → β} {p : β → Bool} {q : α → Bool} {l : List α}
    (h : ∀ a ∈ l, p (f a) = q a) : (l.map f).filter p = (l.filter q).map f := by
  rw [List.filter_map]
  exact congrArg _ (List.filter_congr h)

/-- The attributes in other words make the dictionary with other values, if their names
    and classes stay. -/
theorem toDict?_outline {σ : List Char → List Char} {h : Value → Value} {attrs : List Attribute}
    (hname : ∀ a ∈ attrs, reword σ a.name = a.name)
    (hclass : ∀ a ∈ attrs, a.isClass = true → a.value.reword σ = a.value)
    (hvalue : ∀ a ∈ attrs, a.isClass = false → (a.value.reword σ).toValue = h a.value.toValue)
    (hjoined : h (.str (" ".intercalate (Attribute.classes attrs))) =
      .str (" ".intercalate (Attribute.classes attrs))) :
    Attribute.toDict? (attrs.map (Attribute.outline σ)) =
      (Attribute.toDict? attrs).map (Dict.mapValues h) := by
  have hkind : ∀ a ∈ attrs, (a.outline σ).isClass = a.isClass := fun a ha => by
    rw [Attribute.isClass, Attribute.outline, hname a ha, Attribute.isClass]
  have hclasses : Attribute.classes (attrs.map (Attribute.outline σ)) =
      Attribute.classes attrs := by
    rw [Attribute.classes, Attribute.classes, filter_map_of_mem hkind, List.map_map]
    refine congrArg distinct (List.map_congr_left fun a ha => ?_)
    obtain ⟨ha, hc⟩ := List.mem_filter.1 ha
    rw [Function.comp_apply, Attribute.outline, hclass a ha hc]
  have hothers : Attribute.others (attrs.map (Attribute.outline σ)) =
      (Attribute.others attrs).mapValues h := by
    have hother : ∀ a ∈ attrs, (!(a.outline σ).isClass) = !a.isClass :=
      fun a ha => congrArg _ (hkind a ha)
    rw [Attribute.others, Attribute.others, Dict.mapValues_ofList, Dict.mapValues,
      filter_map_of_mem (f := Attribute.outline σ) hother, List.map_map, List.map_map]
    refine congrArg Dict.ofList (List.map_congr_left fun a ha => ?_)
    obtain ⟨ha, hc⟩ := List.mem_filter.1 ha
    simp only [Function.comp_apply, Attribute.outline, hname a ha, hvalue a ha (by simpa using hc)]
  rw [Attribute.toDict?, Attribute.toDict?, hclasses, hothers, List.isEmpty_map]
  split
  · rfl
  · split
    · rfl
    · -- The classes are joined to one value, which is put in last.
      rename_i cs hcs
      rw [Option.map_some, Dict.mapValues_insert, hjoined]

/-- Where attributes were read makes no difference. -/
theorem toDict?_outline_id (attrs : List Attribute) :
    Attribute.toDict? (attrs.map (Attribute.outline id)) = Attribute.toDict? attrs := by
  rw [toDict?_outline (h := id) (by simp) (by simp) (by simp) rfl]
  cases Attribute.toDict? attrs with
  | none => rfl
  | some d => rw [Option.map_some, Dict.mapValues_id]

/-! ## Joining a tree of items -/

/-- Nodes in a row are not a text that a fill has split. -/
theorem splitText?_list (tag : Option String) {vs : List Value}
    (h : ∀ v ∈ vs, ∃ n : Node, v = .node n) :
    splitText? tag (some (.list vs)) = none := by
  have hpieces : joinPieces? vs = none := by
    match vs with
    | [] => rfl
    | v :: vs =>
      obtain ⟨n, rfl⟩ := h v List.mem_cons_self
      cases vs <;> rfl
  rw [splitText?, hpieces]
  split <;> rfl

theorem rejoin_list (name : String) (d : Option (Dict Value)) {vs : List Value}
    (h : ∀ v ∈ vs, ∃ n : Node, v = .node n) :
    (Value.node (Node.make name (some (.list vs)) d)).rejoin =
      .node (Node.make name (some (.list (vs.map Value.rejoin))) d) := by
  rw [Node.make, Value.rejoin, splitText?_list _ h]
  simp only [rejoinContent, rejoinAll_eq_map]
  rfl

/-- Joining texts again goes through an element to what is in it. -/
theorem rejoin_make (name : String) (d : Option (Dict Value)) {vs : List Value}
    (h : ∀ v ∈ vs, ∃ n : Node, v = .node n) :
    (Value.node (Node.make name (listContent vs) d)).rejoin =
      .node (Node.make name (listContent (vs.map Value.rejoin)) d) := by
  cases vs with
  | nil => rw [listContent, Node.make, Value.rejoin]; rfl
  | cons v vs => exact rejoin_list name d h

/-- A text that was not split stays as it is. -/
theorem rejoin_text (s : String) : (Value.node (Node.text s)).rejoin = .node (Node.text s) := by
  rw [Node.text, Node.make, Value.rejoin]
  rfl

/-- A group of pieces is joined to the node of their text. -/
theorem rejoin_split {vs : List Value} {text : String} (h : joinPieces? vs = some text) :
    (Value.node ⟨some fragmentTag, none, none, some (.list vs), {}⟩).rejoin =
      .node (Node.text text) := by
  have hsplit : splitText? (some fragmentTag) (some (.list vs)) = some text := by
    rw [splitText?, if_pos rfl, h]
  rw [Value.rejoin, hsplit]
  rfl

/-- Joining turns nothing else into a node. -/
theorem node_of_rejoin {v : Value} (h : IsElement v.rejoin) : ∃ n : Node, v = .node n := by
  obtain ⟨n, hn, -⟩ := h
  cases v with
  | node m => exact ⟨m, rfl⟩
  | _ => simp [Value.rejoin] at hn

theorem isElement_text (s : String) : IsElement (.node (Node.text s)) := ⟨_, rfl, rfl⟩

/-- A node is an element if it is not named as a group. -/
theorem isElement_make {name : String} (h : name ≠ fragmentTag) (children : Option (Children Value))
    (d : Option (Dict Value)) : IsElement (.node (Node.make name children d)) :=
  ⟨_, rfl, by simpa [NodeOf.isFragment, Node.make] using h⟩

theorem Maps.single {g : Value → Value} {v w : Value} (h : g v = w) (hv : IsElement v)
    (hw : IsElement w) : Maps g [v] [w] where
  map := by rw [List.map_singleton, h]
  element u hu := by
    obtain rfl := List.mem_singleton.1 hu
    exact ⟨hv, h ▸ hw⟩

/-- Where items were read makes no difference to their tree. -/
theorem treeMap_id : TreeMap id id fun head => head.name ≠ fragmentTag where
  text s := by
    rw [reword_id]
    exact .single rfl (isElement_text s) (isElement_text s)
  tag {name attrs vs ws} hname h := by
    rw [reword_id, toDict?_outline_id, ← h.map, List.map_id]
    exact .single rfl (isElement_make hname _ _) (isElement_make hname _ _)
  group {vs ws} h := by
    rw [← h.map, List.map_id]
    rfl
  undefined := rfl

/-- The tree of items has no text that is split. -/
theorem treeMap_rejoin : TreeMap Value.rejoin id fun head => head.name ≠ fragmentTag where
  text s := by
    rw [reword_id]
    exact .single (rejoin_text s) (isElement_text s) (isElement_text s)
  tag {name attrs vs ws} hname h := by
    have hnode : ∀ v ∈ vs, ∃ n : Node, v = .node n := fun v hv => node_of_rejoin (h.element v hv).2
    rw [reword_id, toDict?_outline_id, ← h.map]
    exact .single (rejoin_make name _ hnode) (isElement_make hname _ _) (isElement_make hname _ _)
  group {vs ws} h := by
    rw [← h.map]
    exact rejoin_list fragmentTag none fun v hv => node_of_rejoin (h.element v hv).2
  undefined := rfl

/-! ## Filling with strings -/

/-- What fills the slots of a tree with strings. -/
def stringFilling (s : Slots) (values : List String) : Filling := ⟨s, values.map .str⟩

/-- A token is all of the attribute's value, and not in a class, or there is none in
    it. -/
structure Attribute.Fillable (s : Slots) (a : Attribute) : Prop where
  name : s.contains a.name = false
  value : ∀ text, a.value = .raw text →
    s.contains text = false ∨ (a.isClass = false ∧ (s.index? (unquote text)).isSome = true)

/-- The head of an element in whose name there is no token. -/
structure TagHead.Fillable (s : Slots) (head : TagHead) : Prop where
  name : s.contains head.name = false
  element : head.name ≠ fragmentTag ∧ head.name ≠ textTag
  attrs : ∀ a ∈ head.attrs, a.Fillable s

/-- Quotes are taken off before a rewording or after it. -/
theorem unquote_reword {σ : List Char → List Char} (hσ : Rewording σ) (raw : String) :
    unquote (reword σ raw) = reword σ (unquote raw) := by
  have hquote : isWord '\'' = false := rfl
  have hnw : NoWord ['\''] := fun c hc => List.mem_singleton.1 hc ▸ hquote
  have htoList : (reword σ raw).toList = σ raw.toList := String.toList_ofList
  rw [unquote, unquote]
  split
  · rename_i ds hds
    obtain ⟨cs, hcs, rfl⟩ := hσ.of_cons hquote (htoList.symm.trans hds)
    simp only [hcs, hσ.getLast?_eq_iff hquote]
    split
    · rename_i hlast
      obtain ⟨es, rfl⟩ := List.getLast?_eq_some_iff.1 hlast
      rw [hσ.append_noWord hnw, List.dropLast_concat, List.dropLast_concat, reword_ofList]
    · rfl
  · rename_i hds
    split
    · rename_i cs hcs
      exact absurd (htoList.trans (by rw [hcs, hσ.cons hquote])) (hds _)
    · rfl

section Strings

variable {s : Slots} {values : List String}

/-- The value of a slot is its string, if there is one for each slot. -/
theorem value_stringFilling (hlen : values.length = s.count) {index : Nat} (h : index < s.count) :
    (stringFilling s values).value index = .str (String.ofList (Slots.wordOf values index)) := by
  have hlt : index < values.length := hlen ▸ h
  simp [stringFilling, Filling.value, Slots.wordOf, List.getElem?_eq_getElem hlt]

/-- A value with no token in it stays as it is. -/
theorem fillAttr_of_contains {text : String} (h : s.contains text = false) :
    (stringFilling s values).fillAttr (.str text) = .str text := by
  rw [Filling.fillAttr]
  simp only [stringFilling, Slots.index?_of_contains h]

/-- Taking the quotes off a text leaves no new token in it. -/
theorem contains_unquote {text : String} (h : s.contains text = false) :
    s.contains (unquote text) = false := by
  rw [Slots.contains_eq_false_iff_uses] at h ⊢
  intro index
  rw [unquote_measure (Slots.tokenMeasure_uses s index), h index]

/-- Texts joined by blanks have a token in them if one of the texts has, as no token has a blank. -/
theorem contains_joined_iff {cs : List String} :
    s.contains (" ".intercalate cs) = false ↔ ∀ c ∈ cs, s.contains c = false := by
  simp only [Slots.contains_eq_false_iff_uses, joined_measure (Slots.tokenMeasure_uses s _),
    weigh_eq_zero_iff]
  exact ⟨fun h c hc index => h index c hc, fun h index c hc => h c hc index⟩

/-- The classes of a tag hold no token when they are joined. -/
theorem contains_classes {attrs : List Attribute} (h : ∀ a ∈ attrs, a.Fillable s) :
    s.contains (" ".intercalate (Attribute.classes attrs)) = false := by
  have hclass : ∀ c ∈ Attribute.classes attrs, s.contains c = false := by
    intro c hc
    rw [Attribute.classes, mem_distinct, List.mem_map] at hc
    obtain ⟨a, ha, rfl⟩ := hc
    obtain ⟨ha, hclass⟩ := List.mem_filter.1 ha
    cases hv : a.value with
    | bare => exact Slots.contains_of_length_lt (by decide)
    | raw text =>
      rcases (h a ha).value text hv with hno | ⟨hother, -⟩
      · exact contains_unquote hno
      · simp [hclass] at hother
  exact contains_joined_iff.2 hclass

/-- The names of a tag's attributes are those that are written, and the one of the
    classes. -/
theorem names_toDict? {attrs : List Attribute} {d : Dict Value}
    (h : Attribute.toDict? attrs = some d) : d.names.Nodup ∧
      ∀ name ∈ d.names, name = classKey ∨ ∃ a ∈ attrs, a.name = name := by
  have hnodup : (Attribute.others attrs).names.Nodup := Dict.nodup_names_ofList _
  have hothers : ∀ name ∈ (Attribute.others attrs).names, ∃ a ∈ attrs, a.name = name := by
    intro name hname
    obtain ⟨e, he, rfl⟩ := List.mem_map.1 hname
    obtain ⟨a, ha, rfl⟩ := List.mem_map.1 (Dict.mem_ofList he)
    exact ⟨a, (List.mem_filter.1 ha).1, rfl⟩
  rw [Attribute.toDict?] at h
  split at h
  · simp at h
  · split at h
    · obtain rfl := Option.some.inj h
      exact ⟨hnodup, fun name hname => .inr (hothers name hname)⟩
    · obtain rfl := Option.some.inj h
      refine ⟨Dict.nodup_names_insert hnodup _ _, fun name hname => ?_⟩
      obtain ⟨e, he, rfl⟩ := List.mem_map.1 hname
      rcases Dict.mem_insert he with he | rfl
      · exact .inr (hothers _ (List.mem_map_of_mem he))
      · exact .inl rfl

/-- Where no name is a token, only values are filled in. -/
theorem attrs_eq_mapValues {f : Filling} {d : Dict Value} (hnodup : d.names.Nodup)
    (hnames : ∀ name ∈ d.names, f.slots.index? name = none) :
    f.attrs d = d.mapValues f.fillAttr := by
  have hexpand : d.flatMap (fun e => f.expand e.1 e.2) = d.mapValues f.fillAttr := by
    rw [Dict.mapValues, List.map_eq_flatMap, List.flatMap_def, List.flatMap_def]
    refine congrArg List.flatten (List.map_congr_left fun e he => ?_)
    simp only [Filling.expand, hnames e.1 (List.mem_map_of_mem he)]
  rw [Filling.attrs, hexpand]
  exact Dict.ofList_of_nodup (by rwa [Dict.names_mapValues])

/-- Filling the attributes of a tag with strings gives those of the tag in other
    words. -/
theorem toDict?_fill (hσ : Rewording (s.refill (Slots.wordOf values)))
    (hlen : values.length = s.count) {attrs : List Attribute} (h : ∀ a ∈ attrs, a.Fillable s) :
    (Attribute.toDict? attrs).map (stringFilling s values).attrs =
      Attribute.toDict? (attrs.map (Attribute.outline (s.refill (Slots.wordOf values)))) := by
  have hvalue : ∀ a ∈ attrs, a.isClass = false →
      (a.value.reword (s.refill (Slots.wordOf values))).toValue =
        (stringFilling s values).fillAttr a.value.toValue := by
    intro a ha _
    cases hv : a.value with
    | bare => rfl
    | raw text =>
      rw [AttrValue.reword, AttrValue.toValue, AttrValue.toValue]
      rcases (h a ha).value text hv with hno | ⟨-, htoken⟩
      · -- There is nothing to fill in, in the value and in its contents.
        rw [Slots.reword_of_contains hno, fillAttr_of_contains (contains_unquote hno)]
      · -- The contents are a token: what is filled in is the word itself.
        obtain ⟨index, hindex⟩ := Option.isSome_iff_exists.1 htoken
        obtain ⟨hlt, heq⟩ := Slots.index?_eq_some_iff.1 hindex
        rw [unquote_reword hσ, reword, heq, Slots.refill_token hlt, Filling.fillAttr]
        simp only [stringFilling, hindex]
        exact (value_stringFilling hlen hlt).symm
  have hclass : ∀ a ∈ attrs, a.isClass = true →
      a.value.reword (s.refill (Slots.wordOf values)) = a.value := by
    intro a ha hc
    cases hv : a.value with
    | bare => rfl
    | raw text =>
      rcases (h a ha).value text hv with hno | ⟨hother, -⟩
      · rw [AttrValue.reword, Slots.reword_of_contains hno]
      · simp [hc] at hother
  rw [toDict?_outline (fun a ha => Slots.reword_of_contains (h a ha).name) hclass hvalue
    (fillAttr_of_contains (contains_classes h))]
  cases hd : Attribute.toDict? attrs with
  | none => rfl
  | some d =>
    obtain ⟨hnodup, hnames⟩ := names_toDict? hd
    refine congrArg some (attrs_eq_mapValues hnodup fun name hname => ?_)
    refine Slots.index?_of_contains ?_
    rcases hnames name hname with rfl | ⟨a, ha, rfl⟩
    · exact Slots.contains_of_length_lt (by decide)
    · exact (h a ha).name

/-! ## Filled trees -/

theorem fill_list {f : Filling} {name : String} (hname : f.slots.index? name = none)
    (htext : name ≠ textTag) (d : Option (Dict Value)) {vs : List Value}
    (h : ∀ v ∈ vs, StandsAlone (f.fill v)) :
    f.fill (.node (Node.make name (some (.list vs)) d)) =
      .node (Node.make name (some (.list (vs.map f.fill))) (d.map f.attrs)) := by
  rw [fill_children hname htext, fillAll_of_standsAlone h]

/-- Filling goes through an element to its attributes and to what is in it, if its name is no
    token. -/
theorem fill_make {f : Filling} {name : String} (hname : f.slots.index? name = none)
    (htext : name ≠ textTag) (d : Option (Dict Value)) {vs : List Value}
    (h : ∀ v ∈ vs, StandsAlone (f.fill v)) :
    f.fill (.node (Node.make name (listContent vs) d)) =
      .node (Node.make name (listContent (vs.map f.fill)) (d.map f.attrs)) := by
  cases vs with
  | nil =>
    have hslot : f.tagSlot? (some name) = none := hname
    rw [listContent, Node.make, Filling.fill]
    simp only [hslot]
    rfl
  | cons v vs => exact fill_list hname htext d h

/-- The pieces of a text, joined again, are the text with the words in place of the tokens. -/
theorem joinPieces?_pieces {f : Filling} {word : Nat → List Char} (head : List Char)
    {tail : List (Nat × List Char)}
    (h : ∀ e ∈ tail, f.value e.1 = .str (String.ofList (word e.1))) :
    joinPieces? (.str (String.ofList head) :: f.pieces tail) =
      some (String.ofList (Slots.Cut.join word ⟨head, tail⟩)) := by
  induction tail generalizing head with
  | nil => simp [Filling.pieces, joinPieces?, Slots.Cut.join]
  | cons e tail ih =>
    obtain ⟨index, piece⟩ := e
    rw [Filling.pieces, h _ List.mem_cons_self, joinPieces?, joinPieces?,
      ih piece fun e he => h e (List.mem_cons_of_mem _ he), Slots.Cut.join_cons]
    · simp [String.ofList_append]
    · simp
    · simp

/-- A text that is filled with strings and joined again is the text with the strings in
    the place of the tokens. -/
theorem rejoin_fill_text (hlen : values.length = s.count) (text : String) :
    ((stringFilling s values).fill (.node (Node.text text))).rejoin =
      .node (Node.text (reword (s.refill (Slots.wordOf values)) text)) := by
  rw [fill_text]
  cases htail : (s.cut text.toList).tail with
  | nil =>
    -- Without tokens the text stays a text.
    rw [Slots.reword_of_contains (Slots.contains_eq_false_iff.2 htail)]
    have htext : (stringFilling s values).text text = .text text := by
      simp only [Filling.text, stringFilling, htail]
    rw [htext]
    exact rejoin_text text
  | cons e tail =>
    -- With tokens it is split into strings, and what joins them is the cut with words.
    have hvalues : ∀ e ∈ (s.cut text.toList).tail, (stringFilling s values).value e.1 =
        .str (String.ofList (Slots.wordOf values e.1)) :=
      fun e he => value_stringFilling hlen (Slots.lt_of_mem_cut he)
    have hpieces := joinPieces?_pieces (s.cut text.toList).head hvalues
    have htext : (stringFilling s values).text text =
        .list (.str (String.ofList (s.cut text.toList).head) ::
          (stringFilling s values).pieces (s.cut text.toList).tail) := by
      simp only [Filling.text, stringFilling, htail]
    rw [htext]
    exact rejoin_split hpieces

/-- Filling the tree of items with strings, and joining its texts again, gives the tree of
    the items with the strings in the place of the tokens. -/
theorem treeMap_fill (hσ : Rewording (s.refill (Slots.wordOf values)))
    (hlen : values.length = s.count) :
    TreeMap (fun v => ((stringFilling s values).fill v).rejoin) (s.refill (Slots.wordOf values))
      (TagHead.Fillable s) where
  text text := .single (rejoin_fill_text hlen text) (isElement_text _) (isElement_text _)
  tag {name attrs vs ws} hhead h := by
    have hname : (stringFilling s values).slots.index? name = none :=
      Slots.index?_of_contains hhead.name
    have htext : name ≠ textTag := hhead.element.2
    have hnode : ∀ v ∈ vs, ∃ n : Node, (stringFilling s values).fill v = .node n :=
      fun v hv => node_of_rejoin (h.element v hv).2
    rw [Slots.reword_of_contains hhead.name, ← toDict?_fill hσ hlen hhead.attrs, ← h.map]
    refine .single ?_ (isElement_make hhead.element.1 _ _) (isElement_make hhead.element.1 _ _)
    rw [fill_make hname htext _ fun v hv => standsAlone_of_node (hnode v hv),
      rejoin_make _ _ (by simpa using hnode), List.map_map]
    rfl
  group {vs ws} h := by
    have hname : s.index? fragmentTag = none := Slots.index?_of_length_lt (by decide)
    have hnode : ∀ v ∈ vs, ∃ n : Node, (stringFilling s values).fill v = .node n :=
      fun v hv => node_of_rejoin (h.element v hv).2
    rw [← h.map]
    rw [Node.fragment,
      fill_list hname (by decide) none fun v hv => standsAlone_of_node (hnode v hv),
      rejoin_list _ _ (by simpa using hnode), List.map_map]
    rfl
  undefined := rfl

end Strings

end SlotMarkup
