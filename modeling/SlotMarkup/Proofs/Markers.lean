import SlotMarkup.Proofs.SlotFreeTrees

/-!
# Filling with markers

Values travel through filling untouched. To fill a tree with values is to fill it with
markers, one for each slot, and then to replace every marker by its value
(`IsView.fill_eq_replace`). The markers are objects that filling knows nothing about, and
they are replaced in one pass that does not look into what is put in (`Value.replace`), so
whatever the values are like makes no difference.

This holds where no tag and no name of an attribute is a token (`Value.names`): in the place
of a node a value is normalized, and in the place of a name it is spread or turned into text.

* `fill_toValue_eq_replace`: the tree of a parsed text, filled.
-/

namespace SlotMarkup

/-! ## Replacing -/

mutual

/-- A value in which the objects that `g` knows are replaced. -/
def Value.replace (g : Nat → Option Value) : Value → Value
  | .foreign identity => (g identity).getD (.foreign identity)
  | .node ⟨tag, key, attrs, children, reserved⟩ =>
    .node ⟨tag, replaceKey g key, replaceAttrs g attrs, replaceContent g children, reserved⟩
  | .list items => .list (replaceAll g items)
  | .dict entries => .dict (replaceEntries g entries)
  | .undefined => .undefined
  | .null => .null
  | .bool b => .bool b
  | .number x => .number x
  | .str s => .str s
  | .handler h => .handler h

/-- Values in which objects are replaced. -/
def replaceAll (g : Nat → Option Value) : List Value → List Value
  | [] => []
  | v :: vs => v.replace g :: replaceAll g vs

/-- Entries in whose values objects are replaced. -/
def replaceEntries (g : Nat → Option Value) : List (String × Value) → List (String × Value)
  | [] => []
  | (name, v) :: entries => (name, v.replace g) :: replaceEntries g entries

/-- A key in which objects are replaced. -/
def replaceKey (g : Nat → Option Value) : Option Value → Option Value
  | none => none
  | some v => some (v.replace g)

/-- Attributes in whose values objects are replaced. -/
def replaceAttrs (g : Nat → Option Value) :
    Option (List (String × Value)) → Option (List (String × Value))
  | none => none
  | some entries => some (replaceEntries g entries)

/-- The content of a node in which objects are replaced. -/
def replaceContent (g : Nat → Option Value) : Option (Children Value) → Option (Children Value)
  | none => none
  | some (.text s) => some (.text s)
  | some (.list items) => some (.list (replaceAll g items))

end

section Replace

variable (g : Nat → Option Value)

theorem replaceAll_eq_map (vs : List Value) : replaceAll g vs = vs.map (Value.replace g) := by
  induction vs with
  | nil => rfl
  | cons v vs ih => rw [replaceAll, ih, List.map_cons]

theorem replaceEntries_eq_mapValues (d : Dict Value) :
    replaceEntries g d = d.mapValues (Value.replace g) := by
  induction d with
  | nil => rfl
  | cons e d ih => rw [replaceEntries, ih, Dict.mapValues, Dict.mapValues, List.map_cons]

/-- The key of a node is replaced as the attribute that it was taken from. -/
theorem replace_make (name : String) (children : Option (Children Value))
    (attrs : Option (Dict Value)) : (Value.node (Node.make name children attrs)).replace g =
      .node (Node.make name (replaceContent g children)
        (attrs.map (Dict.mapValues (Value.replace g)))) := by
  rw [Node.make, Value.replace]
  cases attrs with
  | none => rfl
  | some d =>
    have hkey : replaceKey g (d.get? "key") = (d.mapValues (Value.replace g)).get? "key" := by
      rw [Dict.get?_mapValues]
      cases d.get? "key" <;> rfl
    rw [replaceAttrs, replaceEntries_eq_mapValues, Node.keyOf, Option.bind_some, hkey]
    rfl

/-- Replacing goes through the content of an element to the values in it. -/
theorem replaceContent_listContent (vs : List Value) :
    replaceContent g (listContent vs) = listContent (vs.map (Value.replace g)) := by
  cases vs with
  | nil => rfl
  | cons v vs => exact congrArg _ (congrArg _ (replaceAll_eq_map g (v :: vs)))

end Replace

/-! ## Names -/

mutual

/-- The names of a tree: the tags of its nodes and the names of their attributes. -/
def Value.names : Value → List String
  | .node ⟨tag, _, attrs, children, _⟩ =>
    tag.toList ++ ((attrs.getD []).map (·.1) ++ childrenNames children)
  | _ => []

/-- The names of some trees. -/
def valuesNames : List Value → List String
  | [] => []
  | v :: vs => v.names ++ valuesNames vs

/-- The names in the content of a node. -/
def childrenNames : Option (Children Value) → List String
  | some (.list items) => valuesNames items
  | _ => []

end

theorem mem_valuesNames {vs : List Value} {name : String} :
    name ∈ valuesNames vs ↔ ∃ v ∈ vs, name ∈ v.names := by
  induction vs with
  | nil => simp [valuesNames]
  | cons v vs ih => simp [valuesNames, ih]

/-- The names in an element are its own, those of its attributes and those of its children. -/
theorem names_make (name : String) (children : Option (Children Value))
    (attrs : Option (Dict Value)) : (Value.node (Node.make name children attrs)).names =
      name :: ((attrs.getD []).map (·.1) ++ childrenNames children) := by
  rw [Node.make, Value.names]
  rfl

theorem childrenNames_listContent (vs : List Value) :
    childrenNames (listContent vs) = valuesNames vs := by
  cases vs <;> rfl

/-! ## Filling -/

section Fill

variable {s : Slots} {values marked : List Value} {g : Nat → Option Value}
  (hvalue : ∀ index, index < s.count →
    (Filling.value ⟨s, marked⟩ index).replace g = Filling.value ⟨s, values⟩ index)

include hvalue

/-- The value of an attribute is that of its slot, or as it is written. -/
theorem replace_fillAttr {v : Value} (hv : IsWritten v) :
    (Filling.fillAttr ⟨s, marked⟩ v).replace g = Filling.fillAttr ⟨s, values⟩ v := by
  rcases hv with rfl | ⟨text, rfl⟩
  · rfl
  · rw [Filling.fillAttr, Filling.fillAttr]
    cases hindex : s.index? text with
    | none => rfl
    | some index => exact hvalue index (Slots.index?_eq_some_iff.1 hindex).1

/-- In the pieces of a filled text, the values take the place of the markers. -/
theorem replace_pieces {tail : List (Nat × List Char)} (htail : ∀ e ∈ tail, e.1 < s.count) :
    replaceAll g (Filling.pieces ⟨s, marked⟩ tail) = Filling.pieces ⟨s, values⟩ tail := by
  induction tail with
  | nil => rfl
  | cons e tail ih =>
    rw [Filling.pieces, Filling.pieces, replaceAll, replaceAll, Value.replace,
      hvalue e.1 (htail e List.mem_cons_self), ih fun e he => htail e (List.mem_cons_of_mem _ he)]

/-- A text is cut at the same places, whatever the values are. -/
theorem replace_text (text : String) :
    ((Filling.fill ⟨s, marked⟩ (.node (Node.text text))).replace g) =
      Filling.fill ⟨s, values⟩ (.node (Node.text text)) := by
  have hindex : ∀ e ∈ (s.cut text.toList).tail, e.1 < s.count :=
    fun e he => Slots.lt_of_mem_cut he
  have hpieces := replace_pieces hvalue hindex
  rw [fill_text, fill_text, Filling.text, Filling.text]
  cases htail : (s.cut text.toList).tail with
  | nil =>
    rw [Value.replace]
    rfl
  | cons e tail =>
    rw [htail] at hpieces
    rw [Value.replace, replaceContent, replaceAll, Value.replace, hpieces]
    rfl

/-- The same in filled attributes, if none is named by a token. -/
theorem replace_attrs {attrs : List Attribute}
    (hnames : ∀ name ∈ ((Attribute.toDict? attrs).getD []).map (·.1), s.index? name = none) :
    ((Attribute.toDict? attrs).map (Filling.attrs ⟨s, marked⟩)).map
        (Dict.mapValues (Value.replace g)) =
      (Attribute.toDict? attrs).map (Filling.attrs ⟨s, values⟩) := by
  cases hd : Attribute.toDict? attrs with
  | none => rfl
  | some d =>
    have hnodup := (names_toDict? hd).1
    have hindex : ∀ name ∈ d.names, s.index? name = none := by
      rwa [hd, Option.getD_some] at hnames
    have hfill (values : List Value) := attrs_eq_mapValues (f := ⟨s, values⟩) hnodup hindex
    refine congrArg some ?_
    calc (Filling.attrs ⟨s, marked⟩ d).mapValues (Value.replace g)
        = (d.mapValues (Filling.fillAttr ⟨s, marked⟩)).mapValues (Value.replace g) := by rw [hfill]
      _ = d.mapValues (Filling.fillAttr ⟨s, values⟩) := by
        rw [Dict.mapValues, Dict.mapValues, List.map_map]
        exact List.map_congr_left fun e he =>
          Prod.ext rfl (replace_fillAttr hvalue (Attribute.isWritten_toDict? hd e he))
      _ = Filling.attrs ⟨s, values⟩ d := (hfill values).symm

/-- A tree that is filled with values is the tree filled with what they replace, and the
    values put in its place. -/
theorem IsView.fill_eq_replace {v : Value} (h : IsView v)
    (hnames : ∀ name ∈ v.names, s.index? name = none) :
    Filling.fill ⟨s, values⟩ v = (Filling.fill ⟨s, marked⟩ v).replace g := by
  induction h with
  | text text => exact (replace_text hvalue text).symm
  | @group vs h ih =>
    rw [Node.fragment, names_make, childrenNames] at hnames
    have hvs : ∀ v ∈ vs, ∀ name ∈ v.names, s.index? name = none := fun v hv name hname =>
      hnames name (List.mem_cons_of_mem _ (List.mem_append_right _
        (mem_valuesNames.2 ⟨v, hv, hname⟩)))
    rw [fill_group _ h, fill_group _ h, Node.fragment, Node.fragment, replace_make,
      replaceContent, replaceAll_eq_map, List.map_map,
      List.map_congr_left fun v hv => ih v hv (hvs v hv)]
    rfl
  | @element name vs attrs hname h ih =>
    rw [names_make, childrenNames_listContent, List.forall_mem_cons, List.forall_mem_append]
      at hnames
    obtain ⟨htag, hattrs, hinside⟩ := hnames
    have hvs : ∀ v ∈ vs, ∀ name ∈ v.names, s.index? name = none := fun v hv name hname =>
      hinside name (mem_valuesNames.2 ⟨v, hv, hname⟩)
    rw [fill_element (f := ⟨s, values⟩) hname htag _ h,
      fill_element (f := ⟨s, marked⟩) hname htag _ h, replace_make,
      replace_attrs hvalue hattrs, replaceContent_listContent, List.map_map,
      List.map_congr_left fun v hv => ih v hv (hvs v hv)]
    rfl

end Fill

/-! ## Markers -/

/-- What markers are replaced by: the value of the slot that each of them stands for. -/
def Filling.unmark (f : Filling) (markers : List Nat) (identity : Nat) : Option Value :=
  (markers.idxOf? identity).map f.value

/-- Markers that are distinct are known by their places. -/
theorem idxOf?_getElem {markers : List Nat} (hnodup : markers.Nodup) {index : Nat}
    (h : index < markers.length) : markers.idxOf? markers[index] = some index := by
  rw [List.idxOf?, List.findIdx?_eq_some_iff_getElem]
  refine ⟨h, beq_self_eq_true _, fun j hj => ?_⟩
  have hne := List.pairwise_iff_getElem.1 hnodup j index (Nat.lt_trans hj h) h hj
  simpa using hne

/-- The tree of a parsed text filled with any values at all is the tree filled with distinct
    markers, each of them replaced by its value, if no tag and no name of an attribute is
    a token. -/
theorem Block.fill_toValue_eq_replace {text : String} {block : Block}
    (h : Block.parse text = .ok block) {s : Slots}
    (hnames : ∀ name ∈ block.toValue.names, s.index? name = none) (values : List Value)
    {markers : List Nat} (hnodup : markers.Nodup) (hlength : markers.length = s.count) :
    Filling.fill ⟨s, values⟩ block.toValue =
      (Filling.fill ⟨s, markers.map .foreign⟩ block.toValue).replace
        (Filling.unmark ⟨s, values⟩ markers) := by
  have hvalue : ∀ index, index < s.count →
      (Filling.value ⟨s, markers.map .foreign⟩ index).replace
        (Filling.unmark ⟨s, values⟩ markers) = Filling.value ⟨s, values⟩ index := by
    intro index hindex
    have hlt : index < markers.length := hlength ▸ hindex
    have hmarker : Filling.value ⟨s, markers.map .foreign⟩ index = .foreign markers[index] := by
      simp [Filling.value, List.getElem?_eq_getElem hlt]
    rw [hmarker, Value.replace, Filling.unmark, idxOf?_getElem hnodup hlt]
    rfl
  rcases isView_of_parse h with hundefined | hview
  · rw [hundefined, Filling.fill, Filling.fill, Value.replace]
  · exact hview.fill_eq_replace hvalue hnames

/-- A text that is a token itself, a list and a node put in between strings, a key, and a slot
    without a value. -/
theorem Block.fill_toValue_eq_replace_key :
    let text := "p(key=emjay_substitution0) a emjay_substitution1 emjay_substitution2\n" ++
      "  b(c=emjay_substitution3 d=emjay_substitution0)"
    let values := [.str "emjay_substitution2", .list [.str "x", .foreign 7],
      .node (Node.text "emjay_substitution0")]
    let markers := [7, 3, 5, 0]
    ∃ block, Block.parse text = .ok block ∧
      (∀ name ∈ block.toValue.names, (Slots.mk 4).index? name = none) ∧
      markers.Nodup ∧ markers.length = (Slots.mk 4).count ∧
      Filling.fill ⟨⟨4⟩, values⟩ block.toValue =
        (Filling.fill ⟨⟨4⟩, markers.map .foreign⟩ block.toValue).replace
          (Filling.unmark ⟨⟨4⟩, values⟩ markers) := by
  intro text values markers
  have hnames : (Block.parse text).toOption.map
      (fun b => b.toValue.names.all fun name => (Slots.mk 4).index? name == none) = some true := by
    decide +kernel
  obtain ⟨block, hblock, hall⟩ := Option.map_eq_some_iff.1 hnames
  have hfree : ∀ name ∈ block.toValue.names, (Slots.mk 4).index? name = none := by
    simpa using hall
  have hnodup : markers.Nodup := by decide
  have hparse : Block.parse text = .ok block := ok_of_toOption hblock
  exact ⟨block, hparse, hfree, hnodup, rfl,
    Block.fill_toValue_eq_replace hparse hfree values hnodup rfl⟩

end SlotMarkup
