import SlotMarkup.Proofs.ParsedTrees
import SlotMarkup.Proofs.TokenFree

/-!
# Trees without slots

Filling goes over a whole tree and makes every node anew, with its key and its attributes.
Where there is no token the node that is made is the one that was there
(`IsView.fill_eq_self`), so a template without slots need not be filled at all
(`Block.fill_toValue_of_slotFree`).
-/

namespace SlotMarkup

/-! ## Strings -/

theorem mem_valuesStrings {vs : List Value} {s : String} :
    s ∈ valuesStrings vs ↔ ∃ v ∈ vs, s ∈ v.strings := by
  induction vs with
  | nil => simp [valuesStrings]
  | cons v vs ih => simp [valuesStrings, ih]

/-- The strings of an element are its name, those of its attributes and those of its children. -/
theorem strings_make (name : String) (children : Option (Children Value))
    (attrs : Option (Dict Value)) : (Value.node (Node.make name children attrs)).strings =
      name :: (attrStrings attrs ++ childrenStrings children) := by
  rw [Node.make, Value.strings]
  rfl

theorem childrenStrings_listContent (vs : List Value) :
    childrenStrings (listContent vs) = valuesStrings vs := by
  cases vs <;> rfl

/-! ## Filling -/

section Filling

variable {f : Filling}

/-- A text with no token in it stays as it is. -/
theorem text_of_contains {s : String} (h : f.slots.contains s = false) : f.text s = .text s := by
  have htail := Slots.contains_eq_false_iff.1 h
  simp only [Filling.text, htail]

theorem fillAttr_of_str? {v : Value} (h : ∀ s ∈ v.str?, f.slots.index? s = none) :
    f.fillAttr v = v := by
  cases v with
  | str s =>
    rw [Filling.fillAttr]
    simp only [h s rfl]
  | _ => rfl

/-- Attributes in which there is no token are filled to themselves. -/
theorem attrs_eq_self {attrs : List Attribute} {d : Dict Value}
    (hd : Attribute.toDict? attrs = some d)
    (hfree : ∀ s ∈ d.flatMap entryStrings, f.slots.contains s = false) : f.attrs d = d := by
  have hindex : ∀ e ∈ d, ∀ s ∈ entryStrings e, f.slots.index? s = none := fun e he s hs =>
    Slots.index?_of_contains (hfree s (List.mem_flatMap_of_mem he hs))
  rw [attrs_eq_mapValues (names_toDict? hd).1 fun name hname => by
    obtain ⟨e, he, rfl⟩ := List.mem_map.1 hname
    exact hindex e he _ List.mem_cons_self]
  conv => rhs; rw [← Dict.mapValues_id d]
  refine List.map_congr_left fun e he => ?_
  rw [fillAttr_of_str? fun s hs => hindex e he s
    (List.mem_cons_of_mem _ (Option.mem_toList.2 hs)), id]

/-- A tree in which there is no token is filled to itself, whatever the values are. -/
theorem IsView.fill_eq_self {v : Value} (h : IsView v)
    (hfree : ∀ s ∈ v.strings, f.slots.contains s = false) : f.fill v = v := by
  have hmap {vs : List Value} (hfill : ∀ v ∈ vs, f.fill v = v) : vs.map f.fill = vs :=
    (List.map_congr_left hfill).trans (List.map_id' vs)
  induction h with
  | text s =>
    have hs : f.slots.contains s = false := hfree s (by
      rw [Node.text, strings_make]
      simp [attrStrings, childrenStrings])
    rw [fill_text, text_of_contains hs]
    rfl
  | @group vs h ih =>
    have hstrings : ∀ v ∈ vs, ∀ s ∈ v.strings, f.slots.contains s = false := fun v hv s hs =>
      hfree s (by
        rw [Node.fragment, strings_make, childrenStrings]
        exact List.mem_cons_of_mem _ (List.mem_append_right _ (mem_valuesStrings.2 ⟨v, hv, hs⟩)))
    rw [fill_group f h, hmap fun v hv => ih v hv (hstrings v hv)]
  | @element name vs attrs hname h ih =>
    rw [strings_make, childrenStrings_listContent] at hfree
    have hstrings : ∀ v ∈ vs, ∀ s ∈ v.strings, f.slots.contains s = false := fun v hv s hs =>
      hfree s (List.mem_cons_of_mem _ (List.mem_append_right _ (mem_valuesStrings.2 ⟨v, hv, hs⟩)))
    have hindex : f.slots.index? name = none :=
      Slots.index?_of_contains (hfree name List.mem_cons_self)
    rw [fill_element hname hindex _ h, hmap fun v hv => ih v hv (hstrings v hv)]
    cases hd : Attribute.toDict? attrs with
    | none => rfl
    | some d =>
      rw [Option.map_some, attrs_eq_self hd fun s hs => hfree s
        (List.mem_cons_of_mem _ (List.mem_append_left _ (by rwa [hd, attrStrings])))]

/-- The tree of a parsed text in which there is no token is filled to itself. -/
theorem fill_toValue_eq_self {text : String} {block : Block} (h : Block.parse text = .ok block)
    (hfree : ∀ s ∈ block.toValue.strings, f.slots.contains s = false) :
    f.fill block.toValue = block.toValue := by
  rcases isView_of_parse h with hundefined | hview
  · rw [hundefined, Filling.fill]
  · exact hview.fill_eq_self hfree

end Filling

/-! ## Templates -/

/-- What is rendered is the tree of the template's text, filled, also where the template is
    rendered without filling. -/
theorem Template.render_eq_fill {fragments : List String} {t : Template}
    (h : compile fragments = .ok t) :
    ∃ block, Block.parse (dedent ((Slots.ofFragments fragments).encode fragments)) = .ok block ∧
      t.tree = block.toValue ∧ ∀ values, t.render values =
        Filling.fill ⟨Slots.ofFragments fragments, values⟩ block.toValue := by
  obtain ⟨block, hparse, rfl⟩ := map_eq_ok_iff.1 h
  refine ⟨block, hparse, ?_⟩
  split
  · rename_i hcount
    exact ⟨rfl, fun values => (fill_toValue_eq_self hparse fun s _ =>
      Slots.contains_of_count hcount s).symm⟩
  · exact ⟨rfl, fun values => rfl⟩

/-- The tree of a parsed text is filled to itself if there is no token in it, so always if
    there are no slots. A template of the text that has no slots is compiled to this tree, and
    renders to what filling it would give. -/
theorem Block.fill_toValue_of_slotFree {text : String} {block : Block}
    (h : Block.parse text = .ok block) :
    (∀ f : Filling, (∀ s ∈ block.toValue.strings, f.slots.contains s = false) →
      f.fill block.toValue = block.toValue) ∧
    (∀ f : Filling, f.slots.count = 0 → f.fill block.toValue = block.toValue) ∧
    ∀ fragments : List String, (Slots.ofFragments fragments).count = 0 →
      dedent ((Slots.ofFragments fragments).encode fragments) = text →
      ∃ t, Template.compile fragments = .ok t ∧ t.tree = block.toValue ∧ t.slotCount = 0 ∧
        ∀ values, t.render values = t.tree ∧
          t.render values = Filling.fill ⟨Slots.ofFragments fragments, values⟩ t.tree := by
  refine ⟨fun f => fill_toValue_eq_self h,
    fun f hcount => fill_toValue_eq_self h fun s _ => Slots.contains_of_count hcount s,
    fun fragments hcount htext => ?_⟩
  obtain ⟨t, ht⟩ := Template.compile_of_parse (htext ▸ h : Block.parse
    (dedent ((Slots.ofFragments fragments).encode fragments)) = .ok block)
  obtain ⟨block', hparse, htree, hrender⟩ := Template.render_eq_fill ht
  obtain rfl : block' = block := Except.ok.inj (hparse.symm.trans (htext ▸ h))
  obtain ⟨_, _, hfixed⟩ := map_eq_ok_iff.1 ht
  rw [if_pos hcount] at hfixed
  obtain rfl := hfixed
  exact ⟨_, ht, htree, rfl, fun values => ⟨rfl, htree ▸ hrender values⟩⟩

/-- A list with a key, an attribute that is only named and classes from both sides. Its text
    has the reserved word in it, but with the number of no slot. -/
theorem Block.fill_toValue_of_slotFree_list :
    let text := "ul(class=nav key='k' open).wide\n  li#a emjay_substitution2\n| b"
    ∃ block, Block.parse text = .ok block ∧
      (∀ s ∈ block.toValue.strings, (Slots.mk 2).contains s = false) ∧
      Filling.fill ⟨⟨2⟩, [.str "x", .null]⟩ block.toValue = block.toValue ∧
      ∃ t, Template.compile [text] = .ok t ∧
        t.render [.null] = Filling.fill ⟨Slots.ofFragments [text], [.null]⟩ t.tree := by
  intro text
  have hstrings : (Block.parse text).toOption.map
      (fun b => b.toValue.strings.all fun s => !(Slots.mk 2).contains s) = some true := by
    decide +kernel
  obtain ⟨block, hblock, hall⟩ := Option.map_eq_some_iff.1 hstrings
  have hfree : ∀ s ∈ block.toValue.strings, (Slots.mk 2).contains s = false := by
    simpa using hall
  have hparse : Block.parse text = .ok block := ok_of_toOption hblock
  have htext : dedent ((Slots.ofFragments [text]).encode [text]) = text := by decide +kernel
  obtain ⟨hfill, -, htemplate⟩ := Block.fill_toValue_of_slotFree hparse
  obtain ⟨t, ht, -, -, hrender⟩ := htemplate [text] rfl htext
  exact ⟨block, hparse, hfree, hfill ⟨⟨2⟩, [.str "x", .null]⟩ hfree, t, ht, (hrender _).2⟩

end SlotMarkup
