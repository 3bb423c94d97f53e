import SlotMarkup.Proofs.CleanValues
import SlotMarkup.Proofs.CompileSlots
import SlotMarkup.Proofs.MarkupTrees
import SlotMarkup.Proofs.SlotRewording

/-!
# No token is left

Where a token stands for a value, a rendered tree has none (`TokenFree`): no node is
named by one, no text and no string among children has one in it, and no value of an
attribute is one. A name of an attribute may still be one, but only where nothing is
said of it.

* `contains_cut`: what is between the tokens of a text has no token in it;
* `tokenFree_fill`: a filled tree is free of tokens, if the values put in are clean;
* `render_tokenFree`: so is what a template renders, whatever values are missing.
-/

namespace SlotMarkup

/-! ## Between tokens -/

namespace Slots

variable {s : Slots}

/-- A token at the start of a text is at the start of any longer one. -/
theorem tokenAt?_of_append {as bs : List Char} (h : s.tokenAt? (as ++ bs) = none) :
    s.tokenAt? as = none := by
  rw [Option.eq_none_iff_forall_ne_some]
  rintro ⟨index, rest⟩ hsome
  obtain ⟨hlt, rfl⟩ := tokenAt?_eq_some_iff.1 hsome
  rw [List.append_assoc, tokenAt?_token_append hlt] at h
  cases h

/-- There is no token between the tokens of a text. -/
theorem cut_tail_pieces (cs : List Char) :
    (s.cut (s.cut cs).head).tail = [] ∧ ∀ e ∈ (s.cut cs).tail, (s.cut e.2).tail = [] := by
  fun_induction cut s cs with
  | case1 cs index rest h more ih =>
    refine ⟨by rw [cut_nil], fun e he => ?_⟩
    rcases List.mem_cons.1 he with rfl | he
    · exact ih.1
    · exact ih.2 e he
  | case2 => exact ⟨by rw [cut_nil], fun e he => absurd he List.not_mem_nil⟩
  | case3 c cs h more ih =>
    -- No token starts at `c` in the text, so none starts there in the shorter first piece.
    have hjoin : more.head ++ more.tail.flatMap (fun e => s.token e.1 ++ e.2) = cs := join_cut cs
    rw [← hjoin, ← List.cons_append] at h
    rw [cut_cons (tokenAt?_of_append h)]
    exact ih

/-- The pieces of a cut text have no token in them. -/
theorem contains_cut (cs : List Char) :
    s.contains (String.ofList (s.cut cs).head) = false ∧
      ∀ e ∈ (s.cut cs).tail, s.contains (String.ofList e.2) = false := by
  simp only [contains_eq_false_iff, String.toList_ofList]
  exact cut_tail_pieces cs

/-- A clean text has no token in it, however many slots there are. -/
theorem contains_of_clean {text : String} (h : Clean text.toList) : s.contains text = false := by
  rw [contains_eq_false_iff, cut_clean h]

theorem index?_of_clean {text : String} (h : Clean text.toList) : s.index? text = none :=
  index?_of_contains (contains_of_clean h)

/-- Without slots there are no tokens. -/
theorem contains_of_count (h : s.count = 0) (text : String) : s.contains text = false := by
  rw [contains_eq_false_iff]
  exact List.eq_nil_iff_forall_not_mem.2 fun e he => absurd (lt_of_mem_cut he) (by omega)

end Slots

/-! ## Values free of tokens -/

/-- Neither the value of an attribute is a token, nor is its name, unless it is only
    named. -/
structure EntryTokenFree (s : Slots) (e : String × Value) : Prop where
  value : ∀ text, e.2 = .str text → s.index? text = none
  name : s.index? e.1 ≠ none → e.2 = .bool true

/-- There is no token in the strings of a list. -/
def ListTokenFree (s : Slots) (items : List Value) : Prop :=
  ∀ text, .str text ∈ items → s.contains text = false

/-- There is no token in the place of a value: as the tag of a node, in its text, in the
    strings among its children, or in its attributes. -/
structure NodeTokenFree (s : Slots) (n : Node) : Prop where
  tag : ∀ tag, n.tag = some tag → s.index? tag = none
  text : ∀ text, n.children = some (.text text) → s.contains text = false
  children : ∀ items, n.children = some (.list items) → ListTokenFree s items
  attrs : ∀ d, n.attrs = some d → ∀ e ∈ d, EntryTokenFree s e

/-- There is no token in the place of a value, in a node or in a list. -/
def TokenFree (s : Slots) : Value → Prop
  | .node n => NodeTokenFree s n
  | .list items => ListTokenFree s items
  | _ => True

open Value (Everywhere)

section Clean

variable {s : Slots} {v : Value}

theorem ListTokenFree.of_clean {items : List Value} (h : ∀ v ∈ items, v.Clean) :
    ListTokenFree s items :=
  fun _ hmem => Slots.contains_of_clean (h _ hmem).str

/-- A clean value has no token in it. -/
theorem TokenFree.of_clean (h : v.Clean) : TokenFree s v := by
  cases v with
  | list items => exact .of_clean fun w hw => h.of_mem hw
  | node n =>
    obtain ⟨tag, key, attrs, children, reserved⟩ := n
    refine ⟨fun name hname => ?_, fun text htext => ?_, fun items hitems => ?_,
      fun d hd e he => ⟨fun text htext => ?_, fun hindex => ?_⟩⟩
    · obtain rfl : tag = some name := hname
      exact Slots.index?_of_clean (h.own (by simp [Value.ownTexts]))
    · obtain rfl : children = some (.text text) := htext
      exact Slots.contains_of_clean (h.own (by simp [Value.ownTexts]))
    · obtain rfl : children = some (.list items) := hitems
      exact .of_clean fun w hw => h.of_mem (by simp [Value.inside, NodeOf.childList?, hw])
    · obtain rfl : attrs = some d := hd
      have hvalue : e.2.Clean := h.of_mem (by
        simp only [Value.inside, Option.getD_some, List.mem_append]
        exact .inr (.inl (List.mem_map_of_mem he)))
      exact Slots.index?_of_clean (htext ▸ hvalue).str
    · obtain rfl : attrs = some d := hd
      refine absurd (Slots.index?_of_clean (h.own ?_)) hindex
      simp only [Value.ownTexts, Option.getD_some, List.mem_append]
      exact .inr (.inl (List.mem_map_of_mem he))
  | _ => trivial

theorem everywhere_of_clean (h : v.Clean) : Everywhere (TokenFree s) v := by
  induction h with
  | intro here hinside ih => exact ⟨.of_clean ⟨here, hinside⟩, ih⟩

end Clean

/-- A tree without slots is free of tokens. -/
theorem IsTree.everywhere_tokenFree {s : Slots} (hs : s.count = 0) {v : Value} (h : IsTree v) :
    Everywhere (TokenFree s) v := by
  have hindex (text : String) : s.index? text = none :=
    Slots.index?_of_contains (Slots.contains_of_count hs text)
  have hwritten {v : Value} (hv : IsWritten v) : Everywhere (TokenFree s) v := by
    rcases hv with rfl | ⟨_, rfl⟩ <;> exact .leaf trivial rfl
  induction h with
  | @node name children attrs hchildren hattrs ih =>
    refine .node ⟨fun tag _ => hindex tag, fun text _ => Slots.contains_of_count hs text,
      fun items _ text _ => Slots.contains_of_count hs text,
      fun d _ e _ => ⟨fun text _ => hindex text, fun h => absurd (hindex _) h⟩⟩
      (fun k hk => ?_) (fun d hd e he => hwritten (hattrs d hd e he)) ih
    obtain ⟨d, hd, hget⟩ := Option.bind_eq_some_iff.1 hk
    exact hwritten (hattrs d hd _ (Dict.mem_of_get? hget))

/-! ## Filling -/

section Filling

variable {f : Filling}

/-- Clean values fill in no tokens. -/
theorem tokenFree_value (hclean : ∀ index, (f.value index).Clean) (index : Nat) :
    Everywhere (TokenFree f.slots) (f.value index) :=
  everywhere_of_clean (hclean index)

/-- The value of an attribute, filled, is no token. -/
theorem fillAttr_free (hclean : ∀ index, (f.value index).Clean) {v : Value} (hv : IsWritten v) :
    Everywhere (TokenFree f.slots) (f.fillAttr v) ∧
      ∀ text, f.fillAttr v = .str text → f.slots.index? text = none := by
  rcases hv with rfl | ⟨text, rfl⟩
  · exact ⟨.leaf trivial rfl, nofun⟩
  · rw [Filling.fillAttr]
    split
    · rename_i index _
      refine ⟨tokenFree_value hclean index, fun other hother => ?_⟩
      exact Slots.index?_of_clean (hother ▸ hclean index : (Value.str other).Clean).str
    · rename_i hindex
      refine ⟨.leaf trivial rfl, fun other hother => ?_⟩
      obtain rfl := Value.str.inj hother
      exact hindex

/-- The name that a clean value stands for is no token. -/
theorem index?_nameOf {s : Slots} {v : Value} (hv : v.Clean) {name : String}
    (h : Filling.nameOf? v = some name) : s.index? name = none := by
  cases v with
  | bool b =>
    obtain rfl := Option.some.inj h
    exact Slots.index?_of_length_lt (by cases b <;> decide)
  | str text =>
    obtain rfl := Option.some.inj h
    exact Slots.index?_of_clean hv.str
  | number x =>
    obtain rfl := Option.some.inj h
    exact Slots.index?_of_clean (NumberStyle.clean_display x)
  | _ => cases h

/-- What an attribute turns into is free of tokens, but for names of which nothing is
    said. -/
theorem expand_free (hclean : ∀ index, (f.value index).Clean) (name : String) {v : Value}
    (hv : IsWritten v) : ∀ e ∈ f.expand name v,
      EntryTokenFree f.slots e ∧ Everywhere (TokenFree f.slots) e.2 := by
  have hfill := fillAttr_free hclean hv
  have hnamed {own : String} (hown : f.slots.index? own = none) :
      ∀ e ∈ [(own, f.fillAttr v)],
        EntryTokenFree f.slots e ∧ Everywhere (TokenFree f.slots) e.2 := by
    intro e he
    obtain rfl := List.mem_singleton.1 he
    exact ⟨⟨hfill.2, fun h => absurd hown h⟩, hfill.1⟩
  have hkept : ∀ e ∈ [(name, Value.bool true)],
      EntryTokenFree f.slots e ∧ Everywhere (TokenFree f.slots) e.2 := by
    intro e he
    obtain rfl := List.mem_singleton.1 he
    exact ⟨⟨by simp, fun _ => rfl⟩, .leaf trivial rfl⟩
  rw [Filling.expand]
  split
  · rename_i hindex
    exact hnamed hindex
  · rename_i index _
    split
    · -- Only named: the value is spread.
      split
      · rename_i h hslot
        have hvalue : (Value.handler h).Clean := hslot ▸ hclean index
        split
        · rename_i own hname
          have hlabel : h.label = some own := (Option.filter_eq_some_iff.1 hname).1
          have hown : Slots.Clean own.toList := hvalue.own (by simp [Value.ownTexts, hlabel])
          intro e he
          obtain rfl := List.mem_singleton.1 he
          exact ⟨⟨by simp, fun h => absurd (Slots.index?_of_clean hown) h⟩, .leaf trivial rfl⟩
        · exact hkept
      · rename_i entries hslot
        have hvalue : (Value.dict entries).Clean := hslot ▸ hclean index
        intro e he
        have hown : Slots.Clean e.1.toList := hvalue.own (List.mem_map_of_mem he)
        have hin : e.2.Clean := hvalue.of_mem (List.mem_map_of_mem he)
        exact ⟨⟨fun text htext => Slots.index?_of_clean (htext ▸ hin).str,
          fun h => absurd (Slots.index?_of_clean hown) h⟩, everywhere_of_clean hin⟩
      · exact hkept
    · -- A value is given: the name is that of the slot's value, or there is none.
      split
      · rename_i dynamic hname
        exact hnamed (index?_nameOf (hclean index) hname)
      · exact fun e he => absurd he List.not_mem_nil

/-- Filled attributes have no token in their names or values. -/
theorem attrs_free (hclean : ∀ index, (f.value index).Clean) {d : Dict Value}
    (hd : ∀ e ∈ d, IsWritten e.2) : ∀ e ∈ f.attrs d,
      EntryTokenFree f.slots e ∧ Everywhere (TokenFree f.slots) e.2 := by
  intro e he
  obtain ⟨e', he', hexpand⟩ := List.mem_flatMap.1 (Dict.mem_ofList he)
  exact expand_free hclean e'.1 (hd e' he') e hexpand

/-- Content in which there is no token. -/
structure ContentTokenFree (s : Slots) (children : Option (Children Value)) : Prop where
  text : ∀ text, children = some (.text text) → s.contains text = false
  strings : ∀ items, children = some (.list items) → ListTokenFree s items
  inside : ∀ items, children = some (.list items) → ∀ v ∈ items, Everywhere (TokenFree s) v

/-- A node is free of tokens if it is not named by one, and neither its content nor its
    attributes have one. -/
theorem tokenFree_rebuild (hclean : ∀ index, (f.value index).Clean) {tag : String}
    (htag : f.slots.index? tag = none) {attrs : Option (Dict Value)}
    (hattrs : ∀ d, attrs = some d → ∀ e ∈ d, IsWritten e.2) {children : Option (Children Value)}
    (hchildren : ContentTokenFree f.slots children) :
    Everywhere (TokenFree f.slots) (f.rebuild (some tag) attrs children {}) := by
  have hnew : ∀ d, attrs.map f.attrs = some d → ∀ e ∈ d,
      EntryTokenFree f.slots e ∧ Everywhere (TokenFree f.slots) e.2 := by
    intro d hd
    obtain ⟨old, hold, rfl⟩ := Option.map_eq_some_iff.1 hd
    exact attrs_free hclean (hattrs old hold)
  rw [Filling.rebuild]
  refine .node ⟨fun name hname => ?_, hchildren.text, hchildren.strings,
    fun d hd e he => (hnew d hd e he).1⟩ (fun k hk => ?_) (fun d hd e he => (hnew d hd e he).2)
    hchildren.inside
  · obtain rfl := Option.some.inj hname
    exact htag
  · obtain ⟨d, hd, hget⟩ := Option.bind_eq_some_iff.1 hk
    exact (hnew d hd _ (Dict.mem_of_get? hget)).2

/-- A text, cut at its tokens, has none in its pieces. -/
theorem contentTokenFree_text (hclean : ∀ index, (f.value index).Clean) (text : String) :
    ContentTokenFree f.slots (some (f.text text)) := by
  obtain ⟨hhead, htail⟩ := Slots.contains_cut (s := f.slots) text.toList
  have hpieces : ∀ v ∈ f.pieces (f.slots.cut text.toList).tail,
      v.Clean ∨ ∃ piece, v = .str piece ∧ f.slots.contains piece = false := by
    generalize (f.slots.cut text.toList).tail = tail at htail
    induction tail with
    | nil => exact fun v hv => by simp [Filling.pieces] at hv
    | cons e tail ih =>
      intro v hv
      rw [Filling.pieces, List.mem_cons, List.mem_cons] at hv
      rcases hv with rfl | rfl | hv
      · exact .inl (hclean _)
      · exact .inr ⟨_, rfl, htail e List.mem_cons_self⟩
      · exact ih (fun e he => htail e (List.mem_cons_of_mem _ he)) v hv
  rw [Filling.text]
  split
  · rename_i hnil
    refine ⟨fun t ht => ?_, nofun, nofun⟩
    cases ht
    exact Slots.contains_eq_false_iff.2 hnil
  · refine ⟨nofun, fun items hitems t ht => ?_, fun items hitems v hv => ?_⟩
    · cases hitems
      rcases List.mem_cons.1 ht with ht | ht
      · obtain rfl := Value.str.inj ht
        exact hhead
      · rcases hpieces _ ht with hv | ⟨piece, hpiece, hno⟩
        · exact Slots.contains_of_clean hv.str
        · obtain rfl := Value.str.inj hpiece
          exact hno
    · cases hitems
      rcases List.mem_cons.1 hv with rfl | hv
      · exact .leaf trivial rfl
      · rcases hpieces v hv with hv | ⟨piece, rfl, -⟩
        · exact everywhere_of_clean hv
        · exact .leaf trivial rfl

theorem contentTokenFree_list {s : Slots} {vs : List Value}
    (h : ∀ v ∈ vs, StandsAlone v ∧ Everywhere (TokenFree s) v) :
    ContentTokenFree s (some (.list vs)) where
  text := nofun
  strings items hitems text htext := by
    cases hitems
    exact absurd rfl ((h _ htext).1.ne_str text)
  inside items hitems v hv := by
    cases hitems
    exact (h v hv).2

/-- The value of a slot before some content. -/
theorem ContentTokenFree.cons (hclean : ∀ index, (f.value index).Clean) (index : Nat)
    {children : Option (Children Value)} (h : ContentTokenFree f.slots children) :
    ContentTokenFree f.slots
      (some (.list ((f.value index).normalize :: Filling.itemsOf children))) := by
  have hhead := (hclean index).normalize
  refine ⟨by simp, fun items hitems text htext => ?_, fun items hitems v hv => ?_⟩
  · cases hitems
    rcases List.mem_cons.1 htext with htext | htext
    · exact absurd htext.symm ((standsAlone_normalize _).ne_str text)
    · rcases children with _ | t | vs
      · simp [Filling.itemsOf] at htext
      · obtain rfl := Value.str.inj (List.mem_singleton.1 htext)
        exact h.text _ rfl
      · exact h.strings vs rfl text htext
  · cases hitems
    rcases List.mem_cons.1 hv with rfl | hv
    · exact everywhere_of_clean hhead
    · rcases children with _ | t | vs
      · simp [Filling.itemsOf] at hv
      · obtain rfl := List.mem_singleton.1 hv
        exact .leaf trivial rfl
      · exact h.inside vs rfl v hv

/-- A filled tree is free of tokens, if the values put in are clean. -/
theorem tokenFree_fill (hclean : ∀ index, (f.value index).Clean) {v : Value} (h : IsTree v) :
    Everywhere (TokenFree f.slots) (f.fill v) := by
  have hgroup : f.slots.index? fragmentTag = none := Slots.index?_of_length_lt (by decide)
  induction h with
  | @node name children attrs hchildren hattrs ih =>
    have hcontent : ContentTokenFree f.slots (f.fillContent children) := by
      match children with
      | none => exact ⟨nofun, nofun, nofun⟩
      | some (.text text) => exact contentTokenFree_text hclean text
      | some (.list vs) =>
        rw [Filling.fillContent, fillAll_of_isTree (hchildren vs rfl)]
        refine contentTokenFree_list fun w hw => ?_
        obtain ⟨u, hu, rfl⟩ := List.mem_map.1 hw
        exact ⟨(hchildren vs rfl u hu).standsAlone_fill f, ih vs rfl u hu⟩
    rcases fill_make_cases f name children attrs with ⟨hname, hfill⟩ | ⟨index, -, hfill | hfill⟩
    · -- The name stays, or a text has become a group.
      rw [hfill]
      rcases retag_cases (some name) (f.fillContent children) with htag | htag <;> rw [htag]
      · exact tokenFree_rebuild hclean hgroup hattrs hcontent
      · exact tokenFree_rebuild hclean hname hattrs hcontent
    · -- A slot with nothing below it is only its value, otherwise a group that starts with it.
      rw [hfill]
      exact everywhere_of_clean (hclean index).normalize
    · rw [hfill]
      exact tokenFree_rebuild hclean hgroup hattrs (hcontent.cons hclean index)

end Filling

/-! ## Rendering -/

theorem Filling.clean_value {s : Slots} {values : List Value} (h : ∀ v ∈ values, v.Clean)
    (index : Nat) : (Filling.value ⟨s, values⟩ index).Clean := by
  rw [Filling.value]
  cases hv : values[index]? with
  | none => exact Value.clean_undefined
  | some v => exact h v (List.mem_of_getElem? hv)

/-- What a template renders is free of the template's tokens, if the values are clean. It
    makes no difference what the template says, and how many values there are. -/
theorem Template.render_tokenFree {fragments : List String} {t : Template}
    (h : Template.compile fragments = .ok t) {values : List Value}
    (hvalues : ∀ v ∈ values, v.Clean) :
    Everywhere (TokenFree (Slots.ofFragments fragments)) (t.render values) := by
  obtain ⟨tokens, block, -, -, rfl⟩ := compile_eq_ok h
  split
  · rename_i hcount
    rw [render]
    rcases isTree_toValue block with hundefined | htree
    · rw [hundefined]
      exact .leaf trivial rfl
    · exact htree.everywhere_tokenFree hcount
  · rw [render]
    rcases isTree_toValue block with hundefined | htree
    · rw [hundefined, Filling.fill]
      exact .leaf trivial rfl
    · exact tokenFree_fill (Filling.clean_value hvalues) htree

/-- Slots in every place, a dictionary to be spread, and no value for the last slot. -/
theorem Template.render_tokenFree_everywhere :
    let fragments := ["", "(", "=", " ", " key=", ")\n  | a ", ""]
    let values := [.str "x", .str "title", .str "y", .dict [("id", .null)], .node (Node.text "z")]
    (∀ v ∈ values, v.Clean) ∧ ∃ t, Template.compile fragments = .ok t ∧
      Everywhere (TokenFree (Slots.ofFragments fragments)) (t.render values) := by
  intro fragments values
  have hvalues : ∀ v ∈ values, v.Clean := by
    have hshort {s : String} (h : s.toList.length < Slots.mark.length) : Slots.Clean s.toList :=
      Slots.clean_of_length_lt h
    simp only [values, List.forall_mem_cons]
    refine ⟨Value.clean_str (hshort (by decide)), Value.clean_str (hshort (by decide)),
      Value.clean_str (hshort (by decide)), Value.clean_dict fun e he => ?_,
      Value.clean_text (hshort (by decide)), fun v hv => absurd hv List.not_mem_nil⟩
    obtain rfl := List.mem_singleton.1 he
    exact ⟨hshort (by decide), .leaf (fun s hs => by simp [Value.ownTexts] at hs) rfl⟩
  have hcompile : (Template.compile fragments).toOption.isSome = true := by decide +kernel
  obtain ⟨t, ht⟩ := Option.isSome_iff_exists.1 hcompile
  exact ⟨hvalues, t, ok_of_toOption ht, render_tokenFree (ok_of_toOption ht) hvalues⟩

end SlotMarkup
