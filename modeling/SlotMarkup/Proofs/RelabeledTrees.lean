import SlotMarkup.Proofs.RelabeledItems

/-!
# Trees with other attributes

The tree of items with a carriage return before every line feed of an attribute is the tree
of the items, with these carriage returns in its attributes (`toValue_relabel_crlf`). For
that, texts that differ have to differ with carriage returns too: of an attribute that is
written twice one is left, and so it is of a class.

Without carriage returns the two trees are equal (`dropReturns_relabel`).
-/

namespace SlotMarkup

/-! ## Relabelling values -/

section Definitions

variable (σ : List Char → List Char)

/-- The value of an attribute, or a key, in other words if it is a string. -/
def Value.relabelString : Value → Value
  | str s => str (reword σ s)
  | v => v

/-- Attributes with names and values in other words. -/
def relabelEntries (d : Dict Value) : Dict Value := d.mapEntries (reword σ) (Value.relabelString σ)

mutual

/-- A tree in which the names and the values of attributes, and the keys, are in other
    words. -/
def Value.relabel : Value → Value
  | .node ⟨tag, key, attrs, children, reserved⟩ =>
    .node ⟨tag, key.map (Value.relabelString σ), attrs.map (relabelEntries σ),
      relabelContent children, reserved⟩
  | .undefined => .undefined
  | .null => .null
  | .bool b => .bool b
  | .number x => .number x
  | .str s => .str s
  | .list items => .list items
  | .dict entries => .dict entries
  | .handler h => .handler h
  | .foreign identity => .foreign identity

/-- Trees with their attributes in other words. -/
def relabelAll : List Value → List Value
  | [] => []
  | v :: vs => v.relabel :: relabelAll vs

/-- The content of a node, with the attributes in it in other words. -/
def relabelContent : Option (Children Value) → Option (Children Value)
  | none => none
  | some (.text s) => some (.text s)
  | some (.list items) => some (.list (relabelAll items))

end

end Definitions

/-- A tree without carriage returns in the names and the values of attributes and in keys. -/
def Value.dropReturns (v : Value) : Value := v.relabel SlotMarkup.dropReturns

section Composition

variable {σ τ : List Char → List Char}

theorem relabelAll_eq_map (vs : List Value) : relabelAll σ vs = vs.map (Value.relabel σ) := by
  induction vs with
  | nil => rfl
  | cons v vs ih => rw [relabelAll, ih, List.map_cons]

/-- Putting a text in other words twice is doing it once. -/
theorem reword_reword (s : String) : reword τ (reword σ s) = reword (τ ∘ σ) s := by
  rw [reword, reword, String.toList_ofList, reword, Function.comp_apply]

theorem relabelString_relabelString (v : Value) :
    (v.relabelString σ).relabelString τ = v.relabelString (τ ∘ σ) := by
  cases v with
  | str s => exact congrArg Value.str (reword_reword s)
  | _ => rfl

theorem relabelEntries_relabelEntries (d : Dict Value) :
    relabelEntries τ (relabelEntries σ d) = relabelEntries (τ ∘ σ) d := by
  rw [relabelEntries, relabelEntries, relabelEntries, Dict.mapEntries, Dict.mapEntries,
    Dict.mapEntries, List.map_map]
  refine List.map_congr_left fun e _ => ?_
  exact Prod.ext (reword_reword e.1) (relabelString_relabelString e.2)

mutual

/-- Words that are changed twice are changed once, by both changes. -/
theorem relabel_relabel : (v : Value) → (v.relabel σ).relabel τ = v.relabel (τ ∘ σ)
  | .node ⟨tag, key, attrs, children, reserved⟩ => by
    rw [Value.relabel, Value.relabel, Value.relabel, relabelContent_relabelContent children,
      Option.map_map, Option.map_map]
    have hkey : Value.relabelString τ ∘ Value.relabelString σ = Value.relabelString (τ ∘ σ) :=
      funext relabelString_relabelString
    have hattrs : relabelEntries τ ∘ relabelEntries σ = relabelEntries (τ ∘ σ) :=
      funext relabelEntries_relabelEntries
    rw [hkey, hattrs]
  | .undefined | .null | .bool _ | .number _ | .str _ | .list _ | .dict _ | .handler _
  | .foreign _ => rfl

theorem relabelAll_relabelAll :
    (vs : List Value) → relabelAll τ (relabelAll σ vs) = relabelAll (τ ∘ σ) vs
  | [] => rfl
  | v :: vs => by
    rw [relabelAll, relabelAll, relabelAll, relabel_relabel v, relabelAll_relabelAll vs]

theorem relabelContent_relabelContent : (children : Option (Children Value)) →
    relabelContent τ (relabelContent σ children) = relabelContent (τ ∘ σ) children
  | none | some (.text _) => rfl
  | some (.list items) => by
    rw [relabelContent, relabelContent, relabelContent, relabelAll_relabelAll items]

end

end Composition

/-- Carriage returns that were put into the attributes of a tree can be taken out again. -/
theorem dropReturns_relabel (v : Value) : (v.relabel crlf).dropReturns = v.dropReturns := by
  rw [Value.dropReturns, relabel_relabel, Value.dropReturns]
  exact congrArg v.relabel (funext dropReturns_crlf)

/-! ## Attributes -/

/-- The line breaks can be changed back, so no two texts become one. -/
theorem reword_crlf_injective {s t : String} (h : reword crlf s = reword crlf t) : s = t := by
  rw [reword, reword, ← String.toList_inj, String.toList_ofList, String.toList_ofList] at h
  exact String.toList_inj.1 (crlf_injective h)

/-- A text becomes one without line feeds only if it is that one. -/
theorem reword_crlf_eq_iff {s t : String} (h : '\n' ∉ t.toList) : reword crlf s = t ↔ s = t := by
  constructor
  · intro hs
    exact reword_crlf_injective (hs.trans (reword_crlf h).symm)
  · rintro rfl
    exact reword_crlf h

/-- Quotes come off before line breaks are changed or after. -/
theorem unquote_crlf (raw : String) : unquote (reword crlf raw) = reword crlf (unquote raw) := by
  have htoList : (reword crlf raw).toList = crlf raw.toList := String.toList_ofList
  rw [unquote, unquote]
  split
  · rename_i ds hds
    obtain ⟨cs, hcs, rfl⟩ := of_crlf_cons (by decide) (by decide) (htoList.symm.trans hds)
    simp only [hcs, getLast?_crlf]
    split
    · rename_i hlast
      obtain ⟨es, rfl⟩ := List.getLast?_eq_some_iff.1 hlast
      rw [crlf_append, crlf_cons (by decide) [], crlf_nil, List.dropLast_concat,
        List.dropLast_concat, reword_ofList]
    · rfl
  · rename_i hds
    split
    · rename_i cs hcs
      exact absurd (htoList.trans (by rw [hcs, crlf_cons (by decide)])) (hds _)
    · rfl

/-- The classes of a value are changed with the value. -/
theorem toClass_crlf (v : AttrValue) : (v.reword crlf).toClass = reword crlf v.toClass := by
  cases v with
  | bare => exact (reword_crlf (by decide)).symm
  | raw text => exact unquote_crlf text

/-- What an attribute stands for is changed with its value. -/
theorem toValue_crlf (v : AttrValue) : (v.reword crlf).toValue = v.toValue.relabelString crlf := by
  cases v with
  | bare => rfl
  | raw text => exact congrArg Value.str (unquote_crlf text)

/-- Where no two strings become one, no further repetition is dropped. -/
theorem distinct_map {f : String → String} (hf : ∀ {a b}, f a = f b → a = b) (ss : List String) :
    distinct (ss.map f) = (distinct ss).map f := by
  induction ss with
  | nil => rfl
  | cons s ss ih =>
    have hne (t : String) : (f t != f s) = (t != s) := by
      rw [Bool.eq_iff_iff, bne_iff_ne, bne_iff_ne]
      exact not_congr ⟨hf, congrArg f⟩
    rw [List.map_cons, distinct, distinct, ih, List.map_cons, List.filter_map]
    exact congrArg (fun p => _ :: (List.filter p _).map f) (funext hne)

/-- Classes are joined by spaces, which are no line breaks. -/
theorem joined_crlf (cs : List String) :
    " ".intercalate (cs.map (reword crlf)) = reword crlf (" ".intercalate cs) := by
  have happend (s t : String) : reword crlf (s ++ t) = reword crlf s ++ reword crlf t := by
    rw [reword, String.toList_append, crlf_append, String.ofList_append, reword, reword]
  induction cs with
  | nil => exact (reword_crlf (by decide)).symm
  | cons c cs ih =>
    cases cs with
    | nil => simp
    | cons d cs =>
      rw [List.map_cons, List.map_cons, String.intercalate_cons_cons, ← List.map_cons, ih,
        String.intercalate_cons_cons, happend, happend, reword_crlf (s := " ") (by decide)]

namespace Attribute

/-- No other attribute comes to name classes. -/
theorem isClass_crlf (a : Attribute) : (a.relabel crlf).isClass = a.isClass := by
  rw [isClass, isClass, Bool.eq_iff_iff, beq_iff_eq, beq_iff_eq]
  exact reword_crlf_eq_iff (by decide)

/-- The classes of attributes are changed one by one. -/
theorem classes_crlf (attrs : List Attribute) :
    classes (attrs.map (relabel crlf)) = (classes attrs).map (reword crlf) := by
  rw [classes, classes, ← distinct_map reword_crlf_injective,
    filter_map_of_mem fun a _ => isClass_crlf a, List.map_map, List.map_map]
  exact congrArg distinct (List.map_congr_left fun a _ => toClass_crlf a.value)

/-- The other attributes are changed one by one. No two names become one, so none replaces
    another. -/
theorem others_crlf (attrs : List Attribute) :
    others (attrs.map (relabel crlf)) = relabelEntries crlf (others attrs) := by
  have hother : ∀ a ∈ attrs, (!(a.relabel crlf).isClass) = !a.isClass :=
    fun a _ => congrArg _ (isClass_crlf a)
  rw [others, others, relabelEntries, Dict.mapEntries_ofList reword_crlf_injective,
    filter_map_of_mem (f := relabel crlf) hother, Dict.mapEntries, List.map_map, List.map_map]
  refine congrArg Dict.ofList (List.map_congr_left fun a _ => ?_)
  exact Prod.ext rfl (toValue_crlf a.value)

/-- The attributes with carriage returns make the dictionary with carriage returns. -/
theorem toDict?_crlf (attrs : List Attribute) :
    toDict? (attrs.map (relabel crlf)) = (toDict? attrs).map (relabelEntries crlf) := by
  rw [toDict?, toDict?, classes_crlf, others_crlf, List.isEmpty_map]
  split
  · rfl
  · cases hcs : classes attrs with
    | nil => rfl
    | cons c cs =>
      -- The classes are joined to one value, which is put in last.
      rw [List.map_cons]
      simp only [Option.map_some]
      rw [relabelEntries, relabelEntries, Dict.mapEntries_insert reword_crlf_injective,
        reword_crlf (s := classKey) (by decide), Value.relabelString, ← joined_crlf,
        List.map_cons]

end Attribute

/-! ## Trees -/

/-- The key of a node is in other words, as the attribute is that it was taken from. -/
theorem relabel_make (name : String) (children : Option (Children Value))
    (d : Option (Dict Value)) : (Value.node (Node.make name children d)).relabel crlf =
      .node (Node.make name (relabelContent crlf children) (d.map (relabelEntries crlf))) := by
  rw [Node.make, Value.relabel]
  cases d with
  | none => rfl
  | some d =>
    have hkey : (relabelEntries crlf d).get? "key" =
        (d.get? "key").map (Value.relabelString crlf) := by
      rw [← reword_crlf (s := "key") (by decide)]
      exact Dict.get?_mapEntries reword_crlf_injective _ d _
    rw [Node.make, Option.map_some, Node.keyOf, Node.keyOf, Option.bind_some, Option.bind_some,
      hkey]

/-- What a list of values is as content is changed value by value. -/
theorem relabelContent_listContent (vs : List Value) :
    relabelContent crlf (listContent vs) = listContent (vs.map (Value.relabel crlf)) := by
  cases vs with
  | nil => rfl
  | cons v vs => exact congrArg _ (congrArg _ (relabelAll_eq_map (v :: vs)))

mutual

theorem maps_relabelItem : (i : Item) → (∀ head ∈ itemHeads i, head.name ≠ fragmentTag) →
    Maps (Value.relabel crlf) (itemValues i) (itemValues (outlineItem id (relabelItem crlf i)))
  | .block b, h => maps_relabelBlock b h
  | .tag t, h => maps_relabelTag t h
  | .text t, _ => by
    rw [itemValues, relabelItem, outlineItem, itemValues, reword_id]
    exact .single (relabel_make textTag _ none) (isElement_text _) (isElement_text _)
  | .comment _, _ => .nil

/-- The values that items stand for are those of the items with carriage returns, wherever
    they were read. -/
theorem maps_relabelItems : (is : List Item) →
    (∀ head ∈ itemsHeads is, head.name ≠ fragmentTag) →
    Maps (Value.relabel crlf) (itemsValues is) (itemsValues (outline id (relabelItems crlf is)))
  | [], _ => .nil
  | i :: is, h => (maps_relabelItem i fun head hh => h head (List.mem_append_left _ hh)).append
      (maps_relabelItems is fun head hh => h head (List.mem_append_right _ hh))

theorem maps_relabelBlock : (b : BlockOf Item) →
    (∀ head ∈ blockHeads b, head.name ≠ fragmentTag) →
    Maps (Value.relabel crlf) (blockValues b) (blockValues (outlineBlock id (relabelBlock crlf b)))
  | ⟨nodes, _⟩, h => maps_relabelItems nodes h

theorem maps_relabelBody : (b : Option (BlockOf Item)) →
    (∀ head ∈ bodyHeads b, head.name ≠ fragmentTag) →
    Maps (Value.relabel crlf) (bodyValues b) (bodyValues (outlineBody id (relabelBody crlf b)))
  | none, _ => .nil
  | some b, h => maps_relabelBlock b h

theorem maps_relabelTag : (t : TagOf Item) → (∀ head ∈ tagHeads t, head.name ≠ fragmentTag) →
    Maps (Value.relabel crlf) [tagValue t] [tagValue (outlineTag id (relabelTag crlf t))]
  | ⟨name, attrs, body, _⟩, h => by
    have hbody := maps_relabelBody body fun head hh => h head (List.mem_cons_of_mem _ hh)
    have hname : name ≠ fragmentTag := h ⟨name, attrs⟩ List.mem_cons_self
    rw [tagValue, contentOf_gather fun v hv => (hbody.element v hv).1, relabelTag, outlineTag,
      tagValue, contentOf_gather hbody.element_right, toDict?_outline_id, reword_id,
      Attribute.toDict?_crlf, ← hbody.map, ← relabelContent_listContent]
    exact .single (relabel_make _ _ _) (isElement_make hname _ _) (isElement_make hname _ _)

end

/-- The tree of a block with carriage returns is the tree of the block with carriage
    returns. -/
theorem toValue_relabel_crlf {b b' : Block} (h : ∀ head ∈ blockHeads b, head.name ≠ fragmentTag)
    (h' : ∀ head ∈ blockHeads b', head.name ≠ fragmentTag)
    (hb : outlineBlock id b' = outlineBlock id (relabelBlock crlf b)) :
    b'.toValue = b.toValue.relabel crlf := by
  have hgroup {vs ws : List Value} (hvs : Maps (Value.relabel crlf) vs ws) :
      (Value.node (Node.fragment vs)).relabel crlf = .node (Node.fragment ws) := by
    rw [Node.fragment, relabel_make, relabelContent, relabelAll_eq_map, hvs.map]
    rfl
  rw [(maps_relabelBlock b h).toValue hgroup rfl, ← hb]
  exact treeMap_id.toValue b' h'

end SlotMarkup
