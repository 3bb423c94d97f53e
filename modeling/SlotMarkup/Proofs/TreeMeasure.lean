import SlotMarkup.Proofs.DictEntries
import SlotMarkup.Proofs.ParseMeasure
import SlotMarkup.Markup.View

/-!
# Building a tree adds no words

The tree that items stand for has its strings from them (`items_keep`). It may have
fewer: of an attribute that is written twice one value is lost, a class that is
written twice is joined once, and an explicit `className` gives way to the classes.
Where none of this happens (`Unambiguous`) and no word counts twice, the tree has
all that the items have.
-/

namespace SlotMarkup

/-! ## Strings of trees -/

/-- The strings of an attribute of a node: its name, and its value if that is a
    string. -/
def entryStrings (e : String × Value) : List String := e.1 :: e.2.str?.toList

/-- The strings of the attributes of a node. -/
def attrStrings : Option (Dict Value) → List String
  | none => []
  | some d => d.flatMap entryStrings

mutual

/-- The strings of a tree: the tags of its nodes, their texts, and the names and
    values of their attributes. Keys are attributes again and left out. -/
def Value.strings : Value → List String
  | .node ⟨tag, _, attrs, children, _⟩ =>
    tag.toList ++ (attrStrings attrs ++ childrenStrings children)
  | .str s => [s]
  | _ => []

/-- The strings of some trees. -/
def valuesStrings : List Value → List String
  | [] => []
  | v :: vs => v.strings ++ valuesStrings vs

/-- The strings of the content of a node. -/
def childrenStrings : Option (Children Value) → List String
  | none => []
  | some (.text s) => [s]
  | some (.list items) => valuesStrings items

end

/-! ## Entries -/

section Measure

variable {μ : List Char → Nat}

/-- An inserted entry adds no more than its own strings, and less if it replaces another. -/
theorem insert_measure_le (d : Dict Value) (name : String) (v : Value) :
    weigh μ ((d.insert name v).flatMap entryStrings) ≤
      weigh μ (d.flatMap entryStrings) + weigh μ (entryStrings (name, v)) := by
  induction d with
  | nil => simp [Dict.insert]
  | cons e d ih =>
    rw [Dict.insert]
    split <;> simp only [List.flatMap_cons, weigh_append] <;> omega

/-- A dictionary has no strings but those of its entries. -/
theorem ofList_measure_le (entries : Dict Value) :
    weigh μ ((Dict.ofList entries).flatMap entryStrings) ≤
      weigh μ (entries.flatMap entryStrings) := by
  have hall : ∀ d : Dict Value, weigh μ ((d.insertAll entries).flatMap entryStrings) ≤
      weigh μ (d.flatMap entryStrings) + weigh μ (entries.flatMap entryStrings) := by
    induction entries with
    | nil => intro d; exact Nat.le_refl _
    | cons e entries ih =>
      intro d
      obtain ⟨name, value⟩ := e
      have hinsert := insert_measure_le (μ := μ) d name value
      have hmore : weigh μ ((d.insertAll ((name, value) :: entries)).flatMap entryStrings) ≤ _ :=
        ih (d.insert name value)
      rw [List.flatMap_cons, weigh_append]
      omega
  have := hall []
  rwa [List.flatMap_nil, weigh_nil, Nat.zero_add] at this

/-! ## Classes -/

/-- Leaving strings out adds none. -/
theorem filter_measure_le (p : String → Bool) (ss : List String) :
    weigh μ (ss.filter p) ≤ weigh μ ss := by
  induction ss with
  | nil => exact Nat.le_refl _
  | cons s ss ih =>
    rw [List.filter_cons]
    split <;> simp only [weigh_cons] <;> omega

/-- Dropping repetitions adds no strings. -/
theorem distinct_measure_le (ss : List String) : weigh μ (distinct ss) ≤ weigh μ ss := by
  induction ss with
  | nil => exact Nat.le_refl _
  | cons s ss ih =>
    have := filter_measure_le (μ := μ) (· != s) (distinct ss)
    rw [distinct, weigh_cons, weigh_cons]
    omega

/-- Strings that count nothing can be left out. -/
theorem filter_ne_measure {s : String} (hs : μ s.toList = 0) (ss : List String) :
    weigh μ (ss.filter (· != s)) = weigh μ ss := by
  induction ss with
  | nil => rfl
  | cons t ss ih =>
    rw [List.filter_cons]
    split
    · rw [weigh_cons, weigh_cons, ih]
    · rename_i h
      have ht : t = s := by simpa using h
      rw [ih, weigh_cons, ht, hs, Nat.zero_add]

/-- A string that counts more than nothing occurs once. -/
theorem distinct_measure {ss : List String} (h : weigh μ ss ≤ 1) :
    weigh μ (distinct ss) = weigh μ ss := by
  induction ss with
  | nil => rfl
  | cons s ss ih =>
    rw [weigh_cons] at h
    rw [distinct, weigh_cons, weigh_cons]
    by_cases hs : μ s.toList = 0
    · rw [filter_ne_measure hs, ih (by omega)]
    · -- The first string has all that is counted, and the others count nothing.
      have hfilter := filter_measure_le (μ := μ) (· != s) (distinct ss)
      have hdistinct := distinct_measure_le (μ := μ) ss
      omega

end Measure

/-! ## Attributes -/

/-- Nothing that the attributes of a tag say is lost: no name but that of the classes
    is given twice, and the classes have no second name. -/
structure Unambiguous (attrs : List Attribute) : Prop where
  nodup : ((attrs.filter fun a => !a.isClass).map Attribute.name).Nodup
  noClassKey : (∃ a ∈ attrs, a.isClass = true) → ∀ a ∈ attrs, a.name ≠ classKey

section Attributes

variable {μ : List Char → Nat} (hμ : TokenMeasure μ)

include hμ

/-- Quotes are in no word. -/
theorem unquote_measure (raw : String) : μ (unquote raw).toList = μ raw.toList := by
  rw [unquote]
  split
  · rename_i cs hraw
    split
    · rename_i hlast
      obtain ⟨ds, rfl⟩ := List.getLast?_eq_some_iff.1 hlast
      rw [hraw, String.toList_ofList, List.dropLast_concat, hμ.cons rfl,
        hμ.append (wordBreak_cons_right rfl), hμ.single rfl, Nat.add_zero]
    · rfl
  · rfl

/-- An entry has the words of its attribute. -/
theorem entry_measure (a : Attribute) :
    weigh μ (entryStrings (a.name, a.value.toValue)) = weigh μ a.contents := by
  rw [entryStrings, Attribute.contents, weigh_cons, weigh_cons]
  cases a.value with
  | bare => rfl
  | raw text => simp [AttrValue.toValue, Value.str?, AttrValue.texts, unquote_measure hμ]

/-- Classes have the words of their value. -/
theorem toClass_measure (v : AttrValue) : μ v.toClass.toList = weigh μ v.texts := by
  cases v with
  | bare => exact hμ.short (by decide)
  | raw text => simp [AttrValue.toClass, AttrValue.texts, unquote_measure hμ]

/-- The attributes of a tag are its classes and its other attributes. -/
theorem attributes_measure (attrs : List Attribute) :
    weigh μ (attrs.flatMap Attribute.contents) =
      weigh μ ((attrs.filter fun a => !a.isClass).flatMap Attribute.contents) +
        weigh μ ((attrs.filter Attribute.isClass).map fun a => a.value.toClass) := by
  induction attrs with
  | nil => rfl
  | cons a attrs ih =>
    rw [List.flatMap_cons, weigh_append, ih]
    by_cases ha : a.isClass = true
    · have hname : μ a.name.toList = 0 := by
        rw [beq_iff_eq.1 ha]
        exact hμ.short (by decide)
      simp only [List.filter_cons, ha, Bool.not_true, if_true, Bool.false_eq_true, if_false,
        List.map_cons, weigh_cons, toClass_measure hμ, Attribute.contents, hname]
      omega
    · simp only [List.filter_cons, ha, Bool.not_false, if_true, Bool.false_eq_true, if_false,
        List.flatMap_cons, weigh_append]
      omega

/-- Joining classes by spaces loses no word. -/
theorem joined_measure (cs : List String) : μ (" ".intercalate cs).toList = weigh μ cs := by
  induction cs with
  | nil => exact hμ.nil
  | cons c cs ih =>
    cases cs with
    | nil => simp
    | cons d cs =>
      have hlist : (" ".intercalate (c :: d :: cs)).toList =
          c.toList ++ ' ' :: (" ".intercalate (d :: cs)).toList := by
        rw [String.intercalate_cons_cons, String.toList_append, String.toList_append,
          List.append_assoc]
        rfl
      rw [hlist, hμ.append (wordBreak_cons_right rfl), hμ.cons rfl, ih]
      rfl

/-- Entries have the words of their attributes. -/
theorem entries_measure (attrs : List Attribute) :
    weigh μ ((attrs.map fun a => (a.name, a.value.toValue)).flatMap entryStrings) =
      weigh μ (attrs.flatMap Attribute.contents) := by
  induction attrs with
  | nil => rfl
  | cons a attrs ih =>
    rw [List.map_cons, List.flatMap_cons, List.flatMap_cons, weigh_append, weigh_append,
      entry_measure hμ, ih]

/-- The attributes that name no classes have no words but their own in the dictionary. -/
theorem others_measure_le (attrs : List Attribute) :
    weigh μ ((Attribute.others attrs).flatMap entryStrings) ≤
      weigh μ ((attrs.filter fun a => !a.isClass).flatMap Attribute.contents) := by
  rw [← entries_measure hμ, Attribute.others]
  exact ofList_measure_le _

omit hμ in
/-- Where no name stands twice, no attribute replaces another. -/
theorem Unambiguous.others_eq {attrs : List Attribute} (h : Unambiguous attrs) :
    Attribute.others attrs =
      (attrs.filter fun a => !a.isClass).map fun a => (a.name, a.value.toValue) := by
  rw [Attribute.others]
  refine Dict.ofList_of_nodup ?_
  rw [Dict.names, List.map_map]
  exact h.nodup

/-- The classes as they are joined. -/
theorem classEntry_measure (cs : List String) :
    weigh μ (entryStrings (classKey, .str (" ".intercalate cs))) = weigh μ cs := by
  have hkey : μ classKey.toList = 0 := hμ.short (by decide)
  rw [entryStrings, weigh_cons, hkey, Value.str?, Option.toList_some, weigh_cons, weigh_nil,
    joined_measure hμ, Nat.zero_add, Nat.add_zero]

/-- Attributes have no words but their own in the dictionary. -/
theorem toDict?_measure_le (attrs : List Attribute) :
    weigh μ (attrStrings (Attribute.toDict? attrs)) ≤
      weigh μ (attrs.flatMap Attribute.contents) := by
  have hothers := others_measure_le hμ attrs
  have hclasses : weigh μ (Attribute.classes attrs) ≤ _ := distinct_measure_le _
  rw [attributes_measure hμ, Attribute.toDict?]
  split
  · exact Nat.zero_le _
  · split
    · rw [attrStrings]
      omega
    · rename_i hcs
      have hinsert := insert_measure_le (μ := μ) (Attribute.others attrs) classKey
        (.str (" ".intercalate (Attribute.classes attrs)))
      rw [classEntry_measure hμ] at hinsert
      rw [attrStrings]
      omega

/-- The dictionary of unambiguous attributes has all their strings. -/
theorem toDict?_measure {attrs : List Attribute} (h : Unambiguous attrs)
    (hone : weigh μ (attrs.flatMap Attribute.contents) ≤ 1) :
    weigh μ (attrStrings (Attribute.toDict? attrs)) =
      weigh μ (attrs.flatMap Attribute.contents) := by
  rw [attributes_measure hμ] at hone
  have hclasses : weigh μ (Attribute.classes attrs) = _ := distinct_measure (μ := μ) (by omega)
  rw [attributes_measure hμ, Attribute.toDict?, ← hclasses, ← entries_measure hμ, ← h.others_eq]
  split
  · rename_i hempty
    rw [List.isEmpty_iff.1 hempty]
    rfl
  · split
    · rename_i hnone
      rw [attrStrings, hnone, weigh_nil, Nat.add_zero]
    · -- No other attribute has the name of the classes, so they displace nothing.
      rename_i hsome
      have hkey : classKey ∉ (Attribute.others attrs).names := by
        rw [h.others_eq, Dict.names, List.map_map]
        intro hm
        obtain ⟨a, ha, hname⟩ := List.mem_map.1 hm
        refine hsome ?_
        rw [Attribute.classes, List.filter_eq_nil_iff.2 fun b hb hclass => ?_]
        · rfl
        · exact h.noClassKey ⟨b, hb, hclass⟩ a (List.mem_filter.1 ha).1 hname
      rw [attrStrings, Dict.insert_of_not_mem hkey, List.flatMap_append, weigh_append,
        List.flatMap_singleton, classEntry_measure hμ]

end Attributes

/-! ## Trees -/

/-- A head that loses nothing in the tree: its attributes are unambiguous, and its
    tag is not taken for a group. -/
def TagHead.Kept (head : TagHead) : Prop := Unambiguous head.attrs ∧ head.name ≠ fragmentTag

/-- The values that some tags and texts stand for have no more than their strings,
    and all of them if nothing is lost. -/
structure Keep (μ : List Char → Nat) (vs : List Value) (heads : List TagHead)
    (texts : List String) : Prop where
  le : weigh μ (valuesStrings vs) ≤ weigh μ (headsContents heads texts)
  eq : (∀ head ∈ heads, head.Kept) → weigh μ (headsContents heads texts) ≤ 1 →
    weigh μ (valuesStrings vs) = weigh μ (headsContents heads texts)
  noGroup : (∀ head ∈ heads, head.Kept) → ∀ n, .node n ∈ vs → n.isFragment = false

theorem weigh_headsContents_append (μ : List Char → Nat) (heads heads' : List TagHead)
    (texts texts' : List String) :
    weigh μ (headsContents (heads ++ heads') (texts ++ texts')) =
      weigh μ (headsContents heads texts) + weigh μ (headsContents heads' texts') := by
  simp only [headsContents, List.flatMap_append, weigh_append]
  omega

theorem valuesStrings_append (vs ws : List Value) :
    valuesStrings (vs ++ ws) = valuesStrings vs ++ valuesStrings ws := by
  induction vs with
  | nil => rfl
  | cons v vs ih => rw [List.cons_append, valuesStrings, valuesStrings, ih, List.append_assoc]

section Trees

variable {μ : List Char → Nat}

theorem Keep.nil : Keep μ [] [] [] where
  le := Nat.le_refl _
  eq _ _ := rfl
  noGroup _ n hn := by simp at hn

/-- What is kept of items one after the other is kept of them together. -/
theorem Keep.append {vs ws : List Value} {heads heads' : List TagHead} {texts texts' : List String}
    (h : Keep μ vs heads texts) (h' : Keep μ ws heads' texts') :
    Keep μ (vs ++ ws) (heads ++ heads') (texts ++ texts') where
  le := by
    rw [valuesStrings_append, weigh_append, weigh_headsContents_append]
    exact Nat.add_le_add h.le h'.le
  eq hk hone := by
    rw [weigh_headsContents_append] at hone
    rw [valuesStrings_append, weigh_append, weigh_headsContents_append,
      h.eq (fun x hx => hk x (List.mem_append_left _ hx)) (by omega),
      h'.eq (fun x hx => hk x (List.mem_append_right _ hx)) (by omega)]
  noGroup hk n hn := by
    rcases List.mem_append.1 hn with hn | hn
    · exact h.noGroup (fun x hx => hk x (List.mem_append_left _ hx)) n hn
    · exact h'.noGroup (fun x hx => hk x (List.mem_append_right _ hx)) n hn

/-- The content of a node holds what the values in it hold, unless one of them is a
    group with attributes. -/
theorem content_measure (vs : List Value) :
    weigh μ (childrenStrings (contentOf (gather vs))) ≤ weigh μ (valuesStrings vs) ∧
      ((∀ n, .node n ∈ vs → n.isFragment = false) →
        childrenStrings (contentOf (gather vs)) = valuesStrings vs) := by
  match vs with
  | [] => exact ⟨Nat.le_refl _, fun _ => rfl⟩
  | [.node ⟨tag, key, attrs, children, reserved⟩] =>
    rw [gather, contentOf]
    split
    · -- A group gives way to its children, and its own attributes are lost.
      rename_i hgroup
      refine ⟨?_, fun h => absurd (h _ List.mem_cons_self) (by simp [hgroup])⟩
      cases children with
      | none => exact Nat.zero_le _
      | some children =>
        simp only [Option.getD_some, valuesStrings, Value.strings, weigh_append]
        omega
    · exact ⟨Nat.le_refl _, fun _ => rfl⟩
  | [.undefined] | [.null] | [.bool _] | [.number _] | [.str _] | [.list _] | [.dict _]
  | [.handler _] | [.foreign _] => exact ⟨Nat.le_refl _, fun _ => rfl⟩
  | v :: w :: vs => exact ⟨Nat.le_refl _, fun _ => rfl⟩

theorem weigh_make (name : String) (children : Option (Children Value))
    (attrs : Option (Dict Value)) :
    weigh μ (valuesStrings [.node (Node.make name children attrs)]) =
      μ name.toList + (weigh μ (attrStrings attrs) + weigh μ (childrenStrings children)) := by
  simp [valuesStrings, Node.make, Value.strings]

theorem weigh_headsContents_cons (head : TagHead) (heads : List TagHead) (texts : List String) :
    weigh μ (headsContents (head :: heads) texts) =
      μ head.name.toList + (weigh μ (head.attrs.flatMap Attribute.contents) +
        weigh μ (headsContents heads texts)) := by
  simp only [headsContents, List.flatMap_cons, TagHead.contents, List.cons_append, weigh_cons,
    weigh_append]
  omega

/-- An element keeps the words of its head besides those of its content. -/
theorem Keep.tag (hμ : TokenMeasure μ) {name : String} {attrs : List Attribute} {vs : List Value}
    {heads : List TagHead} {texts : List String} (h : Keep μ vs heads texts) :
    Keep μ [.node (Node.make name (contentOf (gather vs)) (Attribute.toDict? attrs))]
      (⟨name, attrs⟩ :: heads) texts where
  le := by
    have hattrs := toDict?_measure_le hμ attrs
    have hcontent := Nat.le_trans (content_measure (μ := μ) vs).1 h.le
    rw [weigh_make, weigh_headsContents_cons]
    dsimp only
    omega
  eq hk hone := by
    rw [weigh_headsContents_cons] at hone ⊢
    have hmore : ∀ head ∈ heads, head.Kept := fun x hx => hk x (List.mem_cons_of_mem _ hx)
    have hattrs := toDict?_measure hμ (hk _ List.mem_cons_self).1 (by omega)
    rw [weigh_make, hattrs, (content_measure (μ := μ) vs).2 (h.noGroup hmore),
      h.eq hmore (by omega)]
  noGroup hk n hn := by
    obtain rfl := Value.node.inj (List.mem_singleton.1 hn)
    simpa [NodeOf.isFragment, Node.make] using (hk _ List.mem_cons_self).2

/-- A node of a text keeps the text. -/
theorem Keep.text (hμ : TokenMeasure μ) (s : String) : Keep μ [.node (Node.text s)] [] [s] := by
  have htag : μ textTag.toList = 0 := hμ.short (by decide)
  have heq : weigh μ (valuesStrings [.node (Node.text s)]) = weigh μ (headsContents [] [s]) := by
    rw [Node.text, weigh_make, htag]
    simp [attrStrings, childrenStrings]
  exact ⟨Nat.le_of_eq heq, fun _ _ => heq, fun _ n hn => by
    obtain rfl := Value.node.inj (List.mem_singleton.1 hn)
    rfl⟩

mutual

/-- Every item keeps its words, by recursion on the tree. -/
theorem item_keep (hμ : TokenMeasure μ) :
    (i : Item) → Keep μ (itemValues i) (itemHeads i) (itemTexts i)
  | .block b => block_keep hμ b
  | .tag t => tag_keep hμ t
  | .text t => .text hμ t.value
  | .comment _ => .nil

/-- The values that items stand for have their strings from them. -/
theorem items_keep (hμ : TokenMeasure μ) :
    (is : List Item) → Keep μ (itemsValues is) (itemsHeads is) (itemsTexts is)
  | [] => .nil
  | i :: is => (item_keep hμ i).append (items_keep hμ is)

theorem block_keep (hμ : TokenMeasure μ) :
    (b : BlockOf Item) → Keep μ (blockValues b) (blockHeads b) (blockTexts b)
  | ⟨nodes, _⟩ => items_keep hμ nodes

theorem body_keep (hμ : TokenMeasure μ) :
    (b : Option (BlockOf Item)) → Keep μ (bodyValues b) (bodyHeads b) (bodyTexts b)
  | none => .nil
  | some b => block_keep hμ b

theorem tag_keep (hμ : TokenMeasure μ) :
    (t : TagOf Item) → Keep μ [tagValue t] (tagHeads t) (tagTexts t)
  | ⟨_, _, body, _⟩ => (body_keep hμ body).tag hμ

end

/-- The tree of a block has the strings of the values that it is gathered from. -/
theorem weigh_toValue (hμ : TokenMeasure μ) (b : Block) :
    weigh μ b.toValue.strings = weigh μ (valuesStrings (blockValues b)) := by
  have hgroup : μ fragmentTag.toList = 0 := hμ.short (by decide)
  rw [Block.toValue]
  match blockValues b with
  | [] => rfl
  | [v] => simp [gather, valuesStrings]
  | v :: w :: vs =>
    have hmake := weigh_make (μ := μ) fragmentTag (some (.list (v :: w :: vs))) none
    rw [hgroup, attrStrings, weigh_nil, Nat.zero_add, Nat.zero_add, childrenStrings, valuesStrings,
      valuesStrings, List.append_nil] at hmake
    exact hmake

end Trees

end SlotMarkup
