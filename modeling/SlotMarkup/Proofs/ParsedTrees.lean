import SlotMarkup.Proofs.CompileSlots
import SlotMarkup.Proofs.ElementLines
import SlotMarkup.Proofs.TreeFilling

/-!
# Trees of parsed markup

The tree of a parsed text has nodes of three kinds (`IsView`): texts, groups, and elements
with the name of a tag, which have no content or at least one child. So whatever is to
be shown of such a tree has to be shown of these three only.

* `scan_tagNames`: what a scan takes for the name of a tag is one;
* `isView_of_parse`: the tree of a parsed text, unless there is nothing in it.
-/

namespace SlotMarkup

/-- The name of a tag as it is written in markup. -/
def IsElementName (name : String) : Prop := ∃ n : TagName, name = String.ofList n.chars

theorem isElementName_defaultTag : IsElementName defaultTag :=
  ⟨⟨['d', 'i', 'v'], ⟨'d', rfl, rfl⟩, ⟨'v', rfl, rfl⟩, List.all_eq_true.1 rfl, by decide⟩, rfl⟩

/-- The names of tags are no marks of texts and groups. -/
theorem IsElementName.startsWithWord {name : String} (h : IsElementName name) :
    StartsWithWord name := by
  obtain ⟨n, rfl⟩ := h
  rw [StartsWithWord, String.toList_ofList]
  exact n.head_word

/-! ## Names in a scan -/

/-- Every name that is read for a tag is one for an element, as the keywords are left out. -/
theorem isElementName_of_tagName? {cs name : List Char} (h : tagName? cs = some name)
    (hk : String.ofList name ∉ keywords) : IsElementName (String.ofList name) := by
  have hhead := tagName?_head h
  obtain ⟨-, hlen⟩ := tagName?_ne_nil h
  rw [tagName?] at h
  split at h
  · obtain rfl := Option.some.inj h
    have hparts : ∀ c ∈ dropTrailing isNameJoint (cs.takeWhile isTagNamePart),
        isTagNamePart c = true := by
      intro c hc
      refine mem_takeWhile (l := cs) ?_
      rw [← dropTrailing_append_takeWhile isNameJoint (cs.takeWhile isTagNamePart)]
      exact List.mem_append_left _ hc
    refine ⟨⟨_, hhead, ?_, hparts, hk⟩, rfl⟩
    -- The last character is part of a name, and the joints at the end are dropped.
    have hlast := List.getLast?_eq_some_getLast (List.ne_nil_of_length_pos hlen)
    refine ⟨_, hlast, ?_⟩
    have hjoint := getLast?_dropTrailing hlast
    have hpart := hparts _ (List.mem_of_getLast? hlast)
    simpa [isTagNamePart, hjoint] using hpart
  · simp at h

theorem tagNames_of_kind {P : String → Prop} {ts : List Token} (h : ∀ t ∈ ts, t.kind ≠ .tag) :
    TagNames P ts :=
  fun t ht name hl => absurd (show t.kind = .tag by rw [Token.kind, hl]; rfl) (h t ht)

theorem TagNames.append {P : String → Prop} {ts us : List Token} (h : TagNames P ts)
    (h' : TagNames P us) : TagNames P (ts ++ us) :=
  fun t ht => (List.mem_append.1 ht).elim (h t) (h' t)

theorem IsParts.kind_ne_tag {ts : List Token} (h : IsParts ts) : ∀ t ∈ ts, t.kind ≠ .tag := by
  induction h with
  | nil => simp
  | shorthand h _ ih =>
    rw [List.forall_mem_cons]
    exact ⟨by rcases h with h | h <;> simp [h], ih⟩
  | list ho has hc _ ih =>
    rw [List.forall_mem_cons, List.forall_mem_append, List.forall_mem_cons]
    exact ⟨by simp [ho], fun a ha => by simp [has a ha], by simp [hc], ih⟩

/-- There is no tag in the tokens of a body. -/
theorem IsBody.kind_ne_tag {ts : List Token} (h : IsBody ts) : ∀ t ∈ ts, t.kind ≠ .tag := by
  intro t ht hk
  simpa [hk, chainKinds] using h.mem t ht

/-- A head is read with the name of an element. -/
theorem tagHead_tagNames {p q : Place} {ts : List Token} (h : tagHead p = .ok (ts, q)) :
    TagNames IsElementName ts := by
  rw [tagHead] at h
  split at h
  · rename_i name hname
    dsimp only at h
    split at h
    · simp at h
    · rename_i hk
      obtain ⟨us, hus, rfl⟩ := Scan.after_eq_ok_iff.1 h
      refine TagNames.append (fun t ht other hl => ?_)
        (tagNames_of_kind (isParts_of_tagParts hus).kind_ne_tag)
      obtain rfl := List.mem_singleton.1 ht
      obtain rfl := Lexeme.tag.inj hl
      exact isElementName_of_tagName? hname hk
  · split at h
    · rename_i t r hs
      obtain ⟨us, hus, rfl⟩ := Scan.after_eq_ok_iff.1 h
      exact tagNames_of_kind (IsParts.shorthand (shorthand?_kind hs)
        (isParts_of_tagParts hus)).kind_ne_tag
    · simp at h

/-- So is every head on a line, behind colons too. -/
theorem tagLine_tagNames {indent : Nat} {p q : Place} {ts : List Token}
    (h : tagLine indent p = .ok (ts, q)) : TagNames IsElementName ts := by
  fun_induction tagLine indent p generalizing ts with
  | case1 => simp at h
  | case2 => simp at h
  | case3 p head r hp =>
    rename_i ih
    obtain ⟨us, hus, rfl⟩ := Scan.after_eq_ok_iff.1 h
    have hcolon : TagNames IsElementName [Token.read .colon r (r.drop 1)] :=
      tagNames_of_kind (by simp [Token.read, Token.kind, Lexeme.kind])
    exact ((tagHead_tagNames hp).append hcolon).append (ih hus)
  | case4 p head r hp =>
    obtain ⟨us, hus, rfl⟩ := Scan.after_eq_ok_iff.1 h
    exact (tagHead_tagNames hp).append (tagNames_of_kind (isBody_of_tagBody hus).kind_ne_tag)

/-- No line has the name of anything but an element. -/
theorem lineContent_tagNames {indent : Nat} {p q : Place} {ts : List Token}
    (h : lineContent indent p = .ok (ts, q)) : TagNames IsElementName ts := by
  rw [lineContent] at h
  split at h
  · obtain ⟨rfl, -⟩ := Prod.mk.inj (Except.ok.inj h)
    exact tagNames_of_kind (by simp [Token.read, Token.kind, Lexeme.kind])
  · simp at h
  · obtain ⟨rfl, -⟩ := Prod.mk.inj (Except.ok.inj h)
    exact tagNames_of_kind (by simp [Token.read, Token.kind, Lexeme.kind])
  · obtain ⟨rfl, -⟩ := Prod.mk.inj (Except.ok.inj h)
    exact tagNames_of_kind (by simp [Token.read, Token.kind, Lexeme.kind])
  · simp at h
  · simp at h
  · simp at h
  · exact tagLine_tagNames h

/-- In the tokens of a text, tags have only names of elements. -/
theorem scanLines_tagNames {levels : List Nat} {first : Bool} {p : Place} {ts : List Token}
    (h : scanLines levels first p = .ok ts) : TagNames IsElementName ts := by
  fun_induction scanLines levels first p generalizing ts with
  | case1 levels _ p _ =>
    obtain rfl := Except.ok.inj h
    refine tagNames_of_kind fun t ht => ?_
    rcases List.mem_append.1 ht with ht | ht
    · obtain ⟨_, _, rfl⟩ := List.mem_map.1 ht
      simp [Token.kind, Lexeme.kind]
    · obtain rfl := List.mem_singleton.1 ht
      simp [Token.kind, Lexeme.kind]
  | case2 _ _ _ _ _ ih => exact ih h
  | case3 => simp at h
  | case4 => simp at h
  | case5 => simp at h
  | case6 levels first p _ _ start _ opening inner hopen content next hcontent =>
    rename_i ih
    obtain ⟨more, hmore, rfl⟩ := map_eq_ok_iff.1 h
    refine TagNames.append (tagNames_of_kind fun t ht => ?_)
      ((lineContent_tagNames hcontent).append (ih hmore))
    obtain ⟨l, hl, rfl⟩ := List.mem_map.1 ht
    rcases mem_opening hopen hl with rfl | rfl | rfl <;> simp [Token.kind, Lexeme.kind]

/-- Whatever text is scanned, its tags are named in accord with the grammar of names. -/
theorem scan_tagNames {text : String} {tokens : List Token} (h : Token.scan text = .ok tokens) :
    TagNames IsElementName tokens := scanLines_tagNames h

/-- So are the tags that are parsed, those that start with a shorthand too. -/
theorem blockHeads_isElementName {text : String} {tokens : List Token} {block : Block}
    (hscan : Token.scan text = .ok tokens) (hparse : Block.ofTokens tokens = .ok block) :
    ∀ head ∈ blockHeads block, IsElementName head.name := by
  rw [Block.ofTokens_eq] at hparse
  obtain ⟨⟨items, e⟩, hread, rfl⟩ := map_eq_ok_iff.1 hparse
  exact (Reads.of_read hread).heads fun hb hh =>
    readHead_name isElementName_defaultTag ((scan_tagNames hscan).of_suffix hb) hh

/-! ## Trees -/

/-- A tree of parsed markup. -/
inductive IsView : Value → Prop
  | text (s : String) : IsView (.node (Node.text s))
  | group {vs : List Value} (h : ∀ v ∈ vs, IsView v) : IsView (.node (Node.fragment vs))
  /-- An element has an own content only if there is something in it. -/
  | element {name : String} {vs : List Value} {attrs : List Attribute} (hname : IsElementName name)
      (h : ∀ v ∈ vs, IsView v) :
      IsView (.node (Node.make name (listContent vs) (Attribute.toDict? attrs)))

theorem IsView.isTree {v : Value} (h : IsView v) : IsTree v := by
  induction h with
  | text s => exact isTree_text s
  | group _ ih => exact isTree_fragment ih
  | @element name vs attrs _ _ ih =>
    refine .node (fun items hitems => ?_) fun d hd => Attribute.isWritten_toDict? hd
    cases vs with
    | nil => cases hitems
    | cons v vs =>
      cases hitems
      exact ih

/-! ## Filling trees -/

/-- A group stays one when it is filled, and holds what is in it, filled. -/
theorem fill_group (f : Filling) {vs : List Value} (h : ∀ v ∈ vs, IsView v) :
    f.fill (.node (Node.fragment vs)) = .node (Node.fragment (vs.map f.fill)) := by
  have hgroup : f.slots.index? fragmentTag = none := Slots.index?_of_length_lt (by decide)
  exact fill_list hgroup (by decide) none fun v hv => (h v hv).isTree.standsAlone_fill f

/-- An element whose name is no token stays one. -/
theorem fill_element {f : Filling} {name : String} (hname : IsElementName name)
    (hindex : f.slots.index? name = none) (d : Option (Dict Value)) {vs : List Value}
    (h : ∀ v ∈ vs, IsView v) : f.fill (.node (Node.make name (listContent vs) d)) =
      .node (Node.make name (listContent (vs.map f.fill)) (d.map f.attrs)) :=
  fill_make hindex hname.startsWithWord.ne_textTag d fun v hv =>
    (h v hv).isTree.standsAlone_fill f

/-! ## Trees of texts -/

/-- Views that are gathered are a view. -/
theorem isView_of_gather {vs : List Value} (h : ∀ v ∈ vs, IsView v) {v : Value}
    (hv : gather vs = some v) : IsView v := by
  match vs with
  | [] => cases hv
  | [w] =>
    obtain rfl := Option.some.inj hv
    exact h w List.mem_cons_self
  | w :: u :: vs =>
    obtain rfl := Option.some.inj hv
    exact .group h

/-- The values of a block whose tags have the names of elements. -/
theorem isView_blockValues (b : Block) (h : ∀ head ∈ blockHeads b, IsElementName head.name) :
    ∀ v ∈ blockValues b, IsView v := by
  have hboth : Inherits (fun head => IsElementName head.name) fun v => IsView v ∧ IsElement v := by
    refine ⟨fun s => ⟨.text s, isElement_text s⟩, fun {name attrs vs} hname hvs => ?_⟩
    -- None of the values in an element is a group, so none gives way to its children.
    rw [contentOf_gather fun v hv => (hvs v hv).2]
    exact ⟨.element hname fun v hv => (hvs v hv).1,
      isElement_make hname.startsWithWord.ne_fragmentTag _ _⟩
  exact fun v hv => (hboth.block b h v hv).1

/-- The tree of a parsed text, unless there is nothing in it. -/
theorem isView_of_parse {text : String} {block : Block} (h : Block.parse text = .ok block) :
    block.toValue = .undefined ∨ IsView block.toValue := by
  rw [Block.parse] at h
  split at h
  · simp at h
  · rename_i tokens hscan
    have hviews := isView_blockValues block (blockHeads_isElementName hscan h)
    rw [Block.toValue]
    cases hg : gather (blockValues block) with
    | none => exact .inl rfl
    | some v => exact .inr (isView_of_gather hviews hg)

end SlotMarkup
