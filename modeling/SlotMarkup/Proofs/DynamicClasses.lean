import SlotMarkup.Proofs.TokenFree
import SlotMarkup.Proofs.TreeFilling

/-!
# Classes and slots

The classes of a tag are joined to one string before the slots are filled, and the
string is filled only if all of it is a token. So a class that stands for a value shows
the value only if it is the tag's one class (`className_fill`). Next to another class
its token stays (`classesShown_iff`).
-/

namespace SlotMarkup

/-- A class as it is written, and the text that it is to show: the class itself, if there
    is no token in it, and the string in the slot whose token it is. -/
inductive ClassText (f : Filling) (written : String) : String → Prop
  | literal (h : f.slots.contains written = false) : ClassText f written written
  | slot {index : Nat} {text : String} (h : f.slots.index? written = some index)
      (hvalue : f.value index = .str text) (hclean : Slots.Clean text.toList) :
      ClassText f written text

/-- The value under the name of the classes, when the slots are filled. -/
def className? (f : Filling) (attrs : List Attribute) : Option Value :=
  ((Attribute.toDict? attrs).map f.attrs).bind fun d => Dict.get? d classKey

/-- All classes of a tag are shown, and no token is. -/
def ClassesShown (f : Filling) (attrs : List Attribute) : Prop :=
  ∃ shown, className? f attrs = some (.str shown) ∧ f.slots.contains shown = false ∧
    ∀ a ∈ attrs, a.isClass = true → ∀ text, ClassText f a.value.toClass text →
      text.toList <:+: shown.toList

/-- The name of the classes, written by itself, stands for no other attribute. -/
def KeepsClassKey (f : Filling) (attrs : List Attribute) : Prop :=
  (∃ a ∈ attrs, a.name = classKey) → ∀ a ∈ attrs, a.name ≠ classKey →
    ∀ e ∈ f.expand a.name a.value.toValue, e.1 ≠ classKey

/-! ## The classes of a tag -/

section Classes

variable {attrs : List Attribute}

theorem mem_classes_iff {c : String} :
    c ∈ Attribute.classes attrs ↔ ∃ a ∈ attrs, a.isClass = true ∧ a.value.toClass = c := by
  rw [Attribute.classes, mem_distinct, List.mem_map]
  constructor
  · rintro ⟨a, ha, hc⟩
    exact ⟨a, (List.mem_filter.1 ha).1, (List.mem_filter.1 ha).2, hc⟩
  · rintro ⟨a, ha, hclass, hc⟩
    exact ⟨a, List.mem_filter.2 ⟨ha, hclass⟩, hc⟩

/-- A class that is given more than once is one class. -/
theorem classes_eq_singleton {c : String} (hne : Attribute.classes attrs ≠ [])
    (h : ∀ d ∈ Attribute.classes attrs, d = c) : Attribute.classes attrs = [c] := by
  have hnodup : (Attribute.classes attrs).Nodup := nodup_distinct _
  match hclasses : Attribute.classes attrs with
  | [] => exact absurd hclasses hne
  | [d] => rw [h d (by simp [hclasses])]
  | d :: e :: ds =>
    rw [hclasses, List.nodup_cons] at hnodup
    have heq : d = e := (h d (by simp [hclasses])).trans (h e (by simp [hclasses])).symm
    exact absurd (heq ▸ List.mem_cons_self) hnodup.1

/-- The joined classes in the dictionary of a tag. Behind them there are attributes only
    if their name is written by itself. -/
theorem toDict?_split (hsome : Attribute.classes attrs ≠ []) :
    ∃ before after, Attribute.toDict? attrs =
        some (before ++ (classKey, .str (" ".intercalate (Attribute.classes attrs))) :: after) ∧
      ((∀ a ∈ attrs, a.name ≠ classKey) → after = []) ∧
      ∀ e ∈ after, e.1 ≠ classKey ∧ ∃ a ∈ attrs, e = (a.name, a.value.toValue) := by
  have hattrs : attrs.isEmpty = false := by
    cases attrs with
    | nil => exact absurd rfl hsome
    | cons a attrs => rfl
  have hothers : ∀ e ∈ Attribute.others attrs, ∃ a ∈ attrs, e = (a.name, a.value.toValue) := by
    intro e he
    obtain ⟨a, ha, rfl⟩ := List.mem_map.1 (Dict.mem_ofList he)
    exact ⟨a, (List.mem_filter.1 ha).1, rfl⟩
  have hdict : Attribute.toDict? attrs = some ((Attribute.others attrs).insert classKey
      (.str (" ".intercalate (Attribute.classes attrs)))) := by
    rw [Attribute.toDict?, hattrs]
    cases hc : Attribute.classes attrs with
    | nil => exact absurd hc hsome
    | cons c cs => rfl
  have hnodup := Dict.nodup_names_insert (Dict.nodup_names_ofList _) classKey
    (Value.str (" ".intercalate (Attribute.classes attrs))) (d := Attribute.others attrs)
  obtain ⟨before, after, heq, hnew, hmem⟩ := (Attribute.others attrs).insert_split classKey
    (.str (" ".intercalate (Attribute.classes attrs)))
  rw [heq] at hdict hnodup
  refine ⟨before, after, hdict, fun hname => hnew fun hin => ?_, fun e he => ⟨?_, ?_⟩⟩
  · obtain ⟨e, he, hkey⟩ := List.mem_map.1 hin
    obtain ⟨a, ha, rfl⟩ := hothers e he
    exact hname a ha hkey
  · rw [Dict.names, List.map_append, List.map_cons] at hnodup
    have hlater := (List.nodup_cons.1 (List.nodup_append.1 hnodup).2.1).1
    exact fun hkey => hlater (List.mem_map.2 ⟨e, he, hkey⟩)
  · exact hothers e (hmem e he)

/-- What stands under the name of the classes is the joined classes, filled as one. -/
theorem className_fill {f : Filling} (hsome : Attribute.classes attrs ≠ [])
    (hkey : KeepsClassKey f attrs) :
    className? f attrs =
      some (f.fillAttr (.str (" ".intercalate (Attribute.classes attrs)))) := by
  obtain ⟨before, after, hdict, hlast, hafter⟩ := toDict?_split hsome
  have hclassKey : f.slots.index? classKey = none := Slots.index?_of_length_lt (by decide)
  have hexpand (v : Value) : f.expand classKey v = [(classKey, f.fillAttr v)] := by
    rw [Filling.expand, hclassKey]
  -- The last value given to a name counts, so nothing may be given to this one later.
  have hlater : ∀ e ∈ after.flatMap (fun e => f.expand e.1 e.2), e.1 ≠ classKey := by
    by_cases hwritten : ∃ a ∈ attrs, a.name = classKey
    · intro e he
      obtain ⟨e', he', hin⟩ := List.mem_flatMap.1 he
      obtain ⟨hne, a, ha, rfl⟩ := hafter e' he'
      exact hkey hwritten a ha hne e hin
    · rw [hlast fun a ha hname => hwritten ⟨a, ha, hname⟩]
      exact fun e he => absurd he List.not_mem_nil
  rw [className?, hdict, Option.map_some, Option.bind_some, Filling.attrs, List.flatMap_append,
    List.flatMap_cons, hexpand, List.singleton_append, Dict.get?_ofList_append _ hlater]

end Classes

/-! ## Joined classes -/

theorem infix_joined {c : String} {cs : List String} (h : c ∈ cs) :
    c.toList <:+: (" ".intercalate cs).toList := by
  induction cs with
  | nil => cases h
  | cons d cs ih =>
    cases cs with
    | nil =>
      obtain rfl := List.mem_singleton.1 h
      simp
    | cons e cs =>
      rw [String.intercalate_cons_cons, String.toList_append, String.toList_append]
      rcases List.mem_cons.1 h with rfl | h
      · rw [List.append_assoc]
        exact (List.prefix_append _ _).isInfix
      · exact (ih h).trans (List.suffix_append _ _).isInfix

/-- Several classes are joined by blanks, which no token has. -/
theorem index?_joined (s : Slots) {cs : List String} (h : 2 ≤ cs.length) :
    s.index? (" ".intercalate cs) = none := by
  match cs with
  | c :: d :: cs =>
    rw [Option.eq_none_iff_forall_ne_some]
    intro index hindex
    obtain ⟨-, htoken⟩ := Slots.index?_eq_some_iff.1 hindex
    have hblank : ' ' ∈ (" ".intercalate (c :: d :: cs)).toList := by
      rw [String.intercalate_cons_cons, String.toList_append, String.toList_append]
      simp
    exact absurd (Slots.allWord_token index ' ' (htoken ▸ hblank)) (by decide)

/-! ## Shown classes -/

theorem Filling.fillAttr_text {f : Filling} {text : String} (h : f.slots.index? text = none) :
    f.fillAttr (.str text) = .str text := by
  simp only [fillAttr, h]

theorem Filling.fillAttr_token {f : Filling} {text : String} {index : Nat}
    (h : f.slots.index? text = some index) : f.fillAttr (.str text) = f.value index := by
  simp only [fillAttr, h]

section Shown

variable {f : Filling} {attrs : List Attribute}

theorem contains_of_index? {s : Slots} {text : String} {index : Nat}
    (h : s.index? text = some index) : s.contains text = true := by
  rw [← Bool.not_eq_false]
  intro hno
  rw [Slots.index?_of_contains hno] at h
  cases h

/-- Without slots among the classes all of them are shown. -/
theorem classesShown_of_literal (hsome : Attribute.classes attrs ≠ [])
    (hkey : KeepsClassKey f attrs)
    (hliteral : ∀ c ∈ Attribute.classes attrs, f.slots.contains c = false) :
    ClassesShown f attrs := by
  have hno := contains_joined_iff.2 hliteral
  refine ⟨_, ?_, hno, fun a ha hclass text htext => ?_⟩
  · rw [className_fill hsome hkey, Filling.fillAttr_text (Slots.index?_of_contains hno)]
  · have hmem := mem_classes_iff.2 ⟨a, ha, hclass, rfl⟩
    cases htext with
    | literal => exact infix_joined hmem
    | slot hindex =>
      rw [Slots.index?_of_contains (hliteral _ hmem)] at hindex
      cases hindex

/-- A slot that is the one class of a tag is shown. -/
theorem classesShown_of_slot {c text : String} {index : Nat}
    (hclasses : Attribute.classes attrs = [c]) (hkey : KeepsClassKey f attrs)
    (hindex : f.slots.index? c = some index) (hvalue : f.value index = .str text)
    (hclean : Slots.Clean text.toList) : ClassesShown f attrs := by
  refine ⟨text, ?_, Slots.contains_of_clean hclean, fun a ha hclass other hother => ?_⟩
  · rw [className_fill (by simp [hclasses]) hkey, hclasses, String.intercalate_singleton,
      Filling.fillAttr_token hindex, hvalue]
  · have hmem := mem_classes_iff.2 ⟨a, ha, hclass, rfl⟩
    rw [hclasses, List.mem_singleton] at hmem
    rw [hmem] at hother
    cases hother with
    | literal hno =>
      rw [Slots.index?_of_contains hno] at hindex
      cases hindex
    | slot hindex' hvalue' =>
      obtain rfl := Option.some.inj (hindex.symm.trans hindex')
      obtain rfl := Value.str.inj (hvalue.symm.trans hvalue')
      exact List.infix_rfl

/-- A tag with a class or more, each without a token or a slot with a string, shows all of
    them just if none is a slot, or all are the same one. -/
theorem classesShown_iff (hsome : ∃ a ∈ attrs, a.isClass = true)
    (htext : ∀ a ∈ attrs, a.isClass = true → ∃ text, ClassText f a.value.toClass text)
    (hkey : KeepsClassKey f attrs) :
    ClassesShown f attrs ↔
      (∀ a ∈ attrs, a.isClass = true → f.slots.index? a.value.toClass = none) ∨
        ∃ c, ∀ a ∈ attrs, a.isClass = true → a.value.toClass = c := by
  have hne : Attribute.classes attrs ≠ [] := by
    obtain ⟨a, ha, hclass⟩ := hsome
    exact List.ne_nil_of_mem (mem_classes_iff.2 ⟨a, ha, hclass, rfl⟩)
  have hcase : ∀ c ∈ Attribute.classes attrs, f.slots.contains c = false ∨
      ∃ index text, f.slots.index? c = some index ∧ f.value index = .str text ∧
        Slots.Clean text.toList := by
    intro c hc
    obtain ⟨a, ha, hclass, rfl⟩ := mem_classes_iff.1 hc
    obtain ⟨text, htext⟩ := htext a ha hclass
    cases htext with
    | literal hno => exact .inl hno
    | slot hindex hvalue hclean => exact .inr ⟨_, _, hindex, hvalue, hclean⟩
  constructor
  · rintro ⟨shown, hshown, hno, -⟩
    by_cases hlength : 2 ≤ (Attribute.classes attrs).length
    · -- The joined classes are no token, so what is shown is what is written.
      rw [className_fill hne hkey, Filling.fillAttr_text (index?_joined _ hlength)] at hshown
      obtain rfl := Value.str.inj (Option.some.inj hshown)
      exact .inl fun a ha hclass => Slots.index?_of_contains
        (contains_joined_iff.1 hno _ (mem_classes_iff.2 ⟨a, ha, hclass, rfl⟩))
    · -- One class is left, though it may be declared many times.
      obtain ⟨c, hc⟩ : ∃ c, Attribute.classes attrs = [c] := by
        rw [← List.length_eq_one_iff]
        have := List.length_pos_iff.2 hne
        omega
      refine .inr ⟨c, fun a ha hclass => ?_⟩
      have hmem := mem_classes_iff.2 ⟨a, ha, hclass, rfl⟩
      rwa [hc, List.mem_singleton] at hmem
  · rintro (hliteral | ⟨c, hsame⟩)
    · refine classesShown_of_literal hne hkey fun c hc => ?_
      rcases hcase c hc with hno | ⟨index, -, hindex, -⟩
      · exact hno
      · obtain ⟨a, ha, hclass, rfl⟩ := mem_classes_iff.1 hc
        rw [hliteral a ha hclass] at hindex
        cases hindex
    · have hall : ∀ d ∈ Attribute.classes attrs, d = c := by
        intro d hd
        obtain ⟨a, ha, hclass, rfl⟩ := mem_classes_iff.1 hd
        exact hsame a ha hclass
      have hclasses : Attribute.classes attrs = [c] := classes_eq_singleton hne hall
      rcases hcase c (hclasses ▸ List.mem_cons_self) with hno | ⟨_, _, hindex, hvalue, hclean⟩
      · exact classesShown_of_literal hne hkey fun d hd => hall d hd ▸ hno
      · exact classesShown_of_slot hclasses hkey hindex hvalue hclean

end Shown

/-- A tag with one class, which is a slot, and with its name for all classes written by
    itself. -/
theorem classesShown_single_slot :
    let f : Filling := ⟨⟨1⟩, [.str "x"]⟩
    let attrs : List Attribute := [⟨"className", .raw "'y'", .nowhere⟩, ⟨"title", .bare, .nowhere⟩,
      ⟨"class", .raw "'emjay_substitution0'", .nowhere⟩]
    KeepsClassKey f attrs ∧ ClassesShown f attrs := by
  intro f attrs
  have hclass : ∀ a ∈ attrs, a.isClass = true → a.value.toClass = "emjay_substitution0" := by
    decide +kernel
  have hindex : f.slots.index? "emjay_substitution0" = some 0 := by decide +kernel
  have hkey : KeepsClassKey f attrs := by
    intro _ a ha hne e he
    have hname : f.slots.index? a.name = none := by
      have hall : ∀ a ∈ attrs, f.slots.index? a.name = none := by decide +kernel
      exact hall a ha
    rw [Filling.expand, hname] at he
    rwa [List.mem_singleton.1 he]
  have htext : ∀ a ∈ attrs, a.isClass = true → ∃ text, ClassText f a.value.toClass text := by
    intro a ha hc
    rw [hclass a ha hc]
    exact ⟨"x", .slot hindex rfl (Slots.clean_of_length_lt (by decide))⟩
  exact ⟨hkey, (classesShown_iff ⟨_, List.mem_of_getElem? (i := 2) rfl, by decide⟩ htext hkey).2
    (.inr ⟨_, hclass⟩)⟩

/-- Beside another class a slot is not filled: `p.a(class=x)` shows the token. -/
theorem not_classesShown_beside_class :
    let f : Filling := ⟨⟨1⟩, [.str "x"]⟩
    let attrs : List Attribute :=
      [⟨"class", quoted "a", .nowhere⟩, ⟨"class", .raw "emjay_substitution0", .nowhere⟩]
    (∀ a ∈ attrs, a.isClass = true ∧ ∃ text, ClassText f a.value.toClass text) ∧
      ¬ClassesShown f attrs ∧
      ((Template.compile ["p.a(class=", ")"]).toOption.bind fun t =>
        ((t.render [.str "x"]).node?.bind fun n => n.attrs.bind fun d => Dict.get? d classKey).bind
          Value.str?) = some "a emjay_substitution0" := by
  intro f attrs
  have hclasses : Attribute.classes attrs = ["a", "emjay_substitution0"] := by decide +kernel
  have hindex : f.slots.index? "emjay_substitution0" = some 0 := by decide +kernel
  have hkey : KeepsClassKey f attrs := by
    rintro ⟨a, ha, hname⟩
    have hall : ∀ a ∈ attrs, a.name ≠ classKey := by decide +kernel
    exact absurd hname (hall a ha)
  refine ⟨fun a ha => ?_, ?_, by decide +kernel⟩
  · simp only [attrs, List.mem_cons, List.not_mem_nil, or_false] at ha
    rcases ha with rfl | rfl
    · exact ⟨by decide, "a", by
        have htext : (quoted "a").toClass = "a" := by decide +kernel
        exact htext ▸ .literal (by decide +kernel)⟩
    · have htext : (AttrValue.raw "emjay_substitution0").toClass = "emjay_substitution0" := by
        decide +kernel
      exact ⟨by decide, "x",
        .slot (htext ▸ hindex) rfl (Slots.clean_of_length_lt (by decide))⟩
  · rintro ⟨shown, hshown, hno, -⟩
    have hjoined := index?_joined f.slots (Nat.le_refl ["a", "emjay_substitution0"].length)
    rw [className_fill (by simp [hclasses]) hkey, hclasses,
      Filling.fillAttr_text hjoined] at hshown
    obtain rfl := Value.str.inj (Option.some.inj hshown)
    have htoken := contains_joined_iff.1 hno "emjay_substitution0" (by simp)
    rw [contains_of_index? hindex] at htoken
    cases htoken

end SlotMarkup
