import Mathlib.Data.List.Basic
import SlotMarkup.Proofs.SlotToken
import SlotMarkup.Template.Fill

/-!
# What a filled tree depends on

A tree that is filled looks up values of those slots only whose tokens stand in it (`OccursIn`): as
a tag, as the name or the value of an attribute, or inside a text. Two lists that have the same
values there fill it alike (`fill_congr`), whatever else is in them. A value that is missing is
undefined, so it is not told from one that is given as such, and no value is looked up behind those
of all slots.
-/

namespace SlotMarkup

/-! ## Occurrences -/

/-- The token of a slot stands in a tree. -/
inductive Slots.OccursIn (s : Slots) (i : Nat) : Value → Prop
  | tag {n : Node} (h : n.tag = some (String.ofList (s.token i))) : OccursIn s i (.node n)
  | name {n : Node} {d : Dict Value} {v : Value} (hd : n.attrs = some d)
      (h : (String.ofList (s.token i), v) ∈ d) : OccursIn s i (.node n)
  | value {n : Node} {d : Dict Value} {name : String} (hd : n.attrs = some d)
      (h : (name, .str (String.ofList (s.token i))) ∈ d) : OccursIn s i (.node n)
  | text {n : Node} {x : String} (hx : n.children = some (.text x))
      (h : s.token i <:+: x.toList) : OccursIn s i (.node n)
  | child {n : Node} {vs : List Value} {v : Value} (hvs : n.children = some (.list vs))
      (hv : v ∈ vs) (h : OccursIn s i v) : OccursIn s i (.node n)

namespace Slots

variable {s : Slots}

/-- Where a text is cut, the token of the slot stands in it. -/
theorem token_infix_of_mem_cut {cs : List Char} {e : Nat × List Char} (h : e ∈ (s.cut cs).tail) :
    s.token e.1 <:+: cs := by
  obtain ⟨before, after, htail⟩ := List.append_of_mem h
  rw [← join_cut (s := s) cs, Cut.join, htail, List.flatMap_append, List.flatMap_cons]
  exact ⟨(s.cut cs).head ++ before.flatMap fun e => s.token e.1 ++ e.2,
    e.2 ++ after.flatMap fun e => s.token e.1 ++ e.2, by simp⟩

end Slots

/-! ## Two lists of values -/

namespace Filling

variable {s : Slots} {vs ws : List Value}

/-- Two lists have the same value at a place, behind whose end all values are undefined. -/
def SameAt (vs ws : List Value) (i : Nat) : Prop :=
  (vs[i]?).getD .undefined = (ws[i]?).getD .undefined

/-- Two lists have the same values for the slots whose tokens stand in a tree. -/
def SameOn (s : Slots) (vs ws : List Value) (tree : Value) : Prop :=
  ∀ i < s.count, s.OccursIn i tree → SameAt vs ws i

/-- Two lists have the same value for the slot that a text names as a whole, if it names one. -/
def SameFor (s : Slots) (vs ws : List Value) (text : String) : Prop :=
  ∀ i, s.index? text = some i → SameAt vs ws i

/-- A filled value depends only on the slots of its text. -/
theorem fillAttr_congr {v : Value} (h : ∀ x, v = .str x → SameFor s vs ws x) :
    fillAttr ⟨s, vs⟩ v = fillAttr ⟨s, ws⟩ v := by
  cases v with
  | str x =>
    rw [fillAttr, fillAttr]
    cases hi : s.index? x with
    | none => rfl
    | some i => exact h x rfl i hi
  | _ => rfl

/-- The same attributes come of an attribute whose name and value are filled alike. -/
theorem expand_congr {name : String} {v : Value} (hname : SameFor s vs ws name)
    (hvalue : ∀ x, v = .str x → SameFor s vs ws x) :
    expand ⟨s, vs⟩ name v = expand ⟨s, ws⟩ name v := by
  have hfill := fillAttr_congr hvalue
  rw [expand, expand]
  cases hi : s.index? name with
  | none => rw [hfill]
  | some i =>
    have hsame : value ⟨s, vs⟩ i = value ⟨s, ws⟩ i := hname i hi
    simp only [hsame, hfill]

/-- The pieces of a text depend only on the slots they are for. -/
theorem pieces_congr {tail : List (Nat × List Char)} (h : ∀ e ∈ tail, SameAt vs ws e.1) :
    pieces ⟨s, vs⟩ tail = pieces ⟨s, ws⟩ tail := by
  induction tail with
  | nil => rfl
  | cons e tail ih =>
    have hsame : value ⟨s, vs⟩ e.1 = value ⟨s, ws⟩ e.1 := h e List.mem_cons_self
    rw [pieces, pieces, hsame, ih fun x hx => h x (List.mem_cons_of_mem _ hx)]

/-- A filled text depends only on the slots whose tokens are in it. -/
theorem text_congr {x : String} (h : ∀ e ∈ (s.cut x.toList).tail, SameAt vs ws e.1) :
    text ⟨s, vs⟩ x = text ⟨s, ws⟩ x := by
  rw [text, text]
  cases htail : (s.cut x.toList).tail with
  | nil => rfl
  | cons e tail =>
    have hpieces : pieces ⟨s, vs⟩ (e :: tail) = pieces ⟨s, ws⟩ (e :: tail) :=
      pieces_congr (htail ▸ h)
    simp only [hpieces]

section Node

variable {n : Node} (h : SameOn s vs ws (.node n))
include h

theorem SameOn.tag {name : String} (hn : n.tag = some name) : SameFor s vs ws name := by
  intro i hi
  obtain ⟨hlt, rfl⟩ := Slots.eq_token_of_index? hi
  exact h i hlt (.tag hn)

/-- The attributes of a node are filled alike. -/
theorem SameOn.attrs_eq {d : Dict Value} (hd : n.attrs = some d) :
    attrs ⟨s, vs⟩ d = attrs ⟨s, ws⟩ d := by
  refine congrArg Dict.ofList (List.flatMap_congr fun ⟨name, v⟩ he => ?_)
  refine expand_congr (fun i hi => ?_) fun x hx i hi => ?_
  · obtain ⟨hlt, rfl⟩ := Slots.eq_token_of_index? hi
    exact h i hlt (.name hd he)
  · obtain ⟨hlt, rfl⟩ := Slots.eq_token_of_index? hi
    obtain rfl : v = .str (String.ofList (s.token i)) := hx
    exact h i hlt (.value hd he)

theorem SameOn.text {x : String} (hx : n.children = some (.text x)) :
    Filling.text ⟨s, vs⟩ x = Filling.text ⟨s, ws⟩ x :=
  text_congr fun _ he => h _ (Slots.lt_of_mem_cut he) (.text hx (Slots.token_infix_of_mem_cut he))

/-- A slot that occurs in a child occurs in the node, so that the values agree on it. -/
theorem SameOn.child {items : List Value} (hc : n.children = some (.list items)) {v : Value}
    (hv : v ∈ items) : SameOn s vs ws v := fun i hlt hi => h i hlt (.child hc hv hi)

end Node

mutual

/-- A tree is filled alike with two lists that have the same values for the slots in it. -/
theorem fill_congr : (v : Value) → SameOn s vs ws v → fill ⟨s, vs⟩ v = fill ⟨s, ws⟩ v
  | .node ⟨tag, key, old, children, reserved⟩, h => by
    have hcontent := fillContent_congr children (fun x hx => h.text hx) fun items hc v hv =>
      h.child hc hv
    have hattrs : old.map (attrs ⟨s, vs⟩) = old.map (attrs ⟨s, ws⟩) :=
      Option.map_congr fun d hd => h.attrs_eq (Option.mem_def.1 hd)
    rw [fill, fill]
    simp only [hcontent, rebuild, hattrs]
    have hslot : tagSlot? ⟨s, vs⟩ tag = tagSlot? ⟨s, ws⟩ tag := rfl
    rw [hslot]
    cases htag : tagSlot? ⟨s, ws⟩ tag with
    | none => rfl
    | some i =>
      obtain ⟨name, hname, hi⟩ := Option.bind_eq_some_iff.1 htag
      have hsame : value ⟨s, vs⟩ i = value ⟨s, ws⟩ i := h.tag hname i hi
      simp only [hsame]
  | .undefined, _ => by rw [fill, fill]
  | .null, _ => by rw [fill, fill]
  | .bool b, _ => by rw [fill, fill]
  | .number x, _ => by rw [fill, fill]
  | .str x, _ => by rw [fill, fill]
  | .list items, _ => by rw [fill, fill]
  | .dict entries, _ => by rw [fill, fill]
  | .handler g, _ => by rw [fill, fill]
  | .foreign identity, _ => by rw [fill, fill]

/-- Trees in a row are filled alike if each of them is. -/
theorem fillAll_congr : (items : List Value) → (∀ v ∈ items, SameOn s vs ws v) →
    fillAll ⟨s, vs⟩ items = fillAll ⟨s, ws⟩ items
  | [], _ => by rw [fillAll, fillAll]
  | v :: items, h => by
    rw [fillAll, fillAll, fill_congr v (h v List.mem_cons_self),
      fillAll_congr items fun w hw => h w (List.mem_cons_of_mem _ hw)]

theorem fillContent_congr : (children : Option (Children Value)) →
    (∀ x, children = some (.text x) → Filling.text ⟨s, vs⟩ x = Filling.text ⟨s, ws⟩ x) →
    (∀ items, children = some (.list items) → ∀ v ∈ items, SameOn s vs ws v) →
    fillContent ⟨s, vs⟩ children = fillContent ⟨s, ws⟩ children
  | none, _, _ => by rw [fillContent, fillContent]
  | some (.text x), htext, _ => by rw [fillContent, fillContent, htext x rfl]
  | some (.list items), _, hitems => by
    rw [fillContent, fillContent, fillAll_congr items (hitems items rfl)]

end

/-- What a tree is filled to depends on the values of those slots only whose tokens stand in it.
    So values behind those of all slots have no effect, and undefined values can be put at the end
    of a list that is too short. -/
theorem fill_eq_of_sameAt (s : Slots) (tree : Value) :
    (∀ vs ws : List Value, (∀ i < s.count, s.OccursIn i tree → SameAt vs ws i) →
      fill ⟨s, vs⟩ tree = fill ⟨s, ws⟩ tree) ∧
    (∀ vs surplus : List Value, s.count ≤ vs.length →
      fill ⟨s, vs ++ surplus⟩ tree = fill ⟨s, vs⟩ tree) ∧
    ∀ vs : List Value, fill ⟨s, vs ++ List.replicate (s.count - vs.length) .undefined⟩ tree =
      fill ⟨s, vs⟩ tree := by
  refine ⟨fun vs ws h => fill_congr tree h, fun vs surplus hlength => ?_, fun vs => ?_⟩
  · refine fill_congr tree fun i hi _ => ?_
    rw [SameAt, List.getElem?_append_left (Nat.lt_of_lt_of_le hi hlength)]
  · refine fill_congr tree fun i hi _ => ?_
    rw [SameAt]
    by_cases hlt : i < vs.length
    · rw [List.getElem?_append_left hlt]
    · have hle := Nat.le_of_not_lt hlt
      rw [List.getElem?_append_right hle, List.getElem?_eq_none hle, List.getElem?_replicate]
      split <;> rfl

/-- The second of three slots stands nowhere in a list with an item, so its value has no effect. -/
theorem fill_eq_of_sameAt_unused :
    let s : Slots := ⟨3⟩
    let item : Node := ⟨some "emjay_substitution2", none, none, none, {}⟩
    let tree : Value := .node ⟨some "ul", none, some [("emjay_substitution0", .bool true)],
      some (.list [.node item]), {}⟩
    let vs : List Value := [.dict [("id", .str "x")], .str "y", .list []]
    let ws : List Value := [.dict [("id", .str "x")], .node item, .list [], .null]
    (∀ i < s.count, s.OccursIn i tree → SameAt vs ws i) ∧ s.count ≤ vs.length ∧
      fill ⟨s, vs⟩ tree = fill ⟨s, ws⟩ tree ∧
      fill ⟨s, vs ++ [.null]⟩ tree = fill ⟨s, vs⟩ tree := by
  intro s item tree vs ws
  have htoken : String.ofList (s.token 1) = "emjay_substitution1" := by decide
  have hunused : ¬s.OccursIn 1 tree := by
    intro h
    unfold tree at h
    rcases h with h | ⟨hd, h⟩ | ⟨hd, h⟩ | ⟨hx, h⟩ | ⟨hvs, hv, h⟩
    · simp [htoken] at h
    · obtain rfl := Option.some.inj hd
      simp [htoken] at h
    · obtain rfl := Option.some.inj hd
      simp at h
    · cases hx
    · obtain rfl := Children.list.inj (Option.some.inj hvs)
      obtain rfl := List.mem_singleton.1 hv
      rcases h with h | ⟨hd, -⟩ | ⟨hd, -⟩ | ⟨hx, -⟩ | ⟨hvs, -, -⟩
      · simp [htoken, item] at h
      · cases hd
      · cases hd
      · cases hx
      · cases hvs
  have hsame : ∀ i < s.count, s.OccursIn i tree → SameAt vs ws i := by
    intro i hi h
    have hi : i < 3 := hi
    match i with
    | 0 => rfl
    | 1 => exact absurd h hunused
    | 2 => rfl
  obtain ⟨hagree, hsurplus, -⟩ := fill_eq_of_sameAt s tree
  exact ⟨hsame, Nat.le_refl _, hagree vs ws hsame, hsurplus vs [.null] (Nat.le_refl _)⟩

end Filling

end SlotMarkup
