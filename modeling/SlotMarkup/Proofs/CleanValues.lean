import SlotMarkup.Proofs.EncodeFind
import SlotMarkup.Value.Normal

/-!
# Values without the reserved word

A value has other values inside it: in lists and dictionaries, and in the key, the
attributes and the children of a node (`Value.inside`). A property may hold of a value
`Everywhere`, at any depth of it. A value is clean if none of the texts in it, those that
are names included, has the reserved word of the tokens (`Value.Clean`).

* `Clean.normalize`: a clean value is clean as a node;
* `clean_display`: so is the text of any number.
-/

namespace SlotMarkup

namespace Value

/-! ## Values inside values -/

/-- The values directly inside a value. -/
def inside : Value → List Value
  | list items => items
  | dict entries => entries.map (·.2)
  | node n => n.key.toList ++ ((n.attrs.getD []).map (·.2) ++ n.childList?.getD [])
  | _ => []

/-- A property holds of a value and of all values inside it, at any depth. -/
inductive Everywhere (P : Value → Prop) : Value → Prop
  | intro {v : Value} (here : P v) (inside : ∀ w ∈ v.inside, Everywhere P w) : Everywhere P v

section Everywhere

variable {P Q : Value → Prop} {v : Value}

/-- What holds everywhere in a value holds of the value. -/
theorem Everywhere.here (h : Everywhere P v) : P v := by
  cases h
  assumption

/-- What holds everywhere in a value holds everywhere in its parts. -/
theorem Everywhere.of_mem (h : Everywhere P v) {w : Value} (hw : w ∈ v.inside) :
    Everywhere P w := by
  cases h with
  | intro _ hinside => exact hinside w hw

/-- What follows from a property holds wherever the property does. -/
theorem Everywhere.mono (h : ∀ v, P v → Q v) (hv : Everywhere P v) : Everywhere Q v := by
  induction hv with
  | intro here _ ih => exact ⟨h _ here, ih⟩

/-- A value with nothing inside. -/
theorem Everywhere.leaf (h : P v) (hinside : v.inside = []) : Everywhere P v :=
  ⟨h, fun w hw => by simp [hinside] at hw⟩

/-- A property holds everywhere in a node if it holds of the node, and everywhere in its key, its
    attributes and its children. -/
theorem Everywhere.node {n : Node} (here : P (.node n))
    (hkey : ∀ k, n.key = some k → Everywhere P k)
    (hattrs : ∀ d, n.attrs = some d → ∀ e ∈ d, Everywhere P e.2)
    (hchildren : ∀ items, n.children = some (.list items) → ∀ w ∈ items, Everywhere P w) :
    Everywhere P (.node n) := by
  refine ⟨here, fun w hw => ?_⟩
  rw [inside, List.mem_append, List.mem_append] at hw
  rcases hw with hw | hw | hw
  · exact hkey w (Option.mem_toList.1 hw)
  · obtain ⟨e, he, rfl⟩ := List.mem_map.1 hw
    cases hd : n.attrs with
    | none => simp [hd] at he
    | some d => exact hattrs d hd e (by simpa [hd] using he)
  · rw [NodeOf.childList?] at hw
    split at hw
    · rename_i items hitems
      exact hchildren items hitems w hw
    · simp at hw

end Everywhere

/-! ## Clean values -/

/-- The texts of a value that are in no value inside it. -/
def ownTexts : Value → List String
  | str s => [s]
  | dict entries => entries.map (·.1)
  | handler h => h.label.toList
  | node n =>
    n.tag.toList ++ ((n.attrs.getD []).map (·.1) ++ (n.reserved.text.toList ++
      match n.children with
      | some (.text s) => [s]
      | _ => []))
  | _ => []

/-- The reserved word is not in the texts of a value itself. -/
def OwnClean (v : Value) : Prop := ∀ s ∈ v.ownTexts, Slots.Clean s.toList

/-- The reserved word is nowhere in a value. -/
def Clean (v : Value) : Prop := Everywhere OwnClean v

/-- In a clean value no text of its own holds a token. -/
theorem Clean.own {v : Value} (h : v.Clean) {s : String} (hs : s ∈ v.ownTexts) :
    Slots.Clean s.toList :=
  Everywhere.here h s hs

theorem Clean.str {s : String} (h : (Value.str s).Clean) : Slots.Clean s.toList :=
  h.own List.mem_cons_self

theorem clean_str {s : String} (h : Slots.Clean s.toList) : (str s).Clean :=
  .leaf (fun t ht => by rwa [List.mem_singleton.1 ht]) rfl

/-- A dictionary is clean if its names and its values are. -/
theorem clean_dict {entries : List (String × Value)}
    (h : ∀ e ∈ entries, Slots.Clean e.1.toList ∧ e.2.Clean) : (dict entries).Clean := by
  refine ⟨fun s hs => ?_, fun w hw => ?_⟩
  · obtain ⟨e, he, rfl⟩ := List.mem_map.1 hs
    exact (h e he).1
  · obtain ⟨e, he, rfl⟩ := List.mem_map.1 hw
    exact (h e he).2

theorem clean_undefined : undefined.Clean := .leaf (fun _ hs => by simp [ownTexts] at hs) rfl

end Value

/-! ## Numbers -/

/-- The reserved word has a character that no number has. -/
theorem Slots.clean_of_not_mem {cs : List Char} (h : '_' ∉ cs) : Slots.Clean cs :=
  fun hm => h (hm.subset (by decide))

/-- Both parts of a decimal are of digits. -/
theorem Decimal.isDigit_of_mem_parts {d : Decimal} {c : Char}
    (h : c ∈ d.parts.1 ∨ c ∈ d.parts.2) : c.isDigit = true := by
  have hdigit {c : Char} (hc : c ∈ Nat.toDigits 10 d.coefficient) : c.isDigit = true :=
    Nat.isDigit_of_mem_toDigits (by decide) (by decide) hc
  have hzero {c : Char} {n : Nat} (hc : c ∈ List.replicate n '0') : c.isDigit = true := by
    rw [(List.mem_replicate.1 hc).2]
    rfl
  simp only [parts, List.splitAt_eq] at h
  split at h
  · rcases h with h | h
    · exact (List.mem_append.1 h).elim (fun hc => hdigit (List.mem_of_mem_take hc)) hzero
    · exact hdigit (List.mem_of_mem_drop h)
  · rcases h with h | h
    · rw [List.mem_singleton.1 h]
      rfl
    · exact (List.mem_append.1 h).elim hzero hdigit

/-- No number is shown with an underscore, which every token has. -/
theorem NumberStyle.not_mem_magnitude (m : Magnitude) :
    '_' ∉ (display.magnitude m).toList := by
  intro h
  have hno {cs : List Char} (hcs : ∀ c ∈ cs, c.isDigit = true) : '_' ∉ cs :=
    fun hc => absurd (hcs _ hc) (by decide)
  have hwhole := hno fun c hc => (m.shortest display.tie).isDigit_of_mem_parts (.inl hc)
  have hfraction := hno fun c hc => (m.shortest display.tie).isDigit_of_mem_parts (.inr hc)
  rw [magnitude, String.toList_append, String.toList_ofList, List.mem_append] at h
  rcases h with h | h
  · exact hwhole h
  · split at h
    · simp [display] at h
    · simp only [String.toList_ofList, List.mem_cons] at h
      exact h.elim (by decide) hfraction

/-- The reserved word is not in the text of a number. -/
theorem NumberStyle.clean_display (x : Float) : Slots.Clean (display.text x).toList := by
  refine Slots.clean_of_not_mem fun h => ?_
  simp only [text] at h
  split at h
  · exact absurd h (by decide)
  · split at h
    · split at h <;> exact absurd h (by decide)
    · rw [String.toList_append, List.mem_append] at h
      rcases h with h | h
      · split at h <;> exact absurd h (by decide)
      · exact not_mem_magnitude _ h

namespace Value

/-! ## Normalized values -/

/-- A node of a text is clean if the text is. -/
theorem clean_text {s : String} (h : Slots.Clean s.toList) : (node (Node.text s)).Clean := by
  refine .leaf (fun t ht => ?_) rfl
  simp only [ownTexts, Node.text, Node.make, Option.toList_some, Option.getD_none, List.map_nil,
    List.nil_append, Option.toList_none, List.cons_append, List.mem_cons, List.not_mem_nil,
    or_false] at ht
  rcases ht with rfl | rfl
  · exact Slots.clean_of_length_lt (by decide)
  · exact h

/-- A group is clean if all values in it are. -/
theorem clean_fragment {vs : List Value} (h : ∀ v ∈ vs, v.Clean) :
    (node (Node.fragment vs)).Clean := by
  refine .node (fun t ht => ?_) (fun k hk => ?_) (fun d hd => ?_) (fun items hitems => ?_)
  · obtain rfl : t = fragmentTag := by simpa [ownTexts, Node.fragment, Node.make] using ht
    exact Slots.clean_of_length_lt (by decide)
  · cases hk
  · cases hd
  · cases hitems
    exact h

/-- A clean value is clean in the form in which it stands in the place of a node. -/
theorem Clean.normalize {v : Value} (h : v.Clean) : v.normalize.Clean := by
  induction h with
  | intro here hinside ih =>
    rename_i v
    have hv : v.Clean := ⟨here, hinside⟩
    have hnull : null.Clean := .leaf (fun _ hs => by simp [ownTexts] at hs) rfl
    cases v with
    | undefined | null | bool => exact hnull
    | str s => exact clean_text hv.str
    | number x => exact clean_text (NumberStyle.clean_display x)
    | list items =>
      rw [Value.normalize, normalizeAll_eq_map]
      refine clean_fragment fun w hw => ?_
      obtain ⟨u, hu, rfl⟩ := List.mem_map.1 hw
      exact ih u hu
    | dict | handler | node | foreign => exact hv

end Value

end SlotMarkup
