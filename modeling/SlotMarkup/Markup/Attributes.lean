import SlotMarkup.Markup.Tree
import SlotMarkup.Value.Basic

/-!
# Attributes of a tag

A tag's attributes, as they are written, become one dictionary
(`Attribute.toDict?`). Of an attribute that is written more than once the last
value holds, in the place of the first. Classes add up instead: all of them are
joined under the name `classKey`.

* `unquote_quoted`, `unquote_eq_self`: a pair of quotes is taken off, and nothing else;
* `distinct` keeps of every string its first occurrence: `mem_distinct`,
  `nodup_distinct`.
-/

namespace SlotMarkup

/-- The name under which the classes of a tag are joined. -/
def classKey : String := "className"

/-- A raw value without the single quotes around it. Only a pair is taken off. -/
def unquote (raw : String) : String :=
  match raw.toList with
  | '\'' :: cs => if cs.getLast? = some '\'' then String.ofList cs.dropLast else raw
  | _ => raw

/-- Quotes around a name come off again. -/
theorem unquote_quoted (x : String) : unquote ("'" ++ x ++ "'") = x := by
  have htoList : ("'" ++ x ++ "'").toList = '\'' :: (x.toList ++ ['\'']) := by
    simp [String.toList_append]
  rw [unquote, htoList]
  simp

/-- A value that is not in a pair of single quotes stays as it is. -/
theorem unquote_eq_self {raw : String} (h : ∀ x, raw ≠ "'" ++ x ++ "'") : unquote raw = raw := by
  rw [unquote]
  split
  · rename_i cs hcs
    split
    · rename_i hlast
      obtain ⟨ds, rfl⟩ := List.getLast?_eq_some_iff.1 hlast
      refine absurd ?_ (h (String.ofList ds))
      rw [← String.toList_inj, hcs]
      simp
    · rfl
  · rfl

/-- The value of an attribute: its raw value unquoted, or true if it is only named. -/
def AttrValue.toValue : AttrValue → Value
  | bare => .bool true
  | raw text => .str (unquote text)

/-- The value of an attribute that names classes. -/
def AttrValue.toClass : AttrValue → String
  | bare => "true"
  | raw text => unquote text

/-- The strings of a list without repetition, in the order of their first
    occurrences. -/
def distinct : List String → List String
  | [] => []
  | s :: ss => s :: (distinct ss).filter (· != s)

/-- Only repetitions are dropped. -/
theorem mem_distinct {s : String} {ss : List String} : s ∈ distinct ss ↔ s ∈ ss := by
  induction ss with
  | nil => simp [distinct]
  | cons t ss ih => by_cases h : s = t <;> simp [distinct, h, ih]

/-- All repetitions are dropped. -/
theorem nodup_distinct (ss : List String) : (distinct ss).Nodup := by
  induction ss with
  | nil => simp [distinct]
  | cons t ss ih =>
    rw [distinct, List.nodup_cons]
    exact ⟨by simp, List.Pairwise.filter _ ih⟩

namespace Attribute

/-- Whether an attribute names classes. -/
def isClass (a : Attribute) : Bool := a.name == "class"

/-- The classes that the attributes of a tag name, each once. -/
def classes (attrs : List Attribute) : List String :=
  distinct ((attrs.filter isClass).map fun a => a.value.toClass)

/-- The attributes that do not name classes. -/
def others (attrs : List Attribute) : Dict Value :=
  Dict.ofList ((attrs.filter fun a => !a.isClass).map fun a => (a.name, a.value.toValue))

/-- The dictionary of the attributes of a tag. A tag without any has no dictionary. -/
def toDict? (attrs : List Attribute) : Option (Dict Value) :=
  if attrs.isEmpty then none
  else match classes attrs with
    | [] => some (others attrs)
    | cs => some ((others attrs).insert classKey (.str (" ".intercalate cs)))

end Attribute

end SlotMarkup
