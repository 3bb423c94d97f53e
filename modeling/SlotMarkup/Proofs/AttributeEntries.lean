import Mathlib.Data.List.Basic
import Mathlib.Data.List.Induction
import Mathlib.Tactic.ByContra
import SlotMarkup.Proofs.DictEntries
import SlotMarkup.Markup.Attributes

/-!
# The entries of a tag's attributes

The dictionary of a tag is made from a list of entries: the attributes that do not name classes,
and the joined classes behind them (`toDict?_eq`). What is true of any dictionary that is made
from a list is therefore true of it: a name stands where it occurs first (`names_ofList`), with
the value of its last entry (`get?_ofList`).

So the joined classes come last only if their name is new. Where an attribute of that name is
written, they take its place, and all names that come after it stay behind them.

* `toDict?_entries`: what the entries are, and when the classes are the last one.
-/

namespace SlotMarkup

/-! ## First occurrences -/

/-- A further name counts only if it is a new one. -/
theorem distinct_concat (ss : List String) (s : String) :
    distinct (ss ++ [s]) = if s ∈ ss then distinct ss else distinct ss ++ [s] := by
  induction ss with
  | nil => rfl
  | cons t ss ih =>
    rw [List.cons_append, distinct, ih]
    by_cases hs : s ∈ ss
    · rw [if_pos hs, if_pos (List.mem_cons_of_mem t hs), distinct]
    · rw [if_neg hs, List.filter_append]
      by_cases hst : s = t
      · simp [hst, distinct]
      · simp [hs, hst, distinct]

/-- Of what comes later only new strings are added. -/
theorem distinct_append (ss ts : List String) :
    distinct (ss ++ ts) = distinct ss ++ (distinct ts).filter (· ∉ ss) := by
  induction ts using List.reverseRecOn with
  | nil => simp [distinct]
  | append_singleton ts t ih =>
    rw [← List.append_assoc, distinct_concat, distinct_concat, ih]
    by_cases hs : t ∈ ss <;> by_cases ht : t ∈ ts <;> simp [hs, ht]

theorem filter_distinct (p : String → Bool) (ss : List String) :
    (distinct ss).filter p = distinct (ss.filter p) := by
  induction ss using List.reverseRecOn with
  | nil => rfl
  | append_singleton ss s ih =>
    rw [distinct_concat, List.filter_append]
    cases hp : p s with
    | false =>
      have hnone : [s].filter p = [] := by simp [hp]
      rw [hnone, List.append_nil, ← ih]
      split
      · rfl
      · rw [List.filter_append, hnone, List.append_nil]
    | true =>
      have hone : [s].filter p = [s] := by simp [hp]
      rw [hone, distinct_concat, ← ih]
      by_cases hs : s ∈ ss
      · rw [if_pos hs, if_pos (List.mem_filter.2 ⟨hs, hp⟩)]
      · rw [if_neg hs, if_neg fun h => hs (List.mem_filter.1 h).1, List.filter_append, hone]

/-- A string is the last one to occur first if nothing new comes after it. -/
theorem getLast?_distinct {ss : List String} {s : String} (hs : s ∈ ss) :
    (distinct ss).getLast? = some s ↔
      ∀ before after, ss = before ++ s :: after → after ⊆ s :: before := by
  have hsplit (before after : List String) : distinct (before ++ s :: after) =
      distinct (before ++ [s]) ++ (distinct after).filter (· ∉ before ++ [s]) := by
    rw [List.append_cons, distinct_append]
  -- What comes after an occurrence and is new is not `s`.
  have hnew {before after : List String} {t : String}
      (ht : t ∈ (distinct after).filter (· ∉ before ++ [s])) : t ≠ s := by
    rintro rfl
    simp at ht
  constructor
  · rintro hlast before after rfl t ht
    by_contra hmem
    have hne : (distinct after).filter (· ∉ before ++ [s]) ≠ [] := by
      refine List.ne_nil_of_mem (List.mem_filter.2 ⟨mem_distinct.2 ht, ?_⟩)
      simpa [and_comm] using hmem
    rw [hsplit, List.getLast?_append_of_ne_nil _ hne] at hlast
    exact hnew (List.mem_of_getLast? hlast) rfl
  · intro h
    obtain ⟨before, after, rfl, hfirst⟩ := List.eq_append_cons_of_mem hs
    have hnil : (distinct after).filter (· ∉ before ++ [s]) = [] := by
      refine List.filter_eq_nil_iff.2 fun t ht => ?_
      have hmem := List.mem_cons.1 (h before after rfl (mem_distinct.1 ht))
      simpa using hmem.resolve_right
    rw [hsplit, hnil, List.append_nil, distinct_concat, if_neg hfirst, List.getLast?_concat]

/-! ## Dictionaries of lists -/

namespace Dict

variable {α : Type}

/-- A further entry is inserted last. -/
theorem ofList_concat (entries : List (String × α)) (e : String × α) :
    ofList (entries ++ [e]) = (ofList entries).insert e.1 e.2 := by
  rw [ofList, insertAll, List.foldl_append]
  rfl

/-- A name stands where it occurs first. -/
theorem names_ofList (entries : List (String × α)) :
    (ofList entries).names = distinct (entries.map (·.1)) := by
  induction entries using List.reverseRecOn with
  | nil => rfl
  | append_singleton entries e ih =>
    rw [ofList_concat, names_insert, ih, List.map_append, List.map_singleton, distinct_concat]
    simp only [mem_distinct]

/-- A name has the value of its last entry. -/
theorem get?_ofList (entries : List (String × α)) (name : String) :
    (ofList entries).get? name = ((entries.filter (·.1 = name)).getLast?).map (·.2) := by
  induction entries using List.reverseRecOn with
  | nil => rfl
  | append_singleton entries e ih =>
    rw [ofList_concat, get?_insert, ih, List.filter_append]
    by_cases he : e.1 = name
    · simp [he]
    · simp [he]

end Dict

/-! ## Attributes -/

namespace Attribute

/-- The entry of the joined classes, if there is a class. -/
def classEntry (attrs : List Attribute) : List (String × Value) :=
  if classes attrs = [] then [] else [(classKey, .str (" ".intercalate (classes attrs)))]

/-- The entries that the dictionary of a tag is made from. -/
def entries (attrs : List Attribute) : List (String × Value) :=
  ((attrs.filter fun a => !a.isClass).map fun a => (a.name, a.value.toValue)) ++ classEntry attrs

/-- The names that are written in a tag, but for those of classes. -/
def otherNames (attrs : List Attribute) : List String :=
  (attrs.map (·.name)).filter (· != "class")

variable {attrs : List Attribute}

theorem toDict?_eq (h : attrs ≠ []) : toDict? attrs = some (Dict.ofList (entries attrs)) := by
  rw [toDict?, if_neg (by simpa using h), entries, classEntry]
  split
  · rename_i hnone
    rw [if_pos hnone, List.append_nil, others]
  · rename_i hsome
    rw [if_neg hsome, Dict.ofList_concat, others]

/-- There are no classes if no attribute is named as one. -/
theorem classes_eq_nil_iff : classes attrs = [] ↔ ∀ a ∈ attrs, a.name ≠ "class" := by
  rw [List.eq_nil_iff_forall_not_mem]
  simp only [classes, mem_distinct, List.mem_map, List.mem_filter, isClass, beq_iff_eq]
  exact ⟨fun h a ha hname => h _ ⟨a, ⟨ha, hname⟩, rfl⟩, fun h c ⟨a, ⟨ha, hname⟩, _⟩ => h a ha hname⟩

theorem map_fst_entries : (entries attrs).map (·.1) =
    otherNames attrs ++ if classes attrs = [] then [] else [classKey] := by
  rw [entries, List.map_append, List.map_map, otherNames, List.filter_map, classEntry]
  congr 1
  split <;> rfl

/-- The names are those of the attributes, each once and in order, then that of the classes. -/
theorem names_entries : (Dict.ofList (entries attrs)).names =
    distinct (otherNames attrs ++ if classes attrs = [] then [] else [classKey]) := by
  rw [Dict.names_ofList, map_fst_entries]

/-- The entries of a name other than that of the joined classes. -/
theorem filter_entries {name : String} (hname : name ≠ "class") (hkey : name ≠ classKey) :
    (entries attrs).filter (·.1 = name) =
      (attrs.filter (·.name = name)).map fun a => (a.name, a.value.toValue) := by
  have hclass : (classEntry attrs).filter (·.1 = name) = [] := by
    rw [classEntry]
    split
    · rfl
    · simp [Ne.symm hkey]
  have hother (a : Attribute) :
      (decide (a.name = name) && !a.isClass) = decide (a.name = name) := by
    by_cases ha : a.name = name
    · simp [ha, isClass, hname]
    · simp [ha]
  rw [entries, List.filter_append, hclass, List.append_nil, List.filter_map, List.filter_filter]
  refine congrArg _ (List.filter_congr fun a _ => ?_)
  exact hother a

section Classes

variable (hsome : classes attrs ≠ [])
include hsome

theorem get?_classKey : (Dict.ofList (entries attrs)).get? classKey =
    some (.str (" ".intercalate (classes attrs))) := by
  rw [Dict.get?_ofList, entries, classEntry, if_neg hsome, List.filter_append]
  simp

/-- The joined classes are the last entry unless an attribute of their name was there before, and
    something new behind it. -/
theorem getLast?_names_iff : (Dict.ofList (entries attrs)).names.getLast? = some classKey ↔
    ∀ before after, otherNames attrs = before ++ classKey :: after →
      after ⊆ classKey :: before := by
  rw [names_entries, if_neg hsome, distinct_concat]
  by_cases hkey : classKey ∈ otherNames attrs
  · rw [if_pos hkey]
    exact getLast?_distinct hkey
  · rw [if_neg hkey, List.getLast?_concat]
    refine iff_of_true rfl fun before after h => ?_
    exact absurd (h ▸ List.mem_append_right before List.mem_cons_self) hkey

end Classes

/-- The dictionary of a tag. There is none just if there are no attributes. Else no name occurs
    twice, and none is `class`; every other name than the one of the joined classes occurs if an
    attribute has it, with the value of the last of them, and such names stand in the order in
    which they occur first. The classes are joined in this order too. They are the last entry if
    and only if no new name is written behind an attribute that has the name of the joined classes
    itself. -/
theorem toDict?_entries (attrs : List Attribute) :
    (toDict? attrs = none ↔ attrs = []) ∧
    (∀ text, unquote ("'" ++ text ++ "'") = text) ∧
    (∀ raw, (∀ text, raw ≠ "'" ++ text ++ "'") → unquote raw = raw) ∧
    ∀ d, toDict? attrs = some d →
      d.names.Nodup ∧ "class" ∉ d.names ∧
      (∀ name, name ≠ "class" → name ≠ classKey →
        (name ∈ d.names ↔ ∃ a ∈ attrs, a.name = name) ∧
        d.get? name = ((attrs.filter (·.name = name)).getLast?).map fun a => a.value.toValue) ∧
      d.names.filter (· != classKey) = distinct ((otherNames attrs).filter (· != classKey)) ∧
      ((∃ a ∈ attrs, a.name = "class") →
        d.get? classKey = some (.str (" ".intercalate
          (distinct ((attrs.filter (·.name = "class")).map fun a => a.value.toClass)))) ∧
        (d.names.getLast? = some classKey ↔
          ∀ before after, otherNames attrs = before ++ classKey :: after →
            after ⊆ classKey :: before)) := by
  refine ⟨⟨fun h => ?_, fun h => by rw [h]; rfl⟩, unquote_quoted, fun raw => unquote_eq_self,
    fun d hd => ?_⟩
  · by_contra hne
    rw [toDict?_eq hne] at h
    cases h
  have hne : attrs ≠ [] := by
    rintro rfl
    cases hd
  rw [toDict?_eq hne] at hd
  obtain rfl := Option.some.inj hd
  have hclassKey : classKey ≠ "class" := by decide
  refine ⟨Dict.nodup_names_ofList _, ?_, fun name hname hkey => ⟨?_, ?_⟩, ?_, fun hclass => ?_⟩
  · rw [names_entries, mem_distinct, List.mem_append, not_or]
    refine ⟨by simp [otherNames], ?_⟩
    split
    · simp
    · simpa using Ne.symm hclassKey
  · rw [names_entries, mem_distinct, List.mem_append]
    have hno : name ∉ if classes attrs = [] then [] else [classKey] := by
      split
      · simp
      · simpa using hkey
    simp [hno, otherNames, hname]
  · rw [Dict.get?_ofList, filter_entries hname hkey, List.getLast?_map, Option.map_map]
    rfl
  · rw [names_entries, filter_distinct, List.filter_append]
    congr 1
    split
    · simp
    · simp
  · have hsome : classes attrs ≠ [] := by
      rw [Ne, classes_eq_nil_iff]
      obtain ⟨a, ha, hname⟩ := hclass
      exact fun h => h a ha hname
    have hfilter : attrs.filter (·.name = "class") = attrs.filter isClass :=
      List.filter_congr fun a _ => by rw [isClass, beq_eq_decide]
    rw [hfilter]
    exact ⟨get?_classKey hsome, getLast?_names_iff hsome⟩

/-- No new name comes after the `className` of
    `a(class='b' id className='q' class=c class='b' id='x')`. -/
theorem toDict?_entries_repeated :
    let attrs : List Attribute :=
      [⟨"class", .raw "'b'", .nowhere⟩, ⟨"id", .bare, .nowhere⟩, ⟨classKey, .raw "'q'", .nowhere⟩,
        ⟨"class", .raw "c", .nowhere⟩, ⟨"class", .raw "'b'", .nowhere⟩,
        ⟨"id", .raw "'x'", .nowhere⟩]
    ∃ d, toDict? attrs = some d ∧ d.names.Nodup ∧ d.get? "id" = some (.str "x") ∧
      d.get? classKey = some (.str "b c") ∧ d.names.getLast? = some classKey := by
  intro attrs
  have hother : otherNames attrs = ["id", classKey, "id"] := by decide
  have hclasses : distinct ((attrs.filter (·.name = "class")).map fun a => a.value.toClass) =
      ["b", "c"] := by decide
  have hd : toDict? attrs = some (Dict.ofList (entries attrs)) := toDict?_eq (List.cons_ne_nil _ _)
  obtain ⟨hnodup, -, hget, -, hclass⟩ := (toDict?_entries attrs).2.2.2 _ hd
  obtain ⟨hkey, hlast⟩ := hclass ⟨_, List.mem_cons_self, rfl⟩
  rw [hclasses] at hkey
  rw [hother] at hlast
  refine ⟨_, hd, hnodup, (hget "id" (by decide) (by decide)).2, hkey, hlast.2 ?_⟩
  intro before after h
  obtain ⟨rfl, rfl⟩ : before = ["id"] ∧ after = ["id"] := by
    simpa [List.cons_eq_append_iff, classKey] using h
  simp

/-- `a(className='q' id='x' class='a')`: the classes take the place of the `className` before. -/
theorem classKey_not_last :
    let attrs : List Attribute :=
      [⟨classKey, .raw "'q'", .nowhere⟩, ⟨"id", .raw "'x'", .nowhere⟩,
        ⟨"class", .raw "'a'", .nowhere⟩]
    (∃ a ∈ attrs, a.name = "class") ∧ ∃ d, toDict? attrs = some d ∧
      d.names = [classKey, "id"] ∧ d.names.getLast? ≠ some classKey := by
  intro attrs
  have hd : toDict? attrs = some (Dict.ofList (entries attrs)) := toDict?_eq (List.cons_ne_nil _ _)
  have hnames : (Dict.ofList (entries attrs)).names = [classKey, "id"] := by decide
  refine ⟨⟨_, List.mem_of_getElem? (i := 2) rfl, rfl⟩, _, hd, hnames, ?_⟩
  rw [hnames]
  decide

end Attribute

end SlotMarkup
