/-!
# Dictionaries

A `Dict` maps names to values and keeps the order in which the names were first
inserted. Inserting a name again replaces its value and keeps its position.

* `get?_insert`: insertion is seen by look-up, and at no other name;
* `names_insert`: a new name comes last, a known one changes no position;
* `nodup_names_insert`: no name comes to occur twice.
-/

namespace SlotMarkup

/-- Names with their values, in the order of insertion. -/
abbrev Dict (α : Type) := List (String × α)

namespace Dict

variable {α : Type}

/-- The names in order. -/
def names (d : Dict α) : List String := d.map (·.1)

/-- The value of a name. -/
def get? (d : Dict α) (name : String) : Option α :=
  match d with
  | [] => none
  | e :: d => if e.1 = name then some e.2 else get? d name

/-- Gives a name its value: at the name's position if it has one, else last. -/
def insert (d : Dict α) (name : String) (value : α) : Dict α :=
  match d with
  | [] => [(name, value)]
  | e :: d => if e.1 = name then (name, value) :: d else e :: insert d name value

/-- Inserts the entries of a list one after the other. -/
def insertAll (d : Dict α) (entries : List (String × α)) : Dict α :=
  entries.foldl (fun d e => insert d e.1 e.2) d

/-- The dictionary of a list of entries, of which a later one wins. -/
def ofList (entries : List (String × α)) : Dict α := insertAll [] entries

/-- An inserted value is found by its name, and no other entry changes. -/
theorem get?_insert (d : Dict α) (name other : String) (value : α) :
    get? (insert d name value) other = if name = other then some value else get? d other := by
  induction d with
  | nil => simp [insert, get?]
  | cons e d ih =>
    by_cases h : e.1 = name
    · by_cases ho : name = other <;> simp [insert, get?, h, ho]
    · by_cases he : e.1 = other
      · have ho : name ≠ other := fun ho => h (he.trans ho.symm)
        simp [insert, get?, he, ho, Ne.symm ho]
      · simp [insert, get?, h, he, ih]

/-- A new name comes last, and one that is there keeps its place. -/
theorem names_insert (d : Dict α) (name : String) (value : α) :
    names (insert d name value) = if name ∈ names d then names d else names d ++ [name] := by
  induction d with
  | nil => simp [insert, names]
  | cons e d ih =>
    by_cases h : e.1 = name
    · simp [insert, names, h]
    · rw [insert, if_neg h, names, List.map_cons, ← names, ih]
      by_cases hm : name ∈ names d
      · simp_all [names]
      · have hc : name ∉ names (e :: d) := by simp_all [names, Ne.symm h]
        rw [if_neg hm, if_neg hc, names, names, List.map_cons, List.cons_append]

/-- Inserting never makes a second entry of a name. -/
theorem nodup_names_insert {d : Dict α} (h : (names d).Nodup) (name : String) (value : α) :
    (names (insert d name value)).Nodup := by
  rw [names_insert]
  split
  · exact h
  · rename_i hm
    exact List.nodup_append.2 ⟨h, by simp, fun a ha b hb => by
      rw [List.mem_singleton.1 hb]
      exact fun hab => hm (hab ▸ ha)⟩

end Dict

end SlotMarkup
