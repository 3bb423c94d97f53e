import SlotMarkup.Dict

/-!
# The entries of a dictionary

A dictionary that is made from a list of entries has no other entries than those
of the list (`mem_ofList`), and all of them if no name occurs twice
(`ofList_of_nodup`). Of a name that occurs more than once the last value is found
(`get?_ofList_append`). Giving all names other values goes along with insertion, and so does
giving them other names, if different names stay different (`mapEntries_ofList`).
-/

namespace SlotMarkup.Dict

variable {α β : Type}

/-- An entry of a new name comes last. -/
theorem insert_of_not_mem {d : Dict α} {name : String} {value : α}
    (h : name ∉ d.names) : d.insert name value = d ++ [(name, value)] := by
  induction d with
  | nil => rfl
  | cons e d ih =>
    rw [names, List.map_cons, List.mem_cons, not_or] at h
    rw [insert, if_neg (Ne.symm h.1), ih h.2, List.cons_append]

/-- Entries of new names are put behind those that are there. -/
theorem insertAll_of_nodup {d entries : Dict α} (h : (names (d ++ entries)).Nodup) :
    d.insertAll entries = d ++ entries := by
  induction entries generalizing d with
  | nil => exact (List.append_nil d).symm
  | cons e entries ih =>
    obtain ⟨name, value⟩ := e
    have hname : name ∉ names d := by
      rw [names, List.map_append, List.map_cons] at h
      exact fun hm => (List.nodup_append.1 h).2.2 _ hm _ List.mem_cons_self rfl
    rw [List.append_cons] at h ⊢
    rw [← ih h, ← insert_of_not_mem hname]
    rfl

/-- Entries with different names are a dictionary as they are. -/
theorem ofList_of_nodup {entries : Dict α} (h : (names entries).Nodup) :
    ofList entries = entries := insertAll_of_nodup (d := []) h

/-- A dictionary with other names and values in the same order. -/
def mapEntries (f : String → String) (h : α → β) (d : Dict α) : Dict β :=
  d.map fun e => (f e.1, h e.2)

/-- A dictionary with other values under the same names. -/
def mapValues (h : α → β) (d : Dict α) : Dict β := d.map fun e => (e.1, h e.2)

@[simp] theorem names_mapValues (h : α → β) (d : Dict α) : (d.mapValues h).names = d.names := by
  rw [names, mapValues, List.map_map]
  rfl

@[simp] theorem mapValues_id (d : Dict α) : d.mapValues id = d := List.map_id d

section Injective

variable {f : String → String} (hf : ∀ {a b}, f a = f b → a = b) (h : α → β)

include hf

/-- Under its new name stands the new value, if no two names become one. -/
theorem get?_mapEntries (d : Dict α) (name : String) :
    (d.mapEntries f h).get? (f name) = (d.get? name).map h := by
  induction d with
  | nil => rfl
  | cons e d ih =>
    have hiff : f e.1 = f name ↔ e.1 = name := ⟨hf, congrArg f⟩
    rw [mapEntries, List.map_cons, get?, get?]
    simp only [hiff]
    split
    · rfl
    · exact ih

/-- Different names stay different, so that a known one is found where it was. -/
theorem mapEntries_insert (d : Dict α) (name : String) (v : α) :
    (d.insert name v).mapEntries f h = (d.mapEntries f h).insert (f name) (h v) := by
  induction d with
  | nil => rfl
  | cons e d ih =>
    have hiff : f e.1 = f name ↔ e.1 = name := ⟨hf, congrArg f⟩
    have hcons : (mapEntries f h (e :: d)).insert (f name) (h v) =
        if f e.1 = f name then (f name, h v) :: mapEntries f h d
        else (f e.1, h e.2) :: (mapEntries f h d).insert (f name) (h v) := rfl
    rw [hcons, insert]
    simp only [hiff]
    split
    · rfl
    · exact congrArg _ ih

/-- Entries can be renamed before they are inserted, or with the others. -/
theorem mapEntries_insertAll (d entries : Dict α) : (d.insertAll entries).mapEntries f h =
    (d.mapEntries f h).insertAll (entries.mapEntries f h) := by
  induction entries generalizing d with
  | nil => rfl
  | cons e entries ih =>
    exact (ih (d.insert e.1 e.2)).trans (by rw [mapEntries_insert hf]; rfl)

/-- Renaming the entries of a list renames those of its dictionary. -/
theorem mapEntries_ofList (entries : Dict α) :
    (ofList entries).mapEntries f h = ofList (entries.mapEntries f h) :=
  mapEntries_insertAll hf h [] entries

end Injective

theorem get?_mapValues (h : α → β) (d : Dict α) (name : String) :
    (d.mapValues h).get? name = (d.get? name).map h := get?_mapEntries (f := id) id h d name

theorem mapValues_insert (h : α → β) (d : Dict α) (name : String) (v : α) :
    (d.insert name v).mapValues h = (d.mapValues h).insert name (h v) :=
  mapEntries_insert (f := id) id h d name v

theorem mapValues_ofList (h : α → β) (entries : Dict α) :
    (ofList entries).mapValues h = ofList (entries.mapValues h) :=
  mapEntries_ofList (f := id) id h entries

/-- In a dictionary made of a list no name stands twice. -/
theorem nodup_names_ofList (entries : Dict α) : (ofList entries).names.Nodup := by
  have hall : ∀ d : Dict α, d.names.Nodup → (d.insertAll entries).names.Nodup := by
    induction entries with
    | nil => exact fun d hd => hd
    | cons e entries ih => exact fun d hd => ih _ (nodup_names_insert hd e.1 e.2)
  exact hall [] List.nodup_nil

/-- What is found stands among the entries. -/
theorem mem_of_get? {d : Dict α} {name : String} {v : α} (h : d.get? name = some v) :
    (name, v) ∈ d := by
  induction d with
  | nil => simp [get?] at h
  | cons e d ih =>
    rw [get?] at h
    split at h
    · rename_i hname
      obtain rfl := Option.some.inj h
      exact hname ▸ List.mem_cons_self
    · exact List.mem_cons_of_mem _ (ih h)

/-- After inserting there is nothing but the old entries and the new one. -/
theorem mem_insert {d : Dict α} {name : String} {v : α} {e : String × α}
    (h : e ∈ d.insert name v) : e ∈ d ∨ e = (name, v) := by
  induction d with
  | nil => exact .inr (List.mem_singleton.1 h)
  | cons e' d ih =>
    rw [insert] at h
    split at h
    · rcases List.mem_cons.1 h with h | h
      · exact .inr h
      · exact .inl (List.mem_cons_of_mem _ h)
    · rcases List.mem_cons.1 h with h | h
      · exact .inl (h ▸ List.mem_cons_self)
      · exact (ih h).imp_left (List.mem_cons_of_mem _)

/-- Making a dictionary of a list adds no entries of its own. -/
theorem mem_ofList {entries : Dict α} {e : String × α} (h : e ∈ ofList entries) : e ∈ entries := by
  have hall : ∀ d : Dict α, e ∈ d.insertAll entries → e ∈ d ∨ e ∈ entries := by
    clear h
    induction entries with
    | nil => exact fun d hd => .inl hd
    | cons e' entries ih =>
      intro d hd
      rcases ih (d.insert e'.1 e'.2) hd with hd | hd
      · rcases mem_insert hd with hd | rfl
        · exact .inl hd
        · exact .inr List.mem_cons_self
      · exact .inr (List.mem_cons_of_mem _ hd)
  exact (hall [] h).resolve_left List.not_mem_nil

/-- An inserted entry, with what stands behind it: nothing if its name is new. -/
theorem insert_split (d : Dict α) (name : String) (v : α) :
    ∃ before after, d.insert name v = before ++ (name, v) :: after ∧
      (name ∉ d.names → after = []) ∧ ∀ e ∈ after, e ∈ d := by
  induction d with
  | nil => exact ⟨[], [], rfl, fun _ => rfl, fun e he => he⟩
  | cons e d ih =>
    rw [insert]
    split
    · rename_i hname
      exact ⟨[], d, rfl, fun h => absurd (hname ▸ List.mem_cons_self) h,
        fun e he => List.mem_cons_of_mem _ he⟩
    · obtain ⟨before, after, heq, hnew, hmem⟩ := ih
      refine ⟨e :: before, after, by rw [heq, List.cons_append], fun h => hnew fun hd => ?_,
        fun e he => List.mem_cons_of_mem _ (hmem e he)⟩
      exact h (List.mem_cons_of_mem _ hd)

/-- Entries of other names do not change what stands under a name. -/
theorem get?_insertAll_of_not_mem {d entries : Dict α} {name : String}
    (h : ∀ e ∈ entries, e.1 ≠ name) : (d.insertAll entries).get? name = d.get? name := by
  induction entries generalizing d with
  | nil => rfl
  | cons e entries ih =>
    have hmore := ih (d := d.insert e.1 e.2) fun x hx => h x (List.mem_cons_of_mem _ hx)
    rw [get?_insert, if_neg (h e List.mem_cons_self)] at hmore
    exact hmore

/-- Of the entries with one name the last one holds. -/
theorem get?_ofList_append {before after : Dict α} {name : String} (v : α)
    (h : ∀ e ∈ after, e.1 ≠ name) :
    (ofList (before ++ (name, v) :: after)).get? name = some v := by
  have hsplit : ofList (before ++ (name, v) :: after) =
      ((ofList before).insert name v).insertAll after := by
    rw [ofList, insertAll, List.foldl_append, List.foldl_cons]
    rfl
  rw [hsplit, get?_insertAll_of_not_mem h, get?_insert, if_pos rfl]

end SlotMarkup.Dict
