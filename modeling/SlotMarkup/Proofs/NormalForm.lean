import SlotMarkup.Value.Normal

/-!
# The normal form of a value

A value in the place of a node is brought into a form that can stand there
(`Value.IsNormal`). Lists become groups nested as they are, so what stands for an item is found at
the same path (`itemAt?`, `childAt?`). A node that was supplied is left alone, whatever is in it.

* `normalize_standsFor`: every item has what stands for it at its own path, there is nothing else
  in the groups that come of lists, and a second time nothing changes.
-/

namespace SlotMarkup.Value

/-- What can stand in the place of a node as it is: nothing, a node, or what travels through a
    template unchanged. -/
def IsNormal : Value → Prop
  | null | dict _ | handler _ | node _ | foreign _ => True
  | undefined | bool _ | number _ | str _ | list _ => False

/-- What stands for a value in the place of a node. A group has as many children as the list it
    stands for. -/
inductive StandsFor : Value → Value → Prop
  | nothing {v} (h : v.isNothing = true) : StandsFor null v
  | bool (b : Bool) : StandsFor null (bool b)
  | text {v s} (h : v.text? = some s) : StandsFor (node (Node.text s)) v
  | group {vs us : List Value} (h : us.length = vs.length) :
      StandsFor (node (Node.fragment us)) (list vs)
  | itself {v} (h : v.IsNormal) : StandsFor v v

/-! ## Paths -/

/-- The value at a path into nested lists, each step the position of an item. -/
def itemAt? (v : Value) : List Nat → Option Value
  | [] => some v
  | i :: path =>
    match v with
    | list items => items[i]?.bind (itemAt? · path)
    | _ => none

/-- The value at a path into nested groups, each step the position of a child. -/
def childAt? (v : Value) : List Nat → Option Value
  | [] => some v
  | i :: path =>
    match v with
    | node n => if n.isFragment then (n.childList?.getD [])[i]?.bind (childAt? · path) else none
    | _ => none

section Paths

variable {i : Nat} {path : List Nat}

theorem itemAt?_list (vs : List Value) :
    (list vs).itemAt? (i :: path) = vs[i]?.bind (itemAt? · path) := rfl

theorem itemAt?_cons_eq_some {v w : Value} (h : v.itemAt? (i :: path) = some w) :
    ∃ vs x, v = list vs ∧ vs[i]? = some x ∧ x.itemAt? path = some w := by
  cases v with
  | list vs =>
    obtain ⟨x, hx, hw⟩ := Option.bind_eq_some_iff.1 h
    exact ⟨vs, x, rfl, hx, hw⟩
  | _ => simp [itemAt?] at h

/-- In the group that comes of a list, the children are those of the items. -/
theorem childAt?_normalize_list (vs : List Value) :
    (list vs).normalize.childAt? (i :: path) = vs[i]?.bind fun x => x.normalize.childAt? path := by
  rw [normalize, normalizeAll_eq_map]
  change ((vs.map normalize)[i]?).bind (childAt? · path) = _
  rw [List.getElem?_map, Option.bind_map]
  rfl

end Paths

/-! ## Normalizing -/

/-- A normalized value is normal. -/
theorem isNormal_normalize (v : Value) : v.normalize.IsNormal := by
  cases v <;> exact trivial

/-- A normal value stays as it is. -/
theorem IsNormal.normalize_eq {v : Value} (h : v.IsNormal) : v.normalize = v := by
  cases v with
  | undefined | bool | number | str | list => exact h.elim
  | null | dict | handler | node | foreign => rw [normalize]

theorem standsFor_normalize (v : Value) : v.normalize.StandsFor v := by
  cases v with
  | undefined | null => exact .nothing rfl
  | bool b => exact .bool b
  | number x => exact .text rfl
  | str s => exact .text rfl
  | list vs =>
    rw [normalize]
    exact .group (by rw [normalizeAll_eq_map, List.length_map])
  | dict | handler | node | foreign =>
    rw [normalize]
    exact .itself trivial

/-- At the path of an item is the item itself, normalized. -/
theorem childAt?_normalize {v w : Value} {path : List Nat} (h : v.itemAt? path = some w) :
    v.normalize.childAt? path = some w.normalize := by
  induction path generalizing v with
  | nil =>
    obtain rfl := Option.some.inj h
    rfl
  | cons i path ih =>
    obtain ⟨vs, x, rfl, hx, hw⟩ := itemAt?_cons_eq_some h
    rw [childAt?_normalize_list, hx]
    exact ih hw

/-- A child is at the path of an item, or it was in a node that was supplied. -/
theorem itemAt?_of_childAt? {v u : Value} {path : List Nat}
    (h : v.normalize.childAt? path = some u) :
    (∃ w, v.itemAt? path = some w) ∨
      ∃ p i q n, path = p ++ i :: q ∧ v.itemAt? p = some (node n) := by
  induction path generalizing v with
  | nil => exact .inl ⟨v, rfl⟩
  | cons i path ih =>
    cases v with
    | list vs =>
      rw [childAt?_normalize_list] at h
      obtain ⟨x, hx, hu⟩ := Option.bind_eq_some_iff.1 h
      rcases ih hu with ⟨w, hw⟩ | ⟨p, j, q, n, rfl, hn⟩
      · exact .inl ⟨w, by rw [itemAt?_list, hx]; exact hw⟩
      · exact .inr ⟨i :: p, j, q, n, rfl, by rw [itemAt?_list, hx]; exact hn⟩
    | node n => exact .inr ⟨[], i, path, n, rfl, rfl⟩
    | undefined | null | bool | dict | handler | foreign =>
      rw [normalize] at h
      simp [childAt?] at h
    | number | str =>
      -- A run of text is no group.
      rw [normalize] at h
      simp [childAt?, Node.text, Node.make, NodeOf.isFragment, textTag, fragmentTag] at h

/-- Normalizing brings every value into normal form, at any depth of the groups that come of its
    lists: at the path of an item is what stands for it there, and it is normal itself. What else
    is found in the result was in a node that was supplied. Normalizing again changes nothing. -/
theorem normalize_standsFor (v : Value) :
    (∀ path w, v.itemAt? path = some w →
      ∃ u, v.normalize.childAt? path = some u ∧ u.StandsFor w ∧ u.IsNormal) ∧
    (∀ path u, v.normalize.childAt? path = some u →
      (∃ w, v.itemAt? path = some w) ∨
        ∃ p i q n, path = p ++ i :: q ∧ v.itemAt? p = some (node n)) ∧
    v.normalize.normalize = v.normalize := by
  refine ⟨fun path w hw => ?_, fun path u hu => itemAt?_of_childAt? hu,
    (isNormal_normalize v).normalize_eq⟩
  exact ⟨w.normalize, childAt?_normalize hw, standsFor_normalize w, isNormal_normalize w⟩

/-- A list in a list with a node that holds a raw list: the text at the path of a string is a node,
    and that of the raw list is in the node that was supplied. -/
theorem normalize_standsFor_nested :
    let supplied : Node := ⟨some fragmentTag, none, none, some (.list [.list [.str "y"]]), {}⟩
    let v : Value := .list [.undefined, .list [.str "x", .node supplied]]
    v.itemAt? [1, 0] = some (.str "x") ∧
      (∃ u, v.normalize.childAt? [1, 0] = some u ∧ u.StandsFor (.str "x") ∧ u.IsNormal) ∧
    v.normalize.childAt? [1, 1, 0] = some (.list [.str "y"]) ∧
      ((∃ w, v.itemAt? [1, 1, 0] = some w) ∨
        ∃ p i q n, [1, 1, 0] = p ++ i :: q ∧ v.itemAt? p = some (node n)) := by
  intro supplied v
  obtain ⟨hitems, hchildren, -⟩ := normalize_standsFor v
  have hraw : v.normalize.childAt? [1, 1, 0] = some (.list [.str "y"]) := by
    rw [childAt?_normalize_list]
    rfl
  exact ⟨rfl, hitems [1, 0] (.str "x") rfl, hraw, hchildren [1, 1, 0] _ hraw⟩

end SlotMarkup.Value
