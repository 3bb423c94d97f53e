import Mathlib.Data.List.Basic
import SlotMarkup.Proofs.CleanValues
import SlotMarkup.Value.Json

/-!
# What the document of a value shows

The JSON document of a value does not show what belongs to the renderer or to the host program:
its objects, wherever they stand, and what a handler does. Nor does it tell undefined from null. Two
values that differ in nothing else (`Value.LooksLike`) have the same document. Every node in a
value, at any depth, is an object with the same ten fields (`nodeFields`) in its document.

* `toJson_eq_of_looksLike`: two runs that differ in hidden parts only;
* `toJson_partOf`: what is inside a value is written inside its document.
-/

namespace SlotMarkup

/-- What a node's content is, but for the values in it: its text, or how many children it has. -/
def Children.shape {α : Type} : Children α → String ⊕ Nat
  | .text s => .inl s
  | .list items => .inr items.length

namespace Value

/-- The values of a node's attributes. -/
def attrValues (n : Node) : List Value := (n.attrs.getD []).map (·.2)

/-- The children of a node. -/
def childValues (n : Node) : List Value := n.childList?.getD []

/-- Two values differ, at any depth, only in what is hidden: in the objects of the renderer, in
    what handlers do, in whether an object or a handler without a name stands at a place, and in
    whether nothing is undefined or null, or a key absent. -/
inductive LooksLike : Value → Value → Prop
  | nothing {v w} (hv : v.isNothing = true) (hw : w.isNothing = true) : LooksLike v w
  | bool (b : Bool) : LooksLike (bool b) (bool b)
  | number (x : Float) : LooksLike (number x) (number x)
  | str (s : String) : LooksLike (str s) (str s)
  | list {vs ws} (hlength : vs.length = ws.length)
      (hitems : ∀ e ∈ vs.zip ws, LooksLike e.1 e.2) : LooksLike (list vs) (list ws)
  | dict {d e : Dict Value} (hnames : d.names = e.names)
      (hvalues : ∀ p ∈ (d.map (·.2)).zip (e.map (·.2)), LooksLike p.1 p.2) :
      LooksLike (dict d) (dict e)
  | handler {h k : Handler} (hname : h.name? = k.name?) : LooksLike (handler h) (handler k)
  | foreign (i j : Nat) : LooksLike (foreign i) (foreign j)
  | nameless {h : Handler} (hname : h.name? = none) (i : Nat) :
      LooksLike (handler h) (foreign i)
  | toNameless (i : Nat) {h : Handler} (hname : h.name? = none) :
      LooksLike (foreign i) (handler h)
  | node {n m : Node} (htag : n.tag = m.tag) (hkey : LooksLike (ofOption n.key) (ofOption m.key))
      (hnames : n.attrs.map Dict.names = m.attrs.map Dict.names)
      (hvalues : ∀ p ∈ (attrValues n).zip (attrValues m), LooksLike p.1 p.2)
      (hshape : n.children.map Children.shape = m.children.map Children.shape)
      (hchildren : ∀ p ∈ (childValues n).zip (childValues m), LooksLike p.1 p.2)
      (htext : n.reserved.text = m.reserved.text)
      (hsize : n.reserved.domSize = m.reserved.domSize) : LooksLike (node n) (node m)

/-! ## Documents of values -/

theorem listToJson_eq_map (vs : List Value) : listToJson vs = vs.map toJson := by
  induction vs with
  | nil => rfl
  | cons v vs ih => rw [listToJson, ih, List.map_cons]

theorem entriesToJson_eq_map (d : Dict Value) :
    entriesToJson d = d.map fun e => (e.1, e.2.toJson) := by
  induction d with
  | nil => rfl
  | cons e d ih => rw [entriesToJson, ih, List.map_cons]

/-- The document of a dictionary has its names in order. -/
theorem entriesToJson_eq_zip (d : Dict Value) :
    entriesToJson d = d.names.zip ((d.map (·.2)).map toJson) := by
  rw [entriesToJson_eq_map, Dict.names, List.map_map, List.zip_map']
  rfl

theorem keyToJson_eq (key : Option Value) : keyToJson key = (ofOption key).toJson := by
  cases key with
  | none => rfl
  | some v => rfl

/-- The fields of the document of a node. -/
def fieldsToJson (n : Node) : List (String × Json) :=
  [("tag", .ofOption .string n.tag), ("key", keyToJson n.key), ("attrs", attrsToJson n.attrs),
   ("children", childrenToJson n.children), ("text", .ofOption .string n.reserved.text),
   ("dom", .null), ("domSize", .ofOption .nat n.reserved.domSize), ("state", .null),
   ("events", .null), ("instance", .null)]

/-- A node is shown as the object of its fields. -/
theorem toJson_node (n : Node) : (node n).toJson = .object (fieldsToJson n) := by
  obtain ⟨tag, key, attrs, children, reserved⟩ := n
  rfl

/-- Attributes are shown in order, under a name of their own. -/
theorem attrs_mem_fieldsToJson {n : Node} {d : Dict Value} (h : n.attrs = some d) :
    ("attrs", .object (d.map fun e => (e.1, e.2.toJson))) ∈ fieldsToJson n := by
  simp [fieldsToJson, h, attrsToJson, entriesToJson_eq_map]

/-- What stands for nothing is shown as nothing. -/
theorem isNothing_toJson {v : Value} (h : v.isNothing = true) : v.toJson = .null := by
  cases v <;> first | rfl | simp [isNothing] at h

/-! ## Two runs -/

/-- Lists that are matched item by item by a function are mapped alike. -/
theorem map_eq_of_zip {vs ws : List Value} (hlength : vs.length = ws.length)
    (h : ∀ p ∈ vs.zip ws, p.1.toJson = p.2.toJson) : vs.map toJson = ws.map toJson := by
  induction vs generalizing ws with
  | nil => rw [List.length_eq_zero_iff.1 hlength.symm]
  | cons v vs ih =>
    cases ws with
    | nil => simp at hlength
    | cons w ws =>
      have hhead : v.toJson = w.toJson := h (v, w) List.mem_cons_self
      rw [List.map_cons, List.map_cons, hhead,
        ih (by simpa using hlength) fun p hp => h p (List.mem_cons_of_mem _ hp)]

theorem entriesToJson_eq_of_zip {d e : Dict Value} (hnames : d.names = e.names)
    (h : ∀ p ∈ (d.map (·.2)).zip (e.map (·.2)), p.1.toJson = p.2.toJson) :
    entriesToJson d = entriesToJson e := by
  have hlength : (d.map (·.2)).length = (e.map (·.2)).length := by
    have := congrArg List.length hnames
    simpa [Dict.names] using this
  rw [entriesToJson_eq_zip, entriesToJson_eq_zip, hnames, map_eq_of_zip hlength h]

/-- Attributes with the same names look alike if their values do, each in its place. -/
theorem attrsToJson_eq_of_zip {n m : Node}
    (hnames : n.attrs.map Dict.names = m.attrs.map Dict.names)
    (h : ∀ p ∈ (attrValues n).zip (attrValues m), p.1.toJson = p.2.toJson) :
    attrsToJson n.attrs = attrsToJson m.attrs := by
  rw [attrValues, attrValues] at h
  cases hn : n.attrs with
  | none =>
    rw [hn] at hnames
    rw [Option.map_eq_none_iff.1 hnames.symm]
  | some d =>
    rw [hn] at hnames
    obtain ⟨e, hm, hde⟩ := Option.map_eq_some_iff.1 hnames.symm
    rw [hn, hm] at h
    rw [hm, attrsToJson, attrsToJson, entriesToJson_eq_of_zip hde.symm h]

/-- Children of one shape look alike if the values in them do, each in its place. -/
theorem childrenToJson_eq_of_zip {n m : Node}
    (hshape : n.children.map Children.shape = m.children.map Children.shape)
    (h : ∀ p ∈ (childValues n).zip (childValues m), p.1.toJson = p.2.toJson) :
    childrenToJson n.children = childrenToJson m.children := by
  simp only [childValues, NodeOf.childList?] at h
  cases hn : n.children with
  | none =>
    cases hm : m.children with
    | none => rfl
    | some d => simp [hn, hm] at hshape
  | some c =>
    cases hm : m.children with
    | none => simp [hn, hm] at hshape
    | some d =>
      rw [hn, hm, Option.map_some, Option.map_some, Option.some.injEq] at hshape
      cases c with
      | text s =>
        cases d with
        | text t =>
          have hst : s = t := by simpa [Children.shape] using hshape
          rw [hst]
        | list ws => simp [Children.shape] at hshape
      | list vs =>
        cases d with
        | text t => simp [Children.shape] at hshape
        | list ws =>
          have hlength : vs.length = ws.length := by simpa [Children.shape] using hshape
          rw [hn, hm] at h
          rw [childrenToJson, childrenToJson, listToJson_eq_map, listToJson_eq_map,
            map_eq_of_zip hlength h]

/-- Two values that differ in hidden parts only have the same document. -/
theorem toJson_eq_of_looksLike {v w : Value} (h : v.LooksLike w) : v.toJson = w.toJson := by
  induction h with
  | nothing hv hw => rw [isNothing_toJson hv, isNothing_toJson hw]
  | bool | number | str => rfl
  | list hlength _ ih =>
    rw [toJson, toJson, listToJson_eq_map, listToJson_eq_map, map_eq_of_zip hlength ih]
  | dict hnames _ ih => rw [toJson, toJson, entriesToJson_eq_of_zip hnames ih]
  | handler hname => rw [toJson, toJson, hname]
  | foreign i j => rfl
  | nameless hname i =>
    rw [toJson, toJson, hname]
    rfl
  | toNameless i hname =>
    rw [toJson, toJson, hname]
    rfl
  | @node n m htag _ hnames _ hshape _ htext hsize ihKey ihValues ihChildren =>
    have hattrs := attrsToJson_eq_of_zip hnames ihValues
    have hchildren := childrenToJson_eq_of_zip hshape ihChildren
    rw [toJson_node, toJson_node, fieldsToJson, fieldsToJson, htag, keyToJson_eq, keyToJson_eq,
      ihKey, hattrs, hchildren, htext, hsize]

end Value

/-! ## The documents of nodes -/

/-- The fields of every node in a document. -/
def nodeFields : List String :=
  ["tag", "key", "attrs", "children", "text", "dom", "domSize", "state", "events", "instance"]

/-- The fields for the objects of the renderer. -/
def rendererFields : List String := ["dom", "state", "events", "instance"]

/-- A document is another one, or inside of it at any depth. -/
inductive Json.PartOf (j : Json) : Json → Prop
  | here : PartOf j j
  | item {k items} (hk : k ∈ items) (h : PartOf j k) : PartOf j (.array items)
  | field {name k fields} (hk : (name, k) ∈ fields) (h : PartOf j k) : PartOf j (.object fields)

namespace Value

/-- A value is another one, or inside of it at any depth. -/
inductive PartOf (v : Value) : Value → Prop
  | here : PartOf v v
  | inside {u w} (hu : u ∈ w.inside) (h : PartOf v u) : PartOf v w

/-- What is inside a value is written inside its document. -/
theorem toJson_partOf_of_inside {u w : Value} (hu : u ∈ w.inside) {j : Json}
    (h : j.PartOf u.toJson) : j.PartOf w.toJson := by
  cases w with
  | list items =>
    rw [toJson, listToJson_eq_map]
    exact .item (List.mem_map_of_mem hu) h
  | dict d =>
    obtain ⟨e, he, rfl⟩ := List.mem_map.1 hu
    rw [toJson, entriesToJson_eq_map]
    exact .field (List.mem_map_of_mem he) h
  | node n =>
    rw [inside, List.mem_append, List.mem_append] at hu
    rw [toJson_node]
    rcases hu with hkey | hattr | hchild
    · have hfield : ("key", u.toJson) ∈ fieldsToJson n := by
        simp [fieldsToJson, Option.mem_toList.1 hkey, keyToJson]
      exact .field hfield h
    · obtain ⟨e, he, rfl⟩ := List.mem_map.1 hattr
      cases hd : n.attrs with
      | none => simp [hd] at he
      | some d =>
        rw [hd] at he
        exact .field (attrs_mem_fieldsToJson hd) (.field (List.mem_map_of_mem he) h)
    · rw [NodeOf.childList?] at hchild
      split at hchild
      · rename_i items hitems
        have hfield : ("children", .array (items.map toJson)) ∈ fieldsToJson n := by
          simp [fieldsToJson, hitems, childrenToJson, listToJson_eq_map]
        exact .field hfield (.item (List.mem_map_of_mem hchild) h)
      · simp at hchild
  | undefined | null | bool | number | str | handler | foreign => simp [inside] at hu

/-- Whatever is in a value is shown in what the value is shown as. -/
theorem toJson_partOf {v w : Value} (h : v.PartOf w) : v.toJson.PartOf w.toJson := by
  induction h with
  | here => exact .here
  | inside hu _ ih => exact toJson_partOf_of_inside hu ih

/-- The document of a value shows nothing of the objects of the renderer and of what handlers do,
    and does not tell undefined from null. Every node inside the value is written in it with the
    ten fields of a node, in their order, and with its attributes in theirs. -/
theorem toJson_hides :
    (∀ v w : Value, v.LooksLike w → v.toJson = w.toJson) ∧
    ∀ (v : Value) (n : Node), (node n).PartOf v → ∃ fields,
      (node n).toJson = .object fields ∧ (Json.object fields).PartOf v.toJson ∧
      fields.map (·.1) = nodeFields ∧ (∀ name ∈ rendererFields, (name, .null) ∈ fields) ∧
      ∀ d, n.attrs = some d → ("attrs", .object (d.map fun e => (e.1, e.2.toJson))) ∈ fields := by
  refine ⟨fun v w h => toJson_eq_of_looksLike h, fun v n hn => ?_⟩
  exact ⟨fieldsToJson n, toJson_node n, toJson_node n ▸ toJson_partOf hn, rfl,
    by simp [rendererFields, fieldsToJson], fun d hd => attrs_mem_fieldsToJson hd⟩

/-- Two lists whose items look alike: one has nothing, and a node without a key around an object of
    the renderer; the other has null, and the node with an undefined key around a handler without
    a name. -/
theorem toJson_hides_list :
    let n : Node := ⟨some "p", none, some [("a", .foreign 1)], some (.list [.null]),
      { dom := some 4, state := some 5 }⟩
    let m : Node := ⟨some "p", some undefined, some [("a", .handler ⟨some "", 2⟩)],
      some (.list [.undefined]), { component := some 6 }⟩
    let v : Value := .list [.undefined, .node n]
    let w : Value := .list [.null, .node m]
    v.LooksLike w ∧ v.toJson = w.toJson ∧ (node m).PartOf w ∧
      ∃ fields, (node m).toJson = .object fields ∧ (Json.object fields).PartOf w.toJson ∧
        fields.map (·.1) = nodeFields := by
  intro n m v w
  have hnodes : (node n).LooksLike (node m) := by
    refine .node rfl (.nothing rfl rfl) rfl ?_ rfl ?_ rfl rfl
    · intro p hp
      obtain rfl := List.mem_singleton.1 hp
      exact .toNameless 1 rfl
    · intro p hp
      obtain rfl := List.mem_singleton.1 hp
      exact .nothing rfl rfl
  have hlook : v.LooksLike w := by
    refine .list rfl (List.forall_mem_cons.2 ⟨.nothing rfl rfl, ?_⟩)
    intro p hp
    obtain rfl := List.mem_singleton.1 hp
    exact hnodes
  have hpart : (node m).PartOf w := .inside (u := node m) (by simp [w, inside]) .here
  obtain ⟨hhides, hfields⟩ := toJson_hides
  obtain ⟨fields, hjson, hin, hnames, -⟩ := hfields w m hpart
  exact ⟨hlook, hhides v w hlook, hpart, fields, hjson, hin, hnames⟩

end Value

end SlotMarkup
