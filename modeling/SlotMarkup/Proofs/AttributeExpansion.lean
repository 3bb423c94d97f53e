import Mathlib.Data.List.Forall2
import SlotMarkup.Proofs.AttributeEntries
import SlotMarkup.Proofs.SlotToken
import SlotMarkup.Template.Fill

/-!
# What attributes expand to

An attribute of a tree expands to entries (`Expands`): to itself with its value filled, to one entry
with another name, to those of a mapping, to a handler under its own name, or to none. The filled
attributes are the dictionary that all these entries are written into, one after the other
(`attrs_eq_foldl`). A later entry overrides the value of an earlier one with the same name and leaves
it where it is, no matter which attributes they come from.

* `expands_iff`: every attribute expands in one way;
* `attrs_lastWins`: names, values and order of the filled attributes, and the key of their node.
-/

namespace SlotMarkup

/-! ## Order of first occurrences -/

section Order

variable {a b : String}

theorem idxOf_cons_lt_iff {s : String} (hab : a ≠ b) (ss : List String) :
    (s :: ss).idxOf a < (s :: ss).idxOf b ↔
      s = a ∨ s ≠ b ∧ ss.idxOf a < ss.idxOf b := by
  by_cases hsa : s = a
  · subst hsa
    rw [List.idxOf_cons_self, List.idxOf_cons_ne _ hab]
    simp
  · rw [List.idxOf_cons_ne _ hsa]
    by_cases hsb : s = b
    · subst hsb
      rw [List.idxOf_cons_self]
      simp [hsa]
    · rw [List.idxOf_cons_ne _ hsb]
      simp [hsa, hsb]

/-- Strings that are left out do not change the order of the others. -/
theorem idxOf_filter_lt_iff {p : String → Bool} (hab : a ≠ b) (ha : p a = true) (hb : p b = true)
    (ss : List String) :
    (ss.filter p).idxOf a < (ss.filter p).idxOf b ↔ ss.idxOf a < ss.idxOf b := by
  induction ss with
  | nil => rfl
  | cons s ss ih =>
    rw [idxOf_cons_lt_iff hab]
    by_cases hs : p s = true
    · rw [List.filter_cons_of_pos hs, idxOf_cons_lt_iff hab, ih]
    · have hsa : s ≠ a := fun h => hs (h ▸ ha)
      have hsb : s ≠ b := fun h => hs (h ▸ hb)
      rw [List.filter_cons_of_neg hs, ih]
      simp [hsa, hsb]

/-- Distinct strings stand in the order in which they occur first. -/
theorem idxOf_distinct_lt_iff (ss : List String) :
    (distinct ss).idxOf a < (distinct ss).idxOf b ↔ ss.idxOf a < ss.idxOf b := by
  by_cases hab : a = b
  · rw [hab]
    exact iff_of_false (Nat.lt_irrefl _) (Nat.lt_irrefl _)
  induction ss with
  | nil => rfl
  | cons s ss ih =>
    rw [distinct, idxOf_cons_lt_iff hab, idxOf_cons_lt_iff hab]
    by_cases hsa : s = a
    · simp [hsa]
    by_cases hsb : s = b
    · simp [hsb]
    · have hp {t : String} (h : s ≠ t) : (t != s) = true := bne_iff_ne.2 (Ne.symm h)
      rw [idxOf_filter_lt_iff hab (hp hsa) (hp hsb), ih]

end Order

namespace Dict

variable {α : Type}

/-- Entries are inserted one after the other. -/
theorem insertAll_append (d entries more : Dict α) :
    d.insertAll (entries ++ more) = (d.insertAll entries).insertAll more := List.foldl_append

end Dict

/-! ## Expansions -/

/-- The text that a string, a number or a boolean stands for. -/
inductive Value.ScalarText : Value → String → Prop
  | str (s : String) : ScalarText (.str s) s
  | number (x : Float) : ScalarText (.number x) (NumberStyle.display.text x)
  | true : ScalarText (.bool true) "true"
  | false : ScalarText (.bool false) "false"

namespace Filling

/-- What the value of an attribute is filled to: the value of a slot if it is the token of one. -/
inductive Fills (f : Filling) : Value → Value → Prop
  | slot {i : Nat} (hi : i < f.slots.count) :
      Fills f (.str (String.ofList (f.slots.token i))) (f.value i)
  | other {v : Value} (h : ∀ i < f.slots.count, v ≠ .str (String.ofList (f.slots.token i))) :
      Fills f v v

/-- The entries that an attribute expands to. -/
inductive Expands (f : Filling) : String → Value → List (String × Value) → Prop
  /-- A named handler goes under its own name. -/
  | handler {i : Nat} {h : Handler} {own : String} (hi : i < f.slots.count)
      (hv : f.value i = .handler h) (hown : h.label = some own) (hne : own ≠ "") :
      Expands f (String.ofList (f.slots.token i)) (.bool true) [(own, .handler h)]
  /-- A mapping is spread. -/
  | mapping {i : Nat} {entries : List (String × Value)} (hi : i < f.slots.count)
      (hv : f.value i = .dict entries) :
      Expands f (String.ofList (f.slots.token i)) (.bool true) entries
  /-- Nothing else can be spread: the attribute stays as it is. -/
  | stays {i : Nat} (hi : i < f.slots.count)
      (hh : ∀ h own, f.value i = .handler h → h.label = some own → own = "")
      (hm : ∀ entries, f.value i ≠ .dict entries) :
      Expands f (String.ofList (f.slots.token i)) (.bool true)
        [(String.ofList (f.slots.token i), .bool true)]
  /-- A scalar names the attribute. -/
  | named {i : Nat} {v w : Value} {name : String} (hi : i < f.slots.count) (hv : v ≠ .bool true)
      (hname : (f.value i).ScalarText name) (hw : Fills f v w) :
      Expands f (String.ofList (f.slots.token i)) v [(name, w)]
  /-- Nothing else can name one: there is no attribute. -/
  | dropped {i : Nat} {v : Value} (hi : i < f.slots.count) (hv : v ≠ .bool true)
      (hname : ∀ name, ¬(f.value i).ScalarText name) :
      Expands f (String.ofList (f.slots.token i)) v []
  /-- Any other name stays. -/
  | plain {name : String} {v w : Value}
      (hname : ∀ i < f.slots.count, name ≠ String.ofList (f.slots.token i)) (hw : Fills f v w) :
      Expands f name v [(name, w)]

variable {f : Filling}

/-- The relation for names is the function. -/
theorem scalarText_iff {v : Value} {name : String} : v.ScalarText name ↔ nameOf? v = some name := by
  constructor
  · rintro (_ | _ | _ | _) <;> rfl
  · intro h
    cases v with
    | bool b =>
      obtain rfl := Option.some.inj h
      cases b
      · exact .false
      · exact .true
    | str s => exact Option.some.inj h ▸ .str s
    | number x => exact Option.some.inj h ▸ .number x
    | _ => cases h

/-- The relation for values is the function. -/
theorem fills_iff {v w : Value} : f.Fills v w ↔ f.fillAttr v = w := by
  constructor
  · rintro (hi | h)
    · rw [fillAttr, Slots.index?_token hi]
    · cases v with
      | str x =>
        have hnone : f.slots.index? x = none :=
          Slots.index?_eq_none_iff.2 fun i hi hx => h i hi (congrArg _ hx)
        rw [fillAttr, hnone]
      | _ => rfl
  · rintro rfl
    cases v with
    | str x =>
      rw [fillAttr]
      cases hx : f.slots.index? x with
      | none => exact .other fun i hi h => Slots.index?_eq_none_iff.1 hx i hi (Value.str.inj h)
      | some i =>
        obtain ⟨hi, rfl⟩ := Slots.eq_token_of_index? hx
        exact .slot hi
    | _ => exact .other fun i _ h => by cases h

/-- A handler has its label as a name, unless it is empty. -/
theorem name?_eq_some_iff {h : Handler} {own : String} :
    h.name? = some own ↔ h.label = some own ∧ own ≠ "" := by
  rw [Handler.name?, Option.filter_eq_some_iff]
  simp

/-- What is spread in the place of a token that is only named. -/
def spreadOf (token : String) : Value → List (String × Value)
  | .handler h =>
    match h.name? with
    | some own => [(own, .handler h)]
    | none => [(token, .bool true)]
  | .dict entries => entries
  | _ => [(token, .bool true)]

/-- An attribute that is named by a token, without a value, is spread. -/
theorem expand_named {i : Nat} (hi : i < f.slots.count) :
    f.expand (String.ofList (f.slots.token i)) (.bool true) =
      spreadOf (String.ofList (f.slots.token i)) (f.value i) := by
  rw [expand, Slots.index?_token hi]
  rfl

/-- What a token that has a value names. -/
theorem expand_valued {i : Nat} {v : Value} (hi : i < f.slots.count) (hv : v ≠ .bool true) :
    f.expand (String.ofList (f.slots.token i)) v =
      match nameOf? (f.value i) with
      | some name => [(name, f.fillAttr v)]
      | none => [] := by
  rw [expand, Slots.index?_token hi]
  dsimp only
  split
  · exact absurd rfl hv
  · rfl

/-- An entry expands to nothing else than the function gives. -/
theorem expand_of_expands {name : String} {v : Value} {es : List (String × Value)}
    (h : f.Expands name v es) : f.expand name v = es := by
  cases h with
  | handler hi hv hown hne => simp only [expand_named hi, spreadOf, hv, name?_eq_some_iff.2 ⟨hown, hne⟩]
  | mapping hi hv => rw [expand_named hi, hv, spreadOf]
  | stays hi hh hm =>
    rw [expand_named hi, spreadOf.eq_def]
    split
    · rename_i h hv
      split
      · rename_i own hown
        obtain ⟨hlabel, hne⟩ := name?_eq_some_iff.1 hown
        exact absurd (hh h own hv hlabel) hne
      · rfl
    · rename_i entries hv
      exact absurd hv (hm entries)
    · rfl
  | named hi hv hname hw =>
    rw [expand_valued hi hv, scalarText_iff.1 hname, fills_iff.1 hw]
  | dropped hi hv hname =>
    have hnone : nameOf? (f.value _) = none :=
      Option.eq_none_iff_forall_ne_some.2 fun name h => hname name (scalarText_iff.2 h)
    rw [expand_valued hi hv, hnone]
  | plain hname hw => rw [expand, Slots.index?_eq_none_iff.2 hname, fills_iff.1 hw]

/-- The entry of a token without a value expands to what the function gives. -/
theorem expands_named {i : Nat} (hi : i < f.slots.count) :
    f.Expands (String.ofList (f.slots.token i)) (.bool true)
      (f.expand (String.ofList (f.slots.token i)) (.bool true)) := by
  rw [expand_named hi]
  cases hv : f.value i with
  | handler h =>
    rw [spreadOf]
    cases hown : h.name? with
    | some own =>
      obtain ⟨hlabel, hne⟩ := name?_eq_some_iff.1 hown
      exact .handler hi hv hlabel hne
    | none =>
      refine .stays hi (fun g own hg hlabel => ?_) fun entries hd => by simp [hv] at hd
      obtain rfl : h = g := Value.handler.inj (hv.symm.trans hg)
      by_contra hne
      rw [name?_eq_some_iff.2 ⟨hlabel, hne⟩] at hown
      cases hown
  | dict entries => exact .mapping hi hv
  | _ => exact .stays hi (fun g own hg _ => by simp [hv] at hg) fun entries hd => by simp [hv] at hd

theorem expands_valued {i : Nat} {v : Value} (hi : i < f.slots.count) (hv : v ≠ .bool true) :
    f.Expands (String.ofList (f.slots.token i)) v
      (f.expand (String.ofList (f.slots.token i)) v) := by
  rw [expand_valued hi hv]
  cases hname : nameOf? (f.value i) with
  | some name => exact .named hi hv (scalarText_iff.2 hname) (fills_iff.2 rfl)
  | none => exact .dropped hi hv fun name h => by simp [scalarText_iff.1 h] at hname

/-- Every attribute expands in one way. -/
theorem expands_iff {name : String} {v : Value} {es : List (String × Value)} :
    f.Expands name v es ↔ f.expand name v = es := by
  refine ⟨expand_of_expands, ?_⟩
  rintro rfl
  cases hindex : f.slots.index? name with
  | none =>
    have hexpand : f.expand name v = [(name, f.fillAttr v)] := by rw [expand, hindex]
    rw [hexpand]
    exact .plain (Slots.index?_eq_none_iff.1 hindex) (fills_iff.2 rfl)
  | some i =>
    obtain ⟨hi, rfl⟩ := Slots.eq_token_of_index? hindex
    by_cases hv : v = .bool true
    · rw [hv]
      exact expands_named hi
    · exact expands_valued hi hv

/-! ## One attribute after the other -/

/-- Writes what an attribute expands to behind the attributes that are filled already. -/
def write (f : Filling) (out : Dict Value) (name : String) (v : Value) : Dict Value :=
  match f.slots.index? name with
  | none => out.insert name (f.fillAttr v)
  | some index =>
    match v with
    | .bool true =>
      match f.value index with
      | .handler h =>
        match h.name? with
        | some own => out.insert own (.handler h)
        | none => out.insert name v
      | .dict entries => out.insertAll entries
      | _ => out.insert name v
    | _ =>
      match nameOf? (f.value index) with
      | some dynamic => out.insert dynamic (f.fillAttr v)
      | none => out

/-- Writing an attribute writes the entries of its expansion. -/
theorem write_eq (out : Dict Value) (name : String) (v : Value) :
    f.write out name v = out.insertAll (f.expand name v) := by
  rw [write, expand]
  cases f.slots.index? name with
  | none => rfl
  | some i =>
    cases v with
    | bool b =>
      dsimp only
      cases b with
      | true =>
        cases f.value i with
        | handler h =>
          dsimp only
          cases h.name? <;> rfl
        | _ => rfl
      | false => cases nameOf? (f.value i) <;> rfl
    | _ =>
      dsimp only
      cases nameOf? (f.value i) <;> rfl

/-- The attributes are written one after the other. -/
theorem attrs_eq_foldl (d : Dict Value) :
    f.attrs d = d.foldl (fun out e => f.write out e.1 e.2) [] := by
  have hall (out : Dict Value) : out.insertAll (d.flatMap fun e => f.expand e.1 e.2) =
      d.foldl (fun out e => f.write out e.1 e.2) out := by
    induction d generalizing out with
    | nil => rfl
    | cons e d ih => rw [List.flatMap_cons, Dict.insertAll_append, ih, ← write_eq, List.foldl_cons]
  exact hall []

/-! ## The filled attributes -/

theorem forall₂_expands_iff {d : Dict Value} {expansions : List (List (String × Value))} :
    List.Forall₂ (fun e es => f.Expands e.1 e.2 es) d expansions ↔
      d.map (fun e => f.expand e.1 e.2) = expansions := by
  rw [← List.forall₂_eq_eq_eq, List.forall₂_map_left_iff]
  simp only [expands_iff]

/-- Attributes are filled to the dictionary of what their entries expand to, in order. -/
theorem attrs_eq_ofList {d : Dict Value} {expansions : List (List (String × Value))}
    (h : List.Forall₂ (fun e es => f.Expands e.1 e.2 es) d expansions) :
    f.attrs d = Dict.ofList expansions.flatten := by
  rw [attrs, ← forall₂_expands_iff.1 h, List.flatMap_def]

/-- The attributes of a node are filled one after the other, and each one expands to a list of
    entries, in one way. Of all these entries the last one with a name decides about its value, and
    the first one about its place. The key of the filled node is the value of the last entry that is
    named so. -/
theorem attrs_lastWins (f : Filling) (d : Dict Value) :
    f.attrs d = d.foldl (fun out e => f.write out e.1 e.2) [] ∧
    (∃ expansions, List.Forall₂ (fun e es => f.Expands e.1 e.2 es) d expansions) ∧
    ∀ expansions, List.Forall₂ (fun e es => f.Expands e.1 e.2 es) d expansions →
      (f.attrs d).names.Nodup ∧
      (∀ name, name ∈ (f.attrs d).names ↔ ∃ v, (name, v) ∈ expansions.flatten) ∧
      (∀ name, (f.attrs d).get? name =
        ((expansions.flatten.filter (·.1 = name)).getLast?).map (·.2)) ∧
      (∀ a b, (f.attrs d).names.idxOf a < (f.attrs d).names.idxOf b ↔
        (expansions.flatten.map (·.1)).idxOf a < (expansions.flatten.map (·.1)).idxOf b) ∧
      ∀ tag children reserved, ∃ n, f.rebuild tag (some d) children reserved = .node n ∧
        n.attrs = some (f.attrs d) ∧
        n.key = ((expansions.flatten.filter (·.1 = "key")).getLast?).map (·.2) := by
  refine ⟨attrs_eq_foldl d, ⟨_, forall₂_expands_iff.2 rfl⟩, fun expansions h => ?_⟩
  rw [attrs_eq_ofList h]
  refine ⟨Dict.nodup_names_ofList _, fun name => ?_, Dict.get?_ofList _, fun a b => ?_,
    fun tag children reserved => ⟨_, rfl, ?_, ?_⟩⟩
  · rw [Dict.names_ofList, mem_distinct, List.mem_map]
    simp
  · rw [Dict.names_ofList, idxOf_distinct_lt_iff]
  · rw [Option.map_some, attrs_eq_ofList h]
  · rw [Option.map_some, attrs_eq_ofList h]
    exact Dict.get?_ofList _ _

/-- A mapping with a key comes after a key, and a name that is filled in after an entry of the
    mapping. -/
theorem attrs_lastWins_collisions :
    let s : Slots := ⟨3⟩
    let token (i : Nat) : String := String.ofList (s.token i)
    let f : Filling := ⟨s, [.dict [("id", .str "x"), ("key", .str "k")], .str "id",
      .handler ⟨some "", 7⟩]⟩
    let d : Dict Value := [("key", .str "a"), (token 0, .bool true), (token 1, .str "z"),
      (token 2, .bool true)]
    List.Forall₂ (fun e es => f.Expands e.1 e.2 es) d [[("key", .str "a")],
        [("id", .str "x"), ("key", .str "k")], [("id", .str "z")], [(token 2, .bool true)]] ∧
      (f.attrs d).names.Nodup ∧ (f.attrs d).get? "id" = some (.str "z") ∧
      (f.attrs d).names.idxOf "key" < (f.attrs d).names.idxOf "id" ∧
      ∃ n, f.rebuild (some "p") (some d) none {} = .node n ∧ n.key = some (.str "k") := by
  intro s token f d
  have hplain : ∀ i < 3, "key" ≠ token i := by decide
  have hstr {x : String} (h : ∀ i < 3, x ≠ token i) : f.Fills (.str x) (.str x) :=
    .other fun i hi heq => h i hi (Value.str.inj heq)
  have hexpands : List.Forall₂ (fun e es => f.Expands e.1 e.2 es) d [[("key", .str "a")],
      [("id", .str "x"), ("key", .str "k")], [("id", .str "z")], [(token 2, .bool true)]] := by
    refine .cons (.plain hplain (hstr (by decide))) (.cons (.mapping (by decide) rfl)
      (.cons (.named (by decide) (fun h => by cases h) (.str _) (hstr (by decide)))
        (.cons (.stays (by decide) ?_ ?_) .nil)))
    · rintro h own hvalue hlabel
      obtain rfl := Value.handler.inj hvalue
      exact (Option.some.inj hlabel).symm
    · intro entries hvalue
      cases hvalue
  obtain ⟨-, -, hall⟩ := attrs_lastWins f d
  obtain ⟨hnodup, -, hget, horder, hkey⟩ := hall _ hexpands
  obtain ⟨n, hn, -, hnkey⟩ := hkey (some "p") none {}
  have htoken : token 2 = "emjay_substitution2" := by decide
  have hid : (f.attrs d).get? "id" = some (.str "z") := by simpa [htoken] using hget "id"
  have hk : n.key = some (.str "k") := by simpa [htoken] using hnkey
  exact ⟨hexpands, hnodup, hid, (horder _ _).2 (by decide), n, hn, hk⟩

end Filling

end SlotMarkup
