import SlotMarkup.Token.Scan

/-!
# Attribute lists

After a tag's name, attributes stand in parentheses, separated by blanks and
commas (`attributeList`). An attribute is a name, and possibly an equals sign and
a raw value. A value ends at a blank, a comma or a closing bracket, unless it
stands in a string or in brackets (`valueEnd`); a string ends at the next quote of
its own kind that is not escaped (`stringEnd`).

* `reaches_stringEnd`, `reaches_valueEnd`: both move on in the text;
* `readAttribute_reaches`: reading an attribute takes at least a character.
-/

namespace SlotMarkup

/-! ## Strings -/

/-- The number of characters up to and with the quote that ends the string. A
    backslash escapes the character after it. -/
def quotedLength? (quote : Char) : List Char → Option Nat
  | [] => none
  | ['\\'] => none
  | '\\' :: _ :: cs => (quotedLength? quote cs).map (· + 2)
  | c :: cs => if c = quote then some 1 else (quotedLength? quote cs).map (· + 1)

/-- The place after the string that starts with the quote at `p`. -/
def stringEnd (quote : Char) (p : Place) : Except ScanError Place :=
  match quotedLength? quote (p.rest.drop 1) with
  | some n => .ok (p.drop (n + 1))
  | none => .error (.between .unterminatedString p p.final)

/-- The end of a string is later in the text than its start. -/
theorem reaches_stringEnd {quote : Char} {p q : Place} (h : stringEnd quote p = .ok q) :
    p.Reaches q := by
  unfold stringEnd at h
  split at h
  · obtain rfl := Except.ok.inj h
    exact p.reaches_drop _
  · simp at h

/-- A string has its closing quote at least, so that less text is left behind it. -/
theorem stringEnd_lt {quote : Char} {p q : Place} (hp : p.rest ≠ [])
    (h : stringEnd quote p = .ok q) : q.rest.length < p.rest.length := by
  unfold stringEnd at h
  split at h
  · obtain rfl := Except.ok.inj h
    exact Place.length_drop_lt hp (Nat.succ_pos _)
  · simp at h

/-! ## Values -/

/-- The place after the raw value that goes on at `p` inside `depth` brackets. -/
def valueEnd (depth : Nat) (p : Place) : Except ScanError Place :=
  match _hp : p.rest with
  | [] => .ok p
  | c :: _ =>
    if c = '\'' ∨ c = '"' ∨ c = '\x60' then
      match _hq : stringEnd c p with
      | .ok q => valueEnd depth q
      | .error e => .error e
    else if c = '(' ∨ c = '[' ∨ c = '\x7b' then valueEnd (depth + 1) (p.drop 1)
    else if c = ')' ∨ c = ']' ∨ c = '\x7d' then
      if depth = 0 then .ok p else valueEnd (depth - 1) (p.drop 1)
    else if depth = 0 ∧ (c = ',' ∨ isBlank c) then .ok p
    else valueEnd depth (p.drop 1)
termination_by p.rest.length
decreasing_by
  · exact stringEnd_lt (by simp [_hp]) _hq
  all_goals exact Place.length_drop_lt (by simp [_hp]) Nat.one_pos

/-- The end of a value is not before its start. -/
theorem reaches_valueEnd {depth : Nat} {p q : Place} (h : valueEnd depth p = .ok q) :
    p.Reaches q := by
  fun_induction valueEnd depth p with
  | case1 => exact Except.ok.inj h ▸ .refl _
  | case2 _ _ _ _ _ _ r hr ih => exact (reaches_stringEnd hr).trans (ih h)
  | case3 => simp at h
  | case4 _ p _ _ _ _ _ ih => exact (p.reaches_drop 1).trans (ih h)
  | case5 => exact Except.ok.inj h ▸ .refl _
  | case6 _ p _ _ _ _ _ _ _ ih => exact (p.reaches_drop 1).trans (ih h)
  | case7 => exact Except.ok.inj h ▸ .refl _
  | case8 _ p _ _ _ _ _ _ _ ih => exact (p.reaches_drop 1).trans (ih h)

/-! ## Attributes -/

/-- The number of characters of an unquoted name: it ends at a blank, a comma, a
    parenthesis or an equals sign, also one with an exclamation mark. -/
def nameLength : List Char → Nat
  | [] => 0
  | c :: cs =>
    if isBlank c ∨ c = ',' ∨ c = ')' ∨ c = '=' ∨ c = '(' then 0
    else if c = '!' ∧ cs.head? = some '=' then 0
    else nameLength cs + 1

/-- The name of the attribute at `p`, without quotes, and the place after it. -/
def attributeName (p : Place) : Except ScanError (List Char × Place) :=
  match p.rest with
  | [] => .error (.unexpected p)
  | c :: _ =>
    if c = '\'' ∨ c = '"' then
      (stringEnd c p).map fun q => (((p.drop 1).upTo q).dropLast, q)
    else if nameLength p.rest = 0 then .error (.unexpected p)
    else .ok (p.rest.take (nameLength p.rest), p.drop (nameLength p.rest))

/-- The place after the equals sign at `p`, also of one with an exclamation mark. -/
def equalsEnd? (p : Place) : Option Place :=
  match p.rest with
  | '=' :: _ => some (p.drop 1)
  | '!' :: '=' :: _ => some (p.drop 2)
  | _ => none

/-- The raw value at `p` and the place after it. It has at least a character. -/
def attributeValue (p : Place) : Except ScanError (List Char × Place) :=
  match valueEnd 0 p with
  | .error e => .error e
  | .ok q =>
    if p.upTo q = [] then .error (.here .expectedAttributeValue p) else .ok (p.upTo q, q)

/-- One attribute. Its name may be followed by indentation before the equals sign,
    and that by any blanks before the value. -/
def readAttribute (p : Place) : Except ScanError (Token × Place) :=
  match attributeName p with
  | .error e => .error e
  | .ok (name, q) =>
    match equalsEnd? (q.skip isIndent) with
    | none => .ok (.read (.attr (String.ofList name) .bare) p q, q)
    | some r =>
      (attributeValue (r.skip isBlank)).map fun (value, s) =>
        (.read (.attr (String.ofList name) (.raw (String.ofList value))) p s, s)

/-- A name takes at least a character. -/
theorem attributeName_reaches {p q : Place} {name : List Char}
    (h : attributeName p = .ok (name, q)) :
    p.Reaches q ∧ q.rest.length < p.rest.length := by
  unfold attributeName at h
  split at h
  · simp at h
  · rename_i c cs hp
    have hne : p.rest ≠ [] := by simp [hp]
    split at h
    · obtain ⟨r, hr, hrq⟩ := map_eq_ok_iff.1 h
      obtain rfl : r = q := (Prod.mk.inj hrq).2
      exact ⟨reaches_stringEnd hr, stringEnd_lt hne hr⟩
    · split at h
      · simp at h
      · rename_i hn
        obtain rfl := (Prod.mk.inj (Except.ok.inj h)).2
        exact ⟨p.reaches_drop _, Place.length_drop_lt hne (Nat.pos_of_ne_zero hn)⟩

theorem reaches_equalsEnd? {p q : Place} (h : equalsEnd? p = some q) : p.Reaches q := by
  unfold equalsEnd? at h
  split at h
  · exact Option.some.inj h ▸ p.reaches_drop 1
  · exact Option.some.inj h ▸ p.reaches_drop 2
  · simp at h

theorem reaches_attributeValue {p q : Place} {value : List Char}
    (h : attributeValue p = .ok (value, q)) : p.Reaches q := by
  unfold attributeValue at h
  split at h
  · simp at h
  · rename_i r hr
    split at h
    · simp at h
    · exact (Prod.mk.inj (Except.ok.inj h)).2 ▸ reaches_valueEnd hr

/-- An attribute takes at least the characters of its name. -/
theorem readAttribute_reaches {p q : Place} {t : Token} (h : readAttribute p = .ok (t, q)) :
    p.Reaches q ∧ q.rest.length < p.rest.length := by
  unfold readAttribute at h
  split at h
  · simp at h
  · rename_i name r hn
    obtain ⟨hr, hlt⟩ := attributeName_reaches hn
    split at h
    · exact (Prod.mk.inj (Except.ok.inj h)).2 ▸ ⟨hr, hlt⟩
    · rename_i s hs
      obtain ⟨⟨value, u⟩, hv, hu⟩ := map_eq_ok_iff.1 h
      obtain rfl : u = q := (Prod.mk.inj hu).2
      have hru := (r.reaches_skip isIndent).trans <| (reaches_equalsEnd? hs).trans <|
        (s.reaches_skip isBlank).trans (reaches_attributeValue hv)
      exact ⟨hr.trans hru, Nat.lt_of_le_of_lt hru.length_le hlt⟩

/-! ## Lists -/

/-- The attributes from `p` on up to the closing parenthesis, of the list that was
    opened at `start`. -/
def attributesFrom (start : Place) (p : Place) : Scan :=
  let q := p.skip fun c => isBlank c || c == ','
  match q.rest with
  | [] => .error (.between .unterminatedAttributes start q)
  | ')' :: _ => .ok ([.read .closeAttributes q (q.drop 1)], q.drop 1)
  | _ =>
    match _hq : readAttribute q with
    | .error e => .error e
    | .ok (t, r) => (attributesFrom start r).after [t]
termination_by p.rest.length
decreasing_by
  exact Nat.lt_of_lt_of_le (readAttribute_reaches _hq).2 (p.reaches_skip _).length_le

/-- The attribute list whose opening parenthesis is at `p`. -/
def attributeList (p : Place) : Scan :=
  (attributesFrom p (p.drop 1)).after [.read .openAttributes p (p.drop 1)]

/-- Reading attributes moves on, if only over separators. -/
theorem reaches_attributesFrom {start p q : Place} {ts : List Token}
    (h : attributesFrom start p = .ok (ts, q)) : p.Reaches q := by
  fun_induction attributesFrom start p generalizing ts with
  | case1 => simp at h
  | case2 p r =>
    simp only [Except.ok.injEq, Prod.mk.injEq] at h
    exact h.2 ▸ (p.reaches_skip _).trans (r.reaches_drop 1)
  | case3 => simp at h
  | case4 p r _ _ hs =>
    rename_i ih
    obtain ⟨us, hus, -⟩ := Scan.after_eq_ok_iff.1 h
    exact (p.reaches_skip _).trans ((readAttribute_reaches hs).1.trans (ih hus))

/-- A list takes at least its opening parenthesis. -/
theorem attributeList_reaches {p q : Place} {ts : List Token} (hp : p.rest ≠ [])
    (h : attributeList p = .ok (ts, q)) : p.Reaches q ∧ q.rest.length < p.rest.length := by
  obtain ⟨us, hus, -⟩ := Scan.after_eq_ok_iff.1 h
  have hr := reaches_attributesFrom hus
  exact ⟨(p.reaches_drop 1).trans hr,
    Nat.lt_of_le_of_lt hr.length_le (Place.length_drop_lt hp Nat.one_pos)⟩

end SlotMarkup
