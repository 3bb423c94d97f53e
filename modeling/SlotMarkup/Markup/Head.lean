import SlotMarkup.Markup.Cursor
import SlotMarkup.Markup.Tree
import SlotMarkup.Token.Scan

/-!
# Heads and text blocks

The parts of a tag that hold no other tags: its head, which is its name and its
attributes (`readHead`), and a text block (`textBlockItems`). Shorthands are
attributes too, quoted like a literal, and a tag that starts with one is a
`defaultTag`.

* `readHead_lt`: a head takes at least a token;
* `textBlockItems_le`: a text block goes no way back.
-/

namespace SlotMarkup

/-- The name of a tag that starts with a shorthand. -/
def defaultTag : String := "div"

/-- The value of a shorthand. -/
def quoted (s : String) : AttrValue := .raw ("'" ++ s ++ "'")

/-- A token that carries a lexeme of another kind is not the end of the template. -/
theorem Cursor.kind_ne_eof {c : Cursor} {l : Lexeme} (h : c.current.lexeme = l)
    (hl : l.kind ≠ .eof) : c.kind ≠ .eof := by
  rw [Cursor.kind, Token.kind, h]
  exact hl

/-- The attributes that follow in a list, and the cursor after them. -/
def listedAttributes (c : Cursor) : List Attribute × Cursor :=
  match _h : c.current.lexeme with
  | .attr name value =>
    let (attrs, d) := listedAttributes c.advance
    (⟨name, value, c.current.span⟩ :: attrs, d)
  | _ => ([], c)
termination_by c.rest.length
decreasing_by exact c.advance_lt (Cursor.kind_ne_eof _h (by simp [Lexeme.kind]))

/-- Reading the attributes of a list never goes back. -/
theorem listedAttributes_le (c : Cursor) :
    (listedAttributes c).2.rest.length ≤ c.rest.length := by
  fun_induction listedAttributes c with
  | case1 c _ _ _ _ d h ih => exact Nat.le_trans (by simpa [h] using ih) c.advance_le
  | case2 c => exact Nat.le_refl _

/-- The run of shorthands and attribute lists that follows. -/
def attributeRun (c : Cursor) : Except ParseError (List Attribute × Cursor) :=
  match _h : c.current.lexeme with
  | .idShorthand x =>
    (attributeRun c.advance).map fun (attrs, d) =>
      (⟨"id", quoted x, c.current.span⟩ :: attrs, d)
  | .classShorthand x =>
    (attributeRun c.advance).map fun (attrs, d) =>
      (⟨"class", quoted x, c.current.span⟩ :: attrs, d)
  | .openAttributes =>
    match _he : (listedAttributes c.advance).2.expect .closeAttributes with
    | .error e => .error e
    | .ok d =>
      (attributeRun d).map fun (attrs, e) => ((listedAttributes c.advance).1 ++ attrs, e)
  | _ => .ok ([], c)
termination_by c.rest.length
decreasing_by
  · exact c.advance_lt (Cursor.kind_ne_eof _h (by simp [Lexeme.kind]))
  · exact c.advance_lt (Cursor.kind_ne_eof _h (by simp [Lexeme.kind]))
  · exact Nat.lt_of_le_of_lt (Nat.le_trans (Cursor.expect_le _he) (listedAttributes_le _))
      (c.advance_lt (Cursor.kind_ne_eof _h (by simp [Lexeme.kind])))

/-- Reading shorthands and lists never goes back. -/
theorem attributeRun_le {c d : Cursor} {attrs : List Attribute}
    (h : attributeRun c = .ok (attrs, d)) : d.rest.length ≤ c.rest.length := by
  fun_induction attributeRun c generalizing attrs with
  | case1 c _ _ ih =>
    obtain ⟨⟨as, e⟩, he, hd⟩ := map_eq_ok_iff.1 h
    obtain rfl := (Prod.mk.inj hd).2
    exact Nat.le_trans (ih he) c.advance_le
  | case2 c _ _ ih =>
    obtain ⟨⟨as, e⟩, he, hd⟩ := map_eq_ok_iff.1 h
    obtain rfl := (Prod.mk.inj hd).2
    exact Nat.le_trans (ih he) c.advance_le
  | case3 => simp at h
  | case4 c _ e he ih =>
    obtain ⟨⟨as, f⟩, hf, hd⟩ := map_eq_ok_iff.1 h
    obtain rfl := (Prod.mk.inj hd).2
    exact Nat.le_trans (ih hf) <| Nat.le_trans (Cursor.expect_le he) <|
      Nat.le_trans (listedAttributes_le _) c.advance_le
  | case5 => exact (Prod.mk.inj (Except.ok.inj h)).2 ▸ Nat.le_refl _

/-- A tag's name and attributes. -/
structure TagHead where
  name : String
  attrs : List Attribute
  deriving DecidableEq, Repr

/-- The head of the tag that follows. -/
def readHead (c : Cursor) : Except ParseError (TagHead × Cursor) :=
  match c.current.lexeme with
  | .tag name => (attributeRun c.advance).map fun (attrs, d) => (⟨name, attrs⟩, d)
  | _ => (attributeRun c).map fun (attrs, d) => (⟨defaultTag, attrs⟩, d)

/-- A run that starts with a shorthand takes at least a token. -/
theorem attributeRun_lt {c d : Cursor} {attrs : List Attribute}
    (hc : c.kind = .idShorthand ∨ c.kind = .classShorthand)
    (h : attributeRun c = .ok (attrs, d)) : d.rest.length < c.rest.length := by
  have hlt : c.advance.rest.length < c.rest.length :=
    c.advance_lt (by rcases hc with h | h <;> simp [h])
  unfold attributeRun at h
  split at h
  · obtain ⟨⟨as, e⟩, he, hd⟩ := map_eq_ok_iff.1 h
    obtain rfl := (Prod.mk.inj hd).2
    exact Nat.lt_of_le_of_lt (attributeRun_le he) hlt
  · obtain ⟨⟨as, e⟩, he, hd⟩ := map_eq_ok_iff.1 h
    obtain rfl := (Prod.mk.inj hd).2
    exact Nat.lt_of_le_of_lt (attributeRun_le he) hlt
  · rename_i hl
    simp [Cursor.kind, Token.kind, hl, Lexeme.kind] at hc
  · rename_i h1 h2 _
    cases hl : c.current.lexeme with
    | idShorthand x => exact absurd hl (h1 x)
    | classShorthand x => exact absurd hl (h2 x)
    | _ => simp [Cursor.kind, Token.kind, hl, Lexeme.kind] at hc

/-- A head takes at least the token that starts the tag. -/
theorem readHead_lt {c d : Cursor} {head : TagHead} (hc : c.kind.startsTag = true)
    (h : readHead c = .ok (head, d)) : d.rest.length < c.rest.length := by
  unfold readHead at h
  split at h
  · rename_i name hl
    obtain ⟨⟨as, e⟩, he, hd⟩ := map_eq_ok_iff.1 h
    obtain rfl := (Prod.mk.inj hd).2
    exact Nat.lt_of_le_of_lt (attributeRun_le he)
      (c.advance_lt (Cursor.kind_ne_eof hl (by simp [Lexeme.kind])))
  · rename_i hl
    obtain ⟨⟨as, e⟩, he, hd⟩ := map_eq_ok_iff.1 h
    obtain rfl := (Prod.mk.inj hd).2
    refine attributeRun_lt ?_ he
    rcases c.kind.startsTag_iff.1 hc with hk | hk
    · cases hx : c.current.lexeme with
      | tag name => exact absurd hx (hl name)
      | _ => simp [Cursor.kind, Token.kind, hx, Lexeme.kind] at hk
    · exact hk

/-- The lines of a text block, with a text of a line feed between each two. -/
def textBlockItems (c : Cursor) : Except ParseError (List Item × Cursor) :=
  match _h : c.current.lexeme with
  | .text value =>
    (textBlockItems c.advance).map fun (items, d) => (.text ⟨value, c.current.span⟩ :: items, d)
  | .newline =>
    (textBlockItems c.advance).map fun (items, d) => (.text ⟨"\n", c.current.span⟩ :: items, d)
  | .closeTextBlock => .ok ([], c.advance)
  | _ => .error (c.unexpected (.kind .closeTextBlock))
termination_by c.rest.length
decreasing_by all_goals exact c.advance_lt (Cursor.kind_ne_eof _h (by simp [Lexeme.kind]))

/-- Reading a text block never goes back. -/
theorem textBlockItems_le {c d : Cursor} {items : List Item}
    (h : textBlockItems c = .ok (items, d)) : d.rest.length ≤ c.rest.length := by
  fun_induction textBlockItems c generalizing items with
  | case1 c _ _ ih =>
    obtain ⟨⟨is, e⟩, he, hd⟩ := map_eq_ok_iff.1 h
    obtain rfl := (Prod.mk.inj hd).2
    exact Nat.le_trans (ih he) c.advance_le
  | case2 c _ ih =>
    obtain ⟨⟨is, e⟩, he, hd⟩ := map_eq_ok_iff.1 h
    obtain rfl := (Prod.mk.inj hd).2
    exact Nat.le_trans (ih he) c.advance_le
  | case3 c => exact (Prod.mk.inj (Except.ok.inj h)).2 ▸ c.advance_le
  | case4 => simp at h

end SlotMarkup
