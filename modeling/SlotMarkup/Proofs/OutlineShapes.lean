import SlotMarkup.Proofs.ElementForest
import SlotMarkup.Proofs.Lookahead
import SlotMarkup.Proofs.ParseRewording

/-!
# Outlines of one shape

What lines stand for is known from their tokens and from which line is below which. The
tokens of a chain of tags can be taken apart in one way only, as no token of a head is one of
a body (`head_unique`), so that they stand for one tag (`ShowsTag.of_body`), up to the spans.

* `ShowsTag.alike`: the same tokens stand for the same tags;
* `Shows.alike`: outlines of one shape stand for the same items.
-/

namespace SlotMarkup

/-! ## Heads -/

/-- A list is taken apart in one way where a condition holds no more. -/
theorem append_unique {α : Type} {f : α → Bool} {as as' bs bs' : List α}
    (ha : ∀ a ∈ as, f a = true) (ha' : ∀ a ∈ as', f a = true)
    (hb : ∀ b ∈ bs.head?, f b = false) (hb' : ∀ b ∈ bs'.head?, f b = false)
    (h : as ++ bs = as' ++ bs') : as = as' ∧ bs = bs' := by
  have has := takeWhile_append_stop ha hb
  rw [h, takeWhile_append_stop ha' hb'] at has
  subst has
  exact ⟨rfl, List.append_cancel_left h⟩

theorem IsHead.kind_mem {hs : List Token} (h : IsHead hs) : ∀ t ∈ hs, t.kind ∈ headKinds := by
  obtain ⟨ht, more⟩ := h
  refine List.forall_mem_cons.2 ⟨?_, more.kind_mem⟩
  rcases (Kind.startsTag_iff _).1 ht.kind with hk | hk | hk <;> simp [hk, headKinds]

/-- No body starts with a colon. -/
theorem IsBody.ne_colon {bs ts : List Token} {c : Token} (h : IsBody bs) (hc : c.kind = .colon) :
    bs.map Token.lexeme ≠ (c :: ts).map Token.lexeme := by
  intro hbs
  obtain ⟨t, us, rfl, ht, -⟩ := List.map_eq_cons_iff.1 hbs
  have hk : t.kind = .colon := (congrArg Lexeme.kind ht).trans hc
  cases h with
  | text h => simp [hk] at h
  | block h => simp [hk] at h

/-- No head goes on with these tokens. -/
def PastHead (ts : List Token) : Prop := ∀ t ∈ ts.head?, t.kind ∉ headKinds

theorem IsBody.pastHead {bs : List Token} (h : IsBody bs) : PastHead bs := by
  cases h with
  | nil => simp [PastHead]
  | text ht => simp [PastHead, ht, headKinds]
  | block ho => simp [PastHead, ho, headKinds]

theorem pastHead_colon {c : Token} (h : c.kind = .colon) (ts : List Token) :
    PastHead (c :: ts) := by
  simp [PastHead, h, headKinds]

/-- A head is told from what comes after it. -/
theorem head_unique {hs hs' ts ts' : List Token} (hh : IsHead hs) (hh' : IsHead hs')
    (hts : PastHead ts) (hts' : PastHead ts')
    (h : (hs ++ ts).map Token.lexeme = (hs' ++ ts').map Token.lexeme) :
    hs.map Token.lexeme = hs'.map Token.lexeme ∧ ts.map Token.lexeme = ts'.map Token.lexeme := by
  have hhead {us : List Token} (hu : IsHead us) :
      ∀ l ∈ us.map Token.lexeme, decide (l.kind ∈ headKinds) = true := by
    intro l hl
    obtain ⟨t, ht, rfl⟩ := List.mem_map.1 hl
    exact decide_eq_true (hu.kind_mem t ht)
  have hpast {us : List Token} (hu : PastHead us) :
      ∀ l ∈ (us.map Token.lexeme).head?, decide (l.kind ∈ headKinds) = false := by
    intro l hl
    rw [List.head?_map] at hl
    obtain ⟨t, ht, rfl⟩ := Option.map_eq_some_iff.1 hl
    exact decide_eq_false (hu t ht)
  rw [List.map_append, List.map_append] at h
  exact append_unique (hhead hh) (hhead hh') (hpast hts) (hpast hts') h

/-! ## Chains -/

section Tags

variable {below below' : List Item} {hs bs : List Token} {tag tag' : Tag}

/-- The name of a head does not depend on spans. -/
theorem headName_of_lexemes {hs hs' : List Token}
    (h : hs'.map Token.lexeme = hs.map Token.lexeme) : headName hs' = headName hs := by
  rw [headName, headName, ← List.head?_map, ← List.head?_map, h]

/-- Nor do its attributes. -/
theorem sameAttrs_of_lexemes {hs hs' : List Token}
    (h : hs'.map Token.lexeme = hs.map Token.lexeme) :
    SameAttrs id (hs.filterMap Token.attribute?) (hs'.filterMap Token.attribute?) := by
  induction hs generalizing hs' with
  | nil =>
    obtain rfl := List.map_eq_nil_iff.1 h
    rfl
  | cons t hs ih =>
    obtain ⟨t', hs', rfl, ht, hhs⟩ := List.map_eq_cons_iff.1 h
    have hsame := ih hhs
    rw [List.filterMap_cons, List.filterMap_cons, Token.attribute?, Token.attribute?, ht]
    cases t.lexeme with
    | idShorthand x | classShorthand x | attr name value => exact .cons rfl hsame
    | _ => exact hsame

theorem sameItems_of_lexemes {bs bs' : List Token}
    (h : bs'.map Token.lexeme = bs.map Token.lexeme) :
    SameItems id (bs.filterMap Token.bodyText?) (bs'.filterMap Token.bodyText?) := by
  induction bs generalizing bs' with
  | nil =>
    obtain rfl := List.map_eq_nil_iff.1 h
    rfl
  | cons t bs ih =>
    obtain ⟨t', bs', rfl, ht, hbs⟩ := List.map_eq_cons_iff.1 h
    have hsame := ih hbs
    rw [List.filterMap_cons, List.filterMap_cons, Token.bodyText?, Token.bodyText?, ht]
    cases t.lexeme with
    | text value | newline => exact .cons rfl hsame
    | _ => exact hsame

/-- The tag of a head and a body. -/
theorem ShowsTag.of_body (h : ShowsTag below (hs ++ bs) tag) (hh : IsHead hs) (hb : IsBody bs) :
    ∃ inner span, tag = ⟨headName hs, hs.filterMap Token.attribute?,
      some ⟨bs.filterMap Token.bodyText? ++ below, inner⟩, span⟩ := by
  generalize hcs : hs ++ bs = cs at h
  have hlexemes := congrArg (List.map Token.lexeme) hcs
  cases h with
  | @last hs' bs' hh' hb' inner span =>
    obtain ⟨hhs, -⟩ := head_unique hh hh' hb.pastHead hb'.pastHead hlexemes
    have hlen : hs.length = hs'.length := by simpa using congrArg List.length hhs
    obtain ⟨rfl, rfl⟩ := List.append_inj hcs hlen
    exact ⟨inner, span, rfl⟩
  | @colon hs' c ts child hh' hc only inner span =>
    obtain ⟨-, hbs⟩ := head_unique hh hh' hb.pastHead (pastHead_colon hc ts) hlexemes
    exact absurd hbs (hb.ne_colon hc)

/-- Tags with the same attributes and items have the same outline. -/
theorem outlineTag_of_parts {name : String} {attrs attrs' : List Attribute} {is js : List Item}
    (hattrs : SameAttrs id attrs attrs') (his : SameItems id is js) (s s' t t' : Span) :
    outlineTag id ⟨name, attrs', some ⟨js, s'⟩, t'⟩ =
      outlineTag id ⟨name, attrs, some ⟨is, s⟩, t⟩ := by
  rw [outlineTag, outlineTag, outlineBody, outlineBody, outlineBlock, outlineBlock, hattrs, his]

/-- The same tokens stand for the same tags. -/
theorem ShowsTag.alike {ts ts' : List Token} (h : ShowsTag below ts tag)
    (h' : ShowsTag below' ts' tag') (hts : ts'.map Token.lexeme = ts.map Token.lexeme)
    (hbelow : SameItems id below below') : outlineTag id tag' = outlineTag id tag := by
  induction h generalizing ts' tag' with
  | last hh hb inner span =>
    cases h' with
    | last hh' hb' inner' span' =>
      obtain ⟨hhs, hbs⟩ := head_unique hh' hh hb'.pastHead hb.pastHead hts
      rw [headName_of_lexemes hhs]
      exact outlineTag_of_parts (sameAttrs_of_lexemes hhs)
        ((sameItems_of_lexemes hbs).append hbelow) _ _ _ _
    | @colon hs' c us child hh' hc only inner' span' =>
      obtain ⟨-, hrest⟩ := head_unique hh' hh (pastHead_colon hc us) hb.pastHead hts
      exact absurd hrest.symm (hb.ne_colon hc)
  | colon hh hc only inner span ih =>
    cases h' with
    | last hh' hb' inner' span' =>
      obtain ⟨-, hrest⟩ := head_unique hh' hh hb'.pastHead (pastHead_colon hc _) hts
      exact absurd hrest (hb'.ne_colon hc)
    | @colon hs' c us child hh' hc' only' inner' span' =>
      obtain ⟨hhs, hrest⟩ := head_unique hh' hh (pastHead_colon hc' us) (pastHead_colon hc _) hts
      rw [headName_of_lexemes hhs]
      have hchild := ih only' (List.cons.inj hrest).2
      refine outlineTag_of_parts (sameAttrs_of_lexemes hhs) (.cons ?_ sameItems_nil) _ _ _ _
      rw [outlineItem, outlineItem, hchild]

end Tags

/-! ## Outlines -/

/-- The tokens of a tag start as a tag does. -/
theorem ShowsTag.startsTag {below : List Item} {ts : List Token} {tag : Tag}
    (h : ShowsTag below ts tag) : ∃ t ∈ ts.head?, t.kind.startsTag = true := by
  cases h with
  | last hh | colon hh =>
    obtain ⟨ht, -⟩ := hh
    exact ⟨_, rfl, ht.kind⟩

/-- A tag has no tokens like this one alone. -/
theorem ShowsTag.ne_single {below : List Item} {ts : List Token} {tag : Tag} {l : Lexeme}
    (h : ShowsTag below ts tag) (hl : l.kind.startsTag = false) :
    ts.map Token.lexeme ≠ [l] := by
  intro hts
  obtain ⟨t, ht, hk⟩ := h.startsTag
  obtain ⟨us, rfl⟩ := List.head?_eq_some_iff.1 ht
  obtain ⟨rfl, -⟩ := List.cons.inj hts
  exact absurd (hk.symm.trans hl) (by simp)

/-- A line of a head and a body stands for a tag, which holds the lines nested below. -/
theorem Shows.of_tag {a : Bool} {l : OpeningLine} {g f : Forest OpeningLine} {is : List Item}
    {hs bs : List Token} (h : Shows a (.cons l g f) is) (hl : l.content = hs ++ bs)
    (hh : IsHead hs) (hb : IsBody bs) : ∃ below more inner span,
      is = .tag ⟨headName hs, hs.filterMap Token.attribute?,
        some ⟨bs.filterMap Token.bodyText? ++ below, inner⟩, span⟩ :: more ∧ Shows false f more ∧
      (g = .nil ∧ below = [] ∨ ∃ js s, below = [.block ⟨js, s⟩] ∧ Shows false g js) := by
  have hsingle {t : Token} (ht : l.content = [t]) : t.kind.startsTag = true := by
    obtain ⟨hstart, -⟩ := hh
    obtain ⟨rfl, -⟩ := List.cons.inj (ht.symm.trans hl)
    exact hstart.kind
  cases h with
  | text ht hlex | comment ht hlex =>
    have hk := hsingle ht
    simp [Token.kind, hlex, Lexeme.kind, Kind.startsTag] at hk
  | tag htag hmore =>
    obtain ⟨inner, span, rfl⟩ := (hl ▸ htag).of_body hh hb
    exact ⟨_, _, inner, span, rfl, hmore, .inl ⟨rfl, rfl⟩⟩
  | nested _ hbelow s htag hmore =>
    obtain ⟨inner, span, rfl⟩ := (hl ▸ htag).of_body hh hb
    exact ⟨_, _, inner, span, rfl, hmore, .inr ⟨_, s, rfl, hbelow⟩⟩

/-- Where a text stands does not change what it is. -/
theorem textItems_alike (a : Bool) (value : String) (s s' : Span) :
    SameItems id (textItems a value s) (textItems a value s') := by
  rw [textItems, textItems]
  refine .append ?_ ?_
  · cases a
    · exact sameItems_nil
    · exact .cons rfl sameItems_nil
  · split
    · exact sameItems_nil
    · exact .cons rfl sameItems_nil

theorem Forest.map_eq_nil_iff {α β : Type} {e : α → β} {f : Forest α} :
    f.map e = nil ↔ f = nil := by
  cases f <;> simp [map]

/-- What has the shape of a first line, the lines below it and those after it. -/
theorem exists_of_shape {l : OpeningLine} {below more g : Forest OpeningLine}
    (h : g.map OpeningLine.shape = (Forest.cons l below more).map OpeningLine.shape) :
    ∃ l' below' more', g = .cons l' below' more' ∧
      l'.content.map Token.lexeme = l.content.map Token.lexeme ∧
      below'.map OpeningLine.shape = below.map OpeningLine.shape ∧
      more'.map OpeningLine.shape = more.map OpeningLine.shape := by
  cases g with
  | nil => simp [Forest.map] at h
  | cons l' below' more' =>
    obtain ⟨hl, hbelow, hmore⟩ := Forest.cons.inj h
    exact ⟨l', below', more', rfl, congrArg Prod.snd hl, hbelow, hmore⟩

/-- Outlines of one shape stand for the same items. -/
theorem Shows.alike {a : Bool} {f g : Forest OpeningLine} {is js : List Item} (h : Shows a f is)
    (h' : Shows a g js) (hfg : g.map OpeningLine.shape = f.map OpeningLine.shape) :
    SameItems id is js := by
  induction h generalizing g js with
  | nil =>
    obtain rfl := Forest.map_eq_nil_iff.1 hfg
    cases h'
    rfl
  | text hl ht more ih =>
    obtain ⟨l', below', more', rfl, hcontent, hbelow, hmore⟩ := exists_of_shape hfg
    rw [hl, List.map_singleton, ht] at hcontent
    cases h' with
    | text hl' ht' h' =>
      obtain rfl : _ = _ := by simpa [hl', ht'] using hcontent
      exact (textItems_alike _ _ _ _).append (ih h' hmore)
    | comment hl' ht' => simp [hl', ht'] at hcontent
    | tag htag => exact absurd hcontent (htag.ne_single rfl)
    | nested hne => exact absurd (Forest.map_eq_nil_iff.1 hbelow) hne
  | comment hl ht more ih =>
    obtain ⟨l', below', more', rfl, hcontent, hbelow, hmore⟩ := exists_of_shape hfg
    rw [hl, List.map_singleton, ht] at hcontent
    cases h' with
    | text hl' ht' => simp [hl', ht'] at hcontent
    | comment hl' ht' h' =>
      obtain ⟨rfl, rfl⟩ : _ = _ ∧ _ = _ := by simpa [hl', ht'] using hcontent
      exact .cons rfl (ih h' hmore)
    | tag htag => exact absurd hcontent (htag.ne_single rfl)
    | nested hne => exact absurd (Forest.map_eq_nil_iff.1 hbelow) hne
  | tag htag more ih =>
    obtain ⟨l', below', more', rfl, hcontent, hbelow, hmore⟩ := exists_of_shape hfg
    cases h' with
    | text hl' ht' | comment hl' ht' =>
      rw [hl', List.map_singleton, ht'] at hcontent
      exact absurd hcontent.symm (htag.ne_single rfl)
    | tag htag' h' =>
      refine .cons ?_ (ih h' hmore)
      rw [outlineItem, outlineItem, htag.alike htag' hcontent rfl]
    | nested hne => exact absurd (Forest.map_eq_nil_iff.1 hbelow) hne
  | @nested _ l g js tag f is hne below span htag more ih ih' =>
    obtain ⟨l', below', more', rfl, hcontent, hbelow, hmore⟩ := exists_of_shape hfg
    cases h' with
    | @nested _ _ _ js' _ _ _ _ hjs span' htag' h' =>
      have hblock : SameItems id [.block ⟨js, span⟩] [.block ⟨js', span'⟩] := by
        refine .cons ?_ sameItems_nil
        rw [outlineItem, outlineItem, outlineBlock, outlineBlock, ih hjs hbelow]
      refine .cons ?_ (ih' h' hmore)
      rw [outlineItem, outlineItem, htag.alike htag' hcontent hblock]
    | _ => exact absurd (Forest.map_eq_nil_iff.1 hbelow.symm) hne

end SlotMarkup
