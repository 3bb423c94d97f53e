import SlotMarkup.Proofs.LongerLines
import SlotMarkup.Proofs.OutlineShapes

/-!
# One text after the other

Two accepted texts with a line feed between them are an accepted text, and what is parsed from
it are the items of both. Only where the last line at the root of the first text and the first
line of the second are both lines of text, a line feed comes between them, as it does between
all lines of text that follow each other.

The opening lines are those of both texts (`openingLines_append`), so they can come one after
the other (`Accepted.append`), and their outline is that of the first text with that of the
second beside it (`Shows.append`).

* `Block.parse_append`: what is parsed from the texts together.
-/

namespace SlotMarkup

/-! ## Accepted lines -/

section Accepted

variable {levels : List Nat} {first afterText : Bool} {ls ls' la lb : List OpeningLine}

/-- Whether lines can come one after the other depends on their traits. -/
theorem Accepted.congr (h : Accepted levels first afterText ls)
    (htraits : ls'.map OpeningLine.traits = ls.map OpeningLine.traits) :
    Accepted levels first afterText ls' := by
  induction ls generalizing levels first afterText ls' with
  | nil =>
    obtain rfl := List.map_eq_nil_iff.1 htraits
    trivial
  | cons l ls ih =>
    obtain ⟨l', ls', rfl, hl, hls⟩ := List.map_eq_cons_iff.1 htraits
    obtain ⟨hmix, htext, hshape⟩ : _ ∧ l'.isText = l.isText ∧ l'.shape = l.shape := by
      simpa [OpeningLine.traits] using hl
    have hindent : l'.indent = l.indent := congrArg Prod.fst hshape
    obtain ⟨hmixed, hplace, opening, inner, hopen, hmore⟩ := h
    exact ⟨hmix.trans hmixed, hindent ▸ hplace, opening, inner, hindent ▸ hopen,
      htext ▸ ih hmore hls⟩

/-- The enclosing lines are indented. -/
theorem openLine_levels {inner : List Nat} {indent : Nat} {opening : List Lexeme}
    (h : openLine levels first indent = some (opening, inner)) (hlevels : ∀ n ∈ levels, 0 < n) :
    ∀ n ∈ inner, 0 < n := by
  rcases openLine_cases h with ⟨hlt, -, rfl⟩ | ⟨-, -, rfl⟩ | ⟨m, -, -, -, rfl, -⟩
  · exact List.forall_mem_cons.2 ⟨Nat.lt_of_le_of_lt (Nat.zero_le _) hlt, hlevels⟩
  · exact hlevels
  · exact fun n hn => hlevels n (List.mem_of_mem_drop hn)

/-- An unindented line closes all others, so after it come the lines of a text of their own. -/
theorem Accepted.after (h : Accepted [] true true lb) (hlevels : ∀ n ∈ levels, 0 < n) :
    Accepted levels first afterText lb := by
  cases lb with
  | nil => trivial
  | cons l lb =>
    obtain ⟨hmix, hplace, opening, inner, hopen, hmore⟩ := h
    have hindent : l.indent = 0 := Nat.le_zero.1 (hplace rfl)
    rw [hindent] at hopen
    obtain ⟨-, rfl⟩ := Prod.mk.inj (Option.some.inj hopen)
    have hroot : ([] : List Nat).headD 0 = 0 := rfl
    obtain ⟨opening', hopen'⟩ := openLine_deeper first hlevels hroot
    rw [List.append_nil, ← hindent] at hopen'
    exact ⟨hmix, fun _ => by omega, opening', [], hopen', hmore⟩

/-- The first line is not indented. -/
theorem Accepted.indent_head (h : Accepted [] first true ls) : ∀ l ∈ ls.head?, l.indent = 0 := by
  cases ls with
  | nil => simp
  | cons l ls =>
    rintro m ⟨rfl⟩
    exact Nat.le_zero.1 (h.2.1 rfl)

/-- Accepted lines with others behind them that are accepted by themselves are accepted. -/
theorem Accepted.append (ha : Accepted levels first afterText la)
    (hlevels : ∀ n ∈ levels, 0 < n) (hb : Accepted [] true true lb) :
    Accepted levels first afterText (la ++ lb) := by
  induction la generalizing levels first afterText with
  | nil => exact hb.after hlevels
  | cons l la ih =>
    obtain ⟨hmix, hplace, opening, inner, hopen, hmore⟩ := ha
    exact ⟨hmix, hplace, opening, inner, hopen, ih hmore (openLine_levels hopen hlevels)⟩

end Accepted

/-! ## Forests -/

namespace Forest

section Append

variable {α : Type}

/-- One forest beside another one. -/
def append : Forest α → Forest α → Forest α
  | nil, g => g
  | cons a below more, g => cons a below (more.append g)

/-- The roots of a forest. -/
def roots : Forest α → List α
  | nil => []
  | cons a _ more => a :: more.roots

/-- The elements of two forests are those of the first, then those of the second. -/
theorem toList_append (f g : Forest α) : (f.append g).toList = f.toList ++ g.toList := by
  induction f with
  | nil => rfl
  | cons a below more _ ih => simp [append, toList, ih]

theorem head?_roots (f : Forest α) : f.roots.head? = f.toList.head? := by
  cases f <;> rfl

theorem mem_of_mem_roots {a : α} {f : Forest α} (h : a ∈ f.roots) : a ∈ f.toList := by
  induction f with
  | nil => exact h
  | cons b below more _ ih =>
    rcases List.mem_cons.1 h with rfl | h
    · exact List.mem_cons_self
    · exact List.mem_cons_of_mem _ (List.mem_append_right _ (ih h))

end Append

variable {width : Nat} {f g : Forest OpeningLine}

/-- Forests at one width are a forest at this width. -/
theorem Level.append (hf : f.Level width) (hg : g.Level width) : (f.append g).Level width := by
  induction f with
  | nil => exact hg
  | cons l below more _ ih =>
    obtain ⟨hl, hbelow, hmore⟩ := hf
    exact ⟨hl, hbelow, ih hmore⟩

/-- Lines of the same shape are at the same width. -/
theorem Level.of_shape (hf : f.Level width)
    (h : g.map OpeningLine.shape = f.map OpeningLine.shape) : g.Level width := by
  induction f generalizing width g with
  | nil =>
    obtain rfl := map_eq_nil_iff.1 h
    trivial
  | cons l below more ih ih' =>
    cases g with
    | nil => simp [map] at h
    | cons l' below' more' =>
      obtain ⟨hl, hbelow, hmore⟩ := Forest.cons.inj h
      obtain ⟨hindent, ⟨v, hv, hlevel⟩, hlevel'⟩ := hf
      exact ⟨(congrArg Prod.fst hl).trans hindent, ⟨v, hv, ih hlevel hbelow⟩, ih' hlevel' hmore⟩

/-- The roots are the lines that are indented as the first one is. -/
theorem Level.filter_eq_roots (h : f.Level width) :
    f.toList.filter (·.indent == width) = f.roots := by
  induction f with
  | nil => rfl
  | cons l below more _ ih =>
    obtain ⟨hl, ⟨v, hv, hbelow⟩, hmore⟩ := h
    have hnone : below.toList.filter (·.indent == width) = [] := by
      refine List.filter_eq_nil_iff.2 fun m hm => ?_
      have hle := hbelow.le_indent m hm
      simpa using by omega
    rw [toList, List.filter_cons_of_pos (by simpa using hl), List.filter_append, hnone, ih hmore]
    rfl

end Forest

/-! ## Outlines -/

/-- Whether a line is one of text can be told from its tokens. -/
def OpeningLine.Told (l : OpeningLine) : Prop :=
  l.isText = true ↔ ∃ t ∈ l.content.head?, t.kind = .text

/-- The tokens of each line tell whether it is a text. -/
theorem told_of_mem {p : Place} {ls : List OpeningLine} (h : openingLinesFrom p = .ok ls) :
    ∀ l ∈ ls, l.Told := by
  intro l hl
  rcases lineContent_cases (lineContent_of_mem h hl) with
    ⟨hs, t, ht, hk⟩ | ⟨hs, ⟨t, ht, hk⟩, -⟩ | ⟨hs, hc⟩
  · exact iff_of_true hs ⟨t, by rw [ht]; rfl, hk⟩
  · refine iff_of_false (by rw [OpeningLine.isText, hs]; simp) ?_
    rw [ht]
    rintro ⟨u, ⟨rfl⟩, hu⟩
    simp [hk] at hu
  · refine iff_of_false (by rw [OpeningLine.isText, hs]; simp) ?_
    rintro ⟨u, hu, hk⟩
    obtain ⟨v, hv, hstart⟩ := hc.head_kind []
    rw [List.append_nil] at hv
    rw [Option.mem_unique hv hu, hk] at hstart
    simp [Kind.startsTag] at hstart

section Told

variable {l : OpeningLine} {t : Token}

theorem OpeningLine.Told.text {value : String} (h : l.Told) (hl : l.content = [t])
    (ht : t.lexeme = .text value) : l.isText = true :=
  h.2 ⟨t, by rw [hl]; rfl, by rw [Token.kind, ht]; rfl⟩

/-- A line that starts with another token is no text. -/
theorem OpeningLine.Told.not_text (h : l.Told) (hl : ∃ t ∈ l.content.head?, t.kind ≠ .text) :
    l.isText = false := by
  obtain ⟨t, ht, hk⟩ := hl
  refine Bool.eq_false_iff.2 fun htext => ?_
  obtain ⟨u, hu, hk'⟩ := h.1 htext
  exact hk (Option.mem_unique ht hu ▸ hk')

theorem OpeningLine.Told.comment {value : String} {buffered : Bool} (h : l.Told)
    (hl : l.content = [t]) (ht : t.lexeme = .comment value buffered) : l.isText = false :=
  h.not_text ⟨t, by rw [hl]; rfl, by rw [Token.kind, ht]; simp [Lexeme.kind]⟩

/-- A line with a tag is no text. -/
theorem OpeningLine.Told.tag {below : List Item} {tag : Tag} (h : l.Told)
    (htag : ShowsTag below l.content tag) : l.isText = false := by
  obtain ⟨t, ht, hstart⟩ := htag.startsTag
  refine h.not_text ⟨t, ht, fun hk => ?_⟩
  simp [hk, Kind.startsTag] at hstart

end Told

/-- Whether the last of some lines is one of text, where `before` says that of the line before
    them. -/
def endsText (before : Bool) (ls : List OpeningLine) : Bool :=
  (ls.getLast?.map OpeningLine.isText).getD before

theorem endsText_cons (before : Bool) (l : OpeningLine) (ls : List OpeningLine) :
    endsText before (l :: ls) = endsText l.isText ls := by
  rw [endsText, endsText, List.getLast?_cons]
  cases ls.getLast? <;> rfl

section Shows

variable {a : Bool} {f g : Forest OpeningLine} {is js : List Item}

/-- What the lines of two forests beside each other stand for. -/
theorem Shows.append (hf : Shows a f is) (htold : ∀ l ∈ f.roots, l.Told)
    (hg : Shows (endsText a f.roots) g js) : Shows a (f.append g) (is ++ js) := by
  induction hf with
  | nil => exact hg
  | text hl ht more ih =>
    obtain ⟨hfirst, htold⟩ := List.forall_mem_cons.1 htold
    rw [Forest.roots, endsText_cons, hfirst.text hl ht] at hg
    rw [List.append_assoc]
    exact .text hl ht (ih htold hg)
  | comment hl ht more ih =>
    obtain ⟨hfirst, htold⟩ := List.forall_mem_cons.1 htold
    rw [Forest.roots, endsText_cons, hfirst.comment hl ht] at hg
    exact .comment hl ht (ih htold hg)
  | tag htag more ih =>
    obtain ⟨hfirst, htold⟩ := List.forall_mem_cons.1 htold
    rw [Forest.roots, endsText_cons, hfirst.tag htag] at hg
    exact .tag htag (ih htold hg)
  | nested hne below span htag more ih ih' =>
    obtain ⟨hfirst, htold⟩ := List.forall_mem_cons.1 htold
    rw [Forest.roots, endsText_cons, hfirst.tag htag] at hg
    exact .nested hne below span htag (ih' htold hg)

/-- A line feed comes before a first line of text, if one of text was before it. -/
theorem Shows.afterText (h : Shows false g js) (htold : ∀ l ∈ g.roots, l.Told) (a : Bool) :
    ∃ s, Shows a g ((if a && g.roots.head?.any OpeningLine.isText then [.text ⟨"\n", s⟩] else []) ++
      js) := by
  have hsame (hno : g.roots.head?.any OpeningLine.isText = false) (hshows : Shows a g js) :
      ∃ s, Shows a g ((if a && g.roots.head?.any OpeningLine.isText then [.text ⟨"\n", s⟩]
        else []) ++ js) := ⟨.nowhere, by simpa [hno] using hshows⟩
  cases h with
  | nil => exact hsame rfl .nil
  | @text _ l t value f is hl ht more =>
    have htext : l.isText = true := (htold l List.mem_cons_self).text hl ht
    refine ⟨.point t.span.start, ?_⟩
    have hshows : Shows a (.cons l .nil f) (textItems a value t.span ++ is) := .text hl ht more
    have hfeed : textItems a value t.span = (if a then [.text ⟨"\n", .point t.span.start⟩] else []) ++
        textItems false value t.span := rfl
    rw [hfeed, List.append_assoc] at hshows
    rwa [Forest.roots, List.head?_cons, Option.any_some, htext, Bool.and_true]
  | @comment _ l _ _ _ _ _ hl ht more =>
    have htext : l.isText = false := (htold l List.mem_cons_self).comment hl ht
    exact hsame htext (.comment hl ht more)
  | @tag _ l _ _ _ htag more =>
    have htext : l.isText = false := (htold l List.mem_cons_self).tag htag
    exact hsame htext (.tag htag more)
  | @nested _ l _ _ _ _ _ hne below span htag more =>
    have htext : l.isText = false := (htold l List.mem_cons_self).tag htag
    exact hsame htext (.nested hne below span htag more)

end Shows

/-! ## Texts -/

/-- Whether the last line at the root is one of text. -/
def endsWithText (lines : List OpeningLine) : Bool :=
  ((lines.filter (·.indent == 0)).getLast?).any OpeningLine.isText

/-- Whether the first line is one of text. -/
def startsWithText (lines : List OpeningLine) : Bool := lines.head?.any OpeningLine.isText

/-- Whether a text ends with a text is told by the last of its roots. -/
theorem endsWithText_eq {f : Forest OpeningLine} (h : f.Level 0) :
    endsWithText f.toList = endsText false f.roots := by
  rw [endsWithText, endsText, h.filter_eq_roots]
  cases f.roots.getLast? <;> rfl

/-- Two accepted texts with a line feed between them are an accepted text. What is parsed from
    it are, but for the spans, the items of the first text and those of the second, with one
    more line feed between them if the last line at the root of the first text and the first
    line of the second are both lines of text. -/
theorem Block.parse_append {a b : String} {ba bb : Block} (ha : Block.parse a = .ok ba)
    (hb : Block.parse b = .ok bb) : ∃ la lb block, openingLines a = .ok la ∧
      openingLines b = .ok lb ∧ Block.parse (a ++ "\n" ++ b) = .ok block ∧
      outline id block.nodes = outline id (ba.nodes ++
        (if endsWithText la && startsWithText lb then [.text ⟨"\n", .nowhere⟩] else []) ++
        bb.nodes) := by
  obtain ⟨la, f, hla, haccepted, rfl, hlevel, hshows⟩ := accepted_of_parse ha
  obtain ⟨lb, g, hlb, haccepted', rfl, hlevel', hshows'⟩ := accepted_of_parse hb
  obtain ⟨ls, hls, htraits⟩ := openingLines_append hla hlb haccepted'.indent_head
  -- The lines of both texts can come one after the other.
  have hboth := (haccepted.append (by simp) haccepted').congr htraits
  obtain ⟨block, h, hblock, hh, hhlevel, hhshows⟩ := shows_of_accepted hls hboth
  have hshape : ls.map OpeningLine.shape = ((f.append g).map OpeningLine.shape).toList := by
    rw [Forest.toList_map, Forest.toList_append]
    have hshapes := congrArg (List.map fun t => t.2.2) htraits
    rwa [List.map_map, List.map_map] at hshapes
  obtain ⟨h', hh', hmap⟩ := Forest.exists_map_eq hshape
  obtain rfl := Forest.eq_of_toList ((hlevel.append hlevel').of_shape hmap) hhlevel
    (hh'.trans hh.symm)
  -- Their outline is that of the first text with that of the second beside it.
  have htold : ∀ l ∈ f.roots, l.Told := fun l hl => told_of_mem hla l (Forest.mem_of_mem_roots hl)
  have htold' : ∀ l ∈ g.roots, l.Told := fun l hl => told_of_mem hlb l (Forest.mem_of_mem_roots hl)
  obtain ⟨s, hafter⟩ := hshows'.afterText htold' (endsText false f.roots)
  have hsame := (hshows.append htold hafter).alike hhshows hmap
  refine ⟨_, _, block, hla, hlb, hblock, ?_⟩
  rw [hsame, endsWithText_eq hlevel, startsWithText, ← g.head?_roots, List.append_assoc,
    outline_append, outline_append, outline_append, outline_append]
  congr 2
  split <;> rfl

/-- A line of text comes before blank lines at the end of the first text, and another one after
    a blank line of the second. -/
theorem Block.parse_append_texts : ∃ ba bb la lb block,
    Block.parse "p: b.\n\n  x\n// c\n| a\n  \n" = .ok ba ∧ Block.parse "\n<b>\np\n  | d" = .ok bb ∧
    openingLines "p: b.\n\n  x\n// c\n| a\n  \n" = .ok la ∧
    openingLines "\n<b>\np\n  | d" = .ok lb ∧
    endsWithText la = true ∧ startsWithText lb = true ∧
    Block.parse "p: b.\n\n  x\n// c\n| a\n  \n\n\n<b>\np\n  | d" = .ok block ∧
    outline id block.nodes =
      outline id (ba.nodes ++ [.text ⟨"\n", .nowhere⟩] ++ bb.nodes) := by
  have ha : (Block.parse "p: b.\n\n  x\n// c\n| a\n  \n").toOption.isSome = true := by
    decide +kernel
  have hb : (Block.parse "\n<b>\np\n  | d").toOption.isSome = true := by decide +kernel
  have hends : (openingLines "p: b.\n\n  x\n// c\n| a\n  \n").toOption.map endsWithText =
      some true := by
    decide +kernel
  have hstarts : (openingLines "\n<b>\np\n  | d").toOption.map startsWithText = some true := by
    decide +kernel
  obtain ⟨ba, ha⟩ := Option.isSome_iff_exists.1 ha
  obtain ⟨bb, hb⟩ := Option.isSome_iff_exists.1 hb
  obtain ⟨la, lb, block, hla, hlb, hblock, h⟩ :=
    Block.parse_append (ok_of_toOption ha) (ok_of_toOption hb)
  have hends : endsWithText la = true := by
    rw [hla] at hends
    exact Option.some.inj hends
  have hstarts : startsWithText lb = true := by
    rw [hlb] at hstarts
    exact Option.some.inj hstarts
  rw [hends, hstarts] at h
  exact ⟨ba, bb, la, lb, block, ok_of_toOption ha, ok_of_toOption hb, hla, hlb, hends, hstarts,
    hblock, h⟩

end SlotMarkup
