import SlotMarkup.Markup.View
import SlotMarkup.Proofs.ElementLines

/-!
# Forests of elements

A forest of elements is written with a line for each, the elements in another one
directly below it and indented by more, by the same width all of them
(`Forest.written`). What is parsed from such a text is the forest again.

* `opens_placed`: every line can be opened, as the enclosing lines are still open;
* `values_of_shows`: a tree in the shape of the lines stands for the forest;
* `Block.parse_written`: the round trip.
-/

namespace SlotMarkup

namespace Forest

section Map

variable {α β : Type}

/-- The forest of what its nodes are mapped to. -/
def map (g : α → β) : Forest α → Forest β
  | nil => nil
  | cons a below more => cons (g a) (below.map g) (more.map g)

@[simp] theorem toList_map (g : α → β) (f : Forest α) : (f.map g).toList = f.toList.map g := by
  induction f with
  | nil => rfl
  | cons a below more ih ih' => simp [map, toList, ih, ih']

/-- A list is in the shape of a forest if what it is mapped to is. -/
theorem exists_map_eq {g : α → β} {f : Forest β} {as : List α} (h : as.map g = f.toList) :
    ∃ f' : Forest α, f'.toList = as ∧ f'.map g = f := by
  induction f generalizing as with
  | nil => exact ⟨nil, (List.map_eq_nil_iff.1 h).symm, rfl⟩
  | cons b below more ih ih' =>
    rw [toList, List.map_eq_cons_iff] at h
    obtain ⟨a, as, rfl, rfl, h⟩ := h
    obtain ⟨bs, ms, rfl, hbs, hms⟩ := List.map_eq_append_iff.1 h
    obtain ⟨below', rfl, rfl⟩ := ih hbs
    obtain ⟨more', rfl, rfl⟩ := ih' hms
    exact ⟨cons a below' more', rfl, rfl⟩

end Map

/-! ## Writing -/

/-- The elements with the widths that their lines are indented by. -/
def placed (width : Nat) : Forest Element → Forest (Nat × Element)
  | nil => nil
  | cons e below more => cons (width, e) (below.placed (width + e.step + 1)) (more.placed width)

/-- The markup of a forest, with or without a line feed at its end. -/
def written (f : Forest Element) (final : Bool) : List Char :=
  joinLines ((f.placed 0).toList.map fun r => r.2.line r.1) ++ if final then ['\n'] else []

example :
    let ul : TagName :=
      ⟨['u', 'l'], ⟨'u', rfl, rfl⟩, ⟨'l', rfl, rfl⟩, List.all_eq_true.1 rfl, by decide⟩
    let li : TagName :=
      ⟨['l', 'i'], ⟨'l', rfl, rfl⟩, ⟨'i', rfl, rfl⟩, List.all_eq_true.1 rfl, by decide⟩
    let text : LineText := ⟨['a', ' ', 'b'], by decide, by decide, by decide⟩
    let items : Forest Element := .cons ⟨li, some text, 0⟩ .nil (.cons ⟨li, none, 0⟩ .nil .nil)
    (Forest.cons ⟨ul, none, 1⟩ items .nil).written true = "ul\n  li a b\n  li\n".toList := by
  decide

end Forest

/-- The node of an element with the nodes in it. -/
def Element.node (e : Element) (below : List Value) : Node :=
  let content :=
    (e.text.map fun t => Value.node (Node.text (String.ofList t.chars))).toList ++ below
  Node.make (String.ofList e.name.chars) (listContent content) none

namespace Forest

/-- The nodes of the roots of a forest. -/
def values : Forest Element → List Value
  | nil => []
  | cons e below more => .node (e.node below.values) :: more.values

/-- The tree of a forest: nothing, the only root, or a fragment of the roots. -/
def toValue (f : Forest Element) : Value :=
  match f.values with
  | [] => .undefined
  | [v] => v
  | vs => .node (Node.fragment vs)

end Forest

/-! ## Lines are opened -/

/-- A line closes all deeper ones, down to the one that it is beside. -/
theorem openLine_deeper {deeper levels : List Nat} {width : Nat} (first : Bool)
    (hdeeper : ∀ u ∈ deeper, width < u) (hlevels : levels.headD 0 = width) :
    ∃ ls, openLine (deeper ++ levels) first width = some (ls, levels) := by
  cases deeper with
  | nil =>
    rw [List.nil_append, openLine, hlevels]
    exact ⟨_, by rw [if_neg (Nat.lt_irrefl _), if_pos rfl]⟩
  | cons u deeper =>
    have hu := hdeeper u List.mem_cons_self
    have hkept : ((u :: deeper) ++ levels).dropWhile (width < ·) = levels := by
      rw [List.dropWhile_append_of_pos fun v hv => by simpa using hdeeper v hv]
      cases levels with
      | nil => rfl
      | cons v levels =>
        obtain rfl : v = width := hlevels
        rw [List.dropWhile_cons_of_neg (by simp)]
    rw [openLine]
    dsimp only
    rw [hkept, if_pos hlevels]
    have hhead : ((u :: deeper) ++ levels).headD 0 = u := rfl
    exact ⟨_, by rw [if_neg (by omega), if_neg (by omega)]⟩

/-- The lines of a forest can be opened one after the other, whatever comes after them can
    be opened beside its roots. -/
theorem opens_placed {f : Forest Element} {width : Nat} {inner : List Nat}
    (hinner : inner.headD 0 = width) {levels : List Nat} {first : Bool} {rest : List Nat}
    (hopen : f ≠ .nil → ∃ ls, openLine levels first width = some (ls, inner))
    (hrest : ∀ deeper, (∀ u ∈ deeper, width < u) → Opens (deeper ++ inner) false rest)
    (hnil : f = .nil → Opens levels first rest) :
    Opens levels first ((f.placed width).toList.map Prod.fst ++ rest) := by
  induction f generalizing width inner levels first rest with
  | nil => exact hnil rfl
  | cons e below more ih ih' =>
    obtain ⟨ls, hls⟩ := hopen (by simp)
    have hmore : ∀ deeper, (∀ u ∈ deeper, width < u) →
        Opens (deeper ++ inner) false ((more.placed width).toList.map Prod.fst ++ rest) :=
      fun deeper hdeeper => ih' hinner (fun _ => openLine_deeper false hdeeper hinner) hrest
        fun _ => hrest deeper hdeeper
    have hbelow : Opens inner false ((below.placed (width + e.step + 1)).toList.map Prod.fst ++
        ((more.placed width).toList.map Prod.fst ++ rest)) := by
      have hdeeper : ((width + e.step + 1) :: inner).headD 0 = width + e.step + 1 := rfl
      refine ih hdeeper (fun _ => ?_) (fun deeper hd => ?_) fun _ => hmore [] (by simp)
      · refine ⟨[.indent], ?_⟩
        rw [openLine]
        dsimp only
        rw [if_pos (by omega)]
      · rw [List.append_cons]
        refine hmore _ fun u hu => ?_
        rcases List.mem_append.1 hu with hu | hu
        · have := hd u hu
          omega
        · rw [List.mem_singleton.1 hu]
          omega
    refine ⟨ls, inner, hls, ?_⟩
    simpa [Forest.placed, Forest.toList] using hbelow

theorem opens_roots (f : Forest Element) :
    Opens [] true ((f.placed 0).toList.map Prod.fst) := by
  have hopen : f ≠ .nil → ∃ ls, openLine [] true 0 = some (ls, []) := fun _ => ⟨[], rfl⟩
  have hend : ∀ deeper : List Nat, (∀ u ∈ deeper, 0 < u) → Opens (deeper ++ []) false [] :=
    fun _ _ => trivial
  have hroots : ([] : List Nat).headD 0 = 0 := rfl
  have hnil : f = .nil → Opens [] true [] := fun _ => trivial
  simpa using opens_placed hroots hopen hend hnil

/-! ## Trees of elements -/

/-- Lines in the shape of a written forest are indented as it is. -/
theorem level_of_shape {f : Forest Element} {lines : Forest OpeningLine} {width : Nat}
    (h : lines.map OpeningLine.shape = (f.placed width).map Element.shape) :
    lines.Level width := by
  induction f generalizing lines width with
  | nil =>
    cases lines with
    | nil => trivial
    | cons => simp [Forest.map, Forest.placed] at h
  | cons e below more ih ih' =>
    cases lines with
    | nil => simp [Forest.map, Forest.placed] at h
    | cons l below' more' =>
      simp only [Forest.map, Forest.placed, Forest.cons.injEq] at h
      obtain ⟨hl, hbelow, hmore⟩ := h
      exact ⟨congrArg Prod.fst hl, ⟨_, by omega, ih hbelow⟩, ih' hmore⟩

theorem Element.isElement (e : Element) (below : List Value) :
    IsElement (.node (e.node below)) := by
  obtain ⟨c, cs, hcs, hw⟩ := e.name.exists_cons
  have hname : String.ofList e.name.chars ≠ fragmentTag := by
    intro h
    have hchars := congrArg String.toList h
    rw [String.toList_ofList, hcs] at hchars
    obtain ⟨rfl, -⟩ := List.cons.inj (hchars.trans (show fragmentTag.toList = ['['] by decide))
    simp [isWord] at hw
  exact ⟨_, rfl, by simpa [NodeOf.isFragment, Element.node, Node.make] using hname⟩

theorem Forest.isElement (f : Forest Element) : ∀ v ∈ f.values, IsElement v := by
  induction f with
  | nil => simp [Forest.values]
  | cons e below more _ ih =>
    intro v hv
    rcases List.mem_cons.1 hv with rfl | hv
    · exact e.isElement _
    · exact ih v hv

/-- No attribute and no shorthand comes before a text. -/
theorem IsParts.eq_nil {ps : List Token} (h : IsParts ps)
    (hps : ∀ t ∈ ps.head?, t.kind = .text) : ps = [] := by
  cases h with
  | nil => rfl
  | shorthand ht =>
    have := hps _ rfl
    rcases ht with ht | ht <;> simp [ht] at this
  | list ho =>
    have := hps _ rfl
    simp [ho] at this

/-- The texts among the tokens of an element are its own text. -/
theorem itemsValues_body {e : Element} {bs : List Token} (hbs : bs.map Token.lexeme =
      (e.text.map fun t => Lexeme.text (String.ofList t.chars)).toList) :
    itemsValues (bs.filterMap Token.bodyText?) =
      (e.text.map fun t => Value.node (Node.text (String.ofList t.chars))).toList := by
  cases he : e.text with
  | none =>
    rw [he] at hbs
    rw [List.map_eq_nil_iff.1 hbs]
    rfl
  | some t =>
    rw [he] at hbs
    obtain ⟨u, us, rfl, hu, hus⟩ := List.map_eq_cons_iff.1 hbs
    rw [List.map_eq_nil_iff.1 hus, List.filterMap_cons, Token.bodyText?, hu]
    rfl

/-- The tokens of an element are those of one tag, with the text of the element before the
    items nested below it. -/
theorem tagValue_of_showsTag {e : Element} {ts : List Token} {tag : Tag} {js : List Item}
    (h : ShowsTag js ts tag) (hts : ts.map Token.lexeme = e.lexemes)
    (hjs : ∀ v ∈ itemsValues js, IsElement v) :
    tagValue tag = .node (e.node (itemsValues js)) := by
  have hkinds {u : Token} (hu : u.lexeme ∈
      (e.text.map fun t => Lexeme.text (String.ofList t.chars)).toList) : u.kind = .text := by
    cases he : e.text with
    | none => simp [he] at hu
    | some t =>
      rw [he] at hu
      rw [Token.kind, List.mem_singleton.1 hu]
      rfl
  cases h with
  | @colon hs c cs child hh hc only inner span =>
    -- There is no colon among the tokens.
    have hmem : c.lexeme ∈ e.lexemes := by
      rw [← hts]
      exact List.mem_map_of_mem (by simp)
    rcases List.mem_cons.1 hmem with hl | hl
    · rw [Token.kind, hl] at hc
      simp [Lexeme.kind] at hc
    · simp [hkinds hl] at hc
  | @last hs bs hh hb inner span =>
    obtain @⟨t, ps, -, more⟩ := hh
    rw [List.cons_append, List.map_cons, Element.lexemes] at hts
    obtain ⟨ht, hrest⟩ := List.cons.inj hts
    have hparts : ps = [] := more.eq_nil fun u hu => hkinds <| by
      rw [← hrest]
      exact List.mem_map_of_mem (List.mem_append_left _ (List.mem_of_mem_head? hu))
    subst hparts
    have hbody := itemsValues_body hrest
    rw [List.nil_append] at hbody
    have hattrs : [t].filterMap Token.attribute? = [] := by
      rw [List.filterMap_cons, Token.attribute?, ht]
      rfl
    have htext : ∀ v ∈ (e.text.map fun t => Value.node (Node.text (String.ofList t.chars))).toList,
        IsElement v := by
      intro v hv
      cases he : e.text with
      | none => simp [he] at hv
      | some t =>
        rw [he] at hv
        exact ⟨_, List.mem_singleton.1 hv, rfl⟩
    rw [tagValue, bodyValues, blockValues, itemsValues_append, hbody, hattrs, headName_tag ht,
      contentOf_gather]
    · rfl
    · intro v hv
      rcases List.mem_append.1 hv with hv | hv
      · exact htext v hv
      · exact hjs v hv

/-- A tree in the shape of a written forest stands for the forest. -/
theorem values_of_shows {f : Forest Element} {lines : Forest OpeningLine} {width : Nat}
    {a : Bool} {is : List Item} (h : Shows a lines is)
    (hshape : lines.map OpeningLine.shape = (f.placed width).map Element.shape) :
    itemsValues is = f.values := by
  induction f generalizing lines width a is with
  | nil =>
    cases h with
    | nil => rfl
    | _ => simp [Forest.map, Forest.placed] at hshape
  | cons e below more ih ih' =>
    cases lines with
    | nil => simp [Forest.map, Forest.placed] at hshape
    | cons l below' more' =>
      simp only [Forest.map, Forest.placed, Forest.cons.injEq] at hshape
      obtain ⟨hl, hbelow, hmore⟩ := hshape
      have hlex : l.content.map Token.lexeme = e.lexemes := congrArg Prod.snd hl
      cases h with
      | text ht hlt => simp [ht, hlt, Element.lexemes] at hlex
      | comment ht hlt => simp [ht, hlt, Element.lexemes] at hlex
      | tag ht hshows =>
        have htag := tagValue_of_showsTag ht hlex (by simp [itemsValues])
        have hnone : below.values = [] := by
          rw [← ih (a := false) .nil hbelow]
          rfl
        rw [itemsValues, itemValues, htag, ih' hshows hmore, Forest.values, hnone]
        rfl
      | nested _ hjs span ht hshows =>
        have hvalues := ih hjs hbelow
        have hblock (js : List Item) : itemsValues [.block ⟨js, span⟩] = itemsValues js := by
          simp [itemsValues, itemValues, blockValues]
        have htag := tagValue_of_showsTag ht hlex (by
          rw [hblock, hvalues]
          exact below.isElement)
        rw [itemsValues, itemValues, htag, ih' hshows hmore, Forest.values, hblock, hvalues]
        rfl

/-! ## The round trip -/

/-- What is parsed from the markup of a forest of elements is the forest. -/
theorem Block.parse_written (f : Forest Element) (final : Bool) :
    ∃ block, Block.parse (String.ofList (f.written final)) = .ok block ∧
      block.toValue = f.toValue := by
  have hrows : IsRows ((f.placed 0).toList.map fun r => r.2.line r.1)
      (Place.ofText (String.ofList (f.written final))).rest := by
    rw [Place.ofText, String.toList_ofList, Forest.written]
    cases final with
    | false => exact .inl (List.append_nil _)
    | true => exact .inr rfl
  have hfirst : ∀ r ∈ (f.placed 0).toList.head?, r.1 ≤ ([] : List Nat).headD 0 := by
    cases f with
    | nil => simp [Forest.placed, Forest.toList]
    | cons =>
      rintro r ⟨rfl⟩
      exact Nat.le_refl 0
  obtain ⟨ms, lines, hms, hm, hlines, hshapes⟩ :=
    marked_of_rows (b := true) hrows (opens_roots f) fun _ => hfirst
  obtain ⟨block, hblock, lines', g, hlines', hg, hlevel, hshows⟩ := shows_of_scanMarked hms hm
  obtain rfl := Except.ok.inj (hlines'.symm.trans hlines)
  refine ⟨block, hblock, ?_⟩
  -- The outline of the lines is the forest.
  obtain ⟨g', hg', hshape⟩ := Forest.exists_map_eq (hshapes.trans (Forest.toList_map _ _).symm)
  obtain rfl := Forest.eq_of_toList (level_of_shape hshape) hlevel (hg'.trans hg.symm)
  have hvalues : blockValues block = f.values := by
    rw [← values_of_shows hshows hshape]
    cases block
    rw [blockValues]
  rw [Block.toValue, hvalues, Forest.toValue]
  cases f.values with
  | nil => rfl
  | cons v vs => cases vs <;> rfl

end SlotMarkup
