import SlotMarkup.Proofs.ElementForest
import SlotMarkup.Proofs.SlotWords

/-!
# Lines of slots

A line can be made only of slots, one directly after the other (`OpeningLine.OnlySlots`).
The tokens of slots are made of word characters, so all of the line is read as one name
(`content_of_onlySlots`), and there is one token of the scanner for all slots of the line.
This name is the token of a slot only if there is one slot on the line
(`index?_tokens`).
-/

namespace SlotMarkup

/-! ## Tokens in a row -/

namespace Slots

variable {s : Slots} {is : List Nat}

/-- The tokens of some slots, one directly after the other. -/
def tokens (s : Slots) (is : List Nat) : List Char := is.flatMap s.token

/-- Tokens in a row are one word. -/
theorem allWord_tokens (s : Slots) (is : List Nat) : AllWord (s.tokens is) := by
  intro c hc
  obtain ⟨i, -, hc⟩ := List.mem_flatMap.1 hc
  exact allWord_token i c hc

/-- Tokens in a row are cut into their slots, with nothing between. -/
theorem cut_tokens (h : ∀ i ∈ is, i < s.count) :
    s.cut (s.tokens is) = ⟨[], is.map fun i => (i, [])⟩ := by
  induction is with
  | nil => exact cut_nil
  | cons i is ih =>
    rw [tokens, List.flatMap_cons, cut_token_append (h i List.mem_cons_self)]
    change Cut.mk [] ((i, (s.cut (s.tokens is)).head) :: (s.cut (s.tokens is)).tail) = _
    rw [ih fun j hj => h j (List.mem_cons_of_mem _ hj), List.map_cons]

/-- Tokens in a row name their slots. -/
theorem tokens_injective {js : List Nat} (hi : ∀ i ∈ is, i < s.count)
    (hj : ∀ j ∈ js, j < s.count) (h : s.tokens is = s.tokens js) : is = js := by
  have hcut := cut_tokens hi
  rw [h, cut_tokens hj] at hcut
  have hmap := congrArg (fun c => c.tail.map Prod.fst) hcut
  simpa [Function.comp_def] using hmap.symm

/-- Several tokens in a row are no token. -/
theorem index?_tokens (h : ∀ i ∈ is, i < s.count) :
    s.index? (String.ofList (s.tokens is)) = if is.length = 1 then is.head? else none := by
  split
  · rename_i hone
    obtain ⟨i, rfl⟩ := List.length_eq_one_iff.1 hone
    refine index?_eq_some_iff.2 ⟨h i List.mem_cons_self, ?_⟩
    rw [String.toList_ofList, tokens, List.flatMap_cons, List.flatMap_nil, List.append_nil]
  · rename_i hone
    rw [Option.eq_none_iff_forall_ne_some]
    intro j hj
    obtain ⟨hlt, htoken⟩ := index?_eq_some_iff.1 hj
    -- A token is a row of one, and a row of tokens can be read in one way only.
    have hsingle : s.tokens is = s.tokens [j] := by
      rw [← String.toList_ofList (l := s.tokens is), htoken]
      simp [tokens]
    have hlist := tokens_injective h (by simpa using hlt) hsingle
    exact hone (by rw [hlist]; rfl)

theorem mark_prefix_tokens (hne : is ≠ []) : mark <+: s.tokens is := by
  cases is with
  | nil => exact absurd rfl hne
  | cons i is =>
    rw [tokens, List.flatMap_cons, token, List.append_assoc]
    exact List.prefix_append _ _

/-- Tokens in a row can be the name of a tag: none is as short as a keyword. -/
def tagName (s : Slots) (is : List Nat) (hne : is ≠ []) : TagName :=
  have hne' : s.tokens is ≠ [] := fun h => by
    have hle := (mark_prefix_tokens (s := s) hne).length_le
    rw [h] at hle
    exact absurd hle (by decide)
  { chars := s.tokens is
    head_word := ⟨_, List.head?_eq_some_head hne', allWord_tokens s is _ (List.head_mem hne')⟩
    last_word :=
      ⟨_, List.getLast?_eq_some_getLast hne', allWord_tokens s is _ (List.getLast_mem hne')⟩
    all_parts := fun c hc => isTagNamePart_of_isWord (allWord_tokens s is c hc)
    not_keyword := fun h => by
      have hshort : ∀ k ∈ keywords, k.toList.length < mark.length := by decide
      have hlt := hshort _ h
      rw [String.toList_ofList] at hlt
      exact absurd (mark_prefix_tokens (s := s) hne).length_le (Nat.not_le_of_lt hlt) }

end Slots

/-! ## Lines that are names -/

/-- A line that is only a name is cut into this name, whatever line break comes after it. -/
theorem lineContent_name {n : TagName} {p : Place} (hline : p.line = n.chars) (indent : Nat) :
    lineContent indent p =
      .ok ([.read (.tag (String.ofList n.chars)) p (p.drop n.chars.length)], p.nextLine) := by
  have hbreak := lineBreak_head p
  have hp := p.line_append_nextLine
  rw [hline] at hp
  generalize lineBreak p ++ p.nextLine.rest = ds at hp hbreak
  have hrest : (p.drop n.chars.length).rest = ds := by
    rw [Place.rest_drop, ← hp, List.drop_left]
  have hhead := tagHead_name hp.symm fun c hc => by rcases hbreak c hc with rfl | rfl <;> decide
  have hcolon : (p.drop n.chars.length).rest.head? ≠ some ':' := by
    rw [hrest]
    intro hc
    rcases hbreak _ hc with h | h <;> simp at h
  have hend : atLineEnd (p.drop n.chars.length) = true := by
    rw [atLineEnd, hrest]
    cases ds with
    | nil => rfl
    | cons d ds => rcases hbreak d rfl with rfl | rfl <;> rfl
  have honLine : p.OnLine (p.drop n.chars.length) :=
    Place.onLine_drop hp.symm fun c hc hn => n.no_feed (hn ▸ hc)
  obtain ⟨c, cs, hcs, hw⟩ := n.exists_cons
  have hp' : p.rest = c :: (cs ++ ds) := by rw [← hp, hcs, List.cons_append]
  rw [lineContent_of_isWord hp' hw, tagLine_body hhead hcolon, tagBody, if_pos hend,
    Scan.after_ok, honLine.2, List.append_nil]

/-! ## Lines of slots -/

/-- An opening line that is made only of the tokens of slots, one directly after the other,
    and of its indentation. -/
structure OpeningLine.OnlySlots (l : OpeningLine) (s : Slots) (is : List Nat) : Prop where
  line : (l.start.drop l.indent).line = s.tokens is
  ne_nil : is ≠ []
  lt : ∀ i ∈ is, i < s.count

theorem OpeningLine.OnlySlots.unique {l : OpeningLine} {s : Slots} {is js : List Nat}
    (h : l.OnlySlots s is) (h' : l.OnlySlots s js) : is = js :=
  Slots.tokens_injective h.lt h'.lt (h.line.symm.trans h'.line)

/-- All of a line of slots is read as one name. -/
theorem content_of_onlySlots {text : String} {lines : List OpeningLine}
    (h : openingLines text = .ok lines) {l : OpeningLine} (hl : l ∈ lines) {s : Slots}
    {is : List Nat} (hslots : l.OnlySlots s is) :
    l.content.map Token.lexeme = [.tag (String.ofList (s.tokens is))] := by
  have hname := lineContent_name (n := s.tagName is hslots.ne_nil) hslots.line l.indent
  obtain ⟨hcontent, -⟩ := Prod.mk.inj (Except.ok.inj ((lineContent_of_mem h hl).symm.trans hname))
  rw [hcontent]
  rfl

end SlotMarkup
