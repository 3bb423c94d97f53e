import SlotMarkup.Proofs.Lookahead
import SlotMarkup.Proofs.SourceSpans

/-!
# Spans in a tree

Every node of the tree of a text carries the span it was read from, and these spans nest as the
nodes do (`Item.Nests`): what is in a node lies in the span of the node, and siblings lie one
behind the other. It follows from the order of the tokens. What is read between two cursors lies in
a row between the tokens passed last at each of them (`Span.Row`, `Cursor.ReadsRow`), and a
node's span goes from the first token of it to the last.

* `Reads.row`: one case for each rule of the grammar;
* `Block.parse_nests`: the tree of a text shorter than 4 GiB.
-/

namespace SlotMarkup

/-! ## Rows of spans -/

namespace Span

/-- A span of a text of `n` bytes. -/
def Fits (s : Span) (n : Nat) : Prop := s.start ≤ s.stop ∧ s.stop ≤ n

/-- A span lies within another. -/
def Within (s t : Span) : Prop := t.start ≤ s.start ∧ s.stop ≤ t.stop

/-- Spans that lie one behind the other between two offsets. -/
inductive Row : Nat → List Span → Nat → Prop
  | nil {lo hi} (h : lo ≤ hi) : Row lo [] hi
  | cons {lo s ss hi} (hlo : lo ≤ s.start) (hs : s.start ≤ s.stop) (h : Row s.stop ss hi) :
      Row lo (s :: ss) hi

/-- A span merged with one behind it runs from the first to the second. -/
theorem merge_eq {s t : Span} (hstart : s.start ≤ t.start) (hstop : s.stop ≤ t.stop) :
    s.merge t = ⟨s.start, t.stop⟩ := by
  rw [merge, Nat.min_eq_left hstart, Nat.max_eq_right hstop]

namespace Row

variable {lo mid hi : Nat} {s t : Span} {ss ts : List Span}

theorem le (h : Row lo ss hi) : lo ≤ hi := by
  induction h with
  | nil h => exact h
  | cons hlo hs _ ih => omega

theorem weaken (h : Row mid ss hi) (hlo : lo ≤ mid) : Row lo ss hi := by
  cases h with
  | nil h => exact .nil (Nat.le_trans hlo h)
  | cons hmid hs h => exact .cons (Nat.le_trans hlo hmid) hs h

/-- Rows are put one behind the other. -/
theorem append (h : Row lo ss mid) (k : Row mid ts hi) : Row lo (ss ++ ts) hi := by
  induction h with
  | nil h => exact k.weaken h
  | cons hlo hs _ ih => exact .cons hlo hs (ih k)

theorem up_to (h : Row lo ss mid) (hhi : mid ≤ hi) : Row lo ss hi :=
  List.append_nil ss ▸ h.append (.nil hhi)

theorem single (hlo : lo ≤ s.start) (hs : s.start ≤ s.stop) (hhi : s.stop ≤ hi) :
    Row lo [s] hi := .cons hlo hs (.nil hhi)

/-- Every span of a row is between its ends. -/
theorem of_mem (h : Row lo ss hi) (hs : s ∈ ss) :
    lo ≤ s.start ∧ s.start ≤ s.stop ∧ s.stop ≤ hi := by
  induction h with
  | nil => simp at hs
  | cons hlo ht h ih =>
    rcases List.mem_cons.1 hs with rfl | hs
    · exact ⟨hlo, ht, h.le⟩
    · have := ih hs
      omega

theorem fits (h : Row lo ss hi) (hs : s ∈ ss) : s.Fits hi := (h.of_mem hs).2

/-- The spans of a row do not overlap. -/
theorem pairwise (h : Row lo ss hi) : ss.Pairwise fun s t => s.stop ≤ t.start := by
  induction h with
  | nil => exact .nil
  | cons _ _ h ih => exact .cons (fun _ ht => (h.of_mem ht).1) ih

/-- A row ends no earlier than its last span. -/
theorem up_to_last (h : Row lo ss hi) (hs : ss.getLast? = some s) : Row lo ss s.stop := by
  induction h with
  | nil => simp at hs
  | @cons lo t ss hi hlo ht h ih =>
    cases ss with
    | nil =>
      obtain rfl : t = s := by simpa using hs
      exact .single hlo ht (Nat.le_refl _)
    | cons u ss =>
      rw [List.getLast?_cons_cons] at hs
      exact .cons hlo ht (ih hs)

/-- The merge of the first and the last span of a row covers it. -/
theorem merge_covers {first last : Span} (h : Row lo ss hi) (hfirst : ss.head? = some first)
    (hlast : ss.getLast? = some last) :
    Row lo [first.merge last] hi ∧ ∀ t ∈ ss, t.Within (first.merge last) := by
  obtain ⟨ts, rfl⟩ := List.head?_eq_some_iff.1 hfirst
  have hhi := (h.fits (List.mem_of_getLast? hlast)).2
  cases h.up_to_last hlast with
  | cons hlo hs hmore =>
    have hrow : Row first.start (first :: ts) last.stop := .cons (Nat.le_refl _) hs hmore
    rw [merge_eq (hrow.of_mem (List.mem_of_getLast? hlast)).1 hmore.le]
    refine ⟨.single hlo (Nat.le_trans hs hmore.le) hhi, fun t ht => ?_⟩
    obtain ⟨hstart, -, hstop⟩ := hrow.of_mem ht
    exact ⟨hstart, hstop⟩

/-- The merge of a span with a row behind it covers all of them. -/
theorem foldl_covers {items : List Item} (h : Row s.stop (items.map Item.span) hi)
    (hs : s.start ≤ s.stop) :
    let t := items.foldl (fun s i => s.merge i.span) s
    t.start = s.start ∧ s.stop ≤ t.stop ∧ t.stop ≤ hi ∧ ∀ i ∈ items, i.span.Within t := by
  induction items generalizing s with
  | nil => exact ⟨rfl, Nat.le_refl _, h.le, by simp⟩
  | cons i items ih =>
    cases h with
    | cons hlo hspan h =>
      have hmerge : s.merge i.span = ⟨s.start, i.span.stop⟩ := merge_eq (by omega) (by omega)
      have hmergeStart : (s.merge i.span).start = s.start := by rw [hmerge]
      have hmergeStop : (s.merge i.span).stop = i.span.stop := by rw [hmerge]
      obtain ⟨hstart, hstop, hle, hwithin⟩ := ih (hmergeStop ▸ h) (by omega)
      rw [List.foldl_cons]
      refine ⟨by omega, by omega, hle, List.forall_mem_cons.2 ⟨⟨?_, ?_⟩, hwithin⟩⟩
      · omega
      · omega

end Row

end Span

/-! ## Trees -/

/-- The spans in a tree nest: each is one of a text of `n` bytes, those of attributes, of the body
    and of children lie in that of their node, and those of siblings lie one behind the other. -/
inductive Item.Nests (n : Nat) : Item → Prop
  | text {t : Text} (h : t.span.Fits n) : Nests n (.text t)
  | comment {c : Comment} (h : c.span.Fits n) : Nests n (.comment c)
  | block {b : Block} (h : b.span.Fits n)
      (within : ∀ i ∈ b.nodes, i.span.Within b.span)
      (order : b.nodes.Pairwise fun i j => i.span.stop ≤ j.span.start)
      (nodes : ∀ i ∈ b.nodes, Nests n i) : Nests n (.block b)
  | tag {t : Tag} (h : t.span.Fits n)
      (attrs : ∀ a ∈ t.attrs, a.span.Fits n ∧ a.span.Within t.span)
      (within : ∀ b, t.body = some b → b.span.Within t.span)
      (body : ∀ b, t.body = some b → Nests n (.block b)) : Nests n (.tag t)

section Blocks

variable {n lo hi : Nat} {items : List Item}

/-- The block of some items in a row nests, and lies where they do. -/
theorem Block.ofItems_nests (hrow : Span.Row lo (items.map Item.span) hi) (hhi : hi ≤ n)
    (hnodes : ∀ i ∈ items, i.Nests n) (fallback : Span)
    (hfallback : items = [] → Span.Row lo [fallback] hi) :
    (Item.block (Block.ofItems items fallback)).Nests n ∧
      Span.Row lo [(Block.ofItems items fallback).span] hi := by
  obtain ⟨hspan, hwithin⟩ : Span.Row lo [(Block.ofItems items fallback).span] hi ∧
      ∀ i ∈ items, i.span.Within (Block.ofItems items fallback).span := by
    rw [Block.ofItems]
    dsimp only
    split
    · rename_i first last hfirst hlast
      have hhead : (items.map Item.span).head? = some first.span := by
        rw [List.head?_map, hfirst, Option.map_some]
      have hend : (items.map Item.span).getLast? = some last.span := by
        rw [List.getLast?_map, hlast, Option.map_some]
      obtain ⟨hmerge, hcovers⟩ := hrow.merge_covers hhead hend
      exact ⟨hmerge, fun i hi => hcovers _ (List.mem_map_of_mem hi)⟩
    · rename_i hnone
      have hnil : items = [] := by
        cases items with
        | nil => rfl
        | cons i is =>
          exact absurd (List.getLast?_eq_some_getLast (List.cons_ne_nil i is)) (hnone i _ rfl)
      exact ⟨hfallback hnil, by simp [hnil]⟩
  have hfits := hspan.fits List.mem_cons_self
  exact ⟨.block ⟨hfits.1, Nat.le_trans hfits.2 hhi⟩ hwithin (List.pairwise_map.1 hrow.pairwise)
    hnodes, hspan⟩

/-- The block of the items nested below a line, from its indentation on. -/
theorem nestedBlock_nests {indent : Span} (hindent : indent.start ≤ indent.stop)
    (hrow : Span.Row indent.stop (items.map Item.span) hi) (hhi : hi ≤ n)
    (hnodes : ∀ i ∈ items, i.Nests n) :
    (Item.block (nestedBlock indent items)).Nests n ∧
      Span.Row indent.start [(nestedBlock indent items).span] hi := by
  obtain ⟨hstart, hstop, hle, hwithin⟩ := hrow.foldl_covers hindent
  have hspan : Span.Row indent.start [(nestedBlock indent items).span] hi := by
    refine .single (Nat.le_of_eq hstart.symm) ?_ hle
    exact Nat.le_trans (Nat.le_of_eq hstart) (Nat.le_trans hindent hstop)
  have hfits := hspan.fits List.mem_cons_self
  exact ⟨.block ⟨hfits.1, Nat.le_trans hfits.2 hhi⟩ hwithin (List.pairwise_map.1 hrow.pairwise)
    hnodes, hspan⟩

end Blocks

/-! ## Cursors -/

namespace Cursor

variable {n : Nat} {c d e : Cursor}

/-- The token passed last and those that follow lie in a row. -/
def InRow (n : Nat) (c : Cursor) : Prop :=
  Span.Row 0 (c.previous :: c.rest.map Token.span) n

theorem inRow_iff : c.InRow n ↔ c.previous.start ≤ c.previous.stop ∧
    Span.Row c.previous.stop (c.rest.map Token.span) n := by
  constructor
  · intro h
    cases h with
    | cons _ hs h => exact ⟨hs, h⟩
  · rintro ⟨hs, h⟩
    exact .cons (Nat.zero_le _) hs h

theorem InRow.stop_le (h : c.InRow n) : c.previous.stop ≤ n := (inRow_iff.1 h).2.le

/-- The next token lies behind the one passed last. -/
theorem InRow.current (h : c.InRow n) (hk : c.kind ≠ .eof) :
    c.advance.previous = c.current.span ∧ c.advance.InRow n ∧
      c.previous.stop ≤ c.current.span.start ∧ c.current.span.start ≤ c.current.span.stop := by
  obtain ⟨-, hrow⟩ := inRow_iff.1 h
  rw [rest_advance hk, List.map_cons] at hrow
  have hprevious : c.advance.previous = c.current.span := by
    rw [advance, if_neg (by simpa [atEnd] using hk)]
  cases hrow with
  | cons hlo hs hrow =>
    exact ⟨hprevious, inRow_iff.2 (hprevious ▸ ⟨hs, hrow⟩), hlo, hs⟩

/-- What is read from `c` up to `d` lies in a row between the tokens passed last there. -/
structure ReadsRow (n : Nat) (c d : Cursor) (spans : List Span) : Prop where
  inRow : d.InRow n
  start_le : c.previous.start ≤ d.previous.start
  row : Span.Row c.previous.stop spans d.previous.stop

variable {ss ts : List Span}

theorem ReadsRow.nil (h : c.InRow n) : ReadsRow n c c [] := ⟨h, Nat.le_refl _, .nil (Nat.le_refl _)⟩

/-- What is read one after the other lies in a row. -/
theorem ReadsRow.append (h : ReadsRow n c d ss) (k : ReadsRow n d e ts) :
    ReadsRow n c e (ss ++ ts) :=
  ⟨k.inRow, Nat.le_trans h.start_le k.start_le, h.row.append k.row⟩

/-- Whatever is read fits in the text. -/
theorem ReadsRow.fits (h : ReadsRow n c d ss) {s : Span} (hs : s ∈ ss) : s.Fits n :=
  (h.row.up_to h.inRow.stop_le).fits hs

/-- The next token is passed. -/
theorem InRow.advance (h : c.InRow n) (hk : c.kind ≠ .eof) {ss : List Span}
    (hss : Span.Row c.current.span.start ss c.current.span.stop) :
    ReadsRow n c c.advance ss := by
  obtain ⟨hprevious, hadvance, hlo, hs⟩ := h.current hk
  have hle := (inRow_iff.1 h).1
  exact ⟨hadvance, by rw [hprevious]; omega, hprevious ▸ hss.weaken hlo⟩

/-- The next token is read as a node of its own. -/
theorem InRow.advance_single (h : c.InRow n) (hk : c.kind ≠ .eof) :
    ReadsRow n c c.advance [c.current.span] :=
  h.advance hk (.single (Nat.le_refl _) (h.current hk).2.2.2 (Nat.le_refl _))

/-- The next token has no node. -/
theorem InRow.advance_nil (h : c.InRow n) (hk : c.kind ≠ .eof) : ReadsRow n c c.advance [] :=
  h.advance hk (.nil (h.current hk).2.2.2)

end Cursor

/-! ## Reading -/

section Reading

variable {n : Nat} {c d : Cursor}

/-- The attributes of a list lie in a row. -/
theorem listedAttributes_row (h : c.InRow n) :
    c.ReadsRow n (listedAttributes c).2 ((listedAttributes c).1.map Attribute.span) := by
  fun_induction listedAttributes c with
  | case1 c name value hl attrs d hd ih =>
    have hfirst := h.advance_single (Cursor.kind_ne_eof hl (by simp [Lexeme.kind]))
    have hmore := ih hfirst.inRow
    rw [hd] at hmore
    exact hfirst.append hmore
  | case2 c => exact .nil h

/-- So do all attributes of a head. -/
theorem attributeRun_row {attrs : List Attribute} (hrun : attributeRun c = .ok (attrs, d))
    (h : c.InRow n) : c.ReadsRow n d (attrs.map Attribute.span) := by
  fun_induction attributeRun c generalizing attrs with
  | case1 c x hl ih | case2 c x hl ih =>
    obtain ⟨as, hs, rfl⟩ := map_fst_eq_ok_iff.1 hrun
    have hfirst := h.advance_single (Cursor.kind_ne_eof hl (by simp [Lexeme.kind]))
    exact hfirst.append (ih hs hfirst.inRow)
  | case3 => simp at hrun
  | case4 c hl e he ih =>
    obtain ⟨as, hs, rfl⟩ := map_fst_eq_ok_iff.1 hrun
    obtain ⟨hclose, rfl⟩ := Cursor.expect_eq_ok_iff.1 he
    have hopen := h.advance_nil (Cursor.kind_ne_eof hl (by simp [Lexeme.kind]))
    have hlist := hopen.append (listedAttributes_row hopen.inRow)
    have hend := hlist.append (hlist.inRow.advance_nil (by simp [hclose]))
    rw [List.map_append]
    simpa using hend.append (ih hs hend.inRow)
  | case5 =>
    obtain ⟨rfl, rfl⟩ := Prod.mk.inj (Except.ok.inj hrun)
    exact .nil h

/-- Behind its first token, a head is a run of attributes. The first token is one more if it is a
    shorthand. -/
theorem readHead_attrs {head : TagHead} (hhead : readHead c = .ok (head, d))
    (hs : c.kind.startsTag = true) : ∃ as, attributeRun c.advance = .ok (as, d) ∧
      (head.attrs = as ∨ ∃ a, head.attrs = a :: as ∧ a.span = c.current.span) := by
  cases hl : c.current.lexeme with
  | tag name =>
    rw [readHead, hl] at hhead
    obtain ⟨as, has, rfl⟩ := map_fst_eq_ok_iff.1 hhead
    exact ⟨as, has, .inl rfl⟩
  | idShorthand x =>
    rw [readHead, hl] at hhead
    obtain ⟨bs, hbs, rfl⟩ := map_fst_eq_ok_iff.1 hhead
    rw [attributeRun_idShorthand hl] at hbs
    obtain ⟨as, has, rfl⟩ := map_fst_eq_ok_iff.1 hbs
    exact ⟨as, has, .inr ⟨_, rfl, rfl⟩⟩
  | classShorthand x =>
    rw [readHead, hl] at hhead
    obtain ⟨bs, hbs, rfl⟩ := map_fst_eq_ok_iff.1 hhead
    rw [attributeRun_classShorthand hl] at hbs
    obtain ⟨as, has, rfl⟩ := map_fst_eq_ok_iff.1 hbs
    exact ⟨as, has, .inr ⟨_, rfl, rfl⟩⟩
  | _ => simp [Cursor.kind, Token.kind, hl, Lexeme.kind, Kind.startsTag] at hs

/-- The attributes of a tag lie in a row from the start of its first token on. -/
theorem readHead_row {head : TagHead} (hhead : readHead c = .ok (head, d)) (h : c.InRow n)
    (hs : c.kind.startsTag = true) : c.advance.ReadsRow n d [] ∧
      Span.Row c.current.span.start (head.attrs.map Attribute.span) d.previous.stop := by
  have hk : c.kind ≠ .eof := fun hk => by simp [hk, Kind.startsTag] at hs
  obtain ⟨hprevious, hadvance, -, hle⟩ := h.current hk
  obtain ⟨as, has, hattrs⟩ := readHead_attrs hhead hs
  have hrun := attributeRun_row has hadvance
  have hrow : Span.Row c.current.span.stop (as.map Attribute.span) d.previous.stop :=
    hprevious ▸ hrun.row
  refine ⟨⟨hrun.inRow, hrun.start_le, .nil hrun.row.le⟩, ?_⟩
  rcases hattrs with rfl | ⟨a, hcons, hspan⟩
  · exact hrow.weaken hle
  · rw [hcons, List.map_cons, hspan]
    exact .cons (Nat.le_refl _) hle hrow

/-- The lines of a text block lie in a row, and so do their separators. -/
theorem textBlockItems_row {items : List Item} (hread : textBlockItems c = .ok (items, d))
    (h : c.InRow n) : c.ReadsRow n d (items.map Item.span) ∧ ∀ i ∈ items, i.Nests n := by
  fun_induction textBlockItems c generalizing items with
  | case1 c value hl ih | case2 c hl ih =>
    obtain ⟨is, hs, rfl⟩ := map_fst_eq_ok_iff.1 hread
    have hfirst := h.advance_single (Cursor.kind_ne_eof hl (by simp [Lexeme.kind]))
    obtain ⟨hmore, hnodes⟩ := ih hs hfirst.inRow
    exact ⟨hfirst.append hmore, List.forall_mem_cons.2
      ⟨.text (hfirst.fits List.mem_cons_self), hnodes⟩⟩
  | case3 c hl =>
    obtain ⟨rfl, rfl⟩ := Prod.mk.inj (Except.ok.inj hread)
    exact ⟨h.advance_nil (Cursor.kind_ne_eof hl (by simp [Lexeme.kind])), by simp⟩
  | case4 => simp at hread

/-- The span of a tag goes from its first token to its last, so that everything read for it lies in
    it. -/
theorem Tag.close_nests {head : TagHead} {b : Cursor} {content : List Item} (h : c.InRow n)
    (hs : c.kind.startsTag = true) (hhead : readHead c = .ok (head, b))
    (hcontent : b.ReadsRow n d (content.map Item.span)) (hnodes : ∀ i ∈ content, i.Nests n) :
    let tag := Tag.close head content c.current.span d
    (Item.tag tag).Nests n ∧ c.ReadsRow n d [tag.span] := by
  have hk : c.kind ≠ .eof := fun hk => by simp [hk, Kind.startsTag] at hs
  obtain ⟨hprevious, -, hlo, hle⟩ := h.current hk
  obtain ⟨hpassed, hattrs⟩ := readHead_row hhead h hs
  have hall := (h.advance_nil hk).append (hpassed.append hcontent)
  have hstop : d.previous.stop ≤ n := hall.inRow.stop_le
  have hhead : c.current.span.stop ≤ b.previous.stop := hprevious ▸ hpassed.row.le
  have hbody : b.previous.stop ≤ d.previous.stop := hcontent.row.le
  have hspan : c.current.span.merge d.previous = ⟨c.current.span.start, d.previous.stop⟩ := by
    refine Span.merge_eq ?_ (Nat.le_trans hhead hbody)
    exact hprevious ▸ Nat.le_trans hpassed.start_le hcontent.start_le
  intro tag
  have htag : tag.span = ⟨c.current.span.start, d.previous.stop⟩ := hspan
  -- A tag without content has an empty body at its end.
  obtain ⟨hblock, hblockRow⟩ := Block.ofItems_nests hcontent.row hstop hnodes
    (.point (c.current.span.merge d.previous).stop) fun _ => by
      rw [hspan]
      exact .single hbody (Nat.le_refl _) (Nat.le_refl _)
  have hinside := hblockRow.of_mem List.mem_cons_self
  refine ⟨.tag ?_ (fun a ha => ?_) ?_ ?_, hall.inRow, hall.start_le, ?_⟩
  · rw [htag]
    exact ⟨by dsimp only; omega, hstop⟩
  · have hattr := (hattrs.up_to hbody).of_mem (List.mem_map_of_mem ha)
    rw [htag]
    exact ⟨⟨hattr.2.1, Nat.le_trans hattr.2.2 hstop⟩, hattr.1, hattr.2.2⟩
  · rintro _ ⟨rfl⟩
    rw [htag]
    exact ⟨by dsimp only; omega, hinside.2.2⟩
  · rintro _ ⟨rfl⟩
    exact hblock
  · rw [htag]
    exact .single hlo (by dsimp only; omega) (Nat.le_refl _)

theorem eq_text_of_mem {a : Bool} {value : String} {span : Span} {i : Item}
    (h : i ∈ textItems a value span) : ∃ t, i = .text t := by
  rcases List.mem_append.1 h with h | h
  · split at h
    · exact ⟨_, List.mem_singleton.1 h⟩
    · simp at h
  · split at h
    · simp at h
    · exact ⟨_, List.mem_singleton.1 h⟩

/-- A line of text lies behind the line feed that joins it to the one before. -/
theorem textItems_row {a : Bool} {value : String} (h : c.InRow n) (hk : c.kind ≠ .eof) :
    c.ReadsRow n c.advance ((textItems a value c.current.span).map Item.span) ∧
      ∀ i ∈ textItems a value c.current.span, i.Nests n := by
  obtain ⟨-, hadvance, -, hle⟩ := h.current hk
  have hrow : Span.Row c.current.span.start ((textItems a value c.current.span).map Item.span)
      c.current.span.stop := by
    have hstart := Nat.le_refl c.current.span.start
    have hfeed : Span.Row c.current.span.start [.point c.current.span.start]
        c.current.span.start := .single hstart hstart hstart
    have htext : Span.Row c.current.span.start [c.current.span] c.current.span.stop :=
      .single hstart hle (Nat.le_refl _)
    rw [textItems, List.map_append]
    split
    · refine hfeed.append ?_
      split
      · exact .nil hle
      · exact htext
    · rw [List.map_nil, List.nil_append]
      split
      · exact .nil hle
      · exact htext
  have hread := h.advance hk hrow
  refine ⟨hread, fun i hi => ?_⟩
  have hfits := hread.fits (List.mem_map_of_mem hi)
  obtain ⟨t, rfl⟩ := eq_text_of_mem hi
  exact .text hfits

/-- What is read nests, and lies in a row with the tokens. -/
theorem Reads.row {g : Goal} {is : List Item} (hread : Reads g c is d) (h : c.InRow n) :
    c.ReadsRow n d (is.map Item.span) ∧ ∀ i ∈ is, i.Nests n := by
  induction hread with
  | stop | noInline | noNested => exact ⟨.nil h, by simp⟩
  | newline hl _ ih | colon hl _ _ ih =>
    have hpassed := h.advance_nil (Cursor.kind_ne_eof hl (by simp [Lexeme.kind]))
    obtain ⟨hmore, hnodes⟩ := ih hpassed.inRow
    exact ⟨hpassed.append hmore, hnodes⟩
  | text hl _ ih =>
    obtain ⟨hfirst, hnode⟩ := textItems_row h (Cursor.kind_ne_eof hl (by simp [Lexeme.kind]))
    obtain ⟨hmore, hnodes⟩ := ih hfirst.inRow
    rw [List.map_append]
    exact ⟨hfirst.append hmore, List.forall_mem_append.2 ⟨hnode, hnodes⟩⟩
  | comment hl _ ih =>
    have hfirst := h.advance_single (Cursor.kind_ne_eof hl (by simp [Lexeme.kind]))
    obtain ⟨hmore, hnodes⟩ := ih hfirst.inRow
    exact ⟨hfirst.append hmore, List.forall_mem_cons.2
      ⟨.comment (hfirst.fits List.mem_cons_self), hnodes⟩⟩
  | child _ _ _ ih ih' =>
    obtain ⟨hfirst, hnode⟩ := ih h
    obtain ⟨hmore, hnodes⟩ := ih' hfirst.inRow
    rw [List.map_append]
    exact ⟨hfirst.append hmore, List.forall_mem_append.2 ⟨hnode, hnodes⟩⟩
  | tag hs hh _ _ ih ih' =>
    obtain ⟨hpassed, -⟩ := readHead_row hh h hs
    obtain ⟨hinline, hnodes⟩ := ih hpassed.inRow
    obtain ⟨hbelow, hnodes'⟩ := ih' hinline.inRow
    have hcontent := hinline.append hbelow
    rw [← List.map_append] at hcontent
    obtain ⟨hnests, hrow⟩ := Tag.close_nests h hs hh hcontent
      (List.forall_mem_append.2 ⟨hnodes, hnodes'⟩)
    exact ⟨hrow, List.forall_mem_singleton.2 hnests⟩
  | block hl lines =>
    have hpassed := h.advance_nil (Cursor.kind_ne_eof hl (by simp [Lexeme.kind]))
    obtain ⟨hlines, hnodes⟩ := textBlockItems_row lines hpassed.inRow
    exact ⟨hpassed.append hlines, hnodes⟩
  | inlineText hl =>
    have hfirst := h.advance_single (Cursor.kind_ne_eof hl (by simp [Lexeme.kind]))
    exact ⟨hfirst, List.forall_mem_singleton.2 (.text (hfirst.fits List.mem_cons_self))⟩
  | @nested c is d hk _ hd ih =>
    have hindent : c.kind ≠ .eof := by simp [hk]
    obtain ⟨hprevious, -, hlo, hle⟩ := h.current hindent
    have hpassed := h.advance_nil hindent
    obtain ⟨hbelow, hnodes⟩ := ih hpassed.inRow
    have hend := hbelow.inRow.advance_nil (by simp [hd])
    obtain ⟨hnests, hspan⟩ := nestedBlock_nests hle (hprevious ▸ hbelow.row)
      hbelow.inRow.stop_le hnodes
    have hall := hpassed.append (hbelow.append hend)
    exact ⟨⟨hall.inRow, hall.start_le, (hspan.weaken hlo).up_to hend.row.le⟩,
      List.forall_mem_singleton.2 hnests⟩

end Reading

/-- The tree of tokens in a row nests. -/
theorem Block.ofTokens_nests {n : Nat} {tokens : List Token} {block : Block}
    (hrow : Span.Row 0 (tokens.map Token.span) n) (h : Block.ofTokens tokens = .ok block) :
    (Item.block block).Nests n := by
  rw [Block.ofTokens_eq] at h
  obtain ⟨⟨items, d⟩, hread, rfl⟩ := map_eq_ok_iff.1 h
  have hstart : (Cursor.ofTokens tokens).InRow n := Cursor.inRow_iff.2 ⟨Nat.le_refl _, hrow⟩
  obtain ⟨hitems, hnodes⟩ := (read_eq_ok_iff.1 hread).row hstart
  have hend : Span.Row 0 [d.current.span] n := by
    obtain ⟨-, hrest⟩ := Cursor.inRow_iff.1 hitems.inRow
    cases hd : d.rest with
    | nil =>
      rw [Cursor.current, hd]
      exact .single (Nat.zero_le _) (Nat.le_refl _) (Nat.zero_le _)
    | cons t ts =>
      rw [hd, List.map_cons] at hrest
      obtain ⟨-, hle, hstop⟩ := hrest.of_mem List.mem_cons_self
      rw [Cursor.current_of_rest hd]
      exact .single (Nat.zero_le _) hle hstop
  have hall : Span.Row 0 (items.map Item.span) n := hitems.row.up_to hitems.inRow.stop_le
  exact (Block.ofItems_nests hall (Nat.le_refl n) hnodes _ fun _ => hend).1

/-- Tokens that lie one behind the other have their spans in a row. -/
theorem Laid.row {text : String} (hsize : text.utf8ByteSize < 2 ^ 32) {past past' : List Kind}
    {p q : Place} {tokens : List Token} (h : Laid past p tokens past' q)
    (hp : HasPlace ⟨text⟩ p) :
    Span.Row p.offset (tokens.map Token.span) text.utf8ByteSize := by
  induction h with
  | nil => exact .nil hp.offset_le
  | cons ha hb _ _ ih =>
    have hplace := hp.reached ha
    have hspan := hplace.spanTo_eq hsize hb
    refine .cons ?_ ?_ ?_
    · rw [Token.read, hspan]
      exact ha.offset_le
    · rw [Token.read, hspan]
      exact hb.offset_le
    · rw [Token.read, hspan]
      exact ih (hplace.reached hb)

/-- The spans in the tree of a text of less than 4 GiB are spans of the text and nest: those of
    attributes, of bodies and of children lie in that of their node, and those of siblings lie
    one behind the other. -/
theorem Block.parse_nests (text : String) (hsize : text.utf8ByteSize < 2 ^ 32) {block : Block}
    (h : Block.parse text = .ok block) : (Item.block block).Nests text.utf8ByteSize := by
  rw [Block.parse] at h
  split at h
  · simp at h
  · rename_i tokens hscan
    obtain ⟨past', q, hlaid⟩ : ∃ past' q, Laid [] (.ofText text) tokens past' q :=
      scanLines_laid hscan rfl fun _ => rfl
    exact ofTokens_nests (hlaid.row hsize (HasPlace.ofText ⟨text⟩)) h

/-- An element with attributes and an expansion, below it a line of text, and after it a text block
    without lines. -/
theorem Block.parse_nests_outdent :
    ∃ block, Block.parse "a#x(b): c\n  | d\n  | e\np." = .ok block ∧
      (Item.block block).Nests 24 := by
  have hparse : (Block.parse "a#x(b): c\n  | d\n  | e\np.").toOption.isSome = true := by
    decide +kernel
  obtain ⟨block, hblock⟩ := Option.isSome_iff_exists.1 hparse
  have hsize : "a#x(b): c\n  | d\n  | e\np.".utf8ByteSize = 24 := by decide +kernel
  exact ⟨block, ok_of_toOption hblock,
    hsize ▸ Block.parse_nests "a#x(b): c\n  | d\n  | e\np." (by decide) (ok_of_toOption hblock)⟩

end SlotMarkup
