import SlotMarkup.Proofs.AcceptedLines
import SlotMarkup.Proofs.LongerLines
import SlotMarkup.Proofs.OutlineShapes

/-!
# Text blocks and piped lines

The text in a tag can be written as a text block, with a dot behind the head of the tag and
the lines below it, or as piped lines. Both give the same tree, whatever the lines are: empty
ones at the start, in the middle and next to each other, and lines that are indented by more
than others (`TextLines`).

The ways to it differ. A text block is one opening line, whose body has all the lines, without
the indentation they share (`TextLines.nestedLines_rows`). Piped lines are opening lines of
their own (`openingLines_pipedRows`), and become items in a block of their own. What both stand
for are the same nodes (`itemsValues_textBlock`, `ArePiped.values`).

* `Block.toValue_textBlock`: the trees are the same.
-/

namespace SlotMarkup

/-! ## Lines of text -/

/-- The lines of a text in a tag. -/
structure TextLines (lines : List (List Char)) : Prop where
  one_line : ∀ l ∈ lines, '\n' ∉ l ∧ '\r' ∉ l
  /-- A line is empty, or it is not all blanks. -/
  not_blank : ∀ l ∈ lines, l ≠ [] → isBlankText l = false
  last : ∃ l ∈ lines.getLast?, l ≠ []
  /-- Not all lines are indented. -/
  outer : ∃ l ∈ lines, ∃ c ∈ l.head?, isIndent c = false

/-- A line of a text block, indented below its tag. -/
def blockRow (l : List Char) : List Char := if l = [] then [] else ' ' :: ' ' :: l

/-- A piped line, indented below its tag. -/
def pipedRow (l : List Char) : List Char := ' ' :: ' ' :: '|' :: ' ' :: l

/-- The nodes of some lines of text. There is a line feed between each two, and an empty line
    has no node of its own. -/
def lineNodes (afterText : Bool) : List (List Char) → List Value
  | [] => []
  | l :: ls =>
    (if afterText then [.node (Node.text "\n")] else []) ++
      ((if l = [] then [] else [.node (Node.text (String.ofList l))]) ++ lineNodes true ls)

section Rows

variable {l : List Char}

theorem isBlankText_blockRow : isBlankText (blockRow l) = isBlankText l := by
  rw [blockRow]
  split
  · rw [‹l = []›]
  · rfl

theorem indentWidth_blockRow (h : l ≠ []) : indentWidth (blockRow l) = indentWidth l + 2 := by
  rw [blockRow, if_neg h]
  rfl

theorem one_line_blockRow (h : '\n' ∉ l ∧ '\r' ∉ l) : '\n' ∉ blockRow l ∧ '\r' ∉ blockRow l := by
  rw [blockRow]
  split
  · simp
  · simp [h]

theorem one_line_pipedRow (h : '\n' ∉ l ∧ '\r' ∉ l) : '\n' ∉ pipedRow l ∧ '\r' ∉ pipedRow l := by
  simp [pipedRow, h]

/-- A text of lines is empty only if all its lines are. -/
theorem IsRows.ne_nil {rows : List (List Char)} {cs r : List Char} (h : IsRows rows cs)
    (hr : r ∈ rows) (hne : r ≠ []) : cs ≠ [] := by
  induction rows generalizing cs with
  | nil => simp at hr
  | cons l rows ih =>
    obtain ⟨ds, rfl, -, hmore⟩ := h.cons
    rcases List.mem_cons.1 hr with rfl | hr
    · exact List.append_ne_nil_of_left_ne_nil hne _
    · have hds := ih hmore hr
      intro hnil
      rw [(List.append_eq_nil_iff.1 hnil).2] at hds
      exact hds rfl

end Rows

/-! ## The lines of a text block -/

section Block

variable {lines : List (List Char)}

/-- The rows of a text block share the two spaces that are put before its lines. -/
theorem TextLines.min_indentWidth (h : TextLines lines) :
    (((lines.map blockRow).filter fun l => !isBlankText l).map indentWidth).min? = some 2 := by
  refine List.min?_eq_some_iff.2 ⟨?_, fun n hn => ?_⟩
  · obtain ⟨l, hl, c, hc, hi⟩ := h.outer
    obtain ⟨cs, rfl⟩ := List.head?_eq_some_iff.1 hc
    refine List.mem_map.2 ⟨blockRow (c :: cs), List.mem_filter.2 ⟨List.mem_map_of_mem hl, ?_⟩, ?_⟩
    · rw [isBlankText_blockRow, h.not_blank _ hl (by simp)]
      rfl
    · rw [indentWidth_blockRow (by simp), indentWidth, List.takeWhile_cons_of_neg (by simp [hi])]
      rfl
  · obtain ⟨row, hrow, rfl⟩ := List.mem_map.1 hn
    obtain ⟨hrow, hblank⟩ := List.mem_filter.1 hrow
    obtain ⟨l, -, rfl⟩ := List.mem_map.1 hrow
    have hne : l ≠ [] := by
      rintro rfl
      simp [blockRow, isBlankText] at hblank
    rw [indentWidth_blockRow hne]
    exact Nat.le_add_left 2 _

/-- Without the spaces that they share, the rows of a text block are its lines. -/
theorem TextLines.blockOf_rows (h : TextLines lines) : blockOf (lines.map blockRow) = lines := by
  have hkept : dropTrailing isBlankText (lines.map blockRow) = lines.map blockRow := by
    obtain ⟨l, hl, hne⟩ := h.last
    have hlast : ∀ row ∈ (lines.map blockRow).getLast?, isBlankText row = false := by
      rw [List.getLast?_map, hl]
      rintro row ⟨rfl⟩
      rw [isBlankText_blockRow]
      exact h.not_blank l (List.mem_of_getLast? hl) hne
    have hkept := dropTrailing_append hlast (List.forall_mem_nil _)
    rwa [List.append_nil] at hkept
  rw [blockOf, hkept, h.min_indentWidth, List.map_map]
  refine (List.map_congr_left fun l hl => ?_).trans (List.map_id lines)
  rw [Function.comp_apply, isBlankText_blockRow]
  by_cases hne : l = []
  · rw [hne]
    rfl
  · rw [if_neg (by simp [h.not_blank l hl hne]), blockRow, if_neg hne]
    rfl

/-- A row of a text block is nested below a tag that is not indented. -/
theorem nested_blockRow {p : Place} {l ds : List Char} (hl : '\n' ∉ l ∧ '\r' ∉ l)
    (hp : p.rest = blockRow l ++ ds) (hds : EndsRow ds) :
    (isBlankText p.line || 0 < p.indent) = true := by
  have hrow := one_line_blockRow hl
  have hline : p.line = blockRow l := Place.line_of_append hp hrow.1 hrow.2 hds
  by_cases hne : l = []
  · rw [hline, isBlankText_blockRow, hne]
    rfl
  · have hindent : p.indent = indentWidth l + 2 := by
      rw [← indentWidth_blockRow hne, ← hline, Place.indentWidth_line, Place.indent]
    simp [hindent]

/-- All rows of a text block are nested below its tag. An empty line can come after them if
    there is a line feed at the end of the text. -/
theorem nestedRun_rows {p : Place} (hone : ∀ l ∈ lines, '\n' ∉ l ∧ '\r' ∉ l)
    (hlast : ∀ l ∈ lines.getLast?, l ≠ []) (hp : IsRows (lines.map blockRow) p.rest) :
    ∃ n, (nestedRun 0 p).1.map (fun q => lineOf q.rest) =
        lines.map blockRow ++ List.replicate n [] ∧ (nestedRun 0 p).2.rest = [] := by
  induction lines generalizing p with
  | nil =>
    rcases hp with hp | hp
    · have hnil : p.rest = [] := hp
      rw [nestedRun, dif_pos hnil]
      exact ⟨0, rfl, hnil⟩
    · have hfeed : p.rest = [] ++ ['\n'] := hp
      have hne : p.rest ≠ [] := by simp [hfeed]
      have hline : p.line = [] := Place.line_of_append hfeed (by simp) (by simp) (by simp [EndsRow])
      have hnext : p.nextLine.rest = [] :=
        Place.rest_nextLine_of_append hfeed (by simp) (by simp [EndsRow])
      rw [nestedRun, dif_neg hne, hline, nestedRun, dif_pos hnext]
      exact ⟨1, congrArg (· :: []) hline, hnext⟩
  | cons l lines ih =>
    obtain ⟨ds, hrest, hds, hmore⟩ := hp.cons
    have hl := hone l List.mem_cons_self
    have hrow := one_line_blockRow hl
    have hne : p.rest ≠ [] := by
      have hm := List.getLast?_eq_some_getLast (List.cons_ne_nil l lines)
      refine hp.ne_nil (List.mem_map_of_mem (List.mem_of_getLast? hm)) ?_
      rw [blockRow, if_neg (hlast _ hm)]
      simp
    have hlast' : ∀ m ∈ lines.getLast?, m ≠ [] := fun m hm => by
      refine hlast m ?_
      rw [List.getLast?_cons, hm]
      rfl
    have hnext : p.nextLine.rest = ds.drop 1 := Place.rest_nextLine_of_append hrest hrow.1 hds
    obtain ⟨n, hrun, hend⟩ := ih (p := p.nextLine) (fun m hm => hone m (List.mem_cons_of_mem _ hm))
      hlast' (hnext ▸ hmore)
    have hline : lineOf p.rest = blockRow l := Place.line_of_append hrest hrow.1 hrow.2 hds
    rw [nestedRun, dif_neg hne, if_pos (nested_blockRow hl hrest hds)]
    exact ⟨n, congrArg₂ List.cons hline hrun, hend⟩

/-- The lines nested below the head of a text block. -/
theorem TextLines.nestedLines_rows (h : TextLines lines) {p : Place}
    (hp : IsRows (lines.map blockRow) p.rest) :
    (nestedLines 0 p).1.map Stretch.chars = lines ∧ (nestedLines 0 p).2.rest = [] := by
  obtain ⟨l, hl, hne⟩ := h.last
  obtain ⟨n, hrun, hend⟩ := nestedRun_rows h.one_line
    (fun m hm => Option.mem_unique hl hm ▸ hne) hp
  refine ⟨?_, hend⟩
  rw [chars_nestedLines, blockLines_eq, List.map_map]
  refine (congrArg blockOf hrun).trans ?_
  rw [blockOf_append _ fun l hl => by rw [List.eq_of_mem_replicate hl]; rfl, h.blockOf_rows]

/-! ## The tokens of a text block -/

theorem itemsValues_textLineTokens (s : Stretch) :
    itemsValues ((textLineTokens s).filterMap Token.bodyText?) =
      if s.chars = [] then [] else [.node (Node.text (String.ofList s.chars))] := by
  rw [textLineTokens]
  split <;> rfl

theorem itemsValues_textLinesTokens (ss : List Stretch) :
    itemsValues ((textLinesTokens ss).filterMap Token.bodyText?) =
      lineNodes true (ss.map Stretch.chars) := by
  induction ss with
  | nil => rfl
  | cons s ss ih =>
    rw [textLinesTokens, List.map_cons, lineNodes, ← ih, ← itemsValues_textLineTokens,
      ← itemsValues_append, ← List.filterMap_append]
    rfl

/-- The texts of a text block stand for the nodes of its lines. -/
theorem itemsValues_textBlock (indent : Nat) (p : Place) :
    itemsValues ((textBlock indent p).1.filterMap Token.bodyText?) =
      lineNodes false ((nestedLines indent p.nextLine).1.map Stretch.chars) := by
  rw [textBlock]
  dsimp only
  cases (nestedLines indent p.nextLine).1 with
  | nil => rfl
  | cons s ss =>
    rw [List.map_cons, lineNodes, ← itemsValues_textLinesTokens, ← itemsValues_textLineTokens,
      ← itemsValues_append, ← List.filterMap_append]
    dsimp only
    rw [List.filterMap_cons, List.filterMap_append]
    exact congrArg itemsValues (List.append_nil _)

end Block

/-! ## Piped lines -/

/-- A forest without anything below its roots. -/
def Forest.ofRoots {α : Type} : List α → Forest α
  | [] => .nil
  | a :: as => .cons a .nil (ofRoots as)

theorem Forest.toList_ofRoots {α : Type} (as : List α) : (ofRoots as).toList = as := by
  induction as with
  | nil => rfl
  | cons a as ih => rw [ofRoots, toList, ih, toList, List.nil_append]

/-- The opening lines of piped text below a tag. -/
structure ArePiped (lines : List (List Char)) (ls : List OpeningLine) : Prop where
  shapes : ls.map OpeningLine.shape = lines.map fun l => (2, [.text (String.ofList l)])
  unmixed : ∀ l ∈ ls, mixesIndent l.start = false

section Piped

variable {lines : List (List Char)} {ls : List OpeningLine}

/-- Each of the rows is an opening line. -/
theorem openingLines_pipedRows {p : Place} (hone : ∀ l ∈ lines, '\n' ∉ l ∧ '\r' ∉ l)
    (hp : IsRows (lines.map pipedRow) p.rest) :
    ∃ ls, openingLinesFrom p = .ok ls ∧ ArePiped lines ls := by
  induction lines generalizing p with
  | nil => exact ⟨[], (marked_of_end [] true hp).1, rfl, by simp⟩
  | cons l lines ih =>
    obtain ⟨ds, hrest, hds, hmore⟩ := hp.cons
    have hl := hone l List.mem_cons_self
    have hrow := one_line_pipedRow hl
    have hne : p.rest ≠ [] := by simp [hrest, pipedRow]
    have hindent : p.indent = 2 := by rw [Place.indent, hrest]; rfl
    have hmix : mixesIndent p = false := by rw [mixesIndent, hrest]; rfl
    have hblank : isBlankText p.line = false := by
      rw [Place.line_of_append hrest hrow.1 hrow.2 hds]
      rfl
    have hbar : (p.drop 2).rest = ('|' :: ' ' :: l) ++ ds := by rw [Place.rest_drop, hrest]; rfl
    have hspace : ((p.drop 2).drop 1).rest = (' ' :: l) ++ ds := by
      rw [Place.rest_drop, hbar]
      rfl
    have hcontent : lineContent p.indent (p.drop p.indent) = .ok
        ([.read (.text (String.ofList l)) (p.drop 2) (p.drop 2).lineEnd], (p.drop 2).nextLine) := by
      rw [hindent, lineContent, hbar]
      dsimp only [List.cons_append]
      rw [pipedLine, Place.line_of_append hspace (by simp [hl]) (by simp [hl]) hds]
      rfl
    have hnext : (p.drop 2).nextLine.rest = ds.drop 1 :=
      Place.rest_nextLine_of_append hbar (by simp [hl]) hds
    obtain ⟨ls, hls, hpiped⟩ := ih (p := (p.drop 2).nextLine)
      (fun m hm => hone m (List.mem_cons_of_mem _ hm)) (hnext ▸ hmore)
    rw [openingLinesFrom_cons hne hblank hcontent, hls]
    refine ⟨_, rfl, ?_, List.forall_mem_cons.2 ⟨hmix, hpiped.unmixed⟩⟩
    rw [List.map_cons, List.map_cons, hpiped.shapes, OpeningLine.shape, OpeningLine.indent, hindent]
    rfl

theorem ArePiped.indent (h : ArePiped lines ls) : ∀ l ∈ ls, l.indent = 2 := by
  intro l hl
  have hshape := List.mem_map_of_mem (f := OpeningLine.shape) hl
  rw [h.shapes] at hshape
  obtain ⟨cs, -, hcs⟩ := List.mem_map.1 hshape
  exact (congrArg Prod.fst hcs).symm

/-- Piped lines can come after a tag that is not indented. -/
theorem ArePiped.accepted (h : ArePiped lines ls) : Accepted [] false false ls := by
  have hbeside : ∀ {b} {ms : List OpeningLine}, (∀ l ∈ ms, l ∈ ls) → Accepted [2] false b ms := by
    intro b ms
    induction ms generalizing b with
    | nil => exact fun _ => trivial
    | cons l ms ih =>
      intro hms
      obtain ⟨hl, hms⟩ := List.forall_mem_cons.1 hms
      have hindent := h.indent l hl
      exact ⟨h.unmixed l hl, fun _ => Nat.le_of_eq hindent, [.newline], [2],
        by rw [hindent]; rfl, ih hms⟩
  cases ls with
  | nil => trivial
  | cons l ls =>
    refine ⟨h.unmixed l List.mem_cons_self, by simp, [.indent], [2], ?_,
      hbeside fun l hl => List.mem_cons_of_mem _ hl⟩
    rw [h.indent l List.mem_cons_self]
    rfl

theorem Forest.level_ofRoots {width : Nat} (h : ∀ l ∈ ls, l.indent = width) :
    (Forest.ofRoots ls).Level width := by
  induction ls with
  | nil => trivial
  | cons l ls ih =>
    obtain ⟨hl, hls⟩ := List.forall_mem_cons.1 h
    exact ⟨hl, ⟨width + 1, Nat.lt_succ_self _, trivial⟩, ih hls⟩

theorem itemsValues_textItems (a : Bool) (l : List Char) (s : Span) :
    itemsValues (textItems a (String.ofList l) s) =
      (if a then [.node (Node.text "\n")] else []) ++
        if l = [] then [] else [.node (Node.text (String.ofList l))] := by
  have hempty : (String.ofList l).isEmpty = true ↔ l = [] := by
    simp
  rw [textItems, itemsValues_append]
  congr 1
  · split <;> rfl
  · by_cases hl : l = []
    · rw [if_pos hl, if_pos (hempty.2 hl)]
      rfl
    · rw [if_neg hl, if_neg (mt hempty.1 hl)]
      rfl

/-- Piped lines stand for the nodes of their texts. -/
theorem ArePiped.values (h : ArePiped lines ls) {a : Bool} {is : List Item}
    (hshows : Shows a (.ofRoots ls) is) : itemsValues is = lineNodes a lines := by
  obtain ⟨hshapes, -⟩ := h
  induction lines generalizing ls a is with
  | nil =>
    obtain rfl := List.map_eq_nil_iff.1 hshapes
    cases hshows
    rfl
  | cons cs lines ih =>
    obtain ⟨l, ls, rfl, hl, hls⟩ := List.map_eq_cons_iff.1 hshapes
    have hlex : l.content.map Token.lexeme = [.text (String.ofList cs)] := congrArg Prod.snd hl
    cases hshows with
    | text ht htext more =>
      obtain rfl : _ = String.ofList cs := by simpa [ht, htext] using hlex
      rw [itemsValues_append, itemsValues_textItems, ih more hls, lineNodes, List.append_assoc]
    | comment ht htext => simp [ht, htext] at hlex
    | tag htag => exact absurd hlex (htag.ne_single rfl)
    | nested hne => exact absurd rfl hne

end Piped

/-! ## The line of a tag -/

section Heads

variable {head more : List Char} {ts bs : List Token} {q next : Place}

theorem stopsHead_of_endsRow (h : EndsRow more) : StopsHead more := by
  cases more with
  | nil => exact ⟨by simp, fun _ => shorthand?_eq_none (by simp)⟩
  | cons c more =>
    obtain rfl := h c rfl
    exact stopsHead_newline more

/-- A dot ends a head if the line ends after it. -/
theorem stopsHead_dot (h : EndsRow more) : StopsHead ('.' :: more) where
  no_part := by
    rintro c ⟨rfl⟩
    decide
  no_shorthand offset := by
    rw [shorthand?]
    cases more with
    | nil => rfl
    | cons c more =>
      obtain rfl := h c rfl
      rfl

/-- A text that starts with the line of a tag. -/
theorem openingLines_head (hhead : tagHead ⟨0, head⟩ = .ok (ts, q)) (hq : q.rest = [])
    (hmore : StopsHead more) (hbody : tagBody 0 (q.extend more) = .ok (bs, next)) {text : String}
    (htext : text.toList = head ++ more) :
    openingLines text = (openingLinesFrom next).map (⟨.ofText text, ts ++ bs, next⟩ :: ·) ∧
      (Place.ofText text).indent = 0 ∧ mixesIndent (.ofText text) = false ∧
      startsText (.ofText text) = false := by
  have hp : Place.ofText text = Place.extend ⟨0, head⟩ more := by rw [Place.ofText, htext]; rfl
  obtain ⟨c, cs, hcs, hc⟩ := tagHead_start hhead
  have hstart : (Place.extend ⟨0, head⟩ more).rest = c :: (cs ++ more) :=
    Place.rest_extend_cons hcs
  have hleading := hc.takeWhile_isIndent hstart
  have hindent : (Place.extend ⟨0, head⟩ more).indent = 0 := by
    rw [Place.indent, indentWidth, hleading]
    rfl
  have hmix : mixesIndent (Place.extend ⟨0, head⟩ more) = false := by
    rw [mixesIndent, hleading]
    rfl
  have hkind : startsText (Place.extend ⟨0, head⟩ more) = false := by
    have hbar : c ≠ '|' := by rintro rfl; simp [OpensHead, isWord] at hc
    have hangle : c ≠ '<' := by rintro rfl; simp [OpensHead, isWord] at hc
    rw [startsText, hstart]
    simp [hbar, hangle]
  have hcolon : (q.extend more).rest.head? ≠ some ':' := by
    rw [Place.rest_extend, hq, List.nil_append]
    intro h
    simpa [isTagNamePart, isNameJoint] using (hmore.no_part _ h).1
  have hline : tagLine 0 (Place.extend ⟨0, head⟩ more) = .ok (ts ++ bs, next) := by
    rw [tagLine_body (tagHead_extend hmore hhead) hcolon, hbody, Scan.after_ok]
  rw [← hc.lineContent hstart] at hline
  refine ⟨?_, hp ▸ hindent, hp ▸ hmix, hp ▸ hkind⟩
  rw [openingLines, hp]
  exact openingLinesFrom_cons (by rw [hstart]; simp) (hc.not_blank_line hstart)
    (by rw [hindent, Place.drop_zero]; exact hline)

/-- A text block after a head. -/
theorem tagBody_textBlock (hmore : EndsRow more) {p : Place} (hp : p.rest = '.' :: more) :
    tagBody 0 p = .ok ((textBlock 0 p).1, (textBlock 0 p).2) ∧
      p.nextLine.rest = more.drop 1 := by
  have hend : atLineEnd p = false := by rw [atLineEnd, hp]; rfl
  have hline : (p.drop 1).line = [] := by
    have hdrop : (p.drop 1).rest = [] ++ more := by rw [Place.rest_drop, hp]; rfl
    exact Place.line_of_append hdrop (by simp) (by simp) hmore
  have hblank : restIsBlank (p.drop 1) = true := by rw [restIsBlank, hline]; rfl
  have hdot : p.rest = ['.'] ++ more := hp
  refine ⟨?_, Place.rest_nextLine_of_append hdot (by simp) hmore⟩
  rw [tagBody, if_neg (by simp [hend]), hp]
  dsimp only
  rw [if_pos hblank]
  rfl

/-- Nothing after a head. -/
theorem tagBody_nothing (hmore : EndsRow more) {p : Place} (hp : p.rest = more) :
    tagBody 0 p = .ok ([], p.nextLine) ∧ p.nextLine.rest = more.drop 1 := by
  have hend : atLineEnd p = true := by
    rw [atLineEnd, hp]
    cases more with
    | nil => rfl
    | cons c more => rw [hmore c rfl]; rfl
  have hnone : p.rest = [] ++ more := hp
  exact ⟨by rw [tagBody, if_pos hend], Place.rest_nextLine_of_append hnone (by simp) hmore⟩

end Heads

/-! ## Both trees -/

section Trees

variable {hs bs ts : List Token} {text : String} {l : OpeningLine} {ls : List OpeningLine}

/-- What is parsed from a text with a tag at the root, and lines without tags below it. -/
theorem parse_tag_of_lines (hhead : IsHead hs) (hbody : IsBody bs)
    (h : openingLines text = .ok (l :: ls)) (hl : l.content = hs ++ bs) (hindent : l.indent = 0)
    (hmix : mixesIndent l.start = false) (hkind : l.isText = false)
    (hls : Accepted [] false false ls) (hwidth : ∀ l ∈ ls, l.indent = 2) :
    ∃ block is, Block.parse text = .ok block ∧ Shows false (.ofRoots ls) is ∧
      itemsValues block.nodes = [.node (Node.make (headName hs)
        (contentOf (gather (itemsValues (bs.filterMap Token.bodyText?) ++ itemsValues is)))
        (Attribute.toDict? (hs.filterMap Token.attribute?)))] := by
  have haccepted : Accepted [] true true (l :: ls) := by
    refine ⟨hmix, fun _ => Nat.le_of_eq hindent, [], [], ?_, hkind.symm ▸ hls⟩
    rw [hindent]
    rfl
  obtain ⟨block, f, hblock, hf, hlevel, hshows⟩ := shows_of_accepted h haccepted
  have hforest : f = .cons l (.ofRoots ls) .nil := by
    have hlevel' : (Forest.cons l (.ofRoots ls) .nil).Level 0 :=
      ⟨hindent, ⟨2, Nat.two_pos, Forest.level_ofRoots hwidth⟩, trivial⟩
    refine Forest.eq_of_toList hlevel hlevel' ?_
    rw [hf, Forest.toList, Forest.toList_ofRoots, Forest.toList, List.append_nil]
  subst hforest
  obtain ⟨below, more, inner, span, hnodes, hmore, hbelow⟩ := hshows.of_tag hl hhead hbody
  obtain rfl : more = [] := by cases hmore; rfl
  have hvalues : ∃ is, Shows false (.ofRoots ls) is ∧ itemsValues below = itemsValues is := by
    rcases hbelow with ⟨hnil, rfl⟩ | ⟨js, s, rfl, hjs⟩
    · exact ⟨[], hnil ▸ .nil, rfl⟩
    · exact ⟨js, hjs, by simp [itemsValues, itemValues, blockValues]⟩
  obtain ⟨is, his, hvalues⟩ := hvalues
  refine ⟨block, is, hblock, his, ?_⟩
  rw [hnodes, itemsValues, itemValues, tagValue, bodyValues, blockValues, itemsValues_append,
    hvalues]
  rfl

end Trees

/-- A text block and piped lines give the same tree, whatever the head of the tag and the lines
    are. In a text block the lines come behind the head and a dot, all that are not empty
    indented by two spaces. Of piped text, each line is indented by two spaces and has a bar and
    a space before it. -/
theorem Block.toValue_textBlock {head : List Char} {ts : List Token} {q : Place}
    {lines : List (List Char)} {block piped : String} (hhead : tagHead ⟨0, head⟩ = .ok (ts, q))
    (hq : q.rest = []) (hlines : TextLines lines)
    (hblock : IsRows ((head ++ ['.']) :: lines.map blockRow) block.toList)
    (hpiped : IsRows (head :: lines.map pipedRow) piped.toList) :
    ∃ b b', Block.parse block = .ok b ∧ Block.parse piped = .ok b' ∧ b.toValue = b'.toValue := by
  have hishead := isHead_of_tagHead hhead
  -- The text block is one opening line.
  obtain ⟨more, hmore, hends, hrows⟩ := hblock.cons
  rw [List.append_assoc, List.singleton_append] at hmore
  have hdot : (q.extend ('.' :: more)).rest = '.' :: more := by rw [Place.rest_extend, hq]; rfl
  obtain ⟨hbody, hnext⟩ := tagBody_textBlock hends hdot
  obtain ⟨hchars, hend⟩ := hlines.nestedLines_rows (hnext.symm ▸ hrows)
  have hend' : (textBlock 0 (q.extend ('.' :: more))).2.rest = [] := hend
  have hisbody : IsBody (textBlock 0 (q.extend ('.' :: more))).1 := isBody_of_textBlock rfl
  obtain ⟨hopening, hindent, hmix, hkind⟩ :=
    openingLines_head hhead hq (stopsHead_dot hends) hbody hmore
  rw [(marked_of_end [] true (.inl hend')).1] at hopening
  obtain ⟨b, is, hb, his, hvalues⟩ := parse_tag_of_lines hishead hisbody hopening rfl
    hindent hmix (by rw [OpeningLine.isText, OpeningLine.indent, hindent]; exact hkind) trivial
    (by simp)
  obtain rfl : is = [] := by cases his; rfl
  -- The piped lines are opening lines below that of the tag.
  obtain ⟨more', hmore', hends', hrows'⟩ := hpiped.cons
  have hrest' : (q.extend more').rest = more' := by rw [Place.rest_extend, hq]; rfl
  obtain ⟨hbody', hnext'⟩ := tagBody_nothing hends' hrest'
  obtain ⟨ls, hls, harepiped⟩ := openingLines_pipedRows hlines.one_line (hnext'.symm ▸ hrows')
  obtain ⟨hopening', hindent', hmix', hkind'⟩ :=
    openingLines_head hhead hq (stopsHead_of_endsRow hends') hbody' hmore'
  rw [hls] at hopening'
  obtain ⟨b', is', hb', his', hvalues'⟩ := parse_tag_of_lines hishead .nil hopening' rfl hindent'
    hmix' (by rw [OpeningLine.isText, OpeningLine.indent, hindent']; exact hkind')
    harepiped.accepted harepiped.indent
  -- In both, the lines stand for the same nodes.
  refine ⟨b, b', hb, hb', ?_⟩
  have hnodes : itemsValues b.nodes = itemsValues b'.nodes := by
    rw [hvalues, hvalues', itemsValues_textBlock, hchars, harepiped.values his']
    simp [itemsValues]
  cases b
  cases b'
  rw [Block.toValue, Block.toValue, blockValues, blockValues, hnodes]

/-- Empty lines at the start and next to each other, and a line that is indented by more. -/
theorem Block.toValue_textBlock_lines :
    let lines := [[], "b c".toList, [], [], "  d | ".toList]
    ∃ ts q b b', tagHead ⟨0, "a#i(k='v').l".toList⟩ = .ok (ts, q) ∧ q.rest = [] ∧
      TextLines lines ∧ Block.parse "a#i(k='v').l.\n\n  b c\n\n\n    d | " = .ok b ∧
      Block.parse "a#i(k='v').l\n  | \n  | b c\n  | \n  | \n  |   d | \n" = .ok b' ∧
      b.toValue = b'.toValue := by
  intro lines
  have hhead : (tagHead ⟨0, "a#i(k='v').l".toList⟩).toOption.map (·.2.rest) = some [] := by
    decide +kernel
  obtain ⟨⟨ts, q⟩, hts, hq⟩ := Option.map_eq_some_iff.1 hhead
  have hlines : TextLines lines :=
    ⟨by decide, by decide, ⟨"  d | ".toList, rfl, by decide⟩,
      ⟨"b c".toList, by decide, 'b', rfl, rfl⟩⟩
  have hhead := ok_of_toOption hts
  have hblock : IsRows (("a#i(k='v').l".toList ++ ['.']) :: lines.map blockRow)
      "a#i(k='v').l.\n\n  b c\n\n\n    d | ".toList := .inl rfl
  have hpiped : IsRows ("a#i(k='v').l".toList :: lines.map pipedRow)
      "a#i(k='v').l\n  | \n  | b c\n  | \n  | \n  |   d | \n".toList := .inr rfl
  obtain ⟨b, b', hb, hb', h⟩ := Block.toValue_textBlock hhead hq hlines hblock hpiped
  exact ⟨ts, q, b, b', hhead, hq, hlines, hb, hb', h⟩

end SlotMarkup
