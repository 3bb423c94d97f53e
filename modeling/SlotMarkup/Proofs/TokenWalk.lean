import SlotMarkup.Proofs.ReadingOrder
import SlotMarkup.Proofs.TokensRead

/-!
# Walks over tokens

A parser that walks over a list of tokens has nothing but the place of the next one (`Walker`). It
goes round in loops, which push what they read to what was read before, and nothing but *fuel* bounds
how often. Here it also notes every place at which it takes a token.

No walk runs out of fuel if there is some for every token (`walk_meets`): a loop takes a token each
time it goes round, and a tag takes one before anything is read in it. Each place is passed once, and
none behind the end of the template. What comes of it is what the readers say.

* `Walker.Sound`: what every step of a walk preserves;
* `Block.ofTokens_reads_to_eof`: what is parsed, and which tokens are taken.
-/

namespace SlotMarkup

/-- The place of the next token in a list, and the places at which one was taken. -/
structure Walker where
  /-- The number of tokens passed. -/
  place : Nat := 0
  /-- All places at which a token was taken, in this order. -/
  taken : List Nat := []

/-- What comes of a walk. -/
inductive Walked (α : Type)
  | done (a : α) (w : Walker)
  | failed (e : ParseError) (w : Walker)
  | outOfFuel

/-- Walks on if nothing was wrong. -/
def Walked.andThen {α β : Type} (o : Walked α) (f : α → Walker → Walked β) : Walked β :=
  match o with
  | done a w => f a w
  | failed e w => .failed e w
  | outOfFuel => .outOfFuel

/-- A walk that ends with a result. -/
def Walked.ends {α : Type} (r : Except ParseError α) (w : Walker) : Walked α :=
  match r with
  | .ok a => .done a w
  | .error e => .failed e w

/-! ## Walking -/

section Walk

variable (ts : List Token)

namespace Walker

/-- The cursor at a place: the last token passed is the one before it. -/
def cursor (w : Walker) : Cursor :=
  ⟨match w.place with
    | 0 => .nowhere
    | i + 1 => (ts[i]?.map (·.span)).getD .nowhere,
    ts.drop w.place⟩

/-- Takes a token. At the end of the template there is no next place. -/
def advance (w : Walker) : Walker :=
  ⟨if (w.cursor ts).atEnd then w.place else w.place + 1, w.taken ++ [w.place]⟩

/-- Takes a token of a kind. -/
def expect (k : Kind) (w : Walker) : Walked Unit :=
  if (w.cursor ts).kind = k then .done () (w.advance ts)
  else .failed ((w.cursor ts).unexpected (.kind k)) w

end Walker

/-- Pushes the attributes that follow in a list. -/
def walkListed : Nat → List Attribute → Walker → Walked (List Attribute)
  | 0, _, _ => .outOfFuel
  | fuel + 1, attrs, w =>
    match (w.cursor ts).current.lexeme with
    | .attr name value =>
      walkListed fuel (attrs ++ [⟨name, value, (w.cursor ts).current.span⟩]) (w.advance ts)
    | _ => .done attrs w

/-- Pushes the attributes of the shorthands and lists that follow. -/
def walkAttributes : Nat → List Attribute → Walker → Walked (List Attribute)
  | 0, _, _ => .outOfFuel
  | fuel + 1, attrs, w =>
    match (w.cursor ts).current.lexeme with
    | .idShorthand x =>
      walkAttributes fuel (attrs ++ [⟨"id", quoted x, (w.cursor ts).current.span⟩]) (w.advance ts)
    | .classShorthand x =>
      walkAttributes fuel (attrs ++ [⟨"class", quoted x, (w.cursor ts).current.span⟩])
        (w.advance ts)
    | .openAttributes =>
      (walkListed ts fuel attrs (w.advance ts)).andThen fun attrs w =>
        (w.expect ts .closeAttributes).andThen fun _ w => walkAttributes fuel attrs w
    | _ => .done attrs w

/-- The head of the tag that follows. -/
def walkHead (fuel : Nat) (w : Walker) : Walked TagHead :=
  match (w.cursor ts).current.lexeme with
  | .tag name =>
    (walkAttributes ts fuel [] (w.advance ts)).andThen fun attrs w => .done ⟨name, attrs⟩ w
  | _ => (walkAttributes ts fuel [] w).andThen fun attrs w => .done ⟨defaultTag, attrs⟩ w

/-- Pushes the lines of a text block. -/
def walkTextBlock : Nat → List Item → Walker → Walked (List Item)
  | 0, _, _ => .outOfFuel
  | fuel + 1, body, w =>
    match (w.cursor ts).current.lexeme with
    | .text value =>
      walkTextBlock fuel (body ++ [.text ⟨value, (w.cursor ts).current.span⟩]) (w.advance ts)
    | .newline =>
      walkTextBlock fuel (body ++ [.text ⟨"\n", (w.cursor ts).current.span⟩]) (w.advance ts)
    | .closeTextBlock => .done body (w.advance ts)
    | _ => .failed ((w.cursor ts).unexpected (.kind .closeTextBlock)) w

/-- Pushes the items of a goal. -/
def walk : Nat → Goal → List Item → Walker → Walked (List Item)
  | 0, _, _, _ => .outOfFuel
  | fuel + 1, .items stop afterText, nodes, w =>
    match (w.cursor ts).current.lexeme with
    | .eof | .outdent =>
      if (w.cursor ts).kind = stop then .done nodes w
      else .failed ((w.cursor ts).unexpected (.kind stop)) w
    | .newline => walk fuel (.items stop afterText) nodes (w.advance ts)
    | .text value =>
      walk fuel (.items stop true)
        (nodes ++ textItems afterText value (w.cursor ts).current.span) (w.advance ts)
    | .comment value buffered =>
      walk fuel (.items stop false)
        (nodes ++ [.comment ⟨value, buffered, (w.cursor ts).current.span⟩]) (w.advance ts)
    | _ =>
      if (w.cursor ts).kind.startsTag then
        (walk fuel .tag nodes w).andThen fun nodes w => walk fuel (.items stop false) nodes w
      else .failed ((w.cursor ts).unexpected .item) w
  | fuel + 1, .tag, nodes, w =>
    (walkHead ts fuel w).andThen fun head v =>
      (walk fuel .inline [] v).andThen fun body v =>
        (walk fuel .nested body v).andThen fun body v =>
          .done (nodes ++ [.tag (Tag.close head body (w.cursor ts).current.span (v.cursor ts))]) v
  | fuel + 1, .inline, body, w =>
    match (w.cursor ts).current.lexeme with
    | .colon =>
      if ((w.advance ts).cursor ts).kind.startsTag then walk fuel .tag body (w.advance ts)
      else .failed (((w.advance ts).cursor ts).unexpected (.kind .tag)) (w.advance ts)
    | .openTextBlock => walkTextBlock ts fuel body (w.advance ts)
    | .text value =>
      .done (body ++ [.text ⟨value, (w.cursor ts).current.span⟩]) (w.advance ts)
    | _ => .done body w
  | fuel + 1, .nested, body, w =>
    if (w.cursor ts).kind = .indent then
      (walk fuel (.items .outdent false) [] (w.advance ts)).andThen fun children v =>
        (v.expect ts .outdent).andThen fun _ v =>
          .done (body ++ [.block (nestedBlock (w.cursor ts).current.span children)]) v
    else .done body w

/-- The block of a whole list of tokens. -/
def walkAll (fuel : Nat) : Walked Block :=
  (walk ts fuel (.items .eof false) [] {}).andThen fun nodes w =>
    if (w.cursor ts).atEnd then .done (Block.ofItems nodes (w.cursor ts).current.span) w
    else .failed ((w.cursor ts).unexpected (.kind .eof)) w

end Walk

/-! ## Places -/

/-- The template ends behind all tokens before its end, and nowhere before. -/
theorem kind_drop_eq_eof_iff {ts : List Token} {i : Nat} (h : i ≤ (beforeEof ts).length)
    (previous : Span) :
    (Cursor.mk previous (ts.drop i)).kind = .eof ↔ i = (beforeEof ts).length := by
  induction ts generalizing i with
  | nil =>
    rw [Nat.le_zero.1 h]
    exact iff_of_true rfl rfl
  | cons t ts ih =>
    by_cases ht : t.kind = .eof
    · have hnil : beforeEof (t :: ts) = [] := by simp [beforeEof, ht]
      rw [hnil] at h ⊢
      rw [Nat.le_zero.1 h]
      exact iff_of_true ht rfl
    · have hcons : beforeEof (t :: ts) = t :: beforeEof ts := by simp [beforeEof, ht]
      rw [hcons] at h ⊢
      cases i with
      | zero => exact iff_of_false ht (Nat.succ_ne_zero _).symm
      | succ i =>
        rw [List.length_cons, Nat.succ_le_succ_iff] at h
        rw [List.length_cons, Nat.succ_inj, List.drop_succ_cons]
        exact ih h

namespace Walker

variable {ts : List Token} {w : Walker}

/-- A walker has taken the token of every place that it passed, once, and is not behind the end of
    the template. -/
structure Sound (ts : List Token) (w : Walker) : Prop where
  taken : w.taken = List.range w.place
  place : w.place ≤ (beforeEof ts).length

/-- A cursor looks at the token whose place is that of the walker. -/
theorem current_cursor : (w.cursor ts).current = ts[w.place]?.getD ⟨.eof, .nowhere⟩ := by
  rw [Cursor.current, List.headD_eq_head?_getD, cursor, List.head?_drop]

/-- A step of the walker is a step of its cursor. -/
theorem cursor_advance : (w.advance ts).cursor ts = (w.cursor ts).advance := by
  by_cases h : (w.cursor ts).atEnd = true
  · rw [Cursor.advance, if_pos h, cursor, advance, if_pos h]
    rfl
  · have hspan : (ts[w.place]?.map (·.span)).getD .nowhere = (w.cursor ts).current.span := by
      rw [current_cursor]
      cases ts[w.place]? <;> rfl
    have hrest : ts.drop (w.place + 1) = (w.cursor ts).rest.tail := List.tail_drop.symm
    rw [Cursor.advance, if_neg h, ← hspan, ← hrest, cursor, advance, if_neg h]

/-- A step from any token but the end keeps a walker sound. -/
theorem Sound.advance (h : w.Sound ts) (hk : (w.cursor ts).kind ≠ .eof) :
    (w.advance ts).Sound ts := by
  have hne : ¬(w.cursor ts).atEnd = true := by simpa [Cursor.atEnd] using hk
  have hplace : w.place ≠ (beforeEof ts).length :=
    fun heq => hk ((kind_drop_eq_eof_iff h.place _).2 heq)
  refine ⟨?_, ?_⟩
  · rw [Walker.advance, if_neg hne, h.taken, List.range_succ]
  · rw [Walker.advance, if_neg hne]
    exact Nat.lt_of_le_of_ne h.place hplace

end Walker

/-! ## What comes of a walk -/

/-- A walk ends with what is read, at the cursor after it. -/
inductive Walked.Meets (ts : List Token) {α : Type} :
    Walked α → Except ParseError (α × Cursor) → Prop
  | done {a : α} {w : Walker} (h : w.Sound ts) : Meets ts (.done a w) (.ok (a, w.cursor ts))
  | failed {e : ParseError} {w : Walker} (h : w.Sound ts) : Meets ts (.failed e w) (.error e)

/-- What is read, pushed to what was read before. -/
def pushed {α : Type} (xs : List α) (r : Except ParseError (List α × Cursor)) :
    Except ParseError (List α × Cursor) := r.map fun s => (xs ++ s.1, s.2)

section Meets

variable {ts : List Token} {α β : Type}

theorem pushed_nil (r : Except ParseError (List α × Cursor)) : pushed [] r = r := by
  cases r <;> rfl

theorem pushed_pushed (xs ys : List α) (r : Except ParseError (List α × Cursor)) :
    pushed xs (pushed ys r) = pushed (xs ++ ys) r := by
  cases r with
  | error e => rfl
  | ok s => simp only [pushed, Except.map, List.append_assoc]

/-- What was pushed before a reader stays in front of what is read behind it. -/
theorem pushed_bind (xs : List α) (r : Except ParseError (β × Cursor))
    (f : β × Cursor → Except ParseError (List α × Cursor)) :
    pushed xs (r.bind f) = r.bind fun s => pushed xs (f s) := by
  cases r <;> rfl

/-- What is read is pushed one after the other. -/
theorem pushed_bind_pushed (xs : List α) (r : Except ParseError (List α × Cursor))
    (f : Cursor → Except ParseError (List α × Cursor)) :
    pushed xs (r.bind fun s => pushed s.1 (f s.2)) =
      (pushed xs r).bind fun s => pushed s.1 (f s.2) := by
  cases r with
  | error e => rfl
  | ok s => exact pushed_pushed xs s.1 (f s.2)

theorem Walked.Meets.of_eq {o : Walked α} {r r' : Except ParseError (α × Cursor)}
    (h : o.Meets ts r) (hr : r = r') : o.Meets ts r' := hr ▸ h

/-- A loop that ends gives what it was given. -/
theorem Walked.Meets.nothing {w : Walker} (xs : List α) (hw : w.Sound ts) :
    (Walked.done xs w).Meets ts (pushed xs (.ok ([], w.cursor ts))) := by
  rw [pushed, Except.map, List.append_nil]
  exact .done hw

/-- Walks one after the other meet readers one after the other. -/
theorem Walked.Meets.andThen {o : Walked α} {r : Except ParseError (α × Cursor)}
    {f : α → Walker → Walked β} {g : α × Cursor → Except ParseError (β × Cursor)}
    (ho : o.Meets ts r)
    (h : ∀ a w, w.Sound ts → r = .ok (a, w.cursor ts) → (f a w).Meets ts (g (a, w.cursor ts))) :
    (o.andThen f).Meets ts (r.bind g) := by
  cases ho with
  | done hw => exact h _ _ hw rfl
  | failed hw => exact .failed hw

/-- What is pushed at once can be pushed one after the other. -/
theorem Walked.Meets.push {o : Walked (List α)} {r : Except ParseError (List α × Cursor)}
    (xs ys : List α) (h : o.Meets ts (pushed (xs ++ ys) r)) :
    o.Meets ts (pushed xs (pushed ys r)) := by
  rwa [pushed_pushed]

/-- What is read may be made something of, together with the cursor after it. -/
theorem Walked.Meets.map {o : Walked α} {r : Except ParseError (α × Cursor)} (ho : o.Meets ts r)
    (f : α → Cursor → β) : (o.andThen fun a w => .done (f a (w.cursor ts)) w).Meets ts
      (r.map fun s => (f s.1 s.2, s.2)) := by
  cases ho with
  | done hw => exact .done hw
  | failed hw => exact .failed hw

/-- A token of a kind is taken as the reader takes it. -/
theorem Walker.expect_meets {w : Walker} {k : Kind} (hk : k ≠ .eof) (hw : w.Sound ts) :
    (w.expect ts k).Meets ts (((w.cursor ts).expect k).map fun d => ((), d)) := by
  rw [Walker.expect, Cursor.expect]
  split
  · rename_i h
    rw [← cursor_advance]
    exact .done (hw.advance (by rwa [h]))
  · exact .failed hw

end Meets

/-! ## Heads and text blocks -/

section Loops

variable {ts : List Token} {w : Walker}

/-- A loop that takes a token goes on with fewer of them. -/
theorem Walker.Sound.step (hw : w.Sound ts) {l : Lexeme} (hl : (w.cursor ts).current.lexeme = l)
    (hk : l.kind ≠ .eof) : (w.advance ts).Sound ts ∧
      ((w.advance ts).cursor ts).rest.length < (w.cursor ts).rest.length := by
  have hne := Cursor.kind_ne_eof hl hk
  refine ⟨hw.advance hne, ?_⟩
  rw [cursor_advance]
  exact (w.cursor ts).advance_lt hne

/-- The attributes of a list are walked as they are read, if there is fuel for each token. -/
theorem walkListed_meets (fuel : Nat) (attrs : List Attribute) (hw : w.Sound ts)
    (hfuel : (w.cursor ts).rest.length < fuel) :
    (walkListed ts fuel attrs w).Meets ts (pushed attrs (.ok (listedAttributes (w.cursor ts)))) := by
  induction fuel generalizing attrs w with
  | zero => exact absurd hfuel (Nat.not_lt_zero _)
  | succ fuel ih =>
    rw [walkListed]
    split
    · rename_i name value hl
      obtain ⟨hsound, hlt⟩ := hw.step hl (by simp [Lexeme.kind])
      rw [listedAttributes_attr hl, ← Walker.cursor_advance]
      exact (ih _ hsound (by omega)).push attrs [_]
    · rename_i hl
      have hend : (w.cursor ts).kind ≠ .attr := by
        intro hk
        obtain ⟨name, value, hattr⟩ := Lexeme.eq_attr hk
        exact hl name value hattr
      rw [listedAttributes_end hend]
      exact .nothing attrs hw

/-- The attributes of a list are pushed before those that follow it. -/
theorem pushed_list (attrs : List Attribute) (l : List Attribute × Cursor) :
    (pushed attrs ((l.2.expect .closeAttributes).bind fun d =>
      (attributeRun d).map fun r => (l.1 ++ r.1, r.2))) =
    (pushed attrs (.ok l)).bind fun s => ((s.2.expect .closeAttributes).map fun d => ((), d)).bind
      fun u => pushed s.1 (attributeRun u.2) := by
  cases hd : l.2.expect .closeAttributes with
  | error e =>
    simp only [pushed, Except.map, Except.bind, hd]
  | ok d =>
    simp only [pushed, Except.map, Except.bind, hd]
    exact pushed_pushed attrs l.1 (attributeRun d)

/-- The shorthands and lists of a tag are walked as they are read. -/
theorem walkAttributes_meets (fuel : Nat) (attrs : List Attribute) (hw : w.Sound ts)
    (hfuel : (w.cursor ts).rest.length < fuel) :
    (walkAttributes ts fuel attrs w).Meets ts (pushed attrs (attributeRun (w.cursor ts))) := by
  induction fuel generalizing attrs w with
  | zero => exact absurd hfuel (Nat.not_lt_zero _)
  | succ fuel ih =>
    rw [walkAttributes]
    split
    · rename_i x hl
      obtain ⟨hsound, hlt⟩ := hw.step hl (by simp [Lexeme.kind])
      rw [attributeRun_idShorthand hl, ← Walker.cursor_advance]
      exact (ih _ hsound (by omega)).push attrs [_]
    · rename_i x hl
      obtain ⟨hsound, hlt⟩ := hw.step hl (by simp [Lexeme.kind])
      rw [attributeRun_classShorthand hl, ← Walker.cursor_advance]
      exact (ih _ hsound (by omega)).push attrs [_]
    · rename_i hl
      obtain ⟨hsound, hlt⟩ := hw.step hl (by simp [Lexeme.kind])
      have hlisted := walkListed_meets fuel attrs hsound (by omega)
      rw [Walker.cursor_advance] at hlisted hlt
      rw [attributeRun_list hl, pushed_list]
      refine hlisted.andThen fun as u hu hl' => ?_
      refine (u.expect_meets (by simp) hu).andThen fun _ v hv he => ih as hv ?_
      -- Neither the list nor its end goes back.
      obtain ⟨d, he, hd⟩ := map_eq_ok_iff.1 he
      have hle := listedAttributes_le (w.cursor ts).advance
      have hle' := Cursor.expect_le he
      rw [← (Prod.mk.inj hd).2]
      rw [← (Prod.mk.inj (Except.ok.inj hl')).2] at hle'
      omega
    · rename_i hid hclass hlist
      have hend : (w.cursor ts).kind ≠ .idShorthand ∧ (w.cursor ts).kind ≠ .classShorthand ∧
          (w.cursor ts).kind ≠ .openAttributes := by
        refine ⟨fun hk => ?_, fun hk => ?_, fun hk => ?_⟩
        · obtain ⟨x, hx⟩ := Lexeme.eq_idShorthand hk
          exact hid x hx
        · obtain ⟨x, hx⟩ := Lexeme.eq_classShorthand hk
          exact hclass x hx
        · exact hlist (Lexeme.eq_of_kind hk rfl)
      rw [attributeRun_end hend]
      exact .nothing attrs hw

/-- The head of a tag is walked as it is read. -/
theorem walkHead_meets (fuel : Nat) (hw : w.Sound ts) (hfuel : (w.cursor ts).rest.length < fuel) :
    (walkHead ts fuel w).Meets ts (readHead (w.cursor ts)) := by
  rw [walkHead, readHead]
  cases hl : (w.cursor ts).current.lexeme with
  | tag name =>
    obtain ⟨hsound, hlt⟩ := hw.step hl (by simp [Lexeme.kind])
    have hattrs := walkAttributes_meets fuel [] hsound (by omega)
    rw [pushed_nil, Walker.cursor_advance] at hattrs
    exact hattrs.map fun as _ => TagHead.mk name as
  | _ =>
    have hattrs := walkAttributes_meets fuel [] hw hfuel
    rw [pushed_nil] at hattrs
    exact hattrs.map fun as _ => TagHead.mk defaultTag as

/-- A block of text is walked as it is read. -/
theorem walkTextBlock_meets (fuel : Nat) (body : List Item) (hw : w.Sound ts)
    (hfuel : (w.cursor ts).rest.length < fuel) :
    (walkTextBlock ts fuel body w).Meets ts (pushed body (textBlockItems (w.cursor ts))) := by
  induction fuel generalizing body w with
  | zero => exact absurd hfuel (Nat.not_lt_zero _)
  | succ fuel ih =>
    rw [walkTextBlock]
    split
    · rename_i value hl
      obtain ⟨hsound, hlt⟩ := hw.step hl (by simp [Lexeme.kind])
      rw [textBlockItems_text hl, ← Walker.cursor_advance]
      exact (ih _ hsound (by omega)).push body [_]
    · rename_i hl
      obtain ⟨hsound, hlt⟩ := hw.step hl (by simp [Lexeme.kind])
      rw [textBlockItems_newline hl, ← Walker.cursor_advance]
      exact (ih _ hsound (by omega)).push body [_]
    · rename_i hl
      obtain ⟨hsound, -⟩ := hw.step hl (by simp [Lexeme.kind])
      rw [textBlockItems_close hl, ← Walker.cursor_advance]
      exact .nothing body hsound
    · rename_i htext hnewline hclose
      have hk : ∀ k ∈ [Kind.text, .newline, .closeTextBlock], (w.cursor ts).kind ≠ k := by
        simp only [List.mem_cons, List.not_mem_nil, or_false]
        rintro k (rfl | rfl | rfl) hk
        · obtain ⟨value, hx⟩ := Lexeme.eq_text hk
          exact htext value hx
        · exact hnewline (Lexeme.eq_of_kind hk rfl)
        · exact hclose (Lexeme.eq_of_kind hk rfl)
      rw [textBlockItems_unexpected hk]
      exact .failed hw

end Loops

/-! ## Goals -/

/-- How much fuel is enough for a goal. The items of a line that is a tag are read at the same
    cursor as the tag. -/
def Goal.fuel (g : Goal) (c : Cursor) : Nat :=
  match g with
  | .tag => 2 * c.rest.length + 1
  | _ => 2 * c.rest.length + 2

/-- With some fuel, every walk that it is enough for ends with what is read. -/
def Walks (ts : List Token) (fuel : Nat) : Prop :=
  ∀ (g : Goal) (nodes : List Item) (w : Walker), w.Sound ts → g.fuel (w.cursor ts) ≤ fuel →
    (g = .tag → (w.cursor ts).kind.startsTag = true) →
    (walk ts fuel g nodes w).Meets ts (pushed nodes (g.read (w.cursor ts)))

section Goals

variable {ts : List Token} {w : Walker} {fuel : Nat} {nodes : List Item}

/-- A loop that takes a token has fuel for what is left. -/
theorem Walks.advance (ih : Walks ts fuel) (hw : w.Sound ts) {l : Lexeme}
    (hl : (w.cursor ts).current.lexeme = l) (hk : l.kind ≠ .eof)
    (hfuel : 2 * (w.cursor ts).rest.length + 2 ≤ fuel + 1) (g : Goal)
    (hg : g = .tag → (w.cursor ts).advance.kind.startsTag = true) (nodes : List Item) :
    (walk ts fuel g nodes (w.advance ts)).Meets ts
      (pushed nodes (g.read (w.cursor ts).advance)) := by
  obtain ⟨hsound, hlt⟩ := hw.step hl hk
  rw [← Walker.cursor_advance] at hg ⊢
  refine ih g nodes _ hsound ?_ hg
  cases g <;> simp only [Goal.fuel] <;> omega

theorem walk_stop_meets (hw : w.Sound ts) {stop : Kind} {a : Bool}
    (hl : (w.cursor ts).current.lexeme = .eof ∨ (w.cursor ts).current.lexeme = .outdent) :
    Walked.Meets ts
      (if (w.cursor ts).kind = stop then .done nodes w
        else .failed ((w.cursor ts).unexpected (.kind stop)) w)
      (pushed nodes ((Goal.items stop a).read (w.cursor ts))) := by
  rw [Goal.read_items_stop hl]
  split
  · exact .nothing nodes hw
  · exact .failed hw

/-- Items are walked as they are read. Each of them takes a token, so fuel is left for the further
    ones. -/
theorem walk_items_meets (ih : Walks ts fuel) (hw : w.Sound ts) {stop : Kind} {a : Bool}
    (hfuel : 2 * (w.cursor ts).rest.length + 2 ≤ fuel + 1) :
    (walk ts (fuel + 1) (.items stop a) nodes w).Meets ts
      (pushed nodes ((Goal.items stop a).read (w.cursor ts))) := by
  rw [walk]
  split
  · exact walk_stop_meets hw (.inl ‹_›)
  · exact walk_stop_meets hw (.inr ‹_›)
  · rename_i hl
    rw [Goal.read_items_newline hl]
    exact ih.advance hw hl (by simp [Lexeme.kind]) hfuel _ (by simp) _
  · rename_i value hl
    rw [Goal.read_items_text hl]
    exact (ih.advance hw hl (by simp [Lexeme.kind]) hfuel _ (by simp) _).push nodes _
  · rename_i value buffered hl
    rw [Goal.read_items_comment hl]
    exact (ih.advance hw hl (by simp [Lexeme.kind]) hfuel _ (by simp) _).push nodes _
  · rename_i heof houtdent hnewline htext hcomment
    split
    · rename_i hs
      rw [Goal.read_items_tag hs]
      have htag := ih .tag nodes w hw (by simp only [Goal.fuel]; omega) fun _ => hs
      have hpushed := pushed_bind_pushed nodes (Goal.tag.read (w.cursor ts))
        (Goal.items stop false).read
      refine hpushed ▸ htag.andThen fun nodes v hv hr => ?_
      obtain ⟨is, hr, -⟩ := map_fst_eq_ok_iff.1 hr
      have hlt := Goal.read_tag_lt hr
      exact ih _ nodes v hv (by simp only [Goal.fuel]; omega) (by simp)
    · rename_i hs
      have hk : ∀ k ∈ [Kind.eof, .outdent, .newline, .text, .comment], (w.cursor ts).kind ≠ k := by
        simp only [List.mem_cons, List.not_mem_nil, or_false]
        rintro k (rfl | rfl | rfl | rfl | rfl) hk
        · exact heof (Lexeme.eq_of_kind hk rfl)
        · exact houtdent (Lexeme.eq_of_kind hk rfl)
        · exact hnewline (Lexeme.eq_of_kind hk rfl)
        · obtain ⟨value, hx⟩ := Lexeme.eq_text hk
          exact htext value hx
        · obtain ⟨value, buffered, hx⟩ := Lexeme.eq_comment hk
          exact hcomment value buffered hx
      rw [Goal.read_items_unexpected (by simpa using hs) hk]
      exact .failed hw

/-- A tag is walked as it is read. -/
theorem walk_tag_meets (ih : Walks ts fuel) (hw : w.Sound ts)
    (hs : (w.cursor ts).kind.startsTag = true)
    (hfuel : 2 * (w.cursor ts).rest.length + 1 ≤ fuel + 1) :
    (walk ts (fuel + 1) .tag nodes w).Meets ts (pushed nodes (Goal.tag.read (w.cursor ts))) := by
  have hne : (w.cursor ts).kind ≠ .eof := by
    intro heof
    simp [heof, Kind.startsTag] at hs
  have hpos := Nat.zero_lt_of_lt ((w.cursor ts).advance_lt hne)
  rw [walk, Goal.read_tag hs, pushed_bind]
  refine (walkHead_meets fuel hw (by omega)).andThen fun head v hv hh => ?_
  have hb := readHead_lt hs hh
  have hinline := ih .inline [] v hv (by simp only [Goal.fuel]; omega) (by simp)
  dsimp only
  rw [pushed_nil] at hinline
  rw [pushed_bind]
  refine hinline.andThen fun body u hu hi => ?_
  have hd := Goal.read_le hi
  have hnested := ih .nested body u hu (by simp only [Goal.fuel]; omega) (by simp)
  have hclose := hnested.map fun body d =>
    nodes ++ [.tag (Tag.close head body (w.cursor ts).current.span d)]
  refine hclose.of_eq ?_
  cases Goal.nested.read (u.cursor ts) <;> rfl

theorem walk_inline_meets (ih : Walks ts fuel) (hw : w.Sound ts)
    (hfuel : 2 * (w.cursor ts).rest.length + 2 ≤ fuel + 1) :
    (walk ts (fuel + 1) .inline nodes w).Meets ts
      (pushed nodes (Goal.inline.read (w.cursor ts))) := by
  rw [walk]
  split
  · rename_i hl
    rw [Goal.read_inline_colon hl, Walker.cursor_advance]
    split
    · rename_i hs
      exact ih.advance hw hl (by simp [Lexeme.kind]) hfuel .tag (fun _ => hs) nodes
    · exact .failed (hw.step hl (by simp [Lexeme.kind])).1
  · rename_i hl
    obtain ⟨hsound, hlt⟩ := hw.step hl (by simp [Lexeme.kind])
    rw [Goal.read_inline_block hl, ← Walker.cursor_advance]
    exact walkTextBlock_meets fuel nodes hsound (by omega)
  · rename_i value hl
    rw [Goal.read_inline_text hl, ← Walker.cursor_advance]
    exact .done (hw.step hl (by simp [Lexeme.kind])).1
  · rename_i hcolon hblock htext
    have hk : ∀ k ∈ [Kind.colon, .openTextBlock, .text], (w.cursor ts).kind ≠ k := by
      simp only [List.mem_cons, List.not_mem_nil, or_false]
      rintro k (rfl | rfl | rfl) hk
      · exact hcolon (Lexeme.eq_of_kind hk rfl)
      · exact hblock (Lexeme.eq_of_kind hk rfl)
      · obtain ⟨value, hx⟩ := Lexeme.eq_text hk
        exact htext value hx
    rw [Goal.read_inline_none hk]
    exact .nothing nodes hw

/-- A nested block is walked as it is read. -/
theorem walk_nested_meets (ih : Walks ts fuel) (hw : w.Sound ts)
    (hfuel : 2 * (w.cursor ts).rest.length + 2 ≤ fuel + 1) :
    (walk ts (fuel + 1) .nested nodes w).Meets ts
      (pushed nodes (Goal.nested.read (w.cursor ts))) := by
  rw [walk]
  split
  · rename_i hi
    have hl := Lexeme.eq_of_kind hi (m := .indent) rfl
    have hchildren :=
      ih.advance hw hl (by simp [Lexeme.kind]) hfuel (.items .outdent false) (by simp) []
    rw [pushed_nil] at hchildren
    rw [Goal.read_nested_indent hi, pushed_bind]
    refine hchildren.andThen fun children v hv _ => ?_
    have hclose := (v.expect_meets (k := .outdent) (by simp) hv).map fun _ _ =>
      nodes ++ [.block (nestedBlock (w.cursor ts).current.span children)]
    refine hclose.of_eq ?_
    dsimp only
    cases (v.cursor ts).expect .outdent <;> rfl
  · rename_i hi
    rw [Goal.read_nested_none hi]
    exact .nothing nodes hw

/-- Fuel for every token is enough for a walk. -/
theorem walk_meets (ts : List Token) (fuel : Nat) : Walks ts fuel := by
  induction fuel with
  | zero =>
    intro g nodes w _ hfuel _
    cases g <;> simp [Goal.fuel] at hfuel
  | succ fuel ih =>
    intro g nodes w hw hfuel hg
    cases g with
    | items stop a => exact walk_items_meets ih hw hfuel
    | tag => exact walk_tag_meets ih hw (hg rfl) hfuel
    | inline => exact walk_inline_meets ih hw hfuel
    | nested => exact walk_nested_meets ih hw hfuel

end Goals

/-! ## Whole lists -/

/-- A walk over a whole list of tokens ends with its block, or with the error in it. If there is
    none, it ends at the end of the template. -/
theorem walkAll_eq (ts : List Token) {fuel : Nat} (hfuel : 2 * ts.length + 2 ≤ fuel) :
    ∃ w : Walker, w.Sound ts ∧ walkAll ts fuel = .ends (Block.ofTokens ts) w ∧
      ((∃ b, Block.ofTokens ts = .ok b) → w.place = (beforeEof ts).length) := by
  have hstart : ({} : Walker).Sound ts := ⟨rfl, Nat.zero_le _⟩
  have hcursor : ({} : Walker).cursor ts = .ofTokens ts := rfl
  have hmeets := walk_meets ts fuel (.items .eof false) [] {} hstart hfuel (by simp)
  rw [pushed_nil, hcursor] at hmeets
  rw [Block.ofTokens_eq, walkAll]
  generalize walk ts fuel (.items .eof false) [] {} = o at hmeets
  cases hr : (Goal.items .eof false).read (.ofTokens ts) with
  | error e =>
    rw [hr] at hmeets
    cases hmeets with
    | @failed _ w hw =>
      refine ⟨w, hw, rfl, ?_⟩
      rintro ⟨b, hb⟩
      cases hb
  | ok r =>
    rw [hr] at hmeets
    cases hmeets with
    | @done nodes w hw =>
      have hend : (w.cursor ts).kind = .eof := (Reads.of_read hr).kind_stop
      have hatEnd : (w.cursor ts).atEnd = true := by simp [Cursor.atEnd, hend]
      refine ⟨w, hw, ?_, fun _ => (kind_drop_eq_eof_iff hw.place _).1 hend⟩
      rw [Walked.andThen, if_pos hatEnd]
      rfl

/-- Only the tokens up to the end of the template matter. What is parsed is the same if nothing
    follows the first token of kind `eof`, or if one is written behind a list that has none. A walk
    over the tokens always ends, with fuel for all of them, and with what is parsed. It takes no
    token twice, and none at the end of the template or behind it; if a block is parsed, it takes
    every other one. -/
theorem Block.ofTokens_reads_to_eof (ts : List Token) :
    (∀ before e after, ts = before ++ e :: after → (∀ t ∈ before, t.kind ≠ .eof) → e.kind = .eof →
      ofTokens (before ++ [e]) = ofTokens ts) ∧
    ((∀ t ∈ ts, t.kind ≠ .eof) → ofTokens (ts ++ [⟨.eof, .nowhere⟩]) = ofTokens ts) ∧
    ∀ fuel, 2 * ts.length + 2 ≤ fuel → ∃ w : Walker,
      walkAll ts fuel = .ends (ofTokens ts) w ∧
      w.taken.Nodup ∧ (∀ i ∈ w.taken, i < (beforeEof ts).length) ∧
      ((∃ b, ofTokens ts = .ok b) → w.taken = List.range (beforeEof ts).length) := by
  refine ⟨?_, fun hnone => ?_, fun fuel hfuel => ?_⟩
  · rintro before e after rfl hbefore he
    rw [← ofTokens_upToEof (before ++ e :: after), upToEof_append hbefore,
      upToEof_cons_of_eof he]
  · have hall := upToEof_append hnone []
    rw [List.append_nil] at hall
    rw [← ofTokens_upToEof ts, hall]
    rfl
  · obtain ⟨w, hw, hwalk, hplace⟩ := walkAll_eq ts hfuel
    refine ⟨w, hwalk, ?_, fun i hi => ?_, fun hok => ?_⟩
    · rw [hw.taken]
      exact List.nodup_range
    · rw [hw.taken, List.mem_range] at hi
      exact Nat.lt_of_lt_of_le hi hw.place
    · rw [hw.taken, hplace hok]

/-- An outdent behind the end has no effect, although it would be an error before. -/
theorem Block.ofTokens_reads_to_eof_outdent :
    let p : Token := ⟨.tag "p", ⟨0, 1⟩⟩
    let e : Token := ⟨.eof, ⟨1, 1⟩⟩
    let out : Token := ⟨.outdent, ⟨1, 1⟩⟩
    ofTokens [p, e] = ofTokens [p, e, out] ∧ ofTokens [p, ⟨.eof, .nowhere⟩] = ofTokens [p] ∧
      ∃ w, walkAll [p, e, out] 8 = .ends (ofTokens [p, e, out]) w ∧ w.taken = [0] := by
  intro p e out
  obtain ⟨hcut, -, hwalk⟩ := ofTokens_reads_to_eof [p, e, out]
  obtain ⟨w, hends, -, -, htaken⟩ := hwalk 8 (by decide)
  have hp : ∀ t ∈ [p], t.kind ≠ .eof := by decide
  refine ⟨hcut [p] e [out] rfl hp rfl, (ofTokens_reads_to_eof [p]).2.1 hp, w, hends, ?_⟩
  -- The walk ends with a block, so this is what is parsed.
  have hok : ∃ b, ofTokens [p, e, out] = .ok b := by
    cases hparse : ofTokens [p, e, out] with
    | ok b => exact ⟨b, rfl⟩
    | error err =>
      rw [hparse] at hends
      cases hends
  exact htaken hok

end SlotMarkup
