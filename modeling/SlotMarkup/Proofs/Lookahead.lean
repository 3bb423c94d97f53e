import SlotMarkup.Proofs.Flattening
import SlotMarkup.Proofs.OutlineItems

/-!
# One token of lookahead

What is read for a goal depends on the tokens that are passed, and on the kind of the one
after them. It can be read off the same tokens elsewhere, if they stand before a token of the
same kind there. A tag is also the same before an outdent, as nothing in a tag goes on with
one.

* `readHead_passes`, `textBlockItems_passes`: the tokens of heads and text blocks;
* `readHead_repeats`, `textBlockItems_repeats`: they are read alike elsewhere;
* `Reads.repeats`: and so is everything that the parser reads.
-/

namespace SlotMarkup

/-! ## Tokens passed -/

/-- The kind of the first of some tokens. After the last one the template ends. -/
def nextKind (ts : List Token) : Kind := (ts.headD ⟨.eof, .nowhere⟩).kind

namespace Cursor

variable {c : Cursor}

theorem kind_eq_nextKind {ts : List Token} (h : c.rest = ts) : c.kind = nextKind ts :=
  congrArg nextKind h

theorem expect_eq_ok_iff {d : Cursor} {k : Kind} :
    c.expect k = .ok d ↔ c.kind = k ∧ c.advance = d := by
  rw [expect]
  split <;> simp [*]

end Cursor

/-- At `c'` are the tokens from `c` to `d`, and then others. -/
def Repeats (c d c' : Cursor) (ts : List Token) : Prop :=
  ∃ ps, c.rest = ps ++ d.rest ∧ c'.rest = ps ++ ts

namespace Repeats

variable {c d e c' : Cursor} {ts : List Token}

theorem nil (h : Repeats c c c' ts) : c'.rest = ts := by
  obtain ⟨ps, hc, hc'⟩ := h
  obtain rfl : ps = [] := by simpa using hc
  exact hc'

/-- Where a token is passed, it is the same one. -/
theorem advance (h : Repeats c d c' ts) (hk : c.kind ≠ .eof) (hd : d.rest <:+ c.advance.rest) :
    c'.current = c.current ∧ Repeats c.advance d c'.advance ts := by
  obtain ⟨ps, hc, hc'⟩ := h
  obtain ⟨qs, hqs⟩ := hd
  have happend : ps ++ d.rest = c.current :: qs ++ d.rest := by
    rw [← hc, List.cons_append, hqs]
    exact Cursor.rest_advance hk
  have hps : ps = c.current :: qs := List.append_cancel_right happend
  rw [hps, List.cons_append] at hc'
  exact ⟨Cursor.current_of_rest hc', qs, hqs.symm, Cursor.rest_advance_of_rest hc' hk⟩

theorem current (h : Repeats c d c' ts) (hlt : d.rest.length < c.rest.length) :
    c'.current = c.current := by
  obtain ⟨ps, hc, hc'⟩ := h
  cases ps with
  | nil => simp [hc] at hlt
  | cons t ps => exact (Cursor.current_of_rest hc').trans (Cursor.current_of_rest hc).symm

/-- What is passed in two parts is found in two parts. -/
theorem split (h : Repeats c e c' ts) (hd : d.rest <:+ c.rest) (he : e.rest <:+ d.rest) :
    ∃ us, Repeats c d c' us ∧ ∀ d' : Cursor, d'.rest = us → Repeats d e d' ts := by
  obtain ⟨ps, hc, hc'⟩ := h
  obtain ⟨qs, hqs⟩ := hd
  obtain ⟨rs, hrs⟩ := he
  have happend : ps ++ e.rest = qs ++ rs ++ e.rest := by rw [← hc, List.append_assoc, hrs, hqs]
  have hps : ps = qs ++ rs := List.append_cancel_right happend
  exact ⟨rs ++ ts, ⟨qs, hqs.symm, by rw [hc', hps, List.append_assoc]⟩,
    fun d' hd' => ⟨rs, hrs.symm, hd'⟩⟩

/-- The next token is of the same kind, unless none is passed. -/
theorem kind (h : Repeats c d c' ts) :
    c'.kind = c.kind ∨ c'.kind = nextKind ts ∧ c.kind = d.kind := by
  obtain ⟨ps, hc, hc'⟩ := h
  cases ps with
  | nil => exact .inr ⟨congrArg nextKind hc', congrArg nextKind hc⟩
  | cons t ps =>
    rw [List.cons_append] at hc hc'
    exact .inl ((Cursor.kind_of_rest hc').trans (Cursor.kind_of_rest hc).symm)

end Repeats

/-- A token of the kind `l` ends what one of the kind `k` ends, inside a tag. -/
def EndsAlike (k l : Kind) : Prop := l = k ∨ l = .outdent

/-- Cursors with the same tokens in front of ends that are alike are alike themselves. -/
theorem EndsAlike.of_repeats {c d c' : Cursor} {ts : List Token}
    (h : EndsAlike d.kind (nextKind ts)) (hr : Repeats c d c' ts) : EndsAlike c.kind c'.kind := by
  rcases hr.kind with hk | ⟨hk, hd⟩
  · exact .inl hk
  · rwa [EndsAlike, hk, hd]

/-- No other kinds are told apart than those that do not end what is in a tag. -/
theorem EndsAlike.ne {k l m : Kind} (h : EndsAlike k l) (hk : k ≠ m) (hm : m ≠ .outdent) :
    l ≠ m := by
  rcases h with rfl | rfl
  · exact hk
  · exact hm.symm

/-! ## Heads and text blocks -/

/-- The kinds of token in the head of a tag. -/
def headKinds : List Kind :=
  [.tag, .idShorthand, .classShorthand, .openAttributes, .attr, .closeAttributes]

/-- The kinds of token in a text block, behind its start. -/
def blockKinds : List Kind := [.text, .newline, .closeTextBlock]

/-- The kinds that go on with the head of a tag. -/
def partKinds : List Kind := [.idShorthand, .classShorthand, .openAttributes]

section Parts

variable {c d c' : Cursor} {ts : List Token}

/-- Only attributes are passed in a list. -/
theorem listedAttributes_parts (c : Cursor) : ∃ as, (∀ a ∈ as, Token.kind a = .attr) ∧
    c.rest = as ++ (listedAttributes c).2.rest := by
  fun_induction listedAttributes c with
  | case1 c name value hl attrs d hd ih =>
    rw [hd] at ih
    obtain ⟨as, has, hc⟩ := ih
    refine ⟨c.current :: as, ?_, by rw [Cursor.rest_of_lexeme hl (by simp [Lexeme.kind]), hc]; rfl⟩
    rintro a ha
    rcases List.mem_cons.1 ha with rfl | ha
    · rw [Token.kind, hl, Lexeme.kind]
    · exact has a ha
  | case2 c => exact ⟨[], by simp, rfl⟩

/-- A run of attributes is read off the parts of a head, and all of them. -/
theorem attributeRun_parts {attrs : List Attribute} (h : attributeRun c = .ok (attrs, d)) :
    ∃ ps, IsParts ps ∧ c.rest = ps ++ d.rest ∧ d.kind ∉ partKinds := by
  fun_induction attributeRun c generalizing attrs with
  | case1 c x hl ih | case2 c x hl ih =>
    obtain ⟨as, hs, rfl⟩ := map_fst_eq_ok_iff.1 h
    obtain ⟨ps, hps, hrest, hd⟩ := ih hs
    refine ⟨c.current :: ps, .shorthand ?_ hps, ?_, hd⟩
    · rw [Token.kind, hl]
      simp [Lexeme.kind]
    · rw [Cursor.rest_of_lexeme hl (by simp [Lexeme.kind]), hrest]
      rfl
  | case3 => simp at h
  | case4 c hl e he ih =>
    obtain ⟨as, hs, rfl⟩ := map_fst_eq_ok_iff.1 h
    obtain ⟨ps, hps, hrest, hd⟩ := ih hs
    obtain ⟨hclose, rfl⟩ := Cursor.expect_eq_ok_iff.1 he
    obtain ⟨bs, hbs, hlist⟩ := listedAttributes_parts c.advance
    refine ⟨c.current :: (bs ++ (listedAttributes c.advance).2.current :: ps),
      .list (by rw [Token.kind, hl, Lexeme.kind]) hbs hclose hps, ?_, hd⟩
    rw [Cursor.rest_of_lexeme hl (by simp [Lexeme.kind]), hlist,
      Cursor.rest_advance (by simp [hclose]), hrest]
    simp
  | case5 c hid hclass hopen =>
    obtain ⟨rfl, rfl⟩ := Prod.mk.inj (Except.ok.inj h)
    refine ⟨[], .nil, rfl, fun hk => ?_⟩
    rcases (by simpa [partKinds] using hk : c.kind = .idShorthand ∨ c.kind = .classShorthand ∨
      c.kind = .openAttributes) with hk | hk | hk
    · obtain ⟨x, hx⟩ := Lexeme.eq_idShorthand hk
      exact hid x hx
    · obtain ⟨x, hx⟩ := Lexeme.eq_classShorthand hk
      exact hclass x hx
    · exact hopen (Lexeme.eq_of_kind (m := .openAttributes) hk rfl)

theorem IsParts.kind_mem {ps : List Token} (h : IsParts ps) : ∀ t ∈ ps, t.kind ∈ headKinds := by
  induction h with
  | nil => simp
  | shorthand h _ ih =>
    refine List.forall_mem_cons.2 ⟨?_, ih⟩
    rcases h with h | h <;> simp [h, headKinds]
  | list ho has hc _ ih =>
    refine List.forall_mem_cons.2 ⟨by simp [ho, headKinds], List.forall_mem_append.2 ⟨?_, ?_⟩⟩
    · exact fun a ha => by simp [has a ha, headKinds]
    · exact List.forall_mem_cons.2 ⟨by simp [hc, headKinds], ih⟩

/-- What is passed with a head. -/
theorem readHead_passes {head : TagHead} (h : readHead c = .ok (head, d)) :
    ∃ hs, c.rest = hs ++ d.rest ∧ ∀ t ∈ hs, t.kind ∈ headKinds := by
  rw [readHead] at h
  split at h
  · rename_i name hl
    obtain ⟨as, hs, -⟩ := map_fst_eq_ok_iff.1 h
    obtain ⟨ps, hps, hc, -⟩ := attributeRun_parts hs
    refine ⟨c.current :: ps, by rw [Cursor.rest_of_lexeme hl (by simp [Lexeme.kind]), hc]; rfl,
      List.forall_mem_cons.2 ⟨?_, hps.kind_mem⟩⟩
    rw [Token.kind, hl]
    simp [Lexeme.kind, headKinds]
  · obtain ⟨as, hs, -⟩ := map_fst_eq_ok_iff.1 h
    obtain ⟨ps, hps, hc, -⟩ := attributeRun_parts hs
    exact ⟨ps, hc, hps.kind_mem⟩

/-- What is passed with a text block. -/
theorem textBlockItems_passes {is : List Item} (h : textBlockItems c = .ok (is, d)) :
    ∃ ts, c.rest = ts ++ d.rest ∧ ∀ t ∈ ts, t.kind ∈ blockKinds := by
  fun_induction textBlockItems c generalizing is with
  | case1 c value hl ih | case2 c hl ih =>
    obtain ⟨js, hs, -⟩ := map_fst_eq_ok_iff.1 h
    obtain ⟨ts, hts, hkinds⟩ := ih hs
    refine ⟨c.current :: ts, ?_, List.forall_mem_cons.2 ⟨?_, hkinds⟩⟩
    · rw [Cursor.rest_of_lexeme hl (by simp [Lexeme.kind]), hts]
      rfl
    · rw [Token.kind, hl]
      simp [Lexeme.kind, blockKinds]
  | case3 c hl =>
    obtain ⟨-, rfl⟩ := Prod.mk.inj (Except.ok.inj h)
    refine ⟨[c.current], Cursor.rest_of_lexeme hl (by simp [Lexeme.kind]), ?_⟩
    rw [List.forall_mem_singleton, Token.kind, hl]
    simp [Lexeme.kind, blockKinds]
  | case4 => simp at h

theorem attributeRun_repeats {attrs : List Attribute} (h : attributeRun c = .ok (attrs, d))
    (hr : Repeats c d c' ts) (hts : nextKind ts ∉ partKinds) :
    ∃ d', attributeRun c' = .ok (attrs, d') ∧ d'.rest = ts := by
  obtain ⟨qs, hc, hc'⟩ := hr
  obtain ⟨ps, hps, hrest, -⟩ := attributeRun_parts h
  obtain rfl : ps = qs := List.append_cancel_right (hrest.symm.trans hc)
  have hno : NoPart ts := by
    rintro t ht
    obtain ⟨us, rfl⟩ := List.head?_eq_some_iff.1 ht
    simpa [nextKind, partKinds] using hts
  obtain ⟨as, d', has, hd'⟩ := attributeRun_of_parts hps hno hc'
  -- The attributes are told by the tokens.
  obtain ⟨us, hus, rfl⟩ := attributeRun_eq has
  obtain ⟨vs, hvs, rfl⟩ := attributeRun_eq h
  obtain rfl : us = ps := List.append_cancel_right (by rw [← hus, hc', hd'])
  obtain rfl : vs = us := List.append_cancel_right (hvs.symm.trans hc)
  exact ⟨d', has, hd'⟩

/-- The head of a tag is read alike, whatever comes behind it, if it does not go on there. -/
theorem readHead_repeats {head : TagHead} (hc : c.kind.startsTag = true)
    (h : readHead c = .ok (head, d)) (hr : Repeats c d c' ts) (hts : nextKind ts ∉ partKinds) :
    ∃ d', readHead c' = .ok (head, d') ∧ d'.rest = ts := by
  have hcurrent := hr.current (readHead_lt hc h)
  rw [readHead] at h
  rw [readHead, hcurrent]
  split at h
  · rename_i name hl
    obtain ⟨as, hs, rfl⟩ := map_fst_eq_ok_iff.1 h
    obtain ⟨-, hadv⟩ := hr.advance (Cursor.kind_ne_eof hl (by simp [Lexeme.kind]))
      (attributeRun_suffix hs)
    obtain ⟨d', hd', hrest⟩ := attributeRun_repeats hs hadv hts
    exact ⟨d', by rw [hd']; rfl, hrest⟩
  · obtain ⟨as, hs, rfl⟩ := map_fst_eq_ok_iff.1 h
    obtain ⟨d', hd', hrest⟩ := attributeRun_repeats hs hr hts
    exact ⟨d', by rw [hd']; rfl, hrest⟩

/-- A head takes all that goes on with it. -/
theorem readHead_end {head : TagHead} (h : readHead c = .ok (head, d)) : d.kind ∉ partKinds := by
  rw [readHead] at h
  split at h
  all_goals
    obtain ⟨as, hs, rfl⟩ := map_fst_eq_ok_iff.1 h
    obtain ⟨-, -, -, hd⟩ := attributeRun_parts hs
    exact hd

/-- The items of a text block are the same elsewhere, whatever is behind the block. -/
theorem textBlockItems_repeats {is : List Item} (h : textBlockItems c = .ok (is, d))
    (hr : Repeats c d c' ts) : ∃ d', textBlockItems c' = .ok (is, d') ∧ d'.rest = ts := by
  fun_induction textBlockItems c generalizing is c' with
  | case1 c value hl ih =>
    obtain ⟨js, hs, rfl⟩ := map_fst_eq_ok_iff.1 h
    obtain ⟨hcur, hadv⟩ := hr.advance (Cursor.kind_ne_eof hl (by simp [Lexeme.kind]))
      (textBlockItems_suffix hs)
    obtain ⟨d', hd', hrest⟩ := ih hs hadv
    refine ⟨d', ?_, hrest⟩
    rw [textBlockItems_text (hcur ▸ hl), hd', hcur]
    rfl
  | case2 c hl ih =>
    obtain ⟨js, hs, rfl⟩ := map_fst_eq_ok_iff.1 h
    obtain ⟨hcur, hadv⟩ := hr.advance (Cursor.kind_ne_eof hl (by simp [Lexeme.kind]))
      (textBlockItems_suffix hs)
    obtain ⟨d', hd', hrest⟩ := ih hs hadv
    refine ⟨d', ?_, hrest⟩
    rw [textBlockItems_newline (hcur ▸ hl), hd', hcur]
    rfl
  | case3 c hl =>
    obtain ⟨rfl, rfl⟩ := Prod.mk.inj (Except.ok.inj h)
    obtain ⟨hcur, hadv⟩ := hr.advance (Cursor.kind_ne_eof hl (by simp [Lexeme.kind]))
      List.suffix_rfl
    exact ⟨c'.advance, textBlockItems_close (hcur ▸ hl), hadv.nil⟩
  | case4 => simp at h

end Parts

/-! ## Everything that is read -/

/-- A token of the kind `l` ends what is read for a goal as one of the kind `k` does. -/
def Goal.EndsAlike : Goal → Kind → Kind → Prop
  | items _ _, k, l => l = k
  | _, k, l => SlotMarkup.EndsAlike k l

/-- What is read depends on the tokens that are passed and on the kind of the next one. -/
theorem Reads.repeats {g : Goal} {c d : Cursor} {is : List Item} (h : Reads g c is d)
    {c' : Cursor} {ts : List Token} (hr : Repeats c d c' ts)
    (hts : g.EndsAlike d.kind (nextKind ts)) :
    ∃ js d', Reads g c' js d' ∧ d'.rest = ts ∧ Rewraps is js := by
  induction h generalizing c' ts with
  | @stop c stop a h hs =>
    have hk : c'.kind = c.kind := (Cursor.kind_eq_nextKind hr.nil).trans hts
    refine ⟨[], c', .stop ?_ (hk.trans hs), hr.nil, .refl _⟩
    rcases h with h | h
    · exact .inl (Lexeme.eq_of_kind (hk.trans (congrArg Lexeme.kind h)) rfl)
    · exact .inr (Lexeme.eq_of_kind (hk.trans (congrArg Lexeme.kind h)) rfl)
  | newline hl more ih =>
    obtain ⟨hcur, hadv⟩ := hr.advance (Cursor.kind_ne_eof hl (by simp [Lexeme.kind])) more.suffix
    obtain ⟨js, d', hd', hrest, hjs⟩ := ih hadv hts
    exact ⟨js, d', .newline (hcur ▸ hl) hd', hrest, hjs⟩
  | @text c stop a value is d hl more ih =>
    obtain ⟨hcur, hadv⟩ := hr.advance (Cursor.kind_ne_eof hl (by simp [Lexeme.kind])) more.suffix
    obtain ⟨js, d', hd', hrest, hjs⟩ := ih hadv hts
    exact ⟨_, d', .text (hcur ▸ hl) hd', hrest, hcur ▸ .append (.refl _) hjs⟩
  | comment hl more ih =>
    obtain ⟨hcur, hadv⟩ := hr.advance (Cursor.kind_ne_eof hl (by simp [Lexeme.kind])) more.suffix
    obtain ⟨js, d', hd', hrest, hjs⟩ := ih hadv hts
    exact ⟨_, d', .comment (hcur ▸ hl) hd', hrest, hcur ▸ .append (.refl [_]) hjs⟩
  | @child c stop a is d js e hc child more ih ih' =>
    obtain ⟨us, hus, hd⟩ := hr.split child.suffix more.suffix
    have hadv := hd ⟨.nowhere, us⟩ rfl
    obtain ⟨is', d', hd', hrest, his⟩ := ih hus (.of_repeats (.inl hts) hadv)
    obtain ⟨js', e', he', hrest', hjs⟩ := ih' (hd d' hrest) hts
    exact ⟨_, e', .child (Goal.startsTag_of_read_tag hd'.read) hd' he', hrest', .append his hjs⟩
  | @tag c head b is d js e hc hh content below ih ih' =>
    have hb := readHead_suffix hh
    obtain ⟨us, hus, hhead⟩ := hr.split hb (below.suffix.trans content.suffix)
    have hcontent := hhead ⟨.nowhere, us⟩ rfl
    have hend : SlotMarkup.EndsAlike b.kind (nextKind us) := .of_repeats hts hcontent
    obtain ⟨b', hb', hbrest⟩ := readHead_repeats hc hh hus fun hk =>
      hend.ne (fun h => readHead_end hh (h ▸ hk)) (fun h => by simp [h, partKinds] at hk) rfl
    obtain ⟨vs, hvs, hbelow⟩ := (hhead b' hbrest).split content.suffix below.suffix
    obtain ⟨is', d', hd', hrest, his⟩ := ih hvs (.of_repeats hts (hbelow ⟨.nowhere, vs⟩ rfl))
    obtain ⟨js', e', he', hrest', hjs⟩ := ih' (hbelow d' hrest) hts
    have hc' : c'.kind = c.kind := congrArg Token.kind
      (hr.current (Goal.read_tag_lt (Reads.tag hc hh content below).read))
    exact ⟨_, e', .tag (hc' ▸ hc) hb' hd' he', hrest', .tag _ _ (.append his hjs) _ _ _ _⟩
  | colon hl hc only ih =>
    obtain ⟨hcur, hadv⟩ := hr.advance (Cursor.kind_ne_eof hl (by simp [Lexeme.kind])) only.suffix
    obtain ⟨js, d', hd', hrest, hjs⟩ := ih hadv hts
    exact ⟨js, d', .colon (hcur ▸ hl) (Goal.startsTag_of_read_tag hd'.read) hd', hrest, hjs⟩
  | block hl lines =>
    obtain ⟨hcur, hadv⟩ := hr.advance (Cursor.kind_ne_eof hl (by simp [Lexeme.kind]))
      (textBlockItems_suffix lines)
    obtain ⟨d', hd', hrest⟩ := textBlockItems_repeats lines hadv
    exact ⟨_, d', .block (hcur ▸ hl) hd', hrest, .refl _⟩
  | inlineText hl =>
    obtain ⟨hcur, hadv⟩ := hr.advance (Cursor.kind_ne_eof hl (by simp [Lexeme.kind]))
      List.suffix_rfl
    exact ⟨_, _, .inlineText (hcur ▸ hl), hadv.nil, hcur ▸ .refl _⟩
  | noInline hk =>
    have hend : SlotMarkup.EndsAlike _ _ := .of_repeats hts hr
    refine ⟨[], c', .noInline fun k hmem => hend.ne (hk k hmem) ?_, hr.nil, .refl _⟩
    rintro rfl
    simp at hmem
  | @nested c is d hi below hd ih =>
    have hne : d.kind ≠ .eof := by simp [hd]
    obtain ⟨hcur, hadv⟩ := hr.advance (by simp [hi]) (d.advance_suffix.trans below.suffix)
    obtain ⟨us, hus, hclose⟩ := hadv.split below.suffix d.advance_suffix
    obtain ⟨hout, -⟩ := (hclose ⟨.nowhere, us⟩ rfl).advance hne List.suffix_rfl
    obtain ⟨js, d', hd', hrest, hjs⟩ := ih hus (congrArg Token.kind hout)
    obtain ⟨hout', hadv'⟩ := (hclose d' hrest).advance hne List.suffix_rfl
    exact ⟨_, _, .nested ((congrArg Token.kind hcur).trans hi) hd'
      ((congrArg Token.kind hout').trans hd), hadv'.nil,
      .trans (.block _ _) (.trans hjs (.symm (.block _ _)))⟩
  | noNested hi =>
    have hend : SlotMarkup.EndsAlike _ _ := .of_repeats hts hr
    exact ⟨[], c', .noNested (hend.ne hi (by simp)), hr.nil, .refl _⟩

end SlotMarkup
