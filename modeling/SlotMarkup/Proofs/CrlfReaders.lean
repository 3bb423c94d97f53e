import SlotMarkup.Proofs.RelabeledItems

/-!
# Readers and carriage returns

A text with a carriage return before every line feed is read side by side with the text
without (`Twin`). Both readings succeed, at places that are such twins again, or both fail,
for the same cause (`Alike`). This holds because every reader treats the two characters of
a line break alike or stops at both, and names no line break in an error.

What is read is the same, except that the texts of attributes have the carriage returns in
them (`Relabels`).
-/

namespace SlotMarkup

/-! ## Places -/

/-- At `p'` the text goes on as at `p`, with a carriage return before every line feed. -/
structure Twin (p p' : Place) : Prop where
  rest : p'.rest = crlf p.rest
  /-- There are no other carriage returns. -/
  clean : '\r' ∉ p.rest

namespace Twin

variable {p p' q q' : Place} {c : Char} {cs ds : List Char}

theorem rest_nil (h : Twin p p') (hp : p.rest = []) : p'.rest = [] := by rw [h.rest, hp, crlf_nil]

/-- Twins come to the end together. -/
theorem rest_eq_nil_iff (h : Twin p p') : p'.rest = [] ↔ p.rest = [] := by
  rw [h.rest, crlf_eq_nil_iff]

theorem rest_cons (h : Twin p p') (hp : p.rest = c :: cs) (hc : c ≠ '\n') :
    p'.rest = c :: crlf cs := by rw [h.rest, hp, crlf_cons hc]

theorem rest_newline (h : Twin p p') (hp : p.rest = '\n' :: cs) :
    p'.rest = '\r' :: '\n' :: crlf cs := by rw [h.rest, hp, crlf_newline]

/-- What the text with carriage returns goes on with is read off the text. -/
theorem of_cons (h : Twin p p') (hc : c ≠ '\n') (hr : c ≠ '\r') (hp : p'.rest = c :: ds) :
    ∃ es, p.rest = c :: es ∧ ds = crlf es := of_crlf_cons hc hr (h.rest.symm.trans hp)

/-- A character that is no part of a line break is missing in both texts. -/
theorem ne_cons (h : Twin p p') (hc : c ≠ '\n' ∧ c ≠ '\r') (hp : ∀ es, p.rest ≠ c :: es)
    (ds : List Char) : p'.rest ≠ c :: ds := by
  intro hp'
  obtain ⟨es, hes, -⟩ := h.of_cons hc.1 hc.2 hp'
  exact hp es hes

/-- Two characters that are no parts of line breaks are missing in both texts. -/
theorem ne_cons_cons {d : Char} (h : Twin p p') (hc : c ≠ '\n' ∧ c ≠ '\r')
    (hd : d ≠ '\n' ∧ d ≠ '\r') (hp : ∀ es, p.rest ≠ c :: d :: es) (ds : List Char) :
    p'.rest ≠ c :: d :: ds := by
  intro hp'
  obtain ⟨cs, hcs, hrest⟩ := h.of_cons hc.1 hc.2 hp'
  obtain ⟨es, rfl, -⟩ := of_crlf_cons hd.1 hd.2 hrest.symm
  exact hp es hcs

/-- A character that is no part of a line break is next in both texts or in none. -/
theorem head?_iff (h : Twin p p') (hc : c ≠ '\n') (hr : c ≠ '\r') :
    p'.rest.head? = some c ↔ p.rest.head? = some c := by rw [h.rest, head?_crlf hc hr]

/-- Characters are passed in both texts, in the one with their carriage returns. -/
theorem drop (h : Twin p p') (n : Nat) :
    Twin (p.drop n) (p'.drop (crlf (p.rest.take n)).length) where
  rest := by
    have hsplit : p'.rest = crlf (p.rest.take n) ++ crlf (p.rest.drop n) := by
      rw [← crlf_append, List.take_append_drop, h.rest]
    rw [Place.rest_drop, Place.rest_drop, hsplit, List.drop_left]
  clean hr := h.clean (List.mem_of_mem_drop hr)

/-- Twins stay twins over characters without line feeds. -/
theorem drop_plain (h : Twin p p') {n : Nat} (hn : '\n' ∉ p.rest.take n) :
    Twin (p.drop n) (p'.drop n) where
  rest := by rw [Place.rest_drop, Place.rest_drop, h.rest, (splitAt_crlf hn).2]
  clean hr := h.clean (List.mem_of_mem_drop hr)

/-- Twins stay twins over a character that is no line feed. -/
theorem drop_one (h : Twin p p') (hp : p.rest = c :: cs) (hc : c ≠ '\n') :
    Twin (p.drop 1) (p'.drop 1) :=
  h.drop_plain (by rw [hp, List.take_succ_cons]; simpa using Ne.symm hc)

/-- Twins stay twins over a line break, which is one character longer in the second text. -/
theorem drop_newline (h : Twin p p') (hp : p.rest = '\n' :: cs) :
    Twin (p.drop 1) ((p'.drop 1).drop 1) := by
  have hdrop := h.drop 1
  rw [hp, List.take_succ_cons, List.take_zero, crlf_newline] at hdrop
  rw [Place.drop_drop]
  exact hdrop

/-- A run of characters is passed in both texts if it does not end within a line break. -/
theorem skip {f : Char → Bool} (h : Twin p p') (hf : f '\r' = f '\n') :
    Twin (p.skip f) (p'.skip f) where
  rest := by rw [Place.rest_skip, Place.rest_skip, h.rest, dropWhile_crlf hf]
  clean hr := h.clean ((List.dropWhile_suffix f).subset (p.rest_skip f ▸ hr))

/-- Between twins the second text has the line breaks of the first changed. -/
theorem upTo (h : Twin p p') (hq : Twin q q') (hr : p.Reaches q) : p'.upTo q' = crlf (p.upTo q) :=
  Place.upTo_eq_of_append (by rw [hq.rest, ← crlf_append, hr.append_upTo, h.rest])

end Twin

/-! ## Outcomes -/

/-- Both readings succeed, with related results, or both fail for the same cause. -/
inductive Alike {α β : Type} (R : α → β → Prop) : Except ScanError α → Except ScanError β → Prop
  | ok {a b} (h : R a b) : Alike R (.ok a) (.ok b)
  | error {e e'} (h : e'.cause = e.cause) : Alike R (.error e) (.error e')

namespace Alike

variable {α β γ δ : Type} {R : α → β → Prop} {S : γ → δ → Prop}

/-- What is made of results that are alike is alike. -/
theorem map {r : Except ScanError α} {r' : Except ScanError β} {f : α → γ} {g : β → δ}
    (h : Alike R r r') (hfg : ∀ a b, r = .ok a → R a b → S (f a) (g b)) :
    Alike S (r.map f) (r'.map g) := by
  cases h with
  | ok h => exact .ok (hfg _ _ rfl h)
  | error h => exact .error h

/-- Steps that are alike one after the other are alike together. -/
theorem bind {r : Except ScanError α} {r' : Except ScanError β} {f : α → Except ScanError γ}
    {g : β → Except ScanError δ} (h : Alike R r r')
    (hfg : ∀ a b, r = .ok a → R a b → Alike S (f a) (g b)) : Alike S (r.bind f) (r'.bind g) := by
  cases h with
  | ok h => exact hfg _ _ rfl h
  | error h => exact .error h

/-- Both readings go the same way. -/
theorem ite {P : Prop} [Decidable P] {a b : Except ScanError α} {a' b' : Except ScanError β}
    (ha : P → Alike R a a') (hb : ¬P → Alike R b b') :
    Alike R (if P then a else b) (if P then a' else b') := by
  split
  · exact ha ‹_›
  · exact hb ‹_›

end Alike

/-- Tokens with carriage returns in their attributes, and what follows them in the text. -/
def ScanTwin (r r' : List Token × Place) : Prop := Relabels crlf r.1 r'.1 ∧ Twin r.2 r'.2

/-- A token with carriage returns in its attribute, and what follows it in the text. -/
def TokenTwin (r r' : Token × Place) : Prop :=
  r'.1.lexeme = r.1.lexeme.relabel crlf ∧ Twin r.2 r'.2

section Tokens

variable {ts us ts' us' : List Token} {t t' : Token}

theorem relabels_nil {σ : List Char → List Char} : Relabels σ [] [] := rfl

/-- Tokens are in other words part by part. -/
theorem Relabels.append {σ : List Char → List Char} (h : Relabels σ ts ts')
    (h' : Relabels σ us us') : Relabels σ (ts ++ us) (ts' ++ us') := by
  rw [Relabels, List.map_append, List.map_append, h, h']

theorem Relabels.cons {σ : List Char → List Char} (h : t'.lexeme = t.lexeme.relabel σ)
    (h' : Relabels σ ts ts') : Relabels σ (t :: ts) (t' :: ts') := by
  rw [Relabels, List.map_cons, List.map_cons, h, h']

theorem relabels_single {σ : List Char → List Char} (h : t'.lexeme = t.lexeme.relabel σ) :
    Relabels σ [t] [t'] := relabels_nil.cons h

/-- Scans stay alike behind tokens that are. -/
theorem Alike.after {r r' : Scan} (h : Alike ScanTwin r r') (hts : Relabels crlf ts ts') :
    Alike ScanTwin (r.after ts) (r'.after ts') :=
  h.map fun _ _ _ h => ⟨hts.append h.1, h.2⟩

end Tokens

section Readers

variable {p p' : Place}

/-! ## Strings -/

/-- Neither a quote nor a backslash is part of a line break, so that a string ends where it
    ended. A backslash escapes the carriage return before a line feed in the place of the line
    feed. -/
theorem quotedLength?_crlf {quote : Char} (hesc : quote ≠ '\\') (hn : quote ≠ '\n')
    (hr : quote ≠ '\r') (cs : List Char) :
    quotedLength? quote (crlf cs) = (quotedLength? quote cs).map fun n =>
      (crlf (cs.take n)).length := by
  fun_induction quotedLength? quote cs with
  | case1 => rfl
  | case2 => rfl
  | case3 d cs ih =>
    rw [crlf_cons (by decide), Option.map_map]
    by_cases hd : d = '\n'
    · rw [hd, crlf_newline, quotedLength?, quotedLength?_cons (by decide) (Ne.symm hn), ih,
        Option.map_map, Option.map_map]
      refine Option.map_congr fun n _ => ?_
      show _ = (crlf ('\\' :: '\n' :: cs.take n)).length
      rw [crlf_cons (by decide), crlf_newline]
      rfl
    · rw [crlf_cons hd, quotedLength?, ih, Option.map_map]
      refine Option.map_congr fun n _ => ?_
      show _ = (crlf ('\\' :: d :: cs.take n)).length
      rw [crlf_cons (by decide), crlf_cons hd]
      rfl
  | case4 cs =>
    rw [crlf_cons hn, quotedLength?_quote hesc, Option.map_some, List.take_succ_cons,
      List.take_zero, crlf_cons hn]
    rfl
  | case5 c cs h1 h2 hend ih =>
    have hc : c ≠ '\\' := by
      rintro rfl
      cases cs with
      | nil => exact h1 rfl rfl
      | cons d ds => exact h2 d ds rfl rfl
    rw [Option.map_map]
    by_cases hd : c = '\n'
    · rw [hd, crlf_newline, quotedLength?_cons (by decide) (Ne.symm hr),
        quotedLength?_cons (by decide) (Ne.symm hn), ih, Option.map_map, Option.map_map]
      exact Option.map_congr fun n _ => rfl
    · rw [crlf_cons hd, quotedLength?_cons hc hend, ih, Option.map_map]
      refine Option.map_congr fun n _ => ?_
      show _ = (crlf (c :: cs.take n)).length
      rw [crlf_cons hd]
      rfl

/-- A string ends at the same quote, or is open in both texts. -/
theorem stringEnd_crlf {quote : Char} {cs : List Char} (hq : IsQuote quote) (h : Twin p p')
    (hp : p.rest = quote :: cs) : Alike Twin (stringEnd quote p) (stringEnd quote p') := by
  obtain ⟨hesc, hn, hr⟩ := hq.ne
  rw [stringEnd, stringEnd, h.rest_cons hp hn, hp, List.drop_one, List.drop_one, List.tail_cons,
    List.tail_cons, quotedLength?_crlf hesc hn hr]
  cases hlen : quotedLength? quote cs with
  | none => exact .error rfl
  | some n =>
    have hdrop := h.drop (n + 1)
    rw [hp, List.take_succ_cons, crlf_cons hn] at hdrop
    exact .ok hdrop

/-! ## Values -/

/-- A value ends at the same character, or is wrong in both texts. -/
theorem valueEnd_crlf (depth : Nat) (h : Twin p p') :
    Alike Twin (valueEnd depth p) (valueEnd depth p') := by
  induction hlen : p.rest.length using Nat.strongRecOn generalizing depth p p' with
  | ind n ih =>
    subst hlen
    cases hp : p.rest with
    | nil =>
      rw [valueEnd_nil hp, valueEnd_nil (h.rest_nil hp)]
      exact .ok h
    | cons c cs =>
      have hlt : (p.drop 1).rest.length < p.rest.length :=
        Place.length_drop_lt (by simp [hp]) Nat.one_pos
      by_cases hc : c = '\n'
      · -- A line break ends a value, or the value goes on after it.
        subst hc
        have hp' := h.rest_newline hp
        have hp'' : (p'.drop 1).rest = '\n' :: crlf cs := by rw [Place.rest_drop, hp']; rfl
        rw [valueEnd_blank rfl hp, valueEnd_blank rfl hp', valueEnd_blank rfl hp'']
        refine .ite (fun _ => .ok h) fun hdepth => ?_
        rw [if_neg hdepth]
        exact ih _ hlt depth (h.drop_newline hp) rfl
      · have hone := h.drop_one hp hc
        rw [valueEnd_cons hp, valueEnd_cons (h.rest_cons hp hc)]
        refine .ite (fun hquote => ?_) fun _ => .ite (fun _ => ih _ hlt _ hone rfl) fun _ =>
          .ite (fun _ => .ite (fun _ => .ok h) fun _ => ih _ hlt _ hone rfl) fun _ =>
            .ite (fun _ => .ok h) fun _ => ih _ hlt _ hone rfl
        refine (stringEnd_crlf hquote h hp).bind fun q q' hq htwin => ih _ ?_ _ htwin rfl
        exact stringEnd_lt (by simp [hp]) hq

/-! ## Attributes -/

/-- A name ends at a line break. -/
theorem nameLength_crlf (cs : List Char) : nameLength (crlf cs) = nameLength cs ∧
    '\n' ∉ cs.take (nameLength cs) := by
  induction cs with
  | nil => exact ⟨rfl, by simp⟩
  | cons c cs ih =>
    by_cases hc : c = '\n'
    · subst hc
      have hblank {d : Char} (hd : isBlank d = true) (ds : List Char) :
          nameLength (d :: ds) = 0 := by
        rw [nameLength, if_pos (.inl hd)]
      rw [crlf_newline, hblank rfl, hblank rfl]
      exact ⟨rfl, by simp⟩
    · have hequals := head?_crlf (c := '=') (by decide) (by decide) cs
      rw [crlf_cons hc, nameLength, nameLength, ih.1]
      simp only [hequals]
      refine ⟨trivial, ?_⟩
      split
      · simp
      · split
        · simp
        · rw [List.take_succ_cons, List.mem_cons, not_or]
          exact ⟨Ne.symm hc, ih.2⟩

/-- The name of an attribute, which starts with no line break. -/
theorem attributeName_crlf (h : Twin p p') (hp : p.rest.head? ≠ some '\n') :
    Alike (fun r r' => r'.1 = crlf r.1 ∧ Twin r.2 r'.2) (attributeName p) (attributeName p') := by
  cases hcs : p.rest with
  | nil =>
    rw [attributeName, attributeName]
    simp only [hcs, h.rest_nil hcs]
    refine .error ?_
    simp only [ScanError.unexpected, ScanError.between, hcs, h.rest_nil hcs, List.headD_nil]
  | cons c cs =>
    have hc : c ≠ '\n' := by
      rintro rfl
      exact hp (by rw [hcs]; rfl)
    have hcs' := h.rest_cons hcs hc
    obtain ⟨hlength, hname⟩ := nameLength_crlf p.rest
    rw [← h.rest] at hlength
    rw [attributeName_cons hcs, attributeName_cons hcs', hlength]
    refine .ite (fun hquote => ?_) fun _ => .ite (fun _ => ?_) fun _ => .ok ⟨?_, ?_⟩
    · have hq : IsQuote c := hquote.imp_right .inl
      refine (stringEnd_crlf hq h hcs).map fun q q' hend htwin => ⟨?_, htwin⟩
      -- Between the quotes stands the name, here and there.
      obtain ⟨as, has⟩ := stringEnd_spec hcs hend
      rw [has] at hcs
      rw [has, crlf_append, crlf_cons hc, ← htwin.rest] at hcs'
      rw [Place.upTo_of_quotes hcs, Place.upTo_of_quotes hcs', List.dropLast_concat,
        List.dropLast_concat]
    · refine .error ?_
      simp only [ScanError.unexpected, ScanError.between, hcs, hcs', List.headD_cons]
    · rw [h.rest, (splitAt_crlf hname).1, crlf_of_not_mem hname]
    · exact h.drop_plain hname

/-- An equals sign is found in both texts or in none. -/
theorem equalsEnd?_crlf (h : Twin p p') : (equalsEnd? p = none ∧ equalsEnd? p' = none) ∨
    ∃ q q', equalsEnd? p = some q ∧ equalsEnd? p' = some q' ∧ Twin q q' := by
  rw [equalsEnd?.eq_def p]
  split
  · rename_i cs hcs
    exact .inr ⟨_, p'.drop 1, rfl, by simp only [equalsEnd?, h.rest_cons hcs (by decide)],
      h.drop_one hcs (by decide)⟩
  · rename_i cs hcs
    have hcs' : p'.rest = '!' :: '=' :: crlf cs := by
      rw [h.rest_cons hcs (by decide), crlf_cons (by decide)]
    exact .inr ⟨_, p'.drop 2, rfl, by simp only [equalsEnd?, hcs'],
      h.drop_plain (by simp [hcs])⟩
  · rename_i hequals hbang
    refine .inl ⟨rfl, ?_⟩
    rw [equalsEnd?.eq_def]
    split
    · exact absurd ‹_› (h.ne_cons (by decide) hequals _)
    · exact absurd ‹_› (h.ne_cons_cons (by decide) (by decide) hbang _)
    · rfl

/-- Nothing but line breaks and blanks stands before a value. -/
theorem attributeValue_crlf (h : Twin p p') :
    Alike (fun r r' => r'.1 = crlf r.1 ∧ Twin r.2 r'.2) (attributeValue p) (attributeValue p') := by
  have hbind (p : Place) : attributeValue p = (valueEnd 0 p).bind fun q =>
      if p.upTo q = [] then .error (.here .expectedAttributeValue p) else .ok (p.upTo q, q) := by
    rw [attributeValue]
    cases valueEnd 0 p <;> rfl
  rw [hbind, hbind]
  refine (valueEnd_crlf 0 h).bind fun q q' hq htwin => ?_
  have hvalue := h.upTo htwin (reaches_valueEnd hq)
  simp only [hvalue, crlf_eq_nil_iff]
  exact .ite (fun _ => .error rfl) fun _ => .ok ⟨rfl, htwin⟩

/-- An attribute is read with its line breaks. -/
theorem readAttribute_crlf (h : Twin p p') (hp : p.rest.head? ≠ some '\n') :
    Alike TokenTwin (readAttribute p) (readAttribute p') := by
  have hbind (p : Place) : readAttribute p = (attributeName p).bind fun r =>
      (equalsEnd? (r.2.skip isIndent)).elim
        (.ok (.read (.attr (String.ofList r.1) .bare) p r.2, r.2)) fun s =>
          (attributeValue (s.skip isBlank)).map fun v =>
            (.read (.attr (String.ofList r.1) (.raw (String.ofList v.1))) p v.2, v.2) := by
    rw [readAttribute]
    cases attributeName p with
    | error e => rfl
    | ok r =>
      rw [Except.bind]
      dsimp only
      cases equalsEnd? (r.2.skip isIndent) <;> rfl
  rw [hbind, hbind]
  refine (attributeName_crlf h hp).bind fun r r' _ hr => ?_
  rcases equalsEnd?_crlf (hr.2.skip (f := isIndent) rfl) with ⟨hq, hq'⟩ | ⟨q, q', hq, hq', htwin⟩
  · rw [hq, hq']
    refine .ok ⟨?_, hr.2⟩
    simp [Token.read, Lexeme.relabel, AttrValue.reword, hr.1]
  · rw [hq, hq']
    refine (attributeValue_crlf (htwin.skip rfl)).map fun v v' _ hv => ⟨?_, hv.2⟩
    simp [Token.read, Lexeme.relabel, AttrValue.reword, hr.1, hv.1]

/-! ## Attribute lists -/

/-- Attributes are read alike one by one. -/
theorem attributesFrom_crlf (start start' : Place) (h : Twin p p') :
    Alike ScanTwin (attributesFrom start p) (attributesFrom start' p') := by
  induction hlen : p.rest.length using Nat.strongRecOn generalizing p p' with
  | ind n ih =>
    subst hlen
    have hgap := h.skip (f := isSeparator) rfl
    by_cases hnil : (p.skip isSeparator).rest = []
    · rw [attributesFrom_nil hnil, attributesFrom_nil (hgap.rest_nil hnil)]
      exact .error rfl
    · by_cases hclose : (p.skip isSeparator).rest.head? = some ')'
      · obtain ⟨cs, hcs⟩ := List.head?_eq_some_iff.1 hclose
        rw [attributesFrom_close hcs, attributesFrom_close (hgap.rest_cons hcs (by decide))]
        exact .ok ⟨relabels_single rfl, hgap.drop_one hcs (by decide)⟩
      · -- Past the blanks, the attribute starts with no line break.
        have hhead : (p.skip isSeparator).rest.head? ≠ some '\n' := by
          intro hhead
          rw [Place.rest_skip] at hhead
          exact absurd (mem_head?_dropWhile hhead) (by decide)
        rw [attributesFrom_attr hnil hclose, attributesFrom_attr (mt hgap.rest_eq_nil_iff.1 hnil)
          (mt (hgap.head?_iff (by decide) (by decide)).1 hclose)]
        refine (readAttribute_crlf hgap hhead).bind fun r r' hr htwin =>
          (ih _ ?_ htwin.2 rfl).after (relabels_single htwin.1)
        exact Nat.lt_of_lt_of_le (readAttribute_reaches hr).2 (p.reaches_skip _).length_le

/-- A list of attributes is read alike. -/
theorem attributeList_crlf (h : Twin p p') (hopen : p.rest.head? = some '(') :
    Alike ScanTwin (attributeList p) (attributeList p') := by
  obtain ⟨cs, hcs⟩ := List.head?_eq_some_iff.1 hopen
  exact (attributesFrom_crlf p p' (h.drop_one hcs (by decide))).after (relabels_single rfl)

/-! ## Heads -/

/-- What a class says of the first character stays, if it does not tell the two characters of a
    line break apart. -/
theorem head?_map_crlf {f : Char → Bool} (hf : f '\r' = f '\n') (cs : List Char) :
    (crlf cs).head?.map f = cs.head?.map f := by
  cases cs with
  | nil => rfl
  | cons c cs =>
    by_cases hc : c = '\n'
    · rw [hc, crlf_newline, List.head?_cons, List.head?_cons, Option.map_some, Option.map_some, hf]
    · rw [crlf_cons hc]
      rfl

theorem relabel_of_sigil? {σ : List Char → List Char} {sigil : Char} {f : String → Lexeme}
    (hf : sigil? sigil = some f) (s : String) : (f s).relabel σ = f (reword σ s) := by
  rw [sigil?.eq_def] at hf
  split at hf
  · obtain rfl := Option.some.inj hf
    rfl
  · obtain rfl := Option.some.inj hf
    rfl
  · simp at hf

/-- A shorthand has no line break, neither after its sigil nor in its name. -/
theorem shorthand?_crlf (h : Twin p p') : (shorthand? p = none ∧ shorthand? p' = none) ∨
    ∃ r r', shorthand? p = some r ∧ shorthand? p' = some r' ∧ TokenTwin r r' := by
  have hpart (cs : List Char) : (∃ c ∈ (crlf cs).head?, isNamePart c = true) ↔
      ∃ c ∈ cs.head?, isNamePart c = true := by
    have hiff (ds : List Char) : (∃ c ∈ ds.head?, isNamePart c = true) ↔
        ds.head?.map isNamePart = some true := Option.map_eq_some_iff.symm
    rw [hiff, hiff, head?_map_crlf rfl]
  have hsigil {sigil : Char} {f : String → Lexeme} (hf : sigil? sigil = some f) :
      sigil ≠ '\n' ∧ sigil ≠ '\r' := by
    constructor
    all_goals
      rintro rfl
      simp [sigil?] at hf
  cases hs : shorthand? p with
  | none =>
    refine .inl ⟨rfl, Option.eq_none_iff_forall_ne_some.2 fun r' hs' => ?_⟩
    obtain ⟨sigil, f, ds, hf, hds, hc, -, -⟩ := shorthand?_eq_some hs'
    obtain ⟨cs, hcs, rfl⟩ := h.of_cons (hsigil hf).1 (hsigil hf).2 hds
    obtain ⟨t, q, ht, -, -⟩ := shorthand?_of_sigil hf hcs ((hpart cs).1 hc)
    simp [hs] at ht
  | some r =>
    obtain ⟨sigil, f, cs, hf, hcs, hc, ht, hq⟩ := shorthand?_eq_some hs
    obtain ⟨t', q', hs', ht', hq'⟩ :=
      shorthand?_of_sigil hf (h.rest_cons hcs (hsigil hf).1) ((hpart cs).2 hc)
    have hname : '\n' ∉ cs.takeWhile isNamePart := fun hn =>
      absurd (mem_takeWhile hn) (by decide)
    refine .inr ⟨r, _, rfl, hs', ?_, ?_, ?_⟩
    · rw [ht', ht, relabel_of_sigil? hf, reword_ofList, crlf_of_not_mem hname,
        takeWhile_crlf rfl rfl]
    · rw [hq', hq, dropWhile_crlf rfl]
    · exact fun hr => h.clean (hcs ▸ List.mem_cons_of_mem _
        ((List.dropWhile_suffix _).subset (hq ▸ hr)))

/-- The name of a tag is the same in both texts. -/
theorem tagName?_crlf (cs : List Char) : tagName? (crlf cs) = tagName? cs := by
  rw [tagName?, tagName?, head?_map_crlf rfl, takeWhile_crlf rfl rfl]

/-- There is no line feed in the name of a tag. -/
theorem not_mem_tagName? {cs name : List Char} (h : tagName? cs = some name) : '\n' ∉ name := by
  rw [tagName?] at h
  split at h
  · obtain rfl := Option.some.inj h
    intro hn
    have hmem : '\n' ∈ cs.takeWhile isTagNamePart := by
      rw [← dropTrailing_append_takeWhile isNameJoint (cs.takeWhile isTagNamePart)]
      exact List.mem_append_left _ hn
    exact absurd (mem_takeWhile hmem) (by decide)
  · simp at h

/-- Shorthands and lists are read alike. -/
theorem tagParts_crlf (h : Twin p p') : Alike ScanTwin (tagParts p) (tagParts p') := by
  induction hlen : p.rest.length using Nat.strongRecOn generalizing p p' with
  | ind n ih =>
    subst hlen
    rcases shorthand?_crlf h with ⟨hs, hs'⟩ | ⟨⟨t, q⟩, ⟨t', q'⟩, hs, hs', ht, hq⟩
    · by_cases hopen : p.rest.head? = some '('
      · rw [tagParts_list hs hopen,
          tagParts_list hs' ((h.head?_iff (by decide) (by decide)).2 hopen)]
        refine (attributeList_crlf h hopen).bind fun r r' hr htwin =>
          (ih _ ?_ htwin.2 rfl).after htwin.1
        exact (attributeList_reaches (fun hnil => by simp [hnil] at hopen) hr).2
      · rw [tagParts_end hs hopen,
          tagParts_end hs' (mt (h.head?_iff (by decide) (by decide)).1 hopen)]
        exact .ok ⟨relabels_nil, h⟩
    · rw [tagParts_shorthand hs, tagParts_shorthand hs']
      exact (ih _ (shorthand?_reaches hs).2 hq rfl).after (relabels_single ht)

/-- A head is read alike. -/
theorem tagHead_crlf (h : Twin p p') : Alike ScanTwin (tagHead p) (tagHead p') := by
  have hname' : tagName? p'.rest = tagName? p.rest := by rw [h.rest, tagName?_crlf]
  rw [tagHead, tagHead, hname']
  cases hname : tagName? p.rest with
  | some name =>
    -- The name is the start of the text, and has no line break in it.
    obtain ⟨ds, hds, -⟩ := wordBreak_tagName? hname
    have htake : p.rest.take name.length = name := by rw [hds, List.take_left]
    have hdrop := h.drop_plain (htake.symm ▸ not_mem_tagName? hname)
    exact .ite (fun _ => .error rfl) fun _ => (tagParts_crlf hdrop).after (relabels_single rfl)
  | none =>
    rcases shorthand?_crlf h with ⟨hs, hs'⟩ | ⟨⟨t, q⟩, ⟨t', q'⟩, hs, hs', ht, hq⟩
    · simp only [hs, hs']
      exact .error rfl
    · simp only [hs, hs']
      exact (tagParts_crlf hq).after (relabels_single ht)

end Readers

end SlotMarkup
