import SlotMarkup.Proofs.LineGrammar
import SlotMarkup.Proofs.Rewording

/-!
# Readers and other words

A reader of the markup decides by characters that are in no word. It reads a
reworded text as it reads the text: it stops at the same place, and what it takes
is what it took before, reworded (`Rereads`).

Where a word goes on, readers of strings and values take one step for each
character, and so are compared word by word (`valueEnd_skipWord`).
-/

namespace SlotMarkup

/-! ## Reworded tokens -/

/-- A string in other words. -/
def reword (σ : List Char → List Char) (s : String) : String := String.ofList (σ s.toList)

/-- The value of an attribute in other words. -/
def AttrValue.reword (σ : List Char → List Char) : AttrValue → AttrValue
  | bare => bare
  | raw text => raw (SlotMarkup.reword σ text)

/-- A lexeme in other words. -/
def Lexeme.reword (σ : List Char → List Char) : Lexeme → Lexeme
  | tag name => tag (SlotMarkup.reword σ name)
  | idShorthand name => idShorthand (SlotMarkup.reword σ name)
  | classShorthand name => classShorthand (SlotMarkup.reword σ name)
  | attr name value => attr (SlotMarkup.reword σ name) (value.reword σ)
  | text value => text (SlotMarkup.reword σ value)
  | comment value buffered => comment (SlotMarkup.reword σ value) buffered
  | l => l

/-- The tokens `us` are the tokens `ts` in other words, wherever they were read. -/
def Rewords (σ : List Char → List Char) (ts us : List Token) : Prop :=
  us.map Token.lexeme = ts.map fun t => t.lexeme.reword σ

/-- The scan `r` finds the tokens `ts` in other words, and ends where the text after `q`
    is left in other words. -/
def Rereads (σ : List Char → List Char) (ts : List Token) (q : Place) (r : Scan) : Prop :=
  ∃ us q', r = .ok (us, q') ∧ Rewords σ ts us ∧ q'.rest = σ q.rest

section Tokens

variable {σ : List Char → List Char}

@[simp] theorem reword_ofList (cs : List Char) :
    reword σ (String.ofList cs) = String.ofList (σ cs) := by
  rw [reword, String.toList_ofList]

theorem rewords_nil : Rewords σ [] [] := rfl

/-- Tokens are reworded part by part. -/
theorem Rewords.append {ts us ts' us' : List Token} (h : Rewords σ ts us) (h' : Rewords σ ts' us') :
    Rewords σ (ts ++ ts') (us ++ us') := by
  rw [Rewords, List.map_append, List.map_append, h, h']

theorem Rewords.cons {t u : Token} {ts us : List Token} (h : u.lexeme = t.lexeme.reword σ)
    (h' : Rewords σ ts us) : Rewords σ (t :: ts) (u :: us) := by
  rw [Rewords, List.map_cons, List.map_cons, h, h']

theorem rewords_single {t u : Token} (h : u.lexeme = t.lexeme.reword σ) : Rewords σ [t] [u] :=
  rewords_nil.cons h

/-- Tokens in front of those that are read reworded are reworded, too. -/
theorem Rereads.after {ts us us' : List Token} {q : Place} {r : Scan} (h : Rereads σ ts q r)
    (hu : Rewords σ us us') : Rereads σ (us ++ ts) q (r.after us') := by
  obtain ⟨ts', q', rfl, ht, hq⟩ := h
  exact ⟨us' ++ ts', q', Scan.after_ok _ _ _, hu.append ht, hq⟩

end Tokens

/-! ## Strings -/

section Words

variable {quote : Char} (hq : isWord quote = false)

/-- A character of words is none of those outside. -/
theorem ne_of_isWord {c d : Char} (hc : isWord c = true) (hd : isWord d = false) : c ≠ d := by
  rintro rfl
  simp [hc] at hd

include hq

/-- A string goes on for all of a word. -/
theorem quotedLength?_word {w : List Char} (hw : AllWord w) (cs : List Char) :
    quotedLength? quote (w ++ cs) = (quotedLength? quote cs).map (w.length + ·) :=
  quotedLength?_plain
    (fun c hc => ⟨ne_of_isWord (hw c hc) rfl, ne_of_isWord (hw c hc) hq⟩) cs

/-- Escaping the first character of a word makes no difference. -/
theorem quotedLength?_escape_word {w : List Char} (hw : AllWord w) (hne : w ≠ []) (cs : List Char) :
    quotedLength? quote ('\\' :: (w ++ cs)) =
      (quotedLength? quote cs).map fun n => w.length + n + 1 := by
  obtain ⟨c, w, rfl⟩ := List.exists_cons_of_ne_nil hne
  rw [List.cons_append, quotedLength?,
    quotedLength?_word hq fun d hd => hw d (List.mem_cons_of_mem _ hd), Option.map_map]
  refine congrArg (Option.map · _) (funext fun n => ?_)
  simp only [Function.comp_apply, List.length_cons]
  omega

end Words

section Readers

variable {σ : List Char → List Char} (hσ : Rewording σ)

include hσ

/-- The length of a start of a text that has all of the first word. -/
theorem length_take_word {w cs : List Char} (hcs : ∀ c ∈ cs.head?, isWord c = false) (m : Nat) :
    (σ ((w ++ cs).take (w.length + m))).length = (σ w).length + (σ (cs.take m)).length := by
  have hb : WordBreak w (cs.take m) := wordBreak_of_head fun c hc => hcs c (mem_head?_take hc)
  rw [List.take_length_add_append, hσ.append hb, List.length_append]

/-- A string ends behind the reworded characters up to its quote. -/
theorem quotedLength?_reword {quote : Char} (hq : isWord quote = false) {cs : List Char} {n : Nat}
    (h : quotedLength? quote cs = some n) :
    quotedLength? quote (σ cs) = some (σ (cs.take n)).length := by
  -- By the length of the text: a step takes all of a word, or a single character.
  induction hn : cs.length using Nat.strongRecOn generalizing cs n with
  | ind k ih =>
    subst hn
    cases cs using word_cases with
    | nil => simp [quotedLength?] at h
    | word w cs hne hw hcs =>
      rw [quotedLength?_word hq hw] at h
      obtain ⟨m, hm, rfl⟩ := Option.map_eq_some_iff.1 h
      have hlen : cs.length < (w ++ cs).length := by
        have := List.length_pos_iff.2 hne
        rw [List.length_append]
        omega
      rw [hσ.append (wordBreak_of_head hcs), quotedLength?_word hq (hσ.word hw hne).1,
        ih _ hlen hm rfl, Option.map_some, length_take_word hσ hcs]
    | other c cs hc =>
      by_cases hesc : c = '\\'
      · subst hesc
        cases cs using word_cases with
        | nil => simp [quotedLength?] at h
        | other d cs hd =>
          rw [quotedLength?] at h
          obtain ⟨m, hm, rfl⟩ := Option.map_eq_some_iff.1 h
          have hlen : cs.length < ('\\' :: d :: cs).length := by
            rw [List.length_cons, List.length_cons]
            omega
          rw [hσ.cons rfl, hσ.cons hd, quotedLength?, ih _ hlen hm rfl, Option.map_some,
            List.take_succ_cons, List.take_succ_cons, hσ.cons rfl, hσ.cons hd]
          rfl
        | word w cs hne hw hcs =>
          rw [quotedLength?_escape_word hq hw hne] at h
          obtain ⟨m, hm, rfl⟩ := Option.map_eq_some_iff.1 h
          have hlen : cs.length < ('\\' :: (w ++ cs)).length := by
            rw [List.length_cons, List.length_append]
            omega
          rw [hσ.cons rfl, hσ.append (wordBreak_of_head hcs),
            quotedLength?_escape_word hq (hσ.word hw hne).1 (hσ.word hw hne).2,
            ih _ hlen hm rfl, Option.map_some, List.take_succ_cons, hσ.cons rfl,
            List.length_cons, length_take_word hσ hcs]
      · by_cases hend : c = quote
        · subst hend
          obtain rfl := Option.some.inj ((quotedLength?_quote hesc cs).symm.trans h)
          rw [hσ.cons hc, quotedLength?_quote hesc, List.take_succ_cons, List.take_zero,
            hσ.single hc]
          rfl
        · rw [quotedLength?_cons hesc hend] at h
          obtain ⟨m, hm, rfl⟩ := Option.map_eq_some_iff.1 h
          rw [hσ.cons hc, quotedLength?_cons hesc hend, ih _ (by simp) hm rfl, Option.map_some,
            List.take_succ_cons, hσ.cons hc]
          rfl

/-- A string that is closed is read reworded. -/
theorem stringEnd_reword {c : Char} {cs : List Char} {p p' q : Place} (hc : isWord c = false)
    (hp : p.rest = c :: cs) (hp' : p'.rest = c :: σ cs) (h : stringEnd c p = .ok q) :
    ∃ q', stringEnd c p' = .ok q' ∧ q'.rest = σ q.rest := by
  rw [stringEnd] at h
  split at h
  · rename_i n hn
    obtain rfl := Except.ok.inj h
    rw [hp, List.drop_one, List.tail_cons] at hn
    have hb : WordBreak (cs.take n) (cs.drop n) := by
      obtain ⟨as, has⟩ := quotedLength?_spec hn
      exact has ▸ wordBreak_append_left hc
    refine ⟨p'.drop ((σ (cs.take n)).length + 1), ?_, ?_⟩
    · rw [stringEnd, hp', List.drop_one, List.tail_cons, quotedLength?_reword hσ hc hn]
    · rw [Place.rest_drop, Place.rest_drop, hp, hp', List.drop_succ_cons, List.drop_succ_cons,
        hσ.drop_length hb]
  · simp at h

/-! ## Values -/

omit hσ in
/-- A value goes on for all of a word. -/
theorem valueEnd_skipWord {depth : Nat} {w cs : List Char} (hw : AllWord w) {p : Place}
    (hp : p.rest = w ++ cs) : valueEnd depth p = valueEnd depth (p.drop w.length) := by
  induction w generalizing p with
  | nil => rw [List.length_nil, Place.drop_zero]
  | cons c w ih =>
    have hword := hw c List.mem_cons_self
    have hne : ∀ {d : Char}, isWord d = false → c ≠ d := ne_of_isWord hword
    have hrest : (p.drop 1).rest = w ++ cs := by rw [Place.rest_drop, hp]; rfl
    have hstep : valueEnd depth p = valueEnd depth (p.drop 1) := by
      rw [valueEnd_cons hp, if_neg, if_neg, if_neg, if_neg]
      · rintro ⟨-, rfl | hb⟩
        · exact hne rfl rfl
        · simp [isWord_of_isBlank hb] at hword
      all_goals
        rintro (rfl | rfl | rfl)
        all_goals exact hne rfl rfl
    rw [hstep, ih (fun d hd => hw d (List.mem_cons_of_mem _ hd)) hrest, Place.drop_drop,
      List.length_cons, Nat.add_comm 1]

/-- A value ends at the same character outside words. -/
theorem valueEnd_reword {depth : Nat} {p p' q : Place} (hp : p'.rest = σ p.rest)
    (h : valueEnd depth p = .ok q) : ∃ q', valueEnd depth p' = .ok q' ∧ q'.rest = σ q.rest := by
  induction hn : p.rest.length using Nat.strongRecOn generalizing depth p p' with
  | ind n ih =>
    subst hn
    generalize hcs : p.rest = cs at hp ih
    cases cs using word_cases with
    | nil =>
      rw [hσ.nil] at hp
      obtain rfl := Except.ok.inj ((valueEnd_nil hcs).symm.trans h)
      exact ⟨p', valueEnd_nil hp, by rw [hp, hcs, hσ.nil]⟩
    | word w cs hne hw hhead =>
      rw [hσ.append (wordBreak_of_head hhead)] at hp
      rw [valueEnd_skipWord hw hcs] at h
      rw [valueEnd_skipWord (hσ.word hw hne).1 hp]
      have hlen := List.length_pos_iff.2 hne
      refine ih _ ?_ ?_ h rfl
      · rw [Place.rest_drop, hcs, List.drop_left, List.length_append]
        omega
      · rw [Place.rest_drop, Place.rest_drop, hp, hcs, List.drop_left, List.drop_left]
    | other c cs hc =>
      rw [hσ.cons hc] at hp
      -- Past the character, and past a string that starts with it, the texts go on alike.
      have hpast : ∀ {depth' : Nat}, valueEnd depth' (p.drop 1) = .ok q →
          ∃ q', valueEnd depth' (p'.drop 1) = .ok q' ∧ q'.rest = σ q.rest := by
        intro depth' h'
        refine ih _ ?_ ?_ h' rfl
        · rw [Place.rest_drop, hcs]
          simp
        · rw [Place.rest_drop, Place.rest_drop, hp, hcs]
          rfl
      rw [valueEnd_cons hcs] at h
      rw [valueEnd_cons hp]
      split at h
      · rename_i hquote
        rw [if_pos hquote]
        obtain ⟨r, hr, h⟩ := bind_eq_ok_iff.1 h
        obtain ⟨r', hr', hrest⟩ := stringEnd_reword hσ hc hcs hp hr
        rw [hr', Except.bind]
        refine ih _ ?_ hrest h rfl
        rw [← hcs]
        exact stringEnd_lt (by simp [hcs]) hr
      · rename_i hquote
        rw [if_neg hquote]
        split at h
        · rename_i hopen
          rw [if_pos hopen]
          exact hpast h
        · rename_i hopen
          rw [if_neg hopen]
          split at h
          · rename_i hclose
            rw [if_pos hclose]
            split at h
            · rename_i hdepth
              obtain rfl := Except.ok.inj h
              exact ⟨p', if_pos hdepth, by rw [hp, hcs, hσ.cons hc]⟩
            · rename_i hdepth
              rw [if_neg hdepth]
              exact hpast h
          · rename_i hclose
            rw [if_neg hclose]
            split at h
            · rename_i hend
              obtain rfl := Except.ok.inj h
              exact ⟨p', if_pos hend, by rw [hp, hcs, hσ.cons hc]⟩
            · rename_i hend
              rw [if_neg hend]
              exact hpast h

/-! ## Names -/

omit hσ in
/-- A name goes on for all of a word. -/
theorem nameLength_word {w : List Char} (hw : AllWord w) (cs : List Char) :
    nameLength (w ++ cs) = w.length + nameLength cs := by
  refine nameLength_plain (fun c hc => ⟨Bool.eq_false_iff.2 fun hsep => ?_, fun hmem => ?_⟩) cs
  · have := isWord_of_gap hsep
    simp [hw c hc] at this
  · have hword := hw c hc
    simp only [List.mem_cons, List.not_mem_nil, or_false] at hmem
    rcases hmem with rfl | rfl | rfl | rfl <;> simp [isWord] at hword

/-- A name ends at the same character outside words. -/
theorem nameLength_reword (cs : List Char) :
    nameLength (σ cs) = (σ (cs.take (nameLength cs))).length := by
  induction cs using word_induction with
  | nil =>
    rw [List.take_nil, hσ.nil]
    rfl
  | word w cs hne hw hcs ih =>
    rw [hσ.append (wordBreak_of_head hcs), nameLength_word hw, nameLength_word (hσ.word hw hne).1,
      ih, length_take_word hσ hcs]
  | other c cs hc ih =>
    rw [hσ.cons hc, nameLength, nameLength]
    split
    · rw [List.take_zero, hσ.nil]
      rfl
    · -- An exclamation mark ends the name if an equals sign comes after it.
      simp only [hσ.head?_eq_iff (show isWord '=' = false from rfl)]
      split
      · rw [List.take_zero, hσ.nil]
        rfl
      · rw [List.take_succ_cons, hσ.cons hc, ih]
        rfl

/-- A quote at the start of a text is there in other words too, and no other. -/
theorem quote_iff {c d : Char} {cs ds : List Char} (h : σ (c :: cs) = d :: ds) :
    (d = '\'' ∨ d = '"') ↔ (c = '\'' ∨ c = '"') := by
  have hsame : ∀ {e : Char}, isWord e = false → (d = e ↔ c = e) := by
    intro e he
    have hhead : (σ (c :: cs)).head? = some e ↔ (c :: cs).head? = some e := hσ.head?_eq_iff he
    simpa [h] using hhead
  rw [hsame rfl, hsame rfl]

/-- A name is read reworded. -/
theorem attributeName_reword {p p' q : Place} {name : List Char} (hp : p'.rest = σ p.rest)
    (h : attributeName p = .ok (name, q)) :
    ∃ q', attributeName p' = .ok (σ name, q') ∧ q'.rest = σ q.rest := by
  cases hcs : p.rest with
  | nil => simp [attributeName, hcs] at h
  | cons c cs =>
    obtain ⟨d, ds, hds⟩ := List.exists_cons_of_ne_nil (mt hσ.eq_nil_iff.1 (List.cons_ne_nil c cs))
    rw [attributeName_cons hcs] at h
    have hiff := quote_iff hσ hds
    rw [attributeName_cons (hp.trans (hcs ▸ hds))]
    split at h
    · rename_i hquote
      have hc : isWord c = false := by rcases hquote with rfl | rfl <;> rfl
      rw [hcs, hσ.cons hc] at hp
      rw [hσ.cons hc] at hds
      obtain ⟨rfl, -⟩ := List.cons.inj hds
      obtain ⟨r, hr, hrq⟩ := map_eq_ok_iff.1 h
      obtain ⟨rfl, rfl⟩ := Prod.mk.inj hrq
      obtain ⟨r', hr', hrest⟩ := stringEnd_reword hσ hc hcs hp hr
      obtain ⟨as, has⟩ := stringEnd_spec hcs hr
      -- Between the quotes stands the name, here and there.
      have hname : (p.drop 1).upTo r = as ++ [c] := Place.upTo_of_quotes (has ▸ hcs)
      have hname' : (p'.drop 1).upTo r' = σ as ++ [c] := by
        refine Place.upTo_of_quotes ?_
        rw [hp, has, hrest, hσ.append (wordBreak_cons_right hc), hσ.cons hc]
      refine ⟨r', ?_, hrest⟩
      rw [if_pos (hiff.2 hquote), hr', Except.map, hname, hname', List.dropLast_concat,
        List.dropLast_concat]
    · rename_i hquote
      split at h
      · simp at h
      · rename_i hlen
        obtain ⟨rfl, rfl⟩ := Prod.mk.inj (Except.ok.inj h)
        have hb : WordBreak (p.rest.take (nameLength p.rest)) (p.rest.drop (nameLength p.rest)) :=
          wordBreak_of_head (nameLength_head p.rest)
        have hlen' : ¬(σ (p.rest.take (nameLength p.rest))).length = 0 := by
          rw [List.length_eq_zero_iff, hσ.eq_nil_iff, List.take_eq_nil_iff, hcs]
          rw [hcs] at hlen
          simp [hlen]
        rw [if_neg (mt hiff.1 hquote), hp, nameLength_reword hσ, if_neg hlen', hσ.take_length hb]
        refine ⟨_, rfl, ?_⟩
        rw [Place.rest_drop, Place.rest_drop, hp, hσ.drop_length hb]

/-! ## Attributes -/

/-- An equals sign is found in both texts. -/
theorem equalsEnd?_reword {p p' q : Place} (hp : p'.rest = σ p.rest)
    (h : equalsEnd? p = some q) : ∃ q', equalsEnd? p' = some q' ∧ q'.rest = σ q.rest := by
  rw [equalsEnd?.eq_def] at h
  split at h
  · rename_i cs hcs
    obtain rfl := Option.some.inj h
    rw [hcs, hσ.cons rfl] at hp
    refine ⟨p'.drop 1, by simp only [equalsEnd?, hp], ?_⟩
    rw [Place.rest_drop, Place.rest_drop, hp, hcs]
    rfl
  · rename_i cs hcs
    obtain rfl := Option.some.inj h
    rw [hcs, hσ.cons rfl, hσ.cons rfl] at hp
    refine ⟨p'.drop 2, by simp only [equalsEnd?, hp], ?_⟩
    rw [Place.rest_drop, Place.rest_drop, hp, hcs]
    rfl
  · simp at h

/-- An equals sign is missing in both texts. -/
theorem equalsEnd?_reword_none {p p' : Place} (hp : p'.rest = σ p.rest)
    (h : equalsEnd? p = none) : equalsEnd? p' = none := by
  rw [equalsEnd?.eq_def] at h ⊢
  split
  · rename_i ds hds
    obtain ⟨cs, hcs, -⟩ := hσ.of_cons rfl (hp.symm.trans hds)
    simp [hcs] at h
  · rename_i ds hds
    obtain ⟨cs, hcs, hrest⟩ := hσ.of_cons rfl (hp.symm.trans hds)
    obtain ⟨es, rfl, -⟩ := hσ.of_cons rfl hrest.symm
    simp [hcs] at h
  · rfl

/-- The same characters are skipped in both texts, if their class does not tell words apart. -/
theorem skip_reword {f : Char → Bool} (hf : Uniform f) {p p' : Place} (hp : p'.rest = σ p.rest) :
    (p'.skip f).rest = σ (p.skip f).rest := by
  rw [Place.rest_skip, Place.rest_skip, hp, hσ.dropWhile hf]

/-- A value is read reworded. -/
theorem attributeValue_reword {p p' q : Place} {value : List Char} (hp : p'.rest = σ p.rest)
    (h : attributeValue p = .ok (value, q)) :
    ∃ q', attributeValue p' = .ok (σ value, q') ∧ q'.rest = σ q.rest := by
  rw [attributeValue] at h
  split at h
  · simp at h
  · rename_i r hr
    split at h
    · simp at h
    · rename_i hne
      obtain ⟨rfl, rfl⟩ := Prod.mk.inj (Except.ok.inj h)
      obtain ⟨r', hr', hrest⟩ := valueEnd_reword hσ hp hr
      have hvalue : p'.upTo r' = σ (p.upTo r) := Place.upTo_eq_of_append (by
        rw [hp, hrest, ← hσ.append (wordBreak_of_head (valueEnd_head hr)),
          (reaches_valueEnd hr).append_upTo])
      refine ⟨r', ?_, hrest⟩
      simp only [attributeValue, hr', hvalue, hσ.eq_nil_iff, if_neg hne]

/-- An attribute is read reworded, name and value. -/
theorem readAttribute_reword {p p' q : Place} {t : Token} (hp : p'.rest = σ p.rest)
    (h : readAttribute p = .ok (t, q)) : ∃ t' q', readAttribute p' = .ok (t', q') ∧
      t'.lexeme = t.lexeme.reword σ ∧ q'.rest = σ q.rest := by
  rw [readAttribute] at h
  split at h
  · simp at h
  · rename_i name r hr
    obtain ⟨r', hr', hrest⟩ := attributeName_reword hσ hp hr
    have hskip := skip_reword hσ uniform_isIndent hrest
    split at h
    · rename_i heq
      obtain ⟨rfl, rfl⟩ := Prod.mk.inj (Except.ok.inj h)
      refine ⟨.read (.attr (String.ofList (σ name)) .bare) p' r', r', ?_, ?_, hrest⟩
      · simp only [readAttribute, hr', equalsEnd?_reword_none hσ hskip heq]
      · simp [Token.read, Lexeme.reword, AttrValue.reword]
    · rename_i s hs
      obtain ⟨⟨value, u⟩, hv, hu⟩ := map_eq_ok_iff.1 h
      obtain ⟨rfl, rfl⟩ := Prod.mk.inj hu
      obtain ⟨s', hs', hsrest⟩ := equalsEnd?_reword hσ hskip hs
      obtain ⟨u', hu', hurest⟩ :=
        attributeValue_reword hσ (skip_reword hσ uniform_isBlank hsrest) hv
      refine ⟨.read (.attr (String.ofList (σ name)) (.raw (String.ofList (σ value)))) p' u', u',
        ?_, ?_, hurest⟩
      · simp only [readAttribute, hr', hs', hu', Except.map]
      · simp [Token.read, Lexeme.reword, AttrValue.reword]

/-! ## Attribute lists -/

/-- Attributes are read reworded one by one. -/
theorem attributesFrom_reword {start start' p p' q : Place} {ts : List Token}
    (hp : p'.rest = σ p.rest) (h : attributesFrom start p = .ok (ts, q)) :
    Rereads σ ts q (attributesFrom start' p') := by
  have hgap : ∀ {p p' : Place}, p'.rest = σ p.rest →
      (p'.skip isSeparator).rest = σ (p.skip fun c => isBlank c || c == ',').rest :=
    skip_reword hσ (uniform_of_no_word fun _ => isWord_of_gap)
  fun_induction attributesFrom start p generalizing ts p' with
  | case1 => simp at h
  | case2 p r =>
    rename_i cs hr
    obtain ⟨rfl, rfl⟩ := Prod.mk.inj (Except.ok.inj h)
    have hrest := hgap hp
    have hr' : (p'.skip isSeparator).rest = ')' :: σ cs := by
      rw [hrest, hr, hσ.cons rfl]
    rw [attributesFrom_close hr']
    refine ⟨_, _, rfl, rewords_single rfl, ?_⟩
    rw [Place.rest_drop, Place.rest_drop, hr', hr]
    rfl
  | case3 => simp at h
  | case4 p r t s hs =>
    rename_i hnil hclose ih
    obtain ⟨us, hus, rfl⟩ := Scan.after_eq_ok_iff.1 h
    have hrest := hgap hp
    obtain ⟨t', s', hs', ht, hsrest⟩ := readAttribute_reword hσ hrest hs
    have hne' : (p'.skip isSeparator).rest ≠ [] := by
      rw [hrest]
      exact mt hσ.eq_nil_iff.1 hnil
    have hclose' : (p'.skip isSeparator).rest.head? ≠ some ')' := by
      rw [hrest, ne_eq, hσ.head?_eq_iff rfl]
      intro hhead
      obtain ⟨cs, hcs⟩ := List.head?_eq_some_iff.1 hhead
      exact hclose cs hcs
    rw [attributesFrom_attr hne' hclose', hs', Except.bind]
    exact (ih hsrest hus).after (rewords_single ht)

/-- A list of attributes is read reworded. -/
theorem attributeList_reword {p p' q : Place} {ts : List Token} (hp : p'.rest = σ p.rest)
    (hopen : p.rest.head? = some '(') (h : attributeList p = .ok (ts, q)) :
    Rereads σ ts q (attributeList p') := by
  obtain ⟨us, hus, rfl⟩ := Scan.after_eq_ok_iff.1 h
  obtain ⟨cs, hcs⟩ := List.head?_eq_some_iff.1 hopen
  have hrest : (p'.drop 1).rest = σ (p.drop 1).rest := by
    rw [Place.rest_drop, Place.rest_drop, hp, hcs, hσ.cons rfl]
    rfl
  exact (attributesFrom_reword hσ hrest hus).after (rewords_single rfl)

/-! ## Heads -/

omit hσ in
theorem reword_of_sigil? {sigil : Char} {f : String → Lexeme} (hf : sigil? sigil = some f)
    (s : String) : (f s).reword σ = f (reword σ s) := by
  rw [sigil?.eq_def] at hf
  split at hf
  · obtain rfl := Option.some.inj hf
    rfl
  · obtain rfl := Option.some.inj hf
    rfl
  · simp at hf

/-- Name characters go on after a sigil in other words too. -/
theorem namePart_iff (cs : List Char) : (∃ c ∈ (σ cs).head?, isNamePart c = true) ↔
    ∃ c ∈ cs.head?, isNamePart c = true := by
  have hiff : ∀ ds : List Char, (∃ c ∈ ds.head?, isNamePart c = true) ↔
      ds.head?.map isNamePart = some true := fun ds => Option.map_eq_some_iff.symm
  rw [hiff, hiff, hσ.map_head? uniform_isNamePart]

/-- A shorthand is read reworded. -/
theorem shorthand?_reword {p p' q : Place} {t : Token} (hp : p'.rest = σ p.rest)
    (h : shorthand? p = some (t, q)) : ∃ t' q', shorthand? p' = some (t', q') ∧
      t'.lexeme = t.lexeme.reword σ ∧ q'.rest = σ q.rest := by
  obtain ⟨sigil, f, cs, hf, hcs, hpart, ht, hq⟩ := shorthand?_eq_some h
  rw [hcs, hσ.cons (isWord_of_sigil? hf)] at hp
  obtain ⟨t', q', hs', ht', hq'⟩ := shorthand?_of_sigil hf hp ((namePart_iff hσ cs).2 hpart)
  refine ⟨t', q', hs', ?_, ?_⟩
  · rw [ht', ht, reword_of_sigil? hf, reword_ofList, hσ.takeWhile uniform_isNamePart]
  · rw [hq', hq, hσ.dropWhile uniform_isNamePart]

/-- A shorthand is missing in both texts. -/
theorem shorthand?_reword_none {p p' : Place} (hp : p'.rest = σ p.rest)
    (h : shorthand? p = none) : shorthand? p' = none := by
  rw [Option.eq_none_iff_forall_ne_some]
  rintro ⟨t', q'⟩ hs'
  obtain ⟨sigil, f, ds, hf, hds, hpart, -, -⟩ := shorthand?_eq_some hs'
  obtain ⟨cs, hcs, rfl⟩ := hσ.of_cons (isWord_of_sigil? hf) (hp.symm.trans hds)
  obtain ⟨t, q, hs, -, -⟩ := shorthand?_of_sigil hf hcs ((namePart_iff hσ cs).1 hpart)
  simp [hs] at h

/-- The name of a tag is read reworded. -/
theorem tagName?_reword (cs : List Char) : tagName? (σ cs) = (tagName? cs).map σ := by
  rw [tagName?, tagName?, hσ.map_head? (f := isWord) (fun a b ha hb => ha.trans hb.symm)]
  split
  · rw [Option.map_some, hσ.takeWhile uniform_isTagNamePart,
      hσ.dropTrailing fun _ => isWord_of_isNameJoint]
  · rfl

/-- Shorthands and lists are read reworded. -/
theorem tagParts_reword {p p' q : Place} {ts : List Token} (hp : p'.rest = σ p.rest)
    (h : tagParts p = .ok (ts, q)) : Rereads σ ts q (tagParts p') := by
  fun_induction tagParts p generalizing ts p' with
  | case1 p t r hs ih =>
    obtain ⟨us, hus, rfl⟩ := Scan.after_eq_ok_iff.1 h
    obtain ⟨t', r', hs', ht, hr⟩ := shorthand?_reword hσ hp hs
    rw [tagParts_shorthand hs']
    exact (ih hr hus).after (rewords_single ht)
  | case2 => simp at h
  | case3 p hs hopen us r hl ih =>
    obtain ⟨vs, hvs, rfl⟩ := Scan.after_eq_ok_iff.1 h
    obtain ⟨us', r', hl', hus, hr⟩ := attributeList_reword hσ hp hopen hl
    have hopen' : p'.rest.head? = some '(' := by rwa [hp, hσ.head?_eq_iff rfl]
    rw [tagParts_list (shorthand?_reword_none hσ hp hs) hopen', hl', Except.bind]
    exact (ih hr hvs).after hus
  | case4 p hs hopen =>
    obtain ⟨rfl, rfl⟩ := Prod.mk.inj (Except.ok.inj h)
    have hopen' : ¬p'.rest.head? = some '(' := by rwa [hp, hσ.head?_eq_iff rfl]
    rw [tagParts_end (shorthand?_reword_none hσ hp hs) hopen']
    exact ⟨[], p', rfl, rewords_nil, hp⟩

/-- The head of a tag whose name stays as it is. -/
theorem tagHead_reword {p p' q : Place} {ts : List Token} (hp : p'.rest = σ p.rest)
    (h : tagHead p = .ok (ts, q)) (hnames : TagNames (fun name => reword σ name = name) ts) :
    Rereads σ ts q (tagHead p') := by
  rw [tagHead] at h
  split at h
  · rename_i name hname
    dsimp only at h
    split at h
    · simp at h
    · rename_i hkey
      obtain ⟨us, hus, rfl⟩ := Scan.after_eq_ok_iff.1 h
      have hfix : σ name = name := by
        have hsame : reword σ (String.ofList name) = String.ofList name :=
          hnames _ List.mem_cons_self _ rfl
        rwa [reword_ofList, String.ofList_inj] at hsame
      have hname' : tagName? p'.rest = some name := by
        rw [hp, tagName?_reword hσ, hname, Option.map_some, hfix]
      have hrest : (p'.drop name.length).rest = σ (p.drop name.length).rest := by
        obtain ⟨ds, hds, hb⟩ := wordBreak_tagName? hname
        rw [Place.rest_drop, Place.rest_drop, hp, hds, hσ.append hb, hfix, List.drop_left,
          List.drop_left]
      simp only [tagHead, hname', if_neg hkey]
      exact (tagParts_reword hσ hrest hus).after
        (rewords_single (by simp [Token.read, Lexeme.reword, hfix]))
  · rename_i hname
    have hname' : tagName? p'.rest = none := by rw [hp, tagName?_reword hσ, hname]; rfl
    split at h
    · rename_i t r hs
      obtain ⟨us, hus, rfl⟩ := Scan.after_eq_ok_iff.1 h
      obtain ⟨t', r', hs', ht, hr⟩ := shorthand?_reword hσ hp hs
      simp only [tagHead, hname', hs']
      exact (tagParts_reword hσ hr hus).after (rewords_single ht)
    · simp at h

end Readers

end SlotMarkup
