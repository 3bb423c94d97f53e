import SlotMarkup.Proofs.ReaderEquations
import SlotMarkup.Proofs.ScanMeasure

/-!
# Readers in longer texts

A text can go on where another one ends (`Place.extend`). What is read of a head does not
change by that, if nothing that could belong to the head comes next (`StopsHead`): the same
tokens are read, and the readers end at the same place, behind which there is more.

* `valueEnd_extend`, `readAttribute_extend`: a value or an attribute that ends before the text;
* `attributesFrom_extend`: an attribute list, which ends with its parenthesis;
* `tagHead_extend`: the head of a tag, also one that ends with the text.
-/

namespace SlotMarkup

/-! ## Places -/

namespace Place

/-- The same place in a text that goes on with `more`. -/
def extend (p : Place) (more : List Char) : Place := ⟨p.offset, p.rest ++ more⟩

section Extend

variable {p q : Place} {more : List Char}

@[simp] theorem rest_extend : (p.extend more).rest = p.rest ++ more := rfl

theorem rest_extend_cons {c : Char} {cs : List Char} (h : p.rest = c :: cs) :
    (p.extend more).rest = c :: (cs ++ more) := by rw [rest_extend, h, List.cons_append]

/-- Text put behind a text does not change how that starts. -/
theorem head?_extend (h : p.rest ≠ []) : (p.extend more).rest.head? = p.rest.head? := by
  obtain ⟨c, cs, hcs⟩ := List.exists_cons_of_ne_nil h
  rw [rest_extend_cons hcs, hcs, List.head?_cons, List.head?_cons]

/-- Going on within a text commutes with putting more behind it. -/
theorem drop_extend {n : Nat} (h : n ≤ p.rest.length) :
    (p.extend more).drop n = (p.drop n).extend more := by
  rw [extend, extend, drop, drop, Place.mk.injEq]
  exact ⟨by rw [List.take_append_of_le_length h], List.drop_append_of_le_length h⟩

theorem drop_extend_one {c : Char} {cs : List Char} (h : p.rest = c :: cs) :
    (p.extend more).drop 1 = (p.drop 1).extend more :=
  drop_extend (by simp [h])

/-- A run that does not go on in the text behind ends where it did. -/
theorem skip_extend {f : Char → Bool}
    (h : (p.rest ++ more).takeWhile f = p.rest.takeWhile f) :
    (p.extend more).skip f = (p.skip f).extend more := by
  rw [skip, skip, rest_extend, h]
  exact drop_extend (List.takeWhile_prefix f).length_le

/-- What lies between two places stays the same. -/
theorem upTo_extend : (p.extend more).upTo (q.extend more) = p.upTo q := by
  rw [upTo, upTo, rest_extend, rest_extend, List.length_append, List.length_append,
    Nat.add_sub_add_right, List.take_append_of_le_length (Nat.sub_le _ _)]

/-- A character outside a class is not skipped with it. -/
theorem mem_skip {f : Char → Bool} {c : Char} (h : c ∈ p.rest) (hc : f c = false) :
    c ∈ (p.skip f).rest := by
  rw [← List.takeWhile_append_dropWhile (p := f) (l := p.rest), List.mem_append] at h
  rw [rest_skip]
  exact h.resolve_left fun hmem => by simp [mem_takeWhile hmem] at hc

end Extend

end Place

section Readers

variable {p q : Place} (more : List Char)

/-! ## Strings and values -/

/-- A string that is closed ends where it did. -/
theorem quotedLength?_append {quote : Char} {cs : List Char} {n : Nat}
    (h : quotedLength? quote cs = some n) :
    n ≤ cs.length ∧ quotedLength? quote (cs ++ more) = some n := by
  fun_induction quotedLength? quote cs generalizing n with
  | case1 => simp at h
  | case2 => simp at h
  | case3 c cs ih =>
    obtain ⟨m, hm, rfl⟩ := Option.map_eq_some_iff.1 h
    obtain ⟨hle, happend⟩ := ih hm
    refine ⟨Nat.add_le_add_right hle 2, ?_⟩
    rw [List.cons_append, List.cons_append, quotedLength?, happend]
    rfl
  | case4 cs hone hesc =>
    obtain rfl := Option.some.inj h
    refine ⟨by simp, ?_⟩
    rw [List.cons_append, quotedLength?_quote]
    rintro rfl
    cases cs with
    | nil => exact hone rfl rfl
    | cons d ds => exact hesc d ds rfl rfl
  | case5 c cs hone hesc hc ih =>
    obtain ⟨m, hm, rfl⟩ := Option.map_eq_some_iff.1 h
    obtain ⟨hle, happend⟩ := ih hm
    refine ⟨Nat.add_le_add_right hle 1, ?_⟩
    rw [List.cons_append, quotedLength?_cons ?_ hc, happend]
    · rfl
    · rintro rfl
      cases cs with
      | nil => exact hone rfl rfl
      | cons d ds => exact hesc d ds rfl rfl

/-- A string that is closed is read alike with more text behind it. -/
theorem stringEnd_extend {quote c : Char} {cs : List Char} (hp : p.rest = c :: cs)
    (h : stringEnd quote p = .ok q) : stringEnd quote (p.extend more) = .ok (q.extend more) := by
  rw [stringEnd, hp, List.drop_one, List.tail_cons] at h
  split at h
  · rename_i n hn
    obtain rfl := Except.ok.inj h
    obtain ⟨hle, happend⟩ := quotedLength?_append more hn
    rw [stringEnd, Place.rest_extend_cons hp, List.drop_one, List.tail_cons, happend]
    refine congrArg Except.ok (Place.drop_extend ?_)
    rw [hp, List.length_cons]
    omega
  · simp at h

/-- A value that ends before the end of the text is read alike with more behind it. -/
theorem valueEnd_extend {depth : Nat} (h : valueEnd depth p = .ok q) (hq : q.rest ≠ []) :
    valueEnd depth (p.extend more) = .ok (q.extend more) := by
  fun_induction valueEnd depth p with
  | case1 depth p hp =>
    obtain rfl := Except.ok.inj h
    exact absurd hp hq
  | case2 depth p c cs hp hquote r hr ih =>
    rw [valueEnd_cons (Place.rest_extend_cons hp), if_pos hquote, stringEnd_extend more hp hr]
    exact ih h
  | case3 => simp at h
  | case4 depth p c cs hp hquote hopen ih =>
    rw [valueEnd_cons (Place.rest_extend_cons hp), if_neg hquote, if_pos hopen,
      Place.drop_extend_one hp]
    exact ih h
  | case5 p c cs hp hquote hopen hclose =>
    obtain rfl := Except.ok.inj h
    rw [valueEnd_cons (Place.rest_extend_cons hp), if_neg hquote, if_neg hopen, if_pos hclose,
      if_pos rfl]
  | case6 depth p c cs hp hquote hopen hclose hdepth ih =>
    rw [valueEnd_cons (Place.rest_extend_cons hp), if_neg hquote, if_neg hopen, if_pos hclose,
      if_neg hdepth, Place.drop_extend_one hp]
    exact ih h
  | case7 depth p c cs hp hquote hopen hclose hend =>
    obtain rfl := Except.ok.inj h
    rw [valueEnd_cons (Place.rest_extend_cons hp), if_neg hquote, if_neg hopen, if_neg hclose,
      if_pos hend]
  | case8 depth p c cs hp hquote hopen hclose hend ih =>
    rw [valueEnd_cons (Place.rest_extend_cons hp), if_neg hquote, if_neg hopen, if_neg hclose,
      if_neg hend, Place.drop_extend_one hp]
    exact ih h

/-! ## Attributes -/

/-- A name that ends before the text. -/
theorem nameLength_append {cs : List Char} (h : nameLength cs < cs.length) :
    nameLength (cs ++ more) = nameLength cs := by
  fun_induction nameLength cs with
  | case1 => simp at h
  | case2 c cs hend => rw [List.cons_append, nameLength, if_pos hend]
  | case3 c cs hend hbang =>
    obtain ⟨ds, hds⟩ := List.head?_eq_some_iff.1 hbang.2
    rw [List.cons_append, nameLength, if_neg hend, if_pos ⟨hbang.1, by rw [hds]; rfl⟩]
  | case4 c cs hend hbang ih =>
    rw [List.length_cons, Nat.add_lt_add_iff_right] at h
    cases cs with
    | nil => simp at h
    | cons d ds =>
      have hbang' : ¬(c = '!' ∧ (d :: ds ++ more).head? = some '=') := hbang
      rw [List.cons_append, nameLength, if_neg hend, if_neg hbang', ih h]

/-- A name that ends before the end of the text is read alike with more behind it. -/
theorem attributeName_extend {name : List Char} (h : attributeName p = .ok (name, q))
    (hq : q.rest ≠ []) : attributeName (p.extend more) = .ok (name, q.extend more) := by
  cases hp : p.rest with
  | nil => simp [attributeName, hp] at h
  | cons c cs =>
    rw [attributeName_cons hp] at h
    rw [attributeName_cons (Place.rest_extend_cons hp)]
    split at h
    · rename_i hquote
      obtain ⟨r, hr, hrq⟩ := map_eq_ok_iff.1 h
      obtain ⟨rfl, rfl⟩ := Prod.mk.inj hrq
      rw [if_pos hquote, stringEnd_extend more hp hr, Place.drop_extend_one hp]
      exact congrArg Except.ok (congrArg (·.dropLast, r.extend more) Place.upTo_extend)
    · rename_i hquote
      split at h
      · simp at h
      · rename_i hlen
        obtain ⟨rfl, rfl⟩ := Prod.mk.inj (Except.ok.inj h)
        have hlt : nameLength p.rest < p.rest.length := by
          rw [Place.rest_drop, ne_eq, List.drop_eq_nil_iff] at hq
          omega
        rw [if_neg hquote, Place.rest_extend, nameLength_append more hlt, if_neg hlen,
          List.take_append_of_le_length (Nat.le_of_lt hlt), Place.drop_extend (Nat.le_of_lt hlt)]

/-- Whether an equals sign comes next is known where a parenthesis is still to come. -/
theorem equalsEnd?_extend (hp : ')' ∈ p.rest) :
    equalsEnd? (p.extend more) = (equalsEnd? p).map (·.extend more) := by
  rw [equalsEnd?.eq_def p]
  split
  · rename_i cs hcs
    simp only [equalsEnd?, Place.rest_extend_cons hcs, Place.drop_extend_one hcs, Option.map_some]
  · rename_i cs hcs
    simp only [equalsEnd?, Place.rest_extend, hcs, List.cons_append, Option.map_some]
    rw [Place.drop_extend (by simp [hcs])]
  · rename_i hequals hbang
    rw [equalsEnd?.eq_def, Place.rest_extend]
    cases hcs : p.rest with
    | nil => simp [hcs] at hp
    | cons c cs =>
      have hc : c ≠ '=' := fun hc => hequals cs (by rw [hcs, hc])
      have hb : ∀ ds, c :: (cs ++ more) ≠ '!' :: '=' :: ds := by
        intro ds hds
        obtain ⟨hc, hds⟩ := List.cons.inj hds
        cases cs with
        | nil => simp [hcs, hc] at hp
        | cons d cs =>
          obtain ⟨hd, -⟩ := List.cons.inj hds
          exact hbang cs (by rw [hcs, hc, hd])
      rw [List.cons_append]
      split
      · rename_i h
        exact absurd (List.cons.inj h).1 hc
      · rename_i h
        exact absurd h (hb _)
      · rfl

/-- A value that ends before the end of the text is cut out alike with more behind it. -/
theorem attributeValue_extend {value : List Char} (h : attributeValue p = .ok (value, q))
    (hq : q.rest ≠ []) : attributeValue (p.extend more) = .ok (value, q.extend more) := by
  rw [attributeValue] at h
  split at h
  · simp at h
  · rename_i r hr
    split at h
    · simp at h
    · rename_i hne
      obtain ⟨rfl, rfl⟩ := Prod.mk.inj (Except.ok.inj h)
      simp only [attributeValue, valueEnd_extend more hr hq, Place.upTo_extend, if_neg hne]

/-- An attribute that is read before a parenthesis of the text. -/
theorem readAttribute_extend {t : Token} (h : readAttribute p = .ok (t, q)) (hq : ')' ∈ q.rest) :
    readAttribute (p.extend more) = .ok (t, q.extend more) := by
  have hskip (f : Char → Bool) (hf : f ')' = false) (r : Place) (hr : ')' ∈ r.rest) :
      (r.extend more).skip f = (r.skip f).extend more :=
    Place.skip_extend (takeWhile_append_of_mem ⟨_, hr, hf⟩)
  have hindent := hskip isIndent rfl
  have hblank := hskip isBlank rfl
  rw [readAttribute] at h
  split at h
  · simp at h
  · rename_i name r hr
    split at h
    · rename_i hequals
      obtain ⟨rfl, rfl⟩ := Prod.mk.inj (Except.ok.inj h)
      simp only [readAttribute, attributeName_extend more hr (List.ne_nil_of_mem hq),
        hindent _ hq, equalsEnd?_extend more (Place.mem_skip (f := isIndent) hq rfl), hequals,
        Option.map_none]
      rfl
    · rename_i s hs
      obtain ⟨⟨value, u⟩, hv, hu⟩ := map_eq_ok_iff.1 h
      obtain ⟨rfl, rfl⟩ := Prod.mk.inj hu
      -- The parenthesis is behind every place on the way.
      have hsq : ')' ∈ s.rest := ((s.reaches_skip isBlank).trans
        (reaches_attributeValue hv)).suffix.subset hq
      have hrq : ')' ∈ r.rest := ((r.reaches_skip isIndent).trans
        (reaches_equalsEnd? hs)).suffix.subset hsq
      simp only [readAttribute, attributeName_extend more hr (List.ne_nil_of_mem hrq),
        hindent _ hrq, equalsEnd?_extend more (Place.mem_skip (f := isIndent) hrq rfl), hs,
        Option.map_some, hblank _ hsq, attributeValue_extend more hv (List.ne_nil_of_mem hq),
        Except.map]
      rfl

/-- A list that is read has its closing parenthesis in the text. -/
theorem mem_of_attributesFrom {start : Place} {ts : List Token}
    (h : attributesFrom start p = .ok (ts, q)) : ')' ∈ p.rest := by
  fun_induction attributesFrom start p generalizing ts with
  | case1 => simp at h
  | case2 p r =>
    rename_i hcs
    exact (p.reaches_skip _).suffix.subset (hcs ▸ List.mem_cons_self)
  | case3 => simp at h
  | case4 p r t s hs =>
    rename_i ih
    obtain ⟨us, hus, -⟩ := Scan.after_eq_ok_iff.1 h
    exact ((p.reaches_skip _).trans (readAttribute_reaches hs).1).suffix.subset (ih hus)

/-- An attribute list ends with its parenthesis, whatever comes after it. -/
theorem attributesFrom_extend {start start' : Place} {ts : List Token}
    (h : attributesFrom start p = .ok (ts, q)) :
    attributesFrom start' (p.extend more) = .ok (ts, q.extend more) := by
  have hskip : (p.extend more).skip isSeparator = (p.skip isSeparator).extend more :=
    Place.skip_extend (takeWhile_append_of_mem ⟨_, mem_of_attributesFrom h, rfl⟩)
  fun_induction attributesFrom start p generalizing ts with
  | case1 => simp at h
  | case2 p r =>
    rename_i cs hcs
    obtain ⟨rfl, rfl⟩ := Prod.mk.inj (Except.ok.inj h)
    have hr : (p.extend more).skip isSeparator = r.extend more := hskip
    have hcs' : ((p.extend more).skip isSeparator).rest = ')' :: (cs ++ more) := by
      rw [hr]
      exact Place.rest_extend_cons hcs
    rw [attributesFrom_close hcs', hr, Place.drop_extend_one hcs]
    rfl
  | case3 => simp at h
  | case4 p r t s hs =>
    rename_i hnil hclose ih
    obtain ⟨us, hus, rfl⟩ := Scan.after_eq_ok_iff.1 h
    have hmem := mem_of_attributesFrom hus
    have hr : (p.extend more).skip isSeparator = r.extend more := hskip
    have hne : ((p.extend more).skip isSeparator).rest ≠ [] := by
      rw [hr, Place.rest_extend]
      exact List.append_ne_nil_of_left_ne_nil hnil _
    have hclose' : ((p.extend more).skip isSeparator).rest.head? ≠ some ')' := by
      rw [hr, Place.head?_extend hnil]
      intro hhead
      obtain ⟨ds, hds⟩ := List.head?_eq_some_iff.1 hhead
      exact hclose ds hds
    rw [attributesFrom_attr hne hclose', hr, readAttribute_extend more hs hmem, Except.bind,
      ih hus (Place.skip_extend (takeWhile_append_of_mem ⟨_, hmem, rfl⟩)), Scan.after_ok]

/-- A list that is closed is read alike with more text behind it. -/
theorem attributeList_extend {ts : List Token} (hp : p.rest ≠ [])
    (h : attributeList p = .ok (ts, q)) :
    attributeList (p.extend more) = .ok (ts, q.extend more) := by
  obtain ⟨c, cs, hcs⟩ := List.exists_cons_of_ne_nil hp
  obtain ⟨us, hus, rfl⟩ := Scan.after_eq_ok_iff.1 h
  rw [attributeList, Place.drop_extend_one hcs, attributesFrom_extend more hus, Scan.after_ok]
  rfl

/-! ## Heads -/

/-- Nothing that could go on with a head comes first. -/
structure StopsHead : Prop where
  no_part : ∀ c ∈ more.head?, isTagNamePart c = false ∧ c ≠ '('
  no_shorthand : ∀ offset, shorthand? ⟨offset, more⟩ = none

/-- What goes on with a shorthand goes on with a name, too. -/
theorem isTagNamePart_of_isNamePart {c : Char} (h : isNamePart c = true) :
    isTagNamePart c = true := by
  rcases Bool.or_eq_true _ _ ▸ h with h | h
  · exact isTagNamePart_of_isWord h
  · rw [beq_iff_eq.1 h]
    rfl

/-- A line feed stops every head. -/
theorem stopsHead_newline (cs : List Char) : StopsHead ('\n' :: cs) where
  no_part := by
    rintro c ⟨rfl⟩
    decide
  no_shorthand _ := shorthand?_eq_none (by rintro c ⟨rfl⟩; rfl)

variable {more}

/-- What stops a head does not go on with a shorthand. -/
theorem StopsHead.no_namePart (hmore : StopsHead more) : ∀ c ∈ more.head?, isNamePart c = false :=
  fun c hc => Bool.eq_false_iff.2 fun hn => by
    have := (hmore.no_part c hc).1
    simp [isTagNamePart_of_isNamePart hn] at this

/-- A shorthand is read alike before a text that stops a head. -/
theorem shorthand?_extend (hmore : StopsHead more) :
    shorthand? (p.extend more) = (shorthand? p).map fun r => (r.1, r.2.extend more) := by
  match hp : p.rest with
  | [] =>
    have hnone := hmore.no_shorthand p.offset
    rw [Place.extend, hp, List.nil_append, hnone, shorthand?, hp]
    rfl
  | [s] =>
    have hnone : shorthand? p = none := by rw [shorthand?, hp]
    rw [hnone, Option.map_none, Option.eq_none_iff_forall_ne_some]
    rintro ⟨t, q⟩ hs
    obtain ⟨sigil, f, cs, -, hcs, ⟨c, hc, hpart⟩, -⟩ := shorthand?_eq_some hs
    obtain ⟨rfl, rfl⟩ := List.cons.inj ((Place.rest_extend_cons hp).symm.trans hcs)
    simp [hmore.no_namePart c hc] at hpart
  | s :: c :: cs =>
    have htake : ((c :: cs) ++ more).takeWhile isNamePart = (c :: cs).takeWhile isNamePart :=
      takeWhile_append_of_head hmore.no_namePart
    rw [List.cons_append] at htake
    have hle : ((c :: cs).takeWhile isNamePart).length + 1 ≤ p.rest.length := by
      rw [hp, List.length_cons]
      exact Nat.add_le_add_right (List.takeWhile_prefix _).length_le 1
    simp only [shorthand?, Place.rest_extend, hp, List.cons_append, htake, Place.drop_extend hle]
    cases sigil? s with
    | none => rfl
    | some f => cases isNamePart c <;> rfl

/-- A run of parts that ends with the text ends there too if the text goes on with something
    else. -/
theorem tagParts_extend {ts : List Token} (hmore : StopsHead more)
    (h : tagParts p = .ok (ts, q)) : tagParts (p.extend more) = .ok (ts, q.extend more) := by
  fun_induction tagParts p generalizing ts with
  | case1 p t r hs ih =>
    obtain ⟨us, hus, rfl⟩ := Scan.after_eq_ok_iff.1 h
    have hs' : shorthand? (p.extend more) = some (t, r.extend more) := by
      rw [shorthand?_extend hmore, hs, Option.map_some]
    rw [tagParts_shorthand hs', ih hus, Scan.after_ok]
  | case2 => simp at h
  | case3 p hs hopen us r hl ih =>
    obtain ⟨vs, hvs, rfl⟩ := Scan.after_eq_ok_iff.1 h
    have hne : p.rest ≠ [] := by
      rintro hnil
      simp [hnil] at hopen
    have hs' : shorthand? (p.extend more) = none := by
      rw [shorthand?_extend hmore, hs, Option.map_none]
    rw [tagParts_list hs' ((Place.head?_extend hne).trans hopen), attributeList_extend more hne hl,
      Except.bind, ih hvs, Scan.after_ok]
  | case4 p hs hopen =>
    obtain ⟨rfl, rfl⟩ := Prod.mk.inj (Except.ok.inj h)
    have hs' : shorthand? (p.extend more) = none := by
      rw [shorthand?_extend hmore, hs, Option.map_none]
    refine tagParts_end hs' fun hopen' => ?_
    by_cases hne : p.rest = []
    · rw [Place.rest_extend, hne, List.nil_append] at hopen'
      exact (hmore.no_part _ hopen').2 rfl
    · exact hopen ((Place.head?_extend hne).symm.trans hopen')

/-- A name is read alike before a text that stops a head. -/
theorem tagName?_append {cs : List Char} (hmore : StopsHead more) (hcs : cs ≠ []) :
    tagName? (cs ++ more) = tagName? cs := by
  obtain ⟨c, ds, rfl⟩ := List.exists_cons_of_ne_nil hcs
  rw [tagName?, tagName?, takeWhile_append_of_head fun c hc => (hmore.no_part c hc).1,
    List.cons_append, List.head?_cons, List.head?_cons]

/-- The head of a tag, which may end with the text. -/
theorem tagHead_extend {ts : List Token} (hmore : StopsHead more) (h : tagHead p = .ok (ts, q)) :
    tagHead (p.extend more) = .ok (ts, q.extend more) := by
  have hne : p.rest ≠ [] := by
    have hlt := (tagHead_reaches h).2
    exact List.ne_nil_of_length_pos (by omega)
  have hname := tagName?_append hmore hne
  rw [tagHead] at h
  split at h
  · rename_i name hn
    dsimp only at h
    split at h
    · simp at h
    · rename_i hkey
      obtain ⟨us, hus, rfl⟩ := Scan.after_eq_ok_iff.1 h
      have hle : name.length ≤ p.rest.length := by
        obtain ⟨ds, hds, -⟩ := wordBreak_tagName? hn
        rw [hds, List.length_append]
        omega
      simp only [tagHead, Place.rest_extend, hname, hn, if_neg hkey, Place.drop_extend hle,
        tagParts_extend hmore hus, Scan.after_ok]
      rfl
  · rename_i hn
    split at h
    · rename_i t r hs
      obtain ⟨us, hus, rfl⟩ := Scan.after_eq_ok_iff.1 h
      simp only [tagHead, Place.rest_extend, hname, hn, shorthand?_extend hmore, hs,
        Option.map_some, tagParts_extend hmore hus, Scan.after_ok]
    · simp at h

end Readers

end SlotMarkup
