import Mathlib.Data.List.TakeWhile
import SlotMarkup.Proofs.LongerLines

/-!
# Readers in shorter texts

A text goes on with a line feed and more. What a reader reads of it before the line feed, it reads
of the text alone, too; what it cannot read of the text alone ends only in what comes after. The
readers of values and attributes either end at the same place as in the shorter text, or somewhere
in the rest. A line that cannot be read of the shorter text takes a closing parenthesis of the
rest, that of an attribute list that the text leaves open (`Closes`).

* `readAttribute_of_extend`: one attribute;
* `attributesFrom_of_extend`: an attribute list that is left open;
* `lineContent_of_extend`: the content of a line.
-/

namespace SlotMarkup

/-- Behind a first list only the end of the second one is left. -/
theorem suffix_of_drop_append {α : Type} {as bs : List α} {n : Nat} (h : as.length ≤ n) :
    (as ++ bs).drop n <:+ bs := by
  rw [List.drop_append, List.drop_eq_nil_of_le h, List.nil_append]
  exact List.drop_suffix _ bs

section Readers

variable {p q q' : Place} {more b : List Char}

/-! ## Strings and values -/

/-- A string takes at least its second quote. -/
theorem quotedLength?_pos {quote : Char} {cs : List Char} {n : Nat}
    (h : quotedLength? quote cs = some n) : 0 < n := by
  fun_induction quotedLength? quote cs generalizing n with
  | case1 | case2 => simp at h
  | case3 | case5 =>
    obtain ⟨m, -, rfl⟩ := Option.map_eq_some_iff.1 h
    exact Nat.succ_pos _
  | case4 =>
    obtain rfl := Option.some.inj h
    exact Nat.one_pos

/-- A string that is not closed in a text is closed behind it. -/
theorem length_lt_quotedLength? {quote : Char} {cs : List Char} {n : Nat}
    (hnone : quotedLength? quote cs = none) (h : quotedLength? quote (cs ++ more) = some n) :
    cs.length < n := by
  fun_induction quotedLength? quote cs generalizing n with
  | case1 => exact quotedLength?_pos h
  | case2 =>
    cases more with
    | nil => simp [quotedLength?] at h
    | cons c more =>
      obtain ⟨m, hm, rfl⟩ := Option.map_eq_some_iff.1 h
      have := quotedLength?_pos hm
      simp
  | case3 c cs ih =>
    obtain ⟨m, hm, rfl⟩ := Option.map_eq_some_iff.1 h
    exact Nat.add_lt_add_right (ih (Option.map_eq_none_iff.1 hnone) hm) 2
  | case4 => simp at hnone
  | case5 c cs hone hesc hc ih =>
    have hne : c ≠ '\\' := by
      rintro rfl
      cases cs with
      | nil => exact hone rfl rfl
      | cons d ds => exact hesc d ds rfl rfl
    rw [List.cons_append, quotedLength?_cons hne hc] at h
    obtain ⟨m, hm, rfl⟩ := Option.map_eq_some_iff.1 h
    exact Nat.add_lt_add_right (ih (Option.map_eq_none_iff.1 hnone) hm) 1

/-- A string in a longer text was one in the shorter, or ends in what was added. -/
theorem stringEnd_of_extend {quote c : Char} {cs : List Char} (hp : p.rest = c :: cs)
    (h : stringEnd quote (p.extend more) = .ok q') :
    (∃ q, stringEnd quote p = .ok q ∧ q' = q.extend more) ∨ q'.rest <:+ more := by
  cases hs : stringEnd quote p with
  | ok q => exact .inl ⟨q, rfl, Except.ok.inj (h.symm.trans (stringEnd_extend more hp hs))⟩
  | error e =>
    refine .inr ?_
    rw [stringEnd, hp, List.drop_one, List.tail_cons] at hs
    rw [stringEnd, Place.rest_extend_cons hp, List.drop_one, List.tail_cons] at h
    split at h
    · rename_i n hn
      split at hs
      · simp at hs
      · rename_i hnone
        obtain rfl := Except.ok.inj h
        rw [Place.rest_drop, Place.rest_extend]
        refine suffix_of_drop_append ?_
        rw [hp, List.length_cons]
        exact Nat.add_le_add_right (Nat.le_of_lt (length_lt_quotedLength? hnone hn)) 1
    · simp at h

/-- A value ends where it ends in the text alone, or in the rest. -/
theorem valueEnd_of_extend {depth : Nat} (h : valueEnd depth (p.extend more) = .ok q') :
    (∃ q, valueEnd depth p = .ok q ∧ q' = q.extend more) ∨ q'.rest <:+ more := by
  fun_induction valueEnd depth p with
  | case1 depth p hp =>
    refine .inr ?_
    have hsuffix := (reaches_valueEnd h).suffix
    rwa [Place.rest_extend, hp, List.nil_append] at hsuffix
  | case2 depth p c cs hp hquote r hr ih =>
    rw [valueEnd_cons (Place.rest_extend_cons hp), if_pos hquote, stringEnd_extend more hp hr] at h
    exact ih h
  | case3 depth p c cs hp hquote e he =>
    rw [valueEnd_cons (Place.rest_extend_cons hp), if_pos hquote] at h
    obtain ⟨r', hr', hq'⟩ := bind_eq_ok_iff.1 h
    rcases stringEnd_of_extend hp hr' with ⟨r, hr, -⟩ | hsuffix
    · simp [he] at hr
    · exact .inr ((reaches_valueEnd hq').suffix.trans hsuffix)
  | case4 depth p c cs hp hquote hopen ih =>
    rw [valueEnd_cons (Place.rest_extend_cons hp), if_neg hquote, if_pos hopen,
      Place.drop_extend_one hp] at h
    exact ih h
  | case5 p c cs hp hquote hopen hclose =>
    rw [valueEnd_cons (Place.rest_extend_cons hp), if_neg hquote, if_neg hopen, if_pos hclose,
      if_pos rfl] at h
    exact .inl ⟨p, rfl, (Except.ok.inj h).symm⟩
  | case6 depth p c cs hp hquote hopen hclose hdepth ih =>
    rw [valueEnd_cons (Place.rest_extend_cons hp), if_neg hquote, if_neg hopen, if_pos hclose,
      if_neg hdepth, Place.drop_extend_one hp] at h
    exact ih h
  | case7 depth p c cs hp hquote hopen hclose hend =>
    rw [valueEnd_cons (Place.rest_extend_cons hp), if_neg hquote, if_neg hopen, if_neg hclose,
      if_pos hend] at h
    exact .inl ⟨p, rfl, (Except.ok.inj h).symm⟩
  | case8 depth p c cs hp hquote hopen hclose hend ih =>
    rw [valueEnd_cons (Place.rest_extend_cons hp), if_neg hquote, if_neg hopen, if_neg hclose,
      if_neg hend, Place.drop_extend_one hp] at h
    exact ih h

/-! ## Attributes -/

/-- A line feed ends a name. -/
theorem nameLength_newline (cs : List Char) : nameLength (cs ++ '\n' :: b) = nameLength cs := by
  induction cs with
  | nil => simp [nameLength, isBlank]
  | cons c cs ih =>
    have hhead : (cs ++ '\n' :: b).head? = some '=' ↔ cs.head? = some '=' := by
      cases cs <;> simp
    rw [List.cons_append, nameLength, nameLength, ih]
    simp only [hhead]

/-- No name is longer than the text. -/
theorem nameLength_le (cs : List Char) : nameLength cs ≤ cs.length := by
  fun_induction nameLength cs with
  | case1 => exact Nat.le_refl _
  | case2 | case3 => exact Nat.zero_le _
  | case4 c cs _ _ ih => exact Nat.add_le_add_right ih 1

/-- The name of an attribute was one in the shorter text, or ends in what was added. -/
theorem attributeName_of_extend {name : List Char}
    (h : attributeName (p.extend ('\n' :: b)) = .ok (name, q')) :
    (∃ q, attributeName p = .ok (name, q) ∧ q' = q.extend ('\n' :: b)) ∨ q'.rest <:+ '\n' :: b := by
  cases hp : p.rest with
  | nil =>
    have hrest : (p.extend ('\n' :: b)).rest = '\n' :: b := by rw [Place.rest_extend, hp]; rfl
    rw [attributeName_cons hrest, if_neg (by decide), hrest, ← List.nil_append ('\n' :: b),
      nameLength_newline] at h
    simp [nameLength] at h
  | cons c cs =>
    rw [attributeName_cons (Place.rest_extend_cons hp)] at h
    rw [attributeName_cons hp]
    split at h
    · rename_i hquote
      obtain ⟨r', hr', hrq⟩ := map_eq_ok_iff.1 h
      obtain ⟨rfl, rfl⟩ := Prod.mk.inj hrq
      rcases stringEnd_of_extend hp hr' with ⟨r, hr, rfl⟩ | hsuffix
      · refine .inl ⟨r, ?_, rfl⟩
        rw [if_pos hquote, hr, Place.drop_extend_one hp, Place.upTo_extend]
        rfl
      · exact .inr hsuffix
    · rename_i hquote
      rw [Place.rest_extend, nameLength_newline] at h
      split at h
      · simp at h
      · rename_i hlen
        obtain ⟨rfl, rfl⟩ := Prod.mk.inj (Except.ok.inj h)
        have hle := nameLength_le p.rest
        refine .inl ⟨p.drop (nameLength p.rest), ?_, Place.drop_extend hle⟩
        rw [if_neg hquote, if_neg hlen, List.take_append_of_le_length hle]

/-- No equals sign starts behind the end of the text. -/
theorem equalsEnd?_newline : equalsEnd? (p.extend ('\n' :: b)) =
    (equalsEnd? p).map (·.extend ('\n' :: b)) := by
  rw [equalsEnd?.eq_def p]
  split
  · rename_i cs hcs
    simp only [equalsEnd?, Place.rest_extend_cons hcs, Place.drop_extend_one hcs, Option.map_some]
  · rename_i cs hcs
    simp only [equalsEnd?, Place.rest_extend, hcs, List.cons_append, Option.map_some]
    rw [Place.drop_extend (by simp [hcs])]
  · rename_i hequals hbang
    rw [equalsEnd?.eq_def]
    split
    · rename_i ds hds
      cases hcs : p.rest with
      | nil => simp [hcs] at hds
      | cons c cs =>
        rw [Place.rest_extend_cons hcs] at hds
        exact absurd (hcs.trans (congrArg (· :: cs) (List.cons.inj hds).1)) (hequals cs)
    · rename_i ds hds
      rcases hcs : p.rest with _ | ⟨c, _ | ⟨d, cs⟩⟩
      · simp [hcs] at hds
      · simp [hcs] at hds
      · rw [Place.rest_extend_cons hcs, List.cons_append] at hds
        obtain ⟨rfl, htail⟩ := List.cons.inj hds
        exact absurd (hcs.trans (congrArg ('!' :: · :: cs) (List.cons.inj htail).1)) (hbang cs)
    · rfl

/-- Behind a run of characters is the end of a run in the text alone, or the rest. -/
theorem Place.skip_of_extend (f : Char → Bool) :
    (p.extend more).skip f = (p.skip f).extend more ∨ ((p.extend more).skip f).rest <:+ more := by
  by_cases hall : ∃ c ∈ p.rest, f c = false
  · exact .inl (skip_extend (takeWhile_append_of_mem hall))
  · refine .inr ?_
    rw [rest_skip, rest_extend, List.dropWhile_append_of_pos]
    · exact List.dropWhile_suffix f
    · intro c hc
      by_cases hf : f c = true
      · exact hf
      · exact absurd ⟨c, hc, by simpa using hf⟩ hall

/-- A value was one in the shorter text, or ends in what was added. -/
theorem attributeValue_of_extend {value : List Char}
    (h : attributeValue (p.extend more) = .ok (value, q')) :
    (∃ q, attributeValue p = .ok (value, q) ∧ q' = q.extend more) ∨ q'.rest <:+ more := by
  rw [attributeValue] at h
  split at h
  · simp at h
  · rename_i r' hr'
    split at h
    · simp at h
    · rename_i hne
      obtain ⟨rfl, rfl⟩ := Prod.mk.inj (Except.ok.inj h)
      rcases valueEnd_of_extend hr' with ⟨r, hr, rfl⟩ | hsuffix
      · rw [Place.upTo_extend] at hne
        refine .inl ⟨r, ?_, rfl⟩
        simp only [attributeValue, hr, if_neg hne, Place.upTo_extend]
      · exact .inr hsuffix

/-- An attribute was one in the shorter text, or ends in what was added. -/
theorem readAttribute_of_extend {t : Token}
    (h : readAttribute (p.extend ('\n' :: b)) = .ok (t, q')) :
    (∃ u q, readAttribute p = .ok (u, q) ∧ q' = q.extend ('\n' :: b)) ∨ q'.rest <:+ '\n' :: b := by
  rw [readAttribute] at h
  split at h
  · simp at h
  · rename_i name r' hr'
    rcases attributeName_of_extend hr' with ⟨r, hr, rfl⟩ | hsuffix
    · have hskip : (r.extend ('\n' :: b)).skip isIndent = (r.skip isIndent).extend ('\n' :: b) :=
        Place.skip_extend (takeWhile_append_of_head (by rintro c ⟨rfl⟩; rfl))
      rw [hskip, equalsEnd?_newline] at h
      cases hequals : equalsEnd? (r.skip isIndent) with
      | none =>
        rw [hequals] at h
        obtain ⟨rfl, rfl⟩ := Prod.mk.inj (Except.ok.inj h)
        exact .inl ⟨_, r, by simp only [readAttribute, hr, hequals]; rfl, rfl⟩
      | some s =>
        rw [hequals] at h
        obtain ⟨⟨value, u'⟩, hv, htoken⟩ := map_eq_ok_iff.1 h
        obtain ⟨rfl, rfl⟩ := Prod.mk.inj htoken
        rcases s.skip_of_extend isBlank with hblank | hsuffix
        · rw [hblank] at hv
          rcases attributeValue_of_extend hv with ⟨u, hu, rfl⟩ | hsuffix
          · exact .inl ⟨_, u, by simp only [readAttribute, hr, hequals, hu, Except.map]; rfl, rfl⟩
          · exact .inr hsuffix
        · exact .inr ((reaches_attributeValue hv).suffix.trans hsuffix)
    · -- The name ends in the rest, and so does all that comes after it.
      refine .inr (List.IsSuffix.trans ?_ hsuffix)
      split at h
      · exact (Prod.mk.inj (Except.ok.inj h)).2 ▸ List.suffix_rfl
      · rename_i s hs
        obtain ⟨⟨value, u⟩, hv, hu⟩ := map_eq_ok_iff.1 h
        obtain ⟨rfl, rfl⟩ := Prod.mk.inj hu
        exact ((r'.reaches_skip isIndent).trans <| (reaches_equalsEnd? hs).trans <|
          (s.reaches_skip isBlank).trans (reaches_attributeValue hv)).suffix

/-- An attribute list ends behind a parenthesis. -/
theorem attributesFrom_closes {start : Place} {ts : List Token}
    (h : attributesFrom start p = .ok (ts, q)) : ')' :: q.rest <:+ (p.skip isSeparator).rest := by
  fun_induction attributesFrom start p generalizing ts with
  | case1 => simp at h
  | case2 p r =>
    rename_i cs hcs
    obtain ⟨-, rfl⟩ := Prod.mk.inj (Except.ok.inj h)
    have hr : (p.skip isSeparator).rest = r.rest := rfl
    rw [hr, Place.rest_drop, hcs]
    exact List.suffix_rfl
  | case3 => simp at h
  | case4 p r t s hs =>
    rename_i ih
    obtain ⟨us, hus, -⟩ := Scan.after_eq_ok_iff.1 h
    exact (ih hus).trans
      ((s.reaches_skip isSeparator).suffix.trans (readAttribute_reaches hs).1.suffix)

/-- Where an attribute comes next, one comes next if the text goes on. -/
theorem attributesFrom_extend_attr {start : Place} (hne : (p.skip isSeparator).rest ≠ [])
    (hclose : ∀ cs, (p.skip isSeparator).rest ≠ ')' :: cs) : attributesFrom start (p.extend more) =
      (readAttribute ((p.skip isSeparator).extend more)).bind fun r =>
        (attributesFrom start r.2).after [r.1] := by
  obtain ⟨c, cs, hcs⟩ := List.exists_cons_of_ne_nil hne
  have hskip : (p.extend more).skip isSeparator = (p.skip isSeparator).extend more := by
    have hsep := List.head?_dropWhile_not isSeparator p.rest
    rw [← Place.rest_skip, hcs] at hsep
    have hc : c ∈ p.rest := (p.reaches_skip isSeparator).suffix.subset (hcs ▸ List.mem_cons_self)
    exact Place.skip_extend (takeWhile_append_of_mem ⟨c, hc, by simpa using hsep⟩)
  rw [← hskip]
  refine attributesFrom_attr ?_ ?_
  · rw [hskip, Place.rest_extend_cons hcs]
    exact List.cons_ne_nil _ _
  · rw [hskip, Place.head?_extend hne, hcs]
    rintro ⟨rfl⟩
    exact hclose cs hcs

/-- An attribute list that a text leaves open is closed in the rest. -/
theorem attributesFrom_of_extend {start start' : Place} {ts : List Token} {e : ScanError}
    (he : attributesFrom start p = .error e)
    (h : attributesFrom start' (p.extend ('\n' :: b)) = .ok (ts, q')) :
    ')' :: q'.rest <:+ '\n' :: b := by
  -- Of the rest is what comes after an attribute that ends there.
  have hlater {s' : Place} {us : List Token} (hs' : s'.rest <:+ '\n' :: b)
      (hus : attributesFrom start' s' = .ok (us, q')) : ')' :: q'.rest <:+ '\n' :: b :=
    (attributesFrom_closes hus).trans ((s'.reaches_skip isSeparator).suffix.trans hs')
  fun_induction attributesFrom start p generalizing ts with
  | case1 p r =>
    rename_i hr
    have hall : ∀ c ∈ p.rest, isSeparator c = true :=
      List.dropWhile_eq_nil_iff.1 (Place.rest_skip _ _ ▸ hr)
    have hskip : ((p.extend ('\n' :: b)).skip isSeparator).rest <:+ '\n' :: b := by
      rw [Place.rest_skip, Place.rest_extend, List.dropWhile_append_of_pos hall]
      exact List.dropWhile_suffix _
    exact (attributesFrom_closes h).trans hskip
  | case2 => simp at he
  | case3 p r e' hr =>
    rename_i hnil hclose
    rw [attributesFrom_extend_attr hnil hclose] at h
    obtain ⟨⟨t', s'⟩, hs', hmore⟩ := bind_eq_ok_iff.1 h
    obtain ⟨us, hus, -⟩ := Scan.after_eq_ok_iff.1 hmore
    rcases readAttribute_of_extend hs' with ⟨t, s, hs, -⟩ | hsuffix
    · exact absurd (hr.symm.trans hs) (by simp)
    · exact hlater hsuffix hus
  | case4 p r t s hs =>
    rename_i hnil hclose ih
    rw [attributesFrom_extend_attr hnil hclose] at h
    obtain ⟨⟨t', s'⟩, hs', hmore⟩ := bind_eq_ok_iff.1 h
    obtain ⟨us, hus, -⟩ := Scan.after_eq_ok_iff.1 hmore
    rcases readAttribute_of_extend hs' with ⟨u, r', hr', rfl⟩ | hsuffix
    · obtain ⟨rfl, rfl⟩ := Prod.mk.inj (Except.ok.inj (hr'.symm.trans hs))
      exact ih (map_eq_error_iff.1 he) hus
    · exact hlater hsuffix hus

/-! ## Heads -/

/-- What is read up to `q` takes a closing parenthesis of `b`. -/
def Closes (b : List Char) (q : Place) : Prop := ∃ cs, ')' :: cs <:+ b ∧ q.rest <:+ cs

/-- What closes in the added lines closes there for any later place too. -/
theorem Closes.of_reaches (h : Closes b p) (hq : p.Reaches q) : Closes b q := by
  obtain ⟨cs, hcs, hp⟩ := h
  exact ⟨cs, hcs, hq.suffix.trans hp⟩

theorem closes_of_suffix (h : ')' :: q.rest <:+ '\n' :: b) : Closes b q := by
  rcases List.suffix_cons_iff.1 h with heq | hsuffix
  · exact absurd (List.cons.inj heq).1 (by decide)
  · exact ⟨q.rest, hsuffix, List.suffix_rfl⟩

variable {e : ScanError} {ts : List Token}

/-- A list that was not closed before lines were added is closed in these. -/
theorem attributeList_of_extend (hp : p.rest ≠ []) (he : attributeList p = .error e)
    (h : attributeList (p.extend ('\n' :: b)) = .ok (ts, q')) : Closes b q' := by
  obtain ⟨c, cs, hcs⟩ := List.exists_cons_of_ne_nil hp
  obtain ⟨us, hus, -⟩ := Scan.after_eq_ok_iff.1 h
  rw [Place.drop_extend_one hcs] at hus
  exact closes_of_suffix (attributesFrom_of_extend (map_eq_error_iff.1 he) hus)

/-- A tag that could not be read before lines were added has its list closed in these. -/
theorem tagParts_of_extend (he : tagParts p = .error e)
    (h : tagParts (p.extend ('\n' :: b)) = .ok (ts, q')) : Closes b q' := by
  have hmore := stopsHead_newline b
  fun_induction tagParts p generalizing ts e with
  | case1 p t r hs ih =>
    have hs' : shorthand? (p.extend ('\n' :: b)) = some (t, r.extend ('\n' :: b)) := by
      rw [shorthand?_extend hmore, hs, Option.map_some]
    rw [tagParts_shorthand hs'] at h
    obtain ⟨us, hus, -⟩ := Scan.after_eq_ok_iff.1 h
    exact ih (map_eq_error_iff.1 he) hus
  | case2 p hs hopen e' hl =>
    have hne : p.rest ≠ [] := by
      rintro hnil
      simp [hnil] at hopen
    have hs' : shorthand? (p.extend ('\n' :: b)) = none := by
      rw [shorthand?_extend hmore, hs, Option.map_none]
    rw [tagParts_list hs' ((Place.head?_extend hne).trans hopen)] at h
    obtain ⟨⟨us, r'⟩, hl', hafter⟩ := bind_eq_ok_iff.1 h
    obtain ⟨vs, hvs, -⟩ := Scan.after_eq_ok_iff.1 hafter
    exact (attributeList_of_extend hne hl hl').of_reaches (reaches_tagParts hvs)
  | case3 p hs hopen us r hl ih =>
    have hne : p.rest ≠ [] := by
      rintro hnil
      simp [hnil] at hopen
    have hs' : shorthand? (p.extend ('\n' :: b)) = none := by
      rw [shorthand?_extend hmore, hs, Option.map_none]
    rw [tagParts_list hs' ((Place.head?_extend hne).trans hopen), attributeList_extend _ hne hl,
      Except.bind] at h
    obtain ⟨vs, hvs, -⟩ := Scan.after_eq_ok_iff.1 h
    exact ih (map_eq_error_iff.1 he) hvs
  | case4 => simp at he

/-- The same of a head. -/
theorem tagHead_of_extend (hp : p.rest ≠ []) (he : tagHead p = .error e)
    (h : tagHead (p.extend ('\n' :: b)) = .ok (ts, q')) : Closes b q' := by
  have hmore := stopsHead_newline b
  have hname := tagName?_append hmore hp
  rw [tagHead] at he
  split at he
  · rename_i name hn
    have hle : name.length ≤ p.rest.length := by
      obtain ⟨ds, hds, -⟩ := wordBreak_tagName? hn
      rw [hds, List.length_append]
      exact Nat.le_add_right _ _
    dsimp only at he
    split at he
    · rename_i hkey
      simp only [tagHead, Place.rest_extend, hname, hn, if_pos hkey] at h
      simp at h
    · rename_i hkey
      simp only [tagHead, Place.rest_extend, hname, hn, if_neg hkey, Place.drop_extend hle] at h
      obtain ⟨us, hus, -⟩ := Scan.after_eq_ok_iff.1 h
      exact tagParts_of_extend (map_eq_error_iff.1 he) hus
  · rename_i hn
    split at he
    · rename_i t r hs
      simp only [tagHead, Place.rest_extend, hname, hn, shorthand?_extend hmore, hs,
        Option.map_some] at h
      obtain ⟨us, hus, -⟩ := Scan.after_eq_ok_iff.1 h
      exact tagParts_of_extend (map_eq_error_iff.1 he) hus
    · rename_i hs
      simp only [tagHead, Place.rest_extend, hname, hn, shorthand?_extend hmore, hs,
        Option.map_none] at h
      simp at h

/-! ## Lines -/

variable {indent : Nat}

theorem rest_of_extend_cons {c : Char} {cs : List Char} (hp : p.rest ≠ [])
    (h : (p.extend more).rest = c :: cs) : ∃ ds, p.rest = c :: ds := by
  obtain ⟨d, ds, hds⟩ := List.exists_cons_of_ne_nil hp
  rw [Place.rest_extend_cons hds] at h
  exact ⟨ds, hds.trans (congrArg (· :: ds) (List.cons.inj h).1)⟩

theorem rest_ne_nil_of_lineEnd (h : ¬atLineEnd p = true) : p.rest ≠ [] := by
  intro hp
  simp [atLineEnd, hp] at h

/-- What comes after a head is known from its line. -/
theorem tagBody_of_extend (h : tagBody indent (p.extend ('\n' :: b)) = .ok (ts, q')) :
    ∃ r, tagBody indent p = .ok r := by
  rw [tagBody, atLineEnd_extend] at h
  by_cases hend : atLineEnd p = true
  · exact ⟨_, by rw [tagBody, if_pos hend]⟩
  · rw [if_neg hend] at h
    have hp := rest_ne_nil_of_lineEnd hend
    split at h
    · rename_i hds
      obtain ⟨cs, hcs⟩ := rest_of_extend_cons hp hds
      rw [restIsBlank_extend hcs] at h
      split at h
      · rename_i hblank
        simp only [tagBody, if_neg hend, hcs, if_pos hblank]
        exact ⟨_, rfl⟩
      · simp at h
    · rename_i hds
      obtain ⟨cs, hcs⟩ := rest_of_extend_cons hp hds
      simp only [tagBody, if_neg hend, hcs]
      split <;> exact ⟨_, rfl⟩
    · rename_i hds
      obtain ⟨cs, hcs⟩ := rest_of_extend_cons hp hds
      rw [restIsBlank_extend hcs] at h
      split at h
      · rename_i hblank
        simp only [tagBody, if_neg hend, hcs, if_pos hblank]
        exact ⟨_, rfl⟩
      · simp at h
    all_goals simp at h

/-- A line with a tag starts with a head. -/
theorem tagLine_head (h : tagLine indent p = .ok (ts, q)) :
    ∃ head r, tagHead p = .ok (head, r) ∧ r.Reaches q := by
  rw [tagLine_eq_bind] at h
  obtain ⟨⟨head, r⟩, hhead, hmore⟩ := bind_eq_ok_iff.1 h
  refine ⟨head, r, hhead, ?_⟩
  split at hmore
  · split at hmore
    · simp at hmore
    · obtain ⟨us, hus, -⟩ := Scan.after_eq_ok_iff.1 hmore
      exact r.reaches_innerTag.trans (tagLine_reaches hus).1
  · obtain ⟨us, hus, -⟩ := Scan.after_eq_ok_iff.1 hmore
    exact reaches_tagBody hus

/-- The same of a line with a tag, along its colons. -/
theorem tagLine_of_extend (hp : p.rest ≠ []) (he : tagLine indent p = .error e)
    (h : tagLine indent (p.extend ('\n' :: b)) = .ok (ts, q')) : Closes b q' := by
  fun_induction tagLine indent p generalizing ts with
  | case1 p e' hhead =>
    obtain ⟨head, r', hr', hq⟩ := tagLine_head h
    exact (tagHead_of_extend hp hhead hr').of_reaches hq
  | case2 p head r hhead =>
    rename_i hcolon s hend
    have hend' : atLineEnd (((r.extend ('\n' :: b)).drop 1).skip isIndent) = true := by
      rw [innerTag_extend hcolon, atLineEnd_extend]
      exact hend
    rw [tagLine_eq_bind, tagHead_extend (stopsHead_newline b) hhead, Except.bind,
      if_pos (colon_extend.2 hcolon), if_pos hend'] at h
    simp at h
  | case3 p head r hhead =>
    rename_i hcolon s hend ih
    have hs : ((r.extend ('\n' :: b)).drop 1).skip isIndent = s.extend ('\n' :: b) :=
      innerTag_extend hcolon
    rw [tagLine_colon (tagHead_extend (stopsHead_newline b) hhead) (colon_extend.2 hcolon)
      (by rw [hs, atLineEnd_extend]; simpa using hend), hs] at h
    obtain ⟨us, hus, -⟩ := Scan.after_eq_ok_iff.1 h
    exact ih (rest_ne_nil_of_lineEnd hend) (map_eq_error_iff.1 he) hus
  | case4 p head r hhead =>
    rename_i hcolon
    rw [tagLine_body (tagHead_extend (stopsHead_newline b) hhead) (hcolon ∘ colon_extend.1)] at h
    obtain ⟨us, hus, -⟩ := Scan.after_eq_ok_iff.1 h
    obtain ⟨o, ho⟩ := tagBody_of_extend hus
    exact absurd (ho.symm.trans (map_eq_error_iff.1 he)) (by simp)

/-- A line that a text leaves open closes an attribute list in the rest. -/
theorem lineContent_of_extend (hp : p.rest ≠ []) (he : lineContent indent p = .error e)
    (h : lineContent indent (p.extend ('\n' :: b)) = .ok (ts, q')) : Closes b q' := by
  rw [lineContent] at h
  split at h
  · rename_i hds
    obtain ⟨c, cs, hcs⟩ := List.exists_cons_of_ne_nil hp
    rw [Place.rest_extend_cons hcs] at hds
    obtain ⟨rfl, htail⟩ := List.cons.inj hds
    cases cs with
    | nil => exact absurd (List.cons.inj htail).1 (by decide)
    | cons d cs =>
      obtain ⟨rfl, -⟩ := List.cons.inj htail
      simp [lineContent, hcs] at he
  · simp at h
  · rename_i hds
    obtain ⟨cs, hcs⟩ := rest_of_extend_cons hp hds
    simp [lineContent, hcs] at he
  · rename_i hds
    obtain ⟨cs, hcs⟩ := rest_of_extend_cons hp hds
    simp [lineContent, hcs] at he
  · simp at h
  · simp at h
  · simp at h
  · obtain ⟨c, ds, hds, hc⟩ := tagLine_start h
    obtain ⟨cs, hcs⟩ := rest_of_extend_cons hp hds
    rw [hc.lineContent hcs] at he
    exact tagLine_of_extend hp he h

end Readers

end SlotMarkup
