import SlotMarkup.Proofs.SlotToken

/-!
# Finding what was encoded

A template's text is its fragments with a token in every gap. If no fragment
holds the reserved word, the tokens found in the text are those that were
written, in order, and what stands between them are the fragments
(`find_encode`), even if a fragment starts with digits or ends with a part of
the reserved word.

* `tokenAt?_clean_append`: no token starts in a fragment, not even one that is
  completed by the token after it, as the reserved word would overlap itself;
* `cut_encodeFrom`: so the cuts of a text are where its fragments were joined;
* `pieces_find`: the ranges that are found in any text are those of its cuts.
-/

namespace SlotMarkup

/-! ## Bytes -/

theorem byteSize_eq_size (cs : List Char) : byteSize cs = cs.utf8Encode.size := by
  induction cs with
  | nil => rfl
  | cons c cs ih =>
    rw [byteSize_cons, List.utf8Encode_cons, ByteArray.size_append, ih, List.utf8Encode_singleton,
      List.size_toByteArray, String.length_utf8EncodeChar]

/-- Single bytes are counted as characters are. -/
theorem byteSize_of_ascii {cs : List Char} (h : ∀ c ∈ cs, c.utf8Size = 1) :
    byteSize cs = cs.length := by
  induction cs with
  | nil => rfl
  | cons c cs ih =>
    rw [byteSize_cons, h c List.mem_cons_self, ih fun d hd => h d (List.mem_cons_of_mem _ hd),
      List.length_cons, Nat.add_comm]

/-- The bytes between two offsets of a text are those of the text between them. -/
theorem extract_utf8Encode (cs ds es : List Char) :
    (cs ++ (ds ++ es)).utf8Encode.extract (byteSize cs) (byteSize (cs ++ ds)) = ds.utf8Encode := by
  rw [← List.append_assoc, List.utf8Encode_append, byteSize_eq_size, byteSize_eq_size,
    ByteArray.extract_append, Nat.sub_self,
    ByteArray.extract_eq_empty_iff.2 (Nat.le_trans (Nat.min_le_left _ _) (Nat.zero_le _)),
    ByteArray.append_empty, List.utf8Encode_append,
    ByteArray.extract_append_eq_right rfl ByteArray.size_append]

namespace Slots

variable {s : Slots}

/-- The bytes of a text before, between and after some ranges, from `start` on. -/
def pieces (text : ByteArray) (start : Nat) : List Occurrence → List ByteArray
  | [] => [text.extract start text.size]
  | o :: os => text.extract start o.start :: pieces text o.stop os

theorem utf8Size_of_isDigit {c : Char} (h : c.isDigit = true) : c.utf8Size = 1 := by
  simp only [Char.isDigit, Bool.and_eq_true, decide_eq_true_eq, UInt32.le_iff_toNat_le] at h
  have h9 : c.val.toNat ≤ 57 := h.2
  rw [Char.utf8Size_eq_one_iff, UInt32.le_iff_toNat_le]
  exact Nat.le_trans h9 (by decide)

theorem utf8Size_of_mem_mark {c : Char} (h : c ∈ mark) : c.utf8Size = 1 := by
  have hall : mark.all (·.utf8Size == 1) = true := by decide
  simpa using List.all_eq_true.1 hall c h

/-- Every token is as long as the slots say. -/
theorem byteSize_token {index : Nat} (h : index < s.count) :
    byteSize (s.token index) = s.tokenLength := by
  rw [byteSize_of_ascii, length_token h]
  intro c hc
  rcases List.mem_append.1 hc with hc | hc
  · exact utf8Size_of_mem_mark hc
  · exact utf8Size_of_isDigit (isDigit_of_mem_digits hc)

/-- After some text, the ranges of a cut leave over its pieces. -/
theorem pieces_occurrences (pre head : List Char) (tail : List (Nat × List Char))
    (htail : ∀ e ∈ tail, e.1 < s.count) :
    pieces (pre ++ Cut.join s.token ⟨head, tail⟩).utf8Encode (byteSize pre)
        (s.occurrences (byteSize (pre ++ head)) tail) =
      head.utf8Encode :: tail.map fun e => e.2.utf8Encode := by
  induction tail generalizing pre head with
  | nil =>
    rw [occurrences, pieces, Cut.join, List.flatMap_nil, List.append_nil, List.utf8Encode_append,
      byteSize_eq_size, ByteArray.extract_append_eq_right rfl ByteArray.size_append, List.map_nil]
  | cons e tail ih =>
    obtain ⟨index, piece⟩ := e
    have hi : byteSize (s.token index) = s.tokenLength :=
      byteSize_token (htail _ List.mem_cons_self)
    have hj : pre ++ Cut.join s.token ⟨head, (index, piece) :: tail⟩ =
        (pre ++ head ++ s.token index) ++ Cut.join s.token ⟨piece, tail⟩ := by
      simp [Cut.join]
    have hhead : (pre ++ Cut.join s.token ⟨head, (index, piece) :: tail⟩).utf8Encode.extract
        (byteSize pre) (byteSize (pre ++ head)) = head.utf8Encode := by
      rw [Cut.join]
      exact extract_utf8Encode _ _ _
    have htail := ih (pre ++ head ++ s.token index) piece
      fun e he => htail e (List.mem_cons_of_mem _ he)
    rw [← hj, byteSize_append (pre ++ head ++ s.token index), byteSize_append (pre ++ head), hi]
      at htail
    rw [occurrences, pieces, hhead, htail, List.map_cons]

/-- The ranges that are found in a text leave over the pieces of its cut. -/
theorem pieces_find (text : String) :
    pieces text.toUTF8 0 (s.find text) =
      (s.cut text.toList).head.utf8Encode ::
        (s.cut text.toList).tail.map fun e => e.2.utf8Encode := by
  have h := pieces_occurrences [] (s.cut text.toList).head (s.cut text.toList).tail
    fun _ he => lt_of_mem_cut he
  have hj : Cut.join s.token ⟨(s.cut text.toList).head, (s.cut text.toList).tail⟩ = text.toList :=
    join_cut text.toList
  rw [hj, List.nil_append, List.nil_append, byteSize_nil, String.utf8Encode_toList] at h
  exact h

theorem map_index_occurrences (offset : Nat) (tail : List (Nat × List Char)) :
    (s.occurrences offset tail).map (·.index) = tail.map (·.1) := by
  induction tail generalizing offset with
  | nil => rfl
  | cons e tail ih => rw [occurrences, List.map_cons, ih, List.map_cons]

/-- The indices that are found are those of the cut. -/
theorem map_index_find (text : String) :
    (s.find text).map (·.index) = (s.cut text.toList).tail.map (·.1) :=
  map_index_occurrences _ _

/-! ## Clean fragments -/

/-- A text without the reserved word. -/
def Clean (cs : List Char) : Prop := ¬mark <:+: cs

theorem Clean.of_cons {c : Char} {cs : List Char} (h : Clean (c :: cs)) : Clean cs :=
  fun hm => h (hm.trans (List.suffix_cons c cs).isInfix)

/-- A text shorter than the mark is clean. -/
theorem clean_of_length_lt {cs : List Char} (h : cs.length < mark.length) : Clean cs :=
  fun hm => absurd hm.length_le (Nat.not_le_of_lt h)

/-- What can follow a fragment: the end of the text, or the first letter of a token. -/
def Follows (rest : List Char) : Prop := rest = [] ∨ rest.head? = some 'e'

/-- No token starts in a clean text, also where the letters of a following token
    would complete one. -/
theorem tokenAt?_clean_append {c : Char} {cs rest : List Char} (hc : Clean (c :: cs))
    (hr : Follows rest) : s.tokenAt? (c :: cs ++ rest) = none := by
  rw [Option.eq_none_iff_forall_ne_some]
  rintro ⟨index, rest'⟩ ht
  have heq := (tokenAt?_eq_some_iff.1 ht).2
  rw [token, List.append_assoc] at heq
  rcases List.append_eq_append_iff.1 heq with ⟨as, hm, hrest⟩ | ⟨bs, hcs, -⟩
  · -- The reserved word would go on in what follows, and have its first letter twice.
    cases as with
    | nil => exact hc (hm ▸ by simp)
    | cons a as =>
      have ha : a = 'e' := by
        rcases hr with rfl | hr
        · simp at hrest
        · simpa [hrest] using hr
      rw [mark_eq, List.cons_append] at hm
      exact ne_of_mem_mark_tail ((List.cons.inj hm).2 ▸ by simp) ha
  · exact hc (hcs ▸ (List.prefix_append mark bs).isInfix)

/-- A clean text belongs to one piece. -/
theorem cut_clean_append {cs rest : List Char} (hc : Clean cs) (hr : Follows rest) :
    s.cut (cs ++ rest) = ⟨cs ++ (s.cut rest).head, (s.cut rest).tail⟩ := by
  induction cs with
  | nil => rfl
  | cons c cs ih =>
    have ht : s.tokenAt? (c :: (cs ++ rest)) = none := tokenAt?_clean_append hc hr
    rw [List.cons_append, cut_cons ht, ih hc.of_cons, List.cons_append]

/-- In a clean text there is nothing to cut. -/
theorem cut_clean {cs : List Char} (hc : Clean cs) : s.cut cs = ⟨cs, []⟩ := by
  have h := cut_clean_append (s := s) hc (.inl rfl)
  rwa [List.append_nil, cut_nil, List.append_nil] at h

/-- The cuts of an encoded text are where its fragments were joined. -/
theorem cut_encodeFrom (index : Nat) (f : String) (fs : List String)
    (hclean : ∀ g ∈ f :: fs, Clean g.toList) (hcount : index + fs.length ≤ s.count) :
    s.cut (s.encodeFrom index (f :: fs)) =
      ⟨f.toList, (fs.zipIdx index).map fun e => (e.2, e.1.toList)⟩ := by
  induction fs generalizing index f with
  | nil =>
    exact cut_clean (hclean f List.mem_cons_self)
  | cons g fs ih =>
    have hlt : index < s.count := by
      rw [List.length_cons] at hcount
      omega
    have hcut := ih (index + 1) g (fun x hx => hclean x (List.mem_cons_of_mem _ hx))
      (by rw [List.length_cons] at hcount; omega)
    rw [encodeFrom, cut_clean_append (hclean f List.mem_cons_self) (.inr (by rw [token_eq]; rfl)),
      cut_token_append hlt, hcut, List.append_nil, List.zipIdx_cons, List.map_cons]

theorem cut_encode {f : String} {fs : List String} (hclean : ∀ g ∈ f :: fs, Clean g.toList) :
    (ofFragments (f :: fs)).cut ((ofFragments (f :: fs)).encode (f :: fs)).toList =
      ⟨f.toList, fs.zipIdx.map fun e => (e.2, e.1.toList)⟩ := by
  rw [encode, String.toList_ofList]
  exact cut_encodeFrom 0 f fs hclean (by simp [ofFragments])

/-- The slots of an encoded text, in order. -/
theorem map_index_cut_encode {fragments : List String} (hne : fragments ≠ [])
    (hclean : ∀ f ∈ fragments, Clean f.toList) :
    ((ofFragments fragments).cut ((ofFragments fragments).encode fragments).toList).tail.map (·.1) =
      List.range (fragments.length - 1) := by
  obtain ⟨f, fs, rfl⟩ := List.exists_cons_of_ne_nil hne
  rw [cut_encode hclean, List.map_map, List.length_cons, Nat.add_sub_cancel,
    List.range_eq_range', ← List.zipIdx_map_snd 0 fs]
  rfl

/-- Encoding can be undone. In the text of any template whose fragments are free of
    the reserved word, every slot is found once, in the order of the slots, and what
    is left before, between and after the ranges found are the fragments. -/
theorem find_encode {fragments : List String} (hne : fragments ≠ [])
    (hclean : ∀ f ∈ fragments, Clean f.toList) :
    let s := ofFragments fragments
    (s.find (s.encode fragments)).map (·.index) = List.range (fragments.length - 1) ∧
      pieces (s.encode fragments).toUTF8 0 (s.find (s.encode fragments)) =
        fragments.map String.toUTF8 := by
  refine ⟨by rw [map_index_find, map_index_cut_encode hne hclean], ?_⟩
  obtain ⟨f, fs, rfl⟩ := List.exists_cons_of_ne_nil hne
  have hpieces : fs.zipIdx.map (fun e => e.1.toList.utf8Encode) = fs.map String.toUTF8 := by
    conv => rhs; rw [← List.zipIdx_map_fst 0 fs, List.map_map]
    exact List.map_congr_left fun e _ => String.utf8Encode_toList
  rw [pieces_find, cut_encode hclean, List.map_cons, List.map_map, String.utf8Encode_toList]
  exact congrArg _ hpieces

/-- Twelve slots, with a fragment that ends like the reserved word and one that
    starts with digits: neither takes part in a token. -/
theorem find_encode_near_tokens :
    let fragments := ["p emjay_subst", "0"] ++ List.replicate 11 ""
    let s := ofFragments fragments
    fragments ≠ [] ∧ (∀ f ∈ fragments, Clean f.toList) ∧
      (s.find (s.encode fragments)).map (·.index) = List.range (fragments.length - 1) ∧
      pieces (s.encode fragments).toUTF8 0 (s.find (s.encode fragments)) =
        fragments.map String.toUTF8 := by
  have hne : ["p emjay_subst", "0"] ++ List.replicate 11 "" ≠ [] := by decide
  have hclean : ∀ f ∈ ["p emjay_subst", "0"] ++ List.replicate 11 "", Clean f.toList := by
    have hlen : ∀ f ∈ ["p emjay_subst", "0"] ++ List.replicate 11 "",
        f.toList.length < mark.length := by decide
    exact fun f hf => clean_of_length_lt (hlen f hf)
  exact ⟨hne, hclean, find_encode hne hclean⟩

end Slots

end SlotMarkup
