import SlotMarkup.Proofs.TokenFree

/-!
# Texts split at their tokens

A text with tokens in it becomes a list, of its pieces and of the values between them. The two
take turns, the pieces first and last (`alternate`), also where a piece is empty: between two
tokens, or at an end of the text.

* `occurrences_bytes`: where a token is found, its own text stands;
* `text_split`: nothing is lost, as the pieces with the tokens between them are the text, and no
  token is left in a piece.
-/

namespace SlotMarkup

/-! ## Taking turns -/

/-- The elements of two lists in turn, one of the first list before all others. -/
def alternate {α : Type} : List α → List α → List α
  | x :: xs, y :: ys => x :: y :: alternate xs ys
  | xs, _ => xs

section Alternate

variable {α : Type} {xs ys : List α}

theorem length_alternate (h : xs.length = ys.length + 1) :
    (alternate xs ys).length = 2 * ys.length + 1 := by
  fun_induction alternate xs ys with
  | case1 x xs y ys ih =>
    have hlen := ih (Nat.succ.inj h)
    rw [List.length_cons, List.length_cons, List.length_cons, hlen]
    omega
  | case2 xs ys hne =>
    cases ys with
    | nil => exact h
    | cons y ys =>
      cases xs with
      | nil => simp at h
      | cons x xs => exact absurd rfl (hne x xs y ys rfl)

/-- The first list stands at the even places, the second one at the odd places. -/
theorem getElem?_alternate (h : xs.length = ys.length + 1) (i : Nat) :
    (alternate xs ys)[2 * i]? = xs[i]? ∧ (alternate xs ys)[2 * i + 1]? = ys[i]? := by
  fun_induction alternate xs ys generalizing i with
  | case1 x xs y ys ih =>
    cases i with
    | zero => exact ⟨rfl, rfl⟩
    | succ i => exact ih (Nat.succ.inj h) i
  | case2 xs ys hne =>
    cases ys with
    | nil =>
      obtain ⟨x, rfl⟩ := List.length_eq_one_iff.1 h
      cases i with
      | zero => exact ⟨rfl, rfl⟩
      | succ i => exact ⟨rfl, rfl⟩
    | cons y ys =>
      cases xs with
      | nil => simp at h
      | cons x xs => exact absurd rfl (hne x xs y ys rfl)

end Alternate

/-! ## Tokens and pieces -/

namespace Slots

variable {s : Slots}

/-- The pieces of a cut, the first one at the head. -/
def Cut.pieces (c : Cut) : List (List Char) := c.head :: c.tail.map (·.2)

theorem Cut.length_pieces (c : Cut) : c.pieces.length = c.tail.length + 1 := by
  rw [Cut.pieces, List.length_cons, List.length_map]

/-- What is joined are the pieces in turn with the words between them. -/
theorem Cut.join_eq_alternate (word : Nat → List Char) (c : Cut) :
    c.join word = (alternate c.pieces (c.tail.map fun e => word e.1)).flatten := by
  obtain ⟨head, tail⟩ := c
  induction tail generalizing head with
  | nil => simp [Cut.join, Cut.pieces, alternate]
  | cons e tail ih =>
    have hmore := ih e.2
    rw [Cut.join, Cut.pieces] at hmore ⊢
    rw [List.flatMap_cons, List.map_cons, List.map_cons, alternate, List.flatten_cons,
      List.flatten_cons, ← hmore, List.append_assoc]

theorem length_occurrences (offset : Nat) (tail : List (Nat × List Char)) :
    (s.occurrences offset tail).length = tail.length := by
  have h := congrArg List.length (map_index_occurrences (s := s) offset tail)
  rwa [List.length_map, List.length_map] at h

/-- Where a token is found, its own text stands. -/
theorem occurrences_bytes (pre head : List Char) (tail : List (Nat × List Char))
    (htail : ∀ e ∈ tail, e.1 < s.count) :
    ∀ o ∈ s.occurrences (byteSize (pre ++ head)) tail,
      (pre ++ Cut.join s.token ⟨head, tail⟩).utf8Encode.extract o.start o.stop =
        (s.token o.index).utf8Encode := by
  induction tail generalizing pre head with
  | nil => simp [occurrences]
  | cons e tail ih =>
    obtain ⟨index, piece⟩ := e
    have hsize : byteSize (s.token index) = s.tokenLength :=
      byteSize_token (htail _ List.mem_cons_self)
    have hjoin : pre ++ Cut.join s.token ⟨head, (index, piece) :: tail⟩ =
        (pre ++ head) ++ (s.token index ++ Cut.join s.token ⟨piece, tail⟩) := by
      simp [Cut.join]
    intro o ho
    rw [occurrences] at ho
    rcases List.mem_cons.1 ho with rfl | ho
    · have h := extract_utf8Encode (pre ++ head) (s.token index) (Cut.join s.token ⟨piece, tail⟩)
      rwa [byteSize_append (pre ++ head), hsize, ← hjoin] at h
    · have h := ih (pre ++ head ++ s.token index) piece
        (fun e he => htail e (List.mem_cons_of_mem _ he))
      rw [byteSize_append, byteSize_append (pre ++ head), hsize] at h
      rw [hjoin, ← List.append_assoc]
      exact h o ho

/-- Where a token is found in a text, its own text stands. -/
theorem find_bytes (text : String) : ∀ o ∈ s.find text,
    text.toUTF8.extract o.start o.stop = (s.token o.index).utf8Encode := by
  have h := occurrences_bytes [] (s.cut text.toList).head (s.cut text.toList).tail
    fun _ he => lt_of_mem_cut he
  have hjoin : Cut.join s.token ⟨(s.cut text.toList).head, (s.cut text.toList).tail⟩ =
      text.toList := join_cut text.toList
  rw [hjoin, List.nil_append, List.nil_append, String.utf8Encode_toList] at h
  exact h

theorem find_eq_nil_iff {text : String} : s.find text = [] ↔ (s.cut text.toList).tail = [] := by
  rw [← List.length_eq_zero_iff, ← List.length_eq_zero_iff, find, length_occurrences]

/-- No token is left in a piece. -/
theorem find_piece {text : String} {cs : List Char} (h : cs ∈ (s.cut text.toList).pieces) :
    s.find (String.ofList cs) = [] := by
  rw [find_eq_nil_iff, String.toList_ofList]
  have hfree := cut_tail_pieces (s := s) text.toList
  rcases List.mem_cons.1 h with rfl | h
  · exact hfree.1
  · obtain ⟨e, he, rfl⟩ := List.mem_map.1 h
    exact hfree.2 e he

/-- The pieces in turn with the tokens that were found are the text. -/
theorem flatten_pieces (text : String) : (alternate (s.cut text.toList).pieces
    ((s.find text).map fun o => s.token o.index)).flatten = text.toList := by
  have htokens := congrArg (List.map s.token) (s.map_index_find text)
  rw [List.map_map, List.map_map] at htokens
  have hjoin := Cut.join_eq_alternate s.token (s.cut text.toList)
  rw [join_cut] at hjoin
  exact (congrArg (fun ws => (alternate _ ws).flatten) htokens).trans hjoin.symm

end Slots

/-! ## Splitting -/

namespace Filling

variable {f : Filling}

/-- The pieces of a text in turn with the values between them. -/
theorem pieces_eq_alternate (head : List Char) (tail : List (Nat × List Char)) :
    .str (String.ofList head) :: f.pieces tail =
      alternate ((Slots.Cut.pieces ⟨head, tail⟩).map fun piece => .str (String.ofList piece))
        (tail.map fun e => f.value e.1) := by
  induction tail generalizing head with
  | nil => rfl
  | cons e tail ih =>
    exact congrArg (fun l => .str (String.ofList head) :: f.value e.1 :: l) (ih e.2)

theorem text_eq (s : String) : f.text s =
    if (f.slots.cut s.toList).tail = [] then .text s
    else .list (alternate
      ((f.slots.cut s.toList).pieces.map fun piece => .str (String.ofList piece))
      ((f.slots.cut s.toList).tail.map fun e => f.value e.1)) := by
  rw [text]
  cases htail : (f.slots.cut s.toList).tail with
  | nil => rfl
  | cons e tail =>
    rw [if_neg (by simp), ← htail, ← pieces_eq_alternate, htail]

/-- A text without tokens stays as it is. Any other one is split into its pieces, with the values
    of the tokens in the order of the text between them: for `k` tokens there are `2 * k + 1`
    items. No piece has a token in it, and with the tokens' own text between them the pieces are
    the text. -/
theorem text_split (f : Filling) (s : String) :
    (f.slots.find s = [] → f.text s = .text s) ∧
    (f.slots.find s ≠ [] → ∃ (items : List Value) (pieces : List String),
      f.text s = .list items ∧
      items.length = 2 * (f.slots.find s).length + 1 ∧
      pieces.length = (f.slots.find s).length + 1 ∧
      (∀ i o, (f.slots.find s)[i]? = some o →
        items[2 * i + 1]? = some ((f.values[o.index]?).getD .undefined)) ∧
      (∀ i, items[2 * i]? = pieces[i]?.map Value.str) ∧
      (∀ piece ∈ pieces, f.slots.find piece = []) ∧
      (∀ o ∈ f.slots.find s,
        s.toUTF8.extract o.start o.stop = (f.slots.token o.index).utf8Encode) ∧
      (alternate (pieces.map String.toList)
        ((f.slots.find s).map fun o => f.slots.token o.index)).flatten = s.toList) := by
  have hindices := f.slots.map_index_find s
  have hlen : (f.slots.find s).length = (f.slots.cut s.toList).tail.length :=
    Slots.length_occurrences _ _
  refine ⟨fun hfind => ?_, fun hfind => ?_⟩
  · rw [text_eq, if_pos (Slots.find_eq_nil_iff.1 hfind)]
  · have htail : (f.slots.cut s.toList).tail ≠ [] := fun h => hfind (Slots.find_eq_nil_iff.2 h)
    generalize hc : f.slots.cut s.toList = c at *
    have hpieces := c.length_pieces
    have hlength : (c.pieces.map fun piece => Value.str (String.ofList piece)).length =
        (c.tail.map fun e => f.value e.1).length + 1 := by
      rw [List.length_map, List.length_map, hpieces]
    refine ⟨_, c.pieces.map String.ofList, by rw [text_eq, hc, if_neg htail], ?_, ?_, ?_, ?_, ?_,
      Slots.find_bytes s, ?_⟩
    · rw [length_alternate hlength, List.length_map, hlen]
    · rw [List.length_map, hpieces, hlen]
    · intro i o ho
      have hindex : (c.tail.map (·.1))[i]? = some o.index := by
        rw [← hindices, List.getElem?_map, ho, Option.map_some]
      rw [List.getElem?_map] at hindex
      obtain ⟨e, he, hindex⟩ := Option.map_eq_some_iff.1 hindex
      rw [(getElem?_alternate hlength i).2, List.getElem?_map, he, Option.map_some, value, hindex]
    · intro i
      rw [(getElem?_alternate hlength i).1, List.getElem?_map, List.getElem?_map, Option.map_map]
      rfl
    · intro piece hpiece
      obtain ⟨cs, hcs, rfl⟩ := List.mem_map.1 hpiece
      exact Slots.find_piece (hc ▸ hcs)
    · have htexts : (c.pieces.map String.ofList).map String.toList = c.pieces := by
        simp [Function.comp_def]
      rw [htexts, ← hc, Slots.flatten_pieces]

/-- Two tokens at the start, next to each other and one of them without a value, and then what is
    no token: a number that is too short, and one of no slot. -/
theorem text_split_near_tokens :
    let f : Filling := ⟨⟨12⟩, [.str "x"]⟩
    let s := "emjay_substitution00emjay_substitution11é emjay_substitution1 emjay_substitution99"
    f.slots.find s = [⟨0, 0, 20⟩, ⟨11, 20, 40⟩] ∧ f.slots.find s ≠ [] ∧
      ∃ (items : List Value) (pieces : List String), f.text s = .list items ∧
        items.length = 5 ∧ pieces.length = 3 ∧ items[1]? = some (.str "x") ∧
        items[3]? = some .undefined ∧ (∀ i, items[2 * i]? = pieces[i]?.map Value.str) ∧
        ∀ piece ∈ pieces, f.slots.find piece = [] := by
  intro f s
  have hfind : f.slots.find s = [⟨0, 0, 20⟩, ⟨11, 20, 40⟩] := by decide +kernel
  have hne : f.slots.find s ≠ [] := by simp [hfind]
  obtain ⟨items, pieces, htext, hitems, hpieces, hvalues, heven, hfree, -⟩ := (text_split f s).2 hne
  rw [hfind] at hitems hpieces hvalues
  exact ⟨hfind, hne, items, pieces, htext, hitems, hpieces, hvalues 0 _ rfl, hvalues 1 _ rfl, heven,
    hfree⟩

end Filling

end SlotMarkup
