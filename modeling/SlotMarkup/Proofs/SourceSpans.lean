import SlotMarkup.Proofs.ByteScan
import SlotMarkup.Proofs.EncodeFind
import SlotMarkup.Proofs.ErrorSpans
import SlotMarkup.Proofs.SpanTexts

/-!
# Spans as a map of the source

Reading a text by byte offsets never looks beyond its end nor cuts it inside of a character, and
the spans of what is read are ranges of bytes of the text, as long as offsets are below the limit
of spans. They are in the order of the tokens, and each token shows what is at its span
(`Token.scan_spans`).
-/

namespace SlotMarkup

/-- A span of a text: its ends are in order and neither behind the end of the text nor inside
    of a character. -/
structure Span.Cuts (s : Span) (text : String) : Prop where
  start_le_stop : s.start ≤ s.stop
  stop_le : s.stop ≤ text.utf8ByteSize
  start_valid : String.Pos.Raw.IsValid text ⟨s.start⟩
  stop_valid : String.Pos.Raw.IsValid text ⟨s.stop⟩

theorem byteSize_eq_utf8ByteSize (cs : List Char) :
    byteSize cs = (String.ofList cs).utf8ByteSize := by
  rw [byteSize_eq_size, ← String.toByteArray_ofList]
  rfl

/-! ## Places -/

namespace HasPlace

variable {text : String} {p q : Place}

/-- No place is behind the end of the text. -/
theorem offset_le (h : HasPlace ⟨text⟩ p) : p.offset ≤ text.utf8ByteSize := by
  obtain ⟨pre, hpre, hoffset⟩ := h.split
  have hsize : text.utf8ByteSize = byteSize (pre ++ p.rest) := by
    rw [← hpre, byteSize_eq_utf8ByteSize, String.ofList_toList]
  rw [hsize, byteSize_append, hoffset]
  exact Nat.le_add_right _ _

/-- The offset of a place is between characters. -/
theorem isValid (h : HasPlace ⟨text⟩ p) : String.Pos.Raw.IsValid text ⟨p.offset⟩ := by
  obtain ⟨pre, hpre, hoffset⟩ := h.split
  rw [String.Pos.Raw.isValid_iff_exists_append]
  refine ⟨String.ofList pre, String.ofList p.rest, ?_, ?_⟩
  · rw [← String.ofList_append, ← hpre, String.ofList_toList]
  · rw [hoffset, byteSize_eq_utf8ByteSize]
    rfl

/-- Below the limit, the span between two places holds their offsets. -/
theorem spanTo_eq (hsize : text.utf8ByteSize < 2 ^ 32) (h : HasPlace ⟨text⟩ p) (hq : p.Reaches q) :
    p.spanTo q = ⟨p.offset, q.offset⟩ := by
  have hp := h.offset_le
  have hstop := (h.reached hq).offset_le
  exact Span.ofRange_of_le (by rw [Span.limit]; omega) (by rw [Span.limit]; omega)

/-- The span between two places cuts the text, if it is within the limit of spans. -/
theorem cuts (hsize : text.utf8ByteSize < 2 ^ 32) (h : HasPlace ⟨text⟩ p) (hq : p.Reaches q) :
    (p.spanTo q).Cuts text := by
  rw [h.spanTo_eq hsize hq]
  exact ⟨hq.offset_le, (h.reached hq).offset_le, h.isValid, (h.reached hq).isValid⟩

end HasPlace

/-! ## Tokens -/

section Laid

variable {past past' : List Kind} {p q : Place}

theorem Laid.split {before after : List Token} {t : Token}
    (h : Laid past p (before ++ t :: after) past' q) :
    ∃ a b, p.Reaches a ∧ a.Reaches b ∧ t.span = a.spanTo b ∧
      t.lexeme.Shows ((before.map Token.kind).reverse ++ past) (a.upTo b) := by
  induction before generalizing past p with
  | nil =>
    cases h with
    | cons ha hb hl _ => exact ⟨_, _, ha, hb, rfl, hl⟩
  | cons u before ih =>
    cases h with
    | cons ha hb _ hmore =>
      obtain ⟨a, b, hreach, hab, hspan, hshows⟩ := ih hmore
      refine ⟨a, b, ha.trans (hb.trans hreach), hab, hspan, ?_⟩
      rw [List.map_cons, List.reverse_cons, List.append_assoc]
      exact hshows

/-- Tokens one behind the other have spans in order. -/
theorem Laid.ordered {ts : List Token} (h : Laid past p ts past' q) :
    (∀ t ∈ ts, min p.offset Span.limit ≤ t.span.start) ∧
      ts.Pairwise fun t u => t.span.stop ≤ u.span.start := by
  induction h with
  | nil => exact ⟨fun _ ht => absurd ht List.not_mem_nil, .nil⟩
  | @cons past p a b ts past' q l ha hb hl hmore ih =>
    -- Beyond the limit all offsets are shown as the limit, which keeps their order.
    have hstart : min p.offset Span.limit ≤ min a.offset Span.limit := by
      have := ha.offset_le
      omega
    have hstop : min a.offset Span.limit ≤ min b.offset Span.limit := by
      have := hb.offset_le
      omega
    refine ⟨List.forall_mem_cons.2 ⟨hstart, fun t ht => ?_⟩, List.pairwise_cons.2 ⟨ih.1, ih.2⟩⟩
    exact Nat.le_trans hstart (Nat.le_trans hstop (ih.1 t ht))

end Laid

/-- A text of less than 4 GiB is scanned by its bytes without looking or cutting where nothing
    is or where a character is, and to the outcome of `Token.scan`. The spans of its tokens, or
    of what is wrong with it, are spans of the text. Those of the tokens are in order, and each
    token shows the text of its span. -/
theorem Token.scan_spans (text : String) (hsize : text.utf8ByteSize < 2 ^ 32) :
    Source.scan ⟨text⟩ = .of (Token.scan text) ∧
    (∀ tokens, Token.scan text = .ok tokens →
      tokens.Pairwise (fun t u => t.span.stop ≤ u.span.start) ∧
      ∀ before t after, tokens = before ++ t :: after → t.span.Cuts text ∧
        ∃ s, slice? text.toList t.span.start t.span.stop = some s ∧
          t.lexeme.Shows (before.map Token.kind).reverse s) ∧
    ∀ e, Token.scan text = .error e → e.span.Cuts text := by
  have hplace := HasPlace.ofText ⟨text⟩
  refine ⟨Source.scan_eq text, fun tokens hscan => ?_, fun e hscan => ?_⟩
  · obtain ⟨past', q, hlaid⟩ : ∃ past' q, Laid [] (.ofText text) tokens past' q :=
      scanLines_laid hscan rfl fun _ => rfl
    refine ⟨hlaid.ordered.2, ?_⟩
    rintro before t after rfl
    -- The token lies between two places of the text, whose offsets are the ends of its span.
    obtain ⟨a, b, ha, hab, hspan, hshows⟩ := hlaid.split
    have hcut := hplace.reached ha
    rw [hspan]
    refine ⟨hcut.cuts hsize hab, a.upTo b, ?_, by rwa [List.append_nil] at hshows⟩
    rw [hcut.spanTo_eq hsize hab, hcut.slice?_eq hab]
  · obtain ⟨a, b, ha, hab, hspan⟩ := scanLines_error hscan
    exact hspan ▸ (hplace.reached ha).cuts hsize hab

/-- Of a piped line the bar and one space are in the span, but not in the text. -/
theorem Token.scan_spans_piped :
    Source.scan ⟨"a(b=é)\n| ü"⟩ = .of (.ok [⟨.tag "a", ⟨0, 1⟩⟩, ⟨.openAttributes, ⟨1, 2⟩⟩,
      ⟨.attr "b" (.raw "é"), ⟨2, 6⟩⟩, ⟨.closeAttributes, ⟨6, 7⟩⟩, ⟨.newline, ⟨8, 8⟩⟩,
      ⟨.text "ü", ⟨8, 12⟩⟩, ⟨.eof, ⟨12, 12⟩⟩]) ∧
    (Span.mk 8 12).Cuts "a(b=é)\n| ü" ∧
    ∃ s, slice? "a(b=é)\n| ü".toList 8 12 = some s ∧ "ü".toList = withoutBar s := by
  have hscan : (Token.scan "a(b=é)\n| ü").toOption = some [⟨.tag "a", ⟨0, 1⟩⟩,
      ⟨.openAttributes, ⟨1, 2⟩⟩, ⟨.attr "b" (.raw "é"), ⟨2, 6⟩⟩, ⟨.closeAttributes, ⟨6, 7⟩⟩,
      ⟨.newline, ⟨8, 8⟩⟩, ⟨.text "ü", ⟨8, 12⟩⟩, ⟨.eof, ⟨12, 12⟩⟩] := by decide +kernel
  obtain ⟨hbytes, htokens, -⟩ := Token.scan_spans "a(b=é)\n| ü" (by decide +kernel)
  obtain ⟨-, hshows⟩ := htokens _ (ok_of_toOption hscan)
  rw [ok_of_toOption hscan] at hbytes
  exact ⟨hbytes, hshows [⟨.tag "a", ⟨0, 1⟩⟩, ⟨.openAttributes, ⟨1, 2⟩⟩,
    ⟨.attr "b" (.raw "é"), ⟨2, 6⟩⟩, ⟨.closeAttributes, ⟨6, 7⟩⟩, ⟨.newline, ⟨8, 8⟩⟩]
    ⟨.text "ü", ⟨8, 12⟩⟩ [⟨.eof, ⟨12, 12⟩⟩] rfl⟩

end SlotMarkup
