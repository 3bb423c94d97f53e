import Mathlib.Data.List.Chain
import SlotMarkup.Proofs.ScanSteps
import SlotMarkup.Proofs.TokenCover

/-!
# The stack of indentation

At every point of a scan (`Scanner`) the widths on the stack grow from 0 inwards, and there is
one for each indent that no outdent has closed (`Balanced`). What an indent can stand behind
depends on how the line before has ended: behind a comment or a text block nothing is nested,
as both take all deeper lines (`NotNested`). So each phase of the scan has its own part of the
invariant (`Scanner.Ready`).

* `Balanced.indent`, `Balanced.outdent`: what opens and closes a line;
* `Scanner.Sound.step`: every step preserves the invariant;
* `Scanner.sound_of_reaches`: it holds at every point of a scan.
-/

namespace SlotMarkup

/-! ## Counting indents -/

/-- The number of indents. -/
def indents (ts : List Token) : Nat := (ts.map Token.kind).count .indent

/-- The number of outdents. -/
def outdents (ts : List Token) : Nat := (ts.map Token.kind).count .outdent

/-- The kinds of tokens that no line is nested directly behind. -/
def breakKinds : List Kind := [.outdent, .newline, .comment, .closeTextBlock]

/-- An indent does not stand directly behind a break. -/
def CanFollow (t u : Token) : Prop := u.kind = .indent → t.kind ∉ breakKinds

/-- The widths of the enclosing lines fit the tokens before. -/
structure Balanced (stack : List Nat) (tokens : List Token) : Prop where
  root : stack.getLast? = some 0
  sorted : stack.Pairwise (· > ·)
  height : stack.length + outdents tokens = indents tokens + 1
  prefixes : ∀ us, us <+: tokens → outdents us ≤ indents us
  follows : tokens.IsChain CanFollow

theorem indents_concat (ts : List Token) (t : Token) :
    indents (ts ++ [t]) = indents ts + if t.kind = .indent then 1 else 0 := by
  simp [indents, List.count_append, List.count_singleton]

theorem outdents_concat (ts : List Token) (t : Token) :
    outdents (ts ++ [t]) = outdents ts + if t.kind = .outdent then 1 else 0 := by
  simp [outdents, List.count_append, List.count_singleton]

/-- Tokens that neither change the indentation nor end the text. -/
def IsContent (t : Token) : Prop := t.kind ≠ .indent ∧ t.kind ≠ .outdent ∧ t.kind ≠ .eof

namespace Balanced

variable {stack : List Nat} {tokens : List Token} {t : Token} {w : Nat}

theorem ne_nil (h : Balanced stack tokens) : stack ≠ [] := by
  rintro rfl
  simpa using h.root

/-- A token more, and the stack that fits it. -/
theorem concat {kept : List Nat} (h : Balanced stack tokens) (root : kept.getLast? = some 0)
    (sorted : kept.Pairwise (· > ·))
    (height : kept.length + outdents (tokens ++ [t]) = indents (tokens ++ [t]) + 1)
    (hnest : ∀ u ∈ tokens.getLast?, CanFollow u t) : Balanced kept (tokens ++ [t]) where
  root := root
  sorted := sorted
  height := height
  prefixes us hus := by
    rcases List.prefix_concat_iff.1 hus with rfl | hus
    · have hpos : 0 < kept.length := List.length_pos_iff.2 fun hnil => by simp [hnil] at root
      omega
    · exact h.prefixes us hus
  follows := by
    rw [List.isChain_append]
    refine ⟨h.follows, List.isChain_singleton t, fun u hu v hv => ?_⟩
    obtain rfl : t = v := by simpa using hv
    exact hnest u hu

/-- A token that neither opens nor closes a block leaves the widths as they are. -/
theorem push (h : Balanced stack tokens) (hi : t.kind ≠ .indent) (ho : t.kind ≠ .outdent) :
    Balanced stack (tokens ++ [t]) := by
  refine h.concat h.root h.sorted ?_ fun u _ hk => absurd hk hi
  rw [outdents_concat, indents_concat, if_neg hi, if_neg ho]
  exact h.height

/-- An indent can open any width greater than the innermost one, if it is not behind a break. -/
theorem indent (h : Balanced stack tokens) (ht : t.kind = .indent) (hw : stack.headD 0 < w)
    (hlast : ∀ u ∈ tokens.getLast?, u.kind ∉ breakKinds) :
    Balanced (w :: stack) (tokens ++ [t]) := by
  obtain ⟨v, vs, rfl⟩ := List.exists_cons_of_ne_nil h.ne_nil
  refine h.concat (by rw [List.getLast?_cons_cons]; exact h.root) ?_ ?_ fun u hu _ => hlast u hu
  · refine List.pairwise_cons.2 ⟨fun x hx => ?_, h.sorted⟩
    rcases List.mem_cons.1 hx with rfl | hx
    · exact hw
    · exact Nat.lt_trans ((List.pairwise_cons.1 h.sorted).1 x hx) hw
  · have hheight := h.height
    rw [outdents_concat, indents_concat, if_pos ht, if_neg (by simp [ht]), List.length_cons]
    omega

/-- An outdent can close any width but that of the text itself. -/
theorem outdent (h : Balanced stack tokens) (ht : t.kind = .outdent) (hlen : 1 < stack.length) :
    Balanced stack.tail (tokens ++ [t]) := by
  match stack, h, hlen with
  | v :: w :: ws, h, _ =>
    refine h.concat ?_ (List.pairwise_cons.1 h.sorted).2 ?_ fun u _ hk => ?_
    · rw [List.tail_cons, ← List.getLast?_cons_cons]
      exact h.root
    · have hheight := h.height
      rw [outdents_concat, indents_concat, if_pos ht, if_neg (by simp [ht])]
      simp only [List.length_cons, List.tail_cons] at hheight ⊢
      omega
    · simp [ht] at hk

/-- The width of the text itself is below all others. -/
theorem length_gt_one (h : Balanced stack tokens) (hw : w < stack.headD 0) : 1 < stack.length := by
  match stack, h, hw with
  | [v], h, hw =>
    obtain rfl : v = 0 := by simpa using h.root
    simp at hw
  | v :: x :: xs, _, _ => simp

/-- Where nothing is nested, only the text itself is on the stack. -/
theorem eq_of_length (h : Balanced stack tokens) (hlen : stack.length ≤ 1) : stack = [0] := by
  match stack, h, hlen with
  | [], h, _ => exact absurd rfl h.ne_nil
  | [v], h, _ =>
    obtain rfl : v = 0 := by simpa using h.root
    rfl

end Balanced

/-! ## Ends of lines -/

/-- The line at `p`, if there is one, is not indented by more than `indent`. -/
def NotNested (indent : Nat) (p : Place) : Prop :=
  p.rest = [] ∨ (isBlankText p.line = false ∧ p.indent ≤ indent)

/-- Nothing is nested behind the tokens of a line if their last one is a break. -/
def Settled (tokens : List Token) (indent : Nat) (next : Place) : Prop :=
  ∀ t ∈ tokens.getLast?, t.kind ∈ breakKinds → NotNested indent next

/-- Behind no break, a line may have any columns. -/
theorem settled_of_last {tokens : List Token} {indent : Nat} {next : Place}
    (h : ∀ t ∈ tokens.getLast?, t.kind ∉ breakKinds) : Settled tokens indent next :=
  fun t ht hk => absurd hk (h t ht)

/-- Behind a break, the next line is not nested. -/
theorem settled_concat {tokens : List Token} {t : Token} {indent : Nat} {next : Place}
    (h : t.kind ∈ breakKinds → NotNested indent next) : Settled (tokens ++ [t]) indent next := by
  intro u hu hk
  obtain rfl : t = u := by simpa using hu
  exact h hk

/-- Behind a break there is no line that is nested or blank. -/
theorem Settled.last {tokens : List Token} {indent : Nat} {p : Place}
    (h : Settled tokens indent p) (hne : p.rest ≠ [])
    (hline : isBlankText p.line = true ∨ indent < p.indent) :
    ∀ t ∈ tokens.getLast?, t.kind ∉ breakKinds := by
  intro t ht hk
  rcases h t ht hk with hnil | ⟨hb, hle⟩
  · exact hne hnil
  · rcases hline with hline | hlt
    · simp [hb] at hline
    · exact Nat.not_lt_of_le hle hlt

section Lines

variable {indent : Nat} {p q : Place} {ts : List Token}

/-- What is in a chain of tags is content. -/
theorem isContent_of_chainKinds {t : Token} (h : t.kind ∈ chainKinds) : IsContent t := by
  refine ⟨?_, ?_, ?_⟩
  all_goals
    intro hk
    rw [hk] at h
    simp [chainKinds] at h

theorem isContent_of_lexeme {l : Lexeme} (h : l.kind ∈ chainKinds) (span : Span) :
    IsContent ⟨l, span⟩ := isContent_of_chainKinds h

/-- The line behind a block of text is not nested in it. -/
theorem notNested_textBlock (indent : Nat) (p : Place) :
    NotNested indent (textBlock indent p).2 := nestedRun_stop indent p.nextLine

/-- A line that is cut into no tags is one text or a comment. -/
theorem lineContent_single (hopens : ¬opensTag p.rest = true)
    (h : lineContent indent p = .ok (ts, q)) :
    ∃ t, ts = [t] ∧ (t.kind = .text ∨ t.kind = .comment ∧ NotNested indent q) := by
  rcases lineContent_of_not_opensTag hopens with hc | hc | hc | ⟨n, hc | hc⟩
  all_goals rw [hc] at h
  · obtain ⟨rfl, rfl⟩ := Prod.mk.inj (Except.ok.inj h)
    exact ⟨_, rfl, .inr ⟨rfl, nestedRun_stop indent p.nextLine⟩⟩
  · obtain ⟨rfl, rfl⟩ := Prod.mk.inj (Except.ok.inj h)
    exact ⟨_, rfl, .inl rfl⟩
  · obtain ⟨rfl, rfl⟩ := Prod.mk.inj (Except.ok.inj h)
    exact ⟨_, rfl, .inl rfl⟩
  · simp at h
  · simp at h

/-- The body of a tag ends with a text, with a text block, or before it starts. -/
theorem tagBody_settled {tokens : List Token} (hlast : ∀ t ∈ tokens.getLast?, t.kind ∉ breakKinds)
    (h : tagBody indent p = .ok (ts, q)) : Settled (tokens ++ ts) indent q := by
  rw [tagBody] at h
  split at h
  · obtain ⟨rfl, rfl⟩ := Prod.mk.inj (Except.ok.inj h)
    rw [List.append_nil]
    exact settled_of_last hlast
  · split at h
    · split at h
      · have hstop := notNested_textBlock indent p
        rw [Except.ok.inj h] at hstop
        exact fun _ _ _ => hstop
      · simp at h
    · dsimp only at h
      split at h
      · obtain ⟨rfl, rfl⟩ := Prod.mk.inj (Except.ok.inj h)
        rw [List.append_nil]
        exact settled_of_last hlast
      · obtain ⟨rfl, rfl⟩ := Prod.mk.inj (Except.ok.inj h)
        refine settled_concat fun hk => ?_
        simp [Token.read, Token.kind, Lexeme.kind, breakKinds] at hk
    · split at h
      · obtain ⟨rfl, rfl⟩ := Prod.mk.inj (Except.ok.inj h)
        rw [List.append_nil]
        exact settled_of_last hlast
      · simp at h
    all_goals simp at h

end Lines

/-! ## The invariant -/

/-- Whether the content of a line is read. -/
def Phase.inLine : Phase → Bool
  | .content | .head _ | .parts _ | .attributes _ _ => true
  | _ => false

namespace Scanner

/-- What holds before each phase. -/
def Ready (s : Scanner) : Prop :=
  match s.phase with
  | .fresh _ => Settled s.tokens s.top s.line
  | .opening | .closing => True
  | .content | .head _ | .attributes _ _ => s.top = s.line.indent
  | .parts _ => s.top = s.line.indent ∧ ∀ t ∈ s.tokens.getLast?, t.kind ∉ breakKinds
  | .writing ts next => (∀ t ∈ ts, IsContent t) ∧ Settled (s.tokens ++ ts) s.top next
  | .done => s.stack = [0] ∧
      ∃ us t, s.tokens = us ++ [t] ∧ t.kind = .eof ∧ ∀ u ∈ us, u.kind ≠ .eof

/-- What holds at every point of a scan. -/
structure Sound (s : Scanner) : Prop where
  balanced : Balanced s.stack s.tokens
  ready : s.Ready
  unfinished : s.phase ≠ .done → ∀ t ∈ s.tokens, t.kind ≠ .eof

variable {s t : Scanner}

/-- A scan starts with one width on the stack and no tokens. -/
theorem sound_start (text : String) : (start text).Sound where
  balanced := by
    refine ⟨rfl, List.pairwise_singleton _ _, rfl, fun us hus => ?_, List.isChain_nil⟩
    obtain rfl := List.prefix_nil.1 hus
    exact Nat.le_refl _
  ready := settled_of_last fun t ht => by simp [start] at ht
  unfinished _ t ht := by simp [start] at ht

namespace Sound

/-- A step that pushes nothing. -/
theorem go {phase : Phase} {line : Place} (h : s.Sound) (hp : s.phase ≠ .done)
    (hready : Ready { s with line, phase }) : Sound { s with line, phase } :=
  ⟨h.balanced, hready, fun _ => h.unfinished hp⟩

/-- A step that pushes a token. -/
theorem concat {stack : List Nat} {u : Token} {phase : Phase} (h : s.Sound) (hp : s.phase ≠ .done)
    (hb : Balanced stack (s.tokens ++ [u])) (hu : phase ≠ .done → u.kind ≠ .eof)
    (hready : ({ s with stack }.push u phase).Ready) : ({ s with stack }.push u phase).Sound := by
  refine ⟨hb, hready, fun hphase v hv => ?_⟩
  rcases List.mem_append.1 hv with hv | hv
  · exact h.unfinished hp v hv
  · exact List.mem_singleton.1 hv ▸ hu hphase

/-- Content keeps the scanner sound. -/
theorem push {u : Token} {phase : Phase} (h : s.Sound) (hp : s.phase ≠ .done) (hu : IsContent u)
    (hready : (s.push u phase).Ready) : (s.push u phase).Sound :=
  h.concat hp (h.balanced.push hu.1 hu.2.1) (fun _ => hu.2.2) hready

/-- A step that pushes a part of a head. -/
theorem pushPart {u : Token} {q : Place} (h : s.Sound) (hp : s.phase ≠ .done)
    (htop : s.top = s.line.indent) (hu : u.kind ∈ headEnds) : (s.push u (.parts q)).Sound := by
  have hcontent : IsContent u := by
    refine ⟨?_, ?_, ?_⟩
    all_goals
      intro hk
      simp [hk, headEnds] at hu
  refine h.push hp hcontent ⟨htop, fun v hv hk => ?_⟩
  obtain rfl : u = v := by simpa [Scanner.push] using hv
  simp only [headEnds, breakKinds, List.mem_cons, List.not_mem_nil, or_false] at hu hk
  rcases hk with hk | hk | hk | hk <;> simp [hk] at hu

/-- At the start of a line the scanner is settled. -/
theorem settled {first : Bool} (h : s.Sound) (hp : s.phase = .fresh first) :
    Settled s.tokens s.top s.line := by
  simpa only [Ready, hp] using h.ready

/-- Inside of a line, the width on the stack is that of the line. -/
theorem inLine (h : s.Sound) (hp : s.phase.inLine = true) : s.top = s.line.indent := by
  have hready := h.ready
  rw [Ready] at hready
  cases hphase : s.phase with
  | content | head | attributes =>
    rw [hphase] at hready
    exact hready
  | parts =>
    rw [hphase] at hready
    exact hready.1
  | fresh | opening | writing | closing | done => simp [hphase, Phase.inLine] at hp

/-- Inside of a head, no break was written last. -/
theorem parts {p : Place} (h : s.Sound) (hp : s.phase = .parts p) :
    ∀ t ∈ s.tokens.getLast?, t.kind ∉ breakKinds := by
  have hready := h.ready
  rw [Ready, hp] at hready
  exact hready.2

/-- Tokens that are still to be written are content, and leave the scanner settled. -/
theorem writing {ts : List Token} {next : Place} (h : s.Sound) (hp : s.phase = .writing ts next) :
    (∀ t ∈ ts, IsContent t) ∧ Settled (s.tokens ++ ts) s.top next := by
  simpa only [Ready, hp] using h.ready

/-- Every step preserves what holds. -/
theorem step (h : s.Sound) (hstep : s.step = .ok t) : t.Sound := by
  cases moves_of_step hstep with
  | finish hp hnil => exact h.go (by simp [hp]) trivial
  | skip hp hne hb =>
    exact h.go (by simp [hp]) (settled_of_last ((h.settled hp).last hne (.inl hb)))
  | nest hp hne hlt =>
    have hb := h.balanced.indent (t := ⟨.indent, s.inner.point⟩) rfl hlt
      ((h.settled hp).last hne (.inr hlt))
    exact h.concat (by simp [hp]) hb (fun _ => by simp [Token.kind, Lexeme.kind]) rfl
  | unnest hp hgt => exact h.go (by simp [hp]) trivial
  | first hp htop => exact h.go (by simp [hp]) htop
  | newline hp htop =>
    have hnewline := isContent_of_lexeme (l := .newline) (by simp [Lexeme.kind, chainKinds])
    exact h.push (by simp [hp]) (hnewline _) htop
  | close hp hgt =>
    have hb := h.balanced.outdent (t := ⟨.outdent, s.inner.point⟩) rfl
      (h.balanced.length_gt_one hgt)
    exact h.concat (by simp [hp]) hb (fun _ => by simp [Token.kind, Lexeme.kind]) trivial
  | settle hp htop => exact h.go (by simp [hp]) htop
  | tags hp hopens => exact h.go (by simp [hp]) (h.inLine (by rw [hp]; rfl))
  | single hp hopens hc =>
    have htop := h.inLine (by rw [hp]; rfl)
    obtain ⟨u, rfl, hu⟩ := lineContent_single hopens hc
    refine h.go (by simp [hp]) ⟨fun v hv => ?_, settled_concat fun hk => ?_⟩
    · obtain rfl := List.mem_singleton.1 hv
      rcases hu with hu | ⟨hu, -⟩ <;> simp [IsContent, hu]
    · rcases hu with hu | ⟨-, hstop⟩
      · simp [hu, breakKinds] at hk
      · exact htop.symm ▸ hstop
  | name hp hname hkey =>
    exact h.pushPart (by simp [hp]) (h.inLine (by rw [hp]; rfl)) (.head _)
  | shorthand hp hs =>
    obtain ⟨l, rfl, hl⟩ := shorthand?_read hs
    rcases hp with hp | hp
    · exact h.pushPart (by simp [hp]) (h.inLine (by rw [hp]; rfl)) hl
    · exact h.pushPart (by simp [hp]) (h.inLine (by rw [hp]; rfl)) hl
  | openList hp =>
    have hopen := isContent_of_lexeme (l := .openAttributes) (by simp [Lexeme.kind, chainKinds])
    exact h.push (by simp [hp]) (hopen _) (h.inLine (by rw [hp]; rfl))
  | colon hp =>
    have hcolon := isContent_of_lexeme (l := .colon) (by simp [Lexeme.kind, chainKinds])
    exact h.push (by simp [hp]) (hcolon _) (h.inLine (by rw [hp]; rfl))
  | body hp hbody =>
    have htop := h.inLine (by rw [hp]; rfl)
    refine h.go (by simp [hp]) ⟨fun u hu => ?_, ?_⟩
    · exact isContent_of_chainKinds ((isBody_of_tagBody hbody).mem u hu)
    · exact htop.symm ▸ tagBody_settled (h.parts hp) hbody
  | closeList hp hq =>
    refine h.pushPart (by simp [hp]) (h.inLine (by rw [hp]; rfl)) ?_
    simp [headEnds, Token.read, Token.kind, Lexeme.kind]
  | attr hp hr =>
    refine h.push (by simp [hp]) (isContent_of_chainKinds ?_) (h.inLine (by rw [hp]; rfl))
    rw [readAttribute_kind hr]
    simp [chainKinds]
  | write hp =>
    obtain ⟨hts, hsettled⟩ := h.writing hp
    obtain ⟨hu, hts⟩ := List.forall_mem_cons.1 hts
    refine h.push (by simp [hp]) hu ⟨hts, ?_⟩
    rw [Scanner.push, List.append_assoc]
    exact hsettled
  | turn hp =>
    have hsettled := (h.writing hp).2
    rw [List.append_nil] at hsettled
    exact h.go (by simp [hp]) hsettled
  | closeLast hp hlen =>
    have hb := h.balanced.outdent (t := ⟨.outdent, s.line.point⟩) rfl hlen
    exact h.concat (by simp [hp]) hb (fun _ => by simp [Token.kind, Lexeme.kind]) trivial
  | eof hp hlen =>
    have hne : s.phase ≠ .done := by simp [hp]
    have hb := h.balanced.push (t := ⟨.eof, s.line.point⟩) (by simp [Token.kind, Lexeme.kind])
      (by simp [Token.kind, Lexeme.kind])
    exact h.concat hne hb (fun hdone => absurd rfl hdone)
      ⟨h.balanced.eq_of_length hlen, s.tokens, _, rfl, rfl, h.unfinished hne⟩
  | rest hp => exact h

end Sound

/-- Whatever a scan comes to is sound. -/
theorem sound_of_reaches {text : String} (h : (start text).Reaches s) : s.Sound := by
  induction h with
  | refl => exact sound_start text
  | tail _ hstep ih => exact ih.step hstep

end Scanner

end SlotMarkup
