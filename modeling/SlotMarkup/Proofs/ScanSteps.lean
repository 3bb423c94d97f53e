import Mathlib.Logic.Relation
import SlotMarkup.Proofs.ReaderEquations

/-!
# Scanning step by step

`Token.scan` has all the tokens of a text at once. Here a text is scanned as by a machine
(`Scanner`) that keeps the widths of the lines around on a stack and the tokens read so far in
a list. A step (`Scanner.step`) reads one token at most, and a width is put on the stack or
taken from it together with its token. Whatever a run of the machine comes to, up to the end
of the text or up to an error, is a point of the scan.

* `Scanner.moves_of_step`: what a step can do;
* `Scanner.Reaches.total`, `Reaches.to_stop`: the points of a run follow one another up to its end;
* `Scanner.Ends.unique`: a run has one outcome.
-/

namespace SlotMarkup

/-- Whether the content of a line is cut into tags. -/
def opensTag : List Char → Bool
  | '/' :: '/' :: _ | '!' :: '=' :: _ => false
  | '|' :: _ | '<' :: _ | '-' :: _ | '=' :: _ | '+' :: _ => false
  | _ => true

/-- A line that opens a tag is read as one. -/
theorem lineContent_of_opensTag {indent : Nat} {p : Place} (h : opensTag p.rest = true) :
    lineContent indent p = tagLine indent p := by
  rw [lineContent]
  split
  case h_8 => rfl
  all_goals
    rename_i hp
    simp [hp, opensTag] at h

/-- The lines that are cut into no tags. -/
theorem lineContent_of_not_opensTag {indent : Nat} {p : Place} (h : ¬opensTag p.rest = true) :
    lineContent indent p = .ok (commentLines indent p) ∨ lineContent indent p = .ok (pipedLine p) ∨
      lineContent indent p = .ok (literalLine p) ∨
      ∃ n, lineContent indent p = .error (.between .unsupportedCode p (p.drop n)) ∨
        lineContent indent p = .error (.between (.unsupportedConstruct "+mixin") p (p.drop n)) := by
  rw [lineContent]
  split
  · exact .inl rfl
  · exact .inr (.inr (.inr ⟨2, .inl rfl⟩))
  · exact .inr (.inl rfl)
  · exact .inr (.inr (.inl rfl))
  · exact .inr (.inr (.inr ⟨1, .inl rfl⟩))
  · exact .inr (.inr (.inr ⟨1, .inl rfl⟩))
  · exact .inr (.inr (.inr ⟨1, .inr rfl⟩))
  · refine absurd ?_ h
    rw [opensTag.eq_def]
    split <;> simp_all

/-- What a scanner is about to do. -/
inductive Phase
  /-- To look at a line. The `first` one of a text does not break an earlier one. -/
  | fresh (first : Bool)
  /-- To close the lines that the line ends. -/
  | opening
  /-- To read the content of the line. -/
  | content
  /-- To read the head of a tag. -/
  | head (p : Place)
  /-- To go on in the head of a tag, or after it. -/
  | parts (p : Place)
  /-- To go on in the attribute list opened at `start`. -/
  | attributes (start p : Place)
  /-- To push tokens, the last ones before the line that starts at `next`. -/
  | writing (ts : List Token) (next : Place)
  /-- To close all lines, at the end of the text. -/
  | closing
  /-- Nothing more. -/
  | done
  deriving DecidableEq, Repr

/-- A point in the scan of a text. -/
structure Scanner where
  /-- The widths of the enclosing lines, the innermost first. The last is that of the text
      itself, which is 0. -/
  stack : List Nat
  /-- The tokens pushed so far. -/
  tokens : List Token
  /-- The start of the line that is read. -/
  line : Place
  phase : Phase
  deriving DecidableEq, Repr

namespace Scanner

/-- The start of a scan. -/
def start (text : String) : Scanner := ⟨[0], [], .ofText text, .fresh true⟩

/-- The width of the innermost line. -/
def top (s : Scanner) : Nat := s.stack.headD 0

/-- Where the line goes on after its indentation. -/
def inner (s : Scanner) : Place := s.line.drop s.line.indent

/-- A token more, and what is to do then. -/
def push (s : Scanner) (t : Token) (phase : Phase) : Scanner :=
  { s with tokens := s.tokens ++ [t], phase }

/-- The next point, or what is wrong with the text. The last point is followed by itself. -/
def step (s : Scanner) : Except ScanError Scanner :=
  match s.phase with
  | .fresh first =>
    if s.line.rest = [] then .ok { s with phase := .closing }
    else if isBlankText s.line.line then
      .ok { s with line := s.line.nextLine, phase := .fresh first }
    else if mixesIndent s.line then .error (.between .mixedIndent s.line s.inner)
    else if s.top < s.line.indent then
      .ok ({ s with stack := s.line.indent :: s.stack }.push ⟨.indent, s.inner.point⟩ .content)
    else if s.line.indent < s.top then .ok { s with phase := .opening }
    else if first then .ok { s with phase := .content }
    else .ok (s.push ⟨.newline, s.inner.point⟩ .content)
  | .opening =>
    if s.line.indent < s.top then
      .ok ({ s with stack := s.stack.tail }.push ⟨.outdent, s.inner.point⟩ .opening)
    else if s.top = s.line.indent then .ok { s with phase := .content }
    else .error (.between (.inconsistentIndent s.line.indent) s.line s.inner)
  | .content =>
    if opensTag s.inner.rest then .ok { s with phase := .head s.inner }
    else (lineContent s.line.indent s.inner).map fun r => { s with phase := .writing r.1 r.2 }
  | .head p =>
    match tagName? p.rest with
    | some name =>
      let q := p.drop name.length
      if String.ofList name ∈ keywords then
        .error (.between (.unsupportedKeyword (String.ofList name)) p q)
      else .ok (s.push (.read (.tag (String.ofList name)) p q) (.parts q))
    | none =>
      match shorthand? p with
      | some (t, q) => .ok (s.push t (.parts q))
      | none => .error (.here .expectedTag p)
  | .parts p =>
    match shorthand? p with
    | some (t, q) => .ok (s.push t (.parts q))
    | none =>
      if p.rest.head? = some '(' then
        .ok (s.push (.read .openAttributes p (p.drop 1)) (.attributes p (p.drop 1)))
      else if p.rest.head? = some ':' then
        .ok (s.push (.read .colon p (p.drop 1)) (.head ((p.drop 1).skip isIndent)))
      else (tagBody s.line.indent p).map fun r => { s with phase := .writing r.1 r.2 }
  | .attributes start p =>
    let q := p.skip isSeparator
    if q.rest = [] then .error (.between .unterminatedAttributes start q)
    else if q.rest.head? = some ')' then
      .ok (s.push (.read .closeAttributes q (q.drop 1)) (.parts (q.drop 1)))
    else (readAttribute q).map fun r => s.push r.1 (.attributes start r.2)
  | .writing [] next => .ok { s with line := next, phase := .fresh false }
  | .writing (t :: ts) next => .ok (s.push t (.writing ts next))
  | .closing =>
    if 1 < s.stack.length then
      .ok ({ s with stack := s.stack.tail }.push ⟨.outdent, s.line.point⟩ .closing)
    else .ok (s.push ⟨.eof, s.line.point⟩ .done)
  | .done => .ok s

/-- What a step can do. -/
inductive Moves (s : Scanner) : Scanner → Prop
  /-- The text ends. -/
  | finish {first : Bool} (hp : s.phase = .fresh first) (hnil : s.line.rest = []) :
      Moves s { s with phase := .closing }
  | skip {first : Bool} (hp : s.phase = .fresh first) (hne : s.line.rest ≠ [])
      (hb : isBlankText s.line.line = true) :
      Moves s { s with line := s.line.nextLine, phase := .fresh first }
  | nest {first : Bool} (hp : s.phase = .fresh first) (hne : s.line.rest ≠ [])
      (hlt : s.top < s.line.indent) :
      Moves s ({ s with stack := s.line.indent :: s.stack }.push ⟨.indent, s.inner.point⟩ .content)
  | unnest {first : Bool} (hp : s.phase = .fresh first) (hgt : s.line.indent < s.top) :
      Moves s { s with phase := .opening }
  | first (hp : s.phase = .fresh true) (htop : s.top = s.line.indent) :
      Moves s { s with phase := .content }
  | newline (hp : s.phase = .fresh false) (htop : s.top = s.line.indent) :
      Moves s (s.push ⟨.newline, s.inner.point⟩ .content)
  /-- A line is closed by the one that is read. -/
  | close (hp : s.phase = .opening) (hgt : s.line.indent < s.top) :
      Moves s ({ s with stack := s.stack.tail }.push ⟨.outdent, s.inner.point⟩ .opening)
  | settle (hp : s.phase = .opening) (htop : s.top = s.line.indent) :
      Moves s { s with phase := .content }
  | tags (hp : s.phase = .content) (hopens : opensTag s.inner.rest = true) :
      Moves s { s with phase := .head s.inner }
  /-- A line without tags is read at once. -/
  | single {ts : List Token} {next : Place} (hp : s.phase = .content)
      (hopens : ¬opensTag s.inner.rest = true)
      (hc : lineContent s.line.indent s.inner = .ok (ts, next)) :
      Moves s { s with phase := .writing ts next }
  | name {p : Place} {name : List Char} (hp : s.phase = .head p)
      (hname : tagName? p.rest = some name) (hkey : String.ofList name ∉ keywords) :
      Moves s (s.push (.read (.tag (String.ofList name)) p (p.drop name.length))
        (.parts (p.drop name.length)))
  | shorthand {p q : Place} {t : Token} (hp : s.phase = .head p ∨ s.phase = .parts p)
      (hs : shorthand? p = some (t, q)) : Moves s (s.push t (.parts q))
  | openList {p : Place} (hp : s.phase = .parts p) :
      Moves s (s.push (.read .openAttributes p (p.drop 1)) (.attributes p (p.drop 1)))
  | colon {p : Place} (hp : s.phase = .parts p) :
      Moves s (s.push (.read .colon p (p.drop 1)) (.head ((p.drop 1).skip isIndent)))
  | body {p next : Place} {ts : List Token} (hp : s.phase = .parts p)
      (hbody : tagBody s.line.indent p = .ok (ts, next)) :
      Moves s { s with phase := .writing ts next }
  | closeList {start p q : Place} (hp : s.phase = .attributes start p)
      (hq : q = p.skip isSeparator) :
      Moves s (s.push (.read .closeAttributes q (q.drop 1)) (.parts (q.drop 1)))
  | attr {start p r : Place} {t : Token} (hp : s.phase = .attributes start p)
      (hr : readAttribute (p.skip isSeparator) = .ok (t, r)) :
      Moves s (s.push t (.attributes start r))
  | write {t : Token} {ts : List Token} {next : Place} (hp : s.phase = .writing (t :: ts) next) :
      Moves s (s.push t (.writing ts next))
  | turn {next : Place} (hp : s.phase = .writing [] next) :
      Moves s { s with line := next, phase := .fresh false }
  /-- A line is closed by the end of the text. -/
  | closeLast (hp : s.phase = .closing) (hlen : 1 < s.stack.length) :
      Moves s ({ s with stack := s.stack.tail }.push ⟨.outdent, s.line.point⟩ .closing)
  | eof (hp : s.phase = .closing) (hlen : s.stack.length ≤ 1) :
      Moves s (s.push ⟨.eof, s.line.point⟩ .done)
  | rest (hp : s.phase = .done) : Moves s s

/-- Whatever a step does, it is one of the moves. -/
theorem moves_of_step {s t : Scanner} (h : s.step = .ok t) : s.Moves t := by
  rw [step] at h
  cases hp : s.phase with
  | fresh first =>
    rw [hp] at h
    dsimp only at h
    split at h
    · exact Except.ok.inj h ▸ .finish hp ‹_›
    split at h
    · exact Except.ok.inj h ▸ .skip hp ‹_› ‹_›
    split at h
    · simp at h
    split at h
    · exact Except.ok.inj h ▸ .nest hp ‹_› ‹_›
    split at h
    · exact Except.ok.inj h ▸ .unnest hp ‹_›
    have htop : s.top = s.line.indent := by omega
    cases first with
    | true => exact Except.ok.inj h ▸ .first hp htop
    | false => exact Except.ok.inj h ▸ .newline hp htop
  | opening =>
    rw [hp] at h
    dsimp only at h
    split at h
    · exact Except.ok.inj h ▸ .close hp ‹_›
    split at h
    · exact Except.ok.inj h ▸ .settle hp ‹_›
    · simp at h
  | content =>
    rw [hp] at h
    dsimp only at h
    split at h
    · exact Except.ok.inj h ▸ .tags hp ‹_›
    · obtain ⟨r, hc, rfl⟩ := map_eq_ok_iff.1 h
      exact .single hp ‹_› hc
  | head p =>
    rw [hp] at h
    dsimp only at h
    split at h
    · split at h
      · simp at h
      · exact Except.ok.inj h ▸ .name hp ‹_› ‹_›
    · split at h
      · exact Except.ok.inj h ▸ .shorthand (.inl hp) ‹_›
      · simp at h
  | parts p =>
    rw [hp] at h
    dsimp only at h
    split at h
    · exact Except.ok.inj h ▸ .shorthand (.inr hp) ‹_›
    split at h
    · exact Except.ok.inj h ▸ .openList hp
    split at h
    · exact Except.ok.inj h ▸ .colon hp
    · obtain ⟨r, hbody, rfl⟩ := map_eq_ok_iff.1 h
      exact .body hp hbody
  | attributes start p =>
    rw [hp] at h
    dsimp only at h
    split at h
    · simp at h
    split at h
    · exact Except.ok.inj h ▸ .closeList hp rfl
    · obtain ⟨r, hr, rfl⟩ := map_eq_ok_iff.1 h
      exact .attr hp hr
  | writing ts next =>
    rw [hp] at h
    cases ts with
    | nil => exact Except.ok.inj h ▸ .turn hp
    | cons t ts => exact Except.ok.inj h ▸ .write hp
  | closing =>
    rw [hp] at h
    dsimp only at h
    split at h
    · exact Except.ok.inj h ▸ .closeLast hp ‹_›
    · exact Except.ok.inj h ▸ .eof hp (Nat.le_of_not_lt ‹_›)
  | done =>
    rw [hp] at h
    exact Except.ok.inj h ▸ .rest hp

/-- One step after the other. -/
def Steps (s t : Scanner) : Prop := s.step = .ok t

/-- Some steps from `s` on come to `t`. -/
def Reaches : Scanner → Scanner → Prop := Relation.ReflTransGen Steps

/-- The end of a run, with its outcome. -/
inductive Stops (s : Scanner) : Except ScanError (List Token) → Prop
  | done (h : s.phase = .done) : Stops s (.ok s.tokens)
  | failed {e} (h : s.step = .error e) : Stops s (.error e)

/-- The run from `s` on ends with `r`. -/
def Ends (s : Scanner) (r : Except ScanError (List Token)) : Prop := ∃ t, s.Reaches t ∧ t.Stops r

/-! ## Runs -/

section Runs

variable {s t u : Scanner} {r : Except ScanError (List Token)}

theorem Reaches.refl (s : Scanner) : s.Reaches s := Relation.ReflTransGen.refl

theorem Reaches.trans (h : s.Reaches t) (k : t.Reaches u) : s.Reaches u :=
  Relation.ReflTransGen.trans h k

theorem Reaches.single (h : s.step = .ok t) : s.Reaches t := Relation.ReflTransGen.single h

theorem Reaches.head (h : s.step = .ok t) (k : t.Reaches u) : s.Reaches u :=
  Relation.ReflTransGen.head h k

theorem Reaches.tail (h : s.Reaches t) (k : t.step = .ok u) : s.Reaches u :=
  Relation.ReflTransGen.tail h k

/-- How a run ends does not depend on where it is looked at. -/
theorem Ends.of_reaches (h : s.Reaches t) (k : t.Ends r) : s.Ends r := by
  obtain ⟨u, hu, hr⟩ := k
  exact ⟨u, h.trans hu, hr⟩

/-- Nothing comes after the end of a run. -/
theorem Stops.eq (h : s.Stops r) (k : s.Reaches t) : t = s := by
  induction k with
  | refl => rfl
  | tail _ hstep ih =>
    subst ih
    rw [Steps] at hstep
    cases h with
    | done hp => simpa [step, hp] using hstep.symm
    | failed he => simp [he] at hstep

/-- Of two points of a run one comes before the other. -/
theorem Reaches.total (h : s.Reaches t) (k : s.Reaches u) : t.Reaches u ∨ u.Reaches t :=
  Relation.ReflTransGen.total_of_right_unique
    (fun _ _ _ h k => Except.ok.inj (h.symm.trans k)) h k

/-- The end of a run comes after all of its points. -/
theorem Reaches.to_stop (h : s.Reaches t) (k : s.Reaches u) (hu : u.Stops r) : t.Reaches u := by
  rcases h.total k with htu | hut
  · exact htu
  · exact hu.eq hut ▸ .refl _

/-- A run ends in one way. -/
theorem Ends.unique {q : Except ScanError (List Token)} (h : s.Ends q) (k : s.Ends r) : q = r := by
  obtain ⟨t, ht, hq⟩ := h
  obtain ⟨u, hu, hr⟩ := k
  obtain rfl := hq.eq (ht.to_stop hu hr)
  cases hq with
  | done hp =>
    cases hr with
    | done _ => rfl
    | failed he => simp [step, hp] at he
  | failed he =>
    cases hr with
    | done hp => simp [step, hp] at he
    | failed he' => rw [Except.error.inj (he.symm.trans he')]

end Runs

end Scanner

end SlotMarkup
