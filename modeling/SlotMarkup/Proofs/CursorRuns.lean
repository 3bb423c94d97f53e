import Mathlib.Data.List.TakeWhile
import SlotMarkup.Proofs.TokenWalk

/-!
# Runs of a cursor

Whatever reads tokens goes by steps of a cursor (`Cursor.Step`). It looks at the next token, or asks
for its kind, and takes it, or takes it only if it is of some kind. In a run of such steps the cursor
is nothing but a count of the tokens taken: it stands in an endless row, in which the tokens before
the end of the template come one after the other, and the end ever after (`tokenRow`). What a step
answers depends on the token at that place, and so does whether it takes it.

A cursor can keep the list as it is, with the place of the next token in it (`IndexedCursor`), and
look up the token before that place when asked for the last token passed. Every run of it is one of
a `Cursor`.

* `IndexedCursor.perform_inRow`: a step at a place of the row;
* `IndexedCursor.run_inRow`: a run from there;
* `IndexedCursor.run_view`: the same run of a cursor that keeps only the tokens to come;
* `Cursor.run_takes_row`: what is taken from the start of a list, and where the cursor is then.
-/

namespace SlotMarkup

/-! ## Steps -/

namespace Cursor

/-- What can be done at a cursor. -/
inductive Step
  | current
  | check (k : Kind)
  | expect (k : Kind)
  | advance
  deriving DecidableEq, Repr

/-- What comes of a step. -/
inductive Answer
  | token (t : Token)
  | verdict (b : Bool)
  | failed (e : ParseError)
  deriving DecidableEq, Repr

/-- The answer to a token looked for. -/
def Answer.ofResult : Except ParseError Token → Answer
  | .ok t => .token t
  | .error e => .failed e

namespace Step

/-- The token that is taken by a step with this answer. -/
def taken? : Step → Answer → Option Token
  | expect _, .token t | advance, .token t => some t
  | _, _ => none

/-- The tokens that are taken by some steps with these answers. -/
def taken (steps : List Step) (answers : List Answer) : List Token :=
  (steps.zip answers).filterMap fun e => e.1.taken? e.2

/-- Does one step after the other. -/
def run {σ : Type} (perform : σ → Step → Answer × σ) (c : σ) : List Step → List Answer × σ
  | [] => ([], c)
  | s :: steps =>
    let (answer, d) := perform c s
    let (answers, e) := run perform d steps
    (answer :: answers, e)

/-- Where the steps of one system are those of another, so are its runs. -/
theorem run_map {σ τ : Type} {p : σ → Step → Answer × σ} {q : τ → Step → Answer × τ} {f : σ → τ}
    (h : ∀ c s, q (f c) s = ((p c s).1, f (p c s).2)) (c : σ) (steps : List Step) :
    run q (f c) steps = ((run p c steps).1, f (run p c steps).2) := by
  induction steps generalizing c with
  | nil => rfl
  | cons s steps ih =>
    rw [run, run, h]
    dsimp only
    rw [ih]

theorem taken_cons (s : Step) (steps : List Step) (a : Answer) (answers : List Answer) :
    taken (s :: steps) (a :: answers) = (s.taken? a).toList ++ taken steps answers := by
  rw [taken, List.zip_cons_cons, List.filterMap_cons, taken]
  cases s.taken? a <;> rfl

/-- What a step answers at a token. -/
def answer (t : Token) : Step → Answer
  | current | advance => .token t
  | check k => .verdict (t.kind == k)
  | expect k =>
    if t.kind = k then .token t else .failed ((Cursor.mk .nowhere [t]).unexpected (.kind k))

/-- Whether a step takes the token that it comes to. -/
def takes (t : Token) : Step → Bool
  | current | check _ => false
  | expect k => t.kind = k
  | advance => true

/-- What some steps answer at a row of tokens, of which `n` are taken already. -/
def answersAt (row : Nat → Token) (n : Nat) : List Step → List Answer
  | [] => []
  | s :: steps =>
    s.answer (row n) :: answersAt row (if s.takes (row n) then n + 1 else n) steps

theorem taken?_answer (t : Token) (s : Step) :
    s.taken? (s.answer t) = if s.takes t then some t else none := by
  cases s with
  | current => rfl
  | check k => rfl
  | advance => rfl
  | expect k =>
    rw [answer, takes]
    by_cases hk : t.kind = k
    · simp only [hk, if_true, decide_true]
      rfl
    · simp only [hk, if_false, decide_false]
      rfl

end Step

/-- Does a step at a cursor. Where an expected token is missing, it stays. -/
def perform (c : Cursor) : Step → Answer × Cursor
  | .current => (.token c.current, c)
  | .check k => (.verdict (c.kind == k), c)
  | .expect k =>
    match c.expect k with
    | .ok d => (.token c.current, d)
    | .error e => (.failed e, c)
  | .advance => (.token c.current, c.advance)

end Cursor

open Cursor (Step Answer)

/-! ## Cursors by place -/

/-- A list of tokens and the place of the next one in it. -/
structure IndexedCursor where
  tokens : List Token
  pos : Nat
  deriving DecidableEq, Repr

namespace IndexedCursor

/-- The next token. After the list, the template ends nowhere in particular. -/
def current (c : IndexedCursor) : Token := c.tokens[c.pos]?.getD ⟨.eof, .nowhere⟩

/-- The span of the token before the next one. -/
def previousSpan (c : IndexedCursor) : Span :=
  match c.pos with
  | 0 => .nowhere
  | i + 1 => (c.tokens[i]?.map (·.span)).getD .nowhere

/-- Whether the next token is of a kind. -/
def check (c : IndexedCursor) (k : Kind) : Bool := c.current.kind == k

/-- Takes the next token. The end can be taken again and again. -/
def advance (c : IndexedCursor) : Token × IndexedCursor :=
  (c.current, if c.check .eof then c else { c with pos := c.pos + 1 })

/-- The error that the next token is not of a kind. -/
def unexpected (c : IndexedCursor) (k : Kind) : ParseError :=
  match c.current.kind with
  | .eof => .unexpectedEof c.current.span
  | .indent => .unexpectedIndent c.current.span
  | found => .unexpectedToken found (.kind k) c.current.span

/-- Takes the next token if it is of a kind. -/
def expect (c : IndexedCursor) (k : Kind) : Except ParseError Token × IndexedCursor :=
  if c.check k then (.ok c.advance.1, c.advance.2) else (.error (c.unexpected k), c)

/-- Does a step at a cursor. -/
def perform (c : IndexedCursor) : Step → Answer × IndexedCursor
  | .current => (.token c.current, c)
  | .check k => (.verdict (c.check k), c)
  | .expect k => (.ofResult (c.expect k).1, (c.expect k).2)
  | .advance => (.token c.advance.1, c.advance.2)

/-- The cursor at the same token. -/
def view (c : IndexedCursor) : Cursor := ⟨c.previousSpan, c.tokens.drop c.pos⟩

theorem current_view (c : IndexedCursor) : c.view.current = c.current := by
  rw [view, Cursor.current, List.headD_eq_head?_getD, List.head?_drop, current]

/-- What a step answers, and where it goes, depends on the next token. -/
theorem perform_eq (c : IndexedCursor) (s : Step) :
    c.perform s = (s.answer c.current, if s.takes c.current then c.advance.2 else c) := by
  cases s with
  | current => rfl
  | check k => rfl
  | advance => rfl
  | expect k =>
    rw [perform, expect, Step.answer, Step.takes, check]
    by_cases hk : c.current.kind = k
    · simp only [hk, beq_self_eq_true, if_true, decide_true]
      rfl
    · simp only [beq_eq_false_iff_ne.2 hk, hk, if_false, decide_false]
      rfl

/-- Where a token is taken, it is taken from the view. -/
theorem view_advance (c : IndexedCursor) : c.advance.2.view = c.view.advance := by
  have hwalk : (Walker.advance c.tokens { place := c.pos }).cursor c.tokens = c.view.advance :=
    Walker.cursor_advance
  -- The walker keeps the same place, next to a list of those it was at.
  rw [← hwalk, Walker.advance, advance]
  show IndexedCursor.view (if c.check .eof then _ else _) =
    Walker.cursor _ ⟨if c.view.atEnd then _ else _, _⟩
  rw [Cursor.atEnd, Cursor.kind, current_view, check]
  cases c.current.kind == .eof <;> rfl

/-- Seen as a cursor, it does the same steps. -/
theorem perform_view (c : IndexedCursor) (s : Step) :
    c.view.perform s = ((c.perform s).1, (c.perform s).2.view) := by
  cases s with
  | current => rw [Cursor.perform, current_view]; rfl
  | check k => rw [Cursor.perform, Cursor.kind, current_view]; rfl
  | advance => rw [Cursor.perform, current_view, ← view_advance]; rfl
  | expect k =>
    rw [Cursor.perform, Cursor.expect, Cursor.kind, current_view, perform, expect, check]
    by_cases hk : c.current.kind = k
    · rw [if_pos hk, if_pos (beq_iff_eq.2 hk), ← view_advance]
      rfl
    · rw [if_neg hk, if_neg (mt beq_iff_eq.1 hk)]
      have herror : c.view.unexpected (.kind k) = c.unexpected k :=
        congrArg (fun t => (Cursor.mk .nowhere [t]).unexpected (.kind k)) c.current_view
      rw [herror]
      rfl

/-- Seen as a cursor, it does the same runs. -/
theorem run_view (c : IndexedCursor) (steps : List Step) :
    Step.run Cursor.perform c.view steps =
      ((Step.run perform c steps).1, (Step.run perform c steps).2.view) :=
  Step.run_map perform_view c steps

end IndexedCursor

/-! ## The row of tokens -/

/-- The end of the template, which is nowhere in particular if it is missing. -/
def endToken (ts : List Token) : Token := (ts.find? (·.kind == .eof)).getD ⟨.eof, .nowhere⟩

/-- The tokens before the end of the template, and the end ever after. -/
def tokenRow (ts : List Token) (n : Nat) : Token := (beforeEof ts)[n]?.getD (endToken ts)

section Row

variable {ts : List Token} {n : Nat}

theorem kind_of_mem_beforeEof {t : Token} (h : t ∈ beforeEof ts) : t.kind ≠ .eof := by
  simpa using mem_takeWhile (f := fun t : Token => t.kind != .eof) h

theorem kind_endToken (ts : List Token) : (endToken ts).kind = .eof := by
  rw [endToken]
  cases h : ts.find? (·.kind == .eof) with
  | none => rfl
  | some t => simpa using List.find?_some h

theorem tokenRow_of_lt (h : n < (beforeEof ts).length) : tokenRow ts n = (beforeEof ts)[n] := by
  rw [tokenRow, List.getElem?_eq_getElem h, Option.getD_some]

theorem tokenRow_of_le (h : (beforeEof ts).length ≤ n) : tokenRow ts n = endToken ts := by
  rw [tokenRow, List.getElem?_eq_none h, Option.getD_none]

theorem kind_tokenRow_eq_eof_iff : (tokenRow ts n).kind = .eof ↔ (beforeEof ts).length ≤ n := by
  by_cases h : n < (beforeEof ts).length
  · rw [tokenRow_of_lt h]
    exact iff_of_false (kind_of_mem_beforeEof (List.getElem_mem h)) (Nat.not_le_of_lt h)
  · rw [tokenRow_of_le (Nat.le_of_not_lt h)]
    exact iff_of_true (kind_endToken ts) (Nat.le_of_not_lt h)

/-- Each token before the end stands in the list at its place. -/
theorem getElem?_eq_tokenRow (h : n < (beforeEof ts).length) : ts[n]? = some (tokenRow ts n) := by
  have hprefix : beforeEof ts <+: ts := List.takeWhile_prefix _
  rw [tokenRow_of_lt h, List.prefix_iff_getElem?.1 hprefix n h]

/-- Behind the tokens before the end comes the first token of kind `eof`. -/
theorem getElem?_length_beforeEof (ts : List Token) :
    ts[(beforeEof ts).length]? = ts.find? (·.kind == .eof) := by
  rw [← List.head?_drop, beforeEof, drop_length_takeWhile]
  exact (ts.find?_eq_head?_dropWhile_not _).symm

/-- The first tokens of the row. -/
theorem map_tokenRow_range (ts : List Token) (n : Nat) : (List.range n).map (tokenRow ts) =
    (beforeEof ts).take n ++ List.replicate (n - (beforeEof ts).length) (endToken ts) := by
  induction n with
  | zero => simp
  | succ n ih =>
    rw [List.range_succ, List.map_append, List.map_singleton, ih]
    by_cases h : n < (beforeEof ts).length
    · rw [tokenRow_of_lt h, Nat.sub_eq_zero_of_le (Nat.le_of_lt h), Nat.sub_eq_zero_of_le h,
        List.replicate_zero, List.append_nil, List.append_nil, List.take_append_getElem h]
    · have hle := Nat.le_of_not_lt h
      rw [tokenRow_of_le hle, List.take_of_length_le hle,
        List.take_of_length_le (Nat.le_succ_of_le hle), Nat.succ_sub hle, List.replicate_succ',
        List.append_assoc]

/-- The first tokens of the row, without its end. -/
theorem filter_map_tokenRow_range (ts : List Token) (n : Nat) :
    ((List.range n).map (tokenRow ts)).filter (·.kind != .eof) = (beforeEof ts).take n := by
  rw [map_tokenRow_range, List.filter_append, List.filter_eq_self.2, List.filter_replicate,
    if_neg (by simp [kind_endToken]), List.append_nil]
  intro t ht
  simpa using kind_of_mem_beforeEof (List.mem_of_mem_take ht)

end Row

namespace IndexedCursor

/-- The cursor that `n` tokens of a list were taken from. -/
def inRow (ts : List Token) (n : Nat) : IndexedCursor := ⟨ts, min n (beforeEof ts).length⟩

/-- The cursor looks at the next token of the row. -/
theorem current_inRow (ts : List Token) (n : Nat) : (inRow ts n).current = tokenRow ts n := by
  rw [current, inRow]
  dsimp only
  by_cases h : n < (beforeEof ts).length
  · rw [Nat.min_eq_left (Nat.le_of_lt h), getElem?_eq_tokenRow h, Option.getD_some]
  · have hle := Nat.le_of_not_lt h
    rw [Nat.min_eq_right hle, getElem?_length_beforeEof, tokenRow_of_le hle, endToken]

/-- Going on, the cursor counts the token. -/
theorem advance_inRow (ts : List Token) (n : Nat) : (inRow ts n).advance.2 = inRow ts (n + 1) := by
  rw [advance, check, current_inRow]
  dsimp only
  by_cases h : (beforeEof ts).length ≤ n
  · rw [if_pos (beq_iff_eq.2 (kind_tokenRow_eq_eof_iff.2 h)), inRow, inRow, Nat.min_eq_right h,
      Nat.min_eq_right (Nat.le_succ_of_le h)]
  · have hlt := Nat.lt_of_not_le h
    rw [if_neg (mt (kind_tokenRow_eq_eof_iff.1 ∘ beq_iff_eq.1) h), inRow, inRow,
      Nat.min_eq_left (Nat.le_of_lt hlt), Nat.min_eq_left hlt]

/-- The token before the next one is the last one taken before the end. -/
theorem previousSpan_inRow (ts : List Token) (n : Nat) : (inRow ts n).previousSpan =
    (((beforeEof ts).take n).getLast?.map (·.span)).getD .nowhere := by
  rw [previousSpan, inRow, List.getLast?_eq_getElem?, List.length_take]
  dsimp only
  cases hn : min n (beforeEof ts).length with
  | zero =>
    rw [List.getElem?_eq_none (by rw [List.length_take]; omega)]
    rfl
  | succ i =>
    have hi : i < (beforeEof ts).length := by omega
    dsimp only
    rw [Nat.succ_sub_one, List.getElem?_take_of_lt (by omega), getElem?_eq_tokenRow hi,
      List.getElem?_eq_getElem hi, tokenRow_of_lt hi]

/-- A step at a place of the row goes on to the next one just if it takes the token. -/
theorem perform_inRow (ts : List Token) (n : Nat) (s : Step) : (inRow ts n).perform s =
    (s.answer (tokenRow ts n), inRow ts (if s.takes (tokenRow ts n) then n + 1 else n)) := by
  rw [perform_eq, current_inRow, advance_inRow]
  split <;> rfl

/-- A run from a place of the row takes the next tokens of it, and ends behind them. -/
theorem run_inRow (ts : List Token) (n : Nat) (steps : List Step) :
    ∃ k, Step.taken steps (Step.answersAt (tokenRow ts) n steps) =
        (List.range' n k).map (tokenRow ts) ∧
      Step.run perform (inRow ts n) steps =
        (Step.answersAt (tokenRow ts) n steps, inRow ts (n + k)) := by
  induction steps generalizing n with
  | nil => exact ⟨0, rfl, rfl⟩
  | cons s steps ih =>
    obtain ⟨k, htaken, hrun⟩ := ih (if s.takes (tokenRow ts n) then n + 1 else n)
    rw [Step.answersAt, Step.run, perform_inRow, Step.taken_cons, Step.taken?_answer, htaken]
    dsimp only
    rw [hrun]
    by_cases hs : s.takes (tokenRow ts n) = true
    · refine ⟨k + 1, ?_, ?_⟩
      · rw [if_pos hs, if_pos hs, List.range'_succ, List.map_cons]
        rfl
      · rw [if_pos hs, Nat.add_right_comm, Nat.add_assoc]
    · refine ⟨k, ?_, ?_⟩
      · rw [if_neg hs, if_neg hs]
        rfl
      · rw [if_neg hs]

/-- A step that takes nothing leaves the cursor where it is. -/
theorem perform_of_taken?_eq_none {c : IndexedCursor} {s : Step}
    (h : s.taken? (c.perform s).1 = none) : (c.perform s).2 = c := by
  rw [perform_eq, Step.taken?_answer] at h
  have htakes : ¬s.takes c.current = true := by
    intro ht
    rw [if_pos ht] at h
    exact nomatch h
  rw [perform_eq, if_neg htakes]

end IndexedCursor

/-! ## Runs -/

/-- Whatever steps are done from the start of a list, those that take tokens take the tokens before
    the end of the template in order, each one once, and then the end as often as they go on. What
    the steps answer, and which of them take a token, they say of the next token of this row, and no
    other step moves the cursor. It stands behind the tokens taken, at the end at most, and the last
    one of them before the end is the one passed last. -/
theorem Cursor.run_takes_row (ts : List Token) (steps : List Step) :
    let answers := (Step.run IndexedCursor.perform ⟨ts, 0⟩ steps).1
    let c := (Step.run IndexedCursor.perform ⟨ts, 0⟩ steps).2
    let took := Step.taken steps answers
    took = (beforeEof ts).take took.length ++
      List.replicate (took.length - (beforeEof ts).length) (endToken ts) ∧
    answers = Step.answersAt (tokenRow ts) 0 steps ∧
    c = ⟨ts, min took.length (beforeEof ts).length⟩ ∧
    c.previousSpan = ((took.filter (·.kind != .eof)).getLast?.map (·.span)).getD .nowhere ∧
    (∀ s, s.taken? (c.perform s).1 = none → (c.perform s).2 = c) ∧
    Step.run Cursor.perform (.ofTokens ts) steps = (answers, ⟨c.previousSpan, ts.drop c.pos⟩) := by
  intro answers c took
  have hstart : IndexedCursor.inRow ts 0 = ⟨ts, 0⟩ := by rw [IndexedCursor.inRow, Nat.zero_min]
  obtain ⟨k, htaken, hrun⟩ := IndexedCursor.run_inRow ts 0 steps
  rw [hstart, Nat.zero_add] at hrun
  have hanswers : answers = Step.answersAt (tokenRow ts) 0 steps := congrArg Prod.fst hrun
  have hc : c = .inRow ts k := congrArg Prod.snd hrun
  have htook : took = (List.range k).map (tokenRow ts) := by
    rw [List.range_eq_range', ← htaken, ← hanswers]
  have hk : took.length = k := by rw [htook, List.length_map, List.length_range]
  refine ⟨?_, hanswers, hk ▸ hc, ?_, fun s => IndexedCursor.perform_of_taken?_eq_none, ?_⟩
  · rw [hk, htook, map_tokenRow_range]
  · rw [hc, IndexedCursor.previousSpan_inRow, htook, filter_map_tokenRow_range]
  · have hview : c.view = ⟨c.previousSpan, ts.drop c.pos⟩ := by rw [hc]; rfl
    rw [← hview]
    exact IndexedCursor.run_view ⟨ts, 0⟩ steps

/-- Behind a missed token the one that is there is taken, and the end that follows as often as one
    goes on. The text behind the end is not reached, and a step that looks for it leaves the cursor
    at the end. -/
theorem Cursor.run_takes_row_to_inner_eof :
    let ts : List Token := [⟨.tag "p", ⟨0, 1⟩⟩, ⟨.eof, ⟨1, 1⟩⟩, ⟨.text "a", ⟨2, 3⟩⟩]
    let steps : List Step := [.expect .text, .check .tag, .expect .tag, .advance, .expect .eof]
    let c := (Step.run IndexedCursor.perform ⟨ts, 0⟩ steps).2
    Step.taken steps (Step.run IndexedCursor.perform ⟨ts, 0⟩ steps).1 =
      [⟨.tag "p", ⟨0, 1⟩⟩, ⟨.eof, ⟨1, 1⟩⟩, ⟨.eof, ⟨1, 1⟩⟩] ∧
    c = ⟨ts, 1⟩ ∧ c.previousSpan = ⟨0, 1⟩ ∧
    (c.perform (.expect .text)).1 = .failed (.unexpectedEof ⟨1, 1⟩) ∧
    (c.perform (.expect .text)).2 = c := by
  intro ts steps c
  obtain ⟨htook, -, hc, hprevious, hstays, -⟩ := Cursor.run_takes_row ts steps
  have hmissed : (Step.expect .text).taken? (c.perform (.expect .text)).1 = none := by decide
  exact ⟨htook.trans (by decide), hc.trans (by decide), hprevious.trans (by decide), by decide,
    hstays (.expect .text) hmissed⟩

end SlotMarkup
