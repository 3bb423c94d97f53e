import SlotMarkup.Proofs.OpeningLines

/-!
# Outlines

The indentation of the opening lines of a text says which line is nested below which.
They form an ordered forest (`Forest`), in which the lines next to each other are
indented by the same width, and those below a line by more than it (`Forest.Level`).

* `edges_eq_enclosers`: a line is below the last line before it that is indented by
  less;
* `Forest.eq_of_toList`: there is only one such forest of the same lines.
-/

namespace SlotMarkup

/-! ## Forests -/

/-- An ordered forest: nothing, or a first root, the forest below it, and the forest of
    the roots after it. -/
inductive Forest (α : Type)
  | nil
  | cons (root : α) (below more : Forest α)

namespace Forest

variable {α : Type}

/-- The nodes of a forest, each before those below it. -/
def toList : Forest α → List α
  | nil => []
  | cons a below more => a :: (below.toList ++ more.toList)

/-- The nodes of a forest in the same order, each with the node that it is below, which
    is `parent` for the roots. -/
def edges (parent : Option α) : Forest α → List (α × Option α)
  | nil => []
  | cons a below more => (a, parent) :: (below.edges (some a) ++ more.edges parent)

/-- All roots are indented by `width`, and everywhere the lines below a line are all
    indented by one greater width. -/
def Level (width : Nat) : Forest OpeningLine → Prop
  | nil => True
  | cons l below more => l.indent = width ∧ (∃ v, width < v ∧ below.Level v) ∧ more.Level width

theorem Level.le_indent {width : Nat} {f : Forest OpeningLine} (h : f.Level width) :
    ∀ l ∈ f.toList, width ≤ l.indent := by
  induction f generalizing width with
  | nil => simp [toList]
  | cons a below more ih ih' =>
    obtain ⟨ha, ⟨v, hv, hbelow⟩, hmore⟩ := h
    intro l hl
    rcases List.mem_cons.1 hl with rfl | hl
    · exact Nat.le_of_eq ha.symm
    · rcases List.mem_append.1 hl with hl | hl
      · exact Nat.le_trans (Nat.le_of_lt hv) (ih hbelow l hl)
      · exact ih' hmore l hl

end Forest

/-! ## Enclosing lines -/

/-- Lines, each with the last line before it that is indented by less. The lines before
    the first are `seen`, the last of them first. -/
def enclosers (seen : List OpeningLine) : List OpeningLine → List (OpeningLine × Option OpeningLine)
  | [] => []
  | l :: ls => (l, seen.find? (·.indent < l.indent)) :: enclosers (l :: seen) ls

/-- Deeper lines enclose no line of a lower indentation. -/
theorem find?_append_deeper {u : Nat} {ls seen : List OpeningLine} (h : ∀ l ∈ ls, u ≤ l.indent) :
    (ls ++ seen).find? (·.indent < u) = seen.find? (·.indent < u) := by
  have hnone : ls.find? (·.indent < u) = none := by
    rw [List.find?_eq_none]
    intro l hl
    simpa using h l hl
  rw [List.find?_append, hnone, Option.none_or]

theorem enclosers_append {width : Nat} {f : Forest OpeningLine} (h : f.Level width)
    (seen rest : List OpeningLine) : enclosers seen (f.toList ++ rest) =
      f.edges (seen.find? (·.indent < width)) ++ enclosers (f.toList.reverse ++ seen) rest := by
  induction f generalizing width seen rest with
  | nil => rfl
  | cons a below more ih ih' =>
    obtain ⟨rfl, ⟨v, hv, hbelow⟩, hmore⟩ := h
    -- The lines below `a` find `a` itself, and those after it what `a` finds.
    have hfirst : (a :: seen).find? (·.indent < v) = some a := by
      rw [List.find?_cons_of_pos (by simpa using hv)]
    have hdeeper : ∀ l ∈ below.toList.reverse ++ [a], a.indent ≤ l.indent := by
      intro l hl
      rcases List.mem_append.1 hl with hl | hl
      · exact Nat.le_trans (Nat.le_of_lt hv) (hbelow.le_indent l (List.mem_reverse.1 hl))
      · exact Nat.le_of_eq (congrArg OpeningLine.indent (List.mem_singleton.1 hl)).symm
    have hlater : (below.toList.reverse ++ a :: seen).find? (·.indent < a.indent) =
        seen.find? (·.indent < a.indent) := by
      rw [List.append_cons]
      exact find?_append_deeper hdeeper
    rw [Forest.toList, Forest.edges, List.cons_append, enclosers, List.append_assoc,
      ih hbelow, hfirst, ih' hmore, hlater]
    simp

/-- In a forest of lines, the line above another one is the last line before it that is
    indented by less. -/
theorem edges_eq_enclosers {f : Forest OpeningLine} (h : f.Level 0) :
    f.edges none = enclosers [] f.toList := by
  have := enclosers_append h [] []
  simpa [enclosers] using this.symm

namespace Forest

theorem Level.head_lt {width u : Nat} {f : Forest OpeningLine} {rs : List OpeningLine}
    (h : f.Level width) (hu : width < u) (hr : ∀ l ∈ rs.head?, l.indent < u) :
    ∀ l ∈ (f.toList ++ rs).head?, l.indent < u := by
  cases f with
  | nil => exact hr
  | cons a below more =>
    rintro l ⟨rfl⟩
    exact h.1.symm ▸ hu

/-- Of two forests that come before the same lines, none has lines that are indented by
    another width. -/
theorem Level.common {v v' : Nat} {f g : Forest OpeningLine} {rs ss : List OpeningLine}
    (hf : f.Level v) (hg : g.Level v') (hr : ∀ l ∈ rs.head?, l.indent < v')
    (hs : ∀ l ∈ ss.head?, l.indent < v) (h : f.toList ++ rs = g.toList ++ ss) :
    (f = nil ∧ g = nil) ∨ v = v' := by
  cases f with
  | nil =>
    cases g with
    | nil => exact .inl ⟨rfl, rfl⟩
    | cons b below more =>
      have := hr b (by rw [show rs = _ from h]; rfl)
      have := hg.1
      omega
  | cons a below more =>
    cases g with
    | nil =>
      have := hs a (by rw [show ss = _ from h.symm]; rfl)
      have := hf.1
      omega
    | cons b below' more' =>
      obtain ⟨rfl, -⟩ := List.cons.inj h
      exact .inr (hf.1.symm.trans hg.1)

/-- A forest of lines is known by its lines. -/
theorem eq_of_append {width : Nat} {f g : Forest OpeningLine} (hf : f.Level width)
    (hg : g.Level width) {rs ss : List OpeningLine} (hr : ∀ l ∈ rs.head?, l.indent < width)
    (hs : ∀ l ∈ ss.head?, l.indent < width) (h : f.toList ++ rs = g.toList ++ ss) :
    f = g ∧ rs = ss := by
  induction f generalizing width g rs ss with
  | nil =>
    cases g with
    | nil => exact ⟨rfl, h⟩
    | cons b below more =>
      -- The first line of `g` cannot come after `f`.
      have := hr b (by rw [show rs = _ from h]; rfl)
      have := hg.1
      omega
  | cons a below more ih ih' =>
    cases g with
    | nil =>
      have := hs a (by rw [show ss = _ from h.symm]; rfl)
      have := hf.1
      omega
    | cons b below' more' =>
      obtain ⟨rfl, ⟨v, hv, hbelow⟩, hmore⟩ := hf
      obtain ⟨hb, ⟨v', hv', hbelow'⟩, hmore'⟩ := hg
      simp only [toList, List.cons_append, List.append_assoc] at h
      obtain ⟨rfl, hrest⟩ := List.cons.inj h
      -- What comes after the lines below `a` is indented by less than those.
      have hnext {u : Nat} (hu : a.indent < u) : ∀ l ∈ (more.toList ++ rs).head?, l.indent < u :=
        hmore.head_lt hu fun l hl => Nat.lt_trans (hr l hl) hu
      have hnext' {u : Nat} (hu : a.indent < u) : ∀ l ∈ (more'.toList ++ ss).head?, l.indent < u :=
        hmore'.head_lt hu fun l hl => Nat.lt_trans (hs l hl) hu
      have hsame : below = below' ∧ more.toList ++ rs = more'.toList ++ ss := by
        rcases hbelow.common hbelow' (hnext hv') (hnext' hv) hrest with ⟨rfl, rfl⟩ | rfl
        · exact ⟨rfl, hrest⟩
        · exact ih hbelow hbelow' (hnext hv) (hnext' hv) hrest
      obtain ⟨rfl, hrest'⟩ := hsame
      obtain ⟨rfl, rfl⟩ := ih' hmore hmore' hr hs hrest'
      exact ⟨rfl, rfl⟩

/-- A forest of lines is known by its lines. -/
theorem eq_of_toList {width : Nat} {f g : Forest OpeningLine} (hf : f.Level width)
    (hg : g.Level width) (h : f.toList = g.toList) : f = g := by
  have happend : f.toList ++ [] = g.toList ++ [] := by rw [h]
  exact (eq_of_append hf hg (by simp) (by simp) happend).1

end Forest

end SlotMarkup
