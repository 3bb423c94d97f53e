import Mathlib.Data.Finset.Card
import SlotMarkup.Proofs.ParseOutcome
import SlotMarkup.Template.Cache

/-!
# Histories of caches

A cache is used by one call after another (`Cache.run`). What a call answers can be
told from the calls before it, without the cache (`answersAfter`): a template is what its
fragments compile to, and the templates kept are those that were compiled before. This
holds as long as the same address and length always mean the same fragments
(`SameFragments`).

* `Reflects.step`: a cache that reflects its history answers by it, and reflects it after
  the call;
* `run_transparent`: so it is in every run that starts with an empty cache. No template is
  ever changed or dropped.
-/

namespace SlotMarkup.Cache

/-! ## Calls -/

/-- A use of a cache. -/
inductive Call
  | getOrBuild (s : Site)
  | get (s : Site)
  | render (s : Site) (values : List Value)
  | size
  | isEmpty

/-- What a use of a cache answers. -/
inductive Answer
  | built (r : Except ParseError Template)
  | kept (t : Option Template)
  | rendered (r : Except ParseError Value)
  | size (n : Nat)
  | isEmpty (b : Bool)

/-- The site that a call is about. -/
def Call.site? : Call → Option Site
  | .getOrBuild s | .get s | .render s _ => some s
  | .size | .isEmpty => none

/-- The site whose template a call asks to be built. -/
def Call.wanted? : Call → Option Site
  | .getOrBuild s | .render s _ => some s
  | .get _ | .size | .isEmpty => none

/-- One call: its answer, and the cache after it. -/
def step (c : Cache) : Call → Answer × Cache
  | .getOrBuild s => (.built (c.getOrBuild s).1, (c.getOrBuild s).2)
  | .get s => (.kept (c.get? s), c)
  | .render s values => (.rendered (c.render s values).1, (c.render s values).2)
  | .size => (.size c.size, c)
  | .isEmpty => (.isEmpty c.isEmpty, c)

/-- Calls one after the other: their answers, and the cache after them. -/
def run (c : Cache) : List Call → List Answer × Cache
  | [] => ([], c)
  | call :: calls =>
    let (answer, next) := c.step call
    let (answers, last) := next.run calls
    (answer :: answers, last)

/-- A site is the same fragments whenever it is mentioned. -/
def SameFragments (calls : List Call) : Prop :=
  ∀ s ∈ calls.filterMap Call.site?, ∀ s' ∈ calls.filterMap Call.site?,
    s.key = s'.key → s.fragments = s'.fragments

/-! ## Answers by history -/

/-- The template of the site that a call asks to be built, with the site's key, if its
    fragments compile. -/
def Call.success? (call : Call) : Option (SiteKey × Template) :=
  call.wanted?.bind fun s => (Template.compile s.fragments).toOption.map fun t => (s.key, t)

/-- The templates that were asked for in some calls, those that compile. -/
def successes (calls : List Call) : List (SiteKey × Template) := calls.filterMap Call.success?

/-- What a call answers after some calls. -/
def Call.answerAfter (history : List Call) : Call → Answer
  | .getOrBuild s => .built (Template.compile s.fragments)
  | .get s => .kept ((successes history).lookup s.key)
  | .render s values => .rendered ((Template.compile s.fragments).map fun t => t.render values)
  | .size => .size ((successes history).map Prod.fst).toFinset.card
  | .isEmpty => .isEmpty (successes history).isEmpty

/-- What calls answer after some others. -/
def answersAfter (history : List Call) : List Call → List Answer
  | [] => []
  | call :: calls => call.answerAfter history :: answersAfter (history ++ [call]) calls

theorem successes_append (calls : List Call) (call : Call) :
    successes (calls ++ [call]) = successes calls ++ call.success?.toList := by
  rw [successes, List.filterMap_append, successes]
  cases h : call.success? <;> simp [h]

/-- A success is the template of a wanted site that compiles. -/
theorem mem_successes_iff {calls : List Call} {key : SiteKey} {t : Template} :
    (key, t) ∈ successes calls ↔
      ∃ s ∈ calls.filterMap Call.wanted?, s.key = key ∧ Template.compile s.fragments = .ok t := by
  constructor
  · intro h
    obtain ⟨call, hcall, hsuccess⟩ := List.mem_filterMap.1 h
    obtain ⟨s, hs, hmap⟩ := Option.bind_eq_some_iff.1 hsuccess
    obtain ⟨u, hu, hpair⟩ := Option.map_eq_some_iff.1 hmap
    obtain ⟨rfl, rfl⟩ := Prod.mk.inj hpair
    exact ⟨s, List.mem_filterMap.2 ⟨call, hcall, hs⟩, rfl, ok_of_toOption hu⟩
  · rintro ⟨s, hmem, rfl, ht⟩
    obtain ⟨call, hcall, hs⟩ := List.mem_filterMap.1 hmem
    exact List.mem_filterMap.2 ⟨call, hcall, by simp [Call.success?, hs, ht, Except.toOption]⟩

theorem site?_of_wanted? {call : Call} {s : Site} (h : call.wanted? = some s) :
    call.site? = some s := by
  cases call <;> first | exact h | simp [Call.wanted?] at h

/-- Whatever is asked for is mentioned. -/
theorem mem_sites_of_wanted {calls : List Call} {s : Site}
    (h : s ∈ calls.filterMap Call.wanted?) : s ∈ calls.filterMap Call.site? := by
  obtain ⟨call, hcall, hs⟩ := List.mem_filterMap.1 h
  exact List.mem_filterMap.2 ⟨call, hcall, site?_of_wanted? hs⟩

/-- What is looked up was a success. -/
theorem mem_of_lookup {calls : List Call} {key : SiteKey} {t : Template}
    (h : (successes calls).lookup key = some t) : (key, t) ∈ successes calls := by
  obtain ⟨before, after, hsplit, -⟩ := List.lookup_eq_some_iff.1 h
  simp [hsplit]

/-- What is kept under a key is what any of its sites compiles to. -/
theorem lookup_successes_iff {calls : List Call} (h : SameFragments calls) {key : SiteKey}
    {t : Template} : (successes calls).lookup key = some t ↔
      ∃ s ∈ calls.filterMap Call.wanted?, s.key = key ∧ Template.compile s.fragments = .ok t := by
  rw [← mem_successes_iff]
  refine ⟨mem_of_lookup, fun hmem => ?_⟩
  cases hlookup : (successes calls).lookup key with
  | none =>
    have hne := List.lookup_eq_none_iff.1 hlookup _ hmem
    simp at hne
  | some u =>
    -- Whatever is found first comes from a site with this key, so from the same fragments.
    obtain ⟨s, hs, hkey, ht⟩ := mem_successes_iff.1 hmem
    obtain ⟨s', hs', hkey', hu⟩ := mem_successes_iff.1 (mem_of_lookup hlookup)
    have hfragments :=
      h s (mem_sites_of_wanted hs) s' (mem_sites_of_wanted hs') (hkey.trans hkey'.symm)
    rw [hfragments, hu] at ht
    exact congrArg some (Except.ok.inj ht)

/-! ## Caches that reflect their history -/

/-- A cache keeps what some calls built, every key once. -/
structure Reflects (c : Cache) (history : List Call) : Prop where
  nodup : (c.entries.map Prod.fst).Nodup
  lookup : ∀ key, c.entries.lookup key = (successes history).lookup key

theorem Reflects.empty : Reflects empty [] := ⟨List.nodup_nil, fun _ => rfl⟩

theorem mem_keys_iff {entries : List (SiteKey × Template)} {key : SiteKey} :
    key ∈ entries.map Prod.fst ↔ (entries.lookup key).isSome := by
  rw [← not_iff_not, Option.not_isSome_iff_eq_none, List.lookup_eq_none_iff]
  constructor
  · intro h e he
    exact bne_iff_ne.2 fun hk => h (hk ▸ List.mem_map_of_mem he)
  · rintro h hmem
    obtain ⟨e, he, rfl⟩ := List.mem_map.1 hmem
    simpa using h e he

/-- The keys of a cache are those that were built. -/
theorem Reflects.size_eq {c : Cache} {history : List Call} (h : c.Reflects history) :
    c.size = ((successes history).map Prod.fst).toFinset.card := by
  have hkeys : (c.entries.map Prod.fst).toFinset = ((successes history).map Prod.fst).toFinset := by
    ext key
    rw [List.mem_toFinset, List.mem_toFinset, mem_keys_iff, mem_keys_iff, h.lookup]
  rw [← hkeys, List.toFinset_card_of_nodup h.nodup, List.length_map, size]

/-- The cache is empty as long as nothing succeeded. -/
theorem Reflects.isEmpty_eq {c : Cache} {history : List Call} (h : c.Reflects history) :
    c.isEmpty = (successes history).isEmpty := by
  have hnil (entries : List (SiteKey × Template)) :
      entries.isEmpty = true ↔ ∀ key, entries.lookup key = none := by
    cases entries with
    | nil => simp
    | cons e es => simpa using ⟨e.1, by simp⟩
  rw [isEmpty, Bool.eq_iff_iff, hnil, hnil]
  exact forall_congr' fun key => by rw [h.lookup]

/-- What a cache keeps for a site is what the site compiles to. -/
theorem Reflects.compile_of_get? {c : Cache} {history : List Call} (h : c.Reflects history)
    {s : Site} (hs : ∀ s' ∈ history.filterMap Call.site?, s'.key = s.key →
      s'.fragments = s.fragments) {t : Template} (ht : c.get? s = some t) :
    Template.compile s.fragments = .ok t := by
  rw [get?, h.lookup] at ht
  obtain ⟨s', hmem, hkey, hcompile⟩ := mem_successes_iff.1 (mem_of_lookup ht)
  rwa [← hs s' (mem_sites_of_wanted hmem) hkey]

/-- A site is answered with its own template, as every site of its key has the same fragments. -/
theorem Reflects.getOrBuild_fst {c : Cache} {history : List Call} (h : c.Reflects history)
    {s : Site} (hs : ∀ s' ∈ history.filterMap Call.site?, s'.key = s.key →
      s'.fragments = s.fragments) : (c.getOrBuild s).1 = Template.compile s.fragments := by
  unfold getOrBuild
  split
  · rename_i t ht
    exact (h.compile_of_get? hs ht).symm
  · cases Template.compile s.fragments <;> rfl

theorem lookup_cons_eq (entries : List (SiteKey × Template)) (k key : SiteKey) (t : Template) :
    ((k, t) :: entries).lookup key = if key = k then some t else entries.lookup key := by
  by_cases h : key = k
  · simp [h]
  · rw [List.lookup_cons, beq_eq_false_iff_ne.2 h, if_neg h]

theorem lookup_successes_append (history : List Call) (call : Call) (key : SiteKey) :
    (successes (history ++ [call])).lookup key =
      ((successes history).lookup key).or (call.success?.toList.lookup key) := by
  rw [successes_append, List.lookup_append]

/-- A call that builds nothing leaves nothing to keep. -/
theorem Reflects.append_none {c : Cache} {history : List Call} (h : c.Reflects history)
    {call : Call} (hcall : call.success? = none) : c.Reflects (history ++ [call]) := by
  refine ⟨h.nodup, fun key => ?_⟩
  rw [lookup_successes_append, ← h.lookup, hcall, Option.toList_none, List.lookup_nil,
    Option.or_none]

/-- What a call builds is kept, unless something is kept under its key. -/
theorem Reflects.append_some {c : Cache} {history : List Call} (h : c.Reflects history)
    {call : Call} {k : SiteKey} {t : Template} (hcall : call.success? = some (k, t)) :
    (c.entries.lookup k = some t → c.Reflects (history ++ [call])) ∧
      (c.entries.lookup k = none → Reflects ⟨(k, t) :: c.entries⟩ (history ++ [call])) := by
  have hlater (key : SiteKey) : (successes (history ++ [call])).lookup key =
      (c.entries.lookup key).or (if key = k then some t else none) := by
    rw [lookup_successes_append, ← h.lookup, hcall, Option.toList_some, lookup_cons_eq,
      List.lookup_nil]
  constructor
  · refine fun hkept => ⟨h.nodup, fun key => ?_⟩
    rw [hlater]
    by_cases hkey : key = k
    · rw [hkey, hkept, Option.some_or]
    · rw [if_neg hkey, Option.or_none]
  · intro hnone
    have hfresh : k ∉ c.entries.map Prod.fst := by simp [mem_keys_iff, hnone]
    refine ⟨List.nodup_cons.2 ⟨hfresh, h.nodup⟩, fun key => ?_⟩
    rw [hlater, lookup_cons_eq]
    by_cases hkey : key = k
    · rw [if_pos hkey, if_pos hkey, hkey, hnone, Option.none_or]
    · rw [if_neg hkey, if_neg hkey, Option.or_none]

/-- Building a site's template keeps the cache a reflection of its history. -/
theorem Reflects.getOrBuild {c : Cache} {history : List Call} (h : c.Reflects history)
    {call : Call} {s : Site} (hcall : call.wanted? = some s)
    (hs : ∀ s' ∈ history.filterMap Call.site?, s'.key = s.key → s'.fragments = s.fragments) :
    (c.getOrBuild s).2.Reflects (history ++ [call]) := by
  have hsuccess : call.success? = (Template.compile s.fragments).toOption.map (s.key, ·) := by
    rw [Call.success?, hcall, Option.bind_some]
  unfold Cache.getOrBuild
  split
  · -- A hit: the history gains a template that is kept already.
    rename_i t ht
    rw [h.compile_of_get? hs ht] at hsuccess
    exact (h.append_some hsuccess).1 ht
  · rename_i hnone
    split
    · rename_i e he
      rw [he] at hsuccess
      exact h.append_none hsuccess
    · rename_i t ht
      rw [ht] at hsuccess
      exact (h.append_some hsuccess).2 hnone

/-- What is kept stays as it is. -/
theorem lookup_getOrBuild {c : Cache} {key : SiteKey} {t : Template}
    (h : c.entries.lookup key = some t) (s : Site) :
    (c.getOrBuild s).2.entries.lookup key = some t := by
  unfold getOrBuild
  split
  · exact h
  · rename_i hnone
    cases Template.compile s.fragments with
    | error e => exact h
    | ok u =>
      -- Only a missing key is added, and this one is kept.
      have hne : key ≠ s.key := by
        rintro rfl
        rw [get?, h] at hnone
        exact Option.some_ne_none t hnone
      rw [lookup_cons_eq, if_neg hne, h]

/-! ## Calls and runs -/

/-- Only asking for a template to be built can change a cache. -/
theorem step_snd (c : Cache) (call : Call) :
    (c.step call).2 = call.wanted?.elim c fun s => (c.getOrBuild s).2 := by
  cases call <;> rfl

/-- No call takes a template out of the cache. -/
theorem lookup_step {c : Cache} {key : SiteKey} {t : Template}
    (h : c.entries.lookup key = some t) (call : Call) :
    (c.step call).2.entries.lookup key = some t := by
  rw [step_snd]
  cases call.wanted? with
  | none => exact h
  | some s => exact lookup_getOrBuild h s

/-- Nor do calls in a row. -/
theorem lookup_run {c : Cache} {key : SiteKey} {t : Template}
    (h : c.entries.lookup key = some t) (calls : List Call) :
    (c.run calls).2.entries.lookup key = some t := by
  induction calls generalizing c with
  | nil => exact h
  | cons call calls ih => exact ih (lookup_step h call)

/-- Calls are run one after the other. -/
theorem run_append (c : Cache) (before after : List Call) :
    c.run (before ++ after) =
      ((c.run before).1 ++ ((c.run before).2.run after).1, ((c.run before).2.run after).2) := by
  induction before generalizing c with
  | nil => rfl
  | cons call before ih => simp only [List.cons_append, run, ih]

/-- The fragments of a call are those of the earlier ones with its key. -/
theorem SameFragments.fragments_eq {history : List Call} {call : Call}
    (h : SameFragments (history ++ [call])) {s : Site} (hs : call.site? = some s) :
    ∀ s' ∈ history.filterMap Call.site?, s'.key = s.key → s'.fragments = s.fragments := by
  intro s' hmem hkey
  have hs' : s' ∈ (history ++ [call]).filterMap Call.site? := by
    rw [List.filterMap_append]
    exact List.mem_append_left _ hmem
  exact h s' hs' s (List.mem_filterMap.2 ⟨call, by simp, hs⟩) hkey

theorem SameFragments.of_append {before after : List Call} (h : SameFragments (before ++ after)) :
    SameFragments before := by
  intro s hs s' hs'
  rw [SameFragments, List.filterMap_append] at h
  exact h s (List.mem_append_left _ hs) s' (List.mem_append_left _ hs')

/-- A cache that reflects its history answers by it, and reflects it with the call added. -/
theorem Reflects.step {c : Cache} {history : List Call} (h : c.Reflects history) {call : Call}
    (hsame : SameFragments (history ++ [call])) :
    (c.step call).1 = call.answerAfter history ∧ (c.step call).2.Reflects (history ++ [call]) := by
  have hbuilt {s : Site} (hs : call.wanted? = some s) :
      (c.getOrBuild s).1 = Template.compile s.fragments ∧
        (c.getOrBuild s).2.Reflects (history ++ [call]) :=
    have hfragments := hsame.fragments_eq (site?_of_wanted? hs)
    ⟨h.getOrBuild_fst hfragments, h.getOrBuild hs hfragments⟩
  have hread (hs : call.wanted? = none) : c.Reflects (history ++ [call]) :=
    h.append_none (by rw [Call.success?, hs, Option.bind_none])
  cases call with
  | getOrBuild s => exact ⟨congrArg Answer.built (hbuilt rfl).1, (hbuilt rfl).2⟩
  | render s values =>
    refine ⟨?_, (hbuilt rfl).2⟩
    change Answer.rendered ((c.getOrBuild s).1.map _) = _
    rw [(hbuilt rfl).1]
    rfl
  | get s => exact ⟨congrArg Answer.kept (h.lookup s.key), hread rfl⟩
  | size => exact ⟨congrArg Answer.size h.size_eq, hread rfl⟩
  | isEmpty => exact ⟨congrArg Answer.isEmpty h.isEmpty_eq, hread rfl⟩

/-- A run answers by the history at each of its calls. -/
theorem Reflects.run {c : Cache} {history : List Call} (h : c.Reflects history)
    {calls : List Call} (hsame : SameFragments (history ++ calls)) :
    (c.run calls).1 = answersAfter history calls ∧
      (c.run calls).2.Reflects (history ++ calls) := by
  induction calls generalizing c history with
  | nil => exact ⟨rfl, (List.append_nil history).symm ▸ h⟩
  | cons call calls ih =>
    -- The rest of the run has the first call in its history.
    rw [List.append_cons] at hsame ⊢
    obtain ⟨hanswer, hnext⟩ := h.step hsame.of_append
    obtain ⟨hanswers, hlast⟩ := ih hnext hsame
    exact ⟨congrArg₂ List.cons hanswer hanswers, hlast⟩

theorem reflects_run {calls : List Call} (h : SameFragments calls) :
    (empty.run calls).1 = answersAfter [] calls ∧ (empty.run calls).2.Reflects calls :=
  Reflects.empty.run h

/-- A cache cannot be told from compiling each time. Every call is answered by its
    history, a template is kept for a site exactly if one was asked for under its key and
    compiled, nothing kept is lost or changed, a failure leaves the cache as it was, and
    rendering at a site renders what its fragments compile to, whatever was called
    before. -/
theorem run_transparent {calls : List Call} (h : SameFragments calls) :
    (empty.run calls).1 = answersAfter [] calls ∧
    (∀ s t, (empty.run calls).2.get? s = some t ↔
      ∃ s' ∈ calls.filterMap Call.wanted?,
        s'.key = s.key ∧ Template.compile s'.fragments = .ok t) ∧
    (∀ before after, calls = before ++ after → ∀ key t,
      (empty.run before).2.entries.lookup key = some t →
        (empty.run calls).2.entries.lookup key = some t) ∧
    (∀ before call after s e, calls = before ++ call :: after → call.wanted? = some s →
      Template.compile s.fragments = .error e →
        ((empty.run before).2.step call).2 = (empty.run before).2) ∧
    ∀ s values, SameFragments (calls ++ [.render s values]) →
      ((empty.run calls).2.render s values).1 =
        (Template.compile s.fragments).map fun t => t.render values := by
  obtain ⟨hanswers, hreflects⟩ := reflects_run h
  refine ⟨hanswers, fun s t => ?_, ?_, ?_, fun s values hsame => ?_⟩
  · rw [get?, hreflects.lookup, lookup_successes_iff h]
  · rintro before after rfl key t hkept
    rw [run_append]
    exact lookup_run hkept after
  · rintro before call after s e rfl hs he
    have hsame : SameFragments (before ++ [call]) := by
      rw [List.append_cons] at h
      exact h.of_append
    have hbefore := (reflects_run hsame.of_append).2
    have hbuilt : ((empty.run before).2.getOrBuild s).1 = .error e :=
      (hbefore.getOrBuild_fst (hsame.fragments_eq (site?_of_wanted? hs))).trans he
    rw [step_snd, hs, Option.elim_some, getOrBuild_of_error hbuilt]
  · have hrendered := (hreflects.step hsame).1
    exact Answer.rendered.inj hrendered

/-- Sites that share an address but not a number of fragments are kept apart, equal
    fragments at two addresses are kept twice, and what does not compile is asked for
    again and again. -/
theorem run_transparent_shared_address :
    let calls : List Call :=
      [.getOrBuild ⟨8, ["div("]⟩, .getOrBuild ⟨7, ["p"]⟩, .get ⟨7, ["p ", ""]⟩,
        .render ⟨7, ["p ", ""]⟩ [.str "x"], .getOrBuild ⟨9, ["p"]⟩, .get ⟨8, ["div("]⟩,
        .getOrBuild ⟨8, ["div("]⟩, .getOrBuild ⟨7, ["p"]⟩, .size]
    SameFragments calls ∧ (empty.run calls).1 = answersAfter [] calls ∧
      (∃ t, (empty.run calls).2.get? ⟨7, ["p ", ""]⟩ = some t ∧
        Template.compile ["p ", ""] = .ok t) ∧
      (empty.run calls).2.get? ⟨8, ["div("]⟩ = none := by
  intro calls
  have hsame : SameFragments calls := by
    unfold SameFragments
    decide
  obtain ⟨hanswers, hkept, -⟩ := run_transparent hsame
  have hslot : (Template.compile ["p ", ""]).toOption.isSome = true := by decide +kernel
  have hfails : (Template.compile ["div("]).toOption.isSome = false := by decide +kernel
  refine ⟨hsame, hanswers, ?_, ?_⟩
  · obtain ⟨t, ht⟩ := Option.isSome_iff_exists.1 hslot
    exact ⟨t, (hkept _ t).2 ⟨⟨7, ["p ", ""]⟩, by decide, rfl, ok_of_toOption ht⟩,
      ok_of_toOption ht⟩
  · refine Option.eq_none_iff_forall_ne_some.2 fun t ht => ?_
    obtain ⟨s, hs, hkey, hcompile⟩ := (hkept _ t).1 ht
    have hfragments : ∀ s ∈ calls.filterMap Call.wanted?,
        s.key = ⟨8, 1⟩ → s.fragments = ["div("] := by decide
    rw [hfragments s hs hkey] at hcompile
    rw [hcompile] at hfails
    exact Bool.noConfusion hfails

end SlotMarkup.Cache
