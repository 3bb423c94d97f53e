import SlotMarkup.Template.Basic

/-!
# Template caches

A program mentions a template at a *site*: fragments at an address. The template
is compiled when the site is first used, and kept in a `Cache` for the next time
under the site's key, its address and the number of its fragments. A template
that does not compile is not kept.

* `get?_getOrBuild`: what was built is found;
* `getOrBuild_of_error`: a failure leaves the cache as it was.
-/

namespace SlotMarkup

/-- Fragments at an address. -/
structure Site where
  address : Nat
  fragments : List String
  deriving DecidableEq, Repr

/-- What two sites share if they are the same fragments. -/
structure SiteKey where
  address : Nat
  length : Nat
  deriving DecidableEq, Repr

/-- The key of a site. -/
def Site.key (s : Site) : SiteKey := ⟨s.address, s.fragments.length⟩

/-- The templates compiled so far, by their keys. -/
structure Cache where
  entries : List (SiteKey × Template)
  deriving Inhabited

namespace Cache

/-- A cache without templates. -/
def empty : Cache := ⟨[]⟩

/-- The number of templates. -/
def size (c : Cache) : Nat := c.entries.length

/-- Whether there is no template. -/
def isEmpty (c : Cache) : Bool := c.entries.isEmpty

/-- The template kept for a site. -/
def get? (c : Cache) (s : Site) : Option Template := c.entries.lookup s.key

/-- The template of a site, from the cache or else compiled, and the cache after it. -/
def getOrBuild (c : Cache) (s : Site) : Except ParseError Template × Cache :=
  match c.get? s with
  | some t => (.ok t, c)
  | none =>
    match Template.compile s.fragments with
    | .error e => (.error e, c)
    | .ok t => (.ok t, ⟨(s.key, t) :: c.entries⟩)

/-- The tree of a site rendered with `values`, and the cache after it. -/
def render (c : Cache) (s : Site) (values : List Value) : Except ParseError Value × Cache :=
  let (built, next) := c.getOrBuild s
  (built.map fun t => t.render values, next)

/-- A template that is given out is kept from then on. -/
theorem get?_getOrBuild {c : Cache} {s : Site} {t : Template}
    (h : (c.getOrBuild s).1 = .ok t) : (c.getOrBuild s).2.get? s = some t := by
  unfold getOrBuild at *
  split at h
  · rename_i u hu
    simp_all
  · split at h
    · simp at h
    · simp_all [get?]

/-- An error is not kept: the cache stays as it was. -/
theorem getOrBuild_of_error {c : Cache} {s : Site} {e : ParseError}
    (h : (c.getOrBuild s).1 = .error e) : (c.getOrBuild s).2 = c := by
  unfold getOrBuild at *
  split at h
  · simp at h
  · split at h <;> simp_all

end Cache

end SlotMarkup
