import SlotMarkup.Value.Basic

/-!
# Equality of values

Two values are the same (`Value.same`) if they are built alike from the same
parts, with three provisos: numbers are compared as numbers, so that no NaN is
the same as any number and both zeros are the same; dictionaries are compared
without regard to order; handlers and the renderer's objects are compared by
their identity.
-/

namespace SlotMarkup.Value

mutual

/-- Whether two values are the same. -/
def same : Value → Value → Bool
  | undefined, undefined => true
  | null, null => true
  | bool a, bool b => a == b
  | number x, number y => x == y
  | str s, str t => s == t
  | list vs, list ws => sameList vs ws
  | dict d, dict e => d.length == e.length && sameEntries d e
  | handler h, handler k => h.identity == k.identity
  | foreign i, foreign j => i == j
  | node ⟨tag, key, attrs, children, reserved⟩, node n =>
    tag == n.tag && sameKey key n.key && sameAttrs attrs n.attrs &&
      sameChildren children n.children && reserved == n.reserved
  | _, _ => false

/-- Whether two lists hold the same values in the same order. -/
def sameList : List Value → List Value → Bool
  | [], [] => true
  | v :: vs, w :: ws => same v w && sameList vs ws
  | _, _ => false

/-- Whether a dictionary has the same value as each of some entries. -/
def sameEntries : List (String × Value) → Dict Value → Bool
  | [], _ => true
  | (name, v) :: entries, d =>
    (match d.get? name with
      | some w => same v w
      | none => false) && sameEntries entries d

/-- Whether two keys are the same. -/
def sameKey : Option Value → Option Value → Bool
  | none, none => true
  | some v, some w => same v w
  | _, _ => false

/-- Whether two sets of attributes are the same. -/
def sameAttrs : Option (List (String × Value)) → Option (Dict Value) → Bool
  | none, none => true
  | some d, some e => d.length == e.length && sameEntries d e
  | _, _ => false

/-- Whether two nodes have the same content. -/
def sameChildren : Option (Children Value) → Option (Children Value) → Bool
  | none, none => true
  | some (.text s), some (.text t) => s == t
  | some (.list vs), some (.list ws) => sameList vs ws
  | _, _ => false

end

end SlotMarkup.Value
