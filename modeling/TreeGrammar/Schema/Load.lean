/-
Loading a schema from a text.

A text may hold a grammar or the compact encoding of a schema; which of them is told by
its outermost bracket. Either way the text is read as a JSON value first, with the
members of its objects in the order of their names.
-/
import TreeGrammar.Schema.Build
import TreeGrammar.Schema.Compact

set_option autoImplicit false

namespace TreeGrammar.Schema

/-- Loads a schema from JSON: an array is the compact encoding, anything else a grammar. -/
def ofText (limits : Limits) (s : String) : Except Failure Schema :=
  match Json.ofString? s with
  | none => .error .json
  | some (.array items) =>
      ((Compact.decode (.array items)).mapError .decode).map (withLimits limits)
  | some v =>
      match Grammar.ofSource? (.ofJson v) with
      | none => .error .json
      | some g => ofGrammar limits g

end TreeGrammar.Schema
