/-
Patterns: how a grammar describes the children of an element.

A pattern is a regular expression over names, with one construct more, the interleave,
and with references to named definitions. It is kept as the grammar wrote it;
`TreeGrammar.Pattern.Normal` brings it to a normal form.
-/

set_option autoImplicit false

namespace TreeGrammar

/-- A **pattern** of children, as a grammar writes it. -/
inductive Pattern where
  /-- One child of the name, or text under its reserved name. -/
  | token (name : String)
  /-- The blocks one after the other. -/
  | sequence (blocks : List Pattern)
  /-- Exactly one of the blocks. -/
  | choice (blocks : List Pattern)
  /-- Every block in full, their children in any relative order. -/
  | interleave (blocks : List Pattern)
  /-- The block once or not at all. -/
  | optional (block : Pattern)
  /-- The block any number of times. -/
  | kleene (block : Pattern)
  /-- The block at least once. -/
  | plus (block : Pattern)
  /-- What the definition of the name says. -/
  | ref (name : String)
deriving Repr, Inhabited

namespace Pattern

/-! ## Equality -/

mutual

/-- Whether two patterns are the same. -/
def same : Pattern → Pattern → Bool
  | token a, token b => a == b
  | sequence as, sequence bs => sameAll as bs
  | choice as, choice bs => sameAll as bs
  | interleave as, interleave bs => sameAll as bs
  | optional a, optional b => same a b
  | kleene a, kleene b => same a b
  | plus a, plus b => same a b
  | ref a, ref b => a == b
  | _, _ => false

/-- Whether two lists of patterns are the same. -/
def sameAll : List Pattern → List Pattern → Bool
  | [], [] => true
  | a :: as, b :: bs => same a b && sameAll as bs
  | _, _ => false

end

mutual

theorem same_iff : ∀ p q : Pattern, same p q = true ↔ p = q
  | token a, q => by cases q <;> simp [same]
  | sequence as, q => by cases q <;> simp [same, sameAll_iff as]
  | choice as, q => by cases q <;> simp [same, sameAll_iff as]
  | interleave as, q => by cases q <;> simp [same, sameAll_iff as]
  | optional a, q => by cases q <;> simp [same, same_iff a]
  | kleene a, q => by cases q <;> simp [same, same_iff a]
  | plus a, q => by cases q <;> simp [same, same_iff a]
  | ref a, q => by cases q <;> simp [same]

theorem sameAll_iff : ∀ ps qs : List Pattern, sameAll ps qs = true ↔ ps = qs
  | [], qs => by cases qs <;> simp [sameAll]
  | p :: ps, qs => by cases qs <;> simp [sameAll, same_iff p, sameAll_iff ps]

end

instance : DecidableEq Pattern := fun p q => decidable_of_iff (same p q = true) (same_iff p q)

/-! ## Interleaves inside -/

mutual

/-- Whether an interleave occurs **anywhere** in the pattern. -/
def containsInterleave : Pattern → Bool
  | interleave _ => true
  | sequence blocks => anyContainsInterleave blocks
  | choice blocks => anyContainsInterleave blocks
  | optional block => containsInterleave block
  | kleene block => containsInterleave block
  | plus block => containsInterleave block
  | token _ => false
  | ref _ => false

/-- Whether an interleave occurs in one of the patterns. -/
def anyContainsInterleave : List Pattern → Bool
  | [] => false
  | p :: ps => containsInterleave p || anyContainsInterleave ps

end

/-! ## Text -/

/-- The shown blocks of a group, between parentheses. -/
def renderGroup (separator : String) (blocks : List String) : String :=
  "(" ++ separator.intercalate blocks ++ ")"

mutual

/-- The pattern in the usual writing: names, `%` before a reference, groups in
parentheses, repetition signs behind their block. -/
def render : Pattern → String
  | token name => name
  | ref name => "%" ++ name
  | sequence blocks => renderGroup ", " (renderAll blocks)
  | choice blocks => renderGroup " | " (renderAll blocks)
  | interleave blocks => renderGroup " & " (renderAll blocks)
  | optional block => render block ++ "?"
  | kleene block => render block ++ "*"
  | plus block => render block ++ "+"

/-- The patterns, each in the usual writing. -/
def renderAll : List Pattern → List String
  | [] => []
  | p :: ps => render p :: renderAll ps

end

end Pattern

end TreeGrammar
