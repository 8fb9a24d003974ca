/-
Writing markup.

Five characters stand for themselves nowhere in text and in the values of attributes:
`<`, `>`, `&` and the two quotes are written as references. Names and comments are
written as they are. An element without children is written as an empty tag.
-/
import TreeGrammar.Markup.Node

set_option autoImplicit false

namespace TreeGrammar

/-- A character of text, or the reference for it. -/
def escapeChar (c : Char) : List Char :=
  if c = '<' then "&lt;".toList
  else if c = '>' then "&gt;".toList
  else if c = '&' then "&amp;".toList
  else if c = '\'' then "&apos;".toList
  else if c = '"' then "&quot;".toList
  else [c]

/-- Text with references for the characters that need them. -/
def escapeText (cs : List Char) : List Char := cs.flatMap escapeChar

/-- An attribute, with the blank before it. -/
def writeAttribute (p : String × String) : List Char :=
  ' ' :: p.1.toList ++ "=\"".toList ++ escapeText p.2.toList ++ ['"']

namespace Node

mutual

/-- The **markup** of a node. -/
def write : Node → List Char
  | element tag attributes [] =>
      '<' :: tag.toList ++ attributes.entries.flatMap writeAttribute ++ "/>".toList
  | element tag attributes (child :: rest) =>
      '<' :: tag.toList ++ attributes.entries.flatMap writeAttribute
        ++ '>' :: (write child ++ writeAll rest ++ ("</".toList ++ tag.toList ++ ['>']))
  | text s => escapeText s.toList
  | comment s => "<!--".toList ++ s.toList ++ "-->".toList

/-- The markup of nodes, one after the other. -/
def writeAll : List Node → List Char
  | [] => []
  | n :: ns => write n ++ writeAll ns

end

/-- The markup of a node, as a string. -/
def render (n : Node) : String := String.ofList n.write

end Node

/-- The markup of an element, as a string. -/
def Element.render (e : Element) : String := e.node.render

/-! ## Markup in a comment -/

/-- Text in which **every two hyphens** in a row, met from the left, have a space
between them. Of three hyphens in a row the last two are still together afterwards. -/
def spreadHyphens : List Char → List Char
  | '-' :: '-' :: rest => '-' :: ' ' :: '-' :: spreadHyphens rest
  | c :: rest => c :: spreadHyphens rest
  | [] => []

/-- The number of hyphens that follow another one at once. -/
def hyphenPairs : List Char → Nat
  | [] => 0
  | c :: rest => (if c = '-' ∧ rest.head? = some '-' then 1 else 0) + hyphenPairs rest

theorem head?_spreadHyphens (cs : List Char) : (spreadHyphens cs).head? = cs.head? := by
  fun_cases spreadHyphens cs <;> rfl

/-- Spreading leaves fewer pairs, if there are any. -/
theorem hyphenPairs_spreadHyphens (cs : List Char) :
    hyphenPairs (spreadHyphens cs) ≤ hyphenPairs cs ∧
      (hyphenPairs cs ≠ 0 → hyphenPairs (spreadHyphens cs) < hyphenPairs cs) := by
  fun_induction spreadHyphens cs with
  | case1 rest ih =>
      simp only [hyphenPairs, head?_spreadHyphens, List.head?_cons, true_and, if_true]
      simp only [Option.some.injEq, Char.reduceEq, false_and, if_false]
      omega
  | case2 c rest hpair ih =>
      have hapart : ¬ (c = '-' ∧ rest.head? = some '-') := by
        rintro ⟨rfl, hhead⟩
        obtain ⟨more, rfl⟩ := List.head?_eq_some_iff.mp hhead
        exact hpair more rfl rfl
      simp only [hyphenPairs, head?_spreadHyphens, if_neg hapart]
      omega
  | case3 => exact ⟨Nat.le_refl _, fun h => absurd rfl h⟩

/-- Text without two hyphens in a row: as long as there are any, they are **spread**
once more. -/
def separateHyphens (cs : List Char) : List Char :=
  if hyphenPairs cs = 0 then cs else separateHyphens (spreadHyphens cs)
termination_by hyphenPairs cs
decreasing_by
  rename_i hpairs
  exact (hyphenPairs_spreadHyphens cs).2 hpairs

/-- Text that can stand in a comment: no two hyphens in a row, and none at the end. -/
def commentSafe (cs : List Char) : List Char :=
  let separated := separateHyphens cs
  if separated.getLast? = some '-' then separated ++ [' '] else separated

/-- A **comment** with the markup of a node for its text. -/
def Node.defused (n : Node) : Node := .comment (String.ofList (commentSafe n.write))

end TreeGrammar
