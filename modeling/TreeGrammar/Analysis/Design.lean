/-
Design findings.

What an element is declared to be says how its author means it to be used; what contents
allow says how it can be used. A finding is a disagreement of the two, or an element
that no document can use or no grammar declares. Findings are advice: a schema that has
some validates documents like any other.
-/
import TreeGrammar.Analysis.ElementGraph

set_option autoImplicit false

namespace TreeGrammar

/-- The rules of good design. -/
inductive DesignRule where
  | textUsedInline
  | elementAllowsText
  | hybridNotMixed
  | inlineNeverInline
  | anchorNotEmpty
  | containerAllowsText
  | unreachable
  | undeclaredElement
deriving DecidableEq, Repr

/-- The rule's name. -/
def DesignRule.name : DesignRule → String
  | .textUsedInline => "text-used-inline"
  | .elementAllowsText => "element-allows-text"
  | .hybridNotMixed => "hybrid-not-mixed"
  | .inlineNeverInline => "inline-never-inline"
  | .anchorNotEmpty => "anchor-not-empty"
  | .containerAllowsText => "container-allows-text"
  | .unreachable => "unreachable"
  | .undeclaredElement => "undeclared-element"

/-- A **finding** about an element. -/
structure Finding where
  /-- The rule that is broken. -/
  rule : DesignRule
  /-- The element. -/
  element : String
  /-- What is wrong, in words. -/
  message : String
deriving DecidableEq, Repr

/-- The finding as a line of text. -/
def Finding.render (f : Finding) : String := s!"[{f.rule.name}] <{f.element}>: {f.message}"

namespace ElementGraph

/-- What is wrong with an element, seen from its **kind**. -/
def kindFinding? (g : ElementGraph) (r : ElementRule) : Option Finding :=
  let inline := g.inlineParents r.tag
  let mixed := g.allowsText r.tag && g.allowsElements r.tag
  let finding (broken : Bool) (rule : DesignRule) (message : String) : Option Finding :=
    if broken then some ⟨rule, r.tag, message⟩ else none
  match r.kind with
  | .text =>
      finding (!inline.isEmpty) .textUsedInline
        ("text element used inline by " ++ ", ".intercalate inline)
  | .element =>
      finding r.content.isTextAllowed .elementAllowsText
        "declared as element but its content allows text"
  | .hybrid =>
      finding (!mixed) .hybridNotMixed
        "declared as hybrid but its content does not mix text and elements"
  | .inlineElement =>
      finding inline.isEmpty .inlineNeverInline
        "declared as inline element but never used next to text"
  | .anchor =>
      finding (!g.isEmpty r.tag) .anchorNotEmpty
        "declared as anchor but its content is not empty"
  | .container =>
      finding r.content.isTextAllowed .containerAllowsText
        "declared as container but its content allows text"
  | .note | .external => none

/-- The declared elements that the start cannot reach; without a start, none are found. -/
def unreachableFindings (g : ElementGraph) : List Finding :=
  match g.schema.start with
  | none => []
  | some _ =>
      let reachable := g.reachableFromStart
      (g.schema.tags.filter fun tag => decide (tag ∉ reachable)).map fun tag =>
        ⟨.unreachable, tag, "not reachable from the start element"⟩

/-- The contents that mention undeclared elements. -/
def undeclaredFindings (g : ElementGraph) : List Finding :=
  g.undeclared.map fun p =>
    ⟨.undeclaredElement, p.1, s!"content refers to undeclared element '{p.2}'"⟩

end ElementGraph

/-- All **design findings** of a schema: by kind, then the unreachable, then
the undeclared. -/
def Schema.designFindings (s : Schema) : List Finding :=
  let g := ElementGraph.ofSchema s
  s.rules.filterMap g.kindFinding? ++ g.unreachableFindings ++ g.undeclaredFindings

end TreeGrammar
