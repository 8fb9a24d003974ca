/-
Walking a document.

A walk visits the elements of a tree level by level, from left to right on each. At each
it notes what is wrong there, and it goes on below unless the element is too deep or not
declared. A visit knows the path of its element: from the root, at each step the tag and
which of its siblings with that tag it is.
-/
import TreeGrammar.Validation.Review

set_option autoImplicit false

namespace TreeGrammar

/-- How undeclared names are taken. -/
inductive ValidationMode where
  /-- They are violations. -/
  | strict
  /-- Undeclared elements are passed over with all they hold, undeclared attributes are
  ignored. -/
  | lax
  /-- Nothing is validated at all. -/
  | skip
deriving DecidableEq, Repr, Inhabited

namespace ValidationMode

/-- The mode's name. -/
def name : ValidationMode → String
  | strict => "strict"
  | lax => "lax"
  | skip => "skip"

/-- The mode that a text names. -/
def parse (s : String) : Except Failure ValidationMode :=
  if s = "strict" then .ok strict
  else if s = "lax" then .ok lax
  else if s = "skip" then .ok skip
  else .error (.unknownMode s)

end ValidationMode

/-! ## Visits -/

/-- An element of a tree, with its place. -/
structure Visit where
  /-- The element. -/
  element : Element
  /-- Its path. -/
  path : String
  /-- Its depth; the root has depth one. -/
  depth : Nat

namespace Visit

/-- The visit of a root. -/
def root (e : Element) : Visit := ⟨e, "/" ++ e.tag, 1⟩

/-- The visits of the elements among children, given the tags of the elements
before them. -/
def below (path : String) (depth : Nat) : List String → List Node → List Visit
  | _, [] => []
  | before, .element tag attributes children :: rest =>
      ⟨⟨tag, attributes, children⟩, s!"{path}/{tag}[{before.count tag + 1}]", depth⟩
        :: below path depth (tag :: before) rest
  | before, .text _ :: rest => below path depth before rest
  | before, .comment _ :: rest => below path depth before rest

/-- The visits of an element's children. -/
def children (v : Visit) : List Visit := below v.path (v.depth + 1) [] v.element.children

/-- A violation **with the place** of the visit: the path, and the element's own tag. -/
def locate (v : Visit) (x : Violation) : Violation :=
  { x with path := some v.path, element := some v.element.tag }

end Visit

/-! ## Inspection -/

/-- Whether an attribute declares a namespace, which every element may do. -/
def isNamespaceDeclaration (name : String) : Bool :=
  name == "xmlns" || "xmlns:".toList.isPrefixOf name.toList

/-- What a walk is made with. -/
structure Scope where
  /-- The schema. -/
  schema : Schema
  /-- How undeclared names are taken. -/
  mode : ValidationMode
  /-- The bounds. -/
  limits : Limits

/-- What was found at an element. -/
structure Inspection where
  /-- The element, with its place. -/
  visit : Visit
  /-- What is wrong there. -/
  violations : List Violation
  /-- Whether the walk goes on below. -/
  descends : Bool

namespace Scope

/-- A violation at an element that is about the element itself. -/
def fault (kind : ViolationKind) (message tag : String) : Violation :=
  { kind, message, element := some tag }

/-- The violations of attributes that are not declared. -/
def reviewAttributes (r : ElementRule) (e : Element) : List Violation :=
  (e.attributes.keys.filter fun name => !(isNamespaceDeclaration name || r.hasAttribute name)).map
    fun name => fault .unknownAttribute s!"attribute '{name}' is not declared" e.tag

/-- What is wrong at an element, and whether to go on below. -/
def examine (scope : Scope) (v : Visit) : List Violation × Bool :=
  let e := v.element
  if scope.limits.documentDepth < v.depth then
    ([fault .tooDeep s!"element nests deeper than {scope.limits.documentDepth} levels" e.tag],
      false)
  else
    match scope.schema.rule? e.tag with
    | none =>
        (if scope.mode = .strict then
            [fault .unknownElement s!"element '{e.tag}' is not declared" e.tag]
          else [],
          false)
    | some r =>
        ((if scope.mode = .strict then reviewAttributes r e else []) ++ r.review e.children, true)

/-- **Inspects** an element; whatever is wrong there has its place. -/
def inspect (scope : Scope) (v : Visit) : Inspection :=
  let (violations, descends) := scope.examine v
  ⟨v, violations.map v.locate, descends⟩

end Scope

/-- The visits with which a walk goes on after an inspection. -/
def Inspection.next (i : Inspection) : List Visit := if i.descends then i.visit.children else []

/-! ## The walk -/

mutual

/-- The number of nodes in a node, itself included. -/
def Node.weight : Node → Nat
  | .element _ _ children => 1 + Node.weightAll children
  | _ => 1

/-- The number of nodes in nodes. -/
def Node.weightAll : List Node → Nat
  | [] => 0
  | n :: ns => Node.weight n + Node.weightAll ns

end

/-- The number of nodes at and below a visit. -/
def Visit.weight (v : Visit) : Nat := 1 + Node.weightAll v.element.children

/-- The number of nodes at and below visits. -/
def Visit.weightAll : List Visit → Nat
  | [] => 0
  | v :: vs => v.weight + Visit.weightAll vs

theorem Visit.weightAll_append (vs ws : List Visit) :
    Visit.weightAll (vs ++ ws) = Visit.weightAll vs + Visit.weightAll ws := by
  induction vs with
  | nil => simp [Visit.weightAll]
  | cons v vs ih =>
      simp only [List.cons_append, Visit.weightAll, ih]
      omega

theorem Visit.weightAll_below_le (path : String) (depth : Nat) (before : List String)
    (ns : List Node) :
    Visit.weightAll (Visit.below path depth before ns) ≤ Node.weightAll ns := by
  induction ns generalizing before with
  | nil => simp [Visit.below, Visit.weightAll]
  | cons n ns ih =>
      cases n with
      | element tag attributes children =>
          have := ih (tag :: before)
          simp only [Visit.below, Visit.weightAll, Visit.weight, Node.weightAll, Node.weight]
          omega
      | text s =>
          have := ih before
          simp only [Visit.below, Node.weightAll, Node.weight]
          omega
      | comment s =>
          have := ih before
          simp only [Visit.below, Node.weightAll, Node.weight]
          omega

theorem Inspection.weightAll_next_lt (i : Inspection) :
    Visit.weightAll i.next < i.visit.weight := by
  have hv : i.visit.weight = 1 + Node.weightAll i.visit.element.children := rfl
  have := Visit.weightAll_below_le i.visit.path (i.visit.depth + 1) [] i.visit.element.children
  unfold Inspection.next
  split
  · unfold Visit.children
    omega
  · simp only [Visit.weightAll]
    omega

/-- The level below holds fewer nodes than a level, by at least one for each of
its visits. -/
theorem Scope.weightAll_next_le (scope : Scope) (level : List Visit) :
    Visit.weightAll ((level.map scope.inspect).flatMap Inspection.next) + level.length
      ≤ Visit.weightAll level := by
  induction level with
  | nil => simp [Visit.weightAll]
  | cons v rest ih =>
      have hlt := (scope.inspect v).weightAll_next_lt
      have hv : (scope.inspect v).visit = v := rfl
      rw [hv] at hlt
      simp only [List.map_cons, List.flatMap_cons, Visit.weightAll_append, Visit.weightAll,
        List.length_cons]
      omega

/-- The inspections of a **walk** that starts with a level of visits: that level first,
then the level below it. Each level holds fewer nodes than the one above it. -/
def Scope.walk (scope : Scope) (level : List Visit) : List Inspection :=
  match level with
  | [] => []
  | v :: rest =>
      let found := (v :: rest).map scope.inspect
      found ++ scope.walk (found.flatMap Inspection.next)
termination_by Visit.weightAll level
decreasing_by
  have := scope.weightAll_next_le (v :: rest)
  simp only [List.length_cons] at this
  omega

end TreeGrammar
