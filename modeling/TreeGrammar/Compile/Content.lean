/-
Compiling contents.

A term becomes an automaton by the operators of `TreeGrammar.Automaton.Compose`. A
reference stands for its definition, which is compiled on its first use and kept; every
later use gets a copy on new states, so that two places of a content never share a
numbered state.

Definitions may refer to each other. Resolving one goes on with the names of all
definitions that are being compiled around it; a name among them closes a cycle. Each
nested resolution adds a defined name that was not among them, so there are at most as
many as there are definitions.
-/
import TreeGrammar.Compile.Session
import TreeGrammar.Content.Term

set_option autoImplicit false

namespace TreeGrammar

/-- The definitions that references stand for, and the bounds to keep. -/
structure Rulebook where
  /-- The pattern of each definition. -/
  definitions : OrderedTable String Pattern := .empty
  /-- The bounds. -/
  limits : Limits := .standard

/-- A compiled content. -/
inductive Compiled where
  /-- Regular content: one automaton. -/
  | single (a : Automaton)
  /-- An interleave: one automaton for each block. -/
  | interleave (blocks : List Automaton)

namespace Compiling

/-! ## Terms -/

mutual

/-- The automaton of a term. References are left to `resolve`. -/
def term (resolve : String → Compiling Automaton) : Term → Compiling Automaton
  | .token t => return Automaton.single t
  | .sequence [] => return Automaton.emptyWord
  | .sequence (block :: rest) => do
      let first ← term resolve block
      sequence resolve first rest
  | .choice [] => failHere .emptyChoice
  | .choice (block :: rest) => do
      let first ← term resolve block
      choice resolve first rest
  | .optional block => do
      let a ← term resolve block
      return a.optional
  | .kleene block => do
      let a ← term resolve block
      build fun drawn => a.kleene drawn
  | .plus block => do
      let a ← term resolve block
      build fun drawn => a.plus drawn
  | .ref name => resolve name

/-- The automaton of what comes before, followed by the blocks in order. -/
def sequence (resolve : String → Compiling Automaton) (before : Automaton) :
    List Term → Compiling Automaton
  | [] => return before
  | block :: rest => do
      let a ← term resolve block
      let both ← build fun drawn => before.append drawn a
      sequence resolve both rest

/-- The automaton of what comes before, or one of the blocks. -/
def choice (resolve : String → Compiling Automaton) (before : Automaton) :
    List Term → Compiling Automaton
  | [] => return before
  | block :: rest => do
      let a ← term resolve block
      let either ← build fun drawn => before.merge drawn a
      choice resolve either rest

end

/-- Optional content is compiled by making **what is optional** so. -/
theorem term_optional (resolve : String → Compiling Automaton) (t : Term) :
    term resolve (.optional t) = term resolve t >>= fun a => pure a.optional := by
  rw [term]

/-! ## References -/

/-- The automaton of a definition. **`path`** names the definitions being compiled
around it. -/
def resolve (book : Rulebook) (path : List String) (name : String) : Compiling Automaton := do
  let s ← getThe Session
  match s.finished.get? name with
  | some kept => build fun drawn => kept.copy drawn
  | none =>
      if _ : name ∈ path then
        failHere (.referenceCycle path name)
      else
        match _ : book.definitions.get? name with
        | none => failHere (.undefinedReference name)
        | some body => do
            modifyThe Session fun s => { s with inProgress := path ++ [name] }
            match ← ofExcept (Content.ofPattern book.limits body) with
            | .interleave _ => failHere (.interleaveDefinition name)
            | .term t =>
                let a ← term (fun other => resolve book (path ++ [name]) other) t
                modifyThe Session fun s =>
                  { s with inProgress := path, finished := s.finished.insert name a }
                return a
termination_by unseen book.definitions.keys path
decreasing_by
  exact unseen_lt (fun a ha => List.mem_append_left _ ha)
    (OrderedTable.mem_keys_of_get? (by assumption)) (by assumption) (by simp)

/-- The automaton of a term, with its references resolved; bounded in its
number of states. -/
def boundedTerm (book : Rulebook) (t : Term) : Compiling Automaton := do
  let s ← getThe Session
  let a ← term (resolve book s.inProgress) t
  ofExcept ((book.limits.check .automatonStates a.stateCount).mapError .limit)
  return a

/-! ## Contents and patterns -/

/-- The automata of blocks, in order. -/
def blocks (book : Rulebook) : List Term → Compiling (List Automaton)
  | [] => return []
  | t :: ts => do
      let a ← boundedTerm book t
      let as ← blocks book ts
      return a :: as

/-- The compiled form of a content. -/
def content (book : Rulebook) : Content → Compiling Compiled
  | .term t => return .single (← boundedTerm book t)
  | .interleave ts => return .interleave (← blocks book ts)

/-- What a normal pattern stands for as a **whole content**. A lone reference is
followed through definitions that are lone references, and replaced if that ends at an
interleave; a reference to regular content stays, so that its definition is kept for
other uses. -/
def wholeContent (book : Rulebook) (followed : List String) (p : Pattern) : Compiling Pattern :=
  match p with
  | .ref name =>
      if _ : name ∈ followed then
        failHere (.referenceCycle followed name)
      else
        match _ : book.definitions.get? name with
        | none => failHere (.undefinedReference name)
        | some body => do
            match ← orFailHere body.normalize with
            | .ref other => wholeContent book (followed ++ [name]) (.ref other)
            | .interleave parts => return .interleave parts
            | _ => return .ref name
  | other => return other
termination_by unseen book.definitions.keys followed
decreasing_by
  exact unseen_lt (fun a ha => List.mem_append_left _ ha)
    (OrderedTable.mem_keys_of_get? (by assumption)) (by assumption) (by simp)

/-- The **compiled form of a pattern**. -/
def pattern (book : Rulebook) (p : Pattern) : Compiling Compiled := do
  let normal ← orFailHere p.normalize
  let whole ← wholeContent book [] normal
  content book (← ofExcept (Content.ofPattern book.limits whole))

end Compiling

end TreeGrammar
