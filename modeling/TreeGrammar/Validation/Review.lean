/-
Reviewing the children of one element.

The slots of the children are offered to the element's content one after the other.
Blank text that the content does not take is passed over as if it were not there; every
other rejected child is a violation, and so is an end before the content is complete. An
index in a violation counts nodes, comments and all.
-/
import TreeGrammar.Content.Progress
import TreeGrammar.Schema.Basic

set_option autoImplicit false

namespace TreeGrammar.ElementRule

/-- The violation of a slot, with the element and the index of the slot's first node. -/
def locate (r : ElementRule) (slot : Slot) (reason : Violation) : Violation :=
  { reason with element := some r.tag, index := some slot.index }

/-- The violation of ending here, if the content may not. -/
def ending (r : ElementRule) (p : Progress) : Option Violation :=
  (r.content.finish p).map fun v => { v with element := some r.tag }

/-- The violations of slots that are offered after what has been offered. -/
def reviewFrom (r : ElementRule) (p : Progress) : List Slot → List Violation
  | [] => (r.ending p).toList
  | slot :: rest =>
      match r.content.offer p slot.token with
      | .accepted next => r.reviewFrom next rest
      | .rejected reason next =>
          if slot.blank then r.reviewFrom p rest
          else r.locate slot reason :: r.reviewFrom next rest

/-- The **violations of children** against the content of their element. -/
def review (r : ElementRule) (children : List Node) : List Violation :=
  r.reviewFrom r.content.begin (Slot.ofNodes children)

end TreeGrammar.ElementRule
