/-
What the start can reach, and what occurs in a document.

The descendants of an element are what chains of one or more edges lead to: a
depth-first search, confined to the names that contents mention, and every edge ends in
one of these. A valid document goes along edges only. An element child is not blank, so
a review that finds nothing has seen it taken, and what is taken inside a content occurs
in it; the name is then a child name in the graph. So each element of a valid document
is reached from the start, however deep it stands and whichever way ties go.
-/
import TreeGrammar.Analysis.Design
import TreeGrammar.Proofs.Content.Inside
import TreeGrammar.Proofs.Discovery
import TreeGrammar.Proofs.Markup.Cut
import TreeGrammar.Proofs.Schema.RoundTrip
import TreeGrammar.Proofs.Validation.Verdict

set_option autoImplicit false

namespace TreeGrammar

/-! ## The search of the graph -/

namespace ElementGraph

variable {g : ElementGraph} {s : Schema} {start tag child : String}

/-- An edge of the graph. -/
def Edge (g : ElementGraph) (parent child : String) : Prop := child ∈ g.children parent

/-- The child of an edge is mentioned, so the search has room for it. It need not
be declared. -/
theorem mem_mentioned_of_edge (h : g.Edge tag child) : child ∈ g.mentioned :=
  OrderedTable.mem_flatten_values h

/-- The bound on the search leaves no edge out. -/
theorem edge_within : (fun x y => y ∈ g.children x ∧ y ∈ g.mentioned) = g.Edge := by
  funext x y
  exact propext ⟨fun h => h.1, fun h => ⟨h, mem_mentioned_of_edge h⟩⟩

/-- The descendants are **what chains of edges lead to**. The search starts with the
children of the element. -/
theorem mem_descendants_iff : child ∈ g.descendants tag ↔ Relation.TransGen g.Edge tag child := by
  unfold descendants
  rw [mem_depthFirst_iff, edge_within, Relation.TransGen.head'_iff]
  constructor
  · rintro ⟨first, hfirst, -, hrest⟩
    exact ⟨first, List.mem_reverse.mp hfirst, hrest⟩
  · rintro ⟨first, hfirst, hrest⟩
    exact ⟨first, List.mem_reverse.mpr hfirst, mem_mentioned_of_edge hfirst, hrest⟩

/-- What the search from the start finds is **what edges lead to**, directly or not. The
start itself is counted among what is found. -/
theorem mem_reachableFromStart_iff (hstart : g.schema.start = some start) :
    tag ∈ g.reachableFromStart ↔ Relation.ReflTransGen g.Edge start tag := by
  unfold reachableFromStart
  rw [hstart]
  dsimp only
  rw [List.mem_eraseDups, List.mem_cons, mem_descendants_iff,
    Relation.reflTransGen_iff_eq_or_transGen]

/-- In the graph of a schema, edges lead from a declared element to **what its content
mentions**. An undeclared element has no edges of its own. -/
theorem edge_ofSchema_iff : (ofSchema s).Edge tag child ↔ ∃ r, s.rule? tag = some r ∧
    child ∈ r.childNames := by
  unfold Edge children ofSchema Schema.rule?
  rw [OrderedTable.get?_mapValues]
  cases s.elements.get? tag with
  | none => simp
  | some r => simp

/-- An element that is found unreachable **is not reached**. The finding is made by that
very search. -/
theorem not_mem_of_unreachable {f : Finding} (hf : f ∈ s.designFindings)
    (hrule : f.rule = .unreachable) : f.element ∉ (ofSchema s).reachableFromStart := by
  -- findings about one element by itself are of other sorts
  have hkind (r : ElementRule) (h : (ofSchema s).kindFinding? r = some f) :
      f.rule ≠ .unreachable := by
    unfold kindFinding? at h
    dsimp only at h
    split at h
    case h_7 | h_8 => cases h
    all_goals
      obtain ⟨-, h⟩ := Option.ite_none_right_eq_some.mp h
      cases h
      exact nofun
  unfold Schema.designFindings at hf
  rcases List.mem_append.mp hf with hf | hf
  · rcases List.mem_append.mp hf with hf | hf
    · obtain ⟨r, -, hr⟩ := List.mem_filterMap.mp hf
      exact absurd hrule (hkind r hr)
    · unfold unreachableFindings at hf
      split at hf
      · exact absurd hf List.not_mem_nil
      · obtain ⟨tag, htag, rfl⟩ := List.mem_map.mp hf
        exact of_decide_eq_true (List.mem_filter.mp htag).2
  · obtain ⟨p, -, rfl⟩ := List.mem_map.mp hf
    cases hrule

end ElementGraph

/-! ## The children of one element -/

/-- Of slots that are read inside a content, those that are not blank **occur in it**.
By induction on the slots, since the cursor stays inside the content. -/
theorem Expression.Reads.isAllowed {e : Expression} {c last : Cursor} {slots : List Slot}
    (h : e.Reads c slots last) (hinside : e.Inside c) {slot : Slot} (hslot : slot ∈ slots)
    (hblank : slot.blank = false) : e.isAllowed slot.token = true := by
  induction h with
  | nil c => exact absurd hslot List.not_mem_nil
  | taken hadvance _ ih =>
      obtain ⟨hnext, hallowed⟩ := hinside.advance hadvance
      rcases List.mem_cons.mp hslot with rfl | hrest
      · exact hallowed
      · exact ih hnext hrest
  | passed _ hpassed _ ih =>
      rcases List.mem_cons.mp hslot with rfl | hrest
      · rw [hpassed] at hblank
        cases hblank
      · exact ih hinside hrest

/-- Each element among children has **a slot that is not blank**. -/
theorem Element.exists_slot {e child : Element} (h : child ∈ e.childElements) :
    ∃ slot ∈ Slot.ofNodes e.children, slot.token = .element child.tag ∧ slot.blank = false := by
  obtain ⟨n, hn, hchild⟩ := List.mem_filterMap.mp h
  cases n with
  | text s => cases hchild
  | comment s => cases hchild
  | element tag attributes inner =>
      cases hchild
      obtain ⟨before, after, hsplit⟩ := List.append_of_mem hn
      rw [hsplit, Slot.ofNodes_insert_element]
      exact ⟨_, List.mem_append_right _ List.mem_cons_self, rfl, rfl⟩

/-- An element that its rule admits has **no children but those that the content
mentions**. So from one level of a valid document to the next, edges of the graph
are followed. -/
theorem ElementRule.Admits.mem_childNames {r : ElementRule} {e child : Element} (h : r.Admits e)
    (hchild : child ∈ e.childElements) : child.tag ∈ r.childNames := by
  obtain ⟨last, hreads, -⟩ := h.children
  obtain ⟨slot, hslot, htoken, hblank⟩ := Element.exists_slot hchild
  have hallowed := hreads.isAllowed r.content.inside_initial hslot hblank
  rw [htoken, Expression.isAllowed_iff] at hallowed
  exact Compact.mem_childNames_iff.mpr hallowed

/-! ## A whole document -/

/-- A tie-break changes nothing about **which elements a content mentions**. Which
elements can be reached is therefore the same for all tie-breaks. -/
theorem ElementRule.childNames_withTieBreak (r : ElementRule) (tieBreak : TieBreak) :
    (r.withTieBreak tieBreak).childNames = r.childNames := by
  unfold childNames Expression.allowedTokens withTieBreak
  cases r.content <;> rfl

/-- Another tie-break leaves every rule where it was. -/
theorem Schema.rule?_withTieBreak (s : Schema) (tieBreak : TieBreak) (tag : String) :
    (s.withTieBreak tieBreak).rule? tag = (s.rule? tag).map fun r => r.withTieBreak tieBreak :=
  OrderedTable.get?_mapValues _ _ _

/-- **Reachability is sound.** Whatever the limits and the tie-break, each element of a
document without violations, however deep it stands, is reached from the start element;
so an element that is found unreachable stands in no such document. -/
theorem mem_reachableFromStart_of_valid (s : Schema) {start : String}
    (hstart : s.start = some start) (tieBreak : TieBreak) (limits : Limits) (root : Element)
    (hvalid : (Validator.mk (s.withTieBreak tieBreak) .strict limits).validateDocument root = []) :
    ∀ depth e, root.Has depth e → e.tag ∈ (ElementGraph.ofSchema s).reachableFromStart ∧
      ∀ f ∈ s.designFindings, f.rule = .unreachable → f.element ≠ e.tag := by
  obtain ⟨hroot, hright⟩ := (validateDocument_eq_nil_iff _ _ _).mp hvalid
  -- by induction on the way down: the root is the start, and each step goes along an edge
  have hreached :
      ∀ depth e, root.Has depth e → e.tag ∈ (ElementGraph.ofSchema s).reachableFromStart := by
    intro depth e hhas
    rw [ElementGraph.mem_reachableFromStart_iff hstart]
    induction hhas with
    | root => rw [hroot start hstart]
    | child habove _ hchild ih =>
        obtain ⟨-, r', hrule', hadmits⟩ := hright _ _ habove
        rw [Schema.rule?_withTieBreak] at hrule'
        obtain ⟨r, hrule, rfl⟩ := Option.map_eq_some_iff.mp hrule'
        have hname := hadmits.mem_childNames hchild
        rw [ElementRule.childNames_withTieBreak] at hname
        exact ih.tail (ElementGraph.edge_ofSchema_iff.mpr ⟨r, hrule, hname⟩)
  intro depth e hhas
  refine ⟨hreached depth e hhas, fun f hf hrule heq => ?_⟩
  have hnot := ElementGraph.not_mem_of_unreachable hf hrule
  rw [heq] at hnot
  exact hnot (hreached depth e hhas)

/-- Parts with parts or text inside, a note among the text, and a gloss that no
content mentions. -/
def outline : Schema where
  elements := .ofList
    [ ("part", ⟨"part", .element, [], .single (.ofEdges
        [ ⟨.start, .token (.element "part"), .id 0⟩, ⟨.start, .token (.element "para"), .fin⟩,
          ⟨.id 0, .token (.element "part"), .id 0⟩, ⟨.id 0, .epsilon, .fin⟩ ])⟩),
      ("para", ⟨"para", .hybrid, [], .interleave
        [ .ofEdges [⟨.start, .token .text, .fin⟩],
          .ofEdges [⟨.start, .epsilon, .fin⟩, ⟨.start, .token (.element "note"), .fin⟩]
            ] .firstMatch⟩),
      ("note", ⟨"note", .text, [], .single (.ofEdges [⟨.start, .token .text, .fin⟩])⟩),
      ("gloss", ⟨"gloss", .text, [], .single (.ofEdges [⟨.start, .token .text, .fin⟩])⟩) ]
  start := some "part"

/-- A part in a part, and a note in it. -/
def nestedPart : Element where
  tag := "part"
  children := [.text " ", .element "part" .empty [.element "para" .empty
    [.text "a", .element "note" .empty [.text "b"]]]]

/-- The note is reached, three levels down, and nothing that a valid document has
is the gloss. -/
theorem mem_reachableFromStart_nestedPart :
    outline.start = some "part" ∧
      (Validator.mk (outline.withTieBreak .preferUnfinished) .strict .standard).validateDocument
        nestedPart = [] ∧
      "note" ∈ (ElementGraph.ofSchema outline).reachableFromStart ∧
      ∀ f ∈ outline.designFindings, f.rule = .unreachable → f.element ≠ "note" := by
  have hstart : outline.start = some "part" := rfl
  have hvalid :
      (Validator.mk (outline.withTieBreak .preferUnfinished) .strict .standard).validateDocument
        nestedPart = [] := by decide +kernel
  have hnote : nestedPart.Has 4 ⟨"note", .empty, [.text "b"]⟩ :=
    .child (.child (.child .root trivial List.mem_cons_self) trivial List.mem_cons_self) trivial
      List.mem_cons_self
  obtain ⟨hreached, hfindings⟩ :=
    mem_reachableFromStart_of_valid outline hstart .preferUnfinished .standard nestedPart
    hvalid 4 _ hnote
  exact ⟨hstart, hvalid, hreached, hfindings⟩

end TreeGrammar
