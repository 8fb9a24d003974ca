/-
Ancestors and descendants.

The graph of a schema lists its edges twice: the children of each declared element, and
for each name that some content mentions the declared elements that use it. The second
index is filled entry by entry, and what it holds under a name at the end are the
elements under which the first one holds the name. So going down along the one and going
up along the other follow the same edges, and a search with a stack finds all of a chain
either way, cycles or not: a node that has been found is turned away when it comes to
the top again.
-/
import TreeGrammar.Proofs.Analysis.Reachability
import TreeGrammar.Proofs.Search

set_option autoImplicit false

namespace TreeGrammar

/-- A declared element **allows** a child: its content mentions an element
of the name. -/
def Schema.Allows (s : Schema) (tag child : String) : Prop :=
  ∃ r, s.rule? tag = some r ∧ .element child ∈ r.content.allowedTokens

namespace ElementGraph

variable {g : ElementGraph} {s : Schema} {tag child name user : String}

/-! ## The index of users -/

section Users

variable {users : OrderedTable String (List String)}

/-- Under its name a user is entered, and **all that was there stays**. A name that had
no list gets one. -/
theorem mem_addUser_iff {entered : String} :
    user ∈ ((addUser entered users tag).get? name).getD [] ↔
      user ∈ (users.get? name).getD [] ∨ user = entered ∧ name = tag := by
  unfold addUser
  dsimp only
  rw [OrderedTable.get?_insert]
  by_cases hname : tag = name
  · subst hname
    rw [if_pos rfl, Option.getD_some]
    by_cases hold : entered ∈ (users.get? tag).getD []
    · rw [if_pos hold]
      refine ⟨.inl, ?_⟩
      rintro (h | ⟨rfl, -⟩)
      · exact h
      · exact hold
    · rw [if_neg hold, List.mem_append, List.mem_singleton]
      simp only [and_true]
  · rw [if_neg hname]
    refine ⟨.inl, ?_⟩
    rintro (h | ⟨-, rfl⟩)
    · exact h
    · exact absurd rfl hname

/-- An element is entered under **each of its child names**. -/
theorem mem_enter_iff {p : String × List String} :
    user ∈ ((enter users p).get? name).getD [] ↔
      user ∈ (users.get? name).getD [] ∨ user = p.1 ∧ name ∈ p.2 := by
  obtain ⟨entered, names⟩ := p
  unfold enter
  dsimp only
  induction names generalizing users with
  | nil => simp
  | cons tag rest ih =>
      rw [List.foldl_cons, ih, mem_addUser_iff, List.mem_cons, or_assoc, ← and_or_left]

/-- Entries **one after the other** enter each its own element. By induction on
the entries. -/
theorem mem_foldl_enter_iff {ps : List (String × List String)} :
    user ∈ ((ps.foldl enter users).get? name).getD [] ↔
      user ∈ (users.get? name).getD [] ∨ ∃ p ∈ ps, user = p.1 ∧ name ∈ p.2 := by
  induction ps generalizing users with
  | nil => simp
  | cons p rest ih => rw [List.foldl_cons, ih, mem_enter_iff, or_assoc, List.exists_mem_cons_iff]

end Users

/-- The two indexes list **the same edges**. One lists for each element its children,
the other for each child the elements that name it. -/
theorem mem_parents_iff : tag ∈ (ofSchema s).parents child ↔ (ofSchema s).Edge tag child := by
  let g := ofSchema s
  have hentered : tag ∈ g.parents child ↔ ∃ p ∈ g.table.entries, tag = p.1 ∧ child ∈ p.2 := by
    refine mem_foldl_enter_iff.trans (or_iff_right fun hempty => ?_)
    rw [OrderedTable.get?_empty] at hempty
    exact absurd hempty List.not_mem_nil
  rw [hentered, Edge, children, OrderedTable.mem_getD_get?_iff]
  constructor
  · rintro ⟨⟨_, names⟩, hentry, rfl, hchild⟩
    exact ⟨names, hentry, hchild⟩
  · rintro ⟨names, hentry, hchild⟩
    exact ⟨(tag, names), hentry, rfl, hchild⟩

/-! ## The searches -/

/-- A parent stands in the index, so the bound on the search leaves none out. The search
for ancestors runs over the names that the index lists. -/
theorem mem_users_of_mem_parents (h : tag ∈ g.parents child) : tag ∈ g.users.values.flatten :=
  OrderedTable.mem_flatten_values h

/-- The ancestors are what chains of edges **come from**. The search starts with the
parents, so an element is its own ancestor only if a cycle leads back to it. -/
theorem mem_ancestors_iff : tag ∈ (ofSchema s).ancestors child ↔
    Relation.TransGen (ofSchema s).Edge tag child := by
  have hup : (fun x y => y ∈ (ofSchema s).parents x ∧ y ∈ (ofSchema s).users.values.flatten) =
      Function.swap (ofSchema s).Edge := by
    funext x y
    refine propext ⟨fun h => mem_parents_iff.mp h.1, fun h => ?_⟩
    exact ⟨mem_parents_iff.mpr h, mem_users_of_mem_parents (mem_parents_iff.mpr h)⟩
  unfold ancestors
  rw [mem_depthFirst_iff, hup, ← Relation.transGen_swap, Relation.TransGen.head'_iff]
  constructor
  · rintro ⟨first, hfirst, -, hrest⟩
    exact ⟨first, mem_parents_iff.mp (List.mem_reverse.mp hfirst), hrest⟩
  · rintro ⟨first, hfirst, hrest⟩
    have hparent : first ∈ (ofSchema s).parents child := mem_parents_iff.mpr hfirst
    exact ⟨first, List.mem_reverse.mpr hparent, mem_users_of_mem_parents hparent, hrest⟩

/-- An edge of the graph of a schema is **what a content allows**. Both speak of the
tokens of a content, one through the graph and one through the rule. -/
theorem edge_eq_allows (s : Schema) : (ofSchema s).Edge = s.Allows := by
  funext tag child
  simp only [edge_ofSchema_iff, Compact.mem_childNames_iff, Schema.Allows, Expression.allowedTokens,
    List.mem_eraseDups, List.mem_flatMap]

end ElementGraph

/-- **Ancestors and descendants are exact and dual.** Below an element is found what
chains of one or more steps lead to, each from a declared element to one that its
content allows; and an element is found above another exactly if the other is found
below it. Both searches keep a stack and know of no bound, and yet are over, whatever
cycles the schema has: there is one round for each name that was ever on the stack. -/
theorem ancestry_exact (s : Schema) (tag child : String) :
    let g := ElementGraph.ofSchema s
    (child ∈ g.descendants tag ↔ Relation.TransGen s.Allows tag child) ∧
    (tag ∈ g.ancestors child ↔ child ∈ g.descendants tag) ∧
    (StackSearch.round g.children)^[(g.children tag).length +
      ((g.descendants tag).flatMap g.children).length] ⟨[], (g.children tag).reverse⟩ =
      ⟨g.descendants tag, []⟩ ∧
    (StackSearch.round g.parents)^[(g.parents child).length +
      ((g.ancestors child).flatMap g.parents).length] ⟨[], (g.parents child).reverse⟩ =
      ⟨g.ancestors child, []⟩ := by
  intro g
  have hbelow : child ∈ g.descendants tag ↔ Relation.TransGen s.Allows tag child := by
    rw [ElementGraph.mem_descendants_iff, ElementGraph.edge_eq_allows]
  have habove : tag ∈ g.ancestors child ↔ Relation.TransGen s.Allows tag child := by
    rw [ElementGraph.mem_ancestors_iff, ElementGraph.edge_eq_allows]
  -- both searches run in a finite universe, the names that the two indexes list
  refine ⟨hbelow, habove.trans hbelow.symm, ?_, ?_⟩
  · have hnext : ∀ x, ∀ y ∈ g.children x, y ∈ g.mentioned :=
      fun x y hy => ElementGraph.mem_mentioned_of_edge hy
    have hrounds := StackSearch.rounds_eq hnext fun y hy => hnext tag y (List.mem_reverse.mp hy)
    rwa [List.length_reverse] at hrounds
  · have hnext : ∀ x, ∀ y ∈ g.parents x, y ∈ g.users.values.flatten :=
      fun x y hy => ElementGraph.mem_users_of_mem_parents hy
    have hrounds := StackSearch.rounds_eq hnext fun y hy => hnext child y (List.mem_reverse.mp hy)
    rwa [List.length_reverse] at hrounds

end TreeGrammar
