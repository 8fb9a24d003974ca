/-
The tokens that a table has edges for.

An operator puts edges of its tables at other states, but under the labels that they
have: no token comes in that was in neither table. Not every edge need be reached, so a
table may have an edge for a token that is none of its own. Where a path from `start`
takes the token, though, it is.
-/
import TreeGrammar.Proofs.Automaton.Append
import TreeGrammar.Proofs.Automaton.Merge
import TreeGrammar.Proofs.Automaton.Reach
import TreeGrammar.Proofs.Automaton.Repeat

set_option autoImplicit false

namespace TreeGrammar.Automaton

/-- Some edge of the table, reached or not, is **for the token**. -/
def HasEdge (a : Automaton) (x : Token) : Prop := ∃ s t, a.target s (.token x) = some t

variable {n : Nat} {a b c : Automaton} {s t q : State} {x : Token} {w : List Token}

/-- A token that a table lists as its own labels **an edge of it**, reached or not. The
converse needs more than edges and is shown for spelled words below. -/
theorem hasEdge_of_mem_reachableTokens (h : x ∈ a.reachableTokens) : a.HasEdge x := by
  obtain ⟨s, t, -, hst⟩ := mem_reachableTokens_iff.mp h
  exact ⟨s, t, hst⟩

/-! ## Operators -/

/-- Copying gives states new numbers and leaves the labels as they are, so a copy has
**no tokens of its own**. -/
theorem HasEdge.of_copy (h : (a.copy n).automaton.HasEdge x) : a.HasEdge x := by
  obtain ⟨s', t', h⟩ := h
  obtain ⟨s, t, -, -, h⟩ := (target_copy a n s' t' _).mp h
  exact ⟨s, t, h⟩

/-- What an operator puts beside the first table is the second one or a copy of it, so
its tokens are those of the second. -/
theorem HasEdge.of_apart : (apart n a b).automaton.HasEdge x → b.HasEdge x :=
  apart_induction (motive := fun d => d.automaton.HasEdge x → b.HasEdge x) n a b id HasEdge.of_copy

/-- Moving the end changes where edges enter, not what they take. Every edge of the
result comes from one with the same label. -/
theorem HasEdge.of_moveEnd (h : (a.moveEnd q).HasEdge x) : a.HasEdge x := by
  obtain ⟨s, t, h⟩ := h
  obtain ⟨-, t₀, h, -⟩ := target_moveEnd.mp h
  exact ⟨s, t₀, h⟩

/-- The edge that makes a table optional takes no token, so every token was
there before. -/
theorem HasEdge.of_optional (h : a.optional.HasEdge x) : a.HasEdge x := by
  obtain ⟨s, t, h⟩ := h
  rcases target_of_optional h with ⟨-, hlabel, -⟩ | h
  · cases hlabel
  · exact ⟨s, t, h⟩

/-- The edges that start the next round take the tokens that open the table. They are
copies of edges that were there, and what ends the rounds takes no token. -/
theorem HasEdge.of_looped (hw : a.Within n) (h : (looped n a).HasEdge x) : a.HasEdge x := by
  obtain ⟨s, t, h⟩ := h
  apply HasEdge.of_moveEnd (q := again n)
  cases (target_looped hw).mp h with
  | left h => exact ⟨s, t, h⟩
  | again h => exact ⟨.start, t, h⟩

/-- At least once adds at most an epsilon edge to the table turned back upon itself. -/
theorem HasEdge.of_plus (hw : a.Within n) : (plus n a).automaton.HasEdge x → a.HasEdge x :=
  plus_induction (motive := fun b => b.HasEdge x → a.HasEdge x) n a
    (fun _ h => h.of_optional.of_looped hw) fun _ h => h.of_looped hw

/-- Any number of times adds one more epsilon edge to that. -/
theorem HasEdge.of_kleene (hw : a.Within n) (h : (kleene n a).automaton.HasEdge x) :
    a.HasEdge x := by
  rw [kleene_eq] at h
  exact h.of_optional.of_plus hw

/-- One table or the other has the tokens **of the two tables**: an edge may be lost in
the union, but none is made up. -/
theorem HasEdge.of_merge (h : (merge n a b).automaton.HasEdge x) : a.HasEdge x ∨ b.HasEdge x := by
  rw [merge_eq] at h
  obtain ⟨s, t, h⟩ := h
  rcases target_union.mp h with h | ⟨-, h⟩
  · exact .inl ⟨s, t, h⟩
  · exact .inr (HasEdge.of_apart ⟨s, t, h⟩)

/-- One table after another has the tokens of the two tables. The five kinds of edges
carry a label of the first table or of the second. -/
theorem HasEdge.of_append (ha : a.WellFormed) (hb : b.WellFormed) (hwa : a.Within n)
    (hwb : b.Within n) (h : (append n a b).automaton.HasEdge x) : a.HasEdge x ∨ b.HasEdge x := by
  obtain ⟨s, t, h⟩ := h
  -- whatever state an edge was given to, it is an edge of the first table or of the second
  cases (target_append ha hb hwa hwb).mp h with
  | left h => exact .inl (HasEdge.of_moveEnd ⟨s, t, h⟩)
  | fed _ _ h => exact .inr (HasEdge.of_apart ⟨.start, t, h⟩)
  | right _ h => exact .inr (HasEdge.of_apart ⟨s, t, h⟩)
  | joined _ h => exact .inr (HasEdge.of_apart ⟨.start, t, h⟩)
  | opened _ _ h => exact .inr (HasEdge.of_apart ⟨.start, t, h⟩)

/-! ## Paths -/

/-- On a path from a reached state, all tokens **are the table's own**. By induction on
the path, which stays within what is reached. -/
theorem Path.mem_reachableTokens (p : a.Path t s w) (hs : a.Reaches s) :
    ∀ x ∈ w, x ∈ a.reachableTokens := by
  induction p with
  | refl => exact fun x hx => absurd hx List.not_mem_nil
  | @step s r l w h _ ih =>
      have hrest := ih (hs.tail h)
      cases l with
      | epsilon => exact hrest
      | token y => exact List.forall_mem_cons.mpr ⟨mem_reachableTokens_iff.mpr ⟨s, r, hs, h⟩, hrest⟩

/-- The tokens of a spelled word are among those that the table lists: the path for the
word reaches each edge that takes one. -/
theorem mem_reachableTokens_of_spelled (hw : w ∈ a.spelled) : ∀ x ∈ w, x ∈ a.reachableTokens :=
  Path.mem_reachableTokens hw a.reaches_start

end TreeGrammar.Automaton
