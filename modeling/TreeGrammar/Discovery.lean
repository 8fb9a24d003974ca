/-
Searching a finite graph.

Two searches over a graph given by its successor function: `breadthFirst`, which visits
in the order of a queue, and `depthFirst`, which visits in the order of a stack. Both
are confined to a finite list of nodes, the **universe**. The search ends because every
round either takes one node off its worklist or visits a node of the universe for the
first time; `unseen` counts those left.
-/

set_option autoImplicit false

namespace TreeGrammar

universe u

variable {α : Type u} [DecidableEq α]

/-- How many entries of the universe have not been seen. -/
def unseen (all seen : List α) : Nat := (all.filter fun a => decide (a ∉ seen)).length

theorem unseen_le {all seen more : List α} (hsub : ∀ a ∈ seen, a ∈ more) :
    unseen all more ≤ unseen all seen := by
  induction all with
  | nil => simp [unseen]
  | cons a rest ih =>
      unfold unseen at ih ⊢
      by_cases hm : a ∈ more
      · by_cases hs : a ∈ seen
        · simpa [hm, hs] using ih
        · simp only [List.filter_cons, hm, hs, not_true_eq_false, decide_false, not_false_eq_true,
            decide_true, if_true, List.length_cons, Bool.false_eq_true, if_false]
          omega
      · have hs : a ∉ seen := fun h => hm (hsub a h)
        simp only [List.filter_cons, hm, hs, not_false_eq_true, decide_true, if_true,
          List.length_cons]
        omega

theorem unseen_lt {all seen more : List α} (hsub : ∀ a ∈ seen, a ∈ more) {b : α}
    (hall : b ∈ all) (hold : b ∉ seen) (hnew : b ∈ more) : unseen all more < unseen all seen := by
  induction all with
  | nil => simp at hall
  | cons a rest ih =>
      have hle : unseen rest more ≤ unseen rest seen := unseen_le hsub
      unfold unseen at ih hle ⊢
      by_cases hab : a = b
      · subst hab
        simp only [List.filter_cons, hold, hnew, not_true_eq_false, decide_false,
          not_false_eq_true, decide_true, if_true, List.length_cons, Bool.false_eq_true, if_false]
        omega
      · have hrest : b ∈ rest := by
          rcases List.mem_cons.1 hall with h | h
          · exact absurd h.symm hab
          · exact h
        have ih := ih hrest
        by_cases hm : a ∈ more
        · by_cases hs : a ∈ seen
          · simpa [hm, hs] using ih
          · simp only [List.filter_cons, hm, hs, not_true_eq_false, decide_false,
              not_false_eq_true, decide_true, if_true, List.length_cons, Bool.false_eq_true,
              if_false]
            omega
        · have hs : a ∉ seen := fun h => hm (hsub a h)
          simp only [List.filter_cons, hm, hs, not_false_eq_true, decide_true, if_true,
            List.length_cons]
          omega

/-- The successors that are new to the search, each once, in their order. -/
def freshSuccessors (all seen : List α) (next : List α) : List α :=
  (next.filter fun b => decide (b ∈ all) && decide (b ∉ seen)).eraseDups

theorem mem_freshSuccessors {all seen next : List α} {b : α}
    (h : b ∈ freshSuccessors all seen next) : b ∈ all ∧ b ∉ seen := by
  unfold freshSuccessors at h
  rw [List.mem_eraseDups] at h
  simpa using (List.mem_filter.1 h).2

/-- **Breadth-first**: the nodes seen when the queue has run empty, in order of
discovery. Every node of the queue is already among the seen ones. -/
def breadthFirst (all : List α) (next : α → List α) (seen queue : List α) : List α :=
  match queue with
  | [] => seen
  | a :: rest =>
      breadthFirst all next (seen ++ freshSuccessors all seen (next a))
        (rest ++ freshSuccessors all seen (next a))
termination_by (unseen all seen, queue.length)
decreasing_by
  rcases hf : freshSuccessors all seen (next a) with _ | ⟨b, more⟩
  · simp only [List.append_nil, List.length_cons]
    exact Prod.Lex.right _ (Nat.lt_succ_self _)
  · have hb : b ∈ freshSuccessors all seen (next a) := by simp [hf]
    have hmem := mem_freshSuccessors hb
    exact Prod.Lex.left _ _
      (unseen_lt (fun c hc => List.mem_append_left _ hc) hmem.1 hmem.2 (by simp))

/-- **Depth-first**: the nodes found when the stack has run empty, in order of their
first coming to the top. The successors of a node are laid on the stack in order, so the
last of them is visited first. -/
def depthFirst (all : List α) (next : α → List α) (found stack : List α) : List α :=
  match stack with
  | [] => found
  | a :: rest =>
      if a ∈ all ∧ a ∉ found then
        depthFirst all next (found ++ [a]) ((next a).reverse ++ rest)
      else
        depthFirst all next found rest
termination_by (unseen all found, stack.length)
decreasing_by
  · rename_i h
    exact Prod.Lex.left _ _
      (unseen_lt (fun c hc => List.mem_append_left _ hc) h.1 h.2 (by simp))
  · exact Prod.Lex.right _ (by simp)

end TreeGrammar
