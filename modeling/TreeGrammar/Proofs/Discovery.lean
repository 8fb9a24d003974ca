/-
What the search of a graph finds.

`breadthFirst` is given a node list and hands back what it has seen when its queue has
run empty. Two facts about a round carry the search: a node is only seen for the first
time as a successor, inside the universe, of a node already seen, and a node that has
left the queue has all its successors seen. Started with one node, the search finds
exactly the nodes that steps inside the universe lead to.

`depthFirst` says what it finds when a node leaves its stack. There a node is only found
after it was on the stack, and a node that has been found has each of its successors
found or on the stack.
-/
import Mathlib.Logic.Relation
import TreeGrammar.Discovery

set_option autoImplicit false

namespace TreeGrammar

universe u

variable {α : Type u} [DecidableEq α] {all seen queue : List α} {next : α → List α} {a b : α}

/-! ## Breadth first -/

/-- Successors are fresh if they have not been seen; the list of all that there is
bounds the search, and lets nothing else in. -/
theorem mem_freshSuccessors_iff {succ : List α} :
    b ∈ freshSuccessors all seen succ ↔ b ∈ succ ∧ b ∈ all ∧ b ∉ seen := by
  unfold freshSuccessors
  rw [List.mem_eraseDups, List.mem_filter]
  simp

/-- What has been seen stays seen. -/
theorem mem_breadthFirst_of_mem (h : b ∈ seen) : b ∈ breadthFirst all next seen queue := by
  fun_induction breadthFirst all next seen queue with
  | case1 seen => exact h
  | case2 seen a rest ih => exact ih (List.mem_append_left _ h)

/-- What is found lies in every set that holds what has been seen and is left by no step
inside the universe. -/
theorem breadthFirst_sound {p : α → Prop} (hseen : ∀ x ∈ seen, p x) (hqueue : ∀ x ∈ queue, p x)
    (hp : ∀ x, p x → ∀ y ∈ next x, y ∈ all → p y) (h : b ∈ breadthFirst all next seen queue) :
    p b := by
  fun_induction breadthFirst all next seen queue with
  | case1 seen => exact hseen b h
  | case2 seen a rest ih =>
      -- the node that leaves the queue is in the set, so its fresh successors are
      have ha : p a := hqueue a List.mem_cons_self
      have hfresh : ∀ x ∈ freshSuccessors all seen (next a), p x := by
        intro x hx
        obtain ⟨hnext, hall, -⟩ := mem_freshSuccessors_iff.mp hx
        exact hp a ha x hnext hall
      refine ih ?_ ?_ h
      · intro x hx
        rcases List.mem_append.mp hx with hx | hx
        · exact hseen x hx
        · exact hfresh x hx
      · intro x hx
        rcases List.mem_append.mp hx with hx | hx
        · exact hqueue x (List.mem_cons_of_mem a hx)
        · exact hfresh x hx

/-- No step inside the universe leaves what is found, if the queue holds every node
whose successors may not have been seen. -/
theorem breadthFirst_closed (hqueue : ∀ x ∈ seen, x ∈ queue ∨ ∀ y ∈ next x, y ∈ all → y ∈ seen)
    (ha : a ∈ breadthFirst all next seen queue) (hb : b ∈ next a) (hall : b ∈ all) :
    b ∈ breadthFirst all next seen queue := by
  fun_induction breadthFirst all next seen queue with
  | case1 seen =>
      rcases hqueue a ha with hnil | hseen
      · exact absurd hnil List.not_mem_nil
      · exact hseen b hb hall
  | case2 seen c rest ih =>
      refine ih (fun x hx => ?_) ha
      rcases List.mem_append.mp hx with hx | hx
      · rcases hqueue x hx with hmem | hdone
        · rcases List.mem_cons.mp hmem with rfl | hrest
          · -- the node that leaves the queue: its successors were seen before, or are seen now
            refine .inr fun y hy hyall => ?_
            by_cases hold : y ∈ seen
            · exact List.mem_append_left _ hold
            · exact List.mem_append_right _ (mem_freshSuccessors_iff.mpr ⟨hy, hyall, hold⟩)
          · exact .inl (List.mem_append_left _ hrest)
        · exact .inr fun y hy hyall => List.mem_append_left _ (hdone y hy hyall)
      · exact .inl (List.mem_append_right _ hx)

/-- Started with one node, the search finds **what steps inside the universe lead to**.
Nothing outside the universe is looked at; in a search of the program all successors
lie inside. -/
theorem mem_breadthFirst_iff :
    b ∈ breadthFirst all next [a] [a] ↔
      Relation.ReflTransGen (fun x y => y ∈ next x ∧ y ∈ all) a b := by
  constructor
  · intro h
    have hstart : ∀ x ∈ [a], Relation.ReflTransGen (fun x y => y ∈ next x ∧ y ∈ all) a x := by
      intro x hx
      rw [List.mem_singleton.mp hx]
    exact breadthFirst_sound hstart hstart (fun x hx y hy hall => hx.tail ⟨hy, hall⟩) h
  · intro h
    induction h with
    | refl => exact mem_breadthFirst_of_mem List.mem_cons_self
    | tail _ hstep ih => exact breadthFirst_closed (fun x hx => .inl hx) ih hstep.1 hstep.2

/-! ## Depth first -/

section DepthFirst

variable {found stack : List α}

/-- What has been found stays found. -/
theorem mem_depthFirst_of_mem (h : b ∈ found) : b ∈ depthFirst all next found stack := by
  fun_induction depthFirst all next found stack with
  | case1 found => exact h
  | case2 found a rest _ ih => exact ih (List.mem_append_left _ h)
  | case3 found a rest _ ih => exact ih h

/-- What is found lies in every set that holds what has been found and, inside the
universe, what is on the stack, and is left by no step inside the universe. -/
theorem depthFirst_sound {p : α → Prop} (hfound : ∀ x ∈ found, p x)
    (hstack : ∀ x ∈ stack, x ∈ all → p x) (hp : ∀ x, p x → ∀ y ∈ next x, y ∈ all → p y)
    (h : b ∈ depthFirst all next found stack) : p b := by
  fun_induction depthFirst all next found stack with
  | case1 found => exact hfound b h
  | case2 found a rest hnew ih =>
      have ha : p a := hstack a List.mem_cons_self hnew.1
      refine ih (fun x hx => ?_) (fun x hx hall => ?_) h
      · rcases List.mem_append.mp hx with hx | hx
        · exact hfound x hx
        · rwa [List.mem_singleton.mp hx]
      · rcases List.mem_append.mp hx with hx | hx
        · exact hp a ha x (List.mem_reverse.mp hx) hall
        · exact hstack x (List.mem_cons_of_mem a hx) hall
  | case3 found a rest _ ih =>
      exact ih hfound (fun x hx hall => hstack x (List.mem_cons_of_mem a hx) hall) h

/-- What is on the stack is found, if it lies in the universe. -/
theorem mem_depthFirst_of_mem_stack (h : b ∈ stack) (hall : b ∈ all) :
    b ∈ depthFirst all next found stack := by
  fun_induction depthFirst all next found stack with
  | case1 found => exact absurd h List.not_mem_nil
  | case2 found a rest _ ih =>
      rcases List.mem_cons.mp h with rfl | hrest
      · exact mem_depthFirst_of_mem (List.mem_append_right _ (List.mem_singleton_self b))
      · exact ih (List.mem_append_right _ hrest)
  | case3 found a rest hold ih =>
      rcases List.mem_cons.mp h with rfl | hrest
      · have hmem : b ∈ found := Decidable.not_not.mp fun hnot => hold ⟨hall, hnot⟩
        exact mem_depthFirst_of_mem hmem
      · exact ih hrest

/-- No step inside the universe leaves what is found, if each successor of a node that
has been found is found or on the stack. -/
theorem depthFirst_closed (hfound : ∀ x ∈ found, ∀ y ∈ next x, y ∈ all → y ∈ found ∨ y ∈ stack)
    (ha : a ∈ depthFirst all next found stack) (hb : b ∈ next a) (hall : b ∈ all) :
    b ∈ depthFirst all next found stack := by
  fun_induction depthFirst all next found stack with
  | case1 found =>
      rcases hfound a ha b hb hall with hmem | hnil
      · exact hmem
      · exact absurd hnil List.not_mem_nil
  | case2 found c rest _ ih =>
      refine ih (fun x hx y hy hyall => ?_) ha
      rcases List.mem_append.mp hx with hx | hx
      · rcases hfound x hx y hy hyall with hmem | hmem
        · exact .inl (List.mem_append_left _ hmem)
        · -- what was on the stack is the node that is found now, or is on the stack still
          rcases List.mem_cons.mp hmem with rfl | hrest
          · exact .inl (List.mem_append_right _ (List.mem_singleton_self y))
          · exact .inr (List.mem_append_right _ hrest)
      · rw [List.mem_singleton.mp hx] at hy
        exact .inr (List.mem_append_left _ (List.mem_reverse.mpr hy))
  | case3 found c rest hold ih =>
      refine ih (fun x hx y hy hyall => ?_) ha
      rcases hfound x hx y hy hyall with hmem | hmem
      · exact .inl hmem
      · rcases List.mem_cons.mp hmem with rfl | hrest
        · by_cases hyfound : y ∈ found
          · exact .inl hyfound
          · exact absurd ⟨hyall, hyfound⟩ hold
        · exact .inr hrest

/-- The search finds **what steps inside the universe lead to** from what is on the
stack. The order in which nodes are found differs from the other search, but not which
are found. -/
theorem mem_depthFirst_iff :
    b ∈ depthFirst all next [] stack ↔
      ∃ a ∈ stack, a ∈ all ∧ Relation.ReflTransGen (fun x y => y ∈ next x ∧ y ∈ all) a b := by
  constructor
  · intro h
    refine depthFirst_sound
      (p := fun x => ∃ a ∈ stack, a ∈ all ∧
        Relation.ReflTransGen (fun x y => y ∈ next x ∧ y ∈ all) a x)
      (fun x hx => absurd hx List.not_mem_nil) (fun x hx hall => ⟨x, hx, hall, .refl⟩) ?_ h
    rintro x ⟨a, ha, hall, hpath⟩ y hy hyall
    exact ⟨a, ha, hall, hpath.tail ⟨hy, hyall⟩⟩
  · rintro ⟨a, ha, hall, hpath⟩
    induction hpath with
    | refl => exact mem_depthFirst_of_mem_stack ha hall
    | tail _ hstep ih =>
        exact depthFirst_closed (fun x hx => absurd hx List.not_mem_nil) ih hstep.1 hstep.2

end DepthFirst

end TreeGrammar
