/-
Going back over the children is exact.

A cursor restores three things in three ways when it goes back: the progress from a
snapshot, the violations by cutting the list off, the position by counting down.
Together they undo the latest step and nothing else. Whatever a caller asks of a cursor,
in any order, it is then where a new cursor is after as many steps forward as its
position says; so the child that it hands out next is the one of a single run from the
first child to the last.
-/
import TreeGrammar.Validation.ChildCursor

set_option autoImplicit false

namespace TreeGrammar

/-- What a caller asks of a cursor. -/
inductive Move where
  /-- Hand out the next child. -/
  | next
  /-- Go back by one child. -/
  | back
deriving DecidableEq, Repr

namespace ChildCursor

variable {r : ElementRule} {children : List Node}

/-- The cursor after **a move**; after the last child, or before the first, it stays
where it is. -/
def move (c : ChildCursor) : Move → ChildCursor
  | .next => (c.next?.map Prod.snd).getD c
  | .back => c.back?.getD c

/-- The cursor after moves, one after the other. -/
def afterMoves (c : ChildCursor) (moves : List Move) : ChildCursor := moves.foldl move c

/-! ## One step -/

@[simp] theorem items_take (c : ChildCursor) (item : Node × Option Slot) :
    (c.take item).2.items = c.items := by
  unfold take
  split
  · rfl
  · split
    · rfl
    · split <;> rfl

@[simp] theorem position_take (c : ChildCursor) (item : Node × Option Slot) :
    (c.take item).2.position = c.position + 1 := by
  unfold take
  split
  · rfl
  · split
    · rfl
    · split <;> rfl

/-- Going back **undoes a step**. A step adds at most one violation, at the end, so
cutting the violations off where the snapshot says leaves those from before it. -/
theorem back?_take (c : ChildCursor) (item : Node × Option Slot) :
    (c.take item).2.back? = some c := by
  have hall : c.errors.take c.errors.length = c.errors := List.take_length
  unfold take
  split
  · simp only [back?, snapshot, hall, Nat.add_sub_cancel]
  · split
    · simp only [back?, snapshot, hall, Nat.add_sub_cancel]
    · split
      · simp only [back?, snapshot, hall, Nat.add_sub_cancel]
      · simp only [back?, snapshot, List.take_left, Nat.add_sub_cancel]

/-- While children are left, moving on takes the next one. -/
theorem move_next_of_some {c : ChildCursor} {item : Node × Option Slot}
    (h : c.items[c.position]? = some item) : c.move .next = (c.take item).2 := by
  simp only [move, next?, h, Option.map_some, Option.getD_some]

/-- At the end moving on changes nothing, so that moves may be made in any number. -/
theorem move_next_of_none {c : ChildCursor} (h : c.items[c.position]? = none) :
    c.move .next = c := by
  simp only [move, next?, h, Option.map_none, Option.getD_none]

@[simp] theorem length_pairUp (slots : List Slot) (index : Nat) (ns : List Node) :
    (pairUp slots index ns).length = ns.length := by
  induction ns generalizing index with
  | nil => rfl
  | cons n rest ih => simp only [pairUp, List.length_cons, ih]

@[simp] theorem length_items_ofChildren (r : ElementRule) (children : List Node) :
    (ofChildren r children).items.length = children.length :=
  length_pairUp _ _ _

/-! ## Steps forward only -/

/-- A new cursor after **steps forward**. -/
def forward (r : ElementRule) (children : List Node) (k : Nat) : ChildCursor :=
  (ofChildren r children).afterMoves (List.replicate k .next)

theorem forward_succ (r : ElementRule) (children : List Node) (k : Nat) :
    forward r children (k + 1) = (forward r children k).move .next := by
  unfold forward afterMoves
  rw [List.replicate_succ', List.foldl_append]
  rfl

/-- As long as there are children, each step forward **takes one**: the children stay,
and the position is the number of steps. -/
theorem items_position_forward {k : Nat} (hk : k ≤ children.length) :
    (forward r children k).items = (ofChildren r children).items ∧
    (forward r children k).position = k := by
  induction k with
  | zero => exact ⟨rfl, rfl⟩
  | succ k ih =>
      obtain ⟨hitems, hposition⟩ := ih (by omega)
      have hlt : k < (ofChildren r children).items.length := by
        rw [length_items_ofChildren]
        omega
      have hitem : (forward r children k).items[(forward r children k).position]? =
          some (ofChildren r children).items[k] := by
        rw [hitems, hposition, List.getElem?_eq_getElem hlt]
      rw [forward_succ, move_next_of_some hitem, items_take, position_take, hitems, hposition]
      exact ⟨rfl, rfl⟩

/-- The child to be handed out after steps forward. The items of a cursor do not change,
only its position does. -/
theorem getElem?_items_forward {k : Nat} (hk : k ≤ children.length) :
    (forward r children k).items[(forward r children k).position]? =
      (ofChildren r children).items[k]? := by
  obtain ⟨hitems, hposition⟩ := items_position_forward (r := r) hk
  rw [hitems, hposition]

/-- The next step forward, written out. -/
theorem forward_succ_of_lt {k : Nat} (hk : k < children.length) :
    ∃ item, (ofChildren r children).items[k]? = some item ∧
      forward r children (k + 1) = ((forward r children k).take item).2 := by
  have hlt : k < (ofChildren r children).items.length := by rwa [length_items_ofChildren]
  have hitem := getElem?_items_forward (r := r) (Nat.le_of_lt hk)
  rw [List.getElem?_eq_getElem hlt] at hitem
  exact ⟨_, List.getElem?_eq_getElem hlt, by rw [forward_succ, move_next_of_some hitem]⟩

/-- Going back from steps forward leads to **one step less**. The whole cursor is the
one that was there before the step, violations included. -/
theorem back?_forward_succ {k : Nat} (hk : k < children.length) :
    (forward r children (k + 1)).back? = some (forward r children k) := by
  obtain ⟨item, -, hforward⟩ := forward_succ_of_lt (r := r) hk
  rw [hforward, back?_take]

/-- Only a cursor before the first child **cannot go back**. -/
theorem back?_forward_eq_none_iff {k : Nat} (hk : k ≤ children.length) :
    (forward r children k).back? = none ↔ k = 0 := by
  cases k with
  | zero => exact ⟨fun _ => rfl, fun _ => rfl⟩
  | succ k => simp [back?_forward_succ (r := r) hk]

/-! ## Moves in any order -/

/-- A move from steps forward leads to **steps forward**, one more or one less or as
many. There is one case for each move, at the ends and between them. -/
theorem exists_move_forward {k : Nat} (hk : k ≤ children.length) (m : Move) :
    ∃ j ≤ children.length, (forward r children k).move m = forward r children j := by
  cases m with
  | next =>
      rcases Nat.lt_or_eq_of_le hk with hlt | rfl
      · exact ⟨k + 1, hlt, (forward_succ r children k).symm⟩
      · refine ⟨children.length, Nat.le_refl _, move_next_of_none ?_⟩
        rw [getElem?_items_forward hk]
        exact List.getElem?_eq_none_iff.mpr (Nat.le_of_eq (length_items_ofChildren r children))
  | back =>
      cases k with
      | zero => exact ⟨0, Nat.zero_le _, rfl⟩
      | succ k => exact ⟨k, by omega, by simp only [move, back?_forward_succ hk, Option.getD_some]⟩

/-- Moves in any order lead to **steps forward**. The induction is on the moves. -/
theorem exists_afterMoves_forward {k : Nat} (hk : k ≤ children.length) (moves : List Move) :
    ∃ j ≤ children.length, (forward r children k).afterMoves moves = forward r children j := by
  induction moves generalizing k with
  | nil => exact ⟨k, hk, rfl⟩
  | cons m rest ih =>
      obtain ⟨i, hi, hmove⟩ := exists_move_forward (r := r) hk m
      obtain ⟨j, hj, hrest⟩ := ih hi
      exact ⟨j, hj, by rw [← hrest, ← hmove]; rfl⟩

/-! ## What is handed out -/

/-- Taking some of the children one after the other is **as many steps forward**. It
joins the cursor that is moved about to the run that goes straight through. -/
theorem takeAll_take_items {k : Nat} (hk : k ≤ children.length) :
    ((ofChildren r children).takeAll ((ofChildren r children).items.take k)).2 =
      forward r children k := by
  have happend (c : ChildCursor) (items : List (Node × Option Slot)) (item : Node × Option Slot) :
      (c.takeAll (items ++ [item])).2 = ((c.takeAll items).2.take item).2 := by
    induction items generalizing c with
    | nil => rfl
    | cons first rest ih => exact ih (c.take first).2
  induction k with
  | zero => rfl
  | succ k ih =>
      obtain ⟨item, hitem, hforward⟩ := forward_succ_of_lt (r := r) hk
      rw [List.take_add_one, hitem, Option.toList_some, happend, ih (by omega), hforward]

/-- What is handed out for each of some items. -/
theorem getElem?_takeAll (c : ChildCursor) (items : List (Node × Option Slot)) (k : Nat) :
    (c.takeAll items).1[k]? = items[k]?.map
      fun item => ((c.takeAll (items.take k)).2.take item).1 := by
  induction items generalizing c k with
  | nil => rfl
  | cons first rest ih =>
      cases k with
      | zero => rfl
      | succ k => exact ih (c.take first).2 k

/-- What a cursor hands out next is **what a single run hands out** at its position. So
what comes out does not depend on how the position was reached. -/
theorem next?_forward {k : Nat} (hk : k ≤ children.length) :
    (forward r children k).next?.map Prod.fst = (ofChildren r children).rest.1[k]? := by
  have hrest :
      (ofChildren r children).rest = (ofChildren r children).takeAll
        (ofChildren r children).items := rfl
  rw [hrest, getElem?_takeAll, next?, getElem?_items_forward hk, takeAll_take_items hk,
    Option.map_map]
  rfl

/-- **Rewinding is exact.** After any moves, forward and back in any order, a cursor is
at a position among the children and is equal, with its progress, its violations and its
history, to a new cursor after that many steps forward. It cannot go back only before
the first child. What it hands out next is what a single run over the children hands out
at that position, whichever way the cursor came there. -/
theorem afterMoves_eq_forward (r : ElementRule) (children : List Node) (moves : List Move) :
    let c := (ofChildren r children).afterMoves moves
    c.position ≤ children.length ∧
      c = (ofChildren r children).afterMoves (List.replicate c.position .next) ∧
      (c.back? = none ↔ c.position = 0) ∧
      c.next?.map Prod.fst = (ofChildren r children).rest.1[c.position]? := by
  obtain ⟨k, hk, hmoves⟩ := exists_afterMoves_forward (r := r) (Nat.zero_le children.length) moves
  have hstart :
      (forward r children 0).afterMoves moves = (ofChildren r children).afterMoves moves := rfl
  rw [hstart] at hmoves
  intro c
  have hc : c = forward r children k := hmoves
  have hposition : c.position = k := by rw [hc, (items_position_forward hk).2]
  rw [hposition, hc]
  exact ⟨hk, rfl, back?_forward_eq_none_iff hk, next?_forward hk⟩

end ChildCursor

end TreeGrammar
