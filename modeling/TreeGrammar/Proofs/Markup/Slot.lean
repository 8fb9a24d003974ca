/-
The slots of children, one child at a time.

The slots of a list of children are made with the run of text that is still open in
hand, and a slot is there only once its run has ended. Who goes through the children one
by one needs to know at each child which slot starts there, with its run to the end.
Here a run is closed by looking ahead, the slots that start at the children are listed
child by child, and that list is shown to be the same. A slot stands for the element at
its index, or for the text that begins there, parted from the element before it by
comments only.
-/
import TreeGrammar.Markup.Slot

set_option autoImplicit false

namespace TreeGrammar.Slot

/-! ## Runs to their end -/

/-- An open run with the text that follows, **up to the next element**. -/
def closeRun (run : Slot) (index : Nat) : List Node → Slot
  | [] => run
  | .comment _ :: rest => closeRun run (index + 1) rest
  | .text s :: rest => closeRun (run.extendRun index s) (index + 1) rest
  | .element .. :: _ => run

/-- The texts before the first element. -/
def leadingTexts : List Node → List String
  | [] => []
  | .comment _ :: rest => leadingTexts rest
  | .text s :: rest => s :: leadingTexts rest
  | .element .. :: _ => []

@[simp] theorem index_extendRun (run : Slot) (index : Nat) (s : String) :
    (run.extendRun index s).index = run.index := rfl

@[simp] theorem token_extendRun (run : Slot) (index : Nat) (s : String) :
    (run.extendRun index s).token = run.token := rfl

/-- A run keeps **the index it began at**, however far it goes. Only its last index and its
blankness change. -/
@[simp] theorem index_closeRun (run : Slot) (index : Nat) (ns : List Node) :
    (closeRun run index ns).index = run.index := by
  induction ns generalizing run index with
  | nil => rfl
  | cons n rest ih => cases n <;> simp [closeRun, ih]

@[simp] theorem token_closeRun (run : Slot) (index : Nat) (ns : List Node) :
    (closeRun run index ns).token = run.token := by
  induction ns generalizing run index with
  | nil => rfl
  | cons n rest ih => cases n <;> simp [closeRun, ih]

/-- The run that is open after a text node: the one before with the text,
or a new one. -/
def grow (run : Option Slot) (index : Nat) (s : String) : Slot :=
  match run with
  | none => startRun index s
  | some run => run.extendRun index s

/-- A text is never a slot of its own: it **goes into the open run**, or begins one. Proofs
by induction on the children read a text in this form. -/
theorem ofNodesFrom_text (index : Nat) (run : Option Slot) (s : String) (rest : List Node) :
    ofNodesFrom index run (.text s :: rest) = ofNodesFrom (index + 1)
      (some (grow run index s)) rest := by
  cases run <;> rfl

/-- An open run stays a run **of text**. -/
theorem token_grow {run : Option Slot} (h : ∀ before ∈ run, before.token = .text)
    (index : Nat) (s : String) : (grow run index s).token = .text := by
  cases run with
  | none => rfl
  | some before => exact h before rfl

/-- An open run is blank exactly if **the run before and the new text are**. With no run
before, the text alone decides. -/
theorem blank_grow_iff {run : Option Slot} {index : Nat} {s : String} :
    (grow run index s).blank = true ↔ (∀ before ∈ run, before.blank = true) ∧ isBlank s = true := by
  cases run with
  | none => simp [grow, startRun]
  | some before => simp [grow, extendRun]

/-- A closed run is blank if the open one was and every text up to the next
element is. -/
theorem blank_closeRun (run : Slot) (index : Nat) (ns : List Node) :
    (closeRun run index ns).blank = (run.blank && (leadingTexts ns).all isBlank) := by
  induction ns generalizing run index with
  | nil => simp [closeRun, leadingTexts]
  | cons n rest ih =>
      cases n with
      | element => simp [closeRun, leadingTexts]
      | text s => simp [closeRun, leadingTexts, ih, extendRun, Bool.and_assoc]
      | comment s => simp [closeRun, leadingTexts, ih]

/-! ## The slots that start at each child -/

/-- For each child the slot that **starts** there, if one does. Whether a run of text is
open before the first of them is given. -/
def starts (isOpen : Bool) (index : Nat) : List Node → List (Option Slot)
  | [] => []
  | .comment _ :: rest => none :: starts isOpen (index + 1) rest
  | .text s :: rest =>
      (if isOpen then none else some (closeRun (startRun index s) (index + 1) rest)) ::
        starts true (index + 1) rest
  | .element tag _ _ :: rest =>
      some ⟨index, index, .element tag, false⟩ :: starts false (index + 1) rest

/-- There is one entry for each child, so that children and slots can be gone through
together. Children without a slot of their own have an empty entry. -/
theorem length_starts (isOpen : Bool) (index : Nat) (ns : List Node) :
    (starts isOpen index ns).length = ns.length := by
  induction ns generalizing isOpen index with
  | nil => rfl
  | cons n rest ih => cases n <;> simp [starts, ih]

/-- The slots of children are **those that start at them**, after the run that was
open before them. The cursor looks the slots up by child, while a review takes
them in a list. -/
theorem ofNodesFrom_eq (index : Nat) (run : Option Slot) (ns : List Node) :
    ofNodesFrom index run ns = (run.map fun run => closeRun run index ns).toList
      ++ (starts run.isSome index ns).filterMap id := by
  induction ns generalizing index run with
  | nil => cases run <;> rfl
  | cons n rest ih =>
      cases n with
      | comment s => rw [ofNodesFrom, ih]; rfl
      | text s =>
          rw [ofNodesFrom_text, ih]
          cases run <;> rfl
      | element tag attributes children =>
          rw [ofNodesFrom, ih]
          cases run <;> rfl

/-- The slots are the entries that are there. This is the form in which the cursor over
children sees them. -/
theorem ofNodes_eq (children : List Node) :
    ofNodes children = (starts false 0 children).filterMap id :=
  ofNodesFrom_eq 0 none children

/-- No slot stands before the first of the children. -/
theorem le_index_of_mem_starts {isOpen : Bool} {index : Nat} {ns : List Node} {slot : Slot}
    (h : some slot ∈ starts isOpen index ns) : index ≤ slot.index := by
  induction ns generalizing isOpen index with
  | nil => cases h
  | cons n rest ih =>
      have later {isOpen : Bool} (h : some slot ∈ starts isOpen (index + 1) rest) :
          index ≤ slot.index :=
        Nat.le_of_succ_le (ih h)
      -- only a text that opens a run and an element start a slot here
      cases n with
      | comment s =>
          rcases List.mem_cons.mp h with h | h
          · cases h
          · exact later h
      | text s =>
          rcases List.mem_cons.mp h with h | h
          · cases isOpen
            · cases h
              rw [index_closeRun]
              exact Nat.le_refl index
            · cases h
          · exact later h
      | element tag attributes children =>
          rcases List.mem_cons.mp h with h | h
          · cases h
            exact Nat.le_refl index
          · exact later h

/-! ## The text of a run -/

/-- The texts of a run after its first, among the children it is a run of. -/
def tail (slot : Slot) (children : List Node) : List String :=
  leadingTexts ((children.drop (slot.index + 1)).take (slot.last - slot.index))

/-- Closing a run can only **move its end back**, towards the end of the children. -/
theorem le_last_closeRun (run : Slot) {index : Nat} (h : run.last < index) (ns : List Node) :
    run.last ≤ (closeRun run index ns).last := by
  induction ns generalizing run index with
  | nil => exact Nat.le_refl run.last
  | cons n rest ih =>
      cases n with
      | element => exact Nat.le_refl run.last
      | comment s => exact ih run (Nat.lt_succ_of_lt h)
      | text s =>
          have hlonger := ih (run.extendRun index s) (Nat.lt_succ_self index)
          exact Nat.le_trans (Nat.le_of_lt h) hlonger

/-- Up to the last node of a closed run there are all texts before the next element. -/
theorem leadingTexts_take_closeRun (run : Slot) {index : Nat} (h : run.last < index)
    (ns : List Node) : leadingTexts (ns.take ((closeRun run index ns).last + 1 - index)) =
      leadingTexts ns := by
  induction ns generalizing run index with
  | nil => rw [List.take_nil]
  | cons n rest ih =>
      cases n with
      | element tag attributes children =>
          have hend : (closeRun run index (.element tag attributes children :: rest)).last +
              1 - index = 0 :=
            Nat.sub_eq_zero_of_le h
          rw [hend]
          rfl
      | comment s =>
          have hrest := ih run (Nat.lt_succ_of_lt h)
          rw [Nat.add_sub_add_right] at hrest
          rw [closeRun, leadingTexts, ← hrest]
          -- either the run ends before the comment, or one node fewer of the rest is left
          -- to take
          rcases Nat.lt_or_ge (closeRun run (index + 1) rest).last index with hbefore | hafter
          · rw [Nat.sub_eq_zero_of_le hbefore, Nat.sub_eq_zero_of_le (Nat.le_of_lt hbefore)]
            rfl
          · rw [Nat.succ_sub hafter]
            rfl
      | text s =>
          have hrest := ih (run.extendRun index s) (Nat.lt_succ_self index)
          have hlast : index ≤ (closeRun (run.extendRun index s) (index + 1) rest).last :=
            le_last_closeRun (run.extendRun index s) (Nat.lt_succ_self index) rest
          rw [Nat.add_sub_add_right] at hrest
          rw [closeRun, leadingTexts, ← hrest, Nat.succ_sub hlast]
          rfl

/-- Behind the first node of a run, its tail is **the text that follows**, comments left
out. The cursor hands that text out with its first node. -/
theorem tail_closeRun_startRun (before : List Node) (s : String) (rest : List Node) :
    (closeRun (startRun before.length s) (before.length + 1) rest).tail
      (before ++ .text s :: rest) = leadingTexts rest := by
  have htake :=
    leadingTexts_take_closeRun (startRun before.length s) (Nat.lt_succ_self before.length) rest
  rw [Nat.add_sub_add_right] at htake
  have hdrop : (before ++ Node.text s :: rest).drop (before.length + 1) = rest := by
    rw [List.drop_length_add_append]
    rfl
  rw [tail, index_closeRun]
  show leadingTexts (List.take _ (List.drop (before.length + 1) _)) = _
  rw [hdrop]
  exact htake

/-! ## What a slot stands for -/

/-- A token **begins at** an index of children: an element of its name is there, or a
text which only comments part from the last element before it, or from the start. -/
inductive BeginsAt (children : List Node) : Token → Nat → Prop
  | element {before after inner : List Node} {tag : String} {attributes : Attributes}
      (h : children = before ++ .element tag attributes inner :: after) :
      BeginsAt children (.element tag) before.length
  | text {before gap after : List Node} {s : String}
      (h : children = before ++ gap ++ .text s :: after) (hgap : ∀ n ∈ gap, n.isComment = true)
      (hbefore : ∀ n ∈ before.getLast?, n.element?.isSome = true) :
      BeginsAt children .text (before ++ gap).length

/-- Every slot made of the nodes after a point begins at its index, if the open run does
and, where there is none, only comments have come since the last element. -/
theorem beginsAt_of_mem_ofNodesFrom {children before gap ns : List Node}
    {run : Option Slot} {slot : Slot} (hchildren : children = before ++ gap ++ ns)
    (hrun : ∀ openRun ∈ run, BeginsAt children openRun.token openRun.index)
    (hbefore : ∀ n ∈ before.getLast?, n.element?.isSome = true)
    (hgap : run = none → ∀ n ∈ gap, n.isComment = true)
    (h : slot ∈ ofNodesFrom (before ++ gap).length run ns) :
    BeginsAt children slot.token slot.index := by
  -- the gap holds what stands between the last element and the nodes: only comments, unless a
  -- run is open
  induction ns generalizing before gap run with
  | nil =>
      rw [ofNodesFrom, Option.mem_toList] at h
      exact hrun slot h
  | cons n rest ih =>
      have hlength : (before ++ gap).length + 1 = (before ++ (gap ++ [n])).length := by
        simp only [List.length_append, List.length_singleton, Nat.add_assoc]
      have hsplit : children = before ++ (gap ++ [n]) ++ rest := by
        rw [hchildren]
        simp only [List.append_assoc, List.singleton_append]
      cases n with
      | comment s =>
          rw [ofNodesFrom, hlength] at h
          refine ih hsplit hrun hbefore (fun hnone n hn => ?_) h
          rcases List.mem_append.mp hn with hn | hn
          · exact hgap hnone n hn
          · cases List.mem_singleton.mp hn
            rfl
      | text s =>
          rw [ofNodesFrom_text, hlength] at h
          refine ih hsplit (fun openRun hopen => ?_) hbefore (fun hnone => by cases hnone) h
          cases hopen
          cases run with
          | some run => exact hrun run rfl
          | none => exact .text hchildren (hgap rfl) hbefore
      | element tag attributes inner =>
          rw [ofNodesFrom] at h
          rcases List.mem_append.mp h with h | h
          · exact hrun slot (Option.mem_toList.mp h)
          · rcases List.mem_cons.mp h with rfl | h
            · exact .element hchildren
            · rw [hlength, ← List.append_nil (before ++ _)] at h
              rw [← List.append_nil (before ++ _)] at hsplit
              refine ih hsplit (fun openRun hopen => by cases hopen) (fun n hn => ?_)
                (fun _ n hn => by cases hn) h
              rw [← List.append_assoc, List.getLast?_concat] at hn
              cases hn
              rfl

/-- Each slot begins at the child that its index says, an element of its name or the
first text of a run. -/
theorem beginsAt_of_mem_ofNodes {children : List Node} {slot : Slot} (h : slot ∈ ofNodes children) :
    BeginsAt children slot.token slot.index :=
  @beginsAt_of_mem_ofNodesFrom children [] [] children none slot rfl (fun _ h => by cases h)
    (fun _ h => by cases h) (fun _ _ h => by cases h) h

end TreeGrammar.Slot
