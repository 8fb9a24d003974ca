/-
Where a child can be inserted.

The search for a place among children looks at the tokens that are kept, finds a
boundary between them, and answers with an index that the boundary stands for. An index
that goes through no kept run of text stands for one boundary, and the answer is the
outermost index that stands for the boundary found; so for an element the search finds,
among all such indexes, what trying each of them would find (`finds_insertion_element`).

For text it does not. The search counts the new text as a token of its own, which it is
only where it meets no other text: otherwise it joins the run that is there, and the
children are as complete, or as incomplete, as they were
(`review_insert_text_eq_nil_iff`).
-/
import TreeGrammar.Proofs.Compile.Workshop
import TreeGrammar.Proofs.Content.Insertion
import TreeGrammar.Proofs.Markup.Cut
import TreeGrammar.Proofs.Validation.Drained

set_option autoImplicit false

namespace TreeGrammar

/-! ## Indexes and boundaries -/

/-- What is put in at the length of a front part stands **between the front part and the
rest**. This is how an insertion index turns into a division of the children. -/
theorem insertIdx_append_length {α : Type} (before after : List α) (x : α) :
    (before ++ after).insertIdx before.length x = before ++ x :: after := by
  induction before with
  | nil => exact List.insertIdx_zero
  | cons y before ih =>
      rw [List.cons_append, List.length_cons, List.insertIdx_succ_cons, ih, List.cons_append]

theorem exists_eq_append_of_le {α : Type} {l : List α} {i : Nat} (hi : i ≤ l.length) :
    ∃ before after, l = before ++ after ∧ i = before.length :=
  ⟨l.take i, l.drop i, (List.take_append_drop i l).symm, (List.length_take_of_le hi).symm⟩

namespace Slot

/-- The index **parts** the slots at a boundary: those before the boundary end before
the index, the others begin at it or behind it. -/
structure DividesAt (slots : List Slot) (i boundary : Nat) : Prop where
  before : ∀ {k : Nat} {slot : Slot}, slots[k]? = some slot → k < boundary → slot.last < i
  after : ∀ {k : Nat} {slot : Slot}, slots[k]? = some slot → boundary ≤ k → i ≤ slot.index

variable {slots front back : List Slot} {slot next : Slot}
  {length i j k l boundary boundary' : Nat} {side : Side}

/-- Of two slots in order the first ends before the second begins. -/
theorem Ordered.lt (h : Ordered length slots) (hslot : slots[k]? = some slot)
    (hnext : slots[l]? = some next) (hkl : k < l) : slot.last < next.index := by
  obtain ⟨hk, rfl⟩ := List.getElem?_eq_some_iff.mp hslot
  obtain ⟨hl, rfl⟩ := List.getElem?_eq_some_iff.mp hnext
  exact List.pairwise_iff_getElem.mp h.pairwise k l hk hl hkl

/-- Each slot of an ordered list **ends within** the children. -/
theorem Ordered.endsBefore_of_getElem? (h : Ordered length slots) (hslot : slots[k]? = some slot) :
    slot.EndsBefore length :=
  h.endsBefore slot (List.mem_of_getElem? hslot)

/-- An index parts the slots of **the nodes on its two sides**, and so those of them
that are kept. Which nodes a slot was made from is seen from its index. -/
theorem dividesAt_append {before after : List Node} (hfront : front.Sublist (ofNodes before))
    (hback : back.Sublist (ofNodesFrom before.length none after)) :
    DividesAt (front ++ back) before.length front.length where
  before hslot hk := by
    rw [List.getElem?_append_left hk] at hslot
    exact ((ordered_ofNodes before).endsBefore _ (hfront.subset (List.mem_of_getElem? hslot))).2
  after hslot hk := by
    rw [List.getElem?_append_right hk] at hslot
    exact le_index_of_mem_ofNodesFrom (hback.subset (List.mem_of_getElem? hslot))

/-- An index divides slots at **one boundary only**: were there two, a slot between them
would stand on both sides. -/
theorem DividesAt.le (h : DividesAt slots i boundary) (h' : DividesAt slots i boundary')
    (hordered : Ordered length slots) (hboundary : boundary ≤ slots.length) :
    boundary ≤ boundary' := by
  by_contra hlt
  have hbetween : boundary' < slots.length := by omega
  have hslot := List.getElem?_eq_getElem hbetween
  -- the slot at the lower boundary would lie on both sides of the index
  have hbefore := h.before hslot (by omega)
  have hafter := h'.after hslot (Nat.le_refl boundary')
  have hends := hordered.endsBefore_of_getElem? hslot
  exact Nat.lt_irrefl i (Nat.lt_of_le_of_lt hafter (Nat.lt_of_le_of_lt hends.1 hbefore))

/-- Every slot lies **wholly on one side** of a place that divides the slots. No run of text
is cut in two there. -/
theorem DividesAt.beside (h : DividesAt slots i boundary) (hslot : slot ∈ slots) :
    slot.last < i ∨ i ≤ slot.index := by
  obtain ⟨k, hk⟩ := List.getElem?_of_mem hslot
  rcases Nat.lt_or_ge k boundary with hlt | hge
  · exact .inl (h.before hk hlt)
  · exact .inr (h.after hk hge)

/-- An index stands for **one boundary** only. Two boundaries would have a slot between
them, which is on both sides of the index. -/
theorem DividesAt.unique (h : DividesAt slots i boundary) (h' : DividesAt slots i boundary')
    (hordered : Ordered length slots) (hboundary : boundary ≤ slots.length)
    (hboundary' : boundary' ≤ slots.length) : boundary = boundary' :=
  Nat.le_antisymm (h.le h' hordered hboundary) (h'.le h hordered hboundary')

/-- An index that parts the slots of children **goes through no run**: there is not text
on both sides of it. -/
theorem DividesAt.apart {before after : List Node}
    (h : DividesAt (ofNodes (before ++ after)) before.length boundary) :
    leadingTexts before.reverse = [] ∨ leadingTexts after = [] := by
  by_contra hboth
  obtain ⟨hbefore, hafter⟩ := not_or.mp hboth
  obtain ⟨front, first, whole, second, back, -, -, hall, hinside, -⟩ :=
    exists_ofNodes_append_of_meet hbefore hafter
  have hmem : whole ∈ ofNodes (before ++ after) := by
    rw [hall]
    exact List.mem_append_right _ List.mem_cons_self
  have hside := h.beside hmem
  omega

/-- The slots before the boundary are those of the nodes before the index. -/
theorem DividesAt.eq_length {before after : List Node}
    (h : DividesAt (ofNodes (before ++ after)) before.length boundary)
    (hboundary : boundary ≤ (ofNodes (before ++ after)).length) :
    boundary = (ofNodes before).length := by
  have hsides := ofNodes_append_of_apart h.apart
  have hcut : DividesAt (ofNodes (before ++ after)) before.length (ofNodes before).length := by
    rw [hsides]
    exact dividesAt_append (List.Sublist.refl _) (List.Sublist.refl _)
  have hle : (ofNodes before).length ≤ (ofNodes (before ++ after)).length := by
    rw [hsides, List.length_append]
    exact Nat.le_add_right _ _
  exact h.unique hcut (ordered_ofNodes _) hboundary hle

end Slot

namespace ElementRule

open Slot

section

variable {slots : List Slot} {slot : Slot} {length j boundary boundary' : Nat} {side : Side}

/-- Behind a slot, the first index is **right after its last node**, before any comments
that follow. -/
theorem indexOfBoundary_first_succ (h : slots[boundary]? = some slot) :
    indexOfBoundary slots length .first (boundary + 1) = slot.last + 1 := by
  rw [indexOfBoundary, h, Option.elim_some]

theorem indexOfBoundary_last_of_some (h : slots[boundary]? = some slot) :
    indexOfBoundary slots length .last boundary = slot.index := by
  rw [indexOfBoundary, h, Option.elim_some]

theorem indexOfBoundary_last_of_none (h : slots[boundary]? = none) :
    indexOfBoundary slots length .last boundary = length := by
  rw [indexOfBoundary, h, Option.elim_none]

/-- The index that is taken for a boundary **stands for it**. The search is for a
boundary between tokens, and the answer is an index among children. -/
theorem dividesAt_indexOfBoundary (h : Ordered length slots) (hboundary : boundary ≤ slots.length)
    (side : Side) : indexOfBoundary slots length side boundary ≤ length ∧
      DividesAt slots (indexOfBoundary slots length side boundary) boundary := by
  cases side with
  | first =>
      cases boundary with
      | zero =>
          exact ⟨Nat.zero_le length, fun _ hk => absurd hk (Nat.not_lt_zero _),
            fun _ _ => Nat.zero_le _⟩
      | succ b =>
          -- the index behind the last slot before the boundary
          have hslot := List.getElem?_eq_getElem (show b < slots.length from hboundary)
          have hends := h.endsBefore_of_getElem? hslot
          rw [indexOfBoundary_first_succ hslot]
          refine ⟨hends.2, fun {k slot} hk hlt => ?_, fun {k slot} hk hle => h.lt hslot hk hle⟩
          rcases Nat.lt_succ_iff_lt_or_eq.mp hlt with hlt | rfl
          · have hbefore := h.lt hk hslot hlt
            exact Nat.lt_succ_of_lt (Nat.lt_of_lt_of_le hbefore hends.1)
          · rw [hslot] at hk
            cases hk
            exact Nat.lt_succ_self _
  | last =>
      cases hslot : slots[boundary]? with
      | some slot =>
          -- the index of the first slot behind the boundary
          have hends := h.endsBefore_of_getElem? hslot
          rw [indexOfBoundary_last_of_some hslot]
          refine ⟨Nat.le_of_lt (Nat.lt_of_le_of_lt hends.1 hends.2),
            fun hk hlt => h.lt hk hslot hlt, fun {k next} hk hle => ?_⟩
          rcases Nat.lt_or_eq_of_le hle with hlt | rfl
          · have hbehind := h.lt hslot hk hlt
            exact Nat.le_of_lt (Nat.lt_of_le_of_lt hends.1 hbehind)
          · rw [hslot] at hk
            cases hk
            exact Nat.le_refl _
      | none =>
          have hend : slots.length ≤ boundary := List.getElem?_eq_none_iff.mp hslot
          rw [indexOfBoundary_last_of_none hslot]
          refine ⟨Nat.le_refl length, fun hk _ => (h.endsBefore_of_getElem? hk).2, fun hk hle => ?_⟩
          rw [List.getElem?_eq_none (Nat.le_trans hend hle)] at hk
          cases hk

/-- Of all indexes that stand for a boundary or for one farther from the side, **none
lies nearer** than the index that is taken for it. -/
theorem indexOfBoundary_le (h : DividesAt slots j boundary') (hj : j ≤ length)
    (hboundary : boundary ≤ slots.length) (hle : side.le boundary boundary') :
    side.le (indexOfBoundary slots length side boundary) j := by
  cases side with
  | first =>
      cases boundary with
      | zero => exact Nat.zero_le j
      | succ b =>
          have hslot := List.getElem?_eq_getElem (show b < slots.length from hboundary)
          rw [indexOfBoundary_first_succ hslot]
          exact h.before hslot hle
  | last =>
      cases hslot : slots[boundary]? with
      | none =>
          rw [indexOfBoundary_last_of_none hslot]
          exact hj
      | some slot =>
          rw [indexOfBoundary_last_of_some hslot]
          exact h.after hslot hle

end

/-! ## The tokens that are kept -/

/-- Whether a slot counts for an insertion. -/
def keeps (r : ElementRule) (slot : Slot) : Bool := r.content.isTextAllowed || !slot.blank

/-- The tokens of the slots that count for an insertion. -/
def keptTokens (r : ElementRule) (children : List Node) : List Token :=
  (r.keptSlots children).map Slot.token

/-- Each kept slot lies **on one side** of the index; so does each kept run of text. -/
def CutsNoRun (r : ElementRule) (children : List Node) (i : Nat) : Prop :=
  ∀ slot ∈ r.keptSlots children, slot.last < i ∨ i ≤ slot.index

variable {r : ElementRule} {children before after inner : List Node} {tag : String}
  {attributes : Attributes} {i : Nat}

/-- Leaving out blank slots **keeps the order** of the others. -/
theorem ordered_keptSlots (r : ElementRule) (children : List Node) :
    Ordered children.length (r.keptSlots children) :=
  (ordered_ofNodes children).sublist List.filter_sublist

/-- Where no kept run is cut, the kept slots are **those of the two sides**. A run that
is cut has text on both sides of the index. -/
theorem keptSlots_append (h : r.CutsNoRun (before ++ after) before.length) :
    r.keptSlots (before ++ after) =
      (ofNodes before).filter r.keeps ++ (ofNodesFrom before.length none after).filter r.keeps := by
  show (ofNodes (before ++ after)).filter r.keeps = _
  by_cases hmeet : leadingTexts before.reverse ≠ [] ∧ leadingTexts after ≠ []
  · obtain ⟨front, first, whole, second, back, hbefore, hafter, hall, hinside, hblank⟩ :=
      exists_ofNodes_append_of_meet hmeet.1 hmeet.2
    -- the run that is cut is not kept, so it is blank, and so are its two parts
    have hdropped : ¬ r.keeps whole = true := by
      intro hkept
      have hmem : whole ∈ ofNodes (before ++ after) := by
        rw [hall]
        exact List.mem_append_right _ List.mem_cons_self
      have hside := h whole (List.mem_filter.mpr ⟨hmem, hkept⟩)
      omega
    have hdivides : ¬ r.keeps first = true ∧ ¬ r.keeps second = true := by
      simp only [keeps, hblank, Bool.or_eq_true, Bool.not_eq_true',
        Bool.and_eq_false_iff] at hdropped ⊢
      tauto
    rw [hall, hbefore, hafter, List.filter_append, List.filter_append,
      List.filter_cons_of_neg hdropped, List.filter_cons_of_neg hdivides.1,
        List.filter_cons_of_neg hdivides.2, List.filter_nil, List.append_nil]
  · have hapart : leadingTexts before.reverse = [] ∨ leadingTexts after = [] := by
      rcases not_and_or.mp hmeet with hbefore | hafter
      · exact .inl (not_not.mp hbefore)
      · exact .inr (not_not.mp hafter)
    rw [ofNodes_append_of_apart hapart, List.filter_append]

/-- Which tokens are kept, the marks of the slots tell. -/
theorem map_token_filter_keeps (r : ElementRule) {slots slots' : List Slot}
    (h : slots.map mark = slots'.map mark) :
    (slots.filter r.keeps).map token = (slots'.filter r.keeps).map token := by
  have hmarks (slots : List Slot) : (slots.filter r.keeps).map token =
      ((slots.map mark).filter fun m => r.content.isTextAllowed || !m.2).map Prod.fst := by
    rw [List.filter_map, List.map_map]
    rfl
  rw [hmarks, hmarks, h]

/-- Where no kept run is cut, an index stands for a boundary, and an element inserted
there has its token **at that boundary** of the kept tokens. -/
theorem exists_keptTokens_insert_element (tag : String) (attributes : Attributes)
    (inner : List Node) (h : r.CutsNoRun (before ++ after) before.length) :
    ∃ boundary ≤ (r.keptSlots (before ++ after)).length,
      DividesAt (r.keptSlots (before ++ after)) before.length boundary ∧
      r.keptTokens (before ++ .element tag attributes inner :: after) =
        (r.keptTokens (before ++ after)).take boundary ++
          .element tag :: (r.keptTokens (before ++ after)).drop boundary := by
  -- the boundary lies behind the kept slots of the nodes before the index
  have hkept := keptSlots_append h
  refine ⟨((ofNodes before).filter r.keeps).length, ?_, ?_, ?_⟩
  · rw [hkept, List.length_append]
    exact Nat.le_add_right _ _
  · rw [hkept]
    exact dividesAt_append List.filter_sublist List.filter_sublist
  · have hinserted : r.keptSlots (before ++ .element tag attributes inner :: after) =
        (ofNodes before).filter r.keeps ++ ⟨before.length, before.length, .element tag, false⟩ ::
          (ofNodesFrom (before.length + 1) none after).filter r.keeps := by
      show (ofNodes _).filter r.keeps = _
      rw [ofNodes_insert_element, List.filter_append, List.filter_cons_of_pos (by simp [keeps])]
    have hmoved :=
      r.map_token_filter_keeps (marks_ofNodesFrom (before.length + 1) before.length after)
    unfold keptTokens
    rw [hinserted, hkept, List.map_append, List.map_append, List.map_cons, hmoved,
      List.take_left' (List.length_map _), List.drop_left' (List.length_map _)]

/-- An element can go to an index, if no kept run is cut there, exactly if its token can
go to **the boundary** that the index stands for. -/
theorem accepts_insert_element_iff (hi : i ≤ children.length) :
    (r.CutsNoRun children i ∧
        r.content.accepts (r.keptTokens (children.insertIdx i (.element tag attributes inner))) =
          true) ↔
      ∃ boundary ≤ (r.keptSlots children).length, DividesAt (r.keptSlots children) i boundary ∧
        r.content.acceptsWith (r.keptTokens children) (.element tag) boundary = true := by
  obtain ⟨before, after, rfl, rfl⟩ := exists_eq_append_of_le hi
  rw [insertIdx_append_length]
  constructor
  · rintro ⟨huncut, haccepts⟩
    obtain ⟨boundary, hboundary, hdivides, htokens⟩ :=
      exists_keptTokens_insert_element tag attributes inner huncut
    rw [htokens] at haccepts
    exact ⟨boundary, hboundary, hdivides, haccepts⟩
  · rintro ⟨boundary, hboundary, hdivides, haccepts⟩
    have huncut : r.CutsNoRun (before ++ after) before.length :=
      fun slot hslot => hdivides.beside hslot
    obtain ⟨boundary', hboundary', hdivides', htokens⟩ :=
      exists_keptTokens_insert_element tag attributes inner huncut
    -- the index stands for one boundary only, so this is the boundary in question
    obtain rfl := hdivides.unique hdivides' (r.ordered_keptSlots _) hboundary hboundary'
    rw [htokens]
    exact ⟨huncut, haccepts⟩

end ElementRule

/-! ## Reading the children with a node put in -/

namespace Expression

variable {e : Expression} {c next last : Cursor} {slots slots' front rest : List Slot}

/-- A reading sees **no more than the marks**. A reading looks at the token of a slot
and at whether it is blank. -/
theorem Reads.of_marks (h : e.Reads c slots last)
    (hmarks : slots.map Slot.mark = slots'.map Slot.mark) : e.Reads c slots' last := by
  induction h generalizing slots' with
  | nil =>
      cases List.map_eq_nil_iff.mp hmarks.symm
      exact .nil _
  | @taken c next last slot rest hadvance _ ih =>
      obtain ⟨slot', rest', rfl, hslot, hrest⟩ := List.map_eq_cons_iff.mp hmarks.symm
      have htoken : slot'.token = slot.token := congrArg Prod.fst hslot
      exact .taken (by rw [htoken]; exact hadvance) (ih hrest.symm)
  | @passed c last slot rest hadvance hblank _ ih =>
      obtain ⟨slot', rest', rfl, hslot, hrest⟩ := List.map_eq_cons_iff.mp hmarks.symm
      have htoken : slot'.token = slot.token := congrArg Prod.fst hslot
      have hblank' : slot'.blank = slot.blank := congrArg Prod.snd hslot
      exact .passed (by rw [htoken]; exact hadvance) (by rw [hblank']; exact hblank) (ih hrest.symm)

/-- Slots whose tokens are all taken are read **by taking them**. -/
theorem reads_append_of_run (h : e.run c (front.map Slot.token) = some next) (rest : List Slot)
    (last : Cursor) : e.Reads c (front ++ rest) last ↔ e.Reads next rest last := by
  induction front generalizing c with
  | nil =>
      cases h
      exact Iff.rfl
  | cons slot front ih =>
      obtain ⟨c', hadvance, hrun⟩ := run_cons_eq_some_iff.mp h
      exact (reads_cons_of_some hadvance).trans (ih hrun)

/-- How far slots are read that begin like an accepted word, **one token more** of the
word tells. What has been read so far stands at one cursor, and the next token is
taken there. -/
theorem exists_reads_of_accepts {x : Token} {w : List Token}
    (h : e.accepts (front.map Slot.token ++ x :: w) = true) :
    ∃ next, ∀ slot : Slot, slot.token = x →
      ∀ rest last, e.Reads e.initial (front ++ slot :: rest) last ↔ e.Reads next rest last := by
  obtain ⟨c, hrun, -⟩ := accepts_iff.mp h
  rw [run_append] at hrun
  obtain ⟨c, hfront, hrun⟩ := Option.bind_eq_some_iff.mp hrun
  obtain ⟨next, hadvance, -⟩ := run_cons_eq_some_iff.mp hrun
  refine ⟨next, fun slot hslot rest last => (reads_append_of_run hfront _ last).trans
    (reads_cons_of_some ?_)⟩
  rw [hslot]
  exact hadvance

/-- Where the tokens that are kept are all taken, the slots are read: one that is not
kept is blank text in a content without text, and **passed over**. -/
theorem Inside.reads_of_run {r : ElementRule} (h : r.content.Inside c)
    (htext : ∀ slot ∈ slots, slot.blank = true → slot.token = .text)
    (hrun : r.content.run c ((slots.filter r.keeps).map Slot.token) = some last) :
    r.content.Reads c slots last := by
  induction slots generalizing c with
  | nil =>
      cases hrun
      exact .nil _
  | cons slot rest ih =>
      obtain ⟨hslot, hrest⟩ := List.forall_mem_cons.mp htext
      by_cases hkept : r.keeps slot = true
      · rw [List.filter_cons_of_pos hkept] at hrun
        obtain ⟨next, hadvance, hrun⟩ := run_cons_eq_some_iff.mp hrun
        exact .taken hadvance (ih (h.advance hadvance).1 hrest hrun)
      · rw [List.filter_cons_of_neg hkept] at hrun
        obtain ⟨hnotext, hblank⟩ : r.content.isTextAllowed = false ∧ slot.blank = true := by
          simpa [ElementRule.keeps] using hkept
        have hadvance : r.content.advance c slot.token = none := by
          rw [hslot hblank]
          exact h.advance_eq_none hnotext
        exact .passed hadvance hblank (ih h hrest hrun)

end Expression

namespace ElementRule

open Slot

variable {r : ElementRule} {children before after : List Node} {i boundary : Nat}
  {s : String} {side : Side}

/-- Children whose kept tokens are accepted have **no violations**. What is not kept is
blank, and passed over. -/
theorem review_eq_nil_of_accepts_keptTokens (h : r.content.accepts (r.keptTokens children) = true) :
    r.review children = [] := by
  obtain ⟨last, hrun, hfinished⟩ := Expression.accepts_iff.mp h
  have hreads :=
    r.content.inside_initial.reads_of_run (fun _ hslot => token_of_mem_ofNodes hslot) hrun
  exact review_eq_nil_iff.mpr ⟨last, hreads, hfinished⟩

/-- Children whose review finds nothing are gone through **without an error**, and the
content is complete behind the last one. -/
theorem errors_rest_of_review_eq_nil (h : r.review children = []) :
    (ChildCursor.ofChildren r children).rest.2.errors = [] ∧
      (ChildCursor.ofChildren r children).rest.2.ending = none := by
  rw [← ChildCursor.allErrors_ofChildren, ChildCursor.allErrors, List.append_eq_nil_iff] at h
  exact ⟨h.1, Option.toList_eq_nil_iff.mp h.2⟩

/-- **Where an element can be inserted.** If the tables keep the rules, and all kept
tokens occur in the content should it be unconstrained, the search finds the outermost
index that cuts no kept run and at which the kept tokens are accepted with the element
put in, or that there is none. At the index found, a cursor over the children with the
element put in goes through them without a violation and to a complete end. -/
theorem finds_insertion_element (hrules : ∀ a ∈ r.content.automata, a.problems = []) {tag : String}
    (htag : tag ≠ Token.textName)
    (hallowed : r.content.isUnconstrained = true →
      ∀ x ∈ r.keptTokens children, r.content.isAllowed x = true)
    (side : Side) (attributes : Attributes) (inner : List Node) :
    let inserted := fun i => children.insertIdx i (.element tag attributes inner)
    side.Finds children.length
        (fun i => r.CutsNoRun children i ∧ r.content.accepts (r.keptTokens (inserted i)) = true)
        (r.insertion? children tag side) ∧
      ∀ i ∈ r.insertion? children tag side,
        (ChildCursor.ofChildren r (inserted i)).rest.2.errors = [] ∧
          (ChildCursor.ofChildren r (inserted i)).rest.2.ending = none := by
  intro inserted
  have hordered := r.ordered_keptSlots children
  have hlength : (r.keptTokens children).length = (r.keptSlots children).length := List.length_map _
  -- the search among boundaries is exact, and boundaries are translated into indexes
  have hsearch : side.Finds (r.keptSlots children).length
      (fun boundary => r.content.acceptsWith (r.keptTokens children) (.element tag) boundary = true)
      (r.content.insertion? (r.keptTokens children) (.element tag) side) := by
    rw [← hlength]
    exact Expression.finds_insertion hrules fun hfree _ => hallowed hfree
  have hanswer : r.insertion? children tag side =
      (r.content.insertion? (r.keptTokens children) (.element tag) side).map
        (indexOfBoundary (r.keptSlots children) children.length side) := by
    rw [insertion?, Token.ofName, if_neg htag]
    rfl
  have hfinds : side.Finds children.length
      (fun i => r.CutsNoRun children i ∧ r.content.accepts (r.keptTokens (inserted i)) = true)
      (r.insertion? children tag side) := by
    rw [hanswer]
    refine hsearch.map (fun boundary hboundary haccepts => ?_) fun j hj haccepts => ?_
    · obtain ⟨hle, hdivides⟩ := dividesAt_indexOfBoundary hordered hboundary side
      exact ⟨hle, (accepts_insert_element_iff hle).mpr ⟨boundary, hboundary, hdivides, haccepts⟩⟩
    · obtain ⟨boundary, hboundary, hdivides, haccepts⟩ :=
        (accepts_insert_element_iff hj).mp haccepts
      exact ⟨boundary, hboundary, haccepts, fun k hk hle => indexOfBoundary_le hdivides hj hk hle⟩
  refine ⟨hfinds, fun i hi => ?_⟩
  rw [Option.mem_def.mp hi] at hfinds
  exact errors_rest_of_review_eq_nil (review_eq_nil_of_accepts_keptTokens hfinds.2.1.2)

/-- The rule for a chapter: a title, an author and a paragraph. -/
def chapter : ElementRule where
  tag := "chapter"
  kind := .element
  attributes := []
  content := .single (Automaton.append 1
    (Automaton.append 0 (.single (.element "title")) (.single (.element "author"))).automaton
    (.single (.element "par"))).automaton

/-- The author of a chapter goes behind the title, before the comment and the
layout there. -/
theorem finds_insertion_element_author :
    let children : List Node :=
      [.text "\n", .element "title" .empty [], .comment "draft", .text "\n",
        .element "par" .empty []]
    let inserted := fun i => children.insertIdx i (.element "author" .empty [])
    ((∀ a ∈ chapter.content.automata, a.problems = []) ∧ "author" ≠ Token.textName ∧
        (chapter.content.isUnconstrained = true →
          ∀ x ∈ chapter.keptTokens children, chapter.content.isAllowed x = true)) ∧
      Side.first.Finds children.length
        (fun i => chapter.CutsNoRun children i ∧
          chapter.content.accepts (chapter.keptTokens (inserted i)) = true) (some 2) ∧
      (ChildCursor.ofChildren chapter (inserted 2)).rest.2.errors = [] ∧
        (ChildCursor.ofChildren chapter (inserted 2)).rest.2.ending = none := by
  intro children inserted
  have hrules : ∀ a ∈ chapter.content.automata, a.problems = [] := by
    intro a ha
    rw [List.mem_singleton.mp ha]
    decide +kernel
  have htag : "author" ≠ Token.textName := by decide
  have hconstrained : chapter.content.isUnconstrained = false := by cbv
  have hallowed : chapter.content.isUnconstrained = true →
      ∀ x ∈ chapter.keptTokens children, chapter.content.isAllowed x = true := by
    intro hfree
    rw [hconstrained] at hfree
    cases hfree
  have hfound : chapter.insertion? children "author" .first = some 2 := by cbv
  obtain ⟨hfinds, hcursor⟩ := finds_insertion_element hrules htag hallowed .first .empty []
  rw [hfound] at hfinds hcursor
  exact ⟨⟨hrules, htag, hallowed⟩, hfinds, hcursor 2 rfl⟩

/-! ## Inserting text -/

/-- Where the tokens of the children are accepted as a word, a review of them
finds nothing. -/
theorem review_eq_nil_of_accepts_tokens
    (h : r.content.accepts ((ofNodes children).map token) = true) : r.review children = [] := by
  obtain ⟨last, hrun, hfinished⟩ := Expression.accepts_iff.mp h
  have hreads := (Expression.reads_append_of_run hrun [] last).mpr (.nil last)
  rw [List.append_nil] at hreads
  exact review_eq_nil_iff.mpr ⟨last, hreads, hfinished⟩

/-- Text that meets no text goes in **as a token of its own**. The index then stands for
the boundary that the search has tried. -/
theorem review_insert_text_of_apart (hbefore : leadingTexts before.reverse = [])
    (hafter : leadingTexts after = []) (haccepts : r.content.accepts ((ofNodes before).map token ++
      .text :: (ofNodesFrom before.length none after).map token) = true) (s : String) :
    r.review (before ++ .text s :: after) = [] := by
  refine review_eq_nil_of_accepts_tokens ?_
  have htokens (slots : List Slot) : slots.map token = (slots.map mark).map Prod.fst := by
    rw [List.map_map]
    rfl
  rw [htokens, marks_insert_text_of_apart hbefore hafter s, List.map_append, List.map_cons,
    ← htokens, ← htokens]
  exact haccepts

/-- Text that meets text **changes nothing**, if it could go in as a token of its own:
the children have a violation with it exactly if they have one without it. -/
theorem review_insert_text_of_meet
    (hapart : leadingTexts before.reverse = [] ∨ leadingTexts after = [])
    (hmeets : leadingTexts before.reverse ≠ [] ∨ leadingTexts after ≠ [])
    (haccepts : r.content.accepts ((ofNodes before).map token ++
      .text :: (ofNodesFrom before.length none after).map token) = true) (s : String) :
    r.review (before ++ .text s :: after) = [] ↔ r.review (before ++ after) = [] := by
  obtain ⟨front, run, longer, back, back', hall, hinserted, hrun, hlonger, hmarks, htokens⟩ :=
    exists_insert_text_of_meet hapart hmeets s
  -- the word that is accepted has the text twice, so the run is taken, with the new text or
  -- without it
  rw [htokens] at haccepts
  obtain ⟨next, hreads⟩ := Expression.exists_reads_of_accepts haccepts
  rw [review_eq_nil_iff, review_eq_nil_iff, hall, hinserted]
  refine exists_congr fun last => and_congr_left fun _ => ?_
  rw [hreads longer hlonger, hreads run hrun]
  exact ⟨fun h => h.of_marks hmarks, fun h => h.of_marks hmarks.symm⟩

/-- Where text could go in as a token of its own, at a boundary and an index that
stands for it, it leaves no violation exactly if it meets no text there **or there was
none before**. -/
theorem review_insert_text_of_dividesAt (hdivides : DividesAt (ofNodes children) i boundary)
    (hi : i ≤ children.length) (hboundary : boundary ≤ (ofNodes children).length)
    (haccepts : r.content.acceptsWith ((ofNodes children).map token) .text boundary = true)
    (s : String) : r.review (children.insertIdx i (.text s)) = [] ↔ ¬ MeetsText children i ∨
      r.review children = [] := by
  obtain ⟨before, after, rfl, rfl⟩ := exists_eq_append_of_le hi
  have hapart := hdivides.apart
  have hword : r.content.accepts ((ofNodes before).map token ++
      .text :: (ofNodesFrom before.length none after).map token) = true := by
    rw [hdivides.eq_length hboundary, Expression.acceptsWith, ofNodes_append_of_apart hapart,
      List.map_append, List.take_left' (List.length_map _),
        List.drop_left' (List.length_map _)] at haccepts
    exact haccepts
  rw [insertIdx_append_length, MeetsText, List.take_left, List.drop_left]
  by_cases hmeets : leadingTexts before.reverse ≠ [] ∨ leadingTexts after ≠ []
  · rw [or_iff_right (not_not.mpr hmeets)]
    exact review_insert_text_of_meet hapart hmeets hword s
  · obtain ⟨hbefore, hafter⟩ := not_or.mp hmeets
    exact iff_of_true (review_insert_text_of_apart (not_not.mp hbefore) (not_not.mp hafter) hword s)
      (.inl hmeets)

/-- Where text is allowed, **no slot is left out**: even a blank one is then a token. -/
theorem keptSlots_of_isTextAllowed (h : r.content.isTextAllowed = true) (children : List Node) :
    r.keptSlots children = ofNodes children := by
  rw [keptSlots, h]
  exact List.filter_eq_self.mpr fun _ _ => rfl

section

variable {book : Rulebook} {orders : List Order} {p : Pattern} {c : Compiled}
  {s' : Session} {tieBreak : TieBreak}

/-- The tables of a compiled pattern keep the rules, whatever its session has been used
for before. -/
theorem problems_eq_nil_of_yields
    (hcompiled : (Compiling.pattern book p).Yields (Workshop.run book {} orders).session c s')
    (hcontent : r.content = (Expression.ofCompiled c).withTieBreak tieBreak) :
    ∀ a ∈ r.content.automata, a.problems = [] := by
  have hsession : (Workshop.run book {} orders).session.Orderly :=
    (Workshop.orderly_new.run orders).session
  obtain ⟨-, -, hmade⟩ :=
    Compiling.keepsOrder_pattern book p _ _ _ _ hsession (Nat.le_refl _) hcompiled
  have hautomata : ((Expression.ofCompiled c).withTieBreak tieBreak).automata = c.automata := by
    cases c <;> rfl
  rw [hcontent, hautomata]
  exact fun a ha => a.problems_eq_nil_iff.mpr (hmade c rfl a ha).wellFormed

/-- **Where text can be inserted.** In the content of a compiled pattern, with
children whose tokens all occur in it, text that goes where the search says leaves no
violation exactly if it meets no text there, comments left out, or if there was no
violation before. -/
theorem review_insert_text_eq_nil_iff
    (hcompiled : (Compiling.pattern book p).Yields (Workshop.run book {} orders).session c s')
    (hcontent : r.content = (Expression.ofCompiled c).withTieBreak tieBreak)
    (hallowed : ∀ slot ∈ ofNodes children, r.content.isAllowed slot.token = true)
    (hfound : r.insertion? children Token.textName side = some i) (s : String) :
    i ≤ children.length ∧
      (r.review (children.insertIdx i (.text s)) = [] ↔
        ¬ MeetsText children i ∨ r.review children = []) := by
  obtain ⟨boundary, hboundary, rfl⟩ := Option.map_eq_some_iff.mp hfound
  have hname : Token.ofName Token.textName = .text := rfl
  -- the content takes text, so all slots are kept
  have htext : r.content.isTextAllowed = true := Expression.isAllowed_of_insertion? hboundary
  rw [r.keptSlots_of_isTextAllowed htext, hname] at hboundary
  rw [r.keptSlots_of_isTextAllowed htext]
  have hword : ∀ x ∈ (ofNodes children).map token, r.content.isAllowed x = true := by
    rwa [List.forall_mem_map]
  have hsearch : side.Finds _ _ (r.content.insertion? ((ofNodes children).map token) .text side) :=
    Expression.finds_insertion (problems_eq_nil_of_yields hcompiled hcontent) fun _ _ => hword
  rw [hboundary] at hsearch
  obtain ⟨hle, haccepts, -⟩ := hsearch
  rw [List.length_map] at hle
  obtain ⟨hi, hdivides⟩ := dividesAt_indexOfBoundary (ordered_ofNodes children) hle side
  exact ⟨hi, review_insert_text_of_dividesAt hdivides hi hle haccepts s⟩

end

/-- Text, and text again with an emphasis between them or none. -/
def spoken : Pattern :=
  .sequence [.token Token.textName, .optional (.token "em"), .token Token.textName]

/-- The table that spoken text is compiled to. -/
def spokenTable : Automaton :=
  (Automaton.append 1
    (Automaton.append 0 (.single .text) (Automaton.optional (.single (.element "em")))).automaton
    (.single .text)).automaton

theorem yields_spoken : (Compiling.pattern {} spoken).Yields {} (.single spokenTable)
    { drawn := 2 } := by
  have hne : ∀ name, spoken ≠ .ref name := by simp [spoken]
  exact yields_pattern_of_term rfl hne rfl rfl

/-- The rule for a line of spoken text. -/
def line : ElementRule where
  tag := "line"
  kind := .hybrid
  attributes := []
  content := .single spokenTable

theorem isAllowed_line : line.content.isAllowed .text = true ∧
    line.content.isAllowed (.element "em") = true := by
  constructor <;> cbv

/-- Behind an emphasis at the end there is no text to meet, and the line is complete. -/
theorem review_insert_text_eq_nil_iff_line :
    let children : List Node := [.text "a", .element "em" .empty []]
    ((Compiling.pattern {} spoken).Yields (Workshop.run {} {} []).session (.single spokenTable)
      { drawn := 2 } ∧
        line.content = (Expression.ofCompiled (.single spokenTable)).withTieBreak .firstMatch ∧
        (∀ slot ∈ ofNodes children, line.content.isAllowed slot.token = true) ∧
        line.insertion? children Token.textName .first = some 2) ∧
      2 ≤ children.length ∧ ¬ MeetsText children 2 ∧
      line.review (children.insertIdx 2 (.text "b")) = [] := by
  intro children
  have hallowed : ∀ slot ∈ ofNodes children, line.content.isAllowed slot.token = true := by
    simp [children, ofNodes, ofNodesFrom, startRun, isAllowed_line]
  have hfound : line.insertion? children Token.textName .first = some 2 := by cbv
  have hmeets : ¬ MeetsText children 2 := by simp [children, MeetsText, leadingTexts]
  have hcompiled :
      (Compiling.pattern {} spoken).Yields (Workshop.run {} {} []).session (.single spokenTable)
        { drawn := 2 } := yields_spoken
  have hcontent :
      line.content = (Expression.ofCompiled (.single spokenTable)).withTieBreak .firstMatch := rfl
  obtain ⟨hle, hreview⟩ := review_insert_text_eq_nil_iff hcompiled hcontent hallowed hfound "b"
  exact ⟨⟨hcompiled, hcontent, hallowed, hfound⟩, hle, hmeets, hreview.mpr (.inl hmeets)⟩

/-- Beside a text that stands alone another is said to go in; it joins the first, and
the line is **as incomplete as it was**. -/
theorem insertion_line_text :
    let children : List Node := [.text "x"]
    (Compiling.pattern {} spoken).Yields {} (.single spokenTable) { drawn := 2 } ∧
      ({ drawn := 2 } : Session).warnings = [] ∧ line.content = Expression.ofCompiled
        (.single spokenTable) ∧
      (∀ slot ∈ ofNodes children, line.content.isAllowed slot.token = true) ∧
      line.insertion? children Token.textName .first = some 0 ∧ isBlank "y" = false ∧
      (line.review (children.insertIdx 0 (.text "y"))).map Violation.kind = [.incomplete] := by
  intro children
  have hallowed : ∀ slot ∈ ofNodes children, line.content.isAllowed slot.token = true := by
    simp [children, ofNodes, ofNodesFrom, startRun, isAllowed_line]
  have hfound : line.insertion? children Token.textName .first = some 0 := by cbv
  have hreview : (line.review (children.insertIdx 0 (.text "y"))).map Violation.kind =
      [.incomplete] := by cbv
  exact ⟨yields_spoken, rfl, rfl, hallowed, hfound, by decide, hreview⟩

end ElementRule

end TreeGrammar
