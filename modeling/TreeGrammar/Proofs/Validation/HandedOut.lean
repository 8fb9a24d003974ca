/-
Reading again what a cursor has handed out.

A cursor hands out a comment for each child that its content rejects, so that the rest
can be used. But which text is one run is settled before, on the children as they were,
and a run is judged at its first node: if it is rejected, its first node becomes a
comment and its other nodes are handed out as they are. Where they stand, text had been
rejected; if they are not blank, they are now rejected as a run of their own.

So what is handed out is read without complaint exactly if no rejected run leaves behind
text that is not blank, unless it stands next to text that was taken. This holds where
taking text again changes nothing, since comments in the place of elements also join
runs that were apart before.
-/
import TreeGrammar.Proofs.Validation.Drained

set_option autoImplicit false

namespace TreeGrammar

/-! ## What is handed out -/

/-- The children as a cursor **hands them out**. -/
def ElementRule.handedOut (r : ElementRule) (children : List Node) : List Node :=
  (ChildCursor.ofChildren r children).rest.1.map Delivery.node

namespace Expression

/-- The children, each with the slot that starts at it, as they are handed out while the
content is read. -/
def handOut (e : Expression) : Cursor → List (Node × Option Slot) → List Node
  | _, [] => []
  | c, (n, none) :: rest => n :: e.handOut c rest
  | c, (n, some slot) :: rest =>
      match e.advance c slot.token with
      | some next => n :: e.handOut next rest
      | none => (if slot.blank then n else n.defused) :: e.handOut c rest

variable {e : Expression} {c next : Cursor} {n : Node} {slot : Slot}
  {rest : List (Node × Option Slot)}

/-- A child whose token is taken is handed out as it is. -/
theorem handOut_of_some (h : e.advance c slot.token = some next) :
    e.handOut c ((n, some slot) :: rest) = n :: e.handOut next rest := by
  simp only [handOut, h]

theorem handOut_of_blank (h : e.advance c slot.token = none) (hblank : slot.blank = true) :
    e.handOut c ((n, some slot) :: rest) = n :: e.handOut c rest := by
  simp only [handOut, h, hblank, if_true]

/-- A child whose token is not taken is handed out inside a comment, unless
it is blank. -/
theorem handOut_of_none (h : e.advance c slot.token = none) (hblank : slot.blank = false) :
    e.handOut c ((n, some slot) :: rest) = n.defused :: e.handOut c rest := by
  simp only [handOut, h, hblank, Bool.false_eq_true, if_false]

end Expression

/-- What a cursor hands out depends on the content and the place in it, **not on its
history** or on the violations so far. -/
theorem ChildCursor.map_node_takeAll (c : ChildCursor) (items : List (Node × Option Slot)) :
    (c.takeAll items).1.map Delivery.node = c.rule.content.handOut c.progress.cursor items := by
  induction items generalizing c with
  | nil => rfl
  | cons item rest ih =>
      obtain ⟨n, start⟩ := item
      have hstep : (c.takeAll ((n, start) :: rest)).1.map Delivery.node =
          (c.take (n, start)).1.node :: ((c.take (n, start)).2.takeAll rest).1.map Delivery.node :=
            rfl
      rw [hstep, ih]
      -- taking and handing out are defined by the same three cases
      cases start with
      | none => rfl
      | some slot =>
          cases hadvance : c.rule.content.advance c.progress.cursor slot.token with
          | some next =>
              rw [take_of_some hadvance, Expression.handOut_of_some hadvance, rule_moved,
                progress_moved]
          | none =>
              by_cases hblank : slot.blank = true
              · rw [take_of_blank hadvance hblank, Expression.handOut_of_blank hadvance hblank,
                  rule_moved, progress_moved]
              · have hblank : slot.blank = false := by simpa using hblank
                rw [take_of_none hadvance hblank, Expression.handOut_of_none hadvance hblank,
                  rule_moved, progress_moved]

/-- From the beginning, each child is handed out with the slot that starts at it. From
here on the list of pairs is followed, and no longer a cursor. -/
theorem ElementRule.handedOut_eq (r : ElementRule) (children : List Node) :
    r.handedOut children =
      r.content.handOut r.content.initial (children.zip (Slot.starts false 0 children)) := by
  have hitems :
      (ChildCursor.ofChildren r children).rest.1 =
        ((ChildCursor.ofChildren r children).takeAll
          (children.zip (Slot.starts false 0 children))).1 := by
    rw [← ChildCursor.items_ofChildren r]
    rfl
  rw [handedOut, hitems, ChildCursor.map_node_takeAll]
  rfl

/-! ## Runs of text that are in the way -/

namespace Expression

/-- Taking text **again changes nothing**: text that is taken leaves the content where
it is, if text has been taken before and no element since. The first argument says
whether it has. -/
def isSteady (e : Expression) : Bool → Cursor → List Slot → Bool
  | _, _, [] => true
  | taken, c, slot :: rest =>
      match e.advance c slot.token with
      | some next =>
          (!(taken && slot.token.isText) || decide (next = c)) &&
            e.isSteady slot.token.isText next rest
      | none => e.isSteady taken c rest

/-- The runs of text that are **astray**: not blank, rejected, and with no text taken
since the last element that was taken. -/
def strays (e : Expression) : Bool → Cursor → List Slot → List Slot
  | _, _, [] => []
  | taken, c, slot :: rest =>
      match e.advance c slot.token with
      | some next => e.strays slot.token.isText next rest
      | none =>
          if slot.token.isText && !taken && !slot.blank then slot :: e.strays taken c rest
          else e.strays taken c rest

variable {e : Expression} {c next : Cursor} {taken : Bool} {slot : Slot} {rest : List Slot}

/-- Text that follows text which was taken has to leave the cursor where it is, for the
content to be steady there. -/
theorem isSteady_of_some (h : e.advance c slot.token = some next) :
    e.isSteady taken c (slot :: rest) = true ↔
      (taken = true → slot.token.isText = true → next = c) ∧
      e.isSteady slot.token.isText next rest = true := by
  simp only [isSteady, h, Bool.and_eq_true, Bool.or_eq_true, Bool.not_eq_true', decide_eq_true_iff,
    Bool.and_eq_false_iff]
  refine and_congr_left fun _ => ?_
  cases taken <;> cases slot.token.isText <;> simp

theorem isSteady_of_none (h : e.advance c slot.token = none) :
    e.isSteady taken c (slot :: rest) = e.isSteady taken c rest := by
  simp only [isSteady, h]

theorem strays_of_some (h : e.advance c slot.token = some next) :
    e.strays taken c (slot :: rest) = e.strays slot.token.isText next rest := by
  simp only [strays, h]

/-- A run that is not taken strays if it is text, not blank, and not behind text that
was taken. -/
theorem strays_of_none (h : e.advance c slot.token = none) :
    e.strays taken c (slot :: rest) =
      if slot.token.isText && !taken && !slot.blank then slot :: e.strays taken c rest
        else e.strays taken c rest := by
  simp only [strays, h]

/-! ## Reading again -/

/-- The run of text that is open when what was handed out is **read again**. Text was
taken the first time, and the run is still to be taken; or text was not taken, the
cursors are the same, and if there is such a run, or a run is open in the children as
they were, text is not taken here. -/
inductive Pending (e : Expression) (c : Cursor) : (taken isOpen : Bool) → (again : Cursor) →
    (run : Option Slot) → Prop
  | taken {isOpen : Bool} {again : Cursor} {run : Slot} (htoken : run.token = .text)
      (h : e.advance again .text = some c) : Pending e c true isOpen again (some run)
  | untaken {isOpen : Bool} {run : Option Slot} (htoken : ∀ before ∈ run, before.token = .text)
      (h : isOpen = true ∨ run.isSome = true → e.advance c .text = none) :
      Pending e c false isOpen c run

variable {again : Cursor} {isOpen : Bool} {run : Option Slot}

/-- Nothing is pending before the first child, or after an element that is taken. -/
theorem pending_none : e.Pending c false false c none := by
  refine .untaken (fun _ h => absurd h (Option.not_mem_none _)) fun h => ?_
  rcases h with h | h <;> cases h

/-- One more text is read which was not taken the first time. Whether it is blank
decides about the whole run. -/
theorem Pending.grow (h : e.Pending c taken isOpen again run)
    (huntaken : taken = false → e.advance c .text = none) (index : Nat) (s : String) :
    e.Pending c taken true again (some (Slot.grow run index s)) := by
  cases h with
  | taken htoken hadvance => exact .taken htoken hadvance
  | untaken htoken _ =>
      refine .untaken (fun before hbefore => ?_) fun _ => huntaken rfl
      cases hbefore
      exact Slot.token_grow htoken index s

/-- If text is taken here for the first time since the last element, nothing
is pending. -/
theorem Pending.eq_none (h : e.Pending c taken isOpen again run)
    (hadvance : e.advance c .text = some next) (htaken : taken = false) : run = none := by
  cases h with
  | taken _ _ => cases htaken
  | untaken _ hnone =>
      cases run with
      | none => rfl
      | some before =>
          rw [hnone (.inr rfl)] at hadvance
          cases hadvance

/-- Text is taken, for the first time since the last element or without a change. In a
steady content taking text again does not move the cursor. -/
theorem Pending.take (h : e.Pending c taken isOpen again run)
    (hadvance : e.advance c .text = some next) (hsteady : taken = true → next = c)
    (index : Nat) (s : String) : e.Pending next true true again (some (Slot.grow run index s)) := by
  have hnone := h.eq_none hadvance
  cases h with
  | taken htoken hagain =>
      rw [hsteady rfl]
      exact .taken htoken hagain
  | untaken _ _ =>
      rw [hnone rfl]
      exact .taken rfl hadvance

theorem Pending.advance_eq_none (h : e.Pending c taken true again run) (htaken : taken = false) :
    e.advance c .text = none := by
  cases h with
  | taken _ _ => cases htaken
  | untaken _ hnone => exact hnone (.inl rfl)

/-- A rejected element parts the runs of the children, and is a comment when they are
read again. The run before it has been handed out already. -/
theorem Pending.shut (h : e.Pending c taken isOpen again run) :
    e.Pending c taken false again run := by
  cases h with
  | taken htoken hadvance => exact .taken htoken hadvance
  | untaken htoken hadvance =>
      refine .untaken htoken fun hrun => hadvance (.inr ?_)
      exact hrun.resolve_left Bool.false_ne_true

/-- A run that the content rejects is opened. Its first node was handed out inside a
comment, and what is left of it will be read again. -/
theorem Pending.reject (h : e.Pending c taken isOpen again run)
    (hadvance : e.advance c .text = none) : e.Pending c taken true again run := by
  cases h with
  | taken htoken h => exact .taken htoken h
  | untaken htoken _ => exact .untaken htoken fun _ => hadvance

/-- When the open run ends, it brings the reading to **where it was** the first time,
unless text was not taken and the run is not blank. -/
theorem Pending.canRead_close (h : e.Pending c taken isOpen again run) (rest : List Slot) :
    e.CanRead again (run.toList ++ rest) ↔
      (taken = false → ∀ before ∈ run, before.blank = true) ∧ e.CanRead c rest := by
  cases h with
  | @taken _ _ run htoken hadvance =>
      rw [← htoken] at hadvance
      rw [Option.toList_some, List.singleton_append, canRead_cons_of_some hadvance]
      exact ⟨fun hread => ⟨fun h => Bool.noConfusion h, hread⟩, And.right⟩
  | untaken htoken hadvance =>
      cases run with
      | none =>
          exact ⟨fun hread => ⟨fun _ _ h => absurd h (Option.not_mem_none _), hread⟩, And.right⟩
      | some before =>
          have hnone := hadvance (.inr rfl)
          rw [← htoken before rfl] at hnone
          rw [Option.toList_some, List.singleton_append, canRead_cons_of_none hnone]
          refine and_congr_left
            fun _ => ⟨fun hblank _ other hother => ?_, fun hall => hall rfl before rfl⟩
          cases hother
          exact hblank

/-- No run that is astray leaves text behind that is not blank. -/
def Clear (e : Expression) (children : List Node) (taken : Bool) (c : Cursor) (slots : List Slot) :
    Prop :=
  ∀ stray ∈ e.strays taken c slots, ∀ s ∈ stray.tail children, isBlank s = true

variable {children : List Node}

theorem clear_of_some (h : e.advance c slot.token = some next) :
    e.Clear children taken c (slot :: rest) ↔ e.Clear children slot.token.isText next rest := by
  unfold Clear
  rw [strays_of_some h]

theorem clear_of_none (h : e.advance c slot.token = none) :
    e.Clear children taken c (slot :: rest) ↔
      (slot.token.isText = true → taken = false → slot.blank = false →
        ∀ s ∈ slot.tail children, isBlank s = true) ∧ e.Clear children taken c rest := by
  unfold Clear
  rw [strays_of_none h]
  cases slot.token.isText <;> cases taken <;> cases slot.blank <;> simp

/-- From some children on, what is handed out is **read again** exactly if what is
pending is blank and no run that is astray leaves text behind that is not. Only where
text was not taken can either be in the way. -/
def Rereads (e : Expression) (children : List Node) (isOpen : Bool) (index : Nat) (ns : List Node) :
    Prop :=
  ∀ (taken : Bool) (c again : Cursor) (run : Option Slot) (index' : Nat),
    e.Pending c taken isOpen again run →
    e.isSteady taken c ((Slot.starts isOpen index ns).filterMap id) = true →
    (e.CanRead again
      (Slot.ofNodesFrom index' run (e.handOut c (ns.zip (Slot.starts isOpen index ns)))) ↔
      (taken = false → (∀ before ∈ run, before.blank = true) ∧
        (isOpen = true → ∀ s ∈ Slot.leadingTexts ns, isBlank s = true)) ∧
      e.Clear children taken c ((Slot.starts isOpen index ns).filterMap id))

variable {ns before : List Node} {index : Nat}

/-- Where nothing is left, nothing can be read differently. -/
theorem rereads_nil : e.Rereads children isOpen index [] := by
  intro taken c again run index' hpending _
  have hclose := hpending.canRead_close []
  rw [List.append_nil] at hclose
  show e.CanRead again run.toList ↔ _
  rw [hclose]
  refine and_congr ?_ ?_
  · exact forall_congr'
      fun _ => ⟨fun hblank => ⟨hblank, fun _ _ h => absurd h List.not_mem_nil⟩, And.left⟩
  · exact iff_of_true canRead_nil fun _ h => absurd h List.not_mem_nil

theorem Rereads.comment (h : e.Rereads children isOpen (index + 1) ns) (s : String) :
    e.Rereads children isOpen index (.comment s :: ns) :=
  fun taken c again run index' hpending hsteady => h taken c again run (index' + 1) hpending hsteady

/-- Text that goes on with a run is handed out as it is. It is at this point that
rejected text is handed out bare. -/
theorem Rereads.tail (h : e.Rereads children true (index + 1) ns) (s : String) :
    e.Rereads children true index (.text s :: ns) := by
  intro taken c again run index' hpending hsteady
  have hnext :=
    h taken c again _ (index' + 1) (hpending.grow hpending.advance_eq_none index' s) hsteady
  rw [← Slot.ofNodesFrom_text] at hnext
  refine hnext.trans (and_congr_left fun _ => forall_congr' fun _ => ?_)
  simp [Slot.blank_grow_iff, Slot.leadingTexts, and_assoc]

/-- A text that starts a run stands for the whole run. If it is rejected, it is handed
out as it is or as a comment, and the texts after it are handed out in any case. -/
theorem Rereads.start {s : String} (hchildren : children = before ++ .text s :: ns)
    (h : e.Rereads children true (before.length + 1) ns) :
    e.Rereads children false before.length (.text s :: ns) := by
  intro taken c again run index' hpending hsteady
  let slot := Slot.closeRun (Slot.startRun before.length s) (before.length + 1) ns
  have htoken : slot.token = .text := Slot.token_closeRun _ _ _
  have htail : slot.tail children = Slot.leadingTexts ns := by
    rw [hchildren]
    exact Slot.tail_closeRun_startRun before s ns
  have hslots : (Slot.starts false before.length (.text s :: ns)).filterMap id =
      slot :: (Slot.starts true (before.length + 1) ns).filterMap id := rfl
  have hitems : (Node.text s :: ns).zip (Slot.starts false before.length (.text s :: ns)) =
      (.text s, some slot) :: ns.zip (Slot.starts true (before.length + 1) ns) := rfl
  rw [hslots] at hsteady ⊢
  rw [hitems]
  cases hadvance : e.advance c slot.token with
  | some next =>
      have htext : e.advance c .text = some next := htoken ▸ hadvance
      rw [isSteady_of_some hadvance, htoken] at hsteady
      have hpending' := hpending.take htext (fun htaken => hsteady.1 htaken rfl) index' s
      have hnext := h true next again _ (index' + 1) hpending' hsteady.2
      rw [handOut_of_some hadvance, Slot.ofNodesFrom_text, hnext, clear_of_some hadvance, htoken]
      refine and_congr_left fun _ => iff_of_true (fun h => Bool.noConfusion h) fun htaken => ?_
      rw [hpending.eq_none htext htaken]
      exact ⟨fun _ h => absurd h (Option.not_mem_none _), fun h => Bool.noConfusion h⟩
  | none =>
      have htext : e.advance c .text = none := htoken ▸ hadvance
      rw [isSteady_of_none hadvance] at hsteady
      rw [clear_of_none hadvance, htoken, htail]
      by_cases hblank : slot.blank = true
      · have hnext :=
          h taken c again _ (index' + 1) (hpending.grow (fun _ => htext) index' s) hsteady
        rw [handOut_of_blank hadvance hblank, Slot.ofNodesFrom_text, hnext]
        rw [Slot.blank_closeRun, Bool.and_eq_true, List.all_eq_true] at hblank
        obtain ⟨hfirst, hrest⟩ := hblank
        have hgrow : (∀ before ∈ some (Slot.grow run index' s), before.blank = true) ↔
            ∀ before ∈ run, before.blank = true := by
          have hfirst : isBlank s = true := hfirst
          simp [Slot.blank_grow_iff, hfirst]
        rw [hgrow]
        -- all text of the run is blank, so what is said of it holds
        refine and_congr (forall_congr' fun _ => and_congr_right fun _ => ?_)
          (and_iff_right fun _ _ _ => hrest).symm
        exact iff_of_true (fun _ => hrest) fun h => Bool.noConfusion h
      · have hnext := h taken c again run (index' + 1) (hpending.reject htext) hsteady
        rw [handOut_of_none hadvance (by simpa using hblank)]
        show e.CanRead again (Slot.ofNodesFrom (index' + 1) run _) ↔ _
        rw [hnext, ← and_assoc]
        -- what was asked of the open run is asked of the run that is astray
        refine and_congr_left fun _ => ⟨fun hasked => ?_, fun hasked htaken => ?_⟩
        · refine ⟨fun htaken => ⟨(hasked htaken).1, fun h => Bool.noConfusion h⟩,
            fun _ htaken _ => ?_⟩
          exact (hasked htaken).2 rfl
        · exact ⟨(hasked.1 htaken).1, fun _ => hasked.2 rfl htaken (by simpa using hblank)⟩

/-- An element ends the run before it if it is taken, and is a comment if it is not. -/
theorem Rereads.element (h : e.Rereads children false (index + 1) ns) (tag : String)
    (attributes : Attributes) (inner : List Node) :
    e.Rereads children isOpen index (.element tag attributes inner :: ns) := by
  intro taken c again run index' hpending hsteady
  let slot : Slot := ⟨index, index, .element tag, false⟩
  have hslots : (Slot.starts isOpen index (.element tag attributes inner :: ns)).filterMap id =
      slot :: (Slot.starts false (index + 1) ns).filterMap id := rfl
  have hitems : (Node.element tag attributes inner :: ns).zip
      (Slot.starts isOpen index (.element tag attributes inner :: ns)) =
      (.element tag attributes inner, some slot) :: ns.zip (Slot.starts false (index + 1) ns) := rfl
  rw [hslots] at hsteady ⊢
  rw [hitems]
  cases hadvance : e.advance c slot.token with
  | some next =>
      rw [isSteady_of_some hadvance] at hsteady
      have hnext := h false next next none (index' + 1) pending_none hsteady.2
      have hread (rest : List Slot) :
          e.CanRead c (⟨index', index', .element tag, false⟩ :: rest) ↔ e.CanRead next rest :=
        canRead_cons_of_some hadvance
      rw [handOut_of_some hadvance, Slot.ofNodesFrom, hpending.canRead_close, hread, hnext,
        clear_of_some hadvance]
      -- nothing is pending after the element, and no text leads before it
      refine and_congr
        (forall_congr' fun _ => (and_iff_left fun _ _ h => absurd h List.not_mem_nil).symm) ?_
      exact and_iff_right
        fun _ => ⟨fun _ h => absurd h (Option.not_mem_none _), fun h => Bool.noConfusion h⟩
  | none =>
      rw [isSteady_of_none hadvance] at hsteady
      have hnext := h taken c again run (index' + 1) hpending.shut hsteady
      rw [handOut_of_none hadvance rfl, clear_of_none hadvance]
      show e.CanRead again (Slot.ofNodesFrom (index' + 1) run _) ↔ _
      rw [hnext]
      refine and_congr (forall_congr' fun _ => and_congr_right fun _ => ?_) (and_iff_right ?_).symm
      · exact iff_of_true (fun h => Bool.noConfusion h) fun _ _ h => absurd h List.not_mem_nil
      · exact fun h => Bool.noConfusion h

/-- The induction on the children; each kind of node is a case of its own. What has been
read of them is known by the run that is pending. -/
theorem rereads (hchildren : children = before ++ ns) (isOpen : Bool) :
    e.Rereads children isOpen before.length ns := by
  induction ns generalizing before isOpen with
  | nil => exact rereads_nil
  | cons n rest ih =>
      have hsplit : children = (before ++ [n]) ++ rest := by rw [hchildren, List.append_assoc]; rfl
      have hrest (isOpen : Bool) : e.Rereads children isOpen (before.length + 1) rest := by
        have hafter := ih hsplit isOpen
        rwa [List.length_append] at hafter
      cases n with
      | comment s => exact (hrest isOpen).comment s
      | element tag attributes inner => exact (hrest false).element tag attributes inner
      | text s =>
          cases isOpen with
          | true => exact (hrest true).tail s
          | false => exact Rereads.start hchildren (hrest true)

end Expression

/-- **What is handed out can be used**, up to text that is left behind. Where taking
text again changes nothing, a review of the children as they were handed out names no
child exactly if the runs of text that are astray leave behind only blank text. -/
theorem handedOut_unstructural_iff (r : ElementRule) (children : List Node)
    (hsteady : r.content.isSteady false r.content.initial (Slot.ofNodes children) = true) :
    (∀ v ∈ r.review (r.handedOut children), v.kind.isStructural = false) ↔
      ∀ stray ∈ r.content.strays false r.content.initial (Slot.ofNodes children),
        ∀ s ∈ stray.tail children, isBlank s = true := by
  have hchildren : children = [] ++ children := rfl
  have hrereads : r.content.Rereads children false 0 children := Expression.rereads hchildren false
  rw [Slot.ofNodes_eq] at hsteady ⊢
  rw [ElementRule.review_unstructural_iff, ElementRule.handedOut_eq, Slot.ofNodes,
    hrereads false _ _ none 0 Expression.pending_none hsteady]
  exact and_iff_right
    fun _ => ⟨fun _ h => absurd h (Option.not_mem_none _), fun h => Bool.noConfusion h⟩

/-- An element whose content is one `a`. -/
def onlyA : ElementRule where
  tag := "p"
  kind := .element
  attributes := []
  content := .single (.ofEdges [⟨.start, .token (.element "a"), .fin⟩])

/-- Rejected text is left behind where a comment interrupts it, but it is blank. -/
theorem handedOut_unstructural_onlyA :
    onlyA.content.isSteady false onlyA.content.initial
        (Slot.ofNodes [.text "x", .comment "c", .text " ", .element "a" .empty []]) = true ∧
      ∀ v ∈ onlyA.review
          (onlyA.handedOut [.text "x", .comment "c", .text " ", .element "a" .empty []]),
        v.kind.isStructural = false := by
  have hsteady : onlyA.content.isSteady false onlyA.content.initial
      (Slot.ofNodes [.text "x", .comment "c", .text " ", .element "a" .empty []]) = true := by
        decide
  refine ⟨hsteady, (handedOut_unstructural_iff onlyA _ hsteady).mpr ?_⟩
  decide

/-- Rejected text that a comment interrupts is **handed out again** from the comment on,
and rejected again. -/
theorem exists_handedOut_rejected :
    ∃ v ∈ onlyA.review
        (onlyA.handedOut [.text "x", .comment "c", .text "y", .element "a" .empty []]),
      v.kind.isStructural = true ∧ v.token = some .text ∧ v.index = some 2 := by
  have hslots :
      Slot.ofNodes (onlyA.handedOut [.text "x", .comment "c", .text "y", .element "a" .empty []]) =
        [⟨2, 2, .text, false⟩, ⟨3, 3, .element "a", false⟩] := by decide
  have hnone : onlyA.content.advance onlyA.content.begin.cursor .text = none := by decide
  rw [ElementRule.review, hslots, ElementRule.reviewFrom_cons_of_none hnone rfl]
  have hkind := ElementRule.isStructural_rejection onlyA.content onlyA.content.begin .text
  exact ⟨_, List.mem_cons_self, hkind, rfl, rfl⟩

/-- An element whose content is two texts and an `a`. -/
def twoTextsA : ElementRule where
  tag := "p"
  kind := .element
  attributes := []
  content := .single (.ofEdges
    [⟨.start, .token .text, .id 1⟩, ⟨.id 1, .token .text, .id 2⟩,
      ⟨.id 2, .token (.element "a"), .fin⟩])

/-- Where text is taken again and changes something, no run is astray, and yet the `a`
is rejected: the comment that stands for the `b` joins the two texts. -/
example :
    let children : List Node :=
      [.text "x", .element "b" .empty [], .text "y", .element "a" .empty []]
    twoTextsA.content.isSteady false twoTextsA.content.initial (Slot.ofNodes children) = false ∧
      twoTextsA.content.strays false twoTextsA.content.initial (Slot.ofNodes children) = [] ∧
      (twoTextsA.review (twoTextsA.handedOut children)).map (fun v => (v.token, v.index)) =
        [(some (.element "a"), some 3), (none, some 2)] := by
  decide

end TreeGrammar
