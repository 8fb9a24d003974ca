/-
What the operators on two tables make in a session.

The operands are any two tables that were made before in the same session, by whatever
orders; they may be one table taken twice, and they may share states. Such tables keep
the rules, and their states have been drawn (`Workshop.Orderly.run`), which is all that
the theorems about `append` and `merge` ask for. A session hears of every lost edge
(`warnings_afterBuild_iff`), so that **no new warning** means no loss.
-/
import TreeGrammar.Proofs.Compile.Workshop
import TreeGrammar.Proofs.Automaton.AppendRuns

set_option autoImplicit false

namespace TreeGrammar

open Automaton Compiling

namespace Workshop

/-- The order makes **one table**, and leaves the session behind. -/
def Fulfils (book : Rulebook) (w : Workshop) (o : Order) (c : Automaton) (s' : Session) : Prop :=
  w.step book o = ⟨s', w.tables ++ [c]⟩

variable {book : Rulebook} {w : Workshop} {o : Order} {i j : Nat} {a b : Automaton}

/-- An order for what an operator builds is met, and the losses are added to the
warnings. What remains of such an order is a property of the operator alone. -/
theorem fulfils_of_tables (f : Nat → Built)
    (h : o.tables book w.tables = Order.made (some (build f))) :
    w.Fulfils book o (f w.session.drawn).automaton (afterBuild w.session (f w.session.drawn)) := by
  unfold Fulfils step
  rw [h]
  rfl

/-- An order for a sequence of two tables that are there is fulfilled by `append`, on
the numbers that come next in the session. -/
theorem fulfils_append (ha : w.tables[i]? = some a) (hb : w.tables[j]? = some b) :
    w.Fulfils book (.append i j) (append w.session.drawn a b).automaton
      (afterBuild w.session (append w.session.drawn a b)) :=
  fulfils_of_tables (fun drawn => append drawn a b) (by simp only [Order.tables, ha, hb]; rfl)

/-- An order for a choice is fulfilled by `merge` in the same way. -/
theorem fulfils_merge (ha : w.tables[i]? = some a) (hb : w.tables[j]? = some b) :
    w.Fulfils book (.merge i j) (merge w.session.drawn a b).automaton
      (afterBuild w.session (merge w.session.drawn a b)) :=
  fulfils_of_tables (fun drawn => merge drawn a b) (by simp only [Order.tables, ha, hb]; rfl)

/-- Whatever has been ordered, a table that was made **keeps the rules on drawn
states**. So the operators' lemmas can be used of tables that other orders have left. -/
theorem orderly_of_run {os : List Order} (ha : (run book {} os).tables[i]? = some a) :
    a.Orderly (run book {} os).session.drawn :=
  (orderly_new.run os).tables a (List.mem_of_getElem? ha)

end Workshop

/-- A session hears of **every** lost edge. No warning therefore means that nothing was
lost in the last step. -/
theorem warnings_afterBuild_iff {s : Session} {c : Built} :
    (afterBuild s c).warnings = s.warnings ↔ c.collisions = [] := by
  unfold afterBuild
  rw [List.append_right_eq_self, List.map_eq_nil_iff]

variable {book : Rulebook} {os : List Order} {i j : Nat} {a b : Automaton}

/-! ## One after the other -/

/-- If no warning is added, what `append` makes accepts **exactly the products**, by
runs that take the first edge of a chain wherever there is more than one. -/
theorem products_of_unwarned (ha : (Workshop.run book {} os).tables[i]? = some a)
    (hb : (Workshop.run book {} os).tables[j]? = some b) :
    ∃ c s', (Workshop.run book {} os).Fulfils book (.append i j) c s' ∧
      (s'.warnings = (Workshop.run book {} os).session.warnings →
        ∀ w, c.accepts w = true ↔ ∃ u v, w = u ++ v ∧ a.accepts u = true ∧ b.accepts v = true) := by
  have hao := Workshop.orderly_of_run ha
  have hbo := Workshop.orderly_of_run hb
  refine ⟨_, _, Workshop.fulfils_append ha hb, fun hquiet => ?_⟩
  exact accepts_append_iff_of_unlost hao.wellFormed hbo.wellFormed hao.within hbo.within
    (warnings_afterBuild_iff.mp hquiet)

/-- Any number of rounds of an `a` and perhaps an `a` with a `b`; and a `c` with an `a`
and a `b`, on states that the rounds have too. -/
def roundsAndEnding : List Order :=
  [.single (.element "a"), .single (.element "b"), .append 0 1, .optional 2, .append 0 3, .kleene 4,
    .single (.element "c"), .append 6 2]

/-- The rounds have an edge that no run takes, and still nothing is lost behind them. -/
theorem products_of_unwarned_roundsAndEnding :
    ∃ a b c s', (Workshop.run {} {} roundsAndEnding).tables[5]? = some a ∧
      (Workshop.run {} {} roundsAndEnding).tables[7]? = some b ∧ a.overlaps b = true ∧
      (Workshop.run {} {} roundsAndEnding).Fulfils {} (.append 5 7) c s' ∧ s'.warnings = [] ∧
      c.accepts [.element "c", .element "a", .element "b"] = true ∧
      c.accepts
          [.element "a", .element "a", .element "b", .element "c", .element "a", .element "b"] =
        true := by
  have ha : (Workshop.run {} {} roundsAndEnding).tables[5]? = some _ := rfl
  have hb : (Workshop.run {} {} roundsAndEnding).tables[7]? = some _ := rfl
  obtain ⟨c, s', hmade, hproducts⟩ := products_of_unwarned ha hb
  have hquiet : s'.warnings = [] := by
    rw [show s' =
      ((Workshop.run {} {} roundsAndEnding).step {} (.append 5 7)).session by rw [hmade]]
    rfl
  refine ⟨_, _, c, s', ha, hb, rfl, hmade, hquiet, (hproducts hquiet _).mpr ⟨[], _, rfl, rfl, rfl⟩,
    (hproducts hquiet _).mpr ⟨[.element "a", .element "a", .element "b"], _, rfl, rfl, rfl⟩⟩

/-- Where the second table may be empty, a word of the first one is accepted by what
`append` makes **exactly if**, from the first token on that a state of the first table
hands over, the second table accepts the rest. -/
theorem appended_keeps_iff (ha : (Workshop.run book {} os).tables[i]? = some a)
    (hb : (Workshop.run book {} os).tables[j]? = some b) (hnull : b.accepts [] = true) :
    ∃ c s', (Workshop.run book {} os).Fulfils book (.append i j) c s' ∧
      ∀ w, a.accepts w = true → (c.accepts w = true ↔
        ∀ u x v, w = u ++ x :: v → a.FirstHandedOver b .start u x → b.accepts (x :: v) = true) := by
  have hao := Workshop.orderly_of_run ha
  have hbo := Workshop.orderly_of_run hb
  refine ⟨_, _, Workshop.fulfils_append ha hb, fun w hw => ?_⟩
  rw [accepts_append hao.wellFormed hbo.wellFormed hao.within hbo.within]
  exact readsInTurn_iff_of_reads hnull (accepts_iff.mp hw)

/-- Rounds of an `a` and perhaps a `b`; and an `a` that may be missing. -/
def roundsAndTail : List Order :=
  [.single (.element "a"), .single (.element "b"), .optional 1, .append 0 2, .plus 3, .optional 0]

/-- Behind the first `a` the rounds may end, and have an edge for the second `a` only
further along the chain. -/
theorem appended_keeps_iff_roundsAndTail :
    ∃ a b c s', (Workshop.run {} {} roundsAndTail).tables[4]? = some a ∧
      (Workshop.run {} {} roundsAndTail).tables[5]? = some b ∧ b.accepts [] = true ∧
      (Workshop.run {} {} roundsAndTail).Fulfils {} (.append 4 5) c s' ∧
      c.accepts [.element "a", .element "b"] = true ∧
      a.accepts [.element "a", .element "a", .element "b"] = true ∧
      ¬ c.accepts [.element "a", .element "a", .element "b"] = true := by
  have ha : (Workshop.run {} {} roundsAndTail).tables[4]? = some _ := rfl
  have hb : (Workshop.run {} {} roundsAndTail).tables[5]? = some _ := rfl
  obtain ⟨c, s', hmade, hkeeps⟩ := appended_keeps_iff ha hb rfl
  refine ⟨_, _, c, s', ha, hb, rfl, hmade, (hkeeps _ rfl).mpr ?_, rfl, fun h => ?_⟩
  · -- neither of the tokens is handed over
    intro u x v hw hfirst
    cases hfirst with
    | here hover =>
        cases hw
        exact absurd hover (by decide)
    | later _ ht hrest =>
        cases hrest with
        | here hover =>
            cases hw
            cases ht
            exact absurd hover (by decide)
        | later _ _ _ => exact absurd (congrArg List.length hw) (by simp)
  · -- the second `a` is, and the tail does not read on
    have hrest :=
      (hkeeps _ rfl).mp h [.element "a"] (.element "a")
        [.element "b"] rfl (.later rfl rfl (.here rfl))
    exact absurd hrest (by decide)

/-- A word of the rounds **is lost** behind a tail that may be missing. The one warning
tells of a state at which the edge of the rounds was kept. -/
theorem roundsAndTail_loses : ∃ a b c s', (Workshop.run {} {} roundsAndTail).tables[4]? = some a ∧
    (Workshop.run {} {} roundsAndTail).tables[5]? = some b ∧ b.accepts [] = true ∧
    (Workshop.run {} {} roundsAndTail).Fulfils {} (.append 4 5) c s' ∧
    s'.warnings = [⟨none, .id 2, .token (.element "a"), .id 1, .fin⟩] ∧
    a.accepts [.element "a", .element "a", .element "b"] = true ∧
    c.accepts [.element "a", .element "a", .element "b"] = false :=
  ⟨_, _, _, _, rfl, rfl, rfl, rfl, rfl, rfl, rfl⟩

/-! ## One or the other -/

/-- What `merge` makes accepts what the first table accepts, and of what the second one
accepts the empty word and the words whose first token does not open the first; and
**one warning** is added for each token that opens both with different targets, once the
second is on states of its own. -/
theorem merged_exactly (ha : (Workshop.run book {} os).tables[i]? = some a)
    (hb : (Workshop.run book {} os).tables[j]? = some b) :
    ∃ (c : Automaton) (s' : Session) (lost : List Collision),
      (Workshop.run book {} os).Fulfils book (.merge i j) c s' ∧
      (∀ w, c.accepts w = true ↔ a.accepts w = true ∨
        b.accepts w = true ∧ ∀ x v, w = x :: v → a.target .start (.token x) = none) ∧
      s'.warnings = (Workshop.run book {} os).session.warnings ++
        lost.map (Warning.mk (Workshop.run book {} os).session.location) ∧
      (lost.map Collision.label).Nodup ∧
      ∀ e, e ∈ lost ↔ e.state = .start ∧ ∃ x, e.label = .token x ∧
        a.target .start (.token x) = some e.kept ∧
        (apart (Workshop.run book {} os).session.drawn a b).automaton.target .start (.token x) =
          some e.dropped ∧
        e.kept ≠ e.dropped := by
  have hao := Workshop.orderly_of_run ha
  have hbo := Workshop.orderly_of_run hb
  -- after the copy the two tables share no state, so nothing is compared but the
  -- edges of `start`
  have hright := hbo.wellFormed.apart (Workshop.run book {} os).session.drawn a
  have hdisjoint := disjoint_apart b hao.within
  refine ⟨_, _, _, Workshop.fulfils_merge ha hb, fun w => ?_, rfl, ?_, ?_⟩
  · rw [merge_eq, accepts_union_iff hao.wellFormed hright hdisjoint, accepts_apart]
  · exact nodup_labels_collisions_union hao.wellFormed hdisjoint
  · exact mem_collisions_union_iff hao.wellFormed hright hdisjoint

/-- An `a` with a `b`, and the same with another `a` behind it, on a state
that both have. -/
def sharedBranches : List Order :=
  [.single (.element "a"), .single (.element "b"), .append 0 1, .append 2 0]

/-- The branches differ where the first one began, and the second one is lost. -/
theorem merged_exactly_sharedBranches :
    ∃ a b c s', (Workshop.run {} {} sharedBranches).tables[2]? = some a ∧
      (Workshop.run {} {} sharedBranches).tables[3]? = some b ∧ a.overlaps b = true ∧
      (Workshop.run {} {} sharedBranches).Fulfils {} (.merge 2 3) c s' ∧
      c.accepts [.element "a", .element "b"] = true ∧
      b.accepts [.element "a", .element "b", .element "a"] = true ∧
      ¬ c.accepts [.element "a", .element "b", .element "a"] = true ∧
      ⟨none, .start, .token (.element "a"), .id 1, .id 3⟩ ∈ s'.warnings := by
  have ha : (Workshop.run {} {} sharedBranches).tables[2]? = some _ := rfl
  have hb : (Workshop.run {} {} sharedBranches).tables[3]? = some _ := rfl
  obtain ⟨c, s', lost, hmade, haccepts, hwarnings, -, hlost⟩ := merged_exactly ha hb
  refine ⟨_, _, c, s', ha, hb, rfl, hmade, (haccepts _).mpr (.inl rfl), rfl, fun h => ?_, ?_⟩
  · rcases (haccepts _).mp h with h | ⟨-, h⟩
    · exact absurd h (by decide)
    · exact absurd (h _ _ rfl) (by decide)
  · rw [hwarnings]
    refine List.mem_append_right _ (List.mem_map_of_mem ((hlost ⟨_, _, _, _⟩).mpr ?_))
    exact ⟨rfl, _, rfl, rfl, rfl, by decide⟩

end TreeGrammar
