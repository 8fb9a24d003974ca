/-
What can be made in one session.

Whoever holds a session can have tables made by the operators, from tables made before,
and have patterns compiled, in any order and over any number of failures. An **order**
is one such wish; a workshop is a session with the tables that have been made in it.
What one order keeps (`Workshop.Orderly.step`) a whole list of orders keeps, so every
table that can ever be made keeps the rules (`problems_eq_nil_of_orders`).
-/
import TreeGrammar.Proofs.Compile.Upkeep

set_option autoImplicit false

namespace TreeGrammar

open Compiling

/-- What a session may be asked for. A table is named by how many have been
made before it. -/
inductive Order where
  | emptyWord
  | single (x : Token)
  | copy (i : Nat)
  | append (i j : Nat)
  | merge (i j : Nat)
  | optional (i : Nat)
  | plus (i : Nat)
  | kleene (i : Nat)
  | pattern (p : Pattern)
  | locate (place : Option String)
  | takeWarnings

namespace Order

/-- The one table of a step; without its operands a step is not taken, and
makes none. -/
def made : Option (Compiling Automaton) → Compiling (List Automaton)
  | none => return []
  | some step => do
      let a ← step
      return [a]

/-- The tables that an order **makes**, given those made before. -/
def tables (book : Rulebook) (before : List Automaton) : Order → Compiling (List Automaton)
  | emptyWord => return [.emptyWord]
  | single x => return [.single x]
  | copy i => made do
      let a ← before[i]?
      return build fun drawn => a.copy drawn
  | append i j => made do
      let a ← before[i]?
      let b ← before[j]?
      return build fun drawn => a.append drawn b
  | merge i j => made do
      let a ← before[i]?
      let b ← before[j]?
      return build fun drawn => a.merge drawn b
  | optional i => made do
      let a ← before[i]?
      return pure a.optional
  | plus i => made do
      let a ← before[i]?
      return build fun drawn => a.plus drawn
  | kleene i => made do
      let a ← before[i]?
      return build fun drawn => a.kleene drawn
  | pattern p => do
      let c ← Compiling.pattern book p
      return c.automata
  | locate place => do
      modifyThe Session fun s => { s with location := place }
      return []
  | takeWarnings => do
      modifyThe Session fun s => (Session.takeWarnings.run s).2
      return []

end Order

/-- A session together with the tables that have been made in it. -/
structure Workshop where
  session : Session := {}
  tables : List Automaton := []

namespace Workshop

/-- The workshop after an order. A failure makes no table, and the session is as the
failure has left it. -/
def step (book : Rulebook) (w : Workshop) (o : Order) : Workshop :=
  match (o.tables book w.tables).run.run w.session with
  | (.ok more, s) => ⟨s, w.tables ++ more⟩
  | (.error _, s) => ⟨s, w.tables⟩

/-- The workshop after orders, one after the other. -/
def run (book : Rulebook) (w : Workshop) (os : List Order) : Workshop := os.foldl (step book) w

/-- All tables, those made and those the session keeps, are orderly. -/
structure Orderly (w : Workshop) : Prop where
  session : w.session.Orderly
  tables : ∀ a ∈ w.tables, a.Orderly w.session.drawn

end Workshop

variable {book : Rulebook} {before : List Automaton} {n : Nat}

/-- An order that cannot be understood makes nothing; any other makes what
its step does. -/
theorem Order.keepsOrder_made {o : Option (Compiling Automaton)}
    (h : ∀ step, o = some step → KeepsOrder n step fun k a => a.Orderly k) :
    KeepsOrder n (made o) fun k as => ∀ a ∈ as, a.Orderly k := by
  cases o with
  | none => exact keepsOrder_pure fun _ _ a ha => absurd ha List.not_mem_nil
  | some step =>
      apply keepsOrder_bind (h step rfl)
      intro a k _ ha
      refine keepsOrder_pure fun k' hk' b hb => ?_
      rw [List.mem_singleton.mp hb]
      exact ha.mono hk'

/-- An order for one table from one table. -/
theorem Order.keepsOrder_one {f : Automaton → Compiling Automaton} (i : Nat)
    (h : ∀ a ∈ before, KeepsOrder n (f a) fun k a => a.Orderly k) :
    KeepsOrder n (made do
      let a ← before[i]?
      return f a) fun k as => ∀ a ∈ as, a.Orderly k := by
  refine keepsOrder_made fun step hstep => ?_
  obtain ⟨a, ha, hstep⟩ := Option.bind_eq_some_iff.mp hstep
  rw [← Option.some.inj hstep]
  exact h a (List.mem_of_getElem? ha)

/-- An order for one table from two tables, or from one taken twice. -/
theorem Order.keepsOrder_two {f : Automaton → Automaton → Compiling Automaton} (i j : Nat)
    (h : ∀ a ∈ before, ∀ b ∈ before, KeepsOrder n (f a b) fun k a => a.Orderly k) :
    KeepsOrder n (made do
      let a ← before[i]?
      let b ← before[j]?
      return f a b) fun k as => ∀ a ∈ as, a.Orderly k := by
  refine keepsOrder_made fun step hstep => ?_
  obtain ⟨a, ha, hstep⟩ := Option.bind_eq_some_iff.mp hstep
  obtain ⟨b, hb, hstep⟩ := Option.bind_eq_some_iff.mp hstep
  rw [← Option.some.inj hstep]
  exact h a (List.mem_of_getElem? ha) b (List.mem_of_getElem? hb)

/-- Where the tables made before are orderly, **those that an order makes are**. There
is one case for each kind of order. -/
theorem Order.keepsOrder (o : Order) (hbefore : ∀ a ∈ before, a.Orderly n) :
    KeepsOrder n (o.tables book before) fun k as => ∀ a ∈ as, a.Orderly k := by
  -- tables made before are orderly within the number that has been drawn by now
  cases o with
  | emptyWord =>
      refine keepsOrder_pure fun k _ a ha => ?_
      rw [List.mem_singleton.mp ha]
      exact .emptyWord k
  | single x =>
      refine keepsOrder_pure fun k _ a ha => ?_
      rw [List.mem_singleton.mp ha]
      exact .single x k
  | copy i =>
      exact keepsOrder_one i fun _ ha => keepsOrder_build fun k _ => (hbefore _ ha).copy k
  | append i j =>
      refine keepsOrder_two i j fun _ ha _ hb => keepsOrder_build fun k hk => ?_
      exact ((hbefore _ ha).mono hk).append ((hbefore _ hb).mono hk)
  | merge i j =>
      refine keepsOrder_two i j fun _ ha _ hb => keepsOrder_build fun k hk => ?_
      exact ((hbefore _ ha).mono hk).merge ((hbefore _ hb).mono hk)
  | optional i =>
      exact keepsOrder_one i fun _ ha => keepsOrder_pure
        fun k hk => ((hbefore _ ha).mono hk).optional
  | plus i =>
      exact keepsOrder_one i fun _ ha => keepsOrder_build fun k hk => ((hbefore _ ha).mono hk).plus
  | kleene i =>
      exact keepsOrder_one i fun _ ha => keepsOrder_build
        fun k hk => ((hbefore _ ha).mono hk).kleene
  | pattern p =>
      apply keepsOrder_bind (keepsOrder_pattern book p n)
      intro c k _ hc
      exact keepsOrder_pure fun k' hk' a ha => (hc a ha).mono hk'
  | locate place =>
      refine keepsOrder_bind (keepsOrder_modify fun s hs _ => ⟨hs, rfl⟩) fun _ k _ _ => ?_
      exact keepsOrder_pure fun _ _ a ha => absurd ha List.not_mem_nil
  | takeWarnings =>
      refine keepsOrder_bind (keepsOrder_modify fun s hs _ => ⟨hs, rfl⟩) fun _ k _ _ => ?_
      exact keepsOrder_pure fun _ _ a ha => absurd ha List.not_mem_nil

namespace Workshop

theorem orderly_new : Orderly {} :=
  ⟨Session.orderly_new, fun _ ha => absurd ha List.not_mem_nil⟩

/-- One order keeps a workshop orderly, also one that fails. Tables that it makes come
behind those that were there, and none is taken away. -/
theorem Orderly.step {w : Workshop} (h : w.Orderly) (o : Order) : (w.step book o).Orderly := by
  unfold Workshop.step
  cases hrun : (o.tables book w.tables).run.run w.session with
  | mk result s =>
      obtain ⟨hs, hle, hmade⟩ :=
        o.keepsOrder h.tables w.session result s h.session (Nat.le_refl _) hrun
      have hold : ∀ a ∈ w.tables, a.Orderly s.drawn := fun a ha => (h.tables a ha).mono hle
      cases result with
      | error e => exact ⟨hs, hold⟩
      | ok more =>
          refine ⟨hs, fun a ha => ?_⟩
          rcases List.mem_append.mp ha with ha | ha
          · exact hold a ha
          · exact hmade more rfl a ha

/-- Orders are carried out one after the other, and **each leaves the workshop
orderly**, whether it was fulfilled or refused. -/
theorem Orderly.run {w : Workshop} (h : w.Orderly) (os : List Order) : (w.run book os).Orderly := by
  induction os generalizing w with
  | nil => exact h
  | cons o os ih => exact ih (h.step o)

end Workshop

/-- Whatever has been ordered, every table made **has no problem**, and neither has any
table of a pattern that is compiled next. -/
theorem problems_eq_nil_of_orders (book : Rulebook) (os : List Order) :
    (∀ a ∈ (Workshop.run book {} os).tables, a.problems = [] ∧ a.WellFormed) ∧
      ∀ p c s', (pattern book p).Yields (Workshop.run book {} os).session c s' →
        ∀ a ∈ c.automata, a.problems = [] ∧ a.WellFormed := by
  have h : (Workshop.run book {} os).Orderly := Workshop.orderly_new.run os
  refine ⟨fun a ha => ?_, fun p c s' hrun a ha => ?_⟩
  · have hrules := (h.tables a ha).wellFormed
    exact ⟨a.problems_eq_nil_iff.mpr hrules, hrules⟩
  · obtain ⟨-, -, hmade⟩ := keepsOrder_pattern book p _ _ _ _ h.session (Nat.le_refl _) hrun
    have hrules := (hmade c rfl a ha).wellFormed
    exact ⟨a.problems_eq_nil_iff.mpr hrules, hrules⟩

/-- An `a` that may be missing, put behind itself, repeated, and then offered as a
choice between itself and itself. -/
def doubled : List Order :=
  [.single (.element "a"), .optional 0, .append 1 1, .plus 2, .merge 3 3]

/-- Four numbers have been drawn by then, and the session goes on with a pattern. -/
theorem problems_eq_nil_of_orders_doubled :
    (∃ a, (Workshop.run {} {} doubled).tables[4]? = some a ∧ a.stateCount = 6 ∧
      a.problems = [] ∧ a.WellFormed) ∧
    ∃ a s', (pattern {} (.plus (.token "a"))).Yields (Workshop.run {} {} doubled).session
      (.single a) s' ∧ s'.drawn = 5 ∧ a.problems = [] ∧ a.WellFormed := by
  have hlast : (Workshop.run {} {} doubled).tables[4]? = some _ := rfl
  have hrun : (pattern {} (.plus (.token "a"))).Yields (Workshop.run {} {} doubled).session
      (.single _) _ :=
    yields_pattern_of_term rfl (by simp) rfl rfl
  obtain ⟨hmade, hnext⟩ := problems_eq_nil_of_orders {} doubled
  exact ⟨⟨_, hlast, rfl, hmade _ (List.mem_of_getElem? hlast)⟩,
    _, _, hrun, rfl, hnext _ _ _ hrun _ (List.mem_singleton_self _)⟩

end TreeGrammar
