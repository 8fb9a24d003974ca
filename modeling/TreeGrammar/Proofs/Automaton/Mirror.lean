/-
Tables that are the same in everything but the names of their states.

A renaming as in `TreeGrammar.Proofs.Automaton.Renaming` relates what two tables do.
Here they are compared as they are written down: `Mirrors f a b` says that the rows of
`b` are those of `a`, in the same order and each with its edges in the same order, with
`f` applied to every state. All that is done to tables is done by walking over lists
that a table shows, so if `f` merges no two states, each operation on tables keeps two
of them mirrored.
-/
import Mathlib.Data.List.Forall2
import Mathlib.Logic.Function.Basic
import TreeGrammar.Proofs.Automaton.Repeat
import TreeGrammar.Proofs.Automaton.Append
import TreeGrammar.Proofs.Automaton.Merge

set_option autoImplicit false

namespace TreeGrammar

universe u v

/-! ## Lists without repetitions -/

/-- Where no two are merged, dropping repetitions **commutes** with a map. So the states
of a table are renamed in the order in which they are listed. -/
theorem eraseDups_map {α β : Type} [DecidableEq α] [DecidableEq β] {g : α → β}
    (hg : Function.Injective g) (xs : List α) : (xs.map g).eraseDups = xs.eraseDups.map g := by
  induction hn : xs.length using Nat.strongRecOn generalizing xs with
  | _ n ih =>
      cases xs with
      | nil => rfl
      | cons x rest =>
          have hle := List.length_filter_le (fun y => !y == x) rest
          rw [List.length_cons] at hn
          have hfilter :
              (rest.map g).filter (fun y => !y == g x) = (rest.filter fun y => !y == x).map g := by
            rw [List.filter_map]
            congr 1
            apply List.filter_congr
            intro y _
            simp [hg.eq_iff]
          rw [List.map_cons, List.eraseDups_cons, List.eraseDups_cons, List.map_cons, hfilter,
            ih _ (by omega) _ rfl]

/-! ## Tables entry by entry -/

section Pairs

variable {κ κ' : Type u} {ν ν' : Type v} [DecidableEq κ] [DecidableEq κ'] {g : κ → κ'}
  {R : ν → ν' → Prop} {l : List (κ × ν)} {l' : List (κ' × ν')} {v : ν} {v' : ν'}

/-- The pairs match: the key of the second is the image of that of the first, and the
values are related. -/
def PairCorresponds (g : κ → κ') (R : ν → ν' → Prop) (p : κ × ν) (q : κ' × ν') : Prop :=
  q.1 = g p.1 ∧ R p.2 q.2

/-- Under keys that match, **values that match** are found, or none is on either side.
The search goes through both lists in step. -/
theorem rel_findPair (hg : Function.Injective g) (h : List.Forall₂ (PairCorresponds g R) l l')
    (k : κ) : Option.Rel R (findPair k l) (findPair (g k) l') := by
  induction h with
  | nil => exact .none
  | @cons p q _ _ hpq _ ih =>
      obtain ⟨k₀, v₀⟩ := p
      obtain ⟨k₁, v₁⟩ := q
      obtain ⟨rfl, hv⟩ := hpq
      by_cases hk : k₀ = k
      · rw [findPair, findPair, if_pos hk, if_pos (congrArg g hk)]
        exact .some hv
      · rw [findPair, findPair, if_neg hk, if_neg (hg.ne hk)]
        exact ih

/-- Putting a pair under corresponding keys into lists that correspond pair by pair
keeps them so. The keys have to correspond **one to one**, or the pair might replace
another one on one side only. -/
theorem forall₂_putPair (hg : Function.Injective g) (h : List.Forall₂ (PairCorresponds g R) l l')
    (k : κ) (hv : R v v') : List.Forall₂ (PairCorresponds g R) (putPair k v l)
    (putPair (g k) v' l') := by
  induction h with
  | nil => exact .cons ⟨rfl, hv⟩ .nil
  | @cons p q _ _ hpq hrest ih =>
      obtain ⟨k₀, v₀⟩ := p
      obtain ⟨k₁, v₁⟩ := q
      obtain ⟨rfl, hv₀⟩ := hpq
      by_cases hk : k₀ = k
      · rw [putPair, putPair, if_pos hk, if_pos (congrArg g hk)]
        exact .cons ⟨rfl, hv⟩ hrest
      · rw [putPair, putPair, if_neg hk, if_neg (hg.ne hk)]
        exact .cons ⟨rfl, hv₀⟩ ih

end Pairs

namespace OrderedTable

variable {κ κ' : Type u} {ν ν' : Type v} {g : κ → κ'} {R : ν → ν' → Prop}
  {t : OrderedTable κ ν} {t' : OrderedTable κ' ν'} {v : ν} {v' : ν'}

/-- The tables **correspond** entry by entry, in the same order. -/
def Corresponds (g : κ → κ') (R : ν → ν' → Prop) (t : OrderedTable κ ν) (t' : OrderedTable κ' ν') :
    Prop :=
  List.Forall₂ (PairCorresponds g R) t.entries t'.entries

/-- Tables without entries correspond under every renaming of keys. -/
theorem corresponds_empty : Corresponds g R (empty : OrderedTable κ ν)
    (empty : OrderedTable κ' ν') := .nil

/-- Corresponding tables are both empty or neither is, which is what decides whether a
row is kept. -/
theorem Corresponds.isEmpty_eq (h : t.Corresponds g R t') : t.isEmpty = t'.isEmpty := by
  have hlen := List.Forall₂.length_eq h
  rw [isEmpty, isEmpty, Bool.eq_iff_iff, List.isEmpty_iff_length_eq_zero,
    List.isEmpty_iff_length_eq_zero, hlen]

/-- A change that is made to every value alike keeps the correspondence, with what it
makes of the relation between values. -/
theorem Corresponds.mapValues {ω ω' : Type v} {S : ω → ω' → Prop} {f : ν → ω} {f' : ν' → ω'}
    (h : t.Corresponds g R t') (hf : ∀ v v', R v v' → S (f v) (f' v')) :
    (t.mapValues fun _ v => f v).Corresponds g S (t'.mapValues fun _ v => f' v) := by
  unfold Corresponds OrderedTable.mapValues
  rw [List.forall₂_map_left_iff, List.forall₂_map_right_iff]
  exact h.imp fun p q hpq => ⟨hpq.1, hf _ _ hpq.2⟩

variable [DecidableEq κ] [DecidableEq κ']

/-- Reading corresponding keys gives related values, **or none on either side**. -/
theorem Corresponds.get? (h : t.Corresponds g R t') (hg : Function.Injective g) (k : κ) :
    Option.Rel R (t.get? k) (t'.get? (g k)) :=
  rel_findPair hg h k

/-- Tables still correspond when related values are put in under corresponding keys. -/
theorem Corresponds.insert (h : t.Corresponds g R t') (hg : Function.Injective g) (k : κ)
    (hv : R v v') : (t.insert k v).Corresponds g R (t'.insert (g k) v') :=
  forall₂_putPair hg h k hv

/-- Nor is a correspondence lost when corresponding keys are taken out. -/
theorem Corresponds.erase (h : t.Corresponds g R t') (hg : Function.Injective g) (k : κ) :
    (t.erase k).Corresponds g R (t'.erase (g k)) := by
  refine List.rel_filter (fun p q hpq => ?_) h
  have hkey : q.1 = g k ↔ p.1 = k := by rw [hpq.1, hg.eq_iff]
  simp only [decide_eq_true_eq, ne_eq, hkey]

end OrderedTable

/-! ## Renamed states -/

/-- A **recoding** of states: no two of them are merged, and the two
shared ones stay. -/
structure Recoding (f : State → State) : Prop where
  injective : Function.Injective f
  start : f .start = .start
  fin : f .fin = .fin

/-- A recoding fixes `start`, and nothing else is sent there. -/
theorem Recoding.eq_start_iff {f : State → State} (hf : Recoding f) {s : State} :
    f s = .start ↔ s = .start := by
  constructor
  · intro h
    exact hf.injective (h.trans hf.start.symm)
  · rintro rfl
    exact hf.start

/-- The edge between the renamed states. -/
def Edge.recode (f : State → State) (e : Edge) : Edge := ⟨f e.source, e.label, f e.target⟩

namespace Automaton

/-- The rows match: the same labels in the same order, for the renamed states. -/
def RowMirrors (f : State → State) : Row → Row → Prop :=
  OrderedTable.Corresponds id fun s t => t = f s

/-- The second table **mirrors** the first: row by row and edge by edge it is the first
with its states renamed. -/
def Mirrors (f : State → State) (a b : Automaton) : Prop :=
  a.rows.Corresponds f (RowMirrors f) b.rows

namespace Mirrors

variable {f : State → State} {a b c d : Automaton} {s t : State} {l : Label}

/-! ## What mirrored tables show -/

/-- Corresponding rows have the same labels, and what they enter is renamed. -/
theorem get?_row {row row' : Row} (h : RowMirrors f row row') (l : Label) :
    row'.get? l = (row.get? l).map f := by
  have hrel := h.get? Function.injective_id l
  rw [id_eq] at hrel
  generalize row.get? l = found, row'.get? l = found' at hrel
  cases hrel with
  | none => rfl
  | some heq => rw [heq, Option.map_some]

/-- They have them **in the same order**, which a search over the row can see. -/
theorem entries_row {row row' : Row} (h : RowMirrors f row row') :
    row'.entries = row.entries.map fun q => (q.1, f q.2) := by
  have heq : List.Forall₂ Eq (row.entries.map fun q => (q.1, f q.2)) row'.entries := by
    rw [List.forall₂_map_left_iff]
    exact h.imp fun p q hpq => Prod.ext hpq.1.symm hpq.2.symm
  rw [List.forall₂_eq_eq_eq] at heq
  exact heq.symm

/-- The edge of a renamed state is the renamed edge. This alone would make one table a
renaming of the other; a mirrored one has its rows in the same order besides. -/
theorem target_eq (h : Mirrors f a b) (hf : Function.Injective f) (s : State) (l : Label) :
    b.target (f s) l = (a.target s l).map f := by
  unfold target
  have hrel := OrderedTable.Corresponds.get? h hf s
  generalize a.rows.get? s = found, b.rows.get? (f s) = found' at hrel
  cases hrel with
  | none => rfl
  | some hrow => exact get?_row hrow l

/-- The edges that leave a renamed state are listed in the same order as before. An
operator that copies a row copies the renamed one, edge for edge. -/
theorem leaving_eq (h : Mirrors f a b) (hf : Function.Injective f) (s : State) :
    b.leaving (f s) = (a.leaving s).map fun q => (q.1, f q.2) := by
  unfold leaving
  have hrel := OrderedTable.Corresponds.get? h hf s
  generalize a.rows.get? s = found, b.rows.get? (f s) = found' at hrel
  cases hrel with
  | none => rfl
  | some hrow => exact entries_row hrow

/-- The edges are **the same, in the same order**, between the renamed states. Putting a
table into another goes by this list, so the order is what makes mirrored operands give
mirrored results. -/
theorem edges_eq (h : Mirrors f a b) : b.edges = a.edges.map (Edge.recode f) := by
  unfold edges
  rw [List.map_flatMap]
  have hrows : List.Forall₂ (PairCorresponds f (RowMirrors f)) a.rows.entries b.rows.entries := h
  generalize a.rows.entries = rows, b.rows.entries = rows' at hrows
  induction hrows with
  | nil => rfl
  | cons hpq _ ih =>
      rw [List.flatMap_cons, List.flatMap_cons, ih, hpq.1, entries_row hpq.2,
        List.map_map, List.map_map]
      rfl

/-- The states are the renamed ones, **in the same order**. It is by its place in this
list that a copy numbers a state. -/
theorem states_eq (h : Mirrors f a b) (hf : Recoding f) : b.states = a.states.map f := by
  unfold states
  rw [← eraseDups_map hf.injective, h.edges_eq, List.map_append, List.map_flatMap, List.flatMap_map]
  simp only [List.map_cons, List.map_nil, hf.start, hf.fin]
  rfl

/-- Mirrored tables have equally many states, so a search that is bounded by the number
is cut off in both at the same place or in neither. -/
theorem stateCount_eq (h : Mirrors f a b) (hf : Recoding f) : b.stateCount = a.stateCount := by
  unfold stateCount
  rw [h.states_eq hf, List.length_map]

/-- Mirrored tables do the same: the function **renames** all states. All that was shown
of renamings holds of them: the same words are spelled and accepted. -/
theorem renames (h : Mirrors f a b) (hf : Recoding f) : Renames f (fun _ => True) a b where
  start_mem := trivial
  apply_start := hf.start
  apply_fin := hf.fin
  closed _ _ _ _ _ := trivial
  injective _ _ _ _ heq := hf.injective heq
  fin_mem := trivial
  target_eq s l _ := h.target_eq hf.injective s l

/-- The bounded search along epsilon edges gives **the same answer** in both tables. -/
theorem epsilonReaches_eq (h : Mirrors f a b) (hf : Recoding f) (s t : State) :
    b.epsilonReaches (f s) (f t) = a.epsilonReaches s t := by
  rw [Bool.eq_iff_iff, epsilonReaches_iff, epsilonReaches_iff]
  constructor
  · rintro ⟨r', hr', hpasses⟩
    rw [(h.renames hf).carries.epsilon_eq trivial] at hr'
    obtain ⟨r, hr, rfl⟩ := Option.map_eq_some_iff.mp hr'
    obtain ⟨t', ht', hrest⟩ := (h.renames hf).carries.exists_of_passes trivial hpasses
    obtain rfl := hf.injective ht'
    exact ⟨r, hr, hrest⟩
  · rintro ⟨r, hr, hpasses⟩
    refine ⟨f r, ?_, (h.renames hf).carries.passes trivial hpasses⟩
    rw [(h.renames hf).carries.epsilon_eq trivial, hr, Option.map_some]

/-- Mirrored tables agree on whether the content may be empty, which the operators
look at. -/
theorem isSome_epsilon_start_eq (h : Mirrors f a b) (hf : Recoding f) :
    (b.epsilon .start).isSome = (a.epsilon .start).isSome := by
  have heq := h.target_eq hf.injective .start .epsilon
  rw [hf.start] at heq
  rw [epsilon, heq, Option.isSome_map, epsilon]

/-! ## What is done to mirrored tables -/

/-- The table without edges is its own mirror image. -/
theorem blank : Mirrors f Automaton.blank Automaton.blank := OrderedTable.corresponds_empty

/-- Putting in the renamed edge keeps tables mirrored, also where the edge replaces
another one. -/
theorem insert (h : Mirrors f a b) (hf : Function.Injective f) (s : State) (l : Label) (t : State) :
    Mirrors f (a.insert s l t) (b.insert (f s) l (f t)) := by
  apply OrderedTable.Corresponds.insert h hf
  -- the row that the edge is put into is the one that is there, or a new one
  have hrow : RowMirrors f ((a.rows.get? s).getD .empty) ((b.rows.get? (f s)).getD .empty) := by
    have hrel := OrderedTable.Corresponds.get? h hf s
    generalize a.rows.get? s = found, b.rows.get? (f s) = found' at hrel
    cases hrel with
    | none => exact OrderedTable.corresponds_empty
    | some hrow => exact hrow
  exact hrow.insert Function.injective_id l rfl

theorem insertAll (h : Mirrors f a b) (hf : Function.Injective f) (es : List Edge) :
    Mirrors f (a.insertAll es) (b.insertAll (es.map (Edge.recode f))) := by
  induction es generalizing a b with
  | nil => exact h
  | cons e es ih => exact ih (h.insert hf e.source e.label e.target)

/-- An edge gives way in the one table exactly when the renamed edge gives way in
the other. -/
theorem insertKeeping {acc acc' : Automaton × List Collision} (h : Mirrors f acc.1 acc'.1)
    (hf : Function.Injective f) (e : Edge) :
    Mirrors f (Automaton.insertKeeping acc e).1 (Automaton.insertKeeping acc' (e.recode f)).1 := by
  have htarget : acc'.1.target (e.recode f).source (e.recode f).label =
      (acc.1.target e.source e.label).map f := h.target_eq hf e.source e.label
  unfold Automaton.insertKeeping
  rw [htarget]
  cases acc.1.target e.source e.label with
  | none => exact h.insert hf e.source e.label e.target
  | some kept =>
      have hkept : f kept = (e.recode f).target ↔ kept = e.target := hf.eq_iff
      simp only [Option.map_some, hkept]
      split
      · exact h
      · exact h

/-- So tables stay mirrored when a list of edges is put in that give way to those that
are there. -/
theorem insertAllKeeping (h : Mirrors f a b) (hf : Function.Injective f) (es : List Edge) :
    Mirrors f (a.insertAllKeeping es).1 (b.insertAllKeeping (es.map (Edge.recode f))).1 := by
  -- the collisions that are gathered on the way may differ: a table does not depend on them
  have hfold : ∀ acc acc' : Automaton × List Collision, Mirrors f acc.1 acc'.1 →
      Mirrors f (es.foldl Automaton.insertKeeping acc).1
        ((es.map (Edge.recode f)).foldl Automaton.insertKeeping acc').1 := by
    induction es with
    | nil => exact fun _ _ hacc => hacc
    | cons e es ih => exact fun acc acc' hacc => ih _ _ (hacc.insertKeeping hf e)
  exact hfold (a, []) (b, []) h

/-- Taking out the renamed edge keeps tables mirrored, down to the row that is dropped
when it was the last one in it. -/
theorem remove (h : Mirrors f a b) (hf : Function.Injective f) (s : State) (l : Label) :
    Mirrors f (a.remove s l) (b.remove (f s) l) := by
  unfold Automaton.remove
  have hrel := OrderedTable.Corresponds.get? h hf s
  generalize a.rows.get? s = found, b.rows.get? (f s) = found' at hrel
  cases hrel with
  | none => exact h
  | @some row row' hcorresponds =>
      have hrest : RowMirrors f (row.erase l) (row'.erase l) :=
        hcorresponds.erase Function.injective_id l
      simp only [hrest.isEmpty_eq]
      -- a row goes with its last edge, and both rows are empty or neither is
      split
      · exact OrderedTable.Corresponds.erase h hf s
      · exact OrderedTable.Corresponds.insert h hf s hrest

/-- Sending all edges from one target to another keeps tables mirrored. -/
theorem redirect (h : Mirrors f a b) (hf : Function.Injective f) (old new : State) :
    Mirrors f (a.redirect old new) (b.redirect (f old) (f new)) := by
  refine OrderedTable.Corresponds.mapValues h
    fun row row' hrow => OrderedTable.Corresponds.mapValues hrow ?_
  rintro s _ rfl
  by_cases hs : s = old
  · rw [if_pos hs, if_pos (congrArg f hs)]
  · rw [if_neg hs, if_neg (hf.ne hs)]

/-- Moving the end uses `start` and `fin` by name, so here the renaming has to leave
**these two** as they are. -/
theorem moveEnd (h : Mirrors f a b) (hf : Recoding f) (q : State) :
    Mirrors f (a.moveEnd q) (b.moveEnd (f q)) := by
  have hmoved := (h.remove hf.injective .start .epsilon).redirect hf.injective .fin q
  rw [hf.start, hf.fin] at hmoved
  exact hmoved

theorem optional (h : Mirrors f a b) (hf : Recoding f) : Mirrors f a.optional b.optional := by
  have hinsert := h.insert hf.injective .start .epsilon .fin
  rw [hf.start, hf.fin] at hinsert
  exact hinsert

/-- A renamed row at a renamed state has the renamed edges. -/
theorem edgesAt_map (f : State → State) (s : State) (row : List (Label × State)) :
    edgesAt (f s) (row.map fun q => (q.1, f q.2)) = (edgesAt s row).map (Edge.recode f) := by
  unfold edgesAt
  rw [List.map_map, List.map_map]
  rfl

/-- The edges of a row, given to another state. This is what the stages of a sequence
are made of, besides the edges of whole tables. -/
theorem edgesAt_leaving (h : Mirrors f a b) (hf : Function.Injective f) (s r : State) :
    edgesAt (f s) (b.leaving (f r)) = (edgesAt s (a.leaving r)).map (Edge.recode f) := by
  rw [h.leaving_eq hf, edgesAt_map]

/-! ## Operators on mirrored tables -/

/-- Unions of mirrored tables are mirrored: each table has its edges listed in the order
of the other. -/
theorem union (h : Mirrors f a b) (h' : Mirrors f c d) (hf : Function.Injective f) :
    Mirrors f (a.union c) (b.union d) := by
  unfold Automaton.union
  rw [h'.edges_eq]
  exact h.insertAllKeeping hf c.edges

/-- Mirrored tables are turned back upon themselves alike, provided the states where
rounds end **correspond**. Their numbers are drawn in different sessions. -/
theorem looped {n m : Nat} (h : Mirrors f a b) (hf : Recoding f) (hagain : f (again n) = again m) :
    Mirrors f (looped n a) (looped m b) := by
  have hmoved := h.moveEnd hf (again n)
  have hopening := hmoved.edgesAt_leaving hf.injective (again n) .start
  have hlooped := (hmoved.insertAll hf.injective
    (edgesAt (again n) ((a.moveEnd (again n)).leaving .start))).insert hf.injective
    (again n) .epsilon .fin
  rw [← hopening, hf.start, hf.fin, hagain] at hlooped
  exact hlooped

/-- The same holds of at least once, since both tables may be empty or neither. -/
theorem plus {n m : Nat} (h : Mirrors f a b) (hf : Recoding f) (hagain : f (again n) = again m) :
    Mirrors f (plus n a).automaton (plus m b).automaton := by
  rw [plus_eq, plus_eq]
  dsimp only
  rw [h.isSome_epsilon_start_eq hf]
  split
  · exact (h.looped hf hagain).optional hf
  · exact h.looped hf hagain

section Append

open Appending

variable {n m : Nat}

/-- The first table of a sequence, ending at the join, is mirrored if the
joins correspond. -/
theorem left (h : Mirrors f a b) (hf : Recoding f) (hjoin : f (join n a c) = join m b d) :
    Mirrors f (Appending.left n a c) (Appending.left m b d) := by
  have hmoved := h.moveEnd hf (join n a c)
  rw [hjoin] at hmoved
  exact hmoved

/-- Mirrored tables have corresponding feeders, listed in one order. -/
theorem feeders_eq (h : Mirrors f a b) (hf : Recoding f) (hjoin : f (join n a c) = join m b d) :
    feeders m b d = (feeders n a c).map f := by
  have hleft := h.left hf hjoin
  unfold feeders
  rw [hleft.states_eq hf, List.filter_map]
  congr 1
  apply List.filter_congr
  intro s _
  simp only [Function.comp_apply, ← hjoin, hleft.epsilonReaches_eq hf, ne_eq, hf.injective.eq_iff]

/-- They agree on whether any edge enters the join, and so on whether it is opened. -/
theorem entersJoin_eq (h : Mirrors f a b) (hf : Recoding f) (hjoin : f (join n a c) = join m b d) :
    entersJoin m b d = entersJoin n a c := by
  unfold entersJoin
  rw [(h.left hf hjoin).edges_eq, List.any_map]
  congr 1
  funext e
  simp only [Function.comp_apply, Edge.recode, ← hjoin, hf.injective.eq_iff]

/-- The edges of the second table that do not open it correspond. -/
theorem bodyEdges_eq (h' : Mirrors f (right n a c) (right m b d)) (hf : Recoding f) :
    bodyEdges m b d = (bodyEdges n a c).map (Edge.recode f) := by
  unfold bodyEdges
  rw [h'.edges_eq, List.filter_map]
  congr 1
  apply List.filter_congr
  intro e _
  simp only [Function.comp_apply, Edge.recode, ne_eq, hf.eq_start_iff]

variable (h : Mirrors f a b) (h' : Mirrors f (right n a c) (right m b d))
  (hf : Recoding f) (hjoin : f (join n a c) = join m b d)
include h h' hf hjoin

/-- The edges that are given to the feeders correspond, and come in the same order.
Order matters here, since the first of two edges for one place is kept. -/
theorem fedEdges_eq : fedEdges m b d = (fedEdges n a c).map (Edge.recode f) := by
  have hrow := h'.leaving_eq hf.injective .start
  rw [hf.start] at hrow
  unfold fedEdges
  rw [feeders_eq h hf hjoin, hrow, List.flatMap_map, List.map_flatMap]
  apply List.flatMap_congr
  intro s _
  rw [← edgesAt_map, List.filter_map]
  rfl

/-- Up to the last stage, one table after another is mirrored. -/
theorem joined : Mirrors f (Appending.joined n a c) (Appending.joined m b d) := by
  have hbody :=
    ((h.left hf hjoin).insertAllKeeping hf.injective (fedEdges n a c)).insertAll hf.injective
    (bodyEdges n a c)
  rw [← fedEdges_eq h h' hf hjoin, ← bodyEdges_eq h' hf] at hbody
  unfold Appending.joined
  rw [entersJoin_eq h hf hjoin]
  split
  · have hrow := h'.edgesAt_leaving hf.injective (join n a c) .start
    rw [hf.start, hjoin] at hrow
    rw [hrow]
    exact hbody.insertAll hf.injective _
  · exact hbody

/-- One table after another, from operands that are mirrored **with the join between
them**. All five kinds of edges correspond, and were put in in the same order. -/
theorem append :
    Mirrors f (Automaton.append n a c).automaton (Automaton.append m b d).automaton := by
  rw [append_eq, append_eq]
  show Mirrors f (opened n a c).1 (opened m b d).1
  unfold opened
  rw [h.isSome_epsilon_start_eq hf]
  split
  · have hrow := h'.edgesAt_leaving hf.injective .start .start
    rw [hf.start] at hrow
    rw [hrow]
    exact (joined h h' hf hjoin).insertAllKeeping hf.injective _
  · exact joined h h' hf hjoin

end Append

end Mirrors

end Automaton

end TreeGrammar
