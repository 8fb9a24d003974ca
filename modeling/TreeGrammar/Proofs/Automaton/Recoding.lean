/-
Tables that are renamings of each other.

`Automaton.rename` puts the renamed edges of a table in one by one. A table without
empty rows is rebuilt so as it was (`ofEdges_edges`), so if no two states are merged,
the renamed table mirrors the table, and a table that mirrors it is the renamed one.
Tables that are renamings of each other stay so under every operator (`Recodes.append`
and what follows it), although the operators draw different numbers for them and make
copies for one where they need none for the other: two renamings of tables that share no
number are parts of one (`exists_recoding_forall`).
-/
import Mathlib.Logic.Equiv.Fintype
import TreeGrammar.Proofs.Automaton.Mirror
import TreeGrammar.Proofs.Automaton.Tidy

set_option autoImplicit false

namespace TreeGrammar

/-! ## Rebuilding a table -/

/-- The last pair is replaced **in place**. This is the step from one edge of a row to
the next, when rows are rebuilt from their edges. -/
theorem putPair_append_singleton {κ ν : Type} [DecidableEq κ] {k : κ} {l : List (κ × ν)}
    (h : k ∉ l.map Prod.fst) (v₀ v : ν) : putPair k v (l ++ [(k, v₀)]) = l ++ [(k, v)] := by
  induction l with
  | nil => rw [List.nil_append, putPair, if_pos rfl, List.nil_append]
  | cons p rest ih =>
      rw [List.map_cons, List.mem_cons, not_or] at h
      rw [List.cons_append, putPair, if_neg (Ne.symm h.1), ih h.2, List.cons_append]

namespace Automaton

/-- More edges of the state whose row was begun last **continue its row**. -/
theorem entries_insertAll_edgesAt {a : Automaton} {rows : List (State × Row)}
    {s : State} {row : Row} (ha : a.rows.entries = rows ++ [(s, row)]) {more : List (Label × State)}
    (hmore : ((row.entries ++ more).map Prod.fst).Nodup) :
    (a.insertAll (edgesAt s more)).rows.entries = rows ++ [(s, ⟨row.entries ++ more, hmore⟩)] := by
  induction more generalizing a row with
  | nil =>
      have hrow : (⟨row.entries ++ [], hmore⟩ : Row) = row :=
        OrderedTable.eq_of_entries_eq (List.append_nil row.entries)
      rw [hrow]
      exact ha
  | cons q more ih =>
      have hkeys := a.rows.keys_nodup
      rw [ha, List.map_append, List.nodup_append] at hkeys
      -- the row is the last one, and the edge becomes its last edge
      have hs : s ∉ rows.map Prod.fst := fun hmem => hkeys.2.2 s hmem s (by simp) rfl
      have hget : a.rows.get? s = some row := by
        rw [← OrderedTable.mem_entries_iff, ha]
        simp
      have hlabel : q.1 ∉ row.entries.map Prod.fst := by
        rw [List.map_append, List.nodup_append] at hmore
        exact fun hmem => hmore.2.2 q.1 hmem q.1 (by simp) rfl
      have hrow : (row.insert q.1 q.2).entries = row.entries ++ [q] := putPair_of_notMem hlabel q.2
      have hinsert : (a.insert s q.1 q.2).rows.entries = rows ++ [(s, row.insert q.1 q.2)] := by
        show putPair s (((a.rows.get? s).getD .empty).insert q.1 q.2) a.rows.entries = _
        rw [hget, ha, Option.getD_some, putPair_append_singleton hs]
      have hassoc : (row.insert q.1 q.2).entries ++ more = row.entries ++ q :: more := by
        rw [hrow, List.append_assoc, List.singleton_append]
      have hrest := ih hinsert (by rw [hassoc]; exact hmore)
      simp only [hassoc] at hrest
      exact hrest

/-- The edges of a row that is not empty, put in where there is none for their state,
make **that row**. -/
theorem entries_insertAll_row {a : Automaton} {s : State} {row : Row} (hs : s ∉ a.rows.keys)
    (hrow : row.isEmpty = false) :
    (a.insertAll (edgesAt s row.entries)).rows.entries = a.rows.entries ++ [(s, row)] := by
  obtain ⟨entries, hnodup⟩ := row
  cases entries with
  | nil => exact absurd hrow (by simp [OrderedTable.isEmpty])
  | cons q more =>
      have hget : a.rows.get? s = none := by
        rw [Option.eq_none_iff_forall_ne_some]
        exact fun row' hrow' => hs (OrderedTable.mem_keys_of_get? hrow')
      have hinsert :
          (a.insert s q.1 q.2).rows.entries = a.rows.entries ++
            [(s, OrderedTable.empty.insert q.1 q.2)] := by
        show putPair s (((a.rows.get? s).getD .empty).insert q.1 q.2) a.rows.entries = _
        rw [hget, Option.getD_none, putPair_of_notMem hs]
      exact entries_insertAll_edgesAt hinsert hnodup

/-- Rows that are put in edge by edge stand **as they stood**. -/
theorem entries_insertAll_rows {a : Automaton} {rows : List (State × Row)}
    (hkeys : ((a.rows.entries ++ rows).map Prod.fst).Nodup)
    (hrows : ∀ p ∈ rows, p.2.isEmpty = false) :
    (a.insertAll (rows.flatMap fun p => edgesAt p.1 p.2.entries)).rows.entries =
      a.rows.entries ++ rows := by
  induction rows generalizing a with
  | nil => exact (List.append_nil _).symm
  | cons p rows ih =>
      have hp : p.1 ∉ a.rows.keys := by
        rw [List.map_append, List.nodup_append] at hkeys
        exact fun hmem => hkeys.2.2 p.1 hmem p.1 (by simp) rfl
      have hfirst := entries_insertAll_row hp (hrows p List.mem_cons_self)
      have hassoc : (a.insertAll (edgesAt p.1 p.2.entries)).rows.entries ++ rows = a.rows.entries ++
          p :: rows := by
        rw [hfirst, List.append_assoc, List.singleton_append]
      have hrest := ih (by rw [hassoc]; exact hkeys) fun q hq => hrows q (List.mem_cons_of_mem p hq)
      rw [hassoc] at hrest
      rw [List.flatMap_cons, insertAll, List.foldl_append]
      exact hrest

/-- A table without empty rows is **what its edges make**, put in one after the other. A
renaming rebuilds the table in this way, so the renamed table can be read off the
renamed edges. -/
theorem ofEdges_edges {a : Automaton} (h : a.Tidy) : ofEdges a.edges = a := by
  have hrows : ∀ p ∈ a.rows.entries, p.2.isEmpty = false := fun p hp =>
    tidy_iff.mp h p.1 p.2 ((OrderedTable.mem_entries_iff _ _ _).mp hp)
  have hentries : (ofEdges a.edges).rows.entries = a.rows.entries :=
    entries_insertAll_rows (show (([] ++ a.rows.entries).map Prod.fst).Nodup from a.rows.keys_nodup)
      hrows
  have heq := OrderedTable.eq_of_entries_eq hentries
  exact congrArg Automaton.mk heq

/-! ## Renamed tables -/

variable {f g : State → State} {a b c : Automaton}

/-- The renamed table **mirrors** the table. Row stands by row and edge by edge, in the
same order. -/
theorem mirrors_rename (h : a.Tidy) (hf : Function.Injective f) : Mirrors f a (a.rename f) := by
  have hmirrors := Mirrors.blank.insertAll hf a.edges
  rw [show blank.insertAll a.edges = a from ofEdges_edges h] at hmirrors
  exact hmirrors

/-- There is **no other** table without empty rows that mirrors it. Tables whose
insertions happened in the same order are therefore compared by comparing their edges,
and equality of the tables follows. -/
theorem Mirrors.eq_rename (h : Mirrors f a b) (hb : b.Tidy) : b = a.rename f := by
  rw [← ofEdges_edges hb, h.edges_eq]
  rfl

/-- Renaming rebuilds the table edge by edge, so no empty row is left. -/
theorem tidy_rename (a : Automaton) (f : State → State) : (a.rename f).Tidy := tidy_ofEdges _

/-- A renamed table lists the renamed edges **in the same order**. The order matters,
since the warnings of a clash are reported in it. -/
theorem edges_rename (h : a.Tidy) (hf : Function.Injective f) :
    (a.rename f).edges = a.edges.map (Edge.recode f) :=
  (mirrors_rename h hf).edges_eq

/-- It lists the renamed states in the same order, too: `start` and `fin` stay at
the front. -/
theorem states_rename (h : a.Tidy) (hf : Recoding f) : (a.rename f).states = a.states.map f :=
  (mirrors_rename h hf.injective).states_eq hf

/-- What a renaming does to other states **does not matter**. Renamings can be replaced
by others that agree on the states of the table. -/
theorem rename_congr (h : ∀ s ∈ a.states, f s = g s) : a.rename f = a.rename g := by
  have hedges : a.edges.map (fun e => (⟨f e.source, e.label, f e.target⟩ : Edge)) =
      a.edges.map fun e => ⟨g e.source, e.label, g e.target⟩ := by
    apply List.map_congr_left
    intro e he
    have htarget := (a.mem_edges_iff e).mp he
    rw [h _ (source_mem_states htarget), h _ (target_mem_states htarget)]
  rw [rename, rename, hedges]

/-- A tidy table that is rebuilt without a change is itself. -/
theorem rename_id (h : a.Tidy) : a.rename id = a := by
  rw [rename]
  exact (congrArg ofEdges (List.map_id _)).trans (ofEdges_edges h)

/-- One renaming after another is **one renaming**. Copies of copies come up wherever a
compiled reference is used below another operator. -/
theorem rename_rename (h : a.Tidy) (hf : Function.Injective f) :
    (a.rename f).rename g = a.rename (g ∘ f) := by
  rw [rename, edges_rename h hf, List.map_map]
  rfl

end Automaton

/-! ## Recodings -/

/-- A function that merges no two of some states does to them **what a permutation
does**. The numbers of a copy are given for the states of one table only, and a recoding
has to be defined everywhere. -/
theorem exists_perm_eq_on {dom : List State} {h : State → State}
    (hinj : ∀ s ∈ dom, ∀ t ∈ dom, h s = h t → s = t) :
    ∃ f : Equiv.Perm State, ∀ s ∈ dom, f s = h s := by
  have himages : Function.Injective fun s : { s // s ∈ dom } => h s :=
    fun s t heq => Subtype.ext (hinj s s.2 t t.2 heq)
  obtain ⟨f, hf⟩ := Equiv.Perm.exists_extending_pair _ _ Subtype.val_injective himages
  exact ⟨f, fun s hs => hf ⟨s, hs⟩⟩

namespace Recoding

variable {f g : Equiv.Perm State}

theorem refl : Recoding (Equiv.refl State) := ⟨Function.injective_id, rfl, rfl⟩

theorem symm (hf : Recoding f) : Recoding f.symm :=
  ⟨f.symm.injective, by rw [Equiv.symm_apply_eq, hf.start], by rw [Equiv.symm_apply_eq, hf.fin]⟩

theorem trans (hf : Recoding f) (hg : Recoding g) : Recoding (f.trans g) :=
  ⟨(f.trans g).injective, by rw [Equiv.trans_apply, hf.start, hg.start], by rw [Equiv.trans_apply,
    hf.fin, hg.fin]⟩

/-- Two numbers may be exchanged. All that has to be recoded here comes down to such
exchanges and to finite lists. -/
theorem swap (n m : Nat) : Recoding (Equiv.swap (.id n) (.id m)) :=
  ⟨Equiv.injective _, Equiv.swap_apply_of_ne_of_ne State.noConfusion State.noConfusion,
    Equiv.swap_apply_of_ne_of_ne State.noConfusion State.noConfusion⟩

end Recoding

/-- The lists have **no numbered state in common**. -/
def Apart (xs ys : List State) : Prop := ∀ k, State.id k ∈ xs → State.id k ∉ ys

variable {f g : Equiv.Perm State} {xs ys : List State}

theorem Apart.symm (h : Apart xs ys) : Apart ys xs := fun k hk hk' => h k hk' hk

/-- Recodings of states that are apart, and that are recoded apart, **are parts of
one**. The operands of an operator are recoded each by its own renaming; what the
operator makes of them needs one for both. -/
theorem exists_recoding_both (hf : Recoding f) (hg : Recoding g) (hstart : .start ∈ xs)
    (hfin : .fin ∈ xs) (hxy : Apart xs ys) (himages : Apart (xs.map f) (ys.map g)) :
    ∃ h : Equiv.Perm State, Recoding h ∧ (∀ s ∈ xs, h s = f s) ∧ ∀ s ∈ ys, h s = g s := by
  -- a state in both lists is shared, so it does not matter which recoding is asked
  have hboth : ∀ s ∈ xs, s ∈ ys → f s = g s := by
    intro s hs hs'
    cases s with
    | start => rw [hf.start, hg.start]
    | fin => rw [hf.fin, hg.fin]
    | id k => exact absurd hs' (hxy k hs)
  have hcross : ∀ s ∈ xs, ∀ t ∈ ys, f s = g t → s = t := by
    intro s hs t ht heq
    cases hv : g t with
    | start =>
        rw [hg.eq_start_iff.mp hv, hf.eq_start_iff.mp (heq.trans hv)]
    | fin =>
        rw [hg.injective (hv.trans hg.fin.symm), hf.injective ((heq.trans hv).trans hf.fin.symm)]
    | id k =>
        refine absurd (List.mem_map.mpr ⟨t, ht, hv⟩)
          (himages k (List.mem_map.mpr ⟨s, hs, heq.trans hv⟩))
  let either := fun s => if s ∈ xs then f s else g s
  have hleft : ∀ s ∈ xs, either s = f s := fun s hs => if_pos hs
  have hright : ∀ s ∈ ys, either s = g s := by
    intro s hs
    by_cases hs' : s ∈ xs
    · rw [hleft s hs', hboth s hs' hs]
    · exact if_neg hs'
  obtain ⟨h, hh⟩ : ∃ h : Equiv.Perm State, ∀ s ∈ xs ++ ys, h s = either s := by
    apply exists_perm_eq_on
    intro s hs t ht heq
    rcases List.mem_append.mp hs with hs | hs
    · rcases List.mem_append.mp ht with ht | ht
      · rw [hleft s hs, hleft t ht] at heq
        exact f.injective heq
      · rw [hleft s hs, hright t ht] at heq
        exact hcross s hs t ht heq
    · rcases List.mem_append.mp ht with ht | ht
      · rw [hright s hs, hleft t ht] at heq
        exact (hcross t ht s hs heq.symm).symm
      · rw [hright s hs, hright t ht] at heq
        exact g.injective heq
  have hxs : ∀ s ∈ xs, h s = f s :=
    fun s hs => (hh s (List.mem_append_left ys hs)).trans (hleft s hs)
  refine ⟨h, ⟨h.injective, ?_, ?_⟩, hxs, fun s hs => (hh s (List.mem_append_right xs hs)).trans
    (hright s hs)⟩
  · rw [hxs _ hstart, hf.start]
  · rw [hxs _ hfin, hf.fin]

/-- A recoding of some states can send **one more number** to any number that it
does not send them to. An operator draws such a number for the state where its
operands meet. -/
theorem exists_recoding_new {n m : Nat} (hf : Recoding f) (hstart : .start ∈ xs) (hfin : .fin ∈ xs)
    (hn : .id n ∉ xs) (hm : .id m ∉ xs.map f) :
    ∃ h : Equiv.Perm State, Recoding h ∧ (∀ s ∈ xs, h s = f s) ∧ h (.id n) = .id m := by
  have hnew : Apart xs [.id n] := fun k hk hkn => hn (List.mem_singleton.mp hkn ▸ hk)
  have himages : Apart (xs.map f) ([.id n].map (Equiv.swap (.id n) (.id m))) := by
    intro k hk hkm
    rw [List.map_singleton, Equiv.swap_apply_left, List.mem_singleton] at hkm
    exact hm (hkm ▸ hk)
  obtain ⟨h, hh, hxs, hnm⟩ := exists_recoding_both hf (.swap n m) hstart hfin hnew himages
  exact ⟨h, hh, hxs, by rw [hnm _ (List.mem_singleton_self _), Equiv.swap_apply_left]⟩

/-- Recodings of **any number** of things whose states are apart are parts of one. What
is recoded, the things `ι` may be, has the states `σ` before and `τ` afterwards. -/
theorem exists_recoding_forall {ι : Type} {σ τ : ι → List State} {P : ι → Equiv.Perm State → Prop}
    {is : List ι} (hcongr : ∀ i (f g : Equiv.Perm State), (∀ s ∈ σ i, f s = g s) → P i f → P i g)
    (hstates : ∀ i ∈ is, ∀ f : Equiv.Perm State, Recoding f → P i f → τ i = (σ i).map f)
    (hrec : ∀ i ∈ is, ∃ f : Equiv.Perm State, Recoding f ∧ P i f)
    (hσ : is.Pairwise fun i j => Apart (σ i) (σ j))
    (hτ : is.Pairwise fun i j => Apart (τ i) (τ j)) : ∃ f : Equiv.Perm State, Recoding f ∧
    ∀ i ∈ is, P i f := by
  induction is with
  | nil => exact ⟨Equiv.refl State, .refl, fun i hi => absurd hi List.not_mem_nil⟩
  | cons i is ih =>
      rw [List.pairwise_cons] at hσ hτ
      obtain ⟨f, hf, hfi⟩ := hrec i List.mem_cons_self
      obtain ⟨g, hg, hgis⟩ := ih (fun j hj => hstates j (List.mem_cons_of_mem i hj))
        (fun j hj => hrec j (List.mem_cons_of_mem i hj)) hσ.2 hτ.2
      -- the shared states go with the first thing, so that it has them even if none of its
      -- states is shared
      have hsource : Apart (.start :: .fin :: σ i) (is.flatMap σ) := by
        intro k hk hk'
        obtain ⟨j, hj, hkj⟩ := List.mem_flatMap.mp hk'
        exact hσ.1 j hj k (by simpa using hk) hkj
      have himages : Apart ((.start :: .fin :: σ i).map f) ((is.flatMap σ).map g) := by
        intro k hk hk'
        rw [List.map_cons, List.map_cons, hf.start, hf.fin,
          ← hstates i List.mem_cons_self f hf hfi] at hk
        obtain ⟨s, hs, hsk⟩ := List.mem_map.mp hk'
        obtain ⟨j, hj, hsj⟩ := List.mem_flatMap.mp hs
        have hkj : State.id k ∈ τ j := by
          rw [hstates j (List.mem_cons_of_mem i hj) g hg (hgis j hj)]
          exact List.mem_map.mpr ⟨s, hsj, hsk⟩
        exact hτ.1 j hj k (by simpa using hk) hkj
      obtain ⟨h, hh, hhi, hhis⟩ := exists_recoding_both hf hg (by simp) (by simp) hsource himages
      refine ⟨h, hh, fun j hj => ?_⟩
      rcases List.mem_cons.mp hj with rfl | hj
      · exact hcongr j f h (fun s hs => (hhi s (by simp [hs])).symm) hfi
      · exact hcongr j g h (fun s hs => (hhis s (List.mem_flatMap.mpr ⟨j, hj, hs⟩)).symm)
          (hgis j hj)

/-! ## Tables that are recoded -/

namespace Automaton

/-- The first table has no empty row, and the second one is it with its states
**renamed**, the shared ones apart. -/
structure Recodes (a b : Automaton) : Prop where
  tidy : a.Tidy
  exists_rename : ∃ f : Equiv.Perm State, Recoding f ∧ b = a.rename f

variable {a b c d : Automaton} {n m : Nat}

namespace Recodes

open Appending (join)

theorem refl (h : a.Tidy) : a.Recodes a := ⟨h, Equiv.refl State, .refl, (rename_id h).symm⟩

theorem symm (h : a.Recodes b) : b.Recodes a := by
  obtain ⟨ha, f, hf, rfl⟩ := h
  refine ⟨tidy_rename a f, f.symm, hf.symm, ?_⟩
  rw [rename_rename ha f.injective, Equiv.symm_comp_self, rename_id ha]

/-- Recodings of tables can be put together. With the two lemmas before, being the same
but for the names of states is **an equivalence**. -/
theorem trans (h : a.Recodes b) (h' : b.Recodes c) : a.Recodes c := by
  obtain ⟨ha, f, hf, rfl⟩ := h
  obtain ⟨-, g, hg, rfl⟩ := h'
  exact ⟨ha, f.trans g, hf.trans hg, rename_rename ha f.injective⟩

theorem stateCount_eq (h : a.Recodes b) : b.stateCount = a.stateCount := by
  obtain ⟨ha, f, hf, rfl⟩ := h
  exact (mirrors_rename ha f.injective).stateCount_eq hf

/-- Tables that mirror each other are recodings. -/
theorem of_mirrors {f : Equiv.Perm State} (hf : Recoding f) (h : Mirrors f a b) (ha : a.Tidy)
    (hb : b.Tidy) : a.Recodes b :=
  ⟨ha, f, hf, h.eq_rename hb⟩

/-! ## Operators -/

/-- A copy is **a recoding**. The numbers that a copy draws are new, so no two states of
the table get the same one. -/
theorem copy (h : a.Tidy) (n : Nat) : a.Recodes (a.copy n).automaton := by
  obtain ⟨f, hf⟩ := exists_perm_eq_on fun s hs t ht heq =>
    renumbering_injective (a := a) (n := n) hs ht heq
  refine ⟨h, f, ⟨f.injective, ?_, ?_⟩, (rename_congr hf).symm⟩
  · rw [hf _ a.start_mem_states, renumbering_of_isShared rfl]
  · rw [hf _ a.fin_mem_states, renumbering_of_isShared rfl]

/-- So is what an operator puts beside another table. -/
theorem apart (h : b.Tidy) (n : Nat) (a : Automaton) :
    b.Recodes (Automaton.apart n a b).automaton :=
  apart_induction (motive := fun d => b.Recodes d.automaton) n a b (refl h) (copy h n)

/-- What operators put beside two tables are recodings **if their second
operands are**. -/
theorem right (h : c.Recodes d) (n m : Nat) (a b : Automaton) :
    (Appending.right n a c).Recodes (Appending.right m b d) :=
  ((apart h.tidy n a).symm.trans h).trans (apart h.symm.tidy m b)

/-- Operands that are recodings are recoded **by one** renaming, the join between them
included. This is what every operator on two tables starts from: the operands are apart,
and so are the numbers drawn for them. -/
theorem exists_operands (h : a.Recodes b) (h' : c.Recodes d) (hwa : a.Within n) (hwc : c.Within n)
    (hwb : b.Within m) (hwd : d.Within m) :
    ∃ f : Equiv.Perm State, Recoding f ∧ Mirrors f a b ∧
      Mirrors f (Appending.right n a c) (Appending.right m b d) ∧ f (join n a c) = join m b d := by
  have hapart : Apart a.states (Appending.right n a c).states := disjoint_apart c hwa
  have hapart' : Apart b.states (Appending.right m b d).states := disjoint_apart d hwb
  have hjoin : join n a c ∉ a.states ++ (Appending.right n a c).states := by
    rw [List.mem_append, not_or]
    exact ⟨join_notMem_left hwa, join_notMem_right hwc⟩
  have hjoin' : join m b d ∉ b.states ++ (Appending.right m b d).states := by
    rw [List.mem_append, not_or]
    exact ⟨join_notMem_left hwb, join_notMem_right hwd⟩
  obtain ⟨hc, g, hg, hgc⟩ := right h' n m a b
  obtain ⟨ha, f, hf, rfl⟩ := h
  generalize Appending.right n a c = c', Appending.right m (a.rename f) d = d' at *
  obtain rfl := hgc
  rw [states_rename ha hf, states_rename hc hg] at hapart' hjoin'
  -- first one recoding for both operands, then the join sent where it belongs
  obtain ⟨both, hboth, hba, hbc⟩ :=
    exists_recoding_both hf hg a.start_mem_states a.fin_mem_states hapart hapart'
  rw [← List.map_congr_left hba, ← List.map_congr_left hbc, ← List.map_append] at hjoin'
  obtain ⟨q, hq, hqboth, hqjoin⟩ :=
    exists_recoding_new hboth (List.mem_append_left _ a.start_mem_states)
    (List.mem_append_left _ a.fin_mem_states) hjoin hjoin'
  have hqa : ∀ s ∈ a.states, f s = q s := fun s hs => by
    rw [hqboth s (List.mem_append_left _ hs), hba s hs]
  have hqc : ∀ s ∈ c'.states, g s = q s := fun s hs => by
    rw [hqboth s (List.mem_append_right _ hs), hbc s hs]
  refine ⟨q, hq, ?_, ?_, hqjoin⟩
  · rw [rename_congr hqa]
    exact mirrors_rename ha q.injective
  · rw [rename_congr hqc]
    exact mirrors_rename hc q.injective

/-- One table after another does the same to recoded tables, **whatever numbers were
drawn before**. Its stages put edges in one after the other, and a recoding passes
through each of them. -/
theorem append (h : a.Recodes b) (h' : c.Recodes d) (hwa : a.Within n) (hwc : c.Within n)
    (hwb : b.Within m) (hwd : d.Within m) :
    (Automaton.append n a c).automaton.Recodes (Automaton.append m b d).automaton := by
  obtain ⟨f, hf, hfa, hfc, hfj⟩ := exists_operands h h' hwa hwc hwb hwd
  exact of_mirrors hf (hfa.append hfc hf hfj) (h.tidy.append n c) (h.symm.tidy.append m d)

theorem merge (h : a.Recodes b) (h' : c.Recodes d) (hwa : a.Within n) (hwc : c.Within n)
    (hwb : b.Within m) (hwd : d.Within m) :
    (Automaton.merge n a c).automaton.Recodes (Automaton.merge m b d).automaton := by
  obtain ⟨f, hf, hfa, hfc, -⟩ := exists_operands h h' hwa hwc hwb hwd
  exact of_mirrors hf (hfa.union hfc f.injective) (h.tidy.merge n c) (h.symm.tidy.merge m d)

theorem optional (h : a.Recodes b) : a.optional.Recodes b.optional := by
  obtain ⟨ha, f, hf, rfl⟩ := h
  exact of_mirrors hf ((mirrors_rename ha f.injective).optional hf) ha.optional
    (tidy_rename a f).optional

/-- At least once draws one number; that it differs in the two sessions is made up by
the recoding. -/
theorem plus (h : a.Recodes b) (hwa : a.Within n) (hwb : b.Within m) :
    (Automaton.plus n a).automaton.Recodes (Automaton.plus m b).automaton := by
  obtain ⟨ha, f, hf, rfl⟩ := h
  have hagain : again m ∉ a.states.map f := by
    rw [← states_rename ha hf]
    exact again_notMem hwb
  obtain ⟨q, hq, hqa, hqagain⟩ :=
    exists_recoding_new hf a.start_mem_states a.fin_mem_states (again_notMem hwa) hagain
  have hmirrors : Mirrors q a (a.rename f) := by
    rw [rename_congr fun s hs => (hqa s hs).symm]
    exact mirrors_rename ha q.injective
  exact of_mirrors hq (hmirrors.plus hq hqagain) (ha.plus n) ((tidy_rename a f).plus m)

/-- Any number of times is an optional table on top of that. -/
theorem kleene (h : a.Recodes b) (hwa : a.Within n) (hwb : b.Within m) :
    (Automaton.kleene n a).automaton.Recodes (Automaton.kleene m b).automaton := by
  rw [kleene_eq, kleene_eq]
  exact (plus h hwa hwb).optional

end Recodes

end Automaton

end TreeGrammar
