/-
What the operations on a table do to its view.

The view of an `OrderedTable` is `get?`. `TreeGrammar.OrderedTable` says what a write
does to it; this file says the same of the other operations, and ties the view to the
list of entries: since no key occurs twice, an entry is listed exactly when it is read
back.
-/
import TreeGrammar.OrderedTable

set_option autoImplicit false

namespace TreeGrammar

universe u v w

variable {κ : Type u} {ν : Type v} {ω : Type w} [DecidableEq κ]

/-- Where an item has a property, there is **a first** item that has it. -/
theorem exists_first {α : Type u} {P : α → Prop} {xs : List α} (h : ∃ x ∈ xs, P x) :
    ∃ front x back, xs = front ++ x :: back ∧ (∀ y ∈ front, ¬ P y) ∧ P x := by
  induction xs with
  | nil =>
      obtain ⟨x, hx, -⟩ := h
      exact absurd hx List.not_mem_nil
  | cons x xs ih =>
      by_cases hx : P x
      · exact ⟨[], x, xs, rfl, fun y hy => absurd hy List.not_mem_nil, hx⟩
      · have hrest : ∃ y ∈ xs, P y := by simpa [hx] using h
        obtain ⟨front, y, back, rfl, hfront, hy⟩ := ih hrest
        exact ⟨x :: front, y, back, rfl, List.forall_mem_cons.mpr ⟨hx, hfront⟩, hy⟩

/-! ## Lists without repetitions -/

theorem nodup_eraseDups (l : List κ) : l.eraseDups.Nodup := by
  induction hn : l.length using Nat.strongRecOn generalizing l with
  | _ n ih =>
      cases l with
      | nil => exact List.nodup_nil
      | cons k rest =>
          have hle := List.length_filter_le (fun k' => !k' == k) rest
          rw [List.length_cons] at hn
          rw [List.eraseDups_cons, List.nodup_cons, List.mem_eraseDups, List.mem_filter]
          exact ⟨by simp, ih _ (by omega) _ rfl⟩

/-- Where nothing occurs twice, nothing is dropped. -/
theorem eraseDups_of_nodup {l : List κ} (h : l.Nodup) : l.eraseDups = l := by
  induction l with
  | nil => rfl
  | cons k rest ih =>
      rw [List.nodup_cons] at h
      have hall : rest.filter (fun k' => !k' == k) = rest := by
        rw [List.filter_eq_self]
        intro k' hk'
        have hne : k' ≠ k := fun heq => h.1 (heq ▸ hk')
        simpa using hne
      rw [List.eraseDups_cons, hall, ih h.2]

/-! ## Lists of pairs -/

/-- Where no key occurs twice, **every pair is found**. The list of pairs and the table
that reads it then say the same. -/
theorem findPair_eq_some_of_mem {k : κ} {v : ν} {l : List (κ × ν)}
    (hnd : (l.map Prod.fst).Nodup) (h : (k, v) ∈ l) : findPair k l = some v := by
  induction l with
  | nil => simp at h
  | cons p rest ih =>
      obtain ⟨k', v'⟩ := p
      rw [List.map_cons, List.nodup_cons] at hnd
      rcases List.mem_cons.mp h with heq | hrest
      · rw [Prod.mk.injEq] at heq
        simp [findPair, heq.1, heq.2]
      · have hk : k' ≠ k := by
          intro hkk
          have hmem : k ∈ rest.map Prod.fst := List.mem_map_of_mem (f := Prod.fst) hrest
          rw [← hkk] at hmem
          exact hnd.1 hmem
        rw [findPair, if_neg hk]
        exact ih hnd.2 hrest

/-- Dropping the pairs of one key leaves what is found under the others. -/
theorem findPair_filter_ne (k k' : κ) (l : List (κ × ν)) :
    findPair k' (l.filter fun p => decide (p.1 ≠ k)) = if k = k' then none else findPair k' l := by
  induction l with
  | nil => simp [findPair]
  | cons p rest ih =>
      obtain ⟨k₀, v₀⟩ := p
      by_cases hk : k₀ = k
      · subst hk
        by_cases hk' : k₀ = k' <;> simp_all [findPair]
      · by_cases hk' : k₀ = k'
        · subst hk'
          have hne : ¬ k = k₀ := fun e => hk e.symm
          simp [findPair, hk, hne]
        · simp_all [findPair]

/-- Replacing each value by what a function makes of its key and it. -/
theorem findPair_map (f : κ → ν → ω) (k : κ) (l : List (κ × ν)) :
    findPair k (l.map fun p => (p.1, f p.1 p.2)) = (findPair k l).map (f k) := by
  induction l with
  | nil => rfl
  | cons p rest ih =>
      obtain ⟨k', v'⟩ := p
      by_cases hk : k' = k
      · subst hk
        simp [findPair]
      · simp only [List.map_cons, findPair, if_neg hk]
        exact ih

/-- A new key goes to the end. -/
theorem putPair_of_notMem {k : κ} {l : List (κ × ν)} (h : k ∉ l.map Prod.fst) (v : ν) :
    putPair k v l = l ++ [(k, v)] := by
  induction l with
  | nil => rfl
  | cons p rest ih =>
      rw [List.map_cons, List.mem_cons, not_or] at h
      rw [putPair, if_neg (Ne.symm h.1), ih h.2, List.cons_append]

namespace OrderedTable

/-! ## The view of a table -/

omit [DecidableEq κ] in
/-- A table is told by its entries. That no key is twice among them is a proof, and
proofs are equal. So equations between tables come down to equations between lists. -/
theorem eq_of_entries_eq {t t' : OrderedTable κ ν} (h : t.entries = t'.entries) : t = t' := by
  cases t
  cases t'
  cases h
  rfl

/-- An entry is listed exactly when it is **read back**. With this, statements about
keys and values are turned into statements about entries, and back. -/
theorem mem_entries_iff (t : OrderedTable κ ν) (k : κ) (v : ν) :
    (k, v) ∈ t.entries ↔ t.get? k = some v :=
  ⟨findPair_eq_some_of_mem t.keys_nodup, mem_of_findPair⟩

/-- A key is one that something is read back under. -/
theorem mem_keys_iff (t : OrderedTable κ ν) (k : κ) : k ∈ t.keys ↔ ∃ v, t.get? k = some v := by
  constructor
  · intro h
    obtain ⟨⟨k', v⟩, hmem, heq⟩ := List.mem_map.mp h
    simp only at heq
    subst heq
    exact ⟨v, (t.mem_entries_iff k' v).mp hmem⟩
  · rintro ⟨v, h⟩
    exact mem_keys_of_get? h

/-- What a table of lists holds under a key is **in its entries**. -/
theorem mem_getD_get?_iff {t : OrderedTable κ (List ν)} {k : κ} {x : ν} :
    x ∈ (t.get? k).getD [] ↔ ∃ xs, (k, xs) ∈ t.entries ∧ x ∈ xs := by
  simp only [mem_entries_iff]
  cases t.get? k with
  | none => simp
  | some xs => simp

/-- What is listed under a key is listed among all values; a key without a list
adds nothing. -/
theorem mem_flatten_values {t : OrderedTable κ (List ν)} {k : κ} {x : ν}
    (h : x ∈ (t.get? k).getD []) : x ∈ t.values.flatten := by
  obtain ⟨xs, hentry, hx⟩ := mem_getD_get?_iff.mp h
  exact List.mem_flatten.mpr ⟨xs, List.mem_map_of_mem hentry, hx⟩

/-- A key is missing exactly if it is not among the keys. -/
theorem contains_eq_false_iff (t : OrderedTable κ ν) (k : κ) :
    t.contains k = false ↔ k ∉ t.keys := by
  rw [contains, t.mem_keys_iff k]
  cases t.get? k <;> simp

/-- What an insertion reads back is **the new value or an old one**. It is used to show
that a property of all values survives an insertion. -/
theorem eq_or_of_get?_insert {t : OrderedTable κ ν} {k k' : κ} {v w : ν}
    (h : (t.insert k v).get? k' = some w) : k = k' ∧ v = w ∨ t.get? k' = some w := by
  rw [get?_insert] at h
  split at h
  · next hkey => exact .inl ⟨hkey, Option.some.inj h⟩
  · exact .inr h

/-- An erased key reads nothing, and no other is touched. The order of the other entries
is kept. -/
theorem get?_erase (t : OrderedTable κ ν) (k k' : κ) :
    (t.erase k).get? k' = if k = k' then none else t.get? k' :=
  findPair_filter_ne k k' t.entries

/-- Values are replaced key by key. -/
theorem get?_mapValues (f : κ → ν → ω) (t : OrderedTable κ ν) (k : κ) :
    (t.mapValues f).get? k = (t.get? k).map (f k) :=
  findPair_map f k t.entries

/-- A table without entries reads nothing. -/
theorem get?_of_isEmpty {t : OrderedTable κ ν} (h : t.isEmpty = true) (k : κ) :
    t.get? k = none := by
  have hnil : t.entries = [] := List.isEmpty_iff.mp h
  rw [get?, hnil, findPair]

/-- A table has entries exactly when **something is read back**. A row that is not empty
thus has an edge. -/
theorem isEmpty_eq_false_iff (t : OrderedTable κ ν) :
    t.isEmpty = false ↔ ∃ k v, t.get? k = some v := by
  constructor
  · intro h
    obtain ⟨⟨k, v⟩, hmem⟩ := List.exists_mem_of_ne_nil t.entries (List.isEmpty_eq_false_iff.mp h)
    exact ⟨k, v, (t.mem_entries_iff k v).mp hmem⟩
  · rintro ⟨k, v, h⟩
    refine Bool.eq_false_iff.mpr fun hempty => ?_
    rw [get?_of_isEmpty hempty k] at h
    exact absurd h (by simp)

/-- Pairs of which no two share a key are the entries of the table that they leave
behind. Their order is kept as well. -/
theorem entries_ofList {l : List (κ × ν)} (h : (l.map Prod.fst).Nodup) :
    (ofList l).entries = l := by
  -- the induction is on the pairs still to be written, behind those that have been
  have hfold : ∀ (t : OrderedTable κ ν), ((t.entries ++ l).map Prod.fst).Nodup →
      (l.foldl (fun t p => t.insert p.1 p.2) t).entries = t.entries ++ l := by
    clear h
    induction l with
    | nil => exact fun t _ => by rw [List.foldl_nil, List.append_nil]
    | cons p rest ih =>
        intro t hnodup
        have hnew : p.1 ∉ t.entries.map Prod.fst := by
          rw [List.map_append, List.map_cons, List.nodup_append] at hnodup
          exact fun hmem => hnodup.2.2 p.1 hmem p.1 List.mem_cons_self rfl
        have hentries : (t.insert p.1 p.2).entries = t.entries ++ [p] := putPair_of_notMem hnew p.2
        have happend : t.entries ++ p :: rest = t.entries ++ [p] ++ rest := by
          rw [List.append_assoc, List.singleton_append]
        rw [happend, ← hentries] at hnodup ⊢
        exact ih (t.insert p.1 p.2) hnodup
  exact hfold empty h

/-- Every entry of the table that pairs leave behind is one of them. -/
theorem mem_of_mem_entries_ofList {l : List (κ × ν)} {p : κ × ν} (h : p ∈ (ofList l).entries) :
    p ∈ l := by
  have hfold : ∀ t : OrderedTable κ ν,
      (l.foldl (fun t p => t.insert p.1 p.2) t).get? p.1 = some p.2 → t.get? p.1 = some p.2 ∨
      p ∈ l := by
    clear h
    induction l with
    | nil => exact fun t ht => .inl ht
    | cons q rest ih =>
        intro t ht
        rcases ih (t.insert q.1 q.2) ht with hq | hrest
        · rcases eq_or_of_get?_insert hq with ⟨hkey, hvalue⟩ | hold
          · rw [show p = q from Prod.ext hkey.symm hvalue.symm]
            exact .inr List.mem_cons_self
          · exact .inl hold
        · exact .inr (List.mem_cons_of_mem q hrest)
  rcases hfold empty (((ofList l).mem_entries_iff p.1 p.2).mp h) with hempty | hmem
  · exact absurd hempty (by simp)
  · exact hmem

/-- The key of every pair is a key of the table that the pairs leave behind. A later
pair may replace the value, but not the key. -/
theorem mem_keys_ofList {l : List (κ × ν)} {k : κ} (h : k ∈ l.map Prod.fst) :
    k ∈ (ofList l).keys := by
  -- pairs are put in one by one, and none of them takes a key away
  have hfold : ∀ t : OrderedTable κ ν, k ∈ t.keys ∨ k ∈ l.map Prod.fst →
      k ∈ (l.foldl (fun t p => t.insert p.1 p.2) t).keys := by
    clear h
    induction l with
    | nil =>
        rintro t (ht | hnil)
        · exact ht
        · exact absurd hnil List.not_mem_nil
    | cons q rest ih =>
        intro t h
        apply ih
        rw [List.map_cons, List.mem_cons] at h
        rw [keys_insert]
        by_cases hq : q.1 ∈ t.keys
        · rw [if_pos hq]
          rcases h with ht | rfl | hrest
          · exact .inl ht
          · exact .inl hq
          · exact .inr hrest
        · rw [if_neg hq, List.mem_append, List.mem_singleton]
          rcases h with ht | hk | hrest
          · exact .inl (.inl ht)
          · exact .inl (.inr hk)
          · exact .inr hrest
  exact hfold empty (.inr h)

/-- The keys of a table made from pairs are the keys of the pairs. -/
theorem mem_keys_ofList_iff {l : List (κ × ν)} {k : κ} :
    k ∈ (ofList l).keys ↔ k ∈ l.map Prod.fst := by
  refine ⟨fun h => ?_, mem_keys_ofList⟩
  obtain ⟨p, hp, rfl⟩ := List.mem_map.mp h
  exact List.mem_map_of_mem (mem_of_mem_entries_ofList hp)

end OrderedTable

end TreeGrammar
