/-
Tables in order of arrival.

An `OrderedTable` is a finite map that remembers the order in which its keys first
arrived. Writing to a key that is present keeps its place and replaces its value, so the
order of a table is the order of first writing, and the last value written is the one
that is read.

The invariant, no key twice, is a field of the type. The view of a table is `get?`;
`get?_insert` says what a write does to it.
-/

set_option autoImplicit false

namespace TreeGrammar

universe u v w

/-! ## Lists of pairs -/

section Pairs

variable {κ : Type u} {ν : Type v} [DecidableEq κ]

/-- The list with `v` written under `k`: **in place** where `k` is present, at the
end otherwise. -/
def putPair (k : κ) (v : ν) : List (κ × ν) → List (κ × ν)
  | [] => [(k, v)]
  | (k', v') :: rest => if k' = k then (k, v) :: rest else (k', v') :: putPair k v rest

/-- The first value under `k`. -/
def findPair (k : κ) : List (κ × ν) → Option ν
  | [] => none
  | (k', v') :: rest => if k' = k then some v' else findPair k rest

theorem map_fst_putPair (k : κ) (v : ν) (l : List (κ × ν)) :
    (putPair k v l).map Prod.fst
      = if k ∈ l.map Prod.fst then l.map Prod.fst else l.map Prod.fst ++ [k] := by
  induction l with
  | nil => simp [putPair]
  | cons p rest ih =>
      obtain ⟨k', v'⟩ := p
      by_cases h : k' = k
      · simp [putPair, h]
      · have h' : ¬ k = k' := fun e => h e.symm
        simp only [putPair, h, if_false, List.map_cons, ih, List.mem_cons, h', false_or]
        split <;> simp

theorem nodup_putPair (k : κ) (v : ν) {l : List (κ × ν)} (h : (l.map Prod.fst).Nodup) :
    ((putPair k v l).map Prod.fst).Nodup := by
  rw [map_fst_putPair]
  split
  · exact h
  · next hk =>
    rw [List.nodup_append]
    refine ⟨h, by simp, ?_⟩
    intro a ha b hb
    simp only [List.mem_singleton] at hb
    subst hb
    intro hab
    exact hk (hab ▸ ha)

theorem findPair_putPair (k k' : κ) (v : ν) (l : List (κ × ν)) :
    findPair k' (putPair k v l) = if k = k' then some v else findPair k' l := by
  induction l with
  | nil => simp [putPair, findPair]
  | cons p rest ih =>
      obtain ⟨k₀, v₀⟩ := p
      by_cases h : k₀ = k
      · subst h
        by_cases h' : k₀ = k' <;> simp [putPair, findPair, h']
      · by_cases h' : k₀ = k'
        · subst h'
          have hk : ¬ k = k₀ := fun e => h e.symm
          simp [putPair, findPair, h, hk]
        · simp [putPair, findPair, h, h', ih]

theorem mem_of_findPair {k : κ} {v : ν} {l : List (κ × ν)} (h : findPair k l = some v) :
    (k, v) ∈ l := by
  induction l with
  | nil => simp [findPair] at h
  | cons p rest ih =>
      obtain ⟨k', v'⟩ := p
      by_cases hk : k' = k
      · simp only [findPair, hk, if_true, Option.some.injEq] at h
        simp [hk, h]
      · simp only [findPair, hk, if_false] at h
        exact List.mem_cons_of_mem _ (ih h)

end Pairs

/-! ## Tables -/

/-- A **table in order of arrival**: pairs of which no two share a key. -/
structure OrderedTable (κ : Type u) (ν : Type v) where
  /-- The pairs, in the order in which their keys first arrived. -/
  entries : List (κ × ν)
  /-- No key occurs twice. -/
  keys_nodup : (entries.map Prod.fst).Nodup
deriving DecidableEq

namespace OrderedTable

variable {κ : Type u} {ν : Type v} {ω : Type w}

/-- The table without entries. -/
def empty : OrderedTable κ ν := ⟨[], by simp⟩

instance : Inhabited (OrderedTable κ ν) := ⟨empty⟩

/-- The keys in order of arrival. -/
def keys (t : OrderedTable κ ν) : List κ := t.entries.map Prod.fst

/-- The values, in the order of their keys. -/
def values (t : OrderedTable κ ν) : List ν := t.entries.map Prod.snd

/-- The number of keys. -/
def size (t : OrderedTable κ ν) : Nat := t.entries.length

/-- Whether there is no entry. -/
def isEmpty (t : OrderedTable κ ν) : Bool := t.entries.isEmpty

/-- The table with every value replaced by what `f` makes of its key and it. -/
def mapValues (f : κ → ν → ω) (t : OrderedTable κ ν) : OrderedTable κ ω where
  entries := t.entries.map fun p => (p.1, f p.1 p.2)
  keys_nodup := by
    have h := t.keys_nodup
    simpa [List.map_map, Function.comp_def] using h

variable [DecidableEq κ]

/-- The value under `k`. -/
def get? (t : OrderedTable κ ν) (k : κ) : Option ν := findPair k t.entries

/-- Whether `k` is a key. -/
def contains (t : OrderedTable κ ν) (k : κ) : Bool := (t.get? k).isSome

/-- The table with `v` written under `k`; a present key keeps its place. -/
def insert (t : OrderedTable κ ν) (k : κ) (v : ν) : OrderedTable κ ν :=
  ⟨putPair k v t.entries, nodup_putPair k v t.keys_nodup⟩

/-- The table without `k`; the other entries keep their order. -/
def erase (t : OrderedTable κ ν) (k : κ) : OrderedTable κ ν where
  entries := t.entries.filter fun p => decide (p.1 ≠ k)
  keys_nodup := t.keys_nodup.sublist (List.filter_sublist.map Prod.fst)

/-- The table that the pairs leave behind when they are written one after the other. -/
def ofList (l : List (κ × ν)) : OrderedTable κ ν :=
  l.foldl (fun t p => t.insert p.1 p.2) empty

/-- Whether both tables hold the same entries, **in whatever order**. -/
def sameEntries [DecidableEq ν] (t s : OrderedTable κ ν) : Bool :=
  t.size == s.size && t.entries.all fun p => s.get? p.1 == some p.2

@[simp] theorem get?_empty (k : κ) : (empty : OrderedTable κ ν).get? k = none := rfl

/-- A write is read back under its key and changes no other. -/
theorem get?_insert (t : OrderedTable κ ν) (k k' : κ) (v : ν) :
    (t.insert k v).get? k' = if k = k' then some v else t.get? k' :=
  findPair_putPair k k' v t.entries

theorem mem_keys_of_get? {t : OrderedTable κ ν} {k : κ} {v : ν} (h : t.get? k = some v) :
    k ∈ t.keys :=
  List.mem_map_of_mem (f := Prod.fst) (mem_of_findPair h)

theorem keys_insert (t : OrderedTable κ ν) (k : κ) (v : ν) :
    (t.insert k v).keys = if k ∈ t.keys then t.keys else t.keys ++ [k] :=
  map_fst_putPair k v t.entries

end OrderedTable

end TreeGrammar
