/-
The codes of the compact encoding.

States, labels and indices are written as short strings: a letter, or a whole number in
decimal. Each code is read back as what it stands for, so no two things share one. A
state is read back under its new number, its place in the list of the numbered states.
Whole numbers are read back within the bounds of the words that hold them.
-/
import Mathlib.Data.List.Basic
import TreeGrammar.Proofs.Table
import TreeGrammar.Schema.Compact

set_option autoImplicit false

namespace TreeGrammar

/-! ## Decimal -/

theorem digitValue?_digitChar {d : Nat} (h : d < 10) : digitValue? 10 d.digitChar = some d := by
  -- ten digits, one by one
  have hall : ∀ d : Fin 10, digitValue? 10 (Nat.digitChar d.val) = some d.val := by decide
  exact hall ⟨d, h⟩

/-- The digits of a number are read back. The recursion is that of the digits, **the
last one off the end**. -/
theorem numberOf?_toDigits (n : Nat) : numberOf? 10 (Nat.toDigits 10 n) = some n := by
  induction n using Nat.strongRecOn with
  | _ n ih =>
      have hlast : n % 10 < 10 := Nat.mod_lt n (by omega)
      rw [Nat.toDigits_eq_if (by omega)]
      by_cases hn : n < 10
      · rw [if_pos hn, numberOf?, List.foldlM_cons, digitValue?_digitChar hn]
        show some (0 * 10 + n) = some n
        rw [Nat.zero_mul, Nat.zero_add]
      · have hrest : numberOf? 10 (Nat.toDigits 10 (n / 10)) = some (n / 10) :=
          ih (n / 10) (by omega)
        rw [numberOf?] at hrest
        rw [if_neg hn, numberOf?, List.foldlM_append, hrest, Option.bind_eq_bind, Option.bind_some,
          List.foldlM_cons, digitValue?_digitChar hlast]
        show some (n / 10 * 10 + n % 10) = some n
        rw [Option.some.injEq]
        omega

/-- A number is written in decimal, digit by digit. -/
theorem toList_toString (n : Nat) : (toString n).toList = Nat.toDigits 10 n := by
  rw [Nat.toString_eq_repr, Nat.toList_repr]

/-- A decimal is made of digits only. -/
theorem notMem_toList_toString {c : Char} (h : c.isDigit = false) (n : Nat) :
    c ∉ (toString n).toList := by
  intro hmem
  rw [toList_toString] at hmem
  have hdigit := Nat.isDigit_of_mem_toDigits (by omega) (by omega) hmem
  rw [h] at hdigit
  exact absurd hdigit (by simp)

theorem toString_ne_of_not_isDigit {c : Char} (h : c.isDigit = false) (n : Nat) :
    toString n ≠ String.singleton c := by
  intro heq
  apply notMem_toList_toString h n
  rw [heq, String.toList_singleton]
  exact List.mem_singleton_self c

namespace Compact

/-- A whole number is **read back within the bound**. A sign may stand before the
digits, and none is written. -/
theorem readNatural?_toString {bound n : Nat} (h : n ≤ bound) :
    readNatural? bound (toString n) = some n := by
  -- a sign is read off the front, but no decimal begins with one
  have hplus : ∀ digits, (toString n).toList ≠ '+' :: digits := by
    intro digits heq
    apply notMem_toList_toString (c := '+') rfl n
    rw [heq]
    exact List.mem_cons_self
  have hne : (Nat.toDigits 10 n).isEmpty = false := by
    rw [List.isEmpty_eq_false_iff]
    exact Nat.toDigits_ne_nil
  unfold readNatural?
  dsimp only
  split
  · next digits heq => exact absurd heq (hplus digits)
  · rw [toList_toString, hne, if_neg (by simp), numberOf?_toDigits, Option.filter_some,
      if_pos (by simpa using h)]

theorem le_of_readNatural? {bound n : Nat} {code : String} (h : readNatural? bound code = some n) :
    n ≤ bound := by
  unfold readNatural? at h
  dsimp only at h
  split at h
  all_goals
    split at h
    · exact absurd h (by simp)
    · simpa using (Option.filter_eq_some_iff.mp h).2

/-! ## States -/

/-- Numbers that are read of states have **32 bits**. -/
theorem le_of_decodeState {code : String} {k : Nat} (h : decodeState code = .ok (.id k)) :
    k ≤ maxState := by
  unfold decodeState at h
  split at h
  · exact absurd h (by simp)
  · split at h
    · exact absurd h (by simp)
    · split at h
      · next n hn =>
          rw [Except.ok.injEq, State.id.injEq] at h
          rw [← h]
          exact le_of_readNatural? hn
      · exact absurd h (by simp)

/-- A numbered target that can be read is within the bound on states. -/
theorem le_of_decodeTarget {v : Json} {k : Nat} (h : decodeTarget v = .ok (.id k)) :
    k ≤ maxState := by
  unfold decodeTarget at h
  split at h
  · exact le_of_decodeState h
  · split at h
    · next n hn =>
        rw [Except.ok.injEq, State.id.injEq] at h
        rw [← h]
        simpa using (Option.filter_eq_some_iff.mp hn).2
    · exact absurd h (by simp)

/-- A state under its **new number**. -/
def renumbered (numbered : List State) : State → State
  | .start => .start
  | .fin => .fin
  | .id n => .id ((numbered.idxOf? (.id n)).getD 0)

variable {numbered : List State} {s t : State}

theorem getD_idxOf?_le {α : Type} [BEq α] [LawfulBEq α] {l : List α} {x : α} {n : Nat}
    (h : l.length ≤ n + 1) : (l.idxOf? x).getD 0 ≤ n := by
  cases hx : l.idxOf? x with
  | none => exact Nat.zero_le n
  | some i =>
      obtain ⟨hlt, -⟩ := List.findIdx?_eq_some_iff_getElem.mp hx
      rw [Option.getD_some]
      omega

/-- An entry stands at its index. References to a list by index are resolved by this. -/
theorem getElem?_of_idxOf? {α : Type} [BEq α] [LawfulBEq α] {l : List α} {x : α} {i : Nat}
    (h : l.idxOf? x = some i) : l[i]? = some x := by
  obtain ⟨hlt, heq, -⟩ := List.findIdx?_eq_some_iff_getElem.mp h
  rw [List.getElem?_eq_getElem hlt, eq_of_beq heq]

theorem exists_idxOf? {α : Type} [BEq α] [LawfulBEq α] {l : List α} {x : α} (h : x ∈ l) :
    ∃ i, l.idxOf? x = some i :=
  Option.isSome_iff_exists.mp (List.isSome_idxOf?.mpr h)

/-- New numbers are told apart. A state is numbered by its place among the
inner states. -/
theorem renumbered_injective (hs : s.isShared = false → s ∈ numbered)
    (ht : t.isShared = false → t ∈ numbered)
    (h : renumbered numbered s = renumbered numbered t) : s = t := by
  cases s with
  | start =>
      cases t with
      | start => rfl
      | fin => exact absurd h (by simp [renumbered])
      | id n => exact absurd h (by simp [renumbered])
  | fin =>
      cases t with
      | start => exact absurd h (by simp [renumbered])
      | fin => rfl
      | id n => exact absurd h (by simp [renumbered])
  | id m =>
      cases t with
      | start => exact absurd h (by simp [renumbered])
      | fin => exact absurd h (by simp [renumbered])
      | id n =>
          -- the new numbers are places in the list, and the same state stands at the same place
          obtain ⟨i, hi⟩ := exists_idxOf? (hs rfl)
          obtain ⟨j, hj⟩ := exists_idxOf? (ht rfl)
          rw [renumbered, renumbered, hi, hj, Option.getD_some, Option.getD_some,
            State.id.injEq] at h
          have hm := getElem?_of_idxOf? hi
          rw [h, getElem?_of_idxOf? hj] at hm
          exact (Option.some.inj hm).symm

/-- A state within the bound **is read back** from its code. -/
theorem decodeState_toString {n : Nat} (h : n ≤ maxState) :
    decodeState (toString n) = .ok (.id n) := by
  have hstart : toString n ≠ startCode := toString_ne_of_not_isDigit (c := 'S') rfl n
  have hfin : toString n ≠ finCode := toString_ne_of_not_isDigit (c := 'E') rfl n
  rw [decodeState, if_neg hstart, if_neg hfin, readNatural?_toString h]

/-- The name of a row is read back as the state **under its new number**. Shared states
have names of their own, which are not numerals. -/
theorem decodeState_stateName (h : numbered.length ≤ maxState + 1) (s : State) :
    decodeState (stateName numbered s) = .ok (renumbered numbered s) := by
  cases s with
  | start => rfl
  | fin => rfl
  | id n => exact decodeState_toString (getD_idxOf?_le h)

/-- So is the target of an edge. -/
theorem decodeTarget_stateCode (h : numbered.length ≤ maxState + 1) (s : State) :
    decodeTarget (stateCode numbered s) = .ok (renumbered numbered s) := by
  cases s with
  | start => rfl
  | fin => rfl
  | id n =>
      have hle : (numbered.idxOf? (.id n)).getD 0 ≤ maxState := getD_idxOf?_le h
      show decodeTarget (.nat ((numbered.idxOf? (.id n)).getD 0))
        = .ok (.id ((numbered.idxOf? (.id n)).getD 0))
      generalize (numbered.idxOf? (State.id n)).getD 0 = k at hle ⊢
      unfold decodeTarget Json.nat natural?
      dsimp only [Number.natural?]
      rw [Option.filter_some, if_pos (by simpa using hle)]

/-! ## Labels -/

variable {tags : List String} {l l' : Label} {code : String}

/-- Every label has a code, unless it is an element that is none of the tags. Such an
edge would be left out of the encoding. -/
theorem labelCode?_eq_none_iff :
    labelCode? tags l = none ↔ ∃ name, l = .token (.element name) ∧ name ∉ tags := by
  cases l with
  | epsilon => simp [labelCode?]
  | token x =>
      cases x with
      | text => simp [labelCode?]
      | element name =>
          rw [labelCode?, Option.map_eq_none_iff, List.idxOf?_eq_none_iff]
          constructor
          · exact fun h => ⟨name, rfl, h⟩
          · rintro ⟨name', heq, h⟩
            rw [Label.token.injEq, Token.element.injEq] at heq
            rwa [heq]

/-- The code of a label is **read back**. The codes of text and of epsilon are letters
and those of elements are decimals, so none is taken for another. -/
theorem decodeLabel_of_labelCode? (h : tags.length ≤ maxIndex + 1)
    (hcode : labelCode? tags l = some code) : decodeLabel tags code = .ok l := by
  cases l with
  | epsilon =>
      rw [← Option.some.inj hcode]
      rfl
  | token x =>
      cases x with
      | text =>
          rw [← Option.some.inj hcode]
          rfl
      | element name =>
          obtain ⟨i, hi, rfl⟩ := Option.map_eq_some_iff.mp hcode
          have hle : i ≤ maxIndex := by
            have hle := getD_idxOf?_le (x := name) h
            rwa [hi, Option.getD_some] at hle
          -- the letters for the other labels are no decimals
          have hepsilon : toString i ≠ epsilonCode := toString_ne_of_not_isDigit (c := 'E') rfl i
          have htext : toString i ≠ textCode := toString_ne_of_not_isDigit (c := 'T') rfl i
          rw [decodeLabel, if_neg hepsilon, if_neg htext, readNatural?_toString hle]
          dsimp only
          rw [getElem?_of_idxOf? hi]

/-! ## Members in order -/

/-- Members of which no two have one name are only brought into another order. Members
are sorted for writing, and what is read does not depend on it. -/
theorem mem_sortMembers_iff {members : List (String × Json)} (h : (members.map Prod.fst).Nodup)
    {p : String × Json} : p ∈ Json.sortMembers members ↔ p ∈ members := by
  unfold Json.sortMembers
  rw [List.mem_mergeSort, OrderedTable.entries_ofList h]

end Compact

end TreeGrammar
