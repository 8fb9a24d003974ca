/-
Escaped text read back.

A character is written as itself or as a reference to it, and a reference has none of
the five characters in it that need one. So no markup begins in escaped text, no quote
ends it, and to resolve its references gives the text back.
-/
import TreeGrammar.Markup.Reference
import TreeGrammar.Markup.Writer

set_option autoImplicit false

namespace TreeGrammar

/-! ## Spans of characters -/

section Spans

variable {α : Type} {p : α → Bool} {inside rest : List α}

/-- A span ends where the first element that does not belong to it stands. Names of tags
and of references are cut off in this way. -/
theorem takeWhile_append_of_stop (hinside : ∀ a ∈ inside, p a = true)
    (hstop : ∀ a ∈ rest.head?, p a = false) : (inside ++ rest).takeWhile p = inside := by
  rw [List.takeWhile_append_of_pos hinside]
  cases rest with
  | nil => rw [List.takeWhile_nil, List.append_nil]
  | cons a rest =>
      have ha : p a = false := hstop a rfl
      rw [List.takeWhile_cons_of_neg (by rw [ha]; exact Bool.false_ne_true), List.append_nil]

theorem dropWhile_append_of_stop (hinside : ∀ a ∈ inside, p a = true)
    (hstop : ∀ a ∈ rest.head?, p a = false) : (inside ++ rest).dropWhile p = rest := by
  rw [List.dropWhile_append_of_pos hinside]
  cases rest with
  | nil => rfl
  | cons a rest =>
      have ha : p a = false := hstop a rfl
      rw [List.dropWhile_cons_of_neg (by rw [ha]; exact Bool.false_ne_true)]

end Spans

/-! ## References -/

/-- The five characters that stand for themselves nowhere. -/
def escaped : List Char := ['<', '>', '&', '\'', '"']

/-- Whether the name of a reference is spelled with small letters of ASCII alone. -/
def IsReferenceName (name : List Char) : Prop := ∀ c ∈ name, 'a' ≤ c ∧ c ≤ 'z'

instance (name : List Char) : Decidable (IsReferenceName name) := List.decidableBAll _ name

/-- A character stands **for itself** or is written as a named reference to it. This is
all that later lemmas use of the table of escapes. -/
theorem escapeChar_cases (c : Char) :
    (escapeChar c = [c] ∧ c ∉ escaped) ∨
      ∃ name, escapeChar c = '&' :: name ++ [';'] ∧ IsReferenceName name ∧
        referent? name = some c := by
  by_cases hmem : c ∈ escaped
  · refine .inr ?_
    simp only [escaped, List.mem_cons, List.not_mem_nil, or_false] at hmem
    rcases hmem with rfl | rfl | rfl | rfl | rfl
    · exact ⟨"lt".toList, by decide, by decide, by decide⟩
    · exact ⟨"gt".toList, by decide, by decide, by decide⟩
    · exact ⟨"amp".toList, by decide, by decide, by decide⟩
    · exact ⟨"apos".toList, by decide, by decide, by decide⟩
    · exact ⟨"quot".toList, by decide, by decide, by decide⟩
  · refine .inl ⟨?_, hmem⟩
    simp only [escaped, List.mem_cons, List.not_mem_nil, or_false, not_or] at hmem
    simp only [escapeChar, hmem, if_false]

/-- The name of a reference has small letters only, so anything else ends it. In
particular it contains no semicolon. -/
theorem IsReferenceName.ne {name : List Char} {c d : Char} (h : IsReferenceName name)
    (hc : c ∈ name) (hd : ¬ ('a' ≤ d ∧ d ≤ 'z')) : c ≠ d :=
  fun heq => hd (heq ▸ h c hc)

/-- Of the five characters only `&` occurs in escaped text. So the markup around a text
is not taken for the text, nor the text for markup. -/
theorem notMem_escapeText {d : Char} (hd : d ∈ ['<', '>', '\'', '"']) (cs : List Char) :
    d ∉ escapeText cs := by
  intro hmem
  obtain ⟨c, -, hc⟩ := List.mem_flatMap.mp hmem
  have houtside : d ∈ escaped ∧ d ≠ '&' ∧ d ≠ ';' ∧ ¬ ('a' ≤ d ∧ d ≤ 'z') := by
    simp only [List.mem_cons, List.not_mem_nil, or_false] at hd
    rcases hd with rfl | rfl | rfl | rfl <;> decide
  obtain ⟨hescaped, hampersand, hsemicolon, hletter⟩ := houtside
  rcases escapeChar_cases c with ⟨hself, hplain⟩ | ⟨name, hreference, hname, -⟩
  · rw [hself, List.mem_singleton] at hc
    exact hplain (hc ▸ hescaped)
  · rw [hreference, List.cons_append, List.mem_cons, List.mem_append, List.mem_singleton] at hc
    rcases hc with hc | hc | hc
    · exact hampersand hc
    · exact hname.ne hc hletter rfl
    · exact hsemicolon hc

/-- Escaping makes no text empty and leaves none out, so a text node is
written as text. -/
theorem escapeText_eq_nil_iff {cs : List Char} : escapeText cs = [] ↔ cs = [] := by
  cases cs with
  | nil => exact iff_of_true rfl rfl
  | cons c cs =>
      refine iff_of_false (fun h => ?_) (List.cons_ne_nil c cs)
      have hnil : escapeChar c = [] := (List.append_eq_nil_iff.mp h).1
      rcases escapeChar_cases c with ⟨hself, -⟩ | ⟨name, hreference, -, -⟩
      · rw [hself] at hnil
        cases hnil
      · rw [hreference] at hnil
        cases hnil

/-- A reference at the beginning is resolved by its name, and then the rest. The name
goes up to the first semicolon. -/
theorem resolveReferences?_reference {name : List Char} (hname : IsReferenceName name)
    (rest : List Char) : resolveReferences? ('&' :: name ++ ';' :: rest) =
      (referent? name).bind fun c => (resolveReferences? rest).map (c :: ·) := by
  have hinside : ∀ c ∈ name, isInsideReference c = true := by
    intro c hc
    have hsemicolon : c ≠ ';' := hname.ne hc (by decide)
    have hampersand : c ≠ '&' := hname.ne hc (by decide)
    simp only [isInsideReference, bne_iff_ne, Bool.and_eq_true]
    exact ⟨hsemicolon, hampersand⟩
  have hstop : ∀ c ∈ (';' :: rest).head?, isInsideReference c = false := by
    rintro c ⟨⟩
    decide
  have htake := takeWhile_append_of_stop hinside hstop
  have hdrop := dropWhile_append_of_stop hinside hstop
  rw [List.cons_append, resolveReferences?, if_pos rfl]
  split
  · next more hmore =>
    rw [hdrop] at hmore
    cases hmore
    rw [htake]
    cases referent? name <;> cases resolveReferences? rest <;> rfl
  · next hnone =>
    exact absurd hdrop (hnone rest)

theorem resolveReferences?_cons {c : Char} (hc : c ≠ '&') (rest : List Char) :
    resolveReferences? (c :: rest) = (resolveReferences? rest).map (c :: ·) := by
  rw [resolveReferences?, if_neg hc]
  cases resolveReferences? rest <;> rfl

/-- What an escaped character is resolved to is **the character**, whatever follows.
From here a text comes back by induction. -/
theorem resolveReferences?_escapeChar_append (c : Char) (rest : List Char) :
    resolveReferences? (escapeChar c ++ rest) = (resolveReferences? rest).map (c :: ·) := by
  rcases escapeChar_cases c with ⟨hself, hplain⟩ | ⟨name, hreference, hname, hreferent⟩
  · have hc : c ≠ '&' := fun heq => hplain (heq ▸ by decide)
    rw [hself]
    exact resolveReferences?_cons hc rest
  · rw [hreference, List.append_assoc, List.singleton_append, resolveReferences?_reference hname,
      hreferent]
    rfl

/-- Escaped text resolves **to the text**. By induction on the characters, each of which
resolves before the rest is looked at. -/
theorem resolveReferences?_escapeText (cs : List Char) :
    resolveReferences? (escapeText cs) = some cs := by
  induction cs with
  | nil => rw [escapeText, List.flatMap_nil, resolveReferences?]
  | cons c cs ih =>
      rw [escapeText, List.flatMap_cons, resolveReferences?_escapeChar_append]
      show (resolveReferences? (escapeText cs)).map (c :: ·) = _
      rw [ih]
      rfl

end TreeGrammar
