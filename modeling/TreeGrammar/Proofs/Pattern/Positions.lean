/-
The positions of an expression.

Each occurrence of a token in an expression is a position. A word of the expression is
spelled by a row of positions: one of the first ones, then each time one that may follow
the one before, and at last one of the last ones. The expression is one-unambiguous when
the next token always says which position comes next. For what an automaton does it is
convenient to add the place before all positions, `none`, so that a place has positions
after it (`After`) and may be the final one (`Final`).
-/
import TreeGrammar.Proofs.Pattern.Expansion

set_option autoImplicit false

namespace TreeGrammar.Regex

/-! ## Positions -/

/-- The **positions** of an expression. -/
def Position : Regex → Type
  | one => Empty
  | token _ => Unit
  | seq r s => r.Position ⊕ s.Position
  | alt r s => r.Position ⊕ s.Position
  | optional r => r.Position
  | kleene r => r.Position
  | plus r => r.Position

/-- The token at a position. -/
def symbol : (r : Regex) → r.Position → Token
  | token x, _ => x
  | seq r _, .inl p => r.symbol p
  | seq _ s, .inr p => s.symbol p
  | alt r _, .inl p => r.symbol p
  | alt _ s, .inr p => s.symbol p
  | optional r, p => r.symbol p
  | kleene r, p => r.symbol p
  | plus r, p => r.symbol p

/-- A word may begin at the position. -/
def first : (r : Regex) → r.Position → Prop
  | token _, _ => True
  | seq r _, .inl p => r.first p
  | seq r s, .inr p => r.nullable ∧ s.first p
  | alt r _, .inl p => r.first p
  | alt _ s, .inr p => s.first p
  | optional r, p => r.first p
  | kleene r, p => r.first p
  | plus r, p => r.first p

/-- A word may end at the position. -/
def last : (r : Regex) → r.Position → Prop
  | token _, _ => True
  | seq r s, .inl p => r.last p ∧ s.nullable
  | seq _ s, .inr p => s.last p
  | alt r _, .inl p => r.last p
  | alt _ s, .inr p => s.last p
  | optional r, p => r.last p
  | kleene r, p => r.last p
  | plus r, p => r.last p

/-- The second position may **follow** the first in a word. -/
def follow : (r : Regex) → r.Position → r.Position → Prop
  | token _, _, _ => False
  | seq r _, .inl p, .inl q => r.follow p q
  | seq r s, .inl p, .inr q => r.last p ∧ s.first q
  | seq _ _, .inr _, .inl _ => False
  | seq _ s, .inr p, .inr q => s.follow p q
  | alt r _, .inl p, .inl q => r.follow p q
  | alt _ _, .inl _, .inr _ => False
  | alt _ _, .inr _, .inl _ => False
  | alt _ s, .inr p, .inr q => s.follow p q
  | optional r, p, q => r.follow p q
  | kleene r, p, q => r.follow p q ∨ r.last p ∧ r.first q
  | plus r, p, q => r.follow p q ∨ r.last p ∧ r.first q

/-- The expression is **one-unambiguous**: no two positions of one token are both first,
or both follow the same position. -/
def OneUnambiguous (r : Regex) : Prop :=
  (∀ p q, r.first p → r.first q → r.symbol p = r.symbol q → p = q) ∧
    ∀ o p q, r.follow o p → r.follow o q → r.symbol p = r.symbol q → p = q

/-! ## Places -/

/-- The position may come **after** the place: the beginning, or a position. -/
def After (r : Regex) : Option r.Position → r.Position → Prop
  | none, p => r.first p
  | some o, p => r.follow o p

/-- A word may end at the place. -/
def Final (r : Regex) : Option r.Position → Prop
  | none => r.nullable
  | some o => r.last o

/-- Seen from any place, **the next token tells its position**: the two conditions of a
one-unambiguous expression are the two kinds of places, the beginning and a position. -/
theorem oneUnambiguous_iff (r : Regex) : r.OneUnambiguous ↔
    ∀ c p q, r.After c p → r.After c q → r.symbol p = r.symbol q → p = q := by
  constructor
  · rintro ⟨hfirst, hfollow⟩ c
    cases c with
    | none => exact hfirst
    | some o => exact hfollow o
  · intro h
    exact ⟨h none, fun o => h (some o)⟩

/-- Every expression has a word, so that some place of it is **final**. What follows an
expression can therefore always be come to. -/
theorem exists_final (r : Regex) : ∃ c, r.Final c := by
  induction r with
  | one => exact ⟨none, trivial⟩
  | token x => exact ⟨some (), trivial⟩
  | seq r s ihr ihs =>
      obtain ⟨d, hd⟩ := ihs
      cases d with
      | some q => exact ⟨some (.inr q), hd⟩
      | none =>
          -- the second one may be empty, so the end of the first one will do
          obtain ⟨c, hc⟩ := ihr
          cases c with
          | some p => exact ⟨some (.inl p), hc, hd⟩
          | none => exact ⟨none, hc, hd⟩
  | alt r s ihr _ =>
      obtain ⟨c, hc⟩ := ihr
      cases c with
      | some p => exact ⟨some (.inl p), hc⟩
      | none => exact ⟨none, .inl hc⟩
  | optional r _ => exact ⟨none, trivial⟩
  | kleene r _ => exact ⟨none, trivial⟩
  | plus r ih =>
      obtain ⟨c, hc⟩ := ih
      cases c with
      | some p => exact ⟨some p, hc⟩
      | none => exact ⟨none, hc⟩

section

variable {r s : Regex}

/-! ### One after the other -/

/-- What comes next in the first expression comes next in the sequence. -/
theorem after_inl {c : Option r.Position} {p : r.Position} (h : r.After c p) :
    (r.seq s).After (c.map .inl) (.inl p) := by
  cases c with
  | none => exact h
  | some o => exact h

/-- At a final place of the first expression the second one **may begin**. The place may
be the beginning, if the first expression may be empty. -/
theorem after_inr_of_final {c : Option r.Position} {q : s.Position} (hc : r.Final c)
    (hq : s.first q) : (r.seq s).After (c.map .inl) (.inr q) := by
  cases c with
  | none => exact ⟨hc, hq⟩
  | some o => exact ⟨hc, hq⟩

/-- The sequence may end where the first expression may, if the second one
may be empty. -/
theorem final_inl {c : Option r.Position} (hc : r.Final c) (hs : s.nullable) :
    (r.seq s).Final (c.map .inl) := by
  cases c with
  | none => exact ⟨hc, hs⟩
  | some o => exact ⟨hc, hs⟩

/-- A place of the second expression within both: its beginning is a place where the
first one ends. -/
def behind (e : Option r.Position) : Option s.Position → Option (r.seq s).Position
  | none => e.map .inl
  | some o => some (.inr o)

/-- Behind the end of the first expression stands what comes next in the second, be it
at its beginning or behind a position. -/
theorem after_behind {e : Option r.Position} {c : Option s.Position} {q : s.Position}
    (he : r.Final e) (h : s.After c q) : (r.seq s).After (behind e c) (.inr q) := by
  cases c with
  | none => exact after_inr_of_final he h
  | some o => exact h

/-- The sequence may end where the second expression may. -/
theorem final_behind {e : Option r.Position} {c : Option s.Position} (he : r.Final e)
    (h : s.Final c) : (r.seq s).Final (behind e c) := by
  cases c with
  | none => exact final_inl he h
  | some o => exact h

/-- One-unambiguous expressions **consist of** one-unambiguous expressions. Their
positions are positions of the sequence, in the same order. -/
theorem OneUnambiguous.of_seq (h : (r.seq s).OneUnambiguous) :
    r.OneUnambiguous ∧ s.OneUnambiguous := by
  rw [oneUnambiguous_iff] at h
  constructor
  · -- places of `r` are places of both
    rw [oneUnambiguous_iff]
    intro c p q hp hq hsymbol
    exact Sum.inl.inj (h (c.map .inl) (.inl p) (.inl q) (after_inl hp) (after_inl hq) hsymbol)
  · -- the beginning of `s` is seen from a place of `r` where `r` may end
    obtain ⟨c, hc⟩ := exists_final r
    refine ⟨fun p q hp hq hsymbol => ?_, fun o p q hp hq hsymbol => ?_⟩
    · exact Sum.inr.inj (h (c.map .inl) (.inr p) (.inr q) (after_inr_of_final hc hp)
        (after_inr_of_final hc hq) hsymbol)
    · exact Sum.inr.inj (h (some (.inr o)) (.inr p) (.inr q) hp hq hsymbol)

/-- Where the first expression may end, a token of the first **does not open the
second**. This is what an edge lost in a sequence would contradict. -/
theorem OneUnambiguous.symbol_ne (h : (r.seq s).OneUnambiguous) {c : Option r.Position}
    {p : r.Position} {q : s.Position} (hp : r.After c p) (hc : r.Final c) (hq : s.first q) :
    r.symbol p ≠ s.symbol q := by
  intro hsymbol
  rw [oneUnambiguous_iff] at h
  exact absurd (h (c.map .inl) (.inl p) (.inr q) (after_inl hp) (after_inr_of_final hc hq) hsymbol)
    Sum.inl_ne_inr

/-! ### One or the other -/

/-- What comes next in the first of two alternatives comes next in the choice. -/
theorem after_alt_inl {c : Option r.Position} {p : r.Position} (h : r.After c p) :
    (r.alt s).After (c.map .inl) (.inl p) := by
  cases c with
  | none => exact h
  | some o => exact h

theorem after_alt_inr {c : Option s.Position} {q : s.Position} (h : s.After c q) :
    (r.alt s).After (c.map .inr) (.inr q) := by
  cases c with
  | none => exact h
  | some o => exact h

/-- The choice may end where the first alternative may. -/
theorem final_alt_inl {c : Option r.Position} (h : r.Final c) : (r.alt s).Final (c.map .inl) := by
  cases c with
  | none => exact .inl h
  | some o => exact h

theorem final_alt_inr {c : Option s.Position} (h : s.Final c) : (r.alt s).Final (c.map .inr) := by
  cases c with
  | none => exact .inr h
  | some o => exact h

/-- Both alternatives of a one-unambiguous choice are one-unambiguous. -/
theorem OneUnambiguous.of_alt (h : (r.alt s).OneUnambiguous) :
    r.OneUnambiguous ∧ s.OneUnambiguous := by
  obtain ⟨hfirst, hfollow⟩ := h
  refine ⟨⟨fun p q hp hq hsymbol => ?_, fun o p q hp hq hsymbol => ?_⟩,
    fun p q hp hq hsymbol => ?_, fun o p q hp hq hsymbol => ?_⟩
  · exact Sum.inl.inj (hfirst (.inl p) (.inl q) hp hq hsymbol)
  · exact Sum.inl.inj (hfollow (.inl o) (.inl p) (.inl q) hp hq hsymbol)
  · exact Sum.inr.inj (hfirst (.inr p) (.inr q) hp hq hsymbol)
  · exact Sum.inr.inj (hfollow (.inr o) (.inr p) (.inr q) hp hq hsymbol)

/-- Besides, **no token begins both**: they would be two positions for one
next token. -/
theorem OneUnambiguous.symbol_first_ne (h : (r.alt s).OneUnambiguous) {p : r.Position}
    {q : s.Position} (hp : r.first p) (hq : s.first q) : r.symbol p ≠ s.symbol q := by
  intro hsymbol
  exact absurd (h.1 (.inl p) (.inr q) hp hq hsymbol) Sum.inl_ne_inr

/-! ### Repetitions -/

/-- What comes next within a round comes next in the repetition. -/
theorem after_plus {c : Option r.Position} {p : r.Position} (h : r.After c p) :
    r.plus.After c p := by
  cases c with
  | none => exact h
  | some o => exact .inl h

/-- Where a round may end, the next one **may begin**. It is the only order that a
repetition adds. -/
theorem after_plus_of_final {c : Option r.Position} {p : r.Position} (hc : r.Final c)
    (hp : r.first p) : r.plus.After c p := by
  cases c with
  | none => exact hp
  | some o => exact .inr ⟨hc, hp⟩

theorem final_plus {c : Option r.Position} (h : r.Final c) : r.plus.Final c := by
  cases c with
  | none => exact h
  | some o => exact h

/-- Making an expression optional adds no position and no order between positions, so
both are one-unambiguous alike. -/
theorem OneUnambiguous.of_optional (h : r.optional.OneUnambiguous) : r.OneUnambiguous := h

/-- What is repeated in a one-unambiguous expression is one-unambiguous: the repetition
has all its orders and more. -/
theorem OneUnambiguous.of_kleene (h : r.kleene.OneUnambiguous) : r.OneUnambiguous :=
  ⟨h.1, fun o p q hp hq hsymbol => h.2 o p q (.inl hp) (.inl hq) hsymbol⟩

/-- The same holds of what is repeated at least once. -/
theorem OneUnambiguous.of_plus (h : r.plus.OneUnambiguous) : r.OneUnambiguous :=
  ⟨h.1, fun o p q hp hq hsymbol => h.2 o p q (.inl hp) (.inl hq) hsymbol⟩

end

end TreeGrammar.Regex
