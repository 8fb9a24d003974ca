/-
What a compiled pattern accepts.

A compiled pattern accepts words of the pattern only, whatever edges were lost
(`accepts_only_language`). How far it accepts all of them is a question of lost edges
and of shadowed ones. Lost edges are on record. Where none is, the table spells the
whole language, and accepts it exactly when its shadowed edges are harmless
(`unwarned_exact_iff`); they are when nothing is repeated, but a repetition may shadow
an edge without a word (`unwarned_rejects`). For a one-unambiguous pattern there are no
lost edges and no shadowed ones (`exact_of_oneUnambiguous`).
-/
import TreeGrammar.Proofs.Compile.Pattern
import TreeGrammar.Proofs.Compile.Simulation

set_option autoImplicit false

namespace TreeGrammar

open Automaton Compiling

variable {book : Rulebook} {s s' : Session} {p : Pattern} {a : Automaton} {r : Regex}

/-! ## Nothing but the language -/

/-- Whatever the session has been used for and whatever was lost, a compiled
pattern accepts **words of the pattern only**, and the empty word exactly when it
is one of them. -/
theorem accepts_only_language (hs : s.Reached book)
    (h : (pattern book p).Yields s (.single a) s') :
    (∀ w, a.accepts w = true → w ∈ p.language book.definitions) ∧
      (a.accepts [] = true ↔ [] ∈ p.language book.definitions) := by
  obtain ⟨r, cs, hexp, hmade, -, -⟩ := delivers_pattern (sound_of_reached hs) h
  rw [← hexp.language_eq]
  refine ⟨fun w hw => hmade.spelled_le (spelled_of_accepts hw), ?_⟩
  rw [hmade.wellFormed.accepts_nil, hmade.epsilon_start_iff, r.nil_mem_language_iff]

/-- Any number of rounds of one `a` that another `a` and a `b` may follow. -/
def rounds : Pattern :=
  .plus (.sequence [.token "a", .optional (.sequence [.token "a", .token "b"])])

/-- The table that rounds are compiled to. -/
def roundsTable : Automaton :=
  let x := Automaton.single (.element "a")
  let y := Automaton.single (.element "b")
  (plus 2 (append 1 x (append 0 x y).automaton.optional).automaton).automaton

/-- The rounds compile to their table, drawing three numbers and leaving no warning. The
run is computed, operator by operator. -/
theorem yields_rounds : (pattern {} rounds).Yields {} (.single roundsTable) { drawn := 3 } :=
  yields_pattern_of_term rfl (by simp) rfl rfl

theorem accepts_only_language_rounds : (Session.Reached {} {} ∧
    (pattern {} rounds).Yields {} (.single roundsTable) { drawn := 3 }) ∧
    (∀ w, roundsTable.accepts w = true → w ∈ rounds.language .empty) ∧
      (roundsTable.accepts [] = true ↔ [] ∈ rounds.language .empty) :=
  ⟨⟨.new, yields_rounds⟩, accepts_only_language .new yields_rounds⟩

/-! ## All of the language -/

/-- A new session that has no warning after a run has **lost nothing**. Every collision
is reported, and warnings are not taken back. -/
theorem eq_nil_of_loses {cs : List Collision} (h : Session.Loses {} s' cs)
    (hwarnings : s'.warnings = []) : cs = [] := by
  rw [List.eq_nil_iff_forall_not_mem]
  intro c hc
  obtain ⟨w, hw, -⟩ := h.records c hc
  rw [hwarnings] at hw
  exact absurd hw (by simp)

/-- From a new session, a run that loses nothing **leaves no warning**. -/
theorem warnings_eq_nil_of_loses (h : Session.Loses {} s' []) : s'.warnings = [] := by
  rw [List.eq_nil_iff_forall_not_mem]
  intro w hw
  rcases h.only w hw with hw | hw
  · exact absurd hw (by simp)
  · exact absurd hw (by simp)

/-- Without a warning, a compiled pattern accepts words of the pattern only, and **all
of them exactly when its shadowed edges are harmless**. Where the pattern expands to an
expression without repetitions, none is shadowed. -/
theorem unwarned_exact_iff (h : (pattern book p).Yields {} (.single a) s')
    (hwarnings : s'.warnings = []) :
    (∀ w, a.accepts w = true → w ∈ p.language book.definitions) ∧
      ((∀ w, a.accepts w = true ↔ w ∈ p.language book.definitions) ↔ a.Harmless) ∧
      ∀ r, p.Expands book.definitions r → r.LoopFree →
        ∀ w, a.accepts w = true ↔ w ∈ p.language book.definitions := by
  obtain ⟨r, cs, hexp, hmade, -, hloses⟩ := delivers_pattern (sound_new book.definitions) h
  have hcs := eq_nil_of_loses hloses hwarnings
  have hspelled : a.spelled = p.language book.definitions := by
    rw [hmade.spelled_eq hcs, hexp.language_eq]
  rw [← hspelled]
  refine ⟨fun w hw => spelled_of_accepts hw, accepts_iff_spelled_iff a, fun r' hexp' hloop w => ?_⟩
  rw [hexp'.unique hexp] at hloop
  exact (hmade.coherent hcs hloop).accepts_iff

theorem unwarned_exact_iff_rounds :
    ((pattern {} rounds).Yields {} (.single roundsTable) { drawn := 3 } ∧
      ({ drawn := 3 } : Session).warnings = []) ∧
    (∀ w, roundsTable.accepts w = true → w ∈ rounds.language .empty) ∧
      ((∀ w, roundsTable.accepts w = true ↔ w ∈ rounds.language .empty) ↔
        roundsTable.Harmless) ∧
      ∀ r, rounds.Expands .empty r → r.LoopFree →
        ∀ w, roundsTable.accepts w = true ↔ w ∈ rounds.language .empty :=
  ⟨⟨yields_rounds, rfl⟩, unwarned_exact_iff yields_rounds rfl⟩

/-- Two rounds without a second part are a word of the pattern. The table does not take
it, although nothing is reported. -/
theorem mem_language_rounds :
    [.element "a", .element "a"] ∈ rounds.language .empty := by
  have hround : Pattern.Matches .empty
      (.sequence [.token "a", .optional (.sequence [.token "a", .token "b"])]) [.element "a"] :=
    .sequenceCons (.token "a") (.sequenceCons (.optionalNil _) .sequenceNil)
  exact .plus hround (.kleeneCons hround (.kleeneNil _))

/-- A word of two rounds is rejected **without a warning**: the edge that opens the
second round is shadowed by the one that goes on with the first. -/
theorem unwarned_rejects : ∃ (p : Pattern) (a : Automaton) (s' : Session) (w : List Token),
    (pattern {} p).Yields {} (.single a) s' ∧ s'.warnings = [] ∧ w ∈ p.language .empty ∧
      a.accepts w = false :=
  ⟨rounds, roundsTable, { drawn := 3 }, [.element "a", .element "a"], yields_rounds, rfl,
    mem_language_rounds, by decide +kernel⟩

/-! ## One-unambiguous patterns -/

/-- A pattern that expands to a one-unambiguous expression is compiled **without a
warning and exactly**. -/
theorem exact_of_oneUnambiguous {c : Compiled} (hexp : p.Expands book.definitions r)
    (hr : r.OneUnambiguous) (h : (pattern book p).Yields {} c s') :
    s'.warnings = [] ∧ ∃ a, c = .single a ∧
      ∀ w, a.accepts w = true ↔ w ∈ p.language book.definitions := by
  obtain ⟨a, rfl⟩ := exists_single_of_expands hexp h
  obtain ⟨r', cs, hexp', hmade, -, hloses⟩ := delivers_pattern (sound_new book.definitions) h
  obtain rfl := hexp.unique hexp'
  have hcs := hmade.eq_nil hr
  subst hcs
  refine ⟨warnings_eq_nil_of_loses hloses, a, rfl, fun w => ?_⟩
  rw [(hmade.coherent_of_oneUnambiguous hr).accepts_iff, hmade.spelled_eq rfl, hexp.language_eq]

/-- Any number of `a`, and then a `b`. -/
def series : Pattern := .sequence [.kleene (.token "a"), .token "b"]

/-- The expression that a series expands to. -/
def seriesRegex : Regex := .seq (.kleene (.token (.element "a"))) (.token (.element "b"))

/-- The table that a series is compiled to. -/
def seriesTable : Automaton :=
  (append 1 (kleene 0 (Automaton.single (.element "a"))).automaton
    (Automaton.single (.element "b"))).automaton

/-- A series has no references, so it expands to itself. -/
theorem expands_series : series.Expands .empty seriesRegex :=
  ⟨series, _, rfl, rfl, .sequenceSnoc (by simp) (.sequenceOne (.kleene (.token _))) (.token _)⟩

/-- Its two positions have different tokens, so none can be mistaken for the other. -/
theorem oneUnambiguous_series : seriesRegex.OneUnambiguous := by
  have hsymbol : ∀ p q, seriesRegex.symbol p = seriesRegex.symbol q → p = q := by
    rintro (⟨⟩ | ⟨⟩) (⟨⟩ | ⟨⟩) h
    · rfl
    · have hab : Token.element "a" = .element "b" := h
      exact absurd hab (by decide)
    · have hba : Token.element "b" = .element "a" := h
      exact absurd hba (by decide)
    · rfl
  exact ⟨fun p q _ _ => hsymbol p q, fun _ p q _ _ => hsymbol p q⟩

theorem yields_series : (pattern {} series).Yields {} (.single seriesTable) { drawn := 2 } := by
  have hne : ∀ name, series ≠ .ref name := by simp [series]
  exact yields_pattern_of_term rfl hne rfl rfl

theorem exact_of_oneUnambiguous_series :
    (series.Expands .empty seriesRegex ∧ seriesRegex.OneUnambiguous ∧
      (pattern {} series).Yields {} (.single seriesTable) { drawn := 2 }) ∧
    ({ drawn := 2 } : Session).warnings = [] ∧ ∃ a, Compiled.single seriesTable = .single a ∧
      ∀ w, a.accepts w = true ↔ w ∈ series.language .empty :=
  ⟨⟨expands_series, oneUnambiguous_series, yields_series⟩,
    exact_of_oneUnambiguous expands_series oneUnambiguous_series yields_series⟩

end TreeGrammar
