/-
Paths through a table, and the words they spell.

A run of a table is bound by precedence: it takes the first edge that its chain offers.
A **path** is free to take any. The words that paths spell, from `start` to `fin`, are a
language with simple laws, and the operators are compared with the algebra of languages
through it. What precedence makes of that language is a question of its own:

* every word that is accepted is spelled (`spelled_of_accepts`);
* where no edge is shadowed by one with another target, every word that is spelled is
  accepted (`Coherent.accepts_iff`);
* in general the words accepted are all those spelled exactly when no shadowed edge is the
  only way to a word (`accepts_iff_spelled_iff`).
-/
import Mathlib.Computability.Language
import Mathlib.Order.CompletePartialOrder
import TreeGrammar.Proofs.Automaton.Renaming

set_option autoImplicit false

namespace TreeGrammar

/-- The letters that an edge of the label takes. -/
def Label.word : Label → List Token
  | .token t => [t]
  | .epsilon => []

namespace Automaton

/-- The edges of the table lead from a state to the **goal**, and a word
stands on them. -/
inductive Path (a : Automaton) (goal : State) : State → List Token → Prop
  | refl : Path a goal goal []
  | step {s r : State} {l : Label} {w : List Token} (h : a.target s l = some r)
      (rest : Path a goal r w) : Path a goal s (l.word ++ w)

/-- The **words that paths spell** from `start` to `fin`. -/
def spelled (a : Automaton) : Language Token := {w | a.Path .fin .start w}

/-- From `s` on, the word is read to a state where the content may end. -/
def Reads (a : Automaton) (s : State) (w : List Token) : Prop :=
  ∃ t, a.run s w = some t ∧ a.isFinished t = true

/-- An edge for the token on the chain of `s` that enters `t`, while the token is taken
**elsewhere**. -/
def Shadows (a : Automaton) (s : State) (x : Token) (t : State) : Prop :=
  (∃ r, a.Passes s r ∧ a.target r (.token x) = some t) ∧ a.consume s x ≠ some t

/-- No edge of the table is shadowed: the edges of one chain for one token **have
one target**. -/
def Coherent (a : Automaton) : Prop :=
  ∀ s r r' x t t', a.Passes s r → a.Passes s r' → a.target r (.token x) = some t →
    a.target r' (.token x) = some t' → t = t'

/-- Where a run passes over a shadowed edge, each word that the edge leads on to is
**read all the same**. -/
def Harmless (a : Automaton) : Prop :=
  ∀ u s x t₀ t, a.run .start u = some s → a.consume s x = some t₀ → a.Shadows s x t →
    ∀ w, a.Path .fin t w → a.Reads t₀ w

variable {a b : Automaton} {s r t goal : State} {l : Label} {x : Token} {u w : List Token}

/-! ## Paths -/

theorem Path.epsilon (h : a.epsilon s = some r) (p : a.Path goal r w) : a.Path goal s w :=
  Path.step (l := .epsilon) h p

theorem Path.token (h : a.target s (.token x) = some r) (p : a.Path goal r w) :
    a.Path goal s (x :: w) :=
  Path.step (l := .token x) h p

/-- Paths that meet make one path, with **the words one after the other**. -/
theorem Path.append (p : a.Path goal s u) (q : a.Path t goal w) : a.Path t s (u ++ w) := by
  induction p with
  | refl => exact q
  | step h _ ih =>
      rw [List.append_assoc]
      exact Path.step h ih

/-- A chain may be put before a path; it leaves the word as it is. -/
theorem Path.of_passes (h : a.Passes s r) (p : a.Path goal r w) : a.Path goal s w := by
  induction h using Relation.ReflTransGen.head_induction_on with
  | refl => exact p
  | head hstep _ ih => exact ih.epsilon hstep

/-- A chain by itself is a path on which the empty word stands. -/
theorem path_of_passes (h : a.Passes s goal) : a.Path goal s [] := Path.of_passes h .refl

/-- A path is one in every table that has **its edges**. No precedence is involved, so
more edges mean more paths. -/
theorem Path.mono (h : ∀ s l t, a.target s l = some t → b.target s l = some t)
    (p : a.Path goal s w) : b.Path goal s w := by
  induction p with
  | refl => exact .refl
  | step hst _ ih => exact .step (h _ _ _ hst) ih

/-- A path that has left `start` does not come back, so the edges elsewhere are all
that it needs. Two tables that differ at `start` only have the same paths from
everywhere else. -/
theorem Path.mono_of_ne_start (ha : a.WellFormed)
    (h : ∀ s l t, s ≠ .start → a.target s l = some t → b.target s l = some t)
    (p : a.Path goal s w) (hs : s ≠ .start) : b.Path goal s w := by
  induction p with
  | refl => exact .refl
  | step hst _ ih => exact .step (h _ _ _ hs hst) (ih (ha.ne_start hst))

/-- From `fin` a path goes nowhere, since no edge leaves it. -/
theorem WellFormed.eq_nil_of_path_fin (h : a.WellFormed) (p : a.Path .fin .fin w) : w = [] := by
  cases p with
  | refl => rfl
  | step hst _ => exact absurd rfl (h.ne_fin hst)

/-- A path to `fin` runs along the chain and ends there, or takes a token by an edge of
the chain. Inductions on words take a path apart in this way, one token at a time. -/
theorem Path.cases_chain (p : a.Path .fin s w) : (w = [] ∧ a.Passes s .fin) ∨
    ∃ r x t w', w = x :: w' ∧ a.Passes s r ∧ a.target r (.token x) = some t ∧ a.Path .fin t w' := by
  induction p with
  | refl => exact .inl ⟨rfl, a.passes_refl _⟩
  | @step s q l w h rest ih =>
      cases l with
      | token x => exact .inr ⟨s, x, q, w, rfl, a.passes_refl s, h, rest⟩
      | epsilon =>
          rcases ih with ⟨hw, hp⟩ | ⟨r, x, t, w', hw, hp, ht, hrest⟩
          · exact .inl ⟨hw, hp.head h⟩
          · exact .inr ⟨r, x, t, w', hw, hp.head h, ht, hrest⟩

/-- A path is one between the **renamed states**. -/
theorem Renames.path {f : State → State} {p : State → Prop} (h : Renames f p a b) (hs : p s)
    (hpath : a.Path .fin s w) : b.Path .fin (f s) w := by
  induction hpath with
  | refl =>
      rw [h.apply_fin]
      exact .refl
  | step hst _ ih =>
      refine .step ?_ (ih (h.closed _ _ _ hs hst))
      rw [h.target_eq _ _ hs, hst, Option.map_some]

/-- A renaming of states keeps the words. -/
theorem Renames.spelled_eq {f : State → State} {p : State → Prop} (h : Renames f p a b) :
    b.spelled = a.spelled := by
  -- back along the renaming, which has one original for each state of the path
  have hback : ∀ s' w, b.Path .fin s' w → ∀ s, p s → f s = s' → a.Path .fin s w := by
    intro s' w hpath
    induction hpath with
    | refl =>
        intro s hs heq
        rw [← h.apply_fin] at heq
        rw [h.injective s .fin hs h.fin_mem heq]
        exact .refl
    | step hst _ ih =>
        rintro s hs rfl
        rw [h.target_eq _ _ hs] at hst
        obtain ⟨r, hr, hfr⟩ := Option.map_eq_some_iff.mp hst
        exact .step hr (ih r (h.closed _ _ _ hs hr) hfr)
  ext w
  constructor
  · intro hw
    exact hback _ _ hw .start h.start_mem h.apply_start
  · intro hw
    have hpath := h.path h.start_mem hw
    rw [h.apply_start] at hpath
    exact hpath

theorem spelled_copy (a : Automaton) (n : Nat) : (a.copy n).automaton.spelled = a.spelled :=
  (renames_copy a n).spelled_eq

/-- So what is put beside the first table spells the words of the second, whether it was
copied or not. Every operator is compared with languages through this. -/
theorem spelled_apart (n : Nat) (a b : Automaton) :
    (apart n a b).automaton.spelled = b.spelled :=
  apart_induction (motive := fun d => d.automaton.spelled = b.spelled) n a b rfl
    (spelled_copy b n)

/-! ## Reading words -/

/-- The empty word is read where the chain comes to `fin`. -/
theorem reads_nil : a.Reads s [] ↔ a.Passes s .fin := by
  unfold Reads
  rw [← isFinished_iff]
  constructor
  · rintro ⟨t, ht, hfin⟩
    rw [run, Option.some.injEq] at ht
    rwa [ht]
  · intro h
    exact ⟨s, rfl, h⟩

/-- A word is read by taking its first token, along the chain, and reading the rest
from there. -/
theorem reads_cons : a.Reads s (x :: w) ↔ ∃ t, a.consume s x = some t ∧ a.Reads t w := by
  unfold Reads
  rw [run]
  cases h : a.consume s x with
  | none => simp
  | some t => simp

theorem accepts_iff : a.accepts w = true ↔ a.Reads .start w := by
  unfold accepts Reads
  cases h : a.run .start w with
  | none => simp
  | some s => simp

/-- A run over a word in two parts is a run over the one and then over the other. -/
theorem run_append (a : Automaton) (s : State) (u w : List Token) :
    a.run s (u ++ w) = (a.run s u).bind fun t => a.run t w := by
  induction u generalizing s with
  | nil => rfl
  | cons x u ih =>
      rw [List.cons_append, run, run]
      cases a.consume s x with
      | none => rfl
      | some t => exact ih t

/-- Once a run has read a first part, the word is read if **the rest is read** from
where the run is. -/
theorem reads_append (h : a.run s u = some t) : a.Reads s (u ++ w) ↔ a.Reads t w := by
  unfold Reads
  rw [run_append, h, Option.bind_some]

/-- What a run has read stands on a path: the run has taken edges, if only the first
ones of its chains. -/
theorem exists_path_of_run (h : a.run s u = some t) (p : a.Path goal t w) :
    a.Path goal s (u ++ w) := by
  induction u generalizing s with
  | nil =>
      rw [run, Option.some.injEq] at h
      rwa [h]
  | cons x u ih =>
      rw [run] at h
      cases hc : a.consume s x with
      | none => simp [hc] at h
      | some q =>
          rw [hc] at h
          obtain ⟨r, hr, hq⟩ := exists_of_consume hc
          exact Path.of_passes hr ((ih h).token hq)

/-- A word that is read stands on a path to `fin`. -/
theorem Reads.path (h : a.Reads s w) : a.Path .fin s w := by
  obtain ⟨t, ht, hfin⟩ := h
  have hpath := exists_path_of_run ht (path_of_passes ((a.isFinished_iff t).mp hfin))
  rwa [List.append_nil] at hpath

/-- Every word that is accepted **is spelled**. The converse is what
precedence may cost. -/
theorem spelled_of_accepts (h : a.accepts w = true) : w ∈ a.spelled := (accepts_iff.mp h).path

/-- The content may be empty exactly when `start` has its epsilon edge. -/
theorem WellFormed.passes_start_fin (h : a.WellFormed) :
    a.Passes .start .fin ↔ (a.epsilon .start).isSome = true := by
  rw [Option.isSome_iff_exists]
  constructor
  · intro hp
    rcases h.eq_of_passes_start hp with heq | ⟨-, heps⟩
    · exact absurd heq (by simp)
    · exact ⟨.fin, heps⟩
  · rintro ⟨t, ht⟩
    rw [h.epsilon_start t ht] at ht
    exact (a.passes_refl .fin).head ht

/-- The empty word is accepted exactly if `start` has its epsilon edge. -/
theorem WellFormed.accepts_nil (h : a.WellFormed) :
    a.accepts [] = true ↔ (a.epsilon .start).isSome = true := by
  rw [accepts_iff, reads_nil, h.passes_start_fin]

/-- At `start` a token is taken by an edge of `start` or not at all. Its chain is no
longer than one edge, and that one enters `fin`. -/
theorem WellFormed.consume_start (h : a.WellFormed) (x : Token) :
    a.consume .start x = a.target .start (.token x) := by
  apply Option.ext
  intro t
  constructor
  · intro hc
    obtain ⟨r, hr, hrt⟩ := exists_of_consume hc
    rcases h.eq_of_passes_start hr with rfl | ⟨rfl, -⟩
    · exact hrt
    · exact absurd rfl (h.ne_fin hrt)
  · exact fun ht => consume_eq_some_iff.mpr (.here ht)

/-- A word that begins with a token is accepted if the edge of `start` for the token
leads to a state that **reads the rest**. -/
theorem WellFormed.accepts_cons (h : a.WellFormed) :
    a.accepts (x :: w) = true ↔ ∃ t, a.target .start (.token x) = some t ∧ a.Reads t w := by
  rw [accepts_iff, reads_cons, h.consume_start]

/-- It is spelled in the very same case, so **nothing is lost to precedence** here. -/
theorem WellFormed.nil_mem_spelled (h : a.WellFormed) :
    [] ∈ a.spelled ↔ (a.epsilon .start).isSome = true := by
  rw [← h.passes_start_fin]
  constructor
  · intro hp
    rcases Path.cases_chain hp with ⟨-, hp⟩ | ⟨r, x, t, w', hw, -⟩
    · exact hp
    · exact absurd hw (by simp)
  · exact path_of_passes

/-! ## What precedence costs -/

/-- Where no edge is shadowed, what is spelled from a state is read from it. Then it
does not matter that the first edge of the chain is the one that counts. -/
theorem Coherent.reads (h : a.Coherent) (p : a.Path .fin s w) : a.Reads s w := by
  induction w generalizing s with
  | nil =>
      rcases p.cases_chain with ⟨-, hp⟩ | ⟨r, x, t, w', hw, -⟩
      · exact reads_nil.mpr hp
      · exact absurd hw (by simp)
  | cons x w ih =>
      rcases p.cases_chain with ⟨hw, -⟩ | ⟨r, y, t, w', hw, hr, ht, hrest⟩
      · exact absurd hw (by simp)
      · obtain ⟨rfl, rfl⟩ := List.cons.inj hw
        -- the token is taken by some edge of the chain, and all of them enter one state
        obtain ⟨t', ht'⟩ := exists_consume hr ht
        obtain ⟨r', hr', hedge⟩ := exists_of_consume ht'
        rw [h s r r' x t t' hr hr' ht hedge] at hrest
        exact reads_cons.mpr ⟨t', ht', ih hrest⟩

/-- A table without shadowed edges **accepts all that it spells**. This is how exactness
is proved: by languages for the words, and by coherence for the edges. -/
theorem Coherent.accepts_iff (h : a.Coherent) : a.accepts w = true ↔ w ∈ a.spelled :=
  ⟨spelled_of_accepts, fun hw => Automaton.accepts_iff.mpr (h.reads hw)⟩

/-- A copy has no shadowed edges if the original has none. Each chain of it is the image
of a chain, and two edges for one token are the images of two. -/
theorem Renames.coherent {f : State → State} {p : State → Prop} (h : Renames f p a b)
    (hsource : ∀ s l t, b.target s l = some t → ∃ s₀, p s₀ ∧ f s₀ = s) (ha : a.Coherent) :
    b.Coherent := by
  intro s r r' x t t' hr hr' ht ht'
  have hs : ∃ s₀, p s₀ ∧ f s₀ = s := by
    rcases passes_iff.mp hr with rfl | ⟨q, hq, -⟩
    · exact hsource _ _ _ ht
    · exact hsource _ _ _ hq
  obtain ⟨s₀, hs₀, rfl⟩ := hs
  obtain ⟨r₀, rfl, hr₀⟩ := h.carries.exists_of_passes hs₀ hr
  obtain ⟨r₀', rfl, hr₀'⟩ := h.carries.exists_of_passes hs₀ hr'
  rw [h.target_eq _ _ (h.carries.mem_of_passes hs₀ hr₀)] at ht
  rw [h.target_eq _ _ (h.carries.mem_of_passes hs₀ hr₀')] at ht'
  obtain ⟨t₀, ht₀, rfl⟩ := Option.map_eq_some_iff.mp ht
  obtain ⟨t₀', ht₀', rfl⟩ := Option.map_eq_some_iff.mp ht'
  rw [ha s₀ r₀ r₀' x t₀ t₀' hr₀ hr₀' ht₀ ht₀']

theorem Coherent.copy (ha : a.Coherent) (n : Nat) : (a.copy n).automaton.Coherent := by
  refine (renames_copy a n).coherent (fun s l t h => ?_) ha
  obtain ⟨s₀, t₀, hs, -, h₀⟩ := (target_copy a n s t l).mp h
  exact ⟨s₀, source_mem_states h₀, hs⟩

theorem Coherent.apart (hb : b.Coherent) (n : Nat) (a : Automaton) :
    (Automaton.apart n a b).automaton.Coherent :=
  apart_induction (motive := fun d => d.automaton.Coherent) n a b hb (hb.copy n)

/-- If its shadowed edges are harmless, a run **reads on** whatever is spelled from the
state that it has come to: an edge of the path is the one taken, or a shadowed one. -/
theorem Harmless.reads (h : a.Harmless) (hrun : a.run .start u = some s) (p : a.Path .fin s w) :
    a.Reads s w := by
  induction w generalizing u s with
  | nil =>
      rcases p.cases_chain with ⟨-, hp⟩ | ⟨r, x, t, w', hw, -⟩
      · exact reads_nil.mpr hp
      · exact absurd hw (by simp)
  | cons x w ih =>
      rcases p.cases_chain with ⟨hw, -⟩ | ⟨r, y, t, w', hw, hr, ht, hrest⟩
      · exact absurd hw (by simp)
      · obtain ⟨rfl, rfl⟩ := List.cons.inj hw
        obtain ⟨t₀, ht₀⟩ := exists_consume hr ht
        rw [reads_cons]
        refine ⟨t₀, ht₀, ?_⟩
        -- the edge of the path is the one that is taken, or it is shadowed, and then harmless
        by_cases heq : t = t₀
        · subst heq
          have hnext : a.run .start (u ++ [x]) = some t := by
            rw [run_append, hrun, Option.bind_some, run, ht₀]
            rfl
          exact ih hnext hrest
        · have hshadow : a.Shadows s x t := by
            refine ⟨⟨r, hr, ht⟩, ?_⟩
            rw [ht₀]
            intro hcontra
            exact heq (Option.some.inj hcontra).symm
          exact h u s x t₀ t hrun ht₀ hshadow w hrest

/-- A table accepts all that it spells **exactly when its shadowed edges
are harmless**. -/
theorem accepts_iff_spelled_iff (a : Automaton) :
    (∀ w, a.accepts w = true ↔ w ∈ a.spelled) ↔ a.Harmless := by
  constructor
  · intro h u s x t₀ t hrun hc hshadow w hpath
    -- the word on a path over the shadowed edge is spelled, so it is accepted, and the run
    -- takes the other edge
    obtain ⟨⟨r, hr, ht⟩, -⟩ := hshadow
    have hspelled : u ++ x :: w ∈ a.spelled :=
      exists_path_of_run hrun (Path.of_passes hr (hpath.token ht))
    have hreads := Automaton.accepts_iff.mp ((h _).mpr hspelled)
    rw [reads_append hrun, reads_cons] at hreads
    obtain ⟨t', ht', hrest⟩ := hreads
    rwa [Option.some.inj (hc.symm.trans ht')]
  · intro h w
    refine ⟨spelled_of_accepts, fun hw => Automaton.accepts_iff.mpr ?_⟩
    exact h.reads (u := []) rfl hw

end Automaton

end TreeGrammar
