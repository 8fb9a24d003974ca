/-
What progress remembers.

Progress is offered one token after another and keeps a history, whatever becomes of the
tokens. The history is no more and no less than the word: every token of it is either in
the trace or has a violation, each in the order of the word, and the trace leads to the
cursor all by itself. So the careful way to read a word, which collects violations, and
the quick one, which stops at the first, agree on what is accepted (`history_offerAll`).

What a violation says is right as well. Where a tie-break names one of its candidates,
the tokens that are expected at a place are the tokens taken there, and a violation
lists them (`expected_exact`). Where a token is not allowed, it is rejected at every
other place of the content too (`notAllowed_everywhere`).
-/
import TreeGrammar.Content.Progress
import TreeGrammar.Proofs.Content.Interleave
import TreeGrammar.Proofs.Table

set_option autoImplicit false

namespace TreeGrammar

namespace Expression

variable {e : Expression} {p : Progress} {c : Cursor} {t x : Token} {u w : List Token}

/-! ## One token -/

/-- A token is **taken** at a place if it is accepted when it is offered there. -/
def takes (e : Expression) (p : Progress) (t : Token) : Bool := (e.offer p t).isAccepted

/-- All that offering a token can do: it is taken, the cursor goes on and the trace
grows, or it is rejected, the cursor stays and a violation is added. -/
theorem offer_cases (e : Expression) (p : Progress) (t : Token) :
    (∃ c, e.advance p.cursor t = some c ∧ e.takes p t = true ∧
      e.offer p t = .accepted
        { p with cursor := c, trace := p.trace ++ [t], offered := p.offered + 1 }) ∨
    (e.advance p.cursor t = none ∧ e.takes p t = false ∧
      e.offer p t = .rejected (e.rejection p t)
        { p with offered := p.offered + 1, errors := p.errors ++ [e.rejection p t] }) := by
  unfold takes offer
  cases e.advance p.cursor t with
  | some c => exact .inl ⟨c, rfl, rfl, rfl⟩
  | none => exact .inr ⟨rfl, rfl, rfl⟩

/-- A token is taken exactly if the cursor can advance by it. Nothing else in the
progress is looked at. -/
theorem takes_eq_isSome (e : Expression) (p : Progress) (t : Token) :
    e.takes p t = (e.advance p.cursor t).isSome := by
  rcases e.offer_cases p t with ⟨c, hc, htakes, -⟩ | ⟨hc, htakes, -⟩
  · rw [htakes, hc, Option.isSome_some]
  · rw [htakes, hc, Option.isSome_none]

/-- What is rejected is not taken, and the reason is the one that the place and the
token give. The cursor and the trace stay as they are. -/
theorem offer_eq_rejected {reason : Violation} {p' : Progress}
    (h : e.offer p t = .rejected reason p') : e.takes p t = false ∧ reason = e.rejection p t := by
  rcases e.offer_cases p t with ⟨c, -, -, hoffer⟩ | ⟨-, htakes, hoffer⟩
  · rw [hoffer] at h
    cases h
  · rw [hoffer] at h
    cases h
    exact ⟨htakes, rfl⟩

/-! ## Many tokens -/

@[simp] theorem offerAll_nil (e : Expression) (p : Progress) : e.offerAll p [] = p := rfl

theorem offerAll_cons (e : Expression) (p : Progress) (t : Token) (w : List Token) :
    e.offerAll p (t :: w) = e.offerAll (e.offer p t).progress w := rfl

/-- Offering two words one after the other is offering the longer one. What happens to a
word can be followed token by token. -/
theorem offerAll_append (e : Expression) (p : Progress) (u w : List Token) :
    e.offerAll p (u ++ w) = e.offerAll (e.offerAll p u) w := by
  simp only [offerAll, List.foldl_append]

/-- The last token is offered to the progress that the others have made. Inductions on a
word go from its end here, since a history grows there. -/
theorem offerAll_snoc (e : Expression) (p : Progress) (w : List Token) (t : Token) :
    e.offerAll p (w ++ [t]) = (e.offer (e.offerAll p w) t).progress := by
  rw [offerAll_append, offerAll_cons, offerAll_nil]

/-- A word that is read without a rejection is taken as a whole. -/
theorem offerAll_of_run (h : e.run p.cursor w = some c) :
    e.offerAll p w =
      { p with cursor := c, trace := p.trace ++ w, offered := p.offered + w.length } := by
  induction w generalizing p with
  | nil =>
      cases h
      simp
  | cons t w ih =>
      obtain ⟨next, hnext, hrest⟩ := run_cons_eq_some_iff.mp h
      rcases e.offer_cases p t with ⟨c', hc', -, hoffer⟩ | ⟨hnone, -, -⟩
      · cases hc'.symm.trans hnext
        rw [offerAll_cons, hoffer, Outcome.progress, ih hrest]
        simp [Nat.add_comm, Nat.add_left_comm]
      · rw [hnone] at hnext
        cases hnext

/-! ## The history of a word -/

/-- The tokens of a word, each with its index, that get the given **answer** where they
stand: taken or not. -/
def answered (e : Expression) (answer : Bool) (w : List Token) : List (Token × Nat) :=
  w.zipIdx.filter fun x => e.takes (e.offerAll e.begin (w.take x.2)) x.1 == answer

/-- The tokens of a word that are taken where they stand. -/
abbrev taken (e : Expression) (w : List Token) : List (Token × Nat) := e.answered true w

/-- The tokens of a word that are rejected where they stand. -/
abbrev refused (e : Expression) (w : List Token) : List (Token × Nat) := e.answered false w

/-- The violation of a token of a word that is rejected where it stands. -/
def refusal (e : Expression) (w : List Token) (x : Token × Nat) : Violation :=
  e.rejection (e.offerAll e.begin (w.take x.2)) x.1

/-- The numbers of tokens in a word are below its length. -/
theorem lt_of_mem_zipIdx {x : Token × Nat} (h : x ∈ w.zipIdx) : x.2 < w.length := by
  have hx := List.snd_lt_of_mem_zipIdx h
  rwa [Nat.add_zero] at hx

/-- What comes before a token of a word does not change when the word goes on. What has
been answered once is not answered anew. -/
theorem take_snoc_of_mem_zipIdx {x : Token × Nat} (h : x ∈ w.zipIdx) (t : Token) :
    (w ++ [t]).take x.2 = w.take x.2 :=
  List.take_append_of_le_length (lt_of_mem_zipIdx h).le

theorem zipIdx_snoc (w : List Token) (t : Token) :
    (w ++ [t]).zipIdx = w.zipIdx ++ [(t, w.length)] := by
  simp [List.zipIdx_append]

/-- The tokens that get one answer, with one token more: it joins those that get
this answer, if it gets it. What was answered before stays, as **later tokens change
no answer**. -/
theorem answered_snoc (e : Expression) (answer : Bool) (w : List Token) (t : Token) :
    e.answered answer (w ++ [t]) =
      e.answered answer w ++ if e.takes (e.offerAll e.begin w) t = answer then [(t, w.length)]
        else [] := by
  unfold answered
  rw [zipIdx_snoc, List.filter_append]
  congr 1
  · exact List.filter_congr fun x hx => by rw [take_snoc_of_mem_zipIdx hx]
  · simp [List.filter_cons]

/-- What was answered is in the word, under its number. -/
theorem mem_zipIdx_of_mem_answered {answer : Bool} {x : Token × Nat} (h : x ∈ e.answered answer w) :
    x ∈ w.zipIdx :=
  List.mem_of_mem_filter h

/-- Every token of a word is taken or rejected. The two lists are what is left of one
list by a test and by its negation. -/
theorem length_taken_add_length_refused (e : Expression) (w : List Token) :
    (e.taken w).length + (e.refused w).length = w.length := by
  induction w using List.reverseRecOn with
  | nil => rfl
  | append_singleton w t ih =>
      rw [taken, refused] at ih ⊢
      rw [answered_snoc, answered_snoc]
      cases e.takes (e.offerAll e.begin w) t <;> simp <;> omega

/-- If no token of a word is rejected, all are taken. -/
theorem taken_eq_of_refused_eq_nil (h : e.refused w = []) : e.taken w = w.zipIdx := by
  rw [refused, answered, List.filter_eq_nil_iff] at h
  exact List.filter_eq_self.mpr fun x hx => by simpa using h x hx

/-- The progress is the **history** of a word: it counts the tokens of the word, its
trace has those that are taken and its errors are the violations of the others, and the
trace leads to its cursor. -/
structure History (e : Expression) (w : List Token) (p : Progress) : Prop where
  offered : p.offered = w.length
  trace : p.trace = (e.taken w).map Prod.fst
  errors : p.errors = (e.refused w).map (e.refusal w)
  replays : e.run e.initial p.trace = some p.cursor

/-- One more token, whether it is taken or not, keeps the history. By cases on the
answer: it either extends the trace or adds one violation. -/
theorem History.offer (h : e.History w (e.offerAll e.begin w)) (t : Token) :
    e.History (w ++ [t]) (e.offerAll e.begin (w ++ [t])) := by
  obtain ⟨hoffered, htrace, herrors, hreplays⟩ := h
  have hearlier : (e.refused w).map (e.refusal (w ++ [t])) = (e.refused w).map (e.refusal w) := by
    refine List.map_congr_left fun x hx => ?_
    rw [refusal, refusal, take_snoc_of_mem_zipIdx (mem_zipIdx_of_mem_answered hx)]
  rw [offerAll_snoc]
  generalize hp : e.offerAll e.begin w = p at hoffered htrace herrors hreplays ⊢
  rcases e.offer_cases p t with ⟨c, hc, htakes, hoffer⟩ | ⟨hc, htakes, hoffer⟩
  · -- the token joins the trace, and the cursor goes on from where the trace has led
    rw [hoffer, Outcome.progress]
    refine ⟨?_, ?_, ?_, ?_⟩
    · simp [hoffered]
    · simp [answered_snoc, hp, htakes, htrace]
    · simp [answered_snoc, hp, htakes, hearlier, herrors]
    · rw [run_append, hreplays, Option.bind_some, run, hc]
      rfl
  · rw [hoffer, Outcome.progress]
    refine ⟨?_, ?_, ?_, hreplays⟩
    · simp [hoffered]
    · simp [answered_snoc, hp, htakes, htrace]
    · simp [answered_snoc, hp, htakes, hearlier, herrors, refusal]

/-- Whatever word is offered from the beginning, the progress is its history. The
induction is on the word **from its end**, where the next token comes in. -/
theorem history_offerAll (e : Expression) (w : List Token) :
    e.History w (e.offerAll e.begin w) := by
  induction w using List.reverseRecOn with
  | nil => exact ⟨rfl, rfl, rfl, rfl⟩
  | append_singleton w t ih => exact ih.offer t

namespace History

/-- Each token of the word has been recorded or has been refused, so their numbers
add up. -/
theorem length_eq (h : e.History w p) : w.length = p.trace.length + p.errors.length := by
  rw [h.trace, h.errors, List.length_map, List.length_map, length_taken_add_length_refused]

/-- Nothing was refused exactly if there are no violations. There is one violation for
each token that was refused. -/
theorem refused_eq_nil_iff (h : e.History w p) : e.refused w = [] ↔ p.errors = [] := by
  rw [h.errors, List.map_eq_nil_iff]

/-- Without a rejection, the trace is the word. -/
theorem trace_eq (h : e.History w p) (herrors : p.errors = []) : p.trace = w := by
  rw [h.trace, taken_eq_of_refused_eq_nil (h.refused_eq_nil_iff.mpr herrors), List.zipIdx_map_fst]

/-- The trace offered **alone** leads to the same cursor, and nothing of it is rejected.
Rejected tokens leave no mark on the cursor. -/
theorem offerAll_trace (h : e.History w p) :
    e.offerAll e.begin p.trace =
      { cursor := p.cursor, trace := p.trace, offered := p.trace.length } := by
  rw [offerAll_of_run (c := p.cursor) h.replays]
  simp [begin]

end History

theorem refusal_token (e : Expression) (w : List Token) (x : Token × Nat) :
    (e.refusal w x).token = some x.1 := rfl

theorem refusal_index {x : Token × Nat} (h : x ∈ w.zipIdx) : (e.refusal w x).index = some x.2 := by
  have hbefore := (e.history_offerAll (w.take x.2)).offered
  rw [List.length_take, Nat.min_eq_left (lt_of_mem_zipIdx h).le] at hbefore
  exact congrArg some hbefore

/-- The violations of a word: one for each token that is rejected, and **one more if it
ends too early**. -/
theorem validate_eq (e : Expression) (w : List Token) :
    e.validate w = (e.refused w).map (e.refusal w) ++
      (if e.isFinished (e.offerAll e.begin w) then []
       else [{ Violation.incompleteContent w.length with
         expected := e.expected (e.offerAll e.begin w) }]) := by
  have hw := e.history_offerAll w
  rw [validate, hw.errors, finish, hw.offered]
  split <;> rfl

/-- A word has no violation **exactly if** it is accepted. A violation is a rejected
token or a missing end, and acceptance excludes both. -/
theorem validate_eq_nil_iff : e.validate w = [] ↔ e.accepts w = true := by
  have hw := e.history_offerAll w
  rw [accepts_iff]
  constructor
  · intro hvalid
    rw [validate_eq, List.append_eq_nil_iff, List.map_eq_nil_iff, hw.refused_eq_nil_iff] at hvalid
    obtain ⟨herrors, hending⟩ := hvalid
    refine ⟨_, hw.trace_eq herrors ▸ hw.replays, ?_⟩
    by_contra hunfinished
    rw [isFinished, if_neg hunfinished] at hending
    cases hending
  · rintro ⟨c, hrun, hfinished⟩
    rw [validate, offerAll_of_run (p := e.begin) hrun]
    simp [begin, finish, isFinished, hfinished]

/-- **The history of a word.** Every token that is offered is counted, and is in the
trace or has a violation: the trace is what is taken of the word, and the violations
name what is rejected and its index, both in the order of the word. The trace offered
alone is taken as a whole and leads to the same cursor. The violations of the whole word
are those of the rejected tokens and, if it may not end there, one more; there is none
exactly if the word is accepted. -/
theorem history_of_word (e : Expression) (w : List Token) :
    let p := e.offerAll e.begin w
    (p.offered = w.length ∧ w.length = p.trace.length + p.errors.length) ∧
    p.trace = (e.taken w).map Prod.fst ∧
    p.errors.map (fun v => (v.token, v.index)) = (e.refused w).map (fun x => (some x.1, some x.2)) ∧
    (e.refused p.trace = [] ∧ (e.offerAll e.begin p.trace).cursor = p.cursor) ∧
    (e.validate w = [] ↔ e.accepts w = true) ∧
    e.validate w = (e.refused w).map (e.refusal w) ++
      (if e.isFinished p then []
       else [{ Violation.incompleteContent w.length with expected := e.expected p }]) := by
  intro p
  have hp : e.History w p := e.history_offerAll w
  refine ⟨⟨hp.offered, hp.length_eq⟩, hp.trace, ?_, ⟨?_, ?_⟩, validate_eq_nil_iff, validate_eq e w⟩
  · rw [hp.errors, List.map_map]
    refine List.map_congr_left fun x hx => ?_
    rw [Function.comp_apply, refusal_token, refusal_index (mem_zipIdx_of_mem_answered hx)]
  · rw [(e.history_offerAll p.trace).refused_eq_nil_iff, hp.offerAll_trace]
  · rw [hp.offerAll_trace]

end Expression

/-! ## What is expected -/

/-- The tie-break **names one of its candidates**, where there are any. -/
def TieBreak.Decides (tieBreak : TieBreak) : Prop :=
  ∀ x candidates, candidates ≠ [] → ∃ candidate ∈ candidates, tieBreak x candidates =
    some candidate.index

/-- The leftmost of some candidates is one of them. -/
theorem TieBreak.decides_firstMatch : TieBreak.firstMatch.Decides := by
  intro x candidates hne
  obtain ⟨candidate, rest, rfl⟩ := List.exists_cons_of_ne_nil hne
  exact ⟨candidate, List.mem_cons_self, rfl⟩

theorem TieBreak.decides_preferUnfinished : TieBreak.preferUnfinished.Decides := by
  intro x candidates hne
  unfold preferUnfinished
  cases hfind : candidates.find? fun c => !c.finished with
  | some candidate => exact ⟨candidate, List.mem_of_find?_eq_some hfind, rfl⟩
  | none => exact decides_firstMatch x candidates hne

/-- Some block has an offer for a token exactly if some block **takes it**. By induction
on the blocks, while their numbers are counted on. -/
theorem offers_ne_nil_iff {x : Token} (index : Nat) {as : List Automaton} {ss : List State} :
    offers x index as ss ≠ [] ↔ ∃ q ∈ as.zip ss, (q.1.consume q.2 x).isSome = true := by
  induction as generalizing index ss with
  | nil => simp [offers]
  | cons a as ih =>
      cases ss with
      | nil => simp [offers]
      | cons s ss =>
          rw [offers, List.zip_cons_cons, List.exists_mem_cons_iff, ← ih (index + 1)]
          cases a.consume s x <;> simp

namespace Expression

variable {e : Expression} {p : Progress} {c : Cursor} {t x : Token} {u w : List Token}

/-- With a tie-break that names a candidate, an interleave takes every token that **some
block** takes. What it is offered is not empty, and it must name one of the offers. -/
theorem isSome_advance_interleave {blocks : List Automaton} {tieBreak : TieBreak}
    (htie : tieBreak.Decides) (ss : List State) :
    ((interleave blocks tieBreak).advance (.interleaved ss) x).isSome = true ↔
      ∃ q ∈ blocks.zip ss, (q.1.consume q.2 x).isSome = true := by
  rw [← offers_ne_nil_iff 0, advance]
  cases hoffers : offers x 0 blocks ss with
  | nil => simp
  | cons o os =>
      obtain ⟨candidate, hcandidate, hchosen⟩ :=
        htie x ((o :: os).map Offer.candidate) (List.cons_ne_nil _ _)
      obtain ⟨o', ho', rfl⟩ := List.mem_map.mp hcandidate
      -- the candidate that is named comes from an offer, so the offer is found
      have hfound :
          ((o :: os).find? fun o => o.candidate.index == o'.candidate.index).isSome = true :=
        List.find?_isSome.mpr ⟨o', ho', by simp⟩
      obtain ⟨found, hfound⟩ := Option.isSome_iff_exists.mp hfound
      rw [List.map_cons] at hchosen
      simp [hchosen, hfound]

/-- A tie, if there is one to be broken, **is always broken**. -/
def Decides (e : Expression) : Prop := ∀ blocks tieBreak, e = interleave blocks tieBreak →
    tieBreak.Decides

/-- A tie-break that decides makes the expected tokens **exactly those that are taken**.
One that points to no block might list a token that is then rejected. -/
theorem mem_expectedAt_iff (he : e.Decides) (c : Cursor) :
    x ∈ e.expectedAt c ↔ (e.advance c x).isSome = true := by
  cases e with
  | single a =>
      cases c with
      | single s => rw [expectedAt, advance, Option.isSome_map, Automaton.mem_expected_iff]
      | interleaved ss => simp [expectedAt, advance]
  | interleave blocks tieBreak =>
      cases c with
      | single s => simp [expectedAt, advance]
      | interleaved ss =>
          rw [isSome_advance_interleave (he blocks tieBreak rfl), expectedAt, List.mem_eraseDups,
            List.mem_flatMap]
          simp only [Automaton.mem_expected_iff]

/-- No token is listed twice, though several blocks may expect it. -/
theorem nodup_expectedAt (e : Expression) (c : Cursor) : (e.expectedAt c).Nodup := by
  unfold expectedAt
  split
  · exact nodup_eraseDups _
  · exact nodup_eraseDups _
  · exact List.nodup_nil

/-- The tokens listed are **those taken** at the place, each once. -/
def Lists (e : Expression) (p : Progress) (tokens : List Token) : Prop :=
  (∀ t, t ∈ tokens ↔ e.takes p t = true) ∧ tokens.Nodup

/-- So what is expected in a progress lists what the content takes there. -/
theorem lists_expected (he : e.Decides) (p : Progress) : e.Lists p (e.expected p) := by
  refine ⟨fun t => ?_, e.nodup_expectedAt p.cursor⟩
  rw [takes_eq_isSome]
  exact mem_expectedAt_iff he p.cursor

/-- An ending that comes too early lists what is expected where it comes. At the end the
list has what may still come, as it would at a rejected token. -/
theorem finish_eq_some {v : Violation} (h : e.finish p = some v) : v.expected = e.expected p := by
  unfold finish at h
  split at h
  · cases h
  · cases h
    rfl

/-- Every violation of a word **says how many tokens came before**, and expects what is
expected after these. -/
theorem exists_index_of_mem_validate {v : Violation} (h : v ∈ e.validate w) :
    ∃ i ≤ w.length, v.index = some i ∧ v.expected = e.expected (e.offerAll e.begin (w.take i)) := by
  rw [validate_eq, List.mem_append] at h
  rcases h with h | h
  · obtain ⟨x, hx, rfl⟩ := List.mem_map.mp h
    have hword := mem_zipIdx_of_mem_answered hx
    exact ⟨x.2, (lt_of_mem_zipIdx hword).le, refusal_index hword, rfl⟩
  · refine ⟨w.length, Nat.le_refl _, ?_⟩
    rw [List.take_length]
    split at h
    · cases h
    · cases List.mem_singleton.mp h
      exact ⟨rfl, rfl⟩

/-- **What is expected is what is taken.** With either strategy for ties, the tokens
that are expected at a place are those that are taken there, each once, and so is the
list that a violation names: of a token rejected at the place, of an end that comes too
early, and of either kind among the violations of a word. -/
theorem expected_exact
    (he : ∀ blocks tieBreak, e = interleave blocks tieBreak →
      tieBreak = .firstMatch ∨ tieBreak = .preferUnfinished) :
    (∀ p, e.Lists p (e.expected p)) ∧
    (∀ p t reason p', e.offer p t = .rejected reason p' → e.Lists p reason.expected) ∧
    (∀ p v, e.finish p = some v → e.Lists p v.expected) ∧
    ∀ w, ∀ v ∈ e.validate w, ∃ i ≤ w.length, v.index = some i ∧
      e.Lists (e.offerAll e.begin (w.take i)) v.expected := by
  have hdecides : e.Decides := by
    intro blocks tieBreak heq
    rcases he blocks tieBreak heq with rfl | rfl
    · exact TieBreak.decides_firstMatch
    · exact TieBreak.decides_preferUnfinished
  refine ⟨fun p => lists_expected hdecides p, fun p t reason p' h => ?_, fun p v h => ?_,
    fun w v hv => ?_⟩
  · rw [(offer_eq_rejected h).2]
    exact lists_expected hdecides p
  · rw [finish_eq_some h]
    exact lists_expected hdecides p
  · obtain ⟨i, hi, hindex, hexpected⟩ := exists_index_of_mem_validate hv
    exact ⟨i, hi, hindex, hexpected ▸ lists_expected hdecides _⟩

end Expression

/-- A head and its paragraph, with notes anywhere about them. -/
def annotated : Expression := .interleave [headed, notes] .preferUnfinished

/-- After a note and the head, what is expected is the paragraph, or another note. -/
theorem expected_exact_annotated :
    let e := annotated
    let p := e.offerAll e.begin [.element "note", .element "head"]
    (∀ blocks tieBreak, e = .interleave blocks tieBreak →
        tieBreak = .firstMatch ∨ tieBreak = .preferUnfinished) ∧
      e.expected p = [.element "par", .element "note"] ∧
      e.Lists p [.element "par", .element "note"] := by
  intro e p
  have he : ∀ blocks tieBreak, e = .interleave blocks tieBreak →
      tieBreak = .firstMatch ∨ tieBreak = .preferUnfinished := by
    intro blocks tieBreak heq
    exact .inr (Expression.interleave.inj heq).2.symm
  have hexpected : e.expected p = [.element "par", .element "note"] := by decide +kernel
  exact ⟨he, hexpected, hexpected ▸ (Expression.expected_exact he).1 p⟩

/-! ## What is not allowed -/

namespace Expression

variable {e : Expression} {p : Progress} {t : Token} {u w : List Token}

/-- Wherever a token of a word is tried, the cursor is inside the content. It is the
cursor of a run over the tokens that were taken. -/
theorem inside_offerAll (e : Expression) (w : List Token) :
    e.Inside (e.offerAll e.begin w).cursor :=
  (e.inside_initial.run (e.history_offerAll w).replays).1

/-- Inside a content only allowed tokens are taken. -/
theorem isAllowed_of_takes (h : e.Inside p.cursor) (ht : e.takes p t = true) :
    e.isAllowed t = true := by
  rw [takes_eq_isSome] at ht
  obtain ⟨c, hc⟩ := Option.isSome_iff_exists.mp ht
  exact (h.advance hc).2

/-- The violation of a rejected token is that it is **not allowed** only if it occurs
nowhere in the content. -/
theorem rejection_kind_eq_notAllowed_iff : (e.rejection p t).kind = .notAllowed ↔
    e.isAllowed t = false := by
  change (if e.isAllowed t then ViolationKind.misplaced else .notAllowed) = .notAllowed ↔ _
  cases e.isAllowed t <;> simp

/-- **Not allowed is not allowed anywhere.** A token that is taken at any place occurs
in the content. So a token that is said not to be allowed at one place is rejected at
every other, and an accepted word has allowed tokens only. -/
theorem notAllowed_everywhere (e : Expression) :
    (∀ w t, e.takes (e.offerAll e.begin w) t = true → e.isAllowed t = true) ∧
    (∀ u t reason p, e.offer (e.offerAll e.begin u) t = .rejected reason p →
      reason.kind = .notAllowed → ∀ w, e.takes (e.offerAll e.begin w) t = false) ∧
    ∀ w, e.accepts w = true → ∀ t ∈ w, e.isAllowed t = true := by
  refine ⟨fun w t ht => isAllowed_of_takes (e.inside_offerAll w) ht,
    fun u t reason p h hkind w => ?_, fun w h => isAllowed_of_accepts h⟩
  rw [(offer_eq_rejected h).2, rejection_kind_eq_notAllowed_iff] at hkind
  by_contra htakes
  rw [isAllowed_of_takes (e.inside_offerAll w) (Bool.of_not_eq_false htakes)] at hkind
  cases hkind

end Expression

/-- Text is not allowed before the head, and is not taken after it either. -/
theorem notAllowed_everywhere_annotated :
    let e := annotated
    (e.rejection e.begin .text).kind = .notAllowed ∧
      e.takes (e.offerAll e.begin [.element "head"]) .text = false := by
  intro e
  have hkind : (e.rejection e.begin .text).kind = .notAllowed := by
    rw [Expression.rejection_kind_eq_notAllowed_iff, ← Bool.not_eq_true, Expression.isAllowed_iff]
    simp [e, annotated, Expression.automata, reachableTokens_headed, reachableTokens_notes]
  rcases e.offer_cases e.begin .text with ⟨c, hc, -, -⟩ | ⟨-, -, hoffer⟩
  · have hrejected : e.advance e.initial .text = none := by decide +kernel
    rw [Expression.begin, hrejected] at hc
    cases hc
  · exact ⟨hkind, (Expression.notAllowed_everywhere e).2.1 [] .text _ _ hoffer hkind _⟩

end TreeGrammar
