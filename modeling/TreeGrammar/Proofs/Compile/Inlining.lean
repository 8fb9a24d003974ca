/-
References that are written out.

A definition is compiled on the first use of a reference to it, and its table is copied
for every later one. None of that shows in the result: a term in which each reference is
replaced by the term of its definition, and so on inside it, compiles in a new session
to the same table, edges in the same order, but for the names of states (`Inlines`). A
lone reference compiles to what the definition does, wherever following it ends
(`references_written_out`).
-/
import TreeGrammar.Proofs.Compile.References
import TreeGrammar.Proofs.Compile.Unfailed

set_option autoImplicit false

namespace TreeGrammar

open Automaton Compiling

/-- A definition is compiled as the one term that its normal form **reads as**.
Definitions are functions of their names, so no second reading is possible. -/
theorem Rulebook.Defines.eq_of_reads {book : Rulebook} {name : String} {t u : Term}
    {body normal : Pattern} (h : book.Defines name t)
    (hdef : book.definitions.get? name = some body) (hnormal : body.normalize = .ok normal)
    (hterm : Term.ofPattern? normal = some u) : u = t := by
  obtain ⟨body', hdef', hcontent⟩ := h
  rw [hdef, Option.some.injEq] at hdef'
  subst hdef'
  obtain ⟨normal', hnormal', hterm'⟩ := Content.ofPattern_eq_term hcontent
  rw [hnormal, Except.ok.injEq] at hnormal'
  subst hnormal'
  rw [hterm, Option.some.injEq] at hterm'
  exact hterm'

/-! ## Lists of the same length -/

section Zip

variable {α β : Type} {R : α → β → Prop} {xs : List α} {ys : List β} {x : α} {y : β}

/-- Where each item of a list is related to something, a list can be picked of things
that they are related to, one by one. -/
theorem exists_zip (h : ∀ x ∈ xs, ∃ y, R x y) :
    ∃ ys, xs.length = ys.length ∧ ∀ p ∈ xs.zip ys, R p.1 p.2 := by
  induction xs with
  | nil => exact ⟨[], rfl, fun p hp => absurd hp List.not_mem_nil⟩
  | cons x xs ih =>
      rw [List.forall_mem_cons] at h
      obtain ⟨y, hy⟩ := h.1
      obtain ⟨ys, hlen, hys⟩ := ih h.2
      exact ⟨y :: ys, congrArg Nat.succ hlen, List.forall_mem_cons.mpr ⟨hy, hys⟩⟩

/-- Each item of the second of two lists of the same length stands beside one of
the first. -/
theorem exists_mem_zip_of_mem (hlen : xs.length = ys.length) (hy : y ∈ ys) :
    ∃ x ∈ xs, (x, y) ∈ xs.zip ys := by
  obtain ⟨i, hi, rfl⟩ := List.getElem_of_mem hy
  have hi' : i < xs.length := hlen ▸ hi
  refine ⟨xs[i], List.getElem_mem hi', List.mem_iff_getElem.mpr ⟨i, ?_, List.getElem_zip⟩⟩
  rw [List.length_zip]
  omega

/-- What goes with a list that has a last item **has a last item**. Sequences are
compiled with the last block put to the group of those before, and this takes two
related lists apart in the same way. -/
theorem exists_snoc_of_zip (hlen : (xs ++ [x]).length = ys.length)
    (h : ∀ p ∈ (xs ++ [x]).zip ys, R p.1 p.2) : ∃ zs y, ys = zs ++ [y] ∧ xs.length = zs.length ∧
    (∀ p ∈ xs.zip zs, R p.1 p.2) ∧ R x y := by
  rcases List.eq_nil_or_concat' ys with rfl | ⟨zs, y, rfl⟩
  · simp at hlen
  · have hlen' : xs.length = zs.length := by simpa using hlen
    rw [List.zip_append hlen', List.forall_mem_append] at h
    exact ⟨zs, y, rfl, hlen', h.1, h.2 (x, y) (List.mem_singleton_self _)⟩

end Zip

/-! ## Terms with references written out -/

namespace Term

/-- The second term is the first with every reference **replaced by the term of its
definition**, and the references in that likewise. -/
inductive Inlines (book : Rulebook) : Term → Term → Prop
  | token (x : Token) : Inlines book (.token x) (.token x)
  | sequence {ts us : List Term} (hlen : ts.length = us.length)
      (h : ∀ p ∈ ts.zip us, Inlines book p.1 p.2) : Inlines book (.sequence ts) (.sequence us)
  | choice {ts us : List Term} (hlen : ts.length = us.length)
      (h : ∀ p ∈ ts.zip us, Inlines book p.1 p.2) : Inlines book (.choice ts) (.choice us)
  | optional {t u : Term} (h : Inlines book t u) : Inlines book (.optional t) (.optional u)
  | kleene {t u : Term} (h : Inlines book t u) : Inlines book (.kleene t) (.kleene u)
  | plus {t u : Term} (h : Inlines book t u) : Inlines book (.plus t) (.plus u)
  | ref {name : String} {t u : Term} (hdef : book.Defines name t) (h : Inlines book t u) :
      Inlines book (.ref name) u

/-! ### What is kept -/

variable {book : Rulebook} {k : Nat} {t u : Term} {r : Regex}

/-- A term from which following references comes to an end **can be written out**. By
induction on how it is grounded: a reference is written out as what its definition is
written out as. -/
theorem Grounded.exists_inlines (h : t.Grounded book k) : ∃ u, t.Inlines book u := by
  induction h with
  | token x => exact ⟨_, .token x⟩
  | sequence _ ih =>
      obtain ⟨us, hlen, hus⟩ := exists_zip ih
      exact ⟨_, .sequence hlen hus⟩
  | choice _ _ ih =>
      obtain ⟨us, hlen, hus⟩ := exists_zip ih
      exact ⟨_, .choice hlen hus⟩
  | optional _ ih =>
      obtain ⟨u, hu⟩ := ih
      exact ⟨_, .optional hu⟩
  | kleene _ ih =>
      obtain ⟨u, hu⟩ := ih
      exact ⟨_, .kleene hu⟩
  | plus _ ih =>
      obtain ⟨u, hu⟩ := ih
      exact ⟨_, .plus hu⟩
  | ref hdef hcontent _ ih =>
      obtain ⟨u, hu⟩ := ih
      exact ⟨u, .ref ⟨_, hdef, hcontent⟩ hu⟩

namespace Inlines

/-- **No reference is left.** What has been written out can be compiled without
any definitions. -/
theorem names_eq_nil (h : t.Inlines book u) : u.names = [] := by
  have hall {us ts : List Term} (hlen : ts.length = us.length)
      (ih : ∀ p ∈ ts.zip us, p.2.names = []) : namesAll us = [] := by
    rw [List.eq_nil_iff_forall_not_mem]
    intro name hname
    obtain ⟨u, hu, hname⟩ := mem_namesAll_iff.mp hname
    obtain ⟨t, -, hmem⟩ := exists_mem_zip_of_mem hlen hu
    rw [ih _ hmem] at hname
    exact absurd hname List.not_mem_nil
  induction h with
  | token x => rfl
  | sequence hlen _ ih | choice hlen _ ih => exact hall hlen ih
  | optional _ ih | kleene _ ih | plus _ ih | ref _ _ ih => exact ih

/-- With its references written out a grounded term needs **no definition any more**: it
is grounded at height zero. -/
theorem grounded (h : t.Inlines book u) (ht : t.Grounded book k) : u.Grounded book 0 := by
  induction h generalizing k with
  | token x => exact .token x
  | @sequence ts us hlen _ ih =>
      cases ht with
      | sequence hts =>
          refine .sequence fun u hu => ?_
          obtain ⟨t, ht, hmem⟩ := exists_mem_zip_of_mem hlen hu
          exact ih _ hmem (hts t ht)
  | @choice ts us hlen _ ih =>
      cases ht with
      | choice hne hts =>
          refine .choice ?_ fun u hu => ?_
          · rintro rfl
            exact hne (List.length_eq_zero_iff.mp hlen)
          · obtain ⟨t, ht, hmem⟩ := exists_mem_zip_of_mem hlen hu
            exact ih _ hmem (hts t ht)
  | optional _ ih =>
      cases ht with
      | optional ht => exact .optional (ih ht)
  | kleene _ ih =>
      cases ht with
      | kleene ht => exact .kleene (ih ht)
  | plus _ ih =>
      cases ht with
      | plus ht => exact .plus (ih ht)
  -- the reference is gone in what is written out, and with it one from the height
  | ref hdef _ ih =>
      cases ht with
      | ref hdef' hcontent ht =>
          obtain rfl := hdef.unique ⟨_, hdef', hcontent⟩
          exact ih ht

/-- Writing references out **keeps the expansion**. The induction is on that: a group
expands from the left. -/
theorem expands (h : t.Inlines book u) (ht : t.Expands book.definitions r) :
    u.Expands book.definitions r := by
  induction ht generalizing u with
  | token x =>
      cases h with
      | token => exact .token x
  | sequenceNil =>
      cases h with
      | sequence hlen _ =>
          obtain rfl := List.length_eq_zero_iff.mp hlen.symm
          exact .sequenceNil
  | sequenceOne _ ih =>
      cases h with
      | sequence hlen h =>
          obtain ⟨u, rfl⟩ := List.length_eq_one_iff.mp hlen.symm
          exact .sequenceOne (ih (h _ (List.mem_singleton_self _)))
  -- what is written out has its blocks in the same places, so the last of one goes with the
  -- last of the other
  | sequenceSnoc hne _ _ ihts iht =>
      cases h with
      | sequence hlen h =>
          obtain ⟨us, u, rfl, hlen', hus, hu⟩ := exists_snoc_of_zip hlen h
          refine .sequenceSnoc ?_ (ihts (.sequence hlen' hus)) (iht hu)
          rintro rfl
          exact hne (List.length_eq_zero_iff.mp hlen')
  | choiceOne _ ih =>
      cases h with
      | choice hlen h =>
          obtain ⟨u, rfl⟩ := List.length_eq_one_iff.mp hlen.symm
          exact .choiceOne (ih (h _ (List.mem_singleton_self _)))
  | choiceSnoc hne _ _ ihts iht =>
      cases h with
      | choice hlen h =>
          obtain ⟨us, u, rfl, hlen', hus, hu⟩ := exists_snoc_of_zip hlen h
          refine .choiceSnoc ?_ (ihts (.choice hlen' hus)) (iht hu)
          rintro rfl
          exact hne (List.length_eq_zero_iff.mp hlen')
  | optional _ ih =>
      cases h with
      | optional h => exact .optional (ih h)
  | kleene _ ih =>
      cases h with
      | kleene h => exact .kleene (ih h)
  | plus _ ih =>
      cases h with
      | plus h => exact .plus (ih h)
  | ref hdef hnormal hterm _ ih =>
      cases h with
      | ref hdef' h =>
          obtain rfl := hdef'.eq_of_reads hdef hnormal hterm
          exact ih h

end Inlines

/-- A reference expands **as its definition**. Since the definition is one only, both
directions of inlining can use the same expansion. -/
theorem expands_of_ref {name : String} (hdef : book.Defines name t)
    (h : (Term.ref name).Expands book.definitions r) : t.Expands book.definitions r := by
  cases h with
  | ref hbody hnormal hterm h =>
      obtain rfl := hdef.eq_of_reads hbody hnormal hterm
      exact h

end Term

/-! ## Runs for the terms -/

namespace Compiling

variable {book : Rulebook} {s s' : Session} {t u : Term} {a : Automaton} {c : Compiled}
  {p : Pattern} {name : String} {k : Nat}

/-- A term that has the expansion of another compiles, in a new session, to **a
recoding** of what the other does. -/
theorem exists_recodes_of_expands (hs : s.Ready book) (h : (term (resolve book []) t).Yields s a s')
    (hu : u.Grounded book k)
    (hexpands : ∀ r, t.Expands book.definitions r → u.Expands book.definitions r) :
    ∃ b s'', (term (resolve book []) u).Yields {} b s'' ∧ a.Recodes b := by
  -- each table is made for the expansion of its term, and there is one expansion for both
  obtain ⟨r, cs, hdelivers⟩ := delivers_term (delivers_resolve book []) t s a s' hs.sound h
  obtain ⟨b, s'', hb⟩ := exists_yields_term (fun name hname s =>
    exists_yields_resolve hname (fun other hother => absurd hother List.not_mem_nil) s) hu {}
  obtain ⟨q, ds, hdelivers'⟩ := delivers_term (delivers_resolve book []) u {} b s'' (sound_new _) hb
  obtain rfl := (hexpands r hdelivers.expands).unique hdelivers'.expands
  exact ⟨b, s'', hb, hdelivers.made.recodes hdelivers'.made⟩

/-- A recoding has **the same edges in the same order**, with their states renamed. This
turns the relation between tables into a statement about what they list. -/
theorem exists_edges_of_recodes {b : Automaton} (h : a.Recodes b) :
    ∃ f : Equiv.Perm State, Recoding f ∧ b = a.rename f ∧
      b.edges = a.edges.map (Edge.recode f) := by
  obtain ⟨htidy, f, hf, rfl⟩ := h
  exact ⟨f, hf, rfl, edges_rename htidy f.injective⟩

/-! ## Lone references -/

/-- Compiling a pattern is reading its whole content and compiling that. The normal form
and the whole are named so that two patterns with the same whole can be compared. -/
theorem pattern_of_normal {normal whole : Pattern} (hnormal : p.normalize = .ok normal)
    (hwhole : wholeContent book [] normal = pure whole) :
    pattern book p = ofExcept (Content.ofPattern book.limits whole) >>= content book := by
  rw [pattern, hnormal, orFailHere, pure_bind, hwhole, pure_bind]

/-- A lone reference is followed to the normal form **of its definition**. Names that
have been followed are remembered, as a circle of lone references would have no end. -/
theorem wholeContent_step {followed : List String} {body : Pattern} (hname : name ∉ followed)
    (hdef : book.definitions.get? name = some body) :
    wholeContent book followed (.ref name) = orFailHere body.normalize >>= fun normal =>
      match normal with
      | .ref other => wholeContent book (followed ++ [name]) (.ref other)
      | .interleave parts => pure (.interleave parts)
      | _ => pure (.ref name) := by
  rw [wholeContent, dif_neg hname]
  split
  · next hnone =>
    rw [hdef] at hnone
    cases hnone
  · next body' hbody =>
    rw [hdef, Option.some.injEq] at hbody
    subst hbody
    rfl

/-- Where following references comes to an end, **what has been followed does not
matter**, if it is not met again. -/
theorem wholeContent_of_resolvesTo {whole : Pattern} {followed : List String}
    (h : book.ResolvesTo name whole) (hname : book.Founded name)
    (hfollowed : ∀ q ∈ followed, ¬ Relation.ReflTransGen book.Refers name q) :
    wholeContent book followed (.ref name) = pure whole := by
  induction h generalizing followed with
  | interleave hdef h =>
      rw [wholeContent_step (fun hmem => hfollowed _ hmem .refl) hdef, h, orFailHere, pure_bind]
  | regular hdef h href hinterleave =>
      rw [wholeContent_step (fun hmem => hfollowed _ hmem .refl) hdef, h, orFailHere, pure_bind]
      split
      · next other => exact absurd rfl (href other)
      · next parts => exact absurd rfl (hinterleave parts)
      · rfl
  | @next name other body whole hdef hnext _ ih =>
      have hrefers : book.Refers name other := ⟨body, hdef, Pattern.mentions_of_normalize_ref hnext⟩
      rw [wholeContent_step (fun hmem => hfollowed _ hmem .refl) hdef, hnext, orFailHere, pure_bind]
      refine ih (hname.of_refers hrefers) fun q hq hreach => ?_
      rcases List.mem_append.mp hq with hq | hq
      · exact hfollowed q hq (.head hrefers hreach)
      · -- the name would be reached from itself
        rw [List.mem_singleton.mp hq] at hreach
        exact hname.acyclic (Relation.TransGen.head' hrefers hreach)

/-- A lone reference that compiles is compiled as a reference to regular content, or
**in the same steps** as the definition is. -/
theorem pattern_ref_cases (h : (pattern book (.ref name)).Yields s c s') (hs : s.Ready book) :
    ∃ body, book.definitions.get? name = some body ∧ (pattern book body = pattern book (.ref name) ∨
      ∃ normal, body.normalize = .ok normal ∧ (∀ other, normal ≠ .ref other) ∧
        (content book (.term (.ref name))).Yields s c s') := by
  have hfounded : book.Founded name :=
    founded_of_pattern hs h ⟨name, Pattern.mentions_ref.mpr rfl, .refl⟩
  rcases wholeContent_ref book [] name with ⟨whole, hresolves, hwhole⟩ | ⟨cause, -, hfails⟩
  · have href := pattern_of_normal (p := .ref name) rfl hwhole
    cases hresolves with
    | interleave hdef hbody =>
        -- both are compiled as the interleave
        refine ⟨_, hdef, .inl ?_⟩
        rw [href, pattern_of_normal hbody (wholeContent_of_ne nofun)]
    | @regular _ _ normal hdef hbody hne _ =>
        refine ⟨_, hdef, .inr ⟨normal, hbody, hne, ?_⟩⟩
        rw [href, Content.ofPattern_ref, ofExcept, pure_bind] at h
        exact h
    | @next _ other _ _ hdef hnext hresolves =>
        -- both are followed to the same end, and the definition from one name further on
        have hrefers : book.Refers name other := ⟨_, hdef, Pattern.mentions_of_normalize_ref hnext⟩
        refine ⟨_, hdef, .inl ?_⟩
        rw [href,
          pattern_of_normal hnext
            (wholeContent_of_resolvesTo hresolves (hfounded.of_refers hrefers)
              fun q hq => absurd hq List.not_mem_nil)]
  · rw [pattern, Pattern.normalize, orFailHere, pure_bind, hfails] at h
    obtain ⟨_, _, hcontra, -⟩ := yields_bind.mp h
    exact absurd hcontra not_yields_failHere

/-- A definition of regular content compiles to **a recoding** of the table that a
reference to it compiles to. -/
theorem exists_yields_of_regular {body normal : Pattern}
    (hdef : book.definitions.get? name = some body) (hnormal : body.normalize = .ok normal)
    (hne : ∀ other, normal ≠ .ref other) (h : (boundedTerm book (.ref name)).Yields {} a s') :
    ∃ b s'', (pattern book body).Yields {} (.single b) s'' ∧ a.Recodes b := by
  obtain ⟨href, hcheck⟩ := yields_boundedTerm.mp h
  obtain ⟨k, hk⟩ := grounded_of_boundedTerm (Session.ready_new book) h
  cases hk with
  | @ref k _ body' t hdef' hcontent ht =>
      rw [hdef, Option.some.injEq] at hdef'
      subst hdef'
      obtain ⟨b, s'', hb, hrecodes⟩ :=
        exists_recodes_of_expands (Session.ready_new book) href ht fun r =>
        Term.expands_of_ref ⟨body, hdef, hcontent⟩
      rw [← Content.ofPattern_of_normalize hnormal] at hcontent
      -- a renaming does not change how many states there are
      have hbounded : (boundedTerm book t).Yields {} b s'' :=
        yields_boundedTerm.mpr ⟨hb, hrecodes.stateCount_eq ▸ hcheck⟩
      exact ⟨b, s'', yields_pattern_of_term hnormal hne hcontent hbounded, hrecodes⟩

end Compiling

/-! ## Renamed contents -/

namespace Compiled

variable {c : Compiled} {f : State → State}

/-- The compiled content with the states of its tables **renamed**. -/
def rename (f : State → State) : Compiled → Compiled
  | .single a => .single (a.rename f)
  | .interleave as => .interleave (as.map fun a => a.rename f)

/-- The tables of a renamed content are the renamed tables, in order. -/
@[simp]
theorem automata_rename (c : Compiled) (f : State → State) :
    (c.rename f).automata = c.automata.map fun a => a.rename f := by
  cases c <;> rfl

/-- Renaming nothing changes nothing, since all tables are tidy. It covers contents
whose tables do not differ at all. -/
theorem rename_id (h : ∀ a ∈ c.automata, a.Tidy) : c.rename id = c := by
  cases c with
  | single a =>
      exact congrArg Compiled.single (Automaton.rename_id (h a (List.mem_singleton_self a)))
  | interleave as =>
      have has : as.map (fun a => a.rename id) = as.map id :=
        List.map_congr_left fun a ha => Automaton.rename_id (h a ha)
      exact congrArg Compiled.interleave (has.trans (List.map_id as))

/-- A renamed content lists the renamed edges of each table in the same order. It is how
two compiled contents are compared edge by edge. -/
theorem edges_rename (h : ∀ a ∈ c.automata, a.Tidy) (hf : Function.Injective f) :
    (c.rename f).automata.map Automaton.edges = c.automata.map fun a => a.edges.map
      (Edge.recode f) := by
  rw [automata_rename, List.map_map]
  exact List.map_congr_left fun a ha => Automaton.edges_rename (h a ha) hf

end Compiled

/-! ## References, written out -/

namespace Compiling

/-- If a lone reference compiles, so does the definition, and to **the same** up to the
names of states. -/
theorem exists_yields_of_ref {book : Rulebook} {name : String} {c : Compiled} {s' : Session}
    (h : (pattern book (.ref name)).Yields {} c s') :
    ∃ body c' s'', book.definitions.get? name = some body ∧ (pattern book body).Yields {} c' s'' ∧
      ∃ f : Equiv.Perm State, Recoding f ∧ c' = c.rename f := by
  obtain ⟨-, -, hnumbered⟩ := numbersItsTables_pattern book _ {} c s' (Session.ready_new book) h
  obtain ⟨body, hdef, heq | ⟨normal, hnormal, hne, hc⟩⟩ :=
    pattern_ref_cases h (Session.ready_new book)
  · exact ⟨body, c, s', hdef, heq ▸ h, Equiv.refl State, .refl,
      (Compiled.rename_id hnumbered.tidy).symm⟩
  · obtain ⟨a, ha, rfl⟩ := yields_content_term.mp hc
    obtain ⟨b, s'', hb, -, f, hf, rfl⟩ := exists_yields_of_regular hdef hnormal hne ha
    exact ⟨body, _, s'', hdef, hb, f, hf, rfl⟩

/-- References **can be written out**. In a session that has been used without a
failure, a term compiles to the table that it compiles to in a new session with its
references written out: the same edges in the same order, with the states renamed. And
if a lone reference compiles in a new session, so does the definition, to the same
tables up to a renaming of their states, also where it is an interleave or a lone
reference to one. -/
theorem references_written_out (book : Rulebook) :
    (∀ s t a s', s.Unfailed book → (term (resolve book s.inProgress) t).Yields s a s' →
      (∃ u, t.Inlines book u) ∧ ∀ u, t.Inlines book u → u.names = [] ∧
        ∃ b s'', (term (resolve book []) u).Yields {} b s'' ∧
          ∃ f : Equiv.Perm State, Recoding f ∧ b = a.rename f ∧
            b.edges = a.edges.map (Edge.recode f)) ∧
    ∀ name c s', (pattern book (.ref name)).Yields {} c s' →
      ∃ body c' s'', book.definitions.get? name = some body ∧ (pattern book body).Yields {} c' s'' ∧
        ∃ f : Equiv.Perm State, Recoding f ∧ c' = c.rename f ∧
          c'.automata.map Automaton.edges =
            c.automata.map fun a => a.edges.map (Edge.recode f) := by
  constructor
  · intro s t a s' hs h
    -- the warnings may have been handed out, so the run is taken to a session that kept them
    obtain ⟨ws, hs⟩ := Session.exists_ready_of_unfailed hs
    obtain ⟨ws', h'⟩ := heedless_term (heedless_resolve book s.inProgress) t s a s' ws h
    rw [show s.inProgress = [] from hs.groundedAt.inProgress_eq] at h'
    obtain ⟨-, -, k, hk⟩ := settles_term (settles_resolve book []) t _ a _ hs.groundedAt h'
    refine ⟨hk.exists_inlines, fun u hu => ⟨hu.names_eq_nil, ?_⟩⟩
    obtain ⟨b, s'', hb, hrecodes⟩ :=
      exists_recodes_of_expands hs h' (hu.grounded hk) fun r => hu.expands
    exact ⟨b, s'', hb, exists_edges_of_recodes hrecodes⟩
  · intro name c s' h
    obtain ⟨-, -, hnumbered⟩ := numbersItsTables_pattern book _ {} c s' (Session.ready_new book) h
    obtain ⟨body, _, s'', hdef, hbody, f, hf, rfl⟩ := exists_yields_of_ref h
    exact ⟨body, _, s'', hdef, hbody, f, hf, rfl, Compiled.edges_rename hnumbered.tidy f.injective⟩

/-- A definition of one name, one of an interleave, and one that is a reference to
the interleave. -/
def notebook : Rulebook where
  definitions := .ofList [("entry", .token "entry"), ("both", .interleave [.token "a", .token "b"]),
    ("also", .ref "both")]

/-- A reference met twice makes the table of two entries, and one to a reference to the
interleave its tables. -/
theorem references_written_out_notebook :
    (∃ a b s' s'',
      (term (resolve notebook []) (.sequence [.ref "entry", .ref "entry"])).Yields {} a s' ∧
      (term (resolve notebook [])
        (.sequence [.token (.element "entry"), .token (.element "entry")])).Yields {} b s'' ∧
      ∃ f : Equiv.Perm State, Recoding f ∧ b = a.rename f) ∧
    ∃ c c' s' s'', (pattern notebook (.ref "also")).Yields {} c s' ∧
      (pattern notebook (.ref "both")).Yields {} c' s'' ∧
      ∃ f : Equiv.Perm State, Recoding f ∧ c' = c.rename f := by
  have hentry : notebook.definitions.get? "entry" = some (.token "entry") := by decide
  have hboth : notebook.definitions.get? "both" = some (.interleave [.token "a", .token "b"]) := by
    decide
  have halso : notebook.definitions.get? "also" = some (.ref "both") := by decide
  obtain ⟨hterms, hrefs⟩ := references_written_out notebook
  constructor
  · have hcontent :
        Content.ofPattern notebook.limits (.token "entry") =
          .ok (.term (.token (.element "entry"))) := rfl
    have hgrounded : (Term.sequence [.ref "entry", .ref "entry"]).Grounded notebook 1 := by
      refine .sequence fun t ht => ?_
      obtain rfl : t = .ref "entry" := by simpa using ht
      exact .ref hentry hcontent (.token _)
    obtain ⟨a, s', ha⟩ := exists_yields_term (fun name hname s =>
      exists_yields_resolve hname (fun other hother => absurd hother List.not_mem_nil)
        s) hgrounded {}
    have hinlines : (Term.sequence [.ref "entry", .ref "entry"]).Inlines notebook
        (.sequence [.token (.element "entry"), .token (.element "entry")]) := by
      refine .sequence rfl fun p hp => ?_
      obtain rfl : p = (.ref "entry", .token (.element "entry")) := by simpa using hp
      exact .ref ⟨_, hentry, hcontent⟩ (.token _)
    obtain ⟨-, hwritten⟩ := hterms {} _ a s' .new ha
    obtain ⟨-, b, s'', hb, f, hf, heq, -⟩ := hwritten _ hinlines
    exact ⟨a, b, s', s'', ha, hb, f, hf, heq⟩
  · have hwhole :
        wholeContent notebook [] (.ref "also") = pure (.interleave [.token "a", .token "b"]) := by
      rw [wholeContent_step List.not_mem_nil halso, Pattern.normalize, orFailHere, pure_bind]
      simp only
      rw [wholeContent_step (by decide) hboth]
      rfl
    obtain ⟨c, s', hc⟩ : ∃ c s', (pattern notebook (.ref "also")).Yields {} c s' := by
      rw [pattern_of_normal rfl hwhole]
      exact ⟨.interleave [.single (.element "a"), .single (.element "b")], _, rfl⟩
    obtain ⟨body, c', s'', hdef, hbody, f, hf, heq, -⟩ := hrefs "also" c s' hc
    rw [halso, Option.some.injEq] at hdef
    exact ⟨c, c', s', s'', hc, hdef ▸ hbody, f, hf, heq⟩

end Compiling

end TreeGrammar
