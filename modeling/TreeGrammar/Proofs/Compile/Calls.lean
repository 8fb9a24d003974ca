/-
Calls, and the numbers that they draw.

Compiling a term is a **call**, and calls are nested: while one term is compiled, the
compilation comes to the terms inside it and to those of the definitions that it refers
to (`ComesTo`). A call makes its table on the numbers that are drawn from its beginning
to its end, whatever is compiled inside it and whether its definitions are compiled or
copied. So of two calls, neither of which is inside the other, the tables have no number
in common: the later one begins in a session into which that at the end of the earlier
one has grown (`ComesTo.growsTo_end`).
-/
import TreeGrammar.Proofs.Compile.Growth

set_option autoImplicit false

namespace TreeGrammar

open Automaton

namespace Compiling

variable {book : Rulebook} {s s₀ s₁ s' v v' : Session} {t t₀ u : Term}
  {a b before : Automaton} {group : List Term → Term} {done rest : List Term}

/-- While the first term is compiled from the first session, the compilation **comes
to** the second term, in the second session. -/
inductive ComesTo (book : Rulebook) : Session → Term → Session → Term → Prop
  | self (s : Session) (t : Term) : ComesTo book s t s t
  | first {s s' : Session} {group : List Term → Term} {t u : Term} {rest : List Term}
      (hgroup : group = .sequence ∨ group = .choice) (h : ComesTo book s t s' u) :
      ComesTo book s (group (t :: rest)) s' u
  | next {s s₁ s' : Session} {group : List Term → Term} {done rest : List Term} {before : Automaton}
      {t u : Term} (hgroup : group = .sequence ∨ group = .choice) (hdone : done ≠ [])
      (hbefore : (term (resolve book s.inProgress) (group done)).Yields s before s₁)
      (h : ComesTo book s₁ t s' u) : ComesTo book s (group (done ++ t :: rest)) s' u
  | optional {s s' : Session} {t u : Term} (h : ComesTo book s t s' u) :
      ComesTo book s (.optional t) s' u
  | kleene {s s' : Session} {t u : Term} (h : ComesTo book s t s' u) :
      ComesTo book s (.kleene t) s' u
  | plus {s s' : Session} {t u : Term} (h : ComesTo book s t s' u) : ComesTo book s (.plus t) s' u
  | definition {s s' : Session} {name : String} {t u : Term} (hnew : s.finished.get? name = none)
      (hpath : name ∉ s.inProgress) (hdef : book.Defines name t)
      (h : ComesTo book { s with inProgress := s.inProgress ++ [name] } t s' u) :
      ComesTo book s (.ref name) s' u

/-! ## Groups, cut in two -/

/-- Both kinds of groups are compiled by a loop over their blocks, and each block put to
the others draws forward. -/
theorem exists_blockLoop (hgroup : group = .sequence ∨ group = .choice)
    (resolve : String → Compiling Automaton) : ∃ loop put, BlockLoop resolve group loop put ∧
    ∀ n a b, n ≤ (put n a b).drawn := by
  rcases hgroup with rfl | rfl
  · exact ⟨_, _, blockLoop_sequence resolve, fun n a b => Nat.le_of_lt (lt_drawn_append n a b)⟩
  · exact ⟨_, _, blockLoop_choice resolve, le_drawn_merge⟩

section

variable {resolve : String → Compiling Automaton}
  {loop : Automaton → List Term → Compiling Automaton}
  {put : Nat → Automaton → Automaton → Built}

/-- A loop over blocks can be cut anywhere: once the first blocks have been compiled,
**the rest runs from there**. -/
theorem BlockLoop.run_loop_append (hloop : BlockLoop resolve group loop put) {first : Automaton}
    (h : (loop first done).Yields s before s₁) :
    (loop first (done ++ rest)).run.run s = (loop before rest).run.run s₁ := by
  induction done generalizing first s with
  | nil =>
      obtain ⟨rfl, rfl⟩ := hloop.yields_nil.mp h
      rw [List.nil_append]
  | cons t done ih =>
      obtain ⟨b, s₂, hb, h⟩ := hloop.yields_cons.mp h
      rw [List.cons_append, hloop.cons, hb.run_bind, Yields.run_bind (yields_build.mpr ⟨rfl, rfl⟩),
        ih h]

/-- Behind the blocks that have been compiled a group goes on **with the rest of them**.
The call for the whole group passes through the call for its first blocks, with the same
session at that point. -/
theorem BlockLoop.run_append (hloop : BlockLoop resolve group loop put) (hdone : done ≠ [])
    (h : (term resolve (group done)).Yields s before s₁) :
    (term resolve (group (done ++ rest))).run.run s = (loop before rest).run.run s₁ := by
  obtain ⟨t, done, rfl⟩ := List.exists_cons_of_ne_nil hdone
  obtain ⟨first, s₂, hfirst, h⟩ := hloop.yields_first.mp h
  rw [List.cons_append, hloop.first, hfirst.run_bind, hloop.run_loop_append h]

end

/-! ## When a call begins and ends -/

/-- A session grows by a call. Whether a session is one that calls have led to is
thereby kept. -/
theorem Yields.growsTo {path : List String} (h : (term (resolve book path) t).Yields s a s')
    (hs : Session.GrowsTo book {} s) : s.GrowsTo book s' := by
  rw [← h.session_eq]
  exact (grows_call book path t s hs).1

/-- The session at the beginning of a call inside another has grown from that **at the
beginning of the other**. -/
theorem ComesTo.growsTo (h : ComesTo book s₀ t₀ s t) (hs : Session.GrowsTo book {} s₀) :
    s₀.GrowsTo book s := by
  induction h with
  | self s _ => exact .refl s
  | first _ _ ih => exact ih hs
  | next _ _ hbefore _ ih =>
      have hgrows := hbefore.growsTo hs
      exact hgrows.trans (ih (hs.trans hgrows))
  | optional _ ih => exact ih hs
  | kleene _ ih => exact ih hs
  | plus _ ih => exact ih hs
  | definition _ _ _ _ ih => exact .trans (.entered _ _) (ih (hs.trans (.entered _ _)))

/-- What has grown into the session after a first step has grown into that at the end.
It is used for a step that is followed by others which may fail. -/
theorem growsTo_of_first {α β : Type} {m : Compiling α} {f : α → Compiling β} {path : List String}
    (hs : Session.GrowsTo book {} s) (hm : Grows book path m) (hf : ∀ x, Grows book path (f x))
    (h : s'.GrowsTo book (m.run.run s).2) : s'.GrowsTo book ((m >>= f).run.run s).2 :=
  h.trans (growsTo_bind hf (hs.trans (hm s hs).1)).1

/-- The session at the end of a call inside another grows into that **at the end of the
other**, whatever comes of that. -/
theorem ComesTo.growsTo_end (h : ComesTo book s₀ t₀ s t) (hs : Session.GrowsTo book {} s₀)
    (hcall : (term (resolve book s.inProgress) t).Yields s a s') :
    s'.GrowsTo book ((term (resolve book s₀.inProgress) t₀).run.run s₀).2 := by
  induction h with
  | self s t =>
      rw [hcall.session_eq]
      exact .refl s'
  | @first s _ group t _ rest hgroup _ ih =>
      obtain ⟨loop, put, hloop, hput⟩ := exists_blockLoop hgroup (resolve book s.inProgress)
      rw [hloop.first]
      have hrest :=
        (composes_grows book s.inProgress).loop hloop hput
          fun t (_ : t ∈ rest) => grows_call book _ t
      exact growsTo_of_first hs (grows_call book _ t) hrest (ih hs hcall)
  | @next s s₁ _ group done rest before t _ hgroup hdone hbefore _ ih =>
      have hs₁ : Session.GrowsTo book {} s₁ := hs.trans (hbefore.growsTo hs)
      obtain ⟨loop, put, hloop, hput⟩ := exists_blockLoop hgroup (resolve book s.inProgress)
      -- behind the blocks that are done the same definitions are being compiled as before them
      obtain ⟨-, -, hpath, -⟩ := hbefore.orderly hs.inOrder
      have hblock := ih hs₁ hcall
      rw [hpath] at hblock
      rw [hloop.run_append hdone hbefore, hloop.cons]
      have hrest :=
        (composes_grows book s.inProgress).loop hloop hput
          fun t (_ : t ∈ rest) => grows_call book _ t
      refine growsTo_of_first hs₁ (grows_call book _ t) (fun b => ?_) hblock
      exact grows_bind (grows_build fun n => hput n before b) hrest
  | @optional s _ t _ _ ih =>
      rw [term_optional]
      exact growsTo_of_first hs (grows_call book _ t) (fun a => grows_pure a.optional) (ih hs hcall)
  | @kleene s _ t _ _ ih =>
      rw [term]
      exact growsTo_of_first hs (grows_call book _ t) (fun a => grows_build fun n => Nat.le_succ n)
        (ih hs hcall)
  | @plus s _ t _ _ ih =>
      rw [term]
      exact growsTo_of_first hs (grows_call book _ t) (fun a => grows_build fun n => Nat.le_succ n)
        (ih hs hcall)
  | @definition s _ name t _ hnew hpath hdef _ ih =>
      obtain ⟨body, hbody, hcontent⟩ := hdef
      have hentered : Session.GrowsTo book {} { s with inProgress := s.inProgress ++ [name] } :=
        hs.trans (.entered s _)
      rw [term, run_resolve_of_new hnew hpath hbody]
      exact (ih hentered hcall).trans (growsTo_inside_of_term hentered rfl hbody hcontent hnew
        fun other => grows_resolve book (s.inProgress ++ [name]) other).1

/-! ## Two calls -/

/-- A call that begins when another has ended makes a table **on other numbers**. The
first call has drawn all its numbers by then, and the second draws greater ones. -/
theorem Yields.disjoint (hs : Session.GrowsTo book {} s)
    (h : (term (resolve book s.inProgress) t).Yields s a s') (hgrows : s'.GrowsTo book v)
    (h' : (term (resolve book v.inProgress) u).Yields v b v') : a.Disjoint b := by
  have hv : Session.GrowsTo book {} v := (hs.trans (h.growsTo hs)).trans hgrows
  obtain ⟨horderly, -⟩ := h.orderly hs.inOrder
  obtain ⟨-, hbeyond, -⟩ := h'.orderly hv.inOrder
  exact horderly.within.disjoint (hbeyond.mono hgrows.drawn_le)

/-- **Compiled tables share no numbered state.** Whatever has been ordered before, and
at whatever nesting a call is made, its table is on the numbers that it draws, and on
none that a table kept before has. So a definition is copied on its second use and every
later one, and only on its first is the table itself kept. What is kept stays, on
numbers that have been drawn. A call has ended before the one around it has, and
whatever call begins later, be it in another block of the same term or for a later
order, makes a table on other numbers. -/
theorem calls_apart (os : List Order) (hs₀ : (Workshop.run book {} os).session.GrowsTo book s₀)
    (hcomes : ComesTo book s₀ t₀ s t) (h : (term (resolve book s.inProgress) t).Yields s a s') :
    (∀ k, State.id k ∈ a.states → s.drawn < k ∧ k ≤ s'.drawn) ∧
    (∀ name kept, s.finished.get? name = some kept →
      kept.Within s.drawn ∧ kept.Disjoint a ∧ s'.finished.get? name = some kept) ∧
    (∀ name, t = .ref name → s.finished.get? name = none → s'.finished.get? name = some a) ∧
    s'.GrowsTo book ((term (resolve book s₀.inProgress) t₀).run.run s₀).2 ∧
    ∀ v₀, s'.GrowsTo book v₀ →
      (∀ name kept, v₀.finished.get? name = some kept → kept.Within v₀.drawn) ∧
      (∀ name kept, s'.finished.get? name = some kept → v₀.finished.get? name = some kept) ∧
      ∀ u₀ v u b v', ComesTo book v₀ u₀ v u →
        (term (resolve book v.inProgress) u).Yields v b v' → a.Disjoint b := by
  -- every session in question is one that calls have led to from the beginning
  have hs₀ : Session.GrowsTo book {} s₀ := (Workshop.growsTo_run (w := {}) (.refl {}) os).trans hs₀
  have hs : Session.GrowsTo book {} s := hs₀.trans (hcomes.growsTo hs₀)
  have hs' : Session.GrowsTo book {} s' := hs.trans (h.growsTo hs)
  obtain ⟨horderly, hbeyond, -⟩ := h.orderly hs.inOrder
  refine ⟨fun k hk => ⟨hbeyond _ hk k rfl, horderly.within k hk⟩, fun name kept hkept => ?_, ?_,
    hcomes.growsTo_end hs₀ h,
      fun v₀ hv₀ => ⟨fun name kept hkept => ?_, fun name kept => hv₀.get?_finished, ?_⟩⟩
  · have hwithin := (hs.inOrder.orderly name kept hkept).within
    exact ⟨hwithin, hwithin.disjoint hbeyond, (h.growsTo hs).get?_finished hkept⟩
  · rintro name rfl hnew
    rw [term] at h
    obtain ⟨-, body, t, s₁, -, -, -, rfl⟩ := (yields_resolve_of_new hnew).mp h
    show (s₁.finished.insert name a).get? name = some a
    rw [OrderedTable.get?_insert, if_pos rfl]
  · exact ((hs'.trans hv₀).inOrder.orderly name kept hkept).within
  · intro u₀ v u b v' hlater hb
    exact h.disjoint hs (hv₀.trans (hlater.growsTo (hs'.trans hv₀))) hb

/-- One definition, which takes a number. -/
def anthology : Rulebook where
  definitions := .ofList [("poems", .plus (.token "poem"))]

/-- The table of the definition, and the session that has compiled it. -/
def poems : Automaton := (Automaton.plus 0 (.single (.element "poem"))).automaton

def afterPoems : Session := { finished := OrderedTable.empty.insert "poems" poems, drawn := 1 }

/-- A reference met twice: its first use is kept, and the second, in the midst of the
same sequence, is a copy. -/
theorem calls_apart_anthology :
    ComesTo anthology {} (.sequence [.ref "poems", .ref "poems"]) {} (.ref "poems") ∧
      (term (resolve anthology []) (.ref "poems")).Yields {} poems afterPoems ∧
      afterPoems.finished.get? "poems" = some poems ∧ State.id 1 ∈ poems.states ∧
    ComesTo anthology {} (.sequence [.ref "poems", .ref "poems"]) afterPoems (.ref "poems") ∧
      ∃ b s', (term (resolve anthology []) (.ref "poems")).Yields afterPoems b s' ∧
        s'.finished.get? "poems" = some poems ∧ State.id 2 ∈ b.states ∧ poems.Disjoint b := by
  have hfirst : (term (resolve anthology []) (.ref "poems")).Yields {} poems afterPoems := by
    have hdef : anthology.definitions.get? "poems" = some (.plus (.token "poem")) := by decide
    have hcontent : Content.ofPattern anthology.limits (.plus (.token "poem")) =
        .ok (.term (.plus (.token (.element "poem")))) := rfl
    have hplus : (term (resolve anthology ["poems"]) (.plus (.token (.element "poem")))).Yields
        { inProgress := ["poems"] } poems { inProgress := ["poems"], drawn := 1 } :=
      yields_plus.mpr ⟨_, _, yields_token.mpr ⟨rfl, rfl⟩, rfl, rfl⟩
    rw [term]
    exact (yields_resolve_of_new rfl).mpr ⟨List.not_mem_nil, _, _, _, hdef, hcontent, hplus, rfl⟩
  have hcomes : ComesTo anthology {} (.sequence [.ref "poems", .ref "poems"]) {} (.ref "poems") :=
    .first (.inl rfl) (.self {} _)
  obtain ⟨-, -, hkept, -, hlater⟩ := calls_apart [] (.refl {}) hcomes hfirst
  obtain ⟨-, -, hapart⟩ := hlater afterPoems (.refl afterPoems)
  have hkept := hkept "poems" rfl rfl
  have hsecond :
      (term (resolve anthology []) (.ref "poems")).Yields afterPoems (poems.copy 1).automaton
        (afterBuild afterPoems (poems.copy 1)) := by
    rw [term]
    exact (yields_resolve_of_kept hkept).mpr ⟨rfl, rfl⟩
  have hbefore :
      (term (resolve anthology []) (.sequence [.ref "poems"])).Yields {} poems afterPoems :=
    (blockLoop_sequence _).yields_first.mpr
      ⟨_, _, hfirst, (blockLoop_sequence _).yields_nil.mpr ⟨rfl, rfl⟩⟩
  have hcomes' : ComesTo anthology {} (.sequence ([.ref "poems"] ++ .ref "poems" :: [])) afterPoems
      (.ref "poems") :=
    .next (.inl rfl) (List.cons_ne_nil _ _) hbefore (.self afterPoems _)
  exact ⟨hcomes, hfirst, hkept, by decide, hcomes', _, _, hsecond, hkept, by decide,
    hapart _ _ _ _ _ (.self afterPoems _) hsecond⟩

end Compiling

end TreeGrammar
