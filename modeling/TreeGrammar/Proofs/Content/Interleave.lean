/-
What an interleave accepts.

A word that an interleave accepts has been dealt out to the blocks, each of which
accepts its part; the tie-break decides how it is dealt out, and that there is a way to
do so holds whatever it answers. The other direction needs that there is nothing to
decide: where no token occurs in two blocks, at most one block has an offer at any
place, so a tie-break that gives a token to a lone candidate never matters. Then a word
is accepted exactly if every block accepts its **share**, the tokens of the word that
occur in it (`accepts_interleave_disjoint_iff`).
-/
import Mathlib.Data.List.Permutation
import TreeGrammar.Proofs.Automaton.Path
import TreeGrammar.Proofs.Content.Inside
import TreeGrammar.Proofs.Pattern.Language

set_option autoImplicit false

namespace TreeGrammar

/-! ## Dealing out a word -/

/-- The word **mixes all the parts**: each stands in it in its own order, and nothing
else does. -/
inductive MixesAll : List (List Token) → List Token → Prop
  | nil : MixesAll [] []
  | cons {u v w : List Token} {parts : List (List Token)} (hrest : MixesAll parts v)
      (hmix : Mixes u v w) : MixesAll (u :: parts) w

theorem mixesAll_nil {α : Type} (l : List α) : MixesAll (l.map fun _ => []) [] := by
  induction l with
  | nil => exact .nil
  | cons _ l ih => exact .cons ih .nil

section

variable {x : Token} {as blocks : List Automaton} {ss ss' : List State}
  {parts : List (List Token)} {w w' : List Token} {tieBreak : TieBreak} {c : Cursor}

/-- The block that a token moves gets the token **as the first of its part**. The parts
of the other blocks are left as they are. -/
theorem Moves.mixesAll (h : Moves x as ss ss')
    (hparts : List.Forall₂ (fun p u => p.1.Reads p.2 u) (as.zip ss') parts)
    (hmix : MixesAll parts w) : ∃ parts', List.Forall₂ (fun p u => p.1.Reads p.2 u)
    (as.zip ss) parts' ∧ MixesAll parts' (x :: w) := by
  induction h generalizing parts w with
  | here hconsume =>
      cases hparts with
      | @cons _ u _ us hu hrest =>
          cases hmix with
          | cons hmixed hmix =>
              have hfirst := Automaton.reads_cons.mpr ⟨_, hconsume, hu⟩
              exact ⟨(x :: u) :: us, .cons hfirst hrest, .cons hmixed hmix.left⟩
  | there _ ih =>
      cases hparts with
      | @cons _ u _ us hu hrest =>
          cases hmix with
          | cons hmixed hmix =>
              obtain ⟨us', hus', hmixed'⟩ := ih hrest hmixed
              exact ⟨u :: us', .cons hu hus', .cons hmixed' hmix.right⟩

/-- A word that is read to the end **can be dealt out** to the blocks, from the
states that they are at. The induction is on the word; each token goes to the block
that it moves. -/
theorem exists_parts_of_run
    (hrun : (Expression.interleave blocks tieBreak).run (.interleaved ss) w = some c)
    (hfinished : (Expression.interleave blocks tieBreak).isFinishedAt c = true) :
    ∃ parts, List.Forall₂ (fun p u => p.1.Reads p.2 u) (blocks.zip ss) parts ∧
      MixesAll parts w := by
  induction w generalizing ss with
  | nil =>
      cases hrun
      refine ⟨(blocks.zip ss).map fun _ => [], ?_, mixesAll_nil _⟩
      rw [List.forall₂_map_right_iff, List.forall₂_same]
      intro p hp
      have hend := List.all_eq_true.mp hfinished p hp
      exact Automaton.reads_nil.mpr ((p.1.isFinished_iff p.2).mp hend)
  | cons x w ih =>
      obtain ⟨next, hx, hrest⟩ := Expression.run_cons_eq_some_iff.mp hrun
      obtain ⟨ss, ss', hc, rfl, hmoves⟩ := Expression.moves_of_advance hx
      cases hc
      obtain ⟨parts, hparts, hmix⟩ := ih hrest
      exact hmoves.mixesAll hparts hmix

/-- **Soundness**, for every tie-break: an accepted word mixes words that the blocks
accept, one of each. -/
theorem exists_parts_of_accepts (h : (Expression.interleave blocks tieBreak).accepts w = true) :
    ∃ parts, MixesAll parts w ∧ List.Forall₂ (fun a u => a.accepts u = true) blocks parts := by
  obtain ⟨c, hrun, hfinished⟩ := Expression.accepts_iff.mp h
  obtain ⟨parts, hparts, hmix⟩ := exists_parts_of_run hrun hfinished
  rw [← List.map_prod_left_eq_zip, List.forall₂_map_left_iff] at hparts
  exact ⟨parts, hmix, hparts.imp fun _ _ hreads => Automaton.accepts_iff.mpr hreads⟩

/-! ## Blocks that share no token -/

/-- No token occurs in two blocks. -/
def BlocksDisjoint (blocks : List Automaton) : Prop :=
  blocks.Pairwise fun a b => ∀ x ∈ a.reachableTokens, x ∉ b.reachableTokens

/-- The **share** of a table in a word: the tokens that occur in the table. -/
def Automaton.share (a : Automaton) (w : List Token) : List Token :=
  w.filter fun x => decide (x ∈ a.reachableTokens)

/-- A token that only one block can take **is given to that block**. -/
def TieBreak.GrantsLone (tieBreak : TieBreak) : Prop :=
  ∀ x candidate, tieBreak x [candidate] = some candidate.index

/-- The leftmost of one candidate is that candidate. Nothing more is asked of a
tie-break where blocks share no token. -/
theorem TieBreak.grantsLone_firstMatch : TieBreak.firstMatch.GrantsLone := fun _ _ => rfl

/-- Preferring unfinished blocks grants a lone candidate its token as well, finished or
not. Both tie-breaks of the program are therefore covered. -/
theorem TieBreak.grantsLone_preferUnfinished : TieBreak.preferUnfinished.GrantsLone := by
  rintro x ⟨index, finished⟩
  cases finished <;> rfl

/-- A token of the block's own belongs to its share. The share keeps the order
of the word. -/
theorem Automaton.share_cons_of_mem {a : Automaton} (h : x ∈ a.reachableTokens) :
    a.share (x :: w) = x :: a.share w := by
  simp [share, h]

theorem Automaton.share_cons_of_notMem {a : Automaton} (h : x ∉ a.reachableTokens) :
    a.share (x :: w) = a.share w := by
  simp [share, h]

/-- Blocks in which a token does not occur have no offer for it. -/
theorem offers_eq_nil {index : Nat} (hss : List.Forall₂ Automaton.Reaches as ss)
    (hx : ∀ a ∈ as, x ∉ a.reachableTokens) : offers x index as ss = [] := by
  induction hss generalizing index with
  | nil => rfl
  | @cons a s as ss hs _ ih =>
      obtain ⟨ha, has⟩ := List.forall_mem_cons.mp hx
      have hnone : a.consume s x = none := by
        cases hconsume : a.consume s x with
        | none => rfl
        | some t => exact absurd (hs.consume hconsume).2 ha
      rw [offers, hnone]
      exact ih has

/-- Where a block can be moved, **its offer is the only one**. Other blocks do not have
the token, and what is not theirs they do not offer to take. -/
theorem Moves.exists_offers_eq (h : Moves x as ss ss') (hdisjoint : BlocksDisjoint as)
    (hss : List.Forall₂ Automaton.Reaches as ss) (index : Nat) :
    ∃ o, offers x index as ss = [o] ∧ index ≤ o.candidate.index ∧
      ss' = ss.set (o.candidate.index - index) o.target := by
  -- the token occurs in the block that it moves, so in no other
  induction h generalizing index with
  | @here a s t as ss hconsume =>
      obtain ⟨hs, hrest⟩ := List.forall₂_cons.mp hss
      obtain ⟨hother, -⟩ := List.pairwise_cons.mp hdisjoint
      have hx := (hs.consume hconsume).2
      have hnone : offers x (index + 1) as ss = [] :=
        offers_eq_nil hrest fun b hb => hother b hb x hx
      refine ⟨⟨⟨index, a.isFinished s⟩, t⟩, ?_, Nat.le_refl index, ?_⟩
      · simp only [offers, hconsume, hnone]
      · rw [Nat.sub_self, List.set_cons_zero]
  | @there a s as ss ss' hmoves ih =>
      obtain ⟨hs, hrest⟩ := List.forall₂_cons.mp hss
      obtain ⟨hother, hdisjoint⟩ := List.pairwise_cons.mp hdisjoint
      obtain ⟨-, b, hb, hx⟩ := hmoves.reaches hrest
      obtain ⟨o, ho, hle, hset⟩ := ih hdisjoint hrest (index + 1)
      have hnone : a.consume s x = none := by
        cases hconsume : a.consume s x with
        | none => rfl
        | some t => exact absurd hx (hother b hb x (hs.consume hconsume).2)
      refine ⟨o, ?_, by omega, ?_⟩
      · rw [offers, hnone]
        exact ho
      · have hplace : o.candidate.index - index = o.candidate.index - (index + 1) + 1 := by omega
        rw [hplace, List.set_cons_succ, hset]

/-- An interleave of blocks that share no token takes a token exactly where it moves a
block. What the tie-break is then asked is a question with one answer. -/
theorem advance_eq_some_iff (htie : tieBreak.GrantsLone) (hdisjoint : BlocksDisjoint blocks)
    (hss : List.Forall₂ Automaton.Reaches blocks ss) :
    (Expression.interleave blocks tieBreak).advance (.interleaved ss) x = some c ↔
      ∃ ss', Moves x blocks ss ss' ∧ c = .interleaved ss' := by
  constructor
  · intro h
    obtain ⟨ss, ss', hc, rfl, hmoves⟩ := Expression.moves_of_advance h
    cases hc
    exact ⟨ss', hmoves, rfl⟩
  · rintro ⟨ss', hmoves, rfl⟩
    obtain ⟨o, ho, -, hset⟩ := hmoves.exists_offers_eq hdisjoint hss 0
    have hchoice : tieBreak x [o.candidate] = some o.candidate.index := htie x o.candidate
    unfold Expression.advance
    dsimp only
    rw [ho, hset]
    simp [hchoice]

/-- A token that occurs in none of the blocks is in no share. Such a token stops a word
without any block noticing it, so it has to be excluded by itself. -/
theorem forall₂_reads_share_iff (hx : ∀ a ∈ as, x ∉ a.reachableTokens) :
    List.Forall₂ (fun a s => a.Reads s (a.share (x :: w))) as ss ↔
      List.Forall₂ (fun a s => a.Reads s (a.share w)) as ss := by
  have hshare : ∀ a ∈ as, a.share (x :: w) = a.share w :=
    fun a ha => Automaton.share_cons_of_notMem (hx a ha)
  constructor
  · intro h
    refine ((List.forall₂_and_left _ _).mpr ⟨hshare, h⟩).imp fun a s hboth => ?_
    rw [← hboth.1]
    exact hboth.2
  · intro h
    refine ((List.forall₂_and_left _ _).mpr ⟨hshare, h⟩).imp fun a s hboth => ?_
    rw [hboth.1]
    exact hboth.2

/-- A token moves one of several blocks by moving the first, or **by moving one of
the others**. -/
theorem exists_moves_cons_iff {R : Automaton → State → Prop} {a : Automaton} {s : State} :
    (∃ ss', Moves x (a :: as) (s :: ss) ss' ∧ List.Forall₂ R (a :: as) ss') ↔
      ((∃ t, a.consume s x = some t ∧ R a t) ∧ List.Forall₂ R as ss) ∨
        (R a s ∧ ∃ ss', Moves x as ss ss' ∧ List.Forall₂ R as ss') := by
  constructor
  · rintro ⟨_, hmoves, hall⟩
    cases hmoves with
    | here hconsume =>
        obtain ⟨ht, hrest⟩ := List.forall₂_cons.mp hall
        exact .inl ⟨⟨_, hconsume, ht⟩, hrest⟩
    | there hmoves =>
        obtain ⟨hs, hrest⟩ := List.forall₂_cons.mp hall
        exact .inr ⟨hs, _, hmoves, hrest⟩
  · rintro (⟨⟨t, hconsume, ht⟩, hrest⟩ | ⟨hs, ss', hmoves, hrest⟩)
    · exact ⟨t :: ss, .here hconsume, .cons ht hrest⟩
    · exact ⟨s :: ss', .there hmoves, .cons hs hrest⟩

/-- Some block is moved by a token, to states from which **all shares of the rest** are
read, exactly if the token occurs in some block and all shares of the whole word are
read from where the blocks are. -/
theorem exists_moves_iff (hdisjoint : BlocksDisjoint as)
    (hss : List.Forall₂ Automaton.Reaches as ss) :
    (∃ ss', Moves x as ss ss' ∧ List.Forall₂ (fun a s => a.Reads s (a.share w)) as ss') ↔
      (∃ a ∈ as, x ∈ a.reachableTokens) ∧
      List.Forall₂ (fun a s => a.Reads s (a.share (x :: w))) as ss := by
  induction hss with
  | nil =>
      refine iff_of_false ?_ ?_
      · rintro ⟨_, ⟨⟩, _⟩
      · rintro ⟨⟨a, ha, -⟩, -⟩
        exact List.not_mem_nil ha
  | @cons a s as ss hs hss ih =>
      obtain ⟨hother, hdisjoint⟩ := List.pairwise_cons.mp hdisjoint
      rw [exists_moves_cons_iff, List.forall₂_cons]
      by_cases hx : x ∈ a.reachableTokens
      · -- the token is the first block's own: no other block is moved, and the shares of the
        -- others stay what they are
        have hstays :
            ¬ ∃ ss', Moves x as ss ss' ∧
              List.Forall₂ (fun b s => b.Reads s (b.share w)) as ss' := by
          rintro ⟨ss', hmoves, -⟩
          obtain ⟨-, b, hb, hxb⟩ := hmoves.reaches hss
          exact hother b hb x hx hxb
        have hfirst : (∃ t, a.consume s x = some t ∧ a.Reads t (a.share w)) ↔
            a.Reads s (a.share (x :: w)) := by
          rw [Automaton.share_cons_of_mem hx, Automaton.reads_cons]
        have hblock : ∃ b ∈ a :: as, x ∈ b.reachableTokens := ⟨a, List.mem_cons_self, hx⟩
        rw [or_iff_left fun h => hstays h.2, hfirst, forall₂_reads_share_iff
          fun b hb => hother b hb x hx, and_iff_right hblock]
      · -- the first block is not moved, and its share stays what it is
        have hstays : ¬ ∃ t, a.consume s x = some t ∧ a.Reads t (a.share w) := by
          rintro ⟨t, ht, -⟩
          exact hx (hs.consume ht).2
        have hblock : (∃ b ∈ a :: as, x ∈ b.reachableTokens) ↔ ∃ b ∈ as, x ∈ b.reachableTokens := by
          rw [List.exists_mem_cons_iff, or_iff_right hx]
        rw [or_iff_right fun h => hstays h.1, ih hdisjoint, hblock,
          Automaton.share_cons_of_notMem hx, and_left_comm]

/-- The content of every block may end exactly if the empty word is read from where each
of them is. It is the end of the induction on words. -/
theorem isFinishedAt_interleaved_iff (tieBreak : TieBreak)
    (hss : List.Forall₂ Automaton.Reaches blocks ss) :
    (Expression.interleave blocks tieBreak).isFinishedAt (.interleaved ss) = true ↔
      List.Forall₂ (fun a s => a.Reads s []) blocks ss := by
  show ((blocks.zip ss).all fun p => p.1.isFinished p.2) = true ↔ _
  rw [List.forall₂_iff_zip, List.all_eq_true, and_iff_right hss.length_eq]
  refine ⟨fun h a s hmem => ?_, fun h p hp => ?_⟩
  · exact Automaton.reads_nil.mpr ((a.isFinished_iff s).mp (h (a, s) hmem))
  · exact (p.1.isFinished_iff p.2).mpr (Automaton.reads_nil.mp (h hp))

/-- A word is read to the end exactly if its tokens occur in the blocks and **every
block reads its share**. -/
theorem run_shares_iff (htie : tieBreak.GrantsLone) (hdisjoint : BlocksDisjoint blocks)
    (hss : List.Forall₂ Automaton.Reaches blocks ss) :
    (∃ c, (Expression.interleave blocks tieBreak).run (.interleaved ss) w = some c ∧
        (Expression.interleave blocks tieBreak).isFinishedAt c = true) ↔
      (∀ x ∈ w, ∃ a ∈ blocks, x ∈ a.reachableTokens) ∧
        List.Forall₂ (fun a s => a.Reads s (a.share w)) blocks ss := by
  -- the first token moves one block on the left, and is the first of one share on the right
  induction w generalizing ss with
  | nil =>
      have hend := isFinishedAt_interleaved_iff tieBreak hss
      constructor
      · rintro ⟨c, hrun, hfinished⟩
        cases hrun
        exact ⟨fun _ hx => absurd hx List.not_mem_nil, hend.mp hfinished⟩
      · rintro ⟨-, hreads⟩
        exact ⟨_, rfl, hend.mpr hreads⟩
  | cons x w ih =>
      rw [List.forall_mem_cons, and_right_comm, ← exists_moves_iff hdisjoint hss]
      constructor
      · rintro ⟨c, hrun, hfinished⟩
        obtain ⟨next, hx, hrest⟩ := Expression.run_cons_eq_some_iff.mp hrun
        obtain ⟨ss', hmoves, rfl⟩ := (advance_eq_some_iff htie hdisjoint hss).mp hx
        obtain ⟨hknown, hreads⟩ := (ih (hmoves.reaches hss).1).mp ⟨c, hrest, hfinished⟩
        exact ⟨⟨ss', hmoves, hreads⟩, hknown⟩
      · rintro ⟨⟨ss', hmoves, hreads⟩, hknown⟩
        obtain ⟨c, hrest, hfinished⟩ := (ih (hmoves.reaches hss).1).mpr ⟨hknown, hreads⟩
        have hx := (advance_eq_some_iff htie hdisjoint hss).mpr ⟨ss', hmoves, rfl⟩
        exact ⟨c, Expression.run_cons_eq_some_iff.mpr ⟨_, hx, hrest⟩, hfinished⟩

/-- Where the blocks share no token, an interleave accepts the words whose tokens occur
in the blocks and **whose shares the blocks accept**. -/
theorem accepts_interleave_disjoint_iff (htie : tieBreak.GrantsLone)
    (hdisjoint : BlocksDisjoint blocks) : (Expression.interleave blocks tieBreak).accepts w = true ↔
      (∀ x ∈ w, ∃ a ∈ blocks, x ∈ a.reachableTokens) ∧
      ∀ a ∈ blocks, a.accepts (a.share w) = true := by
  have hstart : List.Forall₂ Automaton.Reaches blocks (blocks.map fun _ => .start) := by
    rw [List.forall₂_map_right_iff, List.forall₂_same]
    exact fun a _ => a.reaches_start
  rw [Expression.accepts_iff]
  show (∃ c, Expression.run _ (.interleaved _) w = some c ∧ _) ↔ _
  rw [run_shares_iff htie hdisjoint hstart, List.forall₂_map_right_iff, List.forall₂_same]
  simp only [Automaton.accepts_iff]

end

/-- **What an interleave accepts.** Whatever the tie-break, an accepted word mixes words
that the blocks accept, one of each. Where the blocks share no token and the tie goes to
the leftmost block, or to the leftmost that may not end yet, a word is accepted exactly
if each of its tokens occurs in a block and each block accepts its share; so of words
with such tokens those with the same shares are accepted alike, in whatever order the
shares are mixed. -/
theorem interleave_accepts_shares (blocks : List Automaton) (tieBreak : TieBreak) (w : List Token) :
    ((Expression.interleave blocks tieBreak).accepts w = true →
        ∃ parts, MixesAll parts w ∧ List.Forall₂ (fun a u => a.accepts u = true) blocks parts) ∧
      (BlocksDisjoint blocks → tieBreak = .firstMatch ∨ tieBreak = .preferUnfinished →
        ((Expression.interleave blocks tieBreak).accepts w = true ↔
          (∀ x ∈ w, ∃ a ∈ blocks, x ∈ a.reachableTokens) ∧
          ∀ a ∈ blocks, a.accepts (a.share w) = true) ∧
        ∀ w', (∀ x ∈ w ++ w', ∃ a ∈ blocks, x ∈ a.reachableTokens) →
          (∀ a ∈ blocks, a.share w = a.share w') →
          (Expression.interleave blocks tieBreak).accepts w =
            (Expression.interleave blocks tieBreak).accepts w') := by
  refine ⟨exists_parts_of_accepts, fun hdisjoint htie => ?_⟩
  -- blocks that share no token never tie, so all that is asked of a tie-break is to grant a
  -- lone candidate
  have hlone : tieBreak.GrantsLone := by
    rcases htie with rfl | rfl
    · exact TieBreak.grantsLone_firstMatch
    · exact TieBreak.grantsLone_preferUnfinished
  refine ⟨accepts_interleave_disjoint_iff hlone hdisjoint, fun w' hknown hshares => ?_⟩
  rw [List.forall_mem_append] at hknown
  have hall : (∀ a ∈ blocks, a.accepts (a.share w) = true) ↔
      ∀ a ∈ blocks, a.accepts (a.share w') = true :=
    forall₂_congr fun a ha => by rw [hshares a ha]
  rw [Bool.eq_iff_iff, accepts_interleave_disjoint_iff hlone hdisjoint,
    accepts_interleave_disjoint_iff hlone hdisjoint, and_iff_right hknown.1, and_iff_right hknown.2,
      hall]

/-- The table of a head and the paragraph under it. -/
def headed : Automaton :=
  (Automaton.append 0 (.single (.element "head")) (.single (.element "par"))).automaton

/-- The table of any number of notes. -/
def notes : Automaton := (Automaton.kleene 0 (.single (.element "note"))).automaton

theorem reachableTokens_headed : headed.reachableTokens = [.element "head", .element "par"] := by
  cbv

theorem reachableTokens_notes : notes.reachableTokens = [.element "note"] := by cbv

/-- Notes may stand anywhere about a head and its paragraph. -/
theorem interleave_accepts_shares_notes :
    let blocks := [headed, notes]
    let e := Expression.interleave blocks .preferUnfinished
    let w : List Token := [.element "note", .element "head", .element "note", .element "par"]
    let w' : List Token := [.element "head", .element "par", .element "note", .element "note"]
    (BlocksDisjoint blocks ∧ (∀ x ∈ w ++ w', ∃ a ∈ blocks, x ∈ a.reachableTokens) ∧
        (∀ a ∈ blocks, a.share w = a.share w') ∧ e.accepts w = true) ∧
      (∃ parts, MixesAll parts w ∧ List.Forall₂ (fun a u => a.accepts u = true) blocks parts) ∧
      (∀ a ∈ blocks, a.accepts (a.share w) = true) ∧ e.accepts w = e.accepts w' := by
  intro blocks e w w'
  have hdisjoint : BlocksDisjoint blocks := by
    simp [blocks, BlocksDisjoint, reachableTokens_headed, reachableTokens_notes]
  have hknown : ∀ x ∈ w ++ w', ∃ a ∈ blocks, x ∈ a.reachableTokens := by
    simp [w, w', blocks, reachableTokens_headed, reachableTokens_notes]
  have hshares : ∀ a ∈ blocks, a.share w = a.share w' := by
    simp [w, w', blocks, Automaton.share, reachableTokens_headed, reachableTokens_notes]
  have haccepts : e.accepts w = true := by decide +kernel
  obtain ⟨hsound, hcomplete⟩ := interleave_accepts_shares blocks .preferUnfinished w
  obtain ⟨hiff, hsame⟩ := hcomplete hdisjoint (.inr rfl)
  exact ⟨⟨hdisjoint, hknown, hshares, haccepts⟩, hsound haccepts, (hiff.mp haccepts).2,
    hsame w' hknown hshares⟩

/-- Where two blocks share a token, the tie-break matters: the first block takes the
note that the second needs. -/
example :
    let blocks :=
      [notes, (Automaton.append 0 (.single (.element "note")) (.single (.element "par"))).automaton]
    let w : List Token := [.element "note", .element "par"]
    (Expression.interleave blocks .firstMatch).accepts w = false ∧
      (Expression.interleave blocks .preferUnfinished).accepts w = true := by
  decide +kernel

end TreeGrammar
