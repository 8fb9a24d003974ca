/-
Markup that stands in a comment.

Two hyphens in a row end nothing yet, but a comment may not hold them, nor end with one.
So hyphens are spread until no two are together, and a space goes behind a hyphen at the
end. Spreading takes two hyphens at a time: of a longer row it leaves pairs behind, but
none of these pairs touches another, and so a second time leaves none. All that is ever
put in is a space after one hyphen and before the next (`Spaced`), and spreading what
has been spread puts in nothing else. A text without two hyphens in a row does not hold
the end of a comment, so the comment is read back as it was written.
-/
import Mathlib.Logic.Function.Iterate
import TreeGrammar.Proofs.Markup.RoundTrip

set_option autoImplicit false

namespace TreeGrammar

variable {cs ds es : List Char}

/-! ## Two hyphens in a row -/

/-- No two hyphens follow each other exactly if **the pair occurs nowhere**. The count
is what the rounds bring down. -/
theorem hyphenPairs_eq_zero_iff : hyphenPairs cs = 0 ↔ ¬ "--".toList <:+: cs := by
  induction cs with
  | nil => exact iff_of_true rfl (by decide)
  | cons c rest ih =>
      have hhere : "--".toList <+: c :: rest ↔ c = '-' ∧ rest.head? = some '-' := by
        constructor
        · rintro ⟨more, hmore⟩
          obtain ⟨rfl, hrest⟩ := List.cons.inj hmore
          exact ⟨rfl, by rw [← hrest]; rfl⟩
        · rintro ⟨rfl, hhead⟩
          obtain ⟨more, rfl⟩ := List.head?_eq_some_iff.mp hhead
          exact ⟨more, rfl⟩
      rw [List.infix_cons_iff, not_or, hhere, ← ih, hyphenPairs, Nat.add_eq_zero_iff]
      by_cases hpair : c = '-' ∧ rest.head? = some '-' <;> simp [hpair]

/-- Another character keeps hyphens apart, whatever stands behind it. -/
theorem hyphenPairs_cons_of_ne {c : Char} (h : ¬ (c = '-' ∧ cs.head? = some '-')) :
    hyphenPairs (c :: cs) = hyphenPairs cs := by
  rw [hyphenPairs, if_neg h, Nat.zero_add]

/-- After the rounds no pair is left, since each round separates some while
there are any. -/
theorem hyphenPairs_separateHyphens (cs : List Char) : hyphenPairs (separateHyphens cs) = 0 := by
  fun_induction separateHyphens cs with
  | case1 cs hnone => exact hnone
  | case2 cs _ ih => exact ih

/-! ## The rounds -/

/-- A character that is no hyphen before a hyphen is kept as it is. -/
theorem spreadHyphens_of_ne {c : Char} (h : ¬ (c = '-' ∧ cs.head? = some '-')) :
    spreadHyphens (c :: cs) = c :: spreadHyphens cs := by
  rw [spreadHyphens]
  rintro rest rfl rfl
  exact h ⟨rfl, rfl⟩

/-- A space keeps apart what stands before it and behind it. -/
theorem hyphenPairs_space (front : List Char) (cs : List Char) :
    hyphenPairs (front ++ ' ' :: cs) = hyphenPairs front + hyphenPairs cs := by
  induction front with
  | nil => simp [hyphenPairs]
  | cons c front ih =>
      have hhead : (front ++ ' ' :: cs).head? = some '-' ↔ front.head? = some '-' := by
        cases front <;> simp
      simp only [List.cons_append, hyphenPairs, ih, hhead, Nat.add_assoc]

/-- Spreading a second time leaves **no two hyphens in a row**, even with a hyphen
before what was spread once. -/
theorem hyphenPairs_spread_spread (cs : List Char) :
    hyphenPairs (spreadHyphens (spreadHyphens cs)) = 0 ∧
    hyphenPairs (spreadHyphens ('-' :: spreadHyphens cs)) = 0 := by
  fun_induction spreadHyphens cs with
  | case1 rest ih =>
      -- behind the space the second hyphen is one before what is left, spread once
      have hbehind : spreadHyphens (' ' :: '-' :: spreadHyphens rest) = ' ' :: spreadHyphens
          ('-' :: spreadHyphens rest) :=
        spreadHyphens_of_ne (by simp)
      have hone := hyphenPairs_space ['-'] (spreadHyphens ('-' :: spreadHyphens rest))
      have htwo := hyphenPairs_space ['-', ' ', '-'] (spreadHyphens ('-' :: spreadHyphens rest))
      rw [ih.2] at hone htwo
      rw [spreadHyphens_of_ne (by simp), spreadHyphens, hbehind]
      exact ⟨hone, htwo⟩
  | case2 c rest hpair ih =>
      have hapart : ¬ (c = '-' ∧ (spreadHyphens rest).head? = some '-') := by
        rw [head?_spreadHyphens, List.head?_eq_some_iff]
        rintro ⟨rfl, more, rfl⟩
        exact hpair more rfl rfl
      have hnone : hyphenPairs (c :: spreadHyphens (spreadHyphens rest)) = 0 := by
        rw [hyphenPairs_cons_of_ne (by rwa [head?_spreadHyphens]), ih.1]
      refine ⟨by rwa [spreadHyphens_of_ne hapart], ?_⟩
      by_cases hc : c = '-'
      · subst hc
        have hspace := hyphenPairs_space ['-'] ('-' :: spreadHyphens (spreadHyphens rest))
        rw [hnone] at hspace
        rw [spreadHyphens]
        exact hspace
      · rw [spreadHyphens_of_ne (by simp [hc]), spreadHyphens_of_ne hapart,
          hyphenPairs_cons_of_ne (by simp [hc]), hnone]
  | case3 => exact ⟨rfl, rfl⟩

/-- Hyphens are separated **round by round**: before each round there are two in a row,
and behind the last there are none. -/
theorem exists_rounds_separateHyphens (cs : List Char) :
    ∃ k, spreadHyphens^[k] cs = separateHyphens cs ∧
      ∀ j ≤ k, "--".toList <:+: spreadHyphens^[j] cs ↔ j < k := by
  fun_induction separateHyphens cs with
  | case1 cs hnone =>
      refine ⟨0, rfl, fun j hj => ?_⟩
      rw [Nat.le_zero.mp hj]
      exact iff_of_false (hyphenPairs_eq_zero_iff.mp hnone) (Nat.lt_irrefl 0)
  | case2 cs hpairs ih =>
      obtain ⟨k, hrounds, hbefore⟩ := ih
      refine ⟨k + 1, hrounds, fun j hj => ?_⟩
      cases j with
      | zero =>
          exact iff_of_true (Decidable.not_not.mp fun h => hpairs (hyphenPairs_eq_zero_iff.mpr h))
            (Nat.succ_pos k)
      | succ j =>
          rw [Function.iterate_succ_apply, hbefore j (Nat.le_of_succ_le_succ hj),
            Nat.succ_lt_succ_iff]

/-- There are **at most two** rounds. The first round leaves pairs only where three
hyphens stood in a row, and the second leaves none. -/
theorem rounds_le_two {k : Nat} (h : ∀ j ≤ k, "--".toList <:+: spreadHyphens^[j] cs ↔ j < k) :
    k ≤ 2 := by
  by_contra hk
  have hpairs := (h 2 (by omega)).mpr (by omega)
  exact hyphenPairs_eq_zero_iff.mp (hyphenPairs_spread_spread cs).1 hpairs

/-! ## What is put in -/

/-- The second text is the first with **single spaces put in**, each behind one hyphen
and before the next. -/
inductive Spaced : List Char → List Char → Prop
  | nil : Spaced [] []
  | keep (c : Char) {cs ds : List Char} (h : Spaced cs ds) : Spaced (c :: cs) (c :: ds)
  | part {cs ds : List Char} (h : Spaced ('-' :: cs) ds) :
      Spaced ('-' :: '-' :: cs) ('-' :: ' ' :: ds)

namespace Spaced

/-- A text is spaced from itself, with nothing put in. -/
theorem refl (cs : List Char) : Spaced cs cs := by
  induction cs with
  | nil => exact .nil
  | cons c cs ih => exact .keep c ih

theorem head?_eq (h : Spaced cs ds) : ds.head? = cs.head? := by
  cases h <;> rfl

/-- Spaces that are put in one after the other **are all between the hyphens that were
there first**. So all rounds together are described as one of them is. -/
theorem trans (h : Spaced cs ds) (h' : Spaced ds es) : Spaced cs es := by
  induction h generalizing es with
  | nil => exact h'
  | keep c h ih =>
      cases h' with
      | keep _ h' => exact .keep c (ih h')
      | part h' =>
          -- the next hyphen stood there before the first spaces came in
          obtain ⟨more, rfl⟩ := List.head?_eq_some_iff.mp h.head?_eq.symm
          exact .part (ih h')
  | part h ih =>
      cases h' with
      | keep _ h' =>
          cases h' with
          | keep _ h' => exact .part (ih h')

end Spaced

/-- A round puts in spaces between hyphens, and **nothing else**. By induction along the
recursion of a round. -/
theorem spaced_spreadHyphens (cs : List Char) : Spaced cs (spreadHyphens cs) := by
  fun_induction spreadHyphens cs with
  | case1 rest ih => exact .part (.keep '-' ih)
  | case2 c rest _ ih => exact .keep c ih
  | case3 => exact .nil

theorem spaced_separateHyphens (cs : List Char) : Spaced cs (separateHyphens cs) := by
  fun_induction separateHyphens cs with
  | case1 cs _ => exact .refl cs
  | case2 cs _ ih => exact (spaced_spreadHyphens cs).trans ih

/-! ## The comment -/

/-- A safe text has no two hyphens in a row, which is what ends a comment. What is put
before the end does not make a pair with what was there. -/
theorem notInfix_commentSafe (cs : List Char) : ¬ "--".toList <:+: commentSafe cs := by
  have hnone := hyphenPairs_separateHyphens cs
  rw [← hyphenPairs_eq_zero_iff]
  unfold commentSafe
  dsimp only
  split
  · rw [hyphenPairs_space, hnone]
    rfl
  · exact hnone

/-- Nor does it end in a hyphen, where the end of the comment would make a pair of it. A
space is added for this case. -/
theorem getLast?_commentSafe (cs : List Char) : (commentSafe cs).getLast? ≠ some '-' := by
  unfold commentSafe
  dsimp only
  split
  · rw [List.getLast?_concat]
    decide
  · assumption

/-- **Markup in a comment is well-formed and loses nothing.** Whatever the node, hyphens
are spread in at most two rounds, as long as there are two in a row; the text of the
comment is what comes of it, with a space at its end if it would end with a hyphen. It
has no two hyphens in a row and no hyphen at its end, it is the markup of the node with
single spaces put in between hyphens, and an element that holds the comment alone is
read back as that. -/
theorem Node.defused_wellFormed (n : Node) : ∃ (s : String) (spread : List Char) (k : Nat),
    n.defused = .comment s ∧
    (k ≤ 2 ∧ spreadHyphens^[k] n.write = spread ∧
      ∀ j ≤ k, "--".toList <:+: spreadHyphens^[j] n.write ↔ j < k) ∧
    (¬ "--".toList <:+: s.toList ∧ s.toList.getLast? ≠ some '-') ∧
    (Spaced n.write spread ∧
      s.toList = spread ++ if spread.getLast? = some '-' then [' '] else []) ∧
    Element.ofMarkup ("<r>" ++ n.defused.render ++ "</r>") = .ok { tag := "r", children :=
      [n.defused] } := by
  obtain ⟨k, hrounds, hbefore⟩ := exists_rounds_separateHyphens n.write
  have hchars : (String.ofList (commentSafe n.write)).toList = commentSafe n.write :=
    String.toList_ofList
  have hend : commentSafe n.write =
      separateHyphens n.write ++ if (separateHyphens n.write).getLast? = some '-' then [' ']
        else [] := by
    unfold commentSafe
    dsimp only
    split
    · rfl
    · rw [List.append_nil]
  refine ⟨String.ofList (commentSafe n.write), separateHyphens n.write, k, rfl,
    ⟨rounds_le_two hbefore, hrounds, hbefore⟩, ?_,
      ⟨spaced_separateHyphens n.write, hchars.trans hend⟩, ?_⟩
  · rw [hchars]
    exact ⟨notInfix_commentSafe n.write, getLast?_commentSafe n.write⟩
  · -- what ends a comment begins with two hyphens
    have hcomment : n.defused.Writable := by
      refine .comment fun hend => notInfix_commentSafe n.write ?_
      rw [hchars] at hend
      exact List.IsInfix.trans ⟨[], ['>'], rfl⟩ hend
    have hroot : (Node.element "r" .empty [n.defused]).Writable :=
      .element (by decide) (by decide) (List.forall_mem_singleton.mpr hcomment)
        (List.isChain_singleton _)
    have hwritten :
        "<r>" ++ n.defused.render ++ "</r>" = Element.render { tag := "r", children :=
          [n.defused] } := by
      rw [← String.toList_inj, String.toList_append, String.toList_append]
      simp [Node.render, Element.render, Element.node, Node.write, Node.writeAll,
        OrderedTable.empty]
    rw [hwritten]
    exact ofMarkup_of_readsBack hroot.readsBack

/-- A row of three takes two rounds. -/
example : commentSafe "a---b-".toList = "a- - -b- ".toList := by cbv

end TreeGrammar
