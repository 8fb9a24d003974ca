/-
A search, round by round.

`breadthFirst` is confined to a universe of nodes, and that it comes to an end is part
of its definition. A search that keeps a queue and a list of what it has seen knows no
such bound: it takes a node off the queue, puts those successors on it that it has not
seen, and may stop at a node that fails a test. Here such a search is a machine, one
round a step. Where all successors lie in some finite universe, it is over after at most
one round for each node of it and one more to find the queue empty, and what has come of
it is what `breadthFirst` says (`exists_rounds`).

A search that keeps a stack is such a machine too, and puts all successors on the stack,
seen or not. It is over after one round for each node that has ever been on the stack,
with what `depthFirst` finds (`StackSearch.exists_rounds`).
-/
import Mathlib.Logic.Function.Iterate
import TreeGrammar.Proofs.Discovery
import TreeGrammar.Proofs.Table

set_option autoImplicit false

namespace TreeGrammar

universe u

variable {α : Type u}

/-- Where a search stands **between two rounds**. -/
inductive Search (α : Type u) where
  /-- It goes on with the nodes of the queue; all that have ever been on the queue are
  seen. -/
  | going (seen queue : List α)
  /-- It is over: the queue has run empty. -/
  | passed (seen : List α)
  /-- It is over: a node has failed the test. -/
  | failed (a : α)
deriving DecidableEq

/-! ## What comes of a search -/

namespace Search

variable {ok : α → Bool} {found front : List α} {a : α}

/-- Among the nodes that are found, in their order, **the first that fails** decides. -/
def outcome (ok : α → Bool) (found : List α) : Search α :=
  match found.find? fun a => !ok a with
  | none => .passed found
  | some a => .failed a

/-- Whether all nodes have passed, once the search is over. -/
def verdict? : Search α → Option Bool
  | going _ _ => none
  | passed _ => some true
  | failed _ => some false

/-- A search whose every find passes its test has passed. -/
theorem outcome_of_forall (h : ∀ a ∈ found, ok a = true) : outcome ok found = .passed found := by
  have hnone : found.find? (fun a => !ok a) = none := List.find?_eq_none.mpr fun a ha => by
    simp [h a ha]
  rw [outcome, hnone]

/-- The first node that fails stands behind those that pass. A search reports this one,
whatever comes behind it. -/
theorem outcome_append_cons (hfront : ∀ b ∈ front, ok b = true) (ha : ok a = false)
    (back : List α) : outcome ok (front ++ a :: back) = .failed a := by
  have hnone : front.find? (fun a => !ok a) = none := List.find?_eq_none.mpr fun b hb => by
    simp [hfront b hb]
  rw [outcome, List.find?_append, hnone, Option.none_or, List.find?_cons_of_pos (by simp [ha])]

/-- The verdict of an outcome is **the test of all nodes** that are found. -/
theorem verdict?_outcome (ok : α → Bool) (found : List α) :
    (outcome ok found).verdict? = some (found.all ok) := by
  unfold outcome
  cases hfind : found.find? fun a => !ok a with
  | none =>
      have hall : found.all ok = true := by
        rw [List.all_eq_true]
        exact fun a ha => by simpa using List.find?_eq_none.mp hfind a ha
      rw [hall]
      rfl
  | some a =>
      have hsome : found.all ok = false := by
        rw [List.all_eq_false]
        exact ⟨a, List.mem_of_find?_eq_some hfind, by simpa using List.find?_some hfind⟩
      rw [hsome]
      rfl

end Search

/-! ## What joins the queue -/

variable [DecidableEq α] {all seen front queue succ : List α} {next : α → List α}
  {ok : α → Bool} {a : α}

/-- The successors that have not been seen, each once, in their order. -/
def unseenOf (seen succ : List α) : List α := (succ.filter fun b => decide (b ∉ seen)).eraseDups

/-- Inside a universe, the unseen successors are the fresh ones. The program has no
universe to look at; the bound is added for the proof of termination only. -/
theorem unseenOf_eq_freshSuccessors (h : ∀ b ∈ succ, b ∈ all) :
    unseenOf seen succ = freshSuccessors all seen succ := by
  unfold unseenOf freshSuccessors
  congr 1
  refine List.filter_congr fun b hb => ?_
  rw [decide_eq_true (h b hb), Bool.true_and]

/-- Nodes that are seen for the first time are **no longer unseen**, each of them. This
is why a search inside a finite universe comes to an end. -/
theorem unseen_append_add_length_le {new : List α} (hnodup : new.Nodup) (hall : ∀ b ∈ new, b ∈ all)
    (hnew : ∀ b ∈ new, b ∉ seen) : unseen all (seen ++ new) + new.length ≤ unseen all seen := by
  induction new generalizing seen with
  | nil => exact Nat.le_of_eq (by rw [List.append_nil, List.length_nil, Nat.add_zero])
  | cons b rest ih =>
      obtain ⟨hb, hrest⟩ := List.nodup_cons.mp hnodup
      obtain ⟨hball, hrestall⟩ := List.forall_mem_cons.mp hall
      obtain ⟨hbnew, hrestnew⟩ := List.forall_mem_cons.mp hnew
      have hstill : ∀ c ∈ rest, c ∉ seen ++ [b] := by
        intro c hc hmem
        rcases List.mem_append.mp hmem with hmem | hmem
        · exact hrestnew c hc hmem
        · rw [List.mem_singleton.mp hmem] at hc
          exact hb hc
      have hlater := ih hrest hrestall hstill
      have hfirst : unseen all (seen ++ [b]) < unseen all seen :=
        unseen_lt (fun c hc => List.mem_append_left _ hc) hball hbnew (by simp)
      rw [List.append_assoc, List.singleton_append] at hlater
      rw [List.length_cons]
      omega

/-- What a round puts on the queue is paid for by what has been unseen. Added over all
rounds, it bounds how long the queue can get. -/
theorem unseen_freshSuccessors_add_length_le (all seen succ : List α) :
    unseen all (seen ++ freshSuccessors all seen succ) + (freshSuccessors all seen succ).length ≤
      unseen all seen :=
  unseen_append_add_length_le (nodup_eraseDups _) (fun _ hb => (mem_freshSuccessors hb).1)
    fun _ hb => (mem_freshSuccessors hb).2

/-- What has been seen stays at the head of what is found, in its order. By induction
along the recursion of the search. -/
theorem exists_breadthFirst_eq (all : List α) (next : α → List α) (seen queue : List α) :
    ∃ more, breadthFirst all next seen queue = seen ++ more := by
  fun_induction breadthFirst all next seen queue with
  | case1 seen => exact ⟨[], (List.append_nil seen).symm⟩
  | case2 seen a rest ih =>
      obtain ⟨more, hmore⟩ := ih
      exact ⟨freshSuccessors all seen (next a) ++ more, by rw [hmore, List.append_assoc]⟩

/-! ## Rounds to the end -/

namespace Search

/-- One **round** of a search: the node at the head of the queue is tested, and its
unseen successors join the queue. -/
def round (next : α → List α) (ok : α → Bool) : Search α → Search α
  | going seen [] => passed seen
  | going seen (a :: rest) =>
      if ok a then going (seen ++ unseenOf seen (next a)) (rest ++ unseenOf seen (next a))
        else failed a
  | ended => ended

/-- **A search comes to an end.** From a point where all nodes that have left the queue
have passed, it is over after no more rounds than there are nodes on the queue and
unseen nodes, and one more; the outcome is that of all nodes that can be found from
there. The induction is on the confined search, whose measure drops in each round. -/
theorem exists_rounds_of_front (hnext : ∀ a, ∀ b ∈ next a, b ∈ all)
    (hfront : ∀ b ∈ front, ok b = true) (hseen : seen = front ++ queue) :
    ∃ n ≤ unseen all seen + queue.length + 1,
      (round next ok)^[n] (.going seen queue) = outcome ok (breadthFirst all next seen queue) := by
  fun_induction breadthFirst all next seen queue generalizing front with
  | case1 seen =>
      rw [List.append_nil] at hseen
      refine ⟨1, by omega, ?_⟩
      rw [outcome_of_forall (hseen ▸ hfront)]
      rfl
  | case2 seen a rest ih =>
      generalize hfresh : freshSuccessors all seen (next a) = fresh at ih
      have hround : round next ok (.going seen (a :: rest)) =
          if ok a then .going (seen ++ fresh) (rest ++ fresh) else .failed a := by
        rw [round, unseenOf_eq_freshSuccessors (hnext a), hfresh]
      cases ha : ok a with
      | false =>
          -- the search stops here, and what else could be found lies behind
          obtain ⟨more, hmore⟩ := exists_breadthFirst_eq all next (seen ++ fresh) (rest ++ fresh)
          refine ⟨1, by omega, ?_⟩
          rw [Function.iterate_one, hround, ha, if_neg Bool.false_ne_true, hmore, hseen,
            List.append_assoc, List.append_assoc, List.cons_append, outcome_append_cons hfront ha]
      | true =>
          have hpassed : ∀ b ∈ front ++ [a], ok b = true := by
            intro b hb
            rcases List.mem_append.mp hb with hb | hb
            · exact hfront b hb
            · rwa [List.mem_singleton.mp hb]
          obtain ⟨n, hn, hrounds⟩ := ih hpassed (by rw [hseen]; simp)
          have hpaid := unseen_freshSuccessors_add_length_le all seen (next a)
          rw [hfresh] at hpaid
          rw [List.length_append] at hn
          refine ⟨n + 1, by rw [List.length_cons]; omega, ?_⟩
          rw [Function.iterate_succ_apply, hround, ha, if_pos rfl, hrounds]

/-- A search from one node takes at most **one round for each node** of the universe,
and one to find the queue empty. -/
theorem exists_rounds (hnext : ∀ a, ∀ b ∈ next a, b ∈ all) (ha : a ∈ all) (ok : α → Bool) :
    ∃ n ≤ all.length + 1, (round next ok)^[n] (.going [a] [a]) =
      outcome ok (breadthFirst all next [a] [a]) := by
  have hnone : ∀ b ∈ ([] : List α), ok b = true := fun b hb => absurd hb List.not_mem_nil
  obtain ⟨n, hn, hrounds⟩ := exists_rounds_of_front hnext hnone (List.nil_append [a]).symm
  have hfirst : unseen all [a] < unseen all [] :=
    unseen_lt (fun b hb => absurd hb List.not_mem_nil) ha List.not_mem_nil
      (List.mem_singleton_self a)
  have hall : unseen all [] ≤ all.length := List.length_filter_le _ _
  rw [List.length_singleton] at hn
  exact ⟨n, by omega, hrounds⟩

end Search

/-! ## With a stack -/

/-- Where a search **with a stack** stands between two rounds. -/
structure StackSearch (α : Type u) where
  /-- What has been found. -/
  found : List α
  /-- The stack, its top first. -/
  stack : List α
deriving DecidableEq

namespace StackSearch

variable {stack : List α}

/-- One **round**: the node at the top leaves the stack, and if it is new, it is found
and its successors are laid on the stack in order. -/
def round (next : α → List α) : StackSearch α → StackSearch α
  | ⟨found, []⟩ => ⟨found, []⟩
  | ⟨found, a :: rest⟩ =>
      if a ∈ found then ⟨found, rest⟩ else ⟨found ++ [a], (next a).reverse ++ rest⟩

/-- **A search with a stack comes to an end**, where all nodes lie in some finite
universe: there is a round for each node that is on the stack, and for each successor of
a node that is yet to be found. The induction is on the confined search. -/
theorem exists_rounds (found : List α) (hnext : ∀ a, ∀ b ∈ next a, b ∈ all)
    (hstack : ∀ a ∈ stack, a ∈ all) : ∃ more, depthFirst all next found stack = found ++ more ∧
      (round next)^[stack.length + (more.flatMap next).length] ⟨found, stack⟩ =
        ⟨depthFirst all next found stack, []⟩ := by
  fun_induction depthFirst all next found stack with
  | case1 found => exact ⟨[], (List.append_nil found).symm, rfl⟩
  | case2 found a rest hnew ih =>
      have hpushed : ∀ b ∈ (next a).reverse ++ rest, b ∈ all := by
        intro b hb
        rcases List.mem_append.mp hb with hb | hb
        · exact hnext a b (List.mem_reverse.mp hb)
        · exact hstack b (List.mem_cons_of_mem a hb)
      obtain ⟨more, hmore, hrounds⟩ := ih hpushed
      have hround : round next ⟨found, a :: rest⟩ = ⟨found ++ [a], (next a).reverse ++ rest⟩ :=
        if_neg hnew.2
      have hcount : (a :: rest).length + ((a :: more).flatMap next).length =
          ((next a).reverse ++ rest).length + (more.flatMap next).length + 1 := by
        rw [List.length_cons, List.flatMap_cons, List.length_append, List.length_append,
          List.length_reverse]
        omega
      refine ⟨a :: more, ?_, ?_⟩
      · rw [hmore, List.append_assoc, List.singleton_append]
      · rw [hcount, Function.iterate_succ_apply, hround, hrounds]
  | case3 found a rest hold ih =>
      obtain ⟨more, hmore, hrounds⟩ := ih fun b hb => hstack b (List.mem_cons_of_mem a hb)
      -- the node is in the universe, so it was turned away because it has been found
      have ha : a ∈ found :=
        Decidable.not_not.mp fun hnot => hold ⟨hstack a List.mem_cons_self, hnot⟩
      have hround : round next ⟨found, a :: rest⟩ = ⟨found, rest⟩ := if_pos ha
      refine ⟨more, hmore, ?_⟩
      rw [List.length_cons, Nat.succ_add, Function.iterate_succ_apply, hround, hrounds]

/-- A search with a stack is over after **one round for each node that was ever on
the stack**. -/
theorem rounds_eq (hnext : ∀ a, ∀ b ∈ next a, b ∈ all) (hstack : ∀ a ∈ stack, a ∈ all) :
    (round next)^[stack.length + ((depthFirst all next [] stack).flatMap next).length] ⟨[], stack⟩ =
      ⟨depthFirst all next [] stack, []⟩ := by
  obtain ⟨more, hmore, hrounds⟩ := exists_rounds [] hnext hstack
  rw [List.nil_append] at hmore
  rw [← hmore] at hrounds
  exact hrounds

end StackSearch

end TreeGrammar
