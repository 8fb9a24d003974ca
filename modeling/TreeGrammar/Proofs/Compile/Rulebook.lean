/-
Rulebooks that say the same.

Compiling looks definitions up and never goes through them, so the order in which a
rulebook holds them does not matter: with the same bounds and the same definitions under
the same names, every step is the same (`pattern_congr`). The two steps that follow
references are recursive on the definitions that are left, and so are the proofs about
them.
-/
import TreeGrammar.Proofs.Table
import TreeGrammar.Proofs.Compile.Yields

set_option autoImplicit false

namespace TreeGrammar

/-- The rulebooks have the same bounds, and **the same definition under every name**. -/
structure Rulebook.Agrees (book book' : Rulebook) : Prop where
  limits_eq : book'.limits = book.limits
  get?_eq : ∀ name, book'.definitions.get? name = book.definitions.get? name

namespace Compiling

variable {book book' : Rulebook}

/-- Resolving looks definitions up **by name**, so rulebooks that agree on every name
resolve alike, whatever order their entries are in. -/
theorem resolve_congr (h : book.Agrees book') (path : List String) (name : String) :
    resolve book' path name = resolve book path name := by
  induction hn : unseen book.definitions.keys path using Nat.strongRecOn generalizing path name with
  | _ n ih =>
    rw [resolve, resolve, h.limits_eq]
    congr 1
    funext s
    split
    · rfl
    · split
      · rfl
      · next hpath =>
        have hget := h.get?_eq name
        generalize book'.definitions.get? name = found at hget ⊢
        subst hget
        split
        · rfl
        · next body hbody =>
          have hless : unseen book.definitions.keys (path ++ [name]) < n := by
            rw [← hn]
            exact unseen_append_lt hbody hpath
          have hresolve : resolve book' (path ++ [name]) = resolve book (path ++ [name]) :=
            funext fun other => ih _ hless (path ++ [name]) other rfl
          rw [hresolve]

/-- What stands for a whole content is found **by following names**, so rulebooks that agree
on every name find the same. The recursion is on the definitions not yet followed. -/
theorem wholeContent_congr (h : book.Agrees book') (followed : List String) (p : Pattern) :
    wholeContent book' followed p = wholeContent book followed p := by
  induction hn : unseen book.definitions.keys followed using Nat.strongRecOn
    generalizing followed p with
  | _ n ih =>
    rw [wholeContent.eq_def, wholeContent.eq_def]
    split
    · next name =>
      split
      · rfl
      · next hfollowed =>
        -- both rulebooks have the same definition under the name, or none
        have hget := h.get?_eq name
        generalize book'.definitions.get? name = found at hget ⊢
        subst hget
        split
        · rfl
        · next body hbody =>
          have hless : unseen book.definitions.keys (followed ++ [name]) < n := by
            rw [← hn]
            exact unseen_append_lt hbody hfollowed
          congr 1
          funext normal
          split
          · next other => exact ih _ hless (followed ++ [name]) (.ref other) rfl
          · rfl
          · rfl
    · rfl

theorem boundedTerm_congr (h : book.Agrees book') (t : Term) :
    boundedTerm book' t = boundedTerm book t := by
  have hresolve : resolve book' = resolve book := funext fun path => funext (resolve_congr h path)
  rw [boundedTerm, boundedTerm, hresolve, h.limits_eq]

theorem blocks_congr (h : book.Agrees book') (ts : List Term) :
    blocks book' ts = blocks book ts := by
  induction ts with
  | nil => rw [blocks, blocks]
  | cons t ts ih => rw [blocks, blocks, boundedTerm_congr h, ih]

/-- A content is read **alike under both** rulebooks. This is the form in which an entry of
a schema uses it, which has a content and not a pattern. -/
theorem content_congr (h : book.Agrees book') (c : Content) : content book' c = content book c := by
  cases c with
  | term t => rw [content, content, boundedTerm_congr h]
  | interleave ts => rw [content, content, blocks_congr h]

/-- Whatever the **order of the definitions**, a pattern is compiled in the
same steps. -/
theorem pattern_congr (h : book.Agrees book') (p : Pattern) : pattern book' p = pattern book p := by
  have hcontent : content book' = content book := funext (content_congr h)
  have hwhole : wholeContent book' = wholeContent book :=
    funext fun followed => funext (wholeContent_congr h followed)
  rw [pattern, pattern, hcontent, hwhole, h.limits_eq]

end Compiling

end TreeGrammar
