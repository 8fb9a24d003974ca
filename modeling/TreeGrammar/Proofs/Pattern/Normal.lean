/-
Normal forms stay as they are.

A pattern in normal form has no sequence among the blocks of a sequence, no choice among
those of a choice, no interleave within an interleave, no group of one block, and no
repetition of a repetition that normalizing would collapse. `Stable` says so;
normalizing leads there (`stable_normalize`), and changes nothing of what is there
already (`Stable.normalize_eq`).
-/
import TreeGrammar.OrderedTable
import TreeGrammar.Pattern.Normal

set_option autoImplicit false

namespace TreeGrammar.Pattern

/-- A step that went well came after another that did. It takes apart what was put
together from steps that may fail, here and in all modules on reading. -/
theorem bind_eq_ok {α β ε : Type} {x : Except ε α} {f : α → Except ε β} {b : β}
    (h : x >>= f = .ok b) : ∃ a, x = .ok a ∧ f a = .ok b := by
  cases x with
  | error e => exact absurd h (by simp [bind, Except.bind])
  | ok a => exact ⟨a, rfl, h⟩

theorem throw_ne_ok {α ε : Type} {e : ε} {x : α} : (throw e : Except ε α) ≠ .ok x := by
  simp [throw, throwThe, MonadExceptOf.throw]

/-! ## The blocks of a group -/

/-- What the blocks of a group **contribute**: each of them what `splice` makes of its
normal form. -/
inductive Contributes (splice : Pattern → Except CompileCause (List Pattern)) :
    List Pattern → List Pattern → Prop
  | nil : Contributes splice [] []
  | cons {p inner : Pattern} {ps part flat : List Pattern} (hp : p.normalize = .ok inner)
      (hpart : splice inner = .ok part) (hps : Contributes splice ps flat) :
      Contributes splice (p :: ps) (part ++ flat)

variable {splice : Pattern → Except CompileCause (List Pattern)} {ps flat : List Pattern}

/-- The blocks of a group, normalized and spliced one after the other, **contribute** a
list: each gives its own part of it. From here on a group is spoken of through this
relation, without the recursion. -/
theorem contributes_normalizeBlocks (h : normalizeBlocks splice ps = .ok flat) :
    Contributes splice ps flat := by
  induction ps generalizing flat with
  | nil =>
      rw [normalizeBlocks] at h
      rw [← Except.ok.inj h]
      exact .nil
  | cons p ps ih =>
      rw [normalizeBlocks] at h
      obtain ⟨inner, hinner, h⟩ := bind_eq_ok h
      obtain ⟨part, hpart, h⟩ := bind_eq_ok h
      obtain ⟨rest, hrest, h⟩ := bind_eq_ok h
      rw [← Except.ok.inj h]
      exact .cons hinner hpart (ih hrest)

/-- A block of an interleave contributes itself, **without an interleave inside**. It is
refused if there is one, at whatever depth. -/
theorem eq_of_spliceInterleave {p : Pattern} {part : List Pattern}
    (h : spliceInterleave p = .ok part) : part = [p] ∧ p.containsInterleave = false := by
  unfold spliceInterleave at h
  split at h
  · exact absurd h (by simp)
  · next hfalse => exact ⟨(Except.ok.inj h).symm, by simpa using hfalse⟩

/-! ## Groups and repetitions

A construct makes a group of its blocks, or a repetition of its one block, unless the
group or the repetition is one already. Splicing undoes the first and unwrapping does
it, so both are cases of one relation, with the constructor for a parameter.
-/

/-- The pattern is **the group of the blocks**, or the only one of them. -/
def IsGroupOf (group : List Pattern → Pattern) (blocks : List Pattern) (p : Pattern) : Prop :=
  blocks = [p] ∨ p = group blocks

/-- The pattern is **the repetition of the block**, or the block itself, which is such
a repetition. -/
def IsRepetitionOf (repetition : Pattern → Pattern) (block p : Pattern) : Prop :=
  (p = block ∧ ∃ inner, block = repetition inner) ∨ p = repetition block

section

variable {p q : Pattern} {part : List Pattern}

/-- A pattern is a sequence of the parts that it contributes to a sequence around it, be
it a sequence itself or a single part. -/
theorem isGroupOf_of_spliceSequence (h : spliceSequence p = .ok part) :
    IsGroupOf sequence part p := by
  unfold spliceSequence at h
  split at h <;> cases h
  · exact .inr rfl
  · exact .inl rfl

/-- It is a choice of the parts that it contributes to a choice, in the same way. -/
theorem isGroupOf_of_spliceChoice (h : spliceChoice p = .ok part) : IsGroupOf choice part p := by
  unfold spliceChoice at h
  split at h <;> cases h
  · exact .inr rfl
  · exact .inl rfl

/-- An interleave is never spliced: it is only rejected. So a block is always a group of
itself alone. -/
theorem isGroupOf_of_spliceInterleave (h : spliceInterleave p = .ok part) :
    IsGroupOf interleave part p :=
  .inl (eq_of_spliceInterleave h).1

/-- A sequence is put around its parts unless there is just one of them. -/
theorem isGroupOf_ofSequence (flat : List Pattern) : IsGroupOf sequence flat (ofSequence flat) := by
  unfold ofSequence
  split
  · exact .inl rfl
  · exact .inr rfl

/-- A choice is put around its parts unless there is just one; of no parts it
is refused. -/
theorem isGroupOf_of_ofChoice (h : ofChoice flat = .ok q) : IsGroupOf choice flat q := by
  unfold ofChoice at h
  split at h <;> cases h
  · exact .inl rfl
  · exact .inr rfl

/-- An interleave is put around its blocks in the same way. -/
theorem isGroupOf_of_ofInterleave (h : ofInterleave flat = .ok q) :
    IsGroupOf interleave flat q := by
  unfold ofInterleave at h
  split at h <;> cases h
  · exact .inl rfl
  · exact .inr rfl

/-- Making a pattern optional gives the optional pattern or, where it repeats already, a
repetition of the same body. -/
theorem isRepetitionOf_of_ofOptional (h : ofOptional p = .ok q) : IsRepetitionOf optional p q := by
  unfold ofOptional at h
  split at h <;> cases h
  · exact .inl ⟨rfl, _, rfl⟩
  · exact .inr rfl

theorem isRepetitionOf_of_ofPlus (h : ofPlus p = .ok q) : IsRepetitionOf plus p q := by
  unfold ofPlus at h
  split at h <;> cases h
  · exact .inl ⟨rfl, _, rfl⟩
  · exact .inr rfl

end

/-! ## Normal forms -/

/-- The pattern is **in normal form**. -/
inductive Stable : Pattern → Prop
  | token (name : String) : Stable (.token name)
  | ref (name : String) : Stable (.ref name)
  | sequence {blocks : List Pattern} (h : ∀ p ∈ blocks, Stable p)
      (hsplice : ∀ p ∈ blocks, spliceSequence p = .ok [p])
      (hgroup : ofSequence blocks = .sequence blocks) : Stable (.sequence blocks)
  | choice {blocks : List Pattern} (h : ∀ p ∈ blocks, Stable p)
      (hsplice : ∀ p ∈ blocks, spliceChoice p = .ok [p])
      (hgroup : ofChoice blocks = .ok (.choice blocks)) : Stable (.choice blocks)
  | interleave {blocks : List Pattern} (h : ∀ p ∈ blocks, Stable p)
      (hsplice : ∀ p ∈ blocks, spliceInterleave p = .ok [p])
      (hgroup : ofInterleave blocks = .ok (.interleave blocks)) : Stable (.interleave blocks)
  | optional {block : Pattern} (h : Stable block)
      (hblock : ofOptional block = .ok (.optional block)) : Stable (.optional block)
  | kleene {block : Pattern} (h : Stable block) (hblock : stripRepetitions block = block) :
      Stable (.kleene block)
  | plus {block : Pattern} (h : Stable block) (hblock : ofPlus block = .ok (.plus block)) :
      Stable (.plus block)

/-- Blocks that are normal and are not spliced are **left as they are**. -/
theorem normalizeBlocks_eq_self (h : ∀ p ∈ ps, p.normalize = .ok p)
    (hsplice : ∀ p ∈ ps, splice p = .ok [p]) : normalizeBlocks splice ps = .ok ps := by
  induction ps with
  | nil => rw [normalizeBlocks]
  | cons p ps ih =>
      rw [normalizeBlocks, h p List.mem_cons_self, ih (fun q hq => h q (List.mem_cons_of_mem p hq))
        fun q hq => hsplice q (List.mem_cons_of_mem p hq)]
      show (splice p >>= _) = _
      rw [hsplice p List.mem_cons_self]
      rfl

/-- Normalizing **changes nothing** of a normal form. The induction is on the pattern,
and each construct finds nothing to rewrite in normal blocks. -/
theorem Stable.normalize_eq {p : Pattern} (h : Stable p) : p.normalize = .ok p := by
  induction h with
  | token name => rw [normalize]
  | ref name => rw [normalize]
  | sequence h hsplice hgroup ih =>
      rw [normalize, normalizeBlocks_eq_self ih hsplice]
      exact congrArg Except.ok hgroup
  | choice h hsplice hgroup ih =>
      rw [normalize, normalizeBlocks_eq_self ih hsplice]
      exact hgroup
  | interleave h hsplice hgroup ih =>
      rw [normalize, normalizeBlocks_eq_self ih hsplice]
      exact hgroup
  | optional h hblock ih =>
      rw [normalize, ih]
      exact hblock
  | kleene h hblock ih =>
      rw [normalize, ih]
      exact congrArg (fun b => Except.ok (Pattern.kleene b)) hblock
  | plus h hblock ih =>
      rw [normalize, ih]
      exact hblock

/-! ## Normalizing leads there -/

/-- What splicing makes of a normal block is normal, and splicing has **nothing left to
do**: a block is spliced in as itself, or as the blocks of a group in normal form. -/
theorem stable_of_splice {group : List Pattern → Pattern} {p : Pattern} {part : List Pattern}
    (hgroup : ∀ bs, Stable (group bs) → ∀ q ∈ bs, Stable q ∧ splice q = .ok [q])
    (hpart : IsGroupOf group part p) (h : splice p = .ok part) (hp : Stable p) :
    ∀ q ∈ part, Stable q ∧ splice q = .ok [q] := by
  rcases hpart with rfl | rfl
  · exact List.forall_mem_singleton.mpr ⟨hp, h⟩
  · exact hgroup part hp

/-- What a stable pattern contributes to a sequence is stable part by part, and no part
is a sequence again. -/
theorem stable_of_spliceSequence {p : Pattern} {part : List Pattern} (hp : Stable p)
    (h : spliceSequence p = .ok part) : ∀ q ∈ part, Stable q ∧ spliceSequence q = .ok [q] := by
  refine stable_of_splice (fun bs hbs q hq => ?_) (isGroupOf_of_spliceSequence h) h hp
  cases hbs with
  | sequence hblocks hsplice _ => exact ⟨hblocks q hq, hsplice q hq⟩

/-- What it contributes to a choice is stable, and no part is a choice again. -/
theorem stable_of_spliceChoice {p : Pattern} {part : List Pattern} (hp : Stable p)
    (h : spliceChoice p = .ok part) : ∀ q ∈ part, Stable q ∧ spliceChoice q = .ok [q] := by
  refine stable_of_splice (fun bs hbs q hq => ?_) (isGroupOf_of_spliceChoice h) h hp
  cases hbs with
  | choice hblocks hsplice _ => exact ⟨hblocks q hq, hsplice q hq⟩

/-- What it contributes to an interleave is stable, and no part is an
interleave again. -/
theorem stable_of_spliceInterleave {p : Pattern} {part : List Pattern} (hp : Stable p)
    (h : spliceInterleave p = .ok part) : ∀ q ∈ part, Stable q ∧ spliceInterleave q = .ok [q] := by
  refine stable_of_splice (fun bs hbs q hq => ?_) (isGroupOf_of_spliceInterleave h) h hp
  cases hbs with
  | interleave hblocks hsplice _ => exact ⟨hblocks q hq, hsplice q hq⟩

/-- The blocks of a group are normal and **spliced as they are**, when the normal forms
of its blocks are normal and splicing has nothing left to do in what it makes of them.
The induction is on the blocks of the group, each of which contributes a part. -/
theorem stable_of_contributes (h : Contributes splice ps flat)
    (hps : ∀ p ∈ ps, ∀ q, p.normalize = .ok q → Stable q)
    (hsplice : ∀ p part, Stable p → splice p = .ok part → ∀ q ∈ part, Stable q ∧
      splice q = .ok [q]) :
    (∀ q ∈ flat, Stable q) ∧ ∀ q ∈ flat, splice q = .ok [q] := by
  induction h with
  | nil => exact ⟨nofun, nofun⟩
  | @cons p inner ps part flat hp hpart _ ih =>
      rw [List.forall_mem_cons] at hps
      have hall := hsplice inner part (hps.1 inner hp) hpart
      obtain ⟨hstable, hself⟩ := ih hps.2
      rw [List.forall_mem_append, List.forall_mem_append]
      exact ⟨⟨fun q hq => (hall q hq).1, hstable⟩, fun q hq => (hall q hq).2, hself⟩

/-- A group of normal blocks is **normal**, if the group itself is: a block that stands
for it is anyway. -/
theorem IsGroupOf.stable {group : List Pattern → Pattern} {q : Pattern} (h : IsGroupOf group flat q)
    (hblocks : ∀ p ∈ flat, Stable p) (hgroup : q = group flat → Stable q) : Stable q := by
  rcases h with rfl | heq
  · exact hblocks q List.mem_cons_self
  · exact hgroup heq

/-- A repetition of a stable pattern is stable if the plain one is: in the other cases
it repeats a body that was repeated before, and nothing new is nested. -/
theorem IsRepetitionOf.stable {repetition : Pattern → Pattern} {p q : Pattern}
    (h : IsRepetitionOf repetition p q) (hp : Stable p)
    (hrepetition : q = repetition p → Stable q) : Stable q := by
  rcases h with ⟨rfl, -⟩ | heq
  · exact hp
  · exact hrepetition heq

/-- The body under all repetitions is stable, and has none left to strip. A Kleene star
is put around such a body. -/
theorem stable_stripRepetitions {p : Pattern} (hp : Stable p) :
    Stable (stripRepetitions p) ∧ stripRepetitions (stripRepetitions p) = stripRepetitions p := by
  induction p using stripRepetitions.induct with
  | case1 block ih =>
      rw [stripRepetitions]
      cases hp with
      | kleene hblock _ => exact ih hblock
  | case2 block ih =>
      rw [stripRepetitions]
      cases hp with
      | optional hblock _ => exact ih hblock
  | case3 block ih =>
      rw [stripRepetitions]
      cases hp with
      | plus hblock _ => exact ih hblock
  | case4 block hkleene hoptional hplus =>
      -- no repetition on top: stripping has come to its end
      have hself : stripRepetitions block = block := by
        rw [stripRepetitions] <;> assumption
      rw [hself]
      exact ⟨hp, hself⟩

/-- Normalizing **leads to a normal form**. That a construct was made of its
blocks at all says as well that making it of the same blocks once more gives the
same construct. -/
theorem stable_normalize (p q : Pattern) (h : p.normalize = .ok q) : Stable q := by
  -- in each case the result is a group of the normal blocks, one of them alone, or what was
  -- rebuilt from them, and only the last is new
  match p with
  | .token name =>
      rw [normalize] at h
      rw [← Except.ok.inj h]
      exact .token name
  | .ref name =>
      rw [normalize] at h
      rw [← Except.ok.inj h]
      exact .ref name
  | .sequence blocks =>
      rw [normalize] at h
      obtain ⟨flat, hflat, hq⟩ := bind_eq_ok h
      obtain ⟨hstable, hsplice⟩ := stable_of_contributes (contributes_normalizeBlocks hflat)
        (fun p hp q hq => stable_normalize p q hq) fun _ _ => stable_of_spliceSequence
      rw [← Except.ok.inj hq]
      exact (isGroupOf_ofSequence flat).stable hstable fun heq => heq ▸
        .sequence hstable hsplice heq
  | .choice blocks =>
      rw [normalize] at h
      obtain ⟨flat, hflat, hq⟩ := bind_eq_ok h
      obtain ⟨hstable, hsplice⟩ := stable_of_contributes (contributes_normalizeBlocks hflat)
        (fun p hp q hq => stable_normalize p q hq) fun _ _ => stable_of_spliceChoice
      refine (isGroupOf_of_ofChoice hq).stable hstable ?_
      rintro rfl
      exact .choice hstable hsplice hq
  | .interleave blocks =>
      rw [normalize] at h
      obtain ⟨flat, hflat, hq⟩ := bind_eq_ok h
      obtain ⟨hstable, hsplice⟩ := stable_of_contributes (contributes_normalizeBlocks hflat)
        (fun p hp q hq => stable_normalize p q hq) fun _ _ => stable_of_spliceInterleave
      refine (isGroupOf_of_ofInterleave hq).stable hstable ?_
      rintro rfl
      exact .interleave hstable hsplice hq
  | .optional block =>
      rw [normalize] at h
      obtain ⟨inner, hinner, hq⟩ := bind_eq_ok h
      have hstable := stable_normalize block inner hinner
      refine (isRepetitionOf_of_ofOptional hq).stable hstable ?_
      rintro rfl
      exact .optional hstable hq
  | .kleene block =>
      rw [normalize] at h
      obtain ⟨inner, hinner, hq⟩ := bind_eq_ok h
      obtain ⟨hstable, hself⟩ := stable_stripRepetitions (stable_normalize block inner hinner)
      rw [← Except.ok.inj hq]
      exact .kleene hstable hself
  | .plus block =>
      rw [normalize] at h
      obtain ⟨inner, hinner, hq⟩ := bind_eq_ok h
      have hstable := stable_normalize block inner hinner
      refine (isRepetitionOf_of_ofPlus hq).stable hstable ?_
      rintro rfl
      exact .plus hstable hq
termination_by p
decreasing_by
  all_goals first
    | (have hsize := List.sizeOf_lt_of_mem hp; simp; omega)
    | simp

end TreeGrammar.Pattern
