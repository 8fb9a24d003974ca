/-
Children cut in two.

To put a node among children is to cut their list at a place and join the two sides with
the node between them. A cut leaves the slots as they are, unless it goes through a run
of text, which then counts on either side. An element at the cut keeps the sides apart.
Text at the cut is one run with all the text that it meets, comments left out, and so it
has a slot of its own only where it meets none.

Behind the cut all slots move by one index. A reading does not see that: what it sees of
a slot is its **mark**, the token and whether it is blank. Nor does it see a comment, or
whether text is in one piece or in two; and blank text shows in no mark that is not
blank.
-/
import Mathlib.Data.List.Induction
import TreeGrammar.Proofs.Markup.Slot

set_option autoImplicit false

namespace TreeGrammar.Slot

variable {index : Nat} {run : Option Slot} {slot : Slot} {ns before after : List Node} {s : String}

/-! ## Marks -/

/-- What a reading **sees** of a slot. -/
def mark (slot : Slot) : Token × Bool := (slot.token, slot.blank)

/-- A run that is closed is text, and blank if it was and **the text that follows** is.
Its place is of no account for a mark. -/
theorem mark_closeRun (run : Slot) (index : Nat) (ns : List Node) :
    (closeRun run index ns).mark = (run.token, run.blank && (leadingTexts ns).all isBlank) := by
  rw [mark, token_closeRun, blank_closeRun]

/-- The marks of slots do not tell **at which index** the nodes begin. Indices are
counted along and never looked at. -/
theorem marks_starts (isOpen : Bool) (index index' : Nat) (ns : List Node) :
    ((starts isOpen index ns).filterMap id).map mark =
      ((starts isOpen index' ns).filterMap id).map mark := by
  induction ns generalizing isOpen index index' with
  | nil => rfl
  | cons n rest ih =>
      cases n with
      | comment s => exact ih isOpen (index + 1) (index' + 1)
      | element tag attributes children =>
          exact congrArg (List.cons _) (ih false (index + 1) (index' + 1))
      | text s =>
          have hrest := ih true (index + 1) (index' + 1)
          cases isOpen with
          | true => exact hrest
          | false =>
              have hfirst : (closeRun (startRun index s) (index + 1) rest).mark =
                  (closeRun (startRun index' s) (index' + 1) rest).mark := by
                rw [mark_closeRun, mark_closeRun]
                rfl
              show _ :: _ = _ :: _
              rw [hfirst, hrest]

/-- A slot that is blank is text. Only texts can be blank, and a run of them is text
whatever is added to it. -/
theorem token_of_mem_ofNodesFrom (hrun : ∀ before ∈ run, before.token = .text)
    (h : slot ∈ ofNodesFrom index run ns) (hblank : slot.blank = true) : slot.token = .text := by
  induction ns generalizing index run with
  | nil => exact hrun slot (Option.mem_toList.mp h)
  | cons n rest ih =>
      cases n with
      | comment s => exact ih hrun h
      | text s =>
          rw [ofNodesFrom_text] at h
          refine ih (fun longer hlonger => ?_) h
          cases hlonger
          exact token_grow hrun index s
      | element tag attributes children =>
          rcases List.mem_append.mp h with h | h
          · exact hrun slot (Option.mem_toList.mp h)
          · rcases List.mem_cons.mp h with rfl | h
            · cases hblank
            · exact ih (by simp) h

theorem token_of_mem_ofNodes {children : List Node} (h : slot ∈ ofNodes children)
    (hblank : slot.blank = true) : slot.token = .text := by
  have hrun : ∀ before ∈ (none : Option Slot), before.token = .text := by simp
  exact token_of_mem_ofNodesFrom hrun h hblank

/-! ## Where slots stand -/

theorem add_length_cons (index : Nat) (n : Node) (rest : List Node) :
    index + (n :: rest).length = index + 1 + rest.length := by
  rw [List.length_cons, Nat.add_right_comm, Nat.add_assoc]

/-- The nodes that the slot covers all stand **before** an index. -/
def EndsBefore (i : Nat) (slot : Slot) : Prop := slot.index ≤ slot.last ∧ slot.last < i

/-- What ends before an index ends before the next. -/
theorem EndsBefore.succ (h : slot.EndsBefore index) : slot.EndsBefore (index + 1) :=
  ⟨h.1, Nat.lt_succ_of_lt h.2⟩

/-- A run that a text node has been added to ends before the node behind it. -/
theorem endsBefore_grow (hrun : ∀ before ∈ run, before.EndsBefore index) (s : String) :
    (grow run index s).EndsBefore (index + 1) := by
  refine ⟨?_, ?_⟩
  · cases run with
    | none => exact Nat.le_refl index
    | some before =>
        have hbefore := hrun before rfl
        exact Nat.le_of_lt (Nat.lt_of_le_of_lt hbefore.1 hbefore.2)
  · cases run <;> exact Nat.lt_succ_self index

/-- Every slot **ends within the nodes** it was found among. By induction on the nodes,
with the run that is open in front of them. -/
theorem endsBefore_of_mem_ofNodesFrom (hrun : ∀ before ∈ run, before.EndsBefore index)
    (h : slot ∈ ofNodesFrom index run ns) : slot.EndsBefore (index + ns.length) := by
  -- the run in hand ends before the nodes that are left, and each of them moves that bound
  -- by one
  induction ns generalizing index run with
  | nil => exact hrun slot (Option.mem_toList.mp h)
  | cons n rest ih =>
      rw [add_length_cons]
      cases n with
      | comment s => exact ih (fun before hbefore => (hrun before hbefore).succ) h
      | text s =>
          rw [ofNodesFrom_text] at h
          refine ih (fun longer hlonger => ?_) h
          cases hlonger
          exact endsBefore_grow hrun s
      | element tag attributes children =>
          rcases List.mem_append.mp h with h | h
          · obtain ⟨hle, hlt⟩ := hrun slot (Option.mem_toList.mp h)
            exact ⟨hle, by omega⟩
          · rcases List.mem_cons.mp h with rfl | h
            · exact ⟨Nat.le_refl index, by dsimp only; omega⟩
            · exact ih (by simp) h

/-- Without a run that is open before the nodes, every slot begins among them. -/
theorem le_index_of_mem_ofNodesFrom (h : slot ∈ ofNodesFrom index none ns) :
    index ≤ slot.index := by
  rw [ofNodesFrom_eq] at h
  have hstarts : some slot ∈ starts false index ns := by simpa using h
  exact le_index_of_mem_starts hstarts

/-- Each slot ends before **the next one** begins. A run is closed before the slot of an
element is made. -/
theorem pairwise_ofNodesFrom (hrun : ∀ before ∈ run, before.EndsBefore index) :
    (ofNodesFrom index run ns).Pairwise fun slot next => slot.last < next.index := by
  induction ns generalizing index run with
  | nil => cases run <;> simp [ofNodesFrom]
  | cons n rest ih =>
      cases n with
      | comment s => exact ih fun before hbefore => (hrun before hbefore).succ
      | text s =>
          rw [ofNodesFrom_text]
          refine ih fun longer hlonger => ?_
          cases hlonger
          exact endsBefore_grow hrun s
      | element tag attributes children =>
          -- what begins behind the element comes after its slot, and an open run
          -- ended before it
          have hlater :
              (⟨index, index, .element tag, false⟩ :: ofNodesFrom (index + 1) none rest).Pairwise
                fun slot next : Slot => slot.last < next.index := by
            refine List.pairwise_cons.mpr ⟨fun next hnext => ?_, ih (by simp)⟩
            exact le_index_of_mem_ofNodesFrom hnext
          cases run with
          | none => exact hlater
          | some before =>
              have hbefore : before.last < index := (hrun before rfl).2
              refine List.pairwise_cons.mpr ⟨fun next hnext => ?_, hlater⟩
              rcases List.mem_cons.mp hnext with rfl | hnext
              · exact hbefore
              · have hle : index + 1 ≤ next.index := le_index_of_mem_ofNodesFrom hnext
                omega

/-- The slots stand **one after the other** among a number of nodes. -/
structure Ordered (length : Nat) (slots : List Slot) : Prop where
  endsBefore : ∀ slot ∈ slots, slot.EndsBefore length
  pairwise : slots.Pairwise fun slot next => slot.last < next.index

/-- Slots that are left when others are taken out are in order still. -/
theorem Ordered.sublist {length : Nat} {slots kept : List Slot} (h : Ordered length slots)
    (hsub : kept.Sublist slots) : Ordered length kept where
  endsBefore slot hslot := h.endsBefore slot (hsub.subset hslot)
  pairwise := h.pairwise.sublist hsub

/-- The slots of children are in order, and do not overlap. Boundaries between slots are
thereby boundaries between children. -/
theorem ordered_ofNodes (children : List Node) : Ordered children.length (ofNodes children) where
  endsBefore slot hslot := by
    have hrun : ∀ before ∈ (none : Option Slot), before.EndsBefore 0 := by simp
    have hends := endsBefore_of_mem_ofNodesFrom hrun hslot
    rwa [Nat.zero_add] at hends
  pairwise := pairwise_ofNodesFrom (by simp)

/-! ## The run that is open at a cut -/

/-- The run of text that is **open** after nodes. -/
def openRun (index : Nat) (run : Option Slot) : List Node → Option Slot
  | [] => run
  | .comment _ :: rest => openRun (index + 1) run rest
  | .text s :: rest => openRun (index + 1) (some (grow run index s)) rest
  | .element .. :: rest => openRun (index + 1) none rest

/-- The slots that are **closed** after nodes. -/
def closed (index : Nat) (run : Option Slot) : List Node → List Slot
  | [] => []
  | .comment _ :: rest => closed (index + 1) run rest
  | .text s :: rest => closed (index + 1) (some (grow run index s)) rest
  | .element tag _ _ :: rest =>
      run.toList ++ ⟨index, index, .element tag, false⟩ :: closed (index + 1) none rest

/-- The run that is open behind some nodes is carried on through those that follow. What
is open at a cut is all that has to be known of the part before it. -/
theorem openRun_append (index : Nat) (run : Option Slot) (before after : List Node) :
    openRun index run (before ++ after) = openRun (index + before.length)
      (openRun index run before) after := by
  induction before generalizing index run with
  | nil => rfl
  | cons n rest ih =>
      rw [add_length_cons]
      cases n <;> exact ih _ _

/-- The slots of nodes in two parts: those closed in the first, and then those of the
second with **the run that is open between them**. -/
theorem ofNodesFrom_append (index : Nat) (run : Option Slot) (before after : List Node) :
    ofNodesFrom index run (before ++ after) =
      closed index run before ++ ofNodesFrom (index + before.length)
        (openRun index run before) after := by
  induction before generalizing index run with
  | nil => rfl
  | cons n rest ih =>
      rw [add_length_cons, List.cons_append]
      cases n with
      | comment s => exact ih _ _
      | text s =>
          rw [ofNodesFrom_text]
          exact ih _ _
      | element tag attributes children =>
          rw [ofNodesFrom, ih, closed, List.append_assoc]
          rfl

/-- Taken from the first child on, this cuts the slots of a list of children at any
place. The two parts share nothing but the run that is open at the cut. -/
theorem ofNodes_append (before after : List Node) :
    ofNodes (before ++ after) = closed 0 none before ++ ofNodesFrom before.length
      (openRun 0 none before) after := by
  have hsplit := ofNodesFrom_append 0 none before after
  rwa [Nat.zero_add] at hsplit

/-- All slots are those that are closed on the way, and the run that is left open
at the end. -/
theorem ofNodes_eq_closed (ns : List Node) :
    ofNodes ns = closed 0 none ns ++ (openRun 0 none ns).toList := by
  have hsplit := ofNodes_append ns []
  rwa [List.append_nil] at hsplit

/-- No run is open after nodes exactly if, from their end, **an element comes before any
text**, or nothing does. -/
theorem openRun_eq_none_iff : openRun 0 none ns = none ↔ leadingTexts ns.reverse = [] := by
  -- from the end: the last node, if it is no comment, decides
  induction ns using List.reverseRecOn with
  | nil => exact iff_of_true rfl rfl
  | append_singleton ns n ih =>
      rw [openRun_append, List.reverse_concat]
      cases n with
      | comment s => exact ih
      | text s => exact iff_of_false (Option.some_ne_none _) (List.cons_ne_nil _ _)
      | element tag attributes children => exact iff_of_true rfl rfl

theorem token_openRun (hrun : ∀ before ∈ run, before.token = .text)
    (h : slot ∈ openRun index run ns) : slot.token = .text := by
  induction ns generalizing index run with
  | nil => exact hrun slot h
  | cons n rest ih =>
      cases n with
      | comment s => exact ih hrun h
      | element tag attributes children => exact ih (by simp) h
      | text s =>
          refine ih (fun longer hlonger => ?_) h
          cases hlonger
          exact token_grow hrun index s

/-! ## Text at the beginning -/

/-- The slots of nodes but for **the run that they begin with**, if they
begin with one. -/
def afterRun (index : Nat) (ns : List Node) : List Slot := (starts true index ns).filterMap id

/-- A run that is open before nodes takes the text at their beginning, and the rest goes
on as it would without. -/
theorem ofNodesFrom_some (index : Nat) (run : Slot) (ns : List Node) :
    ofNodesFrom index (some run) ns = closeRun run index ns :: afterRun index ns :=
  ofNodesFrom_eq index (some run) ns

/-- Marks do not depend on where the nodes stand, behind a run or not. -/
theorem marks_afterRun (index index' : Nat) (ns : List Node) :
    (afterRun index ns).map mark = (afterRun index' ns).map mark :=
  marks_starts true index index' ns

/-- So nodes that are moved have **the same marks**. Only indices tell the difference.
This lets the children behind an insertion be moved on by one. -/
theorem marks_ofNodesFrom (index index' : Nat) (ns : List Node) :
    (ofNodesFrom index none ns).map mark = (ofNodesFrom index' none ns).map mark := by
  rw [ofNodesFrom_eq, ofNodesFrom_eq]
  exact marks_starts false index index' ns

/-- Where no text follows, a run is closed as it is. -/
theorem closeRun_of_leadingTexts_eq_nil (h : leadingTexts ns = []) (run : Slot) (index : Nat) :
    closeRun run index ns = run := by
  induction ns generalizing index with
  | nil => rfl
  | cons n rest ih =>
      cases n with
      | comment s => exact ih h (index + 1)
      | text s => cases h
      | element tag attributes children => rfl

theorem ofNodesFrom_of_leadingTexts_eq_nil (h : leadingTexts ns = []) (index : Nat) :
    ofNodesFrom index none ns = afterRun index ns := by
  induction ns generalizing index with
  | nil => rfl
  | cons n rest ih =>
      cases n with
      | comment s => exact ih h (index + 1)
      | text s => cases h
      | element tag attributes children => exact ofNodesFrom_eq index none _

/-- Where nodes begin with text, possibly behind comments, their first slot is that run;
it is blank if all of its texts are. -/
theorem exists_ofNodesFrom_of_leadingTexts_ne_nil (h : leadingTexts ns ≠ []) (index : Nat) :
    ∃ first, ofNodesFrom index none ns = first :: afterRun index ns ∧
      first.mark = (.text, (leadingTexts ns).all isBlank) := by
  induction ns generalizing index with
  | nil => exact absurd rfl h
  | cons n rest ih =>
      cases n with
      | comment s => exact ih h (index + 1)
      | text s =>
          refine ⟨closeRun (startRun index s) (index + 1) rest, ?_, mark_closeRun _ _ rest⟩
          exact ofNodesFrom_some (index + 1) (startRun index s) rest
      | element tag attributes children => exact absurd rfl h

theorem le_last_closeRun_of_leadingTexts_ne_nil (h : leadingTexts ns ≠ []) (run : Slot)
    (index : Nat) : index ≤ (closeRun run index ns).last := by
  induction ns generalizing run index with
  | nil => exact absurd rfl h
  | cons n rest ih =>
      cases n with
      | comment s => exact Nat.le_of_succ_le (ih h run (index + 1))
      | text s => exact le_last_closeRun (run.extendRun index s) (Nat.lt_succ_self index) rest
      | element tag attributes children => exact absurd rfl h

/-! ## A cut -/

/-- If a run is open at a cut and there is text on one side of it only, then that side
is the left one. Such a run has a text at its end, next to comments at most. -/
theorem leadingTexts_eq_nil_of_openRun {run : Slot} (hopen : openRun 0 none before = some run)
    (h : leadingTexts before.reverse = [] ∨ leadingTexts after = []) : leadingTexts after = [] := by
  refine h.resolve_left fun hbefore => ?_
  rw [openRun_eq_none_iff.mpr hbefore] at hopen
  cases hopen

/-- Where text does not meet text, a cut leaves the slots **as they are**. The slots
behind the cut only begin at other indices. -/
theorem ofNodes_append_of_apart (h : leadingTexts before.reverse = [] ∨ leadingTexts after = []) :
    ofNodes (before ++ after) = ofNodes before ++ ofNodesFrom before.length none after := by
  rw [ofNodes_append, ofNodes_eq_closed before, List.append_assoc]
  cases hopen : openRun 0 none before with
  | none => rfl
  | some run =>
      have hafter := leadingTexts_eq_nil_of_openRun hopen h
      rw [ofNodesFrom_some, closeRun_of_leadingTexts_eq_nil hafter,
        ofNodesFrom_of_leadingTexts_eq_nil hafter]
      rfl

/-- Where text meets text, a cut goes **through a run**: one slot covers nodes on both
sides, and in its place each side has a slot of its own. -/
theorem exists_ofNodes_append_of_meet (hbefore : leadingTexts before.reverse ≠ [])
    (hafter : leadingTexts after ≠ []) :
    ∃ front first whole second back, ofNodes before = front ++ [first] ∧
      ofNodesFrom before.length none after = second :: back ∧ ofNodes (before ++ after) = front ++
        whole :: back ∧
      (whole.index < before.length ∧ before.length ≤ whole.last) ∧
      whole.blank = (first.blank && second.blank) := by
  -- the run that is open at the cut goes on with the text behind it
  obtain ⟨run, hopen⟩ : ∃ run, openRun 0 none before = some run :=
    Option.ne_none_iff_exists'.mp fun hnone => hbefore (openRun_eq_none_iff.mp hnone)
  obtain ⟨second, hsecond, hmark⟩ := exists_ofNodesFrom_of_leadingTexts_ne_nil hafter before.length
  have hslots : ofNodes before = closed 0 none before ++ [run] := by
    rw [ofNodes_eq_closed, hopen]
    rfl
  have hends : run.EndsBefore before.length := by
    refine (ordered_ofNodes before).endsBefore run ?_
    rw [hslots]
    exact List.mem_append_right _ (List.mem_singleton_self run)
  refine ⟨closed 0 none before, run, closeRun run before.length after, second,
    afterRun before.length after, hslots, hsecond, ?_, ⟨?_, ?_⟩, ?_⟩
  · rw [ofNodes_append, hopen, ofNodesFrom_some]
  · rw [index_closeRun]
    exact Nat.lt_of_le_of_lt hends.1 hends.2
  · exact le_last_closeRun_of_leadingTexts_ne_nil hafter run before.length
  · have hblank : second.blank = (leadingTexts after).all isBlank := congrArg Prod.snd hmark
    rw [blank_closeRun, hblank]

/-! ## A node at the cut -/

/-- An element at the cut has **a slot of its own** between those of the two sides. -/
theorem ofNodes_insert_element (before after : List Node) (tag : String) (attributes : Attributes)
    (inner : List Node) : ofNodes (before ++ .element tag attributes inner :: after) =
      ofNodes before ++
      ⟨before.length, before.length, .element tag, false⟩ :: ofNodesFrom (before.length + 1)
      none after := by
  rw [ofNodes_append, ofNodes_eq_closed before, List.append_assoc]
  rfl

/-- Text put in at a cut **joins what is open** on the left, and the text that follows
on the right joins it. -/
theorem ofNodes_insert_text (before after : List Node) (s : String) :
    ofNodes (before ++ .text s :: after) = closed 0 none before ++
      closeRun (grow (openRun 0 none before) before.length s) (before.length + 1) after ::
        afterRun (before.length + 1) after := by
  rw [ofNodes_append, ofNodesFrom_text, ofNodesFrom_some]

/-- At an index of children there is **text on one side** at least,
comments left out. -/
def MeetsText (children : List Node) (i : Nat) : Prop :=
  leadingTexts (children.take i).reverse ≠ [] ∨ leadingTexts (children.drop i) ≠ []

/-- Text at a cut where it meets none has **a slot of its own** between those of
the two sides. -/
theorem marks_insert_text_of_apart (hbefore : leadingTexts before.reverse = [])
    (hafter : leadingTexts after = []) (s : String) :
    (ofNodes (before ++ .text s :: after)).map mark = (ofNodes before).map mark ++
      (.text, isBlank s) :: (ofNodesFrom before.length none after).map mark := by
  have hopen := openRun_eq_none_iff.mpr hbefore
  rw [ofNodes_insert_text, ofNodes_eq_closed before, hopen, closeRun_of_leadingTexts_eq_nil hafter,
    ofNodesFrom_of_leadingTexts_eq_nil hafter, marks_afterRun before.length (before.length + 1),
      List.map_append,
    List.map_cons, Option.toList_none, List.append_nil]
  rfl

/-- Text that meets text on one side of the cut **joins the run** there, and every other
slot keeps its mark. Counted as a token of its own it would stand beside the token of
that run. -/
theorem exists_insert_text_of_meet (h : leadingTexts before.reverse = [] ∨ leadingTexts after = [])
    (hmeets : leadingTexts before.reverse ≠ [] ∨ leadingTexts after ≠ []) (s : String) :
    ∃ front run longer back back', ofNodes (before ++ after) = front ++ run :: back ∧
      ofNodes (before ++ .text s :: after) = front ++ longer :: back' ∧
      run.token = .text ∧ longer.token = .text ∧ back'.map mark = back.map mark ∧
      (ofNodes before).map token ++ .text :: (ofNodesFrom before.length none after).map token =
        front.map token ++ .text :: .text :: back.map token := by
  rw [ofNodes_append_of_apart h, ofNodes_insert_text, ofNodes_eq_closed before]
  have hmarks := marks_afterRun (before.length + 1) before.length after
  cases hopen : openRun 0 none before with
  | none =>
      -- the new text opens the run that stands behind the cut
      have hafter : leadingTexts after ≠ [] :=
        hmeets.resolve_left fun hne => hne (openRun_eq_none_iff.mp hopen)
      obtain ⟨run, hslots, hmark⟩ := exists_ofNodesFrom_of_leadingTexts_ne_nil hafter before.length
      have htext : run.token = .text := congrArg Prod.fst hmark
      refine ⟨_, run, _, _, _, ?_, rfl, htext, token_closeRun _ _ _, hmarks, ?_⟩
      · rw [hslots, Option.toList_none, List.append_nil]
      · rw [hslots, Option.toList_none, List.append_nil, List.map_cons, htext]
  | some run =>
      -- the new text ends the run that stands before the cut
      have hafter := leadingTexts_eq_nil_of_openRun hopen h
      have hnone : ∀ before ∈ (none : Option Slot), before.token = .text := by simp
      have htext : run.token = .text := token_openRun hnone hopen
      have hlonger :
          (closeRun (grow (some run) before.length s) (before.length + 1) after).token = .text := by
        rw [token_closeRun]
        exact htext
      refine ⟨_, run, _, _, _, ?_, rfl, htext, hlonger, hmarks, ?_⟩
      · rw [ofNodesFrom_of_leadingTexts_eq_nil hafter, List.append_assoc]
        rfl
      · rw [ofNodesFrom_of_leadingTexts_eq_nil hafter, Option.toList_some, List.map_append,
          List.append_assoc, List.map_singleton, htext]
        rfl

/-! ## Layout at the cut -/

/-- Two texts are blank together exactly if each is. -/
theorem isBlank_append (x y : String) : isBlank (x ++ y) = (isBlank x && isBlank y) := by
  unfold isBlank
  rw [String.toList_append, List.all_append]

/-- What nodes add to an open run shows in the marks, and **of the run nothing but its
mark** counts. How long the run is, or where it began, is not seen. -/
theorem marks_ofNodesFrom_of_mark {run run' : Option Slot} (h : run.map mark = run'.map mark)
    (index index' : Nat) (ns : List Node) :
    (ofNodesFrom index run ns).map mark = (ofNodesFrom index' run' ns).map mark := by
  cases run with
  | none =>
      cases Option.map_eq_none_iff.mp h.symm
      exact marks_ofNodesFrom index index' ns
  | some run =>
      obtain ⟨run', rfl, hmark⟩ := Option.map_eq_some_iff.mp h.symm
      obtain ⟨htoken, hblank⟩ := Prod.mk.inj hmark
      rw [ofNodesFrom_some, ofNodesFrom_some, List.map_cons, List.map_cons, mark_closeRun,
        mark_closeRun, htoken, hblank, marks_afterRun index index']

/-- A comment **has no mark**. -/
theorem marks_insert_comment (before after : List Node) (s : String) :
    (ofNodes (before ++ .comment s :: after)).map mark = (ofNodes (before ++ after)).map mark := by
  rw [ofNodes_append, ofNodes_append, List.map_append, List.map_append]
  congr 1
  exact marks_ofNodesFrom_of_mark rfl _ _ after

/-- Text in **two pieces** is marked as in one. A run collects both of them, and it is
blank if both are. -/
theorem marks_split_text (before after : List Node) (x y : String) :
    (ofNodes (before ++ .text x :: .text y :: after)).map mark =
      (ofNodes (before ++ .text (x ++ y) :: after)).map mark := by
  rw [ofNodes_append, ofNodes_append, List.map_append, List.map_append, ofNodesFrom_text,
    ofNodesFrom_text, ofNodesFrom_text]
  congr 1
  refine marks_ofNodesFrom_of_mark ?_ _ _ after
  cases openRun 0 none before with
  | none =>
      show some (Token.text, isBlank x && isBlank y) = some (Token.text, isBlank (x ++ y))
      rw [isBlank_append]
  | some run =>
      show some (run.token, run.blank && isBlank x && isBlank y) =
        some (run.token, run.blank && isBlank (x ++ y))
      rw [isBlank_append, Bool.and_assoc]

/-- Blank text changes no mark **but those of blank runs**. It either joins a run, whose
mark stays as it was, or is a blank run by itself. -/
theorem marks_insert_blank (before after : List Node) {x : String} (hx : isBlank x = true) :
    ((ofNodes (before ++ .text x :: after)).map mark).filter (fun m => !m.2) =
      ((ofNodes (before ++ after)).map mark).filter (fun m => !m.2) := by
  rw [ofNodes_append, ofNodes_append, List.map_append, List.map_append, List.filter_append,
    List.filter_append, ofNodesFrom_text]
  congr 1
  cases openRun 0 none before with
  | some run =>
      congr 1
      refine marks_ofNodesFrom_of_mark ?_ _ _ after
      show some (run.token, run.blank && isBlank x) = some (run.token, run.blank)
      rw [hx, Bool.and_true]
  | none =>
      -- the new run is blank by itself: it goes with the text behind it, or is a blank run
      -- of its own
      have hrun : (closeRun (startRun before.length x) (before.length + 1) after).mark =
          (.text, (leadingTexts after).all isBlank) := by
        rw [mark_closeRun, startRun, hx, Bool.true_and]
      rw [grow, ofNodesFrom_some, List.map_cons, hrun,
        marks_afterRun (before.length + 1) before.length]
      by_cases hafter : leadingTexts after = []
      · rw [ofNodesFrom_of_leadingTexts_eq_nil hafter, hafter]
        rfl
      · obtain ⟨first, hslots, hfirst⟩ :=
          exists_ofNodesFrom_of_leadingTexts_ne_nil hafter before.length
        rw [hslots, List.map_cons, hfirst]

end TreeGrammar.Slot
