/-
Markup read back.

The pieces of written markup are met one after the other: escaped text up to the next
`<`, a comment up to its end, a tag up to its own, and the end tag that names the
innermost open element. A node that is written adds itself to what is being read and
nothing else, whatever follows it. Only text asks for more: there must be markup behind
it, at which it ends, and no text before it, which it would join.
-/
import Mathlib.Data.List.Chain
import Mathlib.Data.List.Infix
import TreeGrammar.Proofs.Markup.Tag

set_option autoImplicit false

namespace TreeGrammar

/-! ## Trees that can be written -/

namespace Node

/-- Whether the node is text. -/
def isText : Node → Bool
  | text _ => true
  | _ => false

/-- Nodes that may stand **side by side**: not both are text. -/
def NotBothText (n n' : Node) : Prop := ¬ (n.isText = true ∧ n'.isText = true)

instance (n n' : Node) : Decidable (NotBothText n n') := inferInstanceAs (Decidable (¬ _))

/-- A tree that **can be written**: its names are valid, no text in it is empty or
stands beside other text, and no comment has the end of a comment in it. -/
inductive Writable : Node → Prop
  | element {tag : String} {attributes : Attributes} {children : List Node}
      (htag : Name.isValid tag = true) (hkeys : ∀ key ∈ attributes.keys, Name.isValid key = true)
      (hchildren : ∀ n ∈ children, Writable n) (hapart : children.IsChain NotBothText) :
      Writable (.element tag attributes children)
  | text {s : String} (h : s ≠ "") : Writable (.text s)
  | comment {s : String} (h : ¬ "-->".toList <:+: s.toList) : Writable (.comment s)

end Node

/-! ## The pieces of written markup -/

namespace Piece

variable {rest : List Char}

theorem next_text {raw more : List Char} (hne : raw ≠ []) (hraw : '<' ∉ raw)
    (hrest : rest = '<' :: more) :
    next (raw ++ rest) = .ok (some (text raw, rest)) := by
  obtain ⟨c, raw, rfl⟩ := List.exists_cons_of_ne_nil hne
  rw [List.mem_cons, not_or] at hraw
  have hinside : ∀ d ∈ raw, (d != '<') = true :=
    fun d hd => bne_iff_ne.mpr fun heq => hraw.2 (heq ▸ hd)
  have hstop : ∀ d ∈ rest.head?, (d != '<') = false := by
    rw [hrest]
    rintro d ⟨⟩
    decide
  rw [List.cons_append, next.eq_def]
  dsimp only
  rw [if_neg (Ne.symm hraw.1), takeWhile_append_of_stop hinside hstop,
    dropWhile_append_of_stop hinside hstop]

/-- A comment ends at the **first** end of a comment behind its text, however many
hyphens the text ends with. -/
theorem cutAt_commentEnd {content : List Char} (h : ¬ "-->".toList <:+: content)
    (rest : List Char) : cutAt "-->".toList (content ++ "-->".toList ++ rest) =
      some (content, rest) := by
  induction content with
  | nil => rfl
  | cons c content ih =>
      have hlater : ¬ "-->".toList <:+: content :=
        fun hin => h (hin.trans (List.suffix_cons c content).isInfix)
      -- with fewer than three characters of the text left, the third of the end would
      -- be a hyphen
      have hhere : ("-->".toList.isPrefixOf (c :: content ++ "-->".toList ++ rest)) = false := by
        rw [Bool.eq_false_iff, ne_eq, List.isPrefixOf_iff_prefix]
        rintro ⟨tail, htail⟩
        match content with
        | [] =>
            simp only [List.cons_append, List.nil_append, String.reduceToList,
              List.cons.injEq] at htail
            exact absurd htail.2.2.1 (by decide)
        | [d] =>
            simp only [List.cons_append, List.nil_append, String.reduceToList,
              List.cons.injEq] at htail
            exact absurd htail.2.2.1 (by decide)
        | d :: d' :: content =>
            simp only [List.cons_append, List.nil_append, String.reduceToList,
              List.cons.injEq] at htail
            obtain ⟨rfl, rfl, rfl, -⟩ := htail
            exact h ⟨[], content, rfl⟩
      rw [List.cons_append, List.cons_append] at hhere ⊢
      rw [cutAt, hhere, ih hlater]
      rfl

/-- A comment is read to its first end, which is the one written, as its
text has none. -/
theorem next_comment {content : List Char} (h : ¬ "-->".toList <:+: content) (rest : List Char) :
    next ("<!--".toList ++ content ++ "-->".toList ++ rest) =
      .ok (some (comment content, rest)) := by
  have hcut := cutAt_commentEnd h rest
  show next ('<' :: '!' :: '-' :: '-' :: (content ++ "-->".toList ++ rest)) = _
  rw [next, if_pos rfl, ofDeclaration, hcut]

theorem trimName_of_forall {name : List Char} (hname : ∀ c ∈ name, isSpace c = false) :
    trimName name = name := by
  have hkeep : name.reverse.dropWhile isSpace = name.reverse := by
    cases hreverse : name.reverse with
    | nil => rfl
    | cons c rest =>
        have hc : c ∈ name := List.mem_reverse.mp (hreverse ▸ List.mem_cons_self ..)
        rw [List.dropWhile_cons_of_neg (by rw [hname c hc]; decide)]
  rw [trimName, hkeep, List.reverse_reverse]
  cases name <;> rfl

/-- An end tag is read with the name that was written. -/
theorem next_endTag {name : String} (hname : Name.isValid name = true) (rest : List Char) :
    next ("</".toList ++ name.toList ++ ['>'] ++ rest) = .ok (some (endTag name.toList, rest)) := by
  have hinside := Name.isInside_of_isValid hname
  have hend : '>' ∉ name.toList := fun hmem => Name.ne_of_isInside (hinside _ hmem) (by decide) rfl
  have htrim := trimName_of_forall fun c hc => Name.isSpace_of_isInside (hinside c hc)
  have hcut : cutAtEnd (name.toList ++ ['>'] ++ rest) = (name.toList, rest) := by
    rw [cutAtEnd, List.append_assoc, List.singleton_append, cutAt_quote hend]
    rfl
  show next ('<' :: '/' :: (name.toList ++ ['>'] ++ rest)) = _
  rw [next, if_pos rfl, hcut]
  dsimp only
  rw [htrim]

/-! ## Tags -/

variable {name : String} {attributes : Attributes}

/-- What a tag is written from: its name and its attributes. -/
def tagText (name : String) (attributes : Attributes) : List Char :=
  name.toList ++ attributes.entries.flatMap writeAttribute

/-- Nothing between the brackets of a written tag ends it early: names have no brackets
or quotes, and values are escaped and quoted. -/
theorem endsNoTag_tagText (hname : Name.isValid name = true)
    (hkeys : ∀ key ∈ attributes.keys, Name.isValid key = true) :
    EndsNoTag (tagText name attributes) := by
  have hplain : EndsNoTag name.toList := by
    refine endsNoTag_of_forall fun c hc => ?_
    exact Name.notMem_of_isInside (Name.isInside_of_isValid hname c hc) (by decide)
  refine hplain.append (endsNoTag_flatMap fun p hp => ?_)
  exact endsNoTag_writeAttribute (hkeys p.1 (List.mem_map_of_mem hp)) p.2

/-- Attributes end in a quote, so a tag with any of them **does not look empty**. A
slash there would close the tag. -/
theorem getLast?_append_writeAttributes {front : List Char} (h : front.getLast? ≠ some '/')
    (entries : List (String × String)) :
    (front ++ entries.flatMap writeAttribute).getLast? ≠ some '/' := by
  induction entries generalizing front with
  | nil => rwa [List.flatMap_nil, List.append_nil]
  | cons p entries ih =>
      rw [List.flatMap_cons, ← List.append_assoc]
      refine ih ?_
      rw [writeAttribute, ← List.append_assoc, List.getLast?_concat]
      decide

theorem getLast?_tagText (hname : Name.isValid name = true) (attributes : Attributes) :
    (tagText name attributes).getLast? ≠ some '/' := by
  refine getLast?_append_writeAttributes (fun hlast => ?_) attributes.entries
  have hinside := Name.isInside_of_isValid hname '/' (List.mem_of_getLast? hlast)
  exact Name.ne_of_isInside hinside (by decide) rfl

/-- A space stands before every attribute, which is where the name ends. -/
theorem head?_writeAttributes (entries : List (String × String)) :
    ∀ c ∈ (entries.flatMap writeAttribute).head?, isSpace c = true := by
  cases entries with
  | nil => intro c hc; cases hc
  | cons p entries =>
      rintro c ⟨⟩
      decide

/-- The next piece is the tag that is written, with whatever stands before its end. The
tag ends at the bracket that was written, as quotes keep all others inside values. -/
theorem next_tagText {finish : List Char} (hname : Name.isValid name = true)
    (hkeys : ∀ key ∈ attributes.keys, Name.isValid key = true) (hfinish : EndsNoTag finish)
    (rest : List Char) :
    next ('<' :: (tagText name attributes ++ finish) ++ '>' :: rest) =
      .ok (some (ofTag (tagText name attributes ++ finish), rest)) := by
  obtain ⟨c, more, hcons, hinitial⟩ := Name.exists_isInitial_of_isValid hname
  have hc : c ∉ ['/', '?', '!'] :=
    Name.notMem_of_isInside (Name.isInside_of_isInitial hinitial) (by decide)
  have hends := (endsNoTag_tagText hname hkeys).append hfinish
  have htext : tagText name attributes ++ finish =
      c :: (more ++ attributes.entries.flatMap writeAttribute ++ finish) := by
    rw [tagText, hcons, List.cons_append, List.cons_append]
  rw [htext] at hends ⊢
  exact next_tag hc hends rest

/-- A tag that does not end with a slash **opens** an element. -/
theorem next_openTag (hname : Name.isValid name = true)
    (hkeys : ∀ key ∈ attributes.keys, Name.isValid key = true) (rest : List Char) :
    next ('<' :: tagText name attributes ++ '>' :: rest) =
      .ok (some (tag name.toList (attributes.entries.flatMap writeAttribute) false, rest)) := by
  have hnext := next_tagText hname hkeys endsNoTag_nil rest
  have hopen :=
    ofTag_of_getLast? (fun c hc => Name.isSpace_of_isInside (Name.isInside_of_isValid hname c hc))
    (head?_writeAttributes attributes.entries) (getLast?_tagText hname attributes)
  rw [List.append_nil] at hnext
  rw [hnext, tagText, hopen]

/-- A tag that ends with a slash is **an element by itself**. -/
theorem next_closedTag (hname : Name.isValid name = true)
    (hkeys : ∀ key ∈ attributes.keys, Name.isValid key = true) (rest : List Char) :
    next ('<' :: tagText name attributes ++ "/>".toList ++ rest) =
      .ok (some (tag name.toList (attributes.entries.flatMap writeAttribute) true, rest)) := by
  have hslash : EndsNoTag ['/'] := endsNoTag_singleton (by decide)
  have hnext := next_tagText hname hkeys hslash rest
  have hclosed :=
    ofTag_concat (fun c hc => Name.isSpace_of_isInside (Name.isInside_of_isValid hname c hc))
    (head?_writeAttributes attributes.entries)
  have hwritten : '<' :: tagText name attributes ++ "/>".toList ++ rest =
      '<' :: (tagText name attributes ++ ['/']) ++ '>' :: rest := by
    simp only [List.cons_append, List.append_assoc]
    rfl
  rw [hwritten, hnext, tagText, hclosed]

end Piece

/-! ## Nodes added one by one -/

namespace Reading

variable {r : Reading} {cs rest : List Char} {piece : Piece}

/-- Once the next piece is known, it is added and the rest is read. The reader is
followed piece by piece with this. -/
theorem addAll_of_next (h : Piece.next cs = .ok (some (piece, rest))) :
    r.addAll cs = (r.add piece).bind fun r => r.addAll rest := by
  rw [addAll]
  split
  · next heq =>
    rw [h] at heq
    cases heq
  · next heq =>
    rw [h] at heq
    cases heq
  · next heq =>
    rw [h] at heq
    cases heq
    cases r.add piece <;> rfl

theorem addAll_nil (r : Reading) : r.addAll [] = .ok r := by
  rw [addAll]
  rfl

/-- Adds a whole **node** to what is being read. -/
def addWhole (r : Reading) : Node → Except MarkupFault Reading
  | .element tag attributes children => r.addElement { tag, attributes, children }
  | .text s => .ok (r.addText s)
  | .comment s => .ok (r.addNode (.comment s))

/-- Inside an element a node that does not join text before it becomes **the last
child**. Text beside text would be joined to it, which is why two texts in a row cannot
be read back. -/
theorem addWhole_cons {e : Element} {stack : List Element} {root : Option Element} {n : Node}
    (h : ∀ before ∈ e.children.head?, before.NotBothText n) :
    addWhole { stack := e :: stack, root } n =
      .ok { stack := { e with children := n :: e.children } :: stack, root } := by
  cases n with
  | element tag attributes children => rfl
  | comment s => rfl
  | text s =>
      have hjoin : Node.consText s e.children = .text s :: e.children := by
        cases hchildren : e.children with
        | nil => rfl
        | cons before children =>
            cases before with
            | element => rfl
            | comment => rfl
            | text s' =>
                rw [hchildren] at h
                exact absurd ⟨rfl, rfl⟩ (h (.text s') rfl)
      rw [← hjoin]
      rfl

end Reading

namespace Node

/-- A node **is read back**: what is written for it adds the node, and what follows is
read after that. Text needs markup behind it. -/
def ReadsBack (n : Node) : Prop :=
  ∀ (r : Reading) (rest : List Char), (n.isText = true → ∃ more, rest = '<' :: more) →
    r.addAll (n.write ++ rest) = (r.addWhole n).bind fun r => r.addAll rest

/-- Everything but text begins with a bracket when it is written, so text that stands
before it ends there. -/
theorem exists_write_eq_of_isText_eq_false {n : Node} (h : n.isText = false) :
    ∃ more, n.write = '<' :: more := by
  match n with
  | .element _ _ [] => exact ⟨_, rfl⟩
  | .element _ _ (_ :: _) => exact ⟨_, rfl⟩
  | .comment _ => exact ⟨_, rfl⟩
  | .text _ => cases h

/-- Text that is not empty is read back as it was, its references resolved again. -/
theorem readsBack_text {s : String} (h : s ≠ "") : ReadsBack (.text s) := by
  intro r rest hrest
  obtain ⟨more, hmore⟩ := hrest rfl
  have hne : escapeText s.toList ≠ [] :=
    fun hnil => h (String.toList_eq_nil_iff.mp (escapeText_eq_nil_iff.mp hnil))
  have hplain : '<' ∉ escapeText s.toList := notMem_escapeText (by decide) s.toList
  rw [write, Reading.addAll_of_next (Piece.next_text hne hplain hmore), Reading.add,
    resolveReferences?_escapeText]
  simp only [String.ofList_toList]
  rfl

/-- A comment is read back if its text cannot end it. -/
theorem readsBack_comment {s : String} (h : ¬ "-->".toList <:+: s.toList) :
    ReadsBack (.comment s) := by
  intro r rest _
  rw [write, Reading.addAll_of_next (Piece.next_comment h rest), Reading.add, String.ofList_toList]
  rfl

/-- The children of an open element are **taken up** one after the other, up to
the markup behind them. By induction on the children, each of which is read back
by itself. -/
theorem addAll_writeAll {e : Element} {stack : List Element} {root : Option Element}
    {ns : List Node} {rest more : List Char} (hread : ∀ n ∈ ns, n.ReadsBack)
    (hapart : (e.children.reverse ++ ns).IsChain NotBothText) (hrest : rest = '<' :: more) :
    Reading.addAll { stack := e :: stack, root } (writeAll ns ++ rest) =
      Reading.addAll { stack := { e with children := ns.reverse ++ e.children } :: stack, root }
        rest := by
  -- the children taken up and those still to come are the same list all the way, so they
  -- stay apart
  induction ns generalizing e with
  | nil => rfl
  | cons n ns ih =>
      rw [List.forall_mem_cons] at hread
      have hbefore : ∀ before ∈ e.children.head?, before.NotBothText n := by
        intro before hmem
        rw [← List.getLast?_reverse] at hmem
        exact (List.isChain_append.mp hapart).2.2 before hmem n rfl
      have hbehind : n.isText = true → ∃ more, writeAll ns ++ rest = '<' :: more := by
        intro htext
        cases ns with
        | nil => exact ⟨more, hrest⟩
        | cons next ns =>
            have hnext : n.NotBothText next :=
              (List.isChain_cons_cons.mp (List.isChain_append.mp hapart).2.1).1
            have hmarkup : next.isText = false := Bool.eq_false_iff.mpr fun h => hnext ⟨htext, h⟩
            obtain ⟨more, hmore⟩ := exists_write_eq_of_isText_eq_false hmarkup
            exact ⟨more ++ writeAll ns ++ rest, by rw [writeAll, hmore]; rfl⟩
      have hlater :
          ({ e with children := n :: e.children }.children.reverse ++ ns).IsChain NotBothText := by
        rw [List.reverse_cons, List.append_assoc, List.singleton_append]
        exact hapart
      rw [writeAll, List.append_assoc, hread.1 _ _ hbehind, Reading.addWhole_cons hbefore]
      show Reading.addAll _ _ = _
      rw [ih hread.2 hlater, List.reverse_cons, List.append_assoc, List.singleton_append]

/-- An element is read back if its children are. That no two of these are text next to
each other is needed: they would be read as one. -/
theorem readsBack_element {tag : String} {attributes : Attributes} {children : List Node}
    (htag : Name.isValid tag = true) (hkeys : ∀ key ∈ attributes.keys, Name.isValid key = true)
    (hread : ∀ n ∈ children, n.ReadsBack) (hapart : children.IsChain NotBothText) :
    ReadsBack (.element tag attributes children) := by
  intro r rest _
  have hattributes := readAttributes_write hkeys
  -- without children one tag is written, otherwise two with the children between them
  cases children with
  | nil =>
      have hnext := Piece.next_closedTag htag hkeys rest
      have hadd : r.add (.tag tag.toList (attributes.entries.flatMap writeAttribute) true) =
          r.addElement { tag, attributes } := by
        rw [Reading.add, hattributes, String.ofList_toList]
        rfl
      show r.addAll ('<' :: Piece.tagText tag attributes ++ "/>".toList ++ rest) = _
      rw [Reading.addAll_of_next hnext, hadd]
      rfl
  | cons child children =>
      let inside := writeAll (child :: children)
      let finish := "</".toList ++ tag.toList ++ ['>'] ++ rest
      have hnext := Piece.next_openTag htag hkeys (inside ++ finish)
      have hadd : r.add (.tag tag.toList (attributes.entries.flatMap writeAttribute) false) =
          .ok { r with stack := { tag, attributes } :: r.stack } := by
        rw [Reading.add, hattributes, String.ofList_toList]
        rfl
      have hwritten : write (.element tag attributes (child :: children)) ++ rest =
          '<' :: Piece.tagText tag attributes ++ '>' :: (inside ++ finish) := by
        simp only [write, Piece.tagText, inside, finish, writeAll, List.append_assoc,
          List.cons_append]
      let done : Element := ⟨tag, attributes, (child :: children).reverse ++ []⟩
      -- the stack has the open element on top, and its children are collected in reverse
      have hchildren : Reading.addAll { r with stack := { tag, attributes } :: r.stack }
          (inside ++ finish) = Reading.addAll { r with stack := done :: r.stack } finish :=
            addAll_writeAll hread hapart rfl
      have hend : Reading.add { r with stack := done :: r.stack } (.endTag tag.toList) =
          r.addElement { tag, attributes, children := child :: children } := by
        rw [Reading.add]
        simp only [done, if_true, List.append_nil, List.reverse_reverse]
      rw [hwritten, Reading.addAll_of_next hnext, hadd]
      show Reading.addAll _ (inside ++ finish) = _
      rw [hchildren, Reading.addAll_of_next (Piece.next_endTag htag rest), hend]
      rfl

/-- **Every writable node is read back**, by induction on the node: each constructor has
its own lemma above. -/
theorem Writable.readsBack {n : Node} (h : n.Writable) : n.ReadsBack := by
  induction h with
  | element htag hkeys _ hapart hread => exact readsBack_element htag hkeys hread hapart
  | text h => exact readsBack_text h
  | comment h => exact readsBack_comment h

end Node

/-! ## Documents -/

theorem dropMark_of_ne {c : Char} (h : c ≠ '\ufeff') (rest : List Char) :
    dropMark (c :: rest) = c :: rest := by
  rw [dropMark]
  rintro _ heq
  exact h (List.cons.inj heq).1

/-- A document whose root is read back is **that root and nothing else**. There is
nothing before it and nothing behind it. -/
theorem ofMarkup_of_readsBack {e : Element} (h : e.node.ReadsBack) :
    Element.ofMarkup e.render = .ok e := by
  obtain ⟨more, hmore⟩ := Node.exists_write_eq_of_isText_eq_false (n := e.node) rfl
  have hread : Reading.addAll {} e.node.write = .ok { root := some e } := by
    have hall := h {} [] (fun htext => by cases htext)
    rw [List.append_nil] at hall
    rw [hall]
    exact Reading.addAll_nil _
  have hmark : dropMark e.node.write = e.node.write := by
    rw [hmore]
    exact dropMark_of_ne (by decide) more
  rw [Element.ofMarkup, Element.render, Node.render, String.toList_ofList, readMarkup, hmark, hread]
  rfl

/-- A tree that can be written is **read back** from its markup as it was. Its root is
read back as every writable node is. -/
theorem Element.ofMarkup_render {e : Element} (h : e.node.Writable) :
    Element.ofMarkup e.render = .ok e :=
  ofMarkup_of_readsBack h.readsBack

/-- A note in which every character that needs a reference occurs, with a comment that
ends with hyphens. -/
def note : Element where
  tag := "doc:note"
  attributes := .ofList [("to", "<Ann> & \"Bob\""), ("xml:lang", ""), ("at", "5 o'clock\n\t\u00e9")]
  children :=
    [.text "1 < 2 && '&amp;' > \"]]>\"\r\n", .comment "->--", .element "br" .empty [],
      .text " \u2028𝔸", .comment ""]

theorem ofMarkup_render_note : note.node.Writable ∧ Element.ofMarkup note.render = .ok note := by
  have hbreak : (Node.element "br" .empty []).Writable :=
    .element (by decide) (by decide) (by simp) (List.isChain_nil)
  have hchildren : ∀ n ∈ note.children, n.Writable := by
    simp only [note, List.forall_mem_cons]
    exact ⟨.text (by decide), .comment (by decide), hbreak, .text (by decide),
      .comment (by decide), by simp⟩
  have hnote : note.node.Writable := .element (by decide) (by decide) hchildren (by decide)
  exact ⟨hnote, Element.ofMarkup_render hnote⟩

end TreeGrammar
