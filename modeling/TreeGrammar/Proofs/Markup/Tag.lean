/-
Tags cut and read as they were written.

No character of a name ends a tag, opens a quote or is space, and a value stands between
quotes that its escaped text does not contain. So a tag that is written from names ends
at its own `>`, its name ends where the attributes begin, and the attributes are read
back one by one, in their order.
-/
import TreeGrammar.Markup.Reader
import TreeGrammar.Name
import TreeGrammar.Proofs.Markup.Escaping
import TreeGrammar.Proofs.Table

set_option autoImplicit false

namespace TreeGrammar

/-! ## The characters of a name -/

namespace Name

/-- Whether a character may **occur** in a name. -/
def isInside (c : Char) : Bool := isFollowing c || c == ':'

theorem isInside_of_isInitial {c : Char} (h : isInitial c = true) : isInside c = true := by
  simp only [isInside, isFollowing, h, Bool.true_or]

theorem isInside_of_isPlain {cs : List Char} (h : isPlain cs = true) :
    ∀ c ∈ cs, isInside c = true := by
  cases cs with
  | nil => intro c hc; cases hc
  | cons first rest =>
      rw [isPlain, Bool.and_eq_true, List.all_eq_true] at h
      intro c hc
      rcases List.mem_cons.mp hc with rfl | hc
      · exact isInside_of_isInitial h.1
      · rw [isInside, h.2 c hc, Bool.true_or]

theorem exists_isInitial_of_isPlain {cs : List Char} (h : isPlain cs = true) :
    ∃ c rest, cs = c :: rest ∧ isInitial c = true := by
  cases cs with
  | nil => cases h
  | cons c rest =>
      rw [isPlain, Bool.and_eq_true] at h
      exact ⟨c, rest, rfl, h.1⟩

/-- Where a name is cut: it is a plain part, or **two with a colon** between them. -/
theorem isPlain_or_exists_of_isValidChars {cs : List Char} (h : isValidChars cs = true) :
    isPlain cs = true ∨ ∃ first second, cs = first ++ ':' :: second ∧ isPlain first = true ∧
      isPlain second = true := by
  have hsplit := List.takeWhile_append_dropWhile (p := (· != ':')) (l := cs)
  rw [isValidChars] at h
  split at h
  · exact .inl h
  · next c second hdrop =>
    rw [Bool.and_eq_true] at h
    have hcolon : c = ':' := by
      have hhead := List.head?_dropWhile_not (· != ':') cs
      rw [hdrop] at hhead
      simpa using hhead
    rw [hdrop, hcolon] at hsplit
    exact .inr ⟨_, second, hsplit.symm, h.1, h.2⟩

/-- All characters of a valid name are characters of names, the colon of a prefix
with them. -/
theorem isInside_of_isValid {name : String} (h : isValid name = true) :
    ∀ c ∈ name.toList, isInside c = true := by
  rcases isPlain_or_exists_of_isValidChars h with hplain | ⟨first, second, hsplit, hfirst, hsecond⟩
  · exact isInside_of_isPlain hplain
  · rw [hsplit]
    intro c hc
    rcases List.mem_append.mp hc with hc | hc
    · exact isInside_of_isPlain hfirst c hc
    · rcases List.mem_cons.mp hc with rfl | hc
      · rfl
      · exact isInside_of_isPlain hsecond c hc

/-- A valid name begins with a character that may begin one; in particular it is
not empty. -/
theorem exists_isInitial_of_isValid {name : String} (h : isValid name = true) :
    ∃ c rest, name.toList = c :: rest ∧ isInitial c = true := by
  rcases isPlain_or_exists_of_isValidChars h with hplain | ⟨first, second, hsplit, hfirst, -⟩
  · exact exists_isInitial_of_isPlain hplain
  · obtain ⟨c, rest, rfl, hc⟩ := exists_isInitial_of_isPlain hfirst
    exact ⟨c, rest ++ ':' :: second, hsplit, hc⟩

/-- No character of a name is one of the signs that markup is made of. The lemmas that
follow say this of single signs. -/
theorem ne_of_isInside {c d : Char} (h : isInside c = true) (hd : isInside d = false) : c ≠ d := by
  rintro rfl
  rw [h] at hd
  cases hd

theorem notMem_of_isInside {c : Char} {l : List Char} (h : isInside c = true)
    (hl : l.any isInside = false) : c ∉ l :=
  fun hmem => List.any_eq_false.mp hl c hmem h

/-- No character of a name is white space, so a name ends where white space begins. -/
theorem isSpace_of_isInside {c : Char} (h : isInside c = true) : Piece.isSpace c = false := by
  have hspaces : c ∉ [' ', '\t', '\r', '\n'] := notMem_of_isInside h (by decide)
  simpa [Piece.isSpace, and_assoc] using hspaces

end Name

/-! ## Where a tag ends -/

namespace Piece

/-- Text in which **no tag ends**: a tag that begins with it ends where
the rest does. -/
def EndsNoTag (inside : List Char) : Prop :=
  ∀ rest, cutTag none (inside ++ rest) = (cutTag none rest).map fun p => (inside ++ p.1, p.2)

variable {inside later rest : List Char} {q : Char}

theorem endsNoTag_nil : EndsNoTag [] := fun rest => by
  cases h : cutTag none rest <;> simp [h]

/-- Two parts neither of which ends a tag **do not end it together**: each leaves no
quote open. -/
theorem EndsNoTag.append (h : EndsNoTag inside) (hlater : EndsNoTag later) :
    EndsNoTag (inside ++ later) := by
  intro rest
  rw [List.append_assoc, h (later ++ rest), hlater rest, Option.map_map]
  simp only [Function.comp_def, List.append_assoc]

/-- A character that is neither a bracket nor a quote ends nothing. -/
theorem endsNoTag_singleton {c : Char} (h : c ∉ ['>', '"', '\'']) : EndsNoTag [c] := by
  intro rest
  simp only [List.mem_cons, List.not_mem_nil, or_false, not_or] at h
  rw [List.singleton_append, cutTag]
  simp only [h, if_false, or_false]
  rfl

theorem endsNoTag_of_forall (h : ∀ c ∈ inside, c ∉ ['>', '"', '\'']) : EndsNoTag inside := by
  induction inside with
  | nil => exact endsNoTag_nil
  | cons c inside ih =>
      rw [List.forall_mem_cons] at h
      exact (endsNoTag_singleton h.1).append (ih h.2)

theorem endsNoTag_flatMap {α : Type} {f : α → List Char} {l : List α}
    (h : ∀ a ∈ l, EndsNoTag (f a)) : EndsNoTag (l.flatMap f) := by
  induction l with
  | nil => exact endsNoTag_nil
  | cons a l ih =>
      rw [List.forall_mem_cons] at h
      rw [List.flatMap_cons]
      exact h.1.append (ih h.2)

/-- Inside a quote the tag goes on to the quote that ends it, whatever brackets
there are. -/
theorem cutTag_some_append (h : q ∉ inside) (rest : List Char) :
    cutTag (some q) (inside ++ q :: rest) = (cutTag none rest).map
      fun p => (inside ++ q :: p.1, p.2) := by
  induction inside with
  | nil =>
      rw [List.nil_append, cutTag]
      simp only [if_true, List.nil_append]
  | cons c inside ih =>
      rw [List.mem_cons, not_or] at h
      rw [List.cons_append, cutTag]
      simp only [Ne.symm h.1, if_false]
      rw [ih h.2, Option.map_map]
      rfl

/-- No tag ends between **quotes**. -/
theorem endsNoTag_quoted (h : '"' ∉ inside) : EndsNoTag ('"' :: inside ++ ['"']) := by
  intro rest
  rw [List.append_assoc, List.cons_append, List.singleton_append, cutTag]
  simp only [show ('"' : Char) ≠ '>' by decide, if_false, true_or, if_true]
  rw [cutTag_some_append h, Option.map_map]
  simp only [Function.comp_def, List.cons_append, List.append_assoc, List.nil_append]

/-- So a tag is **cut at the bracket that was written** for its end. -/
theorem cutTag_append_of_endsNoTag (h : EndsNoTag inside) (rest : List Char) :
    cutTag none (inside ++ '>' :: rest) = some (inside, rest) := by
  rw [h ('>' :: rest), cutTag]
  simp only [if_true, Option.map_some, List.append_nil]

/-- A tag is the next piece, **up to its own end**. -/
theorem next_tag {c : Char} (hc : c ∉ ['/', '?', '!']) (h : EndsNoTag (c :: inside))
    (rest : List Char) :
    next ('<' :: c :: inside ++ '>' :: rest) = .ok (some (ofTag (c :: inside), rest)) := by
  have hcut : cutTag none (c :: (inside ++ '>' :: rest)) = some (c :: inside, rest) :=
    cutTag_append_of_endsNoTag h rest
  simp only [List.mem_cons, List.not_mem_nil, or_false, not_or] at hc
  have hne {d : Char} (hd : c ≠ d) (tail : List Char) : c :: (inside ++ '>' :: rest) ≠ d :: tail :=
    fun heq =>
    hd (List.cons.inj heq).1
  rw [List.cons_append, List.cons_append, next, if_pos rfl, hcut]
  · exact List.cons_ne_nil c _
  · exact hne hc.1
  · exact hne hc.2.1
  · exact hne hc.2.2

/-! ## The name and the attributes of a tag -/

variable {name attributes : List Char}

/-- The name of a tag is cut off before its attributes. -/
theorem takeWhile_name (hname : ∀ c ∈ name, isSpace c = false)
    (hattributes : ∀ c ∈ attributes.head?, isSpace c = true) :
    (name ++ attributes).takeWhile (fun c => !isSpace c) = name ∧
      (name ++ attributes).dropWhile (fun c => !isSpace c) = attributes := by
  have hinside : ∀ c ∈ name, (!isSpace c) = true := fun c hc => by rw [hname c hc]; rfl
  have hstop : ∀ c ∈ attributes.head?, (!isSpace c) = false := fun c hc => by
    rw [hattributes c hc]; rfl
  exact ⟨takeWhile_append_of_stop hinside hstop, dropWhile_append_of_stop hinside hstop⟩

/-- A tag that does not end in a slash is a start tag, with its name and what
follows it. -/
theorem ofTag_of_getLast? (hname : ∀ c ∈ name, isSpace c = false)
    (hattributes : ∀ c ∈ attributes.head?, isSpace c = true)
    (hlast : (name ++ attributes).getLast? ≠ some '/') :
    ofTag (name ++ attributes) = tag name attributes false := by
  obtain ⟨htake, hdrop⟩ := takeWhile_name hname hattributes
  simp only [ofTag, decide_eq_false hlast, Bool.false_eq_true, if_false, htake, hdrop]

/-- A slash at the end **closes** the tag, and is no part of it. -/
theorem ofTag_concat (hname : ∀ c ∈ name, isSpace c = false)
    (hattributes : ∀ c ∈ attributes.head?, isSpace c = true) :
    ofTag (name ++ attributes ++ ['/']) = tag name attributes true := by
  obtain ⟨htake, hdrop⟩ := takeWhile_name hname hattributes
  have hlast : (name ++ attributes ++ ['/']).getLast? = some '/' := List.getLast?_concat ..
  simp only [ofTag, decide_eq_true hlast, if_true, List.dropLast_concat, htake, hdrop]

end Piece

/-! ## Attributes -/

variable {key value : String} {before : Attributes}

/-- A value is cut at the quote that ends it, which it does not contain. -/
theorem cutAt_quote {inside : List Char} {q : Char} (h : q ∉ inside) (rest : List Char) :
    Piece.cutAt [q] (inside ++ q :: rest) = some (inside, rest) := by
  induction inside with
  | nil =>
      rw [List.nil_append, Piece.cutAt, if_pos (by simp)]
      rfl
  | cons c inside ih =>
      rw [List.mem_cons, not_or] at h
      rw [List.cons_append, Piece.cutAt, if_neg (by simpa using h.1), ih h.2]
      rfl

/-- A written attribute ends no tag: its value is inside quotes, and escaped so that it
has none itself. -/
theorem endsNoTag_writeAttribute (hkey : Name.isValid key = true) (value : String) :
    Piece.EndsNoTag (writeAttribute (key, value)) := by
  have hname : Piece.EndsNoTag (' ' :: key.toList ++ ['=']) := by
    refine Piece.endsNoTag_of_forall fun c hc => ?_
    rw [List.mem_append, List.mem_cons, List.mem_singleton] at hc
    rcases hc with (rfl | hc) | rfl
    · decide
    · exact Name.notMem_of_isInside (Name.isInside_of_isValid hkey c hc) (by decide)
    · decide
  have hquoted := Piece.endsNoTag_quoted (notMem_escapeText (d := '"') (by decide) value.toList)
  have hwritten : writeAttribute (key, value) =
      ' ' :: key.toList ++ ['='] ++ ('"' :: escapeText value.toList ++ ['"']) := by
    simp only [writeAttribute, List.append_assoc, List.cons_append]
    rfl
  rw [hwritten]
  exact hname.append hquoted

/-- An attribute is **cut off as it was written**, with its key and its value
still escaped. -/
theorem cutAttribute_writeAttribute {c : Char} {name : List Char}
    (hname : ∀ d ∈ name, Name.isInside d = true) (value : String) (rest : List Char) :
    cutAttribute c (name ++ "=\"".toList ++ escapeText value.toList ++ '"' :: rest) =
      some (c :: name, escapeText value.toList, rest) := by
  have hinside : ∀ d ∈ name, isInsideKey d = true := by
    intro d hd
    have hequals : d ≠ '=' := Name.ne_of_isInside (hname d hd) (by decide)
    rw [isInsideKey, Name.isSpace_of_isInside (hname d hd), bne_iff_ne.mpr hequals]
    rfl
  have hstop :
      ∀ d ∈ ('=' :: '"' :: (escapeText value.toList ++ '"' :: rest)).head?,
        isInsideKey d = false := by
    rintro d ⟨⟩
    decide
  -- the key stops at the equals sign, and the escaped value has no quote
  have hvalue := cutAt_quote (notMem_escapeText (d := '"') (by decide) value.toList) rest
  have hwhole : name ++ "=\"".toList ++ escapeText value.toList ++ '"' :: rest =
      name ++ '=' :: '"' :: (escapeText value.toList ++ '"' :: rest) := by
    simp only [List.append_assoc]
    rfl
  rw [hwhole, cutAttribute, takeWhile_append_of_stop hinside hstop,
    dropWhile_append_of_stop hinside hstop]
  show (Piece.cutAt ['"'] (escapeText value.toList ++ '"' :: rest)).map _ = _
  rw [hvalue]
  rfl

/-- An attribute as it is written is read **first**, and the rest after it. -/
theorem readAttributes_writeAttribute_append (hkey : Name.isValid key = true)
    (hnew : key ∉ before.keys) (value : String) (rest : List Char) :
    readAttributes before (writeAttribute (key, value) ++ rest) = readAttributes
      (before.insert key value) rest := by
  obtain ⟨c, name, hname, hinitial⟩ := Name.exists_isInitial_of_isValid hkey
  have hinside := Name.isInside_of_isValid hkey
  rw [hname, List.forall_mem_cons] at hinside
  have hspace : Piece.isSpace c = false := Name.isSpace_of_isInside hinside.1
  have hwritten : (writeAttribute (key, value) ++ rest).dropWhile Piece.isSpace =
      c :: (name ++ "=\"".toList ++ escapeText value.toList ++ '"' :: rest) := by
    simp only [writeAttribute, hname, List.append_assoc, List.cons_append, List.nil_append]
    rw [List.dropWhile_cons_of_pos (by decide), List.dropWhile_cons_of_neg (by rw [hspace]; decide)]
  -- the space before the attribute is skipped, then its key and its value are cut off
  have hcut := cutAttribute_writeAttribute (c := c) hinside.2 value rest
  have hkeyList : String.ofList (c :: name) = key := by rw [← hname, String.ofList_toList]
  rw [readAttributes]
  split
  · next hnil =>
    rw [hwritten] at hnil
    cases hnil
  · next hcons =>
    rw [hwritten] at hcons
    obtain ⟨rfl, rfl⟩ := List.cons.inj hcons
    split
    · next hnone =>
      rw [hcut] at hnone
      cases hnone
    · next hsome =>
      rw [hcut] at hsome
      cases hsome
      rw [hkeyList, (before.contains_eq_false_iff key).mpr hnew, resolveReferences?_escapeText]
      simp only [Bool.false_eq_true, if_false, String.ofList_toList]

/-- Attributes are **put in** one by one, in the order in which they are written. -/
theorem readAttributes_flatMap (before : Attributes) {entries : List (String × String)}
    (hkeys : ∀ p ∈ entries, Name.isValid p.1 = true)
    (hnodup : (before.keys ++ entries.map Prod.fst).Nodup) :
    readAttributes before (entries.flatMap writeAttribute) =
      .ok (entries.foldl (fun t p => t.insert p.1 p.2) before) := by
  induction entries generalizing before with
  | nil =>
      rw [List.flatMap_nil, readAttributes]
      rfl
  | cons p entries ih =>
      obtain ⟨key, value⟩ := p
      rw [List.forall_mem_cons] at hkeys
      rw [List.map_cons] at hnodup
      have hnew : key ∉ before.keys := fun hmem =>
        (List.nodup_append.mp hnodup).2.2 key hmem key (List.mem_cons_self ..) rfl
      have hrest : ((before.insert key value).keys ++ entries.map Prod.fst).Nodup := by
        rw [OrderedTable.keys_insert, if_neg hnew, List.append_assoc]
        exact hnodup
      rw [List.flatMap_cons, readAttributes_writeAttribute_append hkeys.1 hnew, ih _ hkeys.2 hrest]
      rfl

/-- Attributes with valid names are **read as they were written**. -/
theorem readAttributes_write {attributes : Attributes}
    (hkeys : ∀ key ∈ attributes.keys, Name.isValid key = true) :
    readAttributes .empty (attributes.entries.flatMap writeAttribute) = .ok attributes := by
  have hvalid : ∀ p ∈ attributes.entries, Name.isValid p.1 = true := fun p hp =>
    hkeys p.1 (List.mem_map_of_mem hp)
  have hread := readAttributes_flatMap .empty hvalid attributes.keys_nodup
  have hsame : OrderedTable.ofList attributes.entries = attributes :=
    OrderedTable.eq_of_entries_eq (OrderedTable.entries_ofList attributes.keys_nodup)
  rw [hread, ← OrderedTable.ofList, hsame]

end TreeGrammar
