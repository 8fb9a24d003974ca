/-
The pieces of a document's text.

A document is cut into pieces from left to right: tags, end tags, character data between
them, character data marked as verbatim, comments, and what is skipped. A piece is cut
off by its opening alone, so the first fault is that of the first piece that does not
end. Every piece takes at least one character, which `length_of_next` says.
-/
import TreeGrammar.Failure
import TreeGrammar.Markup.Reference

set_option autoImplicit false

namespace TreeGrammar

/-- A piece of a document. -/
inductive Piece where
  /-- A tag: its name, the text of its attributes, and whether it is an element by
  itself. -/
  | tag (name attributes : List Char) (closed : Bool)
  /-- An end tag. -/
  | endTag (name : List Char)
  /-- Character data with references in it. -/
  | text (raw : List Char)
  /-- Character data without references. -/
  | verbatim (content : List Char)
  | comment (content : List Char)
  /-- A declaration or an instruction, of which nothing is kept. -/
  | skipped
deriving Repr

namespace Piece

/-- Space inside tags. -/
def isSpace (c : Char) : Bool := c == ' ' || c == '\t' || c == '\r' || c == '\n'

/-! ## Cutting -/

/-- What stands before and behind the first occurrence of a text. -/
def cutAt (stop : List Char) : List Char → Option (List Char × List Char)
  | [] => none
  | c :: rest =>
      if stop.isPrefixOf (c :: rest) then some ([], (c :: rest).drop stop.length)
      else (cutAt stop rest).map fun p => (c :: p.1, p.2)

/-- What follows the first occurrence of a text is **shorter**, as the text itself is
cut off too. -/
theorem length_of_cutAt {stop cs before after : List Char} (hstop : stop ≠ [])
    (h : cutAt stop cs = some (before, after)) : after.length < cs.length := by
  induction cs generalizing before with
  | nil => cases h
  | cons c rest ih =>
      unfold cutAt at h
      split at h
      · cases h
        have hpos := List.length_pos_iff.2 hstop
        rw [List.length_drop, List.length_cons]
        omega
      · exact Nat.lt_succ_of_lt (length_lt_of_map_cut h ih)

/-- What stands before and behind the first `>`; **without one, everything** stands
before it. -/
def cutAtEnd (cs : List Char) : List Char × List Char := (cutAt ['>'] cs).getD (cs, [])

theorem length_cutAtEnd_le (cs : List Char) : (cutAtEnd cs).2.length ≤ cs.length := by
  unfold cutAtEnd
  cases h : cutAt ['>'] cs with
  | none => exact Nat.zero_le _
  | some p => exact Nat.le_of_lt (length_of_cutAt (List.cons_ne_nil _ _) h)

/-- What stands before and behind the `>` that ends a tag: the first **outside quotes**. -/
def cutTag (quote : Option Char) : List Char → Option (List Char × List Char)
  | [] => none
  | c :: rest =>
      match quote with
      | some q =>
          (cutTag (if c = q then none else some q) rest).map fun p => (c :: p.1, p.2)
      | none =>
          if c = '>' then some ([], rest)
          else
            (cutTag (if c = '"' ∨ c = '\'' then some c else none) rest).map
              fun p => (c :: p.1, p.2)

theorem length_of_cutTag {quote : Option Char} {cs before after : List Char}
    (h : cutTag quote cs = some (before, after)) : after.length < cs.length := by
  induction cs generalizing quote before with
  | nil => cases h
  | cons c rest ih =>
      unfold cutTag at h
      split at h
      · exact Nat.lt_succ_of_lt (length_lt_of_map_cut h ih)
      · split at h
        · cases h
          exact Nat.lt_succ_self _
        · exact Nat.lt_succ_of_lt (length_lt_of_map_cut h ih)

/-- What stands before and behind the `>` that ends a document type: the first at which
as many `<` as `>` have been met. `depth` is by how many the former lead. -/
def cutDoctype (depth : Nat) : List Char → Option (List Char × List Char)
  | [] => none
  | c :: rest =>
      if c = '>' then
        match depth with
        | 0 => some ([], rest)
        | d + 1 => (cutDoctype d rest).map fun p => (c :: p.1, p.2)
      else
        (cutDoctype (if c = '<' then depth + 1 else depth) rest).map fun p => (c :: p.1, p.2)

theorem length_of_cutDoctype {depth : Nat} {cs before after : List Char}
    (h : cutDoctype depth cs = some (before, after)) : after.length < cs.length := by
  induction cs generalizing depth before with
  | nil => cases h
  | cons c rest ih =>
      unfold cutDoctype at h
      split at h
      · split at h
        · cases h
          exact Nat.lt_succ_self _
        · exact Nat.lt_succ_of_lt (length_lt_of_map_cut h ih)
      · exact Nat.lt_succ_of_lt (length_lt_of_map_cut h ih)

/-! ## The sorts of piece -/

/-- Text without the space at its end; text that is all space is left as it is. -/
def trimName (cs : List Char) : List Char :=
  match (cs.reverse.dropWhile isSpace).reverse with
  | [] => cs
  | trimmed => trimmed

/-- A tag from what stands between `<` and `>`. A slash at the end closes it; the name
runs up to the first space. -/
def ofTag (body : List Char) : Piece :=
  let closed := decide (body.getLast? = some '/')
  let inner := if closed then body.dropLast else body
  tag (inner.takeWhile fun c => !isSpace c) (inner.dropWhile fun c => !isSpace c) closed

/-- Whether what stands between `<?` and `>` is an instruction: it ends with another `?`
and is not that alone. -/
def isInstruction (body : List Char) : Bool :=
  decide (2 ≤ body.length) && decide (body.getLast? = some '?')

/-- The lower-case form of an ASCII letter. -/
def lowerASCII (c : Char) : Char :=
  if 'A' ≤ c ∧ c ≤ 'Z' then Char.ofNat (c.toNat + 32) else c

/-- What follows a keyword, which may be written in any mixture of cases. -/
def afterKeyword (keyword cs : List Char) : Option (List Char) :=
  if (cs.take keyword.length).map lowerASCII = keyword then some (cs.drop keyword.length) else none

/-- The piece that starts with `<!`, from what follows that. -/
def ofDeclaration : List Char → Except MarkupFault (Piece × List Char)
  | '-' :: '-' :: rest =>
      match cutAt "-->".toList rest with
      | none => .error .malformed
      | some (content, after) => .ok (comment content, after)
  | '[' :: rest =>
      match afterKeyword "cdata[".toList rest with
      | none => .error .malformed
      | some rest =>
          match cutAt "]]>".toList rest with
          | none => .error .malformed
          | some (content, after) => .ok (verbatim content, after)
  | cs =>
      match afterKeyword "doctype".toList cs with
      | none => .error .malformed
      | some rest =>
          match cutDoctype 0 rest with
          | none => .error .malformed
          | some (content, after) =>
              if content.all isSpace then .error .malformed else .ok (skipped, after)

/-- The **next piece** and what follows it; `none` at the end, for which a lone `<`
counts too. -/
def next : List Char → Except MarkupFault (Option (Piece × List Char))
  | [] => .ok none
  | c :: rest =>
      if c = '<' then
        match rest with
        | [] => .ok none
        | '/' :: rest =>
            let (name, after) := cutAtEnd rest
            .ok (some (endTag (trimName name), after))
        | '?' :: rest =>
            let (body, after) := cutAtEnd rest
            if isInstruction body then .ok (some (skipped, after)) else .error .malformed
        | '!' :: rest =>
            match ofDeclaration rest with
            | .error fault => .error fault
            | .ok (piece, after) => .ok (some (piece, after))
        | rest =>
            match cutTag none rest with
            | none => .error .malformed
            | some (body, after) => .ok (some (ofTag body, after))
      else
        .ok (some (text (c :: rest.takeWhile (· != '<')), rest.dropWhile (· != '<')))

theorem length_of_afterKeyword {keyword cs rest : List Char}
    (h : afterKeyword keyword cs = some rest) : rest.length ≤ cs.length := by
  unfold afterKeyword at h
  split at h
  · cases h
    exact (List.drop_suffix _ _).length_le
  · cases h

/-- A declaration takes **at least one character** behind its opening. Only the three
cases in which the text is cut give a piece; in each of them what follows is what
follows the cut. -/
theorem length_of_ofDeclaration {cs after : List Char} {piece : Piece}
    (h : ofDeclaration cs = .ok (piece, after)) : after.length < cs.length := by
  revert h
  fun_cases ofDeclaration cs with
  | case1 | case3 | case4 | case6 | case7 | case8 => nofun
  | case2 rest content after' hcut =>
      rintro ⟨⟩
      exact Nat.lt_add_right 2 (length_of_cutAt (by simp) hcut)
  | case5 rest more hkey content after' hcut =>
      rintro ⟨⟩
      have hlt := length_of_cutAt (by simp) hcut
      exact Nat.lt_succ_of_lt (Nat.lt_of_lt_of_le hlt (length_of_afterKeyword hkey))
  | case9 cs _ _ more hkey content after' hcut =>
      rintro ⟨⟩
      exact Nat.lt_of_lt_of_le (length_of_cutDoctype hcut) (length_of_afterKeyword hkey)

/-- A piece takes **at least one character**, so that a document is read in at most as
many steps as it has characters. -/
theorem length_of_next {cs after : List Char} {piece : Piece}
    (h : next cs = .ok (some (piece, after))) : after.length < cs.length := by
  revert h
  fun_cases next cs with
  | case1 | case2 | case5 | case6 | case8 => nofun
  | case3 rest name after' hcut | case4 rest name after' hcut =>
      rintro ⟨⟩
      have hle := length_cutAtEnd_le rest
      rw [hcut] at hle
      exact Nat.lt_succ_of_lt (Nat.lt_succ_of_le hle)
  | case7 rest piece' after' hdecl =>
      rintro ⟨⟩
      exact Nat.lt_add_right 2 (length_of_ofDeclaration hdecl)
  | case9 rest _ _ _ _ body after' hcut =>
      rintro ⟨⟩
      exact Nat.lt_succ_of_lt (length_of_cutTag hcut)
  | case10 c rest =>
      rintro ⟨⟩
      exact Nat.lt_succ_of_le (length_dropWhile_le _ rest)

end Piece

end TreeGrammar
