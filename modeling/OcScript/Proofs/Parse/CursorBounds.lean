import OcScript.Proofs.Parse.CursorReads

/-
  This file proves that the cursor never leaves the tokens
  up to the first end marker, and that walks end.

  Key definitions include:
    * `OcScript.Cursor.Within`

  Key theorems include:
    * `OcScript.Cursor.Within.exists_facing`
    * `OcScript.Walk.declaration_moves`
    * `OcScript.Walk.items_ends`
    * `OcScript.Walk.program_stays_before_end`
-/

------------------------------------------------------------
-- Cursors Before the First End Marker
------------------------------------------------------------

namespace OcScript

open Token (EndMarked Unread beforeEnd fromEnd endMarker)

namespace Cursor

/-
  The cursor stands in the tokens at an index of at most
  `last`, and was never at a larger one.
-/
structure Within
    (tokens : List Token)
    (last : Nat)
    (c : Cursor) :
    Prop where
  tokens_eq : c.tokens = tokens
  place_le : c.place ≤ c.farthest
  farthest_le : c.farthest ≤ last

variable {tokens left rest : List Token}

theorem placeOf_le
    (tokens left : List Token) :
    placeOf tokens left ≤ (beforeEnd tokens).length :=
  Nat.sub_le _ _

/- A cursor that faces fewer tokens is further on. -/
theorem placeOf_lt_of_length_lt
    (hUnread : Unread tokens left)
    (hLess : rest.length < left.length) :
    placeOf tokens left < placeOf tokens rest := by
  have hLength := hUnread.isSuffix.length_le
  unfold placeOf
  omega

theorem placeOf_le_of_length_le
    (hLess : rest.length ≤ left.length) :
    placeOf tokens left ≤ placeOf tokens rest := by
  unfold placeOf
  omega

theorem within_facing
    (left : List Token)
    {farthest : Nat}
    (hFarthest : farthest ≤ (beforeEnd tokens).length)
    (reports : List ParseError) :
    (facing tokens left farthest reports).Within tokens
      (beforeEnd tokens).length where
  tokens_eq := rfl
  place_le := Nat.le_max_right _ _
  farthest_le :=
    Nat.max_le.mpr ⟨hFarthest, placeOf_le tokens left⟩

/- Every cursor up to the end faces some tokens left. -/
theorem Within.exists_facing
    {c : Cursor}
    (hMarked : EndMarked tokens)
    (hWithin : c.Within tokens (beforeEnd tokens).length) :
    ∃ left,
      Unread tokens left ∧
        left.length = (beforeEnd tokens).length - c.place ∧
        c = facing tokens left c.farthest c.reports := by
  have hPlace :=
    Nat.le_trans hWithin.place_le hWithin.farthest_le
  let left := (beforeEnd tokens).drop c.place
  have hLength :
      left.length = (beforeEnd tokens).length - c.place :=
    List.length_drop
  have hPlaceOf : placeOf tokens left = c.place := by
    rw [placeOf, hLength]
    omega
  refine
    ⟨left, ⟨hMarked, List.drop_suffix _ _⟩, hLength, ?_⟩
  simp only [facing, hPlaceOf,
    Nat.max_eq_left hWithin.place_le]
  rw [← hWithin.tokens_eq]

end Cursor

end OcScript

------------------------------------------------------------
-- Walks That End
------------------------------------------------------------

namespace OcScript

open Token (EndMarked Unread beforeEnd fromEnd endMarker)
open Cursor (facing placeOf)

/- Declarations are read up to a closing brace or the end. -/
theorem Parse.items_stops
    (eof : Token)
    (tokens : List Token) :
    ∀ t ∈ (items eof tokens).val.rest.head?,
      t.isSymbol .rightBrace = true := by
  induction tokens using length_induction with
  | step tokens ih =>
      cases tokens with
      | nil =>
          rw [val_items_nil]
          intro t hHead
          cases hHead
      | cons t rest =>
          rw [val_items_cons]
          by_cases hBrace : t.isSymbol .rightBrace = true
          · rw [if_pos hBrace]
            rintro _ ⟨⟩
            exact hBrace
          · rw [if_neg hBrace]
            have hLength :=
              (declaration eof (t :: rest)).property
            exact
              ih _ (Nat.lt_of_le_of_lt hLength
                (Nat.lt_succ_self _))

/- A program has no more statements than tokens. -/
theorem Parsed.length_program_le
    (eof : Token)
    (tokens : List Token) :
    (ofBody eof tokens).program.length ≤ tokens.length := by
  induction tokens using Parse.length_induction with
  | step tokens ih =>
      cases tokens with
      | nil =>
          rw [ofBody_nil]
          exact Nat.le_refl 0
      | cons t rest =>
          have hLength :=
            (Parse.declaration eof (t :: rest)).property
          have hOthers :=
            ih _ (Nat.lt_of_le_of_lt hLength
              (Nat.lt_succ_self _))
          rw [ofBody_cons]
          exact
            Nat.succ_le_succ (Nat.le_trans hOthers hLength)

namespace Walk

variable {tokens : List Token}
variable (hMarked : EndMarked tokens)

include hMarked

/- Before the end, a declaration moves the cursor on. -/
theorem declaration_moves
    {allowance : Nat}
    (hAllowance :
      9 * (beforeEnd tokens).length + 11 ≤ allowance)
    {c : Cursor}
    (hWithin : c.Within tokens (beforeEnd tokens).length)
    (hPlace : c.place < (beforeEnd tokens).length) :
    ∃ s after,
      declaration allowance c = .ok s after ∧
        after.Within tokens (beforeEnd tokens).length ∧
        c.place < after.place := by
  rcases hWithin.exists_facing hMarked with
    ⟨left, hUnread, hLeft, hFacing⟩
  cases left with
  | nil =>
      rw [List.length_nil] at hLeft
      omega
  | cons t rest =>
      let d :=
        (Parse.declaration (endMarker tokens)
          (t :: rest)).val
      have hLength : d.rest.length ≤ rest.length :=
        (Parse.declaration (endMarker tokens)
          (t :: rest)).property
      have hEnough :
          9 * (t :: rest).length + 11 ≤ allowance := by
        omega
      have hFollows :=
        follows_declaration
          (follows_statements tokens (t :: rest)).statement
          hEnough hUnread
      have hEnds := hFollows.2 c.farthest c.reports
      rw [← hFacing] at hEnds
      refine
        ⟨d.value,
          facing tokens d.rest c.farthest
            (c.reports ++ d.reports), hEnds, ?_, ?_⟩
      · exact
          Cursor.within_facing d.rest hWithin.farthest_le _
      · rw [hFacing]
        exact
          Cursor.placeOf_lt_of_length_lt hUnread
            (Nat.lt_succ_of_le hLength)

/- Declarations are read up to a closing brace or the end. -/
theorem items_ends
    {allowance : Nat}
    (hAllowance :
      9 * (beforeEnd tokens).length + 12 ≤ allowance)
    {c : Cursor}
    (hWithin : c.Within tokens (beforeEnd tokens).length) :
    ∃ body after t,
      items allowance c = .ok body after ∧
        after.Within tokens (beforeEnd tokens).length ∧
        c.place ≤ after.place ∧
        tokens[after.place]? = some t ∧
        (t.isSymbol .rightBrace = true ∨
          t.isEof = true) := by
  rcases hWithin.exists_facing hMarked with
    ⟨left, hUnread, hLeft, hFacing⟩
  let d := (Parse.items (endMarker tokens) left).val
  have hEnough : 9 * left.length + 12 ≤ allowance := by
    omega
  have hFollows :=
    (follows_statements tokens left).items allowance hEnough
      hUnread
  have hUnreadRest : Unread tokens d.rest :=
    ⟨hMarked, hFollows.1.trans hUnread.isSuffix⟩
  have hLength : d.rest.length ≤ left.length :=
    hFollows.1.length_le
  have hEnds := hFollows.2 c.farthest c.reports
  rw [← hFacing] at hEnds
  have hStops :
      ∀ t ∈ d.rest.head?, t.isSymbol .rightBrace = true :=
    Parse.items_stops (endMarker tokens) left
  refine
    ⟨d.value,
      facing tokens d.rest c.farthest
        (c.reports ++ d.reports),
      d.rest.headD (endMarker tokens), hEnds, ?_, ?_, ?_,
      ?_⟩
  · exact Cursor.within_facing d.rest hWithin.farthest_le _
  · rw [hFacing]
    exact Cursor.placeOf_le_of_length_le hLength
  · exact hUnreadRest.getElem?_placeOf
  · cases hRest : d.rest with
    | nil =>
        exact .inr (Token.isEof_endMarker tokens)
    | cons t rest =>
        rw [hRest] at hStops
        exact .inl (hStops t rfl)

end Walk

end OcScript

------------------------------------------------------------
-- Programs
------------------------------------------------------------

namespace OcScript

open Token (EndMarked Unread beforeEnd fromEnd endMarker)
open Cursor (facing placeOf)

/- The first end marker stands behind the tokens before it. -/
theorem Token.EndMarked.isLeast_length_beforeEnd
    {tokens : List Token}
    (hMarked : EndMarked tokens) :
    IsLeast {i | ∃ t ∈ tokens[i]?, t.isEof = true}
      (beforeEnd tokens).length := by
  have hUnread : Unread tokens [] :=
    ⟨hMarked, List.nil_suffix⟩
  refine ⟨?_, ?_⟩
  · exact
      ⟨endMarker tokens, hUnread.getElem?_placeOf,
        Token.isEof_endMarker tokens⟩
  · rintro i ⟨t, hToken, hEof⟩
    by_contra hLess
    rw [Nat.not_le] at hLess
    rcases hMarked.exists_append with ⟨after, hTokens⟩
    rw [hTokens, List.getElem?_append_left hLess] at hToken
    have hNot :=
      Token.isEof_of_mem_beforeEnd
        (List.mem_of_getElem? hToken)
    rw [hEof] at hNot
    cases hNot

/- What stands behind the first end marker is not read. -/
theorem Parsed.ofTokens_take
    {tokens : List Token}
    (hMarked : EndMarked tokens) :
    ofTokens (tokens.take ((beforeEnd tokens).length + 1)) =
      ofTokens tokens := by
  rcases hMarked.exists_append with ⟨after, hTokens⟩
  have hMarker := Token.isEof_endMarker tokens
  have hBefore :
      ∀ t ∈ beforeEnd tokens, t.isEof = false :=
    fun _ => Token.isEof_of_mem_beforeEnd
  generalize endMarker tokens = eof at hTokens hMarker
  generalize beforeEnd tokens = body at hTokens hBefore ⊢
  subst hTokens
  rw [List.take_length_add_append, List.take_succ_cons,
    List.take_zero, ofTokens_append hBefore hMarker,
    ofTokens_append hBefore hMarker]

namespace Walk

/-
  Reading a program ends, and the cursor stays where tokens
  are, from the start up to the first end marker, at which
  it ends.  Looking at no token, and more nested calls than
  a multiple of the tokens before the end, would have
  stopped the walk.  From wherever the cursor can be, each
  declaration moves it on, read or skipped, and declarations
  are read up to a closing brace or an end marker.  So there
  are no more statements than tokens before the first end
  marker, and what stands behind it makes no difference.
-/
theorem program_stays_before_end
    (tokens : List Token)
    (hMarked : EndMarked tokens) :
    let parsed := Parsed.ofTokens tokens
    let last := (beforeEnd tokens).length
    IsLeast {i | ∃ t ∈ tokens[i]?, t.isEof = true} last ∧
      (∀ allowance,
        9 * last + 12 ≤ allowance →
        program allowance (.start tokens) =
            .ok parsed.program
              ⟨tokens, last, last, parsed.errors⟩ ∧
          (∀ c : Cursor,
            c.Within tokens last →
            c.place < last →
            ∃ s after,
              declaration allowance c = .ok s after ∧
                after.Within tokens last ∧
                c.place < after.place) ∧
          ∀ c : Cursor,
            c.Within tokens last →
            ∃ body after t,
              items allowance c = .ok body after ∧
                after.Within tokens last ∧
                c.place ≤ after.place ∧
                tokens[after.place]? = some t ∧
                (t.isSymbol .rightBrace = true ∨
                  t.isEof = true)) ∧
      parsed.program.length ≤ last ∧
      Parsed.ofTokens (tokens.take (last + 1)) = parsed := by
  intro parsed last
  have hParsed :
      parsed =
        Parsed.ofBody (endMarker tokens) (beforeEnd tokens) :=
    rfl
  refine
    ⟨hMarked.isLeast_length_beforeEnd, ?_, ?_,
      Parsed.ofTokens_take hMarked⟩
  · intro allowance hAllowance
    refine ⟨?_, ?_, ?_⟩
    · have hUnread : Unread tokens (beforeEnd tokens) :=
        ⟨hMarked, List.suffix_refl _⟩
      have hStart :
          Cursor.start tokens =
            facing tokens (beforeEnd tokens) 0 [] := by
        simp [Cursor.start, facing, placeOf]
      have hFollows := follows_program hAllowance hUnread
      rw [hStart, hFollows.2 0 [], ← hParsed]
      simp [outcome, Parsed.recovered, Recovered.reading,
        facing, placeOf, last]
    · intro c hWithin hPlace
      exact
        declaration_moves hMarked
          (Nat.le_of_succ_le hAllowance) hWithin hPlace
    · intro c hWithin
      exact items_ends hMarked hAllowance hWithin
  · exact Parsed.length_program_le _ _

/-
  The tokens of `{ est ; { ⊣ } ⊣`, where `⊣` marks the end:
  the value to print and both closing braces are missed, the
  braces at the first end marker.
-/
def openBlocks : List Token :=
  [⟨.symbol .leftBrace, "\x7b", 1⟩,
    ⟨.keyword .printWord, "est", 1⟩,
    ⟨.symbol .semicolon, ";", 1⟩,
    ⟨.symbol .leftBrace, "\x7b", 2⟩, ⟨.eof, "", 2⟩,
    ⟨.symbol .rightBrace, "\x7d", 3⟩, ⟨.eof, "", 3⟩]

/- The cursor stops at the first of the two end markers. -/
theorem program_stays_before_end_openBlocks :
    let errors : List ParseError :=
      [⟨⟨.symbol .semicolon, ";", 1⟩, .expression⟩,
        ⟨⟨.eof, "", 2⟩, .closingBrace⟩,
        ⟨⟨.eof, "", 2⟩, .closingBrace⟩]
    let innerBlock : Cursor := ⟨openBlocks, 3, 3, []⟩
    EndMarked openBlocks ∧
      program 48 (.start openBlocks) =
        .ok [.skipped] ⟨openBlocks, 4, 4, errors⟩ ∧
      Parsed.ofTokens (openBlocks.take 5) =
        ⟨[.skipped], errors⟩ ∧
      ∃ s after,
        declaration 48 innerBlock = .ok s after ∧
          3 < after.place := by
  intro errors innerBlock
  have hMarked : EndMarked openBlocks :=
    ⟨⟨.eof, "", 3⟩, rfl, rfl⟩
  have hRun :
      program 48 (.start openBlocks) =
        .ok [.skipped] ⟨openBlocks, 4, 4, errors⟩ :=
    rfl
  rcases program_stays_before_end openBlocks hMarked with
    ⟨_, hEnds, _, hCut⟩
  rcases hEnds 48 (Nat.le_refl 48) with
    ⟨hProgram, hDeclaration, _⟩
  have hParsed :
      Parsed.ofTokens openBlocks = ⟨[.skipped], errors⟩ := by
    rw [hRun] at hProgram
    injection hProgram with hStatements hCursor
    injection hCursor with _ _ _ hErrors
    rw [hStatements, hErrors]
  have hWithin : innerBlock.Within openBlocks 4 :=
    ⟨rfl, Nat.le_refl 3, Nat.le_succ 3⟩
  rcases
      hDeclaration innerBlock hWithin (Nat.lt_succ_self 3)
    with ⟨s, after, hOk, _, hMoved⟩
  exact
    ⟨hMarked, hRun, hCut.trans hParsed, s, after, hOk,
      hMoved⟩

end Walk

end OcScript
