import OcScript.Proofs.Parse.Recovery

/-
  This file proves that tokens that are read without errors
  are read alike, whatever stands behind them in place of
  the end, and that this is read as on its own.

  Clean tokens write out their program, so nothing that
  stands behind them can go on with it: every item ends in a
  semicolon or a closing brace.  Only an else could, if the
  last item ends in a condition that has none.

  Key theorems include:
    * `OcScript.Token.endMarker_append`
    * `OcScript.Parsed.ofBody_append_of_clean`
    * `OcScript.Parsed.clean_front_is_kept`
-/

------------------------------------------------------------
-- Ends Behind Clean Tokens
------------------------------------------------------------

namespace OcScript

namespace Token

/- The first end marker stands behind what marks no end. -/
theorem endMarker_append
    {front : List Token}
    (hFront : ∀ t ∈ front, t.isEof = false)
    (back : List Token) :
    endMarker (front ++ back) = endMarker back := by
  have hFrom : fromEnd (front ++ back) = fromEnd back :=
    List.dropWhile_append_of_pos (by simpa using hFront)
  rw [endMarker, hFrom, endMarker]

end Token

namespace Parse

/- What starts with no else does so before its end. -/
theorem stops_else_beforeEnd
    {tokens : List Token}
    (hElse :
      ∀ t ∈ tokens.head?, t.kind ≠ .keyword .elseWord) :
    Stops isElse (Token.beforeEnd tokens) := by
  cases tokens with
  | nil =>
      exact stops_nil isElse
  | cons t rest =>
      have hKind : isElse t = false := by
        simpa [isElse, Token.isKeyword] using hElse t rfl
      by_cases hEnd : t.isEof = true
      · simp [Token.beforeEnd, hEnd]
      · simp [Token.beforeEnd, hEnd, hKind]

end Parse

end OcScript

------------------------------------------------------------
-- Clean Tokens in Front of Others
------------------------------------------------------------

namespace OcScript

namespace Parsed

open Parse (Stops isElse)

/-
  A clean body is read as on its own, and what stands behind
  it, too.  The end markers may differ, since no failure is
  blamed on the first.
-/
theorem ofBody_append_of_clean
    {eof : Token}
    {front : List Token}
    (hClean : (ofBody eof front).errors = [])
    (eof' : Token)
    {back : List Token}
    (hElse : Stops isElse back) :
    ofBody eof' (front ++ back) =
      ⟨(ofBody eof front).program ++
          (ofBody eof' back).program,
        (ofBody eof' back).errors⟩ := by
  rcases ofBody_sound hClean with ⟨hCanonical, hWrites⟩
  exact
    ofBody_append_of_writes eof' hCanonical hWrites hElse

/-
  Reading is compositional behind a clean front.  If tokens
  before an end marker are read without errors, then any
  tokens that start with no else can stand in place of the
  marker: their statements come behind those of the front,
  and their errors are all that is reported.
-/
theorem clean_front_is_kept
    (front : List Token)
    (hFront : ∀ t ∈ front, t.isEof = false)
    (eof : Token)
    (hEof : eof.isEof = true)
    (hClean : (ofTokens (front ++ [eof])).errors = [])
    (back : List Token)
    (hElse :
      ∀ t ∈ back.head?, t.kind ≠ .keyword .elseWord) :
    (ofTokens (front ++ back)).program =
        (ofTokens (front ++ [eof])).program ++
          (ofTokens back).program ∧
      (ofTokens (front ++ back)).errors =
        (ofTokens back).errors := by
  rw [ofTokens_append hFront hEof] at hClean ⊢
  have hBoth :
      ofTokens (front ++ back) =
        ofBody (Token.endMarker back)
          (front ++ Token.beforeEnd back) := by
    rw [← Token.endMarker_append hFront,
      ← Token.beforeEnd_append hFront]
    rfl
  have hBack :
      ofTokens back =
        ofBody (Token.endMarker back)
          (Token.beforeEnd back) :=
    rfl
  have hKept :=
    ofBody_append_of_clean hClean (Token.endMarker back)
      (Parse.stops_else_beforeEnd hElse)
  rw [hBoth, hBack, hKept]
  exact ⟨rfl, rfl⟩

/-
  A condition without an else, whose branch is a loop that
  ends in an assignment.
-/
def openCondition : List Token :=
  [⟨.keyword .ifWord, "se", 1⟩,
    ⟨.symbol .leftParen, "(", 1⟩,
    ⟨.identifier, "a", 1⟩,
    ⟨.symbol .rightParen, ")", 1⟩,
    ⟨.keyword .whileWord, "mentre", 1⟩,
    ⟨.symbol .leftParen, "(", 1⟩,
    ⟨.identifier, "b", 1⟩,
    ⟨.symbol .rightParen, ")", 1⟩,
    ⟨.identifier, "b", 2⟩,
    ⟨.symbol .equal, "=", 2⟩,
    ⟨.identifier, "a", 2⟩,
    ⟨.symbol .semicolon, ";", 2⟩]

/-
  A wrong target in a statement that starts with an operator
  and lacks its semicolon, with tokens behind its end.
-/
def brokenMinus : List Token :=
  [⟨.symbol .minus, "-", 3⟩,
    ⟨.identifier, "a", 3⟩,
    ⟨.symbol .equal, "=", 3⟩,
    ⟨.identifier, "b", 3⟩,
    Token.atEnd 3,
    ⟨.keyword .elseWord, "senon", 4⟩,
    Token.atEnd 4]

/- The operator does not go on with the assignment. -/
theorem clean_front_is_kept_brokenMinus :
    (ofTokens (openCondition ++ [Token.atEnd 2])).errors =
        [] ∧
      (ofTokens (openCondition ++ brokenMinus)).program =
        (ofTokens
            (openCondition ++ [Token.atEnd 2])).program ++
          [.skipped] ∧
      (ofTokens (openCondition ++ brokenMinus)).errors =
        [⟨⟨.symbol .equal, "=", 3⟩, .assignmentTarget⟩,
          ⟨Token.atEnd 3, .semicolonAfterExpression⟩] := by
  have hClean :
      (ofTokens (openCondition ++ [Token.atEnd 2])).errors =
        [] := by
    decide +kernel
  have hBack :
      ofTokens brokenMinus =
        ⟨[.skipped],
          [⟨⟨.symbol .equal, "=", 3⟩, .assignmentTarget⟩,
            ⟨Token.atEnd 3, .semicolonAfterExpression⟩]⟩ := by
    cbv
  have hKept :=
    clean_front_is_kept openCondition (by decide)
      (Token.atEnd 2) rfl hClean brokenMinus (by decide)
  rw [hBack] at hKept
  exact ⟨hClean, hKept⟩

end Parsed

end OcScript
