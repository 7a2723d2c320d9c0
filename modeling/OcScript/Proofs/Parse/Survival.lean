import OcScript.Proofs.Parse.Extension
import OcScript.Proofs.Parse.Soundness

/-
  This file proves when a well-formed statement survives a
  malformed one before it.

  A failure inside the malformed statement is recovered from
  before the keyword that starts the well-formed one at the
  latest, so that it is read as on its own.  A failure at
  the end is blamed on that very keyword instead.  Recovery
  then skips the keyword, and the well-formed statement is
  lost.

  Key definitions include:
    * `OcScript.Parsed.append`
    * `OcScript.Parsed.Survives`
    * `OcScript.Parsed.IsLost`

  Key theorems include:
    * `OcScript.Parsed.survives_or_isLost`
    * `OcScript.Parsed.last_statement_survives_iff`
    * `OcScript.Parsed.last_statement_lost`
-/

------------------------------------------------------------
-- Bodies Read Side by Side
------------------------------------------------------------

namespace OcScript

namespace Parsed

open Parse (OpensAnew isPlain)

/- One program with all its errors, and then another. -/
def append
    (front back : Parsed) :
    Parsed :=
  ⟨front.program ++ back.program,
    front.errors ++ back.errors⟩

/-
  All errors in the front are at its tokens, and the back is
  read behind it as on its own.
-/
def Survives
    (eof eof' : Token)
    (front back : List Token) : Prop :=
  (∀ e ∈ (ofBody eof front).errors, e.token ∈ front) ∧
    ofBody eof' (front ++ back) =
      (ofBody eof front).append (ofBody eof' back)

/-
  The front ends in a failure that, with the back behind it,
  is blamed on the first token of the back.  Reading goes on
  somewhere inside of the back.
-/
def IsLost
    (eof eof' : Token)
    (front back : List Token) : Prop :=
  ∃ program errors cause,
    ofBody eof front =
        ⟨program ++ [.skipped], errors ++ [⟨eof, cause⟩]⟩ ∧
      ofBody eof' (front ++ back) =
        append
          ⟨program ++ [.skipped],
            errors ++ [⟨back.headD eof', cause⟩]⟩
          (ofBody eof' (Parse.resume back))

variable {eof eof' : Token}
variable {back : List Token}

section Cons

variable {t : Token}
variable {rest left : List Token}
variable {value : Stmt}
variable {reports : List ParseError}
variable
  (hFirst :
    (Parse.declaration eof (t :: rest)).val =
      ⟨value, reports, left⟩)
variable
  (hLonger :
    (Parse.declaration eof' (t :: rest ++ back)).val =
      ⟨value, reports, left ++ back⟩)

include hFirst hLonger

/- The back survives a declaration that ends before it. -/
theorem Survives.cons
    (hReports : ∀ e ∈ reports, e.token ∈ t :: rest)
    (hLeft : left <:+ t :: rest)
    (hOthers : Survives eof eof' left back) :
    Survives eof eof' (t :: rest) back := by
  rcases hOthers with ⟨hErrors, hRead⟩
  rw [Survives, ofBody_cons, hFirst, List.cons_append,
    ofBody_cons, ← List.cons_append, hLonger]
  refine ⟨?_, ?_⟩
  · rw [List.forall_mem_append]
    exact
      ⟨hReports, fun e hMem =>
        hLeft.mem (hErrors e hMem)⟩
  · simp [hRead, append]

theorem IsLost.cons
    (hOthers : IsLost eof eof' left back) :
    IsLost eof eof' (t :: rest) back := by
  rcases hOthers with ⟨program, errors, cause, hAlone, hRead⟩
  refine ⟨value :: program, reports ++ errors, cause, ?_, ?_⟩
  · rw [ofBody_cons, hFirst]
    simp [hAlone]
  · rw [List.cons_append, ofBody_cons, ← List.cons_append,
      hLonger]
    simp [hRead, append]

end Cons

/-
  Behind plain tokens, what starts with a keyword of a
  statement survives or is lost.
-/
theorem survives_or_isLost
    (eof eof' : Token)
    (hBack : OpensAnew back)
    {front : List Token}
    (hPlain : ∀ t ∈ front, isPlain t = true) :
    Survives eof eof' front back ∨
      IsLost eof eof' front back := by
  induction front using Parse.length_induction with
  | step front ih =>
      cases front with
      | nil =>
          refine Or.inl ⟨?_, ?_⟩ <;>
            simp [append]
      | cons t rest =>
          have hHead := hPlain t (List.mem_cons_self ..)
          have hInside :=
            Parse.declaration_stays eof t rest
          have hLength :=
            (Parse.declaration eof (t :: rest)).property
          rcases Parse.declaration_append_cases hBack eof eof'
              hHead rest with
            ⟨value, reports, left, hFirst, hLonger,
              hReports⟩ |
            ⟨reports, cause, hFirst, hLonger⟩
          · rw [hFirst] at hInside hLength
            have hLeft : left <:+ t :: rest := hInside.rest
            have hOthers :=
              ih left
                (Nat.lt_of_le_of_lt hLength
                  (Nat.lt_succ_self _))
                (fun s hMem => hPlain s (hLeft.mem hMem))
            rcases hOthers with hSurvives | hLost
            · exact
                Or.inl
                  (hSurvives.cons hFirst hLonger hReports
                    hLeft)
            · exact Or.inr (hLost.cons hFirst hLonger)
          · refine Or.inr ⟨[], reports, cause, ?_, ?_⟩
            · rw [ofBody_cons, hFirst]
              simp
            · rw [List.cons_append, ofBody_cons,
                ← List.cons_append, hLonger]
              simp [append]

end Parsed

end OcScript

------------------------------------------------------------
-- The Last Statement
------------------------------------------------------------

namespace OcScript

namespace Parsed

open Parse (OpensAnew isPlain newStatementKinds)
open Token (beforeEnd endMarker)

/- The last statement is written by some of the tokens. -/
theorem length_slots_le_of_getLast?
    {program : Program}
    {w : Stmt}
    (hLast : program.getLast? = some w)
    {tokens : List Token}
    (hWrites : Writes (Stmt.slotsAll program) tokens) :
    w.slots.length ≤ tokens.length := by
  rcases List.getLast?_eq_some_iff.mp hLast with ⟨init, rfl⟩
  have hLength := hWrites.length_eq
  rw [Stmt.slotsAll_append, List.length_append] at hLength
  simp only [Stmt.slotsAll, List.append_nil] at hLength
  omega

/-
  A statement is not the last one that is read from a proper
  end part of the tokens that write it.
-/
theorem getLast?_resume_ne
    {w : Stmt}
    {t : Token}
    {rest : List Token}
    (hWrites : Writes w.slots (t :: rest))
    {eof : Token}
    (hClean :
      (ofBody eof (Parse.resume (t :: rest))).errors = []) :
    (ofBody eof
      (Parse.resume (t :: rest))).program.getLast? ≠
        some w := by
  intro hLast
  have hShort :=
    length_slots_le_of_getLast? hLast (ofBody_sound hClean).2
  have hSkipped := Parse.length_resume_le (t :: rest)
  have hLength := hWrites.length_eq
  simp only [List.length_cons] at hLength hSkipped
  omega

/- What is lost is not the last statement of a program. -/
theorem IsLost.getLast?_ne
    {eof eof' : Token}
    {front back : List Token}
    {w : Stmt}
    (hLost : IsLost eof eof' front back)
    (hBack : OpensAnew back)
    (hCanonical : w.Canonical)
    (hWrites : Writes w.slots back)
    (hOne : (ofBody eof' (front ++ back)).errors.length = 1) :
    (ofBody eof' (front ++ back)).program.getLast? ≠
      some w := by
  rcases hBack.exists_cons with ⟨t, rest, rfl, _⟩
  rcases hLost with ⟨program, errors, cause, _, hRead⟩
  rw [hRead] at hOne ⊢
  have hClean :
      (ofBody eof' (Parse.resume (t :: rest))).errors =
        [] := by
    simp only [append, List.length_append,
      List.length_singleton] at hOne
    exact List.eq_nil_of_length_eq_zero (by omega)
  have hOther := getLast?_resume_ne hWrites hClean
  intro hLast
  simp only [append, List.getLast?_append,
    List.getLast?_singleton] at hLast
  cases hEnd :
      (ofBody eof'
        (Parse.resume (t :: rest))).program.getLast? with
  | none =>
      rw [hEnd] at hLast
      cases hLast
      exact hCanonical
  | some last =>
      rw [hEnd] at hLast hOther
      exact hOther hLast

/- What is lost fails at the end, and not before it. -/
theorem IsLost.not_inside
    {eof eof' : Token}
    (hEof : eof.isEof = true)
    {front back : List Token}
    (hFront : ∀ t ∈ front, t.isEof = false)
    (hLost : IsLost eof eof' front back) :
    ¬ ∀ e ∈ (ofBody eof front).errors, e.token ∈ front := by
  intro hInside
  rcases hLost with ⟨program, errors, cause, hEnds, _⟩
  rw [hEnds] at hInside
  have hMem : eof ∈ front :=
    hInside ⟨eof, cause⟩
      (List.mem_append_right _ (List.mem_singleton_self _))
  cases (hFront eof hMem).symm.trans hEof

/- What starts a statement stands before the end. -/
theorem opensAnew_beforeEnd
    {tokens : List Token}
    (hOpens : OpensAnew tokens) :
    OpensAnew (beforeEnd tokens) := by
  rcases hOpens.exists_cons with ⟨t, rest, rfl, hKind⟩
  have hMarks : t.isEof = false := by
    rw [Token.isEof, decide_eq_false_iff_not]
    intro hEof
    rw [hEof] at hKind
    simp [newStatementKinds] at hKind
  refine ⟨t, ?_, hKind⟩
  simp [beforeEnd, hMarks]

/-
  A well-formed statement behind a malformed one is read,
  with no more than the one error, just if that error is at
  a token of the malformed statement and not at its end.
-/
theorem last_statement_survives_iff
    (malformed wellFormed : List Token)
    (w : Stmt)
    (end₁ end₂ end₃ : Token)
    (hEnd₁ : end₁.isEof = true)
    (hEnd₂ : end₂.isEof = true)
    (hEnd₃ : end₃.isEof = true)
    (hMalformed :
      ∀ t ∈ malformed,
        t.kind ∉
          [.eof, .symbol .leftBrace, .symbol .rightBrace,
            .keyword .ifWord, .keyword .whileWord])
    (hOne :
      (ofTokens (malformed ++ [end₁])).errors.length = 1)
    (hOpens :
      ∃ t ∈ wellFormed.head?,
        t.kind ∈
          [TokenKind.keyword .varWord, .keyword .ifWord,
            .keyword .whileWord, .keyword .printWord])
    (hClean :
      ofTokens (wellFormed ++ [end₂]) = ⟨[w], []⟩) :
    ((ofTokens
          (malformed ++ wellFormed ++
            [end₃])).errors.length = 1 ∧
        (ofTokens
          (malformed ++ wellFormed ++
            [end₃])).program.getLast? = some w) ↔
      ∀ e ∈ (ofTokens (malformed ++ [end₁])).errors,
        e.token ∈ malformed := by
  have hBefore : ∀ t ∈ malformed, t.isEof = false := by
    intro t hMem
    have hKind := hMalformed t hMem
    simp only [List.mem_cons, not_or] at hKind
    simpa [Token.isEof] using hKind.1
  have hPlain : ∀ t ∈ malformed, isPlain t = true := by
    intro t hMem
    have hKind := hMalformed t hMem
    simp only [List.mem_cons, List.not_mem_nil, or_false,
      not_or] at hKind
    simp [isPlain, hKind]
  have hBack := opensAnew_beforeEnd hOpens
  rw [ofTokens_append_marker _ hEnd₂] at hClean
  have hSound := ofBody_sound (congrArg errors hClean)
  rw [hClean] at hSound
  rcases hSound with ⟨hCanonical, hWrites⟩
  rw [ofTokens_append hBefore hEnd₁] at hOne ⊢
  rw [ofTokens_append_marker _ hEnd₃,
    Token.beforeEnd_append hBefore]
  generalize
    endMarker (malformed ++ wellFormed ++ [end₃]) = end₄
  have hRead :
      ofBody end₄ (beforeEnd wellFormed) = ⟨[w], []⟩ :=
    ofBody_complete end₄ hCanonical hWrites
  rcases survives_or_isLost end₁ end₄ hBack hPlain with
    hSurvives | hLost
  · refine iff_of_true ?_ hSurvives.1
    rw [hSurvives.2, hRead]
    simp [append, hOne]
  · have hSlots : Writes w.slots (beforeEnd wellFormed) := by
      simpa [Stmt.slotsAll] using hWrites
    refine iff_of_false ?_ ?_
    · rintro ⟨hSingle, hLast⟩
      exact
        hLost.getLast?_ne hBack hCanonical.1 hSlots hSingle
          hLast
    · exact hLost.not_inside hEnd₁ hBefore

/- A declaration without a name. -/
def unnamed : List Token :=
  [⟨.keyword .varWord, "var", 1⟩,
    ⟨.symbol .equal, "=", 1⟩,
    ⟨.identifier, "a", 1⟩]

/- A loop that prints. -/
def printingLoop : List Token :=
  [⟨.keyword .whileWord, "mentre", 2⟩,
    ⟨.symbol .leftParen, "(", 2⟩,
    ⟨.identifier, "a", 2⟩,
    ⟨.symbol .rightParen, ")", 2⟩,
    ⟨.keyword .printWord, "est", 2⟩,
    ⟨.identifier, "b", 2⟩,
    ⟨.symbol .semicolon, ";", 2⟩]

/- The loop as it is read. -/
def printingLoopStmt : Stmt :=
  .whileDo (.var ⟨.identifier, "a", 2⟩)
    (.print ⟨.keyword .printWord, "est", 2⟩
      (.var ⟨.identifier, "b", 2⟩))

theorem last_statement_survives_iff_unnamed :
    (ofTokens (unnamed ++ [Token.atEnd 1])).errors =
        [⟨⟨.symbol .equal, "=", 1⟩, .variableName⟩] ∧
      ofTokens (printingLoop ++ [Token.atEnd 2]) =
        ⟨[printingLoopStmt], []⟩ ∧
      (ofTokens
          (unnamed ++ printingLoop ++
            [Token.atEnd 2])).errors.length = 1 ∧
      (ofTokens
          (unnamed ++ printingLoop ++
            [Token.atEnd 2])).program.getLast? =
        some printingLoopStmt := by
  have hErrors :
      (ofTokens (unnamed ++ [Token.atEnd 1])).errors =
        [⟨⟨.symbol .equal, "=", 1⟩, .variableName⟩] := by
    decide +kernel
  have hClean :
      ofTokens (printingLoop ++ [Token.atEnd 2]) =
        ⟨[printingLoopStmt], []⟩ := by
    cbv
  have hSurvives :=
    last_statement_survives_iff unnamed printingLoop
      printingLoopStmt (Token.atEnd 1) (Token.atEnd 2)
      (Token.atEnd 2) rfl rfl rfl (by decide)
      (by rw [hErrors]; rfl) ⟨_, rfl, by decide⟩ hClean
  rw [hErrors] at hSurvives
  exact ⟨hErrors, hClean, hSurvives.mpr (by decide)⟩

/- A statement that lacks its semicolon. -/
def unclosedPrint : List Token :=
  [⟨.keyword .printWord, "est", 1⟩,
    ⟨.identifier, "a", 1⟩]

/- A well-formed statement for the next line. -/
def nextPrint : List Token :=
  [⟨.keyword .printWord, "est", 2⟩,
    ⟨.identifier, "b", 2⟩,
    ⟨.symbol .semicolon, ";", 2⟩]

/-
  Not every well-formed statement survives: behind one that
  lacks its semicolon, its first token is blamed and skipped.
-/
theorem last_statement_lost :
    ¬ ∀ (malformed wellFormed : List Token)
        (w : Stmt)
        (eof : Token),
      eof.isEof = true →
      (∀ t ∈ malformed,
        t.kind ∉
          [.eof, .symbol .leftBrace, .symbol .rightBrace,
            .keyword .ifWord, .keyword .whileWord]) →
      (ofTokens (malformed ++ [eof])).errors.length = 1 →
      (∃ t ∈ wellFormed.head?,
        t.kind ∈
          [TokenKind.keyword .varWord, .keyword .ifWord,
            .keyword .whileWord, .keyword .printWord]) →
      ofTokens (wellFormed ++ [eof]) = ⟨[w], []⟩ →
      (ofTokens
          (malformed ++ wellFormed ++
            [eof])).errors.length = 1 ∧
        (ofTokens
          (malformed ++ wellFormed ++
            [eof])).program.getLast? = some w := by
  intro hAlways
  have hClean :
      ofTokens (nextPrint ++ [Token.atEnd 2]) =
        ⟨[.print ⟨.keyword .printWord, "est", 2⟩
          (.var ⟨.identifier, "b", 2⟩)], []⟩ := by
    cbv
  have hLast :=
    hAlways unclosedPrint nextPrint _ (Token.atEnd 2) rfl
      (by decide) (by decide +kernel)
      ⟨_, rfl, by decide⟩ hClean
  have hProgram :
      (ofTokens
        (unclosedPrint ++ nextPrint ++
          [Token.atEnd 2])).program = [.skipped] := by
    cbv
  rw [hProgram] at hLast
  cases hLast.2

end Parsed

end OcScript
