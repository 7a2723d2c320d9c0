import Mathlib.Data.List.TakeWhile
import Mathlib.Order.Bounds.Basic
import OcScript.Proofs.Parse.Blame
import OcScript.Proofs.Parse.Completeness

/-
  This file proves where reading goes on after a declaration
  that could not be read, and that it goes on as on a fresh
  program.

  A failure leaves the cursor at the token it is blamed on.
  That token is skipped, unless it is the end marker, and
  skipping ends at the first place after it that stands
  behind a semicolon, before a keyword that starts a
  statement, or at the end.

  Key definitions include:
    * `OcScript.Parse.ResumesAt`
    * `OcScript.Parsed.firstDeclaration`
    * `OcScript.Parsed.afterFirst`

  Key theorems include:
    * `OcScript.Parse.exists_least_resume`
    * `OcScript.Parsed.ofTokens_resumes_afresh`
-/

------------------------------------------------------------
-- Places at Which Reading Goes On
------------------------------------------------------------

namespace OcScript

namespace Parse

/- The kinds of tokens before which reading can go on. -/
def resumptionKinds : List TokenKind :=
  [.eof, .keyword .classWord, .keyword .functionWord,
    .keyword .varWord, .keyword .forWord, .keyword .ifWord,
    .keyword .whileWord, .keyword .printWord,
    .keyword .returnWord]

/-
  Reading can go on at place `j`: before the end or a keyword
  that starts a statement, or behind a semicolon.
-/
def ResumesAt
    (tokens : List Token)
    (j : Nat) : Prop :=
  (∃ t ∈ tokens[j]?, t.kind ∈ resumptionKinds) ∨
    ∃ t ∈ tokens[j - 1]?, t.kind = .symbol .semicolon

theorem mem_resumptionKinds_iff
    {t : Token} :
    t.kind ∈ resumptionKinds ↔
      t.isEof = true ∨ startsStatement t = true := by
  rcases t with ⟨kind, lexeme, line⟩
  cases kind with
  | keyword k =>
      cases k <;>
        simp [resumptionKinds, startsStatement, Token.isEof]
  | _ =>
      simp [resumptionKinds, startsStatement, Token.isEof]

theorem resumesAt_one
    {previous t : Token}
    {rest : List Token} :
    ResumesAt (previous :: t :: rest) 1 ↔
      t.kind ∈ resumptionKinds ∨
        previous.kind = .symbol .semicolon := by
  simp [ResumesAt]

/- Places are counted on from those of a rest. -/
theorem resumesAt_append
    {front back : List Token}
    {k : Nat}
    (hPlace : 0 < k) :
    ResumesAt (front ++ back) (front.length + k) ↔
      ResumesAt back k := by
  have hAt :
      (front ++ back)[front.length + k]? = back[k]? := by
    rw [List.getElem?_append_right (Nat.le_add_right _ _),
      Nat.add_sub_cancel_left]
  have hBefore :
      (front ++ back)[front.length + k - 1]? =
        back[k - 1]? := by
    rw [Nat.add_sub_assoc hPlace,
      List.getElem?_append_right (Nat.le_add_right _ _),
      Nat.add_sub_cancel_left]
  unfold ResumesAt
  rw [hAt, hBefore]

/-
  What is least among the places of a rest is least among
  those that stand further behind, too.
-/
theorem isLeast_append
    (front : List Token)
    {back : List Token}
    {j : Nat}
    (hLeast : IsLeast {k | 0 < k ∧ ResumesAt back k} j) :
    IsLeast
      {k | front.length < k ∧ ResumesAt (front ++ back) k}
      (front.length + j) := by
  rcases hLeast with ⟨⟨hPlace, hResumes⟩, hLower⟩
  refine ⟨⟨by omega, ?_⟩, ?_⟩
  · exact (resumesAt_append hPlace).mpr hResumes
  · rintro k ⟨hAfter, hOther⟩
    rcases Nat.exists_eq_add_of_le hAfter.le with ⟨n, rfl⟩
    have hPositive : 0 < n := by omega
    have hLater :=
      hLower
        ⟨hPositive, (resumesAt_append hPositive).mp hOther⟩
    omega

/- Skipping ends at the first place to go on. -/
theorem exists_least_skipPast
    {eof : Token}
    (hEof : eof.isEof = true)
    (after : List Token)
    (previous : Token)
    {rest : List Token}
    (hRest : ∀ t ∈ rest, t.isEof = false) :
    ∃ j,
      skipPast previous rest ++ eof :: after =
          (previous :: (rest ++ eof :: after)).drop j ∧
        IsLeast
          {k | 0 < k ∧
            ResumesAt (previous :: (rest ++ eof :: after)) k}
          j := by
  induction rest generalizing previous with
  | nil =>
      have hHere :
          ResumesAt (previous :: ([] ++ eof :: after)) 1 :=
        resumesAt_one.mpr
          (.inl (mem_resumptionKinds_iff.mpr (.inl hEof)))
      exact
        ⟨1, rfl, ⟨Nat.one_pos, hHere⟩, fun _ hk => hk.1⟩
  | cons t rest ih =>
      rw [List.forall_mem_cons] at hRest
      have hFirst :
          ResumesAt
              (previous :: (t :: rest ++ eof :: after)) 1 ↔
            previous.isSymbol .semicolon = true ∨
              startsStatement t = true := by
        rw [List.cons_append, resumesAt_one,
          mem_resumptionKinds_iff, hRest.1,
          Token.isSymbol_iff]
        simp [or_comm]
      unfold skipPast
      split
      next hStop =>
        have hHere := hFirst.mpr hStop
        exact
          ⟨1, rfl, ⟨Nat.one_pos, hHere⟩, fun _ hk => hk.1⟩
      next hSkip =>
        rcases ih t hRest.2 with ⟨j, hDrop, hLeast⟩
        have hShifted := isLeast_append [previous] hLeast
        have hPlace := Nat.zero_lt_of_lt hShifted.1.1
        refine ⟨1 + j, ?_, ⟨hPlace, hShifted.1.2⟩, ?_⟩
        · rw [hDrop, Nat.add_comm]
          rfl
        · rintro k ⟨hPlace, hResumes⟩
          have hNotFirst : k ≠ 1 := by
            rintro rfl
            exact hSkip (hFirst.mp hResumes)
          have hLater : 1 < k := by omega
          exact hShifted.2 ⟨hLater, hResumes⟩

/-
  A failure is blamed on the token at the cursor, behind
  `front`.  Reading goes on there, if it is the end, or else
  at the first place behind it.
-/
theorem exists_least_resume
    {eof : Token}
    (hEof : eof.isEof = true)
    (after front : List Token)
    {unread : List Token}
    (hUnread : ∀ t ∈ unread, t.isEof = false) :
    ∃ j,
      (front ++ (unread ++ eof :: after))[front.length]? =
          some (unread.headD eof) ∧
        resume unread ++ eof :: after =
          (front ++ (unread ++ eof :: after)).drop j ∧
        ((unread.headD eof).isEof = true →
          j = front.length) ∧
        ((unread.headD eof).isEof = false →
          IsLeast
            {k | front.length < k ∧
              ResumesAt
                (front ++ (unread ++ eof :: after)) k}
            j) := by
  cases unread with
  | nil =>
      refine ⟨front.length, ?_, ?_, fun _ => rfl, ?_⟩
      · simp
      · simp [resume]
      · intro hNot
        cases hEof.symm.trans hNot
  | cons t rest =>
      rw [List.forall_mem_cons] at hUnread
      rcases exists_least_skipPast hEof after t
          hUnread.2 with
        ⟨j, hDrop, hLeast⟩
      refine
        ⟨front.length + j, ?_, ?_, ?_,
          fun _ => isLeast_append front hLeast⟩
      · simp
      · rw [List.drop_length_add_append]
        exact hDrop
      · intro hIs
        cases hUnread.1.symm.trans hIs

/-
  A declaration that could not be read is blamed on a token
  and skipped up to the next place to go on.
-/
theorem declaration_of_failed
    {eof : Token}
    (hEof : eof.isEof = true)
    (after : List Token)
    {t : Token}
    {others : List Token}
    (hBefore : ∀ s ∈ t :: others, s.isEof = false)
    {cause : ParseCause}
    {earlier : List ParseError}
    {unread : List Token}
    (hFailed :
      attempt eof (t :: others) =
        .failed cause earlier unread) :
    ∃ i j blamed,
      (t :: others ++ eof :: after).drop i =
          unread ++ eof :: after ∧
        (t :: others ++ eof :: after)[i]? = some blamed ∧
        (declaration eof (t :: others)).val =
          ⟨.skipped, earlier ++ [⟨blamed, cause⟩],
            resume unread⟩ ∧
        resume unread ++ eof :: after =
          (t :: others ++ eof :: after).drop j ∧
        (blamed.isEof = true → j = i) ∧
        (blamed.isEof = false →
          IsLeast
            {k | i < k ∧
              ResumesAt (t :: others ++ eof :: after) k}
            j) := by
  have hStays := attempt_stays eof (t :: others)
  rw [hFailed] at hStays
  rcases hStays.rest with ⟨read, hRead⟩
  have hUnread : ∀ s ∈ unread, s.isEof = false :=
    fun s hMem => hBefore s (hStays.rest.mem hMem)
  have hWhole :
      read ++ (unread ++ eof :: after) =
        t :: others ++ eof :: after := by
    rw [← List.append_assoc, ← hRead]
    rfl
  rcases exists_least_resume hEof after read hUnread with
    ⟨j, hBlamed, hDrop, hAtEnd, hLeast⟩
  rw [hWhole] at hBlamed hDrop hLeast
  refine
    ⟨read.length, j, _, ?_, hBlamed, ?_, hDrop, hAtEnd,
      hLeast⟩
  · rw [← hWhole, List.drop_left]
  · rw [val_declaration, hFailed]
    rfl

end Parse

end OcScript

------------------------------------------------------------
-- Programs
------------------------------------------------------------

namespace OcScript

namespace Token

/- The last of the tokens marks the end. -/
def EndMarked
    (tokens : List Token) : Prop :=
  ∃ last ∈ tokens.getLast?, last.isEof = true

/- The tokens before the first end marker. -/
def beforeEnd
    (tokens : List Token) :
    List Token :=
  tokens.takeWhile fun t => !t.isEof

/- The first end marker and what stands behind it. -/
def fromEnd
    (tokens : List Token) :
    List Token :=
  tokens.dropWhile fun t => !t.isEof

/- The first end marker. -/
def endMarker
    (tokens : List Token) :
    Token :=
  (fromEnd tokens).headD (atEnd 1)

theorem beforeEnd_append_fromEnd
    (tokens : List Token) :
    beforeEnd tokens ++ fromEnd tokens = tokens :=
  List.takeWhile_append_dropWhile

/- What stands behind tokens that mark no end. -/
theorem beforeEnd_append
    {front : List Token}
    (hFront : ∀ t ∈ front, t.isEof = false)
    (back : List Token) :
    beforeEnd (front ++ back) = front ++ beforeEnd back :=
  List.takeWhile_append_of_pos (by simpa using hFront)

/- A marker at the end adds no token before the first one. -/
theorem beforeEnd_append_marker
    (tokens : List Token)
    {eof : Token}
    (hEof : eof.isEof = true) :
    beforeEnd (tokens ++ [eof]) = beforeEnd tokens := by
  induction tokens with
  | nil =>
      simp [beforeEnd, hEof]
  | cons t rest ih =>
      simp only [beforeEnd, List.cons_append,
        List.takeWhile_cons] at ih ⊢
      rw [ih]

theorem isEof_of_mem_beforeEnd
    {tokens : List Token}
    {t : Token}
    (hMem : t ∈ beforeEnd tokens) :
    t.isEof = false := by
  simpa using List.mem_takeWhile_imp hMem

theorem isEof_endMarker
    (tokens : List Token) :
    (endMarker tokens).isEof = true := by
  rw [endMarker]
  cases hFrom : fromEnd tokens with
  | nil =>
      rfl
  | cons eof after =>
      have hHead :=
        List.head?_dropWhile_not (fun t => !t.isEof) tokens
      rw [show tokens.dropWhile (fun t => !t.isEof) =
        eof :: after from hFrom] at hHead
      simpa using hHead

/- There is a first end marker if the last token is one. -/
theorem EndMarked.exists_fromEnd
    {tokens : List Token}
    (hEnd : EndMarked tokens) :
    ∃ after,
      fromEnd tokens = endMarker tokens :: after := by
  rcases hEnd with ⟨last, hLast, hMarks⟩
  cases hFrom : fromEnd tokens with
  | nil =>
      have hNone :=
        List.dropWhile_eq_nil_iff.mp hFrom last
          (List.mem_of_getLast? hLast)
      simp [hMarks] at hNone
  | cons eof after =>
      refine ⟨after, ?_⟩
      rw [endMarker, hFrom]
      rfl

end Token

namespace Parsed

open Token (EndMarked beforeEnd fromEnd endMarker)

/- A program is read from the tokens before its end. -/
theorem ofTokens_append_marker
    (tokens : List Token)
    {eof : Token}
    (hEof : eof.isEof = true) :
    ofTokens (tokens ++ [eof]) =
      ofBody (endMarker (tokens ++ [eof]))
        (beforeEnd tokens) := by
  rw [← Token.beforeEnd_append_marker tokens hEof]
  rfl

/- Behind the first declaration, reading starts afresh. -/
theorem ofTokens_cons_append
    {eof : Token}
    (hEof : eof.isEof = true)
    (after : List Token)
    {t : Token}
    {others : List Token}
    (hBefore : ∀ s ∈ t :: others, s.isEof = false) :
    let first := (Parse.declaration eof (t :: others)).val
    ofTokens (t :: others ++ eof :: after) =
      { program :=
          first.value ::
            (ofTokens (first.rest ++ eof :: after)).program
        errors :=
          first.reports ++
            (ofTokens
              (first.rest ++ eof :: after)).errors } := by
  intro first
  have hInside : first.rest <:+ t :: others :=
    (Parse.declaration_stays eof t others).rest
  have hLeft : ∀ s ∈ first.rest, s.isEof = false :=
    fun s hMem => hBefore s (hInside.mem hMem)
  rw [ofTokens_append hBefore hEof,
    ofTokens_append hLeft hEof, ofBody_cons]

/- What is read as the first declaration of a program. -/
def firstDeclaration
    (tokens : List Token) :
    Recovered Stmt :=
  (Parse.declaration (endMarker tokens)
    (beforeEnd tokens)).val

/- The tokens left behind the first declaration. -/
def afterFirst
    (tokens : List Token) :
    List Token :=
  (firstDeclaration tokens).rest ++ fromEnd tokens

/-
  Reading goes on behind the first declaration as on a fresh
  program.  If the declaration could not be read, it is
  replaced by a skipped statement, the failure is blamed on
  the token at the cursor, and reading goes on there, if it
  is the end, or at the least place behind it at which
  reading can go on.
-/
theorem ofTokens_resumes_afresh
    (t : Token)
    (rest : List Token)
    (hFirst : t.isEof = false)
    (hEnd : EndMarked (t :: rest)) :
    afterFirst (t :: rest) <:+ t :: rest ∧
    ofTokens (t :: rest) =
      { program :=
          (firstDeclaration (t :: rest)).value ::
            (ofTokens (afterFirst (t :: rest))).program
        errors :=
          (firstDeclaration (t :: rest)).reports ++
            (ofTokens (afterFirst (t :: rest))).errors } ∧
    ∀ cause earlier unread,
      Parse.attempt (endMarker (t :: rest))
          (beforeEnd (t :: rest)) =
        .failed cause earlier unread →
      ∃ i j blamed,
        (t :: rest).drop i =
            unread ++ fromEnd (t :: rest) ∧
          (t :: rest)[i]? = some blamed ∧
          (firstDeclaration (t :: rest)).value = .skipped ∧
          (firstDeclaration (t :: rest)).reports =
            earlier ++ [⟨blamed, cause⟩] ∧
          afterFirst (t :: rest) = (t :: rest).drop j ∧
          (blamed.isEof = true → j = i) ∧
          (blamed.isEof = false →
            IsLeast
              {k | i < k ∧
                Parse.ResumesAt (t :: rest) k}
              j) := by
  generalize hTokens : t :: rest = tokens at hEnd ⊢
  rcases hEnd.exists_fromEnd with ⟨after, hFrom⟩
  have hMarker := Token.isEof_endMarker tokens
  have hBefore :
      ∀ t ∈ beforeEnd tokens, t.isEof = false :=
    fun _ => Token.isEof_of_mem_beforeEnd
  have hSplit := Token.beforeEnd_append_fromEnd tokens
  have hBody :
      beforeEnd tokens =
        t :: rest.takeWhile fun t => !t.isEof := by
    rw [← hTokens, beforeEnd]
    simp [hFirst]
  rw [firstDeclaration, afterFirst, firstDeclaration]
  rw [hFrom] at hSplit ⊢
  generalize endMarker tokens = eof at hMarker hSplit ⊢
  rw [hBody] at hBefore hSplit ⊢
  generalize rest.takeWhile _ = others at hBefore hSplit ⊢
  rw [← hSplit]
  have hInside := Parse.declaration_stays eof t others
  rcases hInside.rest with ⟨front, hFront⟩
  refine ⟨⟨front, ?_⟩, ?_, ?_⟩
  · rw [← List.append_assoc, hFront]
  · exact ofTokens_cons_append hMarker after hBefore
  · intro cause earlier unread hFailed
    rcases Parse.declaration_of_failed hMarker after hBefore
        hFailed with
      ⟨i, j, blamed, hDrop, hBlamed, hRead, hAfter, hPlaces⟩
    rw [hRead]
    exact
      ⟨i, j, blamed, hDrop, hBlamed, rfl, rfl, hAfter,
        hPlaces⟩

/-
  A condition whose first branch holds a failure of its own,
  and whose else branch cannot be read.
-/
def brokenElse : List Token :=
  [⟨.keyword .ifWord, "se", 1⟩,
    ⟨.symbol .leftParen, "(", 1⟩,
    ⟨.identifier, "a", 1⟩,
    ⟨.symbol .rightParen, ")", 1⟩,
    ⟨.symbol .leftBrace, "\x7b", 1⟩,
    ⟨.keyword .printWord, "est", 2⟩,
    ⟨.symbol .semicolon, ";", 2⟩,
    ⟨.symbol .rightBrace, "\x7d", 3⟩,
    ⟨.keyword .elseWord, "senon", 3⟩,
    ⟨.symbol .rightParen, ")", 3⟩,
    ⟨.keyword .printWord, "est", 4⟩,
    ⟨.identifier, "b", 4⟩,
    ⟨.symbol .semicolon, ";", 4⟩,
    Token.atEnd 4]

theorem ofTokens_resumes_afresh_brokenElse :
    Parse.attempt (endMarker brokenElse)
        (beforeEnd brokenElse) =
      .failed .expression
        [⟨⟨.symbol .semicolon, ";", 2⟩, .expression⟩]
        ((beforeEnd brokenElse).drop 9) ∧
    ∃ i j blamed,
      brokenElse.drop i = brokenElse.drop 9 ∧
        brokenElse[i]? = some blamed ∧
        (firstDeclaration brokenElse).reports =
          [⟨⟨.symbol .semicolon, ";", 2⟩, .expression⟩,
            ⟨blamed, .expression⟩] ∧
        afterFirst brokenElse = brokenElse.drop j ∧
        (blamed.isEof = false →
          IsLeast
            {k | i < k ∧ Parse.ResumesAt brokenElse k}
            j) := by
  have hFailed :
      Parse.attempt (endMarker brokenElse)
          (beforeEnd brokenElse) =
        .failed .expression
          [⟨⟨.symbol .semicolon, ";", 2⟩, .expression⟩]
          ((beforeEnd brokenElse).drop 9) := by
    cbv
  have hEnd : EndMarked brokenElse :=
    ⟨Token.atEnd 4, rfl, rfl⟩
  rcases ofTokens_resumes_afresh _ _ rfl hEnd with
    ⟨_, _, hFailures⟩
  rcases hFailures _ _ _ hFailed with
    ⟨i, j, blamed, hDrop, hBlamed, _, hReports, hAfter, _,
      hLeast⟩
  exact
    ⟨hFailed, i, j, blamed, hDrop, hBlamed, hReports, hAfter,
      hLeast⟩

end Parsed

end OcScript
