import OcScript.Proofs.Parse.Reports

/-
  This file proves that the parser reports errors only on
  the tokens it is given, or on the end marker.

  A reading leaves an end part of its tokens, so the token
  on which a failure is blamed is one of them, and what is
  skipped to recover is, too.  This is kept when readings
  are put together, statement by statement.

  Key definitions include:
    * `OcScript.Parse.Inside`
    * `OcScript.Reading.Stays`
    * `OcScript.Recovered.Stays`

  Key theorems include:
    * `OcScript.Reading.Stays.andThen`
    * `OcScript.Parse.traversal_stays`
    * `OcScript.Parse.attempt_stays`
    * `OcScript.Parsed.mem_of_mem_errors_ofBody`
-/

------------------------------------------------------------
-- Readings That Stay Inside Their Tokens
------------------------------------------------------------

namespace OcScript

namespace Parse

/-
  What is left is an end part of the tokens, and everything
  reported is at one of them or at the end marker.
-/
structure Inside
    (eof : Token)
    (tokens : List Token)
    (reports : List ParseError)
    (rest : List Token) :
    Prop where
  rest : rest <:+ tokens
  reports : ∀ e ∈ reports, e.token ∈ tokens ++ [eof]

namespace Inside

variable {eof : Token}
variable {tokens : List Token}

/- Nothing is reported, and an end part is left. -/
theorem silent
    {rest : List Token}
    (hRest : rest <:+ tokens) :
    Inside eof tokens [] rest := by
  refine ⟨hRest, ?_⟩
  intro e hMem
  cases hMem

theorem mono
    {inner rest : List Token}
    {reports : List ParseError}
    (hInside : Inside eof inner reports rest)
    (hInner : inner <:+ tokens) :
    Inside eof tokens reports rest := by
  refine ⟨hInside.rest.trans hInner, ?_⟩
  intro e hMem
  rcases List.mem_append.mp (hInside.reports e hMem) with
    hToken | hEof
  · exact List.mem_append_left _ (hInner.mem hToken)
  · exact List.mem_append_right _ hEof

/- The second part starts where the first one ended. -/
theorem append
    {middle rest : List Token}
    {earlier later : List ParseError}
    (hFirst : Inside eof tokens earlier middle)
    (hNext : Inside eof middle later rest) :
    Inside eof tokens (earlier ++ later) rest := by
  have hLater := hNext.mono hFirst.rest
  refine ⟨hLater.rest, ?_⟩
  rw [List.forall_mem_append]
  exact ⟨hFirst.reports, hLater.reports⟩

end Inside

end Parse

/- What a reading reports and leaves is inside its tokens. -/
abbrev Reading.Stays
    {α : Type}
    (eof : Token)
    (tokens : List Token)
    (r : Reading α) :
    Prop :=
  Parse.Inside eof tokens r.reports r.rest

/- So it is once failures have been skipped. -/
abbrev Recovered.Stays
    {α : Type}
    (eof : Token)
    (tokens : List Token)
    (d : Recovered α) :
    Prop :=
  Parse.Inside eof tokens d.reports d.rest

namespace Reading.Stays

open Parse (Inside)

variable {α β : Type}
variable {eof : Token}
variable {tokens : List Token}

/- Wrong targets are reported at tokens that were read. -/
theorem of_onlyTargets
    {r : Reading α}
    (hTargets : r.OnlyTargets tokens) :
    r.Stays eof tokens := by
  rcases hTargets.reports with ⟨used, hSplit, hUsed⟩
  refine ⟨⟨used, hSplit.symm⟩, ?_⟩
  intro e hMem
  have hToken : e.token ∈ used :=
    hUsed.once.subset (List.mem_map_of_mem hMem)
  rw [hSplit, List.append_assoc]
  exact List.mem_append_left _ hToken

theorem after
    {r : Reading α}
    {middle : List Token}
    {earlier : List ParseError}
    (hNext : r.Stays eof middle)
    (hFirst : Inside eof tokens earlier middle) :
    (r.after earlier).Stays eof tokens := by
  cases r with
  | done value reports rest =>
      exact hFirst.append hNext
  | failed cause reports rest =>
      exact hFirst.append hNext

theorem andThen
    {r : Reading α}
    {next : α → List Token → Reading β}
    (hFirst : r.Stays eof tokens)
    (hNext :
      ∀ value reports rest,
        r = .done value reports rest →
        (next value rest).Stays eof rest) :
    (r.andThen next).Stays eof tokens := by
  cases r with
  | done value reports rest =>
      exact (hNext value reports rest rfl).after hFirst
  | failed cause reports rest =>
      exact hFirst

theorem map
    {r : Reading α}
    (hStays : r.Stays eof tokens)
    (f : α → β) :
    (r.map f).Stays eof tokens := by
  apply hStays.andThen
  intro value reports rest _
  exact Inside.silent (List.suffix_refl rest)

end Reading.Stays

end OcScript

------------------------------------------------------------
-- Statements
------------------------------------------------------------

namespace OcScript

namespace Parse

open Reading (Stays)

variable {eof : Token}
variable {tokens : List Token}

/- What is skipped stands before what is left. -/
theorem skipPast_isSuffix
    (previous : Token)
    (tokens : List Token) :
    skipPast previous tokens <:+ tokens := by
  induction tokens generalizing previous with
  | nil =>
      exact List.suffix_refl []
  | cons t rest ih =>
      unfold skipPast
      split
      · exact List.suffix_refl (t :: rest)
      · exact (ih t).trans (List.suffix_cons t rest)

theorem resume_isSuffix
    (tokens : List Token) :
    resume tokens <:+ tokens := by
  cases tokens with
  | nil =>
      exact List.suffix_refl []
  | cons t rest =>
      have hSkipped := skipPast_isSuffix t rest
      exact hSkipped.trans (List.suffix_cons t rest)

/- A failure is blamed on the first token not read. -/
theorem recovered_stays
    {r : Reading Stmt}
    (hStays : r.Stays eof tokens) :
    (r.recovered eof).Stays eof tokens := by
  cases r with
  | done value reports rest =>
      exact hStays
  | failed cause reports rest =>
      have hRest : rest <:+ tokens := hStays.rest
      refine ⟨(resume_isSuffix rest).trans hRest, ?_⟩
      intro e hMem
      rcases List.mem_append.mp hMem with hMem | hMem
      · exact hStays.reports e hMem
      rw [List.mem_singleton.mp hMem]
      cases rest with
      | nil =>
          exact
            List.mem_append_right _ (List.mem_singleton_self _)
      | cons t rest =>
          exact
            List.mem_append_left _
              (hRest.mem (List.mem_cons_self ..))

/- Statements and lists of them are read inside. -/
theorem traversal_stays
    (eof : Token) :
    Traversal eof
      (fun tokens r => r.Stays eof tokens)
      (fun tokens body => body.Stays eof tokens) where
  simple := by
    intro tokens r hTargets _
    exact .of_onlyTargets hTargets
  behind := by
    intro tokens r next hTargets hNext
    exact (Stays.of_onlyTargets hTargets).andThen hNext
  branches := by
    intro tokens test r hThen hElse
    apply hThen.andThen
    intro thenBranch reports after hDone
    cases after with
    | nil =>
        exact .silent (List.suffix_refl [])
    | cons t after =>
        rw [branchesRest]
        split
        · have hRead := hElse thenBranch reports t after hDone
          exact
            (hRead.map _).mono (List.suffix_cons t after)
        · exact .silent (List.suffix_refl (t :: after))
  loop := by
    intro tokens test r hBody
    exact hBody.map _
  block := by
    intro t rest body _ hBody
    have hClose :=
      Reading.OnlyTargets.expect (.symbol .rightBrace)
        .closingBrace (by simp) body.rest
    refine Inside.mono ?_ (List.suffix_cons t rest)
    exact (Stays.of_onlyTargets (hClose.map _)).after hBody
  stop := fun tokens => .silent (List.suffix_refl tokens)
  item := by
    intro t rest r others hFirst hOthers
    exact (recovered_stays hFirst).append hOthers

theorem attempt_stays
    (eof : Token)
    (tokens : List Token) :
    (attempt eof tokens).Stays eof tokens :=
  (traversal_stays eof).attempt
    ((traversal_stays eof).statement tokens)

theorem declaration_stays
    (eof t : Token)
    (rest : List Token) :
    (declaration eof (t :: rest)).val.Stays eof
      (t :: rest) := by
  rw [val_declaration]
  exact recovered_stays (attempt_stays eof (t :: rest))

end Parse

end OcScript

------------------------------------------------------------
-- Programs
------------------------------------------------------------

namespace OcScript

namespace Parsed

/- Errors in a body are at its tokens or at its end. -/
theorem mem_of_mem_errors_ofBody
    {eof : Token}
    {tokens : List Token}
    {e : ParseError}
    (hMem : e ∈ (ofBody eof tokens).errors) :
    e.token ∈ tokens ++ [eof] :=
  ((Parse.traversal_stays eof).body tokens).reports e hMem

end Parsed

end OcScript
