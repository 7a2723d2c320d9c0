import OcScript.Proofs.Parse.Completeness
import OcScript.Proofs.Parse.Soundness
import OcScript.Proofs.Scan.Newline
import OcScript.Proofs.Trees

/-
  This file proves that two sources without diagnostics,
  with a newline between them, are read as the programs of
  both, one after the other.

  A clean source is a written canonical program, and two
  written canonical programs side by side are a written
  canonical program again.  So nothing of the first source
  can go on in the second: the second never starts with an
  else, nor with the rest of an expression.

  Key definitions include:
    * `OcScript.Slot.map`

  Key theorems include:
    * `OcScript.Stmt.canonicalAll_mapTokensAll`
    * `OcScript.Writes.mapTokens`
    * `OcScript.check_append_newline`
-/

------------------------------------------------------------
-- Canonical Trees With Changed Tokens
------------------------------------------------------------

namespace OcScript

variable {f : Token → Token}

namespace Expr

open Parse (isUnaryOperator isTightOperator)

/- Operators are told by their kinds. -/
theorem accepts_relabel
    (hKinds : ∀ t, (f t).kind = t.kind)
    (level : Level)
    (t : Token) :
    level.accepts (f t) = level.accepts t := by
  unfold Level.accepts
  rw [hKinds]

theorem isTightOperator_relabel
    (hKinds : ∀ t, (f t).kind = t.kind)
    (t : Token) :
    isTightOperator (f t) = isTightOperator t := by
  unfold isTightOperator
  rw [hKinds]

theorem isUnaryOperator_relabel
    (hKinds : ∀ t, (f t).kind = t.kind)
    (t : Token) :
    isUnaryOperator (f t) = isUnaryOperator t := by
  unfold isUnaryOperator Token.isSymbol
  rw [hKinds]

theorem rank_mapTokens
    (hKinds : ∀ t, (f t).kind = t.kind)
    (e : Expr) :
    (e.mapTokens f).rank = e.rank := by
  cases e with
  | binary left operator right =>
      simp only [mapTokens, rank, accepts_relabel hKinds]
  | logical left operator right =>
      simp only [mapTokens, rank, accepts_relabel hKinds]
  | _ =>
      rfl

theorem canonical_mapTokens
    (hKinds : ∀ t, (f t).kind = t.kind)
    (e : Expr) :
    (e.mapTokens f).Canonical ↔ e.Canonical := by
  induction e with
  | literal value =>
      exact Iff.rfl
  | group inner ih =>
      exact ih
  | unary operator operand ih =>
      simp only [mapTokens, Canonical, ih,
        rank_mapTokens hKinds,
        isUnaryOperator_relabel hKinds]
  | binary left operator right leftIH rightIH =>
      simp only [mapTokens, Canonical, leftIH, rightIH,
        rank_mapTokens hKinds, accepts_relabel hKinds,
        isTightOperator_relabel hKinds]
  | logical left operator right leftIH rightIH =>
      simp only [mapTokens, Canonical, leftIH, rightIH,
        rank_mapTokens hKinds, accepts_relabel hKinds]
  | var name =>
      simp only [mapTokens, Canonical, hKinds]
  | assign name value ih =>
      simp only [mapTokens, Canonical, ih, hKinds]

end Expr

namespace Stmt

theorem isDeclaration_mapTokens
    (f : Token → Token)
    (s : Stmt) :
    (s.mapTokens f).isDeclaration = s.isDeclaration := by
  cases s with
  | declare name initial =>
      cases initial with
      | none =>
          rfl
      | some initial =>
          rfl
  | _ =>
      rfl

theorem endsOpen_mapTokens
    (f : Token → Token)
    (s : Stmt) :
    (s.mapTokens f).endsOpen = s.endsOpen := by
  induction s with
  | declare name initial =>
      cases initial with
      | none =>
          rfl
      | some initial =>
          rfl
  | ifElse condition thenBranch elseBranch _ elseIH =>
      exact elseIH
  | whileDo condition body ih =>
      exact ih
  | _ =>
      rfl

theorem canonical_mapTokens
    (hKinds : ∀ t, (f t).kind = t.kind)
    (s : Stmt) :
    (s.mapTokens f).Canonical ↔ s.Canonical := by
  induction s with
  | expression value =>
      exact Expr.canonical_mapTokens hKinds value
  | print keyword value =>
      simp only [mapTokens, Canonical, hKinds,
        Expr.canonical_mapTokens hKinds]
  | declare name initial =>
      cases initial with
      | none =>
          simp only [mapTokens, Canonical, hKinds]
      | some initial =>
          simp only [mapTokens, Canonical, hKinds,
            Expr.canonical_mapTokens hKinds]
  | block body ih =>
      simp only [mapTokens, Canonical, mapTokensAll_eq_map,
        canonicalAll_iff, List.forall_mem_map]
      exact forall₂_congr ih
  | ifThen condition thenBranch ih =>
      simp only [mapTokens, Canonical, ih,
        isDeclaration_mapTokens,
        Expr.canonical_mapTokens hKinds]
  | ifElse condition thenBranch elseBranch thenIH elseIH =>
      simp only [mapTokens, Canonical, thenIH, elseIH,
        isDeclaration_mapTokens, endsOpen_mapTokens,
        Expr.canonical_mapTokens hKinds]
  | whileDo condition body ih =>
      simp only [mapTokens, Canonical, ih,
        isDeclaration_mapTokens,
        Expr.canonical_mapTokens hKinds]
  | skipped =>
      exact Iff.rfl

/- Changed tokens do not change what is canonical. -/
theorem canonicalAll_mapTokensAll
    (hKinds : ∀ t, (f t).kind = t.kind)
    (body : List Stmt) :
    CanonicalAll (mapTokensAll f body) ↔
      CanonicalAll body := by
  simp only [mapTokensAll_eq_map, canonicalAll_iff,
    List.forall_mem_map, canonical_mapTokens hKinds]

theorem canonicalAll_append
    {front back : List Stmt} :
    CanonicalAll (front ++ back) ↔
      CanonicalAll front ∧ CanonicalAll back := by
  simp only [canonicalAll_iff, List.forall_mem_append]

end Stmt

end OcScript

------------------------------------------------------------
-- Written Forms With Changed Tokens
------------------------------------------------------------

namespace OcScript

variable {f : Token → Token}

namespace Slot

/- Change the token that a slot keeps. -/
def map
    (f : Token → Token) :
    Slot → Slot
| kept token => kept (f token)
| ofKind kind => ofKind kind

/- A changed token fills the changed slot. -/
theorem Fits.map
    (hKinds : ∀ t, (f t).kind = t.kind)
    {slot : Slot}
    {t : Token}
    (hFits : slot.Fits t) :
    (slot.map f).Fits (f t) := by
  cases slot with
  | kept token =>
      exact congrArg f hFits
  | ofKind kind =>
      exact (hKinds t).trans hFits

@[simp] theorem map_kept
    (f : Token → Token)
    (token : Token) :
    (kept token).map f = kept (f token) :=
  rfl

@[simp] theorem map_symbol
    (f : Token → Token)
    (s : Symbol) :
    (symbol s).map f = symbol s :=
  rfl

@[simp] theorem map_keyword
    (f : Token → Token)
    (k : Keyword) :
    (keyword k).map f = keyword k :=
  rfl

end Slot

namespace Expr

theorem slots_mapTokens
    (f : Token → Token)
    (e : Expr) :
    (e.mapTokens f).slots = e.slots.map (Slot.map f) := by
  induction e with
  | literal value =>
      rfl
  | group inner ih =>
      simp [mapTokens, slots, ih]
  | unary operator operand ih =>
      simp [mapTokens, slots, ih]
  | binary left operator right leftIH rightIH =>
      simp [mapTokens, slots, leftIH, rightIH]
  | logical left operator right leftIH rightIH =>
      simp [mapTokens, slots, leftIH, rightIH]
  | var name =>
      rfl
  | assign name value ih =>
      simp [mapTokens, slots, ih]

end Expr

namespace Stmt

/- If it holds of the members, it holds of the list. -/
theorem slotsAll_mapTokensAll_of_forall
    {body : List Stmt}
    (hMembers :
      ∀ s ∈ body,
        (s.mapTokens f).slots = s.slots.map (Slot.map f)) :
    slotsAll (mapTokensAll f body) =
      (slotsAll body).map (Slot.map f) := by
  induction body with
  | nil =>
      rfl
  | cons s rest ih =>
      rw [List.forall_mem_cons] at hMembers
      simp only [mapTokensAll, slotsAll, List.map_append,
        hMembers.1, ih hMembers.2]

theorem slots_mapTokens
    (f : Token → Token)
    (s : Stmt) :
    (s.mapTokens f).slots = s.slots.map (Slot.map f) := by
  induction s with
  | expression value =>
      simp [mapTokens, slots, Expr.slots_mapTokens]
  | print keyword value =>
      simp [mapTokens, slots, Expr.slots_mapTokens]
  | declare name initial =>
      cases initial with
      | none =>
          rfl
      | some initial =>
          simp [mapTokens, slots, Expr.slots_mapTokens]
  | block body ih =>
      simp [mapTokens, slots,
        slotsAll_mapTokensAll_of_forall ih]
  | ifThen condition thenBranch ih =>
      simp [mapTokens, slots, conditionSlots,
        Expr.slots_mapTokens, ih]
  | ifElse condition thenBranch elseBranch thenIH elseIH =>
      simp [mapTokens, slots, conditionSlots,
        Expr.slots_mapTokens, thenIH, elseIH]
  | whileDo condition body ih =>
      simp [mapTokens, slots, conditionSlots,
        Expr.slots_mapTokens, ih]
  | skipped =>
      rfl

end Stmt

/- Changed tokens write the program with changed tokens. -/
theorem Writes.mapTokens
    (hKinds : ∀ t, (f t).kind = t.kind)
    {body : List Stmt}
    {tokens : List Token}
    (hWrites : Writes (Stmt.slotsAll body) tokens) :
    Writes (Stmt.slotsAll (Stmt.mapTokensAll f body))
      (tokens.map f) := by
  have hSlots :
      Stmt.slotsAll (Stmt.mapTokensAll f body) =
        (Stmt.slotsAll body).map (Slot.map f) := by
    apply Stmt.slotsAll_mapTokensAll_of_forall
    intro s _
    exact Stmt.slots_mapTokens f s
  rw [hSlots]
  unfold Writes
  rw [List.forall₂_map_left_iff, List.forall₂_map_right_iff]
  apply hWrites.imp
  intro slot t hFits
  exact hFits.map hKinds

end OcScript

------------------------------------------------------------
-- Sources Without Diagnostics
------------------------------------------------------------

namespace OcScript

variable {table : KeywordTable}

/- The text of moved tokens is kept. -/
theorem Token.keepsText_moved
    (n : Nat) :
    KeepsText (moved n) :=
  ⟨kind_moved n, lexeme_moved n⟩

/- A source is parsed from the body of its scan. -/
theorem ofTokens_scan
    (table : KeywordTable)
    (source : String) :
    Parsed.ofTokens (scan table source).tokens =
      Parsed.ofBody
        (Token.atEnd (1 + source.toList.count '\n'))
        (scan table source).body := by
  rw [tokens_scan]
  exact
    Parsed.ofTokens_append
      (fun _ hMem => isEof_of_mem_body hMem) rfl []

/- No diagnostics: no scan errors and no parse errors. -/
theorem diagnostics_eq_nil_iff
    {source : String} :
    (check table source).diagnostics = [] ↔
      (scan table source).errors = [] ∧
        (Parsed.ofTokens
          (scan table source).tokens).errors = [] := by
  simp only [check, List.append_eq_nil_iff,
    List.map_eq_nil_iff]

/- A clean source writes out its canonical program. -/
theorem written_of_clean
    {source : String}
    (hClean : (check table source).diagnostics = []) :
    Stmt.CanonicalAll (check table source).program ∧
      Writes (Stmt.slotsAll (check table source).program)
        (scan table source).body := by
  have hParsed := (diagnostics_eq_nil_iff.mp hClean).2
  rw [ofTokens_scan] at hParsed
  have hProgram :
      (check table source).program =
        (Parsed.ofBody
          (Token.atEnd (1 + source.toList.count '\n'))
          (scan table source).body).program := by
    rw [← ofTokens_scan]
    rfl
  rw [hProgram]
  exact Parsed.ofBody_sound hParsed

/-
  Two clean sources with a newline between them are a clean
  source.  Its program is that of the first and then that of
  the second, further down.
-/
theorem check_append_newline
    {front back : String}
    (hFront : (check table front).diagnostics = [])
    (hBack : (check table back).diagnostics = []) :
    check table (front ++ "\n" ++ back) =
      { program :=
          (check table front).program ++
            Stmt.mapTokensAll
              (Token.moved (front.toList.count '\n' + 1))
              (check table back).program
        diagnostics := [] } := by
  have hFrontScan := (diagnostics_eq_nil_iff.mp hFront).1
  have hBackScan := (diagnostics_eq_nil_iff.mp hBack).1
  have hClosed :=
    Scanned.closed_of_errors_eq_nil hFrontScan
  have hErrors :
      (scan table (front ++ "\n" ++ back)).errors = [] := by
    rw [errors_scan_append_newline hClosed, hFrontScan,
      hBackScan]
    rfl
  rcases written_of_clean hFront with
    ⟨hFrontCanonical, hFrontWrites⟩
  rcases written_of_clean hBack with
    ⟨hBackCanonical, hBackWrites⟩
  generalize hLines : front.toList.count '\n' + 1 = n
  have hMoved := Token.keepsText_moved n
  have hBody :
      (scan table (front ++ "\n" ++ back)).body =
        (scan table front).body ++
          (scan table back).body.map (Token.moved n) := by
    rw [Scanned.body, tokens_scan_append_newline hClosed,
      hLines, tokens_scan table back, List.map_append,
      ← List.append_assoc]
    exact List.dropLast_concat
  have hCanonical :
      Stmt.CanonicalAll
        ((check table front).program ++
          Stmt.mapTokensAll (Token.moved n)
            (check table back).program) :=
    Stmt.canonicalAll_append.mpr
      ⟨hFrontCanonical,
        (Stmt.canonicalAll_mapTokensAll hMoved.kind _).mpr
          hBackCanonical⟩
  have hWrites :
      Writes
        (Stmt.slotsAll
          ((check table front).program ++
            Stmt.mapTokensAll (Token.moved n)
              (check table back).program))
        (scan table (front ++ "\n" ++ back)).body := by
    rw [Stmt.slotsAll_append, hBody]
    exact
      hFrontWrites.append
        (hBackWrites.mapTokens hMoved.kind)
  rw [check, ofTokens_scan,
    Parsed.ofBody_complete _ hCanonical hWrites, hErrors]
  rfl

/- The empty source is clean and does nothing. -/
theorem check_empty
    (table : KeywordTable) :
    check table "" = ⟨[], []⟩ := by
  have hChunks : Chunk.ofText "".toList = [] := by
    rw [String.toList_empty, Chunk.ofText]
  have hBody : (scan table "").body = [] := by
    rw [body_scan, hChunks]
    rfl
  have hErrors : (scan table "").errors = [] := by
    simp only [scan, hChunks]
    rfl
  rw [check, ofTokens_scan, hBody, hErrors,
    Parsed.ofBody_nil]
  rfl

end OcScript
