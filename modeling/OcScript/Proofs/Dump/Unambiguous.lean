import OcScript.Proofs.Dump.TreeForms
import OcScript.Proofs.Run.ErrorPlaces
import OcScript.Proofs.Scan.SpellingOrder

/-
  This file proves that a program is settled by its prefix
  forms, but for the lines of its tokens.

  All tokens that a program keeps come from its source, so
  that the kinds of its operators and names go with their
  lexemes and its numbers have no minus.  If it has no
  string literals and no names that look like literals, it
  is legible, and so it is read back from its prefix forms.

  Key definitions include:
    * `OcScript.Program.Plain`
    * `OcScript.Slot.Filled`
    * `OcScript.Expr.Sourced`
    * `OcScript.Stmt.Sourced`

  Key theorems include:
    * `OcScript.Expr.Sourced.legible`
    * `OcScript.Stmt.Sourced.legible`
    * `OcScript.Stmt.dumps_eq_iff`
    * `OcScript.Program.dump_settles_program`
-/

------------------------------------------------------------
-- Plain Programs
------------------------------------------------------------

namespace OcScript

/- The expression is a string literal. -/
def Expr.isString : Expr → Bool
| .literal (.str _) => true
| _ => false

namespace Program

/-
  There are no string literals in the program, and no names
  that look like literals of another kind.
-/
structure Plain
    (program : Program) :
    Prop where
  strings :
    ∀ s ∈ Stmt.partsAll program, ∀ e ∈ s.expressions,
      ∀ part ∈ e.parts, part.isString = false
  names :
    ∀ name ∈ Stmt.nameTokensAll program,
      name.lexeme ∉ Value.reservedWords

instance decidablePlain
    (program : Program) :
    Decidable program.Plain :=
  decidable_of_iff (_ ∧ _)
    ⟨fun h => ⟨h.1, h.2⟩, fun h => ⟨h.1, h.2⟩⟩

end Program

end OcScript

------------------------------------------------------------
-- Trees of Sources
------------------------------------------------------------

namespace OcScript

variable {table : KeywordTable}

/- Some written token fits the slot. -/
def Slot.Filled
    (table : KeywordTable)
    (slot : Slot) :
    Prop :=
  ∃ t : Token, t.Written table ∧ slot.Fits t

theorem Slot.filled_kept
    {t : Token} :
    (Slot.kept t).Filled table ↔ t.Written table := by
  refine ⟨?_, fun hWritten => ⟨t, hWritten, rfl⟩⟩
  rintro ⟨u, hWritten, rfl⟩
  exact hWritten

/- What is written with written tokens has filled slots. -/
theorem Writes.filled
    {slots : List Slot}
    {tokens : List Token}
    (hWrites : Writes slots tokens)
    (hWritten : ∀ t ∈ tokens, t.Written table) :
    ∀ slot ∈ slots, slot.Filled table := by
  induction hWrites with
  | nil => exact List.forall_mem_nil _
  | cons hFits _ ih =>
      obtain ⟨hFirst, hRest⟩ :=
        List.forall_mem_cons.mp hWritten
      exact List.forall_mem_cons.mpr
        ⟨⟨_, hFirst, hFits⟩, ih hRest⟩

/-
  An expression that a source can be read as, with no string
  literals and no names that look like other literals.
-/
structure Expr.Sourced
    (table : KeywordTable)
    (e : Expr) :
    Prop where
  canonical : e.Canonical
  filled : ∀ slot ∈ e.slots, slot.Filled table
  strings : ∀ part ∈ e.parts, part.isString = false
  names :
    ∀ name ∈ e.nameTokens,
      name.lexeme ∉ Value.reservedWords

/- A statement of this kind. -/
structure Stmt.Sourced
    (table : KeywordTable)
    (s : Stmt) :
    Prop where
  canonical : s.Canonical
  filled : ∀ slot ∈ s.slots, slot.Filled table
  strings :
    ∀ inner ∈ s.parts, ∀ e ∈ inner.expressions,
      ∀ part ∈ e.parts, part.isString = false
  names :
    ∀ name ∈ s.nameTokens,
      name.lexeme ∉ Value.reservedWords

namespace Token

open Parse (isUnaryOperator isTightOperator)

variable {t : Token}

theorem isSign_of_unary
    (hWritten : t.Written table)
    (hOperator : isUnaryOperator t = true) :
    t.IsSign table := by
  refine ⟨hWritten, ?_⟩
  simp only [isUnaryOperator, isSymbol,
    decide_eq_true_eq] at hOperator
  rcases hOperator with hKind | hKind <;>
    exact ⟨_, rfl, hKind⟩

theorem isSign_of_tight
    (hWritten : t.Written table)
    (hOperator : isTightOperator t = true) :
    t.IsSign table := by
  refine ⟨hWritten, ?_⟩
  simp only [isTightOperator, decide_eq_true_eq,
    List.mem_cons, List.not_mem_nil, or_false] at hOperator
  rcases hOperator with hKind | hKind | hKind | hKind |
      hKind | hKind | hKind | hKind <;>
    exact ⟨_, rfl, hKind⟩

theorem isSign_of_equality
    (hWritten : t.Written table)
    (hOperator : Level.equality.accepts t = true) :
    t.IsSign table := by
  refine ⟨hWritten, ?_⟩
  simp only [Level.accepts, Level.operators,
    decide_eq_true_eq, List.mem_cons, List.not_mem_nil,
    or_false] at hOperator
  rcases hOperator with hKind | hKind <;>
    exact ⟨_, rfl, hKind⟩

theorem isWordOperator_of_logical
    (hWritten : t.Written table)
    (hOperator :
      Level.conjunction.accepts t = true ∨
        Level.disjunction.accepts t = true) :
    t.IsWordOperator table := by
  refine ⟨hWritten, ?_⟩
  simp only [Level.accepts, Level.operators,
    decide_eq_true_eq, List.mem_singleton] at hOperator
  rcases hOperator with hKind | hKind <;>
    exact ⟨_, hKind⟩

end Token

/- A literal of a source is shown by its text. -/
theorem Value.legible_of_filled
    {value : Value}
    (hFilled :
      (Slot.ofKind value.literalKind).Filled table)
    (hString : (Expr.literal value).isString = false) :
    value.Legible := by
  cases value with
  | str s => cases hString
  | num x =>
      obtain ⟨t, hWritten, hKind⟩ := hFilled
      cases hWritten with
      | number hNumber line =>
          cases hKind
          exact Decimal.unsigned_toFloat _
      | _ => cases hKind
  | bool b => trivial
  | null => trivial

/- An expression of a source is shown by its prefix form. -/
theorem Expr.Sourced.legible
    {e : Expr}
    (hSourced : e.Sourced table) :
    e.Legible table := by
  induction e with
  | literal value =>
      obtain ⟨-, hFilled, hStrings, -⟩ := hSourced
      exact Value.legible_of_filled
        (hFilled _ (List.mem_singleton_self _))
        (hStrings _ (List.mem_singleton_self _))
  | group inner ih =>
      obtain ⟨hCanonical, hFilled, hStrings, hNames⟩ :=
        hSourced
      simp only [slots, parts, List.forall_mem_cons,
        List.forall_mem_append] at hFilled hStrings
      exact ih
        ⟨hCanonical, hFilled.2.1, hStrings.2, hNames⟩
  | unary operator operand ih =>
      obtain ⟨⟨hKind, -, hCanonical⟩, hFilled, hStrings,
        hNames⟩ := hSourced
      simp only [slots, parts, List.forall_mem_cons,
        Slot.filled_kept] at hFilled hStrings
      exact
        ⟨Token.isSign_of_unary hFilled.1 hKind,
          ih ⟨hCanonical, hFilled.2, hStrings.2, hNames⟩⟩
  | binary left operator right leftIH rightIH =>
      obtain ⟨⟨hKind, -, hLeft, hRight⟩, hFilled, hStrings,
        hNames⟩ := hSourced
      simp only [slots, parts, nameTokens,
        List.forall_mem_cons, List.forall_mem_append,
        Slot.filled_kept] at hFilled hStrings hNames
      obtain ⟨hFilledLeft, hWritten, hFilledRight⟩ :=
        hFilled
      obtain ⟨-, hStringsLeft, hStringsRight⟩ := hStrings
      refine
        ⟨?_,
          leftIH
            ⟨hLeft, hFilledLeft, hStringsLeft, hNames.1⟩,
          rightIH
            ⟨hRight, hFilledRight, hStringsRight,
              hNames.2⟩⟩
      rcases hKind with ⟨hTight, -⟩ | ⟨hEquality, -⟩
      · exact Token.isSign_of_tight hWritten hTight
      · exact Token.isSign_of_equality hWritten hEquality
  | logical left operator right leftIH rightIH =>
      obtain ⟨⟨hKind, hLeft, hRight⟩, hFilled, hStrings,
        hNames⟩ := hSourced
      simp only [slots, parts, nameTokens,
        List.forall_mem_cons, List.forall_mem_append,
        Slot.filled_kept] at hFilled hStrings hNames
      obtain ⟨hFilledLeft, hWritten, hFilledRight⟩ :=
        hFilled
      obtain ⟨-, hStringsLeft, hStringsRight⟩ := hStrings
      exact
        ⟨Token.isWordOperator_of_logical hWritten
            (hKind.imp And.left And.left),
          leftIH
            ⟨hLeft, hFilledLeft, hStringsLeft, hNames.1⟩,
          rightIH
            ⟨hRight, hFilledRight, hStringsRight,
              hNames.2⟩⟩
  | var name =>
      obtain ⟨hKind, hFilled, -, hNames⟩ := hSourced
      simp only [slots, nameTokens,
        List.forall_mem_singleton, Slot.filled_kept]
          at hFilled hNames
      exact ⟨hFilled, hKind, hNames⟩
  | assign name value ih =>
      obtain ⟨⟨hKind, hCanonical⟩, hFilled, hStrings,
        hNames⟩ := hSourced
      simp only [slots, parts, nameTokens,
        List.forall_mem_cons, Slot.filled_kept]
          at hFilled hStrings hNames
      exact
        ⟨⟨hFilled.1, hKind, hNames.1⟩,
          ih
            ⟨hCanonical, hFilled.2.2, hStrings.2,
              hNames.2⟩⟩

namespace Stmt

variable {spelling : String}

/- The strings of its own expressions. -/
theorem Sourced.strings_of_mem
    {s : Stmt}
    (hSourced : s.Sourced table)
    {e : Expr}
    (hMem : e ∈ s.expressions) :
    ∀ part ∈ e.parts, part.isString = false := by
  have hSelf : s ∈ s.parts := by
    cases s <;> exact List.mem_cons_self ..
  exact hSourced.strings s hSelf e hMem

/- Statements of a source are so one by one. -/
theorem sourced_of_mem
    {body : List Stmt}
    (hCanonical : CanonicalAll body)
    (hFilled : ∀ slot ∈ slotsAll body, slot.Filled table)
    (hPlain : Program.Plain body) :
    ∀ s ∈ body, s.Sourced table := by
  intro s hMem
  refine
    ⟨canonicalAll_iff.mp hCanonical s hMem, ?_, ?_, ?_⟩
  · intro slot hSlot
    exact hFilled slot (slots_subset_slotsAll hMem hSlot)
  · intro inner hInner
    exact
      hPlain.strings inner
        (parts_subset_partsAll hMem hInner)
  · intro name hName
    exact
      hPlain.names name
        (mem_nameTokensAll.mpr ⟨s, hMem, hName⟩)

/-
  A statement of a source is shown by its prefix form, if
  all print statements start with the same word.
-/
theorem Sourced.legible
    (hPrint :
      ∀ t : Token,
        t.Written table →
        t.kind = .keyword .printWord →
        t.lexeme = spelling)
    {s : Stmt}
    (hSourced : s.Sourced table) :
    s.Legible table spelling := by
  induction s with
  | expression value =>
      have hStrings :=
        hSourced.strings_of_mem (List.mem_singleton_self _)
      obtain ⟨hCanonical, hFilled, -, hNames⟩ := hSourced
      rw [slots, List.forall_mem_append] at hFilled
      exact Expr.Sourced.legible
        ⟨hCanonical, hFilled.1, hStrings, hNames⟩
  | print keyword value =>
      have hStrings :=
        hSourced.strings_of_mem (List.mem_singleton_self _)
      obtain ⟨⟨hKind, hCanonical⟩, hFilled, -, hNames⟩ :=
        hSourced
      simp only [slots, List.forall_mem_cons,
        List.forall_mem_append, Slot.filled_kept] at hFilled
      obtain ⟨hKeyword, hValue, -⟩ := hFilled
      exact
        ⟨⟨hKeyword, hPrint keyword hKeyword hKind⟩,
          Expr.Sourced.legible
            ⟨hCanonical, hValue, hStrings, hNames⟩⟩
  | declare name initial =>
      cases initial with
      | none =>
          obtain ⟨hKind, hFilled, -, hNames⟩ := hSourced
          simp only [slots, nameTokens,
            List.forall_mem_cons, Slot.filled_kept]
              at hFilled hNames
          exact ⟨hFilled.2.1, hKind, hNames.1⟩
      | some initial =>
          have hStrings :=
            hSourced.strings_of_mem
              (List.mem_singleton_self _)
          obtain ⟨⟨hKind, hCanonical⟩, hFilled, -,
            hNames⟩ := hSourced
          simp only [slots, nameTokens,
            List.forall_mem_cons, List.forall_mem_append,
            Slot.filled_kept] at hFilled hNames
          obtain ⟨-, hName, -, hInitial, -⟩ := hFilled
          exact
            ⟨⟨hName, hKind, hNames.1⟩,
              Expr.Sourced.legible
                ⟨hCanonical, hInitial, hStrings,
                  hNames.2⟩⟩
  | block body ih =>
      obtain ⟨hCanonical, hFilled, hStrings, hNames⟩ :=
        hSourced
      simp only [slots, parts, List.forall_mem_cons,
        List.forall_mem_append] at hFilled hStrings
      have hBody :=
        sourced_of_mem hCanonical hFilled.2.1
          ⟨hStrings.2, hNames⟩
      exact legibleAll_iff.mpr fun s hMem =>
        ih s hMem (hBody s hMem)
  | ifThen condition thenBranch ih =>
      have hCondition :=
        hSourced.strings_of_mem (List.mem_singleton_self _)
      obtain ⟨⟨hFirst, hSecond, -⟩, hFilled, hStrings,
        hNames⟩ := hSourced
      simp only [slots, conditionSlots, parts, nameTokens,
        List.forall_mem_cons, List.forall_mem_append]
          at hFilled hStrings hNames
      obtain ⟨-, ⟨-, hSlots, -⟩, hThen⟩ := hFilled
      exact
        ⟨Expr.Sourced.legible
            ⟨hFirst, hSlots, hCondition, hNames.1⟩,
          ih ⟨hSecond, hThen, hStrings.2, hNames.2⟩⟩
  | ifElse condition thenBranch elseBranch thenIH elseIH =>
      have hCondition :=
        hSourced.strings_of_mem (List.mem_singleton_self _)
      obtain ⟨⟨hFirst, ⟨hSecond, -, -⟩, hThird, -⟩, hFilled,
        hStrings, hNames⟩ := hSourced
      simp only [slots, conditionSlots, parts, nameTokens,
        List.forall_mem_cons, List.forall_mem_append]
          at hFilled hStrings hNames
      obtain ⟨-, ⟨-, hSlots, -⟩, hThen, -, hElse⟩ := hFilled
      obtain ⟨-, hThenStrings, hElseStrings⟩ := hStrings
      obtain ⟨hNames, hThenNames, hElseNames⟩ := hNames
      exact
        ⟨Expr.Sourced.legible
            ⟨hFirst, hSlots, hCondition, hNames⟩,
          thenIH
            ⟨hSecond, hThen, hThenStrings, hThenNames⟩,
          elseIH
            ⟨hThird, hElse, hElseStrings, hElseNames⟩⟩
  | whileDo condition body ih =>
      have hCondition :=
        hSourced.strings_of_mem (List.mem_singleton_self _)
      obtain ⟨⟨hFirst, hSecond, -⟩, hFilled, hStrings,
        hNames⟩ := hSourced
      simp only [slots, conditionSlots, parts, nameTokens,
        List.forall_mem_cons, List.forall_mem_append]
          at hFilled hStrings hNames
      obtain ⟨-, ⟨-, hSlots, -⟩, hBody⟩ := hFilled
      exact
        ⟨Expr.Sourced.legible
            ⟨hFirst, hSlots, hCondition, hNames.1⟩,
          ih ⟨hSecond, hBody, hStrings.2, hNames.2⟩⟩
  | skipped => trivial

end Stmt

end OcScript

------------------------------------------------------------
-- Programs by Their Prefix Forms
------------------------------------------------------------

namespace OcScript

open Token (withoutLine keepsText_withoutLine)

namespace Stmt

variable {table : KeywordTable} {spelling : String}

/-
  Two legible statements have the same prefix form just if
  they are the same but for lines.
-/
theorem dump_eq_iff
    {s u : Stmt}
    (hS : s.Legible table spelling)
    (hU : u.Legible table spelling) :
    s.dump = u.dump ↔
      s.mapTokens withoutLine = u.mapTokens withoutLine := by
  rw [← String.toList_inj, toList_dump, toList_dump]
  refine ⟨?_, ?_⟩
  · intro hChars
    have hForm : s.form = u.form :=
      Form.chars_injective (isWord_of_mem_words hS)
        (isWord_of_mem_words hU) hChars
    rw [← toStmt_form hS, hForm, toStmt_form hU]
  · intro hSame
    rw [← form_mapTokens keepsText_withoutLine s, hSame,
      form_mapTokens keepsText_withoutLine]

/- The same holds of lists of statements. -/
theorem dumps_eq_iff
    {body other : List Stmt}
    (hBody : LegibleAll table spelling body)
    (hOther : LegibleAll table spelling other) :
    body.map dump = other.map dump ↔
      mapTokensAll withoutLine body =
        mapTokensAll withoutLine other := by
  induction body generalizing other with
  | nil =>
      cases other <;> simp [mapTokensAll]
  | cons s rest ih =>
      cases other with
      | nil => simp [mapTokensAll]
      | cons u others =>
          simp only [List.map_cons, mapTokensAll,
            List.cons.injEq, dump_eq_iff hBody.1 hOther.1,
            ih hBody.2 hOther.2]

end Stmt

namespace KeywordTable

variable {map : StringMap}
variable {entries : List (String × String)}

/- The word that a map gives to print statements. -/
def printSpelling
    (map : StringMap) :
    String :=
  (map[Keyword.printWord.name]?).getD ""

/- All print statements start with the word of the map. -/
theorem lexeme_of_printWord
    (hOrder : map.IsOrder entries)
    {t : Token}
    (hWritten : t.Written (ofSpellings entries))
    (hKind : t.kind = .keyword .printWord) :
    t.lexeme = printSpelling map := by
  obtain ⟨-, hFound⟩ := hWritten.word_of_keyword hKind
  have hEntry :=
    hOrder.mem_iff.mp (name_mem_of_getElem? hFound)
  rw [printSpelling, hEntry]
  rfl

end KeywordTable

namespace Program

open KeywordTable (ofSpellings printSpelling)

variable {map : StringMap}
variable {entries : List (String × String)}

/- The plain program of a clean source is legible. -/
theorem legibleAll_of_clean
    (hOrder : map.IsOrder entries)
    {source : String}
    (hClean :
      (check (ofSpellings entries) source).diagnostics = [])
    (hPlain :
      (check (ofSpellings entries) source).program.Plain) :
    Stmt.LegibleAll (ofSpellings entries)
      (printSpelling map)
      (check (ofSpellings entries) source).program := by
  obtain ⟨hCanonical, hWrites⟩ := written_of_clean hClean
  have hFilled :=
    hWrites.filled fun t hMem => written_of_mem_body hMem
  have hSourced :=
    Stmt.sourced_of_mem hCanonical hFilled hPlain
  exact Stmt.legibleAll_iff.mpr fun s hMem =>
    (hSourced s hMem).legible fun t hWritten hKind =>
      KeywordTable.lexeme_of_printWord hOrder hWritten hKind

/-
  The prefix forms of a clean and plain program settle the
  program but for the lines of its tokens.

  The table is made from any map of keywords, in any order,
  and is the same for both programs.  Even if two keywords
  share a spelling, each has one spelling only, so that the
  word of print statements is known.  Nothing is assumed of
  the texts of numbers: different numbers that can be
  written without a minus have different texts.
-/
theorem dump_settles_program
    (hOrder : map.IsOrder entries)
    {source other : String} :
    let program :=
      (check (ofSpellings entries) source).program
    let program' :=
      (check (ofSpellings entries) other).program
    (check (ofSpellings entries) source).diagnostics = [] →
      (check (ofSpellings entries) other).diagnostics = [] →
      program.Plain →
      program'.Plain →
      (program.map Stmt.dump = program'.map Stmt.dump ↔
        Stmt.mapTokensAll withoutLine program =
          Stmt.mapTokensAll withoutLine program') := by
  intro program program' hClean hOther hPlain hPlain'
  exact Stmt.dumps_eq_iff
    (legibleAll_of_clean hOrder hClean hPlain)
    (legibleAll_of_clean hOrder hOther hPlain')

/- Spellings with the head of a group for an operator. -/
def groupSpellings : List (String × String) :=
  [("var", "var"), ("if", "se"), ("else", "senon"),
    ("print", "est"), ("or", "group")]

/- Heads with one and with two forms behind them. -/
def sharedHeads : String :=
  "var a;var b=1.50;se(a group-b)est-b-1;senon a=(b);"

/- The same program on other lines. -/
def sharedHeadsApart : String :=
  "var a;\nvar b = 1.5;\n\nse (a group -b)\n" ++
    "  est -b - 1;\nsenon\n  a = (b); // a group"

/- The prefix forms of both. -/
def sharedHeadsDump : List String :=
  ["(var a)", "(var b 1.5)",
    "(if (group a (- b)) (print (- (- b 1))) " ++
      "(expr (= a (group b))))"]

theorem dump_settles_program_sharedHeads :
    let table := ofSpellings groupSpellings
    let program := (check table sharedHeads).program
    let program' := (check table sharedHeadsApart).program
    (StringMap.ofMembers groupSpellings).IsOrder
        groupSpellings ∧
      (check table sharedHeads).diagnostics = [] ∧
      (check table sharedHeadsApart).diagnostics = [] ∧
      program.Plain ∧
      program'.Plain ∧
      program.map Stmt.dump = sharedHeadsDump ∧
      program'.map Stmt.dump = sharedHeadsDump ∧
      Stmt.mapTokensAll withoutLine program =
        Stmt.mapTokensAll withoutLine program' := by
  intro table program program'
  have hPerm :
      groupSpellings.isPerm
        (StringMap.ofMembers groupSpellings).toList =
          true := by
    decide +kernel
  have hOrder :
      (StringMap.ofMembers groupSpellings).IsOrder
        groupSpellings :=
    List.isPerm_iff.mp hPerm
  have hClean :
      (check table sharedHeads).diagnostics = [] := by
    decide +kernel
  have hOther :
      (check table sharedHeadsApart).diagnostics = [] := by
    decide +kernel
  have hPlain : program.Plain := by
    decide +kernel
  have hPlain' : program'.Plain := by
    decide +kernel
  have hDump :
      program.map Stmt.dump = sharedHeadsDump := by
    decide +kernel
  have hDump' :
      program'.map Stmt.dump = sharedHeadsDump := by
    decide +kernel
  have hSettled :=
    dump_settles_program hOrder hClean hOther hPlain hPlain'
  exact
    ⟨hOrder, hClean, hOther, hPlain, hPlain', hDump, hDump',
      hSettled.mp (hDump.trans hDump'.symm)⟩

end Program

end OcScript
