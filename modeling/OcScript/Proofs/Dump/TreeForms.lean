import OcScript.Proofs.Dump.Form
import OcScript.Proofs.Number.ReadBack
import OcScript.Proofs.Scan.Rescan
import OcScript.Proofs.Scan.Respelled
import OcScript.Proofs.Trees

/-
  This file proves that trees can be read back from their
  prefix forms, but for the lines of their tokens.

  A word of the text is scanned again, which finds the kind
  of an operator, a name or a number.  What a head stands
  for is settled by how many forms there are behind it and
  by its kind.  The word of a print statement does not
  occur in the text and is supplied from outside.

  Key definitions include:
    * `OcScript.Expr.form`
    * `OcScript.Stmt.form`
    * `OcScript.Token.withoutLine`
    * `OcScript.Token.ofWord`
    * `OcScript.Form.toExpr`
    * `OcScript.Form.toStmt`
    * `OcScript.Expr.Legible`
    * `OcScript.Stmt.Legible`

  Key theorems include:
    * `OcScript.Stmt.toList_dump`
    * `OcScript.Token.ofWord_lexeme`
    * `OcScript.Expr.toExpr_form`
    * `OcScript.Stmt.toStmt_form`
    * `OcScript.Stmt.isWord_of_mem_words`
-/

------------------------------------------------------------
-- Forms of Trees
------------------------------------------------------------

namespace OcScript

namespace Expr

/- The form of an expression. -/
def form : Expr → Form
| .literal value => .atom (dumpValue value)
| .group inner => .node "group" [inner.form]
| .unary operator operand =>
    .node operator.lexeme [operand.form]
| .binary left operator right =>
    .node operator.lexeme [left.form, right.form]
| .logical left operator right =>
    .node operator.lexeme [left.form, right.form]
| .var name => .atom name.lexeme
| .assign name value =>
    .node "=" [.atom name.lexeme, value.form]

/- The prefix form of an expression is the text of this. -/
theorem toList_dump
    (e : Expr) :
    e.dump.toList = e.form.chars := by
  induction e <;>
    simp [dump, form, Form.chars, Form.charsAll, *]

/- The lines of tokens do not matter to the form. -/
theorem form_mapTokens
    {f : Token → Token}
    (hKeeps : Token.KeepsText f)
    (e : Expr) :
    (e.mapTokens f).form = e.form := by
  induction e <;>
    simp [form, mapTokens, hKeeps.lexeme, *]

end Expr

namespace Stmt

mutual

/- The form of a statement. -/
def form : Stmt → Form
| .expression value => .node "expr" [value.form]
| .print _ value => .node "print" [value.form]
| .declare name none => .node "var" [.atom name.lexeme]
| .declare name (some initial) =>
    .node "var" [.atom name.lexeme, initial.form]
| .block body => .node "block" (formAll body)
| .ifThen condition thenBranch =>
    .node "if" [condition.form, thenBranch.form]
| .ifElse condition thenBranch elseBranch =>
    .node "if"
      [condition.form, thenBranch.form, elseBranch.form]
| .whileDo condition body =>
    .node "while" [condition.form, body.form]
| .skipped => .node "error" []

/- The forms of statements. -/
def formAll : List Stmt → List Form
| [] => []
| s :: rest => s.form :: formAll rest

end

theorem formAll_eq_map
    (body : List Stmt) :
    formAll body = body.map form := by
  induction body with
  | nil => rfl
  | cons s rest ih => rw [formAll, ih, List.map_cons]

/- The lines of tokens do not matter to the form. -/
theorem form_mapTokens
    {f : Token → Token}
    (hKeeps : Token.KeepsText f)
    (s : Stmt) :
    (s.mapTokens f).form = s.form := by
  induction s with
  | declare name initial =>
      cases initial <;>
        simp [form, mapTokens, hKeeps.lexeme,
          Expr.form_mapTokens hKeeps]
  | block body ih =>
      have hBody :
          formAll (mapTokensAll f body) = formAll body := by
        rw [formAll_eq_map, formAll_eq_map,
          mapTokensAll_eq_map, List.map_map]
        exact List.map_congr_left ih
      simp [form, mapTokens, hBody]
  | _ =>
      simp [form, mapTokens, Expr.form_mapTokens hKeeps, *]

/- The prefix form of a statement is the text of this. -/
theorem toList_dump
    (s : Stmt) :
    s.dump.toList = s.form.chars := by
  induction s with
  | expression value =>
      simp [dump, form, Form.chars, Form.charsAll,
        Expr.toList_dump]
  | print keyword value =>
      simp [dump, form, Form.chars, Form.charsAll,
        Expr.toList_dump]
  | declare name initial =>
      cases initial <;>
        simp [dump, form, Form.chars, Form.charsAll,
          Expr.toList_dump]
  | block body ih =>
      have hBody :
          (dumpBody body).toList =
            Form.charsAll (formAll body) := by
        induction body with
        | nil => rfl
        | cons s rest ihRest =>
            obtain ⟨hFirst, hRest⟩ :=
              List.forall_mem_cons.mp ih
            simp [dumpBody, formAll, Form.charsAll, hFirst,
              ihRest hRest]
      simp [dump, form, Form.chars, hBody]
  | ifThen condition thenBranch ih =>
      simp [dump, form, Form.chars, Form.charsAll,
        Expr.toList_dump, ih]
  | ifElse condition thenBranch elseBranch thenIH elseIH =>
      simp [dump, form, Form.chars, Form.charsAll,
        Expr.toList_dump, thenIH, elseIH]
  | whileDo condition body ih =>
      simp [dump, form, Form.chars, Form.charsAll,
        Expr.toList_dump, ih]
  | skipped =>
      simp [dump, form, Form.chars, Form.charsAll]

end Stmt

end OcScript

------------------------------------------------------------
-- Reading Words Back
------------------------------------------------------------

namespace OcScript

namespace Token

/- A token without regard to its line. -/
def withoutLine
    (t : Token) :
    Token :=
  { t with line := 0 }

theorem keepsText_withoutLine :
    KeepsText withoutLine :=
  ⟨fun _ => rfl, fun _ => rfl⟩

/- The token that a word is scanned as. -/
def ofWord
    (table : KeywordTable)
    (word : String) :
    Token :=
  ((scan table word).body.headD (atEnd 0)).withoutLine

variable {table : KeywordTable} {t : Token}

/- A token is found again in its lexeme. -/
theorem ofWord_lexeme
    (hWritten : t.Written table) :
    ofWord table t.lexeme = t.withoutLine := by
  have hScan :=
    scan_spaced (List.forall_mem_singleton.mpr hWritten)
      (.inl rfl)
  rw [Chunk.spaced_singleton, List.append_nil,
    String.ofList_toList] at hScan
  rw [ofWord, Scanned.body, hScan, relined_cons]
  rfl

end Token

namespace Value

open Binary64 (ofParts)

/- The value that a word stands for, if it is no number. -/
def ofWord? : String → Option Value
| "nil" => some .null
| "true" => some (.bool true)
| "false" => some (.bool false)
| "Infinity" => some (.num (ofParts (.infinity .positive)))
| _ => none

/- The words that values are dumped as, NaN among them. -/
def reservedWords : List String :=
  ["nil", "true", "false", "NaN", "Infinity"]

theorem ofWord?_eq_none
    {word : String}
    (hFree : word ∉ reservedWords) :
    ofWord? word = none := by
  unfold ofWord?
  split <;> first
    | rfl
    | exact absurd hFree (by decide)

end Value

/- The expression that a word stands for. -/
def Expr.ofWord
    (table : KeywordTable)
    (word : String) :
    Expr :=
  match Value.ofWord? word with
  | some value => .literal value
  | none =>
      let t := Token.ofWord table word
      match t.kind with
      | .number x => .literal (.num x)
      | _ => .var t

end OcScript

------------------------------------------------------------
-- Reading Forms Back
------------------------------------------------------------

namespace OcScript

/-
  The expression with a given head and given operands.  One
  operand makes a group or a unary expression, two make an
  assignment or an expression with an operator in between.
-/
def Expr.ofOperands
    (table : KeywordTable)
    (head : String) :
    List Expr → Expr
| [operand] =>
    if head = "group" then
      .group operand
    else
      .unary (Token.ofWord table head) operand
| [left, right] =>
    let operator := Token.ofWord table head
    match head, left, operator.kind with
    | "=", .var name, _ => .assign name right
    | _, _, .keyword _ => .logical left operator right
    | _, _, _ => .binary left operator right
| _ => .literal .null

mutual

/- The expression that a form stands for. -/
def Form.toExpr
    (table : KeywordTable) :
    Form → Expr
| .atom word => .ofWord table word
| .node head items =>
    .ofOperands table head (toExprs table items)

/- The expressions that forms stand for. -/
def Form.toExprs
    (table : KeywordTable) :
    List Form → List Expr
| [] => []
| f :: rest => f.toExpr table :: toExprs table rest

end

/-
  The statement with a given head in front of given forms,
  read as expressions or, in the second list, as statements.
-/
def Stmt.ofItems
    (table : KeywordTable)
    (spelling head : String)
    (items : List Expr)
    (bodies : List Stmt) :
    Stmt :=
  match head, items, bodies with
  | "expr", [value], _ => .expression value
  | "print", [value], _ =>
      .print (Token.ofWord table spelling) value
  | "var", [.var name], _ => .declare name none
  | "var", [.var name, initial], _ =>
      .declare name (some initial)
  | "block", _, body => .block body
  | "if", [condition, _], [_, thenBranch] =>
      .ifThen condition thenBranch
  | "if", [condition, _, _], [_, thenBranch, elseBranch] =>
      .ifElse condition thenBranch elseBranch
  | "while", [condition, _], [_, body] =>
      .whileDo condition body
  | _, _, _ => .skipped

mutual

/-
  The statement that a form stands for, if `spelling` is the
  word that starts print statements.
-/
def Form.toStmt
    (table : KeywordTable)
    (spelling : String) :
    Form → Stmt
| .atom _ => .skipped
| .node head items =>
    .ofItems table spelling head (toExprs table items)
      (toStmts table spelling items)

/- The statements that forms stand for. -/
def Form.toStmts
    (table : KeywordTable)
    (spelling : String) :
    List Form → List Stmt
| [] => []
| f :: rest =>
    f.toStmt table spelling ::
      toStmts table spelling rest

end

theorem Form.toStmts_eq_map
    (table : KeywordTable)
    (spelling : String)
    (items : List Form) :
    toStmts table spelling items =
      items.map (toStmt table spelling) := by
  induction items with
  | nil => rfl
  | cons f rest ih => rw [toStmts, ih, List.map_cons]

end OcScript

------------------------------------------------------------
-- Legible Trees
------------------------------------------------------------

namespace OcScript

/- The symbol can be an operator of an expression. -/
def Symbol.isOperator : Symbol → Bool
| minus => true
| plus => true
| slash => true
| star => true
| bang => true
| bangEqual => true
| equalEqual => true
| greater => true
| greaterEqual => true
| less => true
| lessEqual => true
| _ => false

namespace Token

variable (table : KeywordTable) (t : Token)

/- A written symbol that can be an operator. -/
def IsSign : Prop :=
  t.Written table ∧
    ∃ s : Symbol, s.isOperator ∧ t.kind = .symbol s

/- A written keyword. -/
def IsWordOperator : Prop :=
  t.Written table ∧ ∃ k, t.kind = .keyword k

/- A written name that is not dumped like a literal. -/
def IsLegibleName : Prop :=
  t.Written table ∧
    t.kind = .identifier ∧
    t.lexeme ∉ Value.reservedWords

end Token

/- A value that its prefix form shows without doubt. -/
def Value.Legible : Value → Prop
| .str _ => False
| .num x => Binary64.Unsigned (Binary64.parts x)
| .bool _ => True
| .null => True

/- An expression whose tokens its prefix form shows. -/
def Expr.Legible
    (table : KeywordTable) :
    Expr → Prop
| .literal value => value.Legible
| .group inner => inner.Legible table
| .unary operator operand =>
    operator.IsSign table ∧ operand.Legible table
| .binary left operator right =>
    operator.IsSign table ∧
      left.Legible table ∧ right.Legible table
| .logical left operator right =>
    operator.IsWordOperator table ∧
      left.Legible table ∧ right.Legible table
| .var name => name.IsLegibleName table
| .assign name value =>
    name.IsLegibleName table ∧ value.Legible table

namespace Stmt

/-
  A print statement starts with `spelling`, which its prefix
  form does not show.
-/
def IsPrintWord
    (table : KeywordTable)
    (spelling : String)
    (keyword : Token) :
    Prop :=
  keyword.Written table ∧ keyword.lexeme = spelling

mutual

/-
  A statement whose tokens its prefix form shows, except for
  the word that starts print statements.
-/
def Legible
    (table : KeywordTable)
    (spelling : String) :
    Stmt → Prop
| .expression value => value.Legible table
| .print keyword value =>
    IsPrintWord table spelling keyword ∧ value.Legible table
| .declare name none => name.IsLegibleName table
| .declare name (some initial) =>
    name.IsLegibleName table ∧ initial.Legible table
| .block body => LegibleAll table spelling body
| .ifThen condition thenBranch =>
    condition.Legible table ∧
      thenBranch.Legible table spelling
| .ifElse condition thenBranch elseBranch =>
    condition.Legible table ∧
      thenBranch.Legible table spelling ∧
      elseBranch.Legible table spelling
| .whileDo condition body =>
    condition.Legible table ∧ body.Legible table spelling
| .skipped => True

/- Statements of this kind. -/
def LegibleAll
    (table : KeywordTable)
    (spelling : String) :
    List Stmt → Prop
| [] => True
| s :: rest =>
    s.Legible table spelling ∧
      LegibleAll table spelling rest

end

theorem legibleAll_iff
    {table : KeywordTable}
    {spelling : String}
    {body : List Stmt} :
    LegibleAll table spelling body ↔
      ∀ s ∈ body, s.Legible table spelling := by
  induction body with
  | nil =>
      simp [LegibleAll]
  | cons s rest ih =>
      simp [LegibleAll, ih]

end Stmt

end OcScript

------------------------------------------------------------
-- Legible Words
------------------------------------------------------------

namespace OcScript

namespace Form

/- Letters, digits and points make a word of a form. -/
theorem isWord_of_parts
    {word : String}
    (hParts :
      ∀ c ∈ word.toList,
        Chunk.isWordPart c = true ∨ c = '.') :
    IsWord word := by
  have hMark :
      ∀ c,
        Chunk.isWordPart c = true ∨ c = '.' →
        c ≠ ' ' ∧ c ≠ '(' ∧ c ≠ ')' := by
    intro c hPart
    refine ⟨?_, ?_, ?_⟩ <;>
      rintro rfl <;> exact absurd hPart (by decide)
  exact fun c hMem => hMark c (hParts c hMem)

theorem isWord_of_word
    {word : String}
    (hLexeme : Lexeme .word word.toList) :
    IsWord word := by
  apply isWord_of_parts
  intro c hMem
  refine .inl ((Lexeme.isWordPart_iff c).mpr ?_)
  generalize word.toList = text at hLexeme hMem
  cases hLexeme with
  | word hFirst hRest =>
      rcases List.mem_cons.mp hMem with rfl | hMem
      · exact .inl hFirst
      · exact hRest c hMem

theorem isWord_of_number
    {word : String}
    (hLexeme : Lexeme .number word.toList) :
    IsWord word := by
  apply isWord_of_parts
  intro c hMem
  rw [Lexeme.isWordPart_iff]
  generalize word.toList = text at hLexeme hMem
  cases hLexeme with
  | whole hFirst hDigits =>
      rcases List.mem_cons.mp hMem with rfl | hMem
      · exact .inl (.inr hFirst)
      · exact .inl (.inr (hDigits c hMem))
  | fraction hFirst hDigits hPoint hDecimals =>
      simp only [List.mem_cons, List.mem_append] at hMem
      rcases hMem with rfl | hMem | rfl | rfl | hMem
      · exact .inl (.inr hFirst)
      · exact .inl (.inr (hDigits c hMem))
      · exact .inr rfl
      · exact .inl (.inr hPoint)
      · exact .inl (.inr (hDecimals c hMem))

end Form

/- Signs do not look like the heads of other forms. -/
theorem Symbol.spelling_of_isOperator
    (s : Symbol)
    (hOperator : s.isOperator = true) :
    Form.IsWord (String.ofList s.spelling) ∧
      String.ofList s.spelling ≠ "group" ∧
      String.ofList s.spelling ≠ "=" := by
  revert hOperator
  cases s <;> decide

namespace Token

variable {table : KeywordTable} {t : Token}

/- A symbol is written with its spelling. -/
theorem Written.lexeme_of_symbol
    (hWritten : t.Written table)
    {s : Symbol}
    (hKind : t.kind = .symbol s) :
    t.lexeme = String.ofList s.spelling := by
  cases hWritten <;> cases hKind
  rfl

/- A keyword is written with a word that is found. -/
theorem Written.word_of_keyword
    (hWritten : t.Written table)
    {k : Keyword}
    (hKind : t.kind = .keyword k) :
    Lexeme .word t.lexeme.toList ∧
      table[t.lexeme]? = some k := by
  cases hWritten with
  | keyword hWord hEntry =>
      cases hKind
      exact ⟨by rwa [String.toList_ofList], hEntry⟩
  | _ => cases hKind

/- A name is written with a word. -/
theorem Written.word_of_identifier
    (hWritten : t.Written table)
    (hKind : t.kind = .identifier) :
    Lexeme .word t.lexeme.toList := by
  cases hWritten with
  | identifier hWord hEntry =>
      rwa [String.toList_ofList]
  | _ => cases hKind

theorem IsSign.lexeme
    (hSign : t.IsSign table) :
    Form.IsWord t.lexeme ∧
      t.lexeme ≠ "group" ∧ t.lexeme ≠ "=" := by
  obtain ⟨hWritten, s, hOperator, hKind⟩ := hSign
  rw [hWritten.lexeme_of_symbol hKind]
  exact s.spelling_of_isOperator hOperator

theorem IsWordOperator.lexeme
    (hOperator : t.IsWordOperator table) :
    Form.IsWord t.lexeme ∧ t.lexeme ≠ "=" := by
  obtain ⟨hWritten, k, hKind⟩ := hOperator
  obtain ⟨hWord, -⟩ := hWritten.word_of_keyword hKind
  refine ⟨Form.isWord_of_word hWord, ?_⟩
  intro hEquals
  rw [hEquals] at hWord
  exact absurd hWord (by decide)

theorem IsLegibleName.isWord
    (hName : t.IsLegibleName table) :
    Form.IsWord t.lexeme :=
  Form.isWord_of_word (hName.1.word_of_identifier hName.2.1)

/- A name is read back as a name. -/
theorem IsLegibleName.ofWord_lexeme
    (hName : t.IsLegibleName table) :
    Expr.ofWord table t.lexeme = .var t.withoutLine := by
  obtain ⟨hWritten, hKind, hFree⟩ := hName
  rw [Expr.ofWord, Value.ofWord?_eq_none hFree,
    Token.ofWord_lexeme hWritten]
  simp only [withoutLine, hKind]

end Token

namespace Value

open Binary64

variable {table : KeywordTable}

/- A number is written with one word. -/
theorem isWord_numberText
    {x : Float}
    (hUnsigned : Unsigned (parts x)) :
    Form.IsWord (numberText x) := by
  rcases isFinite_or_infinity hUnsigned with
    hFinite | hInfinite
  · obtain ⟨d, hDenotes, -⟩ :=
      numberText_readsBack hUnsigned hFinite
    exact Form.isWord_of_number
      (Decimal.lexeme_of_denotes hDenotes)
  · rw [numberText_infinity hInfinite]
    decide

/- No text that denotes a decimal is a reserved word. -/
theorem not_reserved_of_denotes
    {text : String}
    {d : Decimal}
    (hDenotes : Decimal.Denotes text.toList d) :
    text ∉ reservedWords := by
  have hLetters :
      ∀ word ∈ reservedWords,
        word.toList.head?.any Char.isDigit = false := by
    decide
  obtain ⟨c, hHead, hDigit⟩ :=
    Decimal.isDigit_head_of_denotes hDenotes
  intro hReserved
  have hFirst := hLetters text hReserved
  rw [hHead, Option.any_some,
    (Lexeme.isDigit_iff c).mpr hDigit] at hFirst
  cases hFirst

/- A number is read back as itself. -/
theorem ofWord_numberText
    {x : Float}
    (hUnsigned : Unsigned (parts x)) :
    Expr.ofWord table (numberText x) =
      .literal (.num x) := by
  rcases isFinite_or_infinity hUnsigned with
    hFinite | hInfinite
  · obtain ⟨d, hDenotes, hRead⟩ :=
      numberText_readsBack hUnsigned hFinite
    have hWord :=
      Token.ofWord_lexeme
        (.number (Decimal.lexeme_of_denotes hDenotes) 0 :
          Token.Written table _)
    rw [String.ofList_toList,
      Decimal.ofText_of_denotes hDenotes, hRead] at hWord
    rw [Expr.ofWord,
      ofWord?_eq_none (not_reserved_of_denotes hDenotes),
      hWord]
    rfl
  · have hInfinity : x = ofParts (.infinity .positive) :=
      parts_injective (hInfinite.trans rfl)
    rw [numberText_infinity hInfinite, hInfinity]
    rfl

theorem Legible.isWord
    {value : Value}
    (hLegible : value.Legible) :
    Form.IsWord (Expr.dumpValue value) := by
  cases value with
  | str s => exact hLegible.elim
  | num x => exact isWord_numberText hLegible
  | bool b => cases b <;> decide
  | null => decide

/- A literal is read back as its value. -/
theorem Legible.ofWord_dumpValue
    {value : Value}
    (hLegible : value.Legible) :
    Expr.ofWord table (Expr.dumpValue value) =
      .literal value := by
  cases value with
  | str s => exact hLegible.elim
  | num x => exact ofWord_numberText hLegible
  | bool b => cases b <;> rfl
  | null => rfl

end Value

end OcScript

------------------------------------------------------------
-- Reading Trees Back
------------------------------------------------------------

namespace OcScript

open Token (withoutLine)

variable {table : KeywordTable}

namespace Expr

/- A legible expression is written with words. -/
theorem isWord_of_mem_words
    {e : Expr}
    (hLegible : e.Legible table) :
    ∀ word ∈ e.form.words, Form.IsWord word := by
  induction e with
  | literal value =>
      simpa [form, Form.words] using hLegible.isWord
  | group inner ih =>
      have hGroup : Form.IsWord "group" := by
        decide
      simpa [form, Form.words, Form.wordsAll, hGroup] using
        ih hLegible
  | unary operator operand ih =>
      obtain ⟨hSign, hOperand⟩ := hLegible
      simpa [form, Form.words, Form.wordsAll,
        hSign.lexeme.1] using ih hOperand
  | binary left operator right leftIH rightIH =>
      obtain ⟨hSign, hLeft, hRight⟩ := hLegible
      simpa [form, Form.words, Form.wordsAll,
        hSign.lexeme.1, or_imp, forall_and] using
          ⟨leftIH hLeft, rightIH hRight⟩
  | logical left operator right leftIH rightIH =>
      obtain ⟨hOperator, hLeft, hRight⟩ := hLegible
      simpa [form, Form.words, Form.wordsAll,
        hOperator.lexeme.1, or_imp, forall_and] using
          ⟨leftIH hLeft, rightIH hRight⟩
  | var name =>
      simpa [form, Form.words] using hLegible.isWord
  | assign name value ih =>
      obtain ⟨hName, hValue⟩ := hLegible
      have hEquals : Form.IsWord "=" := by
        decide
      simpa [form, Form.words, Form.wordsAll, hEquals,
        hName.isWord] using ih hValue

/-
  A legible expression is read back from its form.  A sign
  is told from a group and from an assignment by its word,
  and from a keyword by what that word is scanned as.
-/
theorem toExpr_form
    {e : Expr}
    (hLegible : e.Legible table) :
    e.form.toExpr table = e.mapTokens withoutLine := by
  induction e with
  | literal value =>
      exact hLegible.ofWord_dumpValue
  | group inner ih =>
      simp [form, Form.toExpr, Form.toExprs, ofOperands,
        mapTokens, ih hLegible]
  | unary operator operand ih =>
      obtain ⟨hSign, hOperand⟩ := hLegible
      obtain ⟨-, hGroup, -⟩ := hSign.lexeme
      simp [form, Form.toExpr, Form.toExprs, ofOperands,
        mapTokens, ih hOperand, hGroup,
        Token.ofWord_lexeme hSign.1]
  | binary left operator right leftIH rightIH =>
      obtain ⟨hSign, hLeft, hRight⟩ := hLegible
      obtain ⟨-, -, hEquals⟩ := hSign.lexeme
      obtain ⟨hWritten, s, -, hKind⟩ := hSign
      have hKind' :
          operator.withoutLine.kind = .symbol s := hKind
      simp [form, Form.toExpr, Form.toExprs, ofOperands,
        mapTokens, leftIH hLeft, rightIH hRight, hEquals,
        Token.ofWord_lexeme hWritten, hKind']
  | logical left operator right leftIH rightIH =>
      obtain ⟨hOperator, hLeft, hRight⟩ := hLegible
      obtain ⟨-, hEquals⟩ := hOperator.lexeme
      obtain ⟨hWritten, k, hKind⟩ := hOperator
      have hKind' :
          operator.withoutLine.kind = .keyword k := hKind
      simp [form, Form.toExpr, Form.toExprs, ofOperands,
        mapTokens, leftIH hLeft, rightIH hRight, hEquals,
        Token.ofWord_lexeme hWritten, hKind']
  | var name =>
      exact hLegible.ofWord_lexeme
  | assign name value ih =>
      obtain ⟨hName, hValue⟩ := hLegible
      simp [form, Form.toExpr, Form.toExprs, ofOperands,
        mapTokens, ih hValue, hName.ofWord_lexeme]

end Expr

namespace Stmt

variable {spelling : String}

/- A legible statement is written with words. -/
theorem isWord_of_mem_words
    {s : Stmt}
    (hLegible : s.Legible table spelling) :
    ∀ word ∈ s.form.words, Form.IsWord word := by
  have hHeads :
      ∀ head ∈
        ["expr", "print", "var", "block", "if", "while",
          "error"],
        Form.IsWord head := by
    decide
  simp only [List.forall_mem_cons] at hHeads
  obtain ⟨hExpr, hPrint, hVar, hBlock, hIf, hWhile, hError,
    -⟩ := hHeads
  induction s with
  | expression value =>
      simpa [form, Form.words, Form.wordsAll, hExpr] using
        Expr.isWord_of_mem_words hLegible
  | print keyword value =>
      simpa [form, Form.words, Form.wordsAll, hPrint] using
        Expr.isWord_of_mem_words hLegible.2
  | declare name initial =>
      cases initial with
      | none =>
          simpa [form, Form.words, Form.wordsAll, hVar] using
            Token.IsLegibleName.isWord hLegible
      | some initial =>
          obtain ⟨hName, hInitial⟩ := hLegible
          simpa [form, Form.words, Form.wordsAll, hVar,
            hName.isWord] using
              Expr.isWord_of_mem_words hInitial
  | block body ih =>
      have hBody :
          ∀ word ∈ Form.wordsAll (formAll body),
            Form.IsWord word := by
        intro word hWord
        rw [Form.wordsAll_eq_flatMap, formAll_eq_map,
          List.mem_flatMap] at hWord
        obtain ⟨f, hForm, hWord⟩ := hWord
        obtain ⟨s, hMem, rfl⟩ := List.mem_map.mp hForm
        have hS := legibleAll_iff.mp hLegible s hMem
        exact ih s hMem hS word hWord
      simpa [form, Form.words, hBlock] using hBody
  | ifThen condition thenBranch ih =>
      obtain ⟨hCondition, hThen⟩ := hLegible
      simpa [form, Form.words, Form.wordsAll, hIf, or_imp,
        forall_and] using
          ⟨Expr.isWord_of_mem_words hCondition, ih hThen⟩
  | ifElse condition thenBranch elseBranch thenIH elseIH =>
      obtain ⟨hCondition, hThen, hElse⟩ := hLegible
      simpa [form, Form.words, Form.wordsAll, hIf, or_imp,
        forall_and] using
          ⟨Expr.isWord_of_mem_words hCondition,
            thenIH hThen, elseIH hElse⟩
  | whileDo condition body ih =>
      obtain ⟨hCondition, hBody⟩ := hLegible
      simpa [form, Form.words, Form.wordsAll, hWhile,
        or_imp, forall_and] using
          ⟨Expr.isWord_of_mem_words hCondition, ih hBody⟩
  | skipped =>
      simpa [form, Form.words, Form.wordsAll] using hError

/-
  A legible statement is read back from its form, given the
  word that starts print statements.
-/
theorem toStmt_form
    {s : Stmt}
    (hLegible : s.Legible table spelling) :
    s.form.toStmt table spelling =
      s.mapTokens withoutLine := by
  induction s with
  | expression value =>
      simp [form, Form.toStmt, Form.toExprs, ofItems,
        mapTokens, Expr.toExpr_form hLegible]
  | print keyword value =>
      obtain ⟨⟨hWritten, rfl⟩, hValue⟩ := hLegible
      simp [form, Form.toStmt, Form.toExprs, ofItems,
        mapTokens, Expr.toExpr_form hValue,
        Token.ofWord_lexeme hWritten]
  | declare name initial =>
      cases initial with
      | none =>
          have hName : name.IsLegibleName table := hLegible
          simp [form, Form.toStmt, Form.toExprs,
            Form.toExpr, ofItems, mapTokens,
            hName.ofWord_lexeme]
      | some initial =>
          obtain ⟨hName, hInitial⟩ := hLegible
          simp [form, Form.toStmt, Form.toExprs,
            Form.toExpr, ofItems, mapTokens,
            hName.ofWord_lexeme, Expr.toExpr_form hInitial]
  | block body ih =>
      have hBody :
          Form.toStmts table spelling (formAll body) =
            mapTokensAll withoutLine body := by
        rw [Form.toStmts_eq_map, formAll_eq_map,
          mapTokensAll_eq_map, List.map_map]
        apply List.map_congr_left
        intro s hMem
        exact ih s hMem (legibleAll_iff.mp hLegible s hMem)
      simp [form, Form.toStmt, ofItems, mapTokens, hBody]
  | ifThen condition thenBranch ih =>
      obtain ⟨hCondition, hThen⟩ := hLegible
      simp [form, Form.toStmt, Form.toExprs, Form.toStmts,
        ofItems, mapTokens, Expr.toExpr_form hCondition,
        ih hThen]
  | ifElse condition thenBranch elseBranch thenIH elseIH =>
      obtain ⟨hCondition, hThen, hElse⟩ := hLegible
      simp [form, Form.toStmt, Form.toExprs, Form.toStmts,
        ofItems, mapTokens, Expr.toExpr_form hCondition,
        thenIH hThen, elseIH hElse]
  | whileDo condition body ih =>
      obtain ⟨hCondition, hBody⟩ := hLegible
      simp [form, Form.toStmt, Form.toExprs, Form.toStmts,
        ofItems, mapTokens, Expr.toExpr_form hCondition,
        ih hBody]
  | skipped => rfl

end Stmt

end OcScript
