import Mathlib.Tactic.Choose
import OcScript.Proofs.Scan.Lookahead
import OcScript.Proofs.Scan.Newline

/-
  This file proves that scanning undoes writing tokens out.

  A written token has a kind that goes with its lexeme: a
  symbol with its spelling, a string with its content in
  quotes, a number with its value, or a word with what the
  keyword table says about it.  Scanning makes no other
  tokens but the end marker.

  No lexeme of a token goes on with a space.  So each is
  found again as it was, if the lexemes are written one
  after another with single spaces in between.

  Key definitions include:
    * `OcScript.Token.Written`
    * `OcScript.Token.relined`
    * `OcScript.Chunk.Spells`
    * `OcScript.Chunk.Apart`
    * `OcScript.Chunk.Sealed`

  Key theorems include:
    * `OcScript.Chunk.first_of_sealed`
    * `OcScript.Chunk.ofText_spaced`
    * `OcScript.written_of_mem_body`
    * `OcScript.scan_spaced`
    * `OcScript.scan_undoes_writing`
-/

------------------------------------------------------------
-- Written Tokens
------------------------------------------------------------

namespace OcScript

namespace Token

/- A token whose kind goes with its lexeme. -/
inductive Written
    (table : KeywordTable) :
    Token → Prop where
| symbol
    (s : Symbol)
    (line : Nat) :
    Written table
      ⟨.symbol s, String.ofList s.spelling, line⟩
| string
    {content : List Char}
    (hContent : '"' ∉ content)
    (line : Nat) :
    Written table
      ⟨.string (String.ofList content),
        String.ofList ('"' :: (content ++ ['"'])), line⟩
| number
    {text : List Char}
    (hNumber : Lexeme .number text)
    (line : Nat) :
    Written table
      ⟨.number (Decimal.ofText text).toFloat,
        String.ofList text, line⟩
| keyword
    {text : List Char}
    {keyword : Keyword}
    (hWord : Lexeme .word text)
    (hEntry : table[String.ofList text]? = some keyword)
    (line : Nat) :
    Written table
      ⟨.keyword keyword, String.ofList text, line⟩
| identifier
    {text : List Char}
    (hWord : Lexeme .word text)
    (hEntry : table[String.ofList text]? = none)
    (line : Nat) :
    Written table ⟨.identifier, String.ofList text, line⟩

/- The characters of the lexemes of some tokens. -/
def lexemes
    (tokens : List Token) :
    List Char :=
  tokens.flatMap fun t => t.lexeme.toList

/-
  The tokens on the lines their lexemes end on, if these are
  written one after another from a line on.
-/
def relined
    (line : Nat)
    (tokens : List Token) :
    List Token :=
  tokens.mapIdx fun i t =>
    { t with
      line :=
        line + (lexemes (tokens.take (i + 1))).count '\n' }

theorem relined_cons
    (line : Nat)
    (t : Token)
    (tokens : List Token) :
    relined line (t :: tokens) =
      { t with line := line + t.lexeme.toList.count '\n' } ::
        relined (line + t.lexeme.toList.count '\n')
          tokens := by
  unfold relined
  rw [List.mapIdx_cons]
  congr 1
  · simp [lexemes]
  · congr 1
    funext i s
    rw [List.take_succ_cons, lexemes, List.flatMap_cons,
      List.count_append, ← Nat.add_assoc]
    rfl

theorem map_relined
    (line : Nat)
    (tokens : List Token) :
    (relined line tokens).map (fun t => (t.kind, t.lexeme)) =
      tokens.map fun t => (t.kind, t.lexeme) := by
  induction tokens generalizing line with
  | nil =>
      rfl
  | cons t tokens ih =>
      rw [relined_cons, List.map_cons, ih]
      rfl

end Token

/- There is a chunk for every lexeme. -/
theorem Lexeme.exists_chunk
    {kind : ChunkKind}
    {text : List Char}
    (hLexeme : Lexeme kind text) :
    ∃ k : Chunk, k.kind = kind ∧ k.text = text := by
  have hText : text ≠ [] := by
    cases hLexeme with
    | symbol s =>
        cases s <;> exact List.cons_ne_nil _ _
    | blank | comment | string | whole | fraction | word =>
        exact List.cons_ne_nil _ _
  rcases List.exists_cons_of_ne_nil hText with ⟨c, tail, rfl⟩
  exact ⟨⟨kind, c, tail⟩, rfl, rfl⟩

namespace Chunk

variable {table : KeywordTable} {t : Token} {k : Chunk}

/- A chunk is the lexeme of a token and stands for its kind. -/
structure Spells
    (table : KeywordTable)
    (t : Token)
    (k : Chunk) :
    Prop where
  text : k.text = t.lexeme.toList
  lexeme : Lexeme k.kind k.text
  denotes : Denotes table k t.kind

/- Every written token is spelled by a chunk. -/
theorem exists_spells
    (hWritten : t.Written table) :
    ∃ k, Spells table t k := by
  have hSpells :
      ∀ {kind text line chunkKind},
        Lexeme chunkKind text →
        (∀ k : Chunk,
          k.kind = chunkKind →
          k.text = text →
          Denotes table k kind) →
        ∃ k,
          Spells table ⟨kind, String.ofList text, line⟩
            k := by
    intro kind text line chunkKind hLexeme hDenotes
    rcases hLexeme.exists_chunk with ⟨k, rfl, rfl⟩
    exact
      ⟨k, String.toList_ofList.symm, hLexeme,
        hDenotes k rfl rfl⟩
  cases hWritten with
  | symbol s line =>
      apply hSpells (.symbol s)
      exact fun k hKind _ => .symbol hKind
  | string hContent line =>
      apply hSpells (.string hContent)
      exact fun k hKind hText => .string hKind hText
  | number hNumber line =>
      apply hSpells hNumber
      rintro k hKind rfl
      exact .number hKind
  | keyword hWord hEntry line =>
      apply hSpells hWord
      rintro k hKind rfl
      exact .keyword hKind hEntry
  | identifier hWord hEntry line =>
      apply hSpells hWord
      rintro k hKind rfl
      exact .identifier hKind hEntry

/- A token that a chunk spells is written. -/
theorem Spells.written
    (hSpells : Spells table t k) :
    t.Written table := by
  rcases t with ⟨kind, lexeme, line⟩
  rcases hSpells with ⟨hText, hLexeme, hDenotes⟩
  dsimp only at hText hDenotes
  obtain rfl : String.ofList k.text = lexeme := by
    rw [hText, String.ofList_toList]
  cases hDenotes with
  | symbol hKind =>
      rw [hKind] at hLexeme
      generalize k.text = text at hLexeme
      cases hLexeme with
      | symbol =>
          exact .symbol _ line
  | @string content hKind hString =>
      rw [hKind] at hLexeme
      generalize k.text = text at hLexeme hString
      cases hLexeme with
      | string hContent =>
          have hSame := (List.cons.inj hString).2
          rw [List.append_cancel_right hSame] at hContent ⊢
          exact .string hContent line
  | number hKind =>
      rw [hKind] at hLexeme
      exact .number hLexeme line
  | keyword hKind hEntry =>
      rw [hKind] at hLexeme
      exact .keyword hLexeme hEntry line
  | identifier hKind hEntry =>
      rw [hKind] at hLexeme
      exact .identifier hLexeme hEntry line

/- A chunk that spells a token makes that token. -/
theorem Spells.token?_eq
    (hSpells : Spells table t k)
    (line : Nat) :
    Located.token? table ⟨line, k⟩ =
      some { t with line := line } := by
  rw [Located.token?, hSpells.denotes.kind?_eq,
    hSpells.text, String.ofList_toList]
  rfl

end Chunk

end OcScript

------------------------------------------------------------
-- Lexemes With Spaces in Between
------------------------------------------------------------

namespace OcScript

namespace Chunk

variable {table : KeywordTable} {k : Chunk}

/- The chunk of a space. -/
def space : Chunk :=
  ⟨.blank, ' ', []⟩

/- A text that is empty or starts with a space. -/
def Apart
    (after : List Char) :
    Prop :=
  ∀ c, after.head? = some c → c = ' '

theorem apart_nil :
    Apart [] := by
  intro c hHead
  cases hHead

theorem apart_space
    (rest : List Char) :
    Apart (' ' :: rest) := by
  intro c hHead
  exact (Option.some.inj hHead).symm

/-
  A text that no lexeme goes on with, apart from comments:
  it starts with nothing that words, numbers or symbols have
  in them after their first character.
-/
def Sealed
    (after : List Char) :
    Prop :=
  ∀ c, after.head? = some c →
    isWordPart c = false ∧ c ≠ '.' ∧ c ≠ '=' ∧ c ≠ '/'

theorem Apart.sealed
    {after : List Char}
    (hApart : Apart after) :
    Sealed after := by
  intro c hHead
  rw [hApart c hHead]
  decide

/- No run of letters and digits goes on. -/
theorem Sealed.takeWhile_eq_nil
    {after : List Char}
    (hSealed : Sealed after)
    {p : Char → Bool}
    (hInside : ∀ c, p c = true → isWordPart c = true) :
    after.takeWhile p = [] := by
  cases after with
  | nil =>
      rfl
  | cons c rest =>
      have hPart := (hSealed c rfl).1
      rw [List.takeWhile_cons, if_neg]
      intro hIn
      rw [hInside c hIn] at hPart
      cases hPart

theorem isWordPart_of_isDigit
    (c : Char)
    (hDigit : c.isDigit = true) :
    isWordPart c = true :=
  decide_eq_true (Or.inr hDigit)

/- The second character of a symbol is an equals sign. -/
theorem eq_equals_of_spelling
    {s : Symbol}
    {c d : Char}
    (hSpelling : s.spelling = [c, d]) :
    d = '=' := by
  cases s <;> cases hSpelling <;> rfl

/- Only a comment goes on into a sealed text. -/
theorem first_of_sealed
    (hLexeme : Lexeme k.kind k.text)
    (hKind : k.kind ≠ .comment)
    {after : List Char}
    (hSealed : Sealed after) :
    first k.head (k.tail ++ after) = k := by
  rcases k with ⟨kind, c, tail⟩
  dsimp only [Chunk.text] at hLexeme hKind ⊢
  generalize hText : c :: tail = text at hLexeme
  cases hLexeme with
  | blank hBlank =>
      rcases List.cons.inj hText with ⟨rfl, rfl⟩
      exact first_of_isBlank (decide_eq_true hBlank) after
  | comment hLine =>
      exact absurd rfl hKind
  | symbol s =>
      rcases s.spelling_cases with
        ⟨d, hSpelling⟩ | ⟨d, e, hSpelling⟩
      · rw [hSpelling] at hText
        rcases List.cons.inj hText with ⟨rfl, rfl⟩
        apply first_of_oneCharacter hSpelling
        · intro long f hLonger hNext
          exact (hSealed f hNext).2.2.1
            (eq_equals_of_spelling hLonger)
        · intro _ hNext
          exact (hSealed '/' hNext).2.2.2 rfl
      · rw [hSpelling] at hText
        rcases List.cons.inj hText with ⟨rfl, rfl⟩
        exact first_of_twoCharacters hSpelling after
  | string hContent =>
      rcases List.cons.inj hText with ⟨rfl, rfl⟩
      rw [List.append_assoc, first_quote]
      exact quoted_append_quote hContent after
  | whole hFirst hDigits =>
      rcases List.cons.inj hText with ⟨rfl, rfl⟩
      simp only [← Lexeme.isDigit_iff] at hFirst hDigits
      rw [first_of_isDigit hFirst,
        numberTail_append_of_stops hDigits
          (hSealed.takeWhile_eq_nil isWordPart_of_isDigit)]
      rintro later rfl
      exact absurd rfl (hSealed '.' rfl).2.1
  | fraction hFirst hDigits hPoint hDecimals =>
      rcases List.cons.inj hText with ⟨rfl, rfl⟩
      simp only [← Lexeme.isDigit_iff]
        at hFirst hDigits hPoint hDecimals
      have hTail :=
        numberTail_append_point hDigits
          (List.forall_mem_cons.mpr ⟨hPoint, hDecimals⟩)
          after
      rw [hSealed.takeWhile_eq_nil isWordPart_of_isDigit,
        List.append_nil] at hTail
      rw [first_of_isDigit hFirst, List.append_assoc]
      exact congrArg _ hTail
  | word hFirst hRest =>
      rcases List.cons.inj hText with ⟨rfl, rfl⟩
      exact
        first_append_of_word (k := ⟨.word, c, tail⟩) rfl
          (.word hFirst hRest)
          (hSealed.takeWhile_eq_nil fun _ hIn => hIn)

/- A chunk is found again in front of a sealed text. -/
theorem ofText_append_of_sealed
    (hLexeme : Lexeme k.kind k.text)
    (hKind : k.kind ≠ .comment)
    {after : List Char}
    (hSealed : Sealed after) :
    ofText (k.text ++ after) = k :: ofText after := by
  rw [text, List.cons_append, ofText,
    first_of_sealed hLexeme hKind hSealed, List.drop_left]

theorem ofText_space
    (after : List Char) :
    ofText (' ' :: after) = space :: ofText after := by
  rw [ofText]
  rfl

/- A chunk that stands for a token is no comment. -/
theorem Denotes.kind_ne_comment
    {kind : TokenKind}
    (hDenotes : Denotes table k kind) :
    k.kind ≠ .comment := by
  intro hComment
  have hNone : Located.kind? table k = none := by
    simp only [Located.kind?, hComment]
  rw [hDenotes.kind?_eq] at hNone
  cases hNone

/- Lexemes written with single spaces in between. -/
def spaced
    (tokens : List Token) :
    List Char :=
  [' '].intercalate (tokens.map fun t => t.lexeme.toList)

theorem spaced_singleton
    (t : Token) :
    spaced [t] = t.lexeme.toList := by
  simp [spaced]

theorem spaced_cons_cons
    (t u : Token)
    (tokens : List Token) :
    spaced (t :: u :: tokens) =
      t.lexeme.toList ++ ' ' :: spaced (u :: tokens) := by
  simp [spaced]

section

variable
    {tokens : List Token}
    {g : Token → Chunk}
    (hSpells : ∀ t ∈ tokens, Spells table t (g t))

include hSpells

/- Between the spaces, the chunks are the lexemes. -/
theorem ofText_spaced
    {after : List Char}
    (hApart : Apart after) :
    ofText (spaced tokens ++ after) =
      (tokens.map g).intersperse space ++ ofText after := by
  induction tokens with
  | nil =>
      rfl
  | cons t tokens ih =>
      rw [List.forall_mem_cons] at hSpells
      have hFirst := hSpells.1
      have hKind := hFirst.denotes.kind_ne_comment
      cases tokens with
      | nil =>
          rw [spaced_singleton, ← hFirst.text,
            ofText_append_of_sealed hFirst.lexeme hKind
              hApart.sealed]
          rfl
      | cons u tokens =>
          rw [spaced_cons_cons, ← hFirst.text,
            List.append_assoc, List.cons_append,
            ofText_append_of_sealed hFirst.lexeme hKind
              (apart_space _).sealed,
            ofText_space, ih hSpells.2]
          rfl

/- The chunks make the tokens, each on its line. -/
theorem filterMap_spaced
    (line : Nat) :
    (Located.ofChunks line
        ((tokens.map g).intersperse space)).filterMap
          (Located.token? table) =
        Token.relined line tokens ∧
      (Located.ofChunks line
        ((tokens.map g).intersperse space)).filterMap
          Located.error? =
        [] := by
  induction tokens generalizing line with
  | nil =>
      exact ⟨rfl, rfl⟩
  | cons t tokens ih =>
      rw [List.forall_mem_cons] at hSpells
      have hLine :
          line + (g t).newlines =
            line + t.lexeme.toList.count '\n' := by
        rw [newlines, hSpells.1.text]
      have hSpace :
          ∀ last,
            Located.token? table ⟨last, space⟩ = none ∧
              Located.error? ⟨last, space⟩ = none :=
        fun _ => ⟨rfl, rfl⟩
      have hStays : ∀ last, last + space.newlines = last :=
        fun _ => rfl
      rw [Token.relined_cons]
      generalize line + t.lexeme.toList.count '\n' = last
        at hLine ⊢
      have hToken := hSpells.1.token?_eq last
      have hError := hSpells.1.denotes.error?_eq last
      cases tokens with
      | nil =>
          simp only [List.map_cons, List.map_nil,
            List.intersperse_singleton, Located.ofChunks,
            filterMap_cons_append, hLine, hToken, hError]
          exact ⟨rfl, rfl⟩
      | cons u tokens =>
          have hRest := ih hSpells.2 last
          rw [List.map_cons] at hRest
          simp only [List.map_cons, Located.ofChunks,
            List.intersperse_cons_cons, hLine, hStays,
            filterMap_cons_append, hToken, hError, hSpace,
            hRest]
          exact ⟨rfl, rfl⟩

end

/- The spaces add no newlines to those of the lexemes. -/
theorem count_newline_spaced
    (tokens : List Token) :
    (spaced tokens).count '\n' =
      (Token.lexemes tokens).count '\n' := by
  induction tokens with
  | nil =>
      rfl
  | cons t tokens ih =>
      cases tokens with
      | nil =>
          simp [spaced, Token.lexemes]
      | cons u tokens =>
          rw [spaced_cons_cons, List.count_append,
            List.count_cons_of_ne (by decide), ih,
            ← List.count_append]
          rfl

end Chunk

/-
  Lexemes that are scanned again make their tokens again,
  even if one more space follows.
-/
theorem scan_spaced
    {table : KeywordTable}
    {tokens : List Token}
    (hWritten : ∀ t ∈ tokens, t.Written table)
    {after : List Char}
    (hAfter : after = [] ∨ after = [' ']) :
    scan table (String.ofList (Chunk.spaced tokens ++ after)) =
      { tokens :=
          Token.relined 1 tokens ++
            [⟨.eof, "",
              1 + (Token.lexemes tokens).count '\n'⟩]
        errors := [] } := by
  have hSpelled :
      ∀ t ∈ tokens, ∃ k, Chunk.Spells table t k :=
    fun t hMem => Chunk.exists_spells (hWritten t hMem)
  have : Nonempty Chunk := ⟨Chunk.space⟩
  choose! g hSpells using hSpelled
  have hApart : Chunk.Apart after := by
    rcases hAfter with rfl | rfl
    · exact Chunk.apart_nil
    · exact Chunk.apart_space []
  have hNothing :
      ∀ line,
        (Located.ofChunks line
            (Chunk.ofText after)).filterMap
              (Located.token? table) = [] ∧
          (Located.ofChunks line
            (Chunk.ofText after)).filterMap
              Located.error? = [] := by
    intro line
    rcases hAfter with rfl | rfl
    · rw [Chunk.ofText]
      exact ⟨rfl, rfl⟩
    · rw [Chunk.ofText_space, Chunk.ofText]
      exact ⟨rfl, rfl⟩
  have hNewlines : after.count '\n' = 0 := by
    rcases hAfter with rfl | rfl <;> rfl
  rcases Chunk.filterMap_spaced hSpells 1 with
    ⟨hTokens, hErrors⟩
  unfold scan
  simp only [String.toList_ofList,
    Chunk.ofText_spaced hSpells hApart,
    Located.ofChunks_append, List.filterMap_append, hTokens,
    hErrors, hNothing, List.count_append, hNewlines,
    Chunk.count_newline_spaced, List.append_nil,
    Nat.add_zero]
  rfl

end OcScript

------------------------------------------------------------
-- Writing and Scanning
------------------------------------------------------------

namespace OcScript

/- Scanning makes only written tokens and the end marker. -/
theorem written_of_mem_body
    {table : KeywordTable}
    {source : String}
    {t : Token}
    (hMem : t ∈ (scan table source).body) :
    t.Written table := by
  rw [body_scan, List.mem_filterMap] at hMem
  rcases hMem with ⟨l, hLocated, hToken⟩
  have hChunk : l.chunk ∈ Chunk.ofText source.toList := by
    rw [← Located.map_chunk_ofChunks 1
      (Chunk.ofText source.toList)]
    exact List.mem_map_of_mem hLocated
  have hMakes : Chunk.Makes table l.line l.chunk _ _ :=
    Chunk.makes_located l.line
      ((Chunk.munched_iff.mpr rfl).closed_of_mem hChunk)
  rw [hToken] at hMakes
  generalize Located.error? _ = error at hMakes
  cases hMakes with
  | token hDenotes =>
      have hFree := hDenotes.error?_eq l.line
      rcases Chunk.lexeme_or_fault hChunk with
        hLexeme | hFault | hFault
      · exact
          Chunk.Spells.written
            ⟨String.toList_ofList.symm, hLexeme, hDenotes⟩
      · simp [Located.error?, hFault] at hFree
      · simp [Located.error?, hFault] at hFree

/- The text of lexemes with spaces in between. -/
theorem intercalate_eq_spaced
    (tokens : List Token) :
    " ".intercalate (tokens.map Token.lexeme) =
      String.ofList (Chunk.spaced tokens) := by
  rw [← String.toList_inj, String.toList_ofList,
    String.toList_intercalate, List.map_map]
  rfl

/- A last token without a lexeme leaves at most a space. -/
theorem spaced_append_singleton
    (tokens : List Token)
    {last : Token}
    (hEmpty : last.lexeme = "") :
    ∃ after,
      (after = [] ∨ after = [' ']) ∧
        Chunk.spaced (tokens ++ [last]) =
          Chunk.spaced tokens ++ after := by
  induction tokens with
  | nil =>
      refine ⟨[], .inl rfl, ?_⟩
      rw [List.nil_append, Chunk.spaced_singleton, hEmpty]
      rfl
  | cons t tokens ih =>
      cases tokens with
      | nil =>
          refine ⟨[' '], .inr rfl, ?_⟩
          rw [List.singleton_append, Chunk.spaced_cons_cons,
            Chunk.spaced_singleton, Chunk.spaced_singleton,
            hEmpty]
          rfl
      | cons u tokens =>
          rcases ih with ⟨after, hAfter, hSpaced⟩
          refine ⟨after, hAfter, ?_⟩
          rw [List.cons_append, List.cons_append,
            Chunk.spaced_cons_cons, Chunk.spaced_cons_cons,
            ← List.cons_append, hSpaced, List.append_assoc,
            List.cons_append]

/-
  Scanning undoes writing tokens out.  The lexemes of written
  tokens, with single spaces in between, are scanned as the
  same tokens on the lines they are now on, and the end
  marker after them.  So the tokens of any source, which are
  written tokens and an end marker without a lexeme, keep
  their kinds and lexemes when they are scanned again.
-/
theorem scan_undoes_writing
    (table : KeywordTable) :
    (∀ tokens : List Token,
      (∀ t ∈ tokens, t.Written table) →
      scan table
          (" ".intercalate (tokens.map Token.lexeme)) =
        { tokens :=
            Token.relined 1 tokens ++
              [⟨.eof, "",
                1 + (Token.lexemes tokens).count '\n'⟩]
          errors := [] }) ∧
      ∀ source : String,
        let tokens := (scan table source).tokens
        let again :=
          scan table
            (" ".intercalate (tokens.map Token.lexeme))
        (∀ t ∈ tokens.dropLast, t.Written table) ∧
          again.errors = [] ∧
          again.tokens.map (fun t => (t.kind, t.lexeme)) =
            tokens.map fun t => (t.kind, t.lexeme) := by
  refine ⟨?_, ?_⟩
  · intro tokens hWritten
    have hScan := scan_spaced hWritten (.inl rfl)
    rw [List.append_nil] at hScan
    rw [intercalate_eq_spaced, hScan]
  · intro source
    have hWritten :
        ∀ t ∈ (scan table source).body, t.Written table :=
      fun t hMem => written_of_mem_body hMem
    rcases spaced_append_singleton (scan table source).body
        (rfl : (Token.atEnd _).lexeme = "") with
      ⟨after, hAfter, hSpaced⟩
    have hAgain := scan_spaced hWritten hAfter
    rw [← hSpaced, ← tokens_scan, ← intercalate_eq_spaced]
      at hAgain
    dsimp only
    refine ⟨hWritten, ?_, ?_⟩
    · rw [hAgain]
    · rw [hAgain, List.map_append, Token.map_relined,
        tokens_scan, List.map_append]
      rfl

/-
  Tokens that would merge with their neighbours, or hide
  them, if there were no spaces in between.
-/
def neighbours : List Token :=
  [⟨.symbol .slash, "/", 1⟩,
    ⟨.symbol .slash, "/", 1⟩,
    ⟨.symbol .bang, "!", 1⟩,
    ⟨.symbol .equal, "=", 1⟩,
    ⟨.number (Decimal.ofText ['1']).toFloat, "1", 1⟩,
    ⟨.symbol .dot, ".", 1⟩,
    ⟨.number (Decimal.ofText ['5']).toFloat, "5", 1⟩,
    ⟨.identifier, "x", 1⟩,
    ⟨.string "//\n", "\"//\n\"", 1⟩,
    ⟨.keyword .ifWord, "se", 1⟩]

theorem scan_undoes_writing_neighbours :
    let scanned :=
      scan .standard "/ / ! = 1 . 5 x \"//\n\" se"
    scanned.errors = [] ∧
      scanned.tokens.map (fun t => t.kind.typeName) =
        ["SLASH", "SLASH", "BANG", "EQUAL", "NUMBER", "DOT",
          "NUMBER", "IDENTIFIER", "STRING", "IF", "EOF"] ∧
      scanned.tokens.map Token.line =
        [1, 1, 1, 1, 1, 1, 1, 1, 2, 2, 2] := by
  have hNone : ∀ d ∈ ([] : List Char), Lexeme.IsDigit d :=
    List.forall_mem_nil _
  have hName : Lexeme .word ['x'] :=
    .word (by decide) (List.forall_mem_nil _)
  have hKeyword : Lexeme .word ['s', 'e'] :=
    .word (by decide)
      (List.forall_mem_singleton.mpr (by decide))
  have hSlashes : '"' ∉ ['/', '/', '\n'] := by
    decide
  have hWritten : ∀ t ∈ neighbours, t.Written .standard := by
    simp only [neighbours, List.forall_mem_cons]
    exact
      ⟨.symbol .slash 1, .symbol .slash 1, .symbol .bang 1,
        .symbol .equal 1,
        .number (.whole (by decide) hNone) 1,
        .symbol .dot 1,
        .number (.whole (by decide) hNone) 1,
        .identifier hName (by decide +kernel) 1,
        .string hSlashes 1,
        .keyword hKeyword (by decide +kernel) 1,
        List.forall_mem_nil _⟩
  have hScan :=
    (scan_undoes_writing .standard).1 neighbours hWritten
  have hText :
      " ".intercalate (neighbours.map Token.lexeme) =
        "/ / ! = 1 . 5 x \"//\n\" se" := by
    decide +kernel
  rw [hText] at hScan
  dsimp only
  rw [hScan]
  refine ⟨rfl, ?_, ?_⟩
  · rfl
  · decide +kernel

end OcScript
