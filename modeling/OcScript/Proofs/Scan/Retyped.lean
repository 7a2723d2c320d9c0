import OcScript.Proofs.Scan.Pass
import OcScript.Proofs.Scan.Respelled

/-
  This file proves that a keyword table settles the kinds of
  words and nothing else.

  Without keywords every word is an identifier.  A pass with
  a table and a pass without one go over a source in step:
  they are at the same place, on the same line, and with the
  same reports at any time, and the tokens of the one are
  those of the other with some identifiers made keywords.
  So all that counts in a table is what it says about the
  words of the source.

  Key definitions include:
    * `OcScript.Token.retyped`
    * `OcScript.Pass.retyped`
    * `OcScript.vocabulary`
    * `OcScript.KeywordTable.wordEntries`

  Key theorems include:
    * `OcScript.Pass.step_retyped`
    * `OcScript.Pass.run_retyped`
    * `OcScript.identifiers_scan_empty`
    * `OcScript.scan_eq_iff_agree`
    * `OcScript.keywords_only_retype_words`
-/

------------------------------------------------------------
-- Retyped Tokens
------------------------------------------------------------

namespace OcScript

/- Tables that agree on a word give it the same kind. -/
theorem KeywordTable.kindOf_eq_iff
    {table other : KeywordTable}
    {word : String} :
    table.kindOf word = other.kindOf word ↔
      table[word]? = other[word]? := by
  unfold kindOf
  cases table[word]? <;> cases other[word]? <;> simp

namespace Token

/- An identifier that a table knows becomes its keyword. -/
def retyped
    (table : KeywordTable)
    (t : Token) :
    Token :=
  match t.kind, table[t.lexeme]? with
  | .identifier, some keyword =>
      { t with kind := .keyword keyword }
  | _, _ => t

variable {table other : KeywordTable} {t : Token}

/- Other tokens stay as they are. -/
theorem retyped_of_not_identifier
    (hOther : t.kind ≠ .identifier) :
    t.retyped table = t := by
  unfold retyped
  split
  · rename_i hKind _
    exact absurd hKind hOther
  · rfl

/- Identifiers take the kind that a table gives to words. -/
theorem retyped_of_identifier
    (hKind : t.kind = .identifier) :
    t.retyped table =
      { t with kind := table.kindOf t.lexeme } := by
  rcases t with ⟨kind, lexeme, line⟩
  cases hKind
  unfold retyped KeywordTable.kindOf
  cases table[lexeme]? <;> rfl

/- Two tables differ only on the identifiers they retype. -/
theorem retyped_eq_iff :
    t.retyped table = t.retyped other ↔
      (t.kind = .identifier →
        table[t.lexeme]? = other[t.lexeme]?) := by
  by_cases hKind : t.kind = .identifier
  · rw [retyped_of_identifier hKind,
      retyped_of_identifier hKind]
    simp only [Token.mk.injEq, and_true, hKind, true_imp_iff]
    exact KeywordTable.kindOf_eq_iff
  · rw [retyped_of_not_identifier hKind,
      retyped_of_not_identifier hKind]
    exact iff_of_true rfl fun h => absurd h hKind

end Token

namespace Located

/- What is no word is no identifier. -/
theorem kind?_ne_identifier
    {k : Chunk}
    (hOther : k.kind ≠ .word)
    (table : KeywordTable) :
    kind? table k ≠ some .identifier := by
  unfold kind?
  grind

/- Without keywords every word is an identifier. -/
theorem kind?_empty_of_word
    {k : Chunk}
    (hWord : k.kind = .word) :
    kind? ∅ k = some .identifier := by
  rw [kind?_of_word hWord]
  simp [KeywordTable.kindOf]

/- A chunk makes the token of the empty table, retyped. -/
theorem token?_retyped
    (table : KeywordTable)
    (l : Located) :
    (token? ∅ l).map (Token.retyped table) =
      token? table l := by
  by_cases hWord : l.chunk.kind = .word
  · rw [token?, token?, kind?_empty_of_word hWord,
      kind?_of_word hWord, Option.map_some,
      Option.map_some, Option.map_some,
      Token.retyped_of_identifier rfl]
  · rw [token?, token?, kind?_of_not_word hWord table ∅]
    cases hKind : kind? ∅ l.chunk with
    | none =>
        rfl
    | some kind =>
        apply congrArg some
        apply Token.retyped_of_not_identifier
        rintro rfl
        exact kind?_ne_identifier hWord ∅ hKind

end Located

end OcScript

------------------------------------------------------------
-- Passes in Step
------------------------------------------------------------

namespace OcScript

namespace Pass

/- A pass with its tokens so far retyped. -/
def retyped
    (table : KeywordTable)
    (p : Pass) :
    Pass :=
  { p with tokens := p.tokens.map (Token.retyped table) }

variable (table : KeywordTable)

/- Retyping does not touch the place in the source. -/
@[simp] theorem rest_retyped
    (p : Pass) :
    (p.retyped table).rest = p.rest :=
  rfl

@[simp] theorem atEnd_retyped
    (p : Pass) :
    (p.retyped table).atEnd = p.atEnd :=
  rfl

/- A chunk that is passed leaves both passes in step. -/
theorem past_retyped
    (k : Chunk)
    (p : Pass) :
    (p.retyped table).past table k =
      (p.past ∅ k).retyped table := by
  have hToken :=
    Located.token?_retyped table
      ⟨(p.opened.after k.text).line, k⟩
  simp only [past, retyped, opened, after] at hToken ⊢
  rw [List.map_append, ← hToken, Option.toList_map]

/- So does one step, with the table or without keywords. -/
theorem step_retyped
    {p : Pass}
    (hMore : ¬ p.atEnd = true) :
    (p.retyped table).step table =
      (p.step ∅).retyped table := by
  rcases exists_rest_of_not_atEnd hMore with ⟨c, more, hRest⟩
  have hSame := (rest_retyped table p).trans hRest
  rw [step_eq hSame, step_eq hRest, past_retyped]

/- By induction on the steps, so does a whole run. -/
theorem run_retyped
    (p : Pass) :
    (p.retyped table).run table =
      (p.run ∅).retyped table := by
  fun_induction run ∅ p with
  | case1 p hEnd =>
      rw [run, dif_pos (by rwa [atEnd_retyped])]
  | case2 p hMore ih =>
      rw [run, dif_neg (by rwa [atEnd_retyped]),
        step_retyped table hMore, ih]

end Pass

/- A scan with its tokens retyped. -/
def Scanned.retyped
    (table : KeywordTable)
    (scanned : Scanned) :
    Scanned :=
  { scanned with
    tokens := scanned.tokens.map (Token.retyped table) }

/- So both find the same, but for the kinds of words. -/
theorem Pass.scanned_retyped
    (table : KeywordTable)
    (source : String) :
    Pass.scanned table source =
      (Pass.scanned ∅ source).retyped table := by
  have hRun := run_retyped table (start source)
  have hStart :
      (start source).retyped table = start source :=
    rfl
  have hEnd :
      ∀ line,
        (Token.atEnd line).retyped table =
          Token.atEnd line := by
    intro line
    apply Token.retyped_of_not_identifier
    simp [Token.atEnd]
  rw [hStart] at hRun
  simp only [scanned, Scanned.retyped, hRun, retyped,
    List.map_append, List.map_singleton, hEnd]

theorem scan_retyped
    (table : KeywordTable)
    (source : String) :
    scan table source = (scan ∅ source).retyped table := by
  rw [← Pass.scanned_eq, ← Pass.scanned_eq,
    Pass.scanned_retyped]

end OcScript

------------------------------------------------------------
-- Words of a Source
------------------------------------------------------------

namespace OcScript

/- The word that a chunk is, if it is one. -/
def Chunk.word?
    (k : Chunk) :
    Option String :=
  if k.kind = .word then
    some (String.ofList k.text)
  else
    none

/- The words of a source, in order. -/
def vocabulary
    (source : String) :
    List String :=
  (Chunk.ofText source.toList).filterMap Chunk.word?

/- What is in a vocabulary is spelled as a word. -/
theorem lexeme_of_mem_vocabulary
    {source word : String}
    (hMem : word ∈ vocabulary source) :
    Lexeme .word word.toList := by
  rcases List.mem_filterMap.mp hMem with ⟨k, hChunk, hFound⟩
  rw [Chunk.word?, Option.ite_none_right_eq_some] at hFound
  rcases hFound with ⟨hWord, hText⟩
  cases hText
  rw [String.toList_ofList]
  exact Chunk.lexeme_of_mem_ofText hChunk hWord

/- The identifier a chunk makes without keywords. -/
theorem Located.identifier?_empty
    (l : Located) :
    ((token? ∅ l).filter fun t => t.kind = .identifier).map
        Token.lexeme =
      l.chunk.word? := by
  by_cases hWord : l.chunk.kind = .word
  · rw [token?, kind?_empty_of_word hWord, Chunk.word?,
      if_pos hWord]
    rfl
  · rw [token?, Chunk.word?, if_neg hWord]
    cases hKind : kind? ∅ l.chunk with
    | none =>
        rfl
    | some kind =>
        have hOther : kind ≠ .identifier := by
          rintro rfl
          exact kind?_ne_identifier hWord ∅ hKind
        simp [Option.filter, hOther]

/- The words of a source are found on its lines. -/
theorem vocabulary_eq
    (source : String) :
    vocabulary source =
      (Located.ofChunks 1
        (Chunk.ofText source.toList)).filterMap
          fun l => l.chunk.word? := by
  calc
    vocabulary source =
        ((Located.ofChunks 1
          (Chunk.ofText source.toList)).map
            Located.chunk).filterMap Chunk.word? := by
      rw [Located.map_chunk_ofChunks]
      rfl
    _ = _ := List.filterMap_map

/- Without keywords the identifiers are all the words. -/
theorem identifiers_scan_empty
    (source : String) :
    ((scan ∅ source).tokens.filter
        fun t => t.kind = .identifier).map Token.lexeme =
      vocabulary source := by
  rw [tokens_scan, body_scan, List.filter_append,
    List.filter_filterMap, List.map_append,
    List.map_filterMap, vocabulary_eq]
  simp only [Located.identifier?_empty]
  exact List.append_nil _

/-
  Two tables find the same in a source just if they agree on
  the words of it.
-/
theorem scan_eq_iff_agree
    (table other : KeywordTable)
    (source : String) :
    scan table source = scan other source ↔
      ∀ word ∈ vocabulary source,
        table[word]? = other[word]? := by
  rw [scan_retyped table, scan_retyped other,
    Scanned.retyped, Scanned.retyped, Scanned.mk.injEq,
    and_iff_left rfl, List.map_inj_left,
    ← identifiers_scan_empty]
  simp only [Token.retyped_eq_iff, List.forall_mem_map,
    List.mem_filter, decide_eq_true_eq, and_imp]

/- The entries of a table that are spelled as words. -/
def KeywordTable.wordEntries
    (table : KeywordTable) :
    KeywordTable :=
  table.filter fun spelling _ => Lexeme .word spelling.toList

/- A word is found among them just as among all. -/
theorem KeywordTable.getElem?_wordEntries
    (table : KeywordTable)
    {word : String}
    (hLexeme : Lexeme .word word.toList) :
    table.wordEntries[word]? = table[word]? := by
  rw [wordEntries, Std.ExtTreeMap.getElem?_filter',
    decide_eq_true hLexeme]
  cases table[word]? <;> rfl

end OcScript

------------------------------------------------------------
-- Keywords Only Retype Words
------------------------------------------------------------

namespace OcScript

/-
  The keyword table settles the kinds of words and nothing
  else.  Reading character by character with any table at
  hand finds the errors that are found without keywords, and
  the same tokens, but for identifiers that the table knows,
  which get the kind it gives them.  Entries that are not
  spelled as words make no difference, and neither do words
  that are not in the source: two tables find the same just
  if they agree on the words of it, which are the lexemes of
  its identifiers where there are no keywords.
-/
theorem keywords_only_retype_words
    (source : String) :
    (∀ table : KeywordTable,
      Pass.scanned table source = scan table source ∧
        (scan table source).errors =
          (scan ∅ source).errors ∧
        (scan table source).tokens =
          (scan ∅ source).tokens.map
            (Token.retyped table)) ∧
      (∀ table : KeywordTable,
        scan table.wordEntries source =
          scan table source) ∧
      vocabulary source =
        ((scan ∅ source).tokens.filter
          fun t => t.kind = .identifier).map
            Token.lexeme ∧
      ∀ table other : KeywordTable,
        scan table source = scan other source ↔
          ∀ word ∈ vocabulary source,
            table[word]? = other[word]? := by
  refine
    ⟨?_, ?_, (identifiers_scan_empty source).symm,
      fun table other =>
        scan_eq_iff_agree table other source⟩
  · intro table
    refine ⟨Pass.scanned_eq table source, ?_, ?_⟩
    · rw [scan_retyped table]
      rfl
    · rw [scan_retyped table]
      rfl
  · intro table
    rw [scan_eq_iff_agree]
    intro word hMem
    exact
      table.getElem?_wordEntries
        (lexeme_of_mem_vocabulary hMem)

/-
  A table with spellings that are no words, among them the
  empty one, and with some that begin other words.
-/
def oddSpellings : KeywordTable :=
  .ofSpellings
    [("and", ""), ("or", "a b"), ("print", "+"),
      ("nil", "// se"), ("var", "9x"), ("if", "se"),
      ("else", "senon"), ("while", "x1")]

/- Only the last three of them can be found. -/
theorem keywords_only_retype_words_oddSpellings :
    let source :=
      "se senons x1 + a b \"se\" // se\n@ 9x senon"
    let scanned := scan oddSpellings source
    scanned.tokens.map (fun t => t.kind.typeName) =
        ["IF", "IDENTIFIER", "WHILE", "PLUS", "IDENTIFIER",
          "IDENTIFIER", "STRING", "NUMBER", "IDENTIFIER",
          "ELSE", "EOF"] ∧
      scanned.errors = [⟨2, .unexpectedCharacter⟩] ∧
      scanned =
        scan
          (.ofSpellings
            [("if", "se"), ("else", "senon"),
              ("while", "x1")])
          source ∧
      scanned ≠ scan ∅ source := by
  intro source scanned
  rcases keywords_only_retype_words source with
    ⟨hRetyped, -, -, hAgree⟩
  rcases hRetyped oddSpellings with ⟨-, hErrors, hTokens⟩
  refine ⟨?_, ?_, ?_, ?_⟩
  · rw [hTokens]
    decide +kernel
  · rw [hErrors]
    decide +kernel
  · rw [hAgree]
    decide +kernel
  · rw [ne_eq, hAgree]
    decide +kernel

end OcScript
