import Mathlib.Data.List.Basic
import Mathlib.Data.List.Nodup
import OcScript.Proofs.Scan.Lookahead
import OcScript.Proofs.Scan.Newline

/-
  This file spells the keywords of a source in another way
  and proves that its scan is the same but for the lexemes
  of the keywords.

  A keyword is a word, and another word in its place moves
  no chunk.  The table of the new spellings finds the same
  keyword in the new word.  Every other word stays an
  identifier, unless it is one of the new spellings.

  Key definitions include:
    * `OcScript.KeywordTable.WellSpelled`
    * `OcScript.Chunk.respelled`
    * `OcScript.respelled`
    * `OcScript.Token.respelled`
    * `OcScript.Respellable`

  Key theorems include:
    * `OcScript.KeywordTable.name_mem_of_getElem?`
    * `OcScript.KeywordTable.WellSpelled.getElem?_eq`
    * `OcScript.Respellable.body_scan_respelled`
    * `OcScript.Respellable.errors_scan_respelled`
-/

------------------------------------------------------------
-- Tables of Spellings
------------------------------------------------------------

namespace OcScript

namespace Lexeme

/- The scanner knows the words. -/
theorem word_cons_iff
    {c : Char}
    {rest : List Char} :
    Chunk.isWordStart c = true ∧
        rest.all Chunk.isWordPart = true ↔
      Lexeme .word (c :: rest) := by
  simp only [List.all_eq_true, isWordStart_iff,
    isWordPart_iff]
  refine ⟨?_, ?_⟩
  · rintro ⟨hFirst, hRest⟩
    exact .word hFirst hRest
  · intro hLexeme
    cases hLexeme with
    | word hFirst hRest => exact ⟨hFirst, hRest⟩

instance decidableWord
    (text : List Char) :
    Decidable (Lexeme .word text) :=
  match text with
  | [] => .isFalse (by intro hLexeme; cases hLexeme)
  | _ :: _ => decidable_of_iff _ word_cons_iff

end Lexeme

namespace Keyword

/- A keyword is found by its name and by no other. -/
theorem ofName?_eq_some_iff
    {name : String}
    {k : Keyword} :
    ofName? name = some k ↔ name = k.name := by
  refine ⟨?_, ?_⟩
  · intro hFound
    unfold ofName? at hFound
    have hName := List.find?_some hFound
    exact (of_decide_eq_true hName).symm
  · rintro rfl
    cases k <;> rfl

theorem name_injective
    {j k : Keyword}
    (hName : j.name = k.name) :
    j = k := by
  have hFound := ofName?_eq_some_iff.mpr (rfl : j.name = _)
  rw [ofName?_eq_some_iff.mpr hName] at hFound
  exact (Option.some.inj hFound).symm

end Keyword

namespace KeywordTable

variable {entries : List (String × String)}

/- What is found was there before or is in the list. -/
theorem name_mem_of_foldl
    {table : KeywordTable}
    {word : String}
    {k : Keyword}
    (hFound :
      (entries.foldl addSpelling table)[word]? = some k) :
    table[word]? = some k ∨ (k.name, word) ∈ entries := by
  induction entries generalizing table with
  | nil =>
      exact .inl hFound
  | cons entry rest ih =>
      rcases ih hFound with hAdded | hRest
      · rcases entry with ⟨name, spelling⟩
        unfold addSpelling at hAdded
        cases hName : Keyword.ofName? name with
        | none =>
            rw [hName] at hAdded
            exact .inl hAdded
        | some j =>
            simp only [hName,
              Std.ExtTreeMap.getElem?_insert] at hAdded
            rw [Keyword.ofName?_eq_some_iff] at hName
            split at hAdded
            · rename_i hSame
              cases hAdded
              rw [hName, Std.LawfulEqCmp.eq_of_compare hSame]
              exact .inr (List.mem_cons_self ..)
            · exact .inl hAdded
      · exact .inr (List.mem_cons_of_mem _ hRest)

/- A word that is found is a spelling of the keyword. -/
theorem name_mem_of_getElem?
    {word : String}
    {k : Keyword}
    (hFound : (ofSpellings entries)[word]? = some k) :
    (k.name, word) ∈ entries := by
  rcases name_mem_of_foldl hFound with hEmpty | hMem
  · simp at hEmpty
  · exact hMem

/- Words stay in the table, and spellings are put there. -/
theorem mem_foldl_of_mem
    {table : KeywordTable}
    {word : String}
    (hMem :
      word ∈ table ∨
        ∃ k : Keyword, (k.name, word) ∈ entries) :
    word ∈ entries.foldl addSpelling table := by
  induction entries generalizing table with
  | nil =>
      rcases hMem with hTable | ⟨k, hEntry⟩
      · exact hTable
      · cases hEntry
  | cons entry rest ih =>
      apply ih
      rcases hMem with hTable | ⟨k, hEntry⟩
      · left
        unfold addSpelling
        split
        · exact hTable
        · exact Std.ExtTreeMap.mem_insert.mpr (.inr hTable)
      · rcases List.mem_cons.mp hEntry with rfl | hRest
        · left
          have hName :=
            Keyword.ofName?_eq_some_iff.mpr (rfl : k.name = _)
          simp only [addSpelling, hName]
          exact Std.ExtTreeMap.mem_insert_self
        · exact .inr ⟨k, hRest⟩

/-
  Every keyword of the list is spelled as a word, and no two
  keywords are spelled alike.
-/
structure WellSpelled
    (entries : List (String × String)) :
    Prop where
  word :
    ∀ (k : Keyword) (spelling : String),
      (k.name, spelling) ∈ entries →
      Lexeme .word spelling.toList
  distinct :
    ∀ (j k : Keyword) (spelling : String),
      (j.name, spelling) ∈ entries →
      (k.name, spelling) ∈ entries →
      j = k

/- Words without repetition spell keywords well. -/
theorem WellSpelled.of_nodup
    (hWords :
      ∀ entry ∈ entries, Lexeme .word entry.2.toList)
    (hNodup : (entries.map Prod.snd).Nodup) :
    WellSpelled entries := by
  refine ⟨?_, ?_⟩
  · intro k spelling hMem
    exact hWords (k.name, spelling) hMem
  · intro j k spelling hFirst hSecond
    have hSame :=
      List.inj_on_of_nodup_map hNodup hFirst hSecond rfl
    have hName : j.name = k.name := congrArg Prod.fst hSame
    exact Keyword.name_injective hName

/- Then a keyword is found by each of its spellings. -/
theorem WellSpelled.getElem?_eq
    (hSpelled : WellSpelled entries)
    {k : Keyword}
    {spelling : String}
    (hMem : (k.name, spelling) ∈ entries) :
    (ofSpellings entries)[spelling]? = some k := by
  have hTable : spelling ∈ ofSpellings entries :=
    mem_foldl_of_mem (.inr ⟨k, hMem⟩)
  rw [Std.ExtTreeMap.mem_iff_isSome_getElem?,
    Option.isSome_iff_exists] at hTable
  rcases hTable with ⟨j, hFound⟩
  rw [hFound,
    hSpelled.distinct j k spelling
      (name_mem_of_getElem? hFound) hMem]

end KeywordTable

end OcScript

------------------------------------------------------------
-- Respelled Sources
------------------------------------------------------------

namespace OcScript

/- The spelling that a list gives to a keyword. -/
def KeywordTable.spelling?
    (entries : List (String × String))
    (k : Keyword) :
    Option String :=
  entries.lookup k.name

/-
  A chunk with its text replaced by the new spelling, if it
  is a keyword of the table.
-/
def Chunk.respelled
    (table : KeywordTable)
    (entries : List (String × String))
    (k : Chunk) :
    Chunk :=
  match Located.kind? table k with
  | some (.keyword keyword) =>
      match (KeywordTable.spelling? entries keyword).map
          String.toList with
      | some (c :: tail) => { k with head := c, tail := tail }
      | _ => k
  | _ => k

/- The source with its keywords respelled in place. -/
def respelled
    (table : KeywordTable)
    (entries : List (String × String))
    (source : String) :
    String :=
  String.ofList
    (Chunk.exchanged (Chunk.respelled table entries)
      source.toList)

/- A keyword token with the new spelling. -/
def Token.respelled
    (entries : List (String × String))
    (t : Token) :
    Token :=
  match t.kind with
  | .keyword k =>
      { t with
        lexeme :=
          (KeywordTable.spelling? entries k).getD t.lexeme }
  | _ => t

@[simp] theorem Token.kind_respelled
    (entries : List (String × String))
    (t : Token) :
    (t.respelled entries).kind = t.kind := by
  unfold respelled
  split <;> rfl

theorem Token.respelled_of_not_keyword
    {entries : List (String × String)}
    {t : Token}
    (hKind : ∀ k, t.kind ≠ .keyword k) :
    t.respelled entries = t := by
  unfold respelled
  split
  · rename_i k hKeyword
    exact absurd hKeyword (hKind k)
  · rfl

namespace KeywordTable

/- A spelling that is given is in the list. -/
theorem name_mem_of_spelling?
    {entries : List (String × String)}
    {k : Keyword}
    {spelling : String}
    (hSpelling : spelling? entries k = some spelling) :
    (k.name, spelling) ∈ entries := by
  rcases List.lookup_eq_some_iff.mp hSpelling with
    ⟨front, back, rfl, -⟩
  simp

theorem exists_spelling?
    {entries : List (String × String)}
    {k : Keyword}
    (hSpelled : ∃ spelling, (k.name, spelling) ∈ entries) :
    ∃ spelling, spelling? entries k = some spelling := by
  rcases hSpelled with ⟨spelling, hMem⟩
  apply Option.isSome_iff_exists.mp
  exact
    List.lookup_isSome_iff.mpr
      ⟨(k.name, spelling), hMem, beq_self_eq_true _⟩

end KeywordTable

/-
  The keywords of the table have new spellings, as words and
  each its own, and no identifier of the source is one.
-/
structure Respellable
    (table : KeywordTable)
    (entries : List (String × String))
    (source : String) :
    Prop where
  spelled :
    ∀ (word : String) (k : Keyword),
      table[word]? = some k →
      ∃ spelling, (k.name, spelling) ∈ entries
  wellSpelled : KeywordTable.WellSpelled entries
  free :
    ∀ t ∈ (scan table source).tokens,
      t.kind = .identifier →
      ∀ k : Keyword, (k.name, t.lexeme) ∉ entries

namespace Located

/- The table is asked about words only. -/
theorem kind?_of_not_word
    {k : Chunk}
    (hOther : k.kind ≠ .word)
    (table other : KeywordTable) :
    kind? table k = kind? other k := by
  unfold kind?
  split
  all_goals first | rfl | exact absurd ‹_› hOther

/- What is no word is no keyword. -/
theorem kind?_ne_keyword
    {k : Chunk}
    (hOther : k.kind ≠ .word)
    (table : KeywordTable)
    (keyword : Keyword) :
    kind? table k ≠ some (.keyword keyword) := by
  unfold kind?
  grind

theorem kind?_of_word
    {k : Chunk}
    (hWord : k.kind = .word)
    (table : KeywordTable) :
    kind? table k =
      some (table.kindOf (String.ofList k.text)) := by
  simp only [kind?, hWord]

end Located

namespace Chunk

variable {table : KeywordTable}
variable {entries : List (String × String)}
variable {k : Chunk}

@[simp] theorem kind_respelled :
    (k.respelled table entries).kind = k.kind := by
  unfold respelled
  split
  · split
    · rfl
    · rfl
  · rfl

/- What is no word is not respelled. -/
theorem respelled_of_not_word
    (hOther : k.kind ≠ .word) :
    k.respelled table entries = k := by
  unfold respelled
  split
  · rename_i keyword hKind
    have hKeyword :=
      Located.kind?_ne_keyword hOther table keyword
    exact absurd hKind hKeyword
  · rfl

/- Nor is a word that the table does not know. -/
theorem respelled_of_unknown
    (hWord : k.kind = .word)
    (hUnknown : table[String.ofList k.text]? = none) :
    k.respelled table entries = k := by
  simp only [respelled, Located.kind?_of_word hWord,
    KeywordTable.kindOf, hUnknown]

/- A keyword becomes its new spelling. -/
theorem respelled_of_known
    (hWord : k.kind = .word)
    {keyword : Keyword}
    (hKnown :
      table[String.ofList k.text]? = some keyword)
    {spelling : String}
    (hSpelling :
      KeywordTable.spelling? entries keyword =
        some spelling)
    (hLexeme : Lexeme .word spelling.toList) :
    (k.respelled table entries).kind = .word ∧
      (k.respelled table entries).text =
        spelling.toList := by
  have hKind :
      Located.kind? table k = some (.keyword keyword) := by
    rw [Located.kind?_of_word hWord, KeywordTable.kindOf,
      hKnown]
  generalize hText : spelling.toList = text at hLexeme
  cases hLexeme with
  | word hFirst hRest =>
      simp [respelled, hKind, hSpelling, hText, hWord,
        Chunk.text]

/- The words among the chunks of a text are words. -/
theorem lexeme_of_mem_ofText
    {source : List Char}
    (hMem : k ∈ ofText source)
    (hWord : k.kind = .word) :
    Lexeme .word k.text := by
  have hCases := lexeme_or_fault hMem
  simpa [hWord] using hCases

/- A word ends on the line it starts on. -/
theorem newlines_of_word
    (hLexeme : Lexeme .word k.text) :
    k.newlines = 0 := by
  apply List.count_eq_zero.mpr
  intro hMem
  cases hLexeme with
  | word hFirst hRest =>
      rcases List.mem_cons.mp hMem with hHead | hTail
      · rw [← hHead] at hFirst
        revert hFirst
        decide
      · have hPart := hRest _ hTail
        revert hPart
        decide

end Chunk

end OcScript

------------------------------------------------------------
-- Scans of Respelled Sources
------------------------------------------------------------

namespace OcScript

namespace Respellable

open KeywordTable (ofSpellings)

variable {table : KeywordTable}
variable {entries : List (String × String)}
variable {source : String}
variable (hRespellable : Respellable table entries source)

include hRespellable

/- A keyword of the table is found in its new spelling. -/
theorem respelled_keyword
    {k : Chunk}
    (hWord : k.kind = .word)
    {keyword : Keyword}
    (hKnown :
      table[String.ofList k.text]? = some keyword) :
    ∃ spelling,
      KeywordTable.spelling? entries keyword =
          some spelling ∧
        (k.respelled table entries).kind = .word ∧
        (k.respelled table entries).text =
          spelling.toList ∧
        Lexeme .word spelling.toList ∧
        (ofSpellings entries)[spelling]? = some keyword := by
  rcases KeywordTable.exists_spelling?
      (hRespellable.spelled _ _ hKnown) with
    ⟨spelling, hSpelling⟩
  have hMem := KeywordTable.name_mem_of_spelling? hSpelling
  have hLexeme :=
    hRespellable.wellSpelled.word keyword spelling hMem
  have hText :=
    Chunk.respelled_of_known hWord hKnown hSpelling hLexeme
  exact
    ⟨spelling, hSpelling, hText.1, hText.2, hLexeme,
      hRespellable.wellSpelled.getElem?_eq hMem⟩

/- Respelling exchanges words for words. -/
theorem exchanges
    (k : Chunk) :
    Chunk.Exchanges (Chunk.respelled table entries) k := by
  by_cases hWord : k.kind = .word
  · cases hKnown : table[String.ofList k.text]? with
    | none =>
        exact .inl (Chunk.respelled_of_unknown hWord hKnown)
    | some keyword =>
        rcases hRespellable.respelled_keyword hWord
            hKnown with
          ⟨spelling, -, hKind, hText, hLexeme, -⟩
        rw [← hText] at hLexeme
        exact .inr ⟨hWord, hKind, hLexeme⟩
  · exact .inl (Chunk.respelled_of_not_word hWord)

/- Respelling moves nothing to another line. -/
theorem newlines_respelled
    {k : Chunk}
    (hMem : k ∈ Chunk.ofText source.toList) :
    (k.respelled table entries).newlines = k.newlines := by
  rcases hRespellable.exchanges k with
    hSame | ⟨hWord, -, hLexeme⟩
  · rw [hSame]
  · rw [Chunk.newlines_of_word hLexeme,
      Chunk.newlines_of_word
        (Chunk.lexeme_of_mem_ofText hMem hWord)]

/- An identifier of the source is not a new spelling. -/
theorem getElem?_eq_none
    {l : Located}
    (hMem :
      l ∈ Located.ofChunks 1 (Chunk.ofText source.toList))
    (hWord : l.chunk.kind = .word)
    (hUnknown :
      table[String.ofList l.chunk.text]? = none) :
    (ofSpellings entries)[String.ofList l.chunk.text]? =
      none := by
  let t : Token :=
    ⟨.identifier, String.ofList l.chunk.text, l.line⟩
  have hToken : Located.token? table l = some t := by
    rw [Located.token?, Located.kind?_of_word hWord,
      KeywordTable.kindOf, hUnknown]
    rfl
  have hTokens : t ∈ (scan table source).tokens := by
    rw [tokens_scan, body_scan]
    apply List.mem_append_left
    exact List.mem_filterMap.mpr ⟨l, hMem, hToken⟩
  cases hFound :
      (ofSpellings entries)[String.ofList l.chunk.text]? with
  | none =>
      rfl
  | some keyword =>
      have hName := KeywordTable.name_mem_of_getElem? hFound
      exact
        absurd hName
          (hRespellable.free t hTokens rfl keyword)

/- A respelled chunk makes the token it made, respelled. -/
theorem token?_respelled
    {l : Located}
    (hMem :
      l ∈ Located.ofChunks 1 (Chunk.ofText source.toList)) :
    Located.token? (ofSpellings entries)
        ⟨l.line, l.chunk.respelled table entries⟩ =
      (Located.token? table l).map
        (Token.respelled entries) := by
  by_cases hWord : l.chunk.kind = .word
  · cases hKnown : table[String.ofList l.chunk.text]? with
    | none =>
        have hStays :=
          hRespellable.getElem?_eq_none hMem hWord hKnown
        rw [Chunk.respelled_of_unknown hWord hKnown]
        simp only [Located.token?,
          Located.kind?_of_word hWord, KeywordTable.kindOf,
          hKnown, hStays, Option.map_some, Token.respelled]
    | some keyword =>
        rcases hRespellable.respelled_keyword hWord
            hKnown with
          ⟨spelling, hSpelling, hKind, hText, -, hFound⟩
        simp only [Located.token?,
          Located.kind?_of_word hWord,
          Located.kind?_of_word hKind, hText,
          String.ofList_toList, KeywordTable.kindOf, hKnown,
          hFound, Option.map_some, Token.respelled,
          hSpelling, Option.getD_some]
  · rw [Chunk.respelled_of_not_word hWord]
    simp only [Located.token?,
      Located.kind?_of_not_word hWord _ table]
    cases hKind : Located.kind? table l.chunk with
    | none =>
        rfl
    | some kind =>
        apply congrArg some
        symm
        apply Token.respelled_of_not_keyword
        rintro keyword rfl
        exact
          Located.kind?_ne_keyword hWord table keyword hKind

/- The chunks of a respelled source are found on its lines. -/
theorem ofChunks_respelled :
    Located.ofChunks 1
        (Chunk.ofText
          (respelled table entries source).toList) =
      (Located.ofChunks 1
        (Chunk.ofText source.toList)).map fun l =>
          ⟨l.line, l.chunk.respelled table entries⟩ := by
  have hExchanged :=
    Chunk.ofText_exchanged
      (fun k (_ : k ∈ Chunk.ofText source.toList) =>
        hRespellable.exchanges k)
  rw [respelled, String.toList_ofList, hExchanged]
  apply Located.ofChunks_map
  intro k hMem
  exact hRespellable.newlines_respelled hMem

/- The tokens of a respelled source, respelled. -/
theorem body_scan_respelled :
    (scan (ofSpellings entries)
        (respelled table entries source)).body =
      (scan table source).body.map
        (Token.respelled entries) := by
  rw [body_scan, body_scan, hRespellable.ofChunks_respelled,
    List.filterMap_map, List.map_filterMap]
  apply List.filterMap_congr
  intro l hMem
  exact hRespellable.token?_respelled hMem

/- A respelled source has the errors it had. -/
theorem errors_scan_respelled :
    (scan (ofSpellings entries)
        (respelled table entries source)).errors =
      (scan table source).errors := by
  simp only [scan, hRespellable.ofChunks_respelled,
    List.filterMap_map]
  apply List.filterMap_congr
  intro l _
  simp only [Function.comp, Located.error?,
    Chunk.kind_respelled]

end Respellable

end OcScript
