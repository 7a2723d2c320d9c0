import OcScript.Token

/-
  This file cuts a source text into chunks.

  Every chunk is a blank, a comment, a symbol, a string, a
  number, or a word, the longest one the text starts with.
  Where the text starts with none of these, an opening
  quote takes the whole rest of the text with it, and any
  other character stands alone.  Chunks are never empty, so
  cutting ends, and nothing is lost between them.

  Key definitions include:
    * `OcScript.ChunkKind`
    * `OcScript.Chunk`
    * `OcScript.Chunk.first`
    * `OcScript.Chunk.ofText`

  Key theorems include:
    * `OcScript.Chunk.text_first_append_drop`
    * `OcScript.Chunk.flatMap_text_ofText`
-/

------------------------------------------------------------
-- Character Classes
------------------------------------------------------------

namespace OcScript

namespace Chunk

/- The characters that separate tokens. -/
def isBlank
    (c : Char) :
    Bool :=
  c = ' ' ∨ c = '\t' ∨ c = '\r' ∨ c = '\n'

/- Words start with an ASCII letter or an underscore. -/
def isWordStart
    (c : Char) :
    Bool :=
  c.isAlpha ∨ c = '_'

/- Words go on with letters, underscores, and digits. -/
def isWordPart
    (c : Char) :
    Bool :=
  isWordStart c ∨ c.isDigit

end Chunk

end OcScript

------------------------------------------------------------
-- Chunks
------------------------------------------------------------

namespace OcScript

/-
  What a chunk is.  An unclosed chunk is an opening quote
  that is never closed, with the rest of the source; a
  stray chunk is a character that starts nothing.
-/
inductive ChunkKind where
| blank
| comment
| symbol (symbol : Symbol)
| string
| number
| word
| unclosed
| stray
deriving DecidableEq, Repr

/- A piece of source text with at least one character. -/
structure Chunk where
  kind : ChunkKind
  head : Char
  tail : List Char
deriving DecidableEq, Repr

namespace Chunk

/- The characters of a chunk. -/
def text
    (k : Chunk) :
    List Char :=
  k.head :: k.tail

/- The number of line ends inside a chunk. -/
def newlines
    (k : Chunk) :
    Nat :=
  k.text.count '\n'

/-
  The rest of a number after its first digit: more digits,
  and a point with the digits after it if there are any.
-/
def numberTail
    (rest : List Char) :
    List Char :=
  let whole := rest.takeWhile Char.isDigit
  match rest.dropWhile Char.isDigit with
  | '.' :: after =>
      match after.takeWhile Char.isDigit with
      | [] => whole
      | fraction => whole ++ '.' :: fraction
  | _ => whole

/-
  The chunk that a quote opens: everything up to the next
  quote, or else the whole rest.
-/
def quoted
    (rest : List Char) :
    Chunk :=
  let content := rest.takeWhile (· ≠ '"')
  match rest.dropWhile (· ≠ '"') with
  | [] => ⟨.unclosed, '"', content⟩
  | close :: _ => ⟨.string, '"', content ++ [close]⟩

/- The first chunk of the text `c :: rest`. -/
def first
    (c : Char)
    (rest : List Char) :
    Chunk :=
  if isBlank c then
    ⟨.blank, c, []⟩
  else if c = '"' then
    quoted rest
  else if c.isDigit then
    ⟨.number, c, numberTail rest⟩
  else if isWordStart c then
    ⟨.word, c, rest.takeWhile isWordPart⟩
  else if ['/', '/'].isPrefixOf (c :: rest) then
    ⟨.comment, c, rest.takeWhile (· ≠ '\n')⟩
  else
    match Symbol.startOf? (c :: rest) with
    | some symbol =>
        ⟨.symbol symbol, c, symbol.spelling.tail⟩
    | none => ⟨.stray, c, []⟩

/- The chunks of a text, in order. -/
def ofText : List Char → List Chunk
| [] => []
| c :: rest =>
    let k := first c rest
    k :: ofText (rest.drop k.tail.length)
termination_by text => text.length
decreasing_by
  simp only [List.length_drop, List.length_cons]
  omega

end Chunk

end OcScript

------------------------------------------------------------
-- Nothing Is Lost
------------------------------------------------------------

namespace OcScript

namespace Symbol

/- The spelling of a found symbol starts the text. -/
theorem spelling_isPrefix_of_startOf?
    {text : List Char}
    {symbol : Symbol}
    (hFound : startOf? text = some symbol) :
    symbol.spelling <+: text := by
  have hSpelling := List.find?_some hFound
  simpa using hSpelling

end Symbol

namespace Chunk

/- A number's tail starts the text it is cut from. -/
theorem numberTail_isPrefix
    (rest : List Char) :
    numberTail rest <+: rest := by
  have hSplit :=
    List.takeWhile_append_dropWhile
      (p := Char.isDigit) (l := rest)
  unfold numberTail
  split
  · rename_i after hDrop
    rw [hDrop] at hSplit
    split
    · exact List.takeWhile_prefix _
    · conv => rhs; rw [← hSplit]
      rw [List.prefix_append_right_inj, List.cons_prefix_cons]
      exact ⟨rfl, List.takeWhile_prefix _⟩
  · exact List.takeWhile_prefix _

/- A quoted chunk's tail starts the text after its quote. -/
theorem tail_quoted_isPrefix
    (rest : List Char) :
    (quoted rest).tail <+: rest := by
  have hSplit :=
    List.takeWhile_append_dropWhile
      (p := fun c => decide (c ≠ '"')) (l := rest)
  unfold quoted
  split
  · exact List.takeWhile_prefix _
  · rename_i close after hDrop
    rw [hDrop] at hSplit
    conv => rhs; rw [← hSplit]
    rw [List.prefix_append_right_inj, List.cons_prefix_cons]
    exact ⟨rfl, List.nil_prefix⟩

/- The first chunk starts where the text starts. -/
theorem head_first
    (c : Char)
    (rest : List Char) :
    (first c rest).head = c := by
  unfold first quoted
  grind

/- The first chunk goes on as the text goes on. -/
theorem tail_first_isPrefix
    (c : Char)
    (rest : List Char) :
    (first c rest).tail <+: rest := by
  unfold first
  split
  · exact List.nil_prefix
  split
  · exact tail_quoted_isPrefix rest
  split
  · exact numberTail_isPrefix rest
  split
  · exact List.takeWhile_prefix _
  split
  · exact List.takeWhile_prefix _
  split
  · rename_i symbol hFound
    have hSpelling :=
      Symbol.spelling_isPrefix_of_startOf? hFound
    cases symbol <;>
      simp_all [Symbol.spelling, List.cons_prefix_cons]
  · exact List.nil_prefix

/- The first chunk and what is left make up the text. -/
theorem text_first_append_drop
    (c : Char)
    (rest : List Char) :
    (first c rest).text ++
        rest.drop (first c rest).tail.length =
      c :: rest := by
  obtain ⟨after, hAfter⟩ := tail_first_isPrefix c rest
  have hHead := head_first c rest
  generalize first c rest = k at hAfter hHead ⊢
  subst hAfter hHead
  rw [List.drop_left]
  rfl

/- The chunks of a text make up the text. -/
theorem flatMap_text_ofText
    (text : List Char) :
    (ofText text).flatMap Chunk.text = text := by
  fun_induction ofText text with
  | case1 => rfl
  | case2 c rest k ih =>
      rw [List.flatMap_cons, ih]
      exact text_first_append_drop c rest

end Chunk

end OcScript
