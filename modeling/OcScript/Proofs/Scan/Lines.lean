import Mathlib.Data.List.Basic
import OcScript.Proofs.Scan.Newline
import OcScript.Proofs.Scan.Pass

/-
  This file proves that the lines given to tokens and scan
  errors count the newlines of the source.

  A placed chunk knows the text before it, so the line on
  which it ends can be read off the source itself.  A token
  has the line on which its lexeme ends, which for a string
  is the line of its closing quote.  A stray character is
  reported on the line it is on, and a string that is never
  closed on the last line of all.

  Key definitions include:
    * `OcScript.lastLine`
    * `OcScript.Placed`
    * `OcScript.Placed.ofChunks`

  Key theorems include:
    * `OcScript.Placed.munches_of_mem`
    * `OcScript.Placed.located_ofChunks`
    * `OcScript.Located.pairwise_ofChunks`
    * `OcScript.lines_count_newlines`
-/

------------------------------------------------------------
-- Placed Chunks
------------------------------------------------------------

namespace OcScript

/- The line on which a text ends, if it starts on the first. -/
def lastLine
    (text : List Char) :
    Nat :=
  1 + text.count '\n'

/- A chunk and the text before it. -/
structure Placed where
  before : List Char
  chunk : Chunk
deriving DecidableEq, Repr

namespace Placed

/- Chunks in order, the first of them after some text. -/
def ofChunks
    (before : List Char) :
    List Chunk → List Placed
| [] => []
| k :: rest => ⟨before, k⟩ :: ofChunks (before ++ k.text) rest

/- The text up to the end of a chunk. -/
def upToEnd
    (p : Placed) :
    List Char :=
  p.before ++ p.chunk.text

/-
  The token of a chunk, if it makes one, on the line on
  which the text up to the end of the chunk ends.
-/
def token?
    (table : KeywordTable)
    (p : Placed) :
    Option Token :=
  (Located.kind? table p.chunk).map fun kind =>
    ⟨kind, String.ofList p.chunk.text, lastLine p.upToEnd⟩

/-
  The report of a chunk, if it is at fault: a character on
  the line on which the text before it ends, an open string
  on the line on which the whole source ends.
-/
def report?
    (source : List Char)
    (p : Placed) :
    Option Diagnostic :=
  match p.chunk.kind with
  | .stray =>
      some (.scan (lastLine p.before) "Unexpected character.")
  | .unclosed =>
      some (.scan (lastLine source) "Unterminated string.")
  | _ => none

/- A placed chunk is cut from what follows the text before. -/
theorem munches_of_mem
    {before text : List Char}
    {chunks : List Chunk}
    (hMunched : Chunk.Munched text chunks)
    {p : Placed}
    (hMem : p ∈ ofChunks before chunks) :
    ∃ back,
      p.upToEnd ++ back = before ++ text ∧
        Chunk.Munches (p.chunk.text ++ back) p.chunk := by
  induction hMunched generalizing before with
  | nil =>
      cases hMem
  | @cons k rest chunks hFirst hRest ih =>
      rcases List.mem_cons.mp hMem with rfl | hMem
      · exact ⟨rest, List.append_assoc .., hFirst⟩
      · rcases ih hMem with ⟨back, hText, hMunches⟩
        rw [List.append_assoc] at hText
        exact ⟨back, hText, hMunches⟩

/- The line of a placed chunk is the one it was given. -/
theorem located_ofChunks
    (before : List Char)
    (chunks : List Chunk) :
    Located.ofChunks (lastLine before) chunks =
      (ofChunks before chunks).map fun p =>
        ⟨lastLine p.upToEnd, p.chunk⟩ := by
  induction chunks generalizing before with
  | nil =>
      rfl
  | cons k rest ih =>
      have hLast :
          lastLine before + k.newlines =
            lastLine (before ++ k.text) := by
        rw [lastLine, lastLine, List.count_append,
          Nat.add_assoc]
        rfl
      rw [Located.ofChunks, hLast, ih]
      rfl

end Placed

end OcScript

------------------------------------------------------------
-- Chunks at Fault
------------------------------------------------------------

namespace OcScript

namespace Chunk

variable {text : List Char} {k : Chunk}

/- A string that is never closed takes all of the text. -/
theorem Munches.text_of_unclosed
    (hMunches : Munches text k)
    (hKind : k.kind = .unclosed) :
    k.text = text := by
  cases hMunches with
  | lexeme hLexeme hPrefix hLongest =>
      rw [hKind] at hLexeme
      cases hLexeme
  | unclosed hNone hText =>
      exact hText.symm
  | stray hNone hText hQuote =>
      cases hKind

/- A character that stands alone is not a newline. -/
theorem Munches.newlines_of_stray
    (hMunches : Munches text k)
    (hKind : k.kind = .stray) :
    k.newlines = 0 := by
  cases hMunches with
  | lexeme hLexeme hPrefix hLongest =>
      rw [hKind] at hLexeme
      cases hLexeme
  | unclosed hNone hText =>
      cases hKind
  | @stray c rest hNone hText hQuote =>
      apply List.count_eq_zero.mpr
      intro hMem
      rw [Chunk.text, List.mem_singleton] at hMem
      subst hText hMem
      exact
        hNone .blank ['\n'] (.blank (by simp))
          (List.prefix_append ['\n'] rest)

end Chunk

/- A chunk at fault is reported on its line. -/
theorem Placed.report?_eq
    {source : List Char}
    {chunks : List Chunk}
    (hMunched : Chunk.Munched source chunks)
    {p : Placed}
    (hMem : p ∈ ofChunks [] chunks) :
    (Located.error? ⟨lastLine p.upToEnd, p.chunk⟩).map
        ScanError.toDiagnostic =
      p.report? source := by
  rcases munches_of_mem hMunched hMem with
    ⟨back, hText, hMunches⟩
  unfold Located.error? report?
  cases hKind : p.chunk.kind with
  | stray =>
      have hLine : lastLine p.upToEnd = lastLine p.before := by
        have hNone := hMunches.newlines_of_stray hKind
        rw [Chunk.newlines] at hNone
        rw [lastLine, lastLine, upToEnd, List.count_append,
          hNone, Nat.add_zero]
      rw [← hLine]
      rfl
  | unclosed =>
      have hAll := hMunches.text_of_unclosed hKind
      rw [List.self_eq_append_right] at hAll
      rw [hAll, List.append_nil] at hText
      rw [hText]
      rfl
  | blank | comment | symbol | string | number | word =>
      rfl

end OcScript

------------------------------------------------------------
-- Lines Count Newlines
------------------------------------------------------------

namespace OcScript

/- Chunks never end above the chunks before them. -/
theorem Located.pairwise_ofChunks
    (line : Nat)
    (chunks : List Chunk) :
    (ofChunks line chunks).Pairwise fun l m =>
      l.line ≤ m.line := by
  induction chunks generalizing line with
  | nil =>
      exact .nil
  | cons k rest ih =>
      refine .cons ?_ (ih _)
      intro m hMem
      exact (line_bounds_of_mem_ofChunks hMem).1

/- Tokens never end above the tokens before them. -/
theorem pairwise_tokens_scan
    (table : KeywordTable)
    (source : String) :
    (scan table source).tokens.Pairwise fun s t =>
      s.line ≤ t.line := by
  have hLine :
      ∀ {l : Located} {t : Token},
        Located.token? table l = some t → t.line = l.line := by
    intro l t hToken
    rcases Option.map_eq_some_iff.mp hToken with
      ⟨kind, -, rfl⟩
    rfl
  rw [tokens_scan, body_scan, List.pairwise_append]
  refine ⟨?_, List.pairwise_singleton _ _, ?_⟩
  · refine
      (Located.pairwise_ofChunks 1
        (Chunk.ofText source.toList)).filterMap _ ?_
    intro l m hOrder s hFirst t hSecond
    rwa [hLine hFirst, hLine hSecond]
  · intro s hBody t hEnd
    rcases List.mem_filterMap.mp hBody with
      ⟨l, hLocated, hToken⟩
    have hBounds :=
      Located.line_bounds_of_mem_ofChunks hLocated
    rw [Chunk.flatMap_text_ofText] at hBounds
    rw [List.mem_singleton.mp hEnd, hLine hToken]
    exact hBounds.2

/- No error is reported above the errors before it. -/
theorem pairwise_errors_scan
    (table : KeywordTable)
    (source : String) :
    (scan table source).errors.Pairwise fun d e =>
      d.line ≤ e.line := by
  have hLine :
      ∀ {l : Located} {e : ScanError},
        Located.error? l = some e → e.line = l.line := by
    intro l e hError
    unfold Located.error? at hError
    split at hError <;> cases hError <;> rfl
  refine
    (Located.pairwise_ofChunks 1
      (Chunk.ofText source.toList)).filterMap _ ?_
  intro l m hOrder d hFirst e hSecond
  rwa [hLine hFirst, hLine hSecond]

/-
  The lines of a scan count the newlines of the source.  The
  counter that goes up while a source is passed over has the
  value, at each token and at each error, that can be read
  off the text up to there.
-/
theorem lines_count_newlines
    (table : KeywordTable)
    (source : String) :
    Pass.scanned table source = scan table source ∧
      (∃ chunks,
        Chunk.Munched source.toList chunks ∧
          (scan table source).tokens =
            (Placed.ofChunks [] chunks).filterMap
                (Placed.token? table) ++
              [⟨.eof, "", lastLine source.toList⟩] ∧
          (scan table source).errors.map
              ScanError.toDiagnostic =
            (Placed.ofChunks [] chunks).filterMap
              (Placed.report? source.toList)) ∧
      ((scan table source).tokens.Pairwise fun s t =>
        s.line ≤ t.line) ∧
      (scan table source).errors.Pairwise fun d e =>
        d.line ≤ e.line := by
  refine
    ⟨Pass.scanned_eq table source, ?_,
      pairwise_tokens_scan table source,
      pairwise_errors_scan table source⟩
  have hMunched :
      Chunk.Munched source.toList
        (Chunk.ofText source.toList) :=
    Chunk.munched_iff.mpr rfl
  have hLocated :
      Located.ofChunks 1 (Chunk.ofText source.toList) =
        (Placed.ofChunks [] (Chunk.ofText source.toList)).map
          fun p => ⟨lastLine p.upToEnd, p.chunk⟩ :=
    Placed.located_ofChunks [] _
  refine ⟨_, hMunched, ?_, ?_⟩
  · rw [tokens_scan, body_scan, hLocated, List.filterMap_map]
    rfl
  · simp only [scan]
    rw [hLocated, List.filterMap_map, List.map_filterMap]
    apply List.filterMap_congr
    intro p hMem
    exact Placed.report?_eq hMunched hMem

end OcScript
