import OcScript.Text.BreakClass

/-
  This file cuts texts into clusters: the runs of characters
  that a reader takes for one.

  The rules are those for extended grapheme clusters.  No
  rule looks back beyond the cluster that is under way, so a
  text is cut from its front, and only the classes of that
  cluster are held, the last one first.

  Key definitions include:
    * `OcScript.Text.BreakClass.joins`
    * `OcScript.Text.clusters`

  Correctness is proven by:
    * `OcScript.Text.clusters_flatten`
-/

------------------------------------------------------------
-- Neighbours
------------------------------------------------------------

namespace OcScript

namespace Text

namespace BreakClass

/- Whether a class is cut off on both sides. -/
def standsApart : BreakClass → Bool
| .carriageReturn | .lineFeed | .control => true
| _ => false

/- Whether a class extends what is before it. -/
def extends? : BreakClass → Bool
| .extend | .linker | .nonJoiner => true
| _ => false

/- Whether a class is never cut off from what is before. -/
def trails
    (next : BreakClass) :
    Bool :=
  next.extends? || next = .joiner || next = .spacingMark

/- Whether two classes follow each other in a syllable. -/
def followsInSyllable : BreakClass → BreakClass → Bool
| .leading, .leading
| .leading, .vowel
| .leading, .openSyllable
| .leading, .closedSyllable
| .openSyllable, .vowel
| .openSyllable, .trailing
| .vowel, .vowel
| .vowel, .trailing
| .closedSyllable, .trailing
| .trailing, .trailing => true
| _, _ => false

end BreakClass

end Text

end OcScript

------------------------------------------------------------
-- Longer Joins
------------------------------------------------------------

namespace OcScript

namespace Text

namespace BreakClass

/-
  Whether a cluster ends with a pictograph and a joiner, so
  that one more pictograph goes with it.
-/
def awaitsPictograph : List BreakClass → Bool
| .joiner :: before =>
    (before.dropWhile extends?).head? = some .pictograph
| _ => false

/-
  Whether a class may stand inside a conjunct.  The one that
  keeps letters apart may not.
-/
def conjoins : BreakClass → Bool
| .extend | .linker | .joiner => true
| _ => false

/-
  Whether a cluster ends with a consonant and a linker, so
  that one more consonant goes with it.
-/
def awaitsConsonant
    (cluster : List BreakClass) :
    Bool :=
  (cluster.takeWhile conjoins).contains .linker &&
    (cluster.dropWhile conjoins).head? = some .consonant

/-
  Whether a cluster ends with a flag letter that has no
  partner yet.
-/
def awaitsRegional
    (cluster : List BreakClass) :
    Bool :=
  (cluster.takeWhile (· = .regional)).length % 2 = 1

/- Whether a class goes with the cluster before it. -/
def joins
    (cluster : List BreakClass)
    (next : BreakClass) :
    Bool :=
  match cluster with
  | [] => false
  | last :: _ =>
      if last.standsApart || next.standsApart then
        last = .carriageReturn && next = .lineFeed
      else if next.trails || last = .prepended then
        true
      else
        match next with
        | .pictograph => awaitsPictograph cluster
        | .consonant => awaitsConsonant cluster
        | .regional => awaitsRegional cluster
        | _ => followsInSyllable last next

end BreakClass

end Text

end OcScript

------------------------------------------------------------
-- Clusters
------------------------------------------------------------

namespace OcScript

namespace Text

/-
  Cut the rest of a text, where `cluster` and `classes` are
  the cluster under way and its classes, last first.
-/
def cutAfter
    (cluster : List Char)
    (classes : List BreakClass) :
    List Char → List (List Char)
| [] => [cluster.reverse]
| c :: rest =>
    let next := BreakClass.ofChar c
    if BreakClass.joins classes next then
      cutAfter (c :: cluster) (next :: classes) rest
    else
      cluster.reverse :: cutAfter [c] [next] rest

/- The clusters of a text. -/
def clusters : List Char → List (List Char)
| [] => []
| c :: rest => cutAfter [c] [BreakClass.ofChar c] rest

/- Cutting loses nothing. -/
theorem cutAfter_flatten
    (cluster : List Char)
    (classes : List BreakClass)
    (text : List Char) :
    (cutAfter cluster classes text).flatten =
      cluster.reverse ++ text := by
  induction text generalizing cluster classes with
  | nil => simp [cutAfter]
  | cons c rest ih =>
      rw [cutAfter]
      split <;> simp [ih]

/- The clusters of a text make up the text. -/
theorem clusters_flatten
    (text : List Char) :
    (clusters text).flatten = text := by
  cases text with
  | nil => rfl
  | cons c rest => simp [clusters, cutAfter_flatten]

end Text

end OcScript
