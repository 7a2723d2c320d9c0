import Mathlib.Data.List.Basic

/-
  This file defines prefix forms as trees of words and
  proves that their texts can be read in one way only.

  A form is a word, or a word with forms behind it between
  parentheses.  If the words hold no spaces and no
  parentheses, the text of a form shows where it ends, so
  that a text that starts with a form starts with no other.

  Key definitions include:
    * `OcScript.Form`
    * `OcScript.Form.chars`
    * `OcScript.Form.IsWord`
    * `OcScript.Form.words`
    * `OcScript.Form.Ends`

  Key theorems include:
    * `OcScript.Form.word_of_append`
    * `OcScript.Form.of_chars_append`
    * `OcScript.Form.chars_injective`
-/

------------------------------------------------------------
-- Forms
------------------------------------------------------------

namespace OcScript

/-
  A form: a word alone, or a word at the head of a list of
  forms.
-/
inductive Form where
| atom (word : String)
| node (head : String) (items : List Form)
deriving Repr

namespace Form

mutual

/- The characters of a form. -/
def chars : Form → List Char
| .atom word => word.toList
| .node head items =>
    '(' :: (head.toList ++ (charsAll items ++ [')']))

/- The characters of forms, each after a space. -/
def charsAll : List Form → List Char
| [] => []
| f :: rest => ' ' :: (f.chars ++ charsAll rest)

end

mutual

/- The words of a form. -/
def words : Form → List String
| .atom word => [word]
| .node head items => head :: wordsAll items

/- The words of forms. -/
def wordsAll : List Form → List String
| [] => []
| f :: rest => f.words ++ wordsAll rest

end

theorem wordsAll_eq_flatMap
    (items : List Form) :
    wordsAll items = items.flatMap words := by
  induction items with
  | nil => rfl
  | cons f rest ih =>
      rw [wordsAll, ih, List.flatMap_cons]

end Form

end OcScript

------------------------------------------------------------
-- Words and Where They End
------------------------------------------------------------

namespace OcScript

namespace Form

/- Nothing in the word looks like the edge of a form. -/
def IsWord
    (word : String) :
    Prop :=
  ∀ c ∈ word.toList, c ≠ ' ' ∧ c ≠ '(' ∧ c ≠ ')'

instance decidableIsWord
    (word : String) :
    Decidable (IsWord word) :=
  List.decidableBAll _ word.toList

/- What can follow a form inside a form, or at the end. -/
def Ends
    (after : List Char) :
    Prop :=
  ∀ c, after.head? = some c → c = ' ' ∨ c = ')'

theorem ends_nil :
    Ends [] := by
  intro c hHead
  cases hHead

theorem ends_space
    (rest : List Char) :
    Ends (' ' :: rest) := by
  intro c hHead
  exact .inl (Option.some.inj hHead).symm

theorem ends_close
    (rest : List Char) :
    Ends (')' :: rest) := by
  intro c hHead
  exact .inr (Option.some.inj hHead).symm

/- After a list of forms, its parenthesis is closed. -/
theorem ends_charsAll
    (items : List Form)
    (rest : List Char) :
    Ends (charsAll items ++ ')' :: rest) := by
  cases items with
  | nil => exact ends_close rest
  | cons f items => exact ends_space _

/- A word ends where no more of its characters come. -/
theorem takeWhile_word
    {word : String}
    (hWord : IsWord word)
    {after : List Char}
    (hEnds : Ends after) :
    (word.toList ++ after).takeWhile
        (fun c => c ≠ ' ' ∧ c ≠ '(' ∧ c ≠ ')') =
      word.toList := by
  rw [List.takeWhile_append_of_pos]
  · cases after with
    | nil => simp
    | cons c rest =>
        rcases hEnds c rfl with rfl | rfl <;> simp
  · intro c hMem
    exact decide_eq_true (hWord c hMem)

/- A text starts with one word only. -/
theorem word_of_append
    {word other : String}
    (hWord : IsWord word)
    (hOther : IsWord other)
    {after behind : List Char}
    (hAfter : Ends after)
    (hBehind : Ends behind)
    (hSame :
      word.toList ++ after = other.toList ++ behind) :
    word = other ∧ after = behind := by
  have hWords : word.toList = other.toList := by
    rw [← takeWhile_word hWord hAfter, hSame,
      takeWhile_word hOther hBehind]
  refine ⟨String.toList_inj.mp hWords, ?_⟩
  rw [hWords] at hSame
  exact List.append_cancel_left hSame

/- No word starts with a parenthesis. -/
theorem word_append_ne_open
    {word : String}
    (hWord : IsWord word)
    {after : List Char}
    (hEnds : Ends after)
    (rest : List Char) :
    word.toList ++ after ≠ '(' :: rest := by
  intro hSame
  cases hChars : word.toList with
  | nil =>
      rw [hChars, List.nil_append] at hSame
      rw [hSame] at hEnds
      rcases hEnds '(' rfl with hMark | hMark <;>
        exact absurd hMark (by decide)
  | cons c chars =>
      rw [hChars] at hSame
      obtain rfl : c = '(' := (List.cons.inj hSame).1
      have hMem : '(' ∈ word.toList := by
        rw [hChars]
        exact List.mem_cons_self ..
      exact (hWord '(' hMem).2.1 rfl

end Form

end OcScript

------------------------------------------------------------
-- Unique Reading
------------------------------------------------------------

namespace OcScript

namespace Form

mutual

/-
  A text starts with one form only.  The induction is on
  the first form; what follows it in the text is arbitrary,
  since inside a form it is the rest of the list.
-/
theorem of_chars_append
    (f g : Form)
    (hF : ∀ word ∈ f.words, IsWord word)
    (hG : ∀ word ∈ g.words, IsWord word)
    {after behind : List Char}
    (hAfter : Ends after)
    (hBehind : Ends behind)
    (hSame : f.chars ++ after = g.chars ++ behind) :
    f = g ∧ after = behind := by
  cases f with
  | atom word =>
      have hWord : IsWord word :=
        hF word (List.mem_singleton_self word)
      cases g with
      | atom other =>
          have hOther : IsWord other :=
            hG other (List.mem_singleton_self other)
          obtain ⟨rfl, hRest⟩ :=
            word_of_append hWord hOther hAfter hBehind hSame
          exact ⟨rfl, hRest⟩
      | node head items =>
          exact
            (word_append_ne_open hWord hAfter _ hSame).elim
  | node head items =>
      obtain ⟨hHead, hItems⟩ := List.forall_mem_cons.mp hF
      cases g with
      | atom other =>
          have hOther : IsWord other :=
            hG other (List.mem_singleton_self other)
          exact
            (word_append_ne_open hOther hBehind _
              hSame.symm).elim
      | node head' items' =>
          obtain ⟨hHead', hItems'⟩ :=
            List.forall_mem_cons.mp hG
          simp only [chars, List.cons_append,
            List.append_assoc, List.cons.injEq, true_and,
            List.nil_append] at hSame
          -- Behind a head, its list starts or is closed.
          obtain ⟨rfl, hLists⟩ :=
            word_of_append hHead hHead'
              (ends_charsAll items after)
              (ends_charsAll items' behind) hSame
          obtain ⟨rfl, hRest⟩ :=
            of_charsAll_append items items' hItems hItems'
              hLists
          exact ⟨rfl, hRest⟩

/- A text starts with one closed list of forms only. -/
theorem of_charsAll_append
    (fs gs : List Form)
    (hFs : ∀ word ∈ wordsAll fs, IsWord word)
    (hGs : ∀ word ∈ wordsAll gs, IsWord word)
    {after behind : List Char}
    (hSame :
      charsAll fs ++ ')' :: after =
        charsAll gs ++ ')' :: behind) :
    fs = gs ∧ after = behind := by
  cases fs with
  | nil =>
      cases gs with
      | nil =>
          exact ⟨rfl, (List.cons.inj hSame).2⟩
      | cons g gs =>
          -- One list is closed where the other goes on.
          have hMark : ')' = ' ' := (List.cons.inj hSame).1
          exact absurd hMark (by decide)
  | cons f fs =>
      cases gs with
      | nil =>
          have hMark : ' ' = ')' := (List.cons.inj hSame).1
          exact absurd hMark (by decide)
      | cons g gs =>
          obtain ⟨hF, hFRest⟩ :=
            List.forall_mem_append.mp hFs
          obtain ⟨hG, hGRest⟩ :=
            List.forall_mem_append.mp hGs
          simp only [charsAll, List.cons_append,
            List.append_assoc, List.cons.injEq,
            true_and] at hSame
          obtain ⟨rfl, hLists⟩ :=
            of_chars_append f g hF hG
              (ends_charsAll fs after)
              (ends_charsAll gs behind) hSame
          obtain ⟨rfl, hRest⟩ :=
            of_charsAll_append fs gs hFRest hGRest hLists
          exact ⟨rfl, hRest⟩

end

/- Forms with the same text are the same. -/
theorem chars_injective
    {f g : Form}
    (hF : ∀ word ∈ f.words, IsWord word)
    (hG : ∀ word ∈ g.words, IsWord word)
    (hChars : f.chars = g.chars) :
    f = g := by
  have hSame : f.chars ++ [] = g.chars ++ [] := by
    rw [hChars]
  exact
    (of_chars_append f g hF hG ends_nil ends_nil hSame).1

end Form

end OcScript
