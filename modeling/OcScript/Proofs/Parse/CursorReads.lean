import OcScript.Proofs.Parse.Cursor
import OcScript.Proofs.Parse.Recovery

/-
  This file proves that walking along the tokens does what
  reading from the tokens left does.

  A cursor at a place before the first end marker stands
  before the tokens that are left up to the marker.  With
  enough nested calls allowed, a walk ends at the place
  before which the reading leaves its tokens, with the same
  value or failure and the same reports.  A fixed number of
  calls for each token left is enough.

  Key definitions include:
    * `OcScript.Token.Unread`
    * `OcScript.Cursor.facing`
    * `OcScript.Walk.Follows`

  Key theorems include:
    * `OcScript.Token.Unread.getElem?_placeOf`
    * `OcScript.Walk.Follows.bind`
    * `OcScript.Walk.follows_choice`
    * `OcScript.Walk.follows_expressions`
    * `OcScript.Walk.follows_recovering`
    * `OcScript.Walk.follows_statements`
    * `OcScript.Walk.follows_program`
-/

------------------------------------------------------------
-- Cursors and the Tokens Left
------------------------------------------------------------

namespace OcScript

open Token (EndMarked beforeEnd fromEnd endMarker)

/- An end marker stands behind the tokens before it. -/
theorem Token.EndMarked.exists_append
    {tokens : List Token}
    (hMarked : EndMarked tokens) :
    ∃ after,
      tokens =
        beforeEnd tokens ++ endMarker tokens :: after := by
  rcases hMarked.exists_fromEnd with ⟨after, hFrom⟩
  refine ⟨after, ?_⟩
  rw [← hFrom, Token.beforeEnd_append_fromEnd]

/-
  The tokens are left to be read before the first end marker
  of all tokens.
-/
structure Token.Unread
    (tokens left : List Token) :
    Prop where
  marked : EndMarked tokens
  isSuffix : left <:+ beforeEnd tokens

open Token (Unread)

namespace Cursor

/- The index of the first of the tokens left. -/
def placeOf
    (tokens left : List Token) :
    Nat :=
  (beforeEnd tokens).length - left.length

/- The cursor that stands before the tokens left. -/
def facing
    (tokens left : List Token)
    (farthest : Nat)
    (reports : List ParseError) :
    Cursor :=
  let place := placeOf tokens left
  ⟨tokens, place, max farthest place, reports⟩

end Cursor

namespace Token.Unread

open Cursor (placeOf)

variable {tokens left rest : List Token}
variable {t : Token}

theorem tail
    (hUnread : Unread tokens (t :: rest)) :
    Unread tokens rest :=
  ⟨hUnread.marked,
    (List.suffix_cons t rest).trans hUnread.isSuffix⟩

theorem placeOf_tail
    (hUnread : Unread tokens (t :: rest)) :
    placeOf tokens rest = placeOf tokens (t :: rest) + 1 := by
  have hLength := hUnread.isSuffix.length_le
  simp only [placeOf, List.length_cons] at hLength ⊢
  omega

/- A cursor faces the first token left, or the end marker. -/
theorem getElem?_placeOf
    (hUnread : Unread tokens left) :
    tokens[placeOf tokens left]? =
      some (left.headD (endMarker tokens)) := by
  rcases hUnread.marked.exists_append with ⟨after, hTokens⟩
  rcases hUnread.isSuffix with ⟨front, hFront⟩
  have hPlace : placeOf tokens left = front.length := by
    simp [placeOf, ← hFront]
  rw [← hFront, List.append_assoc] at hTokens
  rw [hPlace]
  nth_rewrite 1 [hTokens]
  rw [List.getElem?_append_right (Nat.le_refl _),
    Nat.sub_self]
  cases left with
  | nil =>
      rfl
  | cons t rest =>
      rfl

/- Only at the end is no token left. -/
theorem isEof_headD
    (hUnread : Unread tokens left) :
    (left.headD (endMarker tokens)).isEof =
      left.isEmpty := by
  cases left with
  | nil =>
      exact Token.isEof_endMarker tokens
  | cons t rest =>
      apply Token.isEof_of_mem_beforeEnd
      exact hUnread.isSuffix.subset List.mem_cons_self

end Token.Unread

end OcScript

------------------------------------------------------------
-- Walks That Follow a Reading
------------------------------------------------------------

namespace OcScript

open Token (Unread endMarker)
open Cursor (facing)

namespace Walk

variable {α β : Type}
variable {tokens left : List Token}

/-
  Where a walk leaves the cursor, and with which value or
  failure, if it does what a reading does.
-/
def outcome
    (tokens : List Token)
    (farthest : Nat)
    (reports : List ParseError) :
    Reading α → EStateM.Result Halt Cursor α
| .done value made rest =>
    .ok value (facing tokens rest farthest (reports ++ made))
| .failed cause made rest =>
    .error (.failure ⟨rest.headD (endMarker tokens), cause⟩)
      (facing tokens rest farthest (reports ++ made))

/-
  From a cursor before the tokens left, the walk does what
  the reading does, which leaves some of these tokens.
-/
def Follows
    (tokens : List Token)
    (w : Walk α)
    (left : List Token)
    (r : Reading α) :
    Prop :=
  Unread tokens left →
  r.rest <:+ left ∧
    ∀ farthest reports,
      w (facing tokens left farthest reports) =
        outcome tokens farthest reports r

/- Earlier reports stay before those of the reading. -/
theorem outcome_after
    (r : Reading α)
    (farthest : Nat)
    (reports made : List ParseError) :
    outcome tokens farthest reports (r.after made) =
      outcome tokens farthest (reports ++ made) r := by
  cases r <;> simp [Reading.after, outcome]

end Walk

namespace Reading

variable {α β γ : Type}

theorem map_map
    (r : Reading α)
    (f : α → β)
    (g : β → γ) :
    (r.map f).map g = r.map fun value => g (f value) := by
  cases r <;> simp

end Reading

namespace Walk

namespace Follows

variable {α β : Type}
variable {tokens left : List Token}
variable {w : Walk α}
variable {next : α → Walk β}
variable {r : Reading α}

theorem bind
    {plain : α → List Token → Reading β}
    (hFirst : Follows tokens w left r)
    (hNext :
      ∀ value made rest,
        r = .done value made rest →
        Follows tokens (next value) rest
          (plain value rest)) :
    Follows tokens (w >>= next) left (r.andThen plain) := by
  intro hUnread
  rcases hFirst hUnread with ⟨hRest, hWalk⟩
  cases r with
  | failed cause made rest =>
      refine ⟨hRest, ?_⟩
      intro farthest reports
      simp only [Bind.bind, EStateM.bind, hWalk]
      rfl
  | done value made rest =>
      have hUnreadRest : Unread tokens rest :=
        ⟨hUnread.marked, hRest.trans hUnread.isSuffix⟩
      rcases hNext value made rest rfl hUnreadRest with
        ⟨hLast, hWalkNext⟩
      rw [Reading.andThen_done]
      refine ⟨?_, ?_⟩
      · have hBoth := hLast.trans hRest
        cases hPlain : plain value rest <;>
          rwa [hPlain] at hBoth
      · intro farthest reports
        rw [outcome_after]
        simp only [Bind.bind, EStateM.bind, hWalk]
        exact hWalkNext farthest (reports ++ made)

/- Go on after a reading that is done. -/
theorem goOn
    {value : α}
    {made : List ParseError}
    {middle : List Token}
    {r : Reading β}
    (hFirst :
      Follows tokens w left (.done value made middle))
    (hNext : Follows tokens (next value) middle r) :
    Follows tokens (w >>= next) left (r.after made) := by
  have hBoth :
      Follows tokens (w >>= next) left
        ((Reading.done value made middle).andThen
          fun _ _ => r) := by
    apply hFirst.bind
    rintro _ _ _ ⟨⟩
    exact hNext
  exact hBoth

/- Go on after a reading that is done without reports. -/
theorem step
    {value : α}
    {middle : List Token}
    {r : Reading β}
    (hFirst : Follows tokens w left (.done value [] middle))
    (hNext : Follows tokens (next value) middle r) :
    Follows tokens (w >>= next) left r := by
  have hBoth := hFirst.goOn hNext
  rwa [Reading.after_nil] at hBoth

theorem pure
    (value : α)
    (left : List Token) :
    Follows tokens (pure value) left
      (.done value [] left) := by
  intro _
  refine ⟨List.suffix_refl left, ?_⟩
  intro farthest reports
  rw [outcome, List.append_nil]
  rfl

theorem map
    (hFirst : Follows tokens w left r)
    (f : α → β) :
    Follows tokens (w >>= fun value => Pure.pure (f value))
      left (r.map f) := by
  apply hFirst.bind
  intro value made rest _
  exact pure (f value) rest

theorem fail
    (cause : ParseCause)
    (left : List Token) :
    Follows tokens
      (throw
        (.failure ⟨left.headD (endMarker tokens), cause⟩) :
        Walk α)
      left (.failed cause [] left) := by
  intro _
  refine ⟨List.suffix_refl left, ?_⟩
  intro farthest reports
  rw [outcome, List.append_nil]
  rfl

end Follows

end Walk

end OcScript

------------------------------------------------------------
-- Single Tokens
------------------------------------------------------------

namespace OcScript

open Token (Unread endMarker)
open Cursor (facing placeOf)

namespace Walk

variable {tokens left rest : List Token}
variable {t : Token}

theorem follows_peek
    (left : List Token) :
    Follows tokens peek left
      (.done (left.headD (endMarker tokens)) [] left) := by
  intro hUnread
  refine ⟨List.suffix_refl left, ?_⟩
  intro farthest reports
  rw [outcome, List.append_nil]
  show
    lookAt (placeOf tokens left)
        (facing tokens left farthest reports) = _
  simp only [lookAt, facing, hUnread.getElem?_placeOf]

theorem follows_atEnd
    (left : List Token) :
    Follows tokens atEnd left
      (.done left.isEmpty [] left) := by
  intro hUnread
  rw [← hUnread.isEof_headD]
  exact (follows_peek left).step (.pure _ left) hUnread

/- The token before the tokens left is the one read last. -/
theorem follows_previous
    (hPast : Unread tokens (t :: rest)) :
    Follows tokens previous rest (.done t [] rest) := by
  intro _
  refine ⟨List.suffix_refl rest, ?_⟩
  intro farthest reports
  rw [outcome, List.append_nil]
  show
    lookAt (placeOf tokens rest - 1)
        (facing tokens rest farthest reports) = _
  rw [hPast.placeOf_tail, Nat.add_sub_cancel]
  simp only [lookAt, facing, hPast.getElem?_placeOf]
  rfl

theorem forward_facing
    (hUnread : Unread tokens (t :: rest))
    (farthest : Nat)
    (reports : List ParseError) :
    (facing tokens (t :: rest) farthest reports).forward =
      facing tokens rest farthest reports := by
  have hPlace := hUnread.placeOf_tail
  simp only [Cursor.forward, facing, hPlace]
  congr 1
  omega

theorem follows_advance
    (t : Token)
    (rest : List Token) :
    Follows tokens advance (t :: rest)
      (.done t [] rest) := by
  apply (follows_atEnd (t :: rest)).step
  intro hUnread
  have hPrevious := follows_previous hUnread hUnread.tail
  refine ⟨List.suffix_cons t rest, ?_⟩
  intro farthest reports
  show
    previous
        (facing tokens (t :: rest) farthest
          reports).forward = _
  rw [forward_facing hUnread]
  exact hPrevious.2 farthest reports

/- At the end, the cursor stays where it is. -/
theorem exists_follows_advance
    (hUnread : Unread tokens []) :
    ∃ t, Follows tokens advance [] (.done t [] []) := by
  have hEnd := hUnread.getElem?_placeOf
  have hBound := (List.getElem?_eq_some_iff.mp hEnd).1
  have hBefore :
      placeOf tokens [] - 1 < tokens.length :=
    Nat.lt_of_le_of_lt (Nat.sub_le _ 1) hBound
  refine ⟨tokens[placeOf tokens [] - 1], ?_⟩
  apply (follows_atEnd []).step
  intro _
  refine ⟨List.suffix_refl [], ?_⟩
  intro farthest reports
  rw [outcome, List.append_nil]
  show
    lookAt (placeOf tokens [] - 1)
        (facing tokens [] farthest reports) = _
  simp only [lookAt, facing,
    List.getElem?_eq_getElem hBefore]

theorem follows_check
    (kind : TokenKind)
    (left : List Token) :
    Follows tokens (check kind) left
      (.done (left.head?.any fun t => t.kind = kind) []
        left) := by
  apply (follows_atEnd left).step
  cases left with
  | nil =>
      exact .pure false []
  | cons t rest =>
      exact (follows_peek (t :: rest)).step (.pure _ _)

/- A token of one of the kinds is read. -/
theorem follows_accept
    {kinds : List TokenKind}
    (hKind : t.kind ∈ kinds)
    (rest : List Token) :
    Follows tokens (accept? kinds) (t :: rest)
      (.done (some t) [] rest) := by
  induction kinds with
  | nil =>
      cases hKind
  | cons kind kinds ih =>
      apply (follows_check kind (t :: rest)).step
      by_cases hFirst : t.kind = kind
      · simp only [List.head?_cons, Option.any_some, hFirst,
          decide_true, if_true]
        exact (follows_advance t rest).step (.pure _ rest)
      · have hOther : t.kind ∈ kinds :=
          List.mem_of_ne_of_mem hFirst hKind
        simp only [List.head?_cons, Option.any_some, hFirst,
          decide_false]
        exact ih hOther

/- A token of none of the kinds is left where it is. -/
theorem follows_refuse
    {kinds : List TokenKind}
    (hNone : ∀ t ∈ left.head?, t.kind ∉ kinds) :
    Follows tokens (accept? kinds) left
      (.done none [] left) := by
  induction kinds with
  | nil =>
      exact .pure none left
  | cons kind kinds ih =>
      have hFirst :
          (left.head?.any fun t => t.kind = kind) =
            false := by
        cases left with
        | nil =>
            rfl
        | cons t rest =>
            have hKind := List.ne_of_not_mem_cons (hNone t rfl)
            simpa using hKind
      apply (follows_check kind left).step
      rw [hFirst]
      apply ih
      intro t hHead
      exact List.not_mem_of_not_mem_cons (hNone t hHead)

/- Go on with a token of one of the kinds, or without. -/
theorem follows_choice
    {β : Type}
    {kinds : List TokenKind}
    {next : Option Token → Walk β}
    {r : Reading β}
    (hSome :
      ∀ t rest,
        left = t :: rest →
        t.kind ∈ kinds →
        Follows tokens (next (some t)) rest r)
    (hNone :
      (∀ t ∈ left.head?, t.kind ∉ kinds) →
      Follows tokens (next none) left r) :
    Follows tokens (accept? kinds >>= next) left r := by
  by_cases hFirst : ∃ t ∈ left.head?, t.kind ∈ kinds
  · rcases hFirst with ⟨t, hHead, hKind⟩
    rcases List.head?_eq_some_iff.mp hHead with ⟨rest, rfl⟩
    exact
      (follows_accept hKind rest).step
        (hSome t rest rfl hKind)
  · have hRefused :
        ∀ t ∈ left.head?, t.kind ∉ kinds := by
      intro t hHead hKind
      exact hFirst ⟨t, hHead, hKind⟩
    exact (follows_refuse hRefused).step (hNone hRefused)

theorem follows_consume
    (kind : TokenKind)
    (cause : ParseCause)
    (left : List Token) :
    Follows tokens (consume kind cause) left
      (BoundedReading.expect kind cause left).val := by
  apply (follows_check kind left).step
  cases left with
  | nil =>
      exact (follows_peek []).step (.fail cause [])
  | cons t rest =>
      by_cases hKind : t.kind = kind
      · rw [BoundedReading.val_expect_of_kind hKind]
        simp only [List.head?_cons, Option.any_some, hKind,
          decide_true, if_true]
        exact follows_advance t rest
      · simp only [List.head?_cons, Option.any_some, hKind,
          decide_false, BoundedReading.expect, if_false]
        exact
          (follows_peek (t :: rest)).step (.fail cause _)

theorem follows_report
    (errors : List ParseError)
    (left : List Token) :
    Follows tokens (report errors) left
      (.done () errors left) := by
  intro _
  refine ⟨List.suffix_refl left, ?_⟩
  intro farthest reports
  rfl

/- Report errors before a value is given. -/
theorem follows_reported
    {α : Type}
    (value : α)
    (errors : List ParseError)
    (left : List Token) :
    Follows tokens (report errors >>= fun _ => pure value)
      left (.done value errors left) := by
  have hReported :
      Follows tokens
        (report errors >>= fun _ => pure value) left
        ((Reading.done value [] left).after errors) :=
    (follows_report errors left).goOn (.pure value left)
  rwa [Reading.after, List.append_nil] at hReported

end Walk

end OcScript

------------------------------------------------------------
-- Expressions
------------------------------------------------------------

namespace OcScript

open Token (endMarker)

namespace Walk

variable {tokens left : List Token}

/-
  Expressions of every form are followed.  Nine calls for
  each token are enough, since there are never more in each
  other before the next token is read.
-/
structure FollowsExpressions
    (tokens left : List Token) :
    Prop where
  chain :
    ∀ level allowance,
      9 * left.length + 3 + level.height ≤ allowance →
      Follows tokens (chain allowance level) left
        (Parse.chain level left).val
  assignment :
    ∀ allowance,
      9 * left.length + 9 ≤ allowance →
      Follows tokens (assignment allowance) left
        (Parse.assignment left).val

section Shorter

variable
  (hShorter :
    ∀ shorter : List Token,
      shorter.length < left.length →
      FollowsExpressions tokens shorter)

include hShorter

theorem follows_primary
    {allowance : Nat}
    (hAllowance : 9 * left.length + 1 ≤ allowance) :
    Follows tokens (primary allowance) left
      (Parse.primary left).val := by
  rcases allowance with _ | allowance
  · omega
  apply (follows_peek left).step
  cases left with
  | nil =>
      have hKind : (endMarker tokens).kind = .eof := by
        simpa [Token.isEof] using
          Token.isEof_endMarker tokens
      rw [Parse.val_primary_nil, List.headD_nil]
      simp only [Parse.atom?, Token.isSymbol, hKind,
        reduceCtorEq, decide_false]
      exact .fail .expression []
  | cons t rest =>
      rw [List.headD_cons]
      cases hAtom : Parse.atom? t with
      | some atom =>
          rw [Parse.val_primary_atom hAtom]
          exact (follows_advance t rest).step (.pure atom rest)
      | none =>
          rw [Parse.val_primary_of_not_atom hAtom]
          by_cases hParen : t.isSymbol .leftParen = true
          · rw [List.length_cons] at hAllowance
            have hInner :=
              (hShorter rest (Nat.lt_succ_self _)).assignment
                allowance (by omega)
            simp only [hParen, if_true]
            apply (follows_advance t rest).step
            apply hInner.bind
            intro inner made after _
            exact (follows_consume _ _ after).map _
          · simp only [hParen]
            exact .fail .expression (t :: rest)

theorem follows_unary
    {allowance : Nat}
    (hAllowance : 9 * left.length + 2 ≤ allowance) :
    Follows tokens (unary allowance) left
      (Parse.unary left).val := by
  rcases allowance with _ | allowance
  · omega
  apply follows_choice
  · rintro t rest rfl hKind
    have hOperator : Parse.isUnaryOperator t = true := by
      simpa [Parse.isUnaryOperator, Token.isSymbol]
        using hKind
    have hEnough :
        9 * rest.length + 3 + Level.comparison.height ≤
          allowance := by
      rw [List.length_cons] at hAllowance
      rw [Level.height]
      omega
    have hOperand :=
      (hShorter rest (Nat.lt_succ_self _)).chain
        .comparison allowance hEnough
    rw [Parse.val_unary_cons, if_pos hOperator]
    exact hOperand.map _
  · intro hNone
    have hPrimary :
        (Parse.unary left).val = (Parse.primary left).val := by
      cases left with
      | nil =>
          rw [Parse.val_unary_nil, Parse.val_primary_nil]
      | cons t rest =>
          have hOther : ¬ Parse.isUnaryOperator t = true := by
            simpa [Parse.isUnaryOperator, Token.isSymbol]
              using hNone
          rw [Parse.val_unary_cons, if_neg hOther]
    rw [hPrimary]
    exact
      follows_primary hShorter
        (Nat.le_of_succ_le_succ hAllowance)

theorem follows_chainRest
    (level : Level)
    (operands : Expr)
    {allowance : Nat}
    (hAllowance : 9 * left.length + 1 ≤ allowance) :
    Follows tokens (chainRest allowance level operands) left
      (Parse.chainRest level operands left).val := by
  induction left using Parse.length_induction
      generalizing operands allowance with
  | step left ih =>
      rcases allowance with _ | allowance
      · omega
      apply follows_choice
      · rintro t rest rfl hKind
        have hHeight := level.height_operandLevel
        rw [List.length_cons] at hAllowance
        have hOperand :=
          (hShorter rest (Nat.lt_succ_self _)).chain
            level.operandLevel allowance (by omega)
        have hAccepts : level.accepts t = true := by
          simpa [Level.accepts] using hKind
        rw [Parse.val_chainRest_cons, if_pos hAccepts]
        apply hOperand.bind
        intro right made after hDone
        have hLength :=
          Nat.lt_succ_of_lt
            (BoundedReading.length_rest_lt hDone)
        apply ih after hLength
        · intro shorter hLess
          exact
            hShorter shorter (Nat.lt_trans hLess hLength)
        · omega
      · intro hNone
        have hRest :
            (Parse.chainRest level operands left).val =
              .done operands [] left := by
          cases left with
          | nil =>
              rw [Parse.val_chainRest_nil]
          | cons t rest =>
              have hRefuses : ¬ level.accepts t = true := by
                simpa [Level.accepts] using hNone
              rw [Parse.val_chainRest_cons, if_neg hRefuses]
        rw [hRest]
        exact .pure operands left

/- A chain is followed if tighter ones are. -/
theorem follows_chain_step
    {level : Level}
    (hTighter :
      ∀ next,
        level.tighter? = some next →
        ∀ allowance,
          9 * left.length + 3 + next.height ≤ allowance →
          Follows tokens (chain allowance next) left
            (Parse.chain next left).val)
    {allowance : Nat}
    (hAllowance :
      9 * left.length + 3 + level.height ≤ allowance) :
    Follows tokens (chain allowance level) left
      (Parse.chain level left).val := by
  rcases allowance with _ | allowance
  · omega
  have hRest :
      ∀ operand made rest,
        Parse.firstOperand level left =
          .done operand made rest →
        Follows tokens (chainRest allowance level operand)
          rest (Parse.chainRest level operand rest).val := by
    intro operand made rest hDone
    have hLength := Parse.length_rest_firstOperand_lt hDone
    apply follows_chainRest
    · intro shorter hLess
      exact hShorter shorter (Nat.lt_trans hLess hLength)
    · omega
  rw [Parse.val_chain, chain]
  unfold Parse.firstOperand at hRest ⊢
  cases hNext : level.tighter? with
  | some next =>
      rw [hNext] at hRest
      have hLower := Level.height_of_tighter? hNext
      have hFirst := hTighter next hNext allowance (by omega)
      exact hFirst.bind hRest
  | none =>
      rw [hNext] at hRest
      exact (follows_unary hShorter (by omega)).bind hRest

theorem follows_chain
    (level : Level)
    {allowance : Nat}
    (hAllowance :
      9 * left.length + 3 + level.height ≤ allowance) :
    Follows tokens (chain allowance level) left
      (Parse.chain level left).val := by
  induction hHeight : level.height
      using Nat.strong_induction_on
      generalizing level allowance with
  | h height ih =>
      apply follows_chain_step hShorter _ hAllowance
      intro next hNext allowance hEnough
      have hLower := Level.height_of_tighter? hNext
      exact ih next.height (by omega) next hEnough rfl

theorem follows_assignment
    {allowance : Nat}
    (hAllowance : 9 * left.length + 9 ≤ allowance) :
    Follows tokens (assignment allowance) left
      (Parse.assignment left).val := by
  rcases allowance with _ | allowance
  · omega
  have hTarget :
      Follows tokens (chain allowance .disjunction) left
        (Parse.chain .disjunction left).val := by
    apply follows_chain hShorter
    rw [Level.height]
    omega
  rw [Parse.val_assignment]
  apply hTarget.bind
  intro target made rest hDone
  have hLength := BoundedReading.length_rest_lt hDone
  apply follows_choice
  · rintro t after rfl hKind
    have hEqual : t.isSymbol .equal = true := by
      simpa [Token.isSymbol] using hKind
    rw [List.length_cons] at hLength
    have hValue :=
      (hShorter after (Nat.lt_of_succ_lt hLength)).assignment
        allowance (by omega)
    rw [Parse.assignmentRest, if_pos hEqual]
    apply hValue.bind
    intro value made rest _
    exact follows_reported _ _ rest
  · intro hNone
    have hRest :
        Parse.assignmentRest target rest =
          .done target [] rest := by
      cases rest with
      | nil =>
          rfl
      | cons t after =>
          have hOther : ¬ t.isSymbol .equal = true := by
            simpa [Token.isSymbol] using hNone
          rw [Parse.assignmentRest, if_neg hOther]
    rw [hRest]
    exact .pure target rest

end Shorter

theorem follows_expressions
    (tokens left : List Token) :
    FollowsExpressions tokens left := by
  induction left using Parse.length_induction with
  | step left ih =>
      refine ⟨?_, ?_⟩
      · intro level allowance hAllowance
        exact follows_chain ih level hAllowance
      · intro allowance hAllowance
        exact follows_assignment ih hAllowance

theorem follows_closedExpression
    {allowance : Nat}
    (hAllowance : 9 * left.length + 9 ≤ allowance)
    (cause : ParseCause) :
    Follows tokens (closedExpression allowance cause) left
      (Parse.closedExpression cause left).val := by
  have hValue :=
    (follows_expressions tokens left).assignment allowance
      hAllowance
  rw [Parse.val_closedExpression]
  apply hValue.bind
  intro value made rest _
  exact (follows_consume _ cause rest).map _

theorem follows_condition
    {allowance : Nat}
    (hAllowance : 9 * left.length + 9 ≤ allowance)
    (keyword : Token)
    (unclosed : ParseCause) :
    Follows tokens (condition allowance keyword unclosed) left
      (Parse.condition keyword unclosed left).val := by
  rw [Parse.val_condition]
  apply (follows_consume _ _ left).bind
  intro _ _ inside hOpened
  have hLength := BoundedReading.length_rest_lt hOpened
  have hTest :=
    (follows_expressions tokens inside).assignment allowance
      (by omega)
  apply hTest.bind
  intro value made rest _
  exact (follows_consume _ unclosed rest).map _

theorem follows_variableDeclaration
    {allowance : Nat}
    (hAllowance : 9 * left.length + 9 ≤ allowance) :
    Follows tokens (variableDeclaration allowance) left
      (Parse.variableDeclaration left).val := by
  rw [Parse.val_variableDeclaration]
  apply (follows_consume _ _ left).bind
  intro name made rest hName
  have hLength := BoundedReading.length_rest_lt hName
  apply follows_choice
  · rintro t after rfl hKind
    have hEqual : t.isSymbol .equal = true := by
      simpa [Token.isSymbol] using hKind
    have hEnough : 9 * after.length + 9 ≤ allowance := by
      rw [List.length_cons] at hLength
      omega
    have hInitial :
        Follows tokens
          (closedExpression allowance
            .semicolonAfterDeclaration)
          after
          (Parse.closedExpression .semicolonAfterDeclaration
            after).val :=
      follows_closedExpression hEnough _
    rw [Parse.val_initializer_cons, if_pos hEqual,
      Reading.map_map]
    exact hInitial.map _
  · intro hNone
    have hInitializer :
        (Parse.initializer rest).val =
          (BoundedReading.expect (.symbol .semicolon)
            .semicolonAfterDeclaration rest).val.map
              fun _ => none := by
      cases rest with
      | nil =>
          rfl
      | cons t after =>
          have hOther : ¬ t.isSymbol .equal = true := by
            simpa [Token.isSymbol] using hNone
          rw [Parse.val_initializer_cons, if_neg hOther]
    rw [hInitializer, Reading.map_map]
    exact (follows_consume _ _ rest).map _

end Walk

end OcScript

------------------------------------------------------------
-- Recovery
------------------------------------------------------------

namespace OcScript

open Token (Unread endMarker)

/- What is kept of a reading, as one that is done. -/
def Recovered.reading
    {α : Type}
    (d : Recovered α) :
    Reading α :=
  .done d.value d.reports d.rest

namespace Walk

variable {tokens left rest : List Token}
variable {t : Token}

theorem follows_skip
    {allowance : Nat}
    (hAllowance : left.length + 1 ≤ allowance)
    (hPast : Unread tokens (t :: left)) :
    Follows tokens (skip allowance) left
      (.done () [] (Parse.skipPast t left)) := by
  induction left generalizing t allowance with
  | nil =>
      rcases allowance with _ | allowance
      · cases hAllowance
      exact (follows_atEnd []).step (.pure () [])
  | cons u rest ih =>
      rcases allowance with _ | allowance
      · cases hAllowance
      apply (follows_atEnd (u :: rest)).step
      apply (follows_previous hPast).step
      by_cases hSemicolon : t.isSymbol .semicolon = true
      · simp only [hSemicolon, Parse.skipPast, true_or,
          if_true]
        exact .pure () (u :: rest)
      · have hGoOn :=
          ih (Nat.le_of_succ_le_succ hAllowance) hPast.tail
        simp only [hSemicolon, Parse.skipPast]
        apply (follows_peek (u :: rest)).step
        rw [List.headD_cons]
        by_cases hStarts : Parse.startsStatement u = true
        · simp only [hStarts, if_true]
          exact .pure () (u :: rest)
        · simp only [hStarts]
          exact (follows_advance u rest).step hGoOn

theorem follows_synchronize
    {allowance : Nat}
    (hAllowance : left.length + 1 ≤ allowance) :
    Follows tokens (synchronize allowance) left
      (.done () [] (Parse.resume left)) := by
  intro hUnread
  cases left with
  | nil =>
      rcases exists_follows_advance hUnread with
        ⟨t, hAdvance⟩
      rcases allowance with _ | allowance
      · cases hAllowance
      have hSkip :
          Follows tokens (skip (allowance + 1)) []
            (.done () [] []) :=
        (follows_atEnd []).step (.pure () [])
      exact hAdvance.step hSkip hUnread
  | cons t rest =>
      have hSkip :=
        follows_skip (Nat.le_of_succ_le hAllowance) hUnread
      exact (follows_advance t rest).step hSkip hUnread

theorem follows_skipStatement
    {allowance : Nat}
    (hAllowance : left.length + 1 ≤ allowance)
    (error : ParseError) :
    Follows tokens (skipStatement allowance error) left
      (.done .skipped [error] (Parse.resume left)) := by
  have hGoOn :
      Follows tokens
        (synchronize allowance >>= fun _ =>
          pure Stmt.skipped)
        left (.done .skipped [] (Parse.resume left)) :=
    (follows_synchronize hAllowance).step
      (.pure Stmt.skipped _)
  have hReported :
      Follows tokens (skipStatement allowance error) left
        ((Reading.done .skipped []
          (Parse.resume left)).after [error]) :=
    (follows_report [error] left).goOn hGoOn
  exact hReported

/- A failure is recovered from at the token it arose at. -/
theorem follows_recovering
    {allowance : Nat}
    {w : Walk Stmt}
    {r : Reading Stmt}
    (hAllowance : left.length + 1 ≤ allowance)
    (hFollows : Follows tokens w left r) :
    Follows tokens (recovering allowance w) left
      (r.recovered (endMarker tokens)).reading := by
  intro hUnread
  rcases hFollows hUnread with ⟨hRest, hWalk⟩
  cases r with
  | done value made rest =>
      refine ⟨hRest, ?_⟩
      intro farthest reports
      rw [recovering, hWalk]
      rfl
  | failed cause made rest =>
      have hUnreadRest : Unread tokens rest :=
        ⟨hUnread.marked, hRest.trans hUnread.isSuffix⟩
      have hLength : rest.length ≤ left.length :=
        hRest.length_le
      have hEnough : rest.length + 1 ≤ allowance := by
        omega
      rcases
          follows_skipStatement hEnough
            ⟨rest.headD (endMarker tokens), cause⟩
            hUnreadRest with
        ⟨hResumed, hGoesOn⟩
      refine ⟨hResumed.trans hRest, ?_⟩
      intro farthest reports
      rw [recovering, hWalk]
      refine (hGoesOn farthest (reports ++ made)).trans ?_
      simp only [outcome, Recovered.reading,
        Reading.recovered, List.append_assoc]

end Walk

end OcScript

------------------------------------------------------------
-- Statements
------------------------------------------------------------

namespace OcScript

open Token (endMarker)

namespace Walk

variable {tokens left : List Token}

/- Statements and lists of declarations are followed. -/
structure FollowsStatements
    (tokens left : List Token) :
    Prop where
  statement :
    ∀ allowance,
      9 * left.length + 10 ≤ allowance →
      Follows tokens (statement allowance) left
        (Parse.statement (endMarker tokens) left).val
  items :
    ∀ allowance,
      9 * left.length + 12 ≤ allowance →
      Follows tokens (items allowance) left
        (Parse.items (endMarker tokens) left).val.reading

section Shorter

variable
  (hShorter :
    ∀ shorter : List Token,
      shorter.length < left.length →
      FollowsStatements tokens shorter)

include hShorter

theorem follows_ifBranches
    {allowance : Nat}
    {branches : List Token}
    (hLess : branches.length < left.length)
    (hAllowance : 9 * branches.length + 11 ≤ allowance)
    (test : Expr) :
    Follows tokens (ifBranches allowance test) branches
      (Parse.ifBranches (endMarker tokens) test
        branches).val := by
  rcases allowance with _ | allowance
  · omega
  have hThen :=
    (hShorter branches hLess).statement allowance (by omega)
  rw [Parse.val_ifBranches]
  apply hThen.bind
  intro thenBranch made rest hDone
  have hLength := BoundedReading.length_rest_lt hDone
  apply follows_choice
  · rintro t after rfl hKind
    have hElse : t.isKeyword .elseWord = true := by
      simpa [Token.isKeyword] using hKind
    rw [List.length_cons] at hLength
    have hStatement :=
      (hShorter after (by omega)).statement allowance
        (by omega)
    rw [Parse.branchesRest, if_pos hElse]
    exact hStatement.map _
  · intro hNone
    have hRest :
        Parse.branchesRest (endMarker tokens) test thenBranch
            rest =
          .done (.ifThen test thenBranch) [] rest := by
      cases rest with
      | nil =>
          rfl
      | cons t after =>
          have hOther : ¬ t.isKeyword .elseWord = true := by
            simpa [Token.isKeyword] using hNone
          rw [Parse.branchesRest, if_neg hOther]
    rw [hRest]
    exact .pure _ rest

/- The kinds that open a statement are tried in turn. -/
theorem follows_statement
    {allowance : Nat}
    (hAllowance : 9 * left.length + 10 ≤ allowance) :
    Follows tokens (statement allowance) left
      (Parse.statement (endMarker tokens) left).val := by
  rcases allowance with _ | allowance
  · omega
  apply follows_choice
  · rintro t rest rfl hKind
    have hIf : t.kind = .keyword .ifWord := by
      simpa using hKind
    rw [List.length_cons] at hAllowance
    rw [Parse.val_statement_if hIf]
    apply (follows_condition (by omega) t _).bind
    intro test made branches hDone
    have hLength := BoundedReading.length_rest_lt hDone
    apply follows_ifBranches hShorter
    · exact Nat.lt_succ_of_lt hLength
    · omega
  intro hNotIf
  apply follows_choice
  · rintro t rest rfl hKind
    have hPrint : t.kind = .keyword .printWord := by
      simpa using hKind
    rw [List.length_cons] at hAllowance
    rw [Parse.val_statement_print hPrint]
    exact (follows_closedExpression (by omega) _).map _
  intro hNotPrint
  apply follows_choice
  · rintro t rest rfl hKind
    have hWhile : t.kind = .keyword .whileWord := by
      simpa using hKind
    rw [List.length_cons] at hAllowance
    rw [Parse.val_statement_while hWhile]
    apply (follows_condition (by omega) t _).bind
    intro test made body hDone
    have hLength := BoundedReading.length_rest_lt hDone
    have hBody :=
      (hShorter body (Nat.lt_succ_of_lt hLength)).statement
        allowance (by omega)
    exact hBody.map _
  intro hNotWhile
  apply follows_choice
  · rintro t rest rfl hKind
    have hBrace : t.kind = .symbol .leftBrace := by
      simpa using hKind
    rw [List.length_cons] at hAllowance
    have hBody :=
      (hShorter rest (Nat.lt_succ_self _)).items allowance
        (by omega)
    rw [Parse.val_statement_block hBrace]
    exact hBody.goOn ((follows_consume _ _ _).map _)
  intro hNotBrace
  have hStatement :
      (Parse.statement (endMarker tokens) left).val =
        (Parse.closedExpression .semicolonAfterExpression
          left).val.map .expression := by
    cases left with
    | nil =>
        rw [Parse.statement, BoundedReading.val_map]
    | cons t rest =>
        have hOpens : Parse.opensStatement t = false := by
          have hIf := hNotIf t rfl
          have hPrint := hNotPrint t rfl
          have hWhile := hNotWhile t rfl
          have hBrace := hNotBrace t rfl
          rw [List.mem_singleton] at hIf hPrint hWhile hBrace
          simp [Parse.opensStatement, hIf, hPrint, hWhile,
            hBrace]
        exact Parse.val_statement_expression hOpens _ rest
  rw [hStatement]
  exact (follows_closedExpression (by omega) _).map _

end Shorter

/- A declaration is followed if a statement is. -/
theorem follows_declaration
    {t : Token}
    {rest : List Token}
    (hStatement :
      ∀ allowance,
        9 * (t :: rest).length + 10 ≤ allowance →
        Follows tokens (statement allowance) (t :: rest)
          (Parse.statement (endMarker tokens)
            (t :: rest)).val)
    {allowance : Nat}
    (hAllowance : 9 * (t :: rest).length + 11 ≤ allowance) :
    Follows tokens (declaration allowance) (t :: rest)
      (Parse.declaration (endMarker tokens)
        (t :: rest)).val.reading := by
  rcases allowance with _ | allowance
  · omega
  rw [Parse.val_declaration]
  apply follows_recovering (by omega)
  apply follows_choice
  · rintro u after ⟨⟩ hKind
    have hVar : t.isKeyword .varWord = true := by
      simpa [Token.isKeyword] using hKind
    rw [Parse.attempt, if_pos hVar]
    rw [List.length_cons] at hAllowance
    exact follows_variableDeclaration (by omega)
  · intro hNone
    have hOther : ¬ t.isKeyword .varWord = true := by
      simpa [Token.isKeyword] using hNone
    rw [Parse.attempt, if_neg hOther]
    exact hStatement allowance (by omega)

/- Read one statement and then others. -/
theorem follows_cons
    {first : Recovered Stmt}
    {others : Recovered (List Stmt)}
    {w : Walk Stmt}
    {v : Walk (List Stmt)}
    (hFirst : Follows tokens w left first.reading)
    (hOthers : Follows tokens v first.rest others.reading) :
    Follows tokens
      (do
        let s ← w
        let rest ← v
        return s :: rest)
      left
      (Recovered.reading
        ⟨first.value :: others.value,
          first.reports ++ others.reports, others.rest⟩) := by
  have hBoth :
      Follows tokens
        (w >>= fun s => v >>= fun rest => pure (s :: rest))
        left
        ((others.reading.map (first.value :: ·)).after
          first.reports) :=
    hFirst.goOn (hOthers.map (first.value :: ·))
  rwa [Recovered.reading, Reading.map_done] at hBoth

theorem follows_items
    (hStatement :
      ∀ allowance,
        9 * left.length + 10 ≤ allowance →
        Follows tokens (statement allowance) left
          (Parse.statement (endMarker tokens) left).val)
    (hShorter :
      ∀ shorter : List Token,
        shorter.length < left.length →
        FollowsStatements tokens shorter)
    {allowance : Nat}
    (hAllowance : 9 * left.length + 12 ≤ allowance) :
    Follows tokens (items allowance) left
      (Parse.items (endMarker tokens) left).val.reading := by
  rcases allowance with _ | allowance
  · omega
  apply (follows_check _ left).step
  cases left with
  | nil =>
      rw [Parse.val_items_nil]
      exact (follows_atEnd []).step (.pure [] [])
  | cons t rest =>
      rw [Parse.val_items_cons]
      by_cases hBrace : t.isSymbol .rightBrace = true
      · have hKind := Token.isSymbol_iff.mp hBrace
        simp only [List.head?_cons, Option.any_some, hKind,
          decide_true, if_true, hBrace]
        exact .pure [] (t :: rest)
      · have hKind : t.kind ≠ .symbol .rightBrace :=
          fun hKind => hBrace (Token.isSymbol_iff.mpr hKind)
        have hFirst :=
          follows_declaration hStatement
            (Nat.le_of_succ_le_succ hAllowance)
        have hLength :
            (Parse.declaration (endMarker tokens)
                (t :: rest)).val.rest.length ≤
              rest.length :=
          (Parse.declaration (endMarker tokens)
            (t :: rest)).property
        rw [List.length_cons] at hAllowance
        have hOthers :=
          (hShorter _ (Nat.lt_succ_of_le hLength)).items
            allowance (by omega)
        simp only [List.head?_cons, Option.any_some, hKind,
          decide_false, hBrace]
        exact
          (follows_atEnd (t :: rest)).step
            (follows_cons hFirst hOthers)

theorem follows_statements
    (tokens left : List Token) :
    FollowsStatements tokens left := by
  induction left using Parse.length_induction with
  | step left ih =>
      have hStatement :
          ∀ allowance,
            9 * left.length + 10 ≤ allowance →
            Follows tokens (statement allowance) left
              (Parse.statement (endMarker tokens) left).val :=
        fun _ => follows_statement ih
      refine ⟨hStatement, ?_⟩
      intro allowance hAllowance
      exact follows_items hStatement ih hAllowance

end Walk

end OcScript

------------------------------------------------------------
-- Programs
------------------------------------------------------------

namespace OcScript

open Token (endMarker)

namespace Parsed

/- A parsed program, which leaves no tokens. -/
def recovered
    (parsed : Parsed) :
    Recovered Program :=
  ⟨parsed.program, parsed.errors, []⟩

end Parsed

namespace Walk

theorem follows_program
    {tokens left : List Token}
    {allowance : Nat}
    (hAllowance : 9 * left.length + 12 ≤ allowance) :
    Follows tokens (program allowance) left
      (Parsed.ofBody (endMarker tokens)
        left).recovered.reading := by
  induction left using Parse.length_induction
      generalizing allowance with
  | step left ih =>
      rcases allowance with _ | allowance
      · omega
      apply (follows_atEnd left).step
      cases left with
      | nil =>
          rw [Parsed.ofBody_nil]
          exact .pure [] []
      | cons t rest =>
          have hFirst :=
            follows_declaration
              (follows_statements tokens (t :: rest)).statement
              (Nat.le_of_succ_le_succ hAllowance)
          have hLength :
              (Parse.declaration (endMarker tokens)
                  (t :: rest)).val.rest.length ≤
                rest.length :=
            (Parse.declaration (endMarker tokens)
              (t :: rest)).property
          rw [List.length_cons] at hAllowance
          have hOthers :=
            ih _ (Nat.lt_succ_of_le hLength)
              (show _ ≤ allowance by omega)
          rw [Parsed.ofBody_cons]
          exact follows_cons hFirst hOthers

end Walk

end OcScript
