import OcScript.Value

/-
  This file defines the tokens of the language.

  A token keeps the text it was read from and the line on
  which that text ends.  Keywords are told apart by what
  they mean, not by how they are spelled: their spellings
  are settled by a keyword table.

  Key definitions include:
    * `OcScript.Symbol`
    * `OcScript.Symbol.startOf?`
    * `OcScript.Keyword`
    * `OcScript.TokenKind`
    * `OcScript.Token`
    * `OcScript.Token.text`
-/

------------------------------------------------------------
-- Symbols
------------------------------------------------------------

namespace OcScript

/- The punctuation and operator symbols. -/
inductive Symbol where
| leftParen
| rightParen
| leftBrace
| rightBrace
| comma
| dot
| minus
| plus
| semicolon
| slash
| star
| bang
| bangEqual
| equal
| equalEqual
| greater
| greaterEqual
| less
| lessEqual
deriving DecidableEq, Repr

namespace Symbol

/- The name of a symbol in token listings. -/
def typeName : Symbol → String
| leftParen => "LEFT_PAREN"
| rightParen => "RIGHT_PAREN"
| leftBrace => "LEFT_BRACE"
| rightBrace => "RIGHT_BRACE"
| comma => "COMMA"
| dot => "DOT"
| minus => "MINUS"
| plus => "PLUS"
| semicolon => "SEMICOLON"
| slash => "SLASH"
| star => "STAR"
| bang => "BANG"
| bangEqual => "BANG_EQUAL"
| equal => "EQUAL"
| equalEqual => "EQUAL_EQUAL"
| greater => "GREATER"
| greaterEqual => "GREATER_EQUAL"
| less => "LESS"
| lessEqual => "LESS_EQUAL"

/- The characters a symbol is written with. -/
def spelling : Symbol → List Char
| leftParen => ['(']
| rightParen => [')']
| leftBrace => ['{']
| rightBrace => ['}']
| comma => [',']
| dot => ['.']
| minus => ['-']
| plus => ['+']
| semicolon => [';']
| slash => ['/']
| star => ['*']
| bang => ['!']
| bangEqual => ['!', '=']
| equal => ['=']
| equalEqual => ['=', '=']
| greater => ['>']
| greaterEqual => ['>', '=']
| less => ['<']
| lessEqual => ['<', '=']

/- Every symbol, once, those of two characters first. -/
def all : List Symbol :=
  [bangEqual, equalEqual, greaterEqual, lessEqual,
    leftParen, rightParen, leftBrace, rightBrace, comma,
    dot, minus, plus, semicolon, slash, star, bang, equal,
    greater, less]

/-
  The longest symbol that a text starts with.  It is the
  first one found, since the longer symbols come first.
-/
def startOf?
    (text : List Char) :
    Option Symbol :=
  all.find? fun symbol => symbol.spelling.isPrefixOf text

end Symbol

end OcScript

------------------------------------------------------------
-- Keywords
------------------------------------------------------------

namespace OcScript

/- The meanings a reserved word can have. -/
inductive Keyword where
| andWord
| classWord
| elseWord
| falseWord
| functionWord
| forWord
| ifWord
| nilWord
| orWord
| printWord
| returnWord
| superWord
| thisWord
| trueWord
| varWord
| whileWord
deriving DecidableEq, Repr

namespace Keyword

/- Every keyword, once. -/
def all : List Keyword :=
  [andWord, classWord, elseWord, falseWord, functionWord,
    forWord, ifWord, nilWord, orWord, printWord,
    returnWord, superWord, thisWord, trueWord, varWord,
    whileWord]

/- The name by which a keyword table refers to a keyword. -/
def name : Keyword → String
| andWord => "and"
| classWord => "class"
| elseWord => "else"
| falseWord => "false"
| functionWord => "function"
| forWord => "for"
| ifWord => "if"
| nilWord => "nil"
| orWord => "or"
| printWord => "print"
| returnWord => "return"
| superWord => "super"
| thisWord => "this"
| trueWord => "true"
| varWord => "var"
| whileWord => "while"

/- The keyword of a given name, if there is one. -/
def ofName?
    (name : String) :
    Option Keyword :=
  all.find? fun keyword => keyword.name = name

/- The name of a keyword in token listings. -/
def typeName : Keyword → String
| andWord => "AND"
| classWord => "CLASS"
| elseWord => "ELSE"
| falseWord => "FALSE"
| functionWord => "FN"
| forWord => "FOR"
| ifWord => "IF"
| nilWord => "NIL"
| orWord => "OR"
| printWord => "PRINT"
| returnWord => "RETURN"
| superWord => "SUPER"
| thisWord => "THIS"
| trueWord => "TRUE"
| varWord => "VAR"
| whileWord => "WHILE"

end Keyword

end OcScript

------------------------------------------------------------
-- Tokens
------------------------------------------------------------

namespace OcScript

/-
  The kind of a token.  String and number tokens carry the
  value they denote.
-/
inductive TokenKind where
| symbol (symbol : Symbol)
| keyword (keyword : Keyword)
| identifier
| string (content : String)
| number (value : Float)
| eof
deriving DecidableEq, Repr

namespace TokenKind

/- The name of a token kind in token listings. -/
def typeName : TokenKind → String
| .symbol s => s.typeName
| .keyword k => k.typeName
| .identifier => "IDENTIFIER"
| .string _ => "STRING"
| .number _ => "NUMBER"
| .eof => "EOF"

/- The value denoted by a string or number token. -/
def literal? : TokenKind → Option Value
| .string s => some (.str s)
| .number x => some (.num x)
| _ => none

end TokenKind

/-
  A token: its kind, the text it was read from, and the
  line on which that text ends.
-/
structure Token where
  kind : TokenKind
  lexeme : String
  line : Nat
deriving DecidableEq, Repr

namespace Token

/-
  The token that marks the end of a source whose last line
  is `line`.
-/
def atEnd
    (line : Nat) :
    Token :=
  ⟨.eof, "", line⟩

/- The token is the symbol `s`. -/
def isSymbol
    (t : Token)
    (s : Symbol) :
    Bool :=
  t.kind = .symbol s

/- The token is the keyword `k`, however it is spelled. -/
def isKeyword
    (t : Token)
    (k : Keyword) :
    Bool :=
  t.kind = .keyword k

/- The token marks the end of its source. -/
def isEof
    (t : Token) :
    Bool :=
  t.kind = .eof

/-
  A token in a listing: its kind, its lexeme, and the value
  of a literal.
-/
def text
    (t : Token) :
    String :=
  let shown := t.kind.typeName ++ " " ++ t.lexeme
  match t.kind.literal? with
  | none => shown
  | some value => shown ++ " " ++ value.text

end Token

end OcScript
