import Univariate.Text.Alphabetic
import Univariate.Decimal.Literal

/-!
# Tokens

A text without blanks is cut into tokens: operators, delimiters, names, numbers, and every other
character on its own. Each token is the longest one possible where it starts, and none is skipped,
so the lexemes of the tokens make up the text.

## Main definitions

* `TokenKind`, `Token`: a token with its kind, its place and its text.
* `splitToken`: the first token of a text, and the rest.
* `tokenize`: all tokens of a text.
-/

namespace Univariate

open Univariate.Text Univariate.Decimal

/-- What a token is. -/
inductive TokenKind where
  /-- `+` -/
  | plus
  /-- `-` -/
  | minus
  /-- `*` or `×` -/
  | times
  /-- `/` or `÷` -/
  | slash
  /-- `^` -/
  | caret
  /-- `(` -/
  | openParen
  /-- `)` -/
  | closeParen
  /-- `|` -/
  | bar
  /-- A letter or underscore, then letters, digits and underscores. -/
  | name
  /-- An unsigned decimal literal. -/
  | number
  /-- Any other character. -/
  | symbol
  deriving DecidableEq, Repr

/-- A piece of a text. -/
structure Token where
  /-- What the token is. -/
  kind : TokenKind
  /-- The byte offset of its first character. -/
  start : Nat
  /-- Its text. -/
  lexeme : List Char
  deriving DecidableEq, Repr

/-- The byte offset behind the last character of a token. -/
def Token.stop (t : Token) : Nat :=
  t.start + byteLength t.lexeme

/-- The text of a token as a string. -/
def Token.text (t : Token) : String :=
  String.ofList t.lexeme

/-- Whether a name can start with the character. -/
def isNameStart (c : Char) : Bool :=
  c == '_' || isAlphabetic c

/-- Whether a name can go on with the character. -/
def isNameRest (c : Char) : Bool :=
  c.isDigit || isNameStart c

/-- The kind of a token that consists of a single character. -/
def symbolKind (c : Char) : TokenKind :=
  match c with
  | '+' => .plus
  | '-' => .minus
  | '*' | '×' => .times
  | '/' | '÷' => .slash
  | '^' => .caret
  | '(' => .openParen
  | ')' => .closeParen
  | '|' => .bar
  | _ => .symbol

/-- The first token of the text `c :: cs`: its kind, its text, and what follows it. -/
def splitToken (c : Char) (cs : List Char) : TokenKind × List Char × List Char :=
  if c.isDigit then
    let (lexeme, rest) := splitLiteral (c :: cs)
    (.number, lexeme, rest)
  else if isNameStart c then
    (.name, c :: cs.takeWhile isNameRest, cs.dropWhile isNameRest)
  else (symbolKind c, [c], cs)

/-- The first token and the rest make up the text. -/
theorem splitToken_append (c : Char) (cs : List Char) :
    (splitToken c cs).2.1 ++ (splitToken c cs).2.2 = c :: cs := by
  unfold splitToken
  split
  · exact splitLiteral_append (c :: cs)
  · split
    · simp [List.takeWhile_append_dropWhile]
    · rfl

/-- A token is not empty. -/
theorem splitToken_lexeme_ne_nil (c : Char) (cs : List Char) : (splitToken c cs).2.1 ≠ [] := by
  unfold splitToken
  split
  · rename_i hc
    simp only [splitLiteral, List.takeWhile_cons, List.dropWhile_cons, hc, if_true]
    split
    · split <;> simp
    · simp
  · split <;> simp

/-- What follows the first token is shorter than the text. -/
theorem length_splitToken_rest (c : Char) (cs : List Char) :
    (splitToken c cs).2.2.length ≤ cs.length := by
  have h := congrArg List.length (splitToken_append c cs)
  have hne := List.length_pos_iff.mpr (splitToken_lexeme_ne_nil c cs)
  simp only [List.length_append, List.length_cons] at h
  omega

/-- The tokens of a text that starts at a byte offset. -/
def tokensFrom (start : Nat) : List Char → List Token
  | [] => []
  | c :: cs =>
    let first := splitToken c cs
    ⟨first.1, start, first.2.1⟩ :: tokensFrom (start + byteLength first.2.1) first.2.2
  termination_by cs => cs.length
  decreasing_by exact Nat.lt_succ_of_le (length_splitToken_rest c cs)

/-- No character is lost or made up: the lexemes of the tokens make up the text. -/
theorem flatMap_lexeme_tokensFrom (start : Nat) (cs : List Char) :
    (tokensFrom start cs).flatMap Token.lexeme = cs := by
  fun_induction tokensFrom start cs with
  | case1 => rfl
  | case2 start c cs first ih => rw [List.flatMap_cons, ih]; exact splitToken_append c cs

/-- The tokens of a text. -/
def tokenize (text : String) : List Token :=
  tokensFrom 0 text.toList

/-- Whether a token is a character that no pattern of the language describes: a line feed. -/
def Token.isUnmatched (t : Token) : Bool :=
  t.lexeme == ['\n']

end Univariate
