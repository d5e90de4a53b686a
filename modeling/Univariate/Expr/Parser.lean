import Univariate.Text.Blank
import Univariate.Token
import Univariate.Expr.Basic

/-!
# Reading expressions

An expression is read from its tokens by recursive descent, after this grammar, from the loosest to
the tightest binding:

```text
expression = term { ("+" | "-") term }
term       = factor { ("*" | "/") factor }
factor     = "-" factor | primary [ "^" factor ]
primary    = number | "(" expression ")" | "|" expression "|" | variable
           | function "(" expression ")" | "pi" | "e" [ "^" exponent ]
```

Reading never fails. Where the tokens do not fit, an error leaf with the offset of the offending
token takes the place of the missing part, and the rest of the tokens is skipped. So there is at
most one error leaf, and it stands at the first place where the text cannot be continued.

## Main definitions

* `Parser.Scope`: the name of the variable and the length of the text.
* `Parser.State`: the tokens still to be read, and whether an error has occurred.
* `Parser.expression`, `Parser.term`, `Parser.factor`, `Parser.full`: the readers.
* `Expr.parse`: the tree of a text.

## Implementation notes

Every reader returns its final state with a proof that it has no more tokens left than the state it
started from. That is what makes the recursion behind a first operand well-founded.
-/

namespace Univariate

namespace Parser

/-- What all the readers have to know about a text. -/
structure Scope where
  /-- The name of the variable. -/
  name : String
  /-- The length of the text in bytes. -/
  size : Nat

/-- Where a reader stands. -/
structure State where
  /-- The tokens that are still to be read. -/
  rest : List Token
  /-- Whether an error has occurred. -/
  failed : Bool

/-- The state before anything is read. -/
def State.ofText (text : String) : State :=
  ⟨tokenize text, false⟩

/-- The scope of a text. -/
def Scope.ofText (name text : String) : Scope :=
  ⟨name, Text.byteLength text.toList⟩

/-- The offset of the next token, or of the end of the text. -/
def State.offset (scope : Scope) (s : State) : Nat :=
  match s.rest with
  | [] => scope.size
  | t :: _ => t.start

/-- A state that has no more tokens left than `s`. -/
abbrev After (s : State) := { t : State // t.rest.length ≤ s.rest.length }

variable {R : Type} [Zero R] [BEq R]

/-- The same result, as that of a state with more tokens. -/
def widen {s s' : State} (h : s.rest.length ≤ s'.rest.length) (r : Expr R × After s) :
    Expr R × After s' :=
  (r.1, ⟨r.2.1, Nat.le_trans r.2.2 h⟩)

/-- The same result with an operation applied to the tree. -/
def apply {s : State} (op : UnaryOp) (r : Expr R × After s) : Expr R × After s :=
  (.unary op r.1, r.2)

/-- Gives up: an error leaf at the next token, and nothing left to read. -/
def fail (scope : Scope) (s : State) : Expr R × After s :=
  (.error (s.offset scope), ⟨⟨[], true⟩, Nat.zero_le _⟩)

/-- Reads a closing delimiter behind a tree. If it is missing, an error leaf takes the place of the
tree, unless an error has already occurred inside. -/
def close (scope : Scope) (delimiter : TokenKind) (tree : Expr R) (s : State) : Expr R × After s :=
  match s with
  | ⟨t :: ts, failed⟩ =>
    if t.kind = delimiter then (tree, ⟨⟨ts, failed⟩, Nat.le_succ _⟩)
    else if failed then (tree, ⟨⟨t :: ts, failed⟩, Nat.le_refl _⟩)
    else fail scope ⟨t :: ts, failed⟩
  | ⟨[], failed⟩ =>
    if failed then (tree, ⟨⟨[], failed⟩, Nat.le_refl _⟩) else fail scope ⟨[], failed⟩

/-- The operation between two terms. -/
def sumOp? : TokenKind → Option BinaryOp
  | .plus => some .plus
  | .minus => some .minus
  | _ => none

/-- The operation between two factors. -/
def productOp? : TokenKind → Option BinaryOp
  | .times => some .times
  | .slash => some .div
  | _ => none

variable [One R] [Numeral R] [OfScientific R]

mutual

/-- Reads terms with `+` and `-` between them. -/
def expression (scope : Scope) (s : State) : Expr R × After s :=
  let (first, s₁) := term scope s
  widen s₁.2 (sums scope first s₁.1)
  termination_by (s.rest.length, 5)
  decreasing_by
    · exact Prod.Lex.right _ (by decide)
    · exact Prod.Lex.right' _ s₁.2 (by decide)

/-- Reads the terms behind a first operand. -/
def sums (scope : Scope) (left : Expr R) (s : State) : Expr R × After s :=
  match s with
  | ⟨[], failed⟩ => (left, ⟨⟨[], failed⟩, Nat.le_refl _⟩)
  | ⟨t :: ts, failed⟩ =>
    match sumOp? t.kind with
    | none => (left, ⟨⟨t :: ts, failed⟩, Nat.le_refl _⟩)
    | some op =>
      let (right, s₁) := term scope ⟨ts, failed⟩
      widen (Nat.le_succ_of_le s₁.2) (sums scope (.binary op left right) s₁.1)
  termination_by (s.rest.length, 0)
  decreasing_by
    · exact Prod.Lex.left _ _ (Nat.lt_succ_self _)
    · exact Prod.Lex.left _ _ (Nat.lt_succ_of_le s₁.2)

/-- Reads factors with `*` and `/` between them. -/
def term (scope : Scope) (s : State) : Expr R × After s :=
  let (first, s₁) := factor scope s
  widen s₁.2 (products scope first s₁.1)
  termination_by (s.rest.length, 4)
  decreasing_by
    · exact Prod.Lex.right _ (by decide)
    · exact Prod.Lex.right' _ s₁.2 (by decide)

/-- Reads the factors behind a first operand. -/
def products (scope : Scope) (left : Expr R) (s : State) : Expr R × After s :=
  match s with
  | ⟨[], failed⟩ => (left, ⟨⟨[], failed⟩, Nat.le_refl _⟩)
  | ⟨t :: ts, failed⟩ =>
    match productOp? t.kind with
    | none => (left, ⟨⟨t :: ts, failed⟩, Nat.le_refl _⟩)
    | some op =>
      let (right, s₁) := factor scope ⟨ts, failed⟩
      widen (Nat.le_succ_of_le s₁.2) (products scope (.binary op left right) s₁.1)
  termination_by (s.rest.length, 0)
  decreasing_by
    · exact Prod.Lex.left _ _ (Nat.lt_succ_self _)
    · exact Prod.Lex.left _ _ (Nat.lt_succ_of_le s₁.2)

/-- Reads a negation, or a primary that may be raised to a power. The exponent is a factor, so
powers are read from right to left. -/
def factor (scope : Scope) (s : State) : Expr R × After s :=
  match s with
  | ⟨[], failed⟩ => fail scope ⟨[], failed⟩
  | ⟨t :: ts, failed⟩ =>
    if t.kind = .minus then
      widen (Nat.le_succ _) (apply .negate (factor scope ⟨ts, failed⟩))
    else
      let (base, s₁) := primary scope t ts failed
      widen s₁.2 (power scope base s₁.1)
  termination_by (s.rest.length, 3)
  decreasing_by
    · exact Prod.Lex.left _ _ (Nat.lt_succ_self _)
    · exact Prod.Lex.right _ (by decide)
    · exact Prod.Lex.right' _ s₁.2 (by decide)

/-- Reads the exponent behind a base, if there is one. -/
def power (scope : Scope) (base : Expr R) (s : State) : Expr R × After s :=
  match s with
  | ⟨[], failed⟩ => (base, ⟨⟨[], failed⟩, Nat.le_refl _⟩)
  | ⟨t :: ts, failed⟩ =>
    if t.kind = .caret then
      let (exponent, s₁) := factor scope ⟨ts, failed⟩
      (.binary .pow base exponent, ⟨s₁.1, Nat.le_succ_of_le s₁.2⟩)
    else (base, ⟨⟨t :: ts, failed⟩, Nat.le_refl _⟩)
  termination_by (s.rest.length, 0)
  decreasing_by exact Prod.Lex.left _ _ (Nat.lt_succ_self _)

/-- Reads a primary that starts with the token `t`. -/
def primary (scope : Scope) (t : Token) (ts : List Token) (failed : Bool) :
    Expr R × After ⟨t :: ts, failed⟩ :=
  match t.kind with
  | .number => (.const (Decimal.literalValue t.lexeme), ⟨⟨ts, failed⟩, Nat.le_succ _⟩)
  | .openParen => delimited scope .group .closeParen t ts failed
  | .bar => delimited scope (.call .abs) .bar t ts failed
  | .name =>
    match Func.ofName? t.text with
    | some f =>
      match ts with
      | [] => widen (Nat.le_succ _) (fail scope ⟨[], failed⟩)
      | t' :: ts' =>
        if t'.kind = .openParen then
          widen (Nat.le_succ _) (delimited scope (.call f) .closeParen t' ts' failed)
        else widen (Nat.le_succ _) (fail scope ⟨t' :: ts', failed⟩)
    | none =>
      if t.text = "pi" then (.const Numeral.pi, ⟨⟨ts, failed⟩, Nat.le_succ _⟩)
      else if t.text = "e" then widen (Nat.le_succ _) (exponential scope ⟨ts, failed⟩)
      else if t.text = scope.name then (.var t.text, ⟨⟨ts, failed⟩, Nat.le_succ _⟩)
      else fail scope ⟨t :: ts, failed⟩
  | _ => fail scope ⟨t :: ts, failed⟩
  termination_by ((t :: ts).length, 2)
  decreasing_by
    · exact Prod.Lex.right _ (by decide)
    · exact Prod.Lex.right _ (by decide)
    · exact Prod.Lex.left _ _ (Nat.lt_succ_self _)
    · exact Prod.Lex.left _ _ (Nat.lt_succ_self _)

/-- Reads an expression between the opening delimiter `t` and a closing one, and applies an
operation to it. -/
def delimited (scope : Scope) (op : UnaryOp) (closing : TokenKind) (t : Token) (ts : List Token)
    (failed : Bool) : Expr R × After ⟨t :: ts, failed⟩ :=
  let (u, s₁) := expression scope ⟨ts, failed⟩
  widen (Nat.le_succ_of_le s₁.2) (close scope closing (.unary op u) s₁.1)
  termination_by ((t :: ts).length, 1)
  decreasing_by exact Prod.Lex.left _ _ (Nat.lt_succ_self _)

/-- Reads what follows `e`: an exponent in parentheses, an exponent that is a factor, or nothing,
which stands for the exponent one. -/
def exponential (scope : Scope) (s : State) : Expr R × After s :=
  match s with
  | ⟨[], failed⟩ => (.unary .exp (.const 1), ⟨⟨[], failed⟩, Nat.le_refl _⟩)
  | ⟨t :: ts, failed⟩ =>
    if t.kind = .caret then
      match ts with
      | [] => widen (Nat.le_succ _) (apply .exp (factor scope ⟨[], failed⟩))
      | t' :: ts' =>
        if t'.kind = .openParen then
          widen (Nat.le_succ _) (delimited scope .exp .closeParen t' ts' failed)
        else widen (Nat.le_succ _) (apply .exp (factor scope ⟨t' :: ts', failed⟩))
    else (.unary .exp (.const 1), ⟨⟨t :: ts, failed⟩, Nat.le_refl _⟩)
  termination_by (s.rest.length, 0)
  decreasing_by all_goals exact Prod.Lex.left _ _ (Nat.lt_succ_self _)

end

/-- Reads an expression to the end of the text. Tokens that are left over are an error. -/
def full (scope : Scope) (s : State) : Expr R × After s :=
  let (tree, s₁) := expression scope s
  match s₁ with
  | ⟨⟨[], _⟩, _⟩ => (tree, s₁)
  | ⟨⟨t :: ts, failed⟩, h⟩ => widen h (fail scope ⟨t :: ts, failed⟩)

end Parser

variable {R : Type} [Zero R] [BEq R] [One R] [Numeral R] [OfScientific R]

/-- The tree of a text without blanks. -/
def Expr.parseStripped (name text : String) : Expr R :=
  (Parser.full (Parser.Scope.ofText name text) (Parser.State.ofText text)).1

/-- The tree of a text, with blanks ignored wherever they are. -/
def Expr.parse (name text : String) : Expr R :=
  Expr.parseStripped name (Text.strip text)

end Univariate
