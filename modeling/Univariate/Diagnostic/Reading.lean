import Univariate.Diagnostic
import Univariate.Token
import Univariate.Expr.Walk

/-!
# Diagnostics of expressions

The error leaves of a tree point into the text it was read from. Each gives rise to one diagnostic,
which names the token found there, or tells that the text ends too early.

## Main definitions

* `Diagnostic.ofOffset`: the diagnostic for one offset into a text.
* `Expr.diagnostics`: the diagnostics for all error leaves of a tree.
-/

namespace Univariate

open Univariate.Text

/-- The diagnostic for an error at a byte offset of a text without blanks. The token found there is
looked up in the text from that offset on. The text counts as having ended if the offset is not the
start of a character. -/
def Diagnostic.ofOffset (variableName text : String) (offset : Nat) : Diagnostic :=
  let start := charsBefore offset text.toList
  match tokensFrom offset ((suffixAt? offset text.toList).getD []) with
  | [] => ⟨[⟨start, start⟩], .unexpectedEnd⟩
  | t :: _ => ⟨[⟨start, start + t.lexeme.length⟩], .unexpectedInput t.text variableName⟩

/-- The diagnostics for the error leaves of a tree, from left to right. The text is the one that
the tree was read from, without blanks. -/
def Expr.diagnostics {R : Type} [Zero R] [BEq R] (t : Expr R) (variableName text : String) :
    List Diagnostic :=
  t.errorOffsets.map (Diagnostic.ofOffset variableName text)

end Univariate
