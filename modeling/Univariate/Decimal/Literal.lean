import Univariate.Text.Offset

/-!
# Decimal literals

An unsigned literal is a run of digits, optionally followed by a point and another run of digits.
The point belongs to the literal only if a digit follows it, so `7.` is the literal `7` and a
point. This file cuts literals off a text and computes their values, in any type of numbers that
has decimal constants.

## Main definitions

* `splitLiteral`: the longest unsigned literal at the front of a text, and the rest.
* `literalValue`: the number an unsigned literal stands for.
* `scanConstant`: the signed literal at a byte offset of a text.
-/

namespace Univariate.Decimal

open Univariate.Text

/-- The longest literal at the front of a text, and what follows it. The digits before the point
may be missing. -/
def splitLiteral (cs : List Char) : List Char × List Char :=
  let whole := cs.takeWhile Char.isDigit
  match cs.dropWhile Char.isDigit with
  | '.' :: d :: rest =>
    if d.isDigit then
      (whole ++ '.' :: d :: rest.takeWhile Char.isDigit, rest.dropWhile Char.isDigit)
    else (whole, '.' :: d :: rest)
  | rest => (whole, rest)

/-- The number that a run of digits stands for. -/
def digitsValue (cs : List Char) : Nat :=
  cs.foldl (fun n c => 10 * n + (c.toNat - '0'.toNat)) 0

/-- The number that a literal stands for: all of its digits, with as many decimal places as there
are digits behind the point. -/
def literalValue {R : Type} [OfScientific R] (cs : List Char) : R :=
  let whole := cs.takeWhile Char.isDigit
  let places := (cs.dropWhile Char.isDigit).drop 1
  OfScientific.ofScientific (digitsValue (whole ++ places)) true places.length

/-- The literal with an optional leading minus at the front of a text: its value, and how many
characters it takes up. A text without a literal has the value zero, and then at most the minus is
taken. -/
def signedLiteral {R : Type} [Zero R] [Neg R] [OfScientific R] (cs : List Char) : R × Nat :=
  match cs with
  | '-' :: rest =>
    match (splitLiteral rest).1 with
    | [] => (0, 1)
    | literal => (-literalValue literal, 1 + literal.length)
  | _ =>
    match (splitLiteral cs).1 with
    | [] => (0, 0)
    | literal => (literalValue literal, literal.length)

/-- The signed literal at a byte offset of a text: its value, and the offset behind it. An offset
that lies inside a character or past the end holds no literal. -/
def scanConstant {R : Type} [Zero R] [Neg R] [OfScientific R] (text : String) (offset : Nat) :
    R × Nat :=
  match suffixAt? offset text.toList with
  | none => (0, offset)
  | some rest =>
    let (value, width) := signedLiteral rest
    (value, offset + width)

/-- Nothing is lost when a literal is cut off. -/
theorem splitLiteral_append (cs : List Char) : (splitLiteral cs).1 ++ (splitLiteral cs).2 = cs := by
  unfold splitLiteral
  have h := List.takeWhile_append_dropWhile (p := Char.isDigit) (l := cs)
  split
  · rename_i d rest hrest
    rw [hrest] at h
    split
    · refine Eq.trans ?_ h
      simp [List.takeWhile_append_dropWhile]
    · exact h
  · exact h

end Univariate.Decimal
