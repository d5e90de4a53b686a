/-!
# Blank characters

Expressions are read without their blanks, and command lines are split at them. A character is
blank if it has the Unicode property `White_Space`, which holds of twenty-five characters.

## Main definitions

* `isBlank`: the property.
* `strip`: a text without any blank.
* `trim`: a text without the blanks at its two ends.
* `splitWord`: the first word of a text, and the rest.
-/

namespace Univariate.Text

/-- Whether a character has the Unicode property `White_Space`. -/
def isBlank (c : Char) : Bool :=
  let n := c.toNat
  (0x09 ≤ n && n ≤ 0x0D) || n == 0x20 || n == 0x85 || n == 0xA0 || n == 0x1680 ||
    (0x2000 ≤ n && n ≤ 0x200A) || n == 0x2028 || n == 0x2029 || n == 0x202F || n == 0x205F ||
    n == 0x3000

/-- The text without any blank. -/
def strip (s : String) : String :=
  String.ofList (s.toList.filter fun c => !isBlank c)

/-- The text without the blanks in front of it. -/
def trimStart (cs : List Char) : List Char :=
  cs.dropWhile isBlank

/-- The text without the blanks at its two ends. -/
def trim (cs : List Char) : List Char :=
  (trimStart (trimStart cs).reverse).reverse

/-- The part of a text before its first blank, and what follows the blanks after that part. -/
def splitWord (cs : List Char) : List Char × List Char :=
  (cs.takeWhile fun c => !isBlank c, trimStart (cs.dropWhile fun c => !isBlank c))

theorem toList_strip (s : String) :
    (strip s).toList = s.toList.filter fun c => !isBlank c := by
  simp [strip]

/-- Nothing is removed from a text without blanks. -/
theorem toList_strip_of_not_blank {s : String} (h : ∀ c ∈ s.toList, isBlank c = false) :
    (strip s).toList = s.toList := by
  rw [toList_strip, List.filter_eq_self]
  simpa using h

/-- Nothing blank is left after stripping, so stripping twice is stripping once. -/
theorem strip_strip (s : String) : strip (strip s) = strip s := by
  simp [strip, List.filter_filter]

end Univariate.Text
