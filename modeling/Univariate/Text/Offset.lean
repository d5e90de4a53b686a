/-!
# Byte offsets into a text

Positions in a text are counted in bytes of its UTF-8 form by the tokens and the error leaves of
a tree, and in characters by the spans of a diagnostic. This file converts between the two.

## Main definitions

* `byteLength`: the number of bytes of a text.
* `suffixAt?`: the text from a byte offset on, if the offset lies between two characters.
* `charsBefore`: how many characters start before a byte offset.
-/

namespace Univariate.Text

/-- The number of bytes of a text in UTF-8. -/
def byteLength : List Char → Nat
  | [] => 0
  | c :: cs => c.utf8Size + byteLength cs

/-- The text from a byte offset on. There is none if the offset lies inside a character or past
the end. -/
def suffixAt? : Nat → List Char → Option (List Char)
  | 0, cs => some cs
  | _ + 1, [] => none
  | n + 1, c :: cs => if c.utf8Size ≤ n + 1 then suffixAt? (n + 1 - c.utf8Size) cs else none

/-- How many characters start before a byte offset. -/
def charsBefore : Nat → List Char → Nat
  | 0, _ => 0
  | _ + 1, [] => 0
  | n + 1, c :: cs => 1 + charsBefore (n + 1 - c.utf8Size) cs

@[simp] theorem byteLength_append (xs ys : List Char) :
    byteLength (xs ++ ys) = byteLength xs + byteLength ys := by
  induction xs with
  | nil => simp [byteLength]
  | cons c cs ih => simp [byteLength, ih, Nat.add_assoc]

/-- Every character takes at least one byte. -/
theorem byteLength_pos {cs : List Char} (h : cs ≠ []) : 0 < byteLength cs := by
  cases cs with
  | nil => contradiction
  | cons c cs => exact Nat.add_pos_left c.utf8Size_pos _

/-- Skipping a whole prefix leaves the rest. -/
theorem suffixAt?_append (xs ys : List Char) : suffixAt? (byteLength xs) (xs ++ ys) = some ys := by
  induction xs with
  | nil => cases ys <;> simp [byteLength, suffixAt?]
  | cons c cs ih =>
    obtain ⟨k, hk⟩ : ∃ k, byteLength (c :: cs) = k + 1 :=
      ⟨_, (Nat.succ_pred_eq_of_pos (Nat.add_pos_left c.utf8Size_pos _)).symm⟩
    have hc : c.utf8Size + byteLength cs = k + 1 := hk
    rw [hk, List.cons_append, suffixAt?, if_pos (by omega),
      show k + 1 - c.utf8Size = byteLength cs by omega, ih]

/-- The characters of a prefix are those that start before its end. -/
theorem charsBefore_append (xs ys : List Char) :
    charsBefore (byteLength xs) (xs ++ ys) = xs.length := by
  induction xs with
  | nil => cases ys <;> simp [byteLength, charsBefore]
  | cons c cs ih =>
    obtain ⟨k, hk⟩ : ∃ k, byteLength (c :: cs) = k + 1 :=
      ⟨_, (Nat.succ_pred_eq_of_pos (Nat.add_pos_left c.utf8Size_pos _)).symm⟩
    have hc : c.utf8Size + byteLength cs = k + 1 := hk
    rw [hk, List.cons_append, charsBefore,
      show k + 1 - c.utf8Size = byteLength cs by omega, ih, List.length_cons, Nat.add_comm]

end Univariate.Text
