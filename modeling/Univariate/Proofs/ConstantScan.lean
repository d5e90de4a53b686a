import Mathlib.Order.Bounds.Basic
import Univariate.Proofs.LongestMatch
import Univariate.Proofs.OutOfRange
import Univariate.Proofs.Shortest

/-!
# Scanning constants

A number is recognized in two places. The tokens of a text are cut off by a pattern, and a constant
is scanned at a byte offset of a text, where it may have a minus in front and needs no digits before
its point. If the two disagreed about what belongs to a number, a constant would silently be read
with a wrong value.

Nothing is asked of the offset. It may lie inside a character or past the end of the text, and
scanning looks at nothing but bytes. That is safe because all the characters of a constant take one
byte each, and no byte of a larger character can be taken for one of them. So what is scanned starts
and ends between two characters, unless it is empty.

The text that was scanned is converted by a reader of doubles that knows much more than constants,
such as exponents, and takes shortcuts for numbers that are out of range. It accepts every constant
with a digit in it, and gives it the value of its digits.

## Main definitions

* `IsMagnitudeText`, `IsConstantText`: what a constant looks like.
* `constantEnds`: where the constants end that start at an offset.
* `IsScannedAt`: what is true of a scan.

## Main results

* `signedLiteral_spec`: the longest constant in front of a text.
* `utf8Bytes_prefix_iff`: constants can be looked for among the bytes.
* `Double.readMagnitude?_eq_some`: reading a constant.
* `isScannedAt_scanConstant`, `scanConstant_of_mem_tokenize`: scanning at any offset, and where a
  token starts.
* `scanConstant_agrees`: both together.
-/

namespace Univariate

open Univariate.Decimal Univariate.Text

variable {R : Type} [Zero R] [Neg R] [OfScientific R]

/-! ### What a constant looks like -/

/-- A constant without its sign: digits, perhaps none, and perhaps a point and more digits. -/
inductive IsMagnitudeText : List Char → Prop
  | whole {cs} : (∀ c ∈ cs, c.isDigit = true) → IsMagnitudeText cs
  | places {cs ds} : (∀ c ∈ cs, c.isDigit = true) → IsDigits ds → IsMagnitudeText (cs ++ '.' :: ds)

/-- A constant: a magnitude, perhaps with a minus in front. -/
inductive IsConstantText : List Char → Prop
  | unsigned {cs} : IsMagnitudeText cs → IsConstantText cs
  | negated {cs} : IsMagnitudeText cs → IsConstantText ('-' :: cs)

/-- With a digit in front, a magnitude is a literal. -/
theorem isMagnitudeText_iff {cs : List Char} : IsMagnitudeText cs ↔ IsLiteralText ('0' :: cs) := by
  have hcons : ∀ {ds : List Char}, (∀ c ∈ ds, c.isDigit = true) → IsDigits ('0' :: ds) := by
    intro ds hds
    exact ⟨by simp, by simpa using hds⟩
  constructor
  · intro h
    cases h with
    | whole hcs => exact .whole (hcons hcs)
    | places hcs hds => exact .places (hcons hcs) hds
  · intro h
    generalize heq : '0' :: cs = ds at h
    cases h with
    | whole hds =>
      subst heq
      exact .whole fun c hc => hds.2 c (List.mem_cons_of_mem _ hc)
    | @places as bs has hbs =>
      obtain ⟨a, as, rfl⟩ := List.exists_cons_of_ne_nil has.1
      obtain ⟨rfl, rfl⟩ := List.cons.inj heq
      exact .places (fun c hc => has.2 c (List.mem_cons_of_mem _ hc)) hbs

/-- A literal is a magnitude with a digit before its point. -/
theorem IsLiteralText.isMagnitudeText {cs : List Char} (h : IsLiteralText cs) :
    IsMagnitudeText cs := by
  cases h with
  | whole hcs => exact .whole hcs.2
  | places hcs hds => exact .places hcs.2 hds

theorem IsMagnitudeText.isDigit_or_eq_point {cs : List Char} (h : IsMagnitudeText cs) {c : Char}
    (hc : c ∈ cs) : c.isDigit = true ∨ c = '.' :=
  (isMagnitudeText_iff.mp h).isDigit_or_eq_point (List.mem_cons_of_mem _ hc)

/-- A magnitude without a digit is empty. -/
theorem IsMagnitudeText.eq_nil {cs : List Char} (h : IsMagnitudeText cs)
    (hnone : ∀ c ∈ cs, c.isDigit = false) : cs = [] := by
  refine List.eq_nil_iff_forall_not_mem.mpr fun c hc => ?_
  cases h with
  | whole hdigits =>
    have hdigit := hdigits c hc
    rw [hnone c hc] at hdigit
    contradiction
  | places _ hds =>
    obtain ⟨d, hd⟩ := List.exists_mem_of_ne_nil _ hds.1
    have hdigit := hds.2 d hd
    rw [hnone d (by simp [hd])] at hdigit
    contradiction

/-- A magnitude has no sign. -/
theorem IsMagnitudeText.not_mem_of_sign {cs : List Char} (h : IsMagnitudeText cs) {c : Char}
    (hc : c = '-' ∨ c = '+') : c ∉ cs := by
  intro hmem
  obtain rfl | rfl := hc
  · exact absurd (h.isDigit_or_eq_point hmem) (by decide)
  · exact absurd (h.isDigit_or_eq_point hmem) (by decide)

/-! ### The longest constant -/

theorem splitLiteral_cons_of_isDigit {c : Char} (hc : c.isDigit = true) (cs : List Char) :
    splitLiteral (c :: cs) = (c :: (splitLiteral cs).1, (splitLiteral cs).2) := by
  rw [splitLiteral, splitLiteral, List.takeWhile_cons_of_pos hc, List.dropWhile_cons_of_pos hc]
  split
  · split <;> rfl
  · rfl

theorem isMagnitudeText_splitLiteral (cs : List Char) : IsMagnitudeText (splitLiteral cs).1 := by
  have h := isLiteralText_splitLiteral (c := '0') (by decide) cs
  rw [splitLiteral_cons_of_isDigit (by decide)] at h
  exact isMagnitudeText_iff.mpr h

/-- **No longer magnitude.** A magnitude in front of a text is no longer than the one that is cut
off. -/
theorem IsMagnitudeText.length_le {q cs : List Char} (h : IsMagnitudeText q) (hq : q <+: cs) :
    q.length ≤ (splitLiteral cs).1.length := by
  have hle := length_le_splitLiteral (isMagnitudeText_iff.mp h)
    (List.cons_prefix_cons.mpr ⟨rfl, hq⟩)
  rw [splitLiteral_cons_of_isDigit (by decide)] at hle
  exact Nat.le_of_succ_le_succ hle

/-- A constant at the front of a text that starts with a minus. -/
theorem signedLiteral_minus (cs : List Char) :
    (signedLiteral ('-' :: cs) : R × ℕ) =
      (if (splitLiteral cs).1 = [] then 0 else -literalValue (splitLiteral cs).1,
        1 + (splitLiteral cs).1.length) := by
  rw [signedLiteral]
  split
  · next h => rw [h]; rfl
  · next h => rw [if_neg h]

/-- A constant at the front of any other text. -/
theorem signedLiteral_of_ne {cs : List Char} (h : ∀ rest, cs ≠ '-' :: rest) :
    (signedLiteral cs : R × ℕ) =
      (if (splitLiteral cs).1 = [] then 0 else literalValue (splitLiteral cs).1,
        (splitLiteral cs).1.length) := by
  unfold signedLiteral
  split
  · exact absurd rfl (h _)
  · split
    · next h => rw [h]; rfl
    · next h => rw [if_neg h]

/-! ### Reading a constant -/

namespace Double

theorem readDecimal?_of_isMagnitudeText {cs : List Char} (h : IsMagnitudeText cs) (hcs : cs ≠ []) :
    ∃ n p : ℕ, readDecimal? cs = some ⟨n, -(p : ℤ)⟩ ∧
      (literalValue cs : Double) = OfScientific.ofScientific n true p := by
  cases h with
  | whole hdigits =>
    refine ⟨digitsValue cs, 0, ?_, literalValue_whole hdigits⟩
    obtain ⟨htake, hdrop⟩ := @span_isDigit cs [] hdigits rfl
    rw [List.append_nil] at htake hdrop
    rw [readDecimal?, htake, hdrop]
    simp [hcs, readExponent?]
  | @places as bs has hbs =>
    refine ⟨digitsValue (as ++ bs), bs.length, ?_, literalValue_places has⟩
    obtain ⟨htake, hdrop⟩ := @span_isDigit as ('.' :: bs) has rfl
    obtain ⟨htake', hdrop'⟩ := @span_isDigit bs [] hbs.2 rfl
    rw [List.append_nil] at htake' hdrop'
    rw [readDecimal?, htake, hdrop]
    simp [htake', hdrop', hbs.1, readExponent?]

/-- No name of a number consists of digits and points. -/
theorem readMagnitude?_of_isMagnitudeText {cs : List Char} (h : IsMagnitudeText cs) :
    readMagnitude? cs = (readDecimal? cs).map ofDecimal := by
  have hletter : 'n' ∉ cs.map Char.toLower := by
    intro hmem
    obtain ⟨c, hc, hlower⟩ := List.mem_map.mp hmem
    obtain hdigit | rfl := h.isDigit_or_eq_point hc
    · have hupper : ¬ c.isUpper = true := by
        intro hupper
        have hdigit : 48 ≤ c.toNat ∧ c.toNat ≤ 57 := Char.isDigit_iff_toNat.mp hdigit
        have hupper : 65 ≤ c.toNat ∧ c.toNat ≤ 90 := by
          simpa [Char.isUpper, UInt32.le_iff_toNat_le] using hupper
        omega
      rw [Char.toLower_eq_of_not_isUpper hupper] at hlower
      rw [hlower] at hdigit
      contradiction
    · contradiction
  have hname : ∀ name : String, 'n' ∈ name.toList →
      (String.ofList (cs.map Char.toLower) == name) = false := by
    intro name hn
    refine beq_false_of_ne ?_
    rintro rfl
    rw [String.toList_ofList] at hn
    exact hletter hn
  rw [readMagnitude?]
  simp [hname "inf" (by decide), hname "infinity" (by decide), hname "nan" (by decide)]

/-- **Reading a constant.** A magnitude that is not empty is read as the number that its digits
stand for. -/
theorem readMagnitude?_eq_some {cs : List Char} (h : IsMagnitudeText cs) (hcs : cs ≠ []) :
    readMagnitude? cs = some (literalValue cs) := by
  obtain ⟨n, p, hread, hvalue⟩ := readDecimal?_of_isMagnitudeText h hcs
  rw [readMagnitude?_of_isMagnitudeText h, hread, Option.map_some, ofDecimal_eq_ofScientific,
    hvalue]

theorem read?_of_isMagnitudeText {cs : List Char} (h : IsMagnitudeText cs) :
    read? cs = readMagnitude? cs := by
  unfold read?
  split
  · exact absurd (List.mem_cons_self ..) (h.not_mem_of_sign (.inr rfl))
  · exact absurd (List.mem_cons_self ..) (h.not_mem_of_sign (.inl rfl))
  · rfl

end Double

/-- **The longest constant in front of a text.** It takes up as many characters as the scan says,
and it is read as the value of the scan if it has a digit. If it has none, the value is zero. -/
theorem signedLiteral_spec (cs : List Char) :
    ∃ q, q <+: cs ∧ IsConstantText q ∧ (signedLiteral cs : Double × ℕ).2 = q.length ∧
      (∀ q', IsConstantText q' → q' <+: cs → q'.length ≤ q.length) ∧
      ((∃ c ∈ q, c.isDigit = true) → Double.read? q = some (signedLiteral cs).1) ∧
      ((∀ c ∈ q, c.isDigit = false) → (signedLiteral cs : Double × ℕ).1 = 0) := by
  by_cases hminus : ∃ rest, cs = '-' :: rest
  · obtain ⟨rest, rfl⟩ := hminus
    have hm := isMagnitudeText_splitLiteral rest
    have hfront : (splitLiteral rest).1 <+: rest := ⟨_, splitLiteral_append rest⟩
    have hlongest : ∀ q', IsMagnitudeText q' → q' <+: rest →
        q'.length ≤ (splitLiteral rest).1.length := fun q' h => h.length_le
    rw [signedLiteral_minus]
    generalize (splitLiteral rest).1 = m at hm hfront hlongest
    refine ⟨'-' :: m, List.cons_prefix_cons.mpr ⟨rfl, hfront⟩, .negated hm, ?_, ?_, ?_, ?_⟩
    · rw [List.length_cons, Nat.add_comm]
    · intro q' hq' hprefix
      cases hq' with
      | unsigned hq' =>
        cases q' with
        | nil => exact Nat.zero_le _
        | cons c q' =>
          obtain ⟨rfl, -⟩ := List.cons_prefix_cons.mp hprefix
          exact absurd (List.mem_cons_self ..) (hq'.not_mem_of_sign (.inl rfl))
      | negated hq' =>
        exact Nat.succ_le_succ (hlongest _ hq' (List.cons_prefix_cons.mp hprefix).2)
    · intro hdigit
      have hne : m ≠ [] := by
        rintro rfl
        simp at hdigit
      rw [Double.read?, Double.readMagnitude?_eq_some hm hne, if_neg hne]
      rfl
    · exact fun hnone => if_pos (hm.eq_nil fun c hc => hnone c (List.mem_cons_of_mem _ hc))
  · have hcs : ∀ rest, cs ≠ '-' :: rest := fun rest h => hminus ⟨rest, h⟩
    have hm := isMagnitudeText_splitLiteral cs
    have hfront : (splitLiteral cs).1 <+: cs := ⟨_, splitLiteral_append cs⟩
    have hlongest : ∀ q', IsMagnitudeText q' → q' <+: cs →
        q'.length ≤ (splitLiteral cs).1.length := fun q' h => h.length_le
    rw [signedLiteral_of_ne hcs]
    generalize (splitLiteral cs).1 = m at hm hfront hlongest
    refine ⟨m, hfront, .unsigned hm, rfl, ?_, ?_, ?_⟩
    · intro q' hq' hprefix
      cases hq' with
      | unsigned hq' => exact hlongest _ hq' hprefix
      | negated hq' =>
        obtain ⟨rest, rfl⟩ := hprefix
        exact absurd rfl (hcs _)
    · rintro ⟨c, hc, -⟩
      have hne : m ≠ [] := List.ne_nil_of_mem hc
      rw [Double.read?_of_isMagnitudeText hm, Double.readMagnitude?_eq_some hm hne, if_neg hne]
    · exact fun hnone => if_pos (hm.eq_nil hnone)

/-! ### Bytes -/

/-- The bytes of a text in UTF-8. -/
def utf8Bytes (cs : List Char) : List UInt8 :=
  cs.flatMap String.utf8EncodeChar

theorem toList_data_toByteArray (text : String) :
    text.toByteArray.data.toList = utf8Bytes text.toList := by
  rw [← String.utf8Encode_toList, List.utf8Encode, List.toList_data_toByteArray]
  rfl

theorem utf8Bytes_cons (c : Char) (cs : List Char) :
    utf8Bytes (c :: cs) = String.utf8EncodeChar c ++ utf8Bytes cs :=
  List.flatMap_cons

theorem utf8Bytes_append (xs ys : List Char) :
    utf8Bytes (xs ++ ys) = utf8Bytes xs ++ utf8Bytes ys :=
  List.flatMap_append

@[simp] theorem length_utf8Bytes (cs : List Char) : (utf8Bytes cs).length = byteLength cs := by
  induction cs with
  | nil => rfl
  | cons c cs ih =>
    rw [utf8Bytes_cons, List.length_append, String.length_utf8EncodeChar, ih, byteLength]

/-- An ASCII character is one byte. -/
theorem utf8EncodeChar_of_lt {c : Char} (hc : c.toNat < 128) :
    String.utf8EncodeChar c = [UInt8.ofNat c.toNat] :=
  if_pos (Nat.le_of_lt_succ hc)

/-- No byte of any other character is that of an ASCII character. -/
theorem le_of_mem_utf8EncodeChar {c : Char} (hc : 128 ≤ c.toNat) :
    ∀ b ∈ String.utf8EncodeChar c, 128 ≤ b.toNat := by
  intro b hb
  have hlarge : ¬ c.val.toNat ≤ 0x7f := Nat.not_le.mpr hc
  simp only [String.utf8EncodeChar, if_neg hlarge] at hb
  split at hb
  · simp only [List.mem_cons, List.not_mem_nil, or_false] at hb
    rcases hb with rfl | rfl <;> rw [UInt8.toNat_ofNat'] <;> omega
  · split at hb
    · simp only [List.mem_cons, List.not_mem_nil, or_false] at hb
      rcases hb with rfl | rfl | rfl <;> rw [UInt8.toNat_ofNat'] <;> omega
    · simp only [List.mem_cons, List.not_mem_nil, or_false] at hb
      rcases hb with rfl | rfl | rfl | rfl <;> rw [UInt8.toNat_ofNat'] <;> omega

/-- **Constants can be looked for among the bytes.** The bytes of ASCII characters are in front of
the bytes of a text only if the characters are in front of the text. -/
theorem utf8Bytes_prefix_iff {q cs : List Char} (hq : ∀ c ∈ q, c.toNat < 128) :
    utf8Bytes q <+: utf8Bytes cs ↔ q <+: cs := by
  induction q generalizing cs with
  | nil => simp [utf8Bytes]
  | cons c q ih =>
    obtain ⟨hc, hq⟩ := List.forall_mem_cons.mp hq
    rw [utf8Bytes_cons, utf8EncodeChar_of_lt hc, List.singleton_append]
    cases cs with
    | nil => simp [utf8Bytes]
    | cons d ds =>
      rw [utf8Bytes_cons, List.cons_prefix_cons]
      by_cases hd : d.toNat < 128
      · rw [utf8EncodeChar_of_lt hd, List.singleton_append, List.cons_prefix_cons, ih hq]
        refine and_congr_left fun _ => ?_
        rw [← UInt8.toNat_inj, UInt8.toNat_ofNat', UInt8.toNat_ofNat', ← Char.toNat_inj]
        omega
      · have hne : c ≠ d := by
          rintro rfl
          exact hd hc
        obtain ⟨b, bs, hbytes⟩ := List.exists_cons_of_ne_nil (String.utf8EncodeChar_ne_nil (c := d))
        have hb := le_of_mem_utf8EncodeChar (Nat.not_lt.mp hd) b (by simp [hbytes])
        rw [hbytes, List.cons_append, List.cons_prefix_cons]
        refine iff_of_false (fun h => ?_) (fun h => hne h.1)
        rw [← h.1, UInt8.toNat_ofNat'] at hb
        omega

theorem IsConstantText.lt_of_mem {q : List Char} (h : IsConstantText q) :
    ∀ c ∈ q, c.toNat < 128 := by
  have hmagnitude : ∀ {cs}, IsMagnitudeText cs → ∀ c ∈ cs, c.toNat < 128 := by
    intro cs hcs c hc
    obtain hdigit | rfl := hcs.isDigit_or_eq_point hc
    · have hrange : 48 ≤ c.toNat ∧ c.toNat ≤ 57 := Char.isDigit_iff_toNat.mp hdigit
      omega
    · decide
  cases h with
  | unsigned hq => exact hmagnitude hq
  | negated hq => exact List.forall_mem_cons.mpr ⟨by decide, hmagnitude hq⟩

theorem byteLength_eq_length {q : List Char} (hq : ∀ c ∈ q, c.toNat < 128) :
    byteLength q = q.length := by
  induction q with
  | nil => rfl
  | cons c q ih =>
    obtain ⟨hc, hq⟩ := List.forall_mem_cons.mp hq
    rw [byteLength, ih hq, ← String.length_utf8EncodeChar, utf8EncodeChar_of_lt hc,
      List.length_singleton, List.length_cons, Nat.add_comm]

/-! ### Offsets -/

/-- An offset between two characters is the length of what is in front of it. -/
theorem exists_of_suffixAt?_eq_some {offset : ℕ} {cs rest : List Char}
    (h : suffixAt? offset cs = some rest) :
    ∃ before, cs = before ++ rest ∧ byteLength before = offset := by
  fun_induction suffixAt? offset cs with
  | case1 cs => exact ⟨[], Option.some.inj h, rfl⟩
  | case2 => contradiction
  | case3 n c cs hle ih =>
    obtain ⟨before, rfl, hlength⟩ := ih h
    refine ⟨c :: before, rfl, ?_⟩
    rw [byteLength, hlength]
    omega
  | case4 => contradiction

/-- At any other offset there is no byte of an ASCII character. -/
theorem le_of_suffixAt?_eq_none {offset : ℕ} {cs : List Char} (h : suffixAt? offset cs = none) :
    ∀ b ∈ (utf8Bytes cs).drop offset |>.head?, 128 ≤ b.toNat := by
  fun_induction suffixAt? offset cs with
  | case1 => contradiction
  | case2 n => simp [utf8Bytes]
  | case3 n c cs hle ih =>
    rw [utf8Bytes_cons, List.drop_append, String.length_utf8EncodeChar, List.drop_eq_nil_of_le,
      List.nil_append]
    · exact ih h
    · rwa [String.length_utf8EncodeChar]
  | case4 n c cs hlt =>
    -- the offset lies inside a character, which has several bytes
    have hsize := String.length_utf8EncodeChar c
    have hc : 128 ≤ c.toNat := by
      by_contra hc
      rw [utf8EncodeChar_of_lt (Nat.not_le.mp hc), List.length_singleton] at hsize
      omega
    intro b hb
    rw [utf8Bytes_cons, List.drop_append_of_le_length (by omega), List.head?_append,
      Option.or_of_isSome (by rw [List.isSome_head?, ne_eq, List.drop_eq_nil_iff]; omega)] at hb
    exact le_of_mem_utf8EncodeChar hc b (List.mem_of_mem_drop (List.mem_of_mem_head? hb))

/-! ### The constant at an offset -/

/-- The ends of the constants that start at an offset among some bytes. -/
def constantEnds (bytes : List UInt8) (offset : ℕ) : Set ℕ :=
  {stop | ∃ q, IsConstantText q ∧ utf8Bytes q <+: bytes.drop offset ∧
    stop = offset + (utf8Bytes q).length}

/-- Between two characters, the ends of the constants are told by the characters. -/
theorem mem_constantEnds {before rest : List Char} {stop : ℕ} :
    stop ∈ constantEnds (utf8Bytes (before ++ rest)) (byteLength before) ↔
      ∃ q, IsConstantText q ∧ q <+: rest ∧ stop = byteLength before + q.length := by
  refine exists_congr fun q => and_congr_right fun hq => ?_
  rw [utf8Bytes_append, ← length_utf8Bytes before, List.drop_left,
    utf8Bytes_prefix_iff hq.lt_of_mem, length_utf8Bytes q, byteLength_eq_length hq.lt_of_mem]

/-- Anywhere else, only the empty constant is there. -/
theorem mem_constantEnds_of_suffixAt?_eq_none {cs : List Char} {offset stop : ℕ}
    (h : suffixAt? offset cs = none) :
    stop ∈ constantEnds (utf8Bytes cs) offset ↔ stop = offset := by
  constructor
  · rintro ⟨q, hq, ⟨bytes, hbytes⟩, rfl⟩
    cases q with
    | nil => rfl
    | cons c q =>
      have hc := hq.lt_of_mem c (List.mem_cons_self ..)
      rw [utf8Bytes_cons, utf8EncodeChar_of_lt hc] at hbytes
      have hb := le_of_suffixAt?_eq_none h (UInt8.ofNat c.toNat) (by rw [← hbytes]; rfl)
      rw [UInt8.toNat_ofNat'] at hb
      omega
  · rintro rfl
    exact ⟨[], .unsigned (.whole (by simp)), List.nil_prefix, rfl⟩

theorem scanConstant_of_suffixAt?_eq_some {text : String} {offset : ℕ} {rest : List Char}
    (h : suffixAt? offset text.toList = some rest) :
    (scanConstant text offset : R × ℕ) =
      ((signedLiteral rest).1, offset + (signedLiteral rest : R × ℕ).2) := by
  rw [scanConstant, h]

theorem scanConstant_of_suffixAt?_eq_none {text : String} {offset : ℕ}
    (h : suffixAt? offset text.toList = none) :
    (scanConstant text offset : R × ℕ) = (0, offset) := by
  rw [scanConstant, h]

/-- What is true of a value and an end that were scanned at a byte offset of a text. -/
structure IsScannedAt (text : String) (offset : ℕ) (scan : Double × ℕ) : Prop where
  /-- No longer constant starts there. -/
  longest : IsGreatest (constantEnds text.toByteArray.data.toList offset) scan.2
  /-- The bytes in front of the end are a constant. With a digit in it, it lies between characters
  and is read as the value. Without one, the value is zero. -/
  value : ∃ q, IsConstantText q ∧
    utf8Bytes q = (text.toByteArray.data.toList.drop offset).take (scan.2 - offset) ∧
    ((∃ c ∈ q, c.isDigit = true) → Double.read? q = some scan.1 ∧
      ∃ before after, text.toList = before ++ q ++ after ∧ byteLength before = offset ∧
        byteLength (before ++ q) = scan.2) ∧
    ((∀ c ∈ q, c.isDigit = false) → scan.1 = 0)

/-- **Scanning at any offset.** -/
theorem isScannedAt_scanConstant (text : String) (offset : ℕ) :
    IsScannedAt text offset (scanConstant text offset) := by
  cases hsuffix : suffixAt? offset text.toList with
  | none =>
    rw [scanConstant_of_suffixAt?_eq_none hsuffix]
    have hends : ∀ stop,
        stop ∈ constantEnds text.toByteArray.data.toList offset ↔ stop = offset := by
      intro stop
      rw [toList_data_toByteArray]
      exact mem_constantEnds_of_suffixAt?_eq_none hsuffix
    exact {
      longest := ⟨(hends offset).mpr rfl, fun stop h => ((hends stop).mp h).le⟩
      value := ⟨[], .unsigned (.whole (by simp)), by simp [utf8Bytes], by simp, fun _ => rfl⟩ }
  | some rest =>
    rw [scanConstant_of_suffixAt?_eq_some hsuffix]
    obtain ⟨before, htext, rfl⟩ := exists_of_suffixAt?_eq_some hsuffix
    obtain ⟨q, ⟨after, rfl⟩, hq, hlength, hlongest, hread, hzero⟩ := signedLiteral_spec rest
    have hascii := byteLength_eq_length hq.lt_of_mem
    rw [hlength]
    exact {
      longest := by
        rw [toList_data_toByteArray, htext]
        refine ⟨mem_constantEnds.mpr ⟨q, hq, List.prefix_append .., rfl⟩, fun stop h => ?_⟩
        obtain ⟨q', hq', hprefix, rfl⟩ := mem_constantEnds.mp h
        exact Nat.add_le_add_left (hlongest q' hq' hprefix) _
      value := by
        refine ⟨q, hq, ?_, fun hdigit => ⟨hread hdigit, before, after, ?_, rfl, ?_⟩, hzero⟩
        · rw [toList_data_toByteArray, htext, utf8Bytes_append, ← length_utf8Bytes before,
            List.drop_left, utf8Bytes_append, Nat.add_sub_cancel_left, ← hascii,
            ← length_utf8Bytes q, List.take_left]
        · rw [htext, List.append_assoc]
        · rw [byteLength_append, hascii] }

/-- Behind the multiplication sign, which takes two bytes, there is a constant, and inside of it
there is none. -/
example : (scanConstant "×-.5.2" 2 : ℚ × ℕ) = (-0.5, 5) ∧
    (scanConstant "×-.5.2" 1 : ℚ × ℕ) = (0, 1) := by
  decide +kernel

/-! ### The numbers among the tokens -/

theorem symbolKind_ne_number (c : Char) : symbolKind c ≠ .number := by
  unfold symbolKind
  split <;> simp

/-- A number starts with a digit, and is the longest literal that starts with it. -/
theorem splitToken_number {c : Char} {cs : List Char} (h : (splitToken c cs).1 = .number) :
    c.isDigit = true ∧ (splitToken c cs).2.1 = (splitLiteral (c :: cs)).1 := by
  rw [splitToken] at h ⊢
  split
  · next hc => exact ⟨hc, rfl⟩
  · next hc =>
    rw [if_neg hc] at h
    split at h
    · contradiction
    · exact absurd h (symbolKind_ne_number c)

/-- **The numbers among the tokens.** Scanning a text where one of them starts gives the value of
its lexeme, and its end. -/
theorem scanConstant_of_mem_tokenize {text : String} {t : Token} (ht : t ∈ tokenize text)
    (hkind : t.kind = .number) :
    (scanConstant text t.start : R × ℕ) = (literalValue t.lexeme, t.stop) := by
  obtain ⟨p, ys, hp⟩ := List.append_of_mem ht
  obtain ⟨rest, htext, hbefore, -, hrest⟩ := exists_rest_of_tokenize_eq_append hp
  have hsuffix : suffixAt? t.start text.toList = some rest := by
    rw [htext, ← hbefore, suffixAt?_append]
  cases rest with
  | nil =>
    rw [tokensFrom] at hrest
    contradiction
  | cons c cs =>
    rw [tokensFrom, List.cons.injEq] at hrest
    have hsplit : (splitToken c cs).1 = .number := by rw [← hkind, ← hrest.1]
    obtain ⟨hc, hlexeme⟩ := splitToken_number hsplit
    have hlexeme : (splitLiteral (c :: cs)).1 = t.lexeme := by rw [← hlexeme, ← hrest.1]
    have hliteral := isLiteralText_splitLiteral hc cs
    have hne : ∀ ds, c :: cs ≠ '-' :: ds := by
      intro ds h
      rw [(List.cons.inj h).1] at hc
      contradiction
    rw [hlexeme] at hliteral
    have hconstant : IsConstantText t.lexeme := .unsigned hliteral.isMagnitudeText
    have hlength := byteLength_eq_length hconstant.lt_of_mem
    obtain ⟨d, ds, hcons, -⟩ := hliteral.exists_cons
    rw [scanConstant_of_suffixAt?_eq_some hsuffix, signedLiteral_of_ne hne, hlexeme,
      if_neg (by rw [hcons]; simp), Token.stop, hlength]

/-- **Constants and tokens agree about numbers.** Wherever scanning starts, be it inside a character
or past the end, it takes the longest constant that starts there. What it takes lies between
characters and has its value, if there is a digit in it at all. Where a number among the tokens
starts, that is the number, with its value, and there is a digit in it. -/
theorem scanConstant_agrees (text : String) :
    (∀ offset, IsScannedAt text offset (scanConstant text offset)) ∧
      ∀ t ∈ tokenize text, t.kind = .number →
        (scanConstant text t.start : Double × ℕ) = (literalValue t.lexeme, t.stop) ∧
          Double.read? t.lexeme = some (literalValue t.lexeme) ∧
          ∃ c ∈ t.lexeme, c.isDigit = true := by
  refine ⟨isScannedAt_scanConstant text, fun t ht hkind => ?_⟩
  have hdescribes := describes_of_mem_tokensFrom ht (by rw [hkind]; decide)
  rw [hkind] at hdescribes
  cases hdescribes with
  | number hliteral =>
    obtain ⟨c, cs, hcons, hc⟩ := hliteral.exists_cons
    have hne : t.lexeme ≠ [] := lexeme_ne_nil_of_mem_tokensFrom ht
    have hmagnitude := hliteral.isMagnitudeText
    refine ⟨scanConstant_of_mem_tokenize ht hkind, ?_, c, by simp [hcons], hc⟩
    rw [Double.read?_of_isMagnitudeText hmagnitude, Double.readMagnitude?_eq_some hmagnitude hne]

end Univariate
