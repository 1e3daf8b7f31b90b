import Mathlib.Tactic.IntervalCases
import RedisDB.Http.RequestParser

/-!
# `request_handler::url_decode`

An escape is read by a formatted extraction from a stream that holds its two
characters.  The extraction skips white space, takes a sign and an `0x`, and
stops at the first character that is no digit, so the function accepts more than
pairs of hexadecimal digits.
-/

namespace RedisDB.Http

/-! ## `is >> std::hex >> value` -/

/-- White space of the default locale. -/
def isSpace (c : UInt8) : Bool := c == 32 || (9 ≤ c && c ≤ 13)

/-- The value of a hexadecimal digit. -/
def hexDigit? (c : UInt8) : Option Nat :=
  if byte '0' ≤ c ∧ c ≤ byte '9' then some (c.toNat - 48)
  else if byte 'a' ≤ c ∧ c ≤ byte 'f' then some (c.toNat - 87)
  else if byte 'A' ≤ c ∧ c ≤ byte 'F' then some (c.toNat - 55)
  else none

/-- A sign is taken off the front of a number. -/
def takeSign : Bytes → Bool × Bytes
  | c :: text => if c = byte '-' then (true, text) else if c = byte '+' then (false, text)
      else (false, c :: text)
  | [] => (false, [])

/-- So is the base. -/
def dropBase : Bytes → Bytes
  | zero :: x :: text =>
      if zero = byte '0' ∧ (x = byte 'x' ∨ x = byte 'X') then text else zero :: x :: text
  | text => text

/-- The digits at the front of a text. -/
def hexDigits : Bytes → List Nat
  | [] => []
  | c :: text =>
      match hexDigit? c with
      | some digit => digit :: hexDigits text
      | none => []

/-- The extraction of an `int` in base 16 from a stream that holds the text, `none`
where it fails.  Two characters never exceed the range of an `int`. -/
def hexExtract (text : Bytes) : Option Int :=
  let (negative, text) := takeSign (text.dropWhile isSpace)
  let digits := hexDigits (dropBase text)
  if digits = [] then none
  else
    let value : Int := digits.foldl (fun value digit => 16 * value + digit) 0
    some (if negative then -value else value)

/-- `static_cast<char>` of an `int`. -/
def toChar (value : Int) : UInt8 := UInt8.ofNat (value % 256).toNat

/-! ## `url_decode` -/

/-- `none` stands for `false`; the text decoded until then is not used by the caller. -/
def urlDecode : Bytes → Option Bytes
  | [] => some []
  | c :: text =>
      if c = byte '%' then
        match text with
        | first :: second :: text => do
            let value ← hexExtract [first, second]
            let out ← urlDecode text
            return toChar value :: out
        | _ => none
      else if c = byte '+' then (urlDecode text).map (byte ' ' :: ·)
      else (urlDecode text).map (c :: ·)



/-- The two characters of an escape and the byte they are taken for. -/
inductive Escape : UInt8 → UInt8 → UInt8 → Prop where
  | pair {first second : UInt8} {high low : Nat} (hfirst : hexDigit? first = some high)
      (hsecond : hexDigit? second = some low) :
      Escape first second (toChar (16 * high + low))
  /-- What follows the first digit is ignored, unless the two are `0x`. -/
  | digit {first second : UInt8} {value : Nat} (hfirst : hexDigit? first = some value)
      (hsecond : hexDigit? second = none)
      (hbase : ¬ (first = byte '0' ∧ (second = byte 'x' ∨ second = byte 'X'))) :
      Escape first second (toChar value)
  | space {first second : UInt8} {value : Nat} (hfirst : isSpace first = true)
      (hsecond : hexDigit? second = some value) : Escape first second (toChar value)
  | plus {second : UInt8} {value : Nat} (hsecond : hexDigit? second = some value) :
      Escape (byte '+') second (toChar value)
  | minus {second : UInt8} {value : Nat} (hsecond : hexDigit? second = some value) :
      Escape (byte '-') second (toChar (-value))

/-! ## What an escape is taken for -/

/-- A hexadecimal digit is no other character the extraction looks for. -/
theorem of_hexDigit? {c : UInt8} {value : Nat} (hdigit : hexDigit? c = some value) :
    value < 16 ∧ isSpace c = false ∧ c ≠ byte '-' ∧ c ≠ byte '+' ∧ c ≠ byte 'x' ∧
      c ≠ byte 'X' := by
  have hbytes : (byte '0').toNat = 48 ∧ (byte '9').toNat = 57 ∧ (byte 'a').toNat = 97 ∧
      (byte 'f').toNat = 102 ∧ (byte 'A').toNat = 65 ∧ (byte 'F').toNat = 70 ∧
      (byte '-').toNat = 45 ∧ (byte '+').toNat = 43 ∧ (byte 'x').toNat = 120 ∧
      (byte 'X').toNat = 88 := by decide
  simp only [isSpace, Bool.or_eq_false_iff, beq_eq_false_iff_ne, Bool.and_eq_false_iff,
    decide_eq_false_iff_not, ne_eq, ← UInt8.toNat_inj, UInt8.le_iff_toNat_le, hexDigit?]
    at hdigit ⊢
  have hconst : (32 : UInt8).toNat = 32 ∧ (9 : UInt8).toNat = 9 ∧ (13 : UInt8).toNat = 13 := by
    decide
  split at hdigit
  · cases hdigit
    omega
  · split at hdigit
    · cases hdigit
      omega
    · split at hdigit
      · cases hdigit
        omega
      · cases hdigit

theorem hexDigits_single (c : UInt8) : hexDigits [c] = (hexDigit? c).toList := by
  cases hdigit : hexDigit? c <;> simp [hexDigits, hdigit]

/-- The extraction when one character is left for the number. -/
theorem hexExtract_single (c : UInt8) :
    hexExtract [c] = (hexDigit? c).map fun value : Nat => (value : Int) := by
  cases hdigit : hexDigit? c with
  | some value =>
      obtain ⟨-, hspace, hminus, hplus, -⟩ := of_hexDigit? hdigit
      simp [hexExtract, hspace, takeSign, hminus, hplus, dropBase, hexDigits_single, hdigit]
  | none =>
      cases hspace : isSpace c with
      | true => simp [hexExtract, hspace, takeSign, dropBase, hexDigits]
      | false =>
          by_cases hminus : c = byte '-'
          · subst hminus
            rfl
          by_cases hplus : c = byte '+'
          · subst hplus
            rfl
          simp [hexExtract, hspace, takeSign, hminus, hplus, dropBase, hexDigits_single, hdigit]

/-- The extraction on the two characters of an escape, by the first of them. -/
theorem hexExtract_pair (first second : UInt8) :
    hexExtract [first, second] =
      if isSpace first then (hexDigit? second).map fun value : Nat => (value : Int)
      else if first = byte '-' then (hexDigit? second).map fun value : Nat => -(value : Int)
      else if first = byte '+' then (hexDigit? second).map fun value : Nat => (value : Int)
      else
        match hexDigit? first, hexDigit? second with
        | some high, some low => some (16 * high + low : Int)
        | some high, none =>
            if first = byte '0' ∧ (second = byte 'x' ∨ second = byte 'X') then none
            else some (high : Int)
        | none, _ => none := by
  cases hspace : isSpace first with
  | true =>
      rw [if_pos rfl, ← hexExtract_single]
      simp [hexExtract, hspace]
  | false =>
      simp only [Bool.false_eq_true, if_false]
      by_cases hminus : first = byte '-'
      · rw [if_pos hminus]
        subst hminus
        cases hsecond : hexDigit? second <;>
          simp [hexExtract, hspace, takeSign, dropBase, hexDigits_single, hsecond]
      rw [if_neg hminus]
      by_cases hplus : first = byte '+'
      · rw [if_pos hplus]
        subst hplus
        cases hsecond : hexDigit? second <;>
          simp [hexExtract, hspace, takeSign, hminus, dropBase, hexDigits_single, hsecond]
      rw [if_neg hplus]
      by_cases hbase : first = byte '0' ∧ (second = byte 'x' ∨ second = byte 'X')
      · obtain ⟨rfl, rfl | rfl⟩ := hbase <;> rfl
      · cases hfirst : hexDigit? first <;> cases hsecond : hexDigit? second <;>
          simp [hexExtract, hspace, takeSign, hminus, hplus, dropBase, hbase, hexDigits, hfirst,
            hsecond]

/-- The escapes that are accepted, with the bytes they are taken for. -/
theorem escape_iff (first second c : UInt8) :
    (∃ value, hexExtract [first, second] = some value ∧ toChar value = c) ↔
      Escape first second c := by
  rw [hexExtract_pair]
  constructor
  · rintro ⟨value, hvalue, rfl⟩
    split at hvalue
    next hspace =>
      obtain ⟨digit, hdigit, rfl⟩ := Option.map_eq_some_iff.mp hvalue
      exact .space hspace hdigit
    split at hvalue
    next hminus =>
      subst hminus
      obtain ⟨digit, hdigit, rfl⟩ := Option.map_eq_some_iff.mp hvalue
      exact .minus hdigit
    split at hvalue
    next hplus =>
      subst hplus
      obtain ⟨digit, hdigit, rfl⟩ := Option.map_eq_some_iff.mp hvalue
      exact .plus hdigit
    split at hvalue
    next hfirst hsecond =>
      cases hvalue
      exact .pair hfirst hsecond
    next hfirst hsecond =>
      split at hvalue
      next => cases hvalue
      next hbase =>
        cases hvalue
        exact .digit hfirst hsecond hbase
    next => cases hvalue
  · intro hescape
    cases hescape with
    | pair hfirst hsecond =>
        obtain ⟨-, hspace, hminus, hplus, -⟩ := of_hexDigit? hfirst
        exact ⟨_, by simp [hspace, hminus, hplus, hfirst, hsecond], rfl⟩
    | digit hfirst hsecond hbase =>
        obtain ⟨-, hspace, hminus, hplus, -⟩ := of_hexDigit? hfirst
        exact ⟨_, by simp [hspace, hminus, hplus, hfirst, hsecond, hbase], rfl⟩
    | space hfirst hsecond => exact ⟨_, by simp [hfirst, hsecond], rfl⟩
    | plus hsecond =>
        have hplus : isSpace (byte '+') = false ∧ byte '+' ≠ byte '-' := by decide
        exact ⟨_, by simp [hplus, hsecond], rfl⟩
    | minus hsecond =>
        have hminus : isSpace (byte '-') = false := by decide
        exact ⟨_, by simp [hminus, hsecond], rfl⟩

/-! ## What a text is decoded to -/

/-- The texts that are decoded, and the bytes they are decoded to. -/
inductive Decodes : Bytes → Bytes → Prop where
  | nil : Decodes [] []
  | plain {c : UInt8} {text out : Bytes} (hpercent : c ≠ byte '%') (hplus : c ≠ byte '+')
      (htext : Decodes text out) : Decodes (c :: text) (c :: out)
  | plus {text out : Bytes} (htext : Decodes text out) :
      Decodes (byte '+' :: text) (byte ' ' :: out)
  | escape {first second c : UInt8} {text out : Bytes} (hescape : Escape first second c)
      (htext : Decodes text out) :
      Decodes (byte '%' :: first :: second :: text) (c :: out)

theorem urlDecode_escape (first second : UInt8) (text : Bytes) :
    urlDecode (byte '%' :: first :: second :: text) =
      (hexExtract [first, second]).bind fun value =>
        (urlDecode text).map (toChar value :: ·) := by
  rw [urlDecode, if_pos rfl]
  cases hexExtract [first, second] with
  | none => rfl
  | some value => cases urlDecode text <;> rfl

theorem urlDecode_plus (text : Bytes) :
    urlDecode (byte '+' :: text) = (urlDecode text).map (byte ' ' :: ·) := by
  have hpercent : byte '+' ≠ byte '%' := by decide
  rcases text with _ | ⟨_, _ | ⟨_, _⟩⟩ <;> simp [urlDecode, hpercent]

theorem urlDecode_plain {c : UInt8} (hpercent : c ≠ byte '%') (hplus : c ≠ byte '+')
    (text : Bytes) : urlDecode (c :: text) = (urlDecode text).map (c :: ·) := by
  rcases text with _ | ⟨_, _ | ⟨_, _⟩⟩ <;> simp [urlDecode, hpercent, hplus]

theorem urlDecode_of_decodes {text out : Bytes} (hdecodes : Decodes text out) :
    urlDecode text = some out := by
  induction hdecodes with
  | nil => rfl
  | plain hpercent hplus _ ih => rw [urlDecode_plain hpercent hplus, ih, Option.map_some]
  | plus _ ih => rw [urlDecode_plus, ih, Option.map_some]
  | @escape first second c text out hescape _ ih =>
      obtain ⟨value, hvalue, rfl⟩ := (escape_iff first second c).mpr hescape
      rw [urlDecode_escape, hvalue, Option.bind_some, ih, Option.map_some]

theorem decodes_of_urlDecode {text out : Bytes} (hdecode : urlDecode text = some out) :
    Decodes text out := by
  -- an escape takes three characters at once
  induction hlength : text.length using Nat.strong_induction_on generalizing text out with
  | _ length ih =>
      cases text with
      | nil =>
          cases hdecode
          exact .nil
      | cons c text =>
          by_cases hpercent : c = byte '%'
          · subst hpercent
            rcases text with _ | ⟨first, _ | ⟨second, text⟩⟩
            · cases hdecode
            · cases hdecode
            · rw [urlDecode_escape] at hdecode
              obtain ⟨value, hvalue, htail⟩ := Option.bind_eq_some_iff.mp hdecode
              obtain ⟨rest, hrest, rfl⟩ := Option.map_eq_some_iff.mp htail
              have hshorter : text.length < length := by
                rw [← hlength]
                simp
                omega
              exact .escape ((escape_iff first second _).mp ⟨value, hvalue, rfl⟩)
                (ih _ hshorter hrest rfl)
          · have hshorter : text.length < length := by
              rw [← hlength]
              simp
            by_cases hplus : c = byte '+'
            · subst hplus
              rw [urlDecode_plus] at hdecode
              obtain ⟨rest, hrest, rfl⟩ := Option.map_eq_some_iff.mp hdecode
              exact .plus (ih _ hshorter hrest rfl)
            · rw [urlDecode_plain hpercent hplus] at hdecode
              obtain ⟨rest, hrest, rfl⟩ := Option.map_eq_some_iff.mp hdecode
              exact .plain hpercent hplus (ih _ hshorter hrest rfl)

/-- The texts that `url_decode` accepts, with what it makes of them. -/
theorem urlDecode_eq_some_iff (text out : Bytes) :
    urlDecode text = some out ↔ Decodes text out := by
  constructor
  · exact decodes_of_urlDecode
  · exact urlDecode_of_decodes

/-! ## Percent-encoding -/

/-- A hexadecimal digit of either case. -/
def hexChar (upper : Bool) (digit : Nat) : UInt8 :=
  UInt8.ofNat (if digit < 10 then 48 + digit else if upper then 55 + digit else 87 + digit)

/-- How a byte is written in a URL: as itself, as `+`, or as an escape with digits
of the given cases. -/
inductive Spelling where
  | plain
  | plus
  | escape (upperHigh upperLow : Bool)

/-- The spellings a byte admits. -/
def Spelling.Admits : Spelling → UInt8 → Prop
  | .plain, c => c ≠ byte '%' ∧ c ≠ byte '+'
  | .plus, c => c = byte ' '
  | .escape _ _, _ => True

instance Spelling.decidableAdmits : (spelling : Spelling) → (c : UInt8) →
    Decidable (spelling.Admits c)
  | .plain, c => inferInstanceAs (Decidable (c ≠ byte '%' ∧ c ≠ byte '+'))
  | .plus, c => inferInstanceAs (Decidable (c = byte ' '))
  | .escape _ _, _ => inferInstanceAs (Decidable True)

def Spelling.encode : Spelling → UInt8 → Bytes
  | .plain, c => [c]
  | .plus, _ => [byte '+']
  | .escape upperHigh upperLow, c =>
      [byte '%', hexChar upperHigh (c.toNat / 16), hexChar upperLow (c.toNat % 16)]

/-- A text written with a spelling for each byte. -/
def urlEncode (spelled : List (UInt8 × Spelling)) : Bytes :=
  spelled.flatMap fun letter => letter.2.encode letter.1

theorem hexDigit?_hexChar (upper : Bool) {digit : Nat} (hdigit : digit < 16) :
    hexDigit? (hexChar upper digit) = some digit := by
  cases upper <;> interval_cases digit <;> rfl

theorem toChar_toNat (c : UInt8) :
    toChar (16 * (c.toNat / 16 : Nat) + (c.toNat % 16 : Nat)) = c := by
  have hvalue : (16 * (c.toNat / 16 : Nat) + (c.toNat % 16 : Nat) : Int) % 256 = c.toNat := by
    have hsmall := c.toNat_lt
    omega
  rw [toChar, hvalue, Int.toNat_natCast, UInt8.ofNat_toNat]

/-- One written byte in front of a text that is decoded. -/
theorem Spelling.decodes {spelling : Spelling} {c : UInt8} (hadmits : spelling.Admits c)
    {text out : Bytes} (htext : Decodes text out) :
    Decodes (spelling.encode c ++ text) (c :: out) := by
  cases spelling with
  | plain => exact .plain hadmits.1 hadmits.2 htext
  | plus =>
      obtain rfl : c = byte ' ' := hadmits
      exact .plus htext
  | escape upperHigh upperLow =>
      have hlow : c.toNat % 16 < 16 := Nat.mod_lt _ (by decide)
      have hhigh : c.toNat / 16 < 16 := by
        have hsmall := c.toNat_lt
        omega
      have hescape := Escape.pair (hexDigit?_hexChar upperHigh hhigh)
        (hexDigit?_hexChar upperLow hlow)
      rw [toChar_toNat] at hescape
      exact .escape hescape htext

theorem decodes_urlEncode {spelled : List (UInt8 × Spelling)}
    (hadmits : ∀ letter ∈ spelled, letter.2.Admits letter.1) :
    Decodes (urlEncode spelled) (spelled.map Prod.fst) := by
  induction spelled with
  | nil => exact .nil
  | cons letter spelled ih =>
      obtain ⟨hletter, hrest⟩ := List.forall_mem_cons.mp hadmits
      exact Spelling.decodes hletter (ih hrest)

/-- Whatever spellings a text is written with, it is decoded as it was. -/
theorem urlDecode_urlEncode {spelled : List (UInt8 × Spelling)}
    (hadmits : ∀ letter ∈ spelled, letter.2.Admits letter.1) :
    urlDecode (urlEncode spelled) = some (spelled.map Prod.fst) :=
  urlDecode_of_decodes (decodes_urlEncode hadmits)

end RedisDB.Http
