import Mathlib.Tactic.Ring
import RedisDB.Http.RequestParser

/-!
# The requests the server understands

What a request looks like on the wire, said without a parser: a request line,
header fields whose values may be continued on further lines, and an empty line.
Every value of `RequestText` is one such request, and `RequestText.request` is
what it means.
-/

namespace RedisDB.Http

/-! ## Characters and numbers -/

/-- A character of a method or of a header name. -/
def isToken (c : UInt8) : Bool := isChar c && !isCtl c && !isTspecial c

/-- A character a continuation line can begin with. -/
def isBlank (c : UInt8) : Bool := c == byte ' ' || c == byte '\t'

def crlf : Bytes := [byte '\r', byte '\n']

/-- The number that digits continue from a value. -/
def decimalFrom (value : Int) (digits : Bytes) : Int :=
  digits.foldl (fun value digit => value * 10 + digit.toNat - 48) value

/-- The number that digits denote. -/
def decimal (digits : Bytes) : Int := decimalFrom 0 digits

/-- The largest version number: every sum on the way to it fits an `int`. -/
def versionMax : Int := intMax - 48

@[simp]
theorem decimalFrom_nil (value : Int) : decimalFrom value [] = value := rfl

@[simp]
theorem decimalFrom_cons (value : Int) (digit : UInt8) (digits : Bytes) :
    decimalFrom value (digit :: digits) =
      decimalFrom (value * 10 + digit.toNat - 48) digits := rfl

theorem decimalFrom_append (value : Int) (first second : Bytes) :
    decimalFrom value (first ++ second) = decimalFrom (decimalFrom value first) second :=
  List.foldl_append

theorem isDigit_iff {c : UInt8} : isDigit c = true ↔ 48 ≤ c.toNat ∧ c.toNat ≤ 57 := by
  simp only [isDigit, Bool.and_eq_true, decide_eq_true_eq, UInt8.le_iff_toNat_le]
  exact Iff.rfl

/-- Further digits never make a number smaller. -/
theorem le_decimalFrom {value : Int} {digits : Bytes} (hvalue : 0 ≤ value)
    (hdigits : ∀ c ∈ digits, isDigit c = true) : value ≤ decimalFrom value digits := by
  induction digits generalizing value with
  | nil => exact le_refl value
  | cons digit digits ih =>
      obtain ⟨hdigit, hrest⟩ := List.forall_mem_cons.mp hdigits
      obtain ⟨hlow, -⟩ := isDigit_iff.mp hdigit
      have hnext : value ≤ value * 10 + digit.toNat - 48 := by omega
      exact hnext.trans (ih (hvalue.trans hnext) hrest)

/-- `std::to_string` of a number that is not negative. -/
def toDecimal (n : Nat) : Bytes := (Nat.toDigits 10 n).map byte

theorem toNat_byte {c : Char} (hdigit : c.isDigit = true) : (byte c).toNat = c.toNat := by
  obtain ⟨-, hhigh⟩ := Char.isDigit_iff_toNat.mp hdigit
  have hsmall : c.toNat < 2 ^ 8 := lt_of_le_of_lt hhigh (by decide)
  exact Nat.mod_eq_of_lt hsmall

theorem toDecimal_ne_nil (n : Nat) : toDecimal n ≠ [] := by
  simp [toDecimal, Nat.toDigits_ne_nil]

theorem isDigit_of_mem_toDecimal {n : Nat} {c : UInt8} (hc : c ∈ toDecimal n) :
    isDigit c = true := by
  obtain ⟨digit, hdigit, rfl⟩ := List.mem_map.mp hc
  have hchar := Nat.isDigit_of_mem_toDigits (by decide) (by decide) hdigit
  rw [isDigit_iff, toNat_byte hchar]
  exact Char.isDigit_iff_toNat.mp hchar

/-- A number reads back as itself. -/
theorem decimal_toDecimal (n : Nat) : decimal (toDecimal n) = n := by
  have hread : ∀ (digits : List Char) (value : Nat), (∀ c ∈ digits, c.isDigit = true) →
      decimalFrom value (digits.map byte) = Nat.ofDigitChars 10 digits value := by
    intro digits
    induction digits with
    | nil => simp
    | cons digit digits ih =>
        intro value hdigits
        obtain ⟨hdigit, hrest⟩ := List.forall_mem_cons.mp hdigits
        obtain ⟨hlow, -⟩ := Char.isDigit_iff_toNat.mp hdigit
        have hzero : '0'.toNat = 48 := rfl
        rw [List.map_cons, decimalFrom_cons, toNat_byte hdigit, Nat.ofDigitChars_cons,
          ← ih _ hrest]
        congr 1
        omega
  rw [decimal, toDecimal]
  have hdigits := hread (Nat.toDigits 10 n) 0 fun c hc =>
    Nat.isDigit_of_mem_toDigits (by decide) (by decide) hc
  rw [Nat.ofDigitChars_ten_toDigits] at hdigits
  exact hdigits

/-! ## Header fields -/

/-- A continuation line: the characters before it are skipped, the rest is added
to the value of the header. -/
structure Fold where
  blanks : Bytes
  content : Bytes
  blanks_ne : blanks ≠ []
  blanks_blank : ∀ c ∈ blanks, isBlank c = true
  content_clean : ∀ c ∈ content, isCtl c = false
  content_head : content.head? ≠ some (byte ' ')

def Fold.wire (fold : Fold) : Bytes := fold.blanks ++ fold.content ++ crlf

/-- A header: its name, the value on its own line, and the continuation lines. -/
structure HeaderField where
  name : Bytes
  value : Bytes
  folds : List Fold
  name_ne : name ≠ []
  name_token : ∀ c ∈ name, isToken c = true
  value_clean : ∀ c ∈ value, isCtl c = false

/-- What continuation lines add to a value. -/
def foldedContent (folds : List Fold) : Bytes := folds.flatMap Fold.content

def HeaderField.wire (field : HeaderField) : Bytes :=
  field.name ++ byte ':' :: byte ' ' :: (field.value ++ crlf ++ field.folds.flatMap Fold.wire)

/-- The value with all its lines. -/
def HeaderField.fullValue (field : HeaderField) : Bytes :=
  field.value ++ foldedContent field.folds

/-- A later header replaces an earlier one of the same name. -/
def addFields (headers : Headers) (fields : List HeaderField) : Headers :=
  fields.foldl (fun headers field => headers.insert field.name field.fullValue) headers

@[simp]
theorem addFields_nil (headers : Headers) : addFields headers [] = headers := rfl

@[simp]
theorem addFields_cons (headers : Headers) (field : HeaderField) (fields : List HeaderField) :
    addFields headers (field :: fields) =
      addFields (headers.insert field.name field.fullValue) fields := rfl

/-- Storing a header anew replaces the value stored before. -/
theorem insert_insert (headers : Headers) (name first second : Bytes) :
    (headers.insert name first).insert name second = headers.insert name second := by
  apply Std.ExtTreeMap.ext_getElem?
  intro key
  simp only [Std.ExtTreeMap.getElem?_insert]
  split <;> rfl

/-! ## Requests -/

structure RequestText where
  method : Bytes
  uri : Bytes
  major : Bytes
  minor : Bytes
  fields : List HeaderField
  method_ne : method ≠ []
  method_token : ∀ c ∈ method, isToken c = true
  uri_clean : ∀ c ∈ uri, isCtl c = false ∧ c ≠ byte ' '
  major_ne : major ≠ []
  major_digits : ∀ c ∈ major, isDigit c = true
  major_le : decimal major ≤ versionMax
  minor_ne : minor ≠ []
  minor_digits : ∀ c ∈ minor, isDigit c = true
  minor_le : decimal minor ≤ versionMax

/-- The request line up to the version numbers. -/
def lineStart (method uri : Bytes) : Bytes :=
  method ++ byte ' ' :: (uri ++ byte ' ' :: bytes "HTTP/")

/-- The request as it is sent. -/
def RequestText.wire (text : RequestText) : Bytes :=
  lineStart text.method text.uri ++ (text.major ++ byte '.' :: (text.minor ++ crlf ++
    (text.fields.flatMap HeaderField.wire ++ crlf)))

/-- The request it stands for. -/
def RequestText.request (text : RequestText) : Request :=
  ⟨text.method, text.uri, decimal text.major, decimal text.minor, addFields ∅ text.fields⟩

end RedisDB.Http
