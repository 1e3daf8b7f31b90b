import Std.Data.ExtTreeMap
import Mathlib.Tactic.Ring
import RedisDB.Library.Consumer

/-!
# `request_parser`

The parser of the HTTP server takes one `char` at a time and keeps its state
between calls.  A `char` is a byte here: from 128 on it is negative where `char`
is signed, and either way it is neither an HTTP character nor a control
character.  `std::map` is the extensional ordered map of the standard library,
ordered as `std::string` compares, byte by byte.
-/

namespace RedisDB.Http

open RedisDB.Library

/-- `std::string`. -/
abbrev Bytes := List UInt8

/-- A character of the source. -/
def byte (c : Char) : UInt8 := c.toUInt8

/-- A string of the source. -/
def bytes (text : String) : Bytes := text.toList.map byte

/-- `std::map<std::string, std::string>`. -/
abbrev Headers := Std.ExtTreeMap Bytes Bytes

instance : DecidableEq Headers := inferInstance

/-! ## `request` -/

structure Request where
  method : Bytes
  uri : Bytes
  httpVersionMajor : Int
  httpVersionMinor : Int
  headers : Headers
  deriving DecidableEq

/-- A default-initialised `request`; its two numbers are whatever the memory held. -/
def Request.fresh (httpVersionMajor httpVersionMinor : Int) : Request :=
  ⟨[], [], httpVersionMajor, httpVersionMinor, ∅⟩

/-! ## Character classes -/

def isChar (c : UInt8) : Bool := c ≤ 127

def isCtl (c : UInt8) : Bool := c ≤ 31 || c == 127

def isTspecial (c : UInt8) : Bool :=
  c ∈ [byte '(', byte ')', byte '<', byte '>', byte '@', byte ',', byte ';', byte ':',
    byte '\\', byte '"', byte '/', byte '[', byte ']', byte '?', byte '=', byte '\x7b',
    byte '\x7d', byte ' ', byte '\t']

def isDigit (c : UInt8) : Bool := byte '0' ≤ c && c ≤ byte '9'

/-! ## The state machine -/

/-- `request_parser::result_type`. -/
inductive ResultType where
  | good
  | bad
  | indeterminate
  deriving DecidableEq, Repr

/-- `request_parser::state`. -/
inductive State where
  | methodStart
  | method
  | uri
  | httpVersionH
  | httpVersionT1
  | httpVersionT2
  | httpVersionP
  | httpVersionSlash
  | httpVersionMajorStart
  | httpVersionMajor
  | httpVersionMinorStart
  | httpVersionMinor
  | expectingNewline1
  | headerLineStart
  | headerLws
  | headerName
  | spaceBeforeHeaderValue
  | headerValue
  | expectingNewline2
  | expectingNewline3
  deriving DecidableEq, Repr

structure RequestParser where
  state : State
  headerName : Bytes
  headerValue : Bytes
  deriving DecidableEq

/-- The constructor. -/
def RequestParser.new : RequestParser := ⟨.methodStart, [], []⟩

/-- The largest `int`. -/
def intMax : Int := 2 ^ 31 - 1

/-- `version * 10 + input - '0'` on a version that is no negative number; `none`
where the sum overflows an `int`, which is undefined.  The subtraction comes last. -/
def pushDigit (version : Int) (input : UInt8) : Option Int :=
  if version * 10 + input.toNat ≤ intMax then some (version * 10 + input.toNat - 48) else none

/-- `request_parser::consume`; `none` where the behaviour is undefined. -/
def consume (parser : RequestParser) (req : Request) (input : UInt8) :
    Option (ResultType × RequestParser × Request) :=
  match parser.state with
  | .methodStart =>
      if !isChar input || isCtl input || isTspecial input then some (.bad, parser, req)
      else some (.indeterminate, { parser with state := .method },
        { req with method := req.method ++ [input] })
  | .method =>
      if input = byte ' ' then some (.indeterminate, { parser with state := .uri }, req)
      else if !isChar input || isCtl input || isTspecial input then some (.bad, parser, req)
      else some (.indeterminate, parser, { req with method := req.method ++ [input] })
  | .uri =>
      if input = byte ' ' then
        some (.indeterminate, { parser with state := .httpVersionH }, req)
      else if isCtl input then some (.bad, parser, req)
      else some (.indeterminate, parser, { req with uri := req.uri ++ [input] })
  | .httpVersionH =>
      if input = byte 'H' then
        some (.indeterminate, { parser with state := .httpVersionT1 }, req)
      else some (.bad, parser, req)
  | .httpVersionT1 =>
      if input = byte 'T' then
        some (.indeterminate, { parser with state := .httpVersionT2 }, req)
      else some (.bad, parser, req)
  | .httpVersionT2 =>
      if input = byte 'T' then
        some (.indeterminate, { parser with state := .httpVersionP }, req)
      else some (.bad, parser, req)
  | .httpVersionP =>
      if input = byte 'P' then
        some (.indeterminate, { parser with state := .httpVersionSlash }, req)
      else some (.bad, parser, req)
  | .httpVersionSlash =>
      if input = byte '/' then
        some (.indeterminate, { parser with state := .httpVersionMajorStart },
          { req with httpVersionMajor := 0, httpVersionMinor := 0 })
      else some (.bad, parser, req)
  | .httpVersionMajorStart =>
      if isDigit input then
        (pushDigit req.httpVersionMajor input).map fun major =>
          (.indeterminate, { parser with state := .httpVersionMajor },
            { req with httpVersionMajor := major })
      else some (.bad, parser, req)
  | .httpVersionMajor =>
      if input = byte '.' then
        some (.indeterminate, { parser with state := .httpVersionMinorStart }, req)
      else if isDigit input then
        (pushDigit req.httpVersionMajor input).map fun major =>
          (.indeterminate, parser, { req with httpVersionMajor := major })
      else some (.bad, parser, req)
  | .httpVersionMinorStart =>
      if isDigit input then
        (pushDigit req.httpVersionMinor input).map fun minor =>
          (.indeterminate, { parser with state := .httpVersionMinor },
            { req with httpVersionMinor := minor })
      else some (.bad, parser, req)
  | .httpVersionMinor =>
      if input = byte '\r' then
        some (.indeterminate, { parser with state := .expectingNewline1 }, req)
      else if isDigit input then
        (pushDigit req.httpVersionMinor input).map fun minor =>
          (.indeterminate, parser, { req with httpVersionMinor := minor })
      else some (.bad, parser, req)
  | .expectingNewline1 =>
      if input = byte '\n' then
        some (.indeterminate, { parser with state := .headerLineStart }, req)
      else some (.bad, parser, req)
  | .headerLineStart =>
      if input = byte '\r' then
        some (.indeterminate, { parser with state := .expectingNewline3 }, req)
      else if !req.headers.isEmpty && (input == byte ' ' || input == byte '\t') then
        some (.indeterminate, { parser with state := .headerLws }, req)
      else if !isChar input || isCtl input || isTspecial input then some (.bad, parser, req)
      else some (.indeterminate, ⟨.headerName, [input], []⟩, req)
  | .headerLws =>
      if input = byte '\r' then
        some (.indeterminate, { parser with state := .expectingNewline2 }, req)
      else if input = byte ' ' || input = byte '\t' then some (.indeterminate, parser, req)
      else if isCtl input then some (.bad, parser, req)
      else some (.indeterminate,
        { parser with state := .headerValue, headerValue := parser.headerValue ++ [input] }, req)
  | .headerName =>
      if input = byte ':' then
        some (.indeterminate, { parser with state := .spaceBeforeHeaderValue }, req)
      else if !isChar input || isCtl input || isTspecial input then some (.bad, parser, req)
      else some (.indeterminate,
        { parser with headerName := parser.headerName ++ [input] }, req)
  | .spaceBeforeHeaderValue =>
      if input = byte ' ' then
        some (.indeterminate, { parser with state := .headerValue }, req)
      else some (.bad, parser, req)
  | .headerValue =>
      if input = byte '\r' then
        some (.indeterminate, { parser with state := .expectingNewline2 },
          { req with headers := req.headers.insert parser.headerName parser.headerValue })
      else if isCtl input then some (.bad, parser, req)
      else some (.indeterminate,
        { parser with headerValue := parser.headerValue ++ [input] }, req)
  | .expectingNewline2 =>
      if input = byte '\n' then
        some (.indeterminate, { parser with state := .headerLineStart }, req)
      else some (.bad, parser, req)
  | .expectingNewline3 =>
      if input = byte '\n' then some (.good, parser, req) else some (.bad, parser, req)

/-- `request_parser::parse`: the result, what is left of the input, and the parser
and the request afterwards. -/
def parse (parser : RequestParser) (req : Request) :
    Bytes → Option (ResultType × Bytes × RequestParser × Request)
  | [] => some (.indeterminate, [], parser, req)
  | input :: rest => do
      let (result, parser, req) ← consume parser req input
      if result = .good ∨ result = .bad then return (result, rest, parser, req)
      else parse parser req rest

/-! ## The parser as an incremental consumer -/

/-- How a parse can end. -/
inductive Verdict where
  | good (req : Request)
  | bad
  | overflow

/-- The verdict accepts the input, as the given request. -/
def Verdict.Good (verdict : Verdict) : Prop := ∃ req, verdict = .good req

theorem Verdict.good_ne_bad (req : Request) : Verdict.good req ≠ .bad := nofun

theorem Verdict.overflow_ne_bad : Verdict.overflow ≠ .bad := nofun

/-- `consume` on the parser and the request together. -/
def requestConsumer : Consumer (RequestParser × Request) UInt8 Verdict where
  step config input :=
    match consume config.1 config.2 input with
    | some (.indeterminate, parser, req) => .more (parser, req)
    | some (.good, _, req) => .ended (.good req)
    | some (.bad, _, _) => .ended .bad
    | none => .ended .overflow

/-- `parse` answers what feeding the consumer ends with. -/
theorem parse_spec (parser : RequestParser) (req : Request) (input : Bytes) :
    match requestConsumer.feed (parser, req) input with
    | .more (parser', req') => parse parser req input = some (.indeterminate, [], parser', req')
    | .ended (.good req', rest) =>
        ∃ parser', parse parser req input = some (.good, rest, parser', req')
    | .ended (.bad, rest) =>
        ∃ parser' req', parse parser req input = some (.bad, rest, parser', req')
    | .ended (.overflow, _) => parse parser req input = none := by
  induction input generalizing parser req with
  | nil => rfl
  | cons first input ih =>
      rw [Consumer.feed, parse]
      unfold requestConsumer
      dsimp only
      cases hconsume : consume parser req first with
      | none => rfl
      | some outcome =>
          obtain ⟨result, parser', req'⟩ := outcome
          cases result with
          | good => exact ⟨parser', rfl⟩
          | bad => exact ⟨parser', req', rfl⟩
          | indeterminate => exact ih parser' req'

theorem parse_good_iff {parser : RequestParser} {req req' : Request} {input rest : Bytes} :
    (∃ parser', parse parser req input = some (.good, rest, parser', req')) ↔
      requestConsumer.feed (parser, req) input = .ended (.good req', rest) := by
  have hspec := parse_spec parser req input
  constructor
  · rintro ⟨parser', hparse⟩
    split at hspec <;> simp_all
  · intro hfeed
    rw [hfeed] at hspec
    exact hspec

theorem parse_bad_iff {parser : RequestParser} {req : Request} {input rest : Bytes} :
    (∃ parser' req', parse parser req input = some (.bad, rest, parser', req')) ↔
      requestConsumer.feed (parser, req) input = .ended (.bad, rest) := by
  have hspec := parse_spec parser req input
  constructor
  · rintro ⟨parser', req', hparse⟩
    split at hspec <;> simp_all
  · intro hfeed
    rw [hfeed] at hspec
    exact hspec

theorem parse_indeterminate_iff {parser parser' : RequestParser} {req req' : Request}
    {input rest : Bytes} :
    parse parser req input = some (.indeterminate, rest, parser', req') ↔
      rest = [] ∧ requestConsumer.feed (parser, req) input = .more (parser', req') := by
  have hspec := parse_spec parser req input
  constructor
  · intro hparse
    split at hspec <;> simp_all
  · rintro ⟨rfl, hfeed⟩
    rw [hfeed] at hspec
    exact hspec

theorem parse_eq_none_iff {parser : RequestParser} {req : Request} {input : Bytes} :
    parse parser req input = none ↔
      ∃ rest, requestConsumer.feed (parser, req) input = .ended (.overflow, rest) := by
  have hspec := parse_spec parser req input
  constructor
  · intro hparse
    split at hspec <;> simp_all
  · rintro ⟨rest, hfeed⟩
    rw [hfeed] at hspec
    exact hspec

end RedisDB.Http
