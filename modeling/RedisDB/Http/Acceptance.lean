import RedisDB.Http.HeaderLines

/-!
# What the parser accepts, and where it stops

The parser accepts exactly the texts of the grammar, as the requests they stand
for.  It goes on reading exactly as long as the input can still become one of
them, so a request is refused at its first wrong character; and its behaviour is
undefined exactly on version numbers above `versionMax`.
-/

namespace RedisDB.Http

open RedisDB.Library RedisDB.Library.Consumer

/-! ## Header blocks -/

/-- A block of header fields and the empty line are read as the fields' full values. -/
theorem feed_fields (name value : Bytes) (req : Request) (fields : List HeaderField)
    (rest : Bytes) :
    requestConsumer.feed (⟨.headerLineStart, name, value⟩, req)
        (fields.flatMap HeaderField.wire ++ (crlf ++ rest)) =
      .ended (.good { req with headers := addFields req.headers fields }, rest) := by
  induction fields generalizing name value req with
  | nil => exact feed_emptyLine name value req rest
  | cons field fields ih =>
      have hwire : (field :: fields).flatMap HeaderField.wire ++ (crlf ++ rest) =
          field.name ++ byte ':' :: byte ' ' :: (field.value ++ (crlf ++
            (field.folds.flatMap Fold.wire ++
              (fields.flatMap HeaderField.wire ++ (crlf ++ rest))))) := by
        simp [HeaderField.wire]
      rw [hwire, feed_field, feed_folds (req.holds_addHeader _ _) (req.isEmpty_addHeader _ _),
        ih, addFolds_addHeader]
      rfl

/-- An accepted block consists of continuations of the header held and of fields. -/
theorem lines_accepted {name value : Bytes} {req result : Request} {input rest : Bytes}
    (hholds : Holds req name value)
    (hfeed : requestConsumer.feed (⟨.headerLineStart, name, value⟩, req) input =
      .ended (.good result, rest)) :
    ∃ folds : List Fold, ∃ fields : List HeaderField,
      (folds ≠ [] → req.headers.isEmpty = false) ∧
      input = folds.flatMap Fold.wire ++
        (fields.flatMap HeaderField.wire ++ (crlf ++ rest)) ∧
      result = { req with
        headers := addFields (addFolds req name value folds).headers fields } := by
  -- every line takes something off the input
  induction hlength : input.length using Nat.strong_induction_on
    generalizing name value req input with
  | _ length ih =>
      rcases line_accepted hholds hfeed with ⟨rfl, rfl⟩ | ⟨hfull, fold, tail, rfl, htail⟩ |
        ⟨field, text, tail, rfl, hne, htoken, hclean, htail⟩
      · exact ⟨[], [], nofun, rfl, rfl⟩
      · have hshorter : tail.length < length := by
          rw [← hlength, Fold.wire]
          simp [crlf]
          omega
        obtain ⟨folds, fields, -, rfl, hresult⟩ :=
          ih _ hshorter (req.holds_addHeader _ _) htail rfl
        exact ⟨fold :: folds, fields, fun _ => hfull, by simp, hresult⟩
      · have hshorter : tail.length < length := by
          rw [← hlength]
          simp [crlf]
          omega
        obtain ⟨folds, fields, -, rfl, hresult⟩ :=
          ih _ hshorter (req.holds_addHeader _ _) htail rfl
        refine ⟨[], ⟨field, text, folds, hne, htoken, hclean⟩ :: fields, nofun, ?_, ?_⟩
        · simp [HeaderField.wire]
        · rw [hresult, addFolds_addHeader]
          rfl

/-! ## Requests -/

/-- A request text is read as the request it stands for, and not further. -/
theorem feed_wire (major minor : Int) (text : RequestText) (rest : Bytes) :
    requestConsumer.feed (start major minor) (text.wire ++ rest) =
      .ended (.good text.request, rest) := by
  have huri : ∀ c ∈ text.uri, isUriChar c = true := by
    intro c hc
    simpa [isUriChar] using text.uri_clean c hc
  rw [feed_start_iff (Verdict.good_ne_bad _)]
  refine ⟨text.method, text.uri, _, List.append_assoc _ _ _, text.method_ne, text.method_token,
    huri, ?_⟩
  rw [(major_digits _ rfl).feed_good_iff]
  refine ⟨text.major, text.minor ++ crlf ++ (text.fields.flatMap HeaderField.wire ++ crlf) ++ rest,
    by simp, text.major_ne, text.major_digits, text.major_le, ?_⟩
  rw [(minor_digits _ rfl).feed_good_iff]
  refine ⟨text.minor, byte '\n' :: (text.fields.flatMap HeaderField.wire ++ (crlf ++ rest)),
    by simp [crlf], text.minor_ne, text.minor_digits, text.minor_le, ?_⟩
  rw [literal_iff _ (fun _ => rfl) (Verdict.good_ne_bad _)]
  exact ⟨_, rfl, feed_fields _ _ _ _ _⟩

theorem reads_wire (major minor : Int) (text : RequestText) :
    requestConsumer.Reads (start major minor) text.wire (.good text.request) := by
  have hfeed := feed_wire major minor text []
  rwa [List.append_nil] at hfeed

/-- What is accepted is a request text. -/
theorem wire_of_feed {major minor : Int} {input rest : Bytes} {req : Request}
    (hfeed : requestConsumer.feed (start major minor) input = .ended (.good req, rest)) :
    ∃ text : RequestText, input = text.wire ++ rest ∧ req = text.request := by
  obtain ⟨method, uri, _, rfl, hmethod, htoken, huri, hfeed⟩ :=
    (feed_start_iff (Verdict.good_ne_bad req)).mp hfeed
  obtain ⟨majors, _, rfl, hmajor, hmajors, hmajorLe, hfeed⟩ :=
    (major_digits _ rfl).feed_good_iff.mp hfeed
  obtain ⟨minors, _, rfl, hminor, hminors, hminorLe, hfeed⟩ :=
    (minor_digits _ rfl).feed_good_iff.mp hfeed
  obtain ⟨_, rfl, hfeed⟩ :=
    (literal_iff _ (fun _ => rfl) (Verdict.good_ne_bad req)).mp hfeed
  have hholds : Holds ⟨method, uri, decimal majors, decimal minors, ∅⟩ [] [] :=
    fun hfull => absurd hfull (by simp)
  obtain ⟨folds, fields, hfolds, rfl, rfl⟩ := lines_accepted hholds hfeed
  have hnone : folds = [] := by
    by_contra hne
    exact absurd (hfolds hne) (by simp)
  subst hnone
  refine ⟨⟨method, uri, majors, minors, fields, hmethod, htoken, ?_, hmajor, hmajors, hmajorLe,
    hminor, hminors, hminorLe⟩, ?_, rfl⟩
  · intro c hc
    simpa [isUriChar] using huri c hc
  · simp [RequestText.wire, crlf]

theorem feed_good_iff {major minor : Int} {input rest : Bytes} {req : Request} :
    requestConsumer.feed (start major minor) input = .ended (.good req, rest) ↔
      ∃ text : RequestText, input = text.wire ++ rest ∧ req = text.request := by
  constructor
  · exact wire_of_feed
  · rintro ⟨text, rfl, rfl⟩
    exact feed_wire major minor text rest

/-- The parser accepts exactly the request texts: it answers `good` behind one, with the
request it stands for, whatever the version numbers held before. -/
theorem parse_accepts_iff (major minor : Int) (input rest : Bytes) (req : Request) :
    (∃ parser, parse .new (.fresh major minor) input = some (.good, rest, parser, req)) ↔
      ∃ text : RequestText, input = text.wire ++ rest ∧ req = text.request := by
  rw [parse_good_iff]
  exact feed_good_iff

/-! ## How far the parser reads -/

/-- The version numbers are zero where the parser is about to read them. -/
def VersionsReset (config : RequestParser × Request) : Prop :=
  (config.1.state = .httpVersionMajorStart → config.2.httpVersionMajor = 0) ∧
  (config.1.state ∈ [State.httpVersionMajorStart, .httpVersionMajor, .httpVersionMinorStart] →
    config.2.httpVersionMinor = 0)

theorem versionsReset_step (config : RequestParser × Request) (input : UInt8)
    (next : RequestParser × Request) (hreset : VersionsReset config)
    (hstep : requestConsumer.step config input = .more next) : VersionsReset next := by
  obtain ⟨⟨state, name, value⟩, req⟩ := config
  unfold VersionsReset at hreset ⊢
  cases state <;> simp only [requestConsumer, consume] at hstep <;>
    grind [Option.map_eq_some_iff]

/-- A text that completes what was read in a state to a request. -/
def completion : State → Bytes
  | .methodStart => bytes "G  HTTP/0.0\r\n\r\n"
  | .method => bytes "  HTTP/0.0\r\n\r\n"
  | .uri => bytes " HTTP/0.0\r\n\r\n"
  | .httpVersionH => bytes "HTTP/0.0\r\n\r\n"
  | .httpVersionT1 => bytes "TTP/0.0\r\n\r\n"
  | .httpVersionT2 => bytes "TP/0.0\r\n\r\n"
  | .httpVersionP => bytes "P/0.0\r\n\r\n"
  | .httpVersionSlash => bytes "/0.0\r\n\r\n"
  | .httpVersionMajorStart => bytes "0.0\r\n\r\n"
  | .httpVersionMajor => bytes ".0\r\n\r\n"
  | .httpVersionMinorStart => bytes "0\r\n\r\n"
  | .httpVersionMinor => bytes "\r\n\r\n"
  | .expectingNewline1 => bytes "\n\r\n"
  | .headerLineStart => bytes "\r\n"
  | .headerLws => bytes "\r\n\r\n"
  | .headerName => bytes ": \r\n\r\n"
  | .spaceBeforeHeaderValue => bytes " \r\n\r\n"
  | .headerValue => bytes "\r\n\r\n"
  | .expectingNewline2 => bytes "\n\r\n"
  | .expectingNewline3 => bytes "\n"

theorem feed_completion {config : RequestParser × Request} (hreset : VersionsReset config) :
    ∃ req, requestConsumer.Reads config (completion config.1.state) (.good req) := by
  obtain ⟨⟨state, name, value⟩, ⟨method, uri, major, minor, headers⟩⟩ := config
  unfold VersionsReset at hreset
  cases state with
  | httpVersionMajorStart =>
      obtain ⟨rfl, rfl⟩ : major = 0 ∧ minor = 0 := by simpa using hreset
      exact ⟨_, rfl⟩
  | httpVersionMajor =>
      obtain rfl : minor = 0 := by simpa using hreset
      exact ⟨_, rfl⟩
  | httpVersionMinorStart =>
      obtain rfl : minor = 0 := by simpa using hreset
      exact ⟨_, rfl⟩
  | _ => exact ⟨_, rfl⟩

/-- Whatever the parser goes on from can still become a request. -/
theorem completable (major minor : Int) :
    requestConsumer.Completable (start major minor) Verdict.Good := by
  intro read next hread
  have hstart : VersionsReset (start major minor) := by
    simp [VersionsReset, start, RequestParser.new]
  obtain ⟨req, hreq⟩ := feed_completion (feed_invariant versionsReset_step hstart hread)
  exact ⟨_, _, hreq, req, rfl⟩

theorem begins_iff (major minor : Int) {word : Bytes} :
    requestConsumer.Begins (start major minor) Verdict.Good word ↔
      ∃ text : RequestText, word <+: text.wire := by
  constructor
  · rintro ⟨tail, _, hreads, req, rfl⟩
    obtain ⟨text, hwire, -⟩ := wire_of_feed hreads
    exact ⟨text, tail, by simpa using hwire⟩
  · rintro ⟨text, tail, hwire⟩
    refine ⟨tail, .good text.request, ?_, text.request, rfl⟩
    rw [hwire]
    exact reads_wire major minor text

theorem properlyBegins_iff (major minor : Int) {word : Bytes} :
    requestConsumer.ProperlyBegins (start major minor) Verdict.Good word ↔
      ∃ text : RequestText, word <+: text.wire ∧ word ≠ text.wire := by
  constructor
  · rintro ⟨tail, _, hne, hreads, req, rfl⟩
    obtain ⟨text, hwire, -⟩ := wire_of_feed hreads
    rw [List.append_nil] at hwire
    refine ⟨text, ⟨tail, hwire⟩, fun heq => hne ?_⟩
    simpa [← heq] using hwire
  · rintro ⟨text, ⟨tail, hwire⟩, hne⟩
    refine ⟨tail, .good text.request, ?_, ?_, text.request, rfl⟩
    · rintro rfl
      exact hne (by simpa using hwire)
    · rw [hwire]
      exact reads_wire major minor text

/-- The parser asks for more exactly as long as the input is the beginning of a request text. -/
theorem parse_indeterminate_iff_begins (major minor : Int) (input : Bytes) :
    (∃ parser req, parse .new (.fresh major minor) input =
        some (.indeterminate, [], parser, req)) ↔
      ∃ text : RequestText, input <+: text.wire ∧ input ≠ text.wire := by
  rw [← properlyBegins_iff major minor, ← (completable major minor).more_iff]
  constructor
  · rintro ⟨parser, req, hparse⟩
    exact ⟨_, (parse_indeterminate_iff.mp hparse).2⟩
  · rintro ⟨⟨parser, req⟩, hmore⟩
    exact ⟨parser, req, parse_indeterminate_iff.mpr ⟨rfl, hmore⟩⟩

/-! ## Version numbers that are too large -/

/-- The text up to the first digit of a version number. -/
inductive VersionLead : Bytes → Prop where
  | major {method uri : Bytes} (hne : method ≠ []) (htoken : ∀ c ∈ method, isToken c = true)
      (huri : ∀ c ∈ uri, isUriChar c = true) : VersionLead (lineStart method uri)
  | minor {method uri digits : Bytes} (hne : method ≠ [])
      (htoken : ∀ c ∈ method, isToken c = true) (huri : ∀ c ∈ uri, isUriChar c = true)
      (hdigits : digits ≠ []) (hall : ∀ c ∈ digits, isDigit c = true)
      (hle : decimal digits ≤ versionMax) :
      VersionLead (lineStart method uri ++ (digits ++ [byte '.']))

/-- The text ends in a version number that does not fit. -/
def Overflows (word : Bytes) : Prop :=
  ∃ lead digits, word = lead ++ digits ∧ VersionLead lead ∧
    (∀ c ∈ digits, isDigit c = true) ∧ versionMax < decimal digits

/-- The states behind the version numbers. -/
def inHeaders : State → Bool
  | .expectingNewline1 | .headerLineStart | .headerLws | .headerName
  | .spaceBeforeHeaderValue | .headerValue | .expectingNewline2 | .expectingNewline3 => true
  | _ => false

theorem inHeaders_step (config : RequestParser × Request) (input : UInt8)
    (next : RequestParser × Request) (hin : inHeaders config.1.state = true)
    (hstep : requestConsumer.step config input = .more next) :
    inHeaders next.1.state = true := by
  obtain ⟨⟨state, name, value⟩, req⟩ := config
  cases state <;> simp only [requestConsumer, consume] at hstep <;> grind [inHeaders]

theorem step_ne_overflow {config : RequestParser × Request} {input : UInt8}
    (hin : inHeaders config.1.state = true) :
    requestConsumer.step config input ≠ .ended .overflow := by
  obtain ⟨⟨state, name, value⟩, req⟩ := config
  cases state <;> simp only [requestConsumer, consume] <;> grind [inHeaders]

/-- Nothing overflows behind the version numbers. -/
theorem feed_ne_overflow {config : RequestParser × Request} {input : Bytes}
    (hin : inHeaders config.1.state = true) :
    ¬ ∃ rest, requestConsumer.feed config input = .ended (.overflow, rest) := by
  rintro ⟨rest, hfeed⟩
  obtain ⟨read, last, next, rfl, hread, hlast⟩ := feed_eq_ended_iff.mp hfeed
  have hnext : inHeaders next.1.state = true := feed_invariant inHeaders_step hin hread
  exact step_ne_overflow hnext hlast

theorem feed_overflow_iff (major minor : Int) {input : Bytes} :
    (∃ rest, requestConsumer.feed (start major minor) input = .ended (.overflow, rest)) ↔
      ∃ word tail, input = word ++ tail ∧ Overflows word := by
  simp only [feed_start_iff Verdict.overflow_ne_bad]
  constructor
  · rintro ⟨rest, method, uri, tail, rfl, hne, htoken, huri, hfeed⟩
    rcases (major_digits _ rfl).feed_overflow_iff.mp ⟨rest, hfeed⟩ with
      ⟨digits, tail, rfl, hall, hlarge⟩ | ⟨majors, tail, rfl, hmajors, hall, hle, hminor⟩
    · exact ⟨_, tail, (List.append_assoc _ _ _).symm, _, digits, rfl,
        .major hne htoken huri, hall, hlarge⟩
    · rcases (minor_digits _ rfl).feed_overflow_iff.mp hminor with
        ⟨digits, tail, rfl, hdigits, hlarge⟩ | ⟨minors, tail, rfl, -, -, -, hlater⟩
      · refine ⟨lineStart method uri ++ (majors ++ [byte '.']) ++ digits, tail, by simp, _, digits,
          rfl, .minor hne htoken huri hmajors hall hle, hdigits, hlarge⟩
      · exact absurd hlater (feed_ne_overflow rfl)
  · rintro ⟨_, tail, rfl, lead, digits, rfl, hlead, hall, hlarge⟩
    cases hlead with
    | @major method uri hne htoken huri =>
        obtain ⟨rest, hrest⟩ := (major_digits ⟨method, uri, 0, 0, ∅⟩ rfl).feed_overflow_iff.mpr
          (Or.inl ⟨digits, tail, rfl, hall, hlarge⟩)
        exact ⟨rest, method, uri, _, List.append_assoc _ _ _, hne, htoken, huri, hrest⟩
    | @minor method uri majors hne htoken huri hmajors hdigits hle =>
        have hminor := (minor_digits ⟨method, uri, decimal majors, 0, ∅⟩ rfl).feed_overflow_iff.mpr
          (Or.inl ⟨digits, tail, rfl, hall, hlarge⟩)
        obtain ⟨rest, hrest⟩ := (major_digits ⟨method, uri, 0, 0, ∅⟩ rfl).feed_overflow_iff.mpr
          (Or.inr ⟨majors, digits ++ tail, rfl, hmajors, hdigits, hle, hminor⟩)
        exact ⟨rest, method, uri, _, by simp, hne, htoken, huri, hrest⟩

/-- Where the parser overflows right behind a beginning of a request, the version
number that does not fit ends there. -/
theorem overflows_of_feed {major minor : Int} {read rest : Bytes} {last : UInt8}
    (hbegins : requestConsumer.ProperlyBegins (start major minor) Verdict.Good read)
    (hfeed : requestConsumer.feed (start major minor) (read ++ last :: rest) =
      .ended (.overflow, rest)) : Overflows (read ++ [last]) := by
  obtain ⟨word, hword, hreads⟩ := feed_eq_ended_iff_reads.mp hfeed
  obtain rfl : read ++ [last] = word := by
    rw [List.append_cons] at hword
    exact List.append_cancel_right hword
  obtain ⟨word, tail, heq, hoverflows⟩ := (feed_overflow_iff major minor).mp ⟨[], hreads⟩
  rcases List.prefix_concat_iff.mp ⟨tail, heq.symm⟩ with rfl | ⟨tail', rfl⟩
  · exact hoverflows
  · obtain ⟨next, hmore⟩ := (completable major minor).more_iff.mpr hbegins
    obtain ⟨rest', hoverflow⟩ := (feed_overflow_iff major minor).mpr ⟨word, tail', rfl, hoverflows⟩
    cases hmore.symm.trans hoverflow

/-- The behaviour of the parser is undefined exactly where a version number above
`versionMax` has been sent. -/
theorem parse_undefined_iff (major minor : Int) (input : Bytes) :
    parse .new (.fresh major minor) input = none ↔
      ∃ word tail, input = word ++ tail ∧ Overflows word := by
  rw [parse_eq_none_iff]
  exact feed_overflow_iff major minor

/-- The text is the beginning of a request, and with this character it no longer is one. -/
structure WrongAt (read : Bytes) (last : UInt8) : Prop where
  begins : ∃ text : RequestText, read <+: text.wire ∧ read ≠ text.wire
  wrong : ∀ text : RequestText, ¬ read ++ [last] <+: text.wire
  fits : ¬ Overflows (read ++ [last])

theorem feed_bad_iff (major minor : Int) {input rest : Bytes} :
    requestConsumer.feed (start major minor) input = .ended (.bad, rest) ↔
      ∃ read last, input = read ++ last :: rest ∧ WrongAt read last := by
  have hcompletable := completable major minor
  constructor
  · intro hfeed
    obtain ⟨read, last, rfl, hbegins, hnone⟩ :=
      hcompletable.unwanted_iff.mp ⟨.bad, nofun, hfeed⟩
    refine ⟨read, last, rfl, (properlyBegins_iff major minor).mp hbegins, ?_, ?_⟩
    · intro text htext
      exact hnone ((begins_iff major minor).mpr ⟨text, htext⟩)
    · intro hoverflows
      obtain ⟨rest', hoverflow⟩ := (feed_overflow_iff major minor).mpr
        ⟨_, rest, List.append_cons read last rest, hoverflows⟩
      cases hfeed.symm.trans hoverflow
  · rintro ⟨read, last, rfl, htext, hwrong, hfits⟩
    have hbegins := (properlyBegins_iff major minor).mpr htext
    have hnone : ¬ requestConsumer.Begins (start major minor) Verdict.Good (read ++ [last]) := by
      rw [begins_iff]
      exact fun ⟨text, hprefix⟩ => hwrong text hprefix
    obtain ⟨verdict, hunwanted, hfeed⟩ := hcompletable.unwanted_iff.mpr
      ⟨read, last, rfl, hbegins, hnone⟩
    cases verdict with
    | good req => exact absurd ⟨req, rfl⟩ hunwanted
    | bad => exact hfeed
    | overflow => exact absurd (overflows_of_feed hbegins hfeed) hfits

/-- A request is refused at the first character with which it is the beginning of no
request text any more, and nothing behind that character is read. -/
theorem parse_rejects_iff (major minor : Int) (input rest : Bytes) :
    (∃ parser req, parse .new (.fresh major minor) input = some (.bad, rest, parser, req)) ↔
      ∃ read last, input = read ++ last :: rest ∧ WrongAt read last := by
  rw [parse_bad_iff]
  exact feed_bad_iff major minor

end RedisDB.Http
