import RedisDB.Http.Grammar

/-!
# Reading the request line

Each part of the request line is read by one loop or by literal states, so what
a parse ends with is followed through the parts from the left.  Version numbers
are the only place where the behaviour can become undefined.
-/

namespace RedisDB.Http

open RedisDB.Library RedisDB.Library.Consumer

/-! ## The loops of the request line -/

theorem refuses_token (c : UInt8) :
    (!isChar c || isCtl c || isTspecial c) = !isToken c := by
  simp [isToken, Bool.not_and, Bool.or_assoc]

theorem isToken_space : isToken (byte ' ') = false := by decide

theorem isToken_colon : isToken (byte ':') = false := by decide

theorem isCtl_return : isCtl (byte '\r') = true := by decide

theorem method_loop (headerName headerValue : Bytes) (req : Request) :
    requestConsumer.Loop (fun method => (⟨.method, headerName, headerValue⟩,
        { req with method := method })) (appendIf isToken) (byte ' ')
      (fun method => (⟨.uri, headerName, headerValue⟩, { req with method := method })) where
  stop_refused _ := appendIf_eq_none.mpr isToken_space
  step_push := by
    rintro method symbol longer hpush
    obtain ⟨htoken, rfl⟩ := appendIf_eq_some.mp hpush
    have hne : symbol ≠ byte ' ' := by
      rintro rfl
      cases isToken_space.symm.trans htoken
    simp [requestConsumer, consume, refuses_token, htoken, hne]
  step_stop := by simp [requestConsumer, consume]
  step_refused := by
    intro method symbol hne hpush
    refine ⟨.bad, ?_⟩
    simp [requestConsumer, consume, refuses_token, hne, appendIf_eq_none.mp hpush]

/-- What may stand in a request URI. -/
def isUriChar (c : UInt8) : Bool := !isCtl c && c != byte ' '

theorem uri_loop (headerName headerValue : Bytes) (req : Request) :
    requestConsumer.Loop (fun uri => (⟨.uri, headerName, headerValue⟩,
        { req with uri := uri })) (appendIf isUriChar) (byte ' ')
      (fun uri => (⟨.httpVersionH, headerName, headerValue⟩, { req with uri := uri })) where
  stop_refused _ := appendIf_eq_none.mpr (by decide)
  step_push := by
    rintro uri symbol longer hpush
    obtain ⟨hallowed, rfl⟩ := appendIf_eq_some.mp hpush
    obtain ⟨hctl, hne⟩ : isCtl symbol = false ∧ symbol ≠ byte ' ' := by
      simpa [isUriChar] using hallowed
    simp [requestConsumer, consume, hctl, hne]
  step_stop := by simp [requestConsumer, consume]
  step_refused := by
    intro uri symbol hne hpush
    have hallowed := appendIf_eq_none.mp hpush
    have hctl : isCtl symbol = true := by simpa [isUriChar, hne] using hallowed
    exact ⟨.bad, by simp [requestConsumer, consume, hctl, hne]⟩

/-! ## Version numbers -/

/-- One more digit of a version number. -/
def pushIfDigit (version : Int) (input : UInt8) : Option Int :=
  if isDigit input then pushDigit version input else none

theorem pushDigit_eq_some {version next : Int} {input : UInt8} :
    pushDigit version input = some next ↔
      version * 10 + input.toNat - 48 = next ∧ next ≤ versionMax := by
  unfold pushDigit versionMax
  split <;> simp <;> omega

theorem pushIfDigit_eq_some {version next : Int} {input : UInt8} :
    pushIfDigit version input = some next ↔
      isDigit input = true ∧ pushDigit version input = some next := by
  simp [pushIfDigit]

/-- Digits are read as the number they denote as long as it stays within the bound. -/
theorem foldlM_pushIfDigit {version last : Int} {digits : Bytes} (hversion : 0 ≤ version) :
    digits.foldlM pushIfDigit version = some last ↔
      (∀ c ∈ digits, isDigit c = true) ∧ decimalFrom version digits = last ∧
        (digits = [] ∨ last ≤ versionMax) := by
  induction digits generalizing version with
  | nil => simp
  | cons digit digits ih =>
      rw [List.foldlM_cons, List.forall_mem_cons, decimalFrom_cons]
      simp only [Option.bind_eq_bind, Option.bind_eq_some_iff, reduceCtorEq, false_or]
      constructor
      · rintro ⟨next, hpush, htail⟩
        obtain ⟨hdigit, hnext⟩ := pushIfDigit_eq_some.mp hpush
        obtain ⟨rfl, hle⟩ := pushDigit_eq_some.mp hnext
        obtain ⟨hlow, -⟩ := isDigit_iff.mp hdigit
        obtain ⟨hdigits, hlast, hbound⟩ := (ih (by omega)).mp htail
        refine ⟨⟨hdigit, hdigits⟩, hlast, ?_⟩
        rcases hbound with rfl | hbound
        · exact hlast ▸ hle
        · exact hbound
      · rintro ⟨⟨hdigit, hdigits⟩, hlast, hbound⟩
        obtain ⟨hlow, -⟩ := isDigit_iff.mp hdigit
        have hnonneg : 0 ≤ version * 10 + digit.toNat - 48 := by omega
        have hgrows := le_decimalFrom hnonneg hdigits
        refine ⟨_, ?_, (ih hnonneg).mpr ⟨hdigits, hlast, Or.inr hbound⟩⟩
        rw [pushIfDigit_eq_some, pushDigit_eq_some]
        exact ⟨hdigit, rfl, by omega⟩

/-- Digits that denote too large a number are refused at some point. -/
theorem foldlM_pushIfDigit_eq_none {digits : Bytes}
    (hdigits : ∀ c ∈ digits, isDigit c = true) (hlarge : versionMax < decimal digits) :
    digits.foldlM pushIfDigit 0 = none := by
  rw [Option.eq_none_iff_forall_ne_some]
  intro last hlast
  obtain ⟨-, rfl, hbound⟩ := (foldlM_pushIfDigit (le_refl 0)).mp hlast
  rcases hbound with rfl | hbound
  · exact absurd hlarge (by decide)
  · exact absurd hbound (not_le.mpr hlarge)

/-- What a digit does to a number that is read in the states `enter`. -/
def digitOutcome (enter : Int → RequestParser × Request) (version : Int) (input : UInt8) :
    Progress (RequestParser × Request) Verdict :=
  match pushDigit version input with
  | some next => .more (enter next)
  | none => .ended .overflow

/-- The states that read a version number: `first` before its first digit, then
`enter` with the number so far, and `leave` behind the character `stop`. -/
structure DigitLoop (first : RequestParser × Request) (stop : UInt8)
    (enter leave : Int → RequestParser × Request) : Prop where
  stop_other : isDigit stop = false
  step_first : ∀ input, requestConsumer.step first input =
    if isDigit input then digitOutcome enter 0 input else .ended .bad
  step_enter : ∀ version input, requestConsumer.step (enter version) input =
    if input = stop then .more (leave version)
    else if isDigit input then digitOutcome enter version input else .ended .bad

section Digits

variable {first : RequestParser × Request} {stop : UInt8}
  {enter leave : Int → RequestParser × Request}

theorem DigitLoop.step_refused (hdigits : DigitLoop first stop enter leave) {version : Int}
    {input : UInt8} (hne : input ≠ stop) (hnone : pushIfDigit version input = none) :
    requestConsumer.step (enter version) input =
      .ended (if isDigit input then .overflow else .bad) := by
  rw [hdigits.step_enter, if_neg hne]
  cases hdigit : isDigit input with
  | false => rfl
  | true =>
      have hpush : pushDigit version input = none := by simpa [pushIfDigit, hdigit] using hnone
      simp [digitOutcome, hpush]

theorem DigitLoop.loop (hdigits : DigitLoop first stop enter leave) :
    requestConsumer.Loop enter pushIfDigit stop leave where
  stop_refused _ := if_neg (by simp [hdigits.stop_other])
  step_push := by
    intro version symbol next hpush
    obtain ⟨hdigit, hnext⟩ := pushIfDigit_eq_some.mp hpush
    have hne : symbol ≠ stop := by
      rintro rfl
      cases hdigits.stop_other.symm.trans hdigit
    simp [hdigits.step_enter, hne, hdigit, digitOutcome, hnext]
  step_stop version := by rw [hdigits.step_enter, if_pos rfl]
  step_refused version symbol hne hnone := ⟨_, hdigits.step_refused hne hnone⟩

/-- Before the first digit there is nothing to leave; otherwise the number is zero. -/
theorem DigitLoop.feed_first_iff (hdigits : DigitLoop first stop enter leave)
    {verdict : Verdict} (hverdict : verdict ≠ .bad) {input rest : Bytes} :
    requestConsumer.feed first input = .ended (verdict, rest) ↔
      input.head? ≠ some stop ∧
        requestConsumer.feed (enter 0) input = .ended (verdict, rest) := by
  cases input with
  | nil => simp
  | cons symbol tail =>
      rw [feed, feed, hdigits.step_first, hdigits.step_enter]
      by_cases hstop : symbol = stop
      · subst hstop
        simp [hdigits.stop_other, hverdict.symm]
      · simp [hstop]

/-- Where there are digits the input does not begin with `stop`. -/
theorem DigitLoop.head_ne_stop (hdigits : DigitLoop first stop enter leave) {digits : Bytes}
    (tail : Bytes) (hne : digits ≠ []) (hall : ∀ c ∈ digits, isDigit c = true) :
    (digits ++ tail).head? ≠ some stop := by
  cases digits with
  | nil => exact absurd rfl hne
  | cons digit digits =>
      simp only [List.cons_append, List.head?_cons, ne_eq, Option.some.injEq]
      rintro rfl
      cases hdigits.stop_other.symm.trans (hall _ List.mem_cons_self)

theorem ne_nil_of_head_ne {digits tail : Bytes} {stop : UInt8}
    (hhead : (digits ++ stop :: tail).head? ≠ some stop) : digits ≠ [] := by
  rintro rfl
  exact hhead rfl

/-- A number is accepted up to the bound, and reading goes on behind it. -/
theorem DigitLoop.feed_good_iff (hdigits : DigitLoop first stop enter leave) {req : Request}
    {input rest : Bytes} :
    requestConsumer.feed first input = .ended (.good req, rest) ↔
      ∃ digits tail, input = digits ++ stop :: tail ∧ digits ≠ [] ∧
        (∀ c ∈ digits, isDigit c = true) ∧ decimal digits ≤ versionMax ∧
        requestConsumer.feed (leave (decimal digits)) tail = .ended (.good req, rest) := by
  have hrefused : ∀ version symbol, symbol ≠ stop → pushIfDigit version symbol = none →
      requestConsumer.step (enter version) symbol ≠ .ended (.good req) := by
    intro version symbol hne hnone
    rw [hdigits.step_refused hne hnone]
    split <;> nofun
  rw [hdigits.feed_first_iff (Verdict.good_ne_bad req),
    hdigits.loop.feed_iff_leave _ hrefused]
  constructor
  · rintro ⟨hhead, digits, tail, last, rfl, hdigits', htail⟩
    obtain ⟨hall, rfl, hbound⟩ := (foldlM_pushIfDigit (le_refl 0)).mp hdigits'
    have hne := ne_nil_of_head_ne hhead
    exact ⟨digits, tail, rfl, hne, hall, hbound.resolve_left hne, htail⟩
  · rintro ⟨digits, tail, rfl, hne, hall, hbound, htail⟩
    exact ⟨hdigits.head_ne_stop _ hne hall, digits, tail, decimal digits, rfl,
      (foldlM_pushIfDigit (le_refl 0)).mpr ⟨hall, rfl, Or.inr hbound⟩, htail⟩

/-- Too large a number overflows before it is read completely. -/
theorem DigitLoop.feed_overflow (hdigits : DigitLoop first stop enter leave)
    {digits : Bytes} (tail : Bytes) (hall : ∀ c ∈ digits, isDigit c = true)
    (hlarge : versionMax < decimal digits) :
    ∃ rest, requestConsumer.feed (enter 0) (digits ++ tail) = .ended (.overflow, rest) := by
  obtain ⟨read, refused, rest, last, rfl, hread, hnone⟩ :=
    exists_refused (foldlM_pushIfDigit_eq_none hall hlarge)
  have hdigit : isDigit refused = true :=
    hall refused (List.mem_append_right _ List.mem_cons_self)
  have hne : refused ≠ stop := by
    rintro rfl
    cases hdigits.stop_other.symm.trans hdigit
  have hstep := hdigits.step_refused hne hnone
  rw [if_pos hdigit] at hstep
  refine ⟨rest ++ tail, hdigits.loop.feed_iff.mpr (Or.inr ?_)⟩
  exact ⟨read, refused, last, by simp, hread, hne, hnone, hstep⟩

/-- An overflow happens in the number itself or behind it. -/
theorem DigitLoop.feed_overflow_iff (hdigits : DigitLoop first stop enter leave)
    {input : Bytes} :
    (∃ rest, requestConsumer.feed first input = .ended (.overflow, rest)) ↔
      (∃ digits tail, input = digits ++ tail ∧ (∀ c ∈ digits, isDigit c = true) ∧
        versionMax < decimal digits) ∨
      ∃ digits tail, input = digits ++ stop :: tail ∧ digits ≠ [] ∧
        (∀ c ∈ digits, isDigit c = true) ∧ decimal digits ≤ versionMax ∧
        ∃ rest, requestConsumer.feed (leave (decimal digits)) tail =
          .ended (.overflow, rest) := by
  simp only [hdigits.feed_first_iff Verdict.overflow_ne_bad]
  constructor
  · rintro ⟨rest, hhead, hfeed⟩
    rcases hdigits.loop.feed_iff.mp hfeed with ⟨digits, tail, last, rfl, hdigits', htail⟩ |
      ⟨digits, refused, last, rfl, hdigits', hne, hnone, hending⟩
    · obtain ⟨hall, rfl, hbound⟩ := (foldlM_pushIfDigit (le_refl 0)).mp hdigits'
      have hne := ne_nil_of_head_ne hhead
      exact Or.inr ⟨digits, tail, rfl, hne, hall, hbound.resolve_left hne, rest, htail⟩
    · obtain ⟨hall, rfl, -⟩ := (foldlM_pushIfDigit (le_refl 0)).mp hdigits'
      rw [hdigits.step_refused hne hnone] at hending
      have hdigit : isDigit refused = true := by
        by_contra hother
        rw [if_neg hother] at hending
        cases hending
      refine Or.inl ⟨digits ++ [refused], rest, by simp, ?_, ?_⟩
      · exact List.forall_mem_append.mpr ⟨hall, by simpa using hdigit⟩
      · simp only [pushIfDigit, hdigit, pushDigit, if_true, ite_eq_right_iff] at hnone
        rw [decimal, decimalFrom_append]
        simp only [decimalFrom_cons, decimalFrom_nil, versionMax]
        by_contra hsmall
        cases hnone (by omega)
  · rintro (⟨digits, tail, rfl, hall, hlarge⟩ |
      ⟨digits, tail, rfl, hne, hall, hbound, rest, htail⟩)
    · obtain ⟨rest, hrest⟩ := hdigits.feed_overflow tail hall hlarge
      have hne : digits ≠ [] := by
        rintro rfl
        exact absurd hlarge (by decide)
      exact ⟨rest, hdigits.head_ne_stop tail hne hall, hrest⟩
    · refine ⟨rest, hdigits.head_ne_stop _ hne hall, ?_⟩
      rw [hdigits.loop.feed_append ((foldlM_pushIfDigit (le_refl 0)).mpr
        ⟨hall, rfl, Or.inr hbound⟩), feed_cons_of_more tail (hdigits.loop.step_stop _), ← decimal,
        htail]

end Digits

/-! ## Literals -/

/-- A state that accepts one character only. -/
theorem literal_iff (parser : RequestParser) {parser' : RequestParser} {req req' : Request}
    {c : UInt8}
    (hconsume : ∀ input, consume parser req input =
      if input = c then some (.indeterminate, parser', req') else some (.bad, parser, req))
    {verdict : Verdict} (hverdict : verdict ≠ .bad) {input rest : Bytes} :
    requestConsumer.feed (parser, req) input = .ended (verdict, rest) ↔
      ∃ tail, input = c :: tail ∧
        requestConsumer.feed (parser', req') tail = .ended (verdict, rest) := by
  apply feed_literal_iff
  · simp [requestConsumer, hconsume]
  · intro other hother
    exact ⟨.bad, by simp [requestConsumer, hconsume, hother], hverdict.symm⟩

/-- The states that read `HTTP/`. -/
theorem feed_http_iff {headerName headerValue : Bytes} {req : Request} {verdict : Verdict}
    (hverdict : verdict ≠ .bad) {input rest : Bytes} :
    requestConsumer.feed (⟨.httpVersionH, headerName, headerValue⟩, req) input =
        .ended (verdict, rest) ↔
      ∃ tail, input = bytes "HTTP/" ++ tail ∧
        requestConsumer.feed (⟨.httpVersionMajorStart, headerName, headerValue⟩,
          { req with httpVersionMajor := 0, httpVersionMinor := 0 }) tail =
            .ended (verdict, rest) := by
  have hword : bytes "HTTP/" = [byte 'H', byte 'T', byte 'T', byte 'P', byte '/'] := rfl
  rw [literal_iff _ (fun _ => rfl) hverdict]
  simp only [literal_iff ⟨.httpVersionT1, headerName, headerValue⟩ (fun _ => rfl) hverdict,
    literal_iff ⟨.httpVersionT2, headerName, headerValue⟩ (fun _ => rfl) hverdict,
    literal_iff ⟨.httpVersionP, headerName, headerValue⟩ (fun _ => rfl) hverdict,
    literal_iff ⟨.httpVersionSlash, headerName, headerValue⟩ (fun _ => rfl) hverdict, hword]
  constructor
  · rintro ⟨_, rfl, _, rfl, _, rfl, _, rfl, tail, rfl, hfeed⟩
    exact ⟨tail, rfl, hfeed⟩
  · rintro ⟨tail, rfl, hfeed⟩
    exact ⟨_, rfl, _, rfl, _, rfl, _, rfl, tail, rfl, hfeed⟩

/-! ## The request line -/

/-- Where a parser starts that was just constructed. -/
def start (httpVersionMajor httpVersionMinor : Int) : RequestParser × Request :=
  (.new, .fresh httpVersionMajor httpVersionMinor)

/-- The method is read up to the space after it. -/
theorem feed_method_iff {major minor : Int} {verdict : Verdict} (hverdict : verdict ≠ .bad)
    {input rest : Bytes} :
    requestConsumer.feed (start major minor) input = .ended (verdict, rest) ↔
      ∃ method tail, input = method ++ byte ' ' :: tail ∧ method ≠ [] ∧
        (∀ c ∈ method, isToken c = true) ∧
        requestConsumer.feed (⟨.uri, [], []⟩, ⟨method, [], major, minor, ∅⟩) tail =
          .ended (verdict, rest) := by
  apply (method_loop [] [] (.fresh major minor)).feed_text_iff_of_first
  · intro symbol htoken
    simp [requestConsumer, consume, refuses_token, htoken, start, RequestParser.new,
      Request.fresh]
  · intro symbol htoken
    refine ⟨.bad, ?_, hverdict.symm⟩
    simp [requestConsumer, consume, refuses_token, htoken, start, RequestParser.new]
  · intro method symbol hne htoken
    simp [requestConsumer, consume, refuses_token, hne, htoken, hverdict.symm]

/-- The request URI is read up to the space after it. -/
theorem feed_uri_iff {method : Bytes} {major minor : Int} {headers : Headers}
    {verdict : Verdict} (hverdict : verdict ≠ .bad) {input rest : Bytes} :
    requestConsumer.feed (⟨.uri, [], []⟩, ⟨method, [], major, minor, headers⟩) input =
        .ended (verdict, rest) ↔
      ∃ uri tail, input = uri ++ byte ' ' :: tail ∧ (∀ c ∈ uri, isUriChar c = true) ∧
        requestConsumer.feed (⟨.httpVersionH, [], []⟩, ⟨method, uri, major, minor, headers⟩)
          tail = .ended (verdict, rest) := by
  apply (uri_loop [] [] ⟨method, [], major, minor, headers⟩).feed_text_iff
  intro uri symbol hne hallowed
  have hctl : isCtl symbol = true := by simpa [isUriChar, hne] using hallowed
  simp [requestConsumer, consume, hctl, hne, hverdict.symm]

/-- The request line up to the version numbers. -/
theorem feed_start_iff {major minor : Int} {verdict : Verdict} (hverdict : verdict ≠ .bad)
    {input rest : Bytes} :
    requestConsumer.feed (start major minor) input = .ended (verdict, rest) ↔
      ∃ method uri tail, input = lineStart method uri ++ tail ∧ method ≠ [] ∧
        (∀ c ∈ method, isToken c = true) ∧ (∀ c ∈ uri, isUriChar c = true) ∧
        requestConsumer.feed (⟨.httpVersionMajorStart, [], []⟩, ⟨method, uri, 0, 0, ∅⟩) tail =
          .ended (verdict, rest) := by
  simp only [feed_method_iff hverdict, feed_uri_iff hverdict, feed_http_iff hverdict]
  constructor
  · rintro ⟨method, _, rfl, hne, htoken, uri, _, rfl, huri, tail, rfl, htail⟩
    exact ⟨method, uri, tail, by simp [lineStart], hne, htoken, huri, htail⟩
  · rintro ⟨method, uri, tail, rfl, hne, htoken, huri, htail⟩
    exact ⟨method, uri ++ byte ' ' :: (bytes "HTTP/" ++ tail), by simp [lineStart], hne, htoken,
      uri, _, rfl, huri, tail, rfl, htail⟩

/-- The states of the major version number. -/
theorem major_digits (req : Request) (hzero : req.httpVersionMajor = 0) :
    DigitLoop (⟨.httpVersionMajorStart, [], []⟩, req) (byte '.')
      (fun major => (⟨.httpVersionMajor, [], []⟩, { req with httpVersionMajor := major }))
      (fun major => (⟨.httpVersionMinorStart, [], []⟩,
        { req with httpVersionMajor := major })) where
  stop_other := by decide
  step_first := by
    intro input
    cases hdigit : isDigit input <;>
      cases hpush : pushDigit 0 input <;>
        simp [requestConsumer, consume, digitOutcome, hdigit, hpush, hzero]
  step_enter := by
    intro version input
    by_cases hstop : input = byte '.'
    · simp [requestConsumer, consume, hstop]
    · cases hdigit : isDigit input <;>
        cases hpush : pushDigit version input <;>
          simp [requestConsumer, consume, digitOutcome, hdigit, hpush, hstop]

/-- The states of the minor version number. -/
theorem minor_digits (req : Request) (hzero : req.httpVersionMinor = 0) :
    DigitLoop (⟨.httpVersionMinorStart, [], []⟩, req) (byte '\r')
      (fun minor => (⟨.httpVersionMinor, [], []⟩, { req with httpVersionMinor := minor }))
      (fun minor => (⟨.expectingNewline1, [], []⟩,
        { req with httpVersionMinor := minor })) where
  stop_other := by decide
  step_first := by
    intro input
    cases hdigit : isDigit input <;>
      cases hpush : pushDigit 0 input <;>
        simp [requestConsumer, consume, digitOutcome, hdigit, hpush, hzero]
  step_enter := by
    intro version input
    by_cases hstop : input = byte '\r'
    · simp [requestConsumer, consume, hstop]
    · cases hdigit : isDigit input <;>
        cases hpush : pushDigit version input <;>
          simp [requestConsumer, consume, digitOutcome, hdigit, hpush, hstop]

end RedisDB.Http
