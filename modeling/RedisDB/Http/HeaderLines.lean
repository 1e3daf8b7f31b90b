import RedisDB.Http.RequestLine

/-!
# Reading the header lines

After the request line the parser is in one of three situations at the start of a
line: the empty line ends the request, a blank continues the header stored last,
and any other line is a new header.  What it reads this way is a list of header
fields, each with its continuation lines.
-/

namespace RedisDB.Http

open RedisDB.Library RedisDB.Library.Consumer

/-! ## The loops -/

/-- What may stand in a header value. -/
def isValueChar (c : UInt8) : Bool := !isCtl c

theorem isValueChar_iff {c : UInt8} : isValueChar c = true ↔ isCtl c = false := by
  simp [isValueChar]

/-- The request with one more header. -/
def Request.addHeader (req : Request) (name value : Bytes) : Request :=
  { req with headers := req.headers.insert name value }

theorem name_loop (req : Request) :
    requestConsumer.Loop (fun name => (⟨.headerName, name, []⟩, req)) (appendIf isToken)
      (byte ':') (fun name => (⟨.spaceBeforeHeaderValue, name, []⟩, req)) where
  stop_refused _ := appendIf_eq_none.mpr isToken_colon
  step_push := by
    rintro name symbol longer hpush
    obtain ⟨htoken, rfl⟩ := appendIf_eq_some.mp hpush
    have hne : symbol ≠ byte ':' := by
      rintro rfl
      cases isToken_colon.symm.trans htoken
    simp [requestConsumer, consume, refuses_token, htoken, hne]
  step_stop := by simp [requestConsumer, consume]
  step_refused := by
    intro name symbol hne hpush
    refine ⟨.bad, ?_⟩
    simp [requestConsumer, consume, refuses_token, hne, appendIf_eq_none.mp hpush]

theorem value_loop (name : Bytes) (req : Request) :
    requestConsumer.Loop (fun value => (⟨.headerValue, name, value⟩, req))
      (appendIf isValueChar) (byte '\r')
      (fun value => (⟨.expectingNewline2, name, value⟩, req.addHeader name value)) where
  stop_refused _ := appendIf_eq_none.mpr (by decide)
  step_push := by
    rintro value symbol longer hpush
    obtain ⟨hallowed, rfl⟩ := appendIf_eq_some.mp hpush
    have hctl := isValueChar_iff.mp hallowed
    have hne : symbol ≠ byte '\r' := by
      rintro rfl
      cases isCtl_return.symm.trans hctl
    simp [requestConsumer, consume, hctl, hne]
  step_stop := by simp [requestConsumer, consume, Request.addHeader]
  step_refused := by
    intro value symbol hne hpush
    have hctl : isCtl symbol = true := by
      simpa [isValueChar] using appendIf_eq_none.mp hpush
    exact ⟨.bad, by simp [requestConsumer, consume, hctl, hne]⟩

/-! ## One line, read from its text -/

/-- A value, the end of its line, and what the parser has stored then. -/
theorem feed_value (name value : Bytes) (req : Request) {text : Bytes}
    (htext : ∀ c ∈ text, isCtl c = false) (tail : Bytes) :
    requestConsumer.feed (⟨.headerValue, name, value⟩, req) (text ++ (crlf ++ tail)) =
      requestConsumer.feed (⟨.headerLineStart, name, value ++ text⟩,
        req.addHeader name (value ++ text)) tail := by
  have hread : text.foldlM (appendIf isValueChar) value = some (value ++ text) :=
    foldlM_appendIf.mpr ⟨fun c hc => isValueChar_iff.mpr (htext c hc), rfl⟩
  rw [(value_loop name req).feed_append hread]
  rfl

/-- The empty line ends the request. -/
theorem feed_emptyLine (name value : Bytes) (req : Request) (rest : Bytes) :
    requestConsumer.feed (⟨.headerLineStart, name, value⟩, req) (crlf ++ rest) =
      .ended (.good req, rest) := rfl

/-- A line that begins with a token character is a new header. -/
theorem step_headerLineStart {name value : Bytes} {req : Request} {c : UInt8}
    (htoken : isToken c = true) :
    requestConsumer.step (⟨.headerLineStart, name, value⟩, req) c =
      .more (⟨.headerName, [c], []⟩, req) := by
  have hreturn : c ≠ byte '\r' := by
    rintro rfl
    cases htoken
  have hspace : c ≠ byte ' ' := by
    rintro rfl
    cases htoken
  have htab : c ≠ byte '\t' := by
    rintro rfl
    cases htoken
  simp [requestConsumer, consume, refuses_token, htoken, hreturn, hspace, htab]

theorem feed_field (name value : Bytes) (req : Request) (field : HeaderField) (tail : Bytes) :
    requestConsumer.feed (⟨.headerLineStart, name, value⟩, req)
        (field.name ++ byte ':' :: byte ' ' :: (field.value ++ (crlf ++ tail))) =
      requestConsumer.feed (⟨.headerLineStart, field.name, field.value⟩,
        req.addHeader field.name field.value) tail := by
  obtain ⟨fieldName, fieldValue, folds, hne, htoken, hclean⟩ := field
  cases fieldName with
  | nil => exact absurd rfl hne
  | cons first letters =>
      obtain ⟨hfirst, hletters⟩ := List.forall_mem_cons.mp htoken
      have hread : letters.foldlM (appendIf isToken) [first] = some (first :: letters) :=
        foldlM_appendIf.mpr ⟨hletters, rfl⟩
      have hspace : requestConsumer.step
          (⟨.spaceBeforeHeaderValue, first :: letters, []⟩, req) (byte ' ') =
            .more (⟨.headerValue, first :: letters, []⟩, req) := rfl
      dsimp only
      rw [List.cons_append, feed_cons_of_more _ (step_headerLineStart hfirst),
        (name_loop req).feed_append hread,
        feed_cons_of_more _ ((name_loop req).step_stop (first :: letters)),
        feed_cons_of_more _ hspace, feed_value _ _ _ hclean, List.nil_append]

/-! ## Continuation lines -/

/-- The header stored last is the one the parser still holds. -/
def Holds (req : Request) (name value : Bytes) : Prop :=
  req.headers.isEmpty = false → req.headers[name]? = some value

theorem Request.holds_addHeader (req : Request) (name value : Bytes) :
    Holds (req.addHeader name value) name value := by
  intro _
  simp [Request.addHeader]

theorem Request.isEmpty_addHeader (req : Request) (name value : Bytes) :
    (req.addHeader name value).headers.isEmpty = false := by
  simp [Request.addHeader]

/-- Storing what is stored already changes nothing. -/
theorem Holds.addHeader_eq {req : Request} {name value : Bytes} (hholds : Holds req name value)
    (hfull : req.headers.isEmpty = false) : req.addHeader name value = req := by
  have hinsert : req.headers.insert name value = req.headers := by
    apply Std.ExtTreeMap.ext_getElem?
    intro key
    rw [Std.ExtTreeMap.getElem?_insert]
    split
    next heq =>
      obtain rfl := Std.LawfulEqCmp.eq_of_compare heq
      exact (hholds hfull).symm
    next => rfl
  rw [Request.addHeader, hinsert]

/-- The request after the continuation lines of the header it holds. -/
def addFolds (req : Request) (name value : Bytes) : List Fold → Request
  | [] => req
  | fold :: folds =>
      addFolds (req.addHeader name (value ++ fold.content)) name (value ++ fold.content) folds

/-- A header stored with continuation lines is stored with its full value. -/
theorem addFolds_addHeader (req : Request) (name value : Bytes) (folds : List Fold) :
    addFolds (req.addHeader name value) name value folds =
      req.addHeader name (value ++ foldedContent folds) := by
  induction folds generalizing value with
  | nil => simp [addFolds, foldedContent]
  | cons fold folds ih =>
      have hagain : (req.addHeader name value).addHeader name (value ++ fold.content) =
          req.addHeader name (value ++ fold.content) := by
        simp [Request.addHeader, insert_insert]
      rw [addFolds, hagain, ih]
      simp [foldedContent]

theorem eq_of_isBlank {c : UInt8} (hblank : isBlank c = true) :
    c = byte ' ' ∨ c = byte '\t' := by
  simpa [isBlank] using hblank

theorem ne_return_of_isBlank {c : UInt8} (hblank : isBlank c = true) : c ≠ byte '\r' := by
  rintro rfl
  cases hblank

/-- Behind a header a blank continues it. -/
theorem step_blank {name value : Bytes} {req : Request} {c : UInt8}
    (hfull : req.headers.isEmpty = false) (hblank : isBlank c = true) :
    requestConsumer.step (⟨.headerLineStart, name, value⟩, req) c =
      .more (⟨.headerLws, name, value⟩, req) := by
  have hne : req.headers ≠ ∅ := by simpa using hfull
  simp [requestConsumer, consume, hne, ne_return_of_isBlank hblank,
    eq_of_isBlank hblank]

/-- Blanks at the start of a continuation line are skipped. -/
theorem feed_blanks (name value : Bytes) (req : Request) {blanks : Bytes}
    (hblanks : ∀ c ∈ blanks, isBlank c = true) (rest : Bytes) :
    requestConsumer.feed (⟨.headerLws, name, value⟩, req) (blanks ++ rest) =
      requestConsumer.feed (⟨.headerLws, name, value⟩, req) rest := by
  induction blanks with
  | nil => rfl
  | cons blank blanks ih =>
      obtain ⟨hblank, hrest⟩ := List.forall_mem_cons.mp hblanks
      have hstep : requestConsumer.step (⟨.headerLws, name, value⟩, req) blank =
          .more (⟨.headerLws, name, value⟩, req) := by
        rcases eq_of_isBlank hblank with rfl | rfl <;> rfl
      rw [List.cons_append, feed_cons_of_more _ hstep, ih hrest]

/-- The first character of a continuation line goes on with the value. -/
theorem step_headerLws {name value : Bytes} {req : Request} {c : UInt8}
    (hctl : isCtl c = false) (hspace : c ≠ byte ' ') :
    requestConsumer.step (⟨.headerLws, name, value⟩, req) c =
      .more (⟨.headerValue, name, value ++ [c]⟩, req) := by
  have hreturn : c ≠ byte '\r' := by
    rintro rfl
    cases hctl
  have htab : c ≠ byte '\t' := by
    rintro rfl
    cases hctl
  simp [requestConsumer, consume, hctl, hreturn, hspace, htab]

/-- A continuation line adds its content to the header stored last. -/
theorem feed_fold {name value : Bytes} {req : Request} (hholds : Holds req name value)
    (hfull : req.headers.isEmpty = false) (fold : Fold) (tail : Bytes) :
    requestConsumer.feed (⟨.headerLineStart, name, value⟩, req) (fold.wire ++ tail) =
      requestConsumer.feed (⟨.headerLineStart, name, value ++ fold.content⟩,
        req.addHeader name (value ++ fold.content)) tail := by
  obtain ⟨blanks, content, hne, hblanks, hclean, hhead⟩ := fold
  cases blanks with
  | nil => exact absurd rfl hne
  | cons blank blanks =>
      obtain ⟨hblank, hrest⟩ := List.forall_mem_cons.mp hblanks
      simp only [Fold.wire, List.cons_append, List.append_assoc]
      rw [feed_cons_of_more _ (step_blank hfull hblank), feed_blanks _ _ _ hrest]
      cases content with
      | nil =>
          rw [List.append_nil, hholds.addHeader_eq hfull]
          rfl
      | cons c content =>
          obtain ⟨hc, hcontent⟩ := List.forall_mem_cons.mp hclean
          have hspace : c ≠ byte ' ' := by simpa using hhead
          rw [List.cons_append, feed_cons_of_more _ (step_headerLws hc hspace),
            feed_value _ _ _ hcontent, List.append_assoc, List.singleton_append]

theorem feed_folds {name value : Bytes} {req : Request} (hholds : Holds req name value)
    (hfull : req.headers.isEmpty = false) (folds : List Fold) (tail : Bytes) :
    requestConsumer.feed (⟨.headerLineStart, name, value⟩, req)
        (folds.flatMap Fold.wire ++ tail) =
      requestConsumer.feed (⟨.headerLineStart, name, value ++ foldedContent folds⟩,
        addFolds req name value folds) tail := by
  induction folds generalizing value req with
  | nil => simp [foldedContent, addFolds]
  | cons fold folds ih =>
      rw [List.flatMap_cons, List.append_assoc, feed_fold hholds hfull,
        ih (req.holds_addHeader _ _) (req.isEmpty_addHeader _ _)]
      simp [foldedContent, addFolds]

/-! ## What an accepted line was -/

section Accepted

variable {name value : Bytes} {req result : Request} {input rest : Bytes}

/-- A value accepted to its end. -/
theorem value_accepted
    (hfeed : requestConsumer.feed (⟨.headerValue, name, value⟩, req) input =
      .ended (.good result, rest)) :
    ∃ text tail, input = text ++ (crlf ++ tail) ∧ (∀ c ∈ text, isCtl c = false) ∧
      requestConsumer.feed (⟨.headerLineStart, name, value ++ text⟩,
        req.addHeader name (value ++ text)) tail = .ended (.good result, rest) := by
  have hrefused : ∀ field symbol, symbol ≠ byte '\r' → isValueChar symbol = false →
      requestConsumer.step (⟨.headerValue, name, field⟩, req) symbol ≠
        .ended (.good result) := by
    intro field symbol hne hallowed
    have hctl : isCtl symbol = true := by simpa [isValueChar] using hallowed
    simp [requestConsumer, consume, hne, hctl]
  obtain ⟨text, tail, rfl, htext, htail⟩ :=
    ((value_loop name req).feed_text_iff (.good result) hrefused).mp hfeed
  obtain ⟨tail, rfl, htail⟩ := (literal_iff _ (fun _ => rfl) (Verdict.good_ne_bad result)).mp htail
  exact ⟨text, tail, rfl, fun c hc => isValueChar_iff.mp (htext c hc), htail⟩

/-- A new header accepted to the end of its line. -/
theorem name_accepted {first : UInt8} (hfirst : isToken first = true)
    (hfeed : requestConsumer.feed (⟨.headerName, [first], []⟩, req) input =
      .ended (.good result, rest)) :
    ∃ letters text tail,
      input = letters ++ byte ':' :: byte ' ' :: (text ++ (crlf ++ tail)) ∧
      (∀ c ∈ first :: letters, isToken c = true) ∧ (∀ c ∈ text, isCtl c = false) ∧
      requestConsumer.feed (⟨.headerLineStart, first :: letters, text⟩,
        req.addHeader (first :: letters) text) tail = .ended (.good result, rest) := by
  have hrefused : ∀ field symbol, symbol ≠ byte ':' → isToken symbol = false →
      requestConsumer.step (⟨.headerName, field, []⟩, req) symbol ≠ .ended (.good result) := by
    intro field symbol hne htoken
    simp [requestConsumer, consume, refuses_token, hne, htoken]
  obtain ⟨letters, tail, rfl, hletters, htail⟩ :=
    ((name_loop req).feed_text_iff (.good result) hrefused).mp hfeed
  obtain ⟨tail, rfl, htail⟩ := (literal_iff _ (fun _ => rfl) (Verdict.good_ne_bad result)).mp htail
  obtain ⟨text, tail, rfl, htext, htail⟩ := value_accepted htail
  exact ⟨letters, text, tail, rfl, List.forall_mem_cons.mpr ⟨hfirst, hletters⟩, htext, htail⟩

/-- What is accepted behind the first blank of a continuation line. -/
theorem lws_accepted (hholds : Holds req name value)
    (hfull : req.headers.isEmpty = false)
    (hfeed : requestConsumer.feed (⟨.headerLws, name, value⟩, req) input =
      .ended (.good result, rest)) :
    ∃ blanks content tail, input = blanks ++ (content ++ (crlf ++ tail)) ∧
      (∀ c ∈ blanks, isBlank c = true) ∧ (∀ c ∈ content, isCtl c = false) ∧
      content.head? ≠ some (byte ' ') ∧
      requestConsumer.feed (⟨.headerLineStart, name, value ++ content⟩,
        req.addHeader name (value ++ content)) tail = .ended (.good result, rest) := by
  induction input with
  | nil => cases hfeed
  | cons c input ih =>
      by_cases hblank : isBlank c = true
      · have hblanks : ∀ d ∈ [c], isBlank d = true := by simpa using hblank
        have hskip := feed_blanks name value req hblanks input
        rw [List.singleton_append] at hskip
        obtain ⟨blanks, content, tail, rfl, hblanks, hrest⟩ := ih (hskip ▸ hfeed)
        exact ⟨c :: blanks, content, tail, rfl,
          List.forall_mem_cons.mpr ⟨hblank, hblanks⟩, hrest⟩
      by_cases hreturn : c = byte '\r'
      · subst hreturn
        have hstep : requestConsumer.step (⟨.headerLws, name, value⟩, req) (byte '\r') =
            .more (⟨.expectingNewline2, name, value⟩, req) := rfl
        rw [feed_cons_of_more _ hstep] at hfeed
        obtain ⟨tail, rfl, htail⟩ :=
          (literal_iff _ (fun _ => rfl) (Verdict.good_ne_bad result)).mp hfeed
        refine ⟨[], [], tail, rfl, nofun, nofun, nofun, ?_⟩
        rw [List.append_nil, hholds.addHeader_eq hfull]
        exact htail
      obtain ⟨hspace, htab⟩ : c ≠ byte ' ' ∧ c ≠ byte '\t' := by
        simpa [isBlank, not_or] using hblank
      cases hctl : isCtl c with
      | true =>
          have hstep : requestConsumer.step (⟨.headerLws, name, value⟩, req) c =
              .ended .bad := by
            simp [requestConsumer, consume, hreturn, hspace, htab, hctl]
          rw [feed_cons_of_ended _ hstep] at hfeed
          cases hfeed
      | false =>
          rw [feed_cons_of_more _ (step_headerLws hctl hspace)] at hfeed
          obtain ⟨text, tail, rfl, htext, htail⟩ := value_accepted hfeed
          rw [List.append_assoc, List.singleton_append] at htail
          exact ⟨[], c :: text, tail, rfl, nofun, List.forall_mem_cons.mpr ⟨hctl, htext⟩,
            by simpa using hspace, htail⟩

/-- Behind the carriage return of the empty line only its newline is accepted. -/
theorem lastNewline_accepted
    (hfeed : requestConsumer.feed (⟨.expectingNewline3, name, value⟩, req) input =
      .ended (.good result, rest)) :
    input = byte '\n' :: rest ∧ result = req := by
  cases input with
  | nil => cases hfeed
  | cons c input =>
      by_cases hnewline : c = byte '\n'
      · subst hnewline
        cases hfeed
        exact ⟨rfl, rfl⟩
      · have hstep : requestConsumer.step (⟨.expectingNewline3, name, value⟩, req) c =
            .ended .bad := by simp [requestConsumer, consume, hnewline]
        rw [feed_cons_of_ended _ hstep] at hfeed
        cases hfeed

/-- An accepted line was the empty one, a continuation or a new header. -/
theorem line_accepted (hholds : Holds req name value)
    (hfeed : requestConsumer.feed (⟨.headerLineStart, name, value⟩, req) input =
      .ended (.good result, rest)) :
    (input = crlf ++ rest ∧ result = req) ∨
    (req.headers.isEmpty = false ∧ ∃ fold : Fold, ∃ tail, input = fold.wire ++ tail ∧
      requestConsumer.feed (⟨.headerLineStart, name, value ++ fold.content⟩,
        req.addHeader name (value ++ fold.content)) tail = .ended (.good result, rest)) ∨
    ∃ field text tail,
      input = field ++ byte ':' :: byte ' ' :: (text ++ (crlf ++ tail)) ∧ field ≠ [] ∧
      (∀ c ∈ field, isToken c = true) ∧ (∀ c ∈ text, isCtl c = false) ∧
      requestConsumer.feed (⟨.headerLineStart, field, text⟩,
        req.addHeader field text) tail = .ended (.good result, rest) := by
  cases input with
  | nil => cases hfeed
  | cons c input =>
      by_cases hreturn : c = byte '\r'
      · subst hreturn
        have hstep : requestConsumer.step (⟨.headerLineStart, name, value⟩, req) (byte '\r') =
            .more (⟨.expectingNewline3, name, value⟩, req) := rfl
        rw [feed_cons_of_more _ hstep] at hfeed
        obtain ⟨rfl, rfl⟩ := lastNewline_accepted hfeed
        exact Or.inl ⟨rfl, rfl⟩
      by_cases hblank : req.headers.isEmpty = false ∧ isBlank c = true
      · obtain ⟨hfull, hblank⟩ := hblank
        rw [feed_cons_of_more _ (step_blank hfull hblank)] at hfeed
        obtain ⟨blanks, content, tail, rfl, hblanks, hclean, hhead, htail⟩ :=
          lws_accepted hholds hfull hfeed
        refine Or.inr (Or.inl ⟨hfull, ⟨c :: blanks, content, List.cons_ne_nil _ _,
          List.forall_mem_cons.mpr ⟨hblank, hblanks⟩, hclean, hhead⟩, tail, ?_, htail⟩)
        simp [Fold.wire]
      cases htoken : isToken c with
      | true =>
          rw [feed_cons_of_more _ (step_headerLineStart htoken)] at hfeed
          obtain ⟨letters, text, tail, rfl, hletters, htext, htail⟩ :=
            name_accepted htoken hfeed
          exact Or.inr (Or.inr ⟨c :: letters, text, tail, rfl, List.cons_ne_nil _ _, hletters,
            htext, htail⟩)
      | false =>
          have hstep : requestConsumer.step (⟨.headerLineStart, name, value⟩, req) c =
              .ended .bad := by
            cases hfull : req.headers.isEmpty with
            | true => simp_all [requestConsumer, consume, refuses_token]
            | false =>
                obtain ⟨hspace, htab⟩ : c ≠ byte ' ' ∧ c ≠ byte '\t' := by
                  simpa [isBlank, hfull, not_or] using hblank
                simp [requestConsumer, consume, refuses_token, hreturn, htoken, hspace, htab]
          rw [feed_cons_of_ended _ hstep] at hfeed
          cases hfeed

end Accepted

end RedisDB.Http
