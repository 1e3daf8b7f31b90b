import RedisDB.Http.Acceptance

/-!
# Sending a request

A client writes a request as its request line and one line for each header.  The
requests the parser can deliver are exactly those that can be written this way,
and each of them comes back as it was sent.
-/

namespace RedisDB.Http

open RedisDB.Library.Consumer

/-! ## Header maps and their entries -/

/-- A key that no entry has keeps its value when the entries are stored. -/
theorem getElem?_foldl_insert_of_not_mem (entries : List (Bytes × Bytes)) (headers : Headers)
    {key : Bytes} (hkey : key ∉ entries.map Prod.fst) :
    (entries.foldl (fun headers entry => headers.insert entry.1 entry.2) headers)[key]? =
      headers[key]? := by
  induction entries generalizing headers with
  | nil => rfl
  | cons entry entries ih =>
      simp only [List.map_cons, List.mem_cons, not_or] at hkey
      have hne : compare entry.1 key ≠ .eq := fun heq =>
        hkey.1 (Std.LawfulEqCmp.eq_of_compare heq).symm
      rw [List.foldl_cons, ih _ hkey.2, Std.ExtTreeMap.getElem?_insert, if_neg hne]

/-- Entries with different keys are all found once they are stored. -/
theorem getElem?_foldl_insert_of_mem {entries : List (Bytes × Bytes)} (headers : Headers)
    (hnodup : (entries.map Prod.fst).Nodup) {key value : Bytes} (hmem : (key, value) ∈ entries) :
    (entries.foldl (fun headers entry => headers.insert entry.1 entry.2) headers)[key]? =
      some value := by
  induction entries generalizing headers with
  | nil => cases hmem
  | cons entry entries ih =>
      rw [List.map_cons, List.nodup_cons] at hnodup
      rw [List.foldl_cons]
      rcases List.mem_cons.mp hmem with rfl | hlater
      · rw [getElem?_foldl_insert_of_not_mem _ _ hnodup.1]
        simp
      · exact ih _ hnodup.2 hlater

/-- A map is rebuilt from its entries. -/
theorem foldl_insert_toList (headers : Headers) :
    headers.toList.foldl (fun headers entry => headers.insert entry.1 entry.2) ∅ = headers := by
  have hnodup : (headers.toList.map Prod.fst).Nodup := by
    rw [List.Nodup, List.pairwise_map]
    refine headers.distinct_keys_toList.imp fun hne heq => hne ?_
    rw [heq]
    exact Std.ReflCmp.compare_self
  apply Std.ExtTreeMap.ext_getElem?
  intro key
  cases hkey : headers[key]? with
  | some value =>
      exact getElem?_foldl_insert_of_mem ∅ hnodup
        (Std.ExtTreeMap.mem_toList_iff_getElem?_eq_some.mpr hkey)
  | none =>
      rw [getElem?_foldl_insert_of_not_mem]
      · simp
      · rintro hmem
        obtain ⟨⟨_, value⟩, hentry, rfl⟩ := List.mem_map.mp hmem
        have hsome := Std.ExtTreeMap.mem_toList_iff_getElem?_eq_some.mp hentry
        cases hkey.symm.trans hsome

/-! ## The text of a request -/

/-- One header as it is written. -/
def headerLine (name value : Bytes) : Bytes :=
  name ++ byte ':' :: byte ' ' :: (value ++ crlf)

/-- The headers in the order of the map. -/
def headerBlock (headers : Headers) : Bytes :=
  headers.toList.flatMap fun entry => headerLine entry.1 entry.2

/-- Headers that can be written so that they are read as they are. -/
structure CleanHeaders (headers : Headers) : Prop where
  name_ne : ∀ name value : Bytes, headers[name]? = some value → name ≠ []
  name_token : ∀ name value : Bytes, headers[name]? = some value →
    ∀ c ∈ name, isToken c = true
  value_clean : ∀ name value : Bytes, headers[name]? = some value →
    ∀ c ∈ value, isCtl c = false

namespace CleanHeaders

variable {headers : Headers} {entries : List (Bytes × Bytes)}

/-- An entry as a field without continuation lines. -/
def field (hclean : CleanHeaders headers) (entry : Bytes × Bytes)
    (hentry : entry ∈ headers.toList) : HeaderField :=
  have hstored := Std.ExtTreeMap.mem_toList_iff_getElem?_eq_some.mp hentry
  ⟨entry.1, entry.2, [], hclean.name_ne _ _ hstored, hclean.name_token _ _ hstored,
    hclean.value_clean _ _ hstored⟩

def fields (hclean : CleanHeaders headers) : List HeaderField :=
  headers.toList.pmap hclean.field fun _ hentry => hentry

theorem flatMap_wire (hclean : CleanHeaders headers)
    (hentries : ∀ entry ∈ entries, entry ∈ headers.toList) :
    (entries.pmap hclean.field hentries).flatMap HeaderField.wire =
      entries.flatMap fun entry => headerLine entry.1 entry.2 := by
  induction entries with
  | nil => rfl
  | cons entry entries ih =>
      rw [List.pmap_cons, List.flatMap_cons, List.flatMap_cons, ih]
      simp [HeaderField.wire, field, headerLine]

theorem addFields_field (hclean : CleanHeaders headers)
    (hentries : ∀ entry ∈ entries, entry ∈ headers.toList) (before : Headers) :
    addFields before (entries.pmap hclean.field hentries) =
      entries.foldl (fun headers entry => headers.insert entry.1 entry.2) before := by
  induction entries generalizing before with
  | nil => rfl
  | cons entry entries ih =>
      rw [List.pmap_cons, addFields_cons, ih, List.foldl_cons]
      simp [HeaderField.fullValue, field, foldedContent]

theorem wire_fields (hclean : CleanHeaders headers) :
    hclean.fields.flatMap HeaderField.wire = headerBlock headers :=
  hclean.flatMap_wire _

theorem addFields_fields (hclean : CleanHeaders headers) :
    addFields ∅ hclean.fields = headers :=
  (hclean.addFields_field _ ∅).trans (foldl_insert_toList headers)

end CleanHeaders

/-- A request as a client writes it. -/
def Request.wire (req : Request) : Bytes :=
  lineStart req.method req.uri ++ (toDecimal req.httpVersionMajor.toNat ++
    byte '.' :: (toDecimal req.httpVersionMinor.toNat ++ crlf ++
      (headerBlock req.headers ++ crlf)))

/-- The requests that can be written. -/
structure Request.Sendable (req : Request) : Prop where
  method_ne : req.method ≠ []
  method_token : ∀ c ∈ req.method, isToken c = true
  uri_clean : ∀ c ∈ req.uri, isCtl c = false ∧ c ≠ byte ' '
  major_nonneg : 0 ≤ req.httpVersionMajor
  major_le : req.httpVersionMajor ≤ versionMax
  minor_nonneg : 0 ≤ req.httpVersionMinor
  minor_le : req.httpVersionMinor ≤ versionMax
  headers_clean : CleanHeaders req.headers

/-- A request that can be written, as a request text. -/
def Request.Sendable.text {req : Request} (hreq : req.Sendable) : RequestText where
  method := req.method
  uri := req.uri
  major := toDecimal req.httpVersionMajor.toNat
  minor := toDecimal req.httpVersionMinor.toNat
  fields := hreq.headers_clean.fields
  method_ne := hreq.method_ne
  method_token := hreq.method_token
  uri_clean := hreq.uri_clean
  major_ne := toDecimal_ne_nil _
  major_digits _ := isDigit_of_mem_toDecimal
  major_le := by
    rw [decimal_toDecimal, Int.toNat_of_nonneg hreq.major_nonneg]
    exact hreq.major_le
  minor_ne := toDecimal_ne_nil _
  minor_digits _ := isDigit_of_mem_toDecimal
  minor_le := by
    rw [decimal_toDecimal, Int.toNat_of_nonneg hreq.minor_nonneg]
    exact hreq.minor_le

theorem Request.Sendable.wire_text {req : Request} (hreq : req.Sendable) :
    hreq.text.wire = req.wire := by
  unfold RequestText.wire Request.wire Request.Sendable.text
  dsimp only
  rw [hreq.headers_clean.wire_fields]

theorem Request.Sendable.request_text {req : Request} (hreq : req.Sendable) :
    hreq.text.request = req := by
  unfold RequestText.request Request.Sendable.text
  dsimp only
  rw [hreq.headers_clean.addFields_fields, decimal_toDecimal, decimal_toDecimal,
    Int.toNat_of_nonneg hreq.major_nonneg, Int.toNat_of_nonneg hreq.minor_nonneg]

/-! ## What the parser delivers -/

/-- Every header that fields leave behind comes from one of them. -/
theorem mem_addFields {headers : Headers} {fields : List HeaderField} {name value : Bytes}
    (hstored : (addFields headers fields)[name]? = some value) :
    headers[name]? = some value ∨
      ∃ field ∈ fields, field.name = name ∧ field.fullValue = value := by
  induction fields generalizing headers with
  | nil => exact Or.inl hstored
  | cons field fields ih =>
      rcases ih hstored with hbefore | ⟨later, hlater, hfield⟩
      · rw [Std.ExtTreeMap.getElem?_insert] at hbefore
        split at hbefore
        next heq =>
          refine Or.inr ⟨field, List.mem_cons_self, Std.LawfulEqCmp.eq_of_compare heq, ?_⟩
          simpa using hbefore
        next => exact Or.inl hbefore
      · exact Or.inr ⟨later, List.mem_cons_of_mem _ hlater, hfield⟩

theorem HeaderField.fullValue_clean (field : HeaderField) :
    ∀ c ∈ field.fullValue, isCtl c = false := by
  intro c hc
  rcases List.mem_append.mp hc with hvalue | hfolded
  · exact field.value_clean c hvalue
  · obtain ⟨fold, -, hcontent⟩ := List.mem_flatMap.mp hfolded
    exact fold.content_clean c hcontent

/-- What header fields leave behind is clean. -/
theorem cleanHeaders_addFields (fields : List HeaderField) :
    CleanHeaders (addFields ∅ fields) := by
  have hfield : ∀ name value : Bytes, (addFields ∅ fields)[name]? = some value →
      ∃ field ∈ fields, field.name = name ∧ field.fullValue = value := by
    intro name value hstored
    exact (mem_addFields hstored).resolve_left (by simp)
  constructor
  · intro name value hstored
    obtain ⟨field, -, rfl, -⟩ := hfield name value hstored
    exact field.name_ne
  · intro name value hstored
    obtain ⟨field, -, rfl, -⟩ := hfield name value hstored
    exact field.name_token
  · intro name value hstored
    obtain ⟨field, -, -, rfl⟩ := hfield name value hstored
    exact field.fullValue_clean

/-- What a request text stands for can be written. -/
theorem RequestText.sendable (text : RequestText) : text.request.Sendable where
  method_ne := text.method_ne
  method_token := text.method_token
  uri_clean := text.uri_clean
  major_nonneg := le_decimalFrom (le_refl 0) text.major_digits
  major_le := text.major_le
  minor_nonneg := le_decimalFrom (le_refl 0) text.minor_digits
  minor_le := text.minor_le
  headers_clean := cleanHeaders_addFields text.fields

theorem feed_request (major minor : Int) {req : Request} (hreq : req.Sendable) (rest : Bytes) :
    requestConsumer.feed (start major minor) (req.wire ++ rest) =
      .ended (.good req, rest) := by
  have hfeed := feed_wire major minor hreq.text rest
  rwa [hreq.wire_text, hreq.request_text] at hfeed

/-- The requests the parser delivers are those that can be written, and each of them is
delivered, and nothing behind it read, when it is written. -/
theorem delivered_iff_sendable (major minor : Int) (req : Request) :
    ((∃ input rest parser,
        parse .new (.fresh major minor) input = some (.good, rest, parser, req)) ↔
      req.Sendable) ∧
    (req.Sendable → ∀ rest, ∃ parser,
      parse .new (.fresh major minor) (req.wire ++ rest) = some (.good, rest, parser, req)) := by
  have hsent : req.Sendable → ∀ rest, ∃ parser,
      parse .new (.fresh major minor) (req.wire ++ rest) =
        some (.good, rest, parser, req) := by
    intro hreq rest
    exact parse_good_iff.mpr (feed_request major minor hreq rest)
  refine ⟨⟨?_, fun hreq => ⟨_, _, hsent hreq []⟩⟩, hsent⟩
  rintro ⟨input, rest, hparse⟩
  obtain ⟨text, -, rfl⟩ := wire_of_feed (parse_good_iff.mp hparse)
  exact text.sendable

end RedisDB.Http
