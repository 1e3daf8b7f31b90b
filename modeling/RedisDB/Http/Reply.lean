import RedisDB.Http.RequestWire

/-!
# `reply`

A reply is sent as its status line, its headers in the order of the map, an empty
line and its content.  The texts of the status lines and of the stock replies are
those of the source.
-/

namespace RedisDB.Http

open RedisDB.Library RedisDB.Library.Consumer

/-- `reply::status_type`. -/
inductive StatusType where
  | ok
  | created
  | accepted
  | noContent
  | multipleChoices
  | movedPermanently
  | movedTemporarily
  | notModified
  | badRequest
  | unauthorized
  | forbidden
  | notFound
  | internalServerError
  | notImplemented
  | badGateway
  | serviceUnavailable
  deriving DecidableEq, Repr

/-- The value of the enumerator. -/
def StatusType.code : StatusType → Nat
  | .ok => 200
  | .created => 201
  | .accepted => 202
  | .noContent => 204
  | .multipleChoices => 300
  | .movedPermanently => 301
  | .movedTemporarily => 302
  | .notModified => 304
  | .badRequest => 400
  | .unauthorized => 401
  | .forbidden => 403
  | .notFound => 404
  | .internalServerError => 500
  | .notImplemented => 501
  | .badGateway => 502
  | .serviceUnavailable => 503

/-- `status_strings::to_buffer`. -/
def StatusType.toBuffer : StatusType → Bytes
  | .ok => bytes "HTTP/1.0 200 OK\r\n"
  | .created => bytes "HTTP/1.0 201 Created\r\n"
  | .accepted => bytes "HTTP/1.0 202 Accepted\r\n"
  | .noContent => bytes "HTTP/1.0 204 No Content\r\n"
  | .multipleChoices => bytes "HTTP/1.0 300 Multiple Choices\r\n"
  | .movedPermanently => bytes "HTTP/1.0 301 Moved Permanently\r\n"
  | .movedTemporarily => bytes "HTTP/1.0 302 Moved Temporarily\r\n"
  | .notModified => bytes "HTTP/1.0 304 Not Modified\r\n"
  | .badRequest => bytes "HTTP/1.0 400 Bad Request\r\n"
  | .unauthorized => bytes "HTTP/1.0 401 Unauthorized\r\n"
  | .forbidden => bytes "HTTP/1.0 403 Forbidden\r\n"
  | .notFound => bytes "HTTP/1.0 404 Not Found\r\n"
  | .internalServerError => bytes "HTTP/1.0 500 Internal Server Error\r\n"
  | .notImplemented => bytes "HTTP/1.0 501 Not Implemented\r\n"
  | .badGateway => bytes "HTTP/1.0 502 Bad Gateway\r\n"
  | .serviceUnavailable => bytes "HTTP/1.0 503 Service Unavailable\r\n"

/-- The page of a stock reply. -/
def stockPage (title heading : String) : Bytes :=
  bytes "<html>" ++ bytes "<head><title>" ++ bytes title ++ bytes "</title></head>" ++
    bytes "<body><h1>" ++ bytes heading ++ bytes "</h1></body>" ++ bytes "</html>"

/-- `stock_replies::to_string`. -/
def StatusType.stockReply : StatusType → Bytes
  | .ok => []
  | .created => stockPage "Created" "201 Created"
  | .accepted => stockPage "Accepted" "202 Accepted"
  | .noContent => stockPage "No Content" "204 Content"
  | .multipleChoices => stockPage "Multiple Choices" "300 Multiple Choices"
  | .movedPermanently => stockPage "Moved Permanently" "301 Moved Permanently"
  | .movedTemporarily => stockPage "Moved Temporarily" "302 Moved Temporarily"
  | .notModified => stockPage "Not Modified" "304 Not Modified"
  | .badRequest => stockPage "Bad Request" "400 Bad Request"
  | .unauthorized => stockPage "Unauthorized" "401 Unauthorized"
  | .forbidden => stockPage "Forbidden" "403 Forbidden"
  | .notFound => stockPage "Not Found" "404 Not Found"
  | .internalServerError => stockPage "Internal Server Error" "500 Internal Server Error"
  | .notImplemented => stockPage "Not Implemented" "501 Not Implemented"
  | .badGateway => stockPage "Bad Gateway" "502 Bad Gateway"
  | .serviceUnavailable => stockPage "Service Unavailable" "503 Service Unavailable"

structure Reply where
  status : StatusType
  content : Bytes
  headers : Headers
  deriving DecidableEq

/-- `reply()`. -/
def Reply.new : Reply := ⟨.ok, [], ∅⟩

/-- The headers both other constructors give, for their content. -/
def contentHeaders (content : Bytes) : Headers :=
  ((∅ : Headers).insert (bytes "Content-Length") (toDecimal content.length)).insert
    (bytes "Content-Type") (bytes "text/html")

/-- `reply(const std::string&)`. -/
def Reply.ofContent (c : Bytes) : Reply := ⟨.ok, c, contentHeaders c⟩

/-- `reply(status_type)`. -/
def Reply.ofStatus (statusCode : StatusType) : Reply :=
  ⟨statusCode, statusCode.stockReply, contentHeaders statusCode.stockReply⟩

def Reply.jsonReply (json : Bytes) : Reply :=
  let rep := Reply.ofContent json
  { rep with headers := rep.headers.insert (bytes "Content-Type") (bytes "application/json") }

def nameValueSeparator : Bytes := [byte ':', byte ' ']

/-- `reply::to_buffers`. -/
def Reply.toBuffers (rep : Reply) : List Bytes :=
  [rep.status.toBuffer] ++
    rep.headers.toList.flatMap (fun h => [h.1, nameValueSeparator, h.2, crlf]) ++
    [crlf, rep.content]

/-- What is written to the socket. -/
def Reply.wire (rep : Reply) : Bytes := rep.toBuffers.flatten

/-! ## Status lines -/

/-- The text behind the number in a status line. -/
def StatusType.reason (status : StatusType) : Bytes := status.toBuffer.drop 13

theorem StatusType.toBuffer_eq (status : StatusType) :
    status.toBuffer =
      bytes "HTTP/1.0 " ++ (toDecimal status.code ++ byte ' ' :: status.reason) := by
  cases status <;> decide +kernel

theorem StatusType.code_injective {status status' : StatusType}
    (hcode : status.code = status'.code) : status = status' := by
  cases status <;> cases status' <;> first | rfl | cases hcode

/-- The number of a status line has three digits. -/
theorem StatusType.length_toDecimal_code (status : StatusType) :
    (toDecimal status.code).length = 3 := by
  cases status <;> rfl

/-- A reply tells its status by the first line. -/
theorem StatusType.eq_of_toBuffer_append {status status' : StatusType} {rest rest' : Bytes}
    (heq : status.toBuffer ++ rest = status'.toBuffer ++ rest') : status = status' := by
  rw [status.toBuffer_eq, status'.toBuffer_eq] at heq
  simp only [List.append_assoc, List.append_cancel_left_eq] at heq
  have hdigits := List.append_inj_left heq (by simp only [length_toDecimal_code])
  apply code_injective
  have hcode := congrArg decimal hdigits
  rwa [decimal_toDecimal, decimal_toDecimal, Int.natCast_inj] at hcode

/-! ## Reading a reply back -/

theorem Reply.wire_eq (rep : Reply) :
    rep.wire = rep.status.toBuffer ++ (headerBlock rep.headers ++ (crlf ++ rep.content)) := by
  simp [Reply.wire, Reply.toBuffers, headerBlock, headerLine, nameValueSeparator,
    List.flatten_eq_flatMap, List.flatMap_assoc]

/-- The headers of a reply, read with the header states of the request parser. -/
theorem feed_headerBlock {headers : Headers} (hclean : CleanHeaders headers) (req : Request)
    (hempty : req.headers = ∅) (content : Bytes) :
    requestConsumer.feed (⟨.headerLineStart, [], []⟩, req)
        (headerBlock headers ++ (crlf ++ content)) =
      .ended (.good { req with headers := headers }, content) := by
  rw [← hclean.wire_fields, feed_fields, hempty, hclean.addFields_fields]

/-! ## The replies the server makes itself -/

/-- A reply that says how long its content is, in headers that are read as they are. -/
structure Reply.Delimited (rep : Reply) : Prop where
  headers_clean : CleanHeaders rep.headers
  contentLength : rep.headers[bytes "Content-Length"]? = some (toDecimal rep.content.length)

/-- Headers stay clean when a clean one is stored. -/
theorem CleanHeaders.insert {headers : Headers} (hclean : CleanHeaders headers)
    {name value : Bytes} (hne : name ≠ []) (htoken : ∀ c ∈ name, isToken c = true)
    (hvalue : ∀ c ∈ value, isCtl c = false) : CleanHeaders (headers.insert name value) := by
  have hcases : ∀ key stored : Bytes, (headers.insert name value)[key]? = some stored →
      key = name ∧ stored = value ∨ headers[key]? = some stored := by
    intro key stored hstored
    rw [Std.ExtTreeMap.getElem?_insert] at hstored
    split at hstored
    next heq =>
      cases hstored
      exact Or.inl ⟨(Std.LawfulEqCmp.eq_of_compare heq).symm, rfl⟩
    next => exact Or.inr hstored
  constructor
  · intro key stored hstored
    rcases hcases key stored hstored with ⟨rfl, rfl⟩ | hbefore
    · exact hne
    · exact hclean.name_ne key stored hbefore
  · intro key stored hstored
    rcases hcases key stored hstored with ⟨rfl, rfl⟩ | hbefore
    · exact htoken
    · exact hclean.name_token key stored hbefore
  · intro key stored hstored
    rcases hcases key stored hstored with ⟨rfl, rfl⟩ | hbefore
    · exact hvalue
    · exact hclean.value_clean key stored hbefore

/-- Whether a header text of the source is clean is computed. -/
theorem CleanHeaders.insert_text {headers : Headers} (hclean : CleanHeaders headers)
    {name value : Bytes} (hname : (!name.isEmpty && name.all isToken) = true)
    (hvalue : value.any isCtl = false) : CleanHeaders (headers.insert name value) := by
  obtain ⟨hne, htoken⟩ := Bool.and_eq_true_iff.mp hname
  apply hclean.insert
  · rintro rfl
    exact absurd hne (by decide)
  · exact List.all_eq_true.mp htoken
  · simpa using hvalue

theorem cleanHeaders_empty : CleanHeaders ∅ := by
  constructor <;> intro name value hstored <;> simp at hstored

theorem isCtl_of_isDigit {c : UInt8} (hdigit : isDigit c = true) : isCtl c = false := by
  obtain ⟨hlow, hhigh⟩ := isDigit_iff.mp hdigit
  simp only [isCtl, Bool.or_eq_false_iff, decide_eq_false_iff_not, beq_eq_false_iff_ne, ne_eq,
    UInt8.le_iff_toNat_le, ← UInt8.toNat_inj]
  have hconst : (31 : UInt8).toNat = 31 ∧ (127 : UInt8).toNat = 127 := by decide
  omega

theorem cleanHeaders_content (content : Bytes) : CleanHeaders (contentHeaders content) := by
  refine CleanHeaders.insert_text ?_ (by decide) (by decide)
  apply cleanHeaders_empty.insert
  · decide
  · exact List.all_eq_true.mp (by decide)
  · intro c hc
    exact isCtl_of_isDigit (isDigit_of_mem_toDecimal hc)

/-- The `Content-Length` of the constructors counts the content, and giving the
reply another type leaves it. -/
theorem contentLength_insert (content type : Bytes) :
    (((∅ : Headers).insert (bytes "Content-Length") (toDecimal content.length)).insert
      (bytes "Content-Type") type)[bytes "Content-Length"]? =
        some (toDecimal content.length) := by
  rw [Std.ExtTreeMap.getElem?_insert, if_neg (by decide)]
  simp

theorem Reply.delimited_ofContent (content : Bytes) : (Reply.ofContent content).Delimited :=
  ⟨cleanHeaders_content content, contentLength_insert content _⟩

theorem Reply.delimited_ofStatus (status : StatusType) : (Reply.ofStatus status).Delimited :=
  ⟨cleanHeaders_content _, contentLength_insert _ _⟩

theorem Reply.delimited_jsonReply (json : Bytes) : (Reply.jsonReply json).Delimited where
  headers_clean := (cleanHeaders_content json).insert_text (by decide) (by decide)
  contentLength := by
    have hlength := contentLength_insert json (bytes "text/html")
    unfold Reply.jsonReply Reply.ofContent contentHeaders
    dsimp only
    rw [Std.ExtTreeMap.getElem?_insert, if_neg (by decide), hlength]

/-! ## Telling replies apart -/

/-- Replies whose headers are clean are told apart by what is sent of them. -/
theorem Reply.wire_injective {rep rep' : Reply} (hclean : CleanHeaders rep.headers)
    (hclean' : CleanHeaders rep'.headers) (heq : rep.wire = rep'.wire) : rep = rep' := by
  rw [rep.wire_eq, rep'.wire_eq] at heq
  have hstatus := StatusType.eq_of_toBuffer_append heq
  rw [hstatus, List.append_cancel_left_eq] at heq
  have hread := feed_headerBlock hclean (.fresh 0 0) rfl rep.content
  rw [heq, feed_headerBlock hclean' (.fresh 0 0) rfl rep'.content] at hread
  simp only [Progress.ended.injEq, Prod.mk.injEq, Verdict.good.injEq, Request.mk.injEq,
    true_and] at hread
  obtain ⟨hheaders, hcontent⟩ := hread
  obtain ⟨status, content, headers⟩ := rep
  obtain ⟨status', content', headers'⟩ := rep'
  cases hstatus
  cases hheaders
  cases hcontent
  rfl

theorem Reply.wire_injective_order : Reply.jsonReply (bytes "1") =
    ⟨.ok, bytes "1", ((∅ : Headers).insert (bytes "Content-Type")
      (bytes "application/json")).insert (bytes "Content-Length") (bytes "1")⟩ := by
  apply Reply.wire_injective (delimited_jsonReply _).headers_clean
  · exact (cleanHeaders_empty.insert_text (by decide) (by decide)).insert_text
      (by decide) (by decide)
  · decide +kernel

end RedisDB.Http
