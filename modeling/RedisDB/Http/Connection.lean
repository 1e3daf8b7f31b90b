import RedisDB.Http.RequestHandler
import RedisDB.Library.Interleaving

/-!
# `connection`

A connection reads until its parser has a verdict, answers it once and is shut
down.  It waits for one asynchronous operation at a time; a step of it is the
handler that runs when the operation is complete.
-/

namespace RedisDB.Http

open RedisDB.Library RedisDB.Library.Consumer

/-- The asynchronous operation that has been started. -/
inductive Pending where
  | read
  | write
  | nothing
  deriving DecidableEq, Repr

structure Connection where
  pending : Pending
  request : Request
  requestParser : RequestParser
  reply : Reply

/-- The size of `buffer_`. -/
def bufferSize : Nat := 8192

/-- `connection()`; the version numbers of the request are not initialised. -/
def Connection.new (major minor : Int) : Connection :=
  ⟨.nothing, .fresh major minor, .new, .new⟩

/-- `connection::start`: the first `do_read`. -/
def Connection.start (conn : Connection) : Connection := { conn with pending := .read }

/-- How the pending operation ends.  A write that fails may have sent a part of the reply. -/
inductive Completion where
  | read (data : Bytes)
  | readFailed
  | written
  | writeFailed (bytesTransferred : Nat)
  deriving DecidableEq

/-- The handlers of `do_read` and `do_write`: the connection afterwards and the bytes
the operation has sent.  There is no answer to an operation that is not pending, to
more bytes than the buffer holds, and where the parser overflows. -/
def Connection.complete (handlers : HandlerList) (conn : Connection) (completion : Completion) :
    Option (Connection × Bytes) :=
  match conn.pending, completion with
  | .read, .read data =>
      if data.length ≤ bufferSize then do
        let (result, _, parser, req) ← parse conn.requestParser conn.request data
        match result with
        | .good =>
            let (req, rep) := handleRequest handlers req
            return (⟨.write, req, parser, rep⟩, [])
        | .bad => return (⟨.write, req, parser, .ofStatus .badRequest⟩, [])
        | .indeterminate => return (⟨.read, req, parser, conn.reply⟩, [])
      else none
  | .read, .readFailed => some ({ conn with pending := .nothing }, [])
  | .write, .written => some ({ conn with pending := .nothing }, conn.reply.wire)
  | .write, .writeFailed bytesTransferred =>
      some ({ conn with pending := .nothing }, conn.reply.wire.take bytesTransferred)
  | _, _ => none

/-! ## What a step does -/

/-- The reply a connection makes of a verdict. -/
def Verdict.reply? (handlers : HandlerList) : Verdict → Option Reply
  | .good req => some (handleRequest handlers req).2
  | .bad => some (Reply.ofStatus .badRequest)
  | .overflow => none

/-- The steps of a connection, with the parser as a consumer. -/
inductive Completes (handlers : HandlerList) (conn : Connection) :
    Completion → Connection → Bytes → Prop where
  | more {data : Bytes} {parser : RequestParser} {req : Request}
      (hpending : conn.pending = .read)
      (hmore : requestConsumer.feed (conn.requestParser, conn.request) data =
        .more (parser, req)) :
      Completes handlers conn (.read data) ⟨.read, req, parser, conn.reply⟩ []
  | ended {data rest : Bytes} {verdict : Verdict} {next : Connection}
      (hpending : conn.pending = .read)
      (hended : requestConsumer.feed (conn.requestParser, conn.request) data =
        .ended (verdict, rest))
      (hreply : verdict.reply? handlers = some next.reply) (hnext : next.pending = .write) :
      Completes handlers conn (.read data) next []
  | readFailed (hpending : conn.pending = .read) :
      Completes handlers conn .readFailed { conn with pending := .nothing } []
  | written (hpending : conn.pending = .write) :
      Completes handlers conn .written { conn with pending := .nothing } conn.reply.wire
  | writeFailed (bytesTransferred : Nat) (hpending : conn.pending = .write) :
      Completes handlers conn (.writeFailed bytesTransferred)
        { conn with pending := .nothing } (conn.reply.wire.take bytesTransferred)

variable {handlers : HandlerList}

/-- A completed read, by what the parser says. -/
theorem completes_read {conn next : Connection} {data sent : Bytes}
    (hpending : conn.pending = .read)
    (hstep : conn.complete handlers (.read data) = some (next, sent)) :
    Completes handlers conn (.read data) next sent := by
  unfold Connection.complete at hstep
  rw [hpending] at hstep
  dsimp only at hstep
  split at hstep
  next =>
    obtain ⟨⟨result, rest, parser, req⟩, hparse, hresult⟩ := Option.bind_eq_some_iff.mp hstep
    cases result with
    | good =>
        cases hresult
        exact .ended hpending (parse_good_iff.mp ⟨parser, hparse⟩) rfl rfl
    | bad =>
        cases hresult
        exact .ended hpending (parse_bad_iff.mp ⟨parser, req, hparse⟩) rfl rfl
    | indeterminate =>
        cases hresult
        exact .more hpending (parse_indeterminate_iff.mp hparse).2
  next => cases hstep

theorem completes_of_complete {conn next : Connection} {completion : Completion} {sent : Bytes}
    (hstep : conn.complete handlers completion = some (next, sent)) :
    Completes handlers conn completion next sent := by
  cases hpending : conn.pending with
  | read =>
      cases completion with
      | read data => exact completes_read hpending hstep
      | readFailed =>
          simp only [Connection.complete, hpending] at hstep
          cases hstep
          exact .readFailed hpending
      | written => simp [Connection.complete, hpending] at hstep
      | writeFailed => simp [Connection.complete, hpending] at hstep
  | write =>
      cases completion with
      | read => simp [Connection.complete, hpending] at hstep
      | readFailed => simp [Connection.complete, hpending] at hstep
      | written =>
          simp only [Connection.complete, hpending] at hstep
          cases hstep
          exact .written hpending
      | writeFailed bytesTransferred =>
          simp only [Connection.complete, hpending] at hstep
          cases hstep
          exact .writeFailed bytesTransferred hpending
  | nothing => simp [Connection.complete, hpending] at hstep

/-- Bytes that fit into the buffer are refused only where the parser overflows. -/
theorem complete_read_eq_none_iff {conn : Connection} (hpending : conn.pending = .read)
    {data : Bytes} (hsize : data.length ≤ bufferSize) :
    conn.complete handlers (.read data) = none ↔
      ∃ rest, requestConsumer.feed (conn.requestParser, conn.request) data =
        .ended (.overflow, rest) := by
  rw [← parse_eq_none_iff]
  unfold Connection.complete
  rw [hpending]
  dsimp only
  rw [if_pos hsize]
  cases parse conn.requestParser conn.request data with
  | none => simp
  | some outcome =>
      obtain ⟨result, rest, parser, req⟩ := outcome
      cases result <;> simp

theorem complete_read_more (handlers : HandlerList) {conn : Connection}
    (hpending : conn.pending = .read) {data : Bytes} (hsize : data.length ≤ bufferSize)
    {parser : RequestParser} {req : Request}
    (hmore : requestConsumer.feed (conn.requestParser, conn.request) data =
      .more (parser, req)) :
    conn.complete handlers (.read data) = some (⟨.read, req, parser, conn.reply⟩, []) := by
  have hparse := parse_indeterminate_iff.mpr ⟨rfl, hmore⟩
  simp [Connection.complete, hpending, hsize, hparse]

theorem complete_read_good (handlers : HandlerList) {conn : Connection}
    (hpending : conn.pending = .read) {data : Bytes} (hsize : data.length ≤ bufferSize)
    {req : Request} {rest : Bytes}
    (hended : requestConsumer.feed (conn.requestParser, conn.request) data =
      .ended (.good req, rest)) :
    ∃ parser, conn.complete handlers (.read data) =
      some (⟨.write, (handleRequest handlers req).1, parser, (handleRequest handlers req).2⟩,
        []) := by
  obtain ⟨parser, hparse⟩ := parse_good_iff.mpr hended
  exact ⟨parser, by simp [Connection.complete, hpending, hsize, hparse]⟩

/-- A request is read in whatever pieces it comes. -/
theorem ran_pieces (handlers : HandlerList) {conn : Connection} {pieces : List Bytes}
    {req : Request} (hpending : conn.pending = .read)
    (hsize : ∀ piece ∈ pieces, piece ≠ [] ∧ piece.length ≤ bufferSize)
    (hfeed : requestConsumer.feed (conn.requestParser, conn.request) pieces.flatten =
      .ended (.good req, [])) :
    ∃ parser, Ran (Connection.complete handlers) conn
      (pieces.map fun piece => (.read piece, []))
      ⟨.write, (handleRequest handlers req).1, parser, (handleRequest handlers req).2⟩ := by
  induction pieces generalizing conn with
  | nil => cases hfeed
  | cons piece pieces ih =>
      obtain ⟨⟨hne, hpiece⟩, hrest⟩ := List.forall_mem_cons.mp hsize
      rw [List.flatten_cons] at hfeed
      cases hread : requestConsumer.feed (conn.requestParser, conn.request) piece with
      | more next =>
          obtain ⟨parser, req'⟩ := next
          rw [feed_append_of_more hread] at hfeed
          have hnext := complete_read_more handlers hpending hpiece hread
          obtain ⟨parser', htail⟩ := @ih ⟨.read, req', parser, conn.reply⟩ rfl hrest hfeed
          exact ⟨parser', _, hnext, htail⟩
      | ended ending =>
          obtain ⟨verdict, rest⟩ := ending
          rw [feed_append_of_ended hread] at hfeed
          simp only [Progress.ended.injEq, Prod.mk.injEq, List.append_eq_nil_iff] at hfeed
          obtain ⟨rfl, rfl, hflatten⟩ := hfeed
          obtain rfl : pieces = [] := by
            refine List.eq_nil_iff_forall_not_mem.mpr fun later hlater => ?_
            exact (hrest later hlater).1 (List.flatten_eq_nil_iff.mp hflatten later hlater)
          obtain ⟨parser, hcomplete⟩ := complete_read_good handlers hpending hpiece hread
          exact ⟨parser, _, hcomplete, rfl⟩

/-! ## What a connection answers -/

/-- The bytes that were read. -/
def received : List (Completion × Bytes) → Bytes
  | [] => []
  | (.read data, _) :: history => data ++ received history
  | _ :: history => received history

/-- The bytes that were sent. -/
def sent (history : List (Completion × Bytes)) : Bytes := history.flatMap Prod.snd

/-- What a client that has sent these bytes is answered: its request if they begin with
one, and `400 Bad Request` if they are wrong at some character. -/
inductive Answers (handlers : HandlerList) (input : Bytes) : Reply → Prop where
  | served (text : RequestText) (hwire : text.wire <+: input) :
      Answers handlers input (handleRequest handlers text.request).2
  | refused (read : Bytes) (last : UInt8) (hbegins : read ++ [last] <+: input)
      (hwrong : WrongAt read last) : Answers handlers input (Reply.ofStatus .badRequest)

theorem answers_iff (major minor : Int) {input : Bytes} {rep : Reply} :
    Answers handlers input rep ↔
      ∃ verdict rest, requestConsumer.feed (Http.start major minor) input =
        .ended (verdict, rest) ∧ verdict.reply? handlers = some rep := by
  constructor
  · intro hanswers
    cases hanswers with
    | served text hwire =>
        obtain ⟨rest, rfl⟩ := hwire
        exact ⟨.good text.request, rest, feed_wire major minor text rest, rfl⟩
    | refused read last hbegins hwrong =>
        obtain ⟨rest, rfl⟩ := hbegins
        exact ⟨.bad, rest, (feed_bad_iff major minor).mpr ⟨read, last, by simp, hwrong⟩, rfl⟩
  · rintro ⟨verdict, rest, hfeed, hreply⟩
    cases verdict with
    | good req =>
        obtain ⟨text, rfl, rfl⟩ := wire_of_feed hfeed
        cases hreply
        exact .served text (List.prefix_append _ _)
    | bad =>
        obtain ⟨read, last, rfl, hwrong⟩ := (feed_bad_iff major minor).mp hfeed
        cases hreply
        exact .refused read last ⟨rest, by simp⟩ hwrong
    | overflow => cases hreply

/-- Bytes sent behind those that have an answer do not change it. -/
theorem Answers.eq_of_prefix {input longer : Bytes} {rep rep' : Reply}
    (hanswers : Answers handlers input rep) (hanswers' : Answers handlers longer rep')
    (hlonger : input <+: longer) : rep = rep' := by
  obtain ⟨rest, rfl⟩ := hlonger
  obtain ⟨verdict, tail, hfeed, hreply⟩ := (answers_iff 0 0).mp hanswers
  obtain ⟨verdict', tail', hfeed', hreply'⟩ := (answers_iff 0 0).mp hanswers'
  rw [feed_append_of_ended hfeed rest] at hfeed'
  cases hfeed'
  exact Option.some.inj (hreply.symm.trans hreply')

/-! ## Histories of a connection -/

theorem received_append (first second : List (Completion × Bytes)) :
    received (first ++ second) = received first ++ received second := by
  induction first with
  | nil => rfl
  | cons entry first ih =>
      obtain ⟨completion, bytes⟩ := entry
      cases completion <;> simp [received, ih]

theorem sent_append (first second : List (Completion × Bytes)) :
    sent (first ++ second) = sent first ++ sent second := List.flatMap_append

/-- No write was reported complete. -/
def Unwritten (history : List (Completion × Bytes)) : Prop :=
  ∀ bytes, (.written, bytes) ∉ history

/-- The state of a connection with what it has read and sent. -/
inductive Standing (handlers : HandlerList) (major minor : Int) (conn : Connection)
    (history : List (Completion × Bytes)) : Prop where
  | reading (hpending : conn.pending = .read) (hsent : sent history = [])
      (hunwritten : Unwritten history)
      (hmore : requestConsumer.feed (Http.start major minor) (received history) =
        .more (conn.requestParser, conn.request))
  | writing (hpending : conn.pending = .write) (hsent : sent history = [])
      (hunwritten : Unwritten history)
      (hanswers : Answers handlers (received history) conn.reply)
  | lost (hpending : conn.pending = .nothing) (hsent : sent history = [])
      (hunwritten : Unwritten history)
  | answered (hpending : conn.pending = .nothing)
      (hanswers : Answers handlers (received history) conn.reply)
      (hsent : sent history <+: conn.reply.wire)
      (hwhole : ¬ Unwritten history → sent history = conn.reply.wire)

theorem Unwritten.append {history : List (Completion × Bytes)} (hunwritten : Unwritten history)
    (completion : Completion) (hother : completion ≠ .written) (bytes : Bytes) :
    Unwritten (history ++ [(completion, bytes)]) := by
  intro bytes' hmem
  rcases List.mem_append.mp hmem with hbefore | hlast
  · exact hunwritten bytes' hbefore
  · cases List.mem_singleton.mp hlast
    exact hother rfl

theorem standing_new (handlers : HandlerList) (major minor : Int) :
    Standing handlers major minor (Connection.new major minor).start [] :=
  .reading rfl rfl (fun _ => List.not_mem_nil) rfl

/-- What one step makes of the standing of a connection. -/
theorem Standing.step {major minor : Int} {conn next : Connection}
    {history : List (Completion × Bytes)} {completion : Completion} {bytes : Bytes}
    (hstanding : Standing handlers major minor conn history)
    (hstep : Completes handlers conn completion next bytes) :
    Standing handlers major minor next (history ++ [(completion, bytes)]) := by
  cases hstep with
  | @more data parser req hpending hmore =>
      obtain ⟨-, hsent, hunwritten, hbefore⟩ | ⟨hother⟩ | ⟨hother⟩ | ⟨hother⟩ := hstanding
      · refine .reading rfl ?_ (hunwritten.append (.read data) nofun []) ?_
        · rw [sent_append, hsent]
          rfl
        · rw [received_append, feed_append_of_more hbefore]
          simpa [received] using hmore
      all_goals cases hpending.symm.trans hother
  | @ended data rest verdict _ hpending hended hreply hnext =>
      obtain ⟨-, hsent, hunwritten, hbefore⟩ | ⟨hother⟩ | ⟨hother⟩ | ⟨hother⟩ := hstanding
      · refine .writing hnext ?_ (hunwritten.append (.read data) nofun []) ?_
        · rw [sent_append, hsent]
          rfl
        · refine (answers_iff major minor).mpr ⟨verdict, rest, ?_, hreply⟩
          rw [received_append, feed_append_of_more hbefore]
          simpa [received] using hended
      all_goals cases hpending.symm.trans hother
  | readFailed hpending =>
      obtain ⟨-, hsent, hunwritten, -⟩ | ⟨hother⟩ | ⟨hother⟩ | ⟨hother⟩ := hstanding
      · refine .lost rfl ?_ (hunwritten.append .readFailed nofun [])
        rw [sent_append, hsent]
        rfl
      all_goals cases hpending.symm.trans hother
  | written hpending =>
      obtain ⟨hother⟩ | ⟨-, hsent, hunwritten, hanswers⟩ | ⟨hother⟩ | ⟨hother⟩ := hstanding
      · cases hpending.symm.trans hother
      · have hlast : sent [(.written, conn.reply.wire)] = conn.reply.wire := by simp [sent]
        have hwire : sent (history ++ [(.written, conn.reply.wire)]) = conn.reply.wire := by
          rw [sent_append, hsent, List.nil_append, hlast]
        refine .answered rfl ?_ ?_ fun _ => hwire
        · rw [received_append]
          simpa [received] using hanswers
        · simp only [hwire, List.prefix_rfl]
      all_goals cases hpending.symm.trans hother
  | writeFailed bytesTransferred hpending =>
      obtain ⟨hother⟩ | ⟨-, hsent, hunwritten, hanswers⟩ | ⟨hother⟩ | ⟨hother⟩ := hstanding
      · cases hpending.symm.trans hother
      · refine .answered rfl ?_ ?_ fun hwritten => ?_
        · rw [received_append]
          simpa [received] using hanswers
        · rw [sent_append, hsent]
          simpa [sent] using List.take_prefix bytesTransferred conn.reply.wire
        · exact absurd (hunwritten.append (.writeFailed bytesTransferred) nofun _) hwritten
      all_goals cases hpending.symm.trans hother

/-- Every history of a connection leaves it so. -/
theorem standing_of_ran {major minor : Int} {conn : Connection}
    {history : List (Completion × Bytes)}
    (hran : Ran (Connection.complete handlers) (Connection.new major minor).start history conn) :
    Standing handlers major minor conn history := by
  refine Ran.invariant ?_ (standing_new handlers major minor) hran
  intro state completion next bytes before hstanding hstep
  exact hstanding.step (completes_of_complete hstep)

/-- A connection that is still reading has fed its parser everything it has received. -/
theorem Standing.feed_received {major minor : Int} {conn : Connection}
    {history : List (Completion × Bytes)} (hstanding : Standing handlers major minor conn history)
    (hpending : conn.pending = .read) :
    requestConsumer.feed (Http.start major minor) (received history) =
      .more (conn.requestParser, conn.request) := by
  cases hstanding with
  | reading _ _ _ hmore => exact hmore
  | writing hother => cases hpending.symm.trans hother
  | lost hother => cases hpending.symm.trans hother
  | answered hother => cases hpending.symm.trans hother

/-- What is sent is the beginning of the answer to what was received, and that answer
once the write is complete.  The connection reads on only as long as its input is an
incomplete request, and sends nothing before it has the answer. -/
structure AnswersOnce (handlers : HandlerList) (conn : Connection)
    (history : List (Completion × Bytes)) : Prop where
  sent_begins : sent history ≠ [] →
    ∃ rep, Answers handlers (received history) rep ∧ sent history <+: rep.wire
  written : ¬ Unwritten history →
    ∃ rep, Answers handlers (received history) rep ∧ sent history = rep.wire
  reading : conn.pending = .read → sent history = [] ∧
    ∃ text : RequestText, received history <+: text.wire ∧ received history ≠ text.wire
  writing : conn.pending = .write → sent history = [] ∧
    Answers handlers (received history) conn.reply

theorem Standing.answersOnce {major minor : Int} {conn : Connection}
    {history : List (Completion × Bytes)}
    (hstanding : Standing handlers major minor conn history) :
    AnswersOnce handlers conn history where
  sent_begins := by
    intro hne
    cases hstanding with
    | reading _ hsent => exact absurd hsent hne
    | writing _ hsent => exact absurd hsent hne
    | lost _ hsent => exact absurd hsent hne
    | answered _ hanswers hsent => exact ⟨_, hanswers, hsent⟩
  written := by
    intro hwritten
    cases hstanding with
    | reading _ _ hunwritten => exact absurd hunwritten hwritten
    | writing _ _ hunwritten => exact absurd hunwritten hwritten
    | lost _ _ hunwritten => exact absurd hunwritten hwritten
    | answered _ hanswers _ hwhole => exact ⟨_, hanswers, hwhole hwritten⟩
  reading := by
    intro hread
    have hmore := hstanding.feed_received hread
    refine ⟨?_, (properlyBegins_iff major minor).mp ?_⟩
    · cases hstanding with
      | reading _ hsent => exact hsent
      | writing _ hsent => exact hsent
      | lost _ hsent => exact hsent
      | answered hpending => cases hpending.symm.trans hread
    · exact (completable major minor).more_iff.mp ⟨_, hmore⟩
  writing := by
    intro hwrite
    cases hstanding with
    | reading hpending => cases hpending.symm.trans hwrite
    | writing _ hsent _ hanswers => exact ⟨hsent, hanswers⟩
    | lost hpending => cases hpending.symm.trans hwrite
    | answered hpending => cases hpending.symm.trans hwrite

/-- The one answer to the input is the only one of which anything is sent. -/
theorem AnswersOnce.of_prefix {conn : Connection} {history : List (Completion × Bytes)}
    (honce : AnswersOnce handlers conn history) {input : Bytes} {rep : Reply}
    (hanswers : Answers handlers input rep) (hinput : input <+: received history) :
    sent history <+: rep.wire ∧ (¬ Unwritten history → sent history = rep.wire) := by
  constructor
  · by_cases hsent : sent history = []
    · rw [hsent]
      exact List.nil_prefix
    · obtain ⟨rep', hanswers', hbegins⟩ := honce.sent_begins hsent
      rwa [hanswers.eq_of_prefix hanswers' hinput]
  · intro hwritten
    obtain ⟨rep', hanswers', hwire⟩ := honce.written hwritten
    rw [hwire, hanswers.eq_of_prefix hanswers' hinput]

/-- Two connections of which one has received what the other has and perhaps more. -/
theorem AnswersOnce.comparable {conn conn' : Connection}
    {history history' : List (Completion × Bytes)} (honce : AnswersOnce handlers conn history)
    (honce' : AnswersOnce handlers conn' history')
    (hreceived : received history <+: received history') :
    (sent history <+: sent history' ∨ sent history' <+: sent history) ∧
      (¬ Unwritten history → ¬ Unwritten history' → sent history = sent history') := by
  constructor
  · by_cases hsent : sent history = []
    · rw [hsent]
      exact Or.inl List.nil_prefix
    · obtain ⟨rep, hanswers, hbegins⟩ := honce.sent_begins hsent
      obtain ⟨hbegins', -⟩ := honce'.of_prefix hanswers hreceived
      exact List.prefix_or_prefix_of_prefix hbegins hbegins'
  · intro hwritten hwritten'
    obtain ⟨rep, hanswers, hwire⟩ := honce.written hwritten
    rw [hwire, (honce'.of_prefix hanswers hreceived).2 hwritten']

end RedisDB.Http
