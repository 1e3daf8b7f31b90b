import RedisDB.Http.Connection

/-!
# `server`

The server accepts connections and runs the handlers of all of them, in any order
the clients and the threads make.  The handlers for the requests are registered
before it runs, so they are a parameter here.
-/

namespace RedisDB.Http

open RedisDB.Library RedisDB.Library.Consumer

/-- A connection that has not been started. -/
abbrev FreshConnection := { conn : Connection // ∃ major minor, conn = .new major minor }

structure Server where
  /-- The connections that were accepted, the first of them first. -/
  connections : List Connection
  newConnection : FreshConnection
  acceptorOpen : Bool

/-- `do_accept` makes the connection the next client is given. -/
def Server.doAccept (server : Server) (major minor : Int) : Server :=
  { server with newConnection := ⟨.new major minor, major, minor, rfl⟩ }

/-- `server()`. -/
def Server.new (major minor : Int) : Server :=
  ⟨[], ⟨.new major minor, major, minor, rfl⟩, true⟩

/-- The handlers the service runs: of `async_accept`, of the signals, and of the
operations of the connections.  An accept brings the version numbers the next
connection is made with. -/
inductive ServerEvent where
  | accepted (failed : Bool) (major minor : Int)
  | stop
  | completed (index : Nat) (completion : Completion)

/-- One handler.  After the signal the acceptor is closed; the handlers that already run
on other threads may still come to their end. -/
def Server.handle (handlers : HandlerList) (server : Server) :
    ServerEvent → Option (Server × Bytes)
  | .accepted failed major minor =>
      if !server.acceptorOpen then some (server, [])
      else if failed then some (server.doAccept major minor, [])
      else
        let started := server.newConnection.val.start
        let server := { server with connections := server.connections ++ [started] }
        some (server.doAccept major minor, [])
  | .stop => some ({ server with acceptorOpen := false }, [])
  | .completed index completion => do
      let conn ← server.connections[index]?
      let (conn, bytes) ← conn.complete handlers completion
      return ({ server with connections := server.connections.set index conn }, bytes)

/-- The connection a handler belongs to. -/
def ServerEvent.target : ServerEvent → Option (Nat × Completion)
  | .completed index completion => some (index, completion)
  | _ => none

/-- What happened on one connection. -/
def connectionHistory (index : Nat) (history : List (ServerEvent × Bytes)) :
    List (Completion × Bytes) :=
  historyOf ServerEvent.target id index history

variable {handlers : HandlerList}

/-! ## Connections do not disturb each other -/

/-- The server hosts its connections. -/
theorem server_hosts (handlers : HandlerList) :
    Hosts (Server.handle handlers) (Connection.complete handlers)
      (fun server index => server.connections[index]?) ServerEvent.target id
      (fun conn => ∃ major minor, conn = (Connection.new major minor).start) where
  step_target := by
    intro server event next bytes index completion hhandle htarget
    cases event with
    | accepted => cases htarget
    | stop => cases htarget
    | completed index' completion' =>
        cases htarget
        obtain ⟨conn, hconn, hrest⟩ := Option.bind_eq_some_iff.mp hhandle
        obtain ⟨⟨conn', bytes'⟩, hcomplete, hresult⟩ := Option.bind_eq_some_iff.mp hrest
        cases hresult
        refine ⟨conn, conn', hconn, hcomplete, ?_⟩
        obtain ⟨hindex, -⟩ := List.getElem?_eq_some_iff.mp hconn
        simp [hindex]
  step_other := by
    intro server event next bytes index hhandle hother
    cases event with
    | accepted failed major minor =>
        simp only [Server.handle, Server.doAccept] at hhandle
        split at hhandle
        · cases hhandle
          exact Or.inl rfl
        · split at hhandle
          · cases hhandle
            exact Or.inl rfl
          · cases hhandle
            rcases lt_trichotomy index server.connections.length with hlt | rfl | hgt
            · exact Or.inl (List.getElem?_append_left hlt)
            · obtain ⟨major', minor', hnew⟩ := server.newConnection.property
              refine Or.inr ⟨List.getElem?_eq_none le_rfl, _, List.getElem?_concat_length, ?_⟩
              exact ⟨major', minor', by rw [hnew]⟩
            · refine Or.inl ?_
              rw [List.getElem?_eq_none hgt.le, List.getElem?_eq_none]
              simpa using Nat.succ_le_of_lt hgt
    | stop =>
        cases hhandle
        exact Or.inl rfl
    | completed index' completion =>
        obtain ⟨conn, hconn, hrest⟩ := Option.bind_eq_some_iff.mp hhandle
        obtain ⟨⟨conn', bytes'⟩, hcomplete, hresult⟩ := Option.bind_eq_some_iff.mp hrest
        cases hresult
        have hne : index' ≠ index := by
          rintro rfl
          exact hother completion rfl
        exact Or.inl (List.getElem?_set_ne hne)

/-- What a connection can do by itself it can do on the server. -/
theorem ran_completed {server : Server} {index : Nat} {conn conn' : Connection}
    {history : List (Completion × Bytes)} (hconn : server.connections[index]? = some conn)
    (hran : Ran (Connection.complete handlers) conn history conn') :
    Ran (Server.handle handlers) server
      (history.map fun entry => (.completed index entry.1, entry.2))
      { server with connections := server.connections.set index conn' } := by
  induction history generalizing server conn with
  | nil =>
      cases hran
      have hsame : server.connections.set index conn' = server.connections := by
        obtain ⟨hindex, hget⟩ := List.getElem?_eq_some_iff.mp hconn
        rw [← hget]
        exact List.set_getElem_self hindex
      rw [hsame]
      rfl
  | cons entry history ih =>
      obtain ⟨completion, bytes⟩ := entry
      obtain ⟨next, hcomplete, htail⟩ := hran
      obtain ⟨hindex, -⟩ := List.getElem?_eq_some_iff.mp hconn
      let stepped : Server := { server with connections := server.connections.set index next }
      have hget : stepped.connections[index]? = some next := by simp [stepped, hindex]
      refine ⟨stepped, ?_, ?_⟩
      · simp [stepped, Server.handle, hconn, hcomplete]
      · simpa [stepped] using ih hget htail

/-- The handlers for a client that sends a request in pieces and is sent an answer. -/
def servedHistory (pieces : List Bytes) (answer : Bytes) : List (ServerEvent × Bytes) :=
  (.accepted false 0 0, []) :: (pieces.map (fun piece => (.completed 0 (.read piece), [])) ++
    [(.completed 0 .written, answer)])

theorem ran_servedHistory (handlers : HandlerList) (major minor : Int) {req : Request}
    (hreq : req.Sendable) {pieces : List Bytes} (hpieces : pieces.flatten = req.wire)
    (hsize : ∀ piece ∈ pieces, piece ≠ [] ∧ piece.length ≤ bufferSize) :
    ∃ server conn, Ran (Server.handle handlers) (.new major minor)
      (servedHistory pieces (handleRequest handlers req).2.wire) server ∧
        server.connections[0]? = some conn := by
  let conn := (Connection.new major minor).start
  have hfeed : requestConsumer.feed (conn.requestParser, conn.request) pieces.flatten =
      .ended (.good req, []) := by
    rw [hpieces, ← List.append_nil req.wire]
    exact feed_request major minor hreq []
  obtain ⟨parser, hread⟩ := ran_pieces handlers rfl hsize hfeed
  have hown : Ran (Connection.complete handlers) conn
      (pieces.map (fun piece => (.read piece, [])) ++
        [(.written, (handleRequest handlers req).2.wire)]) _ :=
    ran_append_iff.mpr ⟨_, hread, _, rfl, rfl⟩
  let accepted : Server := ⟨[conn], ⟨.new 0 0, 0, 0, rfl⟩, true⟩
  have hconn : accepted.connections[0]? = some conn := rfl
  have hserved := ran_completed hconn hown
  rw [List.map_append, List.map_map] at hserved
  exact ⟨_, _, ⟨accepted, rfl, hserved⟩, rfl⟩

/-! ## The server of `main` -/

/-- The handler `main` adds. -/
def hello : Handle := fun _ =>
  let rep := Reply.ofContent (bytes "hello world")
  { rep with headers := rep.headers.insert (bytes "Content-Type") (bytes "text/plain") }

def mainHandlers : HandlerList := [(bytes "/hello", hello)]

theorem registered_mainHandlers : Registered mainHandlers mainHandlers :=
  .reg .none ⟨List.Perm.refl _, List.pairwise_singleton _ _⟩

/-- The path `/hello` with an escape in it. -/
def greetingPath : List (UInt8 × Spelling) :=
  [(byte '/', .plain), (byte 'h', .plain), (byte 'e', .plain), (byte 'l', .plain),
    (byte 'l', .escape false true), (byte 'o', .plain)]

def greeting : Request := ⟨bytes "GET", urlEncode greetingPath, 1, 0, ∅⟩

theorem greetingPath_admits : ∀ letter ∈ greetingPath, letter.2.Admits letter.1 := by decide

theorem greeting_sendable : greeting.Sendable where
  method_ne := by decide
  method_token := List.all_eq_true.mp (by decide)
  uri_clean := by
    have hall : (greeting.uri.all fun c => !isCtl c && c != byte ' ') = true := by decide
    simpa using hall
  major_nonneg := by decide
  major_le := by decide
  minor_nonneg := by decide
  minor_le := by decide
  headers_clean := cleanHeaders_empty

/-- The request as it may arrive. -/
def greetingPieces : List Bytes :=
  [bytes "GET /he", bytes "l%6", bytes "Co HTTP/1.0\r\n\r", bytes "\n"]

/-- What the client is sent. -/
def greetingAnswer : Bytes := (handleRequest mainHandlers greeting).2.wire

theorem ran_greeting : ∃ server conn, Ran (Server.handle mainHandlers) (.new 0 0)
    (servedHistory greetingPieces greetingAnswer) server ∧ server.connections[0]? = some conn :=
  ran_servedHistory mainHandlers 0 0 greeting_sendable (by decide +kernel) (by decide +kernel)

/-! ## What clients are sent -/

/-- Each connection of a server stands as if it were the only one. -/
theorem standing_of_served {major minor : Int} {server : Server}
    {history : List (ServerEvent × Bytes)}
    (hran : Ran (Server.handle handlers) (.new major minor) history server) {index : Nat}
    {conn : Connection} (hconn : server.connections[index]? = some conn) :
    ∃ major minor, Standing handlers major minor conn (connectionHistory index history) := by
  obtain ⟨before, hbefore, hown⟩ := (server_hosts handlers).ran hran hconn
  obtain ⟨major, minor, rfl⟩ : ∃ major minor, before = (Connection.new major minor).start := by
    rcases hbefore with hsome | ⟨-, hnew⟩
    · cases hsome
    · exact hnew
  exact ⟨major, minor, standing_of_ran hown⟩

/-- Whatever the other connections do and however the input is cut into pieces, every
connection gives the one answer to what it has received, at most once. -/
theorem connection_answersOnce {major minor : Int} {server : Server}
    {history : List (ServerEvent × Bytes)}
    (hran : Ran (Server.handle handlers) (.new major minor) history server) {index : Nat}
    {conn : Connection} (hconn : server.connections[index]? = some conn) :
    AnswersOnce handlers conn (connectionHistory index history) := by
  obtain ⟨major, minor, hstanding⟩ := standing_of_served hran hconn
  exact hstanding.answersOnce

theorem connection_answersOnce_greeting : ∃ conn,
    AnswersOnce mainHandlers conn
      (connectionHistory 0 (servedHistory greetingPieces greetingAnswer)) := by
  obtain ⟨server, conn, hran, hconn⟩ := ran_greeting
  exact ⟨conn, connection_answersOnce hran hconn⟩

/-- The bytes a client is sent depend on nothing but the bytes it has sent. -/
theorem sent_comparable {major minor major' minor' : Int} {server server' : Server}
    {history history' : List (ServerEvent × Bytes)}
    (hran : Ran (Server.handle handlers) (.new major minor) history server)
    (hran' : Ran (Server.handle handlers) (.new major' minor') history' server')
    {index index' : Nat} (hindex : index < server.connections.length)
    (hindex' : index' < server'.connections.length)
    (hreceived : received (connectionHistory index history) <+:
      received (connectionHistory index' history')) :
    (sent (connectionHistory index history) <+: sent (connectionHistory index' history') ∨
      sent (connectionHistory index' history') <+: sent (connectionHistory index history)) ∧
    (¬ Unwritten (connectionHistory index history) →
      ¬ Unwritten (connectionHistory index' history') →
        sent (connectionHistory index history) = sent (connectionHistory index' history')) := by
  obtain ⟨_, _, hstanding⟩ := standing_of_served hran (List.getElem?_eq_getElem hindex)
  obtain ⟨_, _, hstanding'⟩ := standing_of_served hran' (List.getElem?_eq_getElem hindex')
  exact hstanding.answersOnce.comparable hstanding'.answersOnce hreceived

theorem sent_comparable_greeting :
    sent (connectionHistory 0 (servedHistory greetingPieces greetingAnswer)) =
      sent (connectionHistory 0 (servedHistory [greeting.wire] greetingAnswer)) := by
  obtain ⟨server, conn, hran, hconn⟩ := ran_greeting
  have hpiece : [greeting.wire].flatten = greeting.wire := List.flatten_singleton
  obtain ⟨server', conn', hran', hconn'⟩ :=
    ran_servedHistory mainHandlers 1 1 greeting_sendable hpiece (by decide +kernel)
  obtain ⟨hindex, -⟩ := List.getElem?_eq_some_iff.mp hconn
  obtain ⟨hindex', -⟩ := List.getElem?_eq_some_iff.mp hconn'
  refine (sent_comparable hran hran' hindex hindex' (by decide +kernel)).2 ?_ ?_
  · exact fun hunwritten => hunwritten greetingAnswer (by decide +kernel)
  · exact fun hunwritten => hunwritten greetingAnswer (by decide +kernel)

/-- The behaviour of the server is undefined exactly where some client has sent a version
number above `versionMax`. -/
theorem handle_undefined_iff {major minor : Int} {server : Server}
    {history : List (ServerEvent × Bytes)}
    (hran : Ran (Server.handle handlers) (.new major minor) history server) {index : Nat}
    {conn : Connection} (hconn : server.connections[index]? = some conn)
    (hpending : conn.pending = .read) {data : Bytes} (hsize : data.length ≤ bufferSize) :
    server.handle handlers (.completed index (.read data)) = none ↔
      ∃ word, word <+: received (connectionHistory index history) ++ data ∧
        Overflows word := by
  obtain ⟨major, minor, hstanding⟩ := standing_of_served hran hconn
  have hmore := hstanding.feed_received hpending
  have hnone : server.handle handlers (.completed index (.read data)) = none ↔
      conn.complete handlers (.read data) = none := by
    cases hcomplete : conn.complete handlers (.read data) <;>
      simp [Server.handle, hconn, hcomplete]
  rw [hnone, complete_read_eq_none_iff hpending hsize, ← feed_append_of_more hmore,
    feed_overflow_iff]
  constructor
  · rintro ⟨word, tail, heq, hoverflows⟩
    exact ⟨word, ⟨tail, heq.symm⟩, hoverflows⟩
  · rintro ⟨word, ⟨tail, heq⟩, hoverflows⟩
    exact ⟨word, tail, heq.symm, hoverflows⟩

theorem handle_undefined_iff_large : ∃ word,
    word <+: bytes "GET / HTTP/2147483648" ∧ Overflows word := by
  have hran : Ran (Server.handle mainHandlers) (.new 0 0) [(.accepted false 0 0, [])]
      ⟨[(Connection.new 0 0).start], ⟨.new 0 0, 0, 0, rfl⟩, true⟩ := ⟨_, rfl, rfl⟩
  exact (handle_undefined_iff hran (List.getElem?_cons_zero) rfl (by decide +kernel)).mp
    (by decide +kernel)

/-- A client that writes its path in any spelling is answered by the handler registered
for the longest prefix of that path, whatever it sends behind its request, and the
server does not wait for more. -/
theorem request_served {calls : HandlerList} (hregistered : Registered calls handlers)
    {major minor : Int} {server : Server} {history : List (ServerEvent × Bytes)}
    (hran : Ran (Server.handle handlers) (.new major minor) history server) {index : Nat}
    {conn : Connection} (hconn : server.connections[index]? = some conn) {req : Request}
    (hreq : req.Sendable) {spelled : List (UInt8 × Spelling)}
    (hadmits : ∀ letter ∈ spelled, letter.2.Admits letter.1) (huri : req.uri = urlEncode spelled)
    (hreceived : req.wire <+: received (connectionHistory index history)) :
    conn.pending ≠ .read ∧
      ∃ rep, Routed calls { req with uri := spelled.map Prod.fst } rep ∧
        sent (connectionHistory index history) <+: rep.wire ∧
        (¬ Unwritten (connectionHistory index history) →
          sent (connectionHistory index history) = rep.wire) := by
  obtain ⟨major, minor, hstanding⟩ := standing_of_served hran hconn
  constructor
  · intro hpending
    have hmore := hstanding.feed_received hpending
    obtain ⟨rest, hrest⟩ := hreceived
    rw [← hrest, feed_request major minor hreq rest] at hmore
    cases hmore
  · have hdecode : urlDecode req.uri = some (spelled.map Prod.fst) := by
      rw [huri, urlDecode_urlEncode hadmits]
    have hanswers : Answers handlers req.wire (handleRequest handlers req).2 := by
      have hserved : Answers handlers hreq.text.wire _ := .served hreq.text (List.prefix_refl _)
      rwa [hreq.wire_text, hreq.request_text] at hserved
    exact ⟨_, hregistered.routed hdecode, hstanding.answersOnce.of_prefix hanswers hreceived⟩

theorem request_served_greeting : ∃ rep,
    Routed mainHandlers { greeting with uri := bytes "/hello" } rep ∧
      sent (connectionHistory 0 (servedHistory greetingPieces greetingAnswer)) = rep.wire := by
  obtain ⟨server, conn, hran, hconn⟩ := ran_greeting
  obtain ⟨-, rep, hrouted, -, hsent⟩ :=
    request_served registered_mainHandlers hran hconn greeting_sendable
      greetingPath_admits rfl (by decide +kernel)
  exact ⟨rep, hrouted, hsent fun hunwritten => hunwritten greetingAnswer (by decide +kernel)⟩

/-- However long a request is and into whatever pieces it is cut, a server can read it to
its end and send the reply. -/
theorem served_in_pieces {calls : HandlerList} (hregistered : Registered calls handlers)
    (major minor : Int) {req : Request} (hreq : req.Sendable)
    {spelled : List (UInt8 × Spelling)}
    (hadmits : ∀ letter ∈ spelled, letter.2.Admits letter.1) (huri : req.uri = urlEncode spelled)
    {pieces : List Bytes} (hpieces : pieces.flatten = req.wire)
    (hsize : ∀ piece ∈ pieces, piece ≠ [] ∧ piece.length ≤ bufferSize) :
    ∃ rep server, Routed calls { req with uri := spelled.map Prod.fst } rep ∧
      Ran (Server.handle handlers) (.new major minor) (servedHistory pieces rep.wire) server := by
  obtain ⟨server, conn, hran, -⟩ := ran_servedHistory handlers major minor hreq hpieces hsize
  have hdecode : urlDecode req.uri = some (spelled.map Prod.fst) := by
    rw [huri, urlDecode_urlEncode hadmits]
  exact ⟨_, server, hregistered.routed hdecode, hran⟩

theorem served_in_pieces_greeting : ∃ rep server,
    Routed mainHandlers { greeting with uri := bytes "/hello" } rep ∧
      Ran (Server.handle mainHandlers) (.new 0 0) (servedHistory greetingPieces rep.wire)
        server :=
  served_in_pieces registered_mainHandlers 0 0 greeting_sendable greetingPath_admits rfl
    (by decide +kernel) (by decide +kernel)

end RedisDB.Http
