import Mathlib.Data.List.Nodup
import RedisDB.Http.Reply
import RedisDB.Http.UrlDecode
import RedisDB.Library.RankedSearch

/-!
# `request_handler`

Handlers are registered for URL prefixes before the server runs.  After each
registration the list is sorted by falling length of the prefix; `std::sort` may
leave prefixes of one length in any order, so a registration is a relation.
-/

namespace RedisDB.Http

open RedisDB.Library

/-- `request_handler::handle`.  A registered `std::function` is taken to be pure, so that
its reply depends on the request alone, and not to throw. -/
abbrev Handle := Request → Reply

/-- `handler_list_`. -/
abbrev HandlerList := List (Bytes × Handle)

/-- The comparison of `reg` puts longer prefixes first. -/
def urlLength (item : Bytes × Handle) : Nat := item.1.length

/-- What `request_handler::reg` can leave behind. -/
def Reg (handlers : HandlerList) (url : Bytes) (handler : Handle) (after : HandlerList) : Prop :=
  after.Perm (handlers ++ [(url, handler)]) ∧ Falling urlLength after

/-- The list after the given registrations, the first of them first. -/
inductive Registered : HandlerList → HandlerList → Prop where
  | none : Registered [] []
  | reg {calls handlers after : HandlerList} {url : Bytes} {handler : Handle}
      (hcalls : Registered calls handlers) (hreg : Reg handlers url handler after) :
      Registered (calls ++ [(url, handler)]) after

/-- `req.uri.substr(0, key.length()) == key`. -/
def handles (uri : Bytes) (item : Bytes × Handle) : Bool := uri.take item.1.length == item.1

/-- `request_handler::handle_request`: the request afterwards and the reply. -/
def handleRequest (handlers : HandlerList) (req : Request) : Request × Reply :=
  match urlDecode req.uri with
  | none => (req, Reply.ofStatus .badRequest)
  | some requestPath =>
      let req := { req with uri := requestPath }
      match handlers.find? (handles req.uri) with
      | some item => (req, item.2 req)
      | none => (req, Reply.ofStatus .notFound)

/-! ## The list of handlers -/

/-- After any registrations the list holds them all, longer prefixes first. -/
theorem Registered.perm_falling {calls handlers : HandlerList}
    (hregistered : Registered calls handlers) :
    handlers.Perm calls ∧ Falling urlLength handlers := by
  induction hregistered with
  | none => exact ⟨List.Perm.refl [], List.Pairwise.nil⟩
  | reg hcalls hreg ih =>
      obtain ⟨hperm, hfalling⟩ := hreg
      exact ⟨hperm.trans (ih.1.append_right _), hfalling⟩

theorem handles_iff {uri : Bytes} {item : Bytes × Handle} :
    handles uri item = true ↔ item.1 <+: uri := by
  rw [handles, beq_iff_eq, List.prefix_iff_eq_take]
  exact eq_comm

/-- Two prefixes of one URL that have one length are the same prefix. -/
theorem url_eq_of_handles {uri : Bytes} {first second : Bytes × Handle}
    (hfirst : handles uri first = true) (hsecond : handles uri second = true)
    (hlength : urlLength first = urlLength second) : first.1 = second.1 := by
  rw [handles, beq_iff_eq] at hfirst hsecond
  rw [← hfirst, ← hsecond]
  exact congrArg (fun length => uri.take length) hlength

theorem handleRequest_of_decode {handlers : HandlerList} {req : Request} {path : Bytes}
    (hdecode : urlDecode req.uri = some path) :
    (handleRequest handlers req).2 =
      match handlers.find? (handles path) with
      | some item => item.2 { req with uri := path }
      | none => Reply.ofStatus .notFound := by
  unfold handleRequest
  rw [hdecode]
  dsimp only
  cases handlers.find? (handles path) <;> rfl

/-! ## Which handler answers -/

/-- The reply to a decoded request: of a handler registered for the longest prefix of its
path, and `404 Not Found` exactly where no handler is registered for one. -/
def Routed (calls : HandlerList) (req : Request) (rep : Reply) : Prop :=
  (∃ call ∈ calls, call.1 <+: req.uri ∧
    (∀ other ∈ calls, other.1 <+: req.uri → other.1.length ≤ call.1.length) ∧
    rep = call.2 req) ∨
  (∀ call ∈ calls, ¬ call.1 <+: req.uri) ∧ rep = Reply.ofStatus .notFound

theorem Registered.routed {calls handlers : HandlerList} (hregistered : Registered calls handlers)
    {req : Request} {path : Bytes} (hdecode : urlDecode req.uri = some path) :
    Routed calls { req with uri := path } (handleRequest handlers req).2 := by
  obtain ⟨hperm, hfalling⟩ := hregistered.perm_falling
  rw [handleRequest_of_decode hdecode]
  cases hfind : handlers.find? (handles path) with
  | some item =>
      have hmem := List.mem_of_find?_eq_some hfind
      refine Or.inl ⟨item, hperm.mem_iff.mp hmem, handles_iff.mp (List.find?_some hfind), ?_, rfl⟩
      intro other hother hbegins
      exact hfalling.rank_le_of_find? hfind (hperm.mem_iff.mpr hother)
        (handles_iff.mpr hbegins)
  | none =>
      refine Or.inr ⟨fun call hcall hbegins => ?_, rfl⟩
      have hunmatched := List.find?_eq_none.mp hfind call (hperm.mem_iff.mpr hcall)
      exact hunmatched (handles_iff.mpr hbegins)

/-- A path that cannot be decoded is answered with `400 Bad Request`, every other one by
the longest of the prefixes registered, whatever the sort did with those of one length. -/
theorem handleRequest_routes {calls handlers : HandlerList}
    (hregistered : Registered calls handlers) (req : Request) :
    (urlDecode req.uri = none → (handleRequest handlers req).2 = Reply.ofStatus .badRequest) ∧
    ∀ path, urlDecode req.uri = some path →
      Routed calls { req with uri := path } (handleRequest handlers req).2 := by
  constructor
  · intro hdecode
    simp only [handleRequest, hdecode]
  · intro path hdecode
    exact hregistered.routed hdecode

theorem handleRequest_routes_page :
    Routed [(bytes "/", fun _ => .new), (bytes "/page", fun req => .ofContent req.uri)]
      ⟨bytes "GET", bytes "/page 1", 1, 0, ∅⟩
      (handleRequest [(bytes "/page", fun req => .ofContent req.uri), (bytes "/", fun _ => .new)]
        ⟨bytes "GET", bytes "/page+1", 1, 0, ∅⟩).2 := by
  have hregistered : Registered
      [(bytes "/", fun _ => .new), (bytes "/page", fun req => .ofContent req.uri)]
      [(bytes "/page", fun req => .ofContent req.uri), (bytes "/", fun _ => .new)] := by
    apply Registered.reg (.reg .none ⟨List.Perm.refl _, List.pairwise_singleton _ _⟩)
    refine ⟨List.Perm.swap _ _ _, List.pairwise_pair.mpr ?_⟩
    decide
  exact (handleRequest_routes hregistered ⟨bytes "GET", bytes "/page+1", 1, 0, ∅⟩).2
    (bytes "/page 1") (by decide +kernel)

/-- Where no URL is registered twice, neither the order of the registrations nor what
the sort does with prefixes of one length can be seen in any reply. -/
theorem handleRequest_eq_of_perm {calls calls' handlers handlers' : HandlerList}
    (hnodup : (calls.map Prod.fst).Nodup) (hcalls : calls.Perm calls')
    (hregistered : Registered calls handlers) (hregistered' : Registered calls' handlers')
    (req : Request) : handleRequest handlers req = handleRequest handlers' req := by
  obtain ⟨hperm, hfalling⟩ := hregistered.perm_falling
  obtain ⟨hperm', hfalling'⟩ := hregistered'.perm_falling
  have hsame : handlers.Perm handlers' := hperm.trans (hcalls.trans hperm'.symm)
  have hnodup' : (handlers.map Prod.fst).Nodup := (hperm.map Prod.fst).nodup_iff.mpr hnodup
  unfold handleRequest
  cases urlDecode req.uri with
  | none => rfl
  | some path =>
      have hfind : handlers.find? (handles path) = handlers'.find? (handles path) := by
        apply hfalling.find?_eq_of_perm hfalling' hsame
        intro first hfirst second hsecond hmatch hmatch' hlength
        exact List.inj_on_of_nodup_map hnodup' hfirst hsecond
          (url_eq_of_handles hmatch hmatch' hlength)
      dsimp only
      rw [hfind]

theorem handleRequest_eq_of_perm_pair :
    handleRequest [(bytes "/a", fun _ => .new), (bytes "/b", fun req => .ofContent req.uri)]
        ⟨bytes "GET", bytes "/b", 1, 0, ∅⟩ =
      handleRequest [(bytes "/b", fun req => .ofContent req.uri), (bytes "/a", fun _ => .new)]
        ⟨bytes "GET", bytes "/b", 1, 0, ∅⟩ := by
  have hregistered : ∀ first second : Bytes × Handle, first.1.length = second.1.length →
      Registered [first, second] [first, second] := by
    intro first second hlength
    apply Registered.reg (.reg .none ⟨List.Perm.refl _, List.pairwise_singleton _ _⟩)
    exact ⟨List.Perm.refl _, List.pairwise_pair.mpr hlength.ge⟩
  exact handleRequest_eq_of_perm (by decide) (List.Perm.swap _ _ _)
    (hregistered _ _ (by decide)) (hregistered _ _ (by decide)) _

end RedisDB.Http
