import FilterQuery.Suggestion.Basic

/-!
The requests of one editor for suggestions. A request waits for a quiet period before it is sent; a
newer one takes its place. At most one request that has been sent is still waited for, and answers
to all others are discarded. Times are in milliseconds.
-/

namespace FilterQuery

inductive SessionState where
  | idle
  /-- The request may be sent from the time `due` on. -/
  | debouncing (due : Nat) (request : SuggestionRequest)
  /-- The request has been sent under this version. -/
  | inFlight (version : Nat) (request : SuggestionRequest)
  deriving DecidableEq, Repr

structure Session where
  state : SessionState := .idle
  /-- The length of the quiet period. -/
  debounce : Nat := 250
  /-- The version that is not cancelled. -/
  active : Nat := 0
  deriving DecidableEq, Repr

namespace Session

/-- Gives up the request that waits or has been sent. -/
def cancel (s : Session) : Session :=
  match s.state with
  | .inFlight .. => { s with state := .idle, active := s.active + 1 }
  | _ => { s with state := .idle }

/-- Starts the quiet period for a request, in place of all before it. -/
def schedule (s : Session) (request : SuggestionRequest) (now : Nat) : Session :=
  { s.cancel with state := .debouncing (now + s.debounce) request }

/-- Sends the request that waits, if its quiet period is over. -/
def poll? (s : Session) (now : Nat) : Option (Nat × SuggestionRequest × Session) :=
  match s.state with
  | .debouncing due request =>
    if now < due then none
    else
      let version := s.active + 1
      some (version, request, { s with state := .inFlight version request, active := version })
  | _ => none

/-- Whether answers to the request that was sent under this version are discarded. -/
def isCancelled (s : Session) (version : Nat) : Bool := s.active != version

/-- The state after an answer to the request that was sent under this version; `none` if the answer
is to be discarded. -/
def complete? (s : Session) (version : Nat) : Option Session :=
  match s.state with
  | .inFlight current _ =>
    if !s.isCancelled version && current == version then some { s with state := .idle } else none
  | _ => none

def isIdle (s : Session) : Bool := s.state == .idle

def isInFlight (s : Session) : Bool :=
  match s.state with
  | .inFlight .. => true
  | _ => false

end Session
end FilterQuery
