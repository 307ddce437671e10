import FilterQuery.Suggestion.Session

/-!
Sessions along a run of calls, in any order and at any times. The log of a run has every call with
what came back from it, and the state of the session is what the log says: a request waits if
nothing has taken its place since it was scheduled, and is waited for if nothing has since it was
sent and its answer has not come in. So every request is sent once at most, and every answer is
accepted once at most and only while its request is the last one.
-/

namespace FilterQuery

namespace Session

/-! ### Runs -/

/-- A call on a session. -/
inductive Call where
  | schedule (request : SuggestionRequest) (now : Nat)
  | cancel
  | poll (now : Nat)
  | complete (version : Nat)
  deriving DecidableEq, Repr

/-- A call and what came back from it. -/
inductive Event where
  | scheduled (request : SuggestionRequest) (time : Nat)
  | cancelled
  /-- The request that waited was sent under a version. -/
  | sent (version : Nat) (request : SuggestionRequest)
  /-- No request was ready to be sent. -/
  | waited
  /-- The answer to the request with this version was accepted. -/
  | settled (version : Nat)
  | discarded (version : Nat)
  deriving DecidableEq, Repr

namespace Event

/-- Whether the event takes the place of every request before it. -/
def supersedes : Event → Bool
  | scheduled .. | cancelled | sent .. => true
  | waited | settled _ | discarded _ => false

def isScheduled : Event → Bool
  | scheduled .. => true
  | _ => false

def isSent : Event → Bool
  | sent .. => true
  | _ => false

/-- The version that was given to a request. -/
def version? : Event → Option Nat
  | sent version _ => some version
  | _ => none

end Event

def call (s : Session) : Call → Event × Session
  | .schedule request now => (.scheduled request now, s.schedule request now)
  | .cancel => (.cancelled, s.cancel)
  | .poll now =>
    match s.poll? now with
    | some (version, request, t) => (.sent version request, t)
    | none => (.waited, s)
  | .complete version =>
    match s.complete? version with
    | some t => (.settled version, t)
    | none => (.discarded version, s)

/-- The session behind a run of calls. -/
def run (s : Session) (calls : List Call) : Session :=
  calls.foldl (fun s c => (s.call c).2) s

/-- The events of a run of calls, the oldest first. -/
def log (s : Session) : List Call → List Event
  | [] => []
  | c :: calls => (s.call c).1 :: log (s.call c).2 calls

/-- What a call can do: it says which event it is, and how the session changes with that. -/
inductive Moves (s : Session) : Event → Session → Prop where
  | schedule {request : SuggestionRequest} {now active : Nat} : s.active ≤ active →
    Moves s (.scheduled request now)
      { s with state := .debouncing (now + s.debounce) request, active }
  | cancel {active : Nat} : s.active ≤ active → Moves s .cancelled { s with state := .idle, active }
  | send {due : Nat} {request : SuggestionRequest} : s.state = .debouncing due request →
    Moves s (.sent (s.active + 1) request)
      { s with state := .inFlight (s.active + 1) request, active := s.active + 1 }
  | wait : Moves s .waited s
  | settle {version : Nat} {request : SuggestionRequest} : s.state = .inFlight version request →
    Moves s (.settled version) { s with state := .idle }
  | discard {version : Nat} : Moves s (.discarded version) s

theorem cancel_eq (s : Session) :
    ∃ active, s.active ≤ active ∧ s.cancel = { s with state := .idle, active } := by
  rw [cancel]
  split
  · exact ⟨s.active + 1, Nat.le_succ _, rfl⟩
  · exact ⟨s.active, Nat.le_refl _, rfl⟩

/-- Polling succeeds exactly when a request waits and its quiet period is over. -/
theorem poll?_eq_some_iff {s t : Session} {now version : Nat} {request : SuggestionRequest} :
    s.poll? now = some (version, request, t) ↔
      ∃ due, s.state = .debouncing due request ∧ due ≤ now ∧ version = s.active + 1 ∧
        t = { s with state := .inFlight version request, active := version } := by
  rw [poll?]
  split <;> rename_i hs
  · rename_i due request'
    constructor
    · intro h
      split at h
      · cases h
      · rename_i hn
        cases h
        exact ⟨due, hs, Nat.le_of_not_lt hn, rfl, rfl⟩
    · rintro ⟨due', hd, hn, rfl, rfl⟩
      obtain ⟨rfl, rfl⟩ := SessionState.debouncing.inj (hs.symm.trans hd)
      exact if_neg (Nat.not_lt.2 hn)
  · constructor
    · intro h
      cases h
    · rintro ⟨due, hd, -⟩
      exact absurd hd (hs due request)

/-- An answer is accepted exactly when it belongs to the version in flight and that has not been
cancelled. -/
theorem complete?_eq_some_iff {s t : Session} {version : Nat} :
    s.complete? version = some t ↔
      ∃ request, s.state = .inFlight version request ∧ s.active = version ∧
        t = { s with state := .idle } := by
  rw [complete?]
  split <;> rename_i hs
  · rename_i current request
    simp only [hs, Option.ite_none_right_eq_some, isCancelled, Bool.and_eq_true, beq_iff_eq,
      Bool.not_eq_true', bne_eq_false_iff_eq, Option.some.injEq, SessionState.inFlight.injEq]
    constructor
    · rintro ⟨⟨ha, hc⟩, rfl⟩
      exact ⟨request, ⟨hc, rfl⟩, ha, rfl⟩
    · rintro ⟨request', ⟨hc, -⟩, ha, rfl⟩
      exact ⟨⟨ha, hc⟩, rfl⟩
  · constructor
    · intro h
      cases h
    · rintro ⟨request, hr, -⟩
      exact absurd hr (hs version request)

theorem moves_call (s : Session) (c : Call) : s.Moves (s.call c).1 (s.call c).2 := by
  obtain ⟨active, ha, hc⟩ := s.cancel_eq
  cases c with
  | schedule request now =>
    rw [call, schedule, hc]
    exact .schedule ha
  | cancel =>
    rw [call, hc]
    exact .cancel ha
  | poll now =>
    rw [call]
    split <;> rename_i hp
    · obtain ⟨due, hs, -, rfl, rfl⟩ := poll?_eq_some_iff.1 hp
      exact .send hs
    · exact .wait
  | complete version =>
    rw [call]
    split <;> rename_i hp
    · obtain ⟨request, hs, -, rfl⟩ := complete?_eq_some_iff.1 hp
      exact .settle hs
    · exact .discard

/-! ### What a log says -/

/-- The event has happened, and since then nothing that ends what it began. -/
def Since (ends : Event → Prop) (e : Event) (log : List Event) : Prop :=
  ∃ earlier later, log = earlier ++ e :: later ∧ ∀ x ∈ later, ¬ ends x

/-- The request was the last one to be scheduled, and has been neither cancelled nor sent. -/
def Waits (request : SuggestionRequest) (time : Nat) (log : List Event) : Prop :=
  Since (·.supersedes = true) (.scheduled request time) log

/-- The request has been sent, nothing has taken its place, and its answer has not come in. -/
def Awaited (version : Nat) (request : SuggestionRequest) (log : List Event) : Prop :=
  Since (fun x => x.supersedes = true ∨ x = .settled version) (.sent version request) log

/-- The versions of the requests that have been sent, the oldest first. -/
def versions (log : List Event) : List Nat := log.filterMap Event.version?

/-- Something has taken the place of the request that was sent under the version. -/
def Superseded (version : Nat) (log : List Event) : Prop :=
  ∃ earlier e later, log = earlier ++ e :: later ∧ e.supersedes = true ∧ version ∈ versions earlier

variable {log : List Event} {e x : Event} {version : Nat}

/-- The last place where something stands is the end of a log, or lies before that. -/
theorem append_singleton_eq {earlier later : List Event}
    (h : log ++ [x] = earlier ++ e :: later) :
    (x = e ∧ log = earlier ∧ later = []) ∨
      ∃ later', later = later' ++ [x] ∧ log = earlier ++ e :: later' := by
  rcases List.eq_nil_or_concat later with rfl | ⟨later', y, rfl⟩
  · obtain ⟨hlog, hx⟩ := List.append_inj' h rfl
    exact .inl ⟨List.head_eq_of_cons_eq hx, hlog, rfl⟩
  · rw [List.concat_eq_append, ← List.cons_append, ← List.append_assoc] at h
    obtain ⟨hlog, hx⟩ := List.append_inj' h rfl
    obtain rfl := List.head_eq_of_cons_eq hx
    exact .inr ⟨later', List.concat_eq_append .., hlog⟩

theorem since_append_singleton {ends : Event → Prop} :
    Since ends e (log ++ [x]) ↔ x = e ∨ ¬ ends x ∧ Since ends e log := by
  constructor
  · rintro ⟨earlier, later, h, hl⟩
    rcases append_singleton_eq h with ⟨hx, -⟩ | ⟨later', rfl, hlog⟩
    · exact .inl hx
    · obtain ⟨hl, hx⟩ := List.forall_mem_append.1 hl
      exact .inr ⟨hx x List.mem_cons_self, earlier, later', hlog, hl⟩
  · rintro (rfl | ⟨hx, earlier, later, rfl, hl⟩)
    · exact ⟨log, [], rfl, List.forall_mem_nil _⟩
    · refine ⟨earlier, later ++ [x], by simp, List.forall_mem_append.2 ⟨hl, ?_⟩⟩
      exact List.forall_mem_singleton.2 hx

theorem not_since_nil {ends : Event → Prop} : ¬ Since ends e [] := by
  rintro ⟨earlier, later, h, -⟩
  simp at h

theorem waits_append_singleton {request : SuggestionRequest} {time : Nat} :
    Waits request time (log ++ [x]) ↔
      x = .scheduled request time ∨ x.supersedes = false ∧ Waits request time log := by
  rw [Waits, since_append_singleton, Bool.not_eq_true]
  rfl

theorem awaited_append_singleton {request : SuggestionRequest} :
    Awaited version request (log ++ [x]) ↔ x = .sent version request ∨
      (x.supersedes = false ∧ x ≠ .settled version) ∧ Awaited version request log := by
  rw [Awaited, since_append_singleton, not_or, Bool.not_eq_true]
  rfl

theorem superseded_append_singleton : Superseded version (log ++ [x]) ↔
    Superseded version log ∨ x.supersedes = true ∧ version ∈ versions log := by
  constructor
  · rintro ⟨earlier, y, later, h, hy, hv⟩
    rcases append_singleton_eq h with ⟨rfl, rfl, -⟩ | ⟨later', -, hlog⟩
    · exact .inr ⟨hy, hv⟩
    · exact .inl ⟨earlier, y, later', hlog, hy, hv⟩
  · rintro (⟨earlier, y, later, rfl, hy, hv⟩ | ⟨hx, hv⟩)
    · exact ⟨earlier, y, later ++ [x], by simp, hy, hv⟩
    · exact ⟨log, x, [], rfl, hx, hv⟩

theorem versions_append (log log' : List Event) :
    versions (log ++ log') = versions log ++ versions log' :=
  List.filterMap_append

theorem versions_of_not_isSent (h : x.isSent = false) : versions [x] = [] := by
  cases x with
  | sent => cases h
  | _ => rfl

theorem mem_versions_iff :
    version ∈ versions log ↔ ∃ request, .sent version request ∈ log := by
  rw [versions, List.mem_filterMap]
  constructor
  · rintro ⟨e, he, hv⟩
    cases e with
    | sent v request =>
      cases hv
      exact ⟨request, he⟩
    | _ => cases hv
  · rintro ⟨request, he⟩
    exact ⟨_, he, rfl⟩

theorem Awaited.mem_versions {request : SuggestionRequest} (H : Awaited version request log) :
    version ∈ versions log := by
  obtain ⟨earlier, later, rfl, -⟩ := H
  exact mem_versions_iff.2 ⟨request, List.mem_append_right _ List.mem_cons_self⟩

theorem Superseded.mem_versions (H : Superseded version log) : version ∈ versions log := by
  obtain ⟨earlier, e, later, rfl, -, hv⟩ := H
  obtain ⟨request, hr⟩ := mem_versions_iff.1 hv
  exact mem_versions_iff.2 ⟨request, List.mem_append_left _ hr⟩

/-- The answer to the request that was sent under the version is accepted no more. -/
def Ended (version : Nat) (log : List Event) : Prop :=
  .settled version ∈ log ∨ Superseded version log

theorem ended_append_singleton : Ended version (log ++ [x]) ↔
    Ended version log ∨ x = .settled version ∨ x.supersedes = true ∧ version ∈ versions log := by
  simp only [Ended, superseded_append_singleton, List.mem_append, List.mem_singleton,
    eq_comm (b := x)]
  grind

/-! ### The state is what the log says -/

/-- What ties a session to the log that has led to it. -/
structure Agrees (s : Session) (log : List Event) : Prop where
  waits_iff : ∀ due request, s.state = .debouncing due request ↔
    ∃ time, due = time + s.debounce ∧ Waits request time log
  awaited_iff : ∀ version request, s.state = .inFlight version request ↔
    Awaited version request log
  sorted : (versions log).Pairwise (· < ·)
  le_active : ∀ version ∈ versions log, version ≤ s.active
  active_eq : ∀ version request, s.state = .inFlight version request → s.active = version
  ended : ∀ version, Ended version log →
    version ∈ versions log ∧ ∀ request, s.state ≠ .inFlight version request
  settled_once : ∀ version, log.count (.settled version) ≤ 1

variable {s t : Session} {calls : List Call}

theorem agrees_nil (h : s.state = .idle) : s.Agrees [] where
  waits_iff due request := by
    rw [h]
    exact ⟨nofun, fun ⟨_, _, H⟩ => absurd H not_since_nil⟩
  awaited_iff version request := by
    rw [h]
    exact ⟨nofun, fun H => absurd H not_since_nil⟩
  sorted := .nil
  le_active := List.forall_mem_nil _
  active_eq version request hs := by
    rw [h] at hs
    cases hs
  ended version hv := by
    rcases hv with hv | hv
    · cases hv
    · cases hv.mem_versions
  settled_once version := Nat.zero_le _

section
variable (H : s.Agrees log) (M : s.Moves e t)
include H M

theorem Agrees.waits_step (due : Nat) (request : SuggestionRequest) :
    t.state = .debouncing due request ↔
      ∃ time, due = time + t.debounce ∧ Waits request time (log ++ [e]) := by
  have h := H.waits_iff due request
  simp only [waits_append_singleton]
  cases M with
  | @schedule request' now =>
    simp only [SessionState.debouncing.injEq, Event.scheduled.injEq, Event.supersedes,
      Bool.true_eq_false, false_and, or_false]
    constructor
    · rintro ⟨rfl, rfl⟩
      exact ⟨now, rfl, rfl, rfl⟩
    · rintro ⟨time, rfl, rfl, rfl⟩
      exact ⟨rfl, rfl⟩
  | cancel | send => simp [Event.supersedes]
  | wait | discard => simp [Event.supersedes, h]
  | settle hs =>
    rw [hs] at h
    simpa [Event.supersedes] using h

theorem Agrees.awaited_step (version : Nat) (request : SuggestionRequest) :
    t.state = .inFlight version request ↔ Awaited version request (log ++ [e]) := by
  have h := H.awaited_iff version request
  rw [awaited_append_singleton]
  cases M with
  | schedule | cancel | send => simp [Event.supersedes]
  | wait | discard => simp [Event.supersedes, h]
  | @settle settled request' hs =>
    rw [hs] at h
    -- Only the version that is settled was in flight.
    simp only [Event.supersedes, ← h, SessionState.inFlight.injEq, ne_eq, Event.settled.injEq]
    constructor
    · intro hi
      cases hi
    · rintro (hi | ⟨⟨-, hn⟩, hv, -⟩)
      · cases hi
      · exact absurd hv hn

/-- The versions of requests only grow. -/
theorem Agrees.versions_step :
    (versions (log ++ [e])).Pairwise (· < ·) ∧ ∀ v ∈ versions (log ++ [e]), v ≤ t.active := by
  have h := H.le_active
  rw [versions_append]
  cases M with
  | schedule ha | cancel ha =>
    rw [versions_of_not_isSent rfl, List.append_nil]
    exact ⟨H.sorted, fun v hv => Nat.le_trans (h v hv) ha⟩
  | send =>
    constructor
    · refine List.pairwise_append.2 ⟨H.sorted, List.pairwise_singleton .., fun v hv w hw => ?_⟩
      rw [List.mem_singleton.1 hw]
      exact Nat.lt_succ_of_le (h v hv)
    · refine List.forall_mem_append.2 ⟨fun v hv => Nat.le_succ_of_le (h v hv), ?_⟩
      exact List.forall_mem_singleton.2 (Nat.le_refl _)
  | wait | discard | settle =>
    rw [versions_of_not_isSent rfl, List.append_nil]
    exact ⟨H.sorted, h⟩

theorem Agrees.active_step (version : Nat) (request : SuggestionRequest)
    (h : t.state = .inFlight version request) : t.active = version := by
  cases M with
  | schedule | cancel | settle => cases h
  | send => exact (SessionState.inFlight.inj h).1
  | wait | discard => exact H.active_eq version request h

/-- What has ended does not begin again, for its version is not given away a second time. -/
theorem Agrees.ended_step (version : Nat) (h : Ended version (log ++ [e])) :
    version ∈ versions (log ++ [e]) ∧ ∀ request, t.state ≠ .inFlight version request := by
  have ended := H.ended version
  have sent (request : SuggestionRequest) (hs : s.state = .inFlight version request) :
      version ∈ versions log := ((H.awaited_iff version request).1 hs).mem_versions
  rw [ended_append_singleton] at h
  rw [versions_append]
  cases M with
  | schedule | cancel =>
    simp only [Event.supersedes, true_and, reduceCtorEq, false_or] at h
    refine ⟨List.mem_append_left _ (h.elim (fun h => (ended h).1) id), ?_⟩
    rintro request ⟨⟩
  | send =>
    simp only [Event.supersedes, true_and, reduceCtorEq, false_or] at h
    have hv : version ∈ versions log := h.elim (fun h => (ended h).1) id
    refine ⟨List.mem_append_left _ hv, ?_⟩
    rintro request hs
    have := H.le_active version hv
    have := (SessionState.inFlight.inj hs).1
    omega
  | wait | discard =>
    simp only [Event.supersedes, Bool.false_eq_true, false_and, reduceCtorEq, or_false] at h
    exact ⟨List.mem_append_left _ (ended h).1, (ended h).2⟩
  | settle hs =>
    simp only [Event.supersedes, Bool.false_eq_true, false_and, Event.settled.injEq, or_false] at h
    refine ⟨List.mem_append_left _ (h.elim (fun h => (ended h).1) ?_), ?_⟩
    · rintro rfl
      exact sent _ hs
    · rintro request ⟨⟩

theorem Agrees.settled_step (version : Nat) : (log ++ [e]).count (.settled version) ≤ 1 := by
  have h := H.settled_once version
  rw [List.count_append]
  cases M with
  | settle hs =>
    rename_i settled request
    by_cases hv : settled = version
    · subst hv
      have hn : .settled settled ∉ log := fun hm => (H.ended settled (.inl hm)).2 request hs
      simp [List.count_eq_zero.2 hn]
    · rw [List.count_singleton, if_neg (by simpa using hv)]
      exact h
  | _ => exact h

end

/-- **One call.** What comes back from a call keeps the session and its log in agreement. -/
theorem Agrees.step (H : s.Agrees log) (M : s.Moves e t) : t.Agrees (log ++ [e]) where
  waits_iff := H.waits_step M
  awaited_iff := H.awaited_step M
  sorted := (H.versions_step M).1
  le_active := (H.versions_step M).2
  active_eq := H.active_step M
  ended := H.ended_step M
  settled_once := H.settled_step M

theorem Agrees.run (H : s.Agrees log) (calls : List Call) :
    (s.run calls).Agrees (log ++ s.log calls) := by
  induction calls generalizing s log with
  | nil =>
    rw [Session.log, List.append_nil]
    exact H
  | cons c calls ih =>
    have h := ih (H.step (s.moves_call c))
    rwa [List.append_assoc] at h

theorem debounce_run (s : Session) (calls : List Call) : (s.run calls).debounce = s.debounce := by
  have step {s t : Session} {e : Event} (M : s.Moves e t) : t.debounce = s.debounce := by
    cases M <;> rfl
  induction calls generalizing s with
  | nil => rfl
  | cons c calls ih => exact (ih _).trans (step (s.moves_call c))

/-! ### How often a request is sent -/

/-- Up to the next request that is scheduled, nothing is sent where none waits. -/
theorem countP_isSent_eq_zero (h : ∀ due request, s.state ≠ .debouncing due request)
    (calls : List Call) :
    ((s.log calls).takeWhile (!·.isScheduled)).countP Event.isSent = 0 := by
  induction calls generalizing s with
  | nil => rfl
  | cons c calls ih =>
    have M := s.moves_call c
    rw [log]
    generalize (s.call c).1 = e at M
    generalize (s.call c).2 = t at M
    cases M with
    | schedule => rfl
    | send hs => exact absurd hs (h _ _)
    | cancel | settle => exact ih fun _ _ h => nomatch h
    | wait | discard => exact ih h

/-- Up to the next request that is scheduled, one is sent at most. -/
theorem countP_isSent_le_one (s : Session) (calls : List Call) :
    ((s.log calls).takeWhile (!·.isScheduled)).countP Event.isSent ≤ 1 := by
  induction calls generalizing s with
  | nil => exact Nat.zero_le _
  | cons c calls ih =>
    have M := s.moves_call c
    rw [log]
    generalize (s.call c).1 = e at M
    generalize (s.call c).2 = t at M
    cases M with
    | schedule => exact Nat.zero_le _
    | @send _ request hs =>
      have hn : ∀ due other, SessionState.inFlight (s.active + 1) request ≠ .debouncing due other :=
        fun _ _ h => nomatch h
      have hz := countP_isSent_eq_zero (s := { s with state := _, active := s.active + 1 }) hn calls
      refine Nat.le_of_eq ?_
      rw [List.takeWhile_cons_of_pos rfl, List.countP_cons_of_pos rfl, hz]
    | cancel | settle | wait | discard => exact ih _

/-- What follows in a log is the log of the calls that follow. -/
theorem log_eq_append {earlier later : List Event} (h : s.log calls = earlier ++ later) :
    ∃ (t : Session) (calls' : List Call), later = t.log calls' := by
  induction earlier generalizing s calls with
  | nil => exact ⟨s, calls, h.symm⟩
  | cons e earlier ih =>
    cases calls with
    | nil => cases h
    | cons c calls => exact ih (List.cons.inj h).2

/-! ### Safety -/

/-- What a session does next, and what it has done, as its log has it. -/
structure Safe (debounce : Nat) (s : Session) (log : List Event) : Prop where
  /-- No version is given away twice. -/
  nodup_versions : (versions log).Nodup
  /-- At most one of the requests that have been sent is not cancelled. -/
  live_unique : ∀ v ∈ versions log, ∀ w ∈ versions log,
    s.isCancelled v = false → s.isCancelled w = false → v = w
  /-- The request in flight has been sent and is not cancelled. -/
  live_of_inFlight : ∀ version request, s.state = .inFlight version request →
    .sent version request ∈ log ∧ s.isCancelled version = false
  /-- An answer is accepted exactly if it is the answer to the request in flight. -/
  complete_iff : ∀ version,
    (s.complete? version).isSome = true ↔ ∃ request, s.state = .inFlight version request
  settled_once : ∀ version, log.count (.settled version) ≤ 1
  /-- No answer is accepted once something has taken the place of its request. -/
  complete_eq_none : ∀ version, Superseded version log → s.complete? version = none
  /-- A request is sent exactly if it was the last one to be scheduled, nothing has taken its place
  since, and its quiet period is over. -/
  poll_iff : ∀ now request, (∃ version t, s.poll? now = some (version, request, t)) ↔
    ∃ time, Waits request time log ∧ time + debounce ≤ now
  /-- Between one request that is scheduled and the next, only one is sent. -/
  sent_once : ∀ earlier request time later, log = earlier ++ .scheduled request time :: later →
    (later.takeWhile (!·.isScheduled)).countP Event.isSent ≤ 1

theorem Agrees.isSome_complete?_iff (H : s.Agrees log) :
    (s.complete? version).isSome = true ↔ ∃ request, s.state = .inFlight version request := by
  rw [Option.isSome_iff_exists]
  constructor
  · rintro ⟨t, ht⟩
    obtain ⟨request, hs, -⟩ := complete?_eq_some_iff.1 ht
    exact ⟨request, hs⟩
  · rintro ⟨request, hs⟩
    exact ⟨_, complete?_eq_some_iff.2 ⟨request, hs, H.active_eq _ _ hs, rfl⟩⟩

theorem Agrees.poll?_iff (H : s.Agrees log) (now : Nat) (request : SuggestionRequest) :
    (∃ version t, s.poll? now = some (version, request, t)) ↔
      ∃ time, Waits request time log ∧ time + s.debounce ≤ now := by
  simp only [poll?_eq_some_iff]
  constructor
  · rintro ⟨_, _, due, hs, hn, -⟩
    obtain ⟨time, rfl, hw⟩ := (H.waits_iff due request).1 hs
    exact ⟨time, hw, hn⟩
  · rintro ⟨time, hw, hn⟩
    exact ⟨_, _, _, (H.waits_iff _ request).2 ⟨time, rfl, hw⟩, hn, rfl, rfl⟩

/-- **Safety of a session over every run.** However calls follow each other, a session sends every
request once at most, and accepts an answer only if it is the answer to the last one. -/
theorem safe_of_run (debounce : Nat) (calls : List Call) :
    Safe debounce (run { debounce } calls) (Session.log { debounce } calls) := by
  have H : (run { debounce } calls).Agrees (Session.log { debounce } calls) :=
    (agrees_nil rfl).run calls
  have hd : (run { debounce } calls).debounce = debounce := debounce_run _ calls
  generalize run { debounce } calls = s at H hd
  refine ⟨H.sorted.imp fun h => Nat.ne_of_lt h, ?_, ?_, ?_, H.settled_once, ?_, ?_, ?_⟩
  · intro v _ w _ hv hw
    rw [isCancelled, bne_eq_false_iff_eq] at hv hw
    exact hv.symm.trans hw
  · intro version request hs
    obtain ⟨earlier, later, hl, -⟩ := (H.awaited_iff version request).1 hs
    refine ⟨hl ▸ List.mem_append_right _ List.mem_cons_self, ?_⟩
    rw [isCancelled, bne_eq_false_iff_eq]
    exact H.active_eq version request hs
  · exact fun version => H.isSome_complete?_iff
  · intro version hv
    rw [← Option.not_isSome_iff_eq_none, H.isSome_complete?_iff]
    rintro ⟨request, hs⟩
    exact (H.ended version (.inr hv)).2 request hs
  · intro now request
    have hp := H.poll?_iff now request
    rwa [hd] at hp
  · intro earlier request time later hl
    rw [List.append_cons] at hl
    obtain ⟨t, calls', rfl⟩ := log_eq_append hl
    exact countP_isSent_le_one t calls'

/-- A second request is sent before the answer to the first one comes in. -/
example :
    let first : SuggestionRequest := { search := "h", label := "h", kind := .column }
    let second : SuggestionRequest := { search := "ho", label := "ho", kind := .column }
    Session.log { debounce := 100 }
        [.schedule first 0, .poll 100, .schedule second 150, .poll 250, .complete 1, .complete 3,
          .complete 3] =
      [.scheduled first 0, .sent 1 first, .scheduled second 150, .sent 3 second, .discarded 1,
        .settled 3, .discarded 3] := by
  decide

end Session
end FilterQuery
