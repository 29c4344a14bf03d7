import ImapSearch.Command
import ImapSearch.Error
import ImapSearch.SearchData
import ImapSearch.Status

/-!
# ImapSearch.InFlight

**The searches that wait for their completion.** A search that was sent is in
flight until the server completes it under its tag or the connection ends; then
its caller is handed an outcome.

* Searches are numbered in the order in which they were registered, and
  `entries` lists those in flight in that order, oldest first.
* `delivered` lists every outcome that was handed to a caller, in the order of
  delivery. A caller may abandon a search; nothing is delivered to it then, but
  the search itself stays in flight.
* Once `closed`, no search is in flight any more, and a search that is
  registered later fails at once.

A plain result does not say which search it belongs to, so it belongs to the
oldest in flight. An extended result and a completion name their search by tag.
-/

namespace ImapSearch

/-- How a search ends for its caller. -/
abbrev Outcome : Type := Except Error SearchData

/-- A search in flight. -/
structure Entry where
  /-- The number of the search. -/
  id : Nat
  /-- The tag under which it was sent. -/
  tag : Tag
  /-- How it names messages. -/
  kind : SearchKind
  /-- What it found so far. -/
  data : SearchData
deriving DecidableEq, Repr

/-- The searches in flight, and what became of the others. -/
structure InFlight where
  /-- The searches in flight, oldest first. -/
  entries : List Entry := []
  /-- Whether the connection has ended. -/
  closed : Bool := false
  /-- How many searches were registered. -/
  registered : Nat := 0
  /-- The outcomes handed to callers, oldest first, each with the number of its search. -/
  delivered : List (Nat × Outcome) := []
  /-- The searches whose callers no longer wait. -/
  abandoned : List Nat := []

/-- The outcome of a search that found `data` and was completed with the given status. -/
def Status.outcome (status : Status) (text : String) (data : SearchData) : Outcome :=
  match status with
  | .ok | .preauth => .ok data
  | .no => .error (.no text)
  | .bad => .error (.bad text)
  | .bye => .error (.bye text)

/-- Replaces the first element that has the property, if there is one. -/
def updateFirst? {α : Type} (p : α → Bool) (f : α → α) : List α → Option (List α)
  | [] => none
  | a :: rest => if p a then some (f a :: rest) else (updateFirst? p f rest).map (a :: ·)

/-- Takes out the first element that has the property, if there is one. -/
def takeFirst? {α : Type} (p : α → Bool) : List α → Option (α × List α)
  | [] => none
  | a :: rest =>
    if p a then some (a, rest) else (takeFirst? p rest).map fun (b, others) => (b, a :: others)

namespace InFlight

/-! ### Outcomes -/

/-- Hands an outcome to the caller of a search, if the caller still waits. -/
def deliver (s : InFlight) (id : Nat) (outcome : Outcome) : InFlight :=
  if id ∈ s.abandoned then s else { s with delivered := s.delivered ++ [(id, outcome)] }

/-- The outcome of a search, once there is one. -/
def outcome? (s : InFlight) (id : Nat) : Option Outcome := s.delivered.lookup id

/-- The outcome that a caller gets who waits for a search after everything else is gone: a search
that was left without an outcome has lost its connection. -/
def wait (s : InFlight) (id : Nat) : Outcome := (s.outcome? id).getD (.error .connectionLost)

/-- The searches without an outcome whose callers still wait. -/
def awaited (s : InFlight) : List Nat :=
  (List.range s.registered).filter fun id => (s.outcome? id).isNone && !s.abandoned.contains id

/-- The caller of a search no longer waits. -/
def abandon (s : InFlight) (id : Nat) : InFlight := { s with abandoned := id :: s.abandoned }

/-! ### Registration -/

/-- Registers a search that is about to be sent. After the connection has ended it fails at once. -/
def register (s : InFlight) (tag : Tag) (kind : SearchKind) : InFlight :=
  let id := s.registered
  let s := { s with registered := id + 1 }
  if s.closed then s.deliver id (.error .connectionLost)
  else { s with entries := s.entries ++ [⟨id, tag, kind, { uid := kind.isUid }⟩] }

/-- Registers a search that is not sent, but fails with an error. -/
def refuse (s : InFlight) (error : Error) : InFlight :=
  { s with registered := s.registered + 1 }.deliver s.registered (.error error)

/-! ### Results -/

/-- Adds the numbers of a plain result to the oldest search, if there is one in flight. -/
def accumulate? (s : InFlight) (nums : List Nat) : Option InFlight :=
  (updateFirst? (fun _ => true) (fun e => { e with data := e.data.addNums nums }) s.entries).map
    fun entries => { s with entries }

/-- Puts an extended result in place of what a search found so far: of the first search in flight
with the given tag, or of the oldest if no tag is given. -/
def replace? (s : InFlight) (correlator : Option Tag) (data : SearchData) : Option InFlight :=
  (updateFirst? (fun e => correlator.all (· = e.tag)) (fun e => { e with data }) s.entries).map
    fun entries => { s with entries }

/-! ### Completion -/

/-- Completes the first search in flight with the given tag, if there is one. -/
def complete? (s : InFlight) (tag : Tag) (status : Status) (text : String) : Option InFlight :=
  (takeFirst? (fun e => e.tag = tag) s.entries).map fun (e, entries) =>
    { s with entries }.deliver e.id (status.outcome text e.data)

/-- Fails every search in flight. -/
def failAll (s : InFlight) (error : Error) : InFlight :=
  s.entries.foldl (fun s e => s.deliver e.id (.error error)) { s with entries := [] }

/-- Ends the connection: every search in flight has lost it. -/
def close (s : InFlight) : InFlight := { s with closed := true }.failAll .connectionLost

end InFlight

end ImapSearch
