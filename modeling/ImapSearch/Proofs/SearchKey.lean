import ImapSearch.Criteria
import ImapSearch.Proofs.Date.Order

/-!
# ImapSearch.Proofs.SearchKey

**What a search asks for.** `SearchKey` is a search key of the protocol as a
server understands it: a tree of conditions on a message. What a condition means
depends on the mailbox, so it is given by an `Interpretation`: which messages a
sequence set names, in which header fields a text occurs, which flags are set,
and so on. `SearchKey.Holds` is the meaning of a key and `Criteria.Matches` the
meaning of criteria, both under the same interpretation, so that the two can be
compared.

An interpretation takes sequence sets range by range, texts as bytes, and days
as days of the calendar. It may answer as it likes, but for the names of header
fields, whose case does not count.
-/

namespace ImapSearch

/-! ### Search keys -/

/-- A condition on a day. -/
inductive DayTest
  /-- The very day. -/
  | on (day : Date)
  /-- This day or a later one. -/
  | since (day : Date)
  /-- An earlier day. -/
  | before (day : Date)
deriving DecidableEq, Repr

/-- A search key. -/
inductive SearchKey
  /-- Every message. -/
  | all
  /-- The messages whose sequence numbers lie in a set. -/
  | numbered (ranges : List SeqRange)
  /-- The messages whose UIDs lie in a set. -/
  | uid (ranges : List SeqRange)
  /-- The messages that have a flag. -/
  | flag (flag : SystemFlag)
  /-- The messages that have a keyword. -/
  | keyword (name : Bytes)
  /-- The messages that arrived on such a day. -/
  | arrived (test : DayTest)
  /-- The messages that are dated on such a day. -/
  | sent (test : DayTest)
  /-- The messages that have a text in a header field. -/
  | header (name value : Bytes)
  /-- The messages that have a text in the body. -/
  | body (text : Bytes)
  /-- The messages that have a text in the header or in the body. -/
  | text (text : Bytes)
  /-- The messages that are larger than this, in bytes. -/
  | larger (size : Nat)
  /-- The messages that are smaller than this, in bytes. -/
  | smaller (size : Nat)
  /-- The messages that do not match. -/
  | not (key : SearchKey)
  /-- The messages that match one key or the other. -/
  | or (left right : SearchKey)
  /-- The messages that match all of the keys. -/
  | group (keys : List SearchKey)
deriving Repr

/-! ### Interpretations -/

/-- What the conditions of a search mean for the messages of a mailbox. -/
structure Interpretation (Message : Type*) where
  /-- Whether the sequence number of a message lies in the ranges. -/
  numbered : List SeqRange → Message → Prop
  /-- Whether the UID of a message lies in the ranges. -/
  uid : List SeqRange → Message → Prop
  /-- Whether a message has a flag. -/
  flag : SystemFlag → Message → Prop
  /-- Whether a message has a keyword. -/
  keyword : Bytes → Message → Prop
  /-- The day on which a message arrived. -/
  arrived : Message → Date
  /-- The day on which a message is dated, if it is dated. -/
  sent : Message → Option Date
  /-- Whether a text occurs in a header field of a message. -/
  header : Bytes → Bytes → Message → Prop
  /-- Whether a text occurs in the body of a message. -/
  body : Bytes → Message → Prop
  /-- Whether a text occurs in the header or in the body of a message. -/
  text : Bytes → Message → Prop
  /-- The size of a message in bytes. -/
  size : Message → Nat
  /-- The case of the name of a header field does not count. -/
  header_congr : ∀ {name name' : Bytes}, upperCase name = upperCase name' →
    ∀ value message, header name value message ↔ header name' value message

variable {Message : Type*}

/-- A day, if there is one, that meets the condition. -/
def DayTest.Holds (day : Option Date) : DayTest → Prop
  | .on d => ∃ e ∈ day, e = d
  | .since d => ∃ e ∈ day, d ≤ e
  | .before d => ∃ e ∈ day, e < d

/-! ### The meaning of a key -/

mutual

/-- Whether a message matches a key. -/
def SearchKey.Holds (I : Interpretation Message) (m : Message) : SearchKey → Prop
  | .all => True
  | .numbered ranges => I.numbered ranges m
  | .uid ranges => I.uid ranges m
  | .flag flag => I.flag flag m
  | .keyword name => I.keyword name m
  | .arrived test => test.Holds (some (I.arrived m))
  | .sent test => test.Holds (I.sent m)
  | .header name value => I.header name value m
  | .body text => I.body text m
  | .text text => I.text text m
  | .larger size => size < I.size m
  | .smaller size => I.size m < size
  | .not key => ¬ key.Holds I m
  | .or left right => left.Holds I m ∨ right.Holds I m
  | .group keys => AllHold I m keys

/-- Whether a message matches all of the keys. -/
def AllHold (I : Interpretation Message) (m : Message) : List SearchKey → Prop
  | [] => True
  | key :: rest => key.Holds I m ∧ AllHold I m rest

end

theorem allHold_iff {I : Interpretation Message} {m : Message} {keys : List SearchKey} :
    AllHold I m keys ↔ ∀ key ∈ keys, key.Holds I m := by
  induction keys with
  | nil => simp [AllHold]
  | cons key rest ih => simp [AllHold, ih]

/-! ### The meaning of criteria -/

/-- Whether a message has a flag, be it one of the protocol or a keyword. -/
def Flag.IsSet (I : Interpretation Message) (m : Message) : Flag → Prop
  | .system flag => I.flag flag m
  | .keyword name => I.keyword (utf8 name) m

/-- Whether a message meets all of the conditions. -/
structure Conditions.Hold (I : Interpretation Message) (m : Message) (c : Conditions) : Prop where
  /-- The sequence number lies in the set, unless the set is empty. -/
  seqNums : c.seqNums.isEmpty ∨ I.numbered c.seqNums.ranges m
  /-- The UID lies in the set, unless the set is empty. -/
  uids : c.uids.isEmpty ∨ I.uid c.uids.ranges m
  /-- The message did not arrive too early. -/
  since : ∀ day ∈ c.since, day ≤ I.arrived m
  /-- The message did not arrive too late. -/
  before : ∀ day ∈ c.before, I.arrived m < day
  /-- The message is dated, and not too early. -/
  sentSince : ∀ day ∈ c.sentSince, ∃ sent ∈ I.sent m, day ≤ sent
  /-- The message is dated, and not too late. -/
  sentBefore : ∀ day ∈ c.sentBefore, ∃ sent ∈ I.sent m, sent < day
  /-- The texts occur in their header fields. -/
  headers : ∀ field ∈ c.headers, I.header (utf8 field.name) (utf8 field.value) m
  /-- The texts occur in the body. -/
  body : ∀ s ∈ c.body, I.body (utf8 s) m
  /-- The texts occur in the header or in the body. -/
  text : ∀ s ∈ c.text, I.text (utf8 s) m
  /-- The flags are set. -/
  flags : ∀ flag ∈ c.flags, flag.IsSet I m
  /-- The flags are not set. -/
  notFlags : ∀ flag ∈ c.notFlags, ¬ flag.IsSet I m
  /-- The message is larger than the bound, if there is one. -/
  larger : c.larger = 0 ∨ c.larger < I.size m
  /-- The message is smaller than the bound, if there is one. -/
  smaller : c.smaller = 0 ∨ I.size m < c.smaller

mutual

/-- Whether a message matches criteria. -/
def Criteria.Matches (I : Interpretation Message) (m : Message) : Criteria → Prop
  | ⟨conditions, excluded, alternatives⟩ =>
    conditions.Hold I m ∧ NoneMatch I m excluded ∧ OneOfEachMatches I m alternatives

/-- Whether a message matches none of the criteria. -/
def NoneMatch (I : Interpretation Message) (m : Message) : List Criteria → Prop
  | [] => True
  | c :: rest => ¬ c.Matches I m ∧ NoneMatch I m rest

/-- Whether a message matches one criteria at least of every pair. -/
def OneOfEachMatches (I : Interpretation Message) (m : Message) :
    List (Criteria × Criteria) → Prop
  | [] => True
  | (left, right) :: rest =>
    (left.Matches I m ∨ right.Matches I m) ∧ OneOfEachMatches I m rest

end

/-! ### Criteria at every depth -/

/-- Whether the names of all keywords have a property. -/
def Conditions.EveryKeyword (P : String → Prop) (c : Conditions) : Prop :=
  ∀ name, Flag.keyword name ∈ c.flags ++ c.notFlags → P name

mutual

/-- Whether the conditions of every node have a property. -/
def Criteria.Every (P : Conditions → Prop) : Criteria → Prop
  | ⟨conditions, excluded, alternatives⟩ =>
    P conditions ∧ EveryExcluded P excluded ∧ EveryAlternative P alternatives

/-- Whether the conditions of every node of the criteria have a property. -/
def EveryExcluded (P : Conditions → Prop) : List Criteria → Prop
  | [] => True
  | c :: rest => c.Every P ∧ EveryExcluded P rest

/-- Whether the conditions of every node of the pairs have a property. -/
def EveryAlternative (P : Conditions → Prop) : List (Criteria × Criteria) → Prop
  | [] => True
  | (left, right) :: rest => left.Every P ∧ right.Every P ∧ EveryAlternative P rest

end

section Mono

variable {P Q : Conditions → Prop}

mutual

theorem Criteria.Every.mono (h : ∀ c, P c → Q c) : ∀ {c : Criteria}, c.Every P → c.Every Q
  | ⟨_, _, _⟩, ⟨hconditions, hexcluded, halternatives⟩ =>
    ⟨h _ hconditions, EveryExcluded.mono h hexcluded, EveryAlternative.mono h halternatives⟩

theorem EveryExcluded.mono (h : ∀ c, P c → Q c) :
    ∀ {cs : List Criteria}, EveryExcluded P cs → EveryExcluded Q cs
  | [], _ => trivial
  | _ :: _, ⟨hc, hrest⟩ => ⟨hc.mono h, EveryExcluded.mono h hrest⟩

theorem EveryAlternative.mono (h : ∀ c, P c → Q c) :
    ∀ {cs : List (Criteria × Criteria)}, EveryAlternative P cs → EveryAlternative Q cs
  | [], _ => trivial
  | (_, _) :: _, ⟨hleft, hright, hrest⟩ =>
    ⟨hleft.mono h, hright.mono h, EveryAlternative.mono h hrest⟩

end

end Mono

end ImapSearch
