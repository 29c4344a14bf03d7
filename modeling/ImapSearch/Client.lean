import ImapSearch.Framing
import ImapSearch.Session

/-!
# ImapSearch.Client

**A session on a connection.** A client sends its searches in the order in which
they are issued, and applies the responses of the server in the order in which
they arrive. It reads and writes on its own: issuing a search waits for nothing.

* Reading goes on until the stream ends or a response exceeds a limit; the
  session is closed then. A response that breaks the grammar is passed over. A
  reader that breaks down ends as well, but the session is not told.
* Writing goes on for as long as the server takes bytes, also when reading has
  ended; the first write that fails closes the session.
* Closing the client closes the session and ends both.

The connection is the other half of the state: the server can end what it sends
(`shutdown`), or go away altogether (`hangUp`).
-/

namespace ImapSearch

/-- A client and its connection. -/
structure Client where
  /-- The settings of the client. -/
  settings : Settings
  /-- The state of the session. -/
  session : Session
  /-- What the server sent and the client did not read. -/
  source : ByteSource := {}
  /-- Whether the client still reads. -/
  reading : Bool := true
  /-- Whether the client still writes. -/
  writing : Bool := true
  /-- Whether the server can still send. -/
  serverSends : Bool := true
  /-- Whether the server still takes bytes. -/
  serverTakes : Bool := true

namespace Client

/-- A client on a new connection. -/
def connect (settings : Settings) : Client :=
  { settings, session := .withTags settings.tagStart }

/-- Whether the session has ended. -/
def isClosed (c : Client) : Bool := c.session.isClosed

/-! ### What the client does by itself -/

/-- Reads and applies what has arrived. -/
def pump (c : Client) : Client :=
  if c.reading then
    let drained := Framing.drain c.settings c.source
    let session := drained.responses.foldl (fun s response => (s.receive response).1) c.session
    match drained.stop with
    | .waiting => { c with session, source := drained.rest }
    | .failed _ => { c with session := session.close, source := drained.rest, reading := false }
    | .crashed => { c with session, source := drained.rest, reading := false }
  else c

/-- Writes bytes, if the client still writes, and gives those that reach the server. -/
def write (c : Client) (bytes : Bytes) : Client × Bytes :=
  if c.writing then
    if c.serverTakes then (c, bytes)
    else ({ c with session := c.session.close, writing := false }, [])
  else (c, [])

/-! ### What its user does -/

/-- Issues a search, and gives its tag and the bytes of it that reach the server. -/
def search (c : Client) (command : Command) : Client × Issued × Bytes :=
  let (session, issued) := c.session.issue command
  let c := { c with session }
  match issued.sent with
  | some bytes => let (c, taken) := c.write bytes; (c, issued, taken)
  | none => (c, issued, [])

/-- Ends the connection. -/
def close (c : Client) : Client :=
  { c with session := c.session.close, reading := false, writing := false }

/-! ### What the server does -/

/-- Whether bytes that the server sends find an end to arrive at. -/
def isReachable (c : Client) : Bool := c.serverSends && (c.reading || c.writing)

/-- The server sends bytes. -/
def receive (c : Client) (bytes : Bytes) : Client :=
  if c.isReachable then { c with source := c.source.push bytes }.pump else c

/-- The server ends what it sends, and goes on taking bytes. -/
def shutdown (c : Client) : Client :=
  { c with serverSends := false, source := c.source.finish }.pump

/-- The server goes away. -/
def hangUp (c : Client) : Client :=
  { c with serverSends := false, serverTakes := false, source := c.source.finish }.pump

end Client

end ImapSearch
