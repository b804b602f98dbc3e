/-
What the sinks do.

Memory and the process append bytes: a text by its UTF-8, a character by
its own, bytes as they are. Standard output of the process is buffered by
lines, so a flush of it matters and the end of the run flushes. A plain sink
is told of each operation as it comes. A host gets calls of the functions it
registered.

# Hosts that take text only

Bytes for such a host may end inside a character, so the end of them is
held back per stream until it is complete (`drain`), and the host is
written to only when there is text. Anything that is text already has to
wait for its turn: before a text or a character is handed over, what is
held for the stream is released as the replacement character, so that no
character is ever put together across it. A flush releases nothing.
-/
import ScanTrace.Utf8.Lossy
import ScanTrace.Session

namespace ScanTrace

namespace Session

variable (react : React)

-- ================================================================== hosts

def hostWrite (h : Host) (s : Stream) (text : String) (st : Session) : Session :=
  st.callHost react h.write (.write s text)

/-- Gives up on the bytes held for a stream and hands over what they are worth. -/
def release (h : Host) (s : Stream) (st : Session) : Session :=
  let held := st.store.held.get s
  if held.isEmpty then st
  else (st.hold s []).hostWrite react h s (String.ofList (Utf8.lossy held))

/-- Releases held bytes if the host is one for which bytes are held. -/
def settle (h : Host) (s : Stream) (st : Session) : Session :=
  if h.textOnly then st.release react h s else st

/-- Bytes for a host that takes text only: those that complete text are handed
over as one text, the rest is held. -/
def assemble (h : Host) (s : Stream) (bytes : List UInt8) (st : Session) : Session :=
  let drained := Utf8.drain (st.store.held.get s ++ bytes)
  let after := st.hold s drained.2
  if drained.1.isEmpty then after
  else after.hostWrite react h s (String.ofList drained.1)

-- ============================================================== the process

/-- Bytes for a stream of the process; a stream that takes nothing loses them. -/
def emitDirect (s : Stream) (bytes : List UInt8) (st : Session) : Session :=
  if st.env.full = some s then st
  else (st.collect s bytes).rebuffer s (·.write bytes)

/-- Sends what waits in front of a stream of the process. -/
def flushDirect (s : Stream) (st : Session) : Session := st.rebuffer s (·.flush)

-- ============================================================== operations

def bytesOf (text : String) : List UInt8 := Utf8.encode text.toList

/-- Writes a text, put into form at the moment it is due. -/
def sinkWrite (s : Stream) (text : String) (st : Session) : Session :=
  match st.sink with
  | none => st
  | some (.memory _) => (st.format text).collect s (bytesOf text)
  | some .direct => (st.format text).emitDirect s (bytesOf text)
  | some .plain => (st.format text).signal react (.write s text)
  | some (.host h) => ((st.settle react h s).format text).hostWrite react h s text

def sinkWriteBytes (s : Stream) (bytes : List UInt8) (st : Session) : Session :=
  match st.sink with
  | none => st
  | some (.memory _) => st.collect s bytes
  | some .direct => st.emitDirect s bytes
  | some .plain => st.signal react (.writeBytes s bytes)
  | some (.host h) =>
    match h.writeBytes with
    | some conduct => st.callHost react conduct (.writeBytes s bytes)
    | none => st.assemble react h s bytes

def sinkPutChar (s : Stream) (c : Char) (st : Session) : Session :=
  match st.sink with
  | none => st
  | some (.memory _) => st.collect s (Utf8.encode [c])
  | some .direct => st.emitDirect s (Utf8.encode [c])
  | some .plain => st.signal react (.write s c.toString)
  | some (.host h) =>
    let settled := st.settle react h s
    match h.putChar with
    | some conduct => settled.callHost react conduct (.putChar s c)
    | none => settled.hostWrite react h s c.toString

def sinkFlush (s : Stream) (st : Session) : Session :=
  match st.sink with
  | none => st
  | some (.memory _) => st.countFlush
  | some .direct => st.flushDirect s
  | some .plain => st.signal react (.flush s)
  | some (.host h) => st.callHost react h.flush (.flush s)

/-- Ends the run. A host is first given whatever is still held for it. -/
def sinkTerminate (code : Int32) (st : Session) : Session :=
  match st.sink with
  | none => st
  | some (.memory _) => st.keepExitCode code
  | some .direct => ((st.flushDirect .stdout).flushDirect .stderr).keepExitCode code
  | some .plain => st.signal react (.exit code)
  | some (.host h) =>
    let released := (st.release react h .stdout).release react h .stderr
    (released.note (.handingOver code)).callHost react h.exit (.exit code)

/-- The scratch directory. A host that fails to name one gets the system's. -/
def sinkTempDir (st : Session) : String × Session :=
  match st.sink with
  | some (.memory (some dir)) => (dir, st)
  | some (.host { tempDir := some conduct, .. }) =>
    let after := st.callHost react conduct .tempDir
    match conduct with
    | .returns (some dir) => (dir, after)
    | .returns none => (st.env.tempDir, after.note (.callbackFailed .tempDir wrongKind))
    | _ => (st.env.tempDir, after)
  | _ => (st.env.tempDir, st)

end Session

/-- An operation on the sink itself. -/
def SinkOp.perform (react : React) (st : Session) : SinkOp → Reply × Session
  | .write s text => (.done, st.sinkWrite react s text)
  | .writeBytes s bytes => (.done, st.sinkWriteBytes react s bytes)
  | .putChar s c => (.done, st.sinkPutChar react s c)
  | .flush s => (.done, st.sinkFlush react s)
  | .terminate code => (.done, st.sinkTerminate react code)
  | .tempDir =>
    let asked := st.sinkTempDir react
    (.text asked.1, asked.2)

end ScanTrace
