/-
Consoles. A console passes every operation on to the sink until it is
sealed, and none from then on; the question is asked anew at the start of
each operation, so an operation that has begun is finished even if the
console is sealed while it runs.

Terminating flushes both streams, seals the console and then ends the run
through the sink. A host may come back from that; the console stays sealed,
and terminating it again does nothing but give a notice.
-/
import ScanTrace.Sink

namespace ScanTrace

namespace Console

variable (react : React) (c : Console)

/-- An operation that a sealed console drops. -/
def guarded (act : Session → Session) (st : Session) : Session :=
  if st.isSealed c then st else act st

def write (s : Stream) (text : String) (st : Session) : Session :=
  c.guarded (·.sinkWrite react s text) st

/-- Writes bytes; nothing at all is not passed on. -/
def writeBytes (s : Stream) (bytes : List UInt8) (st : Session) : Session :=
  c.guarded (fun st => if bytes.isEmpty then st else st.sinkWriteBytes react s bytes) st

def putChar (x : Char) (st : Session) : Session :=
  c.guarded (·.sinkPutChar react .stdout x) st

def flush (s : Stream) (st : Session) : Session :=
  c.guarded (·.sinkFlush react s) st

/-- Flushes both streams, seals the console and ends the run. -/
def terminate (code : Int32) (st : Session) : Session :=
  if st.isSealed c then st.note (.alreadyTerminated code)
  else
    let flushed := (st.sinkFlush react .stdout).sinkFlush react .stderr
    ((flushed.markSealed c).note (.terminating code)).sinkTerminate react code

def describe (st : Session) : String :=
  "Console " ++ Host.inBraces ("terminated: " ++ Host.yesNo (st.isSealed c))

end Console

/-- An operation on a console or on one of its streams. -/
def ConsoleOp.perform (react : React) (c : Console) (st : Session) : ConsoleOp → Reply × Session
  | .print text => (.done, c.write react .stdout text st)
  | .eprint text => (.done, c.write react .stderr text st)
  | .puts text => (.done, c.write react .stdout (text ++ "\n") st)
  | .putChar x => (.done, c.putChar react x st)
  | .write s text => (.done, c.write react s text st)
  | .writeBytes s bytes => (.done, c.writeBytes react s bytes st)
  | .flush => (.done, c.flush react .stdout st)
  | .flushStream s => (.done, c.flush react s st)
  | .terminate code => (.code code, c.terminate react code st)
  | .isTerminated => (.flag (st.isSealed c), st)
  | .tempDir =>
    let asked := st.sinkTempDir react
    (.text asked.1, asked.2)
  | .describe => (.text (c.describe st), st)
  | .printTelling text => (.flag (!st.isSealed c), c.write react .stdout text st)
  | .streamName s => (.text s.name, st)
  | .streamWrite s bytes => (.count bytes.length, c.writeBytes react s bytes st)
  | .streamWriteAll s bytes => (.done, c.writeBytes react s bytes st)
  | .streamFlush s => (.done, c.flush react s st)
  | .streamWriteText s text => (.done, c.write react s text st)
  | .streamWriteChar s x => (.done, c.write react s x.toString st)

end ScanTrace
