/-!
The two ends of a running program. The output is a sink of bytes that may hold only so
many, and whose flushes may fail. The input is the bytes that are still to be read, one
line at a time.
-/

namespace Easel

inductive ChannelFault where
  | sinkFull
  | flushFailed
  | invalidText
  | awaitingInput
  | other (reason : String)
deriving DecidableEq, Repr

def ChannelFault.message : ChannelFault → String
  | .sinkFull => "sink full"
  | .flushFailed => "flush failed"
  | .invalidText => "stream did not contain valid UTF-8"
  | .awaitingInput => "awaiting input"
  | .other reason => reason

/-- Bytes written so far. Without a capacity the sink takes everything. -/
structure Sink where
  written : ByteArray := ByteArray.empty
  capacity : Option Nat := none
  flushFails : Bool := false

namespace Sink

def accepts (sink : Sink) (wanted : Nat) : Nat :=
  match sink.capacity with
  | none => wanted
  | some capacity => min wanted (capacity - sink.written.size)

/-- Writes what fits. The fault is the sink's if that was not all; writing nothing
always succeeds. -/
def write (sink : Sink) (text : String) : Sink × Option ChannelFault :=
  let bytes := text.toUTF8
  let accepted := sink.accepts bytes.size
  if accepted = bytes.size then
    ({ sink with written := sink.written ++ bytes }, none)
  else
    ({ sink with written := sink.written ++ bytes.extract 0 accepted }, some .sinkFull)

def flush (sink : Sink) : Option ChannelFault :=
  if sink.flushFails then some .flushFailed else none

theorem write_of_unlimited (sink : Sink) (text : String) (unlimited : sink.capacity = none) :
    sink.write text = ({ sink with written := sink.written ++ text.toUTF8 }, none) := by
  simp [write, accepts, unlimited]

end Sink

structure Input where
  bytes : List UInt8 := []
  ended : Bool := true

namespace Input

def newline : UInt8 := 10

def withoutEnd (line : String) : String :=
  String.ofList (line.toList.reverse.dropWhile fun c => c = '\r' || c = '\n').reverse

/-- Takes a line with its newline. There is none at the end of the input. A line that
is no UTF-8 is taken too, and is a fault. -/
def readLine (input : Input) : Except ChannelFault (Option String) × Input :=
  let line := input.bytes.takeWhile (· ≠ newline)
  let rest := input.bytes.dropWhile (· ≠ newline)
  if rest.isEmpty && !input.ended then (.error .awaitingInput, input)
  else if input.bytes.isEmpty then (.ok none, input)
  else
    match String.fromUTF8? ⟨(line ++ rest.take 1).toArray⟩ with
    | some text => (.ok (some (withoutEnd text)), { input with bytes := rest.drop 1 })
    | none => (.error .invalidText, { input with bytes := rest.drop 1 })

end Input

end Easel
