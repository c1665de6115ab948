import FieldProcedure.CommandLine.Run
import Std.Time.DateTime
import Std.Time.Zoned

/-! The program: looks at the one input that its arguments name, runs, and carries out the outcome.
-/
namespace FieldProcedure.CommandLine
open Intake (Received)

def systemText : IO.Error → String
  | .alreadyExists _ code text | .otherError code text | .resourceBusy code text
  | .resourceVanished code text | .unsupportedOperation code text | .hardwareFault code text
  | .unsatisfiedConstraints code text | .illegalOperation code text | .protocolError code text
  | .timeExpired code text | .interrupted _ code text | .noFileOrDirectory _ code text
  | .invalidArgument _ code text | .permissionDenied _ code text | .resourceExhausted _ code text
  | .inappropriateType _ code text | .noSuchThing _ code text =>
    text ++ " (os error " ++ toString code ++ ")"
  | .unexpectedEof => "unexpected end of file"
  | .userError text => text

def readAll (stream : IO.FS.Stream) : BaseIO Received := do
  let mut all := ByteArray.empty
  repeat
    match ← (stream.read 65536).toBaseIO with
    | .error e => return ⟨all.toList, some (systemText e)⟩
    | .ok chunk =>
      if chunk.isEmpty then break
      all := all ++ chunk
  return ⟨all.toList, none⟩

def find (path : String) : BaseIO Found := do
  if path = "-" then return .opened (← readAll (← IO.getStdin))
  match ← (IO.FS.Handle.mk path .read).toBaseIO with
  | .error e => return .missing (systemText e)
  | .ok handle => return .opened (← readAll (.ofHandle handle))

/-- A fault that stands before the end counts first. Otherwise it is the reason, with the place of
the end if that is inside the value. -/
def complaint (octets : List UInt8) (reason : String) : String :=
  let stop := octets.foldl Json.Place.after {}
  match (Json.Document.read Json.maxDepth .stream octets).decode Intake.readWorkflow with
  | .ok _ => reason
  | .error fault =>
    if fault.cause ∉ [.endInValue, .endInList, .endInObject, .endInString] then fault.message
    else if octets.all Json.isSpace then reason
    else reason ++ " at line " ++ toString stop.line ++ " column " ++ toString stop.column

def scramble (seed : UInt64) (n : Nat) : UInt64 :=
  let z := seed + (UInt64.ofNat n + 1) * 0x9E3779B97F4A7C15
  let z := (z ^^^ (z >>> 30)) * 0xBF58476D1CE4E5B9
  let z := (z ^^^ (z >>> 27)) * 0x94D049BB133111EB
  z ^^^ (z >>> 31)

def hexDigits (width : Nat) (w : UInt64) : String :=
  let digits := Nat.toDigits 16 w.toNat
  String.ofList (List.replicate (width - digits.length) '0' ++ digits)

def randomSupply : IO Supply := do
  let seed : IO UInt64 := return (← IO.getRandomBytes 8).toUInt64LE!
  let first ← seed
  let second ← seed
  return fun n =>
    let high := scramble first n
    let low := scramble second n
    hexDigits 8 (high >>> 32) ++ "-" ++ hexDigits 4 ((high >>> 16) &&& 0xFFFF) ++ "-" ++
      hexDigits 4 ((high &&& 0x0FFF) ||| 0x4000) ++ "-" ++
      hexDigits 4 (((low >>> 48) &&& 0x3FFF) ||| 0x8000) ++ "-" ++
      hexDigits 12 (low &&& 0xFFFFFFFFFFFF)

def timestamp : IO Timestamp := do
  let t ← Std.Time.PlainDateTime.now
  return {
    year := t.year.toInt
    month := t.month.toInt.toNat
    day := t.day.toInt.toNat
    hour := t.hour.toInt.toNat
    minute := t.minute.toInt.toNat
    second := t.second.toInt.toNat
    nanosecond := t.nanosecond.toInt.toNat }

def put (octets : List UInt8) (stream : IO.FS.Stream) : IO Unit := do
  stream.write ⟨octets.toArray⟩
  stream.flush

def putAll (o : Outcome) : IO Unit :=
  match o.written with
  | some (path, octets) => IO.FS.withFile path .write fun h => put octets (.ofHandle h)
  | none => do put o.stdout (← IO.getStdout)

def carryOut (i : Invocation) (o : Outcome) : IO Outcome := do
  match ← (putAll o).toBaseIO with
  | .ok () => return o
  | .error e => return .ofFailure (i.writeFailure (systemText e))

def finish (o : Outcome) : IO UInt32 := do
  if let some report := o.report then IO.eprintln ("\n" ++ report)
  return o.exit.toUInt32

end FieldProcedure.CommandLine

open FieldProcedure.CommandLine in
def main (args : List String) : IO UInt32 := do
  let found ← match Request.ofArguments args with
    | .run i => find i.path
    | _ => pure (.missing "")
  let o := run args {
    look := fun _ => found
    receive := fun _ _ => .accepted
    complaint
    supply := ← randomSupply
    now := ← timestamp }
  match Request.ofArguments args with
  | .run i => finish (← carryOut i o)
  | _ =>
    putAll o
    finish o
