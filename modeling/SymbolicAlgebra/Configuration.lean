import SymbolicAlgebra.Controller
import SymbolicAlgebra.Document.Parser

/-!
# Configuration

The settings of a session, read from a document.  Keys that are absent keep
their defaults, unknown keys are ignored, and a known key must hold a single
value of its type.
-/

namespace SymbolicAlgebra

/-- Why a configuration could not be read. -/
inductive ConfigError where
  | malformed (cause : Document.SyntaxError)
  | invalidValue (key found : String)
  /-- The file does not exist. -/
  | missingFile
  /-- The file does not hold text. -/
  | notText
deriving DecidableEq

namespace ConfigError

def message : ConfigError → String
  | malformed cause => "configuration parse error: " ++ cause.message
  | invalidValue key found => "invalid value '" ++ found ++ "' for key '" ++ key ++ "'"
  | missingFile => "configuration file error: No such file or directory (os error 2)"
  | notText => "configuration file error: stream did not contain valid UTF-8"

end ConfigError

/-- The settings of a session. -/
structure Configuration where
  allowLoops : Bool
  allowRandom : Bool
  /-- The number of scratch buffers that a controller keeps. -/
  scratchPool : Nat
  sleepPollMillis : Nat
  logLevel : Level
  logFile : Option String
deriving DecidableEq

namespace Configuration

/-- The settings without a document. -/
def default : Configuration where
  allowLoops := false
  allowRandom := false
  scratchPool := Controller.defaultCapacity
  sleepPollMillis := Controller.defaultPollMillis
  logLevel := .info
  logFile := none

/-- The single value of a key, absent when the key is. -/
def single? (document : Document) (title key : String) :
    Except ConfigError (Option Document.Value) :=
  match (Dictionary.get? document title).bind (Dictionary.get? · key) with
  | none => .ok none
  | some [value] => .ok (some value)
  | some values =>
      .error (.invalidValue key (String.intercalate ", " (values.map Document.Value.toText)))

/-- A setting read from the single value of a key, or its default. -/
def read {Setting : Type} (document : Document) (title key : String) (fallback : Setting)
    (convert? : Document.Value → Option Setting) : Except ConfigError Setting := do
  match ← single? document title key with
  | none => pure fallback
  | some value =>
      match convert? value with
      | some setting => pure setting
      | none => .error (.invalidValue key value.toText)

def boolean? : Document.Value → Option Bool
  | .boolean value => some value
  | _ => none

/-- An integer that is not negative. -/
def count? : Document.Value → Option Nat
  | .integer value => if 0 ≤ value then some value.toNat else none
  | _ => none

/-- The settings of a document. -/
def ofDocument (document : Document) : Except ConfigError Configuration := do
  let allowLoops ← read document "controller" "allow_loops" default.allowLoops boolean?
  let allowRandom ← read document "controller" "allow_random" default.allowRandom boolean?
  let scratchPool ← read document "controller" "scratch_pool" default.scratchPool count?
  let sleepPollMillis ←
    read document "controller" "sleep_poll_ms" default.sleepPollMillis count?
  let logLevel ←
    read document "logging" "level" default.logLevel fun value => Level.ofName? value.toText
  let logFile ←
    read document "logging" "file" default.logFile fun value => some (some value.toText)
  pure { allowLoops, allowRandom, scratchPool, sleepPollMillis, logLevel, logFile }

/-- The settings of a text. -/
def parse (text : String) : Except ConfigError Configuration :=
  match Document.parse text with
  | .error cause => .error (.malformed cause)
  | .ok document => ofDocument document

/-- The settings in the contents of a file; a file that does not exist has
none. -/
def ofFile : Option ByteArray → Except ConfigError Configuration
  | none => .error .missingFile
  | some contents =>
      match String.fromUTF8? contents with
      | some text => parse text
      | none => .error .notText

/-- A controller with the settings. -/
def controller (configuration : Configuration) : Traced Controller := do
  Traced.step (.controllerConfigured configuration.allowLoops configuration.allowRandom
    configuration.scratchPool configuration.sleepPollMillis)
  pure ((((Controller.new.withLoops configuration.allowLoops).withRandom
    configuration.allowRandom).withCapacity configuration.scratchPool).withPollMillis
      configuration.sleepPollMillis)

/-- The directory part of a path; a path without one lies in the current
directory. -/
def directory? (path : String) : Option String :=
  let reversed := path.toList.reverse.dropWhile (· ≠ '/')
  match reversed with
  | [] => none
  | ['/'] => some "/"
  | _ :: directory => some (String.ofList directory.reverse)

/-- Starts logging with the settings, unless a log is in place already, and
answers whether it did.  A log file needs an existing directory; that it has
none is itself logged, as far as the settings admit. -/
def startLog (configuration : Configuration) (inPlace : Bool)
    (directoryExists : String → Bool) : Traced Bool := do
  match configuration.logFile with
  | none => pure !inPlace
  | some path =>
      if (directory? path).all directoryExists || !configuration.logLevel.admits .warn then
        pure !inPlace
      else do
        Traced.step (.logFileRefused path "No such file or directory (os error 2)")
        pure !inPlace

end Configuration

end SymbolicAlgebra
