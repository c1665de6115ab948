import FieldProcedure.Keyed
import FieldProcedure.Text.Blank
import FieldProcedure.Text.Lowercase

/-! The configuration of a step: a map from keys to texts, in the order of the keys by code point. A
key is stored trimmed and in lower case; it is looked up in lower case. -/
namespace FieldProcedure

def isTruthy (s : String) : Bool :=
  ["true", "yes", "y", "1"].contains (Text.lower (Text.trim s))

structure Config where
  entries : List (String × String) := []
deriving DecidableEq, Repr, Inhabited

namespace Config

def keyOf (s : String) : String := Text.lower (Text.trim s)

def insert (c : Config) (key value : String) : Config := ⟨Keyed.place (keyOf key) value c.entries⟩

def ofList (pairs : List (String × String)) : Config :=
  pairs.foldl (fun c (key, value) => c.insert key value) {}

def get? (c : Config) (key : String) : Option String := c.entries.lookup (Text.lower key)

def flag (c : Config) (key : String) (default : Bool) : Bool :=
  ((c.get? key).map isTruthy).getD default

def isEmpty (c : Config) : Bool := c.entries.isEmpty

end Config
end FieldProcedure
