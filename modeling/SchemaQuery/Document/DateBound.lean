import SchemaQuery.Predicate.Error
import SchemaQuery.Time.Instant

/-!
# Dates in documents

A date is given as milliseconds, as text, or as an object with `$date`; conditions hold it in the
last form.
-/

namespace SchemaQuery

namespace Instant

mutual

def ofJson? : Json → Option Instant
  | .number (.int n) => if fitsInt64 n then ofMillis? n else none
  | .string s => ofText? s
  | .object members => ofMembers? members
  | _ => none

def ofMembers? : List (String × Json) → Option Instant
  | [] => none
  | (name, value) :: rest => if name = "$date" then ofJson? value else ofMembers? rest

end

def toJson (instant : Instant) : Json := .object [("$date", .string instant.text)]

end Instant

/-- The bound of a condition on dates. -/
def Json.dateBound (field : String) (value : Json) : Except CompileError Json :=
  match Instant.ofJson? value with
  | some instant => .ok instant.toJson
  | none => .error (.invalidDate field value)

end SchemaQuery
