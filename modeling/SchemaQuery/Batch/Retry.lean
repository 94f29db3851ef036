import SchemaQuery.Json.Fields

/-!
# Retries

The delay doubles with each retry, up to a bound; products past 64 bits count as the largest word.
-/

namespace SchemaQuery

structure RetryPolicy where
  /-- Submissions of one chunk, the first included. -/
  maxAttempts : UInt32 := 8
  initialBackoffMs : UInt64 := 50
  maxBackoffMs : UInt64 := 2000
  deriving DecidableEq

def largestWord : UInt64 := 0xFFFFFFFFFFFFFFFF

/-- A product of words, or the largest word if it does not fit. -/
def saturatingMul (a b : UInt64) : UInt64 :=
  if a.toNat * b.toNat < UInt64.size then a * b else largestWord

namespace RetryPolicy

def immediate (maxAttempts : UInt32) : RetryPolicy := ⟨maxAttempts, 0, 0⟩

/-- The milliseconds to wait before a retry, the first retry being number zero. -/
def delay (policy : RetryPolicy) (retry : Nat) : UInt64 :=
  min (saturatingMul policy.initialBackoffMs ((1 : UInt64) <<< (min retry 32).toUInt64))
    policy.maxBackoffMs

/-- At least one submission is made. -/
def attempts (policy : RetryPolicy) : Nat := max policy.maxAttempts.toNat 1

def toJson (policy : RetryPolicy) : Json :=
  .object [
    ("initial_backoff_ms", .nat policy.initialBackoffMs.toNat),
    ("max_attempts", .nat policy.maxAttempts.toNat),
    ("max_backoff_ms", .nat policy.maxBackoffMs.toNat)]

def fieldNames : List String := ["max_attempts", "initial_backoff_ms", "max_backoff_ms"]

def ofJson? (value : Json) : Option RetryPolicy := do
  let fields ← value.fields? fieldNames
  let maxAttempts ← fields.withDefault "max_attempts" Json.uint32? 8
  let initialBackoffMs ← fields.withDefault "initial_backoff_ms" Json.uint64? 50
  let maxBackoffMs ← fields.withDefault "max_backoff_ms" Json.uint64? 2000
  some { maxAttempts, initialBackoffMs, maxBackoffMs }

end RetryPolicy

end SchemaQuery
