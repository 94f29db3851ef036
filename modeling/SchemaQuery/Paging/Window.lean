/-!
# Windows

The documents of a numbered page: how many come before it, and how many it holds. Pages are counted
from one; numbers past 64 bits count as the largest word.
-/

namespace SchemaQuery

structure Window where
  skip : Nat
  limit : Nat
  deriving DecidableEq

namespace Window

def largest : Nat := UInt64.size - 1

def ofPage (page perPage : Nat) : Window := ⟨min ((page - 1) * perPage) largest, perPage⟩

end Window

end SchemaQuery
