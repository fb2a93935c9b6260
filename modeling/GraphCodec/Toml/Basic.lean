import GraphCodec.Number.Power

/-!
# TOML documents

A TOML document is a tree of tables, arrays and scalars. Of the scalars only strings, integers and
booleans carry a value here; the others are told apart by their sort alone, which is all that a
reader of settings needs that has no use for them. Numbers that no word holds are a sort of their
own: a reader that meets one has to refuse it, even if it has no use for it.
-/

namespace GraphCodec

/-- A value of a TOML document. -/
inductive Toml where
  | string (s : String)
  | integer (v : Int)
  | float
  /-- An integer outside of `minInteger .. maxInteger`, or a float whose nearest `double` is
  infinite. -/
  | outOfRange
  | boolean (b : Bool)
  | dateTime
  | array (items : List Toml)
  | table (entries : List (String × Toml))
  deriving Repr

namespace Toml

/-- The least integer that can be held. -/
def minInteger : Int := -2 ^ 127

/-- The greatest integer that can be held. -/
def maxInteger : Int := 2 ^ 128 - 1

/-- The value of an integer literal. -/
def ofInteger (v : Int) : Toml :=
  if minInteger ≤ v ∧ v ≤ maxInteger then integer v else outOfRange

/-- The value under a key of a table. -/
def get? (key : String) : Toml → Option Toml
  | table entries => (entries.find? fun e ↦ e.1 == key).map Prod.snd
  | _ => none

/-- The text of a string. -/
def asString? : Toml → Option String
  | string s => some s
  | _ => none

/-- The number of an integer. -/
def asInteger? : Toml → Option Int
  | integer v => some v
  | _ => none

/-- The truth value of a boolean. -/
def asBoolean? : Toml → Option Bool
  | boolean b => some b
  | _ => none

/-- The items of an array. -/
def asArray? : Toml → Option (List Toml)
  | array items => some items
  | _ => none

theorem sizeOf_lt_of_mem_entries {entries : List (String × Toml)} {e : String × Toml}
    (h : e ∈ entries) : sizeOf e.2 < sizeOf entries := by
  have hmem := List.sizeOf_lt_of_mem h
  have : sizeOf e = 1 + sizeOf e.1 + sizeOf e.2 := by cases e; rfl
  omega

/-- Whether all numbers in a value can be held. -/
def isHeld : Toml → Bool
  | outOfRange => false
  | array items => items.attach.all fun ⟨v, _hv⟩ ↦ v.isHeld
  | table entries => entries.attach.all fun ⟨e, _he⟩ ↦ e.2.isHeld
  | string _ | integer _ | float | boolean _ | dateTime => true
  termination_by t => sizeOf t
  decreasing_by
    · have := List.sizeOf_lt_of_mem _hv
      simp only [array.sizeOf_spec]
      omega
    · have := sizeOf_lt_of_mem_entries _he
      simp only [table.sizeOf_spec]
      omega

end Toml

end GraphCodec
