import GraphCodec.Toml.Basic

/-!
# The definition rules of TOML tables

A table comes into being in one of three ways: it is implied by a longer header, it is defined by
its own header, or it is implied by a dotted key. No table is defined twice, and each way limits
what may be added later:

* a header may define a table that was only implied by longer headers;
* a dotted key may pass through implied tables and add to them, and they count as implied by a
  dotted key from then on; it does neither to a table with a header of its own, except that it may
  pass through the latest table of an array;
* a value, which includes inline tables and arrays in brackets, is complete when it is written.
-/

namespace GraphCodec

namespace Toml

/-- How a table came into being. -/
inductive Origin where
  /-- By a header that passes through it. -/
  | implied
  /-- By its own header, or as the document. -/
  | header
  /-- By a dotted key that passes through it. -/
  | dotted
  deriving DecidableEq, Repr

/-- What a key stands for while the document is read. -/
inductive Node where
  /-- A value, to which nothing can be added. -/
  | value (v : Toml)
  | table (origin : Origin) (entries : List (String × Node))
  /-- An array of tables with headers of their own, the latest first. -/
  | tables (earlier : List (List (String × Node))) (latest : List (String × Node))
  deriving Repr

/-- The entries of a table under construction. -/
abbrev Entries := List (String × Node)

namespace Entries

/-- What a key stands for. -/
def find? (entries : Entries) (key : String) : Option Node :=
  (List.find? (fun e ↦ e.1 == key) entries).map Prod.snd

/-- Let a key stand for something, in its present place or at the end. -/
def set (entries : Entries) (key : String) (n : Node) : Entries :=
  if entries.any fun e ↦ e.1 == key then
    entries.map fun e ↦ if e.1 == key then (key, n) else e
  else entries ++ [(key, n)]

/-- Add a value under a dotted key. -/
def addValue? (v : Toml) : (path : List String) → Entries → Option Entries
  | [], _ => none
  | [key], entries =>
    match entries.find? key with
    | some _ => none
    | none => some (entries.set key (.value v))
  | key :: next :: path, entries => do
    match entries.find? key with
    | none =>
      let inner ← addValue? v (next :: path) []
      return entries.set key (.table .dotted inner)
    | some (.table .header _) => none
    | some (.table _ inner) =>
      let inner ← addValue? v (next :: path) inner
      return entries.set key (.table .dotted inner)
    | some (.tables earlier latest) =>
      if path.isEmpty then none
      else
        let latest ← addValue? v (next :: path) latest
        return entries.set key (.tables earlier latest)
    | some (.value _) => none

/-- Change the table at a path of headers by `f`. Tables on the way that do not exist are
implied; of an array of tables the latest is meant. -/
def atTable? (f : Entries → Option Entries) : (path : List String) → Entries → Option Entries
  | [], entries => f entries
  | key :: path, entries => do
    match entries.find? key with
    | none =>
      let inner ← atTable? f path []
      return entries.set key (.table .implied inner)
    | some (.table origin inner) =>
      let inner ← atTable? f path inner
      return entries.set key (.table origin inner)
    | some (.tables earlier latest) =>
      let latest ← atTable? f path latest
      return entries.set key (.tables earlier latest)
    | some (.value _) => none

/-- Define a table by its header: it must not exist, or only be implied by other headers. -/
def defineTable? (key : String) (entries : Entries) : Option Entries :=
  match entries.find? key with
  | none => some (entries.set key (.table .header []))
  | some (.table .implied inner) => some (entries.set key (.table .header inner))
  | some _ => none

/-- Begin a further table of an array of tables. -/
def appendTable? (key : String) (entries : Entries) : Option Entries :=
  match entries.find? key with
  | none => some (entries.set key (.tables [] []))
  | some (.tables earlier latest) => some (entries.set key (.tables (latest :: earlier) []))
  | some _ => none

end Entries

theorem sizeOf_node_lt_of_mem {entries : Entries} {e : String × Node} (h : e ∈ entries) :
    sizeOf e.2 < sizeOf entries := by
  have hmem := List.sizeOf_lt_of_mem h
  have : sizeOf e = 1 + sizeOf e.1 + sizeOf e.2 := by cases e; rfl
  omega

/-- The value that a node has when the document is complete. -/
def Node.toToml : Node → Toml
  | value v => v
  | table _ entries => .table (entries.attach.map fun ⟨e, _he⟩ ↦ (e.1, e.2.toToml))
  | tables earlier latest =>
    .array ((latest :: earlier).reverse.attach.map fun ⟨t, _ht⟩ ↦
      .table (t.attach.map fun ⟨e, _he⟩ ↦ (e.1, e.2.toToml)))
  termination_by n => sizeOf n
  decreasing_by
    · have := sizeOf_node_lt_of_mem _he
      simp only [table.sizeOf_spec]
      omega
    · have h₁ := sizeOf_node_lt_of_mem _he
      simp only [tables.sizeOf_spec]
      rcases List.mem_cons.1 (List.mem_reverse.1 _ht) with rfl | ht
      · omega
      · have h₂ := List.sizeOf_lt_of_mem ht
        omega

/-- The table that complete entries make. -/
def Entries.toToml (entries : Entries) : Toml :=
  .table (entries.map fun e ↦ (e.1, e.2.toToml))

end Toml

end GraphCodec
