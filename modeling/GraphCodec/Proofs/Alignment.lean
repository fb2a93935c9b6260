import GraphCodec.Container.Tree
import Mathlib.Tactic.SplitIfs

/-!
# Trees with whole rows

A row of a struct array may be any list, but no array is ever made in which a row has not one value
for each name: the arrays that are made at first are so, and setting a value keeps them so
(`StructArray.aligned_set`). A tree is aligned if all the arrays in it are.
-/

namespace GraphCodec

/-! ### Struct arrays -/

/-- Whether every row of a struct array has a value for each name. -/
def StructArray.Aligned {α : Type} (s : StructArray α) : Prop :=
  ∀ row ∈ s.rows, row.length = s.names.length

namespace StructArray

variable {α : Type}

theorem aligned_ofSize (n : Nat) : (ofSize n : StructArray α).Aligned := by
  intro row hrow
  rw [(Array.mem_replicate.1 hrow).2]
  rfl

theorem aligned_withNames (blank : α) (n : Nat) (names : List String) :
    (withNames blank n names).Aligned := by
  intro row hrow
  rw [(Array.mem_replicate.1 hrow).2]
  exact List.length_map _

/-- **Setting a value** leaves the rows whole. -/
theorem aligned_put {s : StructArray α} (h : s.Aligned) (blank : α) (name : String) (index : Nat)
    (v : α) : (s.put blank name index v).Aligned := by
  unfold put
  split
  · intro row hrow
    obtain ⟨i, hi, rfl⟩ := Array.getElem_of_mem hrow
    rw [Array.getElem_modify]
    split_ifs
    · rw [List.length_set]
      exact h _ (Array.getElem_mem _)
    · exact h _ (Array.getElem_mem _)
  · intro row hrow
    obtain ⟨i, hi, rfl⟩ := Array.mem_mapIdx.1 hrow
    rw [List.length_append, List.length_append, h _ (Array.getElem_mem hi)]
    rfl

theorem aligned_set {s : StructArray α} (h : s.Aligned) (blank : α) (name : String) (index : Nat)
    (v : α) : (s.set blank name index v).1.Aligned := by
  unfold set
  split_ifs
  · exact aligned_put h blank name index v
  · exact h

end StructArray

/-! ### Trees -/

namespace Tree

/-- Whether all struct arrays in a tree have whole rows. -/
inductive Aligned : Tree → Prop
  | double (rows cols : Nat) (data : List UInt64) : Aligned (.double rows cols data)
  | uint8 (rows cols : Nat) (data : List UInt8) : Aligned (.uint8 rows cols data)
  | char (text : String) : Aligned (.char text)
  | cell {items : List Tree} (aligned_item : ∀ t ∈ items, Aligned t) : Aligned (.cell items)
  | struct {s : StructArray Tree} (aligned_rows : s.Aligned)
      (aligned_value : ∀ row ∈ s.rows, ∀ t ∈ row, Aligned t) : Aligned (.struct s)

theorem Aligned.struct_toArray {names : List String} {rows : List (List Tree)}
    (h : ∀ row ∈ rows, row.length = names.length ∧ ∀ t ∈ row, t.Aligned) :
    (Tree.struct ⟨names, rows.toArray⟩).Aligned :=
  .struct (fun row hrow ↦ (h row (List.mem_toArray.1 hrow)).1)
    fun row hrow ↦ (h row (List.mem_toArray.1 hrow)).2

end Tree

end GraphCodec
