import GraphCodec.Container.Builder

/-!
# Rows of struct arrays

Values are put into one row of a struct array one after the other (`StructArray.putAll`). Where the
array has all their names already, this changes the row alone (`putAll_of_subset`), and what the row
becomes is said without the array (`StructArray.fill`). An array without fields grows a row instead.
If names are distinct, both give the values in the order of the names (`fill_zip`,
`putAll_ofSize_one`); of values with the same name the last one stays, in the first place.

An array of a known length is filled from the front: `slots` is how it looks on the way.
-/

namespace GraphCodec

/-- A list of `n` places of which the first are done and the others still blank. -/
def slots {α : Type} (n : Nat) (blank : α) (done : List α) : List α :=
  done ++ List.replicate (n - done.length) blank

section

variable {α : Type} {n : Nat} {blank : α} {done : List α}

theorem slots_of_length_eq (h : done.length = n) : slots n blank done = done := by
  rw [slots, h, Nat.sub_self, List.replicate_zero, List.append_nil]

theorem length_slots (h : done.length ≤ n) : (slots n blank done).length = n := by
  rw [slots, List.length_append, List.length_replicate]
  omega

/-- The next place is the first of those that are still blank. -/
theorem slots_eq_append (h : done.length < n) :
    slots n blank done = done ++ blank :: List.replicate (n - (done.length + 1)) blank := by
  have hleft : n - done.length = n - (done.length + 1) + 1 := by omega
  rw [slots, hleft, List.replicate_succ]

theorem slots_append_singleton (a : α) :
    slots n blank (done ++ [a]) = done ++ a :: List.replicate (n - (done.length + 1)) blank := by
  rw [slots, List.append_assoc, List.length_append, List.length_singleton, List.singleton_append]

/-- **The next place is done** when what is there is changed. -/
theorem modify_slots (h : done.length < n) (g : α → α) :
    (slots n blank done).modify done.length g = slots n blank (done ++ [g blank]) := by
  rw [slots_eq_append h, slots_append_singleton, List.modify_eq_take_cons_drop (by simp)]
  simp

theorem modify_toArray_slots (h : done.length < n) (g : α → α) :
    (slots n blank done).toArray.modify done.length g =
      (slots n blank (done ++ [g blank])).toArray := by
  rw [← Array.toList_inj, Array.toList_modify]
  exact modify_slots h g

theorem set_slots (h : done.length < n) (a : α) :
    (slots n blank done).set done.length a = slots n blank (done ++ [a]) := by
  rw [slots_eq_append h, slots_append_singleton, List.set_append_right _ _ (Nat.le_refl _),
    Nat.sub_self, List.set_cons_zero]

/-- A place that stays blank is done too. -/
theorem slots_append_blank (h : done.length < n) :
    slots n blank (done ++ [blank]) = slots n blank done := by
  rw [slots_eq_append h, slots_append_singleton]

end

namespace StructArray

variable {α : Type} {blank : α} {s : StructArray α}

/-- Put values into an element of the array under names, one after the other. -/
def putAll (blank : α) (s : StructArray α) (index : Nat) (vs : List (String × α)) :
    StructArray α :=
  vs.foldl (fun s v ↦ s.put blank v.1 index v.2) s

@[simp] theorem putAll_nil (index : Nat) : s.putAll blank index [] = s := rfl

@[simp] theorem putAll_cons (index : Nat) (v : String × α) (vs : List (String × α)) :
    s.putAll blank index (v :: vs) = (s.put blank v.1 index v.2).putAll blank index vs := rfl

theorem putAll_append_singleton (index : Nat) (vs : List (String × α)) (v : String × α) :
    s.putAll blank index (vs ++ [v]) = (s.putAll blank index vs).put blank v.1 index v.2 :=
  List.foldl_append

@[simp] theorem size_putAll (index : Nat) (vs : List (String × α)) :
    (s.putAll blank index vs).size = s.size := by
  induction vs generalizing s with
  | nil => rfl
  | cons v vs ih => rw [putAll_cons, ih, size_put]

theorem set_of_lt {index : Nat} (h : index < s.size) (name : String) (v : α) :
    s.set blank name index v = (s.put blank name index v, .ok ()) :=
  if_pos h

/-! ### Rows with all their names -/

/-- The values of a row, in the order of `names`, after others have been put into it. -/
def fill (names : List String) (vs : List (String × α)) (row : List α) : List α :=
  vs.foldl (fun row v ↦ row.set (names.idxOf v.1) v.2) row

@[simp] theorem fill_cons (names : List String) (v : String × α) (vs : List (String × α))
    (row : List α) :
    fill names (v :: vs) row = fill names vs (row.set (names.idxOf v.1) v.2) := rfl

theorem position?_of_mem {name : String} (h : name ∈ s.names) :
    s.position? name = some (s.names.idxOf name) :=
  List.findIdx?_eq_some_of_exists ⟨name, h, beq_self_eq_true name⟩

theorem position?_of_notMem {name : String} (h : name ∉ s.names) : s.position? name = none := by
  refine List.findIdx?_eq_none_iff.2 fun n hn ↦ ?_
  rw [beq_eq_false_iff_ne]
  exact fun heq ↦ h (heq ▸ hn)

theorem put_of_mem {name : String} (h : name ∈ s.names) (index : Nat) (v : α) :
    s.put blank name index v =
      ⟨s.names, s.rows.modify index fun row ↦ row.set (s.names.idxOf name) v⟩ := by
  rw [put, position?_of_mem h]

/-- **Values under names that are there** change nothing but their row. -/
theorem putAll_of_subset {vs : List (String × α)} (h : ∀ v ∈ vs, v.1 ∈ s.names) (index : Nat) :
    s.putAll blank index vs = ⟨s.names, s.rows.modify index (fill s.names vs)⟩ := by
  induction vs generalizing s with
  | nil =>
    rw [putAll_nil]
    have hrows : s.rows.modify index (fill s.names []) = s.rows :=
      Array.toList_inj.1 (by rw [Array.toList_modify]; exact List.modify_id _ _)
    rw [hrows]
  | cons v vs ih =>
    have hv := h v List.mem_cons_self
    have hvs := ih (s := s.put blank v.1 index v.2) fun w hw ↦ by
      rw [put_of_mem hv]
      exact h w (List.mem_cons_of_mem v hw)
    have hrows : (s.rows.modify index fun row ↦ row.set (s.names.idxOf v.1) v.2).modify index
        (fill s.names vs) = s.rows.modify index (fill s.names (v :: vs)) :=
      Array.toList_inj.1 (by simp only [Array.toList_modify, List.modify_modify_eq]; rfl)
    rw [putAll_cons, hvs, put_of_mem hv, hrows]

/-- Values put behind those of the names before. -/
theorem fill_append_zip {pre rest : List String} {done vs row : List α}
    (hnodup : (pre ++ rest).Nodup) (hdone : done.length = pre.length)
    (hvs : vs.length = rest.length) (hrow : row.length = rest.length) :
    fill (pre ++ rest) (rest.zip vs) (done ++ row) = done ++ vs := by
  induction rest generalizing pre done vs row with
  | nil =>
    rw [List.length_eq_zero_iff.1 hvs, List.length_eq_zero_iff.1 hrow]
    rfl
  | cons name rest ih =>
    obtain ⟨v, vs, rfl⟩ := List.exists_cons_of_length_eq_add_one hvs
    obtain ⟨old, row, rfl⟩ := List.exists_cons_of_length_eq_add_one hrow
    have hnew : name ∉ pre := fun h ↦
      (List.nodup_append.1 hnodup).2.2 name h name List.mem_cons_self rfl
    have hplace : (pre ++ name :: rest).idxOf name = done.length := by
      rw [List.idxOf_append, if_neg hnew, List.idxOf_cons_self, hdone, Nat.zero_add]
    have hset : (done ++ old :: row).set done.length v = done ++ [v] ++ row := by
      rw [List.set_append_right _ _ (Nat.le_refl _), Nat.sub_self, List.set_cons_zero,
        List.append_assoc, List.singleton_append]
    rw [List.append_cons] at hnodup
    rw [List.zip_cons_cons, fill_cons, hplace, hset, List.append_cons pre,
      List.append_cons done v vs]
    have hlength : (done ++ [v]).length = (pre ++ [name]).length := by
      rw [List.length_append, List.length_append, hdone, List.length_singleton,
        List.length_singleton]
    exact ih hnodup hlength (Nat.succ.inj hvs) (Nat.succ.inj hrow)

/-- **A row with distinct names** is filled with the values in the order of the names. -/
theorem fill_zip {names : List String} (hnodup : names.Nodup) {vs row : List α}
    (hvs : vs.length = names.length) (hrow : row.length = names.length) :
    fill names (names.zip vs) row = vs :=
  @fill_append_zip α [] names [] vs row hnodup rfl hvs hrow

/-! ### A row that grows -/

/-- New names, distinct from those before, come behind them with their values. -/
theorem putAll_append_zip {pre rest : List String} {done vs : List α}
    (hnodup : (pre ++ rest).Nodup) (hvs : vs.length = rest.length) :
    (⟨pre, #[done]⟩ : StructArray α).putAll blank 0 (rest.zip vs) =
      ⟨pre ++ rest, #[done ++ vs]⟩ := by
  induction rest generalizing pre done vs with
  | nil =>
    rw [List.length_eq_zero_iff.1 hvs, List.append_nil, List.append_nil]
    rfl
  | cons name rest ih =>
    obtain ⟨v, vs, rfl⟩ := List.exists_cons_of_length_eq_add_one hvs
    have hnew : name ∉ pre := fun h ↦
      (List.nodup_append.1 hnodup).2.2 name h name List.mem_cons_self rfl
    have hput : (⟨pre, #[done]⟩ : StructArray α).put blank name 0 v =
        ⟨pre ++ [name], #[done ++ [v]]⟩ := by
      rw [put, position?_of_notMem hnew]
      rfl
    rw [List.append_cons] at hnodup
    rw [List.append_cons pre, List.append_cons done, List.zip_cons_cons, putAll_cons, hput]
    exact ih hnodup (Nat.succ.inj hvs)

/-- **An element without fields** that is given values under distinct names has these values. -/
theorem putAll_ofSize_one {names : List String} (hnodup : names.Nodup) {vs : List α}
    (hvs : vs.length = names.length) :
    (ofSize 1).putAll blank 0 (names.zip vs) = ⟨names, #[vs]⟩ :=
  putAll_append_zip hnodup hvs

end StructArray

/-! ### Splicing -/

/-- Splicing an element into a row that is there puts all its values. -/
theorem Container.Builder.splice_of_lt {s : StructArray Tree} {index : Nat} (h : index < s.size)
    (vs : List (String × Tree)) :
    splice s index vs = (s.putAll Tree.empty index vs, .ok ()) := by
  induction vs generalizing s with
  | nil => rfl
  | cons v vs ih =>
    rw [splice, StructArray.set_of_lt h, StructArray.putAll_cons]
    exact ih (by rwa [StructArray.size_put])

end GraphCodec
