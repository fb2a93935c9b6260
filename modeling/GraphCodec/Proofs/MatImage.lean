import GraphCodec.MatFile.Image
import GraphCodec.Proofs.MatElement
import GraphCodec.Proofs.StackShape

/-!
# MAT-files are read back

A file that is written is a Level 5 file, and its variable and the whole tree are read back from it
(`MatFile.readable_image`), whatever the depth of the tree. The reader goes by the numbers of bytes
in front of the elements alone and accepts nothing that is left over, at no level.

The rows of struct arrays are written one after the other, and come apart again because each has a
value for every name (`Tree.Aligned`), as in all containers of records (`file?_of_ofRecord`). What is
not read back is the part of a field name after a zero (`Tree.cutNames`).
-/

namespace GraphCodec

namespace Tree

/-- The tree with the names of its fields as they are read back. -/
def cutNames : Tree → Tree
  | .struct s => .struct ⟨s.names.map MatFile.cutName,
      (s.rows.toList.map fun row ↦ row.map fun t ↦ t.cutNames).toArray⟩
  | .cell items => .cell (items.map fun t ↦ t.cutNames)
  | .double rows cols data => .double rows cols data
  | .uint8 rows cols data => .uint8 rows cols data
  | .char text => .char text
  termination_by t => sizeOf t
  decreasing_by
    · rename_i hrow ht
      have := Tree.sizeOf_lt_of_mem_row (Array.mem_toList_iff.1 hrow) ht
      simp only [Tree.struct.sizeOf_spec]
      omega
    · rename_i ht
      have := List.sizeOf_lt_of_mem ht
      simp only [Tree.cell.sizeOf_spec]
      omega

end Tree

/-! ### Reading by class -/

namespace Level5

variable {bs rest : List UInt8} {name : String}

/-- Reading a matrix that has no parts. -/
theorem matrix?_plain {front : Front} (h : front? bs = some (front, rest))
    (hcell : front.classCode ≠ 1) (hstruct : front.classCode ≠ 2) :
    matrix? bs = (plain? front rest).map fun t ↦ (front.name, t) := by
  rw [matrix?]
  split
  · rename_i hnone
    cases h.symm.trans hnone
  · rename_i hsome
    cases h.symm.trans hsome
    split
    · exact absurd ‹_› hcell
    · exact absurd ‹_› hstruct
    · rfl

/-- Reading a row of cells reads as many matrices as there are columns. -/
theorem matrix?_cell {n : Nat} (h : front? bs = some (⟨1, 1, n, name⟩, rest)) :
    matrix? bs = (matrices? n rest).map fun items ↦ (name, .cell items) := by
  rw [matrix?]
  split
  · rename_i hnone
    cases h.symm.trans hnone
  · rename_i hsome
    cases h.symm.trans hsome
    exact if_pos rfl

/-- Reading a struct array reads the names and then a matrix for each name and element. -/
theorem matrix?_struct {n : Nat} {names : List String} {values : List UInt8}
    (h : front? bs = some (⟨2, 1, n, name⟩, rest)) (hnames : names? rest = some (names, values)) :
    matrix? bs = (matrices? (n * names.length) values).map fun values ↦
      (name, .struct ⟨names, (chunks names.length n values).toArray⟩) := by
  rw [matrix?]
  split
  · rename_i hnone
    cases h.symm.trans hnone
  · rename_i hsome
    cases h.symm.trans hsome
    simp only [if_true]
    split
    · rename_i hnone
      cases hnames.symm.trans hnone
    · rename_i hsome
      cases hnames.symm.trans hsome
      rfl

end Level5

namespace MatFile

open Level5

/-! ### The image of a tree -/

/-- Whether bytes are the element of one matrix, which is read as a tree with a name. -/
def IsMatrix (name : String) (t : Tree) (bs : List UInt8) : Prop :=
  ∃ data, data.length < 2 ^ 32 ∧ 8 ∣ data.length ∧ bs = elementForm .matrix data ∧
    matrix? data = some (name, t)

/-- The elements of a matrix after its name. -/
def body : Tree → Except Fault (List UInt8)
  | .double _ _ data => element .double (data.flatMap Word.ofUInt64)
  | .uint8 _ _ data => element .uint8 data
  | .char text => element .uint16 ((Tree.utf16 text).flatMap Word.ofUInt16)
  | .cell items => do
    let items ← items.mapM (matrix "")
    return items.flatten
  | .struct s => do
    let names ← fieldNames s.names
    let rows ← s.rows.toList.mapM fun row ↦ row.mapM (matrix "")
    return names ++ (rows.map List.flatten).flatten

/-- Membership is only for the recursion to end. -/
theorem mapM_attach {ε α β : Type} (f : α → Except ε β) (as : List α) :
    (as.attach.mapM fun (a : { a // a ∈ as }) ↦ f a.1) = as.mapM f := by
  have hmap := List.mapM_map (f := Subtype.val) (g := f) (l := as.attach)
  rw [List.attach_map_subtype_val] at hmap
  exact hmap.symm

/-- A matrix is its front and its body, wrapped up as one element. -/
theorem matrix_eq (name : String) (t : Tree) :
    matrix name t = (do
      let front ← matrixFront name t
      let body ← body t
      element .matrix (front ++ body)) := by
  cases t with
  | double | uint8 | char => rw [matrix]; rfl
  | cell items =>
    rw [matrix]
    simp only [body, mapM_attach, bind_assoc, pure_bind]
  | struct s =>
    rw [matrix]
    simp only [body, mapM_attach, bind_assoc, pure_bind]

/-- Whether a matrix can be made, and which: both parts can be, and they are not too long. -/
theorem matrix_eq_ok_iff {name : String} {t : Tree} {bs : List UInt8} :
    matrix name t = .ok bs ↔ ∃ front, matrixFront name t = .ok front ∧ ∃ rest, body t = .ok rest ∧
      (front ++ rest).length < 2 ^ 32 ∧ bs = elementForm .matrix (front ++ rest) := by
  simp only [matrix_eq, bind_eq_ok_iff, element_eq_ok_iff]

/-- **Matrices in a row** are read one after the other. -/
theorem matrices?_flatten {ts : List Tree} {forms : List (List UInt8)}
    (h : List.Forall₂ (IsMatrix "") ts forms) :
    matrices? ts.length forms.flatten = some ts ∧ 8 ∣ forms.flatten.length := by
  induction h with
  | nil =>
    refine ⟨?_, Nat.dvd_zero 8⟩
    rw [List.length_nil, matrices?]
    rfl
  | @cons t form ts forms ht _ ih =>
    obtain ⟨data, hlength, _, rfl, hread⟩ := ht
    refine ⟨?_, ?_⟩
    · have hexpect : expect 14 (elementForm .matrix data ++ forms.flatten) =
          some (data, forms.flatten) := expect_elementForm .matrix hlength _
      rw [List.flatten_cons, List.length_cons, matrices?]
      split
      · rename_i hnone
        cases hexpect.symm.trans hnone
      · rename_i hsome
        cases hexpect.symm.trans hsome
        rw [hread]
        dsimp only
        rw [if_pos rfl, ih.1]
        rfl
    · rw [List.flatten_cons, List.length_append]
      exact (eight_dvd_length_elementForm _ _).add ih.2

/-- Whether what is written of a tree after its name is read as a given tree, in any matrix with
that front. -/
def Restores (t t' : Tree) : Prop :=
  ∀ rest, body t = .ok rest → 8 ∣ rest.length ∧
    ∀ name bs, front? bs = some (⟨classCode t, t.dims.1, t.dims.2, name⟩, rest) →
      matrix? bs = some (name, t')

/-- What a tree restores is what its matrix is read as. -/
theorem Restores.isMatrix {t t' : Tree} (h : Restores t t') {name : String} {bs : List UInt8}
    (hbs : matrix name t = .ok bs) : IsMatrix name t' bs := by
  obtain ⟨front, hfront, rest, hrest, hlength, rfl⟩ := matrix_eq_ok_iff.1 hbs
  obtain ⟨hread, hwhole⟩ := front?_matrixFront hfront rest
  obtain ⟨hwhole', hread'⟩ := h rest hrest
  refine ⟨_, hlength, ?_, rfl, hread' name _ hread⟩
  rw [List.length_append]
  exact hwhole.add hwhole'

/-- **Matrices of doubles** come back bit by bit. -/
theorem restores_double (rows cols : Nat) (data : List UInt64) :
    Restores (.double rows cols data) (.double rows cols data) := by
  intro rest h
  obtain ⟨hlength, rfl⟩ := element_eq_ok_iff.1 h
  refine ⟨eight_dvd_length_elementForm _ _, fun name bs hfront ↦ ?_⟩
  have hwords : words? 9 8 (elementForm .double (data.flatMap Word.ofUInt64)) =
      some (data.map Word.ofUInt64) :=
    words?_elementForm .double Word.length_ofUInt64 (by decide) hlength
  have hvalues : (data.map Word.ofUInt64).map (fun w ↦ UInt64.ofNat (Word.value w)) = data := by
    rw [List.map_map]
    exact List.map_id'' Word.ofNat_value_ofUInt64 data
  rw [matrix?_plain hfront (by decide : 6 ≠ 1) (by decide : 6 ≠ 2)]
  show ((words? 9 8 _).map fun ws ↦ _).map _ = _
  rw [hwords, Option.map_some, hvalues]
  rfl

/-- **Matrices of bytes** come back as they are. -/
theorem restores_uint8 (rows cols : Nat) (data : List UInt8) :
    Restores (.uint8 rows cols data) (.uint8 rows cols data) := by
  intro rest h
  obtain ⟨hlength, rfl⟩ := element_eq_ok_iff.1 h
  refine ⟨eight_dvd_length_elementForm _ _, fun name bs hfront ↦ ?_⟩
  have hsingle : data.flatMap (fun b ↦ [b]) = data := List.flatMap_singleton' data
  have hwords : words? 2 1 (elementForm .uint8 (data.flatMap fun b ↦ [b])) =
      some (data.map fun b ↦ [b]) :=
    words?_elementForm .uint8 (fun _ ↦ rfl) (by decide) (hsingle.symm ▸ hlength)
  rw [hsingle] at hwords
  rw [matrix?_plain hfront (by decide : 9 ≠ 1) (by decide : 9 ≠ 2)]
  show ((words? 2 1 _).map fun ws ↦ _).map _ = _
  rw [hwords, Option.map_some, ← List.flatMap_def, hsingle]
  rfl

/-- **Rows of characters** come back from their units. -/
theorem restores_char (text : String) : Restores (.char text) (.char text) := by
  intro rest h
  obtain ⟨hlength, rfl⟩ := element_eq_ok_iff.1 h
  refine ⟨eight_dvd_length_elementForm _ _, fun name bs hfront ↦ ?_⟩
  have hwords : words? 4 2 (elementForm .uint16 ((Tree.utf16 text).flatMap Word.ofUInt16)) =
      some ((Tree.utf16 text).map Word.ofUInt16) :=
    words?_elementForm .uint16 (fun _ ↦ Word.length_bytes 2 _) (by decide) hlength
  have hvalue : ∀ u, Word.value (Word.ofUInt16 u) = u.toNat := fun u ↦ by
    rw [Word.ofUInt16, Word.value_bytes]
    exact Nat.mod_eq_of_lt u.toNat_lt
  have hunits : ((Tree.utf16 text).map Word.ofUInt16).map Word.value =
      (Tree.utf16 text).map UInt16.toNat := by
    rw [List.map_map]
    exact List.map_congr_left fun u _ ↦ hvalue u
  have hplain : plain? ⟨4, 1, (Tree.utf16 text).length, name⟩
      (elementForm .uint16 ((Tree.utf16 text).flatMap Word.ofUInt16)) = some (.char text) := by
    simp only [plain?, hwords, Option.bind_eq_bind, Option.bind_some, List.length_map, and_self,
      if_true, hunits, ofUtf16?_utf16, Option.map_some, String.ofList_toList]
  rw [matrix?_plain hfront (by decide : 4 ≠ 1) (by decide : 4 ≠ 2)]
  exact congrArg (Option.map _) hplain

section

variable {g : Tree → Tree}

/-- The matrices of a list are read one by one. -/
theorem forall₂_isMatrix {ts : List Tree} (h : ∀ t ∈ ts, Restores t (g t))
    {forms : List (List UInt8)} (hforms : ts.mapM (matrix "") = .ok forms) :
    List.Forall₂ (IsMatrix "") (ts.map g) forms := by
  have hmatrices := (List.forall₂_and_left _ _).2 ⟨h, mapM_eq_ok_iff_forall₂.1 hforms⟩
  exact List.forall₂_map_left_iff.2 (hmatrices.imp fun _ _ ht ↦ ht.1.isMatrix ht.2)

/-- **Rows of cells** come back if their items do. -/
theorem restores_cell {items : List Tree} (h : ∀ t ∈ items, Restores t (g t)) :
    Restores (.cell items) (.cell (items.map g)) := by
  intro rest hrest
  obtain ⟨forms, hforms, hrest⟩ := bind_eq_ok_iff.1 hrest
  cases hrest
  obtain ⟨hread, hwhole⟩ := matrices?_flatten (forall₂_isMatrix h hforms)
  rw [List.length_map] at hread
  refine ⟨hwhole, fun name bs hfront ↦ ?_⟩
  rw [matrix?_cell hfront]
  exact congrArg (Option.map _) hread

/-- **The rows of a struct array** come apart again, since each has a value for every name. -/
theorem restores_struct {s : StructArray Tree} (hs : s.Aligned)
    (h : ∀ row ∈ s.rows, ∀ t ∈ row, Restores t (g t)) :
    Restores (.struct s) (.struct ⟨s.names.map cutName,
      (s.rows.toList.map fun row ↦ row.map g).toArray⟩) := by
  intro rest hrest
  simp only [body, bind_eq_ok_iff] at hrest
  obtain ⟨names, hnames, rows, hrows, hrest⟩ := hrest
  cases hrest
  obtain ⟨hread, hwhole⟩ := names?_fieldNames hnames (rows.map List.flatten).flatten
  obtain ⟨trees, htrees⟩ : ∃ trees, trees = s.rows.toList.map fun row ↦ row.map g := ⟨_, rfl⟩
  have hmatrices : List.Forall₂ (List.Forall₂ (IsMatrix "")) trees rows := by
    have hrestores : ∀ row ∈ s.rows.toList, ∀ t ∈ row, Restores t (g t) := fun row hrow ↦
      h row (Array.mem_toList_iff.1 hrow)
    have hrows' := (List.forall₂_and_left _ _).2 ⟨hrestores, mapM_eq_ok_iff_forall₂.1 hrows⟩
    rw [htrees, List.forall₂_map_left_iff]
    exact hrows'.imp fun _ _ hrow ↦ forall₂_isMatrix hrow.1 hrow.2
  obtain ⟨hvalues, hwhole'⟩ := matrices?_flatten (List.rel_flatten hmatrices)
  have hlength : ∀ row ∈ trees, row.length = (s.names.map cutName).length := by
    rw [htrees]
    refine List.forall_mem_map.2 fun row hrow ↦ ?_
    rw [List.length_map, List.length_map]
    exact hs row (Array.mem_toList_iff.1 hrow)
  -- the file says how many rows there are by the second dimension
  have hcount : trees.length = (Tree.struct s).dims.2 := by
    rw [htrees, List.length_map, Array.length_toList]
    rfl
  rw [length_flatten_of_forall hlength, hcount, List.flatten_flatten] at hvalues
  rw [List.flatten_flatten] at hwhole'
  refine ⟨?_, fun name bs hfront ↦ ?_⟩
  · rw [List.length_append]
    exact hwhole.add hwhole'
  · rw [matrix?_struct hfront hread, hvalues, Option.map_some, ← hcount, chunks_flatten hlength,
      htrees]

end

/-- **The whole tree** is read back, with names cut. -/
theorem restores_cutNames {t : Tree} (ht : t.Aligned) : Restores t t.cutNames := by
  induction ht with
  | double rows cols data =>
    rw [Tree.cutNames]
    exact restores_double rows cols data
  | uint8 rows cols data =>
    rw [Tree.cutNames]
    exact restores_uint8 rows cols data
  | char text =>
    rw [Tree.cutNames]
    exact restores_char text
  | cell _ ih =>
    rw [Tree.cutNames]
    exact restores_cell ih
  | struct hrows _ ih =>
    rw [Tree.cutNames]
    exact restores_struct hrows ih

/-- **A file** is read back as the tree that is read back of its variable: after the header comes
one matrix, and nothing is left over. -/
theorem Restores.file?_image {header : Header} {name : String} {t u : Tree} (ht : Restores t u)
    {bs : List UInt8} (h : image header name t = .ok bs) : file? bs = some (name, u) := by
  obtain ⟨matrixBytes, hmatrix, h⟩ := bind_eq_ok_iff.1 h
  cases h
  obtain ⟨data, hlength, -, rfl, hread⟩ := ht.isMatrix hmatrix
  have hexpect := expect_elementForm .matrix hlength []
  have hdrop : (header.bytes ++ elementForm .matrix data).drop 128 = elementForm .matrix data :=
    List.drop_left' header.length_bytes
  rw [List.append_nil, ← hdrop] at hexpect
  exact (file?_of_expect hexpect).trans hread

/-- **A file is read back.** Its length is a multiple of eight; after the header comes one matrix,
which ends where the file ends; and by the rules of the format, which leave nothing over at any
level, the file holds the variable with its tree, up to what field names have after a zero. -/
theorem readable_image {header : Header} {name : String} {t : Tree} (ht : t.Aligned)
    {bs : List UInt8} (h : image header name t = .ok bs) :
    bs.length % 8 = 0 ∧ header.bytes.length = 128 ∧
      (∃ data, data.length < 2 ^ 32 ∧
        bs = header.bytes ++ (Word.bytes 4 14 ++ Word.bytes 4 data.length ++ data)) ∧
      file? bs = some (name, t.cutNames) := by
  have hfile := (restores_cutNames ht).file?_image h
  obtain ⟨matrixBytes, hmatrix, h⟩ := bind_eq_ok_iff.1 h
  cases h
  have hheader : header.bytes.length = 128 := header.length_bytes
  obtain ⟨data, hlength, hwhole, rfl, -⟩ := (restores_cutNames ht).isMatrix hmatrix
  refine ⟨?_, hheader, ⟨data, hlength, ?_⟩, hfile⟩
  · have hdvd : 8 ∣ header.bytes.length := hheader ▸ by decide
    rw [List.length_append]
    exact Nat.mod_eq_zero_of_dvd (hdvd.add (eight_dvd_length_elementForm _ _))
  · -- there are no zeros after a whole number of words
    have hpadding : padding data.length = 0 := by
      rw [padding, Nat.mod_eq_zero_of_dvd hwhole]
    rw [elementForm, hpadding, List.replicate_zero, List.append_nil]
    rfl

/-- A row of two structs, which hold a text, a cell, nothing and a struct without fields. -/
def shelf (tag : String) : Tree :=
  .struct ⟨["n", tag], #[[.char "é😀", .cell [.uint8 3 1 [1, 2, 3]]],
    [.empty, .struct ⟨[], #[[]]⟩]]⟩

theorem readable_image_shelf :
    (shelf "tag\x00s").Aligned ∧
      ∃ bs, image ⟨"", version, byteOrderMark⟩ "v" (shelf "tag\x00s") = .ok bs ∧
        bs.length % 8 = 0 ∧ file? bs = some ("v", shelf "tag") := by
  have haligned : (shelf "tag\x00s").Aligned := by
    refine .struct_toArray ?_
    simp only [List.forall_mem_cons, List.not_mem_nil, false_implies, implies_true, and_true]
    refine ⟨⟨rfl, .char _, .cell ?_⟩, rfl, .double .., .struct_toArray ?_⟩
    · exact List.forall_mem_singleton.2 (.uint8 ..)
    · exact List.forall_mem_singleton.2 ⟨rfl, List.forall_mem_nil _⟩
  have hok : (image ⟨"", version, byteOrderMark⟩ "v" (shelf "tag\x00s")).toBool = true := by
    decide +kernel
  have hcut : (shelf "tag\x00s").cutNames = shelf "tag" := by cbv
  rcases himage : image ⟨"", version, byteOrderMark⟩ "v" (shelf "tag\x00s") with e | bs
  · rw [himage] at hok
    cases hok
  · obtain ⟨hwhole, -, -, hread⟩ := readable_image haligned himage
    exact ⟨haligned, bs, rfl, hwhole, hcut ▸ hread⟩

/-- **What is exported can be read**: the file of any record that is exported holds its container,
up to what field names have after a zero. -/
theorem file?_of_ofRecord {s : Schema} {r : Record} {T : Tree}
    (hT : Container.ofRecord s r = .ok T) {header : Header} {name : String} {bs : List UInt8}
    (h : image header name T = .ok bs) : file? bs = some (name, T.cutNames) :=
  (restores_cutNames (Container.aligned_of_ofRecord hT)).file?_image h

end MatFile

end GraphCodec
