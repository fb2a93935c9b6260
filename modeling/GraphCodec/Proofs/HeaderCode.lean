import GraphCodec.Proofs.NameIndex
import GraphCodec.Proofs.WellFormed

/-!
# The dictionary section as a code

Every dictionary that can be written has a stored form, well-formed or not. No two have the same,
and none begins with another (`headerForm_append_inj`), because a decoder that checks nothing gets
the types back from the form alone. So what the reader returns in front of the form of a dictionary
can only be that dictionary, and it returns it exactly if the dictionary is well-formed. In the
other direction the reader accepts nothing but forms.
-/

namespace GraphCodec

namespace Decoder

variable {α : Type}

/-- **A decoder determines what it reads**: of two forms that it takes, neither begins with the
other. -/
theorem Reads.append_inj {p : Decoder α} {as bs : List UInt8} {a b : α} (ha : Reads p as a)
    (hb : Reads p bs b) {rest rest' : List UInt8} (h : as ++ rest = bs ++ rest') :
    a = b ∧ rest = rest' := by
  have hread := ha rest 0
  rw [h, hb rest' 0] at hread
  have hpair := Except.ok.inj hread
  exact ⟨(congrArg Prod.fst hpair).symm, (congrArg (Cursor.rest ∘ Prod.snd) hpair).symm⟩

open Dictionary

/-! ### Reading without checks -/

/-- A field, whatever it says. -/
def anyField : Decoder FieldEntry := do
  let name ← text
  let tag ← int32
  let dims ← int32
  return ⟨name, tag, dims⟩

/-- A type, whatever it says. -/
def anyType : Decoder TypeEntry := do
  let tag ← int32
  let name ← text
  let count ← length minFieldWidth
  let fields ← times count anyField
  return ⟨tag, name, fields⟩

/-- The types of a dictionary section, whatever they say. -/
def anyTypes : Decoder (List TypeEntry) := do
  let count ← length minTypeWidth
  times count anyType

theorem reads_anyField {f : FieldEntry} (h : Utf8.size f.name ≤ maxLength) :
    Reads anyField (fieldForm f) f :=
  (reads_text h).bind ((reads_int32 f.tag).bind ((reads_int32 f.dims).map _))

theorem reads_anyType {t : TypeEntry} (h : t.Storable) : Reads anyType (typeForm t) t := by
  have hfields := reads_each fun f hf ↦ reads_anyField (h.fields f hf)
  rw [← times_length_eq_each, List.map_id'] at hfields
  exact (reads_int32 t.tag).bind ((reads_text h.name).bind
    (Reads.count h.count (length_mul_minFieldWidth_le t.fields) (hfields.map _)))

theorem reads_anyTypes {d : Dictionary} (hcount : d.types.size ≤ maxLength) (h : d.Storable) :
    Reads anyTypes d.headerForm d.types.toList := by
  have htypes := reads_each fun t ht ↦ reads_anyType (h t ht)
  rw [← times_length_eq_each, List.map_id', Array.length_toList] at htypes
  have hwidth := length_mul_minTypeWidth_le d.types.toList
  rw [Array.length_toList] at hwidth
  exact Reads.count hcount hwidth htypes

end Decoder

namespace Dictionary

open Decoder

/-- **Forms of dictionaries** are different, and none begins with another. -/
theorem headerForm_append_inj {d d' : Dictionary} {h h' rest rest' : List UInt8}
    (hd : d.headerBytes = .ok h) (hd' : d'.headerBytes = .ok h')
    (happend : h ++ rest = h' ++ rest') : d.types = d'.types ∧ rest = rest' := by
  obtain ⟨hcount, hstorable, rfl⟩ := headerBytes_eq_ok_iff.1 hd
  obtain ⟨hcount', hstorable', rfl⟩ := headerBytes_eq_ok_iff.1 hd'
  obtain ⟨htypes, hrest⟩ := (reads_anyTypes hcount hstorable).append_inj
    (reads_anyTypes hcount' hstorable') happend
  exact ⟨Array.toList_inj.1 htypes, hrest⟩

/-! ### The reader and the writer -/

/-- What is read as a dictionary is written again as the bytes that were read. -/
theorem headerBytes_of_readHeader {c c' : Cursor} {d : Dictionary}
    (h : readHeader c = .ok (d, c')) :
    Ordered d.types.toList ∧ ∃ bs, d.headerBytes = .ok bs ∧ c.rest = bs ++ c'.rest ∧
      c'.position = c.position + bs.length := by
  obtain ⟨bs, ⟨hordered, hstorable, hcount, rfl⟩, hrest, hposition⟩ := yields_header h
  have hlength : d.types.size ≤ maxLength := Nat.le_trans hcount (by decide)
  exact ⟨hordered, _, headerBytes_eq_ok_iff.2 ⟨hlength, hstorable, rfl⟩, hrest, hposition⟩

/-- Every cursor stands in front of the bytes that are left. -/
theorem eq_before (c : Cursor) : c = .before c.rest c.position := by
  obtain ⟨rest, position, remaining, rfl⟩ := c
  rfl

/-- In front of the form of a dictionary in order, the reader returns this dictionary if it is
within the limits. -/
theorem readsWhen_headerBytes {d : Dictionary} {bs : List UInt8} (hd : d.headerBytes = .ok bs)
    (hordered : Ordered d.types.toList) :
    ReadsWhen readHeader (WellFormed d.types.toList) bs (ofTypes d.types.toList) := by
  obtain ⟨hcount, hstorable, rfl⟩ := headerBytes_eq_ok_iff.1 hd
  refine (readsWhen_header hcount hstorable fun _ ↦ hordered).congr ?_
  rw [wellFormed_iff, Array.length_toList, and_iff_left hordered]

theorem tagFor?_eq_some_iff {d : Dictionary} (h : Ordered d.types.toList) {name : String}
    {tag : Tag} :
    d.tagFor? name = some tag ↔ ∃ t ∈ d.types.toList, t.name = name ∧ t.tag = tag :=
  tagFor?_eq_some_iff_of_nodup (h.nodup_map TypeEntry.Follows.name_ne)

/-- **What is read as a dictionary** is well-formed. -/
theorem wellFormed_of_readHeader {c c' : Cursor} {d : Dictionary}
    (h : readHeader c = .ok (d, c')) : WellFormed d.types.toList := by
  obtain ⟨hordered, bs, hbytes, hrest, -⟩ := headerBytes_of_readHeader h
  -- beyond the limits the reader would have refused the form in front of which it stood
  by_contra hlimits
  obtain ⟨e, he⟩ :=
    (readsWhen_headerBytes hbytes hordered).refuses hlimits c'.rest c.position
  rw [← hrest, ← eq_before, h] at he
  cases he

/-- **The dictionary section is a code.** In front of what is written of any dictionary, and
whatever follows, the reader succeeds exactly if the dictionary is well-formed; it then returns its
types, finds their tags by name, by the search as well as in the map of the reader that keeps one,
and stands behind what was written. Conversely, wherever the reader succeeds, the bytes that it has
taken are those that are written of its result. -/
theorem readHeader_headerBytes_iff :
    (∀ (d : Dictionary) (bs rest : List UInt8) (position : Nat), d.headerBytes = .ok bs →
      ((∃ d' c', readHeader (.before (bs ++ rest) position) = .ok (d', c')) ↔
        WellFormed d.types.toList) ∧
      ∀ d' c', readHeader (.before (bs ++ rest) position) = .ok (d', c') →
        d'.types = d.types ∧
        (∀ name tag, d'.tagFor? name = some tag ↔
          ∃ t ∈ d.types.toList, t.name = name ∧ t.tag = tag) ∧
        (∃ x, Indexed.readHeader (.before (bs ++ rest) position) = .ok (x, c') ∧ x.Mirrors d') ∧
        c' = .before rest (position + bs.length)) ∧
    ∀ (c c' : Cursor) (d : Dictionary), readHeader c = .ok (d, c') →
      ∃ bs, d.headerBytes = .ok bs ∧ c.rest = bs ++ c'.rest ∧
        c'.position = c.position + bs.length := by
  refine ⟨fun d bs rest position hd ↦ ?_, fun c c' d h ↦ (headerBytes_of_readHeader h).2⟩
  -- whatever is read comes from a form, and no other form begins in the same way
  have hsame : ∀ d' c', readHeader (.before (bs ++ rest) position) = .ok (d', c') →
      d'.types = d.types ∧ c' = .before rest (position + bs.length) := by
    intro d' c' h
    obtain ⟨-, bs', hd', hrest, hposition⟩ := headerBytes_of_readHeader h
    obtain ⟨htypes, rfl⟩ := headerForm_append_inj hd hd' hrest
    obtain rfl : bs = bs' := List.append_cancel_right hrest
    refine ⟨htypes.symm, ?_⟩
    rw [eq_before c', hposition]
    rfl
  refine ⟨⟨?_, fun h ↦ ?_⟩, fun d' c' h ↦ ?_⟩
  · rintro ⟨d', c', h⟩
    rw [← (hsame d' c' h).1]
    exact wellFormed_of_readHeader h
  · exact ⟨_, _, (readsWhen_headerBytes hd (ordered_of_wellFormed h)).reads h rest position⟩
  · obtain ⟨htypes, hcursor⟩ := hsame d' c' h
    refine ⟨htypes, fun name tag ↦ ?_, ?_, hcursor⟩
    · rw [tagFor?_eq_some_iff (ordered_of_wellFormed (wellFormed_of_readHeader h)), htypes]
    · exact Indexed.exists_readHeader h

/-- Paths of points, with tags that are neither in order nor without gaps. -/
def pathDictionary : Dictionary :=
  ⟨#[⟨40, "Point", [⟨"x", 3, 0⟩, ⟨"y", 3, 0⟩]⟩,
    ⟨12, "Path", [⟨"points", 40, 2⟩, ⟨"closed", 1, 0⟩]⟩], 40⟩

theorem readHeader_headerBytes_iff_path :
    pathDictionary.headerBytes = .ok pathDictionary.headerForm ∧
      readHeader (.before (pathDictionary.headerForm ++ [7]) 4) =
        .ok (pathDictionary, .before [7] 103) ∧
      WellFormed pathDictionary.types.toList ∧
      ∃ x, Indexed.readHeader (.before (pathDictionary.headerForm ++ [7]) 4) =
        .ok (x, .before [7] 103) ∧ x.Mirrors pathDictionary := by
  have hbytes : pathDictionary.headerBytes = .ok pathDictionary.headerForm := by cbv
  have hread : readHeader (.before (pathDictionary.headerForm ++ [7]) 4) =
      .ok (pathDictionary, .before [7] 103) := by
    cbv
  obtain ⟨hiff, hresult⟩ := readHeader_headerBytes_iff.1 _ _ [7] 4 hbytes
  exact ⟨hbytes, hread, hiff.1 ⟨_, _, hread⟩, (hresult _ _ hread).2.2.1⟩

end Dictionary

end GraphCodec
