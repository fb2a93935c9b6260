import GraphCodec.Image.Reader
import GraphCodec.Proofs.Decoding

/-!
# The texts of the dates in an image

A date can be written in more than one way, and the instant that is read does not tell in which. The
readers here are those of slots and of images which also return the texts of all dates that they
read, in the order in which they are stored. Without the texts they are the readers themselves
(`map_fst_readContentTexts`), so `dateTexts` gives the texts of the dates in whatever can be
decoded.
-/

namespace GraphCodec

namespace Decoder

/-- A primitive and, if it is a date, its text. -/
def primitiveTexts (k : Kind) (sentinels : Bool) : Decoder (Value × List String) :=
  match k with
  | .date => do
    let s ← text
    if s = "" then return (.null, [s])
    else
      match Rfc3339.parse s with
      | .ok d => return (.date d, [s])
      | .error e => fail (.invalidDate s e)
  | k => do return (← primitive k sentinels, [])

theorem primitiveTexts_of_ne_date {k : Kind} (hk : k ≠ .date) (sentinels : Bool) :
    primitiveTexts k sentinels = primitive k sentinels >>= fun v ↦ pure (v, []) := by
  cases k <;> first | rfl | exact absurd rfl hk

theorem map_fail {α β : Type} (f : α → β) (e : DataFault) : f <$> (fail e : Decoder α) = fail e :=
  rfl

/-- Keeping the text of a date does not change what is read. -/
theorem map_fst_primitiveTexts (k : Kind) (sentinels : Bool) :
    Prod.fst <$> primitiveTexts k sentinels = primitive k sentinels := by
  cases k with
  | date =>
    simp only [primitiveTexts, primitive, date, map_bind]
    refine bind_congr fun s ↦ ?_
    split
    · rw [map_pure]
    · cases Rfc3339.parse s with
      | ok i => rw [map_pure]
      | error e => rw [map_fail]
  | _ => simp only [primitiveTexts, map_bind, map_pure, bind_pure]

end Decoder

namespace Image

/-- Read a slot and the texts of the dates in it. -/
def readSlotTexts (d : Dictionary) (widths : List (Tag × Nat)) (levels : Nat) (tag : Tag)
    (dims : Nat) (inRecord : Bool) : Decoder (Value × List String) :=
  match dims with
  | 0 =>
    match Kind.ofTag? tag with
    | some k => Decoder.primitiveTexts k inRecord
    | none => do
      let t ← readType d tag
      match levels with
      | 0 => Decoder.fail .nestedTooDeep
      | levels + 1 =>
        let fields ← Decoder.each t.fields fun f ↦ do
          let part ← readSlotTexts d widths levels f.tag f.dims.toNatClampNeg true
          return ((f.name, part.1), part.2)
        return (.record t.name (fields.map Prod.fst), fields.flatMap Prod.snd)
  | dims + 1 =>
    match levels with
    | 0 => Decoder.fail .nestedTooDeep
    | levels + 1 => do
      let count ← readCount tag (if dims = 0 then minWidth widths tag else 4)
      let items ← Decoder.times count (readSlotTexts d widths levels tag dims false)
      return (.array (items.map Prod.fst), items.flatMap Prod.snd)

/-- Without the texts, the fields of a record are what they are. -/
theorem each_field_bind {α : Type} (read : FieldEntry → Decoder (Value × List String))
    (fields : List FieldEntry) (g : List (String × Value) → Decoder α) :
    (Decoder.each fields (fun f ↦ do
        let part ← read f
        return ((f.name, part.1), part.2)) >>= fun parts ↦ g (parts.map Prod.fst)) =
      Decoder.each fields (fun f ↦ do return (f.name, ← Prod.fst <$> read f)) >>= g := by
  have hfield : (fun f : FieldEntry ↦ do return (f.name, ← Prod.fst <$> read f)) =
      fun f ↦ Prod.fst <$> (do
        let part ← read f
        return ((f.name, part.1), part.2)) := by
    funext f
    simp only [map_bind, map_pure, bind_map_left]
  rw [hfield, Decoder.each_map, bind_map_left]

/-- **Keeping the texts of dates does not change what is read**, by the recursion of the reader. -/
theorem map_fst_readSlotTexts (d : Dictionary) (widths : List (Tag × Nat)) (levels : Nat)
    (tag : Tag) (dims : Nat) (inRecord : Bool) :
    Prod.fst <$> readSlotTexts d widths levels tag dims inRecord =
      readSlot d widths levels tag dims inRecord := by
  induction levels generalizing tag dims inRecord with
  | zero =>
    cases dims with
    | zero =>
      rw [readSlotTexts, readSlot]
      cases Kind.ofTag? tag with
      | some k => exact Decoder.map_fst_primitiveTexts k inRecord
      | none =>
        simp only [map_bind]
        rfl
    | succ dims => rw [readSlotTexts, readSlot, Decoder.map_fail]
  | succ levels ih =>
    cases dims with
    | zero =>
      rw [readSlotTexts, readSlot]
      cases Kind.ofTag? tag with
      | some k => exact Decoder.map_fst_primitiveTexts k inRecord
      | none =>
        simp only [map_bind]
        refine bind_congr fun t ↦ ?_
        simp only [map_pure, ← ih]
        exact each_field_bind (fun f ↦ readSlotTexts d widths levels f.tag _ true) t.fields
          fun fields ↦ pure (Value.record t.name fields)
    | succ dims =>
      rw [readSlotTexts, readSlot]
      simp only [map_bind, map_pure, ← ih, Decoder.times_map, bind_map_left]

/-- Read the root and the texts of the dates in it. -/
def readRootTexts (d : Dictionary) (t : TypeEntry) : Decoder (Record × List String) := do
  let fields ← Decoder.each t.fields fun f ↦ do
    let part ← readSlotTexts d d.widths maxNesting f.tag f.dims.toNatClampNeg true
    return ((f.name, part.1), part.2)
  return (⟨t.name, fields.map Prod.fst⟩, fields.flatMap Prod.snd)

/-- Read an image and the texts of the dates in it. -/
def readContentTexts : Decoder (Content × List String) := do
  let found ← Decoder.int32
  if found ≠ magic then Decoder.fail (.badMagic found)
  else
    let d ← Dictionary.readHeader
    let rootTag ← Decoder.int32
    let t ← readType d rootTag
    let root ← readRootTexts d t
    return (⟨d, root.1⟩, root.2)

theorem map_fst_readRootTexts (d : Dictionary) (t : TypeEntry) :
    Prod.fst <$> readRootTexts d t = readRoot d t := by
  rw [readRootTexts, readRoot]
  simp only [map_bind, map_pure, ← map_fst_readSlotTexts]
  exact each_field_bind (fun f ↦ readSlotTexts d d.widths maxNesting f.tag _ true) t.fields
    fun fields ↦ pure (Record.mk t.name fields)

/-- **Without the texts**, this is the reader of images. -/
theorem map_fst_readContentTexts : Prod.fst <$> readContentTexts = readContent := by
  rw [readContentTexts, readContent]
  simp only [map_bind]
  refine bind_congr fun found ↦ ?_
  split
  · rw [Decoder.map_fail]
  · simp only [map_bind, map_pure, ← map_fst_readRootTexts, bind_map_left]

/-- The texts of the dates in an image. -/
def dateTexts (bs : List UInt8) : List String :=
  match readContentTexts (Cursor.ofBytes bs) with
  | .ok ((_, texts), _) => texts
  | .error _ => []

end Image

end GraphCodec
