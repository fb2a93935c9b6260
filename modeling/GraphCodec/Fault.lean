import GraphCodec.Instant.Rfc3339
import GraphCodec.Kind
import GraphCodec.Text.Utf8

/-!
# Faults

Everything that can go wrong, by its cause. A fault carries what the reader of a report needs to
know and `Fault.message` words it; no other part of the library composes error text. Faults fall
into those of a schema, those of the nesting of events, those of a value, those of stored bytes
and those of the file system; `Fault.blamesSchema` tells the ones that a different schema, or a
value that fits its schema, would avoid. One more, the overflow of a word, is not reported: it ends
the program.
-/

namespace GraphCodec

/-- The largest number of dimensions of an array. -/
def maxDimensions : Nat := 16

/-- The largest number of composite types in one dictionary. -/
def maxTypes : Nat := 65536

/-- The largest number of fields of one composite type in a dictionary. -/
def maxFields : Nat := 4096

/-- The deepest level of nesting of records and arrays that is read. -/
def maxNesting : Nat := 256

/-- The largest number of elements of an array whose elements take no bytes. Every other count is
bounded by the bytes that follow it; without this limit a few bytes could demand any number of
records. -/
def maxWeightless : Nat := 65536

/-- The number that begins every file image. -/
def magic : Int32 := 0x50535431

/-! ### Number spellings in messages -/

/-- A number in hexadecimal after `0x`, with leading zeros up to `width` digits. -/
def hexText (width n : Nat) : String :=
  let digits := Nat.toDigits 16 n
  String.ofList ('0' :: 'x' :: List.replicate (width - digits.length) '0' ++ digits)

/-! ### Causes -/

/-- What is wrong with a schema as such. -/
inductive SchemaFault where
  /-- The schema document cannot be read or does not describe a schema. -/
  | document (detail : String)
  | notUtf8 (fault : Utf8.Fault)
  | noRoot
  | unknownType (name : String)
  | duplicateType (name : String)
  | emptyTypeName
  | primitiveTypeName (name : String)
  | emptyFieldName (owner : String)
  | duplicateField (field owner : String)
  | tooManyDimensions (owner field : String) (dims : Nat)
  | notFunctionName (name : String)
  | notFieldName (name : String)
  | sameFunctions (first second ident : String)
  deriving DecidableEq, Repr

/-- What is wrong with stored bytes, or stands in the way of storing them. -/
inductive DataFault where
  | truncated (what : String)
  | negativeLength (length : Int32)
  | lengthBeyondInput (length remaining : Nat)
  | lengthBeyondWord (length : Nat)
  | notUtf8 (fault : Utf8.Fault)
  | invalidDate (text : String) (fault : Rfc3339.Fault)
  | tooManyTypes (count : Nat)
  | reservedTag (tag : Tag)
  | tooManyFields (owner : String) (count : Nat)
  | invalidDimensions (owner field : String) (dims : Int32)
  | unknownFieldTag (owner field : String) (tag : Tag)
  | duplicateType (name : String) (tag : Tag)
  | badMagic (found : Int32)
  | unknownTag (tag : Tag)
  | nestedTooDeep
  | tooManyWeightless (count : Nat) (tag : Tag)
  | invalidBoolean (byte : UInt8)
  | trailingBytes (count : Nat)
  | matHeaderTooShort
  | matVersion (version : UInt16)
  | matByteOrder
  | matFieldNameTooLong
  | matElementTooLarge (size : Nat)
  | matDimensionTooLarge (size : Nat)
  | fileTooLarge (size limit : Nat)
  | notRegularFile (path : String)
  | notDirectory (path : String)
  | noFileName
  | invalidJson (path detail : String)
  | digestMismatch (path expected actual : String)
  /-- A listener that was asked to stop did so. -/
  | stopped (event : Nat)
  deriving DecidableEq, Repr

/-- Why the file system refused. -/
inductive FileError where
  | notFound
  | alreadyExists
  | notDirectory
  | isDirectory
  | nameTooLong
  | nulInName
  | other (text : String)
  deriving DecidableEq, Repr

/-- What the file system was asked for when it refused. -/
inductive FileFault where
  | inputPath (path : String) (error : FileError)
  | outputDirectory (path : String) (error : FileError)
  | access (error : FileError)
  deriving DecidableEq, Repr

/-- A reason to stop. -/
inductive Fault where
  /-- A field names a type that is neither primitive nor known. -/
  | unsupportedType (field typeName : String)
  | unknownPrimitive (name : String)
  /-- A value has a type that the schema or the dictionary does not know. -/
  | unregisteredType (name : String)
  /-- A value has another type than its slot declares. -/
  | polymorphicValue (field declared actual : String)
  /-- A composite type contains itself. -/
  | recursiveType (name : String)
  /-- An empty row of characters could not be told from an empty numeric array. -/
  | ambiguousEmptyText (field : String)
  | typeMismatch (field expected found : String)
  | schema (cause : SchemaFault)
  /-- An end does not close what was opened last. -/
  | frameMismatch (expected found : String)
  | unbalanced (expected found : Nat)
  /-- A composite slot that has to hold a record is empty. -/
  | emptyComposite (field : String)
  | file (cause : FileFault)
  | data (cause : DataFault)
  /-- An addition has no result in its word. Nothing catches this fault: it ends the program. -/
  | overflow
  deriving DecidableEq, Repr

/-! ### Wording -/

/-- The text of a schema fault. -/
def SchemaFault.message : SchemaFault → String
  | .document detail => s!"TOML: {detail}"
  | .notUtf8 fault => s!"schema is not UTF-8: {fault.message}"
  | .noRoot => "no root type declared"
  | .unknownType name => s!"unknown composite type '{name}'"
  | .duplicateType name => s!"duplicate type '{name}'"
  | .emptyTypeName => "empty type name"
  | .primitiveTypeName name => s!"type name '{name}' collides with a primitive kind"
  | .emptyFieldName owner => s!"empty field name in '{owner}'"
  | .duplicateField field owner => s!"duplicate field '{field}' in '{owner}'"
  | .tooManyDimensions owner field dims =>
    s!"field '{owner}.{field}' has {dims} dimensions (maximum {maxDimensions})"
  | .notFunctionName name => s!"type name '{name}' does not give a valid MATLAB function name"
  | .notFieldName name => s!"field name '{name}' is not a valid MATLAB identifier"
  | .sameFunctions first second ident =>
    s!"types '{first}' and '{second}' both generate '{ident}' functions"

/-- The text of a data fault. -/
def DataFault.message : DataFault → String
  | .truncated what => s!"truncated input reading {what}"
  | .negativeLength length => s!"negative length {length.toInt}"
  | .lengthBeyondInput length remaining => s!"length {length} exceeds remaining {remaining} bytes"
  | .lengthBeyondWord length => s!"length {length} exceeds int32"
  | .notUtf8 fault => s!"invalid UTF-8 string: {fault.message}"
  | .invalidDate text fault => s!"invalid date '{text}': {fault.message}"
  | .tooManyTypes count => s!"dictionary lists {count} types (maximum {maxTypes})"
  | .reservedTag tag => s!"composite type uses reserved tag {tag.toInt}"
  | .tooManyFields owner count => s!"type '{owner}' lists {count} fields (maximum {maxFields})"
  | .invalidDimensions owner field dims =>
    s!"field '{owner}.{field}' has invalid dimensionality {dims.toInt}"
  | .unknownFieldTag owner field tag =>
    s!"field '{owner}.{field}' references unknown tag {tag.toInt}"
  | .duplicateType name tag => s!"duplicate type '{name}' (tag {tag.toInt})"
  | .badMagic found =>
    let text (v : Int32) : String := hexText 8 v.toUInt32.toNat
    s!"bad magic number {text found} (expected {text magic})"
  | .unknownTag tag => s!"unknown composite tag {tag.toInt}"
  | .nestedTooDeep => s!"nesting deeper than {maxNesting} levels"
  | .tooManyWeightless count tag =>
    s!"{count} elements of zero-width type {tag.toInt} exceeds limit of {maxWeightless}"
  | .invalidBoolean byte => s!"invalid boolean byte {byte.toNat}"
  | .trailingBytes count => s!"{count} trailing bytes after object graph"
  | .matHeaderTooShort => "MAT header too short"
  | .matVersion version =>
    s!"Unsupported MAT version: {hexText 4 version.toNat} (expected {hexText 4 0x0100})"
  | .matByteOrder => "MAT file written with foreign byte order"
  | .matFieldNameTooLong => "field name longer than 63 characters"
  | .matElementTooLarge size => s!"MAT element of {size} bytes too large"
  | .matDimensionTooLarge size => s!"dimension {size} too large"
  | .fileTooLarge size limit => s!"File size {size} bytes exceeds maximum allowed {limit} bytes"
  | .notRegularFile path => s!"Path '{path}' is not a regular file"
  | .notDirectory path => s!"Output directory '{path}' is not a valid directory"
  | .noFileName => "Output path has no filename"
  | .invalidJson path detail => s!"Invalid JSON in '{path}': {detail}"
  | .digestMismatch path expected actual =>
    s!"digest mismatch for '{path}': expected {expected}, got {actual}"
  | .stopped event => s!"stopped at event {event}"

/-- The text of a refusal of the file system. -/
def FileError.message : FileError → String
  | .notFound => "No such file or directory (os error 2)"
  | .alreadyExists => "File exists (os error 17)"
  | .notDirectory => "Not a directory (os error 20)"
  | .isDirectory => "Is a directory (os error 21)"
  | .nameTooLong => "File name too long (os error 36)"
  | .nulInName => "file name contained an unexpected NUL byte"
  | .other text => text

/-- The text of a file fault. -/
def FileFault.message : FileFault → String
  | .inputPath path error => s!"Invalid file path '{path}': {error.message}"
  | .outputDirectory path error => s!"Invalid output directory '{path}': {error.message}"
  | .access error => error.message

namespace Fault

/-- The text of a fault. -/
def message : Fault → String
  | unsupportedType field typeName => s!"Unsupported type '{typeName}' for field '{field}'"
  | unknownPrimitive name => s!"Unknown primitive: {name}"
  | unregisteredType name => s!"Type '{name}' is not in the dictionary"
  | polymorphicValue field declared actual =>
    s!"Field '{field}' declared as '{declared}' holds a '{actual}' (no polymorphism)"
  | recursiveType name => s!"Recursive type: {name}"
  | ambiguousEmptyText field =>
    s!"Field '{field}': multi-dimensional char arrays are ambiguous when empty"
  | typeMismatch field expected found => s!"Field '{field}' expects {expected}, found {found}"
  | schema cause => s!"Invalid schema: {cause.message}"
  | frameMismatch expected found =>
    s!"Field name mismatch, expected: {expected}, but was: {found}"
  | unbalanced expected found =>
    s!"Expected stack size to be {expected}, but it's actually: {found}"
  | emptyComposite field => s!"Field '{field}' is a non-array composite but its value is empty"
  | file cause => s!"IO error: {cause.message}"
  | data cause => s!"Serialization error: {cause.message}"
  | overflow => "attempt to add with overflow"

/-- Whether a fault is due to the schema or to a value that does not fit it, and not to stored
bytes, to files or to the nesting of events. -/
def blamesSchema : Fault → Bool
  | unsupportedType .. | unknownPrimitive _ | unregisteredType _ | polymorphicValue ..
  | recursiveType _ | ambiguousEmptyText _ | typeMismatch .. | schema _ => true
  | frameMismatch .. | unbalanced .. | emptyComposite _ | file _ | data _
  | overflow => false

end Fault

end GraphCodec
