/-!
# Paths

A path is a text whose parts stand between slashes. Empty parts and dots say nothing, except for a
dot at the beginning, and are left out at the end of a path; everything else is kept as it was
given, since paths are shown to the user.
-/

namespace GraphCodec

/-- A path, divided at its slashes. -/
structure Path where
  /-- Whether the path begins with a slash, which is not a part. -/
  absolute : Bool
  parts : List String
  deriving DecidableEq, Repr

namespace Path

/-- The runs of characters between slashes; `run` are those since the last one, in reverse. -/
def splitFrom (run : List Char) : List Char → List String
  | [] => [String.ofList run.reverse]
  | c :: cs =>
    if c = '/' then String.ofList run.reverse :: splitFrom [] cs else splitFrom (c :: run) cs

/-- The path with a given text. -/
def ofText (text : String) : Path :=
  match text.toList with
  | '/' :: cs => ⟨true, splitFrom [] cs⟩
  | cs => ⟨false, splitFrom [] cs⟩

/-- The text of a path. -/
def text (p : Path) : String :=
  (if p.absolute then "/" else "") ++ "/".intercalate p.parts

/-- Whether a part says nothing, unless it is a dot at the beginning. -/
def isIdle (part : String) : Bool :=
  part == "" || part == "."

/-- From parts in reverse, those before idle ones at the end. The first part of a relative path
stays. -/
def trimParts (absolute : Bool) : List String → List String
  | [] => []
  | [part] => if absolute && isIdle part then [] else [part]
  | part :: next :: parts =>
    if isIdle part then trimParts absolute (next :: parts) else part :: next :: parts

theorem length_trimParts_le (absolute : Bool) (parts : List String) :
    (trimParts absolute parts).length ≤ parts.length := by
  fun_induction trimParts absolute parts with
  | case1 => simp
  | case2 => simp
  | case3 => simp
  | case4 _ _ _ _ ih =>
    simp only [List.length_cons] at ih ⊢
    omega
  | case5 => simp

/-- A path without idle parts at its end. -/
def trim (p : Path) : Path :=
  { p with parts := (trimParts p.absolute p.parts.reverse).reverse }

/-- The last part that says something. -/
def last? (p : Path) : Option String :=
  match p.trim.parts.getLast? with
  | some "" => none
  | part => part

/-- The name of the file that a path leads to. -/
def fileName? (p : Path) : Option String :=
  match p.last? with
  | some "." | some ".." => none
  | name => name

/-- The path without its last part. -/
def parent? (p : Path) : Option Path :=
  match p.last? with
  | none => none
  | some _ => some (trim ⟨p.absolute, p.trim.parts.dropLast⟩)

theorem length_parts_trim_le (p : Path) : p.trim.parts.length ≤ p.parts.length := by
  have := length_trimParts_le p.absolute p.parts.reverse
  simpa [trim] using this

/-- The parent of a path has fewer parts. -/
theorem length_parts_lt_of_parent?_eq_some {p q : Path} (h : p.parent? = some q) :
    q.parts.length < p.parts.length := by
  unfold parent? at h
  split at h
  · cases h
  · rename_i part hlast
    cases h
    have h₁ := length_parts_trim_le ⟨p.absolute, p.trim.parts.dropLast⟩
    have h₂ := length_parts_trim_le p
    have h₃ : p.trim.parts ≠ [] := by
      intro hnil
      simp [last?, hnil] at hlast
    have h₄ := List.length_pos_iff.2 h₃
    simp only [List.length_dropLast] at h₁
    omega

/-- The paths above a path, the nearest first. -/
def ancestors (p : Path) : List Path :=
  match _h : p.parent? with
  | none => []
  | some q => q :: ancestors q
  termination_by p.parts.length
  decreasing_by exact length_parts_lt_of_parent?_eq_some _h

/-- The path of a file in a directory, both as texts. -/
def join (directory name : String) : String :=
  if directory = "" ∨ directory.toList.getLast? = some '/' then directory ++ name
  else directory ++ "/" ++ name

end Path

end GraphCodec
