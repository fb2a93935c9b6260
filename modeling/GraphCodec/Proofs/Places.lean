import GraphCodec.Host.FileSystem
import GraphCodec.Proofs.Decoding

/-!
# What changes in a file system

A place *shows* what stands there without what is inside: a file with its contents, a directory, or
a device (`FileSystem.shown?`). Two file systems are compared place by place. Writing a file and
creating a directory change what one place shows and no other (`FileSystem.ChangesAt`): a path is
followed to a place that exists, and nothing is inside what is put there or was there before.
-/

namespace GraphCodec

/-- What a place shows. -/
inductive Shown where
  | file (contents : Contents)
  | directory
  | device
  deriving DecidableEq

namespace FileNode

/-- What a node shows. -/
def shown : FileNode → Shown
  | file c => .file c
  | directory _ => .directory
  | device => .device

/-- What stands at a place below a node. -/
def below? : Place → FileNode → Option FileNode
  | [], n => some n
  | name :: place, directory entries => (entries.lookup name).bind (below? place)
  | _ :: _, _ => none

/-- Whether nothing is inside a node. -/
def Bare (n : FileNode) : Prop :=
  ∀ name place, n.below? (name :: place) = none

theorem bare_file (c : Contents) : (file c).Bare :=
  fun _ _ ↦ rfl

theorem bare_directory : (directory []).Bare :=
  fun _ _ ↦ rfl

/-- A way down is one part of it after the other. -/
theorem below?_append (place place' : Place) (n : FileNode) :
    n.below? (place ++ place') = (n.below? place).bind (below? place') := by
  induction place generalizing n with
  | nil => rfl
  | cons name place ih =>
    cases n with
    | directory entries =>
      show (entries.lookup name).bind (below? (place ++ place')) =
        ((entries.lookup name).bind (below? place)).bind (below? place')
      cases entries.lookup name with
      | none => rfl
      | some inner => exact ih inner
    | file c => rfl
    | device => rfl

/-! ### Putting -/

theorem lookup_cons_eq (other name : String) (n : FileNode) (entries : List (String × FileNode)) :
    List.lookup other ((name, n) :: entries) =
      if other = name then some n else entries.lookup other := by
  rw [List.lookup_cons]
  by_cases h : other = name
  · rw [beq_iff_eq.2 h, if_pos h]
  · rw [beq_eq_false_iff_ne.2 h, if_neg h]

/-- A new entry is found under its name, and the others as before. -/
theorem lookup_setEntry (name : String) (n : FileNode) (entries : List (String × FileNode))
    (other : String) :
    (setEntry name n entries).lookup other =
      if other = name then some n else entries.lookup other := by
  induction entries with
  | nil =>
    rw [setEntry, lookup_cons_eq]
  | cons e entries ih =>
    obtain ⟨key, inner⟩ := e
    rw [setEntry]
    by_cases hkey : key = name
    · rw [if_pos hkey, lookup_cons_eq, lookup_cons_eq, hkey]
      split_ifs <;> rfl
    · rw [if_neg hkey, lookup_cons_eq, lookup_cons_eq, ih]
      split_ifs with h h' h'
      · exact absurd (h.symm.trans h') hkey
      · rfl
      · rfl
      · rfl

/-- Whether something can be put at a place: what is around it is a directory, and nothing is
inside what stands there. -/
structure Room (entries : List (String × FileNode)) (around : Place) (name : String) : Prop where
  directory : ∃ inner, (directory entries).below? around = some (directory inner)
  bare : ∀ n, (FileNode.directory entries).below? (around ++ [name]) = some n → n.Bare

/-- There is room at the end of a way if there is room at the end of the rest of it. -/
theorem Room.inner {entries inner : List (String × FileNode)} {first name : String}
    {around : Place} (h : Room entries (first :: around) name)
    (hfirst : entries.lookup first = some (.directory inner)) : Room inner around name := by
  obtain ⟨hdirectory, hbare⟩ := h
  simp only [below?, List.cons_append, hfirst, Option.bind_some] at hdirectory hbare
  exact ⟨hdirectory, hbare⟩

/-- On the way to a place with room there are directories. -/
theorem Room.exists_lookup {entries : List (String × FileNode)} {first name : String}
    {around : Place} (h : Room entries (first :: around) name) :
    ∃ inner, entries.lookup first = some (.directory inner) := by
  obtain ⟨inner, hinner⟩ := h.directory
  obtain ⟨n, hfirst, hn⟩ := Option.bind_eq_some_iff.1 hinner
  cases n with
  | directory entries => exact ⟨entries, hfirst⟩
  | file c =>
    cases around with
    | nil => cases hn
    | cons => cases hn
  | device =>
    cases around with
    | nil => cases hn
    | cons => cases hn

/-- **Putting changes one place.** -/
theorem shown_put {n : FileNode} (hn : n.Bare) {name : String} {around : Place}
    {entries : List (String × FileNode)} (h : Room entries around name) (place : Place) :
    ((directory (put n (around ++ [name]) entries)).below? place).map shown =
      if place = around ++ [name] then some n.shown
      else ((directory entries).below? place).map shown := by
  induction around generalizing entries place with
  | nil =>
    cases place with
    | nil => rfl
    | cons first place =>
      show (((setEntry name n entries).lookup first).bind (below? place)).map shown = _
      rw [lookup_setEntry]
      by_cases hfirst : first = name
      · subst hfirst
        cases place with
        | nil =>
          rw [if_pos rfl, if_pos (by rfl)]
          rfl
        | cons next place =>
          -- nothing is inside what is put there, nor inside what was there
          have hnone : (FileNode.directory entries).below? (first :: next :: place) = none := by
            show (entries.lookup first).bind (below? (next :: place)) = none
            cases hold : entries.lookup first with
            | none => rfl
            | some old => exact h.bare old (by simp [below?, hold]) next place
          rw [if_pos rfl, if_neg (by simp), hnone]
          exact congrArg (Option.map shown) (hn next place)
      · rw [if_neg hfirst, if_neg (by simp [hfirst])]
        rfl
  | cons first around ih =>
    obtain ⟨inner, hfirst⟩ := h.exists_lookup
    have hput : put n (first :: around ++ [name]) entries =
        setEntry first (directory (put n (around ++ [name]) inner)) entries := by
      obtain ⟨next, rest, hcons⟩ : ∃ next rest, around ++ [name] = next :: rest :=
        List.exists_cons_of_ne_nil
          (List.append_ne_nil_of_right_ne_nil around (List.cons_ne_nil _ _))
      rw [List.cons_append, hcons, put, hfirst]
    rw [hput]
    cases place with
    | nil => rfl
    | cons other place =>
      show (((setEntry first _ entries).lookup other).bind (below? place)).map shown =
        if _ then _ else ((entries.lookup other).bind (below? place)).map shown
      rw [lookup_setEntry]
      by_cases hother : other = first
      · subst hother
        rw [if_pos rfl, hfirst]
        simp only [Option.bind_some, ih (h.inner hfirst), List.cons_append, List.cons.injEq,
          true_and]
      · rw [if_neg hother, if_neg (by simp [hother])]

end FileNode

namespace FileSystem

/-- What stands at a place. -/
def at? (fs : FileSystem) (place : Place) : Option FileNode :=
  (FileNode.directory fs.root).below? place

/-- What a place shows, if there is anything. -/
def shown? (fs : FileSystem) (place : Place) : Option Shown :=
  (fs.at? place).map FileNode.shown

/-- Whether two file systems show the same everywhere except for one place, and what the second
one shows there. -/
structure ChangesAt (fs fs' : FileSystem) (place : Place) (now : Shown) : Prop where
  here : fs'.shown? place = some now
  elsewhere : ∀ other, other ≠ place → fs'.shown? other = fs.shown? other

variable {fs fs' : FileSystem} {trail : Trail} {parts : List String}

/-! ### Following -/

/-- Whether a trail and all its beginnings pass what stands at their places. -/
def Passes (fs : FileSystem) (trail : Trail) : Prop :=
  ∀ way, way <:+ trail → fs.at? (placeOf way) = some (fs.nodeAt way)

theorem passes_nil (fs : FileSystem) : fs.Passes [] := by
  intro way hway
  rw [List.suffix_nil.1 hway]
  rfl

/-- What a trail ends at is what is at its place. -/
theorem Passes.here (h : fs.Passes trail) : fs.at? (placeOf trail) = some (fs.nodeAt trail) :=
  h trail (List.suffix_refl trail)

theorem Passes.tail (h : fs.Passes trail) : fs.Passes trail.tail :=
  fun way hway ↦ h way (hway.trans (List.tail_suffix trail))

/-- What is in a directory is one name further. -/
theorem at?_concat {around : Place} {entries : List (String × FileNode)}
    (h : fs.at? around = some (.directory entries)) (name : String) :
    fs.at? (around ++ [name]) = entries.lookup name := by
  rw [at?, FileNode.below?_append, ← at?, h]
  show (entries.lookup name).bind (FileNode.below? []) = _
  cases entries.lookup name <;> rfl

/-- A trail may go on to what is in the directory that it has come to. -/
theorem Passes.cons (h : fs.Passes trail) {entries : List (String × FileNode)}
    (hnode : fs.nodeAt trail = .directory entries) {name : String} {n : FileNode}
    (hname : entries.lookup name = some n) : fs.Passes ((name, n) :: trail) := by
  intro way hway
  rcases List.suffix_cons_iff.1 hway with rfl | hway
  · have hplace : placeOf ((name, n) :: trail) = placeOf trail ++ [name] := by
      rw [placeOf, List.map_cons, List.reverse_cons]
      rfl
    rw [hplace, at?_concat (h.here.trans (congrArg some hnode)), hname]
    rfl
  · exact h way hway

/-- **Following a path** passes what stands on the way. -/
theorem passes_of_follow {trail' : Trail} (h : fs.Passes trail)
    (hfollow : fs.follow trail parts = .ok trail') : fs.Passes trail' := by
  induction parts generalizing trail with
  | nil =>
    cases hfollow
    exact h
  | cons part parts ih =>
    rw [follow] at hfollow
    split at hfollow
    · rename_i entries hnode
      split_ifs at hfollow
      · exact ih h hfollow
      · exact ih h.tail hfollow
      · split at hfollow
        · rename_i n hname
          exact ih (h.cons hnode hname) hfollow
        · cases hfollow
    · cases hfollow
    · cases hfollow

/-- Following a path leaves a trail of what is there, links or none. -/
theorem passes_of_followPath {absolute : Bool} (h : fs.followPath absolute parts = .ok trail) :
    fs.Passes trail := by
  unfold followPath at h
  split at h
  · exact passes_of_follow (passes_nil fs) h
  · obtain ⟨home, hhome, h⟩ := bind_eq_ok_iff.1 h
    exact passes_of_follow (passes_of_follow (passes_nil fs) hhome) h

/-! ### Entries -/

/-- The place of an entry. -/
def Entry.place (e : Entry) : Place :=
  e.directory ++ [e.name]

/-- An entry that a path names is in a directory, and it is told what stands there. -/
theorem of_entry? {absolute : Bool} {e : Entry} (h : fs.entry? absolute parts = .ok (some e)) :
    (∃ inner, fs.at? e.directory = some (.directory inner)) ∧ fs.at? e.place = e.node? := by
  unfold entry? at h
  obtain ⟨trail, htrail, h⟩ := bind_eq_ok_iff.1 h
  split at h
  · rename_i entries hnode
    have hdirectory : fs.at? (placeOf trail) = some (.directory entries) :=
      (passes_of_followPath htrail).here.trans (congrArg some hnode)
    simp only at h
    split_ifs at h
    · cases h
    · cases h
      exact ⟨⟨entries, hdirectory⟩, at?_concat hdirectory _⟩
  · cases h
  · cases h

/-- **Putting something at an entry** changes its place only. -/
theorem changesAt_insert {e : Entry}
    (hdirectory : ∃ inner, fs.at? e.directory = some (.directory inner))
    (hbare : ∀ n, fs.at? e.place = some n → n.Bare) {n : FileNode} (hn : n.Bare) :
    ChangesAt fs (fs.insert e n) e.place n.shown := by
  have hshown : ∀ place, (fs.insert e n).shown? place =
      if place = e.place then some n.shown else fs.shown? place :=
    fun place ↦ FileNode.shown_put hn ⟨hdirectory, hbare⟩ place
  refine ⟨?_, fun other hother ↦ ?_⟩
  · rw [hshown, if_pos rfl]
  · rw [hshown, if_neg hother]

/-- **Writing** makes or replaces one file, or goes to a device. -/
theorem of_write {path : String} {bs : List UInt8} (h : fs.write path bs = .ok fs') :
    fs' = fs ∨ ∃ place, (fs.shown? place = none ∨ ∃ c, fs.shown? place = some (.file c)) ∧
      ChangesAt fs fs' place (.file (.ofBytes bs)) := by
  unfold write at h
  obtain ⟨p, -, h⟩ := bind_eq_ok_iff.1 h
  obtain ⟨e?, he, h⟩ := bind_eq_ok_iff.1 h
  cases e? with
  | none => cases h
  | some e =>
    obtain ⟨hdirectory, hnode⟩ := of_entry? he
    have hchange : (∀ n, e.node? = some n → n.Bare) → ChangesAt fs
        (fs.insert e (.file (.ofBytes bs))) e.place (.file (.ofBytes bs)) := fun hbare ↦
      changesAt_insert hdirectory (hnode ▸ hbare) (FileNode.bare_file _)
    simp only at h
    split at h
    · cases h
    · cases h
      -- a device takes everything and keeps nothing
      exact .inl rfl
    · rename_i c hc
      cases h
      -- a file is replaced as a whole
      refine .inr ⟨e.place, .inr ⟨c, ?_⟩, hchange fun n hn ↦ ?_⟩
      · rw [shown?, hnode, hc]
        rfl
      · obtain rfl : FileNode.file c = n := Option.some.inj (hc.symm.trans hn)
        exact FileNode.bare_file c
    · rename_i hnone
      cases h
      refine .inr ⟨e.place, .inl ?_, hchange fun n hn ↦ ?_⟩
      · rw [shown?, hnode, hnone]
        rfl
      · cases hnone.symm.trans hn

/-- **Creating a directory** makes one where there was nothing. -/
theorem of_createDirectory {path : String} (h : fs.createDirectory path = .ok fs') :
    ∃ place, fs.shown? place = none ∧ ChangesAt fs fs' place .directory := by
  unfold createDirectory at h
  obtain ⟨p, -, h⟩ := bind_eq_ok_iff.1 h
  obtain ⟨e?, he, h⟩ := bind_eq_ok_iff.1 h
  cases e? with
  | none => cases h
  | some e =>
    obtain ⟨hdirectory, hnode⟩ := of_entry? he
    simp only at h
    split at h
    · cases h
    · rename_i hnone
      cases h
      have hnone : e.node? = none := Option.not_isSome_iff_eq_none.1 hnone
      refine ⟨e.place, ?_, changesAt_insert hdirectory (fun n hn ↦ ?_) FileNode.bare_directory⟩
      · rw [shown?, hnode, hnone]
        rfl
      · cases (hnone.symm.trans hnode.symm).trans hn

end FileSystem

end GraphCodec
