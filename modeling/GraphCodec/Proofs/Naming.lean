import GraphCodec.Matlab.Wrapper
import GraphCodec.Proofs.Decoding

/-!
# Names of generated functions

The functions of a type are named for its simple name, and a generator remembers which type has
which. It refuses names that are not valid and names in use for another type. Whether some types can
be named is said of all of them at once (`Generator.HasNames`), and naming the first leaves the same
question for the others (`Generator.Named.hasNames_cons_iff`).
-/

namespace GraphCodec

namespace Matlab

theorem toList_fileName (verb ident : String) :
    (fileName verb ident).toList = verb.toList ++ ("_" ++ ident ++ ".m").toList := by
  simp [fileName]

namespace Generator

variable {g g' : Generator} {t : TypeDef} {ts : List TypeDef}

/-- Whether the functions of a type have their name from it. -/
def Owns (g : Generator) (t : TypeDef) : Prop :=
  g.idents.lookup t.simpleName = some t.name

/-- Whether there are names for the functions of types: their identifiers are valid, and no two of
them have the same, nor is one in use for another type. -/
structure HasNames (g : Generator) (ts : List TypeDef) : Prop where
  identifier : ∀ t ∈ ts, isIdentifier ("write_" ++ t.simpleName) = true
  free : ∀ t ∈ ts, ∀ owner, g.idents.lookup t.simpleName = some owner → owner = t.name
  distinct : ∀ t ∈ ts, ∀ u ∈ ts, t.simpleName = u.simpleName → t.name = u.name

theorem hasNames_nil (g : Generator) : g.HasNames [] :=
  ⟨fun _ h ↦ absurd h List.not_mem_nil, fun _ h ↦ absurd h List.not_mem_nil,
    fun _ h ↦ absurd h List.not_mem_nil⟩

/-- Only the names on record matter. -/
theorem hasNames_congr (hidents : g'.idents = g.idents) : g.HasNames ts ↔ g'.HasNames ts :=
  ⟨fun h ↦ ⟨h.identifier, hidents ▸ h.free, h.distinct⟩,
    fun h ↦ ⟨h.identifier, hidents ▸ h.free, h.distinct⟩⟩

/-- What a generator is when it has named a type, and what must have been so before. -/
structure Named (g : Generator) (t : TypeDef) (g' : Generator) : Prop where
  identifier : isIdentifier ("write_" ++ t.simpleName) = true
  free : ∀ owner, g.idents.lookup t.simpleName = some owner → owner = t.name
  owns : g'.Owns t
  others : ∀ ident ≠ t.simpleName, g'.idents.lookup ident = g.idents.lookup ident
  pending : g'.pending = g.pending
  files : g'.files = g.files

/-- The identifier of a type is its last name, and after it has been given the generator has it on
record. -/
theorem named_of_identFor {ident : String} (h : identFor t g = .ok ident g') :
    ident = t.simpleName ∧ g.Named t g' := by
  unfold identFor at h
  dsimp only at h
  split at h
  · cases h
  · rename_i hident
    have hvalid : isIdentifier ("write_" ++ t.simpleName) = true := by simpa using hident
    split at h
    · rename_i owner howner
      split at h
      · rename_i hsame
        cases h
        subst hsame
        exact ⟨rfl, hvalid, fun owner h ↦ Option.some.inj (h.symm.trans howner), howner,
          fun _ _ ↦ rfl, rfl, rfl⟩
      · cases h
    · rename_i hnone
      cases h
      refine ⟨rfl, hvalid, fun owner h ↦ ?_, List.lookup_cons_self, fun ident hne ↦ ?_, rfl, rfl⟩
      · rw [hnone] at h
        cases h
      · rw [List.lookup_cons, beq_false_of_ne hne]

/-- A type whose names have not been given to others is given its own. -/
theorem exists_identFor (h : g.HasNames (t :: ts)) :
    ∃ g', identFor t g = .ok t.simpleName g' := by
  have hident := h.identifier t List.mem_cons_self
  unfold identFor
  simp only [hident, Bool.not_true, Bool.false_eq_true, if_false]
  cases hlookup : g.idents.lookup t.simpleName with
  | some owner => exact ⟨g, if_pos (h.free t List.mem_cons_self owner hlookup)⟩
  | none => exact ⟨_, rfl⟩

/-- No type loses its name. -/
theorem Named.owns_of_owns (h : g.Named t g') {u : TypeDef} (hu : g.Owns u) : g'.Owns u := by
  by_cases hsame : u.simpleName = t.simpleName
  · have hname : u.name = t.name := h.free u.name (hsame ▸ hu)
    rw [Owns, hsame, hname]
    exact h.owns
  · exact (h.others _ hsame).trans hu

/-- **Naming the first of some types** decides nothing about the others. -/
theorem Named.hasNames_cons_iff (h : g.Named t g') : g.HasNames (t :: ts) ↔ g'.HasNames ts := by
  constructor
  · intro hnames
    obtain ⟨hident, hfree, hdistinct⟩ := hnames
    refine ⟨fun u hu ↦ hident u (List.mem_cons_of_mem t hu), fun u hu owner howner ↦ ?_,
      fun u hu v hv ↦ hdistinct u (List.mem_cons_of_mem t hu) v (List.mem_cons_of_mem t hv)⟩
    by_cases hsame : u.simpleName = t.simpleName
    · rw [hsame, h.owns] at howner
      rw [← Option.some.inj howner]
      exact hdistinct t List.mem_cons_self u (List.mem_cons_of_mem t hu) hsame.symm
    · rw [h.others _ hsame] at howner
      exact hfree u (List.mem_cons_of_mem t hu) owner howner
  · rintro ⟨hident, hfree, hdistinct⟩
    -- a type with the same identifier finds the name of `t` at its own
    have hsame : ∀ u ∈ ts, u.simpleName = t.simpleName → t.name = u.name := fun u hu heq ↦
      hfree u hu t.name (heq ▸ h.owns)
    refine ⟨List.forall_mem_cons.2 ⟨h.identifier, hident⟩,
      List.forall_mem_cons.2 ⟨h.free, fun u hu owner howner ↦ ?_⟩,
      List.forall_mem_cons.2 ⟨List.forall_mem_cons.2 ⟨fun _ ↦ rfl, fun u hu heq ↦ ?_⟩,
        fun u hu ↦ List.forall_mem_cons.2 ⟨fun heq ↦ ?_, hdistinct u hu⟩⟩⟩
    · by_cases heq : u.simpleName = t.simpleName
      · rw [heq] at howner
        rw [h.free owner howner]
        exact hsame u hu heq
      · exact hfree u hu owner ((h.others _ heq).trans howner)
    · exact hsame u hu heq.symm
    · exact (hsame u hu heq).symm

end Generator

variable {s : Schema} {root : TypeDef}

/-- What is generated for a root type. -/
theorem generate_eq_ok_iff {sources : List Source} : generate s root = .ok sources ↔
    ∃ g d rootTag ident g', Trace.run Generator.listener (s.walk root) Generator.start = .ok () g ∧
      g.pending = [] ∧ Dictionary.ofSchema s root = .ok d ∧ d.tagFor? root.name = some rootTag ∧
        Generator.identFor root g = .ok ident g' ∧
          sources = g'.files ++ [loadSource ident rootTag, saveSource ident rootTag d] := by
  unfold generate
  rw [bind_eq_ok_iff]
  constructor
  · rintro ⟨⟨u, g⟩, hrun, h⟩
    dsimp only at h
    split at h
    · cases h
    -- three checks, and their order does not matter here
    · rename_i hpending
      obtain ⟨d, hd, h⟩ := bind_eq_ok_iff.1 h
      split at h
      · cases h
      · rename_i rootTag htag
        split at h
        · cases h
        · rename_i ident g' hident
          cases h
          exact ⟨g, d, rootTag, ident, g', Trace.outcomeFrom_eq_ok_iff.1 hrun, not_not.1 hpending,
            hd, htag, hident, rfl⟩
  · rintro ⟨g, d, rootTag, ident, g', hrun, hpending, hd, htag, hident, rfl⟩
    refine ⟨((), g), Trace.outcomeFrom_eq_ok_iff.2 hrun, ?_⟩
    dsimp only
    rw [if_neg (not_not.2 hpending)]
    refine bind_eq_ok_iff.2 ⟨d, hd, ?_⟩
    rw [htag, hident]
    rfl

/-- The code of a type without fields whose name gives identifiers. -/
theorem generate_of_walk {d : Dictionary} {rootTag : Tag}
    (hwalk : s.walk root = ⟨[.beginType none root, .endType none], .ok ()⟩)
    (hname : isIdentifier ("write_" ++ root.simpleName) = true)
    (hd : Dictionary.ofSchema s root = .ok d) (htag : d.tagFor? root.name = some rootTag) :
    generate s root = .ok ((TypeCode.start root root.simpleName).sources ++
      [loadSource root.simpleName rootTag, saveSource root.simpleName rootTag d]) := by
  have hfirst : Generator.identFor root Generator.start =
      .ok root.simpleName ⟨[], [], [(root.simpleName, root.name)]⟩ := by
    unfold Generator.identFor
    simp only [hname, Bool.not_true, Bool.false_eq_true, if_false]
    rfl
  -- the identifier is known when the files of the root are named
  have hagain (files : List Source) :
      Generator.identFor root ⟨[], files, [(root.simpleName, root.name)]⟩ =
        .ok root.simpleName ⟨[], files, [(root.simpleName, root.name)]⟩ := by
    unfold Generator.identFor
    simp only [hname, List.lookup_cons_self, Bool.not_true, Bool.false_eq_true, if_false, if_true]
  have hbegin : Generator.listener (.beginType none root) Generator.start =
      .ok () ⟨[TypeCode.start root root.simpleName], [], [(root.simpleName, root.name)]⟩ :=
    Listener.bind_eq_ok_iff.2 ⟨_, _, hfirst, rfl⟩
  have hrun : Trace.run Generator.listener (s.walk root) Generator.start =
      .ok () ⟨[], (TypeCode.start root root.simpleName).sources,
        [(root.simpleName, root.name)]⟩ := by
    unfold Trace.run
    rw [hwalk, Trace.deliver]
    dsimp only
    rw [hbegin]
    rfl
  exact generate_eq_ok_iff.2 ⟨_, d, rootTag, _, _, hrun, rfl, hd, htag, hagain _, rfl⟩

end Matlab

end GraphCodec
