import GraphCodec.Proofs.FileSet

/-!
# The variables of generated code

The statements for a field keep what they work on in local variables of the field: for text a
length or bytes, for a scalar or a record its value, and for every dimension of an array the number
of its items, its value and an index. The name of such a variable is a stem for its role, and for
the level of its dimension, in front of the name of the field. What the function of a type assigns
besides its result are the variables of its fields in order (`assigned_typeFile`).

The generator checks the name of a function with the longest of the verbs in front, but the name of
a field without a stem. So all functions that are declared or called have identifiers for names,
whereas a variable has one exactly if the stem leaves room for the name of the field, as it does for
all names of up to 59 characters. Two variables agree in the characters that count exactly if they
are for one role and one level and the names of their fields agree in the characters that are left
(`names_of_generate`).
-/

namespace GraphCodec

open Dictionary.Draft (fieldEvent)

/-! ### Dimensions -/

/-- Every event of a walk that is heard to its end is taken in. -/
theorem Trace.exists_listen_of_deliver {ε σ : Type} {listen : Listener ε σ} {events : List ε}
    {s s' : σ} (h : deliver listen events s = .ok () s') :
    ∀ event ∈ events, ∃ s₁ s₂, listen event s₁ = .ok () s₂ := by
  induction events generalizing s with
  | nil => exact fun _ h ↦ absurd h List.not_mem_nil
  | cons event events ih =>
    obtain ⟨s₁, hevent, hrest⟩ := deliver_cons_eq_ok_iff.1 h
    exact List.forall_mem_cons.2 ⟨⟨s, s₁, hevent⟩, ih hrest⟩

/-- All fields that are walked are reported. -/
theorem Schema.Walks.exists_fieldEvent_mem {s : Schema} {fields : List FieldDef}
    {listed new : List TypeDef} {events : List SchemaEvent}
    (h : s.Walks fields listed events new) :
    ∀ f ∈ fields ++ new.flatMap TypeDef.fields, ∃ element, fieldEvent f element ∈ events := by
  -- what is reported is reported within more events too
  have hmono {events events' : List SchemaEvent} {fields : List FieldDef}
      (h : ∀ f ∈ fields, ∃ element, fieldEvent f element ∈ events) (hsubset : events ⊆ events') :
      ∀ f ∈ fields, ∃ element, fieldEvent f element ∈ events' := fun f hf ↦
    (h f hf).imp fun _ hmem ↦ hsubset hmem
  induction h with
  | nil => exact fun _ h ↦ absurd h List.not_mem_nil
  | primitive _ _ ih | again _ _ _ ih =>
    exact List.forall_mem_cons.2 ⟨⟨_, List.mem_cons_self⟩, hmono ih (List.subset_cons_self _ _)⟩
  | @first g fs _ below new inner events t _ _ _ _ ihfields ihrest =>
    have hinner : inner ⊆ typeEvents (some g.name) t inner := by simp [typeEvents]
    have hbelow := hmono ihfields <|
      List.subset_append_of_subset_left (fieldEvent g (.composite t) :: events) hinner
    have hrest := hmono ihrest <|
      List.subset_append_of_subset_right (typeEvents (some g.name) t inner)
        (List.subset_cons_self (fieldEvent g (.composite t)) events)
    simp only [List.cons_append, List.forall_mem_cons, List.flatMap_append, List.flatMap_cons,
      List.forall_mem_append] at hbelow hrest ⊢
    exact ⟨⟨_, List.mem_append_right _ List.mem_cons_self⟩, hrest.1, hbelow.2, hbelow.1, hrest.2⟩

namespace Dictionary

/-- A field that has been accepted is within the limit on dimensions. -/
theorem Draft.dims_le_of_step {f : FieldDef} {element : ElementType} {d d' : Draft}
    (h : step (fieldEvent f element) d = .ok d') : f.dims ≤ maxDimensions := by
  cases harray : f.isArray with
  | true =>
    cases element with
    | primitive k =>
      simp only [fieldEvent, harray, if_true, step, bind_eq_ok_iff, checkDims_eq_ok_iff] at h
      obtain ⟨_, ⟨hle, -⟩, -⟩ := h
      exact hle
    | composite t =>
      simp only [fieldEvent, harray, if_true, step, bind_eq_ok_iff, checkDims_eq_ok_iff] at h
      obtain ⟨_, -, _, ⟨hle, -⟩, -⟩ := h
      exact hle
  | false =>
    have hdims : f.dims = 0 := by simpa [FieldDef.isArray] using harray
    omega

/-- **No field has too many dimensions** in what a root with a dictionary reaches. -/
theorem dims_le_of_ofSchema {s : Schema} {root : TypeDef} {d : Dictionary} (hroot : root ∈ s.types)
    (hd : ofSchema s root = .ok d) {t : TypeDef} (ht : s.Reaches root t) {f : FieldDef}
    (hf : f ∈ t.fields) : f.dims ≤ maxDimensions := by
  obtain ⟨inner, below, hwalk, hwalks, hvisits, -⟩ := exists_walks_of_ofSchema hroot hd
  have hfield : f ∈ root.fields ++ below.flatMap TypeDef.fields := by
    have hlisted := hvisits.mem_iff_reaches.2 ht
    simp only [List.mem_append, List.mem_flatMap, List.mem_singleton] at hlisted ⊢
    grind
  obtain ⟨element, hmem⟩ := hwalks.exists_fieldEvent_mem f hfield
  obtain ⟨draft, hrun⟩ : ∃ draft, Trace.run Draft.listener (s.walk root) Draft.empty =
      .ok () draft := by
    unfold ofSchema at hd
    split at hd
    · cases hd
    · rename_i draft hrun
      exact ⟨draft, Trace.outcomeFrom_eq_ok_iff.1 hrun⟩
  rw [hwalk, Trace.run_eq_ok_iff] at hrun
  obtain ⟨d₁, d₂, hstep⟩ := Trace.exists_listen_of_deliver hrun (fieldEvent f element)
    (List.mem_cons_of_mem _ (List.mem_append_left _ hmem))
  exact Draft.dims_le_of_step (Draft.listener_eq_ok_iff.1 hstep)

end Dictionary

namespace Matlab

/-! ### Assigned variables -/

/-- The variable that an expression is, if it is one. -/
def Expr.name? : Expr → Option String
  | .name x => some x
  | _ => none

mutual

/-- The variables that a statement gives values, in the order of the text. -/
def Stmt.assigned : Stmt → List String
  | .comment _ | .blank | .run _ => []
  | .assign target _ | .assignIf _ target _ none => target.name?.toList
  | .assignIf _ target _ (some (target', _)) => target.name?.toList ++ target'.name?.toList
  | .when _ body | .function _ _ _ body => assigned body
  | .whenElse _ body otherwise => assigned body ++ assigned otherwise
  | .loop counter _ body => counter :: assigned body

/-- The variables that code gives values, in the order of the text. -/
def assigned : List Stmt → List String
  | [] => []
  | t :: ts => t.assigned ++ assigned ts

end

attribute [simp] Expr.name? Stmt.assigned assigned

/-- Assignments of code that is joined. -/
theorem assigned_append (as bs : List Stmt) : assigned (as ++ bs) = assigned as ++ assigned bs := by
  induction as with
  | nil => rfl
  | cons a as ih => rw [List.cons_append, assigned, assigned, ih, List.append_assoc]

/-! ### Roles -/

/-- What a variable of a field is for. Those of a dimension have its level. -/
inductive Role where
  | scalar
  /-- The length of a text that is read. -/
  | length
  /-- The bytes of a text that is written. -/
  | bytes
  /-- A record among the items of an array. -/
  | record
  | count (level : Nat)
  | dimension (level : Nat)
  | index (level : Nat)
  deriving DecidableEq, Repr

namespace Role

/-- The level of the dimension that a variable belongs to, 0 for none. -/
def level : Role → Nat
  | .scalar | .length | .bytes | .record => 0
  | .count k | .dimension k | .index k => k

/-- What stands in front of the name of the field. -/
def stem : Role → String
  | .scalar => "v_"
  | .length => "len_"
  | .bytes => "b_"
  | .record => "e_"
  | .count k => "n" ++ toString k ++ "_"
  | .dimension k => "v" ++ toString k ++ "_"
  | .index k => "i" ++ toString k ++ "_"

/-- The variable of a field for a role. -/
def variableOf (field : String) (r : Role) : String :=
  r.stem ++ field

end Role

open Role (variableOf)

/-- The roles of the variables for the items of the innermost dimension. -/
def Element.itemRoles (level : Nat) : Side → Element → List Role
  | .reading, .numeric .. => [.dimension level]
  | .reading, .text => [.dimension level, .index level, .length]
  | .reading, .composite _ => [.index level, .record, .dimension level]
  | .writing, .numeric .. => []
  | .writing, .text => [.index level, .bytes]
  | .writing, .composite _ => [.index level]

/-- The roles of the variables for a dimension at `level` with `inner` dimensions inside it. The text
that reads it has two assignments of its value, one for the case that there are no items. -/
def Element.levelRoles (element : Element) : Side → (inner level : Nat) → List Role
  | .reading, 0, level => .count level :: .dimension level :: element.itemRoles level .reading
  | .reading, inner + 1, level =>
    .count level :: .dimension level :: .dimension level :: .index level ::
      element.levelRoles .reading inner (level + 1)
  | .writing, 0, level => element.itemRoles level .writing
  | .writing, inner + 1, level =>
    .index level :: .dimension (level + 1) :: element.levelRoles .writing inner (level + 1)

/-- The roles of the variables for a scalar. -/
def scalarRoles (preserve : Bool) : Side → Kind → List Role
  | .reading, k =>
    if k.isTextual then [.length]
    else if k == .boolean && preserve then [.scalar, .scalar, .scalar]
    else [.scalar, .scalar]
  | .writing, k => if k.isTextual then [.bytes] else [.scalar, .scalar]

/-- The roles of the variables for a field, in the order in which they get values. -/
def fieldRoles (side : Side) (f : FieldDef) (element : ElementType) : List Role :=
  if f.isArray then
    match side with
    | .reading => (fieldItems f element).levelRoles .reading (f.dims - 1) 1
    | .writing => .dimension 1 :: (fieldItems f element).levelRoles .writing (f.dims - 1) 1
  else
    match element with
    | .primitive k => scalarRoles f.preserve side k
    | .composite _ => []

/-! ### The variables of a field -/

section

variable (field : String) (element : Element)

/-- Reading items assigns to variables of their roles. -/
theorem assigned_readItems (level : Nat) : assigned (readItems field element level) =
    (element.itemRoles level .reading).map (variableOf field) := by
  match element with
  | .numeric k preserve => cases k <;> rfl
  | .text => rfl
  | .composite ident => rfl

/-- So does writing them. -/
theorem assigned_writeItems (level : Nat) : assigned (writeItems field element level) =
    (element.itemRoles level .writing).map (variableOf field) := by
  match element with
  | .numeric k preserve => rfl
  | .text => rfl
  | .composite ident => rfl

/-- The slot of an inner array is no variable. -/
theorem name?_innerSlot (v index : Expr) : (innerSlot element v index).name? = none := by
  cases element <;> rfl

/-- **Reading a level** assigns to its variables and to those of the levels in it. -/
theorem assigned_readLevel (inner level : Nat) : assigned (readLevel field element inner level) =
    (element.levelRoles .reading inner level).map (variableOf field) := by
  induction inner generalizing level with
  | zero =>
    rw [readLevel]
    simp only [assigned, Stmt.assigned, assigned_readItems, List.append_nil]
    rfl
  | succ inner ih =>
    rw [readLevel]
    simp only [assigned, Stmt.assigned, levelLoop, assigned_append, ih, name?_innerSlot]
    simp only [Option.toList_none, List.append_nil]
    rfl

/-- So does writing it. -/
theorem assigned_writeLevel (inner level : Nat) :
    assigned (writeLevel field element inner level) =
      (element.levelRoles .writing inner level).map (variableOf field) := by
  induction inner generalizing level with
  | zero =>
    rw [writeLevel]
    exact assigned_writeItems field element level
  | succ inner ih =>
    rw [writeLevel]
    simp only [fwrite, assigned, Stmt.assigned, levelLoop, ih, List.append_nil]
    rfl

end

/-- **The variables of a field** that is read. -/
theorem assigned_fieldReads (f : FieldDef) (element : ElementType) :
    assigned (fieldReads f element) =
      (fieldRoles .reading f element).map (variableOf f.name) := by
  unfold fieldReads fieldRoles
  split
  · rw [readArray, assigned_append, assigned_readLevel]
    exact List.append_nil _
  · cases element with
    | primitive k => cases k <;> cases f.preserve <;> rfl
    | composite t => rfl

/-- **The variables of a field** that is written. -/
theorem assigned_fieldWrites (owner : String) (f : FieldDef) (element : ElementType) :
    assigned (fieldWrites owner f element) =
      (fieldRoles .writing f element).map (variableOf f.name) := by
  unfold fieldWrites fieldRoles
  split
  · rw [writeArray, assigned, assigned_writeLevel]
    rfl
  · cases element with
    | primitive k => cases k <;> rfl
    | composite t => rfl

/-- **The code of a field** assigns to variables of its roles, with the name of the field in all of
them. -/
theorem assigned_fieldCode (side : Side) (owner : String) (f : FieldDef) (element : ElementType) :
    assigned (fieldCode side owner f element) =
      (fieldRoles side f element).map (variableOf f.name) := by
  cases side with
  | reading => exact assigned_fieldReads f element
  | writing => exact assigned_fieldWrites owner f element

/-! ### The variables of a type -/

/-- The roles of the variables for a field of a known type. -/
def roles (s : Schema) (side : Side) (f : FieldDef) : List Role :=
  (s.element? f).elim [] (fieldRoles side f)

/-- The variables that the function of a type assigns for its fields. -/
def fieldVariables (s : Schema) (side : Side) (t : TypeDef) : List String :=
  t.fields.flatMap fun f ↦ (roles s side f).map (variableOf f.name)

/-- The variable for what a function of a side has made. -/
def Side.results : Side → List String
  | .reading => ["s"]
  | .writing => []

/-- **The variables of a type.** Its functions assign the variables of its fields, in the order of
the fields, and the result if there is one. -/
theorem assigned_typeFile (s : Schema) (side : Side) (t : TypeDef) :
    assigned (typeFile s side t).code = side.results ++ fieldVariables s side t := by
  have hbody : assigned (typeFile s side t).code = assigned ((TypeCode.ofType s t).body side) := by
    cases side <;> exact List.append_nil _
  have hresults : assigned ((TypeCode.start t t.simpleName).body side) = side.results := by
    cases side <;> rfl
  have hroles (f : FieldDef) : ((s.element? f).elim [] fun element ↦
      (fieldRoles side f element).map (variableOf f.name)) =
        (roles s side f).map (variableOf f.name) := by
    rw [roles]
    cases s.element? f <;> rfl
  rw [hbody, TypeCode.ofType, TypeCode.gather_body_withFields assigned_append fun _ ↦ rfl, hresults]
  simp only [assigned_fieldCode, hroles]
  rfl

/-! ### Levels -/

section

variable {s : Schema} {side : Side} {element : Element} {f : FieldDef} {r : Role}

/-- Items are at the innermost level. -/
theorem level_le_of_mem_itemRoles {level : Nat} (hr : r ∈ element.itemRoles level side) :
    r.level ≤ level := by
  cases side <;> cases element <;> simp [Element.itemRoles] at hr <;>
    rcases hr with rfl | rfl | rfl <;> simp [Role.level]

/-- Levels are counted up from the first. -/
theorem level_le_of_mem_levelRoles {inner level : Nat}
    (hr : r ∈ element.levelRoles side inner level) : r.level ≤ level + inner := by
  induction inner generalizing level with
  | zero =>
    cases side with
    | reading =>
      simp only [Element.levelRoles, List.mem_cons] at hr
      obtain rfl | rfl | hitem := hr
      · exact Nat.le_refl _
      · exact Nat.le_refl _
      · exact level_le_of_mem_itemRoles hitem
    | writing => exact level_le_of_mem_itemRoles hr
  | succ inner ih =>
    have hinner (h : r ∈ element.levelRoles side inner (level + 1)) :
        r.level ≤ level + (inner + 1) := by
      have hle := ih h
      omega
    cases side <;> simp only [Element.levelRoles, List.mem_cons] at hr
    · obtain rfl | rfl | rfl | rfl | hr := hr
      all_goals first | exact hinner hr | (simp only [Role.level]; omega)
    · obtain rfl | rfl | hr := hr
      all_goals first | exact hinner hr | (simp only [Role.level]; omega)

/-- So no level is greater than the number of dimensions. -/
theorem level_le_of_mem_fieldRoles {e : ElementType} (hr : r ∈ fieldRoles side f e) :
    r.level ≤ f.dims := by
  unfold fieldRoles at hr
  split at hr
  · rename_i harray
    have hdims : 0 < f.dims := by simpa [FieldDef.isArray] using harray
    have hlevels (h : r ∈ (fieldItems f e).levelRoles side (f.dims - 1) 1) : r.level ≤ f.dims := by
      have hle := level_le_of_mem_levelRoles h
      omega
    cases side with
    | reading => exact hlevels hr
    | writing =>
      obtain rfl | hr := List.mem_cons.1 hr
      · exact hdims
      · exact hlevels hr
  · have hscalar (k : Kind) : ∀ r ∈ scalarRoles f.preserve side k, r.level = 0 := by
      unfold scalarRoles
      cases side <;> grind [Role.level]
    cases e with
    | primitive k => exact (hscalar k r hr).trans_le (Nat.zero_le _)
    | composite t => cases hr

/-- The levels are those of the dimensions. -/
theorem level_le_of_mem_roles (hr : r ∈ roles s side f) : r.level ≤ f.dims := by
  rw [roles] at hr
  cases helement : s.element? f with
  | none =>
    rw [helement] at hr
    cases hr
  | some e =>
    rw [helement] at hr
    exact level_le_of_mem_fieldRoles hr

/-! ### Names -/

namespace Role

/-- A stem without its underscore. -/
def label : Role → List Char
  | .scalar => ['v']
  | .length => ['l', 'e', 'n']
  | .bytes => ['b']
  | .record => ['e']
  | .count k => 'n' :: Nat.toDigits 10 k
  | .dimension k => 'v' :: Nat.toDigits 10 k
  | .index k => 'i' :: Nat.toDigits 10 k

theorem toList_stem (r : Role) : r.stem.toList = r.label ++ ['_'] := by
  cases r <;> simp [stem, label, Nat.toString_eq_repr]

theorem toList_variableOf (r : Role) (field : String) :
    (variableOf field r).toList = r.label ++ '_' :: field.toList := by
  rw [variableOf, String.toList_append, toList_stem, List.append_assoc, List.singleton_append]

/-- The label says what the role and its level are. -/
theorem label_inj {r r' : Role} (h : r.label = r'.label) : r = r' := by
  have hdigits {k k' : Nat} (h : Nat.toDigits 10 k = Nat.toDigits 10 k') : k = k' := by
    rw [← Nat.toList_repr, ← Nat.toList_repr, String.toList_inj] at h
    exact Nat.repr_inj.1 h
  cases r <;> cases r' <;> simp_all [label, Nat.toDigits_ne_nil]
  all_goals exact hdigits h

/-- A label begins with a letter and goes on with letters or digits. -/
theorem spells_label (r : Role) : (∃ c ∈ r.label.head?, c.isAlpha = true) ∧
    ∀ c ∈ r.label, c.isAlphanum = true := by
  have hdigits {k : Nat} : ∀ c ∈ Nat.toDigits 10 k, c.isAlphanum = true := fun c hc ↦ by
    have hdigit : c.isDigit = true := Nat.isDigit_of_mem_toDigits (by decide) (by decide) hc
    rw [Char.isAlphanum, hdigit, Bool.or_true]
  cases r with
  | scalar | length | bytes | record =>
    exact ⟨⟨_, rfl, by decide⟩, fun c hc ↦ List.all_eq_true.1 (by decide) c hc⟩
  | count k | dimension k | index k =>
    exact ⟨⟨_, rfl, by decide⟩, List.forall_mem_cons.2 ⟨by decide, hdigits⟩⟩

/-- Up to 99 levels have stems of no more than four characters. -/
theorem length_stem_le {r : Role} (h : r.level < 100) : r.stem.length ≤ 4 := by
  have hdigits {k : Nat} (hk : k < 100) : (Nat.toDigits 10 k).length ≤ 2 :=
    (Nat.length_toDigits_le_iff (by decide) (by decide)).2 hk
  have hlabel : r.label.length ≤ 3 := by
    cases r with
    | scalar | length | bytes | record => decide
    | count k | dimension k | index k => exact Nat.succ_le_succ (hdigits h)
  rw [← String.length_toList, toList_stem, List.length_append]
  exact Nat.succ_le_succ hlabel

/-- Nothing is wrong with the characters of a variable. -/
theorem spells_variableOf {field : String} (r : Role) (hfield : ∀ c ∈ field.toList, IsWordPart c) :
    (∃ c ∈ (variableOf field r).toList.head?, c.isAlpha = true) ∧
      ∀ c ∈ (variableOf field r).toList, IsWordPart c := by
  obtain ⟨⟨c, hc, hfirst⟩, hlabel⟩ := r.spells_label
  rw [toList_variableOf, List.head?_append, hc, Option.some_or, List.forall_mem_append,
    List.forall_mem_cons]
  exact ⟨⟨c, rfl, hfirst⟩, fun c hc ↦ .inl (hlabel c hc), .inr rfl, hfield⟩

/-- **When a variable is an identifier.** -/
theorem isIdentifier_variableOf_iff {field : String} {r : Role}
    (hfield : ∀ c ∈ field.toList, IsWordPart c) :
    isIdentifier (variableOf field r) = true ↔ r.stem.length + field.length ≤ maxIdentifier := by
  obtain ⟨hfirst, hparts⟩ := spells_variableOf r hfield
  rw [isIdentifier_iff, variableOf, String.length_append]
  exact ⟨fun h ↦ h.2.2, fun h ↦ ⟨hfirst, hparts, h⟩⟩

/-- **When two variables agree** in some first characters that have room for their stems. -/
theorem take_variableOf_eq_iff {field field' : String} {r r' : Role} {n : Nat}
    (hr : r.stem.length ≤ n) (hr' : r'.stem.length ≤ n) :
    (variableOf field r).toList.take n = (variableOf field' r').toList.take n ↔
      r = r' ∧ field.toList.take (n - r.stem.length) = field'.toList.take (n - r.stem.length) := by
  have htake {field : String} {r : Role} (hr : r.stem.length ≤ n) :
      (variableOf field r).toList.take n =
        r.label ++ '_' :: field.toList.take (n - r.stem.length) := by
    rw [variableOf, String.toList_append, List.take_append, String.length_toList,
      List.take_of_length_le (by rwa [String.length_toList]), toList_stem, List.append_assoc,
      List.singleton_append]
  -- the label is what comes before the first underscore
  have hlabel (r : Role) (rest : List Char) :
      (r.label ++ '_' :: rest).takeWhile (· ≠ '_') = r.label := by
    have hother : ∀ c ∈ r.label, decide (c ≠ '_') = true := by
      rintro c hc
      rw [decide_eq_true_eq]
      rintro rfl
      exact absurd (r.spells_label.2 '_' hc) (by decide)
    rw [List.takeWhile_append_of_pos hother]
    exact List.append_nil _
  rw [htake hr, htake hr']
  constructor
  · intro h
    obtain rfl : r = r' := label_inj <| by rw [← hlabel r, h, hlabel]
    exact ⟨rfl, (List.cons.inj (List.append_cancel_left h)).2⟩
  · rintro ⟨rfl, hrest⟩
    rw [hrest]

end Role

end

/-- The characters of a name that count. -/
def significant (name : String) : List Char :=
  name.toList.take maxIdentifier

/-- What holds of the names of the variables of a type. -/
structure Spelled (s : Schema) (side : Side) (t : TypeDef) : Prop where
  characters : ∀ f ∈ t.fields, ∀ r ∈ roles s side f,
    (∃ c ∈ (variableOf f.name r).toList.head?, c.isAlpha = true) ∧
      ∀ c ∈ (variableOf f.name r).toList, IsWordPart c
  /-- Nothing else can be wrong with a variable than its length. -/
  identifier_iff : ∀ f ∈ t.fields, ∀ r ∈ roles s side f,
    isIdentifier (variableOf f.name r) = true ↔ r.stem.length + f.name.length ≤ maxIdentifier
  /-- Variables agree if they are for one role and their fields agree as far as that counts. -/
  agree_iff : ∀ f ∈ t.fields, ∀ r ∈ roles s side f, ∀ g ∈ t.fields, ∀ r' ∈ roles s side g,
    significant (variableOf f.name r) = significant (variableOf g.name r') ↔ r = r' ∧
      f.name.toList.take (maxIdentifier - r.stem.length) =
        g.name.toList.take (maxIdentifier - r.stem.length)
  /-- There is room for names of up to 59 characters. -/
  short : ∀ f ∈ t.fields, f.name.length ≤ 59 → ∀ r ∈ roles s side f,
    isIdentifier (variableOf f.name r) = true ∧
      ∀ g ∈ t.fields, g.name.length ≤ 59 → ∀ r' ∈ roles s side g,
        significant (variableOf f.name r) = significant (variableOf g.name r') →
          r = r' ∧ f.name = g.name

/-- **The variables of a type** whose fields have identifiers for names and not too many
dimensions. -/
theorem spelled_of_fields {s : Schema} {t : TypeDef}
    (hnames : ∀ f ∈ t.fields, isIdentifier f.name = true)
    (hdims : ∀ f ∈ t.fields, f.dims ≤ maxDimensions) (side : Side) : Spelled s side t := by
  have hparts (f : FieldDef) (hf : f ∈ t.fields) : ∀ c ∈ f.name.toList, IsWordPart c :=
    (isIdentifier_iff.1 (hnames f hf)).2.1
  have hstem (f : FieldDef) (hf : f ∈ t.fields) (r : Role) (hr : r ∈ roles s side f) :
      r.stem.length ≤ 4 :=
    Role.length_stem_le <| (level_le_of_mem_roles hr).trans_lt <| (hdims f hf).trans_lt (by decide)
  have hiff (f : FieldDef) (hf : f ∈ t.fields) (r : Role) (_ : r ∈ roles s side f) :=
    Role.isIdentifier_variableOf_iff (r := r) (hparts f hf)
  have hagree (f : FieldDef) (hf : f ∈ t.fields) (r : Role) (hr : r ∈ roles s side f)
      (g : FieldDef) (hg : g ∈ t.fields) (r' : Role) (hr' : r' ∈ roles s side g) :
      significant (variableOf f.name r) = significant (variableOf g.name r') ↔ r = r' ∧
        f.name.toList.take (maxIdentifier - r.stem.length) =
          g.name.toList.take (maxIdentifier - r.stem.length) :=
    Role.take_variableOf_eq_iff ((hstem f hf r hr).trans (by decide))
      ((hstem g hg r' hr').trans (by decide))
  refine ⟨fun f hf r _ ↦ Role.spells_variableOf r (hparts f hf), hiff, hagree,
    fun f hf hshort r hr ↦ ⟨?_, fun g hg hshort' r' hr' h ↦ ?_⟩⟩
  · have hle := hstem f hf r hr
    rw [hiff f hf r hr, maxIdentifier]
    omega
  · have hle := hstem f hf r hr
    obtain ⟨rfl, htake⟩ := (hagree f hf r hr g hg r' hr').1 h
    -- neither of the names is cut
    have hwhole {name : String} (hname : name.length ≤ 59) :
        name.toList.take (maxIdentifier - r.stem.length) = name.toList := by
      rw [List.take_of_length_le]
      rw [String.length_toList, maxIdentifier]
      omega
    rw [hwhole hshort, hwhole hshort', String.toList_inj] at htake
    exact ⟨rfl, htake⟩

/-! ### All files -/

/-- If the longest name of a function of a type is an identifier, so are the others. -/
theorem isIdentifier_of_mem_verbs {verb ident : String} (hverb : verb ∈ verbs)
    (h : isIdentifier ("write_" ++ ident) = true) :
    isIdentifier (verb ++ "_" ++ ident) = true := by
  obtain ⟨-, -, hlength⟩ := isIdentifier_iff.1 h
  have hverbs : ∀ verb ∈ verbs, verb.length ≤ 5 ∧ verb.toList.head?.any Char.isAlpha = true := by
    decide
  obtain ⟨hshort, hfirst⟩ := hverbs verb hverb
  obtain ⟨c, hc, halpha⟩ := (Option.any_eq_true ..).1 hfirst
  refine isIdentifier_iff.2 ⟨⟨c, ?_, halpha⟩, isWordPart_of_isIdentifier hverb h, ?_⟩
  · rw [String.append_assoc, String.toList_append, List.head?_append, hc, Option.some_or]
    rfl
  · have hwrite : "write_".length = 6 := by decide
    have hbar : "_".length = 1 := by decide
    rw [String.length_append, hwrite] at hlength
    rw [String.length_append, String.length_append, hbar]
    omega

/-- **The names in generated code.** Functions that are declared, and those for records that are
called, have identifiers for names. The functions of a type assign the result and the variables of
its fields. -/
theorem names_of_generate {s : Schema} {root : TypeDef} (hroot : root ∈ s.types)
    {sources : List Source} (h : generate s root = .ok sources) :
    (∀ file ∈ sources, ∀ f ∈ file.functions ++ recordCalls file.code, isIdentifier f = true) ∧
      ∀ t, s.Reaches root t → ∀ side, typeFile s side t ∈ sources ∧
        assigned (typeFile s side t).code = side.results ++ fieldVariables s side t ∧
        Spelled s side t := by
  obtain ⟨d, order, rootTag, hd, hvisits, -, -, -, hcodable, hsources⟩ :=
    (generate_eq_ok_iff_codable hroot).1 h
  have hmem {t : TypeDef} := hvisits.mem_iff_reaches (t := t)
  have hlisted : root ∈ order := hmem.2 .refl
  replace hsources : sources = fileList s root order d rootTag := hsources
  subst hsources
  have hfunction (verb : String) (hverb : verb ∈ verbs) (t : TypeDef) (ht : t ∈ order) :
      isIdentifier (verb ++ "_" ++ t.simpleName) = true :=
    isIdentifier_of_mem_verbs hverb (hcodable.identifier t (hmem.1 ht))
  refine ⟨fun file hfile ↦ List.forall_mem_append.2 ⟨fun f hf ↦ ?_, fun f hf ↦ ?_⟩,
    fun t ht side ↦ ⟨mem_fileList.2 (.inl ⟨t, hmem.2 ht, side, rfl⟩), assigned_typeFile s side t,
      spelled_of_fields (hcodable.fieldName t ht)
        (fun f ↦ Dictionary.dims_le_of_ofSchema hroot hd ht) side⟩⟩
  · obtain ⟨verb, hverb, t, ht, hfunctions, -⟩ := exists_functions_of_mem_fileList hlisted hfile
    rw [hfunctions, List.mem_singleton] at hf
    rw [hf]
    exact hfunction verb hverb t ht
  · have hclosed (t : TypeDef) (ht : t ∈ order) (u : TypeDef) (hu : u ∈ s.fieldTypes t.fields) :
        u ∈ order :=
      hmem.2 ((hmem.1 ht).tail hu)
    obtain ⟨t, ht, side, rfl⟩ := exists_function_of_mem_recordCalls hlisted hclosed hfile hf
    cases side with
    | reading => exact hfunction "read" (by decide) t ht
    | writing => exact hfunction "write" (by decide) t ht

/-! The variables of a drawing. Two fields of a type may have identifiers of 62 characters for names,
and variables that are none and agree in the characters that count. -/

open Dictionary (drawingType drawingSchema lineType pointType)

theorem names_of_generate_drawing : ∃ sources, drawingType ∈ drawingSchema.types ∧
    generate drawingSchema drawingType = .ok sources ∧
    (∃ file ∈ sources, assigned file.code = ["s", "n1_lines", "v1_lines", "v1_lines", "i1_lines",
      "n2_lines", "v2_lines", "i2_lines", "e_lines", "v2_lines"]) ∧
    ∀ x ∈ fieldVariables drawingSchema .reading drawingType, isIdentifier x = true := by
  have hroot : drawingType ∈ drawingSchema.types := by decide
  obtain ⟨sources, h⟩ := exists_generate_drawing
  obtain ⟨hmem, hassigned, hspelled⟩ := (names_of_generate hroot h).2 drawingType .refl .reading
  refine ⟨sources, hroot, h, ⟨_, hmem, hassigned.trans (by decide)⟩, fun x hx ↦ ?_⟩
  obtain ⟨f, hf, hvariable⟩ := List.mem_flatMap.1 hx
  obtain ⟨r, hr, rfl⟩ := List.mem_map.1 hvariable
  have hshort : ∀ f ∈ drawingType.fields, f.name.length ≤ 59 := by decide
  exact (hspelled.short f hf (hshort f hf) r hr).1

def longType : TypeDef :=
  ⟨"P", [⟨"xxxxxxxxxxxxxxxxxxxxxxxxxxxxxxxxxxxxxxxxxxxxxxxxxxxxxxxxxxxxxa", "int", 0, false⟩,
    ⟨"xxxxxxxxxxxxxxxxxxxxxxxxxxxxxxxxxxxxxxxxxxxxxxxxxxxxxxxxxxxxxb", "int", 0, false⟩]⟩

def longSchema : Schema :=
  ⟨none, [longType], by decide⟩

theorem variables_agree_long : longType ∈ longSchema.types ∧ ∃ sources,
    generate longSchema longType = .ok sources ∧ ∃ file ∈ sources, ∃ x ∈ assigned file.code,
      ∃ y ∈ assigned file.code, isIdentifier x = false ∧ isIdentifier y = false ∧ x ≠ y ∧
        significant x = significant y := by
  have hroot : longType ∈ longSchema.types := by decide
  have honly : longType ∈ [longType] := List.mem_singleton_self _
  have hcodable : longSchema.Codable longType :=
    codable_of_closed honly (by decide) (by decide) (by decide) (by decide)
  obtain ⟨sources, h⟩ := (exists_generate_iff hroot).2 ⟨⟨_, by cbv⟩, hcodable⟩
  obtain ⟨_, order, _, -, hvisits, -, -, -, -, hsources⟩ := (generate_eq_ok_iff_codable hroot).1 h
  have hfile : typeFile longSchema .reading longType ∈ sources :=
    hsources ▸ mem_fileList.2 (.inl ⟨_, hvisits.mem_iff_reaches.2 .refl, _, rfl⟩)
  refine ⟨hroot, sources, h, _, hfile, ?_⟩
  rw [assigned_typeFile]
  decide

end Matlab

end GraphCodec
