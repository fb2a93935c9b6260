import GraphCodec.Proofs.Header

/-!
# Well-formed dictionaries

What a stored dictionary has to be, said of its list of types as a whole: the limits on counts are
kept, tags and names are distinct, and a field refers to a kind or to a type listed before
(`Dictionary.WellFormed`). The reader goes through the list from the front and asks of each type
whether it may come next, which is the same (`wellFormed_iff`).

Since each type refers only to types before it, no type of such a list contains itself, however
indirectly (`Ordered.acyclic`).
-/

namespace GraphCodec

/-- **Where everything refers to what stands before it**, there are no cycles. -/
theorem not_transGen_self {α : Type} {R : α → α → Prop} {l : List α}
    (h : ∀ before a after, l = before ++ a :: after → ∀ b, R a b → b ∈ before) {a : α}
    (ha : a ∈ l) : ¬Relation.TransGen R a a := by
  obtain ⟨before, after, rfl, hnew⟩ := List.eq_append_cons_of_mem ha
  have hclosed : ∀ b ∈ before, ∀ c, R b c → c ∈ before := by
    intro b hb c hbc
    obtain ⟨first, second, rfl⟩ := List.append_of_mem hb
    refine List.mem_append_left _ (h first b (second ++ a :: after) ?_ c hbc)
    rw [List.append_assoc, List.cons_append]
  -- from `a` one gets in front of `a`, and does not come back
  have hbefore : ∀ b, Relation.TransGen R a b → b ∈ before := by
    intro b hab
    induction hab with
    | single hab => exact h before a after rfl _ hab
    | tail _ hbc ih => exact hclosed _ ih _ hbc
  exact fun hcycle ↦ hnew (hbefore a hcycle)

/-- Whether a type has a field whose type is another one of the list. -/
def TypeEntry.Refers (ts : List TypeEntry) (t u : TypeEntry) : Prop :=
  u ∈ ts ∧ ∃ f ∈ t.fields, f.tag = u.tag

namespace Dictionary

/-- Whether types can be those of a stored dictionary. -/
structure WellFormed (ts : List TypeEntry) : Prop where
  length_le : ts.length ≤ maxTypes
  fields_le : ∀ t ∈ ts, t.fields.length ≤ maxFields
  nodup_tags : (ts.map TypeEntry.tag).Nodup
  nodup_names : (ts.map TypeEntry.name).Nodup
  composite : ∀ t ∈ ts, firstCompositeTag ≤ t.tag
  /-- A field has from 0 to `maxDimensions` dimensions and the tag of a kind or of a type listed
  before its own. -/
  known : ∀ before t after, ts = before ++ t :: after → ∀ f ∈ t.fields, f.Known before

end Dictionary

namespace Ordered

variable {ts : List TypeEntry}

/-- A type refers only to types before it. -/
theorem mem_of_refers {before after : List TypeEntry} {t u : TypeEntry}
    (h : Ordered (before ++ t :: after)) (hrefers : t.Refers (before ++ t :: after) u) :
    u ∈ before := by
  obtain ⟨hu, f, hf, htag⟩ := hrefers
  rcases (h.follows.known f hf).tag with hprimitive | ⟨v, hv, hvtag⟩
  · -- the tag of a type is not that of a kind
    obtain ⟨k, hk⟩ := Tag.exists_of_isPrimitive hprimitive
    rw [htag, Kind.ofTag?_eq_none (h.composite hu)] at hk
    cases hk
  · have hmem : v ∈ before ++ t :: after := List.mem_append_left _ hv
    rwa [h.eq_of_tag_eq hu hmem (htag.symm.trans hvtag.symm)]

/-- **No type contains itself.** -/
theorem acyclic (h : Ordered ts) {t : TypeEntry} (ht : t ∈ ts) :
    ¬Relation.TransGen (TypeEntry.Refers ts) t t :=
  not_transGen_self (fun _ _ _ hts _ hrefers ↦ by subst hts; exact h.mem_of_refers hrefers) ht

end Ordered

namespace Dictionary

/-- A dictionary that satisfies the document's words is one in the order in which the reader takes
it. -/
theorem ordered_of_wellFormed {ts : List TypeEntry} (h : WellFormed ts) : Ordered ts := by
  obtain ⟨-, -, htags, hnames, hcomposite, hknown⟩ := h
  induction ts using List.reverseRecOn with
  | nil => exact .nil
  | append_singleton ts t ih =>
    rw [List.map_append, List.nodup_append] at htags hnames
    have hfresh : ∀ {β : Type} {key : TypeEntry → β},
        (∀ a ∈ ts.map key, ∀ b ∈ [t].map key, a ≠ b) → ∀ u ∈ ts, key u ≠ key t :=
      fun h u hu ↦ h _ (List.mem_map_of_mem hu) _ (List.mem_singleton_self _)
    refine .snoc (ih htags.1 hnames.1 (fun u hu ↦ hcomposite u (List.mem_append_left _ hu)) ?_)
      ⟨hcomposite t (List.mem_append_right _ (List.mem_singleton_self t)), hfresh htags.2.2,
        hfresh hnames.2.2, hknown ts t [] rfl⟩
    rintro before u after rfl
    exact hknown before u (after ++ [t]) (by rw [List.append_assoc, List.cons_append])

/-- **Being well-formed** is being within the limits, and in order. -/
theorem wellFormed_iff {ts : List TypeEntry} : WellFormed ts ↔
    (ts.length ≤ maxTypes ∧ ∀ t ∈ ts, t.fields.length ≤ maxFields) ∧ Ordered ts := by
  refine ⟨fun h ↦ ⟨⟨h.length_le, h.fields_le⟩, ordered_of_wellFormed h⟩, ?_⟩
  rintro ⟨⟨hlength, hfields⟩, hordered⟩
  refine ⟨hlength, hfields, hordered.nodup_map TypeEntry.Follows.tag_ne,
    hordered.nodup_map TypeEntry.Follows.name_ne, fun t ht ↦ hordered.composite ht, ?_⟩
  rintro before t after rfl
  exact hordered.follows.known

end Dictionary

end GraphCodec
