import SchemaRoutes.Proofs.Schema.EntryParts

/-! # Entries of entries

A shaped node is its own entry if an entry would show its sub-schemas as they stand in it. The
entry of a schema is such a node: a sub-schema that may be given by link has moved into a choice,
which has no name itself, and every other sub-schema is as little linkable as before. Lists of
types are the exception: nothing that has one may be given by link, but its entry may.
-/

namespace SchemaRoutes

open CatalogEntry

namespace Slot

variable {g : Slot → Json → Json}

theorem numbered_map (slot : ℕ → Slot) (n : ℕ) (xs : List Json) :
    numbered slot n ((numbered slot n xs).map fun c => g c.1 c.2) =
      (numbered slot n xs).map fun c => (c.1, g c.1 c.2) := by
  induction xs generalizing n with
  | nil => rfl
  | cons x xs ih => exact congrArg _ (ih (n + 1))

/-- What has been put into every slot is left there if it is put there for itself, too. -/
theorem mapUnder_mapUnder (hobject : ∀ slot j, (g slot j).isObject = j.isObject) {keyword : String}
    {layout : Layout} {value : Json}
    (h : ∀ c ∈ under keyword layout value, g c.1 (g c.1 c.2) = g c.1 c.2) :
    mapUnder g keyword layout (mapUnder g keyword layout value) =
      mapUnder g keyword layout value := by
  have hobj : ∀ slot ms, ∃ ns : Members, g slot (.obj ms) = .obj ns := by
    intro slot ms
    have ho : (g slot (.obj ms)).isObject = true := hobject slot (.obj ms)
    cases hj : g slot (.obj ms) with
    | obj ns => exact ⟨ns, rfl⟩
    | _ => rw [hj] at ho; cases ho
  cases layout <;> cases value
  all_goals try rfl
  case properties.obj ms | entries.obj ms =>
    simp only [under, List.forall_mem_map] at h
    simpa [mapUnder] using fun a b hm => h (a, b) hm
  case objectEntries.obj ms =>
    simp only [under, List.forall_mem_map, List.mem_filter] at h
    simp only [mapUnder, List.map_map, Json.obj.injEq]
    refine List.map_congr_left fun m hm => ?_
    simp only [Function.comp_apply]
    by_cases ho : m.2.isObject = true
    · rw [if_pos ho, if_pos (by rw [hobject]; exact ho), h m ⟨hm, ho⟩]
    · rw [if_neg ho, if_neg ho]
  case items.obj ms =>
    obtain ⟨ns, hns⟩ := hobj items ms
    have he := h _ (List.mem_singleton.mpr rfl)
    simp only [mapUnder, hns] at he ⊢
    exact he
  case single.obj ms =>
    obtain ⟨ns, hns⟩ := hobj (single keyword) ms
    have he := h _ (List.mem_singleton.mpr rfl)
    simp only [mapUnder, hns] at he ⊢
    exact he
  case items.arr xs | branches.arr xs =>
    simp only [mapUnder, numbered_map, List.map_map, Json.arr.injEq]
    exact List.map_congr_left h

theorem mapUnder_branches_eq {keyword : String} {xs : List Json}
    (h : ∀ x ∈ xs, ∀ i, g (.branch keyword i) x = x) :
    mapUnder g keyword .branches (.arr xs) = .arr xs := by
  refine congrArg Json.arr ?_
  have hnumbered : ∀ n, (numbered (.branch keyword) n xs).map (fun c => g c.1 c.2) = xs := by
    induction xs with
    | nil => exact fun _ => rfl
    | cons x xs ih =>
      rintro n
      rw [List.forall_mem_cons] at h
      rw [numbered, List.map_cons, h.1 n, ih h.2]
  exact hnumbered 0

theorem nodup_keys_mapUnder {keyword : String} {layout : Layout} {value : Json}
    (hn : value.members.keys.Nodup)
    (hg : ∀ c ∈ under keyword layout value, (g c.1 c.2).members.keys.Nodup) :
    (mapUnder g keyword layout value).members.keys.Nodup := by
  cases layout <;> cases value
  all_goals try exact hn
  case properties.obj ms | entries.obj ms | objectEntries.obj ms =>
    simpa [mapUnder, Json.members, Members.keys, Function.comp_def] using hn
  case items.obj ms | single.obj ms => exact hg _ (List.mem_singleton.mpr rfl)

end Slot

namespace Schema

variable {s t : Schema} {node ms : Members}

/-- A shaped node has nothing left to adapt. -/
theorem IsShaped.adapt_eq (h : IsShaped node) : adapt node = node := by
  have hsub : ["const", "examples", "patternProperties"] ⊆ ["$id", "$schema", "default",
      "x-rest-controller", "x-rest-blank-object", "const", "examples", "patternProperties"] := by
    decide
  have habsent : ∀ key ∈ ["const", "examples", "patternProperties"], node.get? key = none :=
    fun key hkey => Members.get?_eq_none_iff.mpr (h.absent key (hsub hkey))
  have htype : adaptType node = node := by
    unfold adaptType
    split
    · next types ht => exact absurd ht (h.type types)
    · rfl
  have hbound : ∀ exclusive ∈ ["exclusiveMinimum", "exclusiveMaximum"], ∀ bound,
      adaptBound exclusive bound node = node := by
    intro exclusive he bound
    unfold adaptBound
    split
    · next limit hl => exact absurd hl (h.bounds exclusive he limit)
    · rfl
  rw [adapt, htype, adaptConst, habsent _ (by decide), adaptExamples, habsent _ (by decide),
    hbound _ (by decide), hbound _ (by decide), adaptPatterns, habsent _ (by decide)]

theorem IsShaped.withoutCompilerKeywords_eq (h : IsShaped node) (hn : node.keys.Nodup) :
    withoutCompilerKeywords node = node := by
  have hsub : compilerKeywords ⊆ ["$id", "$schema", "default", "x-rest-controller",
      "x-rest-blank-object", "const", "examples", "patternProperties"] := by decide
  rw [withoutCompilerKeywords_eq_filter hn, List.filter_eq_self]
  intro m hm
  have hkept : m.1 ∉ compilerKeywords := fun hc => h.absent _ (hsub hc) (Members.mem_keys hm)
  exact decide_eq_true hkept

/-- A node that has the form of an entry, with sub-schemas that stand as an entry shows them. -/
structure IsSettled (node : Members) : Prop where
  shaped : IsShaped node
  nodup : node.keys.Nodup
  slots : ∀ k ∈ Slot.keywords, ∀ value, node.get? k.1 = some value →
    value.members.keys.Nodup ∧ Slot.mapUnder embedded k.1 k.2 value = value

theorem IsSettled.catalogEntry_eq (h : IsSettled node) : catalogEntry (.obj node) = .obj node := by
  have hsame : node.refilled embedded = node := by
    apply Members.ext_get? (Members.keys_refilled node embedded) (by simpa using h.nodup)
    intro key hkey
    rw [Members.keys_refilled, ← Members.isSome_get?_iff] at hkey
    obtain ⟨value, hv⟩ := Option.isSome_iff_exists.mp hkey
    cases hl : Slot.keywords.lookup key with
    | none => exact Members.get?_refilled_of_lookup_eq_none hl embedded
    | some layout =>
      have hk := Slot.mem_keywords_of_lookup hl
      obtain ⟨hn, hmap⟩ := h.slots _ hk value hv
      rw [Members.get?_refilled_of_nodup hk hv hn, hmap, hv]
  rw [catalogEntry_obj_eq_adapt, prepared, hsame, h.shaped.withoutCompilerKeywords_eq h.nodup,
    h.shaped.adapt_eq]

theorem nodup_keys_adapt (hn : node.keys.Nodup) : (adapt node).keys.Nodup := by
  have hbound := nodup_keys_adaptBound "exclusiveMaximum" "maximum"
    (nodup_keys_adaptBound "exclusiveMinimum" "minimum"
      (nodup_keys_adaptExamples (nodup_keys_adaptConst (nodup_keys_adaptType hn))))
  unfold adapt adaptPatterns
  split
  · exact Members.nodup_keys_insert (Members.nodup_keys_erase hbound)
  · exact hbound

theorem holds_of_mem_children {c : Slot × Json} (hc : c ∈ s.members.children) : s.Holds c.2 := by
  cases s with
  | obj ms => exact Holds.here.child hc
  | _ => cases hc

theorem Holds.mem_of_closed {closed : List Schema} (hs : s ∈ closed)
    (hclosed : ∀ t ∈ closed, ∀ c ∈ t.members.children, c.2 ∈ closed) (ht : s.Holds t) :
    t ∈ closed := by
  induction ht with
  | here => exact hs
  | child _ hc ih => exact hclosed _ ih _ hc

def HasSingleTypes (s : Schema) : Prop :=
  ∀ t, s.Holds t → ∀ types, t.get? "type" ≠ some (.arr types)

theorem HasSingleTypes.of_holds (h : HasSingleTypes s) (ht : s.Holds t) : HasSingleTypes t :=
  fun u hu => h u (ht.trans hu)

theorem HasSingleTypes.of_mem_children (h : HasSingleTypes s) {c : Slot × Json}
    (hc : c ∈ s.members.children) : HasSingleTypes c.2 :=
  h.of_holds (holds_of_mem_children hc)

theorem HasSingleTypes.listsTypeNames (h : HasSingleTypes s) : s.ListsTypeNames :=
  fun types ht => absurd ht (h s .here types)

theorem embedded_of_linked {slot : Slot} (h : (mayLink slot && s.isLinkable) = true) :
    embedded slot s = orLink (catalogEntry s) := if_pos h

theorem embedded_of_not_linked {slot : Slot} (h : ¬ (mayLink slot && s.isLinkable) = true) :
    embedded slot s = catalogEntry s := if_neg h

theorem embedded_of_not_isObject (slot : Slot) (h : s.isObject = false) : embedded slot s = s := by
  have hl : s.isLinkable = false := by
    cases s with
    | obj ms => cases h
    | _ => rfl
  rw [embedded_of_not_linked (by simp [hl]), catalogEntry_of_not_isObject h]

theorem isObject_embedded (slot : Slot) (s : Schema) :
    (embedded slot s).isObject = s.isObject := by
  cases s with
  | obj ms =>
    obtain ⟨ns, hns⟩ := exists_embedded_obj slot ms
    rw [hns]
    rfl
  | _ => rw [embedded_of_not_isObject slot rfl]

theorem keys_orLink (entry : Json) : (orLink entry).members.keys = ["oneOf"] := rfl

theorem nodup_keys_embedded (slot : Slot) (h : s.members.keys.Nodup) :
    (embedded slot s).members.keys.Nodup := by
  cases s with
  | obj ms =>
    by_cases hl : (mayLink slot && isLinkable (.obj ms)) = true
    · rw [embedded_of_linked hl, keys_orLink]
      exact List.nodup_singleton _
    · rw [embedded_of_not_linked hl, catalogEntry_obj_eq_adapt, Json.members]
      exact nodup_keys_adapt (nodup_keys_prepared h)
  | _ =>
    rw [embedded_of_not_isObject slot rfl]
    exact h

theorem isSettled_link : IsSettled [("type", .str "string"), ("format", .str "uri")] where
  shaped := isShaped_link
  nodup := by decide
  slots k hk value hv := by
    have hnone : ∀ k ∈ Slot.keywords,
        Members.get? [("type", .str "string"), ("format", .str "uri")] k.1 = none := by decide
    rw [hnone k hk] at hv
    cases hv

theorem isSettled_type (name : String) : IsSettled [("type", .str name)] where
  shaped := isShaped_type name
  nodup := List.nodup_singleton _
  slots k hk value hv := by
    have hne : ∀ k ∈ Slot.keywords, k.1 ≠ "type" := by decide
    rw [Members.get?_cons, if_neg (hne k hk)] at hv
    cases hv

theorem embedded_branch (keyword : String) (i : ℕ) (s : Schema) :
    embedded (.branch keyword i) s = catalogEntry s :=
  embedded_of_not_linked Bool.false_ne_true

theorem isSettled_entry (h : (Json.obj ms).WellFormed) (hnames : ListsTypeNames (.obj ms))
    (ih : ∀ c ∈ ms.children, embedded c.1 (embedded c.1 c.2) = embedded c.1 c.2) :
    IsSettled (adapt (prepared ms)) where
  shaped := isShaped_adapt h.keys_nodup hnames
  nodup := nodup_keys_adapt (nodup_keys_prepared h.keys_nodup)
  slots k hk value hv := by
    have hn := nodup_keys_prepared h.keys_nodup
    rcases get?_adapt_of_keyword hn hk hv with hv | ⟨rfl, types, ht, rfl⟩
    · rw [get?_prepared_of_keyword h hk] at hv
      obtain ⟨before, hb, rfl⟩ := Option.map_eq_some_iff.mp hv
      have hchild : ∀ c ∈ Slot.under k.1 k.2 before, c ∈ ms.children := fun c hc =>
        Members.mem_children_iff.mpr ⟨k, hk, before, hb, hc⟩
      constructor
      · have hbefore : before.WellFormed := Json.WellFormed.of_get? h hb
        exact Slot.nodup_keys_mapUnder hbefore.members.keys_nodup fun c hc =>
          nodup_keys_embedded c.1 (h.of_mem_children (hchild c hc)).members.keys_nodup
      · exact Slot.mapUnder_mapUnder isObject_embedded fun c hc => ih c (hchild c hc)
    · rw [get?_prepared (by decide) (by decide)] at ht
      constructor
      · exact List.nodup_nil
      · apply Slot.mapUnder_branches_eq
        rintro _ hx i
        obtain ⟨t, hmem, rfl⟩ := List.mem_map.mp hx
        obtain ⟨name, rfl⟩ := hnames types ht t (List.mem_filter.mp hmem).1
        rw [embedded_branch]
        exact (isSettled_type name).catalogEntry_eq

theorem isSettled_choice {entry other : Schema} (h : catalogEntry entry = entry)
    (hother : catalogEntry other = other) : IsSettled [("oneOf", .arr [entry, other])] where
  shaped := isShaped_choice entry other
  nodup := List.nodup_singleton _
  slots k hk value hv := by
    rw [Members.get?_cons] at hv
    split at hv
    · next hkey =>
      cases hv
      have hlayout : ∀ k ∈ Slot.keywords, k.1 = "oneOf" → k.2 = .branches := by decide
      obtain ⟨keyword, layout⟩ := k
      obtain rfl : keyword = "oneOf" := hkey
      obtain rfl : layout = .branches := hlayout _ hk rfl
      constructor
      · exact List.nodup_nil
      · apply Slot.mapUnder_branches_eq
        rintro x hx i
        rw [embedded_branch]
        simp only [List.mem_cons, List.not_mem_nil, or_false] at hx
        rcases hx with rfl | rfl
        · exact h
        · exact hother
    · cases hv

/-- An entry has the title and the type of its schema, and no identifier. -/
theorem isLinkable_of_catalogEntry (hn : ms.keys.Nodup) (hs : HasSingleTypes (.obj ms))
    (hl : isLinkable (catalogEntry (.obj ms)) = true) : isLinkable (.obj ms) = true := by
  have hid : (catalogEntry (.obj ms)).get? "$id" = none := by
    rw [catalogEntry_obj_eq_adapt, Json.get?_obj, get?_adapt (by decide),
      get?_prepared_of_mem hn (by decide)]
  have htitle : (catalogEntry (.obj ms)).get? "title" = ms.get? "title" := by
    rw [catalogEntry_obj_eq_adapt, Json.get?_obj, get?_adapt (by decide),
      get?_prepared (by decide) (by decide)]
  have htype : (catalogEntry (.obj ms)).get? "type" = ms.get? "type" := by
    have hsame : (prepared ms).get? "type" = ms.get? "type" := get?_prepared (by decide) (by decide)
    rw [catalogEntry_obj_eq_adapt, Json.get?_obj,
      get?_adapt_of_not_list (fun types => hsame ▸ hs _ .here types) (by decide), hsame]
  rw [isLinkable_iff_isNamed] at hl ⊢
  obtain ⟨hnamed, hlink⟩ := hl
  constructor
  · rcases hnamed with h | h
    · simp [hid] at h
    · right
      rwa [htitle] at h
  · unfold IsLinkType at hlink ⊢
    rwa [htype] at hlink

theorem embedded_embedded (h : s.WellFormed) (hs : HasSingleTypes s)
    (he : catalogEntry (catalogEntry s) = catalogEntry s) (slot : Slot) :
    embedded slot (embedded slot s) = embedded slot s := by
  cases s with
  | obj ms =>
    by_cases hl : (mayLink slot && isLinkable (.obj ms)) = true
    · have hnone : isLinkable (orLink (catalogEntry (.obj ms))) = false := rfl
      rw [embedded_of_linked hl, embedded_of_not_linked (by simp [hnone])]
      exact (isSettled_choice he isSettled_link.catalogEntry_eq).catalogEntry_eq
    · rw [embedded_of_not_linked hl, embedded_of_not_linked, he]
      intro hl'
      rw [Bool.and_eq_true] at hl hl'
      exact hl ⟨hl'.1, isLinkable_of_catalogEntry h.keys_nodup hs hl'.2⟩
  | _ => exact congrArg (embedded slot) (embedded_of_not_isObject slot rfl)

theorem catalogEntry_catalogEntry (h : s.WellFormed) (hnames : s.ListsTypeNames)
    (hs : ∀ c ∈ s.members.children, HasSingleTypes c.2) :
    catalogEntry (catalogEntry s) = catalogEntry s := by
  -- Children stand deeper in slots of any layout, so the induction is on the depth.
  induction hd : s.depth using Nat.strong_induction_on generalizing s with
  | _ d ih =>
    subst hd
    cases s with
    | obj ms =>
      have hchildren : ∀ c ∈ Members.children ms,
          embedded c.1 (embedded c.1 c.2) = embedded c.1 c.2 := by
        intro c hc
        have hwf := h.of_mem_children hc
        have hsingle := hs c hc
        refine embedded_embedded hwf hsingle ?_ c.1
        exact ih _ (Members.depth_lt_of_mem_children hc) hwf hsingle.listsTypeNames
          (fun _ => hsingle.of_mem_children) rfl
      rw [catalogEntry_obj_eq_adapt]
      exact (isSettled_entry h hnames hchildren).catalogEntry_eq
    | _ => rfl

/-- The entry of an entry is the entry itself, if the schemas in the slots and all those below have
no list of types. What an entry shows for such a schema, it shows for that once more, whatever the
slot: no choice is wrapped again, and no title that was kept makes a new one. -/
theorem catalogEntry_again (h : s.WellFormed) (hnames : s.ListsTypeNames)
    (hs : ∀ c ∈ s.members.children, HasSingleTypes c.2) :
    catalogEntry (catalogEntry s) = catalogEntry s ∧
      ∀ c ∈ s.members.children, ∀ t, Holds c.2 t → ∀ slot,
        embedded slot (embedded slot t) = embedded slot t := by
  constructor
  · exact catalogEntry_catalogEntry h hnames hs
  · rintro c hc t ht slot
    have hsingle := (hs c hc).of_holds ht
    have hwf : t.WellFormed := ((holds_of_mem_children hc).trans ht).wellFormed h
    refine embedded_embedded hwf hsingle ?_ slot
    exact catalogEntry_catalogEntry hwf hsingle.listsTypeNames fun _ => hsingle.of_mem_children

/-- A shelf may have an owner, who may be given by link, unlike the name of the owner. -/
def shelf : Schema :=
  .obj [("$id", .str "shelf"), ("type", .arr [.str "object", .str "null"]),
    ("properties", .obj [("owner", .obj [("title", .str "Owner"),
      ("properties", .obj [("name", .obj [("title", .str "Name"), ("type", .str "string")])])])])]

theorem catalogEntry_shelf_again :
    shelf.WellFormed ∧ shelf.ListsTypeNames ∧
    (∀ c ∈ shelf.members.children, HasSingleTypes c.2) ∧
    shelf.catalogEntry = .obj [("type", .str "object"),
      ("properties", .obj [("owner", .obj [("oneOf", .arr [.obj [("title", .str "Owner"),
        ("properties", .obj [("name", .obj [("title", .str "Name"), ("type", .str "string")])])],
        CatalogEntry.link])])]), ("nullable", .bool true)] ∧
    catalogEntry (catalogEntry shelf) = catalogEntry shelf := by
  have hwf : shelf.WellFormed := by
    simp [shelf, Json.WellFormed, Json.WellFormedMembers, Json.WellFormedItems]
  have hnames : shelf.ListsTypeNames := by
    rintro _ ⟨⟩ t ht
    simp only [List.mem_cons, List.not_mem_nil, or_false] at ht
    rcases ht with rfl | rfl
    · exact ⟨_, rfl⟩
    · exact ⟨_, rfl⟩
  have hsingle : ∀ c ∈ shelf.members.children, HasSingleTypes c.2 := by
    rintro c hc t ht types htypes
    obtain rfl := List.mem_singleton.mp hc
    have hclosed : t ∈ [Json.obj [("title", .str "Owner"),
        ("properties", .obj [("name", .obj [("title", .str "Name"), ("type", .str "string")])])],
        Json.obj [("title", .str "Name"), ("type", .str "string")]] :=
      ht.mem_of_closed (by decide) (by decide +kernel)
    simp only [List.mem_cons, List.not_mem_nil, or_false] at hclosed
    rcases hclosed with rfl | rfl
    · cases htypes
    · cases htypes
  refine ⟨hwf, hnames, hsingle, by decide +kernel, ?_⟩
  exact (catalogEntry_again hwf hnames hsingle).1

end Schema

end SchemaRoutes
