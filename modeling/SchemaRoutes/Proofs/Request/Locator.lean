import SchemaRoutes.Proofs.Api.Trail
import SchemaRoutes.Proofs.Text.Split
import SchemaRoutes.Request.Locator

/-! # Locators lead along trails

The trail of an endpoint is flattened into a template, which is cut up again when a request comes.
A segment that comes out as a property name is not empty, has no slash and is not in braces, so a
trail is found again exactly if all its property names are of this kind. Compiling does not ask
for that.
-/

namespace SchemaRoutes

/-- The name stands in a template as one segment that is no placeholder. -/
structure IsPlainName (name : String) : Prop where
  ne_empty : name ≠ ""
  slash_not_mem : '/' ∉ name.toList
  ne_braced : ∀ inner, name ≠ braced inner

def TrailStep.toSegment (ids : String → ℤ) : TrailStep → Segment
  | property name => .property name
  | item parameter => .identifier (ids parameter)

/-- Every declared parameter has the decimal text of a 64-bit integer. There may be more. -/
def Parameters.Give (params : Parameters) (declared : List IdParameter) (ids : String → ℤ) : Prop :=
  ∀ p ∈ declared, Text.IsInRange (ids p.name) ∧
    params.lookup p.name = some (Text.signedDecimal (ids p.name))

theorem toList_braced (inner : String) :
    (braced inner).toList = '\x7b' :: (inner.toList ++ ['\x7d']) := by
  simp [braced, String.toList_append]

namespace Locator

variable {text inner name template : String} {params : Parameters} {l : Locator}

theorem placeholder?_eq_some_iff : placeholder? text = some inner ↔ text = braced inner := by
  rw [← String.toList_inj, toList_braced]
  unfold placeholder?
  constructor
  · intro h
    split at h
    · next rest hr =>
      split at h
      · next hl =>
        cases h
        obtain ⟨ys, rfl⟩ := List.getLast?_eq_some_iff.mp (by simpa using hl)
        simp [hr]
      · cases h
    · cases h
  · intro h
    simp [h]

theorem placeholder?_eq_none_iff : placeholder? text = none ↔ ∀ inner, text ≠ braced inner := by
  simp only [Option.eq_none_iff_forall_ne_some, ne_eq, placeholder?_eq_some_iff]

/-- The names that the parts of a template leave to a request: each part in braces has one. -/
inductive Names : List String → List String → Prop where
  | nil : Names [] []
  | placeholder (name : String) {parts names : List String} : Names parts names →
      Names (("\x7b" ++ name ++ "\x7d") :: parts) (name :: names)
  | other (part : String) {parts names : List String} :
      (∀ name, part ≠ "\x7b" ++ name ++ "\x7d") → Names parts names → Names (part :: parts) names

def HasPlaceholders (template : String) (names : List String) : Prop :=
  ∃ parts : List String, template.toList = ['/'].intercalate (parts.map String.toList) ∧
    (∀ part ∈ parts, '/' ∉ part.toList) ∧ Names parts names

def placeholders (template : String) : List String :=
  (segments template).filterMap placeholder?

theorem names_iff {parts names : List String} :
    Names parts names ↔ names = parts.filterMap placeholder? := by
  constructor
  · intro h
    induction h with
    | nil => rfl
    | placeholder name _ ih =>
      have hp : placeholder? ("\x7b" ++ name ++ "\x7d") = some name :=
        placeholder?_eq_some_iff.mpr rfl
      rw [List.filterMap_cons_some hp, ih]
    | other part hn _ ih => rw [List.filterMap_cons_none (placeholder?_eq_none_iff.mpr hn), ih]
  · rintro rfl
    induction parts with
    | nil => exact .nil
    | cons part parts ih =>
      cases hp : placeholder? part with
      | none =>
        rw [List.filterMap_cons_none hp]
        exact .other part (placeholder?_eq_none_iff.mp hp) ih
      | some name =>
        rw [List.filterMap_cons_some hp, placeholder?_eq_some_iff.mp hp]
        exact .placeholder name ih

theorem placeholders_eq (template : String) :
    placeholders template = (Text.split '/' template).filterMap placeholder? := by
  rw [placeholders, segments, List.filterMap_filter]
  refine List.filterMap_congr fun part _ => ?_
  split
  · rfl
  · next hp =>
    have hempty : part = "" := by simpa [String.isEmpty_iff] using hp
    rw [hempty]
    rfl

theorem hasPlaceholders_iff {names : List String} :
    HasPlaceholders template names ↔ names = placeholders template := by
  rw [placeholders_eq, ← names_iff]
  constructor
  · rintro ⟨parts, ht, hs, hnames⟩
    rcases eq_or_ne parts [] with rfl | hne
    · cases hnames
      rw [Text.split, ht]
      exact .other "" (placeholder?_eq_none_iff.mp rfl) .nil
    · have hsplit : Text.split '/' template = parts := by
        rw [Text.split, ht, Text.splitChars_intercalate (by simpa using hne)
          (List.forall_mem_map.mpr hs)]
        simp [Function.comp_def]
      rwa [hsplit]
  · intro h
    refine ⟨Text.split '/' template, ?_, ?_, h⟩
    · simp [Text.split, Function.comp_def, Text.intercalate_splitChars]
    · simp only [Text.split, List.forall_mem_map, String.toList_ofList]
      exact fun part hp => Text.not_mem_of_mem_splitChars hp
theorem isPlainName_iff :
    IsPlainName name ↔ name ≠ "" ∧ '/' ∉ name.toList ∧ placeholder? name = none := by
  rw [placeholder?_eq_none_iff]
  exact ⟨fun h => ⟨h.ne_empty, h.slash_not_mem, h.ne_braced⟩, fun h => ⟨h.1, h.2.1, h.2.2⟩⟩

instance (name : String) : Decidable (IsPlainName name) := decidable_of_iff _ isPlainName_iff.symm

theorem mem_segments (h : text ∈ segments template) : text ≠ "" ∧ '/' ∉ text.toList := by
  obtain ⟨h, hn⟩ := List.mem_filter.mp h
  obtain ⟨part, hp, rfl⟩ := List.mem_map.mp h
  refine ⟨by simpa [String.isEmpty_iff] using hn, ?_⟩
  rw [String.toList_ofList]
  exact Text.not_mem_of_mem_splitChars hp

theorem segment_eq_property (h : segment params text = .ok (.property name)) :
    text = name ∧ placeholder? text = none := by
  unfold segment at h
  split at h
  · next hn =>
    cases h
    exact ⟨rfl, hn⟩
  · split at h
    · cases h
    · split at h <;> cases h

theorem isPlainName_of_mem (h : ofTemplate template params = .ok l) (hn : .property name ∈ l) :
    IsPlainName name := by
  obtain ⟨text, ht, hs⟩ := exists_mem_of_mapM_eq_ok h hn
  obtain ⟨rfl, hp⟩ := segment_eq_property hs
  obtain ⟨he, hs⟩ := mem_segments ht
  exact isPlainName_iff.mpr ⟨he, hs, hp⟩

end Locator

theorem IsPlainName.segment_eq {name : String} (h : IsPlainName name) (params : Parameters) :
    Locator.segment params name = .ok (.property name) := by
  rw [Locator.segment, Locator.placeholder?_eq_none_iff.mpr h.ne_braced]

theorem Locator.segment_braced {params : Parameters} {name : String} {id : ℤ}
    (hr : Text.IsInRange id) (hl : params.lookup name = some (Text.signedDecimal id)) :
    segment params (braced name) = .ok (.identifier id) := by
  rw [segment, placeholder?_eq_some_iff.mpr rfl]
  simp only [hl, Text.integer?_signedDecimal hr]

namespace WritesOut

variable {template : String} {parameters : List IdParameter} {trail : List TrailStep}

theorem segments_eq (h : WritesOut template parameters trail)
    (hn : ∀ name, .property name ∈ trail → IsPlainName name) :
    Locator.segments template = trail.map TrailStep.text := by
  have hs : ∀ p ∈ trail.map fun step => step.text.toList, '/' ∉ p := by
    intro p hp
    obtain ⟨step, hm, rfl⟩ := List.mem_map.mp hp
    cases step with
    | property name => exact (hn name hm).slash_not_mem
    | item name =>
      rw [TrailStep.text, toList_braced]
      simpa using h.slash_not_mem name hm
  have he : ∀ text ∈ trail.map TrailStep.text, (!text.isEmpty) = true := by
    intro text ht
    obtain ⟨step, hm, rfl⟩ := List.mem_map.mp ht
    cases step with
    | property name => simpa [TrailStep.text, String.isEmpty_iff] using (hn name hm).ne_empty
    | item name => simp [TrailStep.text, braced]
  have hc : Text.splitChars '/' template.toList =
      [] :: trail.map fun step => step.text.toList := by
    rw [h.toList_template, ← List.nil_append (List.flatMap _ _)]
    exact Text.splitChars_join List.not_mem_nil hs
  rw [Locator.segments, Text.split, hc, List.map_cons, List.map_map,
    List.filter_cons_of_neg (by decide)]
  simpa [Function.comp_def] using he

theorem ofTemplate_eq (h : WritesOut template parameters trail)
    (hn : ∀ name, .property name ∈ trail → IsPlainName name) {params : Parameters}
    {ids : String → ℤ} (hp : params.Give parameters ids) :
    Locator.ofTemplate template params = .ok (trail.map (TrailStep.toSegment ids)) := by
  rw [Locator.ofTemplate, h.segments_eq hn, mapM_eq_ok_iff, List.forall₂_map_left_iff,
    List.forall₂_map_right_iff, List.forall₂_same]
  intro step hm
  cases step with
  | property name => exact (hn name hm).segment_eq params
  | item name =>
    obtain ⟨p, hd, rfl⟩ := h.declared name hm
    exact Locator.segment_braced (hp p hd).1 (hp p hd).2

end WritesOut

namespace Schema

def singleton (name : String) : Schema :=
  .obj [("properties", .obj [(name, .obj [("$id", .str "note"), ("type", .str "object"),
    ("title", .str "Note"), (controllerKey, .str "notes"), (seedKey, .str "\x7b\x7d")])])]

end Schema

namespace Api

theorem ofSchema_singleton (name dispatcher baseUrl : String) :
    ∃ api, ofSchema (Schema.singleton name) dispatcher baseUrl = .ok api ∧
      ∃ e ∈ api.endpoints, .property name ∈ e.trail :=
  ⟨_, rfl, _, .head _, .head _⟩

/-- A request is located where the trail of its endpoint leads exactly if all property names on
the trail are plain. The trails of endpoints may have any other name as well. -/
theorem ofTemplate_eq_trail_iff :
    (∀ schema dispatcher baseUrl api, ofSchema schema dispatcher baseUrl = .ok api →
      ∀ e ∈ api.endpoints, ∀ (params : Parameters) (ids : String → ℤ),
        params.Give e.parameters ids →
          (Locator.ofTemplate e.template params = .ok (e.trail.map (TrailStep.toSegment ids)) ↔
            ∀ name, .property name ∈ e.trail → IsPlainName name)) ∧
      ∀ name dispatcher baseUrl, ∃ schema api,
        ofSchema schema dispatcher baseUrl = .ok api ∧
          ∃ e ∈ api.endpoints, .property name ∈ e.trail := by
  refine ⟨?_, fun name dispatcher baseUrl => ⟨_, ofSchema_singleton name dispatcher baseUrl⟩⟩
  intro schema dispatcher baseUrl api h e he params ids hp
  constructor
  · intro hl name hn
    exact Locator.isPlainName_of_mem hl (List.mem_map.mpr ⟨_, hn, rfl⟩)
  · intro hn
    exact (writesOut_of_mem_endpoints h he).ofTemplate_eq hn hp

theorem ofTemplate_folders : ∃ api, ofSchema Schema.folders "main" "/v1" = .ok api ∧
    ∃ e ∈ api.endpoints, Locator.ofTemplate e.template
        [("pathParam1", "-7"), ("page", "all"), ("pathParam0", "12")] =
      .ok [.property "folders", .identifier 12, .property "notes", .identifier (-7)] := by
  obtain ⟨api, h, e, he, ht, hp⟩ : ∃ api, ofSchema Schema.folders "main" "/v1" = .ok api ∧
      ∃ e ∈ api.endpoints, e.trail =
          [.property "folders", .item "pathParam0", .property "notes", .item "pathParam1"] ∧
        e.parameters = [.nth 0 none, .nth 1 (some "Note")] :=
    ⟨_, rfl, _, .tail _ (.head _), rfl, rfl⟩
  have hl := ofTemplate_eq_trail_iff.1 _ _ _ api h e he
    [("pathParam1", "-7"), ("page", "all"), ("pathParam0", "12")]
    fun name => if name = "pathParam0" then 12 else -7
  rw [ht, hp, Parameters.Give] at hl
  exact ⟨api, h, e, he, (hl (by decide +kernel)).mpr (by simp; decide)⟩

end Api

end SchemaRoutes
