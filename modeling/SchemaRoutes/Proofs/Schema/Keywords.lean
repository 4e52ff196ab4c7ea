import SchemaRoutes.Proofs.Schema.CatalogEntry
import SchemaRoutes.Proofs.Schema.SlotMap

/-! # The keywords of an entry

Each step to the OpenAPI 3.0 form reads and writes a few keywords, and no later step touches what an
earlier one has written. So each keyword of the form is told by one step.
-/

namespace SchemaRoutes

open CatalogEntry

namespace CatalogEntry

variable {node : Members} {key : String}

def namedTypes (types : List Json) : List Json := types.filter (· ≠ .str "null")

theorem nodup_keys_withoutCompilerKeywords (hn : node.keys.Nodup) :
    (withoutCompilerKeywords node).keys.Nodup := by
  unfold withoutCompilerKeywords
  generalize compilerKeywords = dropped
  induction dropped generalizing node with
  | nil => exact hn
  | cons key dropped ih => exact ih (Members.nodup_keys_erase hn)

theorem withoutCompilerKeywords_eq_filter (hn : node.keys.Nodup) :
    withoutCompilerKeywords node = node.filter fun m => m.1 ∉ compilerKeywords := by
  unfold withoutCompilerKeywords
  generalize compilerKeywords = dropped
  induction dropped generalizing node with
  | nil => simp
  | cons key dropped ih =>
    rw [List.foldl_cons, ih (Members.nodup_keys_erase hn), Members.erase_eq_filter hn,
      List.filter_filter]
    refine List.filter_congr fun m _ => ?_
    simp [Bool.and_comm]

theorem get?_withoutCompilerKeywords_of_mem (hn : node.keys.Nodup) (h : key ∈ compilerKeywords) :
    (withoutCompilerKeywords node).get? key = none := by
  rw [withoutCompilerKeywords_eq_filter hn,
    Members.get?_filter (fun k => k ∉ compilerKeywords) node key]
  simp [h]

theorem nodup_keys_adaptType (hn : node.keys.Nodup) : (adaptType node).keys.Nodup := by
  have he : (node.erase "type").keys.Nodup := Members.nodup_keys_erase hn
  unfold adaptType
  split
  · dsimp only
    split <;> split <;> simp [Members.nodup_keys_insert, he, hn]
  · exact hn

theorem nodup_keys_adaptConst (hn : node.keys.Nodup) : (adaptConst node).keys.Nodup := by
  unfold adaptConst
  split
  · exact Members.nodup_keys_insert (Members.nodup_keys_erase hn)
  · exact hn

theorem nodup_keys_adaptExamples (hn : node.keys.Nodup) : (adaptExamples node).keys.Nodup := by
  unfold adaptExamples
  split
  · exact Members.nodup_keys_insert (Members.nodup_keys_erase hn)
  · exact Members.nodup_keys_erase hn
  · exact hn

theorem nodup_keys_adaptBound (exclusive bound : String) (hn : node.keys.Nodup) :
    (adaptBound exclusive bound node).keys.Nodup := by
  unfold adaptBound
  split
  · exact Members.nodup_keys_insert (Members.nodup_keys_insert hn)
  · exact hn

def lateKeywords : List String :=
  ["exclusiveMinimum", "minimum", "exclusiveMaximum", "maximum", "patternProperties",
    "x-patternProperties"]

theorem get?_adapt_eq_adaptExamples (h : key ∉ lateKeywords) :
    (adapt node).get? key = (adaptExamples (adaptConst (adaptType node))).get? key := by
  have hsub : ∀ keys : List String, keys ⊆ lateKeywords → key ∉ keys :=
    fun keys hkeys hk => h (hkeys hk)
  unfold adapt
  rw [get?_adaptPatterns (hsub _ (by decide)), get?_adaptBound (hsub _ (by decide)),
    get?_adaptBound (hsub _ (by decide))]

theorem get?_adapt_of_mem (h : key ∈ ["type", "anyOf", "nullable"]) :
    (adapt node).get? key = (adaptType node).get? key := by
  have hother : ∀ keys : List String, (∀ k ∈ ["type", "anyOf", "nullable"], k ∉ keys) →
      key ∉ keys := fun keys hk => hk key h
  rw [get?_adapt_eq_adaptExamples (hother _ (by decide)), get?_adaptExamples (hother _ (by decide)),
    get?_adaptConst (hother _ (by decide))]

def withTypes (node : Members) : List Json → Members
  | [] => node.erase "type"
  | [type] => node.insert "type" type
  | several => (node.erase "type").insert "anyOf" (.arr (several.map fun t => .obj [("type", t)]))

theorem get?_adapt_of_list {types : List Json} (ht : node.get? "type" = some (.arr types))
    (h : key ∈ ["type", "anyOf"]) :
    (adapt node).get? key = (withTypes node (namedTypes types)).get? key := by
  have hnullable : key ≠ "nullable" := by
    rintro rfl
    exact absurd h (by decide)
  rw [get?_adapt_of_mem (List.mem_append_left ["nullable"] h), adaptType, ht]
  change (if types.contains (.str "null") then
    (withTypes node (namedTypes types)).insert "nullable" (.bool true)
      else withTypes node (namedTypes types)).get? key = _
  split
  · exact Members.get?_insert_of_ne hnullable
  · rfl

theorem get?_adapt_of_not_list (ht : ∀ types, node.get? "type" ≠ some (.arr types))
    (h : key ∈ ["type", "anyOf"]) : (adapt node).get? key = node.get? key := by
  rw [get?_adapt_of_mem (List.mem_append_left ["nullable"] h), adaptType]
  split
  · next types hl => exact absurd hl (ht types)
  · rfl

@[simp] theorem get?_withTypes_nil_type (hn : node.keys.Nodup) :
    (withTypes node []).get? "type" = none := Members.get?_erase_self hn

@[simp] theorem get?_withTypes_singleton_type (type : Json) :
    (withTypes node [type]).get? "type" = some type := Members.get?_insert_self

@[simp] theorem get?_withTypes_several_type (hn : node.keys.Nodup) (t t' : Json)
    (rest : List Json) : (withTypes node (t :: t' :: rest)).get? "type" = none := by
  change ((node.erase "type").insert "anyOf" _).get? "type" = none
  rw [Members.get?_insert_of_ne (by decide), Members.get?_erase_self hn]

@[simp] theorem get?_withTypes_nil_anyOf : (withTypes node []).get? "anyOf" = node.get? "anyOf" :=
  Members.get?_erase_of_ne (by decide)

@[simp] theorem get?_withTypes_singleton_anyOf (type : Json) :
    (withTypes node [type]).get? "anyOf" = node.get? "anyOf" :=
  Members.get?_insert_of_ne (by decide)

@[simp] theorem get?_withTypes_several_anyOf (t t' : Json) (rest : List Json) :
    (withTypes node (t :: t' :: rest)).get? "anyOf" =
      some (.arr ((t :: t' :: rest).map fun t => .obj [("type", t)])) := Members.get?_insert_self

theorem get?_adapt_enum : (adapt node).get? "enum" =
    match node.get? "const" with
    | some value => some (.arr [value])
    | none => node.get? "enum" := by
  have hconst : (adaptType node).get? "const" = node.get? "const" := get?_adaptType (by decide)
  have henum : (adaptType node).get? "enum" = node.get? "enum" := get?_adaptType (by decide)
  rw [get?_adapt_eq_adaptExamples (by decide), get?_adaptExamples (by decide), adaptConst, hconst]
  cases node.get? "const" with
  | some value => exact Members.get?_insert_self
  | none => exact henum

theorem get?_adapt_const (hn : node.keys.Nodup) : (adapt node).get? "const" = none := by
  rw [get?_adapt_eq_adaptExamples (by decide), get?_adaptExamples (by decide), adaptConst]
  split
  · rw [Members.get?_insert_of_ne (by decide),
      Members.get?_erase_self (nodup_keys_adaptType hn)]
  · next h => exact h

theorem get?_adapt_examples (hn : node.keys.Nodup) : (adapt node).get? "examples" = none := by
  have hn' := nodup_keys_adaptConst (nodup_keys_adaptType hn)
  rw [get?_adapt_eq_adaptExamples (by decide), adaptExamples]
  split
  · rw [Members.get?_insert_of_ne (by decide), Members.get?_erase_self hn']
  · exact Members.get?_erase_self hn'
  · next h => exact h

theorem get?_adapt_patternProperties (hn : node.keys.Nodup) :
    (adapt node).get? "patternProperties" = none := by
  have hn' := nodup_keys_adaptBound "exclusiveMaximum" "maximum"
    (nodup_keys_adaptBound "exclusiveMinimum" "minimum"
      (nodup_keys_adaptExamples (nodup_keys_adaptConst (nodup_keys_adaptType hn))))
  rw [adapt, adaptPatterns]
  split
  · rw [Members.get?_insert_of_ne (by decide), Members.get?_erase_self hn']
  · next h => exact h

theorem get?_adapt_xPatternProperties {patterns : Json}
    (hp : node.get? "patternProperties" = some patterns) :
    (adapt node).get? "x-patternProperties" = some patterns := by
  unfold adapt adaptPatterns
  rw [get?_adaptBound (by decide), get?_adaptBound (by decide), get?_adaptExamples (by decide),
    get?_adaptConst (by decide), get?_adaptType (by decide), hp]
  exact Members.get?_insert_self

def flagged : Json → Json
  | .num _ => .bool true
  | value => value

theorem get?_adaptBound_exclusive (exclusive bound : String) (node : Members) :
    (adaptBound exclusive bound node).get? exclusive = (node.get? exclusive).map flagged := by
  unfold adaptBound
  cases h : node.get? exclusive with
  | none => exact h
  | some value =>
    cases value with
    | num limit => exact Members.get?_insert_self
    | _ => exact h

theorem get?_adaptBound_bound {exclusive bound : String} (hne : bound ≠ exclusive)
    (node : Members) :
    (adaptBound exclusive bound node).get? bound =
      match node.get? exclusive with
      | some (.num limit) => some (.num limit)
      | _ => node.get? bound := by
  unfold adaptBound
  cases h : node.get? exclusive with
  | none => rfl
  | some value =>
    cases value with
    | num limit =>
      exact (Members.get?_insert_of_ne hne).trans Members.get?_insert_self
    | _ => rfl

def boundKeywords : List (String × String) :=
  [("exclusiveMinimum", "minimum"), ("exclusiveMaximum", "maximum")]

variable {exclusive bound : String}

theorem get?_adaptExamples_of_not_mem (h : key ∉
    ["type", "anyOf", "nullable", "const", "enum", "examples", "example"]) :
    (adaptExamples (adaptConst (adaptType node))).get? key = node.get? key := by
  have hsub : ∀ keys : List String, keys ⊆
      ["type", "anyOf", "nullable", "const", "enum", "examples", "example"] → key ∉ keys :=
    fun keys hkeys hk => h (hkeys hk)
  rw [get?_adaptExamples (hsub _ (by decide)), get?_adaptConst (hsub _ (by decide)),
    get?_adaptType (hsub _ (by decide))]

theorem get?_adapt_exclusive (hb : (exclusive, bound) ∈ boundKeywords) :
    (adapt node).get? exclusive = (node.get? exclusive).map flagged := by
  simp only [boundKeywords, List.mem_cons, List.not_mem_nil, or_false, Prod.mk.injEq] at hb
  unfold adapt
  rcases hb with ⟨rfl, rfl⟩ | ⟨rfl, rfl⟩
  · rw [get?_adaptPatterns (by decide), get?_adaptBound (by decide), get?_adaptBound_exclusive,
      get?_adaptExamples_of_not_mem (by decide)]
  · rw [get?_adaptPatterns (by decide), get?_adaptBound_exclusive, get?_adaptBound (by decide),
      get?_adaptExamples_of_not_mem (by decide)]

/-- A numeric exclusive bound takes the place of the bound, also of one that was there. -/
theorem get?_adapt_bound (hb : (exclusive, bound) ∈ boundKeywords) :
    (adapt node).get? bound =
      match node.get? exclusive with
      | some (.num limit) => some (.num limit)
      | _ => node.get? bound := by
  simp only [boundKeywords, List.mem_cons, List.not_mem_nil, or_false, Prod.mk.injEq] at hb
  unfold adapt
  rcases hb with ⟨rfl, rfl⟩ | ⟨rfl, rfl⟩
  · rw [get?_adaptPatterns (by decide), get?_adaptBound (by decide),
      get?_adaptBound_bound (by decide), get?_adaptExamples_of_not_mem (by decide),
      get?_adaptExamples_of_not_mem (by decide)]
  · rw [get?_adaptPatterns (by decide), get?_adaptBound_bound (by decide),
      get?_adaptBound (by decide), get?_adaptBound (by decide),
      get?_adaptExamples_of_not_mem (by decide), get?_adaptExamples_of_not_mem (by decide)]

end CatalogEntry

namespace Schema

variable {ms : Members} {key : String}

/-- A node with the entries of its sub-schemas in their slots, before its keywords are adapted. -/
def prepared (ms : Members) : Members := withoutCompilerKeywords (ms.refilled embedded)

theorem catalogEntry_obj_eq_adapt (ms : Members) :
    catalogEntry (.obj ms) = .obj (adapt (prepared ms)) := catalogEntry_obj ms

theorem catalogEntry_of_not_isObject {s : Schema} (h : s.isObject = false) :
    s.catalogEntry = s := by
  cases s with
  | obj ms => cases h
  | _ => rfl

theorem nodup_keys_prepared (hn : ms.keys.Nodup) : (prepared ms).keys.Nodup :=
  nodup_keys_withoutCompilerKeywords (by simpa using hn)

theorem get?_prepared_of_mem (hn : ms.keys.Nodup) (h : key ∈ compilerKeywords) :
    (prepared ms).get? key = none :=
  get?_withoutCompilerKeywords_of_mem (by simpa using hn) h

theorem get?_prepared (h : key ∉ compilerKeywords) (hs : Slot.keywords.lookup key = none) :
    (prepared ms).get? key = ms.get? key := by
  rw [prepared, get?_withoutCompilerKeywords h, Members.get?_refilled_of_lookup_eq_none hs]

theorem get?_prepared_of_keyword (h : (Json.obj ms).WellFormed) {k : String × Layout}
    (hk : k ∈ Slot.keywords) :
    (prepared ms).get? k.1 = (ms.get? k.1).map (Slot.mapUnder embedded k.1 k.2) := by
  have hkept : ∀ k ∈ Slot.keywords, k.1 ∉ compilerKeywords := by decide
  rw [prepared, get?_withoutCompilerKeywords (hkept k hk), Members.refilled_eq_mapSlots h,
    Members.get?_mapSlots, Slot.lookup_keywords hk]

end Schema

end SchemaRoutes
