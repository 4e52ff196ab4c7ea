import Mathlib.Data.Nat.Init
import SchemaRoutes.Proofs.Schema.Kind
import SchemaRoutes.Proofs.Schema.Slot
import SchemaRoutes.Proofs.Schema.Traversal
import SchemaRoutes.Schema.CatalogEntry

/-! # Entries as a recursion

The entry of a node has the entries of its sub-schemas in their slots, some of them as a choice
between the entry and a link. Apart from that, only a few keywords are changed.
-/

namespace SchemaRoutes

namespace CatalogEntry

def orLink (entry : Json) : Json :=
  .obj [("oneOf", .arr [entry, .obj [("type", .str "string"), ("format", .str "uri")]])]

end CatalogEntry

open CatalogEntry Traversal

namespace Schema

/-- The schema as the entry around it shows it. -/
def embedded (slot : Slot) (s : Schema) : Json :=
  if mayLink slot && s.isLinkable then orLink s.catalogEntry else s.catalogEntry

def IsLinkType (s : Schema) : Prop :=
  s.get? "type" = none ∨ s.get? "type" = some (.str "object") ∨
    s.get? "type" = some (.str "boolean")

instance (s : Schema) : Decidable s.IsLinkType := inferInstanceAs (Decidable (_ ∨ _ ∨ _))

theorem declares_iff {s : Schema} {key : String} :
    s.declares key = true ↔ s.get? key ∉ [none, some .null] := by
  unfold declares
  split <;> simp_all

def IsNamed (s : Schema) : Prop :=
  s.get? "$id" ∉ [none, some .null] ∨ s.get? "title" ∉ [none, some .null]

instance (s : Schema) : Decidable s.IsNamed := inferInstanceAs (Decidable (_ ∨ _))

theorem isLinkable_iff_isNamed {s : Schema} : s.isLinkable = true ↔ s.IsNamed ∧ s.IsLinkType := by
  rw [IsNamed, ← declares_iff, ← declares_iff]
  unfold isLinkable IsLinkType isIdentified
  split
  · next t ht => simp [ht]
  · next v hn hv => simpa [hv] using fun _ => ⟨hn _, hn _⟩
  · next hn => simp [hn]

theorem isLinkable_iff {s : Schema} (h : s.isIdentified = true) :
    s.isLinkable = true ↔ s.IsLinkType :=
  isLinkable_iff_isNamed.trans (and_iff_right (.inl (declares_iff.mp h)))

theorem isLinkable_emptied (ms : Members) :
    isLinkable (.obj ms.emptied) = isLinkable (.obj ms) := by
  have hget : ∀ key ∈ ["$id", "title", "type"],
      Json.get? (.obj ms.emptied) key = Json.get? (.obj ms) key := by
    intro key hkey
    have hl : ∀ key ∈ ["$id", "title", "type"], Slot.keywords.lookup key = none := by decide
    exact Members.get?_emptied_of_lookup_eq_none ms (hl key hkey)
  simp only [isLinkable, isIdentified, declares, hget _ (.head _),
    hget _ (.tail _ (.head _)), hget _ (.tail _ (.tail _ (.head _)))]

end Schema

namespace CatalogEntry

def Shows (s : Schema) : Prop :=
  ∀ ctx, (visitor.visit visitor_shallow ctx s ()).1 =
    if ctx.slot?.any mayLink && s.isLinkable then orLink s.catalogEntry else s.catalogEntry

theorem leave_obj (ctx : Context) (node : Members) (children : List (Slot × Json)) (u : Unit) :
    (visitor.leave ctx (.obj node) children u).1 =
      let entry := Json.obj (adapt (withoutCompilerKeywords (node.fillAll children)))
      if ctx.slot?.any mayLink && Schema.isLinkable (.obj node) then orLink entry else entry := by
  unfold visitor
  dsimp only
  split <;> rfl

theorem visit_obj {ms : Members} (ih : ∀ c ∈ ms.children, Shows c.2) (ctx : Context) :
    (visitor.visit visitor_shallow ctx (.obj ms) ()).1 =
      let entry := Json.obj (adapt (withoutCompilerKeywords (ms.refilled Schema.embedded)))
      if ctx.slot?.any mayLink && Schema.isLinkable (.obj ms) then orLink entry else entry := by
  have hchildren : (ms.children.map fun c => (c.1, (visitor.visit visitor_shallow
      ⟨ctx.path ++ [c.1], some ms.emptied⟩ c.2 ()).1)) =
      ms.children.map fun c => (c.1, Schema.embedded c.1 c.2) := by
    refine List.map_congr_left fun c hc => ?_
    rw [ih c hc, Context.slot?, List.getLast?_concat]
    rfl
  have hopened : (visitor.enter ctx (.obj ms) ()).1.opened? = some ms := rfl
  rw [Visitor.visit_of_opened visitor_shallow hopened, Visitor.visitEach_unit, hchildren]
  rw [leave_obj, Schema.isLinkable_emptied]
  rfl

theorem catalogEntry_of_shows {ms : Members} (ih : ∀ c ∈ ms.children, Shows c.2) :
    Schema.catalogEntry (.obj ms) =
      .obj (adapt (withoutCompilerKeywords (ms.refilled Schema.embedded))) := by
  rw [Schema.catalogEntry, Visitor.run_eq_visit]
  exact visit_obj ih .root

theorem shows (s : Schema) : Shows s := by
  -- Children stand deeper in slots of any layout, so the induction is on the depth.
  induction hd : s.depth using Nat.strong_induction_on generalizing s with
  | _ d ih =>
    subst hd
    intro ctx
    cases s with
    | obj ms =>
      have hms : ∀ c ∈ Members.children ms, Shows c.2 :=
        fun c hc => ih _ (Members.depth_lt_of_mem_children hc) c.2 rfl
      rw [visit_obj hms, catalogEntry_of_shows hms]
    | _ =>
      have hentry : ∀ s : Schema, (visitor.enter ctx s ()).1.opened? = none →
          (visitor.visit visitor_shallow ctx s ()).1 = (visitor.leave ctx s [] ()).1 := by
        intro s hs
        rw [Visitor.visit_of_closed visitor_shallow hs]
        rfl
      rw [hentry _ rfl]
      cases ctx.slot?.any mayLink <;> rfl

def adaptedKeywords : List String :=
  ["type", "anyOf", "nullable", "const", "enum", "examples", "example", "exclusiveMinimum",
    "minimum", "exclusiveMaximum", "maximum", "patternProperties", "x-patternProperties"]

def changedKeywords : List String := compilerKeywords ++ adaptedKeywords

variable {node : Members} {key : String}

theorem get?_withoutCompilerKeywords (h : key ∉ compilerKeywords) :
    (withoutCompilerKeywords node).get? key = node.get? key := by
  unfold withoutCompilerKeywords
  generalize compilerKeywords = dropped at h
  induction dropped generalizing node with
  | nil => rfl
  | cons k dropped ih =>
    rw [List.mem_cons, not_or] at h
    rw [List.foldl_cons, ih h.2, Members.get?_erase_of_ne h.1]

theorem get?_adaptType (h : key ∉ ["type", "anyOf", "nullable"]) :
    (adaptType node).get? key = node.get? key := by
  simp only [List.mem_cons, List.not_mem_nil, or_false, not_or] at h
  obtain ⟨ht, ha, hn⟩ := h
  unfold adaptType
  split
  · dsimp only
    split <;> split <;>
      simp only [Members.get?_insert_of_ne hn, Members.get?_insert_of_ne ha,
        Members.get?_insert_of_ne ht, Members.get?_erase_of_ne ht]
  · rfl

theorem get?_adaptConst (h : key ∉ ["const", "enum"]) :
    (adaptConst node).get? key = node.get? key := by
  simp only [List.mem_cons, List.not_mem_nil, or_false, not_or] at h
  unfold adaptConst
  split
  · rw [Members.get?_insert_of_ne h.2, Members.get?_erase_of_ne h.1]
  · rfl

theorem get?_adaptExamples (h : key ∉ ["examples", "example"]) :
    (adaptExamples node).get? key = node.get? key := by
  simp only [List.mem_cons, List.not_mem_nil, or_false, not_or] at h
  unfold adaptExamples
  split
  · rw [Members.get?_insert_of_ne h.2, Members.get?_erase_of_ne h.1]
  · rw [Members.get?_erase_of_ne h.1]
  · rfl

theorem get?_adaptBound {exclusive bound : String} (h : key ∉ [exclusive, bound]) :
    (adaptBound exclusive bound node).get? key = node.get? key := by
  simp only [List.mem_cons, List.not_mem_nil, or_false, not_or] at h
  unfold adaptBound
  split
  · rw [Members.get?_insert_of_ne h.1, Members.get?_insert_of_ne h.2]
  · rfl

theorem get?_adaptPatterns (h : key ∉ ["patternProperties", "x-patternProperties"]) :
    (adaptPatterns node).get? key = node.get? key := by
  simp only [List.mem_cons, List.not_mem_nil, or_false, not_or] at h
  unfold adaptPatterns
  split
  · rw [Members.get?_insert_of_ne h.2, Members.get?_erase_of_ne h.1]
  · rfl

theorem get?_adapt (h : key ∉ adaptedKeywords) : (adapt node).get? key = node.get? key := by
  have hsub : ∀ keys : List String, keys ⊆ adaptedKeywords → key ∉ keys :=
    fun keys hk hkey => h (hk hkey)
  unfold adapt
  rw [get?_adaptPatterns (hsub _ (by decide)), get?_adaptBound (hsub _ (by decide)),
    get?_adaptBound (hsub _ (by decide)), get?_adaptExamples (hsub _ (by decide)),
    get?_adaptConst (hsub _ (by decide)), get?_adaptType (hsub _ (by decide))]

end CatalogEntry

namespace Schema

variable {s : Schema} {ms properties : Members} {key : String}

theorem catalogEntry_obj (ms : Members) :
    catalogEntry (.obj ms) = .obj (adapt (withoutCompilerKeywords (ms.refilled embedded))) :=
  catalogEntry_of_shows fun c _ => shows c.2

theorem get?_catalogEntry (h : key ∉ changedKeywords) :
    (catalogEntry (.obj ms)).get? key = (ms.refilled embedded).get? key := by
  rw [changedKeywords, List.mem_append, not_or] at h
  rw [catalogEntry_obj, Json.get?, Json.members, get?_adapt h.2, get?_withoutCompilerKeywords h.1]

/-- The properties of an entry are the entries of the properties, or choices of these. -/
theorem properties_catalogEntry (hp : s.get? "properties" = some (.obj properties))
    (hn : properties.keys.Nodup) :
    s.catalogEntry.get? "properties" =
      some (.obj (properties.map fun m => (m.1, embedded (.property m.1) m.2))) := by
  cases s with
  | obj members =>
    rw [get?_catalogEntry (by decide)]
    exact Members.get?_refilled_properties hp hn embedded
  | _ => cases hp

theorem items_catalogEntry (hi : s.get? "items" = some (.obj ms)) :
    s.catalogEntry.get? "items" = some (embedded .items (.obj ms)) := by
  cases s with
  | obj members =>
    rw [get?_catalogEntry (by decide)]
    exact Members.get?_refilled_items hi embedded
  | _ => cases hi

end Schema

end SchemaRoutes
