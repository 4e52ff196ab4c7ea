import SchemaRoutes.Proofs.Api.Roots
import SchemaRoutes.Proofs.Schema.CatalogEntry

/-! # Sub-resources in catalog entries

A property gets endpoints by what it leads to, and the entry around it shows a choice between the
sub-resource and a link by the type of the sub-resource. The two agree on all resources of object,
boolean or no type; any other resource has its endpoints and is still shown inline only.
-/

namespace SchemaRoutes

open CatalogEntry

namespace Json

/-- What an entry shows in the place of a sub-resource: the value of a property, or the items in
it. -/
def placeOf? (entry : Json) (sub : Hop) : Option Json := do
  let properties ← entry.get? "properties"
  let value ← properties.get? sub.name
  match sub.kind with
  | .item => some value
  | .collection => value.get? "items"

end Json

namespace Schema

variable {s p t : Schema} {kind : EndpointKind}

theorem LeadsTo.wellFormed (hl : LeadsTo p kind t) (h : p.WellFormed) : t.WellFormed := by
  cases hl with
  | items _ hi => exact h.of_get? hi
  | self _ _ => exact h

theorem embedded_of_isIdentified (slot : Slot) (hslot : mayLink slot = true)
    (h : s.isIdentified = true) :
    s.embedded slot = if s.IsLinkType then orLink s.catalogEntry else s.catalogEntry := by
  rw [embedded, hslot, Bool.true_and]
  exact if_congr (isLinkable_iff h) rfl rfl

theorem embedded_of_isList {slot : Slot} (h : s.get? "type" = some (.str "array")) :
    s.embedded slot = s.catalogEntry := by
  have hn : s.isLinkable = false := by simp [isLinkable, h]
  rw [embedded, hn, Bool.and_false]
  rfl

end Schema

namespace Hop

variable {s : Schema} {hop : Hop}

theorem From.wellFormed (hf : hop.From s) (h : s.WellFormed) : hop.node.WellFormed := by
  obtain ⟨properties, p, hp, hi, hl⟩ := hf
  have hm : (hop.name, p) ∈ properties := List.mem_of_getElem? hi
  exact hl.wellFormed (Json.WellFormed.of_mem_members (h.of_get? hp).2 hm)

theorem placeOf?_catalogEntry (h : s.WellFormed) (hf : hop.From s) (hr : hop.IsResource) :
    s.catalogEntry.placeOf? hop = some
      (if hop.node.IsLinkType then orLink hop.node.catalogEntry else hop.node.catalogEntry) := by
  have hid : hop.node.isIdentified = true := isIdentified_iff.mpr hr
  obtain ⟨index, name, kind, node⟩ := hop
  dsimp only at hid
  obtain ⟨properties, p, hp, hi, hl⟩ := hf
  have hn : (Members.keys properties).Nodup := (h.of_get? hp).keys_nodup
  have hname : Members.get? properties name = some p :=
    Members.get?_of_mem hn (List.mem_of_getElem? hi)
  have hshown : (Json.obj (properties.map fun m =>
      (m.1, Schema.embedded (.property m.1) m.2))).get? name =
      some (Schema.embedded (.property name) p) := by
    rw [Json.get?, Json.members, Members.get?_map fun key => Schema.embedded (.property key),
      hname, Option.map_some]
  simp only [Json.placeOf?, Schema.properties_catalogEntry hp hn, Option.bind_eq_bind,
    Option.bind_some, hshown]
  cases hl with
  | items ht hitems =>
    -- The array is shown as it is, so its items are found right in it.
    rw [Schema.embedded_of_isList ht]
    simp only [Schema.items_catalogEntry hitems, Schema.embedded_of_isIdentified .items rfl hid]
  | self _ _ => simp only [Schema.embedded_of_isIdentified (.property name) rfl hid]

end Hop

namespace ResourceWalk

variable {s : Schema} {w : List Hop} {first hop sub : Hop}

theorem of_cons (hw : ResourceWalk s (first :: (w ++ [hop]))) :
    first.From s ∧ ResourceWalk first.node (w ++ [hop]) := by
  obtain ⟨_, _, he, hf, ⟨rfl, -⟩ | hv⟩ := resourceWalk_iff.mp hw
  · simp at he
  · cases he
    exact ⟨hf, hv⟩

theorem wellFormed (hw : ResourceWalk s (w ++ [hop])) (h : s.WellFormed) :
    hop.node.WellFormed := by
  induction w generalizing s with
  | nil =>
    cases hw with
    | last hf _ => exact hf.wellFormed h
    | step _ hv => cases hv
  | cons first w ih =>
    obtain ⟨hf, hv⟩ := of_cons hw
    exact ih hv (hf.wellFormed h)

theorem concat (hw : ResourceWalk s (w ++ [hop])) (hf : sub.From hop.node) (hr : sub.IsResource) :
    ResourceWalk s ((w ++ [hop]) ++ [sub]) := by
  induction w generalizing s with
  | nil =>
    cases hw with
    | last hfirst _ => exact .step hfirst (.last hf hr)
    | step _ hv => cases hv
  | cons first w ih =>
    obtain ⟨hfirst, hv⟩ := of_cons hw
    exact .step hfirst (ih hv)

end ResourceWalk

def Schema.author (type : Json) : Schema :=
  .obj [("$id", .str "author"), ("title", .str "Author"), ("type", type),
    (Schema.controllerKey, .str "authors"), ("properties", .obj [("name", .obj [])])]

def Schema.note (type : Json) : Schema :=
  .obj [("$id", .str "note"), ("title", .str "Note"), ("type", .str "object"),
    (Schema.controllerKey, .str "notes"), ("properties", .obj [("author", Schema.author type)])]

def Root.note (type : Json) : Root := ⟨.obj [("properties", .obj [("note", Schema.note type)])], ""⟩

def Hop.note (type : Json) : Hop := ⟨0, "note", .item, Schema.note type⟩

def Hop.author (type : Json) : Hop := ⟨0, "author", .item, Schema.author type⟩

theorem Hop.author_from (type : Json) : (Hop.author type).From (Hop.note type).node :=
  ⟨_, _, rfl, rfl, .self (by rintro ⟨-, ms, hi⟩; cases hi) (.inr ⟨_, rfl⟩)⟩

theorem Hop.author_isResource (type : Json) : (Hop.author type).IsResource :=
  ⟨_, rfl, nofun⟩

theorem Root.walk_note (type : Json) :
    ResourceWalk (Root.note type).schema ([] ++ [Hop.note type]) :=
  .last ⟨_, _, rfl, rfl, .self (by rintro ⟨-, ms, hi⟩; cases hi) (.inl rfl)⟩ ⟨_, rfl, nofun⟩

namespace Api

/-- Every property of a resource that leads to another resource has an endpoint. The entry of the
resource shows the other in that place: as a choice between inline and link if it is of object,
boolean or no type, and otherwise inline. -/
theorem place_of_resource {dispatcher : String} {roots : Roots} {api : Api}
    (h : ofRoots dispatcher roots = .ok api) {root : Root} (hroot : root ∈ roots)
    (hwf : root.schema.WellFormed) {w : List Hop} {hop : Hop}
    (hw : ResourceWalk root.schema (w ++ [hop])) :
    ∃ title entry, hop.node.get? "title" = some (.str title) ∧
      api.entry? (Mount.qualify ⟨root.baseUrl⟩ title) = some entry ∧
      ∀ sub : Hop, sub.From hop.node → sub.IsResource →
        (∃ e ∈ api.endpoints, ∃ before : Position,
          e.Serves ⟨root.baseUrl⟩ ⟨before.property sub.name, sub.kind, sub.node⟩) ∧
        (sub.node.IsLinkType → entry.placeOf? sub = some (orLink sub.node.catalogEntry)) ∧
        (¬ sub.node.IsLinkType → entry.placeOf? sub = some sub.node.catalogEntry) := by
  obtain ⟨title, ht, hentry⟩ := entry?_of_resource h hroot hw
  refine ⟨title, _, ht, hentry, fun sub hf hr => ?_⟩
  have hplace := Hop.placeOf?_catalogEntry (hw.wellFormed hwf) hf hr
  refine ⟨exists_endpoint_of_resource h hroot (hw.concat hf hr), fun hl => ?_, fun hl => ?_⟩
  · rw [hplace, if_pos hl]
  · rw [hplace, if_neg hl]

theorem place_of_author : ∃ api entry, ofRoots "main" [.note (.str "object")] = .ok api ∧
    api.urls = ["/note", "/note/author"] ∧ api.entry? "Note" = some entry ∧
    entry.placeOf? (.author (.str "object")) =
      some (orLink (Schema.author (.str "object")).catalogEntry) := by
  have hurls : (ofRoots "main" [.note (.str "object")]).map Api.urls =
      .ok ["/note", "/note/author"] := by decide +kernel
  obtain ⟨api, h, hurls⟩ := map_eq_ok_iff.mp hurls
  have hwf : (Root.note (.str "object")).schema.WellFormed := by
    simp [Root.note, Schema.note, Schema.author, Schema.controllerKey, Json.WellFormed,
      Json.WellFormedMembers]
  obtain ⟨title, entry, ht, hentry, hsubs⟩ :=
    place_of_resource h (.head _) hwf (Root.walk_note (.str "object"))
  obtain ⟨-, hchoice, -⟩ := hsubs _ (Hop.author_from _) (Hop.author_isResource _)
  cases ht
  have hname : Mount.qualify ⟨""⟩ "Note" = "Note" := by decide +kernel
  exact ⟨api, entry, h, hurls, hname ▸ hentry, hchoice (.inr (.inl rfl))⟩

theorem place_of_nullable_author : ∃ type api entry, ofRoots "main" [.note type] = .ok api ∧
    ResourceWalk (Root.note type).schema [Hop.note type] ∧
    (Hop.author type).From (Hop.note type).node ∧ (Hop.author type).IsResource ∧
    "/note/author" ∈ api.urls ∧ api.entry? "Note" = some entry ∧
    ∀ shape, entry.placeOf? (.author type) ≠ some (orLink shape) := by
  let type := Json.arr [.str "object", .str "null"]
  let shape := Json.obj [("title", .str "Author"), ("type", .str "object"),
    ("properties", .obj [("name", .obj [])]), ("nullable", .bool true)]
  have hrun : (ofRoots "main" [.note type]).map (fun api =>
      (api.urls, (api.entry? "Note").bind (·.placeOf? (.author type)))) =
      .ok (["/note", "/note/author"], some shape) := by decide +kernel
  obtain ⟨api, h, hshown⟩ := map_eq_ok_iff.mp hrun
  obtain ⟨hurls, hplace⟩ := Prod.mk.inj hshown
  obtain ⟨entry, hentry, hplace⟩ := Option.bind_eq_some_iff.mp hplace
  refine ⟨type, api, entry, h, Root.walk_note _, Hop.author_from _, Hop.author_isResource _, ?_,
    hentry, ?_⟩
  · simp [hurls]
  · intro shape' hchoice
    have he : shape = orLink shape' := Option.some.inj (hplace.symm.trans hchoice)
    simp [shape, orLink] at he

end Api

end SchemaRoutes
