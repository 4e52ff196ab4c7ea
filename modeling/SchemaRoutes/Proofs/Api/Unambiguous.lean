import SchemaRoutes.Proofs.Api.Link
import SchemaRoutes.Proofs.Api.Trail
import SchemaRoutes.Proofs.Json.WellFormed

/-! # Trails that cannot be confused

Two walks part at the first step that they do not share, and there they take two properties of the
same node, whose names are different. If one walk only goes on from the other, it does so below all
sites of the shorter walk, also below the member of a collection, so what follows an array in one
trail is the parameter that follows it in all others.
-/

namespace SchemaRoutes

def PartAt (t t' : List TrailStep) (step step' : TrailStep) : Prop :=
  step ≠ step' ∧ ∃ before rest rest', t = before ++ step :: rest ∧ t' = before ++ step' :: rest'

/-- One of two trails goes on from the other, or they part at two properties. -/
def Unambiguous (t t' : List TrailStep) : Prop :=
  t ≠ t' ∧ (t <+: t' ∨ t' <+: t ∨ ∃ name name', PartAt t t' (.property name) (.property name'))

variable {t t' : List TrailStep} {step step' : TrailStep}

theorem PartAt.cons_cons {a : TrailStep} (h : PartAt (a :: t) (a :: t') step step') :
    PartAt t t' step step' := by
  obtain ⟨hne, before, rest, rest', ht, ht'⟩ := h
  cases before with
  | nil =>
    cases ht
    cases ht'
    exact absurd rfl hne
  | cons b before =>
    obtain ⟨-, ht⟩ := List.cons.inj ht
    obtain ⟨-, ht'⟩ := List.cons.inj ht'
    exact ⟨hne, before, rest, rest', ht, ht'⟩

theorem PartAt.unique {last last' : TrailStep} (h : PartAt t t' step step')
    (h' : PartAt t t' last last') : step = last ∧ step' = last' := by
  obtain ⟨hne, before, rest, rest', rfl, rfl⟩ := h
  induction before with
  | nil =>
    obtain ⟨hne', b, r, r', ht, ht'⟩ := h'
    cases b with
    | nil => exact ⟨(List.cons.inj ht).1, (List.cons.inj ht').1⟩
    | cons c b => exact absurd ((List.cons.inj ht).1.trans (List.cons.inj ht').1.symm) hne
  | cons c before ih => exact ih h'.cons_cons

theorem PartAt.ne (h : PartAt t t' step step') : t ≠ t' := by
  obtain ⟨hne, before, rest, rest', rfl, rfl⟩ := h
  intro he
  exact hne (List.cons.inj (List.append_cancel_left he)).1

theorem not_partAt_of_isPrefix (h : t <+: t') : ¬ PartAt t t' step step' := by
  rintro ⟨hne, before, rest, rest', rfl, rfl⟩
  obtain ⟨more, hmore⟩ := h
  rw [List.append_assoc] at hmore
  exact hne (List.cons.inj (List.append_cancel_left hmore)).1

theorem PartAt.symm (h : PartAt t t' step step') : PartAt t' t step' step := by
  obtain ⟨hne, before, rest, rest', ht, ht'⟩ := h
  exact ⟨hne.symm, before, rest', rest, ht', ht⟩

namespace Unambiguous

theorem symm (h : Unambiguous t t') : Unambiguous t' t := by
  obtain ⟨hne, hp | hp | ⟨name, name', hp⟩⟩ := h
  · exact ⟨hne.symm, .inr (.inl hp)⟩
  · exact ⟨hne.symm, .inl hp⟩
  · exact ⟨hne.symm, .inr (.inr ⟨name', name, hp.symm⟩)⟩

theorem of_partAt {name name' : String} (h : PartAt t t' (.property name) (.property name')) :
    Unambiguous t t' :=
  ⟨h.ne, .inr (.inr ⟨name, name', h⟩)⟩

theorem of_isPrefix (h : t <+: t') (hlt : t.length < t'.length) : Unambiguous t t' := by
  constructor
  · rintro rfl
    exact lt_irrefl _ hlt
  · exact .inl h

theorem properties_of_partAt (h : Unambiguous t t') (hp : PartAt t t' step step') :
    ∃ name name', step = .property name ∧ step' = .property name' := by
  obtain ⟨-, hpre | hpre | ⟨name, name', hprop⟩⟩ := h
  · exact absurd hp (not_partAt_of_isPrefix hpre)
  · exact absurd hp.symm (not_partAt_of_isPrefix hpre)
  · exact ⟨name, name', hp.unique hprop⟩

end Unambiguous

namespace Hop

variable {s : Schema} {h h' : Hop} {here : Position} {site : Site}

theorem From.eq_or_name_ne (hs : s.WellFormed) (hf : h.From s) (hf' : h'.From s) :
    h = h' ∨ h.name ≠ h'.name := by
  obtain ⟨properties, p, hps, hi, hl⟩ := hf
  obtain ⟨_, p', hps', hi', hl'⟩ := hf'
  cases hps.symm.trans hps'
  have hn : (Members.keys properties).Nodup := (Json.WellFormed.of_get? hs hps).keys_nodup
  obtain ⟨index, name, kind, node⟩ := h
  obtain ⟨index', name', kind', node'⟩ := h'
  by_cases he : name = name'
  · subst he
    have hkey : (Members.keys properties)[index]? = some name := by
      simp only [Members.keys, List.getElem?_map, hi, Option.map_some]
    have hkey' : (Members.keys properties)[index']? = some name := by
      simp only [Members.keys, List.getElem?_map, hi', Option.map_some]
    obtain rfl : index = index' :=
      (List.getElem?_inj (List.getElem?_eq_some_iff.mp hkey).1 hn).mp (hkey.trans hkey'.symm)
    cases hi.symm.trans hi'
    obtain ⟨rfl, rfl⟩ := hl.unique hl'
    exact .inl rfl
  · exact .inr he

theorem isPrefix_steps_of_mem_sites (hm : site ∈ h.sites here) :
    here.steps <+: site.position.steps ∧ site.position.steps <+: (h.beyond here).steps := by
  unfold sites at hm
  unfold beyond
  split at hm
  · rcases List.mem_pair.mp hm with rfl | rfl
    · exact ⟨List.prefix_rfl, List.prefix_append _ _⟩
    · exact ⟨List.prefix_append _ _, List.prefix_rfl⟩
  · cases List.mem_singleton.mp hm
    exact ⟨List.prefix_rfl, List.prefix_rfl⟩

theorem isPrefix_steps_beyond (h : Hop) (here : Position) :
    here.steps <+: (h.beyond here).steps := by
  unfold beyond
  split
  · exact List.prefix_append _ _
  · exact List.prefix_rfl

theorem pairwise_sites (h : Hop) (here : Position) :
    (h.sites here).Pairwise fun a b => Unambiguous a.position.steps b.position.steps := by
  unfold sites
  split
  · apply List.pairwise_pair.mpr
    apply Unambiguous.of_isPrefix (List.prefix_append _ _)
    simp
  · exact List.pairwise_singleton _ _

end Hop

section Walks

variable {s : Schema} {pos : Position} {site : Site} {h h' : Hop} {w w' : List Hop}

theorem isPrefix_of_mem_sitesAlong (hm : site ∈ sitesAlong pos (h :: w)) :
    pos.steps ++ [.property h.name] <+: site.position.steps := by
  induction w generalizing pos h with
  | nil => exact (Hop.isPrefix_steps_of_mem_sites hm).1
  | cons h' w ih =>
    have hbeyond : pos.steps ++ [.property h.name] <+: (h.beyond (pos.property h.name)).steps :=
      h.isPrefix_steps_beyond (pos.property h.name)
    exact (hbeyond.trans (List.prefix_append _ _)).trans (ih hm)

theorem partAt_of_name_ne {site' : Site} (hne : h.name ≠ h'.name)
    (hm : site ∈ sitesAlong pos (h :: w)) (hm' : site' ∈ sitesAlong pos (h' :: w')) :
    PartAt site.position.steps site'.position.steps (.property h.name) (.property h'.name) := by
  obtain ⟨rest, hrest⟩ := isPrefix_of_mem_sitesAlong hm
  obtain ⟨rest', hrest'⟩ := isPrefix_of_mem_sitesAlong hm'
  refine ⟨fun he => hne (TrailStep.property.inj he), pos.steps, rest, rest', ?_, ?_⟩
  · rw [← hrest, List.append_assoc, List.singleton_append]
  · rw [← hrest', List.append_assoc, List.singleton_append]

/-- A walk that ends earlier gives trails from which those of its continuations go on. -/
theorem unambiguous_of_continuation {site' : Site} (hw : w ≠ []) (hm : site ∈ sitesAlong pos [h])
    (hm' : site' ∈ sitesAlong pos (h :: w)) :
    Unambiguous site.position.steps site'.position.steps := by
  obtain ⟨h', w, rfl⟩ := List.exists_cons_of_ne_nil hw
  have hsite := (Hop.isPrefix_steps_of_mem_sites hm).2
  have hsite' := isPrefix_of_mem_sitesAlong (h := h') hm'
  apply Unambiguous.of_isPrefix ((hsite.trans (List.prefix_append _ _)).trans hsite')
  have hle := hsite.length_le
  have hlt := hsite'.length_le
  rw [List.length_append, List.length_singleton] at hlt
  omega

theorem ResourceWalk.ne_nil (hw : ResourceWalk s w) : w ≠ [] := by
  obtain ⟨h, v, rfl, -⟩ := resourceWalk_iff.mp hw
  exact List.cons_ne_nil h v

/-- Walks that take the same property go on from the same node, and so on up to where they part. -/
theorem unambiguous_of_walks (hs : s.WellFormed) (hw : ResourceWalk s w) (hw' : ResourceWalk s w')
    (hne : w ≠ w') : ∀ site ∈ sitesAlong pos w, ∀ site' ∈ sitesAlong pos w',
      Unambiguous site.position.steps site'.position.steps := by
  induction w generalizing s pos w' with
  | nil => cases hw
  | cons h w ih =>
    rintro site hm site' hm'
    obtain ⟨_, _, ⟨⟩, hf, hw⟩ := resourceWalk_iff.mp hw
    obtain ⟨h', w', rfl, hf', hw'⟩ := resourceWalk_iff.mp hw'
    rcases hf.eq_or_name_ne hs hf' with rfl | hname
    · have hrest : w ≠ w' := fun he => hne (he ▸ rfl)
      rcases hw with ⟨rfl, -⟩ | hw
      · exact unambiguous_of_continuation hrest.symm hm hm'
      · rcases hw' with ⟨rfl, -⟩ | hw'
        · exact (unambiguous_of_continuation hrest hm' hm).symm
        · rw [sitesAlong_cons hw.ne_nil] at hm
          rw [sitesAlong_cons hw'.ne_nil] at hm'
          exact ih (hf.wellFormed hs) hw hw' hrest site hm site' hm'
    · exact .of_partAt (partAt_of_name_ne hname hm hm')

theorem pairwise_sitesAlong (pos : Position) (w : List Hop) :
    (sitesAlong pos w).Pairwise fun a b => Unambiguous a.position.steps b.position.steps := by
  induction w generalizing pos with
  | nil => exact .nil
  | cons h w ih =>
    cases w with
    | nil => exact h.pairwise_sites _
    | cons h' w => exact ih _

theorem Site.pairwise_all (hs : s.WellFormed) :
    (Site.all s).Pairwise fun a b => Unambiguous a.position.steps b.position.steps := by
  obtain ⟨r, hr⟩ := exists_resources s
  rw [hr, Resources.sites, List.pairwise_flatMap]
  constructor
  · exact fun w _ => pairwise_sitesAlong _ w
  · refine r.sorted.imp_of_mem fun {w w'} hw hw' hbefore => ?_
    have hne : w ≠ w' := by
      rintro rfl
      exact not_before_of_before hbefore hbefore
    exact unambiguous_of_walks hs ((r.mem_iff w).mp hw) ((r.mem_iff w').mp hw') hne

end Walks

/-- Of any two endpoints of a compiled schema, the trails differ; one goes on from the other, or
they first differ in two properties. So a property and a parameter never stand in the same place,
and neither do two parameters. -/
theorem Api.pairwise_unambiguous {schema : Schema} {dispatcher baseUrl : String} {api : Api}
    (hs : schema.WellFormed) (h : ofSchema schema dispatcher baseUrl = .ok api) :
    api.endpoints.Pairwise fun e e' => Unambiguous e.trail e'.trail ∧
      ∀ step step', PartAt e.trail e'.trail step step' →
        ∃ name name', step = .property name ∧ step' = .property name' := by
  obtain ⟨-, -, rfl⟩ := mount_eq_ok_iff.mp h
  apply List.pairwise_map.mpr
  apply (Site.pairwise_all hs).imp
  rintro site site' hu
  exact ⟨hu, fun _ _ hp => hu.properties_of_partAt hp⟩

/-- Books with notes, and a reader with notes. What the array says of properties leads nowhere. -/
def Schema.bookshop : Schema :=
  let resource (id : String) (rest : Members) : Json :=
    .obj ([("$id", .str id), ("title", .str id), (Schema.controllerKey, .str "c"),
      (Schema.seedKey, .str "\x7b\x7d")] ++ rest)
  let note : Json := resource "note" [("type", .str "object")]
  .obj [("properties", .obj [
    ("books", .obj [("type", .str "array"), ("properties", .obj [("notes", note)]),
      ("items", resource "book" [("properties", .obj [("notes", note)])])]),
    ("reader", resource "reader" [("type", .str "object")])])]

theorem Api.pairwise_unambiguous_bookshop : Schema.bookshop.WellFormed ∧
    ∃ api, ofSchema Schema.bookshop "main" "" = .ok api ∧
      api.endpoints.map Endpoint.trail = [[.property "books"],
        [.property "books", .item "pathParam0"],
        [.property "books", .item "pathParam0", .property "notes"], [.property "reader"]] ∧
      api.endpoints.Pairwise fun e e' => Unambiguous e.trail e'.trail ∧
        ∀ step step', PartAt e.trail e'.trail step step' →
          ∃ name name', step = .property name ∧ step' = .property name' := by
  have hs : Schema.bookshop.WellFormed := by
    simp [Schema.bookshop, Json.WellFormed, Json.WellFormedMembers, Schema.controllerKey,
      Schema.seedKey]
  have hrun : (ofSchema Schema.bookshop "main" "").map (fun api =>
      api.endpoints.map Endpoint.trail) = .ok [[.property "books"],
        [.property "books", .item "pathParam0"],
        [.property "books", .item "pathParam0", .property "notes"], [.property "reader"]] := by
    decide +kernel
  obtain ⟨api, hok, htrails⟩ := map_eq_ok_iff.mp hrun
  exact ⟨hs, api, hok, htrails, pairwise_unambiguous hs hok⟩

end SchemaRoutes
