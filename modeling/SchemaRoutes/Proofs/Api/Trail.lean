import SchemaRoutes.Proofs.Api.Outcome
import SchemaRoutes.Proofs.Text.Numeral

/-! # Trails and templates

A template writes out a trail, with a slash in front of every step. This is so at the root, and
each step that a walk takes adds the same to both, so it is so at every site and at every endpoint.
-/

namespace SchemaRoutes

def TrailStep.text : TrailStep → String
  | property name => name
  | item parameter => braced parameter

/-- The template writes out the trail, and the trail asks only for declared parameters. -/
structure WritesOut (template : String) (parameters : List IdParameter) (trail : List TrailStep) :
    Prop where
  toList_template : template.toList = (trail.map fun step => step.text.toList).flatMap ('/' :: ·)
  declared : ∀ name, .item name ∈ trail → ∃ p ∈ parameters, p.name = name
  slash_not_mem : ∀ name, .item name ∈ trail → '/' ∉ name.toList

namespace IdParameter

theorem slash_not_mem_name (index : ℕ) (title : Option String) :
    '/' ∉ (nth index title).name.toList := by
  simp only [nth, String.toList_append, List.mem_append, Text.decimal, String.toList_ofList, not_or]
  exact ⟨by decide, Text.not_mem_toDigits rfl⟩

end IdParameter

namespace Position

def IsWrittenOut (pos : Position) : Prop := WritesOut pos.template pos.parameters pos.steps

variable {pos : Position}

theorem isWrittenOut_root : root.IsWrittenOut where
  toList_template := rfl
  declared := nofun
  slash_not_mem := nofun

theorem IsWrittenOut.property (h : pos.IsWrittenOut) (name : String) :
    (pos.property name).IsWrittenOut where
  toList_template := by
    simp [Position.property, h.toList_template, TrailStep.text, String.toList_append]
  declared p hp := h.declared p (by simpa [Position.property] using hp)
  slash_not_mem p hp := h.slash_not_mem p (by simpa [Position.property] using hp)

theorem IsWrittenOut.member (h : pos.IsWrittenOut) (title : Option String) :
    (pos.member title).IsWrittenOut where
  toList_template := by
    simp [Position.member, h.toList_template, TrailStep.text, IdParameter.placeholder,
      String.toList_append]
  declared p hp := by
    rcases List.mem_append.mp hp with hp | hp
    · obtain ⟨q, hq, he⟩ := h.declared p hp
      exact ⟨q, List.mem_append_left _ hq, he⟩
    · cases List.mem_singleton.mp hp
      exact ⟨_, List.mem_append_right _ (.head _), rfl⟩
  slash_not_mem p hp := by
    rcases List.mem_append.mp hp with hp | hp
    · exact h.slash_not_mem p hp
    · cases List.mem_singleton.mp hp
      exact IdParameter.slash_not_mem_name _ _

end Position

/-- What holds after a first property and is kept by the steps of walks holds at all sites. -/
theorem forall_mem_sitesAlong {p : Position → Prop}
    (property : ∀ pos name, p pos → p (pos.property name))
    (member : ∀ pos title, p pos → p (pos.member title)) {pos : Position}
    (first : ∀ name, p (pos.property name)) {w : List Hop} :
    ∀ site ∈ sitesAlong pos w, p site.position := by
  induction w generalizing pos with
  | nil => nofun
  | cons hop w ih =>
    obtain ⟨index, name, kind, node⟩ := hop
    have hn := first name
    cases w with
    | nil =>
      cases kind with
      | collection =>
        exact List.forall_mem_cons.mpr ⟨hn, List.forall_mem_singleton.mpr (member _ _ hn)⟩
      | item => exact List.forall_mem_singleton.mpr hn
    | cons hop' w =>
      cases kind with
      | collection => exact ih fun name' => property _ name' (member _ _ hn)
      | item => exact ih fun name' => property _ name' hn

theorem Site.forall_mem_all {p : Position → Prop}
    (property : ∀ pos name, p pos → p (pos.property name))
    (member : ∀ pos title, p pos → p (pos.member title))
    (first : ∀ name, p (Position.root.property name)) {schema : Schema} :
    ∀ site ∈ Site.all schema, p site.position := by
  intro site hs
  obtain ⟨r, hr⟩ := exists_resources schema
  rw [hr, Resources.sites, List.mem_flatMap] at hs
  obtain ⟨w, -, hs⟩ := hs
  exact forall_mem_sitesAlong property member first site hs

theorem Site.isWrittenOut {schema : Schema} {site : Site} (hs : site ∈ Site.all schema) :
    site.position.IsWrittenOut :=
  forall_mem_all (fun _ name h => h.property name) (fun _ title h => h.member title)
    (fun name => Position.isWrittenOut_root.property name) site hs

theorem Site.template_ne {schema : Schema} {site : Site} (hs : site ∈ Site.all schema) :
    site.position.template ≠ "" := by
  obtain ⟨r, hr⟩ := exists_resources schema
  rw [hr] at hs
  obtain ⟨_, _, _, _, hm⟩ := r.exists_walk_of_mem_sites hs
  exact Hop.template_ne_of_mem_sites hm

namespace Api

variable {schema : Schema} {dispatcher baseUrl : String} {api : Api} {e : Endpoint}

theorem exists_site_of_mem_endpoints (h : ofSchema schema dispatcher baseUrl = .ok api)
    (he : e ∈ api.endpoints) :
    ∃ site ∈ Site.all schema, e = site.endpoint ⟨baseUrl⟩ dispatcher := by
  obtain ⟨-, -, rfl⟩ := mount_eq_ok_iff.mp h
  obtain ⟨site, hs, rfl⟩ := List.mem_map.mp he
  exact ⟨site, hs, rfl⟩

theorem writesOut_of_mem_endpoints (h : ofSchema schema dispatcher baseUrl = .ok api)
    (he : e ∈ api.endpoints) : WritesOut e.template e.parameters e.trail := by
  obtain ⟨site, hs, rfl⟩ := exists_site_of_mem_endpoints h he
  have ht : site.position.template.isEmpty = false := by
    simpa [String.isEmpty_iff] using Site.template_ne hs
  simp only [Site.endpoint, ht, Bool.false_eq_true, if_false]
  exact Site.isWrittenOut hs

end Api

end SchemaRoutes
