import SchemaRoutes.Host.Install
import SchemaRoutes.Proofs.Api.Outcome

/-! # Endpoints and the catalog

Items and catalog entries correspond one to one. A collection refers to the entry of the item that
follows it, which is only there once that item has been added; so the invariant is stated of whole
resources, and an API reaches it again with every root.
-/

namespace SchemaRoutes

def Operation.refs (op : Operation) : List EntryRef :=
  (op.request.bind MessageBody.type).toList ++ op.response.type.toList

namespace Endpoint

def methods (e : Endpoint) : List String := e.operations.map fun op => op.action.httpMethod

/-- There are references, and all of them are to the entry. -/
def RefersTo (e : Endpoint) (name : String) : Prop :=
  (∃ op ∈ e.operations, op.refs ≠ []) ∧ ∀ op ∈ e.operations, ∀ ref ∈ op.refs, ref.target = name

structure IsMemberOf (e c : Endpoint) : Prop where
  kind : e.kind = .item
  url : e.url = c.url ++ "/" ++ braced ("pathParam" ++ Text.decimal c.parameters.length)
  handler : e.handler = c.handler
  seed : e.seed = c.seed
  sites : ∃ (m : Mount) (pos : Position) (s : Schema),
    c.Serves m ⟨pos, .collection, s⟩ ∧ e.Serves m ⟨pos.member s.title?, .item, s⟩

end Endpoint

/-- Endpoints beside the names of their entries, resource by resource. -/
inductive Matched : List Endpoint → List String → Prop where

  | nil : Matched [] []

  | item {e : Endpoint} {es : List Endpoint} {name : String} {names : List String} :
      e.kind = .item → e.RefersTo name → Matched es names → Matched (e :: es) (name :: names)

  | collection {c e : Endpoint} {es : List Endpoint} {name : String} {names : List String} :
      c.kind = .collection → e.IsMemberOf c → c.RefersTo name → e.RefersTo name →
      Matched es names → Matched (c :: e :: es) (name :: names)

namespace Matched

variable {es es' : List Endpoint} {names names' : List String}

theorem append (h : Matched es names) (h' : Matched es' names') :
    Matched (es ++ es') (names ++ names') := by
  induction h with
  | nil => exact h'
  | item hk hr _ ih => exact .item hk hr ih
  | collection hk he hc hr _ ih => exact .collection hk he hc hr ih

theorem forall₂_items (h : Matched es names) :
    List.Forall₂ Endpoint.RefersTo (es.filter fun e => e.kind = .item) names := by
  induction h with
  | nil => exact .nil
  | item hk hr _ ih =>
    rw [List.filter_cons_of_pos (by simpa using hk)]
    exact .cons hr ih
  | collection hk he _ hr _ ih =>
    rw [List.filter_cons_of_neg (by simp [hk]), List.filter_cons_of_pos (by simpa using he.kind)]
    exact .cons hr ih

theorem exists_refersTo (h : Matched es names) {e : Endpoint} (he : e ∈ es) :
    ∃ name ∈ names, e.RefersTo name := by
  induction h with
  | nil => cases he
  | item _ hr _ ih =>
    rcases List.mem_cons.mp he with rfl | he
    · exact ⟨_, .head _, hr⟩
    · obtain ⟨name, hn, hr⟩ := ih he
      exact ⟨name, .tail _ hn, hr⟩
  | collection _ _ hc hr _ ih =>
    rcases List.mem_cons.mp he with rfl | he
    · exact ⟨_, .head _, hc⟩
    rcases List.mem_cons.mp he with rfl | he
    · exact ⟨_, .head _, hr⟩
    · obtain ⟨name, hn, hr⟩ := ih he
      exact ⟨name, .tail _ hn, hr⟩

theorem next_of_collection (h : Matched es names) {i : ℕ} {c : Endpoint} (hi : es[i]? = some c)
    (hk : c.kind = .collection) :
    ∃ e name, es[i + 1]? = some e ∧ e.IsMemberOf c ∧ c.RefersTo name ∧ e.RefersTo name := by
  induction h generalizing i with
  | nil => cases hi
  | item hk' _ _ ih =>
    cases i with
    | zero =>
      cases hi
      cases hk.symm.trans hk'
    | succ i => exact ih hi
  | collection _ he hc hr _ ih =>
    match i with
    | 0 =>
      cases hi
      exact ⟨_, _, rfl, he, hc, hr⟩
    | 1 =>
      cases hi
      cases hk.symm.trans he.kind
    | i + 2 => exact ih hi

end Matched

namespace Site

variable {m : Mount} {dispatcher : String}

theorem refersTo_endpoint (site : Site) :
    (site.endpoint m dispatcher).RefersTo (site.entryName m) := by
  obtain ⟨pos, kind, s⟩ := site
  cases kind <;> cases hr : s.isReadOnly <;>
    simp [Endpoint.RefersTo, endpoint, operations, Operation.ofItem, Operation.ofCollection,
      Operation.make, Operation.refs, EntryRef.target, hr]

theorem nodup_methods (site : Site) : (site.endpoint m dispatcher).methods.Nodup := by
  obtain ⟨pos, kind, s⟩ := site
  cases kind <;> cases hr : s.isReadOnly <;>
    simp [Endpoint.methods, endpoint, operations, Operation.ofItem, Operation.ofCollection,
      Operation.make, ResourceAction.httpMethod, hr]

theorem isMemberOf_endpoint {pos : Position} {s : Schema} (hc : s.IsComplete)
    (ht : pos.template ≠ "") :
    (endpoint m dispatcher ⟨pos.member s.title?, .item, s⟩).IsMemberOf
      (endpoint m dispatcher ⟨pos, .collection, s⟩) where
  kind := rfl
  url := by
    rw [(serves_endpoint hc (Position.template_member_ne _ _)).url, (serves_endpoint hc ht).url]
    simp only [Position.member, IdParameter.placeholder, IdParameter.nth, endpoint,
      String.append_assoc]
  handler := rfl
  seed := rfl
  sites := ⟨m, pos, s, serves_endpoint hc ht, serves_endpoint hc (Position.template_member_ne _ _)⟩

end Site

theorem Hop.matched_sites {m : Mount} {dispatcher : String} {h : Hop} {pos : Position}
    (hc : h.node.IsComplete) (ht : pos.template ≠ "") :
    Matched ((h.sites pos).map (Site.endpoint m dispatcher))
      (Site.catalog m (h.sites pos)).keys := by
  obtain ⟨_, name, kind, node⟩ := h
  cases kind with
  | collection =>
    exact .collection rfl (Site.isMemberOf_endpoint hc ht) (Site.refersTo_endpoint _)
      (Site.refersTo_endpoint _) .nil
  | item => exact .item rfl (Site.refersTo_endpoint _) .nil

theorem Resources.matched_sites {schema : Schema} {m : Mount} {dispatcher : String}
    (r : Resources schema) (hc : ∀ w h, ResourceWalk schema (w ++ [h]) → h.node.IsComplete) :
    Matched (r.sites.map (Site.endpoint m dispatcher)) (Site.catalog m r.sites).keys := by
  have hw : ∀ w ∈ r.walks, ResourceWalk schema w := fun w => (r.mem_iff w).mp
  unfold sites
  generalize r.walks = walks at hw
  induction walks with
  | nil => exact .nil
  | cons w walks ih =>
    obtain ⟨hw, hws⟩ := List.forall_mem_cons.mp hw
    obtain ⟨v, h, rfl⟩ := hw.exists_eq_append
    obtain ⟨before, he⟩ := exists_sitesAlong_eq .root v h
    rw [List.flatMap_cons, List.map_append, Site.catalog_append, Members.keys_append, he]
    exact (Hop.matched_sites (hc v h hw) (Position.template_property_ne _ _)).append (ih hws)

namespace Api

/-- What every API keeps to that is compiled from roots. -/
structure Coherent (api : Api) : Prop where
  matched : Matched api.endpoints api.catalog.keys
  urls : api.urls.Nodup
  names : api.catalog.keys.Nodup
  methods : ∀ e ∈ api.endpoints, e.methods.Nodup

variable {api api' : Api}

theorem coherent_empty (dispatcher : String) : (empty dispatcher).Coherent :=
  ⟨.nil, .nil, .nil, nofun⟩

theorem Coherent.mount (hc : api.Coherent) {schema : Schema} {baseUrl : String}
    (h : api.mount schema baseUrl = .ok api') : api'.Coherent := by
  obtain ⟨r, hr⟩ := exists_resources schema
  obtain ⟨-, ho, rfl⟩ := mount_eq_ok_iff.mp h
  rw [hr, Obligation.forall_ofSites_iff, r.forall_mem_sites_iff] at ho
  obtain ⟨hcomplete, hu, hn⟩ := ho
  rw [hr]
  constructor
  · rw [extend, Members.keys_append]
    exact hc.matched.append (r.matched_sites hcomplete)
  · rw [extend, Api.urls, List.map_append, List.map_map]
    exact hu.nodup_append hc.urls
  · rw [extend, Members.keys_append]
    exact hn.nodup_append hc.names
  · rw [extend, List.forall_mem_append, List.forall_mem_map]
    exact ⟨hc.methods, fun site _ => site.nodup_methods⟩

theorem ofRoots_coherent {dispatcher : String} {roots : Roots}
    (h : ofRoots dispatcher roots = .ok api) : api.Coherent :=
  foldlM_induction (coherent_empty dispatcher) (fun _ _ _ hc hm => hc.mount hm) h

/-- Items and catalog entries correspond one to one and in order, every collection is followed by
the endpoint of one of its items, which refers to the same entry, and no reference is left open. -/
theorem catalog_of_endpoints {dispatcher : String} {roots : Roots}
    (h : ofRoots dispatcher roots = .ok api) :
    List.Forall₂ Endpoint.RefersTo (api.endpoints.filter fun e => e.kind = .item)
        api.catalog.keys ∧
      api.catalog.keys.Nodup ∧
      (∀ i c, api.endpoints[i]? = some c → c.kind = .collection →
        ∃ e name, api.endpoints[i + 1]? = some e ∧ e.IsMemberOf c ∧
          c.RefersTo name ∧ e.RefersTo name) ∧
      ∀ e ∈ api.endpoints, ∀ op ∈ e.operations, ∀ ref ∈ op.refs,
        ref.target ∈ api.catalog.keys := by
  have hc := ofRoots_coherent h
  refine ⟨hc.matched.forall₂_items, hc.names, fun i c => hc.matched.next_of_collection, ?_⟩
  intro e he op hop ref href
  obtain ⟨name, hn, -, hr⟩ := hc.matched.exists_refersTo he
  exact hr op hop ref href ▸ hn

theorem catalog_of_folders : ∃ api, ofRoots "main" [⟨Schema.folders, "/v1"⟩] = .ok api ∧
    List.Forall₂ Endpoint.RefersTo (api.endpoints.filter fun e => e.kind = .item)
        api.catalog.keys ∧
      api.catalog.keys.Nodup ∧
      (∀ i c, api.endpoints[i]? = some c → c.kind = .collection →
        ∃ e name, api.endpoints[i + 1]? = some e ∧ e.IsMemberOf c ∧
          c.RefersTo name ∧ e.RefersTo name) ∧
      ∀ e ∈ api.endpoints, ∀ op ∈ e.operations, ∀ ref ∈ op.refs,
        ref.target ∈ api.catalog.keys := by
  obtain ⟨api, h⟩ : ∃ api, ofRoots "main" [⟨Schema.folders, "/v1"⟩] = .ok api := ⟨_, rfl⟩
  exact ⟨api, h, catalog_of_endpoints h⟩

end Api

end SchemaRoutes
