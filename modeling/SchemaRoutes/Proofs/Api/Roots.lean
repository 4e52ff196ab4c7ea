import SchemaRoutes.Proofs.Api.Catalog

/-! # Several roots

A root that is compiled behind others looks only at the URLs and the catalog names in use, and it
only appends. So it is compiled as if it were alone, and roots compile together exactly if each
compiles alone and no two of them take the same URL or name.
-/

namespace SchemaRoutes

theorem fresh_iff (new old : List String) : Fresh new old ↔ Fresh new [] ∧ old.Disjoint new := by
  constructor
  · rintro ⟨hn, ho⟩
    exact ⟨⟨hn, fun _ _ => List.not_mem_nil⟩, fun x hx hx' => ho x hx' hx⟩
  · rintro ⟨⟨hn, -⟩, hd⟩
    exact ⟨hn, fun x hx hx' => hd hx' hx⟩

theorem exists_forall₂_of_perm {α β : Type} {r : α → β → Prop} {xs xs' : List α} {ys : List β}
    (hp : xs.Perm xs') (h : List.Forall₂ r xs ys) :
    ∃ ys', List.Forall₂ r xs' ys' ∧ (xs.zip ys).Perm (xs'.zip ys') := by
  induction hp generalizing ys with
  | nil => exact ⟨ys, h, .refl _⟩
  | cons x _ ih =>
    obtain ⟨y, ys, hy, hys, rfl⟩ := List.forall₂_cons_left_iff.mp h
    obtain ⟨ys', hys', hp⟩ := ih hys
    exact ⟨y :: ys', .cons hy hys', hp.cons _⟩
  | swap x x' xs =>
    obtain ⟨y', _, hy', hrest, rfl⟩ := List.forall₂_cons_left_iff.mp h
    obtain ⟨y, ys, hy, hys, rfl⟩ := List.forall₂_cons_left_iff.mp hrest
    exact ⟨y :: y' :: ys, .cons hy (.cons hy' hys), .swap _ _ _⟩
  | trans _ _ ih ih' =>
    obtain ⟨ys', h', hp⟩ := ih h
    obtain ⟨ys'', h'', hp'⟩ := ih' h'
    exact ⟨ys'', h'', hp.trans hp'⟩

theorem perm_of_zip_perm {α β : Type} {r : α → β → Prop} {xs xs' : List α} {ys ys' : List β}
    (h : List.Forall₂ r xs ys) (h' : List.Forall₂ r xs' ys')
    (hp : (xs.zip ys).Perm (xs'.zip ys')) : ys.Perm ys' := by
  have hm := hp.map Prod.snd
  rwa [List.map_snd_zip h.length_eq.ge, List.map_snd_zip h'.length_eq.ge] at hm

/-- What the root comes to when nothing else is compiled. -/
def Root.Alone (dispatcher : String) (root : Root) (part : Api) : Prop :=
  Api.ofSchema root.schema dispatcher root.baseUrl = .ok part

/-- The endpoint serves a resource of the root, which is at the end of a walk. -/
structure Endpoint.BelongsTo (e : Endpoint) (root : Root) (hop : Hop) : Prop where
  walk : ∃ w, ResourceWalk root.schema (w ++ [hop])
  serves : ∃ before : Position, ∃ site ∈ hop.sites (before.property hop.name),
    e.Serves ⟨root.baseUrl⟩ site

def Root.folders (baseUrl : String) : Root := ⟨Schema.folders, baseUrl⟩

namespace Api

structure Apart (api api' : Api) : Prop where
  urls : api.urls.Disjoint api'.urls
  names : api.catalog.keys.Disjoint api'.catalog.keys

def append (api part : Api) : Api where
  dispatcher := api.dispatcher
  endpoints := api.endpoints ++ part.endpoints
  catalog := api.catalog ++ part.catalog

def joined (dispatcher : String) (parts : List Api) : Api where
  dispatcher
  endpoints := parts.flatMap Api.endpoints
  catalog := parts.flatMap Api.catalog

variable {api api' part q : Api} {dispatcher baseUrl : String} {schema : Schema} {m : Mount}
  {sites : List Site} {roots : Roots}

theorem urls_extend : (api.extend m sites).urls = api.urls ++ sites.map (Site.url m) := by
  simp only [urls, extend, List.map_append, List.map_map]
  rfl

theorem keys_extend :
    (api.extend m sites).catalog.keys = api.catalog.keys ++ (Site.catalog m sites).keys := by
  rw [extend, Members.keys_append]

theorem append_extend_empty :
    api.append ((empty api.dispatcher).extend m sites) = api.extend m sites := by
  simp only [append, extend, empty, List.nil_append]

theorem Apart.symm (h : api.Apart part) : part.Apart api where
  urls := List.disjoint_symm h.urls
  names := List.disjoint_symm h.names

theorem empty_apart (dispatcher : String) (part : Api) : (empty dispatcher).Apart part where
  urls := List.disjoint_nil_left _
  names := List.disjoint_nil_left _

theorem append_apart_iff : (api.append part).Apart q ↔ api.Apart q ∧ part.Apart q := by
  have hu : (api.append part).urls = api.urls ++ part.urls := List.map_append
  have hn : (api.append part).catalog.keys = api.catalog.keys ++ part.catalog.keys :=
    Members.keys_append
  constructor
  · rintro ⟨u, n⟩
    rw [hu, List.disjoint_append_left] at u
    rw [hn, List.disjoint_append_left] at n
    exact ⟨⟨u.1, n.1⟩, ⟨u.2, n.2⟩⟩
  · rintro ⟨h, h'⟩
    refine ⟨?_, ?_⟩
    · rw [hu, List.disjoint_append_left]
      exact ⟨h.urls, h'.urls⟩
    · rw [hn, List.disjoint_append_left]
      exact ⟨h.names, h'.names⟩

theorem append_joined_nil (api : Api) : api.append (joined dispatcher []) = api := by
  simp only [append, joined, List.flatMap_nil, List.append_nil]

theorem append_joined_cons {parts : List Api} :
    api.append (joined dispatcher (part :: parts)) =
      (api.append part).append (joined dispatcher parts) := by
  simp only [append, joined, List.flatMap_cons, List.append_assoc]

theorem empty_append_joined {parts : List Api} :
    (empty dispatcher).append (joined dispatcher parts) = joined dispatcher parts := by
  simp only [append, empty, joined, List.nil_append]

/-- A root alone: its resources are complete and take no URL and no name twice. -/
theorem ofSchema_eq_ok_iff :
    ofSchema schema dispatcher baseUrl = .ok part ↔
      schema.IsRoot ∧ (∀ site ∈ Site.all schema, site.schema.IsComplete) ∧
        Fresh ((Site.all schema).map (Site.url ⟨baseUrl⟩)) [] ∧
        Fresh (Site.catalog ⟨baseUrl⟩ (Site.all schema)).keys [] ∧
        part = (empty dispatcher).extend ⟨baseUrl⟩ (Site.all schema) := by
  rw [ofSchema, mount_eq_ok_iff, Obligation.forall_ofSites_iff]
  simp only [taken, urls, empty, List.map_nil, Members.keys_nil, and_assoc]

/-- What is there decides only whether a URL or a name is in use; what is added is the same as
without it. -/
theorem mount_eq_ok_iff_apart :
    api.mount schema baseUrl = .ok api' ↔
      ∃ part, ofSchema schema api.dispatcher baseUrl = .ok part ∧ api.Apart part ∧
        api' = api.append part := by
  have hu : ((empty api.dispatcher).extend ⟨baseUrl⟩ (Site.all schema)).urls =
      (Site.all schema).map (Site.url ⟨baseUrl⟩) := urls_extend
  have hn : ((empty api.dispatcher).extend ⟨baseUrl⟩ (Site.all schema)).catalog.keys =
      (Site.catalog ⟨baseUrl⟩ (Site.all schema)).keys := keys_extend
  rw [mount_eq_ok_iff, Obligation.forall_ofSites_iff, fresh_iff,
    fresh_iff (Site.catalog _ _).keys]
  constructor
  · rintro ⟨hroot, ⟨hc, ⟨hfu, hdu⟩, hfn, hdn⟩, rfl⟩
    refine ⟨_, ofSchema_eq_ok_iff.mpr ⟨hroot, hc, hfu, hfn, rfl⟩, ⟨?_, ?_⟩, ?_⟩
    · rwa [hu]
    · rwa [hn]
    · rw [append_extend_empty]
  · rintro ⟨part, h, ⟨hdu, hdn⟩, rfl⟩
    obtain ⟨hroot, hc, hfu, hfn, rfl⟩ := ofSchema_eq_ok_iff.mp h
    rw [hu] at hdu
    rw [hn] at hdn
    exact ⟨hroot, ⟨hc, ⟨hfu, hdu⟩, hfn, hdn⟩, append_extend_empty⟩

theorem foldlM_mount_eq_ok_iff :
    roots.foldlM (fun (api : Api) root => api.mount root.schema root.baseUrl) api = .ok api' ↔
      ∃ parts, List.Forall₂ (Root.Alone api.dispatcher) roots parts ∧
        (∀ part ∈ parts, api.Apart part) ∧ parts.Pairwise Apart ∧
        api' = api.append (joined api.dispatcher parts) := by
  induction roots generalizing api with
  | nil =>
    constructor
    · intro h
      obtain rfl : api = api' := Except.ok.inj h
      exact ⟨[], .nil, nofun, .nil, (append_joined_nil api).symm⟩
    · rintro ⟨parts, hp, -, -, rfl⟩
      cases hp
      rw [append_joined_nil]
      rfl
  | cons root roots ih =>
    rw [List.foldlM_cons, bind_eq_ok_iff]
    constructor
    · rintro ⟨next, hm, h⟩
      obtain ⟨part, hp, ha, rfl⟩ := mount_eq_ok_iff_apart.mp hm
      obtain ⟨parts, hps, hapart, hpair, rfl⟩ := ih.mp h
      have hboth := fun q hq => append_apart_iff.mp (hapart q hq)
      refine ⟨part :: parts, .cons hp hps, ?_, ?_, append_joined_cons.symm⟩
      · exact List.forall_mem_cons.mpr ⟨ha, fun q hq => (hboth q hq).1⟩
      · exact List.pairwise_cons.mpr ⟨fun q hq => (hboth q hq).2, hpair⟩
    · rintro ⟨_, halone, hapart, hpair, rfl⟩
      obtain ⟨part, parts, hp, hps, rfl⟩ := List.forall₂_cons_left_iff.mp halone
      obtain ⟨ha, hapart⟩ := List.forall_mem_cons.mp hapart
      obtain ⟨hpart, hpair⟩ := List.pairwise_cons.mp hpair
      refine ⟨_, mount_eq_ok_iff_apart.mpr ⟨part, hp, ha, rfl⟩, ih.mpr ⟨parts, hps, ?_, hpair, ?_⟩⟩
      · intro q hq
        exact append_apart_iff.mpr ⟨hapart q hq, hpart q hq⟩
      · exact append_joined_cons

theorem ofRoots_eq_ok_iff :
    ofRoots dispatcher roots = .ok api ↔
      ∃ parts, List.Forall₂ (Root.Alone dispatcher) roots parts ∧ parts.Pairwise Apart ∧
        api = joined dispatcher parts := by
  rw [ofRoots, foldlM_mount_eq_ok_iff]
  constructor
  · rintro ⟨parts, hp, -, hpair, rfl⟩
    exact ⟨parts, hp, hpair, empty_append_joined⟩
  · rintro ⟨parts, hp, hpair, rfl⟩
    exact ⟨parts, hp, fun part _ => empty_apart dispatcher part, hpair, empty_append_joined.symm⟩

theorem ofRoots_perm {roots' : Roots} (hp : roots.Perm roots')
    (h : ofRoots dispatcher roots = .ok api) :
    ∃ parts parts', List.Forall₂ (Root.Alone dispatcher) roots parts ∧
      List.Forall₂ (Root.Alone dispatcher) roots' parts' ∧
      (roots.zip parts).Perm (roots'.zip parts') ∧ api = joined dispatcher parts ∧
      ofRoots dispatcher roots' = .ok (joined dispatcher parts') := by
  obtain ⟨parts, halone, hpair, rfl⟩ := ofRoots_eq_ok_iff.mp h
  obtain ⟨parts', halone', hzip⟩ := exists_forall₂_of_perm hp halone
  have hperm : parts.Perm parts' := perm_of_zip_perm halone halone' hzip
  have hpair' : parts'.Pairwise Apart := hperm.pairwise hpair fun ha => ha.symm
  exact ⟨parts, parts', halone, halone', hzip, rfl,
    ofRoots_eq_ok_iff.mpr ⟨parts', halone', hpair', rfl⟩⟩

/-- Roots compile together exactly if each compiles alone and no two of the results have a URL or a
name in common; then the results stand one behind the other. So another order of the roots compiles
as well or fails as well, and has the same results in that order. -/
theorem ofRoots_outcome (dispatcher : String) (roots : Roots) :
    (∀ api, ofRoots dispatcher roots = .ok api ↔
      ∃ parts, List.Forall₂ (Root.Alone dispatcher) roots parts ∧ parts.Pairwise Apart ∧
        api = joined dispatcher parts) ∧
    ∀ roots' : Roots, roots.Perm roots' →
      ((∃ api, ofRoots dispatcher roots = .ok api) ↔
        ∃ api', ofRoots dispatcher roots' = .ok api') ∧
      ∀ api, ofRoots dispatcher roots = .ok api →
        ∃ parts parts', List.Forall₂ (Root.Alone dispatcher) roots parts ∧
          List.Forall₂ (Root.Alone dispatcher) roots' parts' ∧
          (roots.zip parts).Perm (roots'.zip parts') ∧ api = joined dispatcher parts ∧
          ofRoots dispatcher roots' = .ok (joined dispatcher parts') := by
  refine ⟨fun api => ofRoots_eq_ok_iff, fun roots' hp => ⟨?_, fun api h => ofRoots_perm hp h⟩⟩
  constructor
  · rintro ⟨api, h⟩
    obtain ⟨_, _, _, _, _, _, h'⟩ := ofRoots_perm hp h
    exact ⟨_, h'⟩
  · rintro ⟨api', h'⟩
    obtain ⟨_, _, _, _, _, _, h⟩ := ofRoots_perm hp.symm h'
    exact ⟨_, h⟩

theorem ofRoots_folders_twice : ∃ api parts parts',
    ofRoots "main" [.folders "/v1", .folders "/v2"] = .ok api ∧ api.catalog.keys =
      [".v1::Note", ".v2::Note"] ∧
    List.Forall₂ (Root.Alone "main") [.folders "/v1", .folders "/v2"] parts ∧
    List.Forall₂ (Root.Alone "main") [.folders "/v2", .folders "/v1"] parts' ∧
    api = joined "main" parts ∧
    ofRoots "main" [.folders "/v2", .folders "/v1"] = .ok (joined "main" parts') := by
  have hkeys : (ofRoots "main" [.folders "/v1", .folders "/v2"]).map (fun api => api.catalog.keys) =
      .ok [".v1::Note", ".v2::Note"] := by decide +kernel
  obtain ⟨api, h, hkeys⟩ := map_eq_ok_iff.mp hkeys
  obtain ⟨-, hperm⟩ := ofRoots_outcome "main" [.folders "/v1", .folders "/v2"]
  obtain ⟨-, hparts⟩ := hperm [.folders "/v2", .folders "/v1"] (.swap _ _ _)
  obtain ⟨parts, parts', halone, halone', -, he, h'⟩ := hparts api h
  exact ⟨api, parts, parts', h, hkeys, halone, halone', he, h'⟩

/-! ## The resources of the roots -/

theorem exists_alone_of_mem {parts : List Api}
    (h : List.Forall₂ (Root.Alone dispatcher) roots parts) :
    (∀ root ∈ roots, ∃ part ∈ parts, root.Alone dispatcher part) ∧
      ∀ part ∈ parts, ∃ root ∈ roots, root.Alone dispatcher part := by
  induction h with
  | nil => exact ⟨nofun, nofun⟩
  | cons hp _ ih =>
    obtain ⟨ihl, ihr⟩ := ih
    refine ⟨List.forall_mem_cons.mpr ⟨⟨_, .head _, hp⟩, fun root hr => ?_⟩,
      List.forall_mem_cons.mpr ⟨⟨_, .head _, hp⟩, fun part hr => ?_⟩⟩
    · obtain ⟨part, hm, ha⟩ := ihl root hr
      exact ⟨part, .tail _ hm, ha⟩
    · obtain ⟨root, hm, ha⟩ := ihr part hr
      exact ⟨root, .tail _ hm, ha⟩

theorem exists_root_of_mem_endpoints {e : Endpoint} (h : ofRoots dispatcher roots = .ok api)
    (he : e ∈ api.endpoints) :
    ∃ root ∈ roots, ∃ site ∈ Site.all root.schema, site.schema.IsComplete ∧
      e = site.endpoint ⟨root.baseUrl⟩ dispatcher := by
  obtain ⟨parts, halone, -, rfl⟩ := ofRoots_eq_ok_iff.mp h
  obtain ⟨part, hpart, he⟩ := List.mem_flatMap.mp he
  obtain ⟨root, hroot, ha⟩ := (exists_alone_of_mem halone).2 part hpart
  obtain ⟨-, hc, -, -, rfl⟩ := ofSchema_eq_ok_iff.mp ha
  obtain ⟨site, hs, rfl⟩ := List.mem_map.mp he
  exact ⟨root, hroot, site, hs, hc site hs, rfl⟩

/-- All sites of a resource stand behind the property that leads to it. -/
theorem exists_sites_of_resource {w : List Hop} {hop : Hop}
    (hw : ResourceWalk schema (w ++ [hop])) :
    ∃ before : Position, ∀ site ∈ hop.sites (before.property hop.name), site ∈ Site.all schema := by
  obtain ⟨r, hr⟩ := exists_resources schema
  obtain ⟨before, he⟩ := exists_sitesAlong_eq .root w hop
  refine ⟨before, fun site hs => ?_⟩
  rw [hr]
  exact List.mem_flatMap.mpr ⟨_, (r.mem_iff _).mpr hw, he ▸ hs⟩

section Resource

variable {root : Root} {w : List Hop} {hop : Hop} (h : ofRoots dispatcher roots = .ok api)
  (hroot : root ∈ roots) (hw : ResourceWalk root.schema (w ++ [hop]))

include h hroot hw

theorem exists_endpoint_of_resource :
    ∃ e ∈ api.endpoints, ∃ before : Position,
      e.Serves ⟨root.baseUrl⟩ ⟨before.property hop.name, hop.kind, hop.node⟩ := by
  obtain ⟨parts, halone, -, rfl⟩ := ofRoots_eq_ok_iff.mp h
  obtain ⟨part, hpart, ha⟩ := (exists_alone_of_mem halone).1 root hroot
  obtain ⟨-, hc, -, -, rfl⟩ := ofSchema_eq_ok_iff.mp ha
  obtain ⟨before, hsites⟩ := exists_sites_of_resource hw
  have hs : ⟨before.property hop.name, hop.kind, hop.node⟩ ∈ Site.all root.schema := by
    apply hsites
    unfold Hop.sites
    split <;> simp_all
  refine ⟨_, List.mem_flatMap.mpr ⟨_, hpart, List.mem_map_of_mem hs⟩, before, ?_⟩
  exact Site.serves_endpoint (hc _ hs) (Position.template_property_ne _ _)

theorem entry?_of_resource :
    ∃ title, hop.node.get? "title" = some (.str title) ∧
      api.entry? (Mount.qualify ⟨root.baseUrl⟩ title) = some hop.node.catalogEntry := by
  obtain ⟨parts, halone, -, rfl⟩ := ofRoots_eq_ok_iff.mp h
  obtain ⟨part, hpart, ha⟩ := (exists_alone_of_mem halone).1 root hroot
  obtain ⟨-, hc, -, -, rfl⟩ := ofSchema_eq_ok_iff.mp ha
  obtain ⟨before, hsites⟩ := exists_sites_of_resource hw
  obtain ⟨pos, hs⟩ : ∃ pos, (⟨pos, .item, hop.node⟩ : Site) ∈ Site.all root.schema := by
    obtain ⟨index, name, kind, node⟩ := hop
    cases kind with
    | collection => exact ⟨_, hsites _ (.tail _ (.head _))⟩
    | item => exact ⟨_, hsites _ (.head _)⟩
  obtain ⟨-, ⟨title, ht⟩, -⟩ := hc _ hs
  refine ⟨title, ht, Members.get?_of_mem (ofRoots_coherent h).names ?_⟩
  refine List.mem_flatMap.mpr ⟨_, hpart, List.mem_flatMap.mpr ⟨_, hs, ?_⟩⟩
  have hn : Schema.title? hop.node = some title := Schema.title?_eq_some_iff.mpr ht
  simp [Site.entries, Site.entryName, hn]

end Resource

theorem exists_hop_of_mem_endpoints {e : Endpoint} (h : ofRoots dispatcher roots = .ok api)
    (he : e ∈ api.endpoints) :
    ∃ root ∈ roots, ∃ hop, ∃ site : Site, e.BelongsTo root hop ∧ site.schema = hop.node ∧
      hop.node.IsComplete ∧ e = site.endpoint ⟨root.baseUrl⟩ dispatcher := by
  obtain ⟨root, hroot, site, hs, hc, rfl⟩ := exists_root_of_mem_endpoints h he
  obtain ⟨r, hr⟩ := exists_resources root.schema
  rw [hr] at hs
  obtain ⟨w, hop, before, hw, hs⟩ := r.exists_walk_of_mem_sites hs
  have hserves : (site.endpoint ⟨root.baseUrl⟩ dispatcher).Serves ⟨root.baseUrl⟩ site :=
    Site.serves_endpoint hc (Hop.template_ne_of_mem_sites hs)
  have hnode := Hop.schema_of_mem_sites hs
  exact ⟨root, hroot, hop, site, ⟨⟨w, hw⟩, before, site, hs, hserves⟩, hnode, hnode ▸ hc, rfl⟩

theorem exists_resource_of_mem_endpoints {e : Endpoint} (h : ofRoots dispatcher roots = .ok api)
    (he : e ∈ api.endpoints) :
    ∃ root ∈ roots, ∃ hop title, e.BelongsTo root hop ∧
      hop.node.get? "title" = some (.str title) ∧
      e.RefersTo (Mount.qualify ⟨root.baseUrl⟩ title) ∧
      api.entry? (Mount.qualify ⟨root.baseUrl⟩ title) = some hop.node.catalogEntry := by
  obtain ⟨root, hroot, hop, site, hbelongs, hnode, -, rfl⟩ := exists_hop_of_mem_endpoints h he
  obtain ⟨w, hw⟩ := hbelongs.walk
  obtain ⟨title, ht, hentry⟩ := entry?_of_resource h hroot hw
  have hname : site.entryName ⟨root.baseUrl⟩ = Mount.qualify ⟨root.baseUrl⟩ title := by
    rw [Site.entryName, hnode, Schema.title?_eq_some_iff.mpr ht]
    rfl
  exact ⟨root, hroot, hop, title, hbelongs, ht, hname ▸ Site.refersTo_endpoint site, hentry⟩

end Api

end SchemaRoutes
