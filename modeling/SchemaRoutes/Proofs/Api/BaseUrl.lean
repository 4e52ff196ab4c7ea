import SchemaRoutes.Proofs.Api.Trail

/-! # Other base URLs

The base URL of a root stands in front of all its URLs and, with points for slashes, in front of
all its catalog names. Both changes keep what is different different, so every check of every site
comes out as it does without a base URL, and each step of the compilation does the same.
-/

namespace SchemaRoutes

/-! ## What a base URL changes -/

/-- The catalog name under the base URL of what has a name without it. -/
def Mount.renamed (m : Mount) (name : String) : String :=
  if m.baseUrl = "" then name else m.baseUrl.map dotted ++ "::" ++ name

def EntryRef.moved (m : Mount) : EntryRef → EntryRef
  | one name => .one (m.renamed name)
  | listOf name => .listOf (m.renamed name)

def MessageBody.moved (m : Mount) (body : MessageBody) : MessageBody :=
  { body with type := body.type.map (EntryRef.moved m) }

def Operation.moved (m : Mount) (url : String) (op : Operation) : Operation :=
  { op with
    id := op.action.name ++ " " ++ url
    request := op.request.map (MessageBody.moved m)
    response := op.response.moved m }

def Endpoint.moved (m : Mount) (e : Endpoint) : Endpoint :=
  { e with
    url := m.baseUrl ++ e.url
    baseUrl := m.baseUrl
    operations := e.operations.map (Operation.moved m (m.baseUrl ++ e.url)) }

/-- The API of a root without a base URL when it is given one. -/
def Api.moved (m : Mount) (api : Api) : Api where
  dispatcher := api.dispatcher
  endpoints := api.endpoints.map (Endpoint.moved m)
  catalog := api.catalog.map fun entry => (m.renamed entry.1, entry.2)

def CompileError.moved (m : Mount) : CompileError → CompileError
  | nameTaken name => .nameTaken (m.renamed name)
  | urlTaken url title => .urlTaken (m.baseUrl ++ url) title
  | e => e

/-- The compilation of some sites gets as far as the one with the number, and stops there. -/
def Api.StopsAt (m : Mount) (dispatcher : String) (sites : List Site) (n : ℕ) (e : CompileError) :
    Prop :=
  ∃ site reached, sites[n]? = some site ∧
    (sites.take n).foldlM (Api.addSite m) (Api.empty dispatcher) = .ok reached ∧
    Api.addSite m reached site = .error e

/-! ## Names and URLs -/

namespace Mount

variable {m : Mount}

theorem qualify_eq_renamed (m : Mount) (title : String) : m.qualify title = m.renamed title := by
  simp only [qualify, renamed, scope, String.isEmpty_iff, String.map_eq_empty]

theorem qualify_none (title : String) : Mount.qualify ⟨""⟩ title = title := by
  rw [qualify_eq_renamed, renamed, if_pos rfl]

theorem renamed_injective (m : Mount) : Function.Injective m.renamed := by
  intro name name' h
  unfold renamed at h
  split at h
  · exact h
  · exact (String.append_right_inj _).mp h

end Mount

namespace Site

variable {m : Mount} {site : Site}

theorem entryName_eq (m : Mount) (site : Site) :
    site.entryName m = m.renamed (site.entryName ⟨""⟩) := by
  rw [entryName, entryName, Mount.qualify_none, Mount.qualify_eq_renamed]

theorem url_eq (ht : site.position.template ≠ "") : site.url m = m.baseUrl ++ site.url ⟨""⟩ := by
  have hne : m.baseUrl ++ site.position.template ≠ "" := by simp [ht]
  simp [url, Mount.url, String.isEmpty_iff, ht, hne]

theorem entries_eq (m : Mount) (site : Site) :
    site.entries m = (site.entries ⟨""⟩).map fun entry => (m.renamed entry.1, entry.2) := by
  obtain ⟨pos, kind, s⟩ := site
  cases kind with
  | collection => rfl
  | item =>
    simp only [entries, List.map_cons, List.map_nil, entryName_eq m]

theorem operations_eq (m : Mount) (site : Site) :
    site.operations m = (site.operations ⟨""⟩).map (Operation.moved m (site.url m)) := by
  obtain ⟨pos, kind, s⟩ := site
  simp only [operations, entryName_eq m]
  cases kind with
  | collection =>
    cases hr : s.isReadOnly <;> simp [Operation.ofCollection, Operation.make, Operation.moved,
      MessageBody.moved, EntryRef.moved]
  | item =>
    cases hr : s.isReadOnly <;> simp [Operation.ofItem, Operation.make, Operation.moved,
      MessageBody.moved, EntryRef.moved]

theorem endpoint_eq (ht : site.position.template ≠ "") (dispatcher : String) :
    site.endpoint m dispatcher = (site.endpoint ⟨""⟩ dispatcher).moved m := by
  simp only [endpoint, Endpoint.moved, operations_eq m, url_eq (m := m) ht]

theorem id_of_mem_operations {op : Operation} (h : op ∈ site.operations m) :
    op.id = op.action.name ++ " " ++ site.url m := by
  revert op
  obtain ⟨pos, kind, s⟩ := site
  cases kind <;> cases hr : s.isReadOnly <;>
    simp [operations, Operation.ofItem, Operation.ofCollection, Operation.make, hr]

end Site

/-! ## One step and the whole run -/

def Schema.namesakes : Schema :=
  let note : Json := .obj [("$id", .str "note"), ("title", .str "Note"),
    (Schema.controllerKey, .str "notes"), (Schema.seedKey, .str "\x7b\x7d")]
  let notes : Json := .obj [("type", .str "array"), ("items", note)]
  .obj [("properties", .obj [("drafts", notes), ("notes", notes)])]

namespace Api

variable {api : Api} {m : Mount} {site : Site} {schema : Schema} {dispatcher baseUrl : String}
  {e : CompileError}

theorem urls_moved (m : Mount) (api : Api) :
    (api.moved m).urls = api.urls.map (m.baseUrl ++ ·) := by
  simp only [urls, moved, List.map_map]
  rfl

theorem keys_moved (m : Mount) (api : Api) :
    (api.moved m).catalog.keys = api.catalog.keys.map m.renamed := by
  simp only [Members.keys, moved, List.map_map]
  rfl

theorem extend_moved (ht : site.position.template ≠ "") :
    (api.moved m).extend m [site] = (api.extend ⟨""⟩ [site]).moved m := by
  simp only [extend, moved, Site.catalog, List.map_cons, List.map_nil, List.flatMap_cons,
    List.flatMap_nil, List.append_nil, List.map_append, Site.endpoint_eq (m := m) ht,
    Site.entries_eq m]

theorem holds_moved_iff (ht : site.position.template ≠ "") (check : Check) :
    Obligation.Holds m ⟨(api.moved m).taken, site, check⟩ ↔
      Obligation.Holds ⟨""⟩ ⟨api.taken, site, check⟩ := by
  cases check with
  | handler | title | seed => exact .rfl
  | url =>
    have hi : Function.Injective (m.baseUrl ++ ·) := fun _ _ h => (String.append_right_inj _).mp h
    simp only [Obligation.Holds, taken, urls_moved, Site.url_eq (m := m) ht]
    rw [List.mem_map_of_injective hi]
  | name =>
    simp only [Obligation.Holds, taken, keys_moved, Site.entryName_eq m site]
    rw [List.mem_map_of_injective m.renamed_injective]

theorem error_moved (ht : site.position.template ≠ "") (taken taken' : Taken) (check : Check) :
    Obligation.error m ⟨taken', site, check⟩ =
      (Obligation.error ⟨""⟩ ⟨taken, site, check⟩).moved m := by
  cases check with
  | handler | title | seed => rfl
  | url => simp only [Obligation.error, CompileError.moved, Site.url_eq (m := m) ht]
  | name => simp only [Obligation.error, CompileError.moved, Site.entryName_eq m site]

theorem addSite_moved (ht : site.position.template ≠ "") (api : Api) :
    addSite m (api.moved m) site =
      ((addSite ⟨""⟩ api site).map (moved m)).mapError (CompileError.moved m) :=
  (governed_addSite (m := ⟨""⟩)).comap.eq_map governed_addSite.comap (holds_moved_iff ht)
    (error_moved ht _ _) (extend_moved ht)

theorem foldlM_addSite_moved {sites : List Site}
    (ht : ∀ site ∈ sites, site.position.template ≠ "") (dispatcher : String) :
    sites.foldlM (addSite m) (empty dispatcher) =
      ((sites.foldlM (addSite ⟨""⟩) (empty dispatcher)).map (moved m)).mapError
        (CompileError.moved m) :=
  foldlM_eq_map (empty dispatcher) fun site hs => addSite_moved (ht site hs)

theorem StopsAt.moved {sites : List Site} {n : ℕ}
    (ht : ∀ site ∈ sites, site.position.template ≠ "")
    (h : StopsAt ⟨""⟩ dispatcher sites n e) : StopsAt m dispatcher sites n (e.moved m) := by
  obtain ⟨site, reached, hn, hreached, hstop⟩ := h
  have hs : site ∈ sites := List.mem_of_getElem? hn
  refine ⟨site, reached.moved m, hn, ?_, ?_⟩
  · rw [foldlM_addSite_moved fun site hs => ht site (List.mem_of_mem_take hs), hreached]
    rfl
  · rw [addSite_moved (ht site hs), hstop]
    rfl

theorem ofSchema_eq_moved (schema : Schema) (dispatcher baseUrl : String) :
    ofSchema schema dispatcher baseUrl =
      ((ofSchema schema dispatcher "").map (moved ⟨baseUrl⟩)).mapError
        (CompileError.moved ⟨baseUrl⟩) := by
  unfold ofSchema mount
  split
  · exact foldlM_addSite_moved (fun site hs => Site.template_ne hs) dispatcher
  · rfl

/-- What stops a compilation, if not the root, stops it at one of the sites. -/
theorem exists_stopsAt (h : ofSchema schema dispatcher baseUrl = .error e) :
    ¬ schema.IsRoot ∧ e = .rootNotRecord ∨
      ∃ n, StopsAt ⟨baseUrl⟩ dispatcher (Site.all schema) n e := by
  unfold ofSchema mount at h
  split at h
  · obtain ⟨n, site, reached, hn, hreached, hstop⟩ := exists_of_foldlM_eq_error h
    exact .inr ⟨n, site, reached, hn, hreached, hstop⟩
  · next hr =>
    cases h
    exact .inl ⟨fun hroot => hr (Schema.isRoot_iff.mpr hroot), rfl⟩

theorem id_of_mem_endpoints {api : Api} (h : ofSchema schema dispatcher baseUrl = .ok api) :
    ∀ e ∈ api.endpoints, ∀ op ∈ e.operations, op.id = op.action.name ++ " " ++ e.url := by
  intro e he op hop
  obtain ⟨site, -, rfl⟩ := exists_site_of_mem_endpoints h he
  exact Site.id_of_mem_operations hop

/-- Under another base URL a root compiles exactly if it compiles without one, and then it has the
same endpoints and entries at the URLs and under the names that the base URL gives them. Otherwise
the same site is refused for the same reason. -/
theorem ofSchema_moved (schema : Schema) (dispatcher baseUrl : String) :
    ((∃ api, ofSchema schema dispatcher baseUrl = .ok api) ↔
      ∃ api, ofSchema schema dispatcher "" = .ok api) ∧
    (∀ api, ofSchema schema dispatcher "" = .ok api →
      ofSchema schema dispatcher baseUrl = .ok (api.moved ⟨baseUrl⟩) ∧
      ∀ e ∈ api.endpoints, ∀ op ∈ e.operations, op.id = op.action.name ++ " " ++ e.url) ∧
    ∀ e, ofSchema schema dispatcher "" = .error e →
      ofSchema schema dispatcher baseUrl = .error (e.moved ⟨baseUrl⟩) ∧
      (¬ schema.IsRoot ∧ e = .rootNotRecord ∨
        ∃ n, StopsAt ⟨""⟩ dispatcher (Site.all schema) n e ∧
          StopsAt ⟨baseUrl⟩ dispatcher (Site.all schema) n (e.moved ⟨baseUrl⟩)) := by
  have heq := ofSchema_eq_moved schema dispatcher baseUrl
  refine ⟨?_, ?_, ?_⟩
  · rw [heq]
    cases ofSchema schema dispatcher "" with
    | error e => exact ⟨nofun, nofun⟩
    | ok api => exact ⟨fun _ => ⟨api, rfl⟩, fun _ => ⟨_, rfl⟩⟩
  · intro api h
    refine ⟨?_, id_of_mem_endpoints h⟩
    rw [heq, h]
    rfl
  · intro e h
    refine ⟨?_, ?_⟩
    · rw [heq, h]
      rfl
    · rcases exists_stopsAt h with hroot | ⟨n, hstop⟩
      · exact .inl hroot
      · exact .inr ⟨n, hstop, hstop.moved fun site hs => Site.template_ne hs⟩

theorem ofSchema_folders_moved :
    (∃ api, ofSchema .folders "main" "" = .ok api ∧
      ofSchema .folders "main" "/v1" = .ok (api.moved ⟨"/v1"⟩) ∧
      (api.moved ⟨"/v1"⟩).catalog.keys = [".v1::Note"]) ∧
    ofSchema .namesakes "main" "" = .error (.nameTaken "Note") ∧
    ofSchema .namesakes "main" "/v1" = .error (.nameTaken ".v1::Note") := by
  obtain ⟨-, hok, -⟩ := ofSchema_moved .folders "main" "/v1"
  obtain ⟨-, -, herror⟩ := ofSchema_moved .namesakes "main" "/v1"
  have hfolders : (ofSchema .folders "main" "").map (fun api => (api.moved ⟨"/v1"⟩).catalog.keys) =
      .ok [".v1::Note"] := by decide +kernel
  have hnamesakes : (ofSchema .namesakes "main" "").map (fun _ => ()) =
      .error (.nameTaken "Note") := by decide +kernel
  have hrenamed : CompileError.moved ⟨"/v1"⟩ (.nameTaken "Note") = .nameTaken ".v1::Note" := by
    decide +kernel
  rw [map_eq_error_iff] at hnamesakes
  obtain ⟨api, h, hkeys⟩ := map_eq_ok_iff.mp hfolders
  exact ⟨⟨api, h, (hok api h).1, hkeys⟩, hnamesakes, hrenamed ▸ (herror _ hnamesakes).1⟩

end Api

end SchemaRoutes
