import SchemaRoutes.Proofs.Api.OpenApi
import SchemaRoutes.Proofs.Host.Install
import SchemaRoutes.Request.Route

/-! # Routes read from a document

A route that is read from a path item asks the operation first. What stands in the path item of an
endpoint, be it an operation or an extension, has no handler and no seed of its own, so whichever
member is taken for the operation, the route is that of the endpoint.
-/

namespace SchemaRoutes

namespace Route

variable {item operation : Json}

structure DefersToItem (operation : Json) : Prop where
  handler : text? operation Schema.controllerKey = none
  seed : text? operation Schema.seedKey = none

theorem ofOpenApi_of_defersToItem (h : DefersToItem operation) :
    ofOpenApi item operation =
      ⟨(text? item Schema.controllerKey).getD "", (text? item ExtensionKeys.template).getD "",
        text? item Schema.seedKey⟩ := by
  simp only [ofOpenApi, h.handler, h.seed, Option.none_or]

theorem defersToItem_of_members_eq_nil (h : operation.members = []) : DefersToItem operation := by
  constructor <;> simp [text?, Json.get?, Members.get?, h]

theorem defersToItem_toOpenApi (op : Operation) (parameters : List IdParameter) :
    DefersToItem (op.toOpenApi parameters) := by
  have hkeys : (op.toOpenApi parameters).members.keys =
      ["summary", "operationId", "parameters"] ++ op.requestBody.keys ++ ["responses"] := by
    simp [Operation.toOpenApi, Json.members, Members.keys]
  have hrequest : op.requestBody.keys = [] ∨ op.requestBody.keys = ["requestBody"] := by
    unfold Operation.requestBody
    cases op.request with
    | none => exact .inl rfl
    | some body => exact .inr rfl
  have hmissing : ∀ key ∈ [Schema.controllerKey, Schema.seedKey],
      key ∉ (op.toOpenApi parameters).members.keys := by
    rw [hkeys]
    rcases hrequest with h | h <;> rw [h] <;> decide
  have htext : ∀ key ∈ [Schema.controllerKey, Schema.seedKey],
      text? (op.toOpenApi parameters) key = none := by
    intro key hk
    rw [text?, Json.get?, Members.get?_eq_none_iff.mpr (hmissing key hk)]
    rfl
  exact ⟨htext _ (.head _), htext _ (.tail _ (.head _))⟩

theorem defersToItem_of_endpoint {e : Endpoint} (hn : e.methods.Nodup) (key : String) :
    DefersToItem ((e.toOpenApi.get? key).getD .null) := by
  rw [Endpoint.toOpenApi_eq hn]
  cases hv : (Json.obj (e.extensions ++ e.operationItems)).get? key with
  | none => exact defersToItem_of_members_eq_nil rfl
  | some value =>
    rcases List.mem_append.mp (Members.mem_of_get? hv) with hm | hm
    · have hvalue : value.members = [] := by
        simp only [Endpoint.extensions, List.mem_cons, Prod.mk.injEq, List.not_mem_nil,
          or_false] at hm
        rcases hm with ⟨-, rfl⟩ | ⟨-, rfl⟩ | ⟨-, rfl⟩ | ⟨-, rfl⟩ | ⟨-, rfl⟩ | ⟨-, rfl⟩ <;> rfl
      exact defersToItem_of_members_eq_nil hvalue
    · obtain ⟨op, -, he⟩ := List.mem_map.mp hm
      cases he
      exact defersToItem_toOpenApi op e.parameters

theorem ofOpenApi_toOpenApi {e : Endpoint} (hn : e.methods.Nodup) (key : String) :
    ofOpenApi e.toOpenApi ((e.toOpenApi.get? key).getD .null) = ofEndpoint e := by
  rw [ofOpenApi_of_defersToItem (defersToItem_of_endpoint hn key), Endpoint.toOpenApi_eq hn]
  rfl

end Route

namespace Api

/-- After an installation the document has a path item under the URL of every endpoint, from which
the route of the endpoint is read, whichever member is looked at as the operation. Besides the six
extensions the path item has the methods of the endpoint and nothing else. -/
theorem ofOpenApi_of_installed {dispatcher : String} {roots : Roots} {doc doc' : Json} {api : Api}
    (h : (install dispatcher roots).run doc = (.ok api, doc')) {e : Endpoint}
    (he : e ∈ api.endpoints) :
    ∃ item, ((doc'.get? "paths").bind fun paths => paths.get? e.url) = some item ∧
      (∀ key, Route.ofOpenApi item ((item.get? key).getD .null) = Route.ofEndpoint e) ∧
      item.members.keys = ["x-rest-dispatcher", "x-rest-controller", "x-rest-blank-object",
          "x-rest-path-template", "x-rest-path-base", "x-rest-schema-path"] ++
        e.operations.map (fun op => op.action.httpMethod) ∧
      item.members.keys.Nodup := by
  obtain ⟨hc, hm⟩ := of_install_eq_ok h
  have hcoherent := ofRoots_coherent hc
  have hn : e.methods.Nodup := hcoherent.methods e he
  obtain ⟨root, -, hroot, rfl⟩ := exists_of_run_addTo_eq_ok hcoherent hm
  obtain ⟨paths, hpaths, hitem⟩ := hroot.get?_paths hcoherent he
  have hmembers : e.toOpenApi.members = e.extensions ++ e.operationItems := by
    rw [Endpoint.toOpenApi_eq hn]
    rfl
  refine ⟨e.toOpenApi, ?_, fun key => Route.ofOpenApi_toOpenApi hn key, ?_, ?_⟩
  · rw [hpaths]
    exact hitem
  · rw [hmembers, Members.keys_append, Endpoint.keys_operationItems]
    rfl
  · rw [hmembers]
    exact e.nodup_keys hn

theorem ofOpenApi_of_folders : ∃ api doc',
    (install "main" [⟨Schema.folders, "/v1"⟩]).run (.obj [("openapi", .str "3.0.1")]) =
      (.ok api, doc') ∧
    ∃ e ∈ api.endpoints, ∃ item,
      ((doc'.get? "paths").bind fun paths => paths.get? e.url) = some item ∧
      Route.ofOpenApi item ((item.get? "get").getD .null) = Route.ofEndpoint e := by
  have hv : Version.check (.obj [("openapi", .str "3.0.1")]) = .ok () := by decide +kernel
  have hlength : (ofRoots "main" [⟨Schema.folders, "/v1"⟩]).map (fun api => api.endpoints.length) =
      .ok 2 := by decide +kernel
  obtain ⟨api, hc, hlength⟩ := map_eq_ok_iff.mp hlength
  have hroot : api.Mergeable [("openapi", .str "3.0.1")] :=
    api.mergeable_of_not_mem (by decide) (by decide)
  have h := run_install_of_ok hv hc
  rw [run_addTo_of_mergeable (ofRoots_coherent hc) hroot] at h
  obtain ⟨e, he⟩ : ∃ e, e ∈ api.endpoints := List.exists_mem_of_length_pos (by omega)
  obtain ⟨item, hitem, hroute, -⟩ := ofOpenApi_of_installed h he
  exact ⟨api, _, h, e, he, item, hitem, hroute "get"⟩

end Api

end SchemaRoutes
