import SchemaRoutes.Proofs.Api.BaseUrl
import SchemaRoutes.Proofs.Api.Merge
import SchemaRoutes.Proofs.Api.Roots

/-! # Operations are told apart

The identifier of an operation is the name of its action, which has no blank in it, and then the
URL. So no two operations of an API have the same identifier, since no two endpoints have the same
URL. A document holds path items and operations under keys that are all different, and whatever has
been compiled is found in it again.
-/

namespace SchemaRoutes

namespace ResourceAction

variable {action action' : ResourceAction} {url url' : String}

theorem name_injective : Function.Injective name := by
  intro action action' h
  cases action <;> cases action' <;> first | rfl | exact absurd h (by decide)

theorem takeWhile_identifier (action : ResourceAction) (url : String) :
    (action.name ++ " " ++ url).toList.takeWhile (· ≠ ' ') = action.name.toList := by
  rw [String.toList_append, String.toList_append]
  cases action <;> rfl

theorem identifier_inj (h : action.name ++ " " ++ url = action'.name ++ " " ++ url') :
    action = action' ∧ url = url' := by
  have hname := congrArg (fun id => id.toList.takeWhile (· ≠ ' ')) h
  simp only [takeWhile_identifier, String.toList_inj] at hname
  obtain rfl := name_injective hname
  exact ⟨rfl, (String.append_right_inj _).mp h⟩

end ResourceAction

namespace Endpoint

variable {e e' : Endpoint}

def ids (e : Endpoint) : List String := e.operations.map Operation.id

def IsNamed (e : Endpoint) : Prop := ∀ op ∈ e.operations, op.id = op.action.name ++ " " ++ e.url

theorem nodup_actions (hn : e.methods.Nodup) : (e.operations.map Operation.action).Nodup := by
  have hm : e.methods = (e.operations.map Operation.action).map ResourceAction.httpMethod := by
    rw [List.map_map]
    rfl
  exact (hm ▸ hn).of_map _

theorem IsNamed.nodup_ids (h : e.IsNamed) (hn : e.methods.Nodup) : e.ids.Nodup := by
  have hids : e.ids =
      (e.operations.map Operation.action).map fun action => action.name ++ " " ++ e.url := by
    rw [List.map_map]
    exact List.map_congr_left h
  rw [hids]
  exact (nodup_actions hn).map fun _ _ he => (ResourceAction.identifier_inj he).1

theorem IsNamed.disjoint_ids (h : e.IsNamed) (h' : e'.IsNamed) (hne : e.url ≠ e'.url) :
    e.ids.Disjoint e'.ids := by
  intro id hid hid'
  obtain ⟨op, hop, rfl⟩ := List.mem_map.mp hid
  obtain ⟨op', hop', he⟩ := List.mem_map.mp hid'
  rw [h op hop, h' op' hop'] at he
  exact hne (ResourceAction.identifier_inj he).2.symm

end Endpoint

namespace Api

variable {dispatcher : String} {roots : Roots} {api : Api} {e : Endpoint}

theorem isNamed_of_mem_endpoints (h : ofRoots dispatcher roots = .ok api) (he : e ∈ api.endpoints) :
    e.IsNamed := by
  obtain ⟨_, -, site, -, -, rfl⟩ := exists_root_of_mem_endpoints h he
  exact fun op hop => Site.id_of_mem_operations hop

theorem nodup_ids (h : ofRoots dispatcher roots = .ok api) :
    (api.endpoints.flatMap Endpoint.ids).Nodup := by
  rw [List.nodup_flatMap]
  constructor
  · intro e he
    exact (isNamed_of_mem_endpoints h he).nodup_ids ((ofRoots_coherent h).methods e he)
  · have hurls : api.endpoints.Pairwise fun e e' => e.url ≠ e'.url :=
      List.pairwise_map.mp (ofRoots_coherent h).urls
    refine hurls.imp_of_mem fun he he' hne => ?_
    exact (isNamed_of_mem_endpoints h he).disjoint_ids (isNamed_of_mem_endpoints h he') hne

/-- No URL and no operation identifier of an API occurs twice, and no method twice at one URL or
under the key of an extension. So its document has one path item for each endpoint, in order, and
every operation is found in it by its URL and its method. -/
theorem paths_of_endpoints (h : ofRoots dispatcher roots = .ok api) :
    api.urls.Nodup ∧ (api.endpoints.flatMap Endpoint.ids).Nodup ∧
      (∀ e ∈ api.endpoints, e.methods.Nodup ∧ ∀ method ∈ e.methods, method ∉ e.extensions.keys) ∧
      api.toOpenApi.get? "paths" =
        some (.obj (api.endpoints.map fun e =>
          (e.url, .obj (e.extensions ++ e.operationItems)))) ∧
      ∀ e ∈ api.endpoints, ∀ op ∈ e.operations,
        ["paths", e.url, op.action.httpMethod, "operationId"].foldlM Json.get? api.toOpenApi =
          some (.str op.id) := by
  have hc := ofRoots_coherent h
  have hpaths : api.toOpenApi.get? "paths" = some (.obj api.pathItems) := by
    rw [toOpenApi, insertPaths_nil hc]
    rfl
  refine ⟨hc.urls, nodup_ids h, fun e he => ⟨hc.methods e he, ?_⟩, hpaths, fun e he op hop => ?_⟩
  · rw [Endpoint.methods, List.forall_mem_map]
    exact fun op _ => e.httpMethod_not_mem_keys op.action
  · have hitem : (Json.obj api.pathItems).get? e.url = some e.toOpenApi := by
      rw [Endpoint.toOpenApi_eq (hc.methods e he)]
      exact Members.get?_of_mem (keys_pathItems ▸ hc.urls) (List.mem_map_of_mem he)
    have hop' := Endpoint.get?_toOpenApi (hc.methods e he) hop
    simp only [List.foldlM_cons, hpaths, hitem, hop', Option.bind_eq_bind, Option.bind_some]
    rfl

theorem paths_of_folders_twice : ∃ api,
    ofRoots "main" [.folders "/v1", .folders "/v2"] = .ok api ∧
      (api.endpoints.flatMap Endpoint.ids).Nodup ∧
      ∃ e ∈ api.endpoints, e.url = "/v2/folders/\x7bpathParam0\x7d/notes" ∧
        ["paths", e.url, "post", "operationId"].foldlM Json.get? api.toOpenApi =
          some (.str ("postItems" ++ " " ++ e.url)) := by
  have hrun : (ofRoots "main" [.folders "/v1", .folders "/v2"]).map (fun api =>
      api.endpoints[2]?.map fun e => (e.url, e.operations.map Operation.action)) =
      .ok (some ("/v2/folders/\x7bpathParam0\x7d/notes", [.getItems, .postItems])) := by
    decide +kernel
  obtain ⟨api, h, hthird⟩ := map_eq_ok_iff.mp hrun
  obtain ⟨e, hi, hthird⟩ := Option.map_eq_some_iff.mp hthird
  obtain ⟨hurl, hactions⟩ := Prod.mk.inj hthird
  have he : e ∈ api.endpoints := List.mem_of_getElem? hi
  obtain ⟨op, hop, haction⟩ : ∃ op ∈ e.operations, op.action = .postItems :=
    List.mem_map.mp (hactions ▸ .tail _ (.head _))
  obtain ⟨-, hids, -, -, hfound⟩ := paths_of_endpoints h
  have hop' := hfound e he op hop
  rw [isNamed_of_mem_endpoints h he op hop, haction] at hop'
  exact ⟨api, h, hids, e, he, hurl, hop'⟩

end Api

end SchemaRoutes
