import SchemaRoutes.Api.OpenApi
import SchemaRoutes.Proofs.Api.Catalog

/-! # Path items

A path item has its extensions first and then its operations under their methods. An endpoint has no
two operations of one method, and no method is the name of an extension, so nothing is set twice.
-/

namespace SchemaRoutes

namespace Endpoint

variable {e : Endpoint}

def operationItems (e : Endpoint) : Members :=
  e.operations.map fun op => (op.action.httpMethod, op.toOpenApi e.parameters)

theorem keys_operationItems : e.operationItems.keys = e.methods := by
  simp [operationItems, Members.keys, methods]

theorem keys_extensions (e : Endpoint) :
    e.extensions.keys = [ExtensionKeys.dispatcher, Schema.controllerKey, Schema.seedKey,
      ExtensionKeys.template, ExtensionKeys.base, ExtensionKeys.trail] := rfl

theorem httpMethod_not_mem_keys (e : Endpoint) (action : ResourceAction) :
    action.httpMethod ∉ e.extensions.keys := by
  rw [keys_extensions]
  cases action <;> decide

theorem nodup_keys (hn : e.methods.Nodup) : (e.extensions ++ e.operationItems).keys.Nodup := by
  rw [Members.keys_append, keys_operationItems]
  refine List.nodup_append.mpr ⟨by rw [keys_extensions]; decide, hn, ?_⟩
  rintro k hk _ hk' rfl
  obtain ⟨op, -, rfl⟩ := List.mem_map.mp hk'
  exact e.httpMethod_not_mem_keys op.action hk

theorem toOpenApi_eq (hn : e.methods.Nodup) :
    e.toOpenApi = .obj (e.extensions ++ e.operationItems) := by
  have hext : ∀ k ∈ e.operationItems.keys, k ∉ e.extensions.keys := by
    rw [keys_operationItems, methods, List.forall_mem_map]
    exact fun op _ => e.httpMethod_not_mem_keys op.action
  rw [← Members.extend_of_fresh (keys_operationItems ▸ hn) hext, toOpenApi, Members.extend,
    operationItems, List.foldl_map]

theorem get?_toOpenApi (hn : e.methods.Nodup) {op : Operation} (hop : op ∈ e.operations) :
    e.toOpenApi.get? op.action.httpMethod = some (op.toOpenApi e.parameters) := by
  rw [toOpenApi_eq hn]
  exact Members.get?_of_mem (e.nodup_keys hn)
    (List.mem_append_right _ (List.mem_map.mpr ⟨op, hop, rfl⟩))

end Endpoint

end SchemaRoutes
