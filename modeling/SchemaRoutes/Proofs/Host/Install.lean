import SchemaRoutes.Proofs.Api.Merge

/-! # Installing and rendering

An installation runs through three stages, and only the last one touches the document, which merges
as a whole or not at all. A document without sections has nothing that a merge could meet, so there
an installation ends as the compilation does, and what it adds is the rendered API.
-/

namespace SchemaRoutes.Api

open Members

variable {api : Api} {dispatcher : String} {roots : Roots} {root : Members} {doc doc' : Json}
  {e : CompileError}

/-! ## The stages -/

theorem run_install_of_version (h : Version.check doc = .error e) :
    (install dispatcher roots).run doc = (.error e, doc) := by
  rw [install, run_bind_of_ok Edit.run_get]
  exact run_bind_of_error (Edit.run_ofExcept h)

theorem run_install_of_compile (hv : Version.check doc = .ok ())
    (h : ofRoots dispatcher roots = .error e) :
    (install dispatcher roots).run doc = (.error e, doc) := by
  rw [install, run_bind_of_ok Edit.run_get, run_bind_of_ok (Edit.run_ofExcept hv)]
  exact run_bind_of_error (Edit.run_ofExcept h)

theorem run_install_of_ok (hv : Version.check doc = .ok ())
    (h : ofRoots dispatcher roots = .ok api) :
    (install dispatcher roots).run doc =
      ((api.addTo.run doc).1.map fun _ => api, (api.addTo.run doc).2) := by
  rw [install, run_bind_of_ok Edit.run_get, run_bind_of_ok (Edit.run_ofExcept hv),
    run_bind_of_ok (Edit.run_ofExcept h)]
  rcases hm : api.addTo.run doc with ⟨e | u, doc'⟩
  · exact run_bind_of_error hm
  · exact run_bind_of_ok hm

theorem of_install_eq_ok (h : (install dispatcher roots).run doc = (.ok api, doc')) :
    ofRoots dispatcher roots = .ok api ∧ api.addTo.run doc = (.ok (), doc') := by
  cases hv : Version.check doc with
  | error e => cases (run_install_of_version hv).symm.trans h
  | ok =>
    cases hc : ofRoots dispatcher roots with
    | error e => cases (run_install_of_compile hv hc).symm.trans h
    | ok compiled =>
      rw [run_install_of_ok hv hc] at h
      rcases hm : compiled.addTo.run doc with ⟨e | u, merged⟩
      · rw [hm] at h
        cases h
      · rw [hm] at h
        cases h
        exact ⟨rfl, hm⟩

/-- An installation that fails has not changed the document, whatever the stage that has failed. -/
theorem eq_of_install_eq_error (h : (install dispatcher roots).run doc = (.error e, doc')) :
    doc' = doc := by
  cases hv : Version.check doc with
  | error e' =>
    rw [run_install_of_version hv] at h
    cases h
    rfl
  | ok =>
    cases hc : ofRoots dispatcher roots with
    | error e' =>
      rw [run_install_of_compile hv hc] at h
      cases h
      rfl
    | ok api =>
      rw [run_install_of_ok hv hc] at h
      rcases hm : api.addTo.run doc with ⟨e' | u, merged⟩
      · rw [hm] at h
        cases h
        exact eq_of_run_addTo_eq_error (ofRoots_coherent hc) hm
      · rw [hm] at h
        cases h

/-! ## Documents without sections -/

theorem merged_of_not_mem (hp : "paths" ∉ root.keys) (hc : "components" ∉ root.keys) :
    api.merged root = root ++ api.merged [] := by
  have hc' : "components" ∉ (root ++ [("paths", Json.obj api.pathItems)]).keys := by
    rw [keys_append, List.mem_append, not_or]
    exact ⟨hc, by simp⟩
  have hm : api.mergedComponents root = api.mergedComponents [] := by
    rw [mergedComponents, inner_of_not_mem hc]
    rfl
  rw [merged, inner_of_not_mem hp, List.nil_append, insert_of_not_mem hp, insert_of_not_mem hc', hm,
    List.append_assoc]
  rfl

/-- In a document of a supported version that has no sections, an installation succeeds exactly if
the roots compile, and then appends the rendered API; else it fails as the compilation does. No
failed installation, into whatever document, changes it. -/
theorem install_outcome (dispatcher : String) (roots : Roots) (doc : Json) :
    (∀ root : Members, doc = .obj root → "paths" ∉ root.keys → "components" ∉ root.keys →
      Version.check doc = .ok () →
      ((∃ api doc', (install dispatcher roots).run doc = (.ok api, doc')) ↔
        ∃ api, ofRoots dispatcher roots = .ok api) ∧
      (∀ e, ofRoots dispatcher roots = .error e →
        (install dispatcher roots).run doc = (.error e, doc)) ∧
      ∀ api, ofRoots dispatcher roots = .ok api →
        (install dispatcher roots).run doc = (.ok api, .obj (root ++ api.toOpenApi.members))) ∧
    ∀ e doc', (install dispatcher roots).run doc = (.error e, doc') → doc' = doc := by
  refine ⟨?_, fun e doc' => eq_of_install_eq_error⟩
  rintro root rfl hp hc hv
  have hok : ∀ api, ofRoots dispatcher roots = .ok api →
      (install dispatcher roots).run (.obj root) =
        (.ok api, .obj (root ++ api.toOpenApi.members)) := by
    intro api h
    have hcoherent := ofRoots_coherent h
    rw [run_install_of_ok hv h, toOpenApi_eq_merged hcoherent,
      run_addTo_of_mergeable hcoherent (api.mergeable_of_not_mem hp hc), merged_of_not_mem hp hc]
    rfl
  refine ⟨⟨?_, ?_⟩, fun e => run_install_of_compile hv, hok⟩
  · rintro ⟨api, doc', h⟩
    exact ⟨api, (of_install_eq_ok h).1⟩
  · rintro ⟨api, h⟩
    exact ⟨api, _, hok api h⟩

theorem install_folders : ∃ api, ofRoots "main" [⟨Schema.folders, "/v1"⟩] = .ok api ∧
    (install "main" [⟨Schema.folders, "/v1"⟩]).run (.obj [("openapi", .str "3.0.1")]) =
      (.ok api, .obj (("openapi", .str "3.0.1") :: api.toOpenApi.members)) := by
  obtain ⟨api, h⟩ : ∃ api, ofRoots "main" [⟨Schema.folders, "/v1"⟩] = .ok api := ⟨_, rfl⟩
  have hv : Version.check (.obj [("openapi", .str "3.0.1")]) = .ok () := by decide +kernel
  obtain ⟨hfresh, -⟩ :=
    install_outcome "main" [⟨Schema.folders, "/v1"⟩] (.obj [("openapi", .str "3.0.1")])
  obtain ⟨-, -, hok⟩ := hfresh _ rfl (by decide) (by decide) hv
  exact ⟨api, h, hok api h⟩

end SchemaRoutes.Api
