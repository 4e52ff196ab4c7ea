import SchemaRoutes.Proofs.Api.Link
import SchemaRoutes.Proofs.Json.Reader
import SchemaRoutes.Proofs.Request.Dispatcher
import SchemaRoutes.Proofs.Schema.Seed

/-! # Seeds that cannot be read

A seed that is given as a text is read when its schema is compiled. Any other seed is written out
by the compiler, and its text is read by every request that starts from it. That fails exactly if
the seed nests beyond the limit, which compiling does not look at.
-/

namespace SchemaRoutes

namespace Schema

variable {s : Schema}

/-- The value that is written out as the seed, unless the seed is given as a text. -/
def writtenSeed? (s : Schema) : Option Json :=
  match s.get? seedKey with
  | some (.str _) => none
  | some value => some value
  | none => some s.seed

def HasOverdeepSeed (s : Schema) : Prop :=
  ∃ value, s.writtenSeed? = some value ∧ Json.nestingLimit < value.depth

theorem exists_read_compact_iff {j : Json} (h : j.WellFormed) :
    (∃ v, Json.read? j.compact = some v) ↔ j.depth ≤ Json.nestingLimit := by
  rw [Json.read?_compact h]
  by_cases hd : j.depth ≤ Json.nestingLimit <;> simp [hd]

/-- The text of a seed that has passed compiling is read unless the seed is too deep. -/
theorem exists_read_rawSeedText_iff (h : s.WellFormed) (hr : s.SeedReads) :
    (∃ v, Json.read? s.rawSeedText = some v) ↔ ¬ s.HasOverdeepSeed := by
  unfold HasOverdeepSeed writtenSeed? rawSeedText
  cases hs : s.get? seedKey with
  | none => simp [exists_read_compact_iff (wellFormed_seed h)]
  | some value =>
    have hw := h.of_get? hs
    cases value with
    | str text => simpa using hr text hs
    | _ => simp [exists_read_compact_iff hw]

end Schema

theorem FormatRun.exists_failed {handler : String} {request : Request} {items : List Json}
    {record : List Exchange} {answer : Except RequestError (List Json)}
    (h : FormatRun handler request items record answer) {e : RequestError}
    (he : answer = .error e) : ∃ f, e = .failed f := by
  induction h with
  | done => cases he
  | failed _ _ f =>
    cases he
    exact ⟨f, rfl⟩
  | next _ _ _ _ answer _ ih =>
    cases answer with
    | ok items => cases he
    | error e' => exact ih he

theorem Conversation.ne_unreadableSeed {handler : String} {action : Action} {request : Request}
    {record : List Exchange} {answer : Except RequestError Response}
    (h : Conversation handler action request record answer) :
    answer ≠ .error .unreadableSeed := by
  intro he
  cases h with
  | failed => cases he
  | absent => cases he
  | removed => cases he
  | notAList => cases he
  | listed items record formatted _ hrun =>
    cases formatted with
    | ok items => cases he
    | error e =>
      obtain ⟨f, rfl⟩ := hrun.exists_failed rfl
      cases he
  | single item reply =>
    cases reply <;> cases he

namespace Dispatcher

variable {σ : Type} (d : Dispatcher (StateM σ)) (route : Route) (action : Action)
  (request : Request) (world : σ) {names : List String}

theorem refusal_eq_unreadableSeed_iff {r : Requirement} :
    d.refusal route action request r = .unreadableSeed ↔ r = .seeded := by
  cases r with
  | identified name =>
    simp only [refusal]
    cases request.params.lookup name <;> simp
  | _ => simp [refusal]

theorem firstFailure_seeded_iff :
    FirstFailure (d.Meets route action request) (requirements names action) .seeded ↔
      action.IsSeeded ∧
        (∀ r ∈ requirements names action, r ≠ .seeded → d.Meets route action request r) ∧
        ¬ d.Meets route action request .seeded := by
  have hbefore : Requirement.seeded ∉ [.equipped, .known, .capable, .formats] ++
      names.map Requirement.identified := by simp
  unfold requirements
  rw [← List.append_assoc, FirstFailure.append_iff]
  generalize [Requirement.equipped, .known, .capable, .formats] ++
    names.map .identified = before at hbefore ⊢
  constructor
  · rintro (h | ⟨ha, h⟩)
    · exact absurd h.mem hbefore
    · split at h
      · next hs =>
        refine ⟨hs, fun r hr hne => ?_, h.not_holds⟩
        rw [if_pos hs, List.mem_append, List.mem_singleton] at hr
        exact ha r (hr.resolve_right hne)
      · cases h
  · rintro ⟨hs, ha, hn⟩
    refine .inr ⟨fun r hr => ha r (List.mem_append_left _ hr) ?_, ?_⟩
    · rintro rfl
      exact hbefore hr
    · rw [if_pos hs]
      exact .here hn

theorem answer_eq_unreadableSeed_iff (hnames : Locator.HasPlaceholders route.template names) :
    ((d.answer route action request).run world).1 = .error .unreadableSeed ↔
      action.IsSeeded ∧
        (∀ r ∈ requirements names action, r ≠ .seeded → d.Meets route action request r) ∧
        ¬ d.Meets route action request .seeded := by
  obtain ⟨⟨h, q⟩, g⟩ := exists_governed_ready d route action request hnames
  rw [← firstFailure_seeded_iff]
  constructor
  · intro ha
    cases hr : d.ready route action request with
    | error e =>
      obtain ⟨r, hfirst, rfl⟩ := g.eq_error_iff.mp hr
      rw [run_answer_of_error hr] at ha
      have he : d.refusal route action request r = .unreadableSeed := Except.error.inj ha
      rwa [(refusal_eq_unreadableSeed_iff d route action request).mp he] at hfirst
    | ok hq =>
      obtain ⟨h, q⟩ := hq
      obtain ⟨answer, world', record, hx, -, hc⟩ := records_answer hr world []
      rw [hx] at ha
      exact absurd ha hc.ne_unreadableSeed
  · intro hfirst
    rw [run_answer_of_error (g.error_of _ hfirst)]
    rfl

end Dispatcher

/-! ## The endpoints of a compiled API -/

namespace Json

def nested : ℕ → Json
  | 0 => .null
  | n + 1 => .arr [nested n]

theorem depth_nested (n : ℕ) : (nested n).depth = n := by
  induction n with
  | zero => rfl
  | succ n ih => simp [nested, depth, depthItems, ih]

theorem wellFormed_nested (n : ℕ) : (nested n).WellFormed := by
  induction n with
  | zero => trivial
  | succ n ih => exact ⟨ih, trivial⟩

end Json

def Schema.noteFrom (seed : Json) : Schema :=
  .obj [("$id", .str "note"), ("title", .str "Note"), (controllerKey, .str "notes"),
    (seedKey, seed)]

def Root.nestedNotes (n : ℕ) : Root :=
  ⟨.obj [("properties", .obj [("notes",
    .obj [("type", .str "array"), ("items", Schema.noteFrom (.nested n))])])], ""⟩

def Root.listOf (name : String) (node : Schema) : Root :=
  ⟨.obj [("properties", .obj [(name, .obj [("type", .str "array"), ("items", node)])])], ""⟩

namespace Root

variable {n : ℕ} {name : String} {node : Schema} {w : List Hop} {hop : Hop}

theorem node_of_from (hf : hop.From (listOf name node).schema) : hop.node = node := by
  obtain ⟨properties, p, hp, hi, hl⟩ := hf
  cases hp
  obtain ⟨-, hm⟩ := Prod.mk.inj (List.mem_singleton.mp (List.mem_of_getElem? hi))
  subst hm
  obtain ⟨index, name, kind, node'⟩ := hop
  cases hl with
  | items _ hitems => exact (Option.some.inj hitems).symm
  | self _ ht =>
    rcases ht with ht | ⟨_, hp⟩
    · exact absurd (Json.str.inj (Option.some.inj ht)) (by decide)
    · cases hp

/-- The nodes of a list are the only resource if there is none in them. -/
theorem node_of_listOf_walk (hleaf : ∀ v, ¬ ResourceWalk node v)
    (hw : ResourceWalk (listOf name node).schema (w ++ [hop])) : hop.node = node := by
  cases w with
  | nil =>
    cases hw with
    | last hf _ => exact node_of_from hf
    | step hf _ => exact node_of_from hf
  | cons first w =>
    obtain ⟨hf, hw⟩ := hw.of_cons
    exact absurd (node_of_from hf ▸ hw) (hleaf _)

theorem wellFormed_nestedNotes (n : ℕ) : (nestedNotes n).schema.WellFormed := by
  simp [nestedNotes, Schema.noteFrom, Schema.controllerKey, Schema.seedKey, Json.WellFormed,
    Json.WellFormedMembers, Json.wellFormed_nested]

theorem node_of_resourceWalk (hw : ResourceWalk (nestedNotes n).schema (w ++ [hop])) :
    hop.node = Schema.noteFrom (.nested n) := by
  have hleaf : ∀ v, ¬ ResourceWalk (Schema.noteFrom (.nested n)) v := by
    rintro _ (⟨⟨_, _, hp, -⟩, -⟩ | ⟨⟨_, _, hp, -⟩, -⟩) <;> cases hp
  have hlist : nestedNotes n = listOf "notes" (Schema.noteFrom (.nested n)) := rfl
  exact node_of_listOf_walk hleaf (hlist ▸ hw)

end Root

namespace Api

/-- The route of an endpoint cannot be seeded exactly if the seed of its resource is written out
and nests too deep: then every request that starts from the seed, and that meets all requirements
before it, is answered so. -/
theorem answer_of_unreadable_seed {dispatcher : String} {roots : Roots} {api : Api}
    (h : ofRoots dispatcher roots = .ok api) (hwf : ∀ root ∈ roots, root.schema.WellFormed)
    {e : Endpoint} (he : e ∈ api.endpoints) :
    ∃ root ∈ roots, ∃ hop names, e.BelongsTo root hop ∧
      Locator.HasPlaceholders e.template names ∧
      ∀ {σ : Type} (d : Dispatcher (StateM σ)) (action : Action) (request : Request) (world : σ),
        ((d.answer (.ofEndpoint e) action request).run world).1 = .error .unreadableSeed ↔
          action.IsSeeded ∧ hop.node.HasOverdeepSeed ∧
            ∀ r ∈ Dispatcher.requirements names action, r ≠ .seeded →
              d.Meets (.ofEndpoint e) action request r := by
  obtain ⟨root, hroot, hop, site, hbelongs, hnode, hc, rfl⟩ := exists_hop_of_mem_endpoints h he
  obtain ⟨w, hw⟩ := hbelongs.walk
  have hnames : Locator.HasPlaceholders
      (Route.ofEndpoint (site.endpoint ⟨root.baseUrl⟩ dispatcher)).template _ :=
    Locator.hasPlaceholders_iff.mpr rfl
  refine ⟨root, hroot, hop, _, hbelongs, hnames, fun d action request world => ?_⟩
  have hread := Schema.exists_read_rawSeedText_iff (hw.wellFormed (hwf root hroot)) hc.2.2
  have hmeets : d.Meets (.ofEndpoint (site.endpoint ⟨root.baseUrl⟩ dispatcher)) action request
      .seeded ↔ ¬ hop.node.HasOverdeepSeed := by
    rw [← hread, ← hnode]
    exact Iff.rfl
  rw [Dispatcher.answer_eq_unreadableSeed_iff d _ action request world hnames, hmeets, not_not]
  exact and_congr_right fun _ => and_comm

theorem answer_of_nested_notes : ∃ api, ofRoots "main" [.nestedNotes 127] = .ok api ∧
    api.endpoints ≠ [] ∧ ∀ e ∈ api.endpoints, ∀ {σ : Type} (d : Dispatcher (StateM σ))
      (action : Action) (request : Request) (world : σ),
      ((d.answer (.ofEndpoint e) action request).run world).1 ≠ .error .unreadableSeed := by
  have hrun : (ofRoots "main" [.nestedNotes 127]).map urls =
      .ok ["/notes", "/notes/\x7bpathParam0\x7d"] := by decide +kernel
  obtain ⟨api, h, hurls⟩ := map_eq_ok_iff.mp hrun
  refine ⟨api, h, ?_, fun e he σ d action request world ha => ?_⟩
  · intro hnil
    simp [urls, hnil] at hurls
  have hwf : ∀ root ∈ [Root.nestedNotes 127], root.schema.WellFormed := by
    simp [Root.wellFormed_nestedNotes]
  obtain ⟨root, hroot, hop, names, hbelongs, -, hiff⟩ := answer_of_unreadable_seed h hwf he
  obtain ⟨-, ⟨value, hv, hdeep⟩, -⟩ := (hiff d action request world).mp ha
  obtain ⟨w, hw⟩ := hbelongs.walk
  rw [List.mem_singleton.mp hroot] at hw
  have hseed : (Schema.noteFrom (.nested 127)).writtenSeed? = some (.nested 127) := rfl
  rw [Root.node_of_resourceWalk hw, hseed] at hv
  cases hv
  rw [Json.depth_nested] at hdeep
  exact absurd hdeep (lt_irrefl _)

theorem answer_of_overdeep_notes : ∃ api, ofRoots "main" [.nestedNotes 128] = .ok api ∧
    ∃ e ∈ api.endpoints, ∃ (d : Dispatcher (StateM Unit)) (request : Request),
      ((d.answer (.ofEndpoint e) (.resource .postItems) request).run ()).1 =
        .error .unreadableSeed := by
  have hrun : (ofRoots "main" [.nestedNotes 128]).map (fun api =>
      api.endpoints.map fun e => (e.handler, Locator.placeholders e.template)) =
      .ok [("notes", []), ("notes", ["pathParam0"])] := by decide +kernel
  obtain ⟨api, h, hroutes⟩ := map_eq_ok_iff.mp hrun
  obtain ⟨e, rest, hes, hroute, -⟩ := List.map_eq_cons_iff.mp hroutes
  obtain ⟨hhandler, hplaceholders⟩ := Prod.mk.inj hroute
  have he : e ∈ api.endpoints := hes ▸ .head _
  have hseed : ¬ ∃ v, Json.read? e.seed = some v := by
    obtain ⟨root, hroot, hop, site, hbelongs, hnode, -, rfl⟩ := exists_hop_of_mem_endpoints h he
    obtain ⟨w, hw⟩ := hbelongs.walk
    rw [List.mem_singleton.mp hroot] at hw
    have htext : (site.endpoint ⟨root.baseUrl⟩ "main").seed = (Json.nested 128).compact := by
      rw [Site.endpoint, hnode, Root.node_of_resourceWalk hw]
      rfl
    rw [htext, Schema.exists_read_compact_iff (Json.wellFormed_nested 128), Json.depth_nested]
    decide
  let notes : Handler (StateM Unit) := ⟨[.create, .formatResponse], fun _ _ => return .ok none,
    fun _ item => return .ok item⟩
  let d : Dispatcher (StateM Unit) := ⟨"main", some [("notes", notes)]⟩
  have hnotes : d.handler? e.handler = some notes := by
    rw [hhandler]
    rfl
  refine ⟨api, h, e, he, d, ⟨[], none, []⟩, ?_⟩
  have hnames : Locator.HasPlaceholders (Route.ofEndpoint e).template [] :=
    Locator.hasPlaceholders_iff.mpr hplaceholders.symm
  rw [Dispatcher.answer_eq_unreadableSeed_iff d _ _ _ () hnames]
  refine ⟨by decide, fun r hr hne => ?_, hseed⟩
  have hr' : r ∈ [Requirement.equipped, .known, .capable, .formats] := by
    simpa [Dispatcher.requirements, hne] using hr
  simp only [List.mem_cons, List.not_mem_nil, or_false] at hr'
  rcases hr' with rfl | rfl | rfl | rfl
  · exact ⟨_, rfl⟩
  · exact ⟨notes, hnotes⟩
  · exact ⟨notes, hnotes, by decide⟩
  · exact ⟨notes, hnotes, by decide⟩

end Api

end SchemaRoutes
