import SchemaRoutes.Api.Compile
import SchemaRoutes.Proofs.Api.Walk
import SchemaRoutes.Proofs.Checks
import SchemaRoutes.Proofs.Json.Members

/-! # What a compilation checks and what it adds

Every site runs through checks in a fixed order. If all hold, its endpoint and, for an item, its
catalog entry are added; the first check that fails is the error of the whole compilation.
-/

namespace SchemaRoutes

namespace Schema

def handlerText (s : Schema) : String := ((s.get? controllerKey).bind Json.str?).getD ""

/-- The text of the seed, without a look at whether it can be read. -/
def rawSeedText (s : Schema) : String :=
  match s.get? seedKey with
  | some (.str text) => text
  | some value => value.compact
  | none => s.seed.compact

def HasHandler (s : Schema) : Prop := ∃ name, s.get? controllerKey = some (.str name) ∧ name ≠ ""

def HasTitle (s : Schema) : Prop := ∃ title, s.get? "title" = some (.str title)

/-- A seed that is given as a text can be read. -/
def SeedReads (s : Schema) : Prop :=
  ∀ text, s.get? seedKey = some (.str text) → ∃ value, Json.read? text = some value

def IsRoot (s : Schema) : Prop :=
  (s.get? "type" = some (.str "object") ∨ s.get? "type" = none) ∧
    ∃ properties, s.get? "properties" = some (.obj properties)

variable {s : Schema}

theorem isRoot_iff : (s.isRecord && s.properties?.isSome) = true ↔ s.IsRoot := by
  simp only [Bool.and_eq_true, isRecord_iff, Option.isSome_iff_exists, properties?_eq_some_iff,
    IsRoot]
  constructor
  · rintro ⟨ht | ⟨ht, -⟩, hp⟩
    · exact ⟨.inl ht, hp⟩
    · exact ⟨.inr ht, hp⟩
  · rintro ⟨ht | ht, hp⟩
    · exact ⟨.inl ht, hp⟩
    · exact ⟨.inr ⟨ht, hp⟩, hp⟩

theorem requireHandler_of (h : s.HasHandler) : s.requireHandler = .ok s.handlerText := by
  obtain ⟨name, hn, hne⟩ := h
  simp [requireHandler, handlerText, hn, Json.str?, hne]

theorem requireHandler_of_not (h : ¬ s.HasHandler) :
    s.requireHandler = .error (.handlerMissing s.display) := by
  unfold requireHandler
  split
  · next name hn =>
    split
    · rfl
    · next hne =>
      obtain ⟨v, hv, hs⟩ := Option.bind_eq_some_iff.mp hn
      cases v <;> cases hs
      exact absurd ⟨name, hv, by simpa using hne⟩ h
  · rfl

theorem requireTitle_of (h : s.HasTitle) : s.requireTitle = .ok (s.title?.getD "") := by
  obtain ⟨title, ht⟩ := h
  simp [requireTitle, title?_eq_some_iff.mpr ht]

theorem requireTitle_of_not (h : ¬ s.HasTitle) : s.requireTitle = .error (.untitled s.compact) := by
  unfold requireTitle
  split
  · next title ht => exact absurd ⟨title, title?_eq_some_iff.mp ht⟩ h
  · rfl

theorem seedText_of (h : s.SeedReads) : s.seedText = .ok s.rawSeedText := by
  unfold seedText rawSeedText
  cases hs : s.get? seedKey with
  | none => rfl
  | some given =>
    cases given with
    | str text =>
      obtain ⟨value, hv⟩ := h text hs
      simp [hv]
    | _ => rfl

theorem seedText_of_not (h : ¬ s.SeedReads) : s.seedText = .error (.unreadableSeed s.display) := by
  unfold SeedReads at h
  push Not at h
  obtain ⟨text, hs, hn⟩ := h
  have hr : Json.read? text = none := Option.eq_none_iff_forall_ne_some.mpr hn
  simp [seedText, hs, hr]

end Schema

namespace Site

def entryName (m : Mount) (site : Site) : String := m.qualify (site.schema.title?.getD "")

def url (m : Mount) (site : Site) : String := m.url site.position

def entries (m : Mount) (site : Site) : Members :=
  match site.kind with
  | .item => [(site.entryName m, site.schema.catalogEntry)]
  | .collection => []

def catalog (m : Mount) (sites : List Site) : Members := sites.flatMap (entries m)

theorem catalog_cons (m : Mount) (site : Site) (sites : List Site) :
    catalog m (site :: sites) = site.entries m ++ catalog m sites := rfl

theorem catalog_append (m : Mount) (sites sites' : List Site) :
    catalog m (sites ++ sites') = catalog m sites ++ catalog m sites' := List.flatMap_append

def operations (m : Mount) (site : Site) : List Operation :=
  let s := site.schema
  match site.kind with
  | .item => Operation.ofItem s.isReadOnly s.display (site.entryName m) (site.url m)
  | .collection => Operation.ofCollection s.isReadOnly s.display (site.entryName m) (site.url m)

def endpoint (m : Mount) (dispatcher : String) (site : Site) : Endpoint where
  url := site.url m
  baseUrl := m.baseUrl
  template := if site.position.template.isEmpty then "/" else site.position.template
  kind := site.kind
  parameters := site.position.parameters
  trail := site.position.steps
  handler := site.schema.handlerText
  dispatcher
  seed := site.schema.rawSeedText
  operations := site.operations m

end Site

namespace Api

def urls (api : Api) : List String := api.endpoints.map Endpoint.url

def extend (api : Api) (m : Mount) (sites : List Site) : Api where
  dispatcher := api.dispatcher
  endpoints := api.endpoints ++ sites.map (Site.endpoint m api.dispatcher)
  catalog := api.catalog ++ Site.catalog m sites

@[simp] theorem extend_nil (api : Api) (m : Mount) : api.extend m [] = api := by
  simp [extend, Site.catalog]

theorem extend_append (api : Api) (m : Mount) (sites sites' : List Site) :
    api.extend m (sites ++ sites') = (api.extend m sites).extend m sites' := by
  simp [extend, Site.catalog_append]

end Api

inductive Check where
  | handler | url | title | name | seed
  deriving DecidableEq, Repr

/-- The checks of a site in the order in which it runs through them. -/
def EndpointKind.checks : EndpointKind → List Check
  | .collection => [.handler, .url, .title, .seed]
  | .item => [.title, .name, .handler, .url, .seed]

/-- The URLs and the catalog names that are in use. -/
structure Taken where
  urls : List String
  names : List String

def Taken.add (m : Mount) (taken : Taken) (site : Site) : Taken :=
  ⟨taken.urls ++ [site.url m], taken.names ++ (site.entries m).keys⟩

def Api.taken (api : Api) : Taken := ⟨api.urls, api.catalog.keys⟩

/-- One check of one site, with what is in use when it is made. -/
structure Obligation where
  taken : Taken
  site : Site
  check : Check

namespace Obligation

def Holds (m : Mount) (o : Obligation) : Prop :=
  match o.check with
  | .handler => o.site.schema.HasHandler
  | .url => o.site.url m ∉ o.taken.urls
  | .title => o.site.schema.HasTitle
  | .name => o.site.entryName m ∉ o.taken.names
  | .seed => o.site.schema.SeedReads

def error (m : Mount) (o : Obligation) : CompileError :=
  let s := o.site.schema
  let named := s.title?.getD "item"
  match o.check with
  | .handler => .handlerMissing named
  | .url => .urlTaken (o.site.url m) named
  | .title => .untitled s.compact
  | .name => .nameTaken (o.site.entryName m)
  | .seed => .unreadableSeed named

def ofSite (taken : Taken) (site : Site) : List Obligation :=
  site.kind.checks.map (⟨taken, site, ·⟩)

/-- The checks of sites in order; each site takes its URL and its name from those after it. -/
def ofSites (m : Mount) : Taken → List Site → List Obligation
  | _, [] => []
  | taken, site :: sites => ofSite taken site ++ ofSites m (taken.add m site) sites

end Obligation

namespace Api

variable {api : Api} {m : Mount} {site : Site}

theorem isSome_endpoint?_iff {url : String} :
    (api.endpoint? url).isSome = true ↔ url ∈ api.urls := by
  simp [endpoint?, urls, List.find?_isSome]

/-- An endpoint is checked in the same way for both kinds of sites. The names in use do not matter
to it. -/
theorem governed_addEndpoint {taken : Taken} (hu : taken.urls = api.urls) :
    Governed (Obligation.Holds m) (Obligation.error m)
      [⟨taken, site, .handler⟩, ⟨taken, site, .url⟩, ⟨taken, site, .title⟩, ⟨taken, site, .seed⟩]
      (api.addEndpoint m site)
      { api with endpoints := api.endpoints ++ [site.endpoint m api.dispatcher] } := by
  obtain ⟨_, names⟩ := taken
  cases hu
  unfold addEndpoint
  refine .cons (fun hn => ?_) fun hh => .cons (fun hn => ?_) fun hu =>
    .cons (fun hn => ?_) fun ht => .cons (fun hn => ?_) fun hs => ?_
  · simp only [Schema.requireHandler_of_not (s := site.schema) hn]
    rfl
  · have hu : (api.endpoint? (m.url site.position)).isSome = true :=
      isSome_endpoint?_iff.mpr (not_not.mp hn)
    simp only [Schema.requireHandler_of (s := site.schema) hh, hu, if_true]
    rfl
  all_goals
    have hu : ¬ (api.endpoint? (m.url site.position)).isSome = true :=
      fun h => hu (isSome_endpoint?_iff.mp h)
    simp only [Schema.requireHandler_of (s := site.schema) hh, hu]
  · simp only [Schema.requireTitle_of_not (s := site.schema) hn]
    rfl
  · simp only [Schema.requireTitle_of (s := site.schema) ht,
      Schema.seedText_of_not (s := site.schema) hn]
    rfl
  · simp only [Schema.requireTitle_of (s := site.schema) ht,
      Schema.seedText_of (s := site.schema) hs]
    exact .pure

theorem governed_addEntry {m : Mount} {site : Site} :
    Governed (Obligation.Holds m) (Obligation.error m)
      [⟨api.taken, site, .title⟩, ⟨api.taken, site, .name⟩]
      (api.addEntry m site.schema)
      { api with catalog := api.catalog ++ [(site.entryName m, site.schema.catalogEntry)] } := by
  unfold addEntry
  refine .cons (fun hn => ?_) fun ht => .cons (fun hn => ?_) fun hf => ?_
  · simp only [Schema.requireTitle_of_not (s := site.schema) hn]
    rfl
  · have hf : api.catalog.has (site.entryName m) = true := Members.has_iff.mpr (not_not.mp hn)
    unfold Site.entryName at hf
    simp only [Schema.requireTitle_of (s := site.schema) ht, bind, Except.bind, hf]
    rfl
  · have hf : ¬ api.catalog.has (site.entryName m) = true := fun h => hf (Members.has_iff.mp h)
    unfold Site.entryName at hf
    simp only [Schema.requireTitle_of (s := site.schema) ht, bind, Except.bind, hf]
    exact .pure

theorem governed_addSite :
    Governed (Obligation.Holds m) (Obligation.error m) (Obligation.ofSite api.taken site)
      (addSite m api site) (api.extend m [site]) := by
  obtain ⟨pos, kind, s⟩ := site
  cases kind with
  | collection =>
    have hx : api.extend m [⟨pos, .collection, s⟩] = { api with
        endpoints := api.endpoints ++ [Site.endpoint m api.dispatcher ⟨pos, .collection, s⟩] } := by
      simp [extend, Site.catalog, Site.entries]
    rw [hx]
    exact governed_addEndpoint rfl
  | item =>
    -- The title has been seen when the endpoint is made, where it is asked for once more.
    refine governed_addEntry.bind fun hc => ?_
    exact (governed_addEndpoint rfl).skip [_, _] (hc _ (.head _))

theorem taken_extend : (api.extend m [site]).taken = api.taken.add m site := by
  simp [taken, extend, Taken.add, urls, Site.catalog, Site.endpoint]

theorem governed_addSites (sites : List Site) (api : Api) :
    Governed (Obligation.Holds m) (Obligation.error m) (Obligation.ofSites m api.taken sites)
      (sites.foldlM (addSite m) api) (api.extend m sites) := by
  induction sites generalizing api with
  | nil =>
    rw [extend_nil]
    exact .pure
  | cons site sites ih =>
    rw [List.foldlM_cons, show site :: sites = [site] ++ sites from rfl, extend_append]
    refine governed_addSite.bind fun _ => ?_
    rw [← taken_extend]
    exact ih _

/-- A root compiles exactly if it is one and all checks of its sites hold; otherwise the error is
that of the first check that does not. -/
theorem mount_eq_ok_iff {schema : Schema} {baseUrl : String} {api' : Api} :
    api.mount schema baseUrl = .ok api' ↔ schema.IsRoot ∧
      (∀ o ∈ Obligation.ofSites ⟨baseUrl⟩ api.taken (Site.all schema), o.Holds ⟨baseUrl⟩) ∧
      api' = api.extend ⟨baseUrl⟩ (Site.all schema) := by
  unfold mount
  split
  · next h => rw [(governed_addSites _ _).eq_ok_iff, and_iff_right (Schema.isRoot_iff.mp h)]
  · next h => simp [← Schema.isRoot_iff, h]

theorem mount_eq_error_iff {schema : Schema} {baseUrl : String} {e : CompileError} :
    api.mount schema baseUrl = .error e ↔
      ¬ schema.IsRoot ∧ e = .rootNotRecord ∨
      schema.IsRoot ∧ ∃ o, FirstFailure (Obligation.Holds ⟨baseUrl⟩)
        (Obligation.ofSites ⟨baseUrl⟩ api.taken (Site.all schema)) o ∧ e = o.error ⟨baseUrl⟩ := by
  unfold mount
  split
  · next h => rw [(governed_addSites _ _).eq_error_iff]; simp [Schema.isRoot_iff.mp h]
  · next h => simp [← Schema.isRoot_iff, h, eq_comm]

end Api

end SchemaRoutes
