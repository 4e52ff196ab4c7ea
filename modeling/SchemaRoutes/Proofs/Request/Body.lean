import SchemaRoutes.Proofs.Json.WellFormed
import SchemaRoutes.Proofs.Request.Seed

/-! # What handlers see of a request

A body that was sent is laid over the value that its resource starts from, if the action asks for
that, and is passed on as it is otherwise. The parameters are those of the request, and the locator
is made of them and of the template, whatever locator the request came with.
-/

namespace SchemaRoutes

namespace Schema

variable {s : Schema} {start : Json}

/-- The value that a new resource starts from: what a text says that is given as the seed, another
value that is given, or else the seed that the schema makes up. -/
def start? (s : Schema) : Option Json :=
  match s.get? seedKey with
  | some (.str text) => Json.read? text
  | some value => some value
  | none => some s.seed

/-- A seed that is written out nests no deeper than can be read, and its numbers come back from
their texts. -/
def KeepsSeed (s : Schema) : Prop :=
  ∀ value, s.writtenSeed? = some value → value.depth ≤ Json.nestingLimit ∧ value.reread = value

theorem exists_start (hr : s.SeedReads) : ∃ start, s.start? = some start := by
  unfold start?
  split
  · next text hs => exact hr text hs
  · exact ⟨_, rfl⟩
  · exact ⟨_, rfl⟩

theorem read?_compact_of_kept (h : start.WellFormed)
    (hk : start.depth ≤ Json.nestingLimit ∧ start.reread = start) :
    Json.read? start.compact = some start := by
  rw [Json.read?_compact h, if_pos hk.1, hk.2]

/-- A route is left the value that its resource starts from. -/
theorem read?_rawSeedText (h : s.WellFormed) (hk : s.KeepsSeed) (hs : s.start? = some start) :
    Json.read? s.rawSeedText = some start := by
  unfold KeepsSeed writtenSeed? at hk
  unfold start? at hs
  unfold rawSeedText
  cases hv : s.get? seedKey with
  | none =>
    simp only [hv, Option.some.injEq] at hs hk ⊢
    subst hs
    exact read?_compact_of_kept (wellFormed_seed h) (hk _ rfl)
  | some value =>
    have hw := h.of_get? hv
    cases value with
    | str text => simpa only [hv] using hs
    | _ =>
      simp only [hv, Option.some.injEq] at hs hk ⊢
      subst hs
      exact read?_compact_of_kept hw (hk _ rfl)

end Schema

inductive Seeded (start : Json) : Option Json → Json → Prop where
  | unsent : Seeded start none start
  | merged (seed sent : Members) : start = .obj seed →
      Seeded start (some (.obj sent))
        (.obj (seed.map (fun m => (m.1, (sent.get? m.1).getD m.2)) ++
          sent.filter fun m => m.1 ∉ seed.keys))
  | replaced (sent : Json) : start.isObject = false ∨ sent.isObject = false →
      Seeded start (some sent) sent

/-- What a handler sees of a request for an action. -/
structure Request.IsShownAs (start : Json) (template : String) (action : Action)
    (request shown : Request) : Prop where
  params : shown.params = request.params
  locator : Locator.ofTemplate template request.params = .ok shown.locator
  seeded : action = .resource .putItem ∨ action = .resource .postItems ∨ action = .custom →
    ∃ body, shown.body = some body ∧ Seeded start request.body body
  sent : action = .resource .getItem ∨ action = .resource .patchItem ∨
    action = .resource .deleteItem ∨ action = .resource .getItems → shown.body = request.body

namespace Dispatcher

theorem seeded_of_overSeed {seedText : String} {start j : Json} {body : Option Json}
    (hs : Json.read? seedText = some start) (hb : ∀ sent ∈ body, sent.WellFormed)
    (h : overSeed seedText body = .ok j) : Seeded start body j := by
  simp only [overSeed, hs] at h
  cases body with
  | none =>
    cases start <;> (cases h; exact .unsent)
  | some sent =>
    cases start with
    | obj seed =>
      cases sent with
      | obj sent =>
        cases h
        rw [Members.extend_eq (Json.wellFormed_of_read? hs).keys_nodup (hb _ rfl).keys_nodup]
        exact .merged seed sent rfl
      | _ =>
        cases h
        exact .replaced _ (.inr rfl)
    | _ =>
      cases h
      exact .replaced _ (.inl rfl)

variable {m : Type → Type} {d : Dispatcher m} {route : Route} {action : Action}
  {request shown : Request} {h : Handler m}

theorem ready_with_locator (d : Dispatcher m) (route : Route) (action : Action)
    (request : Request) (locator : Locator) :
    d.ready route action { request with locator } = d.ready route action request := rfl

theorem isShownAs_of_ready {start : Json}
    (hs : action.IsSeeded → Json.read? (route.seed.getD "\x7b\x7d") = some start)
    (hb : ∀ sent ∈ request.body, sent.WellFormed)
    (hok : d.ready route action request = .ok (h, shown)) :
    request.IsShownAs start route.template action shown := by
  obtain ⟨h', -, hok⟩ := bind_eq_ok_iff.mp hok
  obtain ⟨l, hl, hok⟩ := bind_eq_ok_iff.mp hok
  split at hok
  · next hstarts =>
    have hseeded := Action.startsFromSeed_iff.mp hstarts
    obtain ⟨body, hbody, hok⟩ := bind_eq_ok_iff.mp hok
    cases hok
    refine ⟨rfl, hl, fun _ => ⟨body, rfl, seeded_of_overSeed (hs hseeded) hb hbody⟩, ?_⟩
    rintro (rfl | rfl | rfl | rfl) <;> cases hstarts
  · next hn =>
    rw [Action.startsFromSeed_iff] at hn
    cases hok
    exact ⟨rfl, hl, fun hseeded => absurd hseeded hn, fun _ => rfl⟩

theorem exists_ready [Monad m] {names : List String}
    (hnames : Locator.HasPlaceholders route.template names)
    (hmeets : ∀ r ∈ requirements names action, r ≠ .seeded → d.Meets route action request r)
    (hs : action.IsSeeded → d.Meets route action request .seeded) :
    ∃ h shown, d.ready route action request = .ok (h, shown) := by
  obtain ⟨⟨h, shown⟩, g⟩ := exists_governed_ready d route action request hnames
  refine ⟨h, shown, g.ok_of fun r hr => ?_⟩
  by_cases he : r = .seeded
  · subst he
    apply hs
    by_contra hn
    simp [requirements, hn] at hr
  · exact hmeets r hr he

end Dispatcher

theorem Conversation.exists_call {handler : String} {action : Action} {request : Request}
    {record : List Exchange} {answer : Except RequestError Response}
    (h : Conversation handler action request record answer) :
    ∃ reply rest, record = .call handler action.method request reply :: rest := by
  cases h <;> exact ⟨_, _, rfl⟩

def Handler.ofNotes : Handler (StateM Unit) :=
  ⟨[.update, .formatResponse], fun _ _ => return .ok none, fun _ item => return .ok item⟩

def Dispatcher.ofNotes : Dispatcher (StateM Unit) := ⟨"main", some [("notes", .ofNotes)]⟩

theorem Dispatcher.meets_ofNotes {route : Route} {action : Action} {body : Option Json}
    {locator : Locator} (hhandler : route.handler = "notes") (haction : action.method = .update) :
    ∀ r ∈ requirements ["pathParam0"] action, r ≠ .seeded →
      ofNotes.Meets route action ⟨[("pathParam0", "7")], body, locator⟩ r := by
  have hnotes : ofNotes.handler? route.handler = some .ofNotes := by
    rw [hhandler, handler?, ofNotes, Option.bind_some, List.lookup_cons_self]
  have hraw : List.lookup "pathParam0" [("pathParam0", "7")] = some "7" := List.lookup_cons_self
  have hid : Text.SpellsInteger "7" 7 := Text.integer?_eq_some_iff.mp (by decide +kernel)
  have hmethod : action.method ∈ [Capability.update, .formatResponse] := haction ▸ .head _
  intro r hr hne
  have hr' : r ∈ [.equipped, .known, .capable, .formats, .identified "pathParam0"] := by
    simpa [requirements, hne] using hr
  simp only [List.mem_cons, List.not_mem_nil, or_false] at hr'
  rcases hr' with rfl | rfl | rfl | rfl | rfl
  · exact ⟨_, rfl⟩
  · exact ⟨_, hnotes⟩
  · exact ⟨_, hnotes, hmethod⟩
  · exact ⟨_, hnotes, .tail _ (.head _)⟩
  · exact ⟨"7", 7, hraw, hid⟩

def Schema.pinnable : Schema :=
  .obj [("$id", .str "note"), ("title", .str "Note"), ("type", .str "object"),
    (controllerKey, .str "notes"),
    ("properties", .obj [("text", .obj []), ("pinned", .obj [("default", .bool false)])])]

theorem Schema.not_resourceWalk_pinnable (w : List Hop) : ¬ ResourceWalk pinnable w := by
  have hleaf : ∀ hop : Hop, ¬ hop.From pinnable := by
    rintro ⟨index, name, kind, node⟩ ⟨properties, p, hp, hi, hl⟩
    cases hp
    have hm := List.mem_of_getElem? hi
    simp only [List.mem_cons, Prod.mk.injEq, List.not_mem_nil, or_false] at hm
    rcases hm with ⟨-, rfl⟩ | ⟨-, rfl⟩
    all_goals
      cases hl with
      | items ht _ => cases ht
      | self _ ht => rcases ht with ht | ⟨_, ht⟩ <;> cases ht
  rintro (⟨hf, -⟩ | ⟨hf, -⟩) <;> exact hleaf _ hf

theorem Schema.start?_pinnable :
    pinnable.start? = some (.obj [("text", .null), ("pinned", .bool false)]) := by decide +kernel

theorem Schema.keepsSeed_pinnable : pinnable.KeepsSeed := by
  intro value hv
  have hseed : pinnable.writtenSeed? = pinnable.start? := rfl
  rw [hseed, start?_pinnable] at hv
  cases hv
  exact ⟨by decide, rfl⟩

namespace Api

/-- Of a request that meets the requirements of its endpoint, a handler sees the parameters that
were given and the body that was sent, laid over the value that the resource starts from if the
action asks for it. The locator that it sees is that of the template and the parameters, whatever
locator the request came with. -/
theorem shown_of_endpoint {dispatcher : String} {roots : Roots} {api : Api}
    (h : ofRoots dispatcher roots = .ok api) (hwf : ∀ root ∈ roots, root.schema.WellFormed)
    {e : Endpoint} (he : e ∈ api.endpoints) :
    ∃ root ∈ roots, ∃ hop start names, e.BelongsTo root hop ∧ hop.node.start? = some start ∧
      Locator.HasPlaceholders e.template names ∧
      ∀ {σ : Type} (d : Dispatcher (StateM σ)) (action : Action) (request : Request),
        (∀ r ∈ Dispatcher.requirements names action, r ≠ .seeded →
          d.Meets (.ofEndpoint e) action request r) →
        (action.IsSeeded → hop.node.KeepsSeed) →
        (∀ sent ∈ request.body, sent.WellFormed) →
        ∃ shown, request.IsShownAs start e.template action shown ∧
          ∀ (locator : Locator) (world : σ), ∃ answer world' record,
            (d.answer (.ofEndpoint e) action { request with locator }).run world =
              (answer, world') ∧
            (d.recorded.answer (.ofEndpoint e) action { request with locator }).run (world, []) =
              (answer, (world', record)) ∧
            Conversation e.handler action shown record answer := by
  obtain ⟨root, hroot, hop, site, hbelongs, hnode, hc, rfl⟩ := exists_hop_of_mem_endpoints h he
  obtain ⟨w, hw⟩ := hbelongs.walk
  obtain ⟨start, hstart⟩ := Schema.exists_start hc.2.2
  have hnames : Locator.HasPlaceholders
      (Route.ofEndpoint (site.endpoint ⟨root.baseUrl⟩ dispatcher)).template _ :=
    Locator.hasPlaceholders_iff.mpr rfl
  refine ⟨root, hroot, hop, start, _, hbelongs, hstart, hnames,
    fun d action request hmeets hk hb => ?_⟩
  have hread : action.IsSeeded → Json.read?
      ((Route.ofEndpoint (site.endpoint ⟨root.baseUrl⟩ dispatcher)).seed.getD "\x7b\x7d") =
        some start := by
    intro hstarts
    have hkept := Schema.read?_rawSeedText (hw.wellFormed (hwf root hroot)) (hk hstarts) hstart
    rwa [← hnode] at hkept
  obtain ⟨handler, shown, hok⟩ :=
    Dispatcher.exists_ready hnames hmeets fun hstarts => ⟨start, hread hstarts⟩
  refine ⟨shown, Dispatcher.isShownAs_of_ready hread hb hok, fun locator world => ?_⟩
  rw [← Dispatcher.ready_with_locator d _ action request locator] at hok
  obtain ⟨answer, world', record, hx, hx', hconv⟩ := Dispatcher.records_answer hok world []
  exact ⟨answer, world', record, hx, hx', hconv⟩

theorem shown_of_pinned_note :
    let pinned : Json := .obj [("pinned", .bool true), ("colour", .str "red")]
    let seeded : Json := .obj [("text", .null), ("pinned", .bool true), ("colour", .str "red")]
    let shown (body : Json) : Request :=
      ⟨[("pathParam0", "7")], some body, [.property "notes", .identifier 7]⟩
    ∃ api, ofRoots "main" [.listOf "notes" .pinnable] = .ok api ∧ ∃ e ∈ api.endpoints,
      ∀ locator : Locator,
        (∃ answer reply rest, (Dispatcher.ofNotes.recorded.answer (.ofEndpoint e)
          (.resource .putItem) ⟨[("pathParam0", "7")], some pinned, locator⟩).run ((), []) =
            (answer, ((), .call "notes" .update (shown seeded) reply :: rest))) ∧
        ∃ answer reply rest, (Dispatcher.ofNotes.recorded.answer (.ofEndpoint e)
          (.resource .patchItem) ⟨[("pathParam0", "7")], some pinned, locator⟩).run ((), []) =
            (answer, ((), .call "notes" .update (shown pinned) reply :: rest)) := by
  intro pinned seeded shown
  have hrun : (ofRoots "main" [.listOf "notes" .pinnable]).map (fun api =>
      api.endpoints.map fun e => (e.handler, e.template)) =
      .ok [("notes", "/notes"), ("notes", "/notes/\x7bpathParam0\x7d")] := by decide +kernel
  obtain ⟨api, h, hroutes⟩ := map_eq_ok_iff.mp hrun
  obtain ⟨e, he, hroute⟩ : ∃ e ∈ api.endpoints,
      (e.handler, e.template) = ("notes", "/notes/\x7bpathParam0\x7d") := by
    rw [← List.mem_map, hroutes]
    exact .tail _ (.head _)
  obtain ⟨hhandler, htemplate⟩ := Prod.mk.inj hroute
  have hwf : ∀ root ∈ [Root.listOf "notes" .pinnable], root.schema.WellFormed := by
    simp [Root.listOf, Schema.pinnable, Schema.controllerKey, Json.WellFormed,
      Json.WellFormedMembers]
  have hsent : ∀ sent ∈ some pinned, sent.WellFormed := by
    simp [pinned, Json.WellFormed, Json.WellFormedMembers]
  obtain ⟨root, hroot, hop, start, names, hbelongs, hstart, hnames, hshown⟩ :=
    shown_of_endpoint h hwf he
  obtain ⟨w, hw⟩ := hbelongs.walk
  rw [List.mem_singleton.mp hroot] at hw
  rw [Root.node_of_listOf_walk Schema.not_resourceWalk_pinnable hw] at hstart hshown
  cases Schema.start?_pinnable.symm.trans hstart
  have hnames' : names = ["pathParam0"] := by
    rw [htemplate] at hnames
    exact (Locator.hasPlaceholders_iff.mp hnames).trans (by decide +kernel)
  have hlocator : Locator.ofTemplate "/notes/\x7bpathParam0\x7d" [("pathParam0", "7")] =
      .ok [.property "notes", .identifier 7] := by decide +kernel
  have hcall (action : Action) (haction : action.method = .update) (locator : Locator) :
      ∃ seen answer reply rest, Request.IsShownAs (.obj [("text", .null), ("pinned", .bool false)])
          e.template action ⟨[("pathParam0", "7")], some pinned, []⟩ seen ∧
        seen.params = [("pathParam0", "7")] ∧
        seen.locator = [.property "notes", .identifier 7] ∧
        (Dispatcher.ofNotes.recorded.answer (.ofEndpoint e) action
          ⟨[("pathParam0", "7")], some pinned, locator⟩).run ((), []) =
            (answer, ((), .call "notes" .update seen reply :: rest)) := by
    obtain ⟨seen, hseen, hanswer⟩ := hshown _ action ⟨[("pathParam0", "7")], _, []⟩
      (hnames' ▸ Dispatcher.meets_ofNotes hhandler haction) (fun _ => Schema.keepsSeed_pinnable)
      hsent
    obtain ⟨answer, world, record, -, hrecord, hconv⟩ := hanswer locator ()
    obtain ⟨reply, rest, rfl⟩ := hconv.exists_call
    rw [hhandler, haction] at hrecord
    exact ⟨seen, answer, reply, rest, hseen, hseen.params,
      Except.ok.inj ((htemplate ▸ hseen.locator).symm.trans hlocator), hrecord⟩
  refine ⟨api, h, e, he, fun locator => ⟨?_, ?_⟩⟩
  · obtain ⟨⟨_, _, _⟩, answer, reply, rest, hseen, rfl, rfl, hrecord⟩ :=
      hcall (.resource .putItem) rfl locator
    obtain ⟨_, rfl, hseeded⟩ := hseen.seeded (.inl rfl)
    dsimp only [pinned] at hseeded
    cases hseeded with
    | merged seed sent hs =>
      cases hs
      exact ⟨answer, reply, rest, hrecord⟩
    | replaced _ hn => rcases hn with hn | hn <;> cases hn
  · obtain ⟨⟨_, _, _⟩, answer, reply, rest, hseen, rfl, rfl, hrecord⟩ :=
      hcall (.resource .patchItem) rfl locator
    cases hseen.sent (.inr (.inl rfl))
    exact ⟨answer, reply, rest, hrecord⟩

end Api

end SchemaRoutes
