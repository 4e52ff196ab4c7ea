import SchemaRoutes.Request.Dispatcher
import SchemaRoutes.Proofs.Checks
import SchemaRoutes.Proofs.Json.Members
import SchemaRoutes.Proofs.Request.Locator

/-! # Requests and their answers

A request has to meet requirements in a fixed order, and what its handler is asked is written down.
If a requirement is not met, nothing is asked. Otherwise the handler is called once, and what it
replies decides what it is asked to format and what the answer is.
-/

namespace SchemaRoutes

/-- What an answer depends on before a handler is asked. -/
inductive Requirement where
  | equipped
  | known
  | capable
  | formats
  | identified (placeholder : String)
  | seeded

namespace Action

def method : Action → Capability
  | .resource .getItem => .get
  | .resource .patchItem => .update
  | .resource .putItem => .update
  | .resource .deleteItem => .remove
  | .resource .getItems => .find
  | .resource .postItems => .create
  | .custom => .callOperation

def methodName : Action → String
  | .resource .getItem => "get"
  | .resource .patchItem => "update"
  | .resource .putItem => "update"
  | .resource .deleteItem => "remove"
  | .resource .getItems => "find"
  | .resource .postItems => "create"
  | .custom => "callOperation"

def IsSeeded (action : Action) : Prop :=
  action = .resource .putItem ∨ action = .resource .postItems ∨ action = .custom

instance (action : Action) : Decidable action.IsSeeded := inferInstanceAs (Decidable (_ ∨ _ ∨ _))

theorem capability_eq (action : Action) : action.capability = action.method := by
  cases action with
  | resource action => cases action <;> rfl
  | custom => rfl

theorem name_capability (action : Action) : action.capability.name = action.methodName := by
  cases action with
  | resource action => cases action <;> rfl
  | custom => rfl

theorem startsFromSeed_iff {action : Action} : action.startsFromSeed = true ↔ action.IsSeeded := by
  cases action with
  | resource action => cases action <;> decide
  | custom => decide

end Action

namespace Dispatcher

variable {m : Type → Type}

def handler? (d : Dispatcher m) (name : String) : Option (Handler m) :=
  d.handlers.bind (·.lookup name)

/-- All requirements, in the order in which they are looked at, with the placeholders of the
template. -/
def requirements (names : List String) (action : Action) : List Requirement :=
  [.equipped, .known, .capable, .formats] ++
    (names.map .identified ++ if action.IsSeeded then [.seeded] else [])

def Meets (d : Dispatcher m) (route : Route) (action : Action) (request : Request) :
    Requirement → Prop
  | .equipped => ∃ handlers, d.handlers = some handlers
  | .known => ∃ h, d.handler? route.handler = some h
  | .capable => ∃ h, d.handler? route.handler = some h ∧ action.method ∈ h.capabilities
  | .formats =>
    ∃ h, d.handler? route.handler = some h ∧ Capability.formatResponse ∈ h.capabilities
  | .identified name => ∃ raw id, request.params.lookup name = some raw ∧
      Text.SpellsInteger raw id
  | .seeded => ∃ seed, Json.read? (route.seed.getD "\x7b\x7d") = some seed

def refusal (d : Dispatcher m) (route : Route) (action : Action) (request : Request) :
    Requirement → RequestError
  | .equipped => .unequipped d.name
  | .known => .unknownHandler route.handler
  | .capable => .lacksCapability action.methodName route.handler
  | .formats => .cannotFormat route.handler
  | .identified name =>
    match request.params.lookup name with
    | none => .parameterMissing name
    | some raw => .parameterNotInteger name raw
  | .seeded => .unreadableSeed

theorem handler?_of_handler {d : Dispatcher m} {name : String} {c : Capability} {h : Handler m}
    (hok : d.handler name c = .ok h) : d.handler? name = some h := by
  unfold handler at hok
  unfold handler?
  split at hok
  · cases hok
  · next hs hh =>
    rw [hh]
    split at hok
    · cases hok
    · next h' hl =>
      split at hok
      · cases hok
      · split at hok
        · cases hok
        · cases hok
          exact hl

theorem handler?_of_ready {d : Dispatcher m} {route : Route} {action : Action}
    {request q : Request} {h : Handler m} (hok : d.ready route action request = .ok (h, q)) :
    d.handler? route.handler = some h := by
  obtain ⟨h', hh, hok⟩ := bind_eq_ok_iff.mp hok
  obtain ⟨l, -, hok⟩ := bind_eq_ok_iff.mp hok
  have he : h' = h := by
    split at hok
    · obtain ⟨body, -, hok⟩ := bind_eq_ok_iff.mp hok
      cases hok
      rfl
    · cases hok
      rfl
  rw [← he]
  exact handler?_of_handler hh

theorem overSeed_of_read {seedText : String} {seed : Json} (h : Json.read? seedText = some seed)
    (body : Option Json) : ∃ j, overSeed seedText body = .ok j := by
  simp only [overSeed, h]
  split <;> exact ⟨_, rfl⟩

section Requirements

variable (d : Dispatcher m) (route : Route) (action : Action) (request : Request)

instance [Monad m] : Nonempty (Handler m) :=
  ⟨⟨[], fun _ _ => return .ok none, fun _ item => return .ok item⟩⟩

theorem exists_governed_handler [Monad m] :
    ∃ h, Governed (d.Meets route action request) (d.refusal route action request)
      [.equipped, .known, .capable, .formats] (d.handler route.handler action.capability) h := by
  refine Governed.exists_cons (fun he => ?_) fun ⟨hs, hh⟩ => ?_
  · have hn : d.handlers = none := by simpa [Meets, Option.eq_none_iff_forall_ne_some] using he
    simp only [handler, hn, refusal]
  have hl : d.handler? route.handler = hs.lookup route.handler := by
    rw [handler?, hh, Option.bind_some]
  refine Governed.exists_cons (fun hk => ?_) fun ⟨h, hk⟩ => ⟨h, ?_⟩
  · have hn : hs.lookup route.handler = none := by
      rw [← hl, Option.eq_none_iff_forall_ne_some]
      exact fun h hk' => hk ⟨h, hk'⟩
    simp only [handler, hh, hn, refusal]
  have hk' := hl.symm.trans hk
  rw [Action.capability_eq]
  refine .cons (fun hc => ?_) fun ⟨h', hk₁, hc⟩ => .cons (fun hf => ?_) fun ⟨h', hk₂, hf⟩ => ?_
  · have hc' : action.method ∉ h.capabilities := fun hm => hc ⟨h, hk, hm⟩
    have hname : action.method.name = action.methodName := by
      rw [← Action.capability_eq, Action.name_capability]
    simp [handler, hh, hk', hc', refusal, hname]
  · cases hk.symm.trans hk₁
    have hf' : Capability.formatResponse ∉ h.capabilities := fun hm => hf ⟨h, hk, hm⟩
    simp [handler, hh, hk', hc, hf', refusal]
  · cases hk.symm.trans hk₁
    cases hk.symm.trans hk₂
    have hok : d.handler route.handler action.method = .ok h := by
      simp [handler, hh, hk', hc, hf]
    rw [hok]
    exact .pure

theorem exists_governed_segment (text : String) :
    ∃ s, Governed (d.Meets route action request) (d.refusal route action request)
      ((Locator.placeholder? text).toList.map .identified)
      (Locator.segment request.params text) s := by
  rw [Locator.segment]
  cases hp : Locator.placeholder? text with
  | none => exact ⟨_, .pure⟩
  | some name =>
    have : Nonempty Segment := ⟨.property text⟩
    refine Governed.exists_cons (fun hi => ?_) fun hi => ?_
    · cases hr : request.params.lookup name with
      | none => simp only [refusal, hr]
      | some raw =>
        have hn : Text.integer? raw = none := by
          rw [Option.eq_none_iff_forall_ne_some]
          exact fun id hid => hi ⟨raw, id, hr, Text.integer?_eq_some_iff.mp hid⟩
        simp only [refusal, hr, hn]
    · obtain ⟨raw, id, hr, hid⟩ := hi
      simp only [hr, Text.integer?_eq_some_iff.mpr hid]
      exact ⟨_, .pure⟩

theorem exists_governed_segments (texts : List String) :
    ∃ l, Governed (d.Meets route action request) (d.refusal route action request)
      ((texts.filterMap Locator.placeholder?).map .identified)
      (texts.mapM (Locator.segment request.params)) l := by
  induction texts with
  | nil => exact ⟨[], .pure⟩
  | cons text texts ih =>
    obtain ⟨s, gs⟩ := exists_governed_segment d route action request text
    obtain ⟨l, gl⟩ := ih
    have hp : ((text :: texts).filterMap Locator.placeholder?).map Requirement.identified =
        (Locator.placeholder? text).toList.map .identified ++
          ((texts.filterMap Locator.placeholder?).map .identified ++ []) := by
      cases ht : Locator.placeholder? text <;> simp [ht]
    rw [hp, List.mapM_cons]
    exact ⟨_, gs.bind fun _ => gl.bind fun _ => .pure⟩

/-- The requirements decide whether there is a handler for the request. -/
theorem exists_governed_ready [Monad m] {names : List String}
    (hnames : Locator.HasPlaceholders route.template names) :
    ∃ hq, Governed (d.Meets route action request) (d.refusal route action request)
      (requirements names action) (d.ready route action request) hq := by
  obtain rfl := Locator.hasPlaceholders_iff.mp hnames
  obtain ⟨h, gh⟩ := exists_governed_handler d route action request
  obtain ⟨l, gl⟩ := exists_governed_segments d route action request
    (Locator.segments route.template)
  have : Nonempty (Handler m × Request) := ⟨h, request⟩
  unfold ready requirements
  simp only [Action.startsFromSeed_iff]
  refine gh.exists_bind fun _ => gl.exists_bind fun _ => ?_
  split
  · refine Governed.exists_cons (fun hs => ?_) fun hs => ?_
    · have hn : Json.read? (route.seed.getD "\x7b\x7d") = none := by
        rw [Option.eq_none_iff_forall_ne_some]
        exact fun seed h => hs ⟨seed, h⟩
      simp only [overSeed, hn]
      rfl
    · obtain ⟨seed, hs⟩ := hs
      obtain ⟨j, hj⟩ := overSeed_of_read hs request.body
      simp only [hj]
      exact ⟨_, .pure⟩
  · exact ⟨_, .pure⟩

end Requirements

end Dispatcher

inductive Exchange where
  | call (handler : String) (capability : Capability) (request : Request)
      (reply : Except HandlerFailure (Option Json))
  | format (handler : String) (request : Request) (item : Json)
      (reply : Except HandlerFailure Json)

section Recorded

variable {σ : Type}

/-- A computation in a world, with the exchange it amounts to at the end of the record. -/
def recording {α : Type} (x : StateM σ α) (exchange : α → Exchange) :
    StateM (σ × List Exchange) α :=
  fun (world, record) =>
    let (reply, world') := x world
    (reply, (world', record ++ [exchange reply]))

def Handler.recorded (name : String) (h : Handler (StateM σ)) :
    Handler (StateM (σ × List Exchange)) where
  capabilities := h.capabilities
  call capability request := recording (h.call capability request) (.call name capability request)
  format request item := recording (h.format request item) (.format name request item)

def Dispatcher.recorded (d : Dispatcher (StateM σ)) : Dispatcher (StateM (σ × List Exchange)) where
  name := d.name
  handlers := d.handlers.map fun hs => hs.map fun h => (h.1, h.2.recorded h.1)

end Recorded

/-- Items are formatted one by one, in order, until one fails. -/
inductive FormatRun (handler : String) (request : Request) :
    List Json → List Exchange → Except RequestError (List Json) → Prop where
  | done : FormatRun handler request [] [] (.ok [])
  | failed (item : Json) (items : List Json) (e : HandlerFailure) :
      FormatRun handler request (item :: items) [.format handler request item (.error e)]
        (.error (.failed e))
  | next (item formatted : Json) (items : List Json) (record : List Exchange)
      (answer : Except RequestError (List Json)) :
      FormatRun handler request items record answer →
      FormatRun handler request (item :: items)
        (.format handler request item (.ok formatted) :: record) (answer.map (formatted :: ·))

def Action.status : Action → ℕ
  | .resource .postItems => 201
  | _ => 200

theorem Action.status_of_ne {action : Action} (h : action ≠ .resource .postItems) :
    action.status = 200 := by
  unfold status
  split
  · exact absurd rfl h
  · rfl

/-- What the handler is asked for an action and what is answered. -/
inductive Conversation (handler : String) (action : Action) (request : Request) :
    List Exchange → Except RequestError Response → Prop where
  | failed (e : HandlerFailure) :
      Conversation handler action request
        [.call handler action.method request (.error e)] (.error (.failed e))
  | absent (reply : Option Json) : reply = none ∨ reply = some .null →
      Conversation handler action request
        [.call handler action.method request (.ok reply)] (.error .noSuchResource)
  | removed (item : Json) : action = .resource .deleteItem → item ≠ .null →
      Conversation handler action request
        [.call handler action.method request (.ok (some item))] (.ok ⟨204, none⟩)
  | notAList (item : Json) : action = .resource .getItems → item ≠ .null →
      (∀ items, item ≠ .arr items) →
      Conversation handler action request
        [.call handler action.method request (.ok (some item))] (.error .notAList)
  | listed (items : List Json) (record : List Exchange)
      (formatted : Except RequestError (List Json)) :
      action = .resource .getItems → FormatRun handler request items record formatted →
      Conversation handler action request
        (.call handler action.method request (.ok (some (.arr items))) :: record)
        (formatted.map fun items => ⟨200, some (.arr items)⟩)
  | single (item : Json) (reply : Except HandlerFailure Json) :
      action ≠ .resource .deleteItem → action ≠ .resource .getItems → item ≠ .null →
      Conversation handler action request
        [.call handler action.method request (.ok (some item)),
          .format handler request item reply]
        (match reply with
          | .ok formatted => .ok ⟨action.status, some formatted⟩
          | .error e => .error (.failed e))

/-- The second computation does what the first one does and has a record that fits its result. -/
def Records {σ α : Type} (x : StateM σ α) (x' : StateM (σ × List Exchange) α)
    (fits : List Exchange → α → Prop) : Prop :=
  ∀ world before, ∃ a world' record, x.run world = (a, world') ∧
    x'.run (world, before) = (a, (world', before ++ record)) ∧ fits record a

namespace Records

variable {σ α β : Type} {fits : List Exchange → α → Prop} {fits' : List Exchange → β → Prop}

theorem pure {a : α} (h : fits [] a) :
    Records (Pure.pure a : StateM σ α) (Pure.pure a) fits :=
  fun world before => ⟨a, world, [], rfl, by rw [List.append_nil]; rfl, h⟩

theorem recording (x : StateM σ α) (exchange : α → Exchange)
    (h : ∀ a, fits [exchange a] a) : Records x (recording x exchange) fits :=
  fun world _ => ⟨(x.run world).1, (x.run world).2, _, rfl, rfl, h _⟩

theorem bind {x : StateM σ α} {x' : StateM (σ × List Exchange) α} {f : α → StateM σ β}
    {f' : α → StateM (σ × List Exchange) β} (h : Records x x' fits)
    (h' : ∀ record a, fits record a →
      Records (f a) (f' a) fun record' b => fits' (record ++ record') b) :
    Records (x >>= f) (x' >>= f') fits' := by
  intro world before
  obtain ⟨a, world₁, record, hx, hx', hfits⟩ := h world before
  obtain ⟨b, world₂, record', hf, hf', hfits'⟩ := h' record a hfits world₁ (before ++ record)
  refine ⟨b, world₂, record ++ record', ?_, ?_, hfits'⟩
  · rw [StateT.run_bind, hx]
    exact hf
  · rw [StateT.run_bind, hx', ← List.append_assoc]
    exact hf'

end Records

namespace Dispatcher

section Runs

variable {σ : Type} {name : String} {h : Handler (StateM σ)} {q : Request} {action : Action}

theorem records_call (name : String) (h : Handler (StateM σ)) (c : Capability) (q : Request) :
    Records (h.call c q) ((h.recorded name).call c q) fun record reply =>
      record = [.call name c q reply] :=
  .recording _ _ fun _ => rfl

theorem records_format (name : String) (h : Handler (StateM σ)) (q : Request) (item : Json) :
    Records (h.format q item) ((h.recorded name).format q item) fun record reply =>
      record = [.format name q item reply] :=
  .recording _ _ fun _ => rfl

theorem records_formatted (item : Json) :
    Records (formatted h q item) (formatted (h.recorded name) q item) fun record answer =>
      ∃ reply : Except HandlerFailure Json, record = [.format name q item reply] ∧
        answer = reply.mapError .failed := by
  refine (records_format name h q item).bind ?_
  rintro - reply rfl
  cases reply <;> exact .pure ⟨_, rfl, rfl⟩

theorem records_formattedAll (items : List Json) :
    Records (formattedAll h q items) (formattedAll (h.recorded name) q items)
      (FormatRun name q items) := by
  induction items with
  | nil => exact .pure .done
  | cons item items ih =>
    refine (records_formatted item).bind ?_
    rintro - - ⟨e | out, rfl, rfl⟩
    · exact .pure (.failed item items e)
    · refine ih.bind ?_
      rintro record (e | outs) hrun
      all_goals
        refine .pure ?_
        rw [List.append_nil]
        exact .next item out items record _ hrun

theorem records_respond {item : Json} (hi : item ≠ .null) :
    Records (respond h action q item) (respond (h.recorded name) action q item)
      fun record answer => Conversation name action q
        (.call name action.method q (.ok (some item)) :: record) answer := by
  unfold respond
  split
  · exact .pure (.removed item rfl hi)
  · cases item with
    | arr items =>
      refine (records_formattedAll items).bind ?_
      rintro record (e | outs) hrun
      all_goals
        refine .pure ?_
        rw [List.append_nil]
        exact .listed items record _ rfl hrun
    | _ => exact .pure (.notAList _ rfl hi nofun)
  · refine (records_formatted item).bind ?_
    rintro - - ⟨e | out, rfl, rfl⟩
    · exact .pure (.single item (.error e) nofun nofun hi)
    · exact .pure (.single item (.ok out) nofun nofun hi)
  · next hd hl hp =>
    refine (records_formatted item).bind ?_
    rintro - - ⟨e | out, rfl, rfl⟩
    · exact .pure (.single item (.error e) hd hl hi)
    · have hs : Conversation name action q _ _ := .single item (.ok out) hd hl hi
      rw [Action.status_of_ne hp] at hs
      exact .pure hs

/-- How a handler comes to answer a request that it has. -/
theorem records_converse :
    Records
      (do
        match found (← h.call action.capability q) with
        | .error e => return .error e
        | .ok item => respond h action q item)
      (do
        match found (← (h.recorded name).call action.capability q) with
        | .error e => return .error e
        | .ok item => respond (h.recorded name) action q item)
      (Conversation name action q) := by
  rw [Action.capability_eq]
  refine (records_call name h action.method q).bind ?_
  rintro - reply rfl
  match reply with
  | .error e => exact .pure (.failed e)
  | .ok none => exact .pure (.absent none (.inl rfl))
  | .ok (some item) =>
    by_cases hi : item = .null
    · subst hi
      exact .pure (.absent _ (.inr rfl))
    · have hf : found (.ok (some item)) = .ok item := by
        unfold found
        split <;> simp_all
      simp only [hf]
      exact records_respond hi

variable {d : Dispatcher (StateM σ)} {route : Route} {request : Request}

theorem lookup_recorded (hs : Handlers (StateM σ)) :
    (hs.map fun h => (h.1, h.2.recorded h.1)).lookup name =
      (hs.lookup name).map (·.recorded name) := by
  induction hs with
  | nil => rfl
  | cons h hs ih =>
    obtain ⟨key, h⟩ := h
    rw [List.map_cons, lookup_cons_eq_ite, lookup_cons_eq_ite, ih]
    by_cases hk : name = key
    · simp [hk]
    · simp only [hk, if_false]

theorem handler_recorded (c : Capability) :
    d.recorded.handler name c = (d.handler name c).map (·.recorded name) := by
  rw [handler, handler, recorded]
  cases d.handlers with
  | none => rfl
  | some hs =>
    simp only [Option.map_some, lookup_recorded]
    cases hs.lookup name with
    | none => rfl
    | some h =>
      simp only [Option.map_some, Handler.recorded]
      split
      · rfl
      · split <;> rfl

theorem ready_recorded : d.recorded.ready route action request =
    (d.ready route action request).map fun hq => (hq.1.recorded route.handler, hq.2) := by
  rw [ready, ready, handler_recorded]
  cases d.handler route.handler action.capability with
  | error e => rfl
  | ok h =>
    cases Locator.ofTemplate route.template request.params with
    | error e => rfl
    | ok l =>
      cases action.startsFromSeed with
      | false => rfl
      | true =>
        simp only [if_true]
        cases overSeed (route.seed.getD "\x7b\x7d") request.body <;> rfl

theorem records_answer (hok : d.ready route action request = .ok (h, q)) :
    Records (d.answer route action request) (d.recorded.answer route action request)
      (Conversation route.handler action q) := by
  rw [answer, answer, ready_recorded, hok]
  exact records_converse

theorem run_answer_of_error {e : RequestError} {world : σ}
    (he : d.ready route action request = .error e) :
    (d.answer route action request).run world = (.error e, world) := by
  rw [answer, he]
  rfl

end Runs

/-- A request that does not meet all requirements is answered by the first that it does not meet,
and no handler is asked anything. Otherwise its handler is called once, and the answer follows from
what it replies. -/
theorem answer_outcome {σ : Type} (d : Dispatcher (StateM σ)) (route : Route) (action : Action)
    (request : Request) (world : σ) :
    ∃ names answer world' record, Locator.HasPlaceholders route.template names ∧
      (d.answer route action request).run world = (answer, world') ∧
      (d.recorded.answer route action request).run (world, []) = (answer, (world', record)) ∧
      ((∃ r, FirstFailure (d.Meets route action request) (requirements names action) r ∧
          answer = .error (d.refusal route action request r) ∧ record = [] ∧ world' = world) ∨
        (∀ r ∈ requirements names action, d.Meets route action request r) ∧
          ∃ h q, d.handler? route.handler = some h ∧ d.ready route action request = .ok (h, q) ∧
            Conversation route.handler action q record answer) := by
  have hnames : Locator.HasPlaceholders route.template (Locator.placeholders route.template) :=
    Locator.hasPlaceholders_iff.mpr rfl
  obtain ⟨⟨h, q⟩, g⟩ := exists_governed_ready d route action request hnames
  refine ⟨Locator.placeholders route.template, ?_⟩
  rcases forall_or_exists_firstFailure (d.Meets route action request)
    (requirements (Locator.placeholders route.template) action) with ha | ⟨r, hr⟩
  · have hok := g.ok_of ha
    obtain ⟨answer, world', record, hx, hx', hc⟩ := records_answer hok world []
    exact ⟨answer, world', record, hnames, hx, hx', .inr ⟨ha, h, q, handler?_of_ready hok, hok, hc⟩⟩
  · have he := g.error_of r hr
    have he' := congrArg (Except.map fun hq => (hq.1.recorded route.handler, hq.2)) he
    rw [← ready_recorded] at he'
    exact ⟨_, world, [], hnames, run_answer_of_error he, run_answer_of_error he',
      .inl ⟨r, hr, rfl, rfl, rfl⟩⟩

theorem answer_of_notes :
    let note : Json := .obj [("text", .str "Milk")]
    let notes : Handler (StateM ℕ) :=
      { capabilities := [.update, .formatResponse]
        call := fun _ _ => do
          modify (· + 1)
          return .ok (some note)
        format := fun _ item => return .ok (.arr [item]) }
    let d : Dispatcher (StateM ℕ) := ⟨"main", some [("notes", notes)]⟩
    let route : Route := ⟨"notes", "/notes/\x7bid\x7d", some "?"⟩
    let answer (action : Action) (id : String) :=
      (d.recorded.answer route action ⟨[("id", id)], none, []⟩).run (0, [])
    let patched : Request := ⟨[("id", "7")], none, [.property "notes", .identifier 7]⟩
    answer (.resource .patchItem) "7" = (.ok ⟨200, some (.arr [note])⟩,
      (1, [.call "notes" .update patched (.ok (some note)),
        .format "notes" patched note (.ok (.arr [note]))])) ∧
    answer (.resource .putItem) "7" = (.error .unreadableSeed, (0, [])) ∧
    answer (.resource .putItem) "seven" =
      (.error (.parameterNotInteger "id" "seven"), (0, [])) ∧
    answer (.resource .deleteItem) "7" = (.error (.lacksCapability "remove" "notes"), (0, [])) := by
  intro note notes d route answer patched
  have hrefused (action : Action) (id : String) (r : Requirement)
      (hr : FirstFailure (d.Meets route action ⟨[("id", id)], none, []⟩)
        (requirements ["id"] action) r) :
      answer action id =
        (.error (d.refusal route action ⟨[("id", id)], none, []⟩ r), (0, [])) := by
    obtain ⟨names, _, _, _, hnames, -, hrun, hcases⟩ :=
      answer_outcome d route action ⟨[("id", id)], none, []⟩ 0
    have hid : Locator.placeholders "/notes/\x7bid\x7d" = ["id"] := by decide +kernel
    obtain rfl := (Locator.hasPlaceholders_iff.mp hnames).trans hid
    rcases hcases with ⟨r', hr', rfl, rfl, rfl⟩ | ⟨hmet, -⟩
    · rwa [hr.unique hr']
    · exact absurd (hmet r hr.mem) hr.not_holds
  have hknown : d.handler? route.handler = some notes := rfl
  have hnotes (action : Action) (haction : action.method = .update) (id : String) :
      ∀ r ∈ [.equipped, .known, .capable, .formats],
        d.Meets route action ⟨[("id", id)], none, []⟩ r := by
    simp only [List.forall_mem_cons]
    refine ⟨⟨_, rfl⟩, ⟨_, hknown⟩, ⟨_, hknown, ?_⟩, ⟨_, hknown, .tail _ (.head _)⟩, nofun⟩
    rw [haction]
    exact .head _
  refine ⟨?_, ?_, ?_, ?_⟩
  · have hhandler : d.handler route.handler (Action.resource .patchItem).capability = .ok notes :=
      rfl
    have hlocator : Locator.ofTemplate route.template [("id", "7")] =
        .ok [.property "notes", .identifier 7] := by decide +kernel
    have hready : d.ready route (.resource .patchItem) ⟨[("id", "7")], none, []⟩ =
        .ok (notes, patched) := by
      rw [ready, hhandler, hlocator]
      rfl
    dsimp only [answer]
    rw [Dispatcher.answer, ready_recorded, hready]
    rfl
  · refine hrefused _ _ .seeded (FirstFailure.append_iff.mpr (.inr ⟨hnotes _ rfl _, ?_⟩))
    have hseven : Text.SpellsInteger "7" 7 := Text.integer?_eq_some_iff.mp (by decide +kernel)
    have hseed : Json.read? "?" = none := by decide +kernel
    refine .later ⟨"7", 7, rfl, hseven⟩ (.here ?_)
    rintro ⟨seed, hread⟩
    cases hseed.symm.trans hread
  · refine hrefused _ _ (.identified "id") (FirstFailure.append_iff.mpr
      (.inr ⟨hnotes _ rfl _, .here ?_⟩))
    rintro ⟨raw, id, hraw, hid⟩
    cases hraw
    have hseven : Text.integer? "seven" = none := by decide +kernel
    cases hseven.symm.trans (Text.integer?_eq_some_iff.mpr hid)
  · refine hrefused _ _ .capable (.later ⟨_, rfl⟩ (.later ⟨_, hknown⟩ (.here ?_)))
    rintro ⟨h, hh, hremove⟩
    cases hknown.symm.trans hh
    exact absurd hremove (by decide)

end Dispatcher

end SchemaRoutes
