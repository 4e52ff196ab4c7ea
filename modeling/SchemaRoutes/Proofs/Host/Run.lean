import SchemaRoutes.Host.State
import SchemaRoutes.Proofs.Host.Install

/-! # Runs of a host

A host changes by one event after the other. No event takes a handler set from a dispatcher or a
name from a registry, and a name gets into a registry only together with the handlers of its
dispatcher; so what one event keeps is kept by every run.
-/

namespace SchemaRoutes

variable {m : Type → Type}

inductive HostEvent (m : Type → Type) where
  | install (roots : Roots) (name : Option String) (doc : Json)
  | addDispatcher (name : Option String)
  | addRegistry
  | setHandler (registry : ℕ) (name : String) (handler : Handler m)
  | equip (dispatcher : ℕ) (handlers : Handlers m)
  | publish (installation registry : ℕ)
  | request (dispatcher : ℕ) (route : Route) (action : Action) (request : Request)

namespace Api

theorem dispatcher_of_ofRoots {name : String} {roots : Roots} {api : Api}
    (h : ofRoots name roots = .ok api) : api.dispatcher = name := by
  refine foldlM_induction (p := fun api => api.dispatcher = name) rfl ?_ h
  intro api root api' hd hm
  obtain ⟨-, -, rfl⟩ := mount_eq_ok_iff.mp hm
  exact hd

theorem dispatcher_of_install {name : String} {roots : Roots} {doc doc' : Json} {api : Api}
    (h : (install name roots).run doc = (.ok api, doc')) : api.dispatcher = name :=
  dispatcher_of_ofRoots (of_install_eq_ok h).1

end Api

theorem Registry.knows_eq_isSome (r : Registry m) (name : String) :
    r.knows name = (r.dispatchers.lookup name).isSome := by
  rw [knows]
  induction r.dispatchers with
  | nil => rfl
  | cons d ds ih =>
    obtain ⟨key, n⟩ := d
    rw [List.any_cons, lookup_cons_eq_ite, ih]
    by_cases hk : name = key
    · simp [hk]
    · simp [hk, Ne.symm hk]

namespace Host

variable {h : Host m} {n p r : ℕ} {d : Dispatcher m} {hs : Handlers m} {i : Installation}
  {reg : Registry m} {name : String}

def after (h : Host m) : HostEvent m → Host m
  | .install roots name doc => (h.install roots name doc).2.2
  | .addDispatcher name => (h.addDispatcher name).2
  | .addRegistry => h.addRegistry.2
  | .setHandler r name handler => h.setHandler r name handler
  | .equip n handlers => (h.equip n handlers).2
  | .publish p r => (h.publish p r).2
  | .request _ _ _ _ => h

def run (h : Host m) (events : List (HostEvent m)) : Host m := events.foldl after h

/-- The handlers that an event succeeds in giving to a dispatcher. Those of a registry are given as
they are at that moment. -/
def given (h : Host m) (n : ℕ) : HostEvent m → Option (Handlers m)
  | .equip n' handlers =>
    if n' = n ∧ n < h.dispatchers.length ∧ (h.equip n' handlers).1.isOk then some handlers else none
  | .publish p r =>
    match h.installations[p]?, h.registries[r]? with
    | some i, some reg =>
      if i.dispatcher = n ∧ (h.publish p r).1.isOk then some reg.handlers else none
    | _, _ => none
  | _ => none

def gifts (h : Host m) (n : ℕ) : List (HostEvent m) → List (Handlers m)
  | [] => []
  | event :: events => (h.given n event).toList ++ (h.after event).gifts n events

theorem equip_of_unequipped (hd : h.dispatchers[n]? = some d) (hn : d.handlers = none) :
    h.equip n hs =
      (.ok (), { h with dispatchers := h.dispatchers.set n { d with handlers := some hs } }) := by
  simp [equip, hd, Dispatcher.isEquipped, hn]

theorem equip_of_isEquipped (hd : h.dispatchers[n]? = some d) (he : d.isEquipped = true) :
    h.equip n hs = (.error (.alreadyEquipped d.name), h) := by
  simp [equip, hd, he]

theorem publish_of_knows (hi : h.installations[p]? = some i) (hr : h.registries[r]? = some reg)
    (hk : reg.knows i.api.dispatcher = true) :
    h.publish p r = (.error (.dispatcherTaken i.api.dispatcher), h) := by
  simp [publish, hi, hr, hk]

theorem publish_of_isEquipped (hi : h.installations[p]? = some i)
    (hr : h.registries[r]? = some reg) (hk : reg.knows i.api.dispatcher = false)
    (hd : h.dispatchers[i.dispatcher]? = some d) (he : d.isEquipped = true) :
    h.publish p r = (.error (.alreadyEquipped d.name), h) := by
  simp [publish, hi, hr, hk, equip_of_isEquipped hd he]

theorem publish_of_unequipped (hi : h.installations[p]? = some i)
    (hr : h.registries[r]? = some reg) (hk : reg.knows i.api.dispatcher = false)
    (hd : h.dispatchers[i.dispatcher]? = some d) (hn : d.handlers = none) :
    h.publish p r = (.ok (), { h with
      dispatchers := h.dispatchers.set i.dispatcher { d with handlers := some reg.handlers }
      registries := h.registries.set r
        { reg with dispatchers := reg.dispatchers ++ [(i.api.dispatcher, i.dispatcher)] } }) := by
  simp [publish, hi, hr, hk, equip_of_unequipped hd hn]

theorem dispatcher?_eq_lookup (hr : h.registries[r]? = some reg) :
    h.dispatcher? r name = reg.dispatchers.lookup name := by
  rw [dispatcher?, hr, Option.bind_some]

theorem knows_eq_false_iff (hr : h.registries[r]? = some reg) :
    reg.knows name = false ↔ h.dispatcher? r name = none := by
  rw [Registry.knows_eq_isSome, dispatcher?_eq_lookup hr, Option.isSome_eq_false_iff,
    Option.isNone_iff_eq_none]

/-- Every installation has a dispatcher of the name that its endpoints refer to, and every name in
a registry is that of an equipped dispatcher. -/
structure Sound (h : Host m) : Prop where
  installed : ∀ (p : ℕ) (i : Installation), h.installations[p]? = some i →
    ∃ d : Dispatcher m, h.dispatchers[i.dispatcher]? = some d ∧ d.name = i.api.dispatcher
  registered : ∀ r name n, h.dispatcher? r name = some n →
    ∃ d : Dispatcher m, h.dispatchers[n]? = some d ∧ d.name = name ∧ d.isEquipped = true

theorem sound_empty (baseName : String) : (empty baseName : Host m).Sound where
  installed := nofun
  registered := nofun

/-- What comes of a name and a dispatcher that are new to each other, and of all others. -/
theorem Sound.publish_cases (sound : h.Sound) (hi : h.installations[p]? = some i)
    (hr : h.registries[r]? = some reg) :
    ∃ d : Dispatcher m, h.dispatchers[i.dispatcher]? = some d ∧ d.name = i.api.dispatcher ∧
      ((h.dispatcher? r i.api.dispatcher = none ∧ d.handlers = none ∧
          h.publish p r = (.ok (), { h with
            dispatchers := h.dispatchers.set i.dispatcher { d with handlers := some reg.handlers }
            registries := h.registries.set r { reg with
              dispatchers := reg.dispatchers ++ [(i.api.dispatcher, i.dispatcher)] } })) ∨
        ((h.dispatcher? r i.api.dispatcher ≠ none ∨ d.isEquipped = true) ∧
          ∃ e, h.publish p r = (.error e, h))) := by
  obtain ⟨d, hd, hname⟩ := sound.installed p i hi
  refine ⟨d, hd, hname, ?_⟩
  cases hk : reg.knows i.api.dispatcher with
  | true =>
    have hn : h.dispatcher? r i.api.dispatcher ≠ none := fun hn => by
      simp [(knows_eq_false_iff hr).mpr hn] at hk
    exact .inr ⟨.inl hn, _, publish_of_knows hi hr hk⟩
  | false =>
    cases hh : d.handlers with
    | none =>
      exact .inl ⟨(knows_eq_false_iff hr).mp hk, rfl, publish_of_unequipped hi hr hk hd hh⟩
    | some hs =>
      have he : d.isEquipped = true := by simp [Dispatcher.isEquipped, hh]
      exact .inr ⟨.inr he, _, publish_of_isEquipped hi hr hk hd he⟩

theorem publish_of_missing (hm : h.installations[p]? = none ∨ h.registries[r]? = none) :
    h.publish p r = (.ok (), h) := by
  unfold publish
  split
  · next hi hr => rcases hm with hm | hm <;> simp_all
  · rfl

theorem install_cases (h : Host m) (roots : Roots) (name : Option String) (doc : Json) :
    let h' := (h.install roots name doc).2.2
    h'.registries = h.registries ∧
      (h'.dispatchers = h.dispatchers ∧ h'.installations = h.installations ∨
        ∃ api : Api, h'.dispatchers = h.dispatchers ++ [.named api.dispatcher] ∧
          h'.installations = h.installations ++ [⟨h.dispatchers.length, api⟩]) := by
  obtain ⟨drawn, drawnHost, hdraw, hd, hi, hr⟩ : ∃ drawn h₁, h.drawName name = (drawn, h₁) ∧
      h₁.dispatchers = h.dispatchers ∧ h₁.installations = h.installations ∧
      h₁.registries = h.registries := by
    cases name <;> exact ⟨_, _, rfl, rfl, rfl, rfl⟩
  unfold install
  simp only [hdraw]
  rcases hrun : (Api.install drawn roots).run doc with ⟨e | api, doc'⟩
  · exact ⟨hr, .inl ⟨hd, hi⟩⟩
  · refine ⟨hr, .inr ⟨api, ?_, ?_⟩⟩
    · rw [← hd, Api.dispatcher_of_install hrun]
      rfl
    · rw [← hd, ← hi]
      rfl

/-- Dispatchers without handlers have come in, and installations that have theirs. -/
structure Adds (h h' : Host m) (ds : List (Dispatcher m)) (is : List Installation) : Prop where
  dispatchers : h'.dispatchers = h.dispatchers ++ ds
  bare : ∀ d ∈ ds, d.handlers = none
  installations : h'.installations = h.installations ++ is
  installed : ∀ i ∈ is, ∃ d : Dispatcher m,
    h'.dispatchers[i.dispatcher]? = some d ∧ d.name = i.api.dispatcher
  known : ∀ r name, h'.dispatcher? r name = h.dispatcher? r name

/-- A dispatcher that had no handlers has got some, and is perhaps known by its name in one more
registry. -/
structure Equips (h h' : Host m) (n : ℕ) (d : Dispatcher m) (hs : Handlers m) : Prop where
  present : h.dispatchers[n]? = some d
  bare : d.handlers = none
  dispatchers : h'.dispatchers = h.dispatchers.set n { d with handlers := some hs }
  installations : h'.installations = h.installations
  known : ∀ r name, h'.dispatcher? r name = h.dispatcher? r name ∨
    h.dispatcher? r name = none ∧ h'.dispatcher? r name = some n ∧ d.name = name

/-- What an event does to a host, with the handlers that it gives to each dispatcher. -/
inductive Step (h h' : Host m) (gift : ℕ → Option (Handlers m)) : Prop where
  | adds {ds : List (Dispatcher m)} {is : List Installation} :
      Adds h h' ds is → (∀ n, gift n = none) → Step h h' gift
  | equips {n : ℕ} {d : Dispatcher m} {hs : Handlers m} :
      Equips h h' n d hs → (∀ k, gift k = if n = k then some hs else none) → Step h h' gift

theorem Adds.nothing {h' : Host m} (hd : h'.dispatchers = h.dispatchers)
    (hi : h'.installations = h.installations)
    (hk : ∀ r name, h'.dispatcher? r name = h.dispatcher? r name) : Adds h h' [] [] where
  dispatchers := by rw [hd, List.append_nil]
  bare := nofun
  installations := by rw [hi, List.append_nil]
  installed := nofun
  known := hk

theorem Step.refl {gift : ℕ → Option (Handlers m)} (hg : ∀ n, gift n = none) : Step h h gift :=
  .adds (.nothing rfl rfl fun _ _ => rfl) hg

theorem dispatcher?_of_registries_eq {h' : Host m} (hr : h'.registries = h.registries) (r : ℕ)
    (name : String) : h'.dispatcher? r name = h.dispatcher? r name := by
  rw [dispatcher?, dispatcher?, hr]

theorem mem_named {d : Dispatcher m} (hm : d ∈ [Dispatcher.named name]) : d.handlers = none := by
  rw [List.mem_singleton.mp hm]
  rfl

theorem step_install (roots : Roots) (name : Option String) (doc : Json) :
    Step h (h.install roots name doc).2.2 fun _ => none := by
  obtain ⟨hr, ⟨hd, hi⟩ | ⟨api, hd, hi⟩⟩ := h.install_cases roots name doc
  · exact .adds (.nothing hd hi (dispatcher?_of_registries_eq hr)) fun _ => rfl
  · refine .adds ⟨hd, fun _ => mem_named, hi, ?_, dispatcher?_of_registries_eq hr⟩ fun _ => rfl
    intro i hm
    rw [List.mem_singleton.mp hm, hd]
    exact ⟨_, List.getElem?_concat_length .., rfl⟩

theorem step_addDispatcher (name : Option String) :
    Step h (h.addDispatcher name).2 fun _ => none := by
  cases name <;>
    exact .adds ⟨rfl, fun _ => mem_named, (List.append_nil _).symm, nofun, fun _ _ => rfl⟩
      fun _ => rfl

theorem step_addRegistry : Step h h.addRegistry.2 fun _ => none := by
  refine .adds (.nothing rfl rfl fun r name => ?_) fun _ => rfl
  simp only [addRegistry, dispatcher?]
  rcases lt_trichotomy r h.registries.length with hlt | rfl | hgt
  · rw [List.getElem?_append_left hlt]
  · simp [Registry.empty]
  · rw [List.getElem?_eq_none (by simpa using Nat.succ_le_of_lt hgt),
      List.getElem?_eq_none hgt.le]

theorem step_setHandler (r : ℕ) (key : String) (handler : Handler m) :
    Step h (h.setHandler r key handler) fun _ => none := by
  refine .adds (.nothing rfl rfl fun r' name => ?_) fun _ => rfl
  simp only [setHandler, dispatcher?, List.getElem?_modify]
  cases h.registries[r']? with
  | none => rfl
  | some reg => by_cases hr : r = r' <;> simp [hr, Registry.setHandler]

theorem step_equip (n : ℕ) (hs : Handlers m) :
    Step h (h.equip n hs).2 (h.given · (.equip n hs)) := by
  cases hd : h.dispatchers[n]? with
  | none =>
    have he : (h.equip n hs).2 = h := by simp [equip, hd]
    rw [he]
    refine .refl fun k => if_neg ?_
    rintro ⟨rfl, hlt, -⟩
    exact absurd hlt (not_lt.mpr (List.getElem?_eq_none_iff.mp hd))
  | some d =>
    have hlt := (List.getElem?_eq_some_iff.mp hd).1
    cases hh : d.handlers with
    | some hs' =>
      have he : h.equip n hs = (.error (.alreadyEquipped d.name), h) :=
        equip_of_isEquipped hd (by simp [Dispatcher.isEquipped, hh])
      rw [he]
      refine .refl fun k => if_neg ?_
      rintro ⟨-, -, hok⟩
      rw [he] at hok
      cases hok
    | none =>
      have he : h.equip n hs = (.ok (), _) := equip_of_unequipped hd hh
      rw [he]
      refine .equips ⟨hd, hh, rfl, rfl, fun _ _ => .inl rfl⟩ fun k => ?_
      rw [given, he]
      by_cases hk : n = k
      · subst hk
        simp [hlt, Except.isOk, Except.toBool]
      · simp [hk]

theorem Sound.step_publish (sound : h.Sound) (p r : ℕ) :
    Step h (h.publish p r).2 (h.given · (.publish p r)) := by
  cases hi : h.installations[p]? with
  | none =>
    rw [publish_of_missing (.inl hi)]
    exact .refl fun n => by simp [given, hi]
  | some i =>
  cases hr : h.registries[r]? with
  | none =>
    rw [publish_of_missing (.inr hr)]
    exact .refl fun n => by simp [given, hi, hr]
  | some reg =>
  obtain ⟨d, hd, hname, ⟨hnone, hh, hp⟩ | ⟨-, e, hp⟩⟩ := sound.publish_cases hi hr
  · have hgiven : ∀ k, h.given k (.publish p r) =
        if i.dispatcher = k then some reg.handlers else none := fun k => by
      simp [given, hi, hr, hp, Except.isOk, Except.toBool]
    rw [hp]
    refine .equips ⟨hd, hh, rfl, rfl, fun r' name => ?_⟩ hgiven
    simp only [dispatcher?, List.getElem?_set]
    by_cases hrr : r = r'
    · subst hrr
      rw [dispatcher?_eq_lookup hr] at hnone
      simp only [hr, (List.getElem?_eq_some_iff.mp hr).1, if_true, Option.bind_some,
        List.lookup_append]
      by_cases hkey : name = i.api.dispatcher
      · subst hkey
        exact .inr ⟨hnone, by simp [hnone], hname⟩
      · left
        simp [lookup_cons_eq_ite, hkey]
    · left
      simp only [hrr, if_false]
  · rw [hp]
    exact .refl fun n => by simp [given, hi, hr, hp, Except.isOk, Except.toBool]

theorem Sound.step (sound : h.Sound) (event : HostEvent m) :
    Step h (h.after event) (h.given · event) := by
  cases event with
  | install roots name doc => exact step_install roots name doc
  | addDispatcher name => exact step_addDispatcher name
  | addRegistry => exact step_addRegistry
  | setHandler r key handler => exact step_setHandler r key handler
  | equip n hs => exact step_equip n hs
  | publish p r => exact sound.step_publish p r
  | request n route action request => exact .refl fun _ => rfl

namespace Step

variable {h' : Host m} {gift : ℕ → Option (Handlers m)}

/-- A dispatcher gets handlers only if it has none, and this is all that happens to it. -/
theorem dispatchers (step : Step h h' gift) (hd : h.dispatchers[n]? = some d) :
    (d.isEquipped = true → gift n = none) ∧
      h'.dispatchers[n]? = some { d with handlers := d.handlers.or (gift n) } := by
  have hlt := (List.getElem?_eq_some_iff.mp hd).1
  cases step with
  | adds adds hg =>
    refine ⟨fun _ => hg n, ?_⟩
    rw [adds.dispatchers, List.getElem?_append_left hlt, hd, hg, Option.or_none]
  | @equips k _ _ equips hg =>
    rw [equips.dispatchers, hg]
    by_cases hk : k = n
    · subst hk
      cases hd.symm.trans equips.present
      simp [Dispatcher.isEquipped, equips.bare, hlt]
    · simp [hk, hd]

theorem handlers_of_new (step : Step h h' gift) (hd : h.dispatchers[n]? = none)
    (hd' : h'.dispatchers[n]? = some d) : d.handlers = none := by
  have hle := List.getElem?_eq_none_iff.mp hd
  cases step with
  | adds adds _ =>
    rw [adds.dispatchers, List.getElem?_append_right hle] at hd'
    exact adds.bare d (List.mem_of_getElem? hd')
  | equips equips _ =>
    rw [equips.dispatchers, List.getElem?_eq_none (by simpa using hle)] at hd'
    cases hd'

theorem gift_of_absent (step : Step h h' gift) (hd : h.dispatchers[n]? = none) :
    gift n = none := by
  cases step with
  | adds _ hg => exact hg n
  | equips equips hg =>
    rw [hg, if_neg]
    rintro rfl
    cases hd.symm.trans equips.present

theorem installation (step : Step h h' gift) (hi : h.installations[p]? = some i) :
    h'.installations[p]? = some i := by
  cases step with
  | adds adds _ =>
    rw [adds.installations, List.getElem?_append_left (List.getElem?_eq_some_iff.mp hi).1, hi]
  | equips equips _ => rw [equips.installations, hi]

theorem dispatcher? (step : Step h h' gift) (hn : h.dispatcher? r name = some n) :
    h'.dispatcher? r name = some n := by
  cases step with
  | adds adds _ => rw [adds.known, hn]
  | equips equips _ =>
    rcases equips.known r name with hk | ⟨hnone, -⟩
    · rw [hk, hn]
    · cases hnone.symm.trans hn

theorem sound (step : Step h h' gift) (sound : h.Sound) : h'.Sound where
  installed p i hi' := by
    have keep : ∀ {i : Installation}, h.installations[p]? = some i →
        ∃ d : Dispatcher m, h'.dispatchers[i.dispatcher]? = some d ∧ d.name = i.api.dispatcher := by
      intro i hi
      obtain ⟨d, hd, hname⟩ := sound.installed p i hi
      exact ⟨_, (step.dispatchers hd).2, hname⟩
    cases step with
    | adds adds _ =>
      rw [adds.installations, List.getElem?_append] at hi'
      split at hi'
      · exact keep hi'
      · exact adds.installed i (List.mem_of_getElem? hi')
    | equips equips _ => exact keep (equips.installations ▸ hi')
  registered r name n hn' := by
    have keep : h.dispatcher? r name = some n → ∃ d : Dispatcher m,
        h'.dispatchers[n]? = some d ∧ d.name = name ∧ d.isEquipped = true := by
      intro hn
      obtain ⟨d, hd, hname, he⟩ := sound.registered r name n hn
      obtain ⟨hnone, hd'⟩ := step.dispatchers hd
      exact ⟨_, hd', hname, by rw [hnone he, Option.or_none]; exact he⟩
    cases step with
    | adds adds _ => exact keep (adds.known r name ▸ hn')
    | @equips _ d hs equips _ =>
      rcases equips.known r name with hk | ⟨-, hk, hname⟩
      · exact keep (hk ▸ hn')
      · cases hk.symm.trans hn'
        refine ⟨{ d with handlers := some hs }, ?_, hname, rfl⟩
        simp [equips.dispatchers, (List.getElem?_eq_some_iff.mp equips.present).1]

end Step

theorem Sound.run_induction {p : Host m → Prop} (sound : h.Sound) (start : p h)
    (keep : ∀ (h : Host m) (event : HostEvent m), h.Sound → p h → p (h.after event))
    (events : List (HostEvent m)) : p (h.run events) := by
  induction events generalizing h with
  | nil => exact start
  | cons event events ih =>
    exact ih ((sound.step event).sound sound) (keep h event sound start)

theorem Sound.run (sound : h.Sound) (events : List (HostEvent m)) : (h.run events).Sound :=
  sound.run_induction sound (fun _ event sound _ => (sound.step event).sound sound) events

theorem Sound.dispatcher?_run (sound : h.Sound) (hn : h.dispatcher? r name = some n)
    (events : List (HostEvent m)) : (h.run events).dispatcher? r name = some n :=
  sound.run_induction (p := fun h => h.dispatcher? r name = some n) hn
    (fun _ event sound hn => (sound.step event).dispatcher? hn) events

theorem Sound.installation_run (sound : h.Sound) (hi : h.installations[p]? = some i)
    (events : List (HostEvent m)) : (h.run events).installations[p]? = some i :=
  sound.run_induction (p := fun h => h.installations[p]? = some i) hi
    (fun _ event sound hi => (sound.step event).installation hi) events

theorem Sound.name_run (sound : h.Sound) (hd : h.dispatchers[n]? = some d)
    (events : List (HostEvent m)) :
    ∃ d' : Dispatcher m, (h.run events).dispatchers[n]? = some d' ∧ d'.name = d.name := by
  refine sound.run_induction
    (p := fun h => ∃ d' : Dispatcher m, h.dispatchers[n]? = some d' ∧ d'.name = d.name)
    ⟨d, hd, rfl⟩ ?_ events
  rintro h event sound ⟨d', hd', hname⟩
  exact ⟨_, ((sound.step event).dispatchers hd').2, hname⟩

theorem Sound.equipped_run (sound : h.Sound) (hd : h.dispatchers[n]? = some d)
    (he : d.isEquipped = true) (events : List (HostEvent m)) :
    (h.run events).dispatchers[n]? = some d := by
  refine sound.run_induction (p := fun h => h.dispatchers[n]? = some d) hd ?_ events
  intro h event sound hd
  obtain ⟨hnone, hd'⟩ := (sound.step event).dispatchers hd
  rw [hd', hnone he, Option.or_none]

theorem Sound.gifts_of_isEquipped (sound : h.Sound) (hd : h.dispatchers[n]? = some d)
    (he : d.isEquipped = true) (events : List (HostEvent m)) : h.gifts n events = [] := by
  induction events generalizing h with
  | nil => rfl
  | cons event events ih =>
    have step := sound.step event
    rw [gifts, (step.dispatchers hd).1 he]
    exact ih (step.sound sound) (sound.equipped_run hd he [event])

/-- A dispatcher has the handlers that have been given to it, in a run from before it came into
being or had any. -/
theorem Sound.handlers_run (sound : h.Sound) (events : List (HostEvent m))
    (hbare : ∀ d, h.dispatchers[n]? = some d → d.handlers = none)
    (hd : (h.run events).dispatchers[n]? = some d) :
    d.handlers.toList = h.gifts n events := by
  induction events generalizing h with
  | nil =>
    rw [hbare d hd]
    rfl
  | cons event events ih =>
    have step := sound.step event
    have sound' := step.sound sound
    cases hg : h.given n event with
    | none =>
      rw [gifts, hg]
      refine ih sound' ?_ hd
      intro d' hd'
      cases hold : h.dispatchers[n]? with
      | none => exact step.handlers_of_new hold hd'
      | some d₀ =>
        rw [(step.dispatchers hold).2, hg, Option.or_none] at hd'
        cases hd'
        exact hbare d₀ hold
    | some hs =>
      cases hold : h.dispatchers[n]? with
      | none => cases hg.symm.trans (step.gift_of_absent hold)
      | some d₀ =>
        have hd' := (step.dispatchers hold).2
        rw [hg, hbare d₀ hold, Option.none_or] at hd'
        rw [gifts, hg, sound'.gifts_of_isEquipped hd' rfl]
        cases (sound'.equipped_run hd' rfl events).symm.trans hd
        rfl

theorem Sound.publish_eq_ok_iff (sound : h.Sound) (hi : h.installations[p]? = some i)
    (hr : h.registries[r]? = some reg) :
    ∃ d : Dispatcher m, h.dispatchers[i.dispatcher]? = some d ∧ d.name = i.api.dispatcher ∧
      ((h.publish p r).1 = .ok () ↔
        h.dispatcher? r i.api.dispatcher = none ∧ d.isEquipped = false) := by
  obtain ⟨d, hd, hname, ⟨hnone, hh, hp⟩ | ⟨hor, e, hp⟩⟩ := sound.publish_cases hi hr
  · refine ⟨d, hd, hname, fun _ => ⟨hnone, ?_⟩, fun _ => by rw [hp]⟩
    rw [Dispatcher.isEquipped, hh, Option.isSome_none]
  · refine ⟨d, hd, hname, fun hok => ?_, fun ⟨hnone, he⟩ => ?_⟩
    · rw [hp] at hok
      cases hok
    · rcases hor with hn | hn
      · exact absurd hnone hn
      · cases he.symm.trans hn

theorem Sound.publish_of_error (sound : h.Sound) {e : CompileError}
    (he : (h.publish p r).1 = .error e) : (h.publish p r).2 = h := by
  cases hi : h.installations[p]? with
  | none => rw [publish_of_missing (.inl hi)]
  | some i =>
  cases hr : h.registries[r]? with
  | none => rw [publish_of_missing (.inr hr)]
  | some reg =>
  obtain ⟨d, hd, hname, ⟨hnone, hh, hp⟩ | ⟨-, e', hp⟩⟩ := sound.publish_cases hi hr
  · rw [hp] at he
    cases he
  · rw [hp]

/-- What is published has its dispatcher known by its name, equipped with the handlers that the
registry had. -/
theorem Sound.publish_of_ok (sound : h.Sound) (hi : h.installations[p]? = some i)
    (hr : h.registries[r]? = some reg) (hok : (h.publish p r).1 = .ok ()) :
    (h.publish p r).2.dispatchers[i.dispatcher]? =
        some { name := i.api.dispatcher, handlers := some reg.handlers } ∧
      (h.publish p r).2.dispatcher? r i.api.dispatcher = some i.dispatcher := by
  obtain ⟨d, hd, hname, ⟨hnone, hh, hp⟩ | ⟨-, e, hp⟩⟩ := sound.publish_cases hi hr
  · rw [dispatcher?_eq_lookup hr] at hnone
    rw [hp]
    constructor
    · simp [(List.getElem?_eq_some_iff.mp hd).1, hname]
    · simp [dispatcher?, (List.getElem?_eq_some_iff.mp hr).1, List.lookup_append, hnone]
  · rw [hp] at hok
    cases hok

/-- What is published once is equipped for good, so no registry takes it a second time. -/
theorem Sound.publish_again (sound : h.Sound) (hi : h.installations[p]? = some i)
    (hr : h.registries[r]? = some reg) (hok : (h.publish p r).1 = .ok ())
    (events : List (HostEvent m)) {r' : ℕ} {reg' : Registry m}
    (hr' : ((h.publish p r).2.run events).registries[r']? = some reg') :
    (((h.publish p r).2.run events).publish p r').1 ≠ .ok () := by
  have step := sound.step (.publish p r)
  have sound' := step.sound sound
  have hi' := sound'.installation_run (step.installation hi) events
  have hd' := sound'.equipped_run (sound.publish_of_ok hi hr hok).1 rfl events
  obtain ⟨d, hd, -, hiff⟩ := (sound'.run events).publish_eq_ok_iff hi' hr'
  cases hd.symm.trans hd'
  intro hok'
  cases (hiff.mp hok').2

/-- In every run, a name that is known stays so, and its dispatcher has that name and is equipped; a
dispatcher has the handlers that were given to it, at most once; and an installation is published,
at most once, exactly if its name is free and its dispatcher bare. -/
theorem equipped_once (baseName : String) (before after : List (HostEvent m)) :
    let h := (empty baseName : Host m).run before
    let h' := h.run after
    (∀ r name n, h.dispatcher? r name = some n → h'.dispatcher? r name = some n ∧
      ∃ d : Dispatcher m, h.dispatchers[n]? = some d ∧ d.name = name ∧ d.isEquipped = true) ∧
    (∀ (n : ℕ) (d : Dispatcher m), h.dispatchers[n]? = some d →
      d.handlers.toList = (empty baseName).gifts n before ∧
      (∃ d' : Dispatcher m, h'.dispatchers[n]? = some d' ∧ d'.name = d.name) ∧
      (d.isEquipped = true → h'.dispatchers[n]? = some d)) ∧
    ∀ (p r : ℕ) (i : Installation) (reg : Registry m),
      h.installations[p]? = some i → h.registries[r]? = some reg →
      (∃ d : Dispatcher m, h.dispatchers[i.dispatcher]? = some d ∧ d.name = i.api.dispatcher ∧
        ((h.publish p r).1 = .ok () ↔
          h.dispatcher? r i.api.dispatcher = none ∧ d.isEquipped = false)) ∧
      (∀ e, (h.publish p r).1 = .error e → (h.publish p r).2 = h) ∧
      ((h.publish p r).1 = .ok () →
        (h.publish p r).2.dispatchers[i.dispatcher]? =
          some { name := i.api.dispatcher, handlers := some reg.handlers } ∧
        (h.publish p r).2.dispatcher? r i.api.dispatcher = some i.dispatcher ∧
        ∀ (r' : ℕ) (reg' : Registry m), ((h.publish p r).2.run after).registries[r']? = some reg' →
          (((h.publish p r).2.run after).publish p r').1 ≠ .ok ()) := by
  intro h h'
  have sound : h.Sound := (sound_empty baseName).run before
  refine ⟨fun r name n hn => ⟨sound.dispatcher?_run hn after, sound.registered r name n hn⟩,
    fun n d hd => ⟨?_, sound.name_run hd after, fun he => sound.equipped_run hd he after⟩,
    fun p r i reg hi hr => ⟨sound.publish_eq_ok_iff hi hr, fun e => sound.publish_of_error, ?_⟩⟩
  · exact (sound_empty baseName).handlers_run before nofun hd
  · intro hok
    obtain ⟨hd, hn⟩ := sound.publish_of_ok hi hr hok
    exact ⟨hd, hn, fun r' reg' hr' => sound.publish_again hi hr hok after hr'⟩

theorem equipped_once_installed :
    let doc : Json := .obj [("openapi", .str "3.0.0")]
    let h := (empty "" : Host Id).run [.install [] (some "api") doc, .addRegistry]
    (h.publish 0 0).1 = .ok () ∧
      ((h.publish 0 0).2.run [.addRegistry]).registries[1]?.isSome = true ∧
      (((h.publish 0 0).2.run [.addRegistry]).publish 0 1).1 ≠ .ok () := by
  intro doc h
  have hi : h.installations[0]? = some ⟨0, .empty "api"⟩ := rfl
  have hr : h.registries[0]? = some .empty := rfl
  have hok : (h.publish 0 0).1 = .ok () := rfl
  have hr' : ((h.publish 0 0).2.run [.addRegistry]).registries[1]? = some .empty := rfl
  obtain ⟨-, -, published⟩ := equipped_once (m := Id) ""
    [.install [] (some "api") doc, .addRegistry] [.addRegistry]
  obtain ⟨-, -, once⟩ := published 0 0 _ _ hi hr
  exact ⟨hok, by rw [hr']; rfl, (once hok).2.2 1 _ hr'⟩

end Host

end SchemaRoutes
