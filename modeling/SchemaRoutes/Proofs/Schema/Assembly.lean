import SchemaRoutes.Proofs.Schema.Seed

/-! # Seeds assembled from properties

A seed can be had without a traversal: a node looks at a few keywords of its own and at what its
properties contribute, and at nothing below another keyword. So schemas that differ elsewhere only
have the same seed.
-/

namespace SchemaRoutes

def Schema.defaultMembers (s : Schema) : Members :=
  match s.get? "default" with
  | some (.obj ms) => ms
  | _ => []

theorem Schema.members_default (s : Schema) :
    ((s.get? "default").getD .null).members = s.defaultMembers := by
  unfold defaultMembers
  cases s.get? "default" with
  | none => rfl
  | some d => cases d <;> rfl

theorem Schema.properties?_cons (key : String) (value : Json) (ms : Members) :
    Schema.properties? (.obj ((key, value) :: ms)) =
      if key = "properties" then (match value with | .obj ps => some ps | _ => none)
      else Schema.properties? (.obj ms) := by
  change (match Members.get? ((key, value) :: ms) "properties" with
    | some (.obj ps) => some ps
    | _ => none) = _
  rw [Members.get?_cons]
  by_cases hk : key = "properties"
  · rw [if_pos hk, if_pos hk.symm]
    cases value <;> rfl
  · rw [if_neg hk, if_neg (Ne.symm hk)]
    rfl

namespace Seed

open Traversal Visitor

/-- The node is addressed by link, or is not written by clients. -/
def IsWithheld (isRoot : Bool) (s : Schema) : Prop :=
  (s.isList ∧ (s.get? "items").any Schema.isIdentified) ∨
    (isRoot = false ∧ s.holdsMembers ∧ s.isIdentified) ∨ s.isReadOnly

instance {isRoot : Bool} {s : Schema} : Decidable (IsWithheld isRoot s) :=
  inferInstanceAs (Decidable (_ ∨ _ ∨ _))

/-- Sets the member for a property. Where the property has no value, the one before it is kept. -/
def lay (soFar : Members) (property : String × Seed) : Members :=
  let (name, seed) := property
  if seed.keyed then
    soFar.insert name (if seed.value = .null then (soFar.get? name).getD .null else seed.value)
  else soFar

def atNode (isRoot : Bool) (s : Schema) (properties : List (String × Seed)) : Seed :=
  if IsWithheld isRoot s then
    ⟨if s.isList then .arr [] else if s.isRecord then .obj [] else .null, false⟩
  else if s.isList then ⟨(s.get? "default").getD (.arr []), false⟩
  else if s.isRecord then ⟨.obj (properties.foldl lay s.defaultMembers), true⟩
  else ⟨(s.get? "default").getD .null, true⟩

mutual

/-- What a node contributes, by recursion on its properties. -/
def assemble (isRoot : Bool) : Schema → Seed
  | .obj ms => atNode isRoot (.obj ms) (assembleBelow ms)
  | s => atNode isRoot s []
termination_by structural s => s

def assembleBelow : Members → List (String × Seed)
  | [] => []
  | (key, value) :: ms => if key = "properties" then assembleAll value else assembleBelow ms
termination_by structural ms => ms

def assembleAll : Json → List (String × Seed)
  | .obj properties => assembleEach properties
  | _ => []
termination_by structural j => j

def assembleEach : Members → List (String × Seed)
  | [] => []
  | (name, p) :: properties => (name, assemble false p) :: assembleEach properties
termination_by structural properties => properties

end

theorem assembleEach_eq (properties : Members) :
    assembleEach properties = properties.map fun p => (p.1, assemble false p.2) := by
  induction properties with
  | nil => rfl
  | cons p properties ih => rw [assembleEach, ih, List.map_cons]

theorem assembleBelow_eq (ms : Members) :
    assembleBelow ms =
      ((Schema.properties? (.obj ms)).getD []).map fun p => (p.1, assemble false p.2) := by
  induction ms with
  | nil => rfl
  | cons m ms ih =>
    obtain ⟨key, value⟩ := m
    rw [assembleBelow, Schema.properties?_cons]
    by_cases hk : key = "properties"
    · rw [if_pos hk, if_pos hk]
      cases value with
      | obj properties => exact assembleEach_eq properties
      | _ => rfl
    · rw [if_neg hk, if_neg hk, ih]

theorem assemble_eq (isRoot : Bool) (s : Schema) :
    assemble isRoot s =
      atNode isRoot s ((s.properties?.getD []).map fun p => (p.1, assemble false p.2)) := by
  cases s with
  | obj ms => rw [assemble, assembleBelow_eq]
  | _ => rfl

/-! ## The traversal gives what the recursion gives -/

theorem role_eq (isRoot : Bool) (s : Schema) :
    role isRoot s = if IsWithheld isRoot s then .linked else if s.isList then .list
      else if s.isRecord then .record else .scalar := by
  simp only [role, Bool.or_eq_true, Bool.and_eq_true, Bool.not_eq_true', or_assoc, and_assoc]
  exact if_congr Iff.rfl rfl rfl

theorem overlay_property (soFar : Members) (name : String) (seed : Seed) :
    overlay soFar (.property name, seed) = lay soFar (name, seed) := by
  obtain ⟨value, keyed⟩ := seed
  cases keyed with
  | false => rfl
  | true => cases value <;> rfl

theorem overlay_of_ne {c : Slot × Seed} (h : ∀ name, c.1 ≠ .property name) (soFar : Members) :
    overlay soFar c = soFar := by
  unfold overlay
  split
  · next name seed => exact absurd rfl (h name)
  · rfl

/-- Properties are visited first, and no other slot is one of a property. -/
theorem exists_children_eq (ms : Members) :
    ∃ others, ms.children =
        (((Schema.properties? (.obj ms)).getD []).map fun p => (Slot.property p.1, p.2)) ++ others ∧
      ∀ c ∈ others, ∀ name, c.1 ≠ .property name := by
  refine ⟨Slot.keywords.tail.flatMap fun k => (ms.get? k.1).elim [] (Slot.under k.1 k.2), ?_, ?_⟩
  · have hproperties : Schema.properties? (.obj ms) = match ms.get? "properties" with
      | some (.obj properties) => some properties
      | _ => none := rfl
    rw [Members.children, Slot.keywords, List.flatMap_cons, hproperties]
    refine congrArg₂ (· ++ ·) ?_ (List.flatMap_congr fun k _ => ?_)
    · dsimp only
      cases ms.get? "properties" with
      | none => rfl
      | some value => cases value <;> rfl
    · dsimp only
      cases ms.get? k.1 <;> rfl
  · rintro c hc name hname
    obtain ⟨k, hk, hc⟩ := List.mem_flatMap.mp hc
    cases hv : ms.get? k.1 with
    | none => simp [hv] at hc
    | some value =>
      simp only [hv] at hc
      have hkeyword : c.1.keyword = k.1 := Slot.keyword_of_mem_under (List.mem_of_mem_tail hk) hc
      have hne : ∀ k ∈ Slot.keywords.tail, k.1 ≠ "properties" := by decide
      rw [hname] at hkeyword
      exact hne k hk hkeyword.symm

theorem foldl_overlay_children (ms : Members) (f : Schema → Seed) (start : Members) :
    (ms.children.map fun c => (c.1, f c.2)).foldl overlay start =
      (((Schema.properties? (.obj ms)).getD []).map fun p => (p.1, f p.2)).foldl lay start := by
  obtain ⟨others, he, hothers⟩ := exists_children_eq ms
  have hrest : ∀ soFar, (others.map fun c => (c.1, f c.2)).foldl overlay soFar = soFar := by
    intro soFar
    rw [List.foldl_map]
    refine List.foldlRecOn (motive := fun m => m = soFar) others _ rfl ?_
    rintro _ rfl c hc
    exact overlay_of_ne (hothers c hc) _
  rw [he, List.map_append, List.foldl_append, hrest, List.map_map, List.foldl_map, List.foldl_map]
  simp only [Function.comp, overlay_property]

theorem of_eq_assemble (s : Schema) : ∀ isRoot, of isRoot s = assemble isRoot s := by
  induction hn : s.depth using Nat.strong_induction_on generalizing s with
  | _ n ih =>
    subst hn
    intro isRoot
    rw [of_eq, assemble_eq, role_eq, atNode]
    split
    · rfl
    split
    · rfl
    split
    · next hw hl hr =>
      have hrole : role isRoot s = .record := by rw [role_eq, if_neg hw, if_neg hl, if_pos hr]
      obtain ⟨ms, rfl⟩ := exists_obj_of_role hrole
      have hbelow : ∀ c ∈ ms.children, (c.1, of false c.2) = (c.1, assemble false c.2) := by
        intro c hc
        rw [ih _ (Members.depth_lt_of_mem_children hc) c.2 rfl]
      rw [parts, if_pos hrole, Json.members, List.map_congr_left hbelow, ofRole,
        foldl_overlay_children, Schema.members_default]
    · rfl

/-- Each node is left with the stack of roles that its enter has made. -/
theorem stateOnLeave_eq (ctx : Context) (s : Schema) (roles : List Role) :
    visitor.stateOnLeave visitor_shallow ctx s roles = role ctx.isRoot s :: roles := by
  cases ho : (visitor.enter ctx s roles).1.opened? with
  | none => exact stateOnLeave_of_closed visitor_shallow ho
  | some ms =>
    rw [stateOnLeave_of_opened visitor_shallow ho]
    have hchildren : ∀ c ∈ ms.children, ∀ roles, visitor.visit visitor_shallow
        ⟨ctx.path ++ [c.1], some ms.emptied⟩ c.2 roles = (of false c.2, roles) := by
      intro c _ roles
      rw [isVisited c.2, of_eq]
      rfl
    rw [visitEach_eq_map (f := fun _ child => of false child) hchildren]
    rfl

/-! ## What does not matter -/

def keywords : List String := ["type", "$id", "readOnly", "default"]

/-- The two agree in what their seeds are made of, at every level. They may differ in all other
keywords, and in all that is below these. -/
inductive Alike : Schema → Schema → Prop where
  | intro {s s' : Schema} (values : ∀ key ∈ keywords, s.get? key = s'.get? key)
      (items : (s.get? "items").any Schema.isIdentified = (s'.get? "items").any Schema.isIdentified)
      (kind : s.properties?.isSome = s'.properties?.isSome)
      (names : (s.properties?.getD []).keys = (s'.properties?.getD []).keys)
      (properties : ∀ pair ∈ (s.properties?.getD []).zip (s'.properties?.getD []),
        Alike pair.1.2 pair.2.2) :
      Alike s s'

theorem map_eq_of_zip {ps ps' : Members} {f : Schema → Seed} (hk : ps.keys = ps'.keys)
    (h : ∀ pair ∈ ps.zip ps', f pair.1.2 = f pair.2.2) :
    ps.map (fun p => (p.1, f p.2)) = ps'.map fun p => (p.1, f p.2) := by
  induction ps generalizing ps' with
  | nil =>
    cases ps' with
    | nil => rfl
    | cons => cases hk
  | cons p ps ih =>
    cases ps' with
    | nil => cases hk
    | cons p' ps' =>
      obtain ⟨hname, hk⟩ := List.cons.inj hk
      obtain ⟨hp, h⟩ := List.forall_mem_cons.mp h
      rw [List.map_cons, List.map_cons, hname, hp, ih hk h]

theorem Alike.atNode_eq {s s' : Schema} (h : Alike s s') (isRoot : Bool)
    (properties : List (String × Seed)) :
    atNode isRoot s properties = atNode isRoot s' properties := by
  obtain ⟨values, items, kind, -, -⟩ := h
  simp only [keywords, List.forall_mem_cons] at values
  obtain ⟨htype, hid, hreadOnly, hdefault, -⟩ := values
  have hlist : s.isList = s'.isList := by
    rw [Schema.isList, Schema.typeName?, htype, Schema.isList, Schema.typeName?]
  have hrecord : s.isRecord = s'.isRecord := by
    rw [Schema.isRecord, htype, kind, Schema.isRecord]
  have hmembers : s.defaultMembers = s'.defaultMembers := by
    rw [Schema.defaultMembers, hdefault, Schema.defaultMembers]
  have hwithheld : IsWithheld isRoot s ↔ IsWithheld isRoot s' := by
    rw [IsWithheld, IsWithheld, hlist, items, Schema.holdsMembers, Schema.typeName?, htype, kind,
      Schema.isIdentified, Schema.declares, hid, Schema.isReadOnly, hreadOnly]
    rfl
  rw [atNode, atNode, hlist, hrecord, hmembers, hdefault]
  exact if_congr hwithheld rfl rfl

theorem Alike.assemble_eq {s s' : Schema} (h : Alike s s') :
    ∀ isRoot, assemble isRoot s = assemble isRoot s' := by
  induction h with
  | intro values items kind names properties ih =>
    intro isRoot
    rw [Seed.assemble_eq, Seed.assemble_eq,
      map_eq_of_zip names fun pair hp => ih pair hp false]
    exact (Alike.intro values items kind names properties).atNode_eq isRoot _

end Seed

/-- A seed is what the recursion on properties gives. So whatever else is in a schema, at any level
below its properties, has no influence. In the traversal each node is left with the roles that
were there when it was entered and its own in front, so it is left in its own role. -/
theorem Schema.seed_eq_assemble :
    (∀ s : Schema, s.seed = (Seed.assemble true s).value) ∧
    (∀ isRoot s, Seed.assemble isRoot s = Seed.atNode isRoot s
      ((s.properties?.getD []).map fun p => (p.1, Seed.assemble false p.2))) ∧
    (∀ s s' : Schema, Seed.Alike s s' → s.seed = s'.seed) ∧
    ∀ ctx s roles,
      (∃ left outs, Seed.visitor.visit Seed.visitor_shallow ctx s roles =
        Seed.visitor.leave ctx left outs
          (Seed.visitor.stateOnLeave Seed.visitor_shallow ctx s roles)) ∧
      Seed.visitor.stateOnLeave Seed.visitor_shallow ctx s roles =
        (Seed.visitor.enter ctx s roles).2 ∧
      (Seed.visitor.visit Seed.visitor_shallow ctx s roles).2 = roles := by
  have hseed : ∀ s : Schema, s.seed = (Seed.assemble true s).value := by
    intro s
    rw [seed_eq, Seed.of_eq_assemble]
  refine ⟨hseed, Seed.assemble_eq, ?_, ?_⟩
  · intro s s' h
    rw [hseed, hseed, h.assemble_eq]
  · intro ctx s roles
    refine ⟨?_, Seed.stateOnLeave_eq ctx s roles, ?_⟩
    · exact Traversal.Visitor.exists_visit_eq_leave Seed.visitor_shallow ctx s roles
    · rw [Seed.isVisited s]

end SchemaRoutes
