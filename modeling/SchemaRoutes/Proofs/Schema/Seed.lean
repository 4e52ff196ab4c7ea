import Mathlib.Data.Nat.Init
import SchemaRoutes.Schema.Seed
import SchemaRoutes.Proofs.Schema.Kind
import SchemaRoutes.Proofs.Schema.Slot
import SchemaRoutes.Proofs.Schema.Traversal

/-! # Seeds as a recursion

What a node contributes to the seed around it depends on its own default and on what its
sub-schemas contribute, and on nothing else that a traversal meets. So a seed is made up of values
that the schema gives.
-/

namespace SchemaRoutes

namespace Seed

open Traversal Visitor

/-- What a node contributes, as the root of a schema or below it. -/
def of (isRoot : Bool) (s : Schema) : Seed :=
  (visitor.visit visitor_shallow ⟨[], if isRoot then none else some []⟩ s []).1

/-- What the sub-schemas of a record contribute; of another node they are not looked at. -/
def parts (isRoot : Bool) (s : Schema) : List (Slot × Seed) :=
  if role isRoot s = .record then s.members.children.map fun c => (c.1, of false c.2) else []

/-- The role of a node decides, and the roles around it are left as they were. -/
def IsVisited (s : Schema) : Prop :=
  ∀ ctx roles, visitor.visit visitor_shallow ctx s roles =
    (ofRole (role ctx.isRoot s) s (parts ctx.isRoot s), roles)

theorem exists_obj_of_role {isRoot : Bool} {s : Schema} (h : role isRoot s = .record) :
    ∃ ms : Members, s = .obj ms := by
  cases s with
  | obj ms => exact ⟨ms, rfl⟩
  | _ => cases isRoot <;> cases h

theorem ofRole_record_emptied (ms : Members) (children : List (Slot × Seed)) :
    ofRole .record (.obj ms.emptied) children = ofRole .record (.obj ms) children := by
  have hd : Json.get? (.obj ms.emptied) "default" = Json.get? (.obj ms) "default" :=
    Members.get?_emptied_of_lookup_eq_none ms (by decide)
  rw [ofRole, ofRole, hd]

theorem isVisited (s : Schema) : IsVisited s := by
  induction hn : s.depth using Nat.strong_induction_on generalizing s with
  | _ n ih =>
    subst hn
    intro ctx roles
    by_cases hr : role ctx.isRoot s = .record
    · obtain ⟨ms, rfl⟩ := exists_obj_of_role hr
      have hopened : (visitor.enter ctx (.obj ms) roles).1.opened? = some ms := by
        simp [visitor, hr, Decision.opened?]
      have hchildren : ∀ c ∈ ms.children, ∀ roles, visitor.visit visitor_shallow
          ⟨ctx.path ++ [c.1], some ms.emptied⟩ c.2 roles = (of false c.2, roles) := by
        intro c hc roles
        have hc := ih _ (Members.depth_lt_of_mem_children hc) c.2 rfl
        rw [hc, of, hc]
        rfl
      rw [visit_of_opened visitor_shallow hopened,
        visitEach_eq_map (f := fun _ child => of false child) hchildren]
      simp only [visitor, hr, List.headD_cons, List.tail_cons, parts, if_true, Json.members,
        ofRole_record_emptied]
    · have hclosed : (visitor.enter ctx s roles).1.opened? = none := by
        simp [visitor, hr, Decision.opened?]
      rw [visit_of_closed visitor_shallow hclosed]
      simp [visitor, hr, parts, Decision.node]

theorem of_eq (isRoot : Bool) (s : Schema) :
    of isRoot s = ofRole (role isRoot s) s (parts isRoot s) := by
  rw [of, isVisited s]
  cases isRoot <;> rfl

theorem wellFormed_emptyValue (s : Schema) : (emptyValue s).WellFormed := by
  unfold emptyValue
  split
  · exact trivial
  split
  · exact ⟨List.nodup_nil, trivial⟩
  · exact trivial

theorem wellFormed_foldl_overlay {parts : List (Slot × Seed)}
    (hp : ∀ c ∈ parts, c.2.value.WellFormed) {ms : Members} (h : (Json.obj ms).WellFormed) :
    (Json.obj (parts.foldl overlay ms)).WellFormed := by
  induction parts generalizing ms with
  | nil => exact h
  | cons c parts ih =>
    obtain ⟨hc, hp⟩ := List.forall_mem_cons.mp hp
    refine ih hp ?_
    unfold overlay
    split
    · next name seed =>
      split
      · exact h
      split
      · exact h.insert hc
      · refine h.insert ?_
        cases hv : ms.get? name with
        | none => exact trivial
        | some v => exact Json.WellFormed.of_get? h hv
    · exact h

theorem wellFormed_ofRole {s : Schema} (h : s.WellFormed) (role : Role)
    {parts : List (Slot × Seed)} (hp : ∀ c ∈ parts, c.2.value.WellFormed) :
    (ofRole role s parts).value.WellFormed := by
  have hdefault : ∀ v : Json, v.WellFormed → ((s.get? "default").getD v).WellFormed := by
    intro v hv
    cases hd : s.get? "default" with
    | none => exact hv
    | some d => exact h.of_get? hd
  cases role with
  | linked => exact wellFormed_emptyValue s
  | list => exact hdefault (.arr []) trivial
  | record => exact wellFormed_foldl_overlay hp (hdefault .null trivial).members
  | scalar => exact hdefault .null trivial

theorem wellFormed_of (s : Schema) : s.WellFormed → ∀ isRoot, (of isRoot s).value.WellFormed := by
  induction hn : s.depth using Nat.strong_induction_on generalizing s with
  | _ n ih =>
    subst hn
    intro h isRoot
    rw [of_eq]
    refine wellFormed_ofRole h _ ?_
    intro c hc
    unfold parts at hc
    split at hc
    · next hr =>
      obtain ⟨ms, rfl⟩ := exists_obj_of_role hr
      obtain ⟨child, hchild, rfl⟩ := List.mem_map.mp hc
      exact ih _ (Members.depth_lt_of_mem_children hchild) child.2 rfl
        (h.of_mem_children hchild) false
    · cases hc

end Seed

theorem Schema.seed_eq (s : Schema) : s.seed = (Seed.of true s).value := rfl

theorem Schema.wellFormed_seed {s : Schema} (h : s.WellFormed) : s.seed.WellFormed := by
  rw [seed_eq]
  exact Seed.wellFormed_of s h true

end SchemaRoutes
