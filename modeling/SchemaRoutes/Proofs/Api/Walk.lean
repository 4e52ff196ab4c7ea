import Mathlib.Data.List.Sort
import SchemaRoutes.Proofs.Schema.Kind
import SchemaRoutes.Schema.Slot

/-! # Walks to the resources of a schema

A walk goes from a schema to one of its properties, from there to the node that the property leads
to, and so on. The walks that end in an identified node, taken in the order of the document, give
the sites of the schema.
-/

namespace SchemaRoutes

/-- What a property leads to: an array with object items to those items, and any other property
that is of object type or has properties to itself. -/
inductive Schema.LeadsTo (p : Schema) : EndpointKind → Schema → Prop where

  | items {ms : Members} : p.get? "type" = some (.str "array") →
      p.get? "items" = some (.obj ms) → LeadsTo p .collection (.obj ms)

  | self : ¬ (p.get? "type" = some (.str "array") ∧ ∃ ms, p.get? "items" = some (.obj ms)) →
      (p.get? "type" = some (.str "object") ∨ ∃ ms, p.get? "properties" = some (.obj ms)) →
      LeadsTo p .item p

/-- One step of a walk: the property taken, by its place and its name, and where it leads. -/
structure Hop where
  index : ℕ
  name : String
  kind : EndpointKind
  node : Schema

namespace Hop

def From (s : Schema) (h : Hop) : Prop :=
  ∃ properties p, s.get? "properties" = some (.obj properties) ∧
    properties[h.index]? = some (h.name, p) ∧ Schema.LeadsTo p h.kind h.node

def sites (here : Position) (h : Hop) : List Site :=
  match h.kind with
  | .collection =>
    [⟨here, .collection, h.node⟩, ⟨here.member h.node.title?, .item, h.node⟩]
  | .item => [⟨here, .item, h.node⟩]

def beyond (here : Position) (h : Hop) : Position :=
  match h.kind with
  | .collection => here.member h.node.title?
  | .item => here

def IsResource (h : Hop) : Prop := ∃ id, h.node.get? "$id" = some id ∧ id ≠ .null

theorem isIdentified_iff {h : Hop} : h.node.isIdentified = true ↔ h.IsResource :=
  Schema.isIdentified_iff

end Hop

def sitesAlong : Position → List Hop → List Site
  | _, [] => []
  | pos, [h] => h.sites (pos.property h.name)
  | pos, h :: w => sitesAlong (h.beyond (pos.property h.name)) w

/-- A walk of at least one step that ends in a resource. -/
inductive ResourceWalk : Schema → List Hop → Prop where
  | last {s : Schema} {h : Hop} : h.From s → h.IsResource → ResourceWalk s [h]
  | step {s : Schema} {h : Hop} {w : List Hop} : h.From s → ResourceWalk h.node w →
      ResourceWalk s (h :: w)

/-- A walk comes before its own continuations, and otherwise the earlier property decides. -/
def Before (v w : List Hop) : Prop := v.map Hop.index < w.map Hop.index

/-- All walks to resources, each once, in the order of the document. -/
structure Resources (schema : Schema) where
  walks : List (List Hop)
  mem_iff : ∀ w, w ∈ walks ↔ ResourceWalk schema w
  sorted : walks.Pairwise Before

def Resources.sites {schema : Schema} (r : Resources schema) : List Site :=
  r.walks.flatMap (sitesAlong .root)

theorem before_cons {h : Hop} {v w : List Hop} : Before (h :: v) (h :: w) ↔ Before v w := by
  simp [Before]

theorem before_of_index_lt {h h' : Hop} {v w : List Hop} (hi : h.index < h'.index) :
    Before (h :: v) (h' :: w) := by
  simp [Before, List.cons_lt_cons_iff, hi]

theorem not_before_of_before {v w : List Hop} (h : Before v w) : ¬ Before w v :=
  List.lt_asymm h

/-- The walks to the resources of a schema and their order are determined by the schema. -/
instance (schema : Schema) : Subsingleton (Resources schema) where
  allEq r r' := by
    have hn {ws : List (List Hop)} (hs : ws.Pairwise Before) : ws.Nodup :=
      hs.imp fun {v w} h (he : v = w) => not_before_of_before h (he ▸ h)
    have hp : r.walks.Perm r'.walks :=
      (List.perm_ext_iff_of_nodup (hn r.sorted) (hn r'.sorted)).mpr fun w => by
        rw [r.mem_iff, r'.mem_iff]
    have he := hp.eq_of_pairwise
      (fun _ _ _ _ h h' => absurd h' (not_before_of_before h)) r.sorted r'.sorted
    cases r
    cases r'
    cases he
    rfl

theorem Json.depth_lt_of_get? {j x : Json} {key : String} (h : j.get? key = some x) :
    x.depth < j.depth := by
  cases j with
  | obj ms => exact Nat.lt_succ_of_le (depth_le_of_get? h)
  | _ => cases h

namespace Schema.LeadsTo

variable {p t t' : Schema} {k k' : EndpointKind}

theorem unique (h : LeadsTo p k t) (h' : LeadsTo p k' t') : k = k' ∧ t = t' := by
  cases h with
  | items ht hi =>
    cases h' with
    | items _ hi' => exact ⟨rfl, Option.some.inj (hi.symm.trans hi')⟩
    | self hn _ => exact absurd ⟨ht, _, hi⟩ hn
  | self hn _ =>
    cases h' with
    | items ht hi => exact absurd ⟨ht, _, hi⟩ hn
    | self _ _ => exact ⟨rfl, rfl⟩

theorem depth_le (h : LeadsTo p k t) : t.depth ≤ p.depth := by
  cases h with
  | items _ hi => exact (Json.depth_lt_of_get? hi).le
  | self _ _ => exact le_rfl

end Schema.LeadsTo

namespace Site

variable {p : Schema} {here : Position}

theorem belowItems_eq {ms : Members} {t : Json} (h : ms.get? "items" = some t) :
    belowItems here ms = ofItems here t := by
  induction ms with
  | nil => cases h
  | cons m ms ih =>
    obtain ⟨key, value⟩ := m
    rw [belowItems]
    rw [Members.get?, List.lookup_cons] at h
    by_cases hk : key = "items"
    · subst hk
      cases h
      rfl
    · have hk' : ("items" == key) = false := beq_eq_false_iff_ne.mpr (Ne.symm hk)
      rw [hk'] at h
      rw [if_neg (by simpa using hk), ih h]

theorem ofProperty_of_leadsTo {h : Hop} (hl : Schema.LeadsTo p h.kind h.node) :
    ofProperty here p =
      (if h.node.isIdentified then h.sites here else []) ++
        below (h.beyond here) h.node.members := by
  obtain ⟨index, name, kind, node⟩ := h
  cases hl with
  | @items ms ht hi =>
    have hc : p.collectionItems? = some (.obj ms) :=
      Schema.collectionItems?_eq_some_iff.mpr ⟨ht, hi, ms, rfl⟩
    cases p with
    | obj members =>
      have hm : Members.get? members "items" = some (.obj ms) := hi
      rw [ofProperty, hc, if_pos Option.isSome_some, belowItems_eq hm]
      rfl
    | _ => cases hi
  | self hn hm =>
    have hc := Schema.collectionItems?_eq_none_iff.mpr hn
    cases node with
    | obj members =>
      rw [ofProperty, hc, if_neg (by simp), if_pos (Schema.holdsMembers_iff.mpr hm)]
      rfl
    | _ => rcases hm with hm | ⟨_, hm⟩ <;> cases hm

theorem ofProperty_eq_nil (hn : ∀ k t, ¬ Schema.LeadsTo p k t) : ofProperty here p = [] := by
  cases p with
  | obj members =>
    have hi : ¬ (Json.get? (.obj members) "type" = some (.str "array") ∧
        ∃ ms, Json.get? (.obj members) "items" = some (.obj ms)) := by
      rintro ⟨ha, ms, hi⟩
      exact hn _ _ (.items ha hi)
    have hm : ¬ Schema.holdsMembers (.obj members) = true := by
      intro hm
      exact hn _ _ (.self hi (Schema.holdsMembers_iff.mp hm))
    have hc := Schema.collectionItems?_eq_none_iff.mpr hi
    rw [ofProperty, hc, if_neg (by simp), if_neg hm]
  | _ => rfl

end Site

/-- Walks whose first step is one of some steps cover the sites that these steps lead to. -/
structure Covers (first : Hop → Prop) (sites : Position → List Site) (walks : List (List Hop)) :
    Prop where
  mem_iff : ∀ w, w ∈ walks ↔
    ∃ h v, w = h :: v ∧ first h ∧ (v = [] ∧ h.IsResource ∨ ResourceWalk h.node v)
  sorted : walks.Pairwise Before
  sites_eq : ∀ pos, sites pos = walks.flatMap (sitesAlong pos)

theorem resourceWalk_iff {s : Schema} {w : List Hop} :
    ResourceWalk s w ↔
      ∃ h v, w = h :: v ∧ h.From s ∧ (v = [] ∧ h.IsResource ∨ ResourceWalk h.node v) := by
  constructor
  · intro hw
    cases hw with
    | last hf hr => exact ⟨_, _, rfl, hf, .inl ⟨rfl, hr⟩⟩
    | step hf hv => exact ⟨_, _, rfl, hf, .inr hv⟩
  · rintro ⟨h, v, rfl, hf, ⟨rfl, hr⟩ | hv⟩
    · exact .last hf hr
    · exact .step hf hv

theorem sitesAlong_cons {pos : Position} {h : Hop} {w : List Hop} (hw : w ≠ []) :
    sitesAlong pos (h :: w) = sitesAlong (h.beyond (pos.property h.name)) w := by
  cases w with
  | nil => exact absurd rfl hw
  | cons => rfl

namespace Covers

variable {first first' : Hop → Prop} {sites sites' : Position → List Site}
  {walks walks' : List (List Hop)}

theorem congr (c : Covers first sites walks) (hf : ∀ h, first' h ↔ first h)
    (hs : ∀ pos, sites' pos = sites pos) : Covers first' sites' walks where
  mem_iff w := by simp only [c.mem_iff, hf]
  sorted := c.sorted
  sites_eq pos := (hs pos).trans (c.sites_eq pos)

theorem nil (hn : ∀ h, ¬ first h) : Covers first (fun _ => []) [] where
  mem_iff w := by simp [hn]
  sorted := .nil
  sites_eq _ := rfl

theorem append (c : Covers first sites walks) (c' : Covers first' sites' walks')
    (hlt : ∀ h h', first h → first' h' → h.index < h'.index) :
    Covers (fun h => first h ∨ first' h) (fun pos => sites pos ++ sites' pos)
      (walks ++ walks') where
  mem_iff w := by
    rw [List.mem_append, c.mem_iff, c'.mem_iff]
    constructor
    · rintro (⟨h, v, he, hf, hv⟩ | ⟨h, v, he, hf, hv⟩)
      · exact ⟨h, v, he, .inl hf, hv⟩
      · exact ⟨h, v, he, .inr hf, hv⟩
    · rintro ⟨h, v, he, hf | hf, hv⟩
      · exact .inl ⟨h, v, he, hf, hv⟩
      · exact .inr ⟨h, v, he, hf, hv⟩
  sorted := by
    refine List.pairwise_append.mpr ⟨c.sorted, c'.sorted, fun w hw w' hw' => ?_⟩
    obtain ⟨h, v, rfl, hf, -⟩ := (c.mem_iff w).mp hw
    obtain ⟨h', v', rfl, hf', -⟩ := (c'.mem_iff w').mp hw'
    exact before_of_index_lt (hlt h h' hf hf')
  sites_eq pos := by rw [c.sites_eq, c'.sites_eq, List.flatMap_append]

/-- Through one step go the walk that ends there, if it ends in a resource, and then all that go
on. -/
theorem through (h : Hop) (c : Covers (Hop.From h.node) sites walks) :
    Covers (· = h)
      (fun pos => (if h.node.isIdentified then h.sites (pos.property h.name) else []) ++
        sites (h.beyond (pos.property h.name)))
      ((if h.node.isIdentified then [[h]] else []) ++ walks.map (h :: ·)) where
  mem_iff w := by
    simp only [List.mem_append, List.mem_map, List.mem_ite_nil_right, List.mem_singleton,
      Hop.isIdentified_iff, c.mem_iff, ← resourceWalk_iff]
    constructor
    · rintro (⟨hr, rfl⟩ | ⟨v, hv, rfl⟩)
      · exact ⟨h, [], rfl, rfl, .inl ⟨rfl, hr⟩⟩
      · exact ⟨h, v, rfl, rfl, .inr hv⟩
    · rintro ⟨_, v, rfl, rfl, ⟨rfl, hr⟩ | hv⟩
      · exact .inl ⟨hr, rfl⟩
      · exact .inr ⟨v, hv, rfl⟩
  sorted := by
    refine List.pairwise_append.mpr ⟨by split <;> simp, ?_, fun w hw w' hw' => ?_⟩
    · exact List.pairwise_map.mpr (c.sorted.imp before_cons.mpr)
    · obtain ⟨v, hv, rfl⟩ := List.mem_map.mp hw'
      obtain ⟨h', v', rfl, -⟩ := (c.mem_iff v).mp hv
      obtain ⟨-, rfl⟩ : _ ∧ w = [h] := by simpa using hw
      exact before_cons.mpr (List.nil_lt_cons _ _)
  sites_eq pos := by
    rw [List.flatMap_append, List.flatMap_map, c.sites_eq]
    congr 1
    · split <;> simp [sitesAlong]
    · refine List.flatMap_congr fun v hv => ?_
      obtain ⟨h', v', rfl, -⟩ := (c.mem_iff v).mp hv
      exact (sitesAlong_cons (by simp)).symm

end Covers

def Hop.Among (n : ℕ) (ps : Members) (h : Hop) : Prop :=
  n ≤ h.index ∧ ∃ p, ps[h.index - n]? = some (h.name, p) ∧ Schema.LeadsTo p h.kind h.node

theorem Hop.among_cons {n : ℕ} {name : String} {p : Json} {ps : Members} {h : Hop} :
    h.Among n ((name, p) :: ps) ↔
      (h.index = n ∧ h.name = name ∧ Schema.LeadsTo p h.kind h.node) ∨ h.Among (n + 1) ps := by
  unfold Among
  constructor
  · rintro ⟨hn, q, hq, hl⟩
    rcases hn.eq_or_lt with he | hlt
    · rw [he, Nat.sub_self, List.getElem?_cons_zero] at hq
      cases hq
      exact .inl ⟨he.symm, rfl, hl⟩
    · rw [show h.index - n = h.index - (n + 1) + 1 by omega, List.getElem?_cons_succ] at hq
      exact .inr ⟨hlt, q, hq, hl⟩
  · rintro (⟨rfl, rfl, hl⟩ | ⟨hn, q, hq, hl⟩)
    · exact ⟨le_rfl, p, by simp, hl⟩
    · refine ⟨by omega, q, ?_, hl⟩
      rwa [show h.index - n = h.index - (n + 1) + 1 by omega, List.getElem?_cons_succ]

theorem exists_covers_each (n : ℕ) (ps : Members)
    (ih : ∀ m ∈ ps, ∀ k t, Schema.LeadsTo m.2 k t →
      ∃ walks, Covers (Hop.From t) (fun pos => Site.below pos t.members) walks) :
    ∃ walks, Covers (Hop.Among n ps) (fun pos => Site.belowEach pos ps) walks := by
  induction ps generalizing n with
  | nil =>
    refine ⟨[], .nil ?_⟩
    rintro h ⟨-, p, hp, -⟩
    simp at hp
  | cons m ps ihs =>
    obtain ⟨name, p⟩ := m
    obtain ⟨rest, hrest⟩ := ihs (n + 1) fun m hm => ih m (.tail _ hm)
    by_cases hl : ∃ k t, Schema.LeadsTo p k t
    · obtain ⟨k, t, hl⟩ := hl
      obtain ⟨walks, hw⟩ := ih _ (.head _) k t hl
      refine ⟨_, ((hw.through ⟨n, name, k, t⟩).append hrest ?_).congr (fun h => ?_) fun pos => ?_⟩
      · rintro _ h' rfl ⟨hi, -⟩
        exact hi
      · rw [Hop.among_cons]
        refine or_congr_left ⟨?_, ?_⟩
        · rintro ⟨rfl, rfl, hl'⟩
          obtain ⟨rfl, rfl⟩ := hl.unique hl'
          rfl
        · rintro rfl
          exact ⟨rfl, rfl, hl⟩
      · rw [Site.belowEach, Site.ofProperty_of_leadsTo (h := ⟨n, name, k, t⟩) hl]
    · refine ⟨rest, hrest.congr (fun h => ?_) fun pos => ?_⟩
      · rw [Hop.among_cons]
        refine or_iff_right ?_
        rintro ⟨-, -, hl'⟩
        exact hl ⟨_, _, hl'⟩
      · rw [Site.belowEach, Site.ofProperty_eq_nil fun k t hl' => hl ⟨k, t, hl'⟩, List.nil_append]

theorem exists_covers (s : Schema) :
    ∃ walks, Covers (Hop.From s) (fun pos => Site.below pos s.members) walks := by
  -- Items of an array are no property of it, so the induction is on the depth of the node.
  induction hd : s.depth using Nat.strong_induction_on generalizing s with
  | _ d ih =>
    subst hd
    have hb : ∀ pos, Site.below pos s.members = Site.belowEach pos (s.properties?.getD []) := by
      intro pos
      cases s <;> first | rfl | exact Site.below_eq _ _
    cases hp : s.properties? with
    | none =>
      refine ⟨[], Covers.nil (?_) |>.congr (fun _ => .rfl) fun pos => ?_⟩
      · rintro h ⟨properties, _, hps, -⟩
        rw [← Schema.properties?_eq_some_iff, hp] at hps
        cases hps
      · rw [hb, hp]
        rfl
    | some properties =>
      have hps := Schema.properties?_eq_some_iff.mp hp
      obtain ⟨walks, hw⟩ := exists_covers_each 0 properties fun m hm k t hl => by
        have h₁ := Json.depth_lt_of_get? hps
        have h₂ := Json.depth_le_of_mem_members hm
        have h₃ := hl.depth_le
        simp only [Json.depth] at h₁
        exact ih t.depth (by omega) t rfl
      refine ⟨walks, hw.congr (fun h => ?_) fun pos => by rw [hb, hp]; rfl⟩
      constructor
      · rintro ⟨properties', p, hps', hi, hl⟩
        cases hps.symm.trans hps'
        exact ⟨Nat.zero_le _, p, hi, hl⟩
      · rintro ⟨-, p, hi, hl⟩
        exact ⟨properties, p, hps, hi, hl⟩

/-- The sites of a schema are those of its resources, in order. -/
theorem exists_resources (s : Schema) : ∃ r : Resources s, Site.all s = r.sites := by
  obtain ⟨walks, c⟩ := exists_covers s
  exact ⟨⟨walks, fun w => (c.mem_iff w).trans resourceWalk_iff.symm, c.sorted⟩, c.sites_eq _⟩

end SchemaRoutes
