import Mathlib.Logic.Relation
import Mathlib.Order.WellFounded
import SchemaRoutes.Proofs.Source.Expansion
import SchemaRoutes.Schema.Slot

/-! # Inlining ends

Inlining calls itself for the parts of a value, and for what a reference leads to, which may be
larger than the value. For the time of such a call the place is among those being inlined, and none
of these is entered again. The places lie in finitely many documents. So from call to call either
the places that are left get fewer, or they are the same and the value gets less deep.
-/

namespace SchemaRoutes

namespace Reference

/-- A call of the recursion: the places that are being inlined around it, and what it inlines. -/
structure Call where
  entered : List String
  document : Document
  value : Json

namespace Call

/-- The calls that a call makes. A place that is being inlined is not entered again. -/
inductive Makes (t : FileTree) : Call → Call → Prop where
  | item {entered : List String} {doc : Document} {xs : List Json} {x : Json} :
      x ∈ xs → Makes t ⟨entered, doc, .arr xs⟩ ⟨entered, doc, x⟩
  | member {entered : List String} {doc : Document} {ms : Members} {m : String × Json} :
      m ∈ ms → ((of? ms).isSome → m.1 ≠ "$ref") →
      Makes t ⟨entered, doc, .obj ms⟩ ⟨entered, doc, m.2⟩
  | target {entered : List String} {doc : Document} {ms : Members} {reference : String}
      {target : Target} :
      of? ms = some reference → locate t doc reference = .ok target → target.place ∉ entered →
      Makes t ⟨entered, doc, .obj ms⟩ ⟨target.place :: entered, target.document, target.value⟩

/-- What a call comes to. A reference fails if it leads nowhere or to a place that is being inlined,
and otherwise it stands for what the call for its target comes to. -/
inductive Outcome (t : FileTree) : Call → Except SourceError Json → Prop where
  | intro {c : Call} (follow : String → Except SourceError Json)
      (missing : ∀ reference ∈ all c.value, ∀ e,
        locate t c.document reference = .error e → follow reference = .error e)
      (circular : ∀ reference ∈ all c.value, ∀ target,
        locate t c.document reference = .ok target → target.place ∈ c.entered →
          follow reference = .error (.circularReference reference))
      (entering : ∀ reference ∈ all c.value, ∀ target,
        locate t c.document reference = .ok target → target.place ∉ c.entered →
          Outcome t ⟨target.place :: c.entered, target.document, target.value⟩
            (follow reference)) :
      Outcome t c (inlineWith follow c.value)

structure LiesIn (t : FileTree) (home : Document) (c : Call) : Prop where
  document : FoundIn t home c.document
  references : all c.value ⊆ all c.document.root

def unentered (places : List String) (c : Call) : List String := places.filter (· ∉ c.entered)

/-- What gets less from call to call: first the number of places left, then the depth. -/
def measure (places : List String) (c : Call) : ℕ × ℕ :=
  ((c.unentered places).length, c.value.depth)

variable {t : FileTree} {home doc : Document} {c c' : Call} {places entered : List String}
  {reference place : String} {target : Target} {value : Json} {x x' : Except SourceError Json}

theorem mem_unentered : place ∈ c.unentered places ↔ place ∈ places ∧ place ∉ c.entered := by
  simp [unentered]

theorem unentered_cons :
    unentered places ⟨place :: entered, doc, value⟩ =
      close place (unentered places ⟨entered, doc, value⟩) := by
  unfold unentered close
  rw [List.filter_filter]
  exact List.filter_congr fun p _ => by simp [not_or]

theorem LiesIn.isFound (h : c.LiesIn t home) (hr : reference ∈ all c.value)
    (hl : locate t c.document reference = .ok target) : IsFound t home target :=
  isFound_of_locate h.document (h.references hr) hl

theorem LiesIn.entering (h : c.LiesIn t home) (hr : reference ∈ all c.value)
    (hl : locate t c.document reference = .ok target) :
    LiesIn t home ⟨entered, target.document, target.value⟩ where
  document := (h.isFound hr hl).document
  references := (h.isFound hr hl).all_subset

theorem mem_all_of_of? {ms : Members} (h : of? ms = some reference) :
    reference ∈ all (.obj ms) := by
  rw [all, h]
  exact .head _

theorem LiesIn.makes (h : c.LiesIn t home) (hm : Makes t c c') : c'.LiesIn t home := by
  cases hm with
  | item hx =>
    refine ⟨h.document, List.Subset.trans ?_ h.references⟩
    rw [all]
    exact all_subset_of_mem_items hx
  | member hm _ =>
    refine ⟨h.document, List.Subset.trans ?_ h.references⟩
    rw [all]
    exact List.Subset.trans (all_subset_of_mem_members hm) (List.subset_append_right _ _)
  | target hr hl _ => exact h.entering (mem_all_of_of? hr) hl

theorem LiesIn.reaches (h : c.LiesIn t home) (hr : Relation.ReflTransGen (Makes t) c c') :
    c'.LiesIn t home := by
  induction hr with
  | refl => exact h
  | tail _ hm ih => exact ih.makes hm

theorem LiesIn.place_mem_unentered (h : c.LiesIn t home) (hk : home.key = "")
    (hr : reference ∈ all c.value) (hl : locate t c.document reference = .ok target)
    (hp : target.place ∉ c.entered) : target.place ∈ c.unentered (Reference.places t home.root) :=
  mem_unentered.mpr ⟨(h.isFound hr hl).place_mem hk, hp⟩

theorem LiesIn.measure_lt (h : c.LiesIn t home) (hk : home.key = "") (hm : Makes t c c') :
    Prod.Lex (· < ·) (· < ·) (c'.measure (Reference.places t home.root))
      (c.measure (Reference.places t home.root)) := by
  cases hm with
  | item hx => exact .right _ (Nat.lt_succ_of_le (Json.depth_le_of_mem_items hx))
  | member hm _ => exact .right _ (Nat.lt_succ_of_le (Json.depth_le_of_mem_members hm))
  | target hr hl hp =>
    refine .left _ _ ?_
    rw [unentered_cons]
    exact length_close_lt (h.place_mem_unentered hk (mem_all_of_of? hr) hl hp)

/-- No chain of calls goes on forever. -/
theorem LiesIn.acc (h : c.LiesIn t home) (hk : home.key = "") :
    Acc (fun c' c => Makes t c c') c := by
  have hwf : WellFounded (InvImage (Prod.Lex (· < ·) (· < ·))
      (Call.measure (Reference.places t home.root))) :=
    InvImage.wf _ (WellFounded.prod_lex Nat.lt_wfRel.wf Nat.lt_wfRel.wf)
  induction c using hwf.induction with
  | _ c ih => exact .intro c fun c' hm => ih c' (h.measure_lt hk hm) (h.makes hm)

theorem LiesIn.outcome (h : c.LiesIn t home) (hk : home.key = "") :
    Outcome t c (inline t (c.unentered (Reference.places t home.root)) c.document c.value) := by
  induction hn : (c.unentered (Reference.places t home.root)).length using
    Nat.strong_induction_on generalizing c with
  | _ n ih =>
  subst hn
  rw [inline_eq]
  refine .intro _ (fun reference _ e hl => ?_) (fun reference _ target hl hp => ?_)
    fun reference hr target hl hp => ?_
  · rw [hl]
    rfl
  · rw [hl]
    exact if_neg fun hm => (mem_unentered.mp hm).2 hp
  · have hmem := h.place_mem_unentered hk hr hl hp
    rw [hl]
    change Outcome t _ (if target.place ∈ c.unentered (Reference.places t home.root) then _ else _)
    rw [if_pos hmem, ← unentered_cons]
    refine ih _ ?_ (h.entering hr hl) rfl
    rw [unentered_cons]
    exact length_close_lt hmem

theorem Outcome.unique (h : Outcome t c x) (h' : Outcome t c x') : x = x' := by
  induction h generalizing x' with
  | @intro c follow missing circular entering ih =>
    obtain ⟨follow', missing', circular', entering'⟩ := h'
    refine inlineWith_congr fun reference hr => ?_
    cases hl : locate t c.document reference with
    | error e => rw [missing reference hr e hl, missing' reference hr e hl]
    | ok target =>
      by_cases hp : target.place ∈ c.entered
      · rw [circular reference hr target hl hp, circular' reference hr target hl hp]
      · exact ih reference hr target hl hp (entering' reference hr target hl hp)

end Call

end Reference

open Reference

/-- However references lead to each other, inlining ends: a pair of numbers gets less with every
call that is made, so no chain of calls goes on forever, and the recursion comes to one outcome,
which is that of inlining. -/
theorem inlineReferences_ends (t : FileTree) (value : Json) (directory : String) :
    let start : Call := ⟨[], ⟨value, directory, ""⟩, value⟩
    (∀ c c', Relation.ReflTransGen (Call.Makes t) start c → Call.Makes t c c' →
      Prod.Lex (· < ·) (· < ·) (c'.measure (places t value)) (c.measure (places t value))) ∧
    Acc (fun c' c => Call.Makes t c c') start ∧
    ∀ x, Call.Outcome t start x ↔ inlineReferences t value directory = x := by
  intro start
  have hstart : start.LiesIn t ⟨value, directory, ""⟩ := ⟨.home, List.Subset.refl _⟩
  have hout : Call.Outcome t start (inlineReferences t value directory) := by
    have h := hstart.outcome rfl
    rwa [Call.unentered, List.filter_eq_self.mpr fun _ _ => by simp [start]] at h
  refine ⟨fun c c' hr hm => ?_, hstart.acc rfl, fun x => ⟨fun hx => ?_, fun hx => ?_⟩⟩
  · exact (hstart.reaches hr).measure_lt rfl hm
  · exact hout.unique hx
  · exact hx ▸ hout

end SchemaRoutes
