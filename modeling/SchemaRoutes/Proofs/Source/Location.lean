import SchemaRoutes.Proofs.Json.Pointer
import SchemaRoutes.Proofs.Source.Inlined
import SchemaRoutes.Proofs.Text.Numeral

/-! # The value at a location

A fragment made of tokens leads where the tokens lead one after another, but empty tokens in front
are dropped with their slashes. At an object a token is a name; at an array it is any spelling of
an index, also one that no pointer has.
-/

namespace SchemaRoutes

namespace Pointer

theorem escape_ne_nil {key : List Char} (h : key ≠ []) : escape key ≠ [] := by
  intro he
  apply h
  rw [← unescape_escape key, he]
  rfl

theorem dropWhile_slash_escape {token : String} (ht : token ≠ "") (rest : List Char) :
    (escape token.toList ++ rest).dropWhile (· == '/') = escape token.toList ++ rest := by
  have hne : token.toList ≠ [] := fun h => ht (String.toList_inj.mp h)
  obtain ⟨c, cs, hc⟩ := List.exists_cons_of_ne_nil (escape_ne_nil hne)
  have hslash : c ≠ '/' := by
    rintro rfl
    exact slash_not_mem_escape token.toList (hc ▸ List.mem_cons_self)
  rw [hc, List.cons_append, List.dropWhile_cons_of_neg (by simpa using hslash)]

/-- The keys of a fragment are the tokens it is made of, without empty ones in front. -/
theorem keys_ofKeys (tokens : List String) :
    keys ("#" ++ ofKeys tokens) = tokens.dropWhile (· = "") := by
  have hnumber : ("#" ++ ofKeys tokens).toList.dropWhile (· == '#') =
      (tokens.map fun key => escape key.toList).flatMap ('/' :: ·) := by
    rw [String.toList_append, toList_ofKeys]
    cases tokens <;> rfl
  rw [keys, hnumber]
  clear hnumber
  induction tokens with
  | nil => rfl
  | cons token tokens ih =>
    rw [List.map_cons, List.flatMap_cons, List.cons_append, List.dropWhile_cons_of_pos rfl]
    by_cases ht : token = ""
    · subst ht
      rw [List.dropWhile_cons_of_pos (by decide)]
      exact ih
    · have hne : escape token.toList ≠ [] :=
        escape_ne_nil fun h => ht (String.toList_inj.mp h)
      rw [dropWhile_slash_escape ht, if_neg (by simp [hne]), keysOfPath_escape,
        List.dropWhile_cons_of_neg (by simpa using ht)]

end Pointer

namespace Json

def Step.token : Step → String
  | key name => name
  | index i => Text.decimal i

/-- What the token of a fragment can mean: a member of that name, or an element whose index it
spells. -/
inductive Step.IsReadFrom : Step → String → Prop where
  | key (name : String) : IsReadFrom (.key name) name
  | index {i : ℕ} {token : String} : i < Pointer.indexLimit → Text.Spells token i →
      IsReadFrom (.index i) token

variable {j v : Json} {token : String} {tokens : List String} {path : List Step}

theorem childBy?_eq_some_iff : j.childBy? (Text.natural? Pointer.indexLimit) token = some v ↔
    ∃ step : Step, step.IsReadFrom token ∧ j.step? step = some v := by
  constructor
  · intro h
    cases j with
    | arr xs =>
      obtain ⟨i, hi, hv⟩ := Option.bind_eq_some_iff.mp h
      obtain ⟨hlt, hs⟩ := Text.natural?_eq_some_iff.mp hi
      exact ⟨.index i, .index hlt hs, hv⟩
    | obj ms => exact ⟨.key token, .key token, h⟩
    | _ => cases h
  · rintro ⟨step, hstep, hv⟩
    cases hstep with
    | key =>
      cases j with
      | obj ms => exact hv
      | _ => cases hv
    | index hlt hs =>
      cases j with
      | arr xs => exact Option.bind_eq_some_iff.mpr ⟨_, Text.natural?_eq_some_iff.mpr ⟨hlt, hs⟩, hv⟩
      | _ => cases hv

theorem foldlM_childBy?_eq_some_iff :
    tokens.foldlM (childBy? (Text.natural? Pointer.indexLimit)) j = some v ↔
      ∃ path, List.Forall₂ Step.IsReadFrom path tokens ∧ j.at? path = some v := by
  induction tokens generalizing j with
  | nil =>
    constructor
    · intro h
      exact ⟨[], .nil, h⟩
    · rintro ⟨_, ⟨⟩, h⟩
      exact h
  | cons token tokens ih =>
    rw [List.foldlM_cons, Option.bind_eq_bind, Option.bind_eq_some_iff]
    constructor
    · rintro ⟨child, hc, h⟩
      obtain ⟨step, hstep, hc⟩ := childBy?_eq_some_iff.mp hc
      obtain ⟨path, hpath, h⟩ := ih.mp h
      exact ⟨step :: path, .cons hstep hpath, at?_cons_eq_some_iff.mpr ⟨child, hc, h⟩⟩
    · rintro ⟨_, hread, h⟩
      cases hread with
      | cons hstep hpath =>
        obtain ⟨child, hc, h⟩ := at?_cons_eq_some_iff.mp h
        exact ⟨child, childBy?_eq_some_iff.mpr ⟨_, hstep, hc⟩, ih.mpr ⟨_, hpath, h⟩⟩

theorem pointed?_ofKeys : j.pointed? ("#" ++ Pointer.ofKeys tokens) = some v ↔
    ∃ path, List.Forall₂ Step.IsReadFrom path (tokens.dropWhile (· = "")) ∧
      j.at? path = some v := by
  rw [pointed?, Pointer.keys_ofKeys, foldlM_childBy?_eq_some_iff]

theorem isReadFrom_tokens (hpath : ∀ i, .index i ∈ path → i < Pointer.indexLimit) :
    List.Forall₂ Step.IsReadFrom path (path.map Step.token) := by
  rw [List.forall₂_map_right_iff, List.forall₂_same]
  rintro (name | i) hm
  · exact .key name
  · exact .index (hpath i hm) (Text.spells_decimal i)

/-- From tokens that spell indices as pointers do, only the location with these tokens is read. -/
theorem map_token_of_isReadFrom (h : List.Forall₂ Step.IsReadFrom path tokens)
    (hspelt : ∀ token ∈ tokens, ∀ i, Text.Spells token i → token = Text.decimal i) :
    path.map Step.token = tokens := by
  induction h with
  | nil => rfl
  | cons hstep _ ih =>
    rw [List.forall_mem_cons] at hspelt
    rw [List.map_cons, ih hspelt.2]
    congr 1
    cases hstep with
    | key => rfl
    | index _ hs => exact (hspelt.1 _ hs).symm

end Json

namespace Reference

open Json (Step)

variable {j v : Json} {tokens : List String} {path : List Step}

theorem point_eq_ok_iff {fragment : String} :
    point j fragment = .ok v ↔ j.pointed? fragment = some v := by
  unfold point
  split
  · next h => simp [h]
  · next h => simp [h]

theorem point_of_not_ok {fragment : String} (h : ∀ v, point j fragment ≠ .ok v) :
    point j fragment = .error (.danglingReference fragment) := by
  cases hp : j.pointed? fragment with
  | some v => exact absurd (point_eq_ok_iff.mpr hp) (h v)
  | none => simp only [point, hp]

theorem dropWhile_eq_self (h : tokens.head? ≠ some "") : tokens.dropWhile (· = "") = tokens := by
  cases tokens with
  | nil => rfl
  | cons token tokens =>
    exact List.dropWhile_cons_of_neg fun ht => h (congrArg some (of_decide_eq_true ht))

/-- A fragment leads to the value at the location that its tokens spell once the empty ones in front
are dropped, and is dangling if there is none. If no empty token stands in front, every location is
found by its own tokens, and if no token is an index with a sign or with zeros in front, nothing
else is. -/
theorem point_of_tokens (j : Json) (tokens : List String) :
    (∀ v, point j ("#" ++ Pointer.ofKeys tokens) = .ok v ↔
      ∃ path, List.Forall₂ Step.IsReadFrom path (tokens.dropWhile (· = "")) ∧
        j.at? path = some v) ∧
    ((∀ v, point j ("#" ++ Pointer.ofKeys tokens) ≠ .ok v) →
      point j ("#" ++ Pointer.ofKeys tokens) =
        .error (.danglingReference ("#" ++ Pointer.ofKeys tokens))) ∧
    (tokens.head? ≠ some "" →
      (∀ path v, path.map Step.token = tokens →
        (∀ i, .index i ∈ path → i < Pointer.indexLimit) → j.at? path = some v →
          point j ("#" ++ Pointer.ofKeys tokens) = .ok v) ∧
      ((∀ token ∈ tokens, ∀ i, Text.Spells token i → token = Text.decimal i) →
        (∀ path, path.map Step.token = tokens → j.at? path = none) →
          point j ("#" ++ Pointer.ofKeys tokens) =
            .error (.danglingReference ("#" ++ Pointer.ofKeys tokens)))) := by
  have hread : ∀ v, point j ("#" ++ Pointer.ofKeys tokens) = .ok v ↔
      ∃ path, List.Forall₂ Step.IsReadFrom path (tokens.dropWhile (· = "")) ∧
        j.at? path = some v :=
    fun v => point_eq_ok_iff.trans Json.pointed?_ofKeys
  refine ⟨hread, point_of_not_ok, fun hfirst => ?_⟩
  rw [dropWhile_eq_self hfirst] at hread
  constructor
  · rintro path v rfl hlimit hv
    exact (hread v).mpr ⟨path, Json.isReadFrom_tokens hlimit, hv⟩
  · rintro hspelt hnone
    apply point_of_not_ok
    rintro v hok
    obtain ⟨path, hpath, hv⟩ := (hread v).mp hok
    rw [hnone path (Json.map_token_of_isReadFrom hpath hspelt)] at hv
    cases hv

def kinds : Json := .obj [("a/b", .arr [.obj [("", .str "x")]])]

theorem point_kinds : point kinds "#/a~1b/0/" = .ok (.str "x") ∧
    point kinds "#/a~1b/1" = .error (.danglingReference "#/a~1b/1") := by
  constructor
  · obtain ⟨-, -, hread⟩ := point_of_tokens kinds ["a/b", "0", ""]
    have hlimit : ∀ i, Step.index i ∈ [Step.key "a/b", .index 0, .key ""] →
        i < Pointer.indexLimit := by
      rintro i hi
      simp only [List.mem_cons, List.not_mem_nil, or_false, false_or, reduceCtorEq,
        Step.index.injEq] at hi
      subst hi
      decide
    exact (hread (by decide)).1 _ _ rfl hlimit rfl
  · obtain ⟨-, -, hread⟩ := point_of_tokens kinds ["a/b", "1"]
    apply (hread (by decide)).2
    · rintro token ht i hs
      simp only [List.mem_cons, List.not_mem_nil, or_false] at ht
      rcases ht with rfl | rfl
      · have hnone : Text.natural? (i + 1) "a/b" = none := rfl
        rw [Text.natural?_eq_some_iff.mpr ⟨i.lt_succ_self, hs⟩] at hnone
        cases hnone
      · rw [hs.unique (Text.spells_decimal 1)]
        rfl
    · rintro path hpath
      obtain ⟨a, b, rfl⟩ := List.length_eq_two.mp (by simpa using congrArg List.length hpath)
      obtain ⟨ha, hb⟩ : a.token = "a/b" ∧ b.token = "1" := by simpa using hpath
      cases a with
      | key name =>
        cases ha
        rcases b with name | _ | i
        · rfl
        · exact absurd hb (by decide)
        · rfl
      | index i => rfl

theorem point_of_loose_tokens :
    (Json.obj [("", .bool true)]).at? [.key ""] = some (.bool true) ∧
    point (.obj [("", .bool true)]) ("#" ++ Pointer.ofKeys [Step.token (.key "")]) =
      .ok (.obj [("", .bool true)]) ∧
    (∀ path : List Step, path.map Step.token = ["01"] →
      (Json.arr [.null, .bool true]).at? path = none) ∧
    point (.arr [.null, .bool true]) ("#" ++ Pointer.ofKeys ["01"]) = .ok (.bool true) := by
  refine ⟨rfl, rfl, ?_, rfl⟩
  rintro path hpath
  obtain ⟨a, rfl⟩ := List.length_eq_one_iff.mp (by simpa using congrArg List.length hpath)
  have ha : a.token = "01" := by simpa using hpath
  rcases a with name | _ | _ | i
  · rfl
  · exact absurd ha (by decide)
  · exact absurd ha (by decide)
  · rfl

end Reference

end SchemaRoutes
