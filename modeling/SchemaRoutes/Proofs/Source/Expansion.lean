import SchemaRoutes.Proofs.Source.Places

/-! # Plain expansion and circular references

Plain expansion follows every reference without looking at which places are open. Where it ends,
inlining ends in the same way; and where inlining reports that a reference is circular, expansion
meets one place below itself. Below the second occurrence everything repeats, so expansion has no
end there, unless a path gets longer with every round until it cannot be opened.
-/

namespace SchemaRoutes

namespace Reference

inductive Stop where
  | failed (e : SourceError)
  | unfinished
  deriving DecidableEq

/-- Inlines every reference as deep as there is fuel. -/
def expand (t : FileTree) : ℕ → Document → Json → Except Stop Json
  | 0, _, _ => .error .unfinished
  | n + 1, doc, value =>
    inlineWith (fun reference => do
      let target ← (locate t doc reference).mapError .failed
      expand t n target.document target.value) value

def Ends (t : FileTree) (doc : Document) (value : Json) (x : Except SourceError Json) : Prop :=
  ∃ n, expand t n doc value = x.mapError .failed

variable {t : FileTree} {home doc doc' : Document} {value : Json} {places : List String}
  {n k : ℕ} {x x' : Except SourceError Json} {target : Target}

/-- More fuel changes nothing but what is unfinished. -/
theorem expand_tied (t : FileTree) (h : n ≤ k) (doc : Document) (value : Json) :
    Tied (· = .unfinished) (fun _ => False) Eq Eq
      (expand t n doc value) (expand t k doc value) := by
  induction n generalizing k doc value with
  | zero => exact .left rfl
  | succ n ih =>
    cases k with
    | zero => cases h
    | succ k =>
      refine inlineWith_tied value fun reference _ => ?_
      exact (Tied.refl _ (fun _ => rfl) fun _ => rfl).bind_eq fun target =>
        ih (Nat.le_of_succ_le_succ h) target.document target.value

theorem mapError_failed_inj (h : x.mapError Stop.failed = x'.mapError Stop.failed) : x = x' := by
  cases x <;> cases x' <;> cases h <;> rfl

theorem mapError_failed_ne : x.mapError Stop.failed ≠ .error .unfinished := by
  cases x <;> nofun

theorem unfinished_or_eq {y z : Except Stop Json}
    (h : Tied (· = .unfinished) (fun _ => False) Eq Eq y z) : y = .error .unfinished ∨ y = z := by
  cases h with
  | ok h => exact .inr (congrArg _ h)
  | left h => exact .inl (congrArg _ h)
  | right h => exact h.elim
  | both h => exact .inr (congrArg _ h)

theorem Ends.expand_eq (h : Ends t doc value x) (n : ℕ) :
    expand t n doc value = .error .unfinished ∨ expand t n doc value = x.mapError .failed := by
  obtain ⟨k, hk⟩ := h
  rcases le_total n k with hle | hle
  · exact hk ▸ unfinished_or_eq (expand_tied t hle doc value)
  · rcases unfinished_or_eq (expand_tied t hle doc value) with hu | he
    · exact absurd (hk.symm.trans hu) mapError_failed_ne
    · exact .inr (he.symm.trans hk)

theorem Ends.unique (h : Ends t doc value x) (h' : Ends t doc value x') : x = x' := by
  obtain ⟨n, hn⟩ := h
  rcases h'.expand_eq n with hu | he
  · exact absurd (hn.symm.trans hu) mapError_failed_ne
  · exact mapError_failed_inj (hn.symm.trans he)

theorem inline_eq : inline t places doc value = inlineWith (fun reference => do
    let target ← locate t doc reference
    if target.place ∈ places then
      inline t (close target.place places) target.document target.value
    else .error (.circularReference reference)) value := by
  rw [inline]
  simp only [dite_eq_ite]

/-- Expansion has the same outcome as inlining if that reports no circular reference. -/
theorem inline_tied (h : places.length < n) (doc : Document) (value : Json) :
    Tied SourceError.IsCircular (fun _ => False) (fun e e' => e' = .failed e) Eq
      (inline t places doc value) (expand t n doc value) := by
  induction n generalizing places doc value with
  | zero => cases h
  | succ n ih =>
    rw [inline_eq]
    refine inlineWith_tied value fun reference _ => ?_
    have hl : Tied SourceError.IsCircular (fun _ => False) (fun e e' => e' = Stop.failed e) Eq
        (locate t doc reference) ((locate t doc reference).mapError .failed) := by
      cases locate t doc reference with
      | ok target => exact .ok rfl
      | error e => exact .both rfl
    refine hl.bind_eq fun target => ?_
    split
    · next hp => exact ih ((length_close_lt hp).trans_le (Nat.le_of_lt_succ h)) _ _
    · exact .left ⟨reference, rfl⟩

theorem ends_of_inline (h : inline t places doc value = x)
    (hc : ∀ e, x = .error e → ¬ e.IsCircular) : Ends t doc value x := by
  have ht : Tied _ _ _ _ (inline t places doc value) (expand t (places.length + 1) doc value) :=
    inline_tied (Nat.lt_succ_self _) doc value
  rw [h] at ht
  refine ⟨places.length + 1, ?_⟩
  generalize expand t (places.length + 1) doc value = y at ht
  cases ht with
  | ok he => exact congrArg _ he.symm
  | left he => exact absurd he (hc _ rfl)
  | right he => exact he.elim
  | both he => exact congrArg _ he

theorem ends_of_inline_eq_ok {j : Json} (h : inline t places doc value = .ok j) :
    Ends t doc value (.ok j) :=
  ends_of_inline h nofun

/-- What keeps expansion from ending, or makes it fail at a path that is too long. -/
def Stop.IsStall : Stop → Prop
  | .failed e => e.IsOverlong
  | .unfinished => True

def Stalls (x : Except Stop Json) : Prop := ∃ e, x = .error e ∧ e.IsStall

/-- Expansion reaches the target, and it stalls as long as it stalls there. -/
structure Needs (t : FileTree) (doc : Document) (value : Json) (target : Target) : Prop where
  reaches : Reaches t doc value target
  stalls : ∀ n, (∀ k < n, Stalls (expand t k target.document target.value)) →
    Stalls (expand t n doc value)

theorem Needs.trans {next : Target} (h : Needs t doc value next)
    (h' : Needs t next.document next.value target) : Needs t doc value target where
  reaches := h.reaches.trans h'.reaches
  stalls n hn := h.stalls n fun k hk => h'.stalls k fun i hi => hn i (hi.trans hk)

/-- Where inlining reports a circular reference, a place is needed that is not open, or one that
needs itself. -/
theorem exists_needs_of_circular {e : SourceError} (h : inline t places doc value = .error e)
    (hc : e.IsCircular) : ∃ target, Needs t doc value target ∧
      (target.place ∉ places ∨ ∃ target', Needs t target.document target.value target' ∧
        target'.place = target.place) := by
  induction hn : places.length using Nat.strong_induction_on generalizing places doc value with
  | _ n ih =>
  rw [inline_eq] at h
  obtain ⟨reference, hr, hfail, blame⟩ := exists_blamed h
  obtain ⟨target, hl, hfail⟩ : ∃ target, locate t doc reference = .ok target ∧
      (if target.place ∈ places then
        inline t (close target.place places) target.document target.value
      else .error (.circularReference reference)) = .error e := by
    rcases bind_eq_error_iff.mp hfail with hl | hl
    · exact absurd hc (locate_ne_circular hl)
    · exact hl
  have needs : Needs t doc value target := by
    refine ⟨.one hr hl, fun n hn => ?_⟩
    cases n with
    | zero => exact ⟨_, rfl, trivial⟩
    | succ n =>
      refine blame _ Stop.IsStall ?_ fun reference' y hy => ?_
      · rw [hl]
        exact hn n (Nat.lt_succ_self n)
      · obtain ⟨target', hl', hy⟩ := bind_eq_ok_iff.mp hy
        rw [hl']
        split at hy
        · rcases (ends_of_inline_eq_ok hy).expand_eq n with hu | he
          · exact .inr ⟨_, hu, trivial⟩
          · exact .inl he
        · cases hy
  split at hfail
  · next hp =>
    obtain ⟨last, hlast, hopen | hloop⟩ := ih _ (hn ▸ length_close_lt hp) hfail rfl
    · by_cases hplace : last.place = target.place
      · exact ⟨target, needs, .inr ⟨last, hlast, hplace⟩⟩
      · refine ⟨last, needs.trans hlast, .inl fun hm => hopen ?_⟩
        exact List.mem_filter.mpr ⟨hm, by simpa using hplace⟩
    · exact ⟨last, needs.trans hlast, .inr hloop⟩
  · next hp => exact ⟨target, needs, .inl hp⟩

/-- From similar documents expansion goes the same way until a path gets too long. -/
theorem expand_similar (h : Similar t doc doc') (n : ℕ) (value : Json) :
    Tied (fun e => ∃ e', e = Stop.failed e' ∧ e'.IsOverlong)
      (fun e => ∃ e', e = Stop.failed e' ∧ e'.IsOverlong)
      (fun e e' => e = .unfinished ↔ e' = .unfinished) Eq
      (expand t n doc value) (expand t n doc' value) := by
  induction n generalizing doc doc' value with
  | zero => exact .both Iff.rfl
  | succ n ih =>
    refine inlineWith_tied value fun reference _ => ?_
    have hl := locate_tied h reference
    generalize locate t doc reference = x at hl ⊢
    generalize locate t doc' reference = y at hl ⊢
    cases hl with
    | ok hs =>
      obtain ⟨hv, hs⟩ := hs
      change Tied _ _ _ _ (expand t n _ _) (expand t n _ _)
      rw [hv]
      exact ih hs _
    | left he => exact .left ⟨_, rfl, he⟩
    | right he => exact .right ⟨_, rfl, he⟩
    | both _ => exact .both ⟨nofun, nofun⟩

/-- What needs itself stalls: either it stalls below in the same way, with less fuel, or a path has
got too long. -/
theorem stalls_of_loop {target' : Target} (hneeds : Needs t target.document target.value target')
    (hv : target.value = target'.value) (hs : Similar t target.document target'.document) (n : ℕ) :
    Stalls (expand t n target.document target.value) := by
  induction n using Nat.strong_induction_on with
  | _ n ih =>
  by_cases hlong : ∃ k < n, ∃ e : SourceError, e.IsOverlong ∧
      expand t k target.document target.value = .error (.failed e)
  · obtain ⟨k, hk, e, he, hx⟩ := hlong
    refine ⟨.failed e, ?_, he⟩
    rcases unfinished_or_eq (expand_tied t hk.le target.document target.value) with hu | heq
    · cases hx.symm.trans hu
    · exact heq.symm.trans hx
  · refine hneeds.stalls n fun k hk => ?_
    obtain ⟨stop, hstop, hstall⟩ := ih k hk
    have hunfinished : stop = .unfinished := by
      cases stop with
      | unfinished => rfl
      | failed e => exact absurd ⟨k, hk, e, hstall, hstop⟩ hlong
    have ht := expand_similar hs k target.value
    rw [hstop, hunfinished, hv] at ht
    generalize expand t k target'.document target'.value = y at ht
    cases ht with
    | left he => obtain ⟨e, he, -⟩ := he; cases he
    | right he =>
      obtain ⟨e, rfl, he⟩ := he
      exact ⟨_, rfl, he⟩
    | both he =>
      rw [he.mp rfl]
      exact ⟨_, rfl, trivial⟩

theorem Ends.isOverlong (h : Ends t doc value x) (hs : ∀ n, Stalls (expand t n doc value)) :
    ∃ e, x = .error e ∧ e.IsOverlong := by
  obtain ⟨n, hn⟩ := h
  obtain ⟨stop, hstop, hstall⟩ := hs n
  cases x with
  | ok j => cases hn.symm.trans hstop
  | error e =>
    cases hn.symm.trans hstop
    exact ⟨e, rfl, hstall⟩

/-- Inlining reports a circular reference only where a place needs itself and expansion stalls. -/
theorem exists_loop (home : Document) (hn : t.HasPlainNames) (hk : home.key = "") {e : SourceError}
    (h : inline t (Reference.places t home.root) home home.root = .error e) (hc : e.IsCircular) :
    (∃ target target', Reaches t home home.root target ∧
        Reaches t target.document target.value target' ∧ target'.place = target.place) ∧
      ∀ n, Stalls (expand t n home home.root) := by
  obtain ⟨target, hneeds, hopen | ⟨target', hneeds', hplace⟩⟩ := exists_needs_of_circular h hc
  · have hfound := hneeds.reaches.isFound .home (List.Subset.refl _)
    exact absurd (hfound.place_mem hk) hopen
  · have hfound := hneeds.reaches.isFound .home (List.Subset.refl _)
    have hfound' := hneeds'.reaches.isFound hfound.document hfound.all_subset
    obtain ⟨hv, hs⟩ := hfound.similar hfound' hn hk hplace.symm
    exact ⟨⟨target, target', hneeds.reaches, hneeds'.reaches, hplace⟩,
      fun n => hneeds.stalls n fun k _ => stalls_of_loop hneeds' hv hs k⟩

end Reference

open Reference

/-- Inlining has the outcome of plain expansion. It reports a circular reference if expansion has
no end, and in place of an error of expansion only if that is about a path that is too long to be
opened; and never unless a place leads back to itself. -/
theorem inlineReferences_outcome (t : FileTree) (hn : t.HasPlainNames) (value : Json)
    (directory : String) :
    let doc : Document := ⟨value, directory, ""⟩
    let outcome := inlineReferences t value directory
    (∀ j, outcome = .ok j ↔ Ends t doc value (.ok j)) ∧
    (∀ e : SourceError, ¬ e.IsCircular →
      (outcome = .error e → Ends t doc value (.error e)) ∧
      (Ends t doc value (.error e) → ¬ e.IsOverlong → outcome = .error e)) ∧
    ((∃ e : SourceError, e.IsCircular ∧ outcome = .error e) ↔
      ∀ x, Ends t doc value x → outcome ≠ x ∧ ∃ e, x = .error e ∧ e.IsOverlong) ∧
    ((∃ e : SourceError, e.IsCircular ∧ outcome = .error e) →
      ∃ target target', Reaches t doc value target ∧
        Reaches t target.document target.value target' ∧ target'.place = target.place) := by
  intro doc outcome
  have hloop : ∀ e : SourceError, e.IsCircular → outcome = .error e → _ := fun e hc h =>
    exists_loop doc hn rfl h hc
  have hends : (∀ e, outcome = .error e → ¬ e.IsCircular) → Ends t doc value outcome := fun hc =>
    ends_of_inline rfl hc
  -- An end of expansion is that of inlining, or inlining stops at a circular reference before.
  have hor : ∀ x, Ends t doc value x → outcome = x ∨
      (∃ e : SourceError, e.IsCircular ∧ outcome = .error e) ∧
        ∃ e, x = .error e ∧ e.IsOverlong := by
    intro x hx
    by_cases hc : ∃ e : SourceError, e.IsCircular ∧ outcome = .error e
    · obtain ⟨e, hc, he⟩ := hc
      exact .inr ⟨⟨e, hc, he⟩, hx.isOverlong (hloop e hc he).2⟩
    · exact .inl ((hends fun e he hc' => hc ⟨e, hc', he⟩).unique hx)
  refine ⟨fun j => ⟨fun h => ?_, fun h => ?_⟩, fun e hc => ⟨fun h => ?_, fun h hl => ?_⟩,
    ⟨?_, fun h => ?_⟩, ?_⟩
  · exact h ▸ hends fun e he => nomatch h.symm.trans he
  · rcases hor _ h with he | ⟨-, e, he, -⟩
    · exact he
    · cases he
  · refine h ▸ hends fun e' he => ?_
    cases h.symm.trans he
    exact hc
  · rcases hor _ h with he | ⟨-, e', he, hl'⟩
    · exact he
    · cases he
      exact absurd hl' hl
  · rintro ⟨e, hc, he⟩ x hx
    obtain ⟨e', rfl, hl⟩ := hx.isOverlong (hloop e hc he).2
    refine ⟨fun h => ?_, e', rfl, hl⟩
    cases he.symm.trans h
    exact SourceError.not_isCircular_of_isOverlong hl hc
  · by_contra hc
    refine (h outcome (hends fun e he hc' => hc ⟨e, hc', he⟩)).1 rfl
  · rintro ⟨e, hc, he⟩
    exact (hloop e hc he).1

def diamondTree : FileTree where
  entries := [(["b.json"], .file (.text "\x7b\"$ref\":\"d.json\"\x7d")),
    (["c.json"], .file (.text "\x7b\"$ref\":\"d.json#\"\x7d")),
    (["d.json"], .file (.text "\x7b\"title\":\"Note\"\x7d"))]
  current := []

def diamond : Json :=
  .obj [("l", .obj [("$ref", .str "b.json")]), ("r", .obj [("$ref", .str "c.json")])]

theorem inlineReferences_diamond :
    inlineReferences diamondTree diamond "" = .ok (.obj [("l", .obj [("title", .str "Note")]),
      ("r", .obj [("title", .str "Note")])]) :=
  ((inlineReferences_outcome diamondTree (by decide) diamond "").1 _).mpr ⟨3, by decide +kernel⟩

namespace Winding

def text : String := "\x7b\"$ref\":\"x/../a.json\"\x7d"

def tree : FileTree where
  entries := [(["a.json"], .file (.text text)), (["x"], .directory)]
  current := []

def value : Json := .obj [("$ref", .str "x/../a.json")]

/-- How the directory of the file is spelt after some rounds. -/
def directory : ℕ → String
  | 0 => "x/.."
  | n + 1 => directory n ++ "/" ++ "x/.."

def path (n : ℕ) : String := directory n ++ "/" ++ "a.json"

variable {n : ℕ} {doc : Document} {target : Target} {places : List String}

theorem utf8ByteSize_directory (n : ℕ) : (directory n).utf8ByteSize = 5 * n + 4 := by
  induction n with
  | zero => rfl
  | succ n ih =>
    rw [directory, String.utf8ByteSize_append, String.utf8ByteSize_append, ih]
    rfl

theorem isUsable_path (n : ℕ) : Path.isUsable (path n) = decide (n < 817) := by
  have hs : (path n).utf8ByteSize = 5 * n + 11 := by
    rw [path, String.utf8ByteSize_append, String.utf8ByteSize_append, utf8ByteSize_directory]
    rfl
  have hne : (path n).isEmpty = false := by simp [path]
  rw [Path.isUsable, hne, hs, Bool.not_false, Bool.true_and, decide_eq_decide]
  omega

theorem parts_directory (n : ℕ) : ∃ init, Path.parts (directory n) = "x" :: init ++ [".."] := by
  induction n with
  | zero => exact ⟨[], by decide +kernel⟩
  | succ n ih =>
    obtain ⟨init, hi⟩ := ih
    refine ⟨init ++ ["..", "x"], ?_⟩
    rw [directory, Path.parts_append_slash, hi]
    have hx : Path.parts "x/.." = ["x", ".."] := by decide +kernel
    simp [hx]

theorem parent?_path (n : ℕ) : Path.parent? (path n) = some (directory n) := by
  obtain ⟨init, hd⟩ := parts_directory n
  exact Path.parent?_append_slash (by decide) rfl hd rfl (by rw [hd]; rfl) rfl

theorem join_directory (n : ℕ) {location : String} (h : Path.isAbsolute location = false) :
    Path.join (directory n) location = directory n ++ "/" ++ location := by
  have he : Path.endsWithSlash (directory n) = false := by
    cases n with
    | zero => rfl
    | succ n =>
      rw [directory, Path.endsWithSlash_append _ (by decide)]
      rfl
  have hne : (directory n).isEmpty = false := by cases n <;> simp [directory]
  simp [Path.join, h, hne, he]

theorem join_directory_succ (n : ℕ) : Path.join (directory n) "x/../a.json" = path (n + 1) := by
  rw [join_directory n rfl, path, directory]
  simp [String.append_assoc]

theorem standsAt_directory (n : ℕ) : tree.StandsAt (directory n) [] := by
  induction n with
  | zero => decide +kernel
  | succ n ih =>
    rw [directory, ← join_directory n (by rfl)]
    exact ih.join rfl (by decide +kernel)

theorem resolve?_path (h : n < 817) : tree.resolve? (path n) = some ["a.json"] := by
  rw [FileTree.resolve?_eq_some_iff, isUsable_path, decide_eq_true h]
  refine ⟨rfl, ?_⟩
  rw [path, ← join_directory n (by rfl)]
  exact (standsAt_directory n).join rfl (by decide +kernel)

theorem load_path (h : n < 817) : tree.load (path n) = .ok value := by
  have he : tree.entry? ["a.json"] = some (.file (.text text)) := by
    decide +kernel
  rw [FileTree.load, FileTree.read, resolve?_path h, Option.bind_some, he]
  exact loadText_eq_ok_iff.mpr (by decide +kernel)

theorem locate_eq_ok (hj : Path.join doc.directory "x/../a.json" = path n) (h : n < 817) :
    locate tree doc "x/../a.json" = .ok ⟨⟨value, directory n, "/a.json"⟩, "/a.json|", value⟩ := by
  have hp : parts "x/../a.json" = ("x/../a.json", "") := by decide +kernel
  rw [locate_eq, destination, hp, external_eq (by decide +kernel), hj, load_path h,
    parent?_path, FileTree.canonical, resolve?_path h]
  rfl

theorem locate_eq_error (hj : Path.join doc.directory "x/../a.json" = path 817) :
    locate tree doc "x/../a.json" = .error (.notFound (path 817)) := by
  have hp : parts "x/../a.json" = ("x/../a.json", "") := by decide +kernel
  have hl := load_of_not_isUsable (t := tree) (isUsable_path 817)
  rw [locate_eq, destination, hp, external_eq (by decide +kernel), hj, hl]
  rfl

theorem inlineWith_value {ε : Type} {follow : String → Except ε Json} {e : ε}
    (h : follow "x/../a.json" = .error e) : inlineWith follow value = .error e := by
  have hr : of? [("$ref", .str "x/../a.json")] = some "x/../a.json" := by decide +kernel
  rw [value, inlineWith, hr]
  simp only [h]
  rfl

theorem inline_value_of_mem {e : SourceError} (hl : locate tree doc "x/../a.json" = .ok target)
    (hp : target.place ∈ places)
    (h : inline tree (close target.place places) target.document target.value = .error e) :
    inline tree places doc value = .error e := by
  rw [inline_eq]
  refine inlineWith_value ?_
  rw [hl]
  exact (if_pos hp).trans h

theorem inline_value_of_not_mem (hl : locate tree doc "x/../a.json" = .ok target)
    (hp : target.place ∉ places) :
    inline tree places doc value = .error (.circularReference "x/../a.json") := by
  rw [inline_eq]
  refine inlineWith_value ?_
  rw [hl]
  exact if_neg hp

theorem expand_value (k : ℕ) (hn : n + k = 817)
    (hj : Path.join doc.directory "x/../a.json" = path n) :
    expand tree (k + 1) doc value = .error (.failed (.notFound (path 817))) := by
  induction k generalizing n doc with
  | zero =>
    obtain rfl : n = 817 := hn
    refine inlineWith_value ?_
    rw [locate_eq_error hj]
    rfl
  | succ k ih =>
    refine inlineWith_value ?_
    rw [locate_eq_ok hj (by omega)]
    change expand tree (k + 1) _ _ = _
    exact ih (by omega) (join_directory_succ n)

end Winding

/-- Inlining reports a circular reference where plain expansion ends. After 817 rounds the path to
the file has 4096 bytes, and no file is found there. -/
theorem inlineReferences_winding :
    Winding.tree.HasPlainNames ∧
      inlineReferences Winding.tree Winding.value "" =
        .error (.circularReference "x/../a.json") ∧
      Ends Winding.tree ⟨Winding.value, "", ""⟩ Winding.value
        (.error (.notFound (Winding.path 817))) := by
  have hstart : Path.join "" "x/../a.json" = Winding.path 0 := by decide +kernel
  have hl := @Winding.locate_eq_ok 0 ⟨Winding.value, "", ""⟩ hstart (by omega)
  refine ⟨by decide, ?_, 817 + 1, Winding.expand_value 817 (Nat.zero_add 817) hstart⟩
  have hopen := (isFound_of_locate .home (by decide +kernel) hl).place_mem rfl
  refine Winding.inline_value_of_mem hl hopen ?_
  refine Winding.inline_value_of_not_mem
    (Winding.locate_eq_ok (Winding.join_directory_succ 0) (by omega)) ?_
  exact fun h => of_decide_eq_true (List.mem_filter.mp h).2 rfl

end SchemaRoutes
