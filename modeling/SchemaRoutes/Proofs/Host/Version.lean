import SchemaRoutes.Proofs.Host.Install
import SchemaRoutes.Proofs.Text.Split
import SchemaRoutes.Proofs.Text.Numeral

/-! # The version of a host document

An installation first looks at the version of the document. It is read as three numbers with points
between them, each of which may have a plus sign in front, and the first has to be 3. None of the
later stages finds fault with the version.
-/

namespace SchemaRoutes

namespace Version

/-- Digits for a number below 2^64, behind one of the signs. -/
def IsPart (signs : List (List Char)) (n : ℕ) (part : List Char) : Prop :=
  n < limit ∧ ∃ sign ∈ signs, ∃ run, part = sign ++ run ∧ Text.Denotes run n

/-- Three numbers with single points between them, each behind one of the signs. The first is 3. -/
def IsSpelt (signs : List (List Char)) (text : String) : Prop :=
  ∃ major minor patch, text.toList = major ++ '.' :: (minor ++ '.' :: patch) ∧
    IsPart signs 3 major ∧ (∃ n, IsPart signs n minor) ∧ ∃ n, IsPart signs n patch

variable {signs : List (List Char)} {n : ℕ} {part : List Char} {text : String}

theorem natural?_eq_some_iff_isPart :
    Text.natural? limit (String.ofList part) = some n ↔ IsPart [[], ['+']] n part := by
  rw [Text.natural?_eq_some_iff, Text.spells_iff_denotes, String.toList_ofList]
  rfl

theorem IsPart.not_mem (h : IsPart signs n part) {c : Char} (hc : c.isDigit = false)
    (hs : ∀ sign ∈ signs, c ∉ sign) : c ∉ part := by
  obtain ⟨-, sign, hsign, run, rfl, hrun⟩ := h
  rw [List.mem_append, not_or]
  exact ⟨hs sign hsign, hrun.not_mem hc⟩

theorem parse?_of_split {a b c : List Char} (h : Text.splitChars '.' text.toList = [a, b, c]) :
    parse? text = (do
      let major ← Text.natural? limit (String.ofList a)
      let minor ← Text.natural? limit (String.ofList b)
      let patch ← Text.natural? limit (String.ofList c)
      return (major, minor, patch)) := by
  simp only [parse?, Text.split, h, List.map_cons, List.map_nil]

theorem parse?_eq_some_iff {v : ℕ × ℕ × ℕ} : parse? text = some v ↔
    ∃ major minor patch, text.toList = major ++ '.' :: (minor ++ '.' :: patch) ∧
      IsPart [[], ['+']] v.1 major ∧ IsPart [[], ['+']] v.2.1 minor ∧
      IsPart [[], ['+']] v.2.2 patch := by
  constructor
  · intro h
    -- Only a text with exactly two points is read at all.
    have hs : ∃ a b c, Text.splitChars '.' text.toList = [a, b, c] := by
      unfold parse? Text.split at h
      split at h
      · next hmap =>
        obtain ⟨a, _, hs, -, hmap⟩ := List.map_eq_cons_iff.mp hmap
        obtain ⟨b, _, rfl, -, hmap⟩ := List.map_eq_cons_iff.mp hmap
        obtain ⟨c, _, rfl, -, hmap⟩ := List.map_eq_cons_iff.mp hmap
        rw [List.map_eq_nil_iff.mp hmap] at hs
        exact ⟨a, b, c, hs⟩
      · cases h
    obtain ⟨a, b, c, hs⟩ := hs
    rw [parse?_of_split hs] at h
    simp only [Option.bind_eq_bind, Option.bind_eq_some_iff, natural?_eq_some_iff_isPart,
      Option.pure_def, Option.some.injEq] at h
    obtain ⟨major, ha, minor, hb, patch, hc, rfl⟩ := h
    refine ⟨a, b, c, ?_, ha, hb, hc⟩
    simpa using (Text.splitChars_eq_cons_iff.mp hs).1
  · rintro ⟨a, b, c, ht, ha, hb, hc⟩
    have hpoint : ∀ sign ∈ [[], ['+']], '.' ∉ sign := by decide
    have hs : Text.splitChars '.' text.toList = [a, b, c] := by
      rw [Text.splitChars_eq_cons_iff]
      refine ⟨by simpa using ht, ha.not_mem rfl hpoint, ?_⟩
      rintro p hp
      simp only [List.mem_cons, List.not_mem_nil, or_false] at hp
      rcases hp with rfl | rfl
      · exact hb.not_mem rfl hpoint
      · exact hc.not_mem rfl hpoint
    rw [parse?_of_split hs]
    simp only [natural?_eq_some_iff_isPart.mpr ha, natural?_eq_some_iff_isPart.mpr hb,
      natural?_eq_some_iff_isPart.mpr hc, Option.bind_eq_bind, Option.bind_some, Option.pure_def]

theorem isSupported_iff_isSpelt : isSupported text = true ↔ IsSpelt [[], ['+']] text := by
  rw [isSupported, Option.any_eq_true]
  simp only [parse?_eq_some_iff, beq_iff_eq]
  constructor
  · rintro ⟨⟨major, minor, patch⟩, ⟨a, b, c, ht, ha, hb, hc⟩, rfl⟩
    exact ⟨a, b, c, ht, ha, ⟨minor, hb⟩, patch, hc⟩
  · rintro ⟨a, b, c, ht, ha, ⟨minor, hb⟩, patch, hc⟩
    exact ⟨(3, minor, patch), ⟨a, b, c, ht, ha, hb, hc⟩, rfl⟩

theorem isPart_unsigned_iff :
    IsPart [[]] n part ↔ IsPart [[], ['+']] n part ∧ '+' ∉ part := by
  constructor
  · intro h
    have hp : '+' ∉ part := h.not_mem rfl (by decide)
    obtain ⟨hlt, sign, hsign, h⟩ := h
    exact ⟨⟨hlt, sign, List.mem_append_left [['+']] hsign, h⟩, hp⟩
  · rintro ⟨⟨hlt, sign, hsign, run, rfl, h⟩, hp⟩
    rw [List.mem_append, not_or] at hp
    simp only [List.mem_cons, List.not_mem_nil, or_false] at hsign
    rcases hsign with rfl | rfl
    · exact ⟨hlt, [], .head _, run, rfl, h⟩
    · exact absurd (.head _) hp.1

theorem isSpelt_unsigned_iff :
    IsSpelt [[]] text ↔ IsSpelt [[], ['+']] text ∧ '+' ∉ text.toList := by
  simp only [IsSpelt, isPart_unsigned_iff]
  constructor
  · rintro ⟨a, b, c, ht, ⟨ha, hpa⟩, ⟨minor, hb, hpb⟩, patch, hc, hpc⟩
    refine ⟨⟨a, b, c, ht, ha, ⟨minor, hb⟩, patch, hc⟩, ?_⟩
    simp [ht, hpa, hpb, hpc]
  · rintro ⟨⟨a, b, c, ht, ha, ⟨minor, hb⟩, patch, hc⟩, hp⟩
    simp only [ht, List.mem_append, List.mem_cons, not_or] at hp
    obtain ⟨hpa, -, hpb, -, hpc⟩ := hp
    exact ⟨a, b, c, ht, ⟨ha, hpa⟩, ⟨minor, hb, hpb⟩, patch, hc, hpc⟩

variable {doc : Json}

theorem check_of_missing (h : doc.get? "openapi" = none ∨ doc.get? "openapi" = some .null) :
    check doc = .error .versionMissing := by
  rcases h with h | h <;> simp only [check, h]

theorem check_of_isSpelt (h : doc.get? "openapi" = some (.str text))
    (hs : IsSpelt [[], ['+']] text) : check doc = .ok () := by
  simp only [check, h, isSupported_iff_isSpelt.mpr hs, if_true]

theorem check_of_not_isSpelt {value : Json} (h : doc.get? "openapi" = some value)
    (hne : value ≠ .null) (hs : ∀ text, value = .str text → ¬ IsSpelt [[], ['+']] text) :
    check doc = .error (.versionUnsupported (value.str?.getD value.compact)) := by
  cases value with
  | null => exact absurd rfl hne
  | str text =>
    have hn := hs text rfl
    rw [← isSupported_iff_isSpelt] at hn
    simp only [check, h, hn]
    rfl
  | _ => simp only [check, h]; rfl

end Version

def CompileError.IsOfVersion : CompileError → Prop
  | versionMissing | versionUnsupported _ => True
  | _ => False

def Edit.SparesVersion {α : Type} (x : Edit α) : Prop :=
  ∀ doc e doc', x.run doc = (.error e, doc') → ¬ e.IsOfVersion

namespace Edit

variable {α β : Type} {x : Edit α} {k : α → Edit β}

theorem SparesVersion.bind (hx : x.SparesVersion) (hk : ∀ a, (k a).SparesVersion) :
    (x >>= k).SparesVersion := by
  intro doc e doc' h
  rcases hr : x.run doc with ⟨e' | a, doc₁⟩
  · rw [run_bind_of_error hr] at h
    cases h
    exact hx doc _ _ hr
  · rw [run_bind_of_ok hr] at h
    exact hk a _ _ _ h

theorem sparesVersion_ofExcept {y : Except CompileError α}
    (h : ∀ e, y = .error e → ¬ e.IsOfVersion) : (ofExcept y).SparesVersion := by
  intro doc e doc' hr
  rw [run_ofExcept rfl] at hr
  cases hr
  exact h e rfl

theorem sparesVersion_get : (get : Edit Json).SparesVersion := nofun

theorem sparesVersion_set (doc : Json) : (set doc : Edit PUnit).SparesVersion := nofun

end Edit

namespace HostDocument

variable {doc : Json} {root : Members} {key : String} {e : CompileError}
  {change : Members → Except CompileError Members}

theorem checkShape_error (h : checkShape doc = .error e) :
    ∃ location, e = .notAnObject location := by
  obtain ⟨pointer, -, h⟩ := exists_of_forM_eq_error h
  unfold checkObject at h
  split at h
  · cases h
  · cases h
  · cases h
    exact ⟨_, rfl⟩

theorem within_error (h : within key change root = .error e) :
    (∃ inner, change inner = .error e) ∨ ∃ location, e = .notAnObject location := by
  unfold within at h
  split at h
  · exact .inl ⟨_, map_eq_error_iff.mp h⟩
  · cases h
    exact .inr ⟨_, rfl⟩

theorem sparesVersion_editRoot (h : ∀ root e, change root = .error e → ¬ e.IsOfVersion) :
    (editRoot change).SparesVersion := by
  refine Edit.sparesVersion_get.bind fun doc => ?_
  split
  · next root =>
    refine (Edit.sparesVersion_ofExcept (h root)).bind fun ms => ?_
    exact Edit.sparesVersion_set _
  · rintro _ _ _ ⟨⟩
    exact id

end HostDocument

namespace Api

open HostDocument

variable {api : Api} {dispatcher : String} {roots : Roots} {doc : Json} {e : CompileError}

theorem not_isOfVersion_of_mount {schema : Schema} {baseUrl : String}
    (h : api.mount schema baseUrl = .error e) : ¬ e.IsOfVersion := by
  rcases mount_eq_error_iff.mp h with ⟨-, rfl⟩ | ⟨-, o, -, rfl⟩
  · exact id
  · unfold Obligation.error
    split <;> exact id

theorem not_isOfVersion_of_ofRoots (h : ofRoots dispatcher roots = .error e) :
    ¬ e.IsOfVersion := by
  obtain ⟨_, _, _, -, -, h⟩ := exists_of_foldlM_eq_error h
  exact not_isOfVersion_of_mount h

theorem sparesVersion_addTo (api : Api) : api.addTo.SparesVersion := by
  -- The shape of the document, the URLs and the names are checked before anything is written.
  refine Edit.sparesVersion_get.bind fun doc => ?_
  refine (Edit.sparesVersion_ofExcept ?_).bind fun _ => ?_
  · intro e h
    obtain ⟨_, rfl⟩ := checkShape_error h
    exact id
  refine (Edit.sparesVersion_ofExcept ?_).bind fun _ => ?_
  · intro e h
    obtain ⟨endpoint, -, h⟩ := exists_of_forM_eq_error h
    split at h
    · cases h
      exact id
    · cases h
  refine (Edit.sparesVersion_ofExcept ?_).bind fun _ => ?_
  · intro e h
    obtain ⟨name, -, h⟩ := exists_of_forM_eq_error h
    split at h
    · cases h
      exact id
    · cases h
  refine (sparesVersion_editRoot ?_).bind fun _ => sparesVersion_editRoot ?_
  · intro root e h
    rcases within_error h with ⟨_, ⟨⟩⟩ | ⟨_, rfl⟩
    exact id
  · intro root e h
    rcases within_error h with ⟨_, h⟩ | ⟨_, rfl⟩
    · rcases within_error h with ⟨_, ⟨⟩⟩ | ⟨_, rfl⟩
      exact id
    · exact id

theorem not_isOfVersion_of_install (hv : Version.check doc = .ok ()) {doc' : Json}
    (h : (install dispatcher roots).run doc = (.error e, doc')) : ¬ e.IsOfVersion := by
  cases hc : ofRoots dispatcher roots with
  | error e' =>
    rw [run_install_of_compile hv hc] at h
    cases h
    exact not_isOfVersion_of_ofRoots hc
  | ok api =>
    rw [run_install_of_ok hv hc] at h
    rcases hm : api.addTo.run doc with ⟨e' | u, merged⟩
    · rw [hm] at h
      cases h
      exact api.sparesVersion_addTo doc _ _ hm
    · rw [hm] at h
      cases h

/-- An installation gets past the version of the document exactly if that is a text of three numbers
below 2^64 with single points between them, the first of them 3, each a run of ASCII digits that may
have a plus sign in front. A version that is missing or `null` is reported so, and any other by its
text or its JSON text. Of the texts that are let through, those without a plus sign are exactly the
strict versions. -/
theorem install_of_version (dispatcher : String) (roots : Roots) (doc : Json) :
    ((∀ e doc', (install dispatcher roots).run doc = (.error e, doc') → ¬ e.IsOfVersion) ↔
      ∃ text, doc.get? "openapi" = some (.str text) ∧ Version.IsSpelt [[], ['+']] text) ∧
    (doc.get? "openapi" = none ∨ doc.get? "openapi" = some .null →
      (install dispatcher roots).run doc = (.error .versionMissing, doc)) ∧
    (∀ value, doc.get? "openapi" = some value → value ≠ .null →
      (∀ text, value = .str text → ¬ Version.IsSpelt [[], ['+']] text) →
      (install dispatcher roots).run doc =
        (.error (.versionUnsupported (value.str?.getD value.compact)), doc)) ∧
    ∀ text, Version.IsSpelt [[]] text ↔
      Version.IsSpelt [[], ['+']] text ∧ '+' ∉ text.toList := by
  have hmissing (h : doc.get? "openapi" = none ∨ doc.get? "openapi" = some .null) :
      (install dispatcher roots).run doc = (.error .versionMissing, doc) :=
    run_install_of_version (Version.check_of_missing h)
  have hunsupported (value : Json) (h : doc.get? "openapi" = some value) (hne : value ≠ .null)
      (hs : ∀ text, value = .str text → ¬ Version.IsSpelt [[], ['+']] text) :
      (install dispatcher roots).run doc =
        (.error (.versionUnsupported (value.str?.getD value.compact)), doc) :=
    run_install_of_version (Version.check_of_not_isSpelt h hne hs)
  refine ⟨⟨fun hpast => ?_, ?_⟩, hmissing, hunsupported, fun _ => Version.isSpelt_unsigned_iff⟩
  · by_contra hn
    cases hv : doc.get? "openapi" with
    | none => exact hpast _ _ (hmissing (.inl hv)) trivial
    | some value =>
      by_cases hnull : value = .null
      · exact hpast _ _ (hmissing (.inr (hnull ▸ hv))) trivial
      · refine hpast _ _ (hunsupported value hv hnull ?_) trivial
        rintro text rfl hs
        exact hn ⟨text, hv, hs⟩
  · rintro ⟨text, hv, hs⟩ e doc'
    exact not_isOfVersion_of_install (Version.check_of_isSpelt hv hs)

theorem install_of_numerals :
    (∀ e doc', (install "main" []).run (.obj [("openapi", .str "03.0.18446744073709551615")]) =
      (.error e, doc') → ¬ e.IsOfVersion) ∧
    (install "main" []).run (.obj []) = (.error .versionMissing, .obj []) ∧
    (install "main" []).run (.obj [("openapi", .str "3.0.18446744073709551616")]) =
      (.error (.versionUnsupported "3.0.18446744073709551616"),
        .obj [("openapi", .str "3.0.18446744073709551616")]) ∧
    (install "main" []).run (.obj [("openapi", .bool true)]) =
      (.error (.versionUnsupported "true"), .obj [("openapi", .bool true)]) := by
  refine ⟨(install_of_version "main" [] _).1.mpr ⟨_, rfl, ?_⟩,
    (install_of_version "main" [] _).2.1 (.inl rfl),
    (install_of_version "main" [] _).2.2.1 (.str _) rfl nofun ?_,
    (install_of_version "main" [] _).2.2.1 (.bool true) rfl nofun nofun⟩
  · rw [← Version.isSupported_iff_isSpelt]
    decide +kernel
  · rintro text ⟨⟩
    rw [← Version.isSupported_iff_isSpelt]
    decide +kernel

theorem install_signed : ¬ Version.IsSpelt [[]] "+3.0.0" ∧
    ∃ api doc', (install "main" []).run (.obj [("openapi", .str "+3.0.0")]) = (.ok api, doc') := by
  refine ⟨fun h => ?_, _, _, rfl⟩
  exact (Version.isSpelt_unsigned_iff.mp h).2 (by decide)

end Api

end SchemaRoutes
