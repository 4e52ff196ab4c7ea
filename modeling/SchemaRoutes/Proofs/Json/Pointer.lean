import SchemaRoutes.Json.Pointer
import SchemaRoutes.Proofs.Json.Members
import SchemaRoutes.Proofs.Text.Split

/-! # Pointers lead back to their keys

An escaped key has no slash and is read back as it was, so a pointer made of keys leads exactly
where the keys lead one after another, whatever characters they have.
-/

namespace SchemaRoutes

namespace Text

theorem replacePair_cons_of_ne {a b new x : Char} {cs : List Char} (h : x ≠ a) :
    replacePair a b new (x :: cs) = x :: replacePair a b new cs := by
  cases cs with
  | nil => simp [replacePair]
  | cons y cs => rw [replacePair, if_neg fun hx => h hx.1]

theorem replacePair_pair {a b new : Char} {cs : List Char} :
    replacePair a b new (a :: b :: cs) = new :: replacePair a b new cs := by
  rw [replacePair, if_pos ⟨rfl, rfl⟩]

theorem replacePair_eq_self {a b new : Char} {cs : List Char} (h : ¬ [a, b] <:+: cs) :
    replacePair a b new cs = cs := by
  fun_induction replacePair a b new cs with
  | case1 x y cs hxy =>
    obtain ⟨rfl, rfl⟩ := hxy
    exact absurd (List.prefix_append [x, y] cs).isInfix h
  | case2 x y cs hxy ih => rw [ih fun hi => h (List.infix_cons hi)]
  | case3 cs _ => rfl

theorem length_replacePair_le (a b new : Char) (cs : List Char) :
    (replacePair a b new cs).length ≤ cs.length := by
  fun_induction replacePair a b new cs with
  | case1 x y cs _ ih =>
    simp only [List.length_cons]
    omega
  | case2 x y cs _ ih => simpa using ih
  | case3 cs _ => exact Nat.le_refl _

theorem length_replacePair_lt {a b : Char} (new : Char) {cs : List Char} (h : [a, b] <:+: cs) :
    (replacePair a b new cs).length < cs.length := by
  fun_induction replacePair a b new cs with
  | case1 x y cs hxy ih =>
    have hle := length_replacePair_le a b new cs
    simp only [List.length_cons]
    omega
  | case2 x y cs hxy ih =>
    have hi : [a, b] <:+: y :: cs := by
      rcases List.infix_cons_iff.mp h with hp | hi
      · simp only [List.cons_prefix_cons, List.nil_prefix, and_true] at hp
        exact absurd ⟨hp.1.symm, hp.2.symm⟩ hxy
      · exact hi
    simpa using ih hi
  | case3 cs hcs =>
    obtain ⟨before, after, rfl⟩ := h
    cases before with
    | nil => exact absurd rfl (hcs a b after)
    | cons c before =>
      cases before with
      | nil => exact absurd rfl (hcs c a (b :: after))
      | cons d before => exact absurd rfl (hcs c d (before ++ [a, b] ++ after))

theorem replaceChar_cons_self {c : Char} {new cs : List Char} :
    replaceChar c new (c :: cs) = new ++ replaceChar c new cs := by
  simp [replaceChar]

theorem replaceChar_cons_of_ne {c x : Char} {new cs : List Char} (h : x ≠ c) :
    replaceChar c new (x :: cs) = x :: replaceChar c new cs := by
  simp [replaceChar, h]

theorem not_mem_replaceChar {c : Char} {new cs : List Char} (h : c ∉ new) :
    c ∉ replaceChar c new cs := by
  intro hc
  obtain ⟨x, -, hx⟩ := List.mem_flatMap.mp hc
  split at hx
  · exact h hx
  · next hne => exact hne (List.mem_singleton.mp hx).symm

end Text

open Text

namespace Pointer

theorem slash_not_mem_escape (key : List Char) : '/' ∉ escape key :=
  not_mem_replaceChar (by decide)

/-- Reading the slashes leaves the tildes escaped. -/
theorem replacePair_escape (key : List Char) :
    replacePair '~' '1' '/' (escape key) = replaceChar '~' ['~', '0'] key := by
  unfold escape
  induction key with
  | nil => rfl
  | cons c key ih =>
    by_cases ht : c = '~'
    · subst ht
      rw [replaceChar_cons_self, List.cons_append, List.cons_append, List.nil_append,
        replaceChar_cons_of_ne (by decide), replaceChar_cons_of_ne (by decide), replacePair,
        if_neg (by decide), replacePair_cons_of_ne (by decide), ih]
    · rw [replaceChar_cons_of_ne ht]
      by_cases hs : c = '/'
      · subst hs
        rw [replaceChar_cons_self, List.cons_append, List.cons_append, List.nil_append,
          replacePair_pair, ih]
      · rw [replaceChar_cons_of_ne hs, replacePair_cons_of_ne ht, ih]

theorem replacePair_replaceChar (key : List Char) :
    replacePair '~' '0' '~' (replaceChar '~' ['~', '0'] key) = key := by
  induction key with
  | nil => rfl
  | cons c key ih =>
    by_cases ht : c = '~'
    · subst ht
      rw [replaceChar_cons_self, List.cons_append, List.cons_append, List.nil_append,
        replacePair_pair, ih]
    · rw [replaceChar_cons_of_ne ht, replacePair_cons_of_ne ht, ih]

@[simp] theorem unescape_escape (key : List Char) : unescape (escape key) = key := by
  rw [unescape, replacePair_escape, replacePair_replaceChar]

/-- What is read has a character less for every escape in it. -/
theorem unescape_eq_self_iff {part : List Char} :
    unescape part = part ↔ ¬ ['~', '1'] <:+: part ∧ ¬ ['~', '0'] <:+: part := by
  unfold unescape
  constructor
  · intro he
    have hle := length_replacePair_le '~' '0' '~' (replacePair '~' '1' '/' part)
    have h₁ : ¬ ['~', '1'] <:+: part := by
      intro hi
      have hlt := length_replacePair_lt '/' hi
      rw [he] at hle
      omega
    rw [replacePair_eq_self h₁] at he
    refine ⟨h₁, fun hi => ?_⟩
    have hlt := length_replacePair_lt '~' hi
    rw [he] at hlt
    omega
  · rintro ⟨h₁, h₀⟩
    rw [replacePair_eq_self h₁, replacePair_eq_self h₀]

theorem toList_ofKeys (keys : List String) :
    (ofKeys keys).toList = (keys.map fun key => escape key.toList).flatMap ('/' :: ·) := by
  rw [ofKeys, String.toList_ofList, List.flatMap_map]

theorem keysOfPath_escape (key : String) (keys : List String) :
    keysOfPath (escape key.toList ++ (keys.map fun key => escape key.toList).flatMap ('/' :: ·)) =
      key :: keys := by
  have hs : ∀ p ∈ keys.map fun key => escape key.toList, '/' ∉ p := by
    intro p hp
    obtain ⟨k, -, rfl⟩ := List.mem_map.mp hp
    exact slash_not_mem_escape _
  rw [keysOfPath, splitChars_join (slash_not_mem_escape _) hs]
  simp [Function.comp_def]

theorem keys_eq_keysOfPath {fragment : String} {c : Char} {cs : List Char} (hc : c ≠ '/')
    (h : fragment.toList = '#' :: '/' :: c :: cs) : keys fragment = keysOfPath (c :: cs) := by
  simp [keys, h, hc]

/-- A key that stands in a pointer as it is: it has no slash and nothing that is read as an
escape. -/
structure IsPlain (key : String) : Prop where
  slash : '/' ∉ key.toList
  slashCode : ¬ ['~', '1'] <:+: key.toList
  tildeCode : ¬ ['~', '0'] <:+: key.toList

theorem keysOfPath_eq_singleton_iff {key : String} :
    keysOfPath key.toList = [key] ↔ IsPlain key := by
  by_cases hs : '/' ∈ key.toList
  · obtain ⟨before, after, he⟩ := List.append_of_mem hs
    refine iff_of_false (fun hk => ?_) fun hp => hp.slash hs
    have hlen := congrArg List.length hk
    have hb := List.length_pos_of_ne_nil (splitChars_ne_nil '/' before)
    have ha := List.length_pos_of_ne_nil (splitChars_ne_nil '/' after)
    rw [keysOfPath, he, splitChars_append, List.length_map, List.length_append,
      List.length_singleton] at hlen
    omega
  · have hk : keysOfPath key.toList = [key] ↔ unescape key.toList = key.toList := by
      rw [keysOfPath, splitChars_of_not_mem hs, List.map_singleton, List.singleton_inj,
        ← String.toList_inj, String.toList_ofList]
    rw [hk, unescape_eq_self_iff]
    exact ⟨fun h => ⟨hs, h.1, h.2⟩, fun h => ⟨h.slashCode, h.tildeCode⟩⟩

end Pointer

namespace Json

theorem atPointer?_ofKeys (j : Json) (keys : List String) :
    j.atPointer? (Pointer.ofKeys keys) = keys.foldlM (childBy? Pointer.index?) j := by
  unfold atPointer?
  rw [Pointer.toList_ofKeys]
  cases keys with
  | nil => rfl
  | cons key keys =>
    rw [List.map_cons, List.flatMap_cons, List.cons_append]
    simp only [Pointer.keysOfPath_escape]

@[simp] theorem childBy?_obj {index? : String → Option ℕ} {ms : Members} {key : String} :
    (obj ms).childBy? index? key = ms.get? key := rfl

end Json

end SchemaRoutes
