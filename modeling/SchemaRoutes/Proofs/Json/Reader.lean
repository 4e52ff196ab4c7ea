import SchemaRoutes.Json.Reader
import SchemaRoutes.Proofs.Json.Decimal
import SchemaRoutes.Proofs.Json.Members

/-! # Written documents are read

What a builder makes of the rest of a text is followed token by token. A value that is written
where one may come leaves the builder as if the value had been handed to it, if it does not nest
too deep; what stands behind it is read as before. So a document is read back, with each number as
its digits say, unless it nests beyond the limit.
-/

namespace SchemaRoutes

variable {limit : ℕ} {b : Builder} {c : Char} {cs rest : List Char}

def Machine.run (limit : ℕ) (m : Machine) (cs : List Char) : Option Json :=
  (cs.foldlM (Machine.step limit) m).bind (Machine.result? limit)

def Builder.run (limit : ℕ) (b : Builder) (cs : List Char) : Option Json :=
  Machine.run limit ⟨.between, b⟩ cs

def Number.reread (n : Number) : Number := (ofChars? n.text).getD n

namespace Json

mutual

/-- The document with each number as its text says. -/
def reread : Json → Json
  | num n => num n.reread
  | arr items => arr (rereadItems items)
  | obj members => obj (rereadMembers members)
  | j => j
termination_by structural j => j

def rereadItems : List Json → List Json
  | [] => []
  | x :: xs => reread x :: rereadItems xs
termination_by structural xs => xs

def rereadMembers : Members → Members
  | [] => []
  | (key, x) :: ms => (key, reread x) :: rereadMembers ms
termination_by structural ms => ms

end

theorem keys_rereadMembers : ∀ ms : Members, Members.keys (rereadMembers ms) = Members.keys ms
  | [] => rfl
  | (key, x) :: ms => by
    rw [rereadMembers, Members.keys_cons, Members.keys_cons, keys_rereadMembers ms]

theorem ofList_rereadMembers {ms : Members} (h : (ms.map Prod.fst).Nodup) :
    Members.ofList (rereadMembers ms) = rereadMembers ms :=
  Members.extend_of_fresh (by rw [keys_rereadMembers]; exact h) nofun

structure Spacing.IsBlank (sp : Spacing) : Prop where
  newline : ∀ level, ∀ c ∈ sp.newline level, Scan.isBlank c = true
  afterColon : ∀ c ∈ sp.afterColon, Scan.isBlank c = true

theorem Spacing.isBlank_none : Spacing.none.IsBlank := ⟨nofun, nofun⟩

theorem Spacing.isBlank_indented : Spacing.indented.IsBlank := by
  constructor
  · intro level c hc
    rcases List.mem_cons.mp hc with rfl | hc
    · rfl
    · rw [List.eq_of_mem_replicate hc]
      rfl
  · intro c hc
    rw [List.mem_singleton.mp hc]
    rfl

end Json

namespace Scan

def IsBare (c : Char) : Prop := isBlank c = false ∧ c ≠ '"' ∧ mark? c = none

def EndsWord (cs : List Char) : Prop := ∀ c ∈ cs.head?, isBlank c = true ∨ (mark? c).isSome = true

instance (c : Char) : Decidable (IsBare c) := inferInstanceAs (Decidable (_ ∧ _ ∧ _))

theorem isBare_of_all (h : cs.all (fun c => decide (IsBare c)) = true) : ∀ c ∈ cs, IsBare c :=
  fun c hc => of_decide_eq_true (List.all_eq_true.mp h c hc)

theorem isBare_of_isDigit (h : c.isDigit = true) : IsBare c := by
  have hne : ∀ d, d.isDigit = false → c ≠ d := by
    rintro d hd rfl
    rw [hd] at h
    cases h
  refine ⟨?_, hne '"' rfl, ?_⟩
  · simp [isBlank, hne ' ' rfl, hne '\t' rfl, hne '\n' rfl, hne '\r' rfl]
  · unfold mark?
    split
    all_goals first | rfl | cases h

theorem isBare_of_afterDigits (h : ∀ c ∈ Number.afterDigits cs, IsBare c) : ∀ c ∈ cs, IsBare c := by
  intro c hc
  rw [← List.takeWhile_append_dropWhile (p := Char.isDigit) (l := cs)] at hc
  rcases List.mem_append.mp hc with hc | hc
  · exact isBare_of_isDigit (List.mem_takeWhile_imp hc)
  · exact h c hc

theorem isBare_of_exponentOf? {x : Option (Bool × List ℕ)}
    (h : Number.Literal.exponentOf? cs = some x) : ∀ c ∈ cs, IsBare c := by
  unfold Number.Literal.exponentOf? at h
  split at h
  · exact nofun
  · next e rest =>
    split at h
    · next he =>
      refine List.forall_mem_cons.mpr ⟨?_, ?_⟩
      · rcases he with rfl | rfl <;> decide
      split at h
      next below ds hsign =>
      have hds : ∀ c ∈ ds, IsBare c := by
        refine isBare_of_afterDigits ?_
        split at h
        · cases h
        · next hn =>
          have hnil : Number.afterDigits ds = [] := by
            simp only [Bool.or_eq_true, not_or, Bool.not_eq_true', Bool.not_eq_false] at hn
            exact List.isEmpty_iff.mp hn.2
          exact hnil ▸ nofun
      split at hsign
      · cases hsign
        exact List.forall_mem_cons.mpr ⟨by decide, hds⟩
      · cases hsign
        exact List.forall_mem_cons.mpr ⟨by decide, hds⟩
      · cases hsign
        exact hds
    · cases h

theorem isBare_of_unsigned? {negative : Bool} {l : Number.Literal}
    (h : Number.Literal.unsigned? negative cs = some l) : ∀ c ∈ cs, IsBare c := by
  unfold Number.Literal.unsigned? at h
  split at h
  · cases h
  refine isBare_of_afterDigits ?_
  split at h
  · next rest he =>
    rw [he]
    split at h
    · cases h
    · obtain ⟨x, hx, -⟩ := Option.map_eq_some_iff.mp h
      exact List.forall_mem_cons.mpr
        ⟨by decide, isBare_of_afterDigits (isBare_of_exponentOf? hx)⟩
  · obtain ⟨x, hx, -⟩ := Option.map_eq_some_iff.mp h
    exact isBare_of_exponentOf? hx

theorem isBare_of_ofChars? {n : Number} (h : Number.ofChars? cs = some n) :
    (∀ c ∈ cs, IsBare c) ∧ cs ≠ [] := by
  obtain ⟨l, hl, -⟩ := Option.bind_eq_some_iff.mp h
  unfold Number.Literal.ofChars? at hl
  split at hl
  · exact ⟨List.forall_mem_cons.mpr ⟨by decide, isBare_of_unsigned? hl⟩, List.cons_ne_nil _ _⟩
  · refine ⟨isBare_of_unsigned? hl, ?_⟩
    rintro rfl
    cases hl

theorem bareValue?_of_ofChars? {n : Number} (h : Number.ofChars? cs = some n) :
    bareValue? cs = some (.num n) := by
  unfold bareValue?
  split
  · cases h
  · cases h
  · cases h
  · rw [h]
    rfl

theorem of_mark? {t : Token} (h : mark? c = some t) : isBlank c = false ∧ c ≠ '"' := by
  unfold mark? at h
  split at h
  all_goals first | exact ⟨rfl, by decide⟩ | cases h

end Scan

namespace Machine

theorem run_cons (limit : ℕ) (m : Machine) (c : Char) (cs : List Char) :
    run limit m (c :: cs) = (m.step limit c).bind fun m => run limit m cs := by
  simp only [run, List.foldlM_cons]
  cases m.step limit c <;> rfl

theorem step_eq (limit : ℕ) (s : Scan) (b : Builder) (c : Char) :
    step limit ⟨s, b⟩ c = (s.step c).bind fun r =>
      (r.1.foldlM (Builder.accept limit) b).map (⟨r.2, ·⟩) := by
  unfold step
  cases s.step c with
  | none => rfl
  | some r => cases h : r.1.foldlM (Builder.accept limit) b <;> simp [h]

end Machine

namespace Builder

theorem run_blank (hc : Scan.isBlank c = true) : b.run limit (c :: cs) = b.run limit cs := by
  simp [run, Machine.run_cons, Machine.step_eq, Scan.step, Scan.outside, hc, Scan.flush]

theorem run_blanks (hb : ∀ c ∈ cs, Scan.isBlank c = true) (rest : List Char) :
    b.run limit (cs ++ rest) = b.run limit rest := by
  induction cs with
  | nil => rfl
  | cons c cs ih =>
    obtain ⟨hc, hcs⟩ := List.forall_mem_cons.mp hb
    rw [List.cons_append, run_blank hc, ih hcs]

theorem run_mark {t : Token} (hc : Scan.mark? c = some t) :
    b.run limit (c :: cs) = (b.accept limit t).bind fun b => b.run limit cs := by
  simp only [run, Machine.run_cons, Machine.step_eq, Scan.step, Scan.outside, hc, Scan.of_mark? hc]
  cases h : b.accept limit t <;> simp [h, Scan.flush]

theorem run_endsWord {text : List Char} (ht : text ≠ []) (hr : Scan.EndsWord rest) :
    Machine.run limit ⟨.bare text, b⟩ rest = (Scan.bareValue? text.reverse).bind fun v =>
      (b.accept limit (.leaf v)).bind fun b => b.run limit rest := by
  cases rest with
  | nil =>
    simp only [run, Machine.run, List.foldlM_nil, Option.pure_def, Option.bind_some,
      Machine.result?, Scan.flush]
    cases Scan.bareValue? text.reverse with
    | none => rfl
    | some v => cases h : b.accept limit (.leaf v) <;> simp [h]
  | cons c rest =>
    have hne : text.isEmpty = false := by simpa using ht
    rw [Machine.run_cons, Machine.step_eq, Scan.step, Scan.outside]
    rcases hr c rfl with hc | hc
    · simp only [hne, hc, run_blank hc]
      cases hv : Scan.bareValue? text.reverse with
      | none => simp [Scan.flush, hv]
      | some v => cases h : b.accept limit (.leaf v) <;> simp [Scan.flush, hv, h, run]
    · obtain ⟨t, ht⟩ := Option.isSome_iff_exists.mp hc
      simp only [hne, ht, Scan.of_mark? ht, run_mark ht]
      cases hv : Scan.bareValue? text.reverse with
      | none => simp [Scan.flush, hv]
      | some v =>
        cases h : b.accept limit (.leaf v) with
        | none => simp [Scan.flush, hv, h]
        | some b' => cases h' : b'.accept limit t <;> simp [Scan.flush, hv, h, h', run]

theorem run_bare_append {text : List Char} (hb : ∀ c ∈ cs, Scan.IsBare c) (ht : text ≠ []) :
    Machine.run limit ⟨.bare text, b⟩ (cs ++ rest) =
      Machine.run limit ⟨.bare (cs.reverse ++ text), b⟩ rest := by
  induction cs generalizing text with
  | nil => rfl
  | cons c cs ih =>
    obtain ⟨⟨hblank, hquote, hmark⟩, hcs⟩ := List.forall_mem_cons.mp hb
    rw [List.cons_append, Machine.run_cons, Machine.step_eq, Scan.step, Scan.outside]
    simp [hblank, hquote, hmark, ih hcs]

theorem run_bare (hb : ∀ c ∈ cs, Scan.IsBare c) (hne : cs ≠ []) (hr : Scan.EndsWord rest) :
    b.run limit (cs ++ rest) = (Scan.bareValue? cs).bind fun v =>
      (b.accept limit (.leaf v)).bind fun b => b.run limit rest := by
  cases cs with
  | nil => exact absurd rfl hne
  | cons c cs =>
    obtain ⟨⟨hblank, hquote, hmark⟩, hcs⟩ := List.forall_mem_cons.mp hb
    have hfirst : b.run limit (c :: (cs ++ rest)) =
        Machine.run limit ⟨.bare [c], b⟩ (cs ++ rest) := by
      rw [run, Machine.run_cons, Machine.step_eq, Scan.step, Scan.outside]
      simp [hblank, hquote, hmark]
    rw [List.cons_append, hfirst, run_bare_append hcs (List.cons_ne_nil _ _),
      run_endsWord (by simp) hr]
    simp

theorem run_escaped {e : Char} (he : Scan.escaped? e = some c) (text rest : List Char) :
    Machine.run limit ⟨.quoted text, b⟩ ('\\' :: e :: rest) =
      Machine.run limit ⟨.quoted (c :: text), b⟩ rest := by
  have hu : e ≠ 'u' := by
    rintro rfl
    cases he
  simp [Machine.run_cons, Machine.step_eq, Scan.step, hu, he]

theorem hexDigit?_digitChar : ∀ d < 16, Scan.hexDigit? (Nat.digitChar d) = some d := by decide

/-- A control is written as a unit of four digits, of which two are zero. -/
theorem run_unit (hc : c.toNat < 32) (text rest : List Char) :
    Machine.run limit ⟨.quoted text, b⟩ ('\\' :: 'u' :: '0' :: '0' ::
        Nat.digitChar (c.toNat / 16) :: Nat.digitChar (c.toNat % 16) :: rest) =
      Machine.run limit ⟨.quoted (c :: text), b⟩ rest := by
  have hzero : Scan.hexDigit? '0' = some 0 := rfl
  have hhigh := hexDigit?_digitChar (c.toNat / 16) (by omega)
  have hlow := hexDigit?_digitChar (c.toNat % 16) (by omega)
  have hunit : c.toNat / 16 * 16 + c.toNat % 16 = c.toNat := by omega
  have hend : Scan.endUnit text none c.toNat = some (.quoted (c :: text)) := by
    have h₁ : Scan.isHigh c.toNat = false := by simp [Scan.isHigh]; omega
    have h₂ : Scan.isLow c.toNat = false := by simp [Scan.isLow]; omega
    simp [Scan.endUnit, h₁, h₂]
  simp [Machine.run_cons, Machine.step_eq, Scan.step, hzero, hhigh, hlow, hunit, hend]

theorem run_escape (text : List Char) (c : Char) (rest : List Char) :
    Machine.run limit ⟨.quoted text, b⟩ (Json.escape c ++ rest) =
      Machine.run limit ⟨.quoted (c :: text), b⟩ rest := by
  have hofNat : ∀ n, c.toNat = n → Char.ofNat n = c := by
    rintro n rfl
    exact Char.ofNat_toNat c
  unfold Json.escape
  split
  · next h =>
    subst h
    exact run_escaped rfl text rest
  split
  · next h =>
    subst h
    exact run_escaped rfl text rest
  split
  · next hlt =>
    split
    · next h =>
      subst h
      exact run_escaped rfl text rest
    split
    · next h =>
      subst h
      exact run_escaped rfl text rest
    split
    · next h =>
      subst h
      exact run_escaped rfl text rest
    split
    · next h => exact run_escaped (e := 'b') (congrArg some (hofNat 8 h)) text rest
    split
    · next h => exact run_escaped (e := 'f') (congrArg some (hofNat 12 h)) text rest
    · exact run_unit hlt text rest
  · next hquote hslash hge =>
    simp [Machine.run_cons, Machine.step_eq, Scan.step, hquote, hslash, hge]

theorem run_flatMap_escape (text cs rest : List Char) :
    Machine.run limit ⟨.quoted text, b⟩ (cs.flatMap Json.escape ++ rest) =
      Machine.run limit ⟨.quoted (cs.reverse ++ text), b⟩ rest := by
  induction cs generalizing text with
  | nil => rfl
  | cons c cs ih => simp [List.flatMap_cons, run_escape, ih]

theorem run_quoted (s : String) (rest : List Char) :
    b.run limit (Json.quoted s ++ rest) =
      (b.accept limit (.leaf (.str s))).bind fun b => b.run limit rest := by
  have hopen : ∀ cs, b.run limit ('"' :: cs) = Machine.run limit ⟨.quoted [], b⟩ cs := by
    intro cs
    rw [run, Machine.run_cons, Machine.step_eq, Scan.step, Scan.outside]
    rfl
  rw [Json.quoted, List.cons_append, List.cons_append, hopen, List.append_assoc,
    run_flatMap_escape, List.singleton_append, Machine.run_cons, Machine.step_eq]
  cases h : b.accept limit (.leaf (.str s)) <;> simp [Scan.step, h, run]

/-- The builder to which a value has been handed, unless it nests too deep. -/
def place (limit : ℕ) (b : Builder) (j : Json) : Option Builder :=
  if b.opened.length + j.depth ≤ limit then some (complete j.reread b.opened) else none

theorem accept_leaf (hv : acceptsValue b.expected = true) (j : Json) :
    b.accept limit (.leaf j) = some (complete j b.opened) := by
  unfold accept
  cases he : b.expected <;> simp_all [acceptsValue]

theorem run_key {ms : Members} {key : String} {opened : List Opened} {e : Expected}
    (he : e = .key ∨ e = .keyOrEnd) (k : String) (cs : List Char) :
    run limit ⟨.object ms key :: opened, e⟩ (Json.quoted k ++ ':' :: cs) =
      run limit ⟨.object ms k :: opened, .value⟩ cs := by
  rcases he with rfl | rfl <;> rw [run_quoted] <;>
    simp only [accept, Option.bind_some, run_mark (show Scan.mark? ':' = some .colon from rfl)]

theorem run_word {v : Json} (hb : ∀ c ∈ cs, Scan.IsBare c) (hne : cs ≠ [])
    (hc : Scan.bareValue? cs = some v) (hv : acceptsValue b.expected = true)
    (hr : Scan.EndsWord rest) :
    b.run limit (cs ++ rest) = (complete v b.opened).run limit rest := by
  rw [run_bare hb hne hr, hc, Option.bind_some, accept_leaf hv, Option.bind_some]

theorem place_of_depth_eq_zero {j : Json} (hb : b.opened.length ≤ limit) (h : j.depth = 0) :
    b.place limit j = some (complete j.reread b.opened) := by
  rw [place, h, Nat.add_zero, if_pos hb]

theorem run_beginArray (hv : acceptsValue b.expected = true) (cs : List Char) :
    b.run limit ('[' :: cs) =
      if b.opened.length < limit then run limit ⟨.array [] :: b.opened, .valueOrEnd⟩ cs
      else none := by
  rw [run_mark (show Scan.mark? '[' = some .beginArray from rfl), accept, hv]
  by_cases h : b.opened.length < limit <;> simp [h]

theorem run_beginObject (hv : acceptsValue b.expected = true) (cs : List Char) :
    b.run limit ('{' :: cs) =
      if b.opened.length < limit then run limit ⟨.object [] "" :: b.opened, .keyOrEnd⟩ cs
      else none := by
  rw [run_mark (show Scan.mark? '{' = some .beginObject from rfl), accept, hv]
  by_cases h : b.opened.length < limit <;> simp [h]

theorem run_endArray {reversed : List Json} {opened : List Opened} {e : Expected} (cs : List Char)
    (he : e = .valueOrEnd ∨ e = .separatorOrEnd) (hcs : ∀ c ∈ cs, Scan.isBlank c = true) :
    run limit ⟨.array reversed :: opened, e⟩ (cs ++ ']' :: rest) =
      (complete (.arr reversed.reverse) opened).run limit rest := by
  rw [run_blanks hcs, run_mark (show Scan.mark? ']' = some .endArray from rfl)]
  rcases he with rfl | rfl <;> rfl

theorem run_endObject {members : Members} {key : String} {opened : List Opened} {e : Expected}
    (cs : List Char)
    (he : e = .keyOrEnd ∨ e = .separatorOrEnd) (hcs : ∀ c ∈ cs, Scan.isBlank c = true) :
    run limit ⟨.object members key :: opened, e⟩ (cs ++ '}' :: rest) =
      (complete (.obj members) opened).run limit rest := by
  rw [run_blanks hcs, run_mark (show Scan.mark? '}' = some .endObject from rfl)]
  rcases he with rfl | rfl <;> rfl

variable {sp : Json.Spacing} {level : ℕ}

theorem endsWord_blanks {e : Char} (cs : List Char) (hcs : ∀ c ∈ cs, Scan.isBlank c = true)
    (he : (Scan.mark? e).isSome = true) (rest : List Char) : Scan.EndsWord (cs ++ e :: rest) := by
  cases cs with
  | nil =>
    rintro c ⟨⟩
    exact .inr he
  | cons c cs =>
    rintro c ⟨⟩
    exact .inl (hcs _ (.head _))

theorem endsWord_writeItems (hcs : ∀ c ∈ cs, Scan.isBlank c = true) (xs : List Json)
    (rest : List Char) : Scan.EndsWord (Json.writeItems sp level xs ++ (cs ++ ']' :: rest)) := by
  cases xs with
  | nil => exact endsWord_blanks cs hcs rfl rest
  | cons x xs => exact endsWord_blanks [] nofun rfl _

theorem endsWord_writeMembers (hcs : ∀ c ∈ cs, Scan.isBlank c = true) (ms : Members)
    (rest : List Char) : Scan.EndsWord (Json.writeMembers sp level ms ++ (cs ++ '}' :: rest)) := by
  cases ms with
  | nil => exact endsWord_blanks cs hcs rfl rest
  | cons m ms => exact endsWord_blanks [] nofun rfl _

theorem bind_place_container {j : Json} {n : ℕ} (h : j.depth = n + 1)
    (after : Builder → Option Json) : (b.place limit j).bind after =
      if b.opened.length + 1 + n ≤ limit then after (complete j.reread b.opened) else none := by
  rw [place, h, Nat.add_right_comm, Nat.add_assoc]
  split <;> rfl

/-- A container closes unless its first value or what follows it nests too deep. -/
theorem bind_place {x : Json} {o : Opened} {opened : List Opened} {e : Expected} {n : ℕ}
    {after : Builder → Option Json} {result : Option Json}
    (h : after (complete x.reread (o :: opened)) =
      if opened.length + 1 + n ≤ limit then result else none) :
    (place limit ⟨o :: opened, e⟩ x).bind after =
      if opened.length + 1 + max x.depth n ≤ limit then result else none := by
  rw [place, List.length_cons]
  by_cases hx : opened.length + 1 + x.depth ≤ limit
  · rw [if_pos hx, Option.bind_some, h]
    congr 1
    exact propext ⟨by omega, by omega⟩
  · rw [if_neg hx, if_neg (by omega)]
    rfl

mutual

theorem run_write (hsp : sp.IsBlank) (level : ℕ) : ∀ (j : Json) (b : Builder),
    j.WellFormed → acceptsValue b.expected = true → b.opened.length ≤ limit →
    ∀ rest, Scan.EndsWord rest → b.run limit (Json.write sp level j ++ rest) =
      (b.place limit j).bind fun b => b.run limit rest
  | .null, b, _, hv, hb, rest, hr => by
    rw [place_of_depth_eq_zero hb rfl, Json.write]
    exact run_word (Scan.isBare_of_all (by decide)) (by decide) rfl hv hr
  | .bool true, b, _, hv, hb, rest, hr => by
    rw [place_of_depth_eq_zero hb rfl, Json.write]
    exact run_word (Scan.isBare_of_all (by decide)) (by decide) rfl hv hr
  | .bool false, b, _, hv, hb, rest, hr => by
    rw [place_of_depth_eq_zero hb rfl, Json.write]
    exact run_word (Scan.isBare_of_all (by decide)) (by decide) rfl hv hr
  | .num n, b, hw, hv, hb, rest, hr => by
    obtain ⟨n', hn⟩ := Option.isSome_iff_exists.mp (Number.isSome_ofChars?_text hw)
    obtain ⟨hbare, hne⟩ := Scan.isBare_of_ofChars? hn
    have hr' : Json.reread (.num n) = .num n' := by rw [Json.reread, Number.reread, hn]; rfl
    rw [place_of_depth_eq_zero hb rfl, hr']
    exact run_word hbare hne (Scan.bareValue?_of_ofChars? hn) hv hr
  | .str s, b, _, hv, hb, rest, _ => by
    rw [place_of_depth_eq_zero hb rfl, Json.write, run_quoted, accept_leaf hv]
    rfl
  | .arr [], b, _, hv, hb, rest, _ => by
    rw [Json.write, List.cons_append, run_beginArray hv]
    rw [bind_place_container (n := 0) rfl]
    by_cases hlt : b.opened.length < limit
    · rw [if_pos hlt, if_pos (by omega)]
      exact run_endArray [] (.inl rfl) nofun
    · rw [if_neg hlt, if_neg (by omega)]
  | .arr (x :: xs), b, hw, hv, hb, rest, _ => by
    have hlevel := hsp.newline level
    rw [Json.write, bind_place_container (n := max x.depth (Json.depthItems xs)) rfl]
    simp only [List.cons_append, List.append_assoc, List.nil_append]
    rw [run_beginArray hv, run_blanks (hsp.newline (level + 1))]
    by_cases hlt : b.opened.length < limit
    · rw [if_pos hlt, run_write hsp (level + 1) x ⟨.array [] :: b.opened, .valueOrEnd⟩ hw.1 rfl
        hlt _ (endsWord_writeItems hlevel xs rest)]
      refine bind_place ?_
      rw [complete, run_writeItems hsp (level + 1) xs _ b.opened hw.2 hlt _ rest hlevel]
      rfl
    · rw [if_neg hlt, if_neg (by omega)]
  | .obj [], b, _, hv, hb, rest, _ => by
    rw [Json.write, List.cons_append, run_beginObject hv]
    rw [bind_place_container (n := 0) rfl]
    by_cases hlt : b.opened.length < limit
    · rw [if_pos hlt, if_pos (by omega)]
      exact run_endObject [] (.inl rfl) nofun
    · rw [if_neg hlt, if_neg (by omega)]
  | .obj ((k, x) :: ms), b, hw, hv, hb, rest, _ => by
    have hlevel := hsp.newline level
    have hfresh : Members.extend (Members.insert [] k x.reread) (Json.rereadMembers ms) =
        Json.rereadMembers ((k, x) :: ms) := Json.ofList_rereadMembers hw.1
    rw [Json.write, bind_place_container (n := max x.depth (Json.depthMembers ms)) rfl]
    simp only [List.cons_append, List.append_assoc, List.nil_append]
    rw [run_beginObject hv, run_blanks (hsp.newline (level + 1)), run_key (.inr rfl),
      run_blanks hsp.afterColon]
    by_cases hlt : b.opened.length < limit
    · rw [if_pos hlt, run_write hsp (level + 1) x ⟨.object [] k :: b.opened, .value⟩ hw.2.1 rfl
        hlt _ (endsWord_writeMembers hlevel ms rest)]
      refine bind_place ?_
      rw [complete, run_writeMembers hsp (level + 1) ms _ k b.opened hw.2.2 hlt _ rest hlevel,
        hfresh]
      rfl
    · rw [if_neg hlt, if_neg (by omega)]

theorem run_writeItems (hsp : sp.IsBlank) (level : ℕ) :
    ∀ (xs reversed : List Json) (opened : List Opened), Json.WellFormedItems xs →
    opened.length < limit → ∀ cs rest, (∀ c ∈ cs, Scan.isBlank c = true) →
    run limit ⟨.array reversed :: opened, .separatorOrEnd⟩
        (Json.writeItems sp level xs ++ (cs ++ ']' :: rest)) =
      if opened.length + 1 + Json.depthItems xs ≤ limit then
        (complete (.arr (reversed.reverse ++ Json.rereadItems xs)) opened).run limit rest
      else none
  | [], reversed, opened, _, hlt, cs, rest, hcs => by
    rw [Json.rereadItems, List.append_nil, Json.depthItems, if_pos (by omega)]
    exact run_endArray cs (.inr rfl) hcs
  | x :: xs, reversed, opened, ⟨hx, hxs⟩, hlt, cs, rest, hcs => by
    have hcomma : ∀ cs, run limit ⟨.array reversed :: opened, .separatorOrEnd⟩ (',' :: cs) =
        run limit ⟨.array reversed :: opened, .value⟩ cs :=
      fun cs => run_mark (show Scan.mark? ',' = some .comma from rfl)
    rw [Json.writeItems]
    simp only [List.cons_append, List.append_assoc]
    rw [hcomma, run_blanks (hsp.newline level),
      run_write hsp level x ⟨.array reversed :: opened, .value⟩ hx rfl hlt _
        (endsWord_writeItems hcs xs rest)]
    refine bind_place ?_
    rw [complete, run_writeItems hsp level xs _ opened hxs hlt cs rest hcs]
    simp [Json.rereadItems]

theorem run_writeMembers (hsp : sp.IsBlank) (level : ℕ) :
    ∀ (ms before : Members) (key : String) (opened : List Opened), Json.WellFormedMembers ms →
    opened.length < limit → ∀ cs rest, (∀ c ∈ cs, Scan.isBlank c = true) →
    run limit ⟨.object before key :: opened, .separatorOrEnd⟩
        (Json.writeMembers sp level ms ++ (cs ++ '}' :: rest)) =
      if opened.length + 1 + Json.depthMembers ms ≤ limit then
        (complete (.obj (Members.extend before (Json.rereadMembers ms))) opened).run limit rest
      else none
  | [], before, key, opened, _, hlt, cs, rest, hcs => by
    rw [Json.rereadMembers, Json.depthMembers, if_pos (by omega)]
    exact run_endObject cs (.inr rfl) hcs
  | (k, x) :: ms, before, key, opened, ⟨hx, hms⟩, hlt, cs, rest, hcs => by
    have hcomma : ∀ cs, run limit ⟨.object before key :: opened, .separatorOrEnd⟩ (',' :: cs) =
        run limit ⟨.object before key :: opened, .key⟩ cs :=
      fun cs => run_mark (show Scan.mark? ',' = some .comma from rfl)
    rw [Json.writeMembers]
    simp only [List.cons_append, List.append_assoc]
    rw [hcomma, run_blanks (hsp.newline level), run_key (.inl rfl), run_blanks hsp.afterColon,
      run_write hsp level x ⟨.object before k :: opened, .value⟩ hx rfl hlt _
        (endsWord_writeMembers hcs ms rest)]
    refine bind_place ?_
    rw [complete, run_writeMembers hsp level ms _ k opened hms hlt cs rest hcs]
    rfl

end

end Builder

namespace Json

variable {j : Json}

theorem readWithin?_write {sp : Spacing} (hsp : sp.IsBlank) (h : j.WellFormed) (limit : ℕ) :
    readWithin? limit (write sp 0 j) = if j.depth ≤ limit then some j.reread else none := by
  have hrun := Builder.run_write hsp 0 j .start h rfl (Nat.zero_le limit) [] nofun
  rw [List.append_nil] at hrun
  refine hrun.trans ?_
  rw [Builder.place, show Builder.start.opened.length = 0 from rfl, Nat.zero_add]
  split <;> rfl

/-- The text of a document is read, with each number as its digits say, unless it nests too deep. -/
theorem read?_compact (h : j.WellFormed) :
    read? j.compact = if j.depth ≤ nestingLimit then some j.reread else none := by
  rw [read?, compact, String.toList_ofList]
  exact readWithin?_write Spacing.isBlank_none h _

theorem read?_pretty (h : j.WellFormed) :
    read? j.pretty = if j.depth ≤ nestingLimit then some j.reread else none := by
  rw [read?, pretty, String.toList_ofList]
  exact readWithin?_write Spacing.isBlank_indented h _

theorem read?_text (h : j.WellFormed) (pretty : Bool) :
    read? (if pretty then j.pretty else j.compact) =
      if j.depth ≤ nestingLimit then some j.reread else none := by
  cases pretty with
  | false => exact read?_compact h
  | true => exact read?_pretty h

end Json

end SchemaRoutes
