import SchemaRoutes.Proofs.Json.Reader

/-! # What is read is well formed

Rounding gives every number its one representation, a builder sets the members of an object one
after the other, and a token holds no object of its own. So a document that is read from a text is
well formed, whatever the text.
-/

namespace SchemaRoutes

namespace Double

variable {num den : ℕ} {e : ℤ} {a b d : Double}

/-- At the exponent of a quotient, rounding fills the significand and goes one beyond at most. -/
theorem roundAt_range (hn : 0 < num) (hd : 0 < den) (he : exponentFor num den = e) :
    roundAt num den e ≤ 2 ^ 53 ∧ (e = leastExponent ∨ 2 ^ 52 ≤ roundAt num den e) := by
  obtain ⟨hlt, hfull⟩ := exponentFor_spec hn hd he
  obtain ⟨hup, hlow⟩ := roundAt_spec num hd e
  have hp : (0 : ℚ) < 2 ^ e := zpow_pos two_pos e
  refine ⟨?_, hfull.imp_right fun hfull => ?_⟩
  · by_contra hn
    have hr : (2 ^ 53 + 1 : ℚ) ≤ roundAt num den e := by exact_mod_cast not_le.mp hn
    have := mul_le_mul_of_nonneg_right hr hp.le
    linarith
  · by_contra hn
    have hr : (roundAt num den e + 1 : ℚ) ≤ 2 ^ 52 := by exact_mod_cast not_le.mp hn
    have := mul_le_mul_of_nonneg_right hr hp.le
    linarith

theorem canonical_of_nearest (hd : 0 < den) (h : nearest num den = some d) : d.Canonical := by
  rcases Nat.eq_zero_or_pos num with rfl | hn
  · cases h
    decide
  obtain ⟨e, he⟩ : ∃ e, exponentFor num den = e := ⟨_, rfl⟩
  obtain ⟨hle, hfull⟩ := roundAt_range hn hd he
  have hleast : leastExponent ≤ e := he ▸ le_max_left _ _
  rw [nearest_eq hn he] at h
  unfold Canonical
  simp only [Nat.pow_eq]
  split at h
  · split at h
    · cases h
    · next hin =>
      cases h
      exact ⟨by norm_num, hleast.trans (Int.le_add_one le_rfl), not_lt.mp hin, .inl le_rfl⟩
  · next hs =>
    split at h
    · cases h
    · next hin =>
      cases h
      exact ⟨lt_of_le_of_ne hle hs, hleast, not_lt.mp hin, hfull.symm⟩

theorem canonical_of_multiply (h : a.multiply b = some d) : d.Canonical := by
  obtain ⟨num, den, hd, -, he⟩ := multiply_eq a b
  obtain ⟨d', hn, rfl⟩ := Option.map_eq_some_iff.mp (he.symm.trans h)
  exact canonical_of_nearest (d := d') hd hn

theorem canonical_of_divide (hb : 0 < b.significand) (h : a.divide b = some d) : d.Canonical := by
  obtain ⟨num, den, hd, -, he⟩ := divide_eq a hb
  obtain ⟨d', hn, rfl⟩ := Option.map_eq_some_iff.mp (he.symm.trans h)
  exact canonical_of_nearest (d := d') hd hn

end Double

namespace Number

variable {n : Number} {l : Literal} {d : Double} {cs : List Char}

theorem canonical_of_scale? {significand : ℕ} {exponent : ℤ}
    (h : scale? significand exponent = some d) : d.Canonical := by
  have hstart : ((Double.nearest significand 1).getD Double.zero).Canonical := by
    cases hs : Double.nearest significand 1 with
    | none => decide
    | some d' => exact Double.canonical_of_nearest Nat.one_pos hs
  unfold scale? at h
  dsimp only at h
  split at h
  · split at h
    · exact Double.canonical_of_multiply h
    · split at h
      · cases h
        exact hstart
      · cases h
  · exact Double.canonical_of_divide (powerOfTen_spec (by omega)).2.2 h

theorem canonical_of_double? (h : l.double? = some d) : d.Canonical := by
  unfold Literal.double? at h
  dsimp only at h
  split at h
  · exact canonical_of_scale? h
  · split at h
    · split at h
      · cases h
        decide
      · cases h
    · split at h <;> exact canonical_of_scale? h

theorem wellFormed_of_number? (h : l.number? = some n) : n.WellFormed := by
  have hfits := (absorb_spec (n := 0) (by decide) l.whole).1
  unfold Literal.number? at h
  dsimp only at h
  unfold significandLimit at hfits
  split at h
  · split at h
    · cases h
      exact ⟨by simp only [Nat.pow_eq]; omega, by exact_mod_cast hfits⟩
    split at h
    · next hrange =>
      cases h
      obtain ⟨-, hle⟩ := Bool.and_eq_true_iff.mp hrange
      have hle' := of_decide_eq_true hle
      simp only [WellFormed, Nat.pow_eq] at hle' ⊢
      exact ⟨by omega, by omega⟩
    · obtain ⟨d, hd, rfl⟩ := Option.map_eq_some_iff.mp h
      exact Double.canonical_of_nearest (d := d) Nat.one_pos hd
  · obtain ⟨d, hd, rfl⟩ := Option.map_eq_some_iff.mp h
    exact canonical_of_double? (d := d) hd

theorem wellFormed_of_ofChars? (h : ofChars? cs = some n) : n.WellFormed := by
  obtain ⟨l, -, hl⟩ := Option.bind_eq_some_iff.mp h
  exact wellFormed_of_number? hl

end Number

def Token.WellFormed : Token → Prop
  | .leaf value => value.WellFormed
  | _ => True

def Opened.WellFormed : Opened → Prop
  | .array reversed => ∀ x ∈ reversed, x.WellFormed
  | .object members _ => (Json.obj members).WellFormed

structure Builder.WellFormed (b : Builder) : Prop where
  opened : ∀ o ∈ b.opened, o.WellFormed
  result : ∀ j, b.expected = .nothing j → j.WellFormed

namespace Scan

variable {s s' : Scan} {c : Char} {cs : List Char} {ts : List Token}

theorem wellFormed_of_bareValue? {v : Json} (h : bareValue? cs = some v) : v.WellFormed := by
  unfold bareValue? at h
  split at h
  · cases h
    trivial
  · cases h
    trivial
  · cases h
    trivial
  · obtain ⟨n, hn, rfl⟩ := Option.map_eq_some_iff.mp h
    exact Number.wellFormed_of_ofChars? hn

theorem wellFormed_of_mark? {t : Token} (h : mark? c = some t) : t.WellFormed := by
  unfold mark? at h
  split at h <;> cases h <;> trivial

theorem wellFormed_of_flush (h : s.flush = some ts) : ∀ t ∈ ts, t.WellFormed := by
  unfold flush at h
  split at h
  · cases h
    exact List.forall_mem_nil _
  · obtain ⟨v, hv, rfl⟩ := Option.map_eq_some_iff.mp h
    exact List.forall_mem_singleton.mpr (wellFormed_of_bareValue? hv)
  · cases h

theorem wellFormed_of_outside {text : List Char} (h : outside text c = some (ts, s')) :
    ∀ t ∈ ts, t.WellFormed := by
  unfold outside at h
  dsimp only at h
  split at h
  · obtain ⟨_, hts, he⟩ := Option.map_eq_some_iff.mp h
    cases he
    exact wellFormed_of_flush hts
  split at h
  · obtain ⟨_, hts, he⟩ := Option.map_eq_some_iff.mp h
    cases he
    exact wellFormed_of_flush hts
  split at h
  · next hmark =>
    obtain ⟨_, hts, he⟩ := Option.map_eq_some_iff.mp h
    cases he
    exact List.forall_mem_append.mpr
      ⟨wellFormed_of_flush hts, List.forall_mem_singleton.mpr (wellFormed_of_mark? hmark)⟩
  · cases h
    exact List.forall_mem_nil _

theorem wellFormed_of_step (h : s.step c = some (ts, s')) : ∀ t ∈ ts, t.WellFormed := by
  cases s with
  | between => exact wellFormed_of_outside h
  | bare text => exact wellFormed_of_outside h
  | quoted text =>
    simp only [step] at h
    split at h
    · cases h
      exact List.forall_mem_singleton.mpr trivial
    split at h
    · cases h
      exact List.forall_mem_nil _
    split at h
    · cases h
    · cases h
      exact List.forall_mem_nil _
  | escape text =>
    simp only [step] at h
    split at h
    · cases h
      exact List.forall_mem_nil _
    · obtain ⟨_, -, he⟩ := Option.map_eq_some_iff.mp h
      cases he
      exact List.forall_mem_nil _
  | unit text high count value =>
    obtain ⟨_, -, h⟩ := Option.bind_eq_some_iff.mp h
    split at h
    · obtain ⟨_, -, he⟩ := Option.map_eq_some_iff.mp h
      cases he
      exact List.forall_mem_nil _
    · cases h
      exact List.forall_mem_nil _
  | afterHigh text high =>
    simp only [step] at h
    split at h <;> cases h
    exact List.forall_mem_nil _
  | escapeAfterHigh text high =>
    simp only [step] at h
    split at h <;> cases h
    exact List.forall_mem_nil _

end Scan

namespace Builder

variable {limit : ℕ} {b b' : Builder} {t : Token}

theorem wellFormed_complete {value : Json} (hv : value.WellFormed) {opened : List Opened}
    (ho : ∀ o ∈ opened, o.WellFormed) : (complete value opened).WellFormed := by
  match opened with
  | [] =>
    refine ⟨nofun, fun j hj => ?_⟩
    cases hj
    exact hv
  | .array reversed :: opened =>
    obtain ⟨hr, ho⟩ := List.forall_mem_cons.mp ho
    exact ⟨List.forall_mem_cons.mpr ⟨List.forall_mem_cons.mpr ⟨hv, hr⟩, ho⟩, nofun⟩
  | .object members key :: opened =>
    obtain ⟨hm, ho⟩ := List.forall_mem_cons.mp ho
    exact ⟨List.forall_mem_cons.mpr ⟨Json.WellFormed.insert hm hv, ho⟩, nofun⟩

theorem wellFormed_endArray {reversed : List Json} {os opened : List Opened}
    (h : os = .array reversed :: opened) (ho : ∀ o ∈ os, o.WellFormed) :
    (complete (.arr reversed.reverse) opened).WellFormed := by
  subst h
  obtain ⟨hr, ho⟩ := List.forall_mem_cons.mp ho
  exact wellFormed_complete (Json.WellFormed.arr fun x hx => hr x (List.mem_reverse.mp hx)) ho

theorem wellFormed_endObject {members : Members} {key : String} {os opened : List Opened}
    (h : os = .object members key :: opened) (ho : ∀ o ∈ os, o.WellFormed) :
    (complete (.obj members) opened).WellFormed := by
  subst h
  obtain ⟨hm, ho⟩ := List.forall_mem_cons.mp ho
  exact wellFormed_complete hm ho

theorem WellFormed.accept (h : b.WellFormed) (ht : t.WellFormed)
    (ha : b.accept limit t = some b') : b'.WellFormed := by
  obtain ⟨opened, expected⟩ := b
  have ho : ∀ o ∈ opened, o.WellFormed := h.opened
  unfold Builder.accept at ha
  split at ha
  · split at ha
    · cases ha
      exact wellFormed_complete ht ho
    · cases ha
      exact wellFormed_complete ht ho
    · cases ha
      exact ⟨ho, nofun⟩
    · cases ha
      exact ⟨ho, nofun⟩
    · cases ha
  · split at ha <;> cases ha
    exact ⟨List.forall_mem_cons.mpr ⟨nofun, ho⟩, nofun⟩
  · split at ha <;> cases ha
    exact ⟨List.forall_mem_cons.mpr ⟨⟨List.nodup_nil, trivial⟩, ho⟩, nofun⟩
  · split at ha
    · next hopened =>
      cases ha
      exact wellFormed_endArray hopened ho
    · next hopened =>
      cases ha
      exact wellFormed_endArray hopened ho
    · cases ha
  · split at ha
    · next hopened =>
      cases ha
      exact wellFormed_endObject hopened ho
    · next hopened =>
      cases ha
      exact wellFormed_endObject hopened ho
    · cases ha
  · split at ha
    · next hopened =>
      cases ha
      cases hopened
      obtain ⟨hm, ho⟩ := List.forall_mem_cons.mp ho
      exact ⟨List.forall_mem_cons.mpr ⟨hm, ho⟩, nofun⟩
    · cases ha
  · split at ha
    · cases ha
      exact ⟨ho, nofun⟩
    · cases ha
      exact ⟨ho, nofun⟩
    · cases ha

theorem WellFormed.foldlM (h : b.WellFormed) {ts : List Token} (ht : ∀ t ∈ ts, t.WellFormed)
    (ha : ts.foldlM (Builder.accept limit) b = some b') : b'.WellFormed := by
  induction ts generalizing b with
  | nil =>
    cases ha
    exact h
  | cons t ts ih =>
    obtain ⟨hfirst, hrest⟩ := List.forall_mem_cons.mp ht
    rw [List.foldlM_cons] at ha
    obtain ⟨b₁, h₁, ha⟩ := Option.bind_eq_some_iff.mp ha
    exact ih (h.accept hfirst h₁) hrest ha

end Builder

namespace Machine

variable {limit : ℕ} {m m' : Machine} {c : Char} {j : Json}

theorem wellFormed_of_step (h : m.builder.WellFormed) (hs : m.step limit c = some m') :
    m'.builder.WellFormed := by
  obtain ⟨s, b⟩ := m
  rw [step_eq] at hs
  obtain ⟨⟨ts, s'⟩, hstep, hs⟩ := Option.bind_eq_some_iff.mp hs
  obtain ⟨b', hb, rfl⟩ := Option.map_eq_some_iff.mp hs
  exact h.foldlM (Scan.wellFormed_of_step hstep) hb

theorem wellFormed_of_result? (h : m.builder.WellFormed) (hr : m.result? limit = some j) :
    j.WellFormed := by
  obtain ⟨ts, hflush, hr⟩ := Option.bind_eq_some_iff.mp hr
  obtain ⟨b, hb, hr⟩ := Option.bind_eq_some_iff.mp hr
  have hw := h.foldlM (Scan.wellFormed_of_flush hflush) hb
  unfold Builder.result? at hr
  split at hr
  · next he =>
    cases hr
    exact hw.result _ he
  · cases hr

theorem wellFormed_of_run (h : m.builder.WellFormed) {cs : List Char}
    (hr : run limit m cs = some j) : j.WellFormed := by
  induction cs generalizing m with
  | nil => exact wellFormed_of_result? h hr
  | cons c cs ih =>
    rw [run_cons] at hr
    obtain ⟨m', hstep, hr⟩ := Option.bind_eq_some_iff.mp hr
    exact ih (wellFormed_of_step h hstep) hr

end Machine

/-- Every document that is read is well formed. -/
theorem Json.wellFormed_of_read? {text : String} {j : Json} (h : read? text = some j) :
    j.WellFormed := by
  have hstart : Machine.start.builder.WellFormed :=
    ⟨List.forall_mem_nil _, fun _ he => Expected.noConfusion he⟩
  exact Machine.wellFormed_of_run hstart h

end SchemaRoutes
