import SchemaRoutes.Proofs.Api.BaseUrl
import SchemaRoutes.Proofs.Api.Roots

/-! # Roots under diverging base URLs

If neither of two base URLs starts with the other, no URL behind the one stands behind the other. In
the catalog the points that stand for slashes can make such base URLs alike, so there two roots can
still meet; what stops their compilation is then a name that both of them need.
-/

namespace SchemaRoutes

namespace Text

variable {s t : String}

/-- Neither of the two texts starts with the other. -/
def Diverge (s t : String) : Prop := ¬ s.toList <+: t.toList ∧ ¬ t.toList <+: s.toList

instance : Decidable (Diverge s t) := inferInstanceAs (Decidable (_ ∧ _))

theorem Diverge.append_ne (h : Diverge s t) (x y : String) : s ++ x ≠ t ++ y := by
  intro he
  have hl : s.toList ++ x.toList = t.toList ++ y.toList := by
    rw [← String.toList_append, ← String.toList_append, he]
  have hs : s.toList <+: t.toList ++ y.toList := ⟨_, hl⟩
  rcases List.prefix_or_prefix_of_prefix hs (List.prefix_append _ _) with hp | hp
  · exact h.1 hp
  · exact h.2 hp

theorem Diverge.ne_empty (h : Diverge s t) : s ≠ "" ∧ t ≠ "" := by
  constructor
  · rintro rfl
    exact h.1 List.nil_prefix
  · rintro rfl
    exact h.2 List.nil_prefix

end Text

/-- What stands in front of the titles in the catalog, unless there is no base URL. -/
def Mount.qualifier (m : Mount) : String := m.baseUrl.map dotted ++ "::"

theorem Mount.renamed_eq {m : Mount} (h : m.baseUrl ≠ "") (name : String) :
    m.renamed name = m.qualifier ++ name := by
  rw [renamed, if_neg h, qualifier]

/-! ## What can stop a root behind another -/

namespace Obligation

variable {m : Mount} {taken : Taken} {sites : List Site} {o : Obligation}

theorem mem_of_mem_ofSites (h : o ∈ ofSites m taken sites) :
    o.site ∈ sites ∧ o.check ∈ o.site.kind.checks := by
  induction sites generalizing taken with
  | nil => cases h
  | cons site sites ih =>
    rcases List.mem_append.mp h with h | h
    · obtain ⟨check, hc, rfl⟩ := List.mem_map.mp h
      exact ⟨.head _, hc⟩
    · obtain ⟨hs, hc⟩ := ih h
      exact ⟨.tail _ hs, hc⟩

/-- The same is checked if there is more in use, against what is in use then. -/
theorem exists_of_mem_ofSites {urls names : List String}
    (h : o ∈ ofSites m ⟨urls ++ taken.urls, names ++ taken.names⟩ sites) :
    ∃ taken', o.taken = ⟨urls ++ taken'.urls, names ++ taken'.names⟩ ∧
      ⟨taken', o.site, o.check⟩ ∈ ofSites m taken sites := by
  induction sites generalizing taken with
  | nil => cases h
  | cons site sites ih =>
    rcases List.mem_append.mp h with h | h
    · obtain ⟨check, hc, rfl⟩ := List.mem_map.mp h
      exact ⟨taken, rfl, List.mem_append_left _ (List.mem_map_of_mem hc)⟩
    · have hadd : Taken.add m ⟨urls ++ taken.urls, names ++ taken.names⟩ site =
          ⟨urls ++ (taken.add m site).urls, names ++ (taken.add m site).names⟩ := by
        simp only [Taken.add, List.append_assoc]
      rw [hadd] at h
      obtain ⟨taken', ht, hm⟩ := ih h
      exact ⟨taken', ht, List.mem_append_right _ hm⟩

end Obligation

namespace Api

open Text

variable {api part part' : Api} {dispatcher baseUrl : String} {schema : Schema} {root root' : Root}
  {e : CompileError}

/-- A root that compiles alone and takes no URL that is in use is stopped by a name, if at all. -/
theorem exists_of_mount_eq_error (h : ofSchema schema api.dispatcher baseUrl = .ok part)
    (hu : api.urls.Disjoint part.urls) (he : api.mount schema baseUrl = .error e) :
    ∃ name ∈ api.catalog.keys, name ∈ part.catalog.keys ∧ e = .nameTaken name := by
  obtain ⟨hroot, hall, rfl⟩ := mount_eq_ok_iff.mp h
  rcases mount_eq_error_iff.mp he with ⟨hn, -⟩ | ⟨-, o, ho, rfl⟩
  · exact absurd hroot hn
  have htaken : api.taken = ⟨api.urls ++ (empty api.dispatcher).taken.urls,
      api.catalog.keys ++ (empty api.dispatcher).taken.names⟩ := by
    simp only [taken, urls, empty, List.map_nil, Members.keys_nil, List.append_nil]
  have hmem := ho.mem
  rw [htaken] at hmem
  obtain ⟨taken', ht, ho'⟩ := Obligation.exists_of_mem_ofSites hmem
  obtain ⟨hs, hcheck⟩ := Obligation.mem_of_mem_ofSites hmem
  have halone := hall _ ho'
  have hfails := ho.not_holds
  obtain ⟨taken, site, check⟩ := o
  cases ht
  cases check with
  | handler | title | seed => exact absurd halone hfails
  | url =>
    have hin : site.url ⟨baseUrl⟩ ∈ api.urls := by
      by_contra hn
      exact hfails fun hm => (List.mem_append.mp hm).elim hn halone
    refine absurd ?_ (hu hin)
    rw [urls_extend]
    exact List.mem_append_right _ (List.mem_map_of_mem hs)
  | name =>
    have hin : site.entryName ⟨baseUrl⟩ ∈ api.catalog.keys := by
      by_contra hn
      exact hfails fun hm => (List.mem_append.mp hm).elim hn halone
    refine ⟨_, hin, ?_, rfl⟩
    -- Only items are checked for their names, and they have entries.
    have hitem : site.entryName ⟨baseUrl⟩ ∈ (site.entries ⟨baseUrl⟩).keys := by
      obtain ⟨pos, kind, s⟩ := site
      cases kind with
      | collection => simp [EndpointKind.checks] at hcheck
      | item => exact .head _
    rw [keys_extend]
    refine List.mem_append_right _ ?_
    obtain ⟨entry, hentry, hname⟩ := List.mem_map.mp hitem
    exact List.mem_map.mpr ⟨entry, List.mem_flatMap.mpr ⟨site, hs, hentry⟩, hname⟩

/-! ## Two roots -/

theorem exists_moved_of_alone (h : root.Alone dispatcher part) :
    ∃ bare : Api, part = bare.moved ⟨root.baseUrl⟩ := by
  rw [Root.Alone, ofSchema_eq_moved] at h
  cases hb : ofSchema root.schema dispatcher "" with
  | error e =>
    rw [hb] at h
    cases h
  | ok bare =>
    rw [hb] at h
    exact ⟨bare, (Except.ok.inj h).symm⟩

theorem urls_disjoint_of_diverge (hb : Diverge root.baseUrl root'.baseUrl)
    (h : root.Alone dispatcher part) (h' : root'.Alone dispatcher part') :
    part.urls.Disjoint part'.urls := by
  obtain ⟨bare, rfl⟩ := exists_moved_of_alone h
  obtain ⟨bare', rfl⟩ := exists_moved_of_alone h'
  rw [urls_moved, urls_moved]
  rintro _ hu hu'
  obtain ⟨url, -, rfl⟩ := List.mem_map.mp hu
  obtain ⟨url', -, he⟩ := List.mem_map.mp hu'
  exact hb.append_ne url url' he.symm

theorem names_disjoint_of_diverge (hb : Diverge root.baseUrl root'.baseUrl)
    (hq : Diverge (Mount.qualifier ⟨root.baseUrl⟩) (Mount.qualifier ⟨root'.baseUrl⟩))
    (h : root.Alone dispatcher part) (h' : root'.Alone dispatcher part') :
    part.catalog.keys.Disjoint part'.catalog.keys := by
  obtain ⟨bare, rfl⟩ := exists_moved_of_alone h
  obtain ⟨bare', rfl⟩ := exists_moved_of_alone h'
  rw [keys_moved, keys_moved]
  rintro _ hn hn'
  obtain ⟨name, -, rfl⟩ := List.mem_map.mp hn
  obtain ⟨name', -, he⟩ := List.mem_map.mp hn'
  rw [Mount.renamed_eq (m := ⟨root.baseUrl⟩) hb.ne_empty.1,
    Mount.renamed_eq (m := ⟨root'.baseUrl⟩) hb.ne_empty.2] at he
  exact hq.append_ne name name' he.symm

theorem ofRoots_pair_eq_ok (h : root.Alone dispatcher part) (h' : root'.Alone dispatcher part')
    (ha : part.Apart part') :
    ofRoots dispatcher [root, root'] = .ok (joined dispatcher [part, part']) :=
  ofRoots_eq_ok_iff.mpr ⟨_, .cons h (.cons h' .nil), List.pairwise_pair.mpr ha, rfl⟩

theorem exists_ofRoots_pair_eq_error (h : root.Alone dispatcher part)
    (h' : root'.Alone dispatcher part') (hu : part.urls.Disjoint part'.urls)
    (hn : ¬ part.catalog.keys.Disjoint part'.catalog.keys) :
    ∃ name ∈ part.catalog.keys, name ∈ part'.catalog.keys ∧
      ofRoots dispatcher [root, root'] = .error (.nameTaken name) := by
  have hpair : ofRoots dispatcher [root, root'] = part.mount root'.schema root'.baseUrl := by
    have hfirst : (empty dispatcher).mount root.schema root.baseUrl = .ok part := h
    rw [ofRoots, List.foldlM_cons, hfirst]
    exact bind_pure (part.mount root'.schema root'.baseUrl)
  have hdispatcher : part.dispatcher = dispatcher := by
    obtain ⟨-, -, rfl⟩ := mount_eq_ok_iff.mp h
    rfl
  cases hm : part.mount root'.schema root'.baseUrl with
  | ok api =>
    obtain ⟨q, hq, ha, -⟩ := mount_eq_ok_iff_apart.mp hm
    rw [hdispatcher] at hq
    cases hq.symm.trans h'
    exact absurd ha.names hn
  | error e =>
    obtain ⟨name, hname, hname', rfl⟩ := exists_of_mount_eq_error (hdispatcher ▸ h') hu hm
    exact ⟨name, hname, hname', hpair.trans hm⟩

/-- Two roots under diverging base URLs have no URL in common. They compile together exactly if they
have no catalog name in common, and else such a name is what stops them. There is none if the base
URLs diverge also as they are written in front of titles. -/
theorem ofRoots_of_diverge (hb : Diverge root.baseUrl root'.baseUrl)
    (h : root.Alone dispatcher part) (h' : root'.Alone dispatcher part') :
    part.urls.Disjoint part'.urls ∧
    (part.catalog.keys.Disjoint part'.catalog.keys →
      ofRoots dispatcher [root, root'] = .ok (joined dispatcher [part, part'])) ∧
    (¬ part.catalog.keys.Disjoint part'.catalog.keys →
      ∃ name ∈ part.catalog.keys, name ∈ part'.catalog.keys ∧
        ofRoots dispatcher [root, root'] = .error (.nameTaken name)) ∧
    (Diverge (Mount.qualifier ⟨root.baseUrl⟩) (Mount.qualifier ⟨root'.baseUrl⟩) →
      part.catalog.keys.Disjoint part'.catalog.keys) := by
  have hu := urls_disjoint_of_diverge hb h h'
  exact ⟨hu, fun hn => ofRoots_pair_eq_ok h h' ⟨hu, hn⟩, exists_ofRoots_pair_eq_error h h' hu,
    fun hq => names_disjoint_of_diverge hb hq h h'⟩

theorem exists_folders_alone (baseUrl name : String)
    (h : (ofSchema Schema.folders "main" baseUrl).map (fun api => api.catalog.keys) = .ok [name]) :
    ∃ part, (Root.folders baseUrl).Alone "main" part ∧ part.catalog.keys = [name] :=
  map_eq_ok_iff.mp h

theorem ofRoots_folders_apart : ∃ part part', (Root.folders "/v1").Alone "main" part ∧
    (Root.folders "/v2").Alone "main" part' ∧ part.urls.Disjoint part'.urls ∧
    ofRoots "main" [.folders "/v1", .folders "/v2"] = .ok (joined "main" [part, part']) := by
  obtain ⟨part, h, -⟩ := exists_folders_alone "/v1" ".v1::Note" (by decide +kernel)
  obtain ⟨part', h', -⟩ := exists_folders_alone "/v2" ".v2::Note" (by decide +kernel)
  have hb : Diverge "/v1" "/v2" := by decide +kernel
  have hq : Diverge (Mount.qualifier ⟨"/v1"⟩) (Mount.qualifier ⟨"/v2"⟩) := by decide +kernel
  obtain ⟨hu, hok, -, hnames⟩ := ofRoots_of_diverge hb h h'
  exact ⟨part, part', h, h', hu, hok (hnames hq)⟩

theorem ofRoots_folders_dotted : ∃ part part', (Root.folders "/a/b").Alone "main" part ∧
    (Root.folders "/a.b").Alone "main" part' ∧ Diverge "/a/b" "/a.b" ∧
    ofRoots "main" [.folders "/a/b", .folders "/a.b"] = .error (.nameTaken ".a.b::Note") := by
  obtain ⟨part, h, hk⟩ := exists_folders_alone "/a/b" ".a.b::Note" (by decide +kernel)
  obtain ⟨part', h', hk'⟩ := exists_folders_alone "/a.b" ".a.b::Note" (by decide +kernel)
  have hb : Diverge "/a/b" "/a.b" := by decide +kernel
  have hn : ¬ part.catalog.keys.Disjoint part'.catalog.keys := by
    rw [hk, hk']
    exact fun hd => hd (.head _) (.head _)
  obtain ⟨name, hname, -, hrun⟩ :=
    exists_ofRoots_pair_eq_error h h' (urls_disjoint_of_diverge hb h h') hn
  rw [hk, List.mem_singleton] at hname
  exact ⟨part, part', h, h', hb, hname ▸ hrun⟩

end Api

end SchemaRoutes
