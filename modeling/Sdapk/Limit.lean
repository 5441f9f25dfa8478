/-
A view shows what a query finds in the local store: `Shows` says that
every document in it stands for one the local store has, and that, as far as
the limit leaves room, none that matches is missing. One pass over the changed
documents keeps that up, unless it asks for another; that one, over all that
the local store has, restores it, and never asks again.
-/
import Sdapk.View

namespace Client

open Entries Window

variable {q : Query} {old s : DocumentSet q.documentComparator} {c : ViewDocumentChanges q}

/-! ## The limit -/

/-- The limit, if there is one. -/
def Query.windowSize (q : Query) : Option Nat := if q.limitType = .none then none else some q.limit

/-- No limit is as large as the number that stands for none. -/
def Query.LimitInRange (q : Query) : Prop := q.limitType = .none ∨ q.limit ≠ kNoLimit

/-- The order in which documents come first to the view. -/
def Query.ahead (q : Query) (a b : Document) : Ordering := if q.hasLimitToLast then (q.comparator a b).swap else q.comparator a b

instance : Std.TransCmp q.ahead := by
  unfold Query.ahead
  cases q.hasLimitToLast with
  | false => exact inferInstanceAs (Std.TransCmp q.comparator)
  | true =>
    have hswap (a b : Document) : (q.comparator a b).swap = q.comparator b a := Std.OrientedCmp.eq_swap.symm
    simp only [if_true, hswap]
    exact Std.TransCmp.opposite

theorem Query.windowSize_eq_some {n : Nat} (h : q.windowSize = some n) : q.limitType ≠ .none ∧ n = q.limit := by
  unfold Query.windowSize at h
  split at h
  · cases h
  · next hq => exact ⟨hq, (Option.some.inj h).symm⟩

theorem Query.limit_eq (hlim : q.LimitInRange) (hq : q.limitType ≠ .none) :
    q.hasLimitToFirst = true ∧ q.hasLimitToLast = false ∨ q.hasLimitToFirst = false ∧ q.hasLimitToLast = true := by
  have hne := hlim.resolve_left hq
  unfold Query.hasLimitToFirst Query.hasLimitToLast
  cases hl : q.limitType <;> simp_all

theorem Document.Same.ahead (hq : q.Plain) {d d' : Document} (h : d.Same d') : q.ahead d d' = .eq := by
  rw [Query.ahead, h.comparator hq]
  split <;> rfl

namespace DocumentSet

theorem le_getLast {d : Document} (h : s.getLastDocument = some d) : d ∈ s.toList ∧ ∀ v ∈ s.toList, v = d ∨ q.comparator v d = .lt := by
  rw [getLastDocument_eq] at h
  obtain ⟨l, hl⟩ := List.getLast?_eq_some_iff.1 h
  have hs := s.sorted
  rw [hl] at hs ⊢
  refine ⟨by simp, fun v hv => ?_⟩
  rcases List.mem_append.1 hv with hv | hv
  · exact .inr ((List.pairwise_append.1 hs).2.2 v hv d (by simp))
  · exact .inl (by simpa using hv)

theorem getFirst_le {d : Document} (h : s.getFirstDocument = some d) : d ∈ s.toList ∧ ∀ v ∈ s.toList, v = d ∨ q.comparator d v = .lt := by
  rw [getFirstDocument_eq] at h
  obtain ⟨l, hl⟩ := List.head?_eq_some_iff.1 h
  have hs := s.sorted
  rw [hl] at hs ⊢
  refine ⟨by simp, fun v hv => ?_⟩
  rcases List.mem_cons.1 hv with hv | hv
  · exact .inl hv
  · exact .inr ((List.pairwise_cons.1 hs).1 v hv)

/-- The document furthest out. -/
def outermost (s : DocumentSet q.documentComparator) : Option Document := if q.hasLimitToFirst then s.getLastDocument else s.getFirstDocument

theorem outermost_spec (hlim : q.LimitInRange) (hq : q.limitType ≠ .none) (hs : s.toList ≠ []) :
    ∃ d ∈ s.toList, s.outermost = some d ∧ ∀ v ∈ s.toList, v = d ∨ q.ahead v d = .lt := by
  unfold outermost Query.ahead
  rcases Query.limit_eq hlim hq with ⟨hf, hl⟩ | ⟨hf, hl⟩
  · obtain ⟨d, hd⟩ := Option.ne_none_iff_exists'.1 (mt List.getLast?_eq_none_iff.1 hs)
    have hd : s.getLastDocument = some d := by rw [getLastDocument_eq, hd]
    obtain ⟨hmem, hle⟩ := le_getLast hd
    refine ⟨d, hmem, by rw [if_pos hf, hd], fun v hv => ?_⟩
    simpa [hl] using hle v hv
  · obtain ⟨d, hd⟩ := Option.ne_none_iff_exists'.1 (mt List.head?_eq_none_iff.1 hs)
    have hd : s.getFirstDocument = some d := by rw [getFirstDocument_eq, hd]
    obtain ⟨hmem, hle⟩ := getFirst_le hd
    refine ⟨d, hmem, by rw [if_neg (by simp [hf]), hd], fun v hv => (hle v hv).imp id fun hlt => ?_⟩
    rw [if_pos hl, ← q.comparator_swap, hlt]

end DocumentSet

/-! ## Dropping documents -/

namespace ViewDocumentChanges

theorem dropOne_spec (hlim : q.LimitInRange) (hq : q.limitType ≠ .none) (h : c.Coherent old) (hs : c.documentSet.toList ≠ []) :
    ∃ d ∈ c.documentSet.toList, (∀ v ∈ c.documentSet.toList, v = d ∨ q.ahead v d = .lt) ∧ ∃ c', c.dropOne = some c' ∧
      c'.Coherent old ∧ c'.needsRefill = c.needsRefill ∧ ∀ v, v ∈ c'.documentSet.toList ↔ v ∈ c.documentSet.toList ∧ v ≠ d := by
  obtain ⟨d, hd, hout, hle⟩ := DocumentSet.outermost_spec hlim hq hs
  have hget : c.documentSet.getDocument d.key = some d := DocumentSet.getDocument_eq_some.2 ⟨hd, rfl⟩
  obtain ⟨c', hc', hcoh, hrefill, hdoc⟩ : ∃ c', c.update d.key ⟨d, .removed⟩ none = some c' ∧ c'.Coherent old ∧
      c'.needsRefill = c.needsRefill ∧ ∀ k, c'.documentSet.getDocument k = if k = d.key then none else c.documentSet.getDocument k :=
    h.update rfl (by simp) (by rw [hget]; exact ⟨⟨d, rfl⟩, rfl⟩)
  have hdrop : c.dropOne = c.documentSet.outermost.bind fun d => c.update d.key ⟨d, .removed⟩ none := by
    unfold dropOne DocumentSet.outermost
    split <;> rfl
  rw [hout] at hdrop
  refine ⟨d, hd, hle, c', hdrop.trans hc', hcoh, hrefill, fun v => ?_⟩
  have hmem : v ∈ c'.documentSet.toList ↔ c'.documentSet.getDocument v.key = some v := by
    rw [DocumentSet.getDocument_eq_some, and_iff_left rfl]
  rw [hmem, hdoc]
  split
  · next hk =>
    refine ⟨fun h => (by cases h), fun ⟨hv, hne⟩ => absurd (DocumentSet.eq_of_key hv hd hk) hne⟩
  · next hk =>
    rw [DocumentSet.getDocument_eq_some, and_iff_left rfl]
    exact ⟨fun hv => ⟨hv, fun he => hk (he ▸ rfl)⟩, And.left⟩

theorem dropMany_spec (hlim : q.LimitInRange) (hq : q.limitType ≠ .none) {n : Nat} (h : c.Coherent old) (hn : n ≤ c.documentSet.size) :
    ∃ c', c.dropMany n = some c' ∧ c'.Coherent old ∧ c'.needsRefill = c.needsRefill ∧ c'.documentSet.size + n = c.documentSet.size ∧
      (∀ v ∈ c'.documentSet.toList, v ∈ c.documentSet.toList) ∧
      ∀ w ∈ c.documentSet.toList, w ∉ c'.documentSet.toList → ∀ v ∈ c'.documentSet.toList, q.ahead v w = .lt := by
  induction n generalizing c with
  | zero => exact ⟨c, rfl, h, rfl, rfl, fun _ hv => hv, fun w hw hns => absurd hw hns⟩
  | succ n ih =>
    have hs : c.documentSet.toList ≠ [] := by
      rw [DocumentSet.size_eq] at hn
      exact List.ne_nil_of_length_pos (by omega)
    obtain ⟨d, hd, hle, c₁, hc₁, hcoh₁, hrefill₁, hmem₁⟩ := dropOne_spec hlim hq h hs
    have hsize : c₁.documentSet.size + 1 = c.documentSet.size := by
      have hperm : (d :: c₁.documentSet.toList).Perm c.documentSet.toList := by
        refine (List.perm_ext_iff_of_nodup ?_ c.documentSet.nodup).2 fun v => ?_
        · exact List.nodup_cons.2 ⟨fun hd' => ((hmem₁ d).1 hd').2 rfl, c₁.documentSet.nodup⟩
        · rw [List.mem_cons, hmem₁]
          exact ⟨fun hv => hv.elim (fun hv => hv ▸ hd) And.left, fun hv => (em (v = d)).imp id fun hne => ⟨hv, hne⟩⟩
      rw [DocumentSet.size_eq, DocumentSet.size_eq, ← hperm.length_eq, List.length_cons]
    obtain ⟨c', hc', hcoh, hrefill, hsize', hsub, hdropped⟩ := ih hcoh₁ (by omega)
    refine ⟨c', by rw [dropMany, hc₁]; exact hc', hcoh, hrefill.trans hrefill₁, by omega, fun v hv => ((hmem₁ v).1 (hsub v hv)).1,
      fun w hw hns v hv => ?_⟩
    by_cases hwd : w = d
    · rw [hwd]
      obtain ⟨hv', hne⟩ := (hmem₁ v).1 (hsub v hv)
      exact (hle v hv').resolve_left hne
    · exact hdropped w ((hmem₁ w).2 ⟨hw, hwd⟩) hns v hv

/-- What is dropped is what is past the limit. -/
theorem dropOut_spec (hlim : q.LimitInRange) (h : c.Coherent old) :
    ∃ c', c.dropOut = some c' ∧ c'.Coherent old ∧ c'.needsRefill = c.needsRefill ∧
      (∀ v ∈ c'.documentSet.toList, v ∈ c.documentSet.toList) ∧
      Fills q.ahead q.windowSize c'.documentSet.toList fun w => w ∈ c.documentSet.toList ∧ w ∉ c'.documentSet.toList := by
  unfold dropOut
  split
  · next hdrop =>
    obtain ⟨hq, hlt⟩ := hdrop
    obtain ⟨c', hc', hcoh, hrefill, hsize, hsub, hdropped⟩ := dropMany_spec hlim hq h (Nat.sub_le c.documentSet.size q.limit)
    have hlen : q.windowSize = some c'.documentSet.toList.length := by
      rw [← DocumentSet.size_eq, Query.windowSize, if_neg hq]
      exact congrArg some (by omega)
    refine ⟨c', hc', hcoh, hrefill, hsub, ?_, fun w hw => ⟨hlen, hdropped w hw.1 hw.2⟩⟩
    rw [hlen]
    simp
  · next hdrop =>
    refine ⟨c, rfl, h, rfl, fun _ hv => hv, fun n hn => ?_, fun w hw => absurd hw.1 hw.2⟩
    obtain ⟨hq, rfl⟩ := Query.windowSize_eq_some hn
    rw [← DocumentSet.size_eq]
    by_contra hlt
    exact hdrop ⟨hq, by omega⟩

end ViewDocumentChanges

/-! ## Showing what the local store has -/

/-- A document that the local store has and the query matches. -/
def Documents.Matching (docs : Documents) (q : Query) (m : Document) : Prop := docs.get m.key = some m ∧ q.matchesDocument m = true

/-- A document of the view is the local store's, as it is or as it was before a
write that was acknowledged and is yet to be sent once more. -/
def Document.StandsFor (d m : Document) : Prop :=
  d.key = m.key ∧ (shouldWaitForSyncedDocument m d ∨ d.Same m ∧ d.hasLocalMutations = m.hasLocalMutations)

/-- A document that is in the local store and not in the view. One with a
write yet to be sent once more may have been dropped where it was before. -/
def Hidden (s : DocumentSet q.documentComparator) (docs : Documents) (m : Document) : Prop :=
  docs.Matching q m ∧ s.getDocument m.key = none ∧ m.hasCommittedMutations = false

/-- Every document of the view is one that the query matches, and stands for one. -/
structure Stands (s : DocumentSet q.documentComparator) (docs : Documents) : Prop where
  matched : ∀ d ∈ s.toList, q.matchesDocument d = true
  stands : ∀ d ∈ s.toList, ∃ m, docs.Matching q m ∧ d.StandsFor m

structure Shows (s : DocumentSet q.documentComparator) (docs : Documents) : Prop extends Stands s docs where
  fills : Fills q.ahead q.windowSize s.toList (Hidden s docs)

/-- The documents of a view have the fields that they are put in order by: no comparison of two of them finds one without. -/
theorem Stands.isSome_field {docs : Documents} (h : Stands s docs) {d : Document} (hd : d ∈ s.toList) {o : OrderBy} (ho : o ∈ q.orderBys)
    (hkey : isKeyFieldPath o.field = false) : (d.field o.field).isSome := Query.isSome_field (h.matched d hd) ho hkey

theorem Document.StandsFor.refl (d : Document) : d.StandsFor d := ⟨rfl, .inr ⟨.refl d, rfl⟩⟩

theorem Documents.Matching.unique {docs : Documents} {m m' : Document} (h : docs.Matching q m) (h' : docs.Matching q m')
    (hk : m.key = m'.key) : m = m' := Option.some.inj (h.1.symm.trans (hk ▸ h'.1))

/-- A dropped document hides the one it stands for. -/
theorem Shows.of_dropped (hq : q.Plain) {s' : DocumentSet q.documentComparator} {docs : Documents} (h : Stands s docs)
    (hsub : ∀ v ∈ s'.toList, v ∈ s.toList)
    (hfills : Fills q.ahead q.windowSize s'.toList fun u =>
      Hidden s docs u ∨ u ∈ s.toList ∧ u ∉ s'.toList) : Shows s' docs := by
  refine ⟨⟨fun d hd => h.matched d (hsub d hd), fun d hd => h.stands d (hsub d hd)⟩, hfills.1, fun m hm => ?_⟩
  cases hget : s.getDocument m.key with
  | none => exact hfills.2 m (.inl ⟨hm.1, hget, hm.2.2⟩)
  | some w =>
    obtain ⟨hw, hkey⟩ := DocumentSet.getDocument_eq_some.1 hget
    have hns : w ∉ s'.toList := fun hw' => by
      cases (DocumentSet.getDocument_eq_some.2 ⟨hw', hkey⟩).symm.trans hm.2.1
    obtain ⟨hsize, hlt⟩ := hfills.2 w (.inr ⟨hw, hns⟩)
    obtain ⟨m', hm', hk, hst⟩ := h.stands w hw
    obtain rfl := hm'.unique hm.1 (hk.symm.trans hkey)
    have hsame : w.Same m' := by
      rcases hst with hwait | ⟨hsame, -⟩
      · simp [shouldWaitForSyncedDocument, hm.2.2] at hwait
      · exact hsame
    exact ⟨hsize, fun v hv => Std.TransCmp.lt_of_lt_of_eq (hlt v hv) (hsame.ahead hq)⟩

/-! ## The passes -/

namespace Pass

variable {p : Pass q} {key : DocumentKey}

@[simp] theorem documentAfter_none : p.documentAfter key none = none := by
  unfold documentAfter
  obtain ⟨ho, -, hc⟩ | ⟨_, _, h, _⟩ | ⟨o, ho, -, hc⟩ | ⟨_, _, _, h, _⟩ | ⟨_, _, _, h, _⟩ | ⟨_, _, _, h, _⟩ | ⟨_, _, _, h, _⟩ :=
    p.change_cases key none <;> first | cases h | simp [*]

/-- A document that matches is shown as it is now, or as it was if nothing is to be seen of the change. -/
theorem documentAfter_some (n : Document) : p.documentAfter key (some n) = some n ∨
    ∃ o, p.oldDocumentSet.getDocument key = some o ∧ p.documentAfter key (some n) = some o ∧
      (shouldWaitForSyncedDocument n o ∨ (o.value == n.value) = true ∧
        p.oldMutatedKeys.contains key = (n.hasLocalMutations || (p.oldMutatedKeys.contains key && n.hasCommittedMutations))) := by
  unfold documentAfter
  obtain ⟨_, h, _⟩ | ⟨_, _, h, hc⟩ | ⟨_, _, h, _⟩ | ⟨o, _, ho, h, hv, hm, hc⟩ | ⟨_, _, _, h, _, hc⟩ | ⟨o, _, ho, h, hw, hc⟩ |
    ⟨_, _, _, h, _, _, hc⟩ := p.change_cases key (some n) <;> cases h
  · exact .inl (by simp [hc])
  · exact .inr ⟨o, ho, by simp [hc, ho], .inr ⟨hv, hm⟩⟩
  · exact .inl (by simp [hc])
  · exact .inr ⟨o, ho, by simp [hc, ho], .inl hw⟩
  · exact .inl (by simp [hc])

/-- After a pass there are documents that match alone, if there were before it. -/
theorem matched {s : DocumentSet q.documentComparator} {docChanges : Documents}
    (hold : ∀ d ∈ p.oldDocumentSet.toList, q.matchesDocument d = true)
    (hchanged : ∀ key d, docChanges.get key = some d → s.getDocument key = p.documentAfter key (q.matching d))
    (hother : ∀ key, docChanges.get key = none → s.getDocument key = p.oldDocumentSet.getDocument key) :
    ∀ d ∈ s.toList, q.matchesDocument d = true := by
  intro d hd
  have hget : s.getDocument d.key = some d := DocumentSet.getDocument_eq_some.2 ⟨hd, rfl⟩
  have hkept {o : Document} (ho : p.oldDocumentSet.getDocument d.key = some o) : q.matchesDocument o = true :=
    hold o (DocumentSet.getDocument_eq_some.1 ho).1
  cases hch : docChanges.get d.key with
  | none => exact hkept ((hother _ hch).symm.trans hget)
  | some n =>
    rw [hchanged _ _ hch] at hget
    cases hn : q.matching n with
    | none =>
      rw [hn, documentAfter_none] at hget
      cases hget
    | some n' =>
      obtain ⟨hmatch, rfl⟩ := Query.matching_eq_some.1 hn
      rw [hn] at hget
      have hafter : p.documentAfter d.key (some n) = some n ∨ _ := p.documentAfter_some n
      rcases hafter with h | ⟨o, ho, h, -⟩
      · exact Option.some.inj (h.symm.trans hget) ▸ hmatch
      · exact Option.some.inj (h.symm.trans hget) ▸ hkept ho

theorem documentAfter_standsFor {n : Document} (hkey : n.key = key)
    (hm : p.oldMutatedKeys.contains key = (p.oldDocumentSet.getDocument key).any Document.hasLocalMutations) :
    ∃ d, p.documentAfter key (some n) = some d ∧ d.StandsFor n := by
  rcases p.documentAfter_some n with h | ⟨o, ho, h, hst⟩
  · exact ⟨n, h, .refl n⟩
  · have hk : o.key = n.key := (DocumentSet.getDocument_eq_some.1 ho).2.trans hkey.symm
    refine ⟨o, h, hk, ?_⟩
    rcases hst with hw | ⟨hv, hp⟩
    · exact .inl hw
    · rw [hm, ho] at hp
      simp only [Option.any_some] at hp
      have hsame : o.Same n := .inr ⟨hk, hv⟩
      unfold shouldWaitForSyncedDocument
      revert hp
      cases o.hasLocalMutations <;> cases n.hasLocalMutations <;> cases n.hasCommittedMutations <;> simp [hsame]

/-- The end of a full limit that a pass compares documents to. -/
theorem limits_eq (hlim : q.LimitInRange) (hq : q.limitType ≠ .none) (hfull : p.oldDocumentSet.size = q.limit)
    (hs : p.oldDocumentSet.toList ≠ []) : (p.lastDocInLimit.isSome || p.firstDocInLimit.isSome) = true ∧
      ∃ d ∈ p.oldDocumentSet.toList, ∀ n, p.outsideLimits n = false → (q.ahead n d).isLE := by
  obtain ⟨d, hd, hout, -⟩ := DocumentSet.outermost_spec hlim hq hs
  unfold DocumentSet.outermost at hout
  unfold outsideLimits lastDocInLimit firstDocInLimit Query.ahead
  rcases Query.limit_eq hlim hq with ⟨hf, hl⟩ | ⟨hf, hl⟩
  · rw [if_pos hf] at hout
    refine ⟨by simp [hf, hfull, hout], d, hd, fun n hn => ?_⟩
    simp only [hf, hl, hfull, hout, and_self, Bool.false_eq_true, false_and, if_true, if_false, Option.any_some, Option.any_none,
      Bool.or_false, decide_eq_false_iff_not] at hn ⊢
    cases hc : q.comparator n d <;> simp_all
  · rw [if_neg (by simp [hf])] at hout
    refine ⟨by simp [hl, hf, hfull, hout], d, hd, fun n hn => ?_⟩
    simp only [hf, hl, hfull, hout, and_self, Bool.false_eq_true, false_and, if_true, if_false, Option.any_some, Option.any_none,
      Bool.false_or, decide_eq_false_iff_not] at hn ⊢
    cases hc : q.comparator n d <;> simp_all

/-- A document equal to one that was shown is within the limit. -/
theorem outsideLimits_same (hq : q.Plain) {o n : Document} (ho : o ∈ p.oldDocumentSet.toList) (h : o.Same n) :
    p.outsideLimits n = false := by
  have hcongr (d : Document) : q.comparator n d = q.comparator o d := (Std.TransCmp.congr_left (h.comparator hq)).symm
  have hlast : ∀ last ∈ p.lastDocInLimit, q.comparator n last ≠ .gt := by
    intro last hlast hgt
    unfold lastDocInLimit at hlast
    split at hlast
    · rcases (DocumentSet.le_getLast hlast).2 o ho with rfl | hlt
      · rw [hcongr, q.comparator_self] at hgt
        cases hgt
      · rw [hcongr, hlt] at hgt
        cases hgt
    · cases hlast
  have hfirst : ∀ first ∈ p.firstDocInLimit, q.comparator n first ≠ .lt := by
    intro first hfirst hlt
    unfold firstDocInLimit at hfirst
    split at hfirst
    · rcases (DocumentSet.getFirst_le hfirst).2 o ho with rfl | hlt'
      · rw [hcongr, q.comparator_self] at hlt
        cases hlt
      · rw [hcongr, Std.OrientedCmp.gt_of_lt hlt'] at hlt
        cases hlt
    · cases hfirst
  unfold outsideLimits
  cases hl : p.lastDocInLimit <;> cases hf : p.firstDocInLimit <;> simp_all

/-- Nothing of a full limit moves out of it unless a refill is asked for. -/
theorem documentAfter_isLE (hq : q.Plain) (hlim : q.LimitInRange) (hl : q.limitType ≠ .none)
    (hfull : p.oldDocumentSet.size = q.limit) {v : Document} (hv : v ∈ p.oldDocumentSet.toList) {newDoc : Option Document}
    (hnew : ∀ d ∈ newDoc, d.key = v.key) (hrefill : (p.change v.key newDoc).2 = false) :
    ∃ w, p.documentAfter v.key newDoc = some w ∧ ∃ v' ∈ p.oldDocumentSet.toList, (q.ahead w v').isLE := by
  have hget : p.oldDocumentSet.getDocument v.key = some v := DocumentSet.getDocument_eq_some.2 ⟨hv, rfl⟩
  have hrefl : (q.ahead v v).isLE := by
    have hself : q.ahead v v = .eq := Std.ReflCmp.compare_self
    rw [hself]
    rfl
  obtain ⟨hsome, d, hd, hle⟩ := p.limits_eq hlim hl hfull (List.ne_nil_of_mem hv)
  unfold documentAfter
  obtain ⟨h, _⟩ | ⟨_, h, _⟩ | ⟨o, h, _, hc⟩ | ⟨o, _, h, _, _, _, hc⟩ | ⟨o, n, h, hn, hval, hc⟩ | ⟨o, _, h, _, _, hc⟩ |
    ⟨o, n, h, hn, _, _, hc⟩ := p.change_cases v.key newDoc <;> rw [hget] at h <;> cases h
  · rw [hc, hsome] at hrefill
    cases hrefill
  · exact ⟨v, by simp [hc, hget], v, hv, hrefl⟩
  · have hsame : v.Same n := .inr ⟨(hnew n hn).symm, hval⟩
    subst hn
    refine ⟨n, by simp [hc], v, hv, ?_⟩
    have hswap : q.ahead n v = (q.ahead v n).swap := Std.OrientedCmp.eq_swap
    rw [hswap, hsame.ahead hq]
    rfl
  · exact ⟨v, by simp [hc, hget], v, hv, hrefl⟩
  · rw [hc] at hrefill
    subst hn
    exact ⟨n, by simp [hc], d, hd, hle n hrefill⟩

end Pass

theorem Documents.keys_ne (docs : Documents) : docs.entries.Pairwise fun a b => a.1 ≠ b.1 :=
  docs.sorted.imp fun {a b} hlt he => by
    have hself : b.1.compareTo b.1 = .eq := Std.ReflCmp.compare_self
    rw [he, hself] at hlt
    cases hlt

/-- A pass, before documents are dropped and after. -/
theorem View.computeDocumentChanges_pass (hlim : q.LimitInRange) (v : View q) (docChanges : Documents)
    (previousChanges : Option (ViewDocumentChanges q)) {start : ViewDocumentChanges q}
    (hstart : previousChanges.getD ⟨v.documentSet, .empty, v.mutatedKeys, false⟩ = start) (h : start.Coherent v.documentSet) :
    let p : Pass q := ⟨start.documentSet, v.mutatedKeys⟩
    ∃ (s : DocumentSet q.documentComparator) (c : ViewDocumentChanges q),
      v.computeDocumentChanges docChanges previousChanges = (if c.needsRefill && previousChanges.isSome then none else some c) ∧
      c.Coherent v.documentSet ∧ c.needsRefill = (docChanges.entries.any fun e => (p.change e.1 (q.matching e.2)).2) ∧
      (∀ key d, docChanges.get key = some d → s.getDocument key = p.documentAfter key (q.matching d)) ∧
      (∀ key, docChanges.get key = none → s.getDocument key = start.documentSet.getDocument key) ∧
      (∀ d ∈ c.documentSet.toList, d ∈ s.toList) ∧
      Fills q.ahead q.windowSize c.documentSet.toList fun w => w ∈ s.toList ∧ w ∉ c.documentSet.toList := by
  intro p
  obtain ⟨c₁, hc₁, hcoh₁, hrefill₁, hdoc, hother⟩ := p.foldlM_apply (c := { start with needsRefill := false }) docChanges.keys_ne
    docChanges.keyed ⟨h.difference, h.mutated⟩ fun _ _ => rfl
  obtain ⟨c, hc, hcoh, hrefill, hsub, hfills⟩ := ViewDocumentChanges.dropOut_spec hlim hcoh₁
  refine ⟨c₁.documentSet, c, ?_, hcoh, hrefill.trans hrefill₁, fun key d hd => hdoc (key, d) (Documents.get_eq_some.1 hd),
    fun key hkey => hother key fun e he hk => ?_, hsub, hfills⟩
  · unfold View.computeDocumentChanges
    rw [hstart]
    change ((docChanges.entries.foldlM p.apply { start with needsRefill := false }).bind _) = _
    rw [hc₁]
    change (c₁.dropOut.bind _) = _
    rw [hc]
    rfl
  · rw [← hk, Documents.get_eq_some.2 he] at hkey
    cases hkey

/-- **A pass over what changed.** The view stands for what the local store has
now, and shows it unless it is to be filled up again. -/
theorem View.computeDocumentChanges_changed (hq : q.Plain) (hlim : q.LimitInRange) {v : View q} {docs : Documents}
    (hmut : ∀ key, v.mutatedKeys.contains key = (v.documentSet.getDocument key).any Document.hasLocalMutations)
    (hshows : Shows v.documentSet docs) (changes : Documents) :
    ∃ c, v.computeDocumentChanges changes none = some c ∧ c.Coherent v.documentSet ∧
      Stands c.documentSet (docs.applied changes) ∧
      (c.needsRefill = false → Shows c.documentSet (docs.applied changes)) := by
  have hcoh₀ : ViewDocumentChanges.Coherent v.documentSet ⟨v.documentSet, .empty, v.mutatedKeys, false⟩ := ⟨fun _ => rfl, hmut⟩
  obtain ⟨s, c, hc, hcoh, hrefill, hchanged, hother, hsub, hfills⟩ :=
    v.computeDocumentChanges_pass hlim changes none rfl hcoh₀
  set p : Pass q := ⟨v.documentSet, v.mutatedKeys⟩ with hp
  -- every document that was changed and matches is there, and no other changed document is
  have hafter {m : Document} (hm : changes.get m.key = some m) (hmatch : q.matchesDocument m = true) :
      ∃ d, s.getDocument m.key = some d ∧ d.StandsFor m := by
    rw [hchanged _ _ hm, Query.matching_eq_some.2 ⟨hmatch, rfl⟩]
    exact p.documentAfter_standsFor rfl (hmut _)
  have hstands : ∀ d ∈ s.toList, ∃ m, (docs.applied changes).Matching q m ∧ d.StandsFor m := by
    intro d hd
    have hget : s.getDocument d.key = some d := DocumentSet.getDocument_eq_some.2 ⟨hd, rfl⟩
    cases hch : changes.get d.key with
    | none =>
      rw [hother _ hch] at hget
      obtain ⟨m, hm, hst⟩ := hshows.stands d (DocumentSet.getDocument_eq_some.1 hget).1
      refine ⟨m, ⟨?_, hm.2⟩, hst⟩
      rw [Documents.get_applied, ← hst.1, hch, Option.none_or, hst.1, hm.1]
    | some m =>
      have hk := Documents.key_of_get hch
      rw [hchanged _ _ hch] at hget
      cases hmatch : q.matchesDocument m with
      | false =>
        rw [Query.matching_eq_none.2 hmatch, Pass.documentAfter_none] at hget
        cases hget
      | true =>
        rw [← hk] at hch hget
        obtain ⟨d', hd', hst⟩ := hafter hch hmatch
        rw [hchanged _ _ hch] at hd'
        obtain rfl : d = d' := Option.some.inj (hget.symm.trans hd')
        exact ⟨m, ⟨by rw [Documents.get_applied, hch, Option.some_or], hmatch⟩, hst⟩
  have hs : Stands s (docs.applied changes) := ⟨p.matched hshows.matched hchanged hother, hstands⟩
  refine ⟨c, by rw [hc]; simp, hcoh, ⟨fun d hd => hs.matched d (hsub d hd), fun d hd => hstands d (hsub d hd)⟩, fun hno => ?_⟩
  rw [hrefill, List.any_eq_false] at hno
  -- what is hidden now did not change
  have hhidden : ∀ m, Hidden s (docs.applied changes) m → Hidden v.documentSet docs m := by
    rintro m ⟨hm, hnone, hcm⟩
    have hch : changes.get m.key = none := by
      cases hch : changes.get m.key with
      | none => rfl
      | some m' =>
        have hm' := hm.1
        rw [Documents.get_applied, hch, Option.some_or] at hm'
        obtain rfl := Option.some.inj hm'
        obtain ⟨d, hd, -⟩ := hafter hch hm.2
        cases hd.symm.trans hnone
    refine ⟨⟨?_, hm.2⟩, (hother _ hch).symm.trans hnone, hcm⟩
    have hm' := hm.1
    rwa [Documents.get_applied, hch, Option.none_or] at hm'
  refine Shows.of_dropped hq hs hsub (hshows.fills.advance Document.key ?_ s.nodup hhidden ?_ hfills)
  · exact List.pairwise_map.2 (v.documentSet.nodup.imp_of_mem fun ha hb hne hk => hne (DocumentSet.eq_of_key ha hb hk))
  · rintro ⟨m, hm⟩ d hd
    obtain ⟨hsize, -⟩ := hshows.fills.2 m (hhidden m hm)
    obtain ⟨hl, hfull⟩ := Query.windowSize_eq_some hsize
    have hget : v.documentSet.getDocument d.key = some d := DocumentSet.getDocument_eq_some.2 ⟨hd, rfl⟩
    have hself : q.ahead d d = .eq := Std.ReflCmp.compare_self
    cases hch : changes.get d.key with
    | none => exact ⟨d, (DocumentSet.getDocument_eq_some.1 ((hother _ hch).trans hget)).1, rfl, d, hd, by rw [hself]; rfl⟩
    | some m' =>
      have hrefill' : (p.change d.key (q.matching m')).2 = false := by
        simpa using hno (d.key, m') (Documents.get_eq_some.1 hch)
      obtain ⟨w, hw, v', hv', hle⟩ := p.documentAfter_isLE hq hlim hl (by rw [DocumentSet.size_eq, ← hfull]) hd
        (fun n hn => by rw [← (Query.matching_eq_some.1 hn).2, Documents.key_of_get hch]) hrefill'
      obtain ⟨hw, hk⟩ := DocumentSet.getDocument_eq_some.1 ((hchanged _ _ hch).trans hw)
      exact ⟨w, hw, hk, v', hv', hle⟩

theorem Documents.matching_executeQuery {docs : Documents} {m : Document} :
    (docs.executeQuery q).get m.key = some m ↔ docs.Matching q m := by
  rw [Documents.get_eq_some, Documents.Matching, Documents.get_eq_some, executeQuery, List.mem_filter]

/-- A view that shows nothing yet asks for nothing more. -/
theorem View.needsRefill_fresh (hlim : q.LimitInRange) {v : View q} {c : ViewDocumentChanges q} {changes : Documents}
    (hmut : ∀ key, v.mutatedKeys.contains key = (v.documentSet.getDocument key).any Document.hasLocalMutations)
    (hempty : ∀ key, v.documentSet.getDocument key = none) (hc : v.computeDocumentChanges changes none = some c) :
    c.needsRefill = false := by
  obtain ⟨-, c', hc', -, hrefill, -⟩ := v.computeDocumentChanges_pass hlim changes none rfl ⟨fun _ => rfl, hmut⟩
  obtain rfl : c = c' := by simpa [hc] using hc'
  rw [hrefill, List.any_eq_false]
  intro e _
  set p : Pass q := ⟨v.documentSet, v.mutatedKeys⟩
  obtain ⟨_, _, h⟩ | ⟨_, _, _, h⟩ | ⟨_, h, _⟩ | ⟨_, _, h, _⟩ | ⟨_, _, h, _⟩ | ⟨_, _, h, _⟩ | ⟨_, _, h, _⟩ :=
    p.change_cases e.1 (q.matching e.2)
  all_goals first | exact h ▸ Bool.false_ne_true | cases (hempty e.1).symm.trans h

theorem Shows.congr {docs docs' : Documents} (h : Shows s docs) (hdocs : ∀ m, docs.Matching q m ↔ docs'.Matching q m) : Shows s docs' :=
  ⟨⟨h.matched, fun d hd => (h.stands d hd).imp fun m hm => ⟨(hdocs m).1 hm.1, hm.2⟩⟩,
    h.fills.mono fun m hm => ⟨(hdocs m).2 hm.1, hm.2⟩⟩

/-- **A pass over all that the local store has.** It fills the view up, and
asks for no other pass. -/
theorem View.computeDocumentChanges_refill (hq : q.Plain) (hlim : q.LimitInRange) {v : View q} {docs : Documents}
    {previous : ViewDocumentChanges q} (h : previous.Coherent v.documentSet)
    (hprevious : Stands previous.documentSet docs) :
    ∃ c, v.computeDocumentChanges (docs.executeQuery q) (some previous) = some c ∧ c.Coherent v.documentSet ∧
      c.needsRefill = false ∧ Shows c.documentSet docs := by
  obtain ⟨s, c, hc, hcoh, hrefill, hchanged, hother, hsub, hfills⟩ :=
    v.computeDocumentChanges_pass hlim (docs.executeQuery q) (some previous) (show (some previous).getD _ = previous from rfl) h
  set p : Pass q := ⟨previous.documentSet, v.mutatedKeys⟩ with hp
  -- a document shown already is the one the local store has, or waits for it
  have hold {m o : Document} (hm : docs.Matching q m) (ho : p.oldDocumentSet.getDocument m.key = some o) : o.StandsFor m := by
    obtain ⟨ho, hk⟩ := DocumentSet.getDocument_eq_some.1 ho
    obtain ⟨m', hm', hst⟩ := hprevious.stands o ho
    rwa [← hm'.unique hm (hst.1.symm.trans hk)]
  have hafter {m : Document} (hm : docs.Matching q m) : ∃ d, s.getDocument m.key = some d ∧ d.StandsFor m := by
    rw [hchanged _ _ (Documents.matching_executeQuery.2 hm), Query.matching_eq_some.2 ⟨hm.2, rfl⟩]
    rcases p.documentAfter_some m with h | ⟨o, ho, h, -⟩
    · exact ⟨m, h, .refl m⟩
    · exact ⟨o, h, hold hm ho⟩
  have hstands : ∀ d ∈ s.toList, ∃ m, docs.Matching q m ∧ d.StandsFor m := by
    intro d hd
    have hget : s.getDocument d.key = some d := DocumentSet.getDocument_eq_some.2 ⟨hd, rfl⟩
    cases hch : (docs.executeQuery q).get d.key with
    | none =>
      rw [hother _ hch] at hget
      exact hprevious.stands d (DocumentSet.getDocument_eq_some.1 hget).1
    | some m =>
      have hk := Documents.key_of_get hch
      rw [← hk] at hch hget
      have hm := Documents.matching_executeQuery.1 hch
      obtain ⟨d', hd', hst⟩ := hafter hm
      obtain rfl : d = d' := Option.some.inj (hget.symm.trans hd')
      exact ⟨m, hm, hst⟩
  have hno : c.needsRefill = false := by
    rw [hrefill, List.any_eq_false]
    rintro ⟨key, m⟩ he
    have hm : docs.Matching q m := by
      obtain ⟨he, hmatch⟩ := List.mem_filter.1 he
      have hk : key = m.key := docs.keyed _ he
      exact ⟨Documents.get_eq_some.2 (hk ▸ he), hmatch⟩
    obtain rfl : key = m.key := (docs.executeQuery q).keyed _ he
    rw [Query.matching_eq_some.2 ⟨hm.2, rfl⟩]
    change ¬(p.change m.key (some m)).2 = true
    obtain ⟨_, hn, _⟩ | ⟨_, _, _, hch⟩ | ⟨_, _, hn, _⟩ | ⟨_, _, _, _, _, _, hch⟩ | ⟨_, _, _, _, _, hch⟩ | ⟨_, _, _, _, _, hch⟩ |
      ⟨o, n, ho, hn, _, hw, hch⟩ := p.change_cases m.key (some m)
    case inr.inr.inr.inr.inr.inr =>
      obtain rfl := Option.some.inj hn
      rcases (hold hm ho).2 with hwait | ⟨hsame, -⟩
      · rw [hw] at hwait
        cases hwait
      · rw [hch, p.outsideLimits_same hq (DocumentSet.getDocument_eq_some.1 ho).1 hsame]
        exact Bool.false_ne_true
    all_goals first | cases hn | exact hch ▸ Bool.false_ne_true
  have hs : Stands s docs := ⟨p.matched hprevious.matched hchanged hother, hstands⟩
  refine ⟨c, by rw [hc, hno]; rfl, hcoh, hno, Shows.of_dropped hq hs hsub ⟨hfills.1, fun u hu => hu.elim (fun hu => ?_) (hfills.2 u)⟩⟩
  obtain ⟨d, hd, -⟩ := hafter hu.1
  cases hd.symm.trans hu.2.1

end Client
