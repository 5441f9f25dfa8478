/-
What an application is told of a snapshot (`api/query_snapshot.cc`): its
documents, and its changes, each with the index its document had and the one it
has. The indices are meant for a list that is kept up to date by them: whoever
holds the old documents and makes these changes one after another, each where
it says, holds the new ones, whether changes of metadata alone are told or not.
-/
import Sdapk.Ranks
import Sdapk.SyncEngine

namespace Client

open Ranks

/-! ## Changes with their indices -/

inductive DocumentChange.Type where
  | added
  | modified
  | removed
  deriving DecidableEq

/-- A document, with `SnapshotMetadata`. -/
structure DocumentSnapshot where
  document : Document
  hasPendingWrites : Bool
  fromCache : Bool

/-- An index is none where the source has `npos`. -/
structure DocumentChange where
  type : DocumentChange.Type
  document : DocumentSnapshot
  oldIndex : Option Nat
  newIndex : Option Nat

/-- What stops a call: `ThrowInvalidArgument`, or an assertion. -/
inductive Failure where
  | invalidArgument (text : String)
  | assertion (text : String)
  deriving DecidableEq

def documentChangeTypeForChange : ChangeType → DocumentChange.Type
  | .added => .added
  | .modified => .modified
  | .metadata => .modified
  | .removed => .removed

variable {q : Query}

namespace ViewSnapshot

/-- `DocumentSnapshot::FromDocument`, with the snapshot's metadata. -/
def fromDocument (s : ViewSnapshot q) (document : Document) : DocumentSnapshot :=
  ⟨document, s.mutatedKeys.contains document.key, s.fromCache⟩

def forEachDocument (s : ViewSnapshot q) : List DocumentSnapshot := s.documents.toList.map s.fromDocument

/-- The changes where there were no documents before. -/
def firstChanges (s : ViewSnapshot q) : Option Document → Nat → List DocumentViewChange → Except Failure (List DocumentChange)
  | _, _, [] => .ok []
  | lastDocument, index, change :: changes =>
    if change.type ≠ .added then .error (.assertion "Invalid event type for first snapshot")
    else if lastDocument.any fun last => q.comparator last change.document ≠ .lt then
      .error (.assertion "Got added events in wrong order")
    else (s.firstChanges (some change.document) (index + 1) changes).map fun rest =>
      ⟨.added, s.fromDocument change.document, none, some index⟩ :: rest

/-- A change, with the indices of its document among those left by the changes before. -/
def indexChange (s : ViewSnapshot q) (indexTracker : DocumentSet q.documentComparator) (change : DocumentViewChange) :
    Except Failure (DocumentSet q.documentComparator × DocumentChange) := do
  let key := change.document.key
  let (oldIndex, indexTracker) ←
    if change.type ≠ .added then
      match indexTracker.indexOf key with
      | none => throw (.assertion "Index for document not found")
      | some oldIndex => pure (some oldIndex, indexTracker.erase key)
    else pure (none, indexTracker)
  let (newIndex, indexTracker) :=
    if change.type ≠ .removed then
      let indexTracker := indexTracker.insert (some change.document)
      (indexTracker.indexOf key, indexTracker)
    else (none, indexTracker)
  return (indexTracker, ⟨documentChangeTypeForChange change.type, s.fromDocument change.document, oldIndex, newIndex⟩)

def trackChanges (s : ViewSnapshot q) (includeMetadataChanges : Bool) :
    DocumentSet q.documentComparator → List DocumentViewChange → Except Failure (List DocumentChange)
  | _, [] => .ok []
  | indexTracker, change :: changes =>
    if !includeMetadataChanges && change.type = .metadata then s.trackChanges includeMetadataChanges indexTracker changes
    else (s.indexChange indexTracker change).bind fun (indexTracker, documentChange) =>
      (s.trackChanges includeMetadataChanges indexTracker changes).map (documentChange :: ·)

def forEachChange (s : ViewSnapshot q) (includeMetadataChanges : Bool) : Except Failure (List DocumentChange) :=
  if includeMetadataChanges && s.excludesMetadataChanges then
    .error (.invalidArgument ("To include metadata changes with your document changes, you must call " ++
      "addSnapshotListener(includeMetadataChanges:true)."))
  else if s.oldDocuments.size = 0 then s.firstChanges none 0 s.documentChanges
  else s.trackChanges includeMetadataChanges s.oldDocuments s.documentChanges

end ViewSnapshot

/-! ## A list kept up to date -/

/-- A change made to a list of documents: out at the old index, in at the new one. -/
def DocumentChange.replay (docs : List Document) (change : DocumentChange) : List Document :=
  let docs := change.oldIndex.elim docs docs.eraseIdx
  change.newIndex.elim docs fun i => docs.insertIdx i change.document.document

namespace DocumentSet

variable {c : DocumentComparator} {s : DocumentSet c}

theorem strict (s : DocumentSet c) : Strict c.compare s.toList := s.sorted

theorem indexOf_eq_rank {d : Document} (h : d ∈ s.toList) : s.indexOf d.key = some (rank c.compare s.toList d) := indexOf_eq h

theorem toList_erase {d : Document} (h : d ∈ s.toList) : (s.erase d.key).toList = s.toList.eraseIdx (rank c.compare s.toList d) := by
  refine eq_eraseIdx s.strict (s.erase d.key).strict h fun e => ?_
  rw [mem_erase]
  exact and_congr_right fun he => not_congr ⟨fun hk => eq_of_key he h hk, fun hk => hk ▸ rfl⟩

theorem toList_insert {d : Document} (h : s.getDocument d.key = none) :
    (s.insert (some d)).toList = s.toList.insertIdx (rank c.compare (s.insert (some d)).toList d) d := by
  rw [getDocument_eq_none] at h
  refine eq_insertIdx s.strict (s.insert (some d)).strict (fun hd => h d hd rfl) fun e => ?_
  rw [mem_insert]
  exact or_congr_right (and_iff_left_of_imp (h e))

end DocumentSet

/-- What a change makes of its document. -/
def DocumentViewChange.after (change : DocumentViewChange) : Option Document :=
  if change.type = .removed then none else some change.document

/-- A change of what is not there, or of what is there, as it must be. -/
def DocumentViewChange.Fits (change : DocumentViewChange) (indexTracker : DocumentSet q.documentComparator) : Prop :=
  change.type = .added ↔ indexTracker.getDocument change.document.key = none

namespace ViewSnapshot

variable (s : ViewSnapshot q)

theorem indexChange_spec {indexTracker : DocumentSet q.documentComparator} {change : DocumentViewChange}
    (h : change.Fits indexTracker) :
    ∃ indexTracker' documentChange, s.indexChange indexTracker change = .ok (indexTracker', documentChange) ∧
      documentChange.replay indexTracker.toList = indexTracker'.toList ∧
      ∀ key, indexTracker'.getDocument key = if key = change.document.key then change.after else indexTracker.getDocument key := by
  obtain ⟨d, type⟩ := change
  -- in: a document that is not there
  have hin {t : DocumentSet q.documentComparator} (hnone : t.getDocument d.key = none) :
      ∃ i, (t.insert (some d)).indexOf d.key = some i ∧ (t.insert (some d)).toList = t.toList.insertIdx i d :=
    ⟨_, DocumentSet.indexOf_eq_rank (DocumentSet.mem_insert.2 (.inl rfl)), DocumentSet.toList_insert hnone⟩
  by_cases hadded : type = .added
  · subst hadded
    obtain ⟨i, hi, hlist⟩ := hin (h.1 rfl)
    refine ⟨_, ⟨.added, s.fromDocument d, none, some i⟩, by simp [indexChange, hi, documentChangeTypeForChange]; rfl, hlist.symm,
      fun key => DocumentSet.getDocument_insert⟩
  · -- out: the document that is there
    obtain ⟨o, ho⟩ := Option.ne_none_iff_exists'.1 fun hnone => hadded (h.2 hnone)
    obtain ⟨hmem, hkey⟩ := DocumentSet.getDocument_eq_some.1 ho
    have hindex : indexTracker.indexOf d.key = some (rank q.comparator indexTracker.toList o) :=
      hkey ▸ DocumentSet.indexOf_eq_rank hmem
    have hout : (indexTracker.erase d.key).toList = indexTracker.toList.eraseIdx (rank q.comparator indexTracker.toList o) :=
      hkey ▸ DocumentSet.toList_erase hmem
    by_cases hremoved : type = .removed
    · subst hremoved
      exact ⟨_, ⟨.removed, s.fromDocument d, some _, none⟩, by simp [indexChange, hindex, documentChangeTypeForChange]; rfl, hout.symm,
        fun key => DocumentSet.getDocument_erase⟩
    · obtain ⟨i, hi, hlist⟩ := hin (show (indexTracker.erase d.key).getDocument d.key = none by
        rw [DocumentSet.getDocument_erase, if_pos rfl])
      refine ⟨_, ⟨documentChangeTypeForChange type, s.fromDocument d, some _, some i⟩, by
        simp [indexChange, hindex, hadded, hremoved, hi]; rfl, ?_, fun key => ?_⟩
      · rw [hlist, hout]
        rfl
      · rw [DocumentSet.getDocument_insert, DocumentSet.getDocument_erase, DocumentViewChange.after, if_neg hremoved]
        split <;> rfl

/-- Whether the application is told of a change. -/
def told (includeMetadataChanges : Bool) (change : DocumentViewChange) : Bool := includeMetadataChanges || change.type ≠ .metadata

theorem trackChanges_told (includeMetadataChanges : Bool) (indexTracker : DocumentSet q.documentComparator)
    (changes : List DocumentViewChange) :
    s.trackChanges includeMetadataChanges indexTracker changes =
      s.trackChanges true indexTracker (changes.filter (told includeMetadataChanges)) := by
  induction changes generalizing indexTracker with
  | nil => rfl
  | cons change changes ih =>
    by_cases h : told includeMetadataChanges change = true
    · have hskip : (!includeMetadataChanges && decide (change.type = .metadata)) = false := by
        unfold told at h
        cases includeMetadataChanges <;> simp_all
      rw [List.filter_cons_of_pos h, trackChanges, trackChanges, hskip]
      simp only [ih]
      rfl
    · have hskip : (!includeMetadataChanges && decide (change.type = .metadata)) = true := by
        unfold told at h
        cases includeMetadataChanges <;> simp_all
      rw [List.filter_cons_of_neg h, trackChanges, if_pos hskip, ih]

/-- The changes of a snapshot made one after another, and the indices of each. -/
theorem trackChanges_spec {indexTracker : DocumentSet q.documentComparator} {changes : List DocumentViewChange}
    (hdistinct : (changes.map fun c => c.document.key).Nodup) (hfits : ∀ change ∈ changes, change.Fits indexTracker) :
    ∃ documentChanges, ∃ indexTracker' : DocumentSet q.documentComparator, s.trackChanges true indexTracker changes = .ok documentChanges ∧
      documentChanges.foldl DocumentChange.replay indexTracker.toList = indexTracker'.toList ∧
      ∀ key, indexTracker'.getDocument key =
        (changes.find? fun c => c.document.key = key).elim (indexTracker.getDocument key) DocumentViewChange.after := by
  induction changes generalizing indexTracker with
  | nil => exact ⟨[], indexTracker, rfl, rfl, fun _ => rfl⟩
  | cons change changes ih =>
    obtain ⟨hnew, hdistinct⟩ := List.nodup_cons.1 hdistinct
    obtain ⟨t, documentChange, hindex, hreplay, hget⟩ := s.indexChange_spec (hfits change List.mem_cons_self)
    have hne : ∀ c ∈ changes, c.document.key ≠ change.document.key := fun c hc hk => hnew (List.mem_map.2 ⟨c, hc, hk⟩)
    obtain ⟨documentChanges, t', htrack, hreplay', hget'⟩ := ih hdistinct fun c hc => by
      unfold DocumentViewChange.Fits
      rw [hget, if_neg (hne c hc)]
      exact hfits c (List.mem_cons_of_mem _ hc)
    refine ⟨documentChange :: documentChanges, t', ?_, by rw [List.foldl_cons, hreplay, hreplay'], fun key => ?_⟩
    · rw [trackChanges, if_neg (by simp), hindex]
      simp only [Except.bind, htrack]
      rfl
    · rw [hget', hget]
      by_cases hk : change.document.key = key
      · subst hk
        have hnone : (changes.find? fun c => c.document.key = change.document.key) = none := by simpa using hne
        rw [List.find?_cons_of_pos (by simp), hnone, if_pos rfl]
        rfl
      · rw [List.find?_cons_of_neg (by simpa using hk), if_neg (Ne.symm hk)]

/-- Where there were no documents every change is put at the end. -/
theorem firstChanges_spec {changes : List DocumentViewChange} (hadded : ∀ change ∈ changes, change.type = .added)
    (hsorted : changes.Pairwise fun a b => q.comparator a.document b.document = .lt) {lastDocument : Option Document}
    (hlast : ∀ last ∈ lastDocument, ∀ change ∈ changes, q.comparator last change.document = .lt) (index : Nat) :
    ∃ documentChanges, s.firstChanges lastDocument index changes = .ok documentChanges ∧
      ∀ docs : List Document, docs.length = index →
        documentChanges.foldl DocumentChange.replay docs = docs ++ changes.map fun c => c.document := by
  induction changes generalizing lastDocument index with
  | nil => exact ⟨[], rfl, fun docs _ => by simp⟩
  | cons change changes ih =>
    obtain ⟨hlt, hsorted⟩ := List.pairwise_cons.1 hsorted
    have hlast' : ∀ last ∈ some change.document, ∀ c ∈ changes, q.comparator last c.document = .lt := by simpa using hlt
    obtain ⟨documentChanges, hfirst, hreplay⟩ := ih (fun c hc => hadded c (List.mem_cons_of_mem _ hc)) hsorted hlast' (index + 1)
    refine ⟨⟨.added, s.fromDocument change.document, none, some index⟩ :: documentChanges, ?_, fun docs hdocs => ?_⟩
    · have hafter : ¬(lastDocument.any fun last => q.comparator last change.document ≠ .lt) = true := by
        cases lastDocument with
        | none => simp
        | some last => simp [hlast last rfl change List.mem_cons_self]
      rw [firstChanges, if_neg (by simp [hadded change List.mem_cons_self]), if_neg hafter, hfirst]
      rfl
    · subst hdocs
      have hput : DocumentChange.replay docs ⟨.added, s.fromDocument change.document, none, some docs.length⟩ =
          docs ++ [change.document] := List.insertIdx_length_self
      rw [List.foldl_cons, hput, hreplay _ (by simp)]
      simp

end ViewSnapshot

/-! ## What the changes of a snapshot come to -/

/-- Changes that, made to some documents, give others, each document in the
place of one that it is related to. -/
structure Updates (R : Document → Document → Prop) (changes : List DocumentViewChange) (old new : DocumentSet q.documentComparator) :
    Prop where
  distinct : (changes.map fun c => c.document.key).Nodup
  fits : ∀ change ∈ changes, change.Fits old
  after : ∀ key, Option.Rel R ((changes.find? fun c => c.document.key = key).elim (old.getDocument key) DocumentViewChange.after)
    (new.getDocument key)

/-- What an application has for a document: a document equal to it, or one of
the same value where it is not told of metadata. -/
def StandsIn (includeMetadataChanges : Bool) (d n : Document) : Prop := if includeMetadataChanges then d.Like n else d.Same n

theorem StandsIn.of_like {includeMetadataChanges : Bool} {d n : Document} (h : d.Like n) : StandsIn includeMetadataChanges d n := by
  cases includeMetadataChanges with
  | true => exact h
  | false => exact h.same.symm

theorem StandsIn.same {includeMetadataChanges : Bool} {d n : Document} (h : StandsIn includeMetadataChanges d n) : d.Same n := by
  cases includeMetadataChanges with
  | true => exact Document.Like.same h |>.symm
  | false => exact h

theorem StandsIn.refl (includeMetadataChanges : Bool) (d : Document) : StandsIn includeMetadataChanges d d := .of_like (.inl rfl)

theorem StandsIn.trans {includeMetadataChanges : Bool} {a b c : Document} (h : StandsIn includeMetadataChanges a b)
    (h' : StandsIn includeMetadataChanges b c) : StandsIn includeMetadataChanges a c := by
  cases includeMetadataChanges with
  | true => exact Document.Like.trans h h'
  | false => exact Document.Same.trans h h'

/-- What is left of a snapshot's changes without those of metadata still updates the documents. -/
theorem Tells.updates {changes : List DocumentViewChange} {old new : DocumentSet q.documentComparator} (h : Tells changes old new)
    (includeMetadataChanges : Bool) :
    Updates (StandsIn includeMetadataChanges) (changes.filter (ViewSnapshot.told includeMetadataChanges)) old new := by
  have hdistinct : ((changes.filter (ViewSnapshot.told includeMetadataChanges)).map fun c => c.document.key).Nodup :=
    h.distinct.sublist (List.filter_sublist.map _)
  refine ⟨hdistinct, fun change hc => ?_, fun key => ?_⟩
  · have hdiff := h.difference change.document.key
    rw [(find?_key h.distinct).2 ⟨List.mem_of_mem_filter hc, rfl⟩] at hdiff
    obtain ⟨d, type⟩ := change
    unfold DocumentViewChange.Fits
    cases type with
    | added => exact iff_of_true rfl hdiff.1
    | removed =>
      obtain ⟨⟨o, ho⟩, -⟩ := hdiff
      simp [ho]
    | modified =>
      obtain ⟨⟨o, ho⟩, -⟩ := hdiff
      simp [ho]
    | metadata =>
      obtain ⟨o, n, ho, -⟩ := hdiff
      simp [ho]
  · have hfind : ((changes.filter (ViewSnapshot.told includeMetadataChanges)).find? fun c => c.document.key = key) =
        (changes.find? fun c => c.document.key = key).filter (ViewSnapshot.told includeMetadataChanges) := Option.ext fun c => by
      rw [find?_key hdistinct, List.mem_filter, Option.filter_eq_some_iff, find?_key h.distinct]
      tauto
    have hdiff := h.difference key
    rw [hfind]
    cases hc : changes.find? fun c => c.document.key = key with
    | none =>
      rw [hc] at hdiff
      obtain hdiff : new.getDocument key = old.getDocument key := hdiff
      rw [Option.filter_none, Option.elim_none, hdiff]
      cases old.getDocument key with
      | none => exact .none
      | some o => exact .some (.refl _ o)
    | some change =>
      rw [hc] at hdiff
      obtain ⟨d, type⟩ := change
      cases type with
      | added =>
        obtain ⟨-, n, hn, hl⟩ := hdiff
        rw [Option.filter_some_pos (by simp [ViewSnapshot.told]), hn]
        exact .some (.of_like hl)
      | removed =>
        rw [Option.filter_some_pos (by simp [ViewSnapshot.told]), hdiff.2]
        exact .none
      | modified =>
        obtain ⟨-, n, hn, hl⟩ := hdiff
        rw [Option.filter_some_pos (by simp [ViewSnapshot.told]), hn]
        exact .some (.of_like hl)
      | metadata =>
        obtain ⟨o, n, ho, hn, hsame, hl⟩ := hdiff
        rw [ho, hn]
        cases includeMetadataChanges with
        | true => exact .some (.of_like hl)
        | false => exact .some hsame

/-- Documents that are what the changes make of the old ones stand in for the new ones. -/
theorem Updates.forall₂ {R : Document → Document → Prop} (hR : ∀ {a b}, R a b → q.comparator a b = .eq)
    {changes : List DocumentViewChange} {old new : DocumentSet q.documentComparator} (h : Updates R changes old new)
    {docs : List Document} (hstrict : Strict q.comparator docs)
    (hdocs : ∀ d, d ∈ docs ↔ (changes.find? fun c => c.document.key = d.key).elim (old.getDocument d.key) DocumentViewChange.after = some d) :
    List.Forall₂ R docs new.toList := by
  refine hstrict.forall₂ (fun a b => hR) new.strict (fun d hd => ?_) fun n hn => ?_
  · have hafter := h.after d.key
    rw [(hdocs d).1 hd] at hafter
    cases hn : new.getDocument d.key with
    | none =>
      rw [hn] at hafter
      cases hafter
    | some n =>
      rw [hn] at hafter
      exact ⟨n, (DocumentSet.getDocument_eq_some.1 hn).1, Option.rel_some_some.1 hafter⟩
  · have hafter := h.after n.key
    rw [DocumentSet.getDocument_eq_some.2 ⟨hn, rfl⟩] at hafter
    cases hd : (changes.find? fun c => c.document.key = n.key).elim (old.getDocument n.key) DocumentViewChange.after with
    | none =>
      rw [hd] at hafter
      cases hafter
    | some d =>
      rw [hd] at hafter
      have hdn : R d n := Option.rel_some_some.1 hafter
      rw [← key_of_comparator_eq (hR hdn)] at hd
      exact ⟨d, (hdocs d).2 hd, hdn⟩

/-! ## Snapshots kept up with -/

namespace ViewSnapshot

/-- A snapshot that tells, in order, how its documents differ from the old
ones, of changes of metadata too unless it says it does not. -/
def Sound (s : ViewSnapshot q) : Prop :=
  ∃ changes, Tells changes s.oldDocuments s.documents ∧ (changes.Pairwise fun a b => View.changeBefore q a b) ∧
    s.documentChanges = if s.excludesMetadataChanges then changes.filter (told false) else changes

/-- Whoever holds the old documents and makes the changes told of, holds the new ones. -/
theorem Sound.forEachChange (hq : q.Plain) {s : ViewSnapshot q} (h : s.Sound) {includeMetadataChanges : Bool}
    (hinclude : includeMetadataChanges = true → s.excludesMetadataChanges = false) :
    ∃ documentChanges, s.forEachChange includeMetadataChanges = .ok documentChanges ∧
      List.Forall₂ (StandsIn includeMetadataChanges) (documentChanges.foldl DocumentChange.replay s.oldDocuments.toList)
        s.documents.toList := by
  obtain ⟨changes, htells, hsorted, hchanges⟩ := h
  have hR {a b : Document} (hab : StandsIn includeMetadataChanges a b) : q.comparator a b = .eq := hab.same.comparator hq
  have htold : s.documentChanges.filter (told includeMetadataChanges) = changes.filter (told includeMetadataChanges) := by
    rw [hchanges]
    split
    · next he =>
      have hno : includeMetadataChanges = false := by
        cases includeMetadataChanges with
        | true => simp [hinclude rfl] at he
        | false => rfl
      rw [hno, List.filter_filter]
      simp
    · rfl
  have hupdates := htells.updates includeMetadataChanges
  unfold ViewSnapshot.forEachChange
  rw [if_neg (by cases includeMetadataChanges <;> simp_all)]
  split
  · next hempty =>
    have hold : s.oldDocuments.toList = [] := by rwa [DocumentSet.size_eq, List.length_eq_zero_iff] at hempty
    have hnone (key : DocumentKey) : s.oldDocuments.getDocument key = none :=
      DocumentSet.getDocument_eq_none.2 fun d hd => by simp [hold] at hd
    -- with nothing before, all that can be told is what came
    have hadded : ∀ change ∈ changes, change.type = .added := by
      intro change hc
      have hdiff := htells.difference change.document.key
      rw [(find?_key htells.distinct).2 ⟨hc, rfl⟩, hnone] at hdiff
      obtain ⟨d, type⟩ := change
      cases type with
      | added => rfl
      | removed => simp [Difference] at hdiff
      | modified => simp [Difference] at hdiff
      | metadata => simp [Difference] at hdiff
    have hall (b : Bool) : changes.filter (told b) = changes :=
      List.filter_eq_self.2 fun change hc => by simp [told, hadded change hc]
    have hchanges : s.documentChanges = changes := by rw [hchanges, hall, ite_self]
    rw [hchanges]
    have hstrict : changes.Pairwise fun a b => q.comparator a.document b.document = .lt :=
      hsorted.imp_of_mem fun {a b} ha hb hab => by
        rw [View.changeBefore, hadded a ha, hadded b hb] at hab
        simpa using hab
    have hlast : ∀ last ∈ (none : Option Document), ∀ change ∈ changes, q.comparator last change.document = .lt := by simp
    obtain ⟨documentChanges, hfirst, hreplay⟩ := s.firstChanges_spec hadded hstrict hlast 0
    refine ⟨documentChanges, hfirst, ?_⟩
    rw [hreplay _ (by rw [hold]; rfl), hold, List.nil_append]
    rw [hall] at hupdates
    refine hupdates.forall₂ hR (List.pairwise_map.2 hstrict) fun d => ?_
    rw [List.mem_map]
    constructor
    · rintro ⟨change, hc, rfl⟩
      rw [(find?_key htells.distinct).2 ⟨hc, rfl⟩, Option.elim_some, DocumentViewChange.after, hadded change hc]
      simp
    · intro hd
      cases hf : changes.find? fun c => c.document.key = d.key with
      | none =>
        rw [hf, Option.elim_none, hnone] at hd
        cases hd
      | some change =>
        obtain ⟨hc, -⟩ := (find?_key htells.distinct).1 hf
        rw [hf, Option.elim_some, DocumentViewChange.after, hadded change hc] at hd
        exact ⟨change, hc, by simpa using hd⟩
  · rw [trackChanges_told, htold]
    obtain ⟨documentChanges, t, htrack, hreplay, hget⟩ := s.trackChanges_spec hupdates.distinct hupdates.fits
    refine ⟨documentChanges, htrack, ?_⟩
    rw [hreplay]
    refine hupdates.forall₂ hR t.strict fun d => ?_
    rw [← hget, DocumentSet.getDocument_eq_some, and_iff_left rfl]

end ViewSnapshot

theorem DocumentChange.forall₂_replay {R : Document → Document → Prop} (hR : ∀ d, R d d) {docs docs' : List Document}
    (h : List.Forall₂ R docs docs') (documentChanges : List DocumentChange) :
    List.Forall₂ R (documentChanges.foldl replay docs) (documentChanges.foldl replay docs') := by
  induction documentChanges generalizing docs docs' with
  | nil => exact h
  | cons change documentChanges ih =>
    refine ih ?_
    obtain ⟨type, document, oldIndex, newIndex⟩ := change
    have hout : List.Forall₂ R (oldIndex.elim docs docs.eraseIdx) (oldIndex.elim docs' docs'.eraseIdx) := by
      cases oldIndex with
      | none => exact h
      | some i => exact forall₂_eraseIdx h i
    cases newIndex with
    | none => exact hout
    | some i => exact forall₂_insertIdx hout (hR _) i

end Client
