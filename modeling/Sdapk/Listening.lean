/-
What a query that is listened to shows over a whole run: whatever batches of
changed documents and changes of the connection come, in whatever order, the
view shows what the local store has, its snapshots tell exactly how the
documents change from one to the next, and no assertion of the source fails
but the one on what the server reports.
-/
import Sdapk.QueryResult
import Sdapk.SyncEngine

namespace Client

open Immutable

variable {q : Query}

/-! ## The order of a snapshot's changes -/

/-- The order of the changes, as a comparison. -/
def compareChanges (q : Query) : DocumentViewChange → DocumentViewChange → Ordering :=
  compareLex (compareOn fun c => c.type.position) fun lhs rhs => q.comparator lhs.document rhs.document

instance : Std.TransCmp (compareChanges q) :=
  have : Std.TransCmp fun lhs rhs : DocumentViewChange => q.comparator lhs.document rhs.document :=
    { eq_swap := q.comparator_swap _ _
      isLE_trans := Std.TransCmp.isLE_trans }
  inferInstanceAs (Std.TransCmp (compareLex _ _))

theorem changeBefore_eq (lhs rhs : DocumentViewChange) : View.changeBefore q lhs rhs = (compareChanges q lhs rhs == .lt) := by
  unfold View.changeBefore compareChanges compareLex compareOn
  rcases Nat.lt_trichotomy lhs.type.position rhs.type.position with h | h | h
  · rw [if_pos (by omega), Nat.compare_eq_lt.2 h]
    simp [h]
  · rw [if_neg (by omega), Nat.compare_eq_eq.2 h]
    change decide (q.comparator lhs.document rhs.document = .lt) = (q.comparator lhs.document rhs.document == .lt)
    cases q.comparator lhs.document rhs.document <;> rfl
  · rw [if_pos (by omega), Nat.compare_eq_gt.2 h]
    simp; omega

/-- The changes of a snapshot stand in that order, no two in the same place. -/
theorem sorted_changes {changes : List DocumentViewChange} (h : (changes.map fun c => c.document.key).Nodup) :
    (changes.mergeSort fun lhs rhs => !View.changeBefore q rhs lhs).Pairwise fun a b => View.changeBefore q a b := by
  have hswap (a b : DocumentViewChange) : compareChanges q b a = (compareChanges q a b).swap := Std.OrientedCmp.eq_swap
  have hle (a b : DocumentViewChange) : (!View.changeBefore q b a) = (compareChanges q a b).isLE := by
    rw [changeBefore_eq, hswap]
    cases compareChanges q a b <;> rfl
  simp only [hle]
  have hsorted : (changes.mergeSort fun a b => (compareChanges q a b).isLE).Pairwise fun a b => (compareChanges q a b).isLE :=
    List.pairwise_mergeSort (fun _ _ _ => Std.TransCmp.isLE_trans) (fun a b => by
      rw [hswap a b]
      cases compareChanges q a b <;> rfl) changes
  have hdistinct := ((List.mergeSort_perm changes fun a b => (compareChanges q a b).isLE).map fun c => c.document.key).nodup_iff.2 h
  refine (hsorted.and (List.pairwise_map.1 hdistinct)).imp fun {a b} hab => ?_
  obtain ⟨hab, hne⟩ := hab
  rw [changeBefore_eq]
  cases hc : compareChanges q a b with
  | lt => rfl
  | gt => simp [hc] at hab
  | eq =>
    -- in the same place there is one document
    have heq : q.comparator a.document b.document = .eq := by
      unfold compareChanges compareLex at hc
      rw [Ordering.then_eq_eq] at hc
      exact hc.2
    exact absurd (key_of_comparator_eq heq) hne

/-! ## Snapshots -/

/-- A snapshot tells how the view got from one state to another. -/
structure Snapshots (v v' : View q) (snapshot : ViewSnapshot q) : Prop where
  documents : snapshot.documents = v'.documentSet
  oldDocuments : snapshot.oldDocuments = v.documentSet
  tells : Tells snapshot.documentChanges v.documentSet v'.documentSet
  sorted : snapshot.documentChanges.Pairwise fun a b => View.changeBefore q a b
  mutatedKeys : snapshot.mutatedKeys = v'.mutatedKeys
  fromCache : snapshot.fromCache = decide (v'.syncState = .localOnly)
  syncStateChanged : snapshot.syncStateChanged = decide (v'.syncState ≠ v.syncState)
  excludesMetadataChanges : snapshot.excludesMetadataChanges = false

/-- What a step says of the view: a snapshot, unless neither a document nor the
sync state has changed, and the changes of the limbo documents. -/
structure Explains (v v' : View q) (viewChange : ViewChange q) : Prop where
  none : viewChange.snapshot = none → v'.documentSet.toList = v.documentSet.toList ∧ v'.syncState = v.syncState
  some : ∀ snapshot, viewChange.snapshot = some snapshot → Snapshots v v' snapshot ∧
    (snapshot.documentChanges ≠ [] ∨ snapshot.syncStateChanged = true)
  added : ∀ key, .added key ∈ viewChange.limboChanges ↔ v'.limboDocuments.contains key ∧ ¬v.limboDocuments.contains key
  removed : ∀ key, .removed key ∈ viewChange.limboChanges ↔ v.limboDocuments.contains key ∧ ¬v'.limboDocuments.contains key

/-- The fields of a view that follow from the others. -/
structure View.Settled (v : View q) : Prop where
  mutated : ∀ key, v.mutatedKeys.contains key = (v.documentSet.getDocument key).any Document.hasLocalMutations
  limbo : v.current = true → ∀ key, v.limboDocuments.contains key = v.shouldBeInLimbo key
  syncState : v.syncState = if v.limboDocuments.size = 0 && v.current then .synced else .localOnly

theorem Tells.toList_eq {old new : DocumentSet q.documentComparator} (h : Tells [] old new) : new.toList = old.toList :=
  DocumentSet.toList_eq_of_getDocument h.difference

/-- A snapshot left out tells of nothing. -/
theorem Snapshots.explains {v v' : View q} {snapshot : ViewSnapshot q} {limboChanges : List LimboDocumentChange} (h : Snapshots v v' snapshot)
    (hadded : ∀ key, .added key ∈ limboChanges ↔ v'.limboDocuments.contains key ∧ ¬v.limboDocuments.contains key)
    (hremoved : ∀ key, .removed key ∈ limboChanges ↔ v.limboDocuments.contains key ∧ ¬v'.limboDocuments.contains key) :
    Explains v v' ⟨if snapshot.documentChanges.isEmpty && !snapshot.syncStateChanged then none else some snapshot, limboChanges⟩ := by
  refine ⟨fun hnone => ?_, fun sn hsome => ?_, hadded, hremoved⟩
  · dsimp only at hnone
    split at hnone
    · next hempty =>
      simp only [Bool.and_eq_true, List.isEmpty_iff, Bool.not_eq_true', h.syncStateChanged, decide_eq_false_iff_not, not_not] at hempty
      have htells := h.tells
      rw [hempty.1] at htells
      exact ⟨htells.toList_eq, hempty.2⟩
    · cases hnone
  · dsimp only at hsome
    split at hsome
    · cases hsome
    · next hchanged =>
      obtain rfl := Option.some.inj hsome
      refine ⟨h, ?_⟩
      by_contra hcontra
      rw [not_or, not_not, Bool.not_eq_true] at hcontra
      exact hchanged (by rw [hcontra.1, hcontra.2]; rfl)

theorem View.settle_spec {v : View q} {c : ViewDocumentChanges q} (h : c.Coherent v.documentSet) (applied : View q)
    (hdocs : applied.documentSet = c.documentSet) (hkeys : applied.mutatedKeys = c.mutatedKeys)
    (hlimbo : applied.limboDocuments = v.limboDocuments) (targetChange : Option TargetChange) :
    let r := v.settle c targetChange applied
    r.1.documentSet = c.documentSet ∧ r.1.syncedDocuments = applied.syncedDocuments ∧ r.1.current = applied.current ∧
      (applied.current = false → r.2.limboChanges = []) ∧ r.1.Settled ∧ Explains v r.1 r.2 := by
  obtain ⟨limboDocuments, limboChanges, hupdate, hin, hstale, hadded, hremoved⟩ := applied.updateLimboDocuments_eq
  have htells : Tells (c.changeSet.getChanges.mergeSort fun lhs rhs => !changeBefore q rhs lhs) v.documentSet applied.documentSet := by
    rw [hdocs]
    exact DocumentViewChangeSet.tells (List.mergeSort_perm ..) h.difference
  have hsorted : (c.changeSet.getChanges.mergeSort fun lhs rhs => !changeBefore q rhs lhs).Pairwise fun a b => changeBefore q a b :=
    sorted_changes (DocumentViewChangeSet.tells (.refl c.changeSet.getChanges) h.difference).distinct
  rw [hlimbo] at hadded hremoved
  dsimp only [View.settle]
  rw [hupdate]
  refine ⟨hdocs, rfl, rfl, hstale, ⟨fun key => ?_, hin, rfl⟩,
    Snapshots.explains ⟨hdocs.symm, rfl, htells, hsorted, hkeys.symm, rfl, rfl, rfl⟩ hadded hremoved⟩
  change applied.mutatedKeys.contains key = _
  rw [hdocs, hkeys]
  exact h.mutated key

/-- Changes that need no refill are applied, if the server has reported what it says was modified. -/
theorem View.applyChanges_eq {v : View q} {c : ViewDocumentChanges q} (hno : c.needsRefill = false) (h : c.Coherent v.documentSet)
    (targetChange : Option TargetChange) :
    if Reported v.syncedDocuments.contains targetChange then
      ∃ v' viewChange, v.applyChanges c targetChange = some (v', viewChange) ∧ v'.documentSet = c.documentSet ∧
        (∀ key, v'.syncedDocuments.contains key = syncedAfter v.syncedDocuments.contains targetChange key) ∧
        v'.current = currentAfter v.current targetChange ∧ (v'.current = false → viewChange.limboChanges = []) ∧
        v'.Settled ∧ Explains v v' viewChange
    else v.applyChanges c targetChange = none := by
  let updated : View q := { v with documentSet := c.documentSet, mutatedKeys := c.mutatedKeys }
  have happlied := updated.applyTargetChange_eq targetChange
  have heq : v.applyChanges c targetChange = (updated.applyTargetChange targetChange).map (v.settle c targetChange) := by
    rw [applyChanges, if_neg (by simp [hno])]
  rw [heq]
  change if Reported v.syncedDocuments.contains targetChange = true then _ else _ at happlied
  split
  · next hreported =>
    rw [if_pos hreported] at happlied
    obtain ⟨syncedDocuments, hsome, hsynced⟩ := happlied
    let applied : View q := { updated with syncedDocuments, current := currentAfter v.current targetChange }
    obtain ⟨hdocs, hkeys, hcur, hstale, hsettled, hexplains⟩ := View.settle_spec h applied rfl rfl rfl targetChange
    exact ⟨(v.settle c targetChange applied).1, (v.settle c targetChange applied).2, by rw [hsome]; rfl, hdocs,
      fun key => by rw [hkeys]; exact hsynced key, hcur, fun hc => hstale (hcur.symm.trans hc), hsettled, hexplains⟩
  · next hreported =>
    rw [if_neg hreported] at happlied
    rw [happlied]
    rfl

/-! ## Steps -/

/-- What holds of a query's view between steps. -/
structure QueryView.Inv (s : QueryView q) : Prop where
  shows : Shows s.view.documentSet s.docs
  settled : s.view.Settled

/-- What the server reports in a step. -/
def Event.targetChange : Event → Option TargetChange
  | .changed _ targetChange => targetChange
  | .online _ => none

/-- Whether the view is current after a step. -/
def Event.current (current : Bool) : Event → Bool
  | .changed _ targetChange => currentAfter current targetChange
  | .online onlineState => current && onlineState ≠ .offline

/-- The local store's documents after a step. -/
def Event.docs (docs : Documents) : Event → Documents
  | .changed changes _ => docs.applied changes
  | .online _ => docs

/-- The passes a batch of changes needs, one or two, never stop, and show what
the local store has then. -/
theorem QueryView.viewDocChanges_spec (hq : q.Plain) (hlim : q.LimitInRange) {s : QueryView q} (h : s.Inv) (changes : Documents) :
    ∃ c, s.viewDocChanges changes = some c ∧ c.needsRefill = false ∧ c.Coherent s.view.documentSet ∧
      Shows c.documentSet (s.docs.applied changes) := by
  obtain ⟨c, hc, hcoh, hstands, hshows⟩ := View.computeDocumentChanges_changed hq hlim h.settled.mutated h.shows changes
  unfold viewDocChanges
  rw [hc, Option.bind_some]
  cases hrefill : c.needsRefill with
  | false => exact ⟨c, by simp, hrefill, hcoh, hshows hrefill⟩
  | true =>
    obtain ⟨c', hc', hcoh', hno, hshows'⟩ := View.computeDocumentChanges_refill hq hlim hcoh hstands
    exact ⟨c', by simpa using hc', hno, hcoh', hshows'⟩

/-- **One step.** It stops where the server reports as modified what it has not
reported as added, and nowhere else. -/
theorem QueryView.step_spec (hq : q.Plain) (hlim : q.LimitInRange) {s : QueryView q} (h : s.Inv) (e : Event) :
    if Reported s.view.syncedDocuments.contains e.targetChange then
      ∃ s' viewChange, s.step e = some (s', viewChange) ∧ s'.Inv ∧ s'.docs = e.docs s.docs ∧
        (∀ key, s'.view.syncedDocuments.contains key = syncedAfter s.view.syncedDocuments.contains e.targetChange key) ∧
        s'.view.current = e.current s.view.current ∧ Explains s.view s'.view viewChange
    else s.step e = none := by
  cases e with
  | changed changes targetChange =>
    obtain ⟨c, hc, hno, hcoh, hshows⟩ := s.viewDocChanges_spec hq hlim h changes
    have happly := View.applyChanges_eq hno hcoh targetChange
    have hstep : s.step (.changed changes targetChange) =
        (s.view.applyChanges c targetChange).map fun r => (⟨r.1, s.docs.applied changes⟩, r.2) := by
      simp only [step, emitNewSnapshots, hc, Option.bind_eq_bind, Option.bind_some]
      cases s.view.applyChanges c targetChange <;> rfl
    rw [hstep]
    change if Reported s.view.syncedDocuments.contains targetChange = true then _ else _
    split at happly
    · next hreported =>
      obtain ⟨v', viewChange, hv', hdocs, hsynced, hcur, -, hsettled, hexplains⟩ := happly
      rw [if_pos hreported]
      exact ⟨⟨v', s.docs.applied changes⟩, viewChange, by rw [hv']; rfl, ⟨hdocs ▸ hshows, hsettled⟩, rfl, hsynced, hcur, hexplains⟩
    · next hreported =>
      rw [if_neg hreported, happly]
      rfl
  | online onlineState =>
    change if Reported s.view.syncedDocuments.contains none = true then _ else _
    rw [if_pos (show Reported _ none = true from rfl)]
    by_cases hoff : s.view.current ∧ onlineState = .offline
    · let v : View q := { s.view with current := false }
      have happly := View.applyChanges_eq (v := v) (c := ⟨s.view.documentSet, .empty, s.view.mutatedKeys, false⟩) rfl
        ⟨fun _ => rfl, h.settled.mutated⟩ none
      rw [if_pos (show Reported _ none = true from rfl)] at happly
      obtain ⟨v', viewChange, hv', hdocs, hsynced, hcur, hstale, hsettled, hnone, hsome, hadded, hremoved⟩ := happly
      have hcur : v'.current = false := hcur
      have hempty : viewChange.limboChanges = [] := hstale hcur
      refine ⟨⟨v', s.docs⟩, viewChange, ?_, ⟨hdocs ▸ h.shows, hsettled⟩, rfl, hsynced, by simp [hcur, Event.current, hoff.2],
        hnone, fun snapshot hs => ?_, hadded, hremoved⟩
      · simp only [step, handleOnlineStateChange, View.applyOnlineStateChange, if_pos hoff]
        change (v.applyChanges _ none).bind _ = _
        rw [hv', Option.bind_some, if_pos (by rw [hempty]; rfl)]
      · obtain ⟨hsn, hchanged⟩ := hsome snapshot hs
        exact ⟨⟨hsn.documents, hsn.oldDocuments, hsn.tells, hsn.sorted, hsn.mutatedKeys, hsn.fromCache, hsn.syncStateChanged,
          hsn.excludesMetadataChanges⟩, hchanged⟩
    · have hcur : s.view.current = (s.view.current && decide (onlineState ≠ .offline)) := by
        cases hc : s.view.current with
        | false => rfl
        | true => simpa [hc] using hoff
      refine ⟨s, ⟨none, []⟩, ?_, h, rfl, fun _ => rfl, hcur, fun _ => ⟨rfl, rfl⟩, by simp, by simp, by simp⟩
      simp only [step, handleOnlineStateChange, View.applyOnlineStateChange, if_neg hoff]
      rfl

/-! ## Runs -/

theorem Shows.empty {s : DocumentSet q.documentComparator} (hs : s.toList = []) : Shows s Documents.empty := by
  refine ⟨⟨by simp [hs], by simp [hs]⟩, by simp [hs], fun m hm => ?_⟩
  cases hm.1.1

/-- A new view's changes are all that the local store has for the query. -/
theorem View.computeDocumentChanges_create (hq : q.Plain) (hlim : q.LimitInRange) (docs : Documents) (remoteKeys : DocumentKeySet) :
    ∃ c, (View.create q remoteKeys).computeDocumentChanges (docs.executeQuery q) none = some c ∧ c.needsRefill = false ∧
      c.Coherent (View.create q remoteKeys).documentSet ∧ Shows c.documentSet docs := by
  have hmut key : (View.create q remoteKeys).mutatedKeys.contains key =
      ((View.create q remoteKeys).documentSet.getDocument key).any Document.hasLocalMutations := rfl
  obtain ⟨c, hc, hcoh, -, hshows⟩ := View.computeDocumentChanges_changed hq hlim hmut
    (Shows.empty DocumentSet.toList_empty) (docs.executeQuery q)
  have hno := View.needsRefill_fresh hlim hmut (fun _ => rfl) hc
  have hdocs (m : Document) : (Documents.empty.applied (docs.executeQuery q)).Matching q m ↔ docs.Matching q m := by
    have hget : (Documents.empty.applied (docs.executeQuery q)).get m.key = (docs.executeQuery q).get m.key := by
      rw [Documents.get_applied]
      exact Option.or_none
    unfold Documents.Matching
    rw [hget, Documents.matching_executeQuery]
    exact ⟨And.left, fun h => ⟨h, h.2⟩⟩
  exact ⟨c, hc, hno, hcoh, (hshows hno).congr hdocs⟩

/-- A view has a sync state once something is applied to it, and so a new one has a snapshot. -/
theorem Explains.isSome_snapshot {v v' : View q} {viewChange : ViewChange q} (h : Explains v v' viewChange) (hv : v.syncState = .none)
    (hsettled : v'.Settled) : viewChange.snapshot.isSome := by
  cases hs : viewChange.snapshot with
  | some => rfl
  | none =>
    have hstate : v'.syncState = .none := (h.none hs).2.trans hv
    rw [hsettled.syncState] at hstate
    split at hstate <;> cases hstate

/-- A query listened to shows what the local store has, and the assertion that there is a snapshot holds. -/
theorem QueryView.initializeView_spec (hq : q.Plain) (hlim : q.LimitInRange) (docs : Documents) (remoteKeys : DocumentKeySet)
    (currentSyncState : SyncState) (resumeToken : List UInt8) :
    ∃ s viewChange, initializeView q docs remoteKeys currentSyncState resumeToken = some (s, viewChange) ∧ s.Inv ∧ s.docs = docs ∧
      (∀ key, s.view.syncedDocuments.contains key = remoteKeys.contains key) ∧
      s.view.current = decide (currentSyncState = .synced) ∧ viewChange.snapshot.isSome ∧
      Explains (View.create q remoteKeys) s.view viewChange := by
  obtain ⟨c, hc, hno, hcoh, hshows⟩ := View.computeDocumentChanges_create hq hlim docs remoteKeys
  have happly := View.applyChanges_eq hno hcoh (some (.createSynthesizedTargetChange (currentSyncState = .synced) resumeToken))
  rw [if_pos (show Reported _ _ = true from rfl)] at happly
  obtain ⟨v', viewChange, hv', hdocset, hsynced, hcur, -, hsettled, hexplains⟩ := happly
  have hsnapshot := hexplains.isSome_snapshot rfl hsettled
  refine ⟨⟨v', docs⟩, viewChange, ?_, ⟨hdocset ▸ hshows, hsettled⟩, rfl, fun key => ?_, hcur, hsnapshot, hexplains⟩
  · simp only [initializeView, hc, Option.bind_eq_bind, Option.bind_some, hv', hsnapshot, if_true]
  · rw [hsynced]
    simp only [syncedAfter, TargetChange.createSynthesizedTargetChange, DocumentKeySet.contains_empty, Bool.or_false, Bool.not_false,
      Bool.and_true]
    rfl

/-- The documents that the server has reported to be the query's after the events. -/
def syncedAlong (synced : DocumentKey → Bool) (events : List Event) : DocumentKey → Bool :=
  events.foldl (fun synced e => syncedAfter synced e.targetChange) synced

/-- Whether the view is current after the events. -/
def currentAlong (current : Bool) (events : List Event) : Bool := events.foldl Event.current current

/-- Along the events, only documents are reported as modified that are the query's. -/
def ReportedAlong (synced : DocumentKey → Bool) : List Event → Bool
  | [] => true
  | e :: es => Reported synced e.targetChange && ReportedAlong (syncedAfter synced e.targetChange) es

/-- Changes of a view that follow one another, from one state to another. -/
inductive Explained : View q → List (ViewChange q) → View q → Prop where
  | nil {v : View q} : Explained v [] v
  | cons {v v' v'' : View q} {viewChange : ViewChange q} {viewChanges : List (ViewChange q)} (h : Explains v v' viewChange)
      (hrest : Explained v' viewChanges v'') : Explained v (viewChange :: viewChanges) v''

theorem QueryView.run_spec (hq : q.Plain) (hlim : q.LimitInRange) {s : QueryView q} (h : s.Inv) (es : List Event) :
    if ReportedAlong s.view.syncedDocuments.contains es then
      ∃ s' viewChanges, s.run es = some (s', viewChanges) ∧ s'.Inv ∧ s'.docs = es.foldl Event.docs s.docs ∧
        (∀ key, s'.view.syncedDocuments.contains key = syncedAlong s.view.syncedDocuments.contains es key) ∧
        s'.view.current = currentAlong s.view.current es ∧ Explained s.view viewChanges s'.view
    else s.run es = none := by
  induction es generalizing s with
  | nil => exact ⟨s, [], rfl, h, rfl, fun _ => rfl, rfl, .nil⟩
  | cons e es ih =>
    have hstep := s.step_spec hq hlim h e
    cases hr : Reported s.view.syncedDocuments.contains e.targetChange with
    | false =>
      rw [if_neg (by rw [hr]; exact Bool.false_ne_true)] at hstep
      rw [if_neg (by rw [ReportedAlong, hr]; exact Bool.false_ne_true), run, hstep]
      rfl
    | true =>
      rw [if_pos hr] at hstep
      obtain ⟨s₁, viewChange, hs₁, hinv, hdocs, hsynced, hcur, hexplains⟩ := hstep
      have hsynced' : s₁.view.syncedDocuments.contains = syncedAfter s.view.syncedDocuments.contains e.targetChange := funext hsynced
      have hrest := ih hinv
      rw [hsynced', hdocs, hcur] at hrest
      simp only [ReportedAlong, hr, Bool.true_and, run, hs₁, Option.bind_some]
      split
      · next hreported =>
        rw [if_pos hreported] at hrest
        obtain ⟨s', viewChanges, hs', hinv', hdocs', hsynced'', hcur', hexplained⟩ := hrest
        exact ⟨s', viewChange :: viewChanges, by rw [hs']; rfl, hinv', hdocs', hsynced'', hcur', .cons hexplains hexplained⟩
      · next hreported =>
        rw [if_neg hreported] at hrest
        rw [hrest]
        rfl

/-! ## Listening to a query -/

section

variable (docs : Documents) (remoteKeys : DocumentKeySet) (currentSyncState : SyncState) (resumeToken : List UInt8) (events : List Event)

theorem listen_spec (hq : q.Plain) (hlim : q.LimitInRange) :
    if ReportedAlong remoteKeys.contains events then
      ∃ s viewChange viewChanges, listen q docs remoteKeys currentSyncState resumeToken events = some (s, viewChange :: viewChanges) ∧
        s.Inv ∧ s.docs = events.foldl Event.docs docs ∧
        (∀ key, s.view.syncedDocuments.contains key = syncedAlong remoteKeys.contains events key) ∧
        s.view.current = currentAlong (currentSyncState = .synced) events ∧ viewChange.snapshot.isSome ∧ Explained (View.create q remoteKeys) (viewChange :: viewChanges) s.view
    else listen q docs remoteKeys currentSyncState resumeToken events = none := by
  obtain ⟨s₀, viewChange, hs₀, hinv, hdocs, hsynced, hcur, hsnapshot, hexplains⟩ :=
    QueryView.initializeView_spec hq hlim docs remoteKeys currentSyncState resumeToken
  have hrun := QueryView.run_spec hq hlim hinv events
  rw [show s₀.view.syncedDocuments.contains = remoteKeys.contains from funext hsynced, hdocs, hcur] at hrun
  have hlisten : listen q docs remoteKeys currentSyncState resumeToken events =
      (s₀.run events).map fun r => (r.1, viewChange :: r.2) := by
    rw [listen, hs₀]
    rfl
  rw [hlisten]
  split
  · next hreported =>
    rw [if_pos hreported] at hrun
    obtain ⟨s, viewChanges, hs, hinv', hdocs', hsynced', hcur', hexplained⟩ := hrun
    exact ⟨s, viewChange, viewChanges, by rw [hs]; rfl, hinv', hdocs', hsynced', hcur', hsnapshot, .cons hexplains hexplained⟩
  · next hreported =>
    rw [if_neg hreported] at hrun
    rw [hrun]
    rfl

/-- **The engine stops only at what the server must not report.** No assertion
of the view, of its sets of changes or of what the engine does with them fails
while a query is listened to, whatever changes come in whatever order, unless
the server reports as modified a document that it has not reported as the
query's, and then one does. -/
theorem listen_isSome (hq : q.Plain) (hlim : q.LimitInRange) :
    (listen q docs remoteKeys currentSyncState resumeToken events).isSome = ReportedAlong remoteKeys.contains events := by
  have h := listen_spec docs remoteKeys currentSyncState resumeToken events hq hlim
  split at h
  · next hreported =>
    obtain ⟨s, viewChange, viewChanges, hs, -⟩ := h
    rw [hs, hreported]
    rfl
  · next hreported =>
    rw [h, Bool.not_eq_true _ |>.mp hreported]
    rfl

/-- A doctor as the local store has it, the `n`th to be made. -/
def doctor (name : String) (state : DocumentState) (n : Int64) : Document :=
  ⟨documentKey "doctors" name, .foundDocument, (0, 0), state, [("createdAt", .integer n)], rfl, rfl⟩

def removedDoctor (name : String) : Document := .noDocument (documentKey "doctors" name) (1, 0)

def threeDoctors : Documents :=
  ((Documents.single (doctor "a" .synced 1)).applied (.single (doctor "b" .synced 2))).applied (.single (doctor "c" .synced 3))

def doctorKeys (names : List String) : DocumentKeySet :=
  names.foldl (fun keys name => DocumentKeySet.insert keys (documentKey "doctors" name)) .empty

/-- A doctor is written, which is acknowledged and then sent back by the server, and another is removed by someone else. -/
def busyEvents : List Event :=
  [ .changed (.single (doctor "b" .hasLocalMutations 4)) none,
    .changed (.single (doctor "b" .hasCommittedMutations 4)) none,
    .changed (.single (doctor "b" .synced 4)) (some ⟨[], true, doctorKeys ["b", "c"], .empty, .empty⟩),
    .changed (.single (removedDoctor "c")) (some ⟨[], true, .empty, .empty, doctorKeys ["c"]⟩) ]

/-- It goes on until a document is reported as modified that was never reported as the query's. -/
theorem listen_isSome_stops :
    (listen (.newest "doctors" "createdAt" 2) threeDoctors .empty .none [] busyEvents).isSome = true ∧
      (listen (.newest "doctors" "createdAt" 2) threeDoctors .empty .none []
        (busyEvents ++ [.changed .empty (some ⟨[], true, .empty, doctorKeys ["a"], .empty⟩)])).isSome = false :=
  ⟨(listen_isSome _ _ _ _ _ (Query.newest_plain _ _ _) (Query.newest_limitInRange (by decide))).trans (by decide),
    (listen_isSome _ _ _ _ _ (Query.newest_plain _ _ _) (Query.newest_limitInRange (by decide))).trans (by decide)⟩

/-- What the query finds in the end. -/
theorem found_busy {docs : Documents} (hdocs : docs = busyEvents.foldl Event.docs threeDoctors) :
    (Query.newest "doctors" "createdAt" 2).found docs = [doctor "b" .synced 4, doctor "a" .synced 1] := by
  subst hdocs
  refine Query.found_eq_of_perm ?_ (List.pairwise_pair.2 (by decide))
  exact .swap (doctor "b" .synced 4) (doctor "a" .synced 1) []

theorem matching_busy {docs : Documents} (hdocs : docs = busyEvents.foldl Event.docs threeDoctors) {m : Document}
    (hm : docs.Matching (.newest "doctors" "createdAt" 2) m) : m = doctor "b" .synced 4 ∨ m = doctor "a" .synced 1 := by
  have hm := Query.mem_found.2 hm
  rwa [found_busy hdocs, List.mem_pair] at hm

/-- What the query shows in the end. -/
theorem result_busy {docs : Documents} (hdocs : docs = busyEvents.foldl Event.docs threeDoctors) :
    (Query.newest "doctors" "createdAt" 2).result docs = [doctor "b" .synced 4, doctor "a" .synced 1] :=
  congrArg (List.take 2) (found_busy hdocs)

theorem not_committed_busy {docs : Documents} (hdocs : docs = busyEvents.foldl Event.docs threeDoctors) {m : Document}
    (hm : docs.Matching (.newest "doctors" "createdAt" 2) m) : m.hasCommittedMutations = false := by
  rcases matching_busy hdocs hm with rfl | rfl <;> rfl

/-- **Snapshots miss nothing.** The first one starts from no documents, each
next one from those of the one before; each tells exactly how its documents
differ from the old ones, and a step without one changed nothing. -/
theorem listen_explained (hq : q.Plain) (hlim : q.LimitInRange) (h : ReportedAlong remoteKeys.contains events = true) :
    ∃ s viewChange viewChanges, listen q docs remoteKeys currentSyncState resumeToken events = some (s, viewChange :: viewChanges) ∧
      viewChange.snapshot.isSome ∧ Explained (View.create q remoteKeys) (viewChange :: viewChanges) s.view := by
  have hspec := listen_spec docs remoteKeys currentSyncState resumeToken events hq hlim
  rw [if_pos h] at hspec
  obtain ⟨s, viewChange, viewChanges, hs, -, -, -, -, hsnapshot, hexplained⟩ := hspec
  exact ⟨s, viewChange, viewChanges, hs, hsnapshot, hexplained⟩

/-- Four snapshots, one of them of a document removed and one added in its place, and a step without one. -/
theorem listen_explained_refilled :
    ∃ s viewChange viewChanges,
      listen (.newest "doctors" "createdAt" 2) threeDoctors .empty .none [] busyEvents = some (s, viewChange :: viewChanges) ∧
        viewChange.snapshot.isSome ∧ Explained (View.create _ .empty) (viewChange :: viewChanges) s.view :=
  listen_explained threeDoctors .empty .none [] busyEvents (Query.newest_plain "doctors" "createdAt" 2)
    (Query.newest_limitInRange (by decide)) (by decide)

/-- The limbo documents, by their changes. -/
def trackLimbo (limbo : DocumentKey → Bool) (limboChanges : List LimboDocumentChange) : DocumentKey → Bool :=
  limboChanges.foldl (fun limbo change => match change with
    | .added key => Function.update limbo key true
    | .removed key => Function.update limbo key false) limbo

theorem trackLimbo_eq {limbo : DocumentKey → Bool} {limboChanges : List LimboDocumentChange} {key : DocumentKey}
    (h : ¬(.added key ∈ limboChanges ∧ .removed key ∈ limboChanges)) :
    trackLimbo limbo limboChanges key =
      (decide (.added key ∈ limboChanges) || limbo key && !decide (.removed key ∈ limboChanges)) := by
  induction limboChanges generalizing limbo with
  | nil => simp [trackLimbo]
  | cons change limboChanges ih =>
    change trackLimbo (trackLimbo limbo [change]) limboChanges key = _
    rw [ih fun hb => h ⟨List.mem_cons_of_mem _ hb.1, List.mem_cons_of_mem _ hb.2⟩]
    cases change with
    | added k =>
      by_cases hk : key = k
      · subst hk
        have hnot : .removed key ∉ limboChanges := fun hr => h ⟨List.mem_cons_self, List.mem_cons_of_mem _ hr⟩
        simp [trackLimbo, hnot]
      · simp [trackLimbo, hk]
    | removed k =>
      by_cases hk : key = k
      · subst hk
        have hnot : .added key ∉ limboChanges := fun ha => h ⟨List.mem_cons_of_mem _ ha, List.mem_cons_self⟩
        simp [trackLimbo, hnot]
      · simp [trackLimbo, hk]

theorem Explained.trackLimbo {v v' : View q} {viewChanges : List (ViewChange q)} (h : Explained v viewChanges v') :
    Client.trackLimbo v.limboDocuments.contains (viewChanges.flatMap (·.limboChanges)) = v'.limboDocuments.contains := by
  induction h with
  | nil => rfl
  | @cons v v' v'' viewChange viewChanges h _ ih =>
    rw [List.flatMap_cons, Client.trackLimbo, List.foldl_append]
    change Client.trackLimbo (Client.trackLimbo v.limboDocuments.contains viewChange.limboChanges) _ = _
    rw [← ih]
    congr 1
    funext key
    have hboth : ¬(.added key ∈ viewChange.limboChanges ∧ .removed key ∈ viewChange.limboChanges) := fun ⟨ha, hr⟩ =>
      ((h.added key).1 ha).2 ((h.removed key).1 hr).1
    rw [trackLimbo_eq hboth, Bool.eq_iff_iff]
    simp only [Bool.or_eq_true, Bool.and_eq_true, Bool.not_eq_true', decide_eq_true_eq, decide_eq_false_iff_not, h.added, h.removed]
    tauto

theorem View.shouldBeInLimbo_iff {v : View q} {key : DocumentKey} : v.shouldBeInLimbo key ↔
    v.syncedDocuments.contains key = false ∧ ∃ d ∈ v.documentSet.toList, d.key = key ∧ d.hasLocalMutations = false := by
  have hcontains : v.documentSet.containsKey key = (v.documentSet.getDocument key).isSome := by
    rw [DocumentSet.getDocument, Option.isSome_map, DocumentSet.containsKey]
  unfold shouldBeInLimbo
  rw [hcontains]
  cases hget : v.documentSet.getDocument key with
  | none =>
    have hnone := DocumentSet.getDocument_eq_none.1 hget
    simp only [Option.isSome_none, Bool.not_false, if_true, ite_self, Bool.false_eq_true, false_iff]
    rintro ⟨-, d, hd, hk, -⟩
    exact hnone d hd hk
  | some d =>
    obtain ⟨hd, hk⟩ := DocumentSet.getDocument_eq_some.1 hget
    have hiff : (∃ d' ∈ v.documentSet.toList, d'.key = key ∧ d'.hasLocalMutations = false) ↔ d.hasLocalMutations = false := by
      refine ⟨?_, fun hl => ⟨d, hd, hk, hl⟩⟩
      rintro ⟨d', hd', hk', hl⟩
      exact DocumentSet.eq_of_key hd' hd (hk'.trans hk.symm) ▸ hl
    rw [hiff]
    cases v.syncedDocuments.contains key <;> cases hl : d.hasLocalMutations <;> simp [hl]

/-- A view that has all there is, and shows only what the server has reported, is synced. -/
theorem View.Settled.synced {v : View q} (h : v.Settled) (hcur : v.current = true)
    (hreported : ∀ d ∈ v.documentSet.toList, v.syncedDocuments.contains d.key = true) : v.syncState = .synced := by
  have hnone key : v.limboDocuments.contains key = false := by
    rw [h.limbo hcur, ← Bool.not_eq_true, View.shouldBeInLimbo_iff]
    rintro ⟨hkey, d, hd, rfl, -⟩
    rw [hreported d hd] at hkey
    cases hkey
  rw [h.syncState, if_pos (by simp [hcur, DocumentKeySet.size_eq_zero, hnone])]

/-- **Limbo documents.** What the engine is told of them, one change after
another, makes up the limbo documents of the view; the view is current once the
server says that it has reported all there is, until the connection is lost, and
while it is, these are the documents shown that the server has not reported and
no local write explains; and the view is synced if there are none. -/
theorem listen_limbo (hq : q.Plain) (hlim : q.LimitInRange) (h : ReportedAlong remoteKeys.contains events = true) :
    ∃ s viewChanges, listen q docs remoteKeys currentSyncState resumeToken events = some (s, viewChanges) ∧
      trackLimbo (fun _ => false) (viewChanges.flatMap (·.limboChanges)) = s.view.limboDocuments.contains ∧
      s.view.current = currentAlong (currentSyncState = .synced) events ∧
      (s.view.current = true → ∀ key, s.view.limboDocuments.contains key ↔
        syncedAlong remoteKeys.contains events key = false ∧
          ∃ d ∈ s.view.documentSet.toList, d.key = key ∧ d.hasLocalMutations = false) ∧
      (s.view.syncState = .synced ↔ s.view.current = true ∧ ∀ key, s.view.limboDocuments.contains key = false) := by
  have hspec := listen_spec docs remoteKeys currentSyncState resumeToken events hq hlim
  rw [if_pos h] at hspec
  obtain ⟨s, viewChange, viewChanges, hs, hinv, -, hsynced, hcur, -, hexplained⟩ := hspec
  refine ⟨s, viewChange :: viewChanges, hs, hexplained.trackLimbo, hcur, fun hc key => ?_, ?_⟩
  · rw [hinv.settled.limbo hc, View.shouldBeInLimbo_iff, hsynced]
  · rw [hinv.settled.syncState]
    split
    · next hsync =>
      simp only [Bool.and_eq_true, decide_eq_true_eq, DocumentKeySet.size_eq_zero] at hsync
      exact ⟨fun _ => hsync.symm, fun _ => rfl⟩
    · next hsync =>
      simp only [Bool.and_eq_true, decide_eq_true_eq, DocumentKeySet.size_eq_zero] at hsync
      exact ⟨fun he => (by cases he), fun he => absurd he.symm hsync⟩

/-- The view shows `a` in the end, as one with no local write. -/
theorem shown_busy {docs : Documents} (hdocs : docs = busyEvents.foldl Event.docs threeDoctors)
    {documentSet : DocumentSet (Query.newest "doctors" "createdAt" 2).documentComparator} (h : Shows documentSet docs) :
    ∃ d ∈ documentSet.toList, d.key = documentKey "doctors" "a" ∧ d.hasLocalMutations = false := by
  have htwo := h.result (Query.newest_plain "doctors" "createdAt" 2) (Query.newest_limitInRange (by decide)) fun _ => not_committed_busy hdocs
  rw [result_busy hdocs] at htwo
  obtain ⟨a, ha, hsame⟩ : ∃ a ∈ documentSet.toList, a.Same (doctor "a" .synced 1) := by
    generalize documentSet.toList = l at htwo
    obtain - | ⟨-, - | ⟨ha, -⟩⟩ := htwo
    exact ⟨_, List.mem_cons_of_mem _ List.mem_cons_self, ha⟩
  refine ⟨a, ha, hsame.key, ?_⟩
  obtain ⟨m, hm, hkey, hstands⟩ := h.stands a ha
  rcases matching_busy hdocs hm with rfl | rfl
  · exact absurd (hsame.key.symm.trans hkey) (by decide)
  · rcases hstands with hwait | ⟨-, hlocal⟩
    · simp [shouldWaitForSyncedDocument, doctor, Document.hasCommittedMutations] at hwait
    · exact hlocal

/-- The document that fills the limit up is one the server has not reported: it is in limbo, and the view is not synced. -/
theorem listen_limbo_refilled :
    ∃ s viewChanges, listen (.newest "doctors" "createdAt" 2) threeDoctors .empty .none [] busyEvents = some (s, viewChanges) ∧
      trackLimbo (fun _ => false) (viewChanges.flatMap (·.limboChanges)) (documentKey "doctors" "a") = true ∧
      s.view.limboDocuments.contains (documentKey "doctors" "b") = false ∧ s.view.syncState ≠ .synced := by
  have hplain := Query.newest_plain "doctors" "createdAt" 2
  have hlim : (Query.newest "doctors" "createdAt" 2).LimitInRange := Query.newest_limitInRange (by decide)
  obtain ⟨s, viewChanges, hs, htrack, hcur, hlimbo, hsync⟩ := listen_limbo threeDoctors .empty .none [] busyEvents hplain hlim (by decide)
  have hspec := listen_spec threeDoctors .empty .none [] busyEvents hplain hlim
  rw [if_pos (by decide)] at hspec
  obtain ⟨s', viewChange, viewChanges', hs', hinv, hdocs, -⟩ := hspec
  obtain rfl : s = s' := congrArg Prod.fst (Option.some.inj (hs.symm.trans hs'))
  have hcur : s.view.current = true := hcur.trans (by decide)
  have ha : s.view.limboDocuments.contains (documentKey "doctors" "a") = true := (hlimbo hcur _).2 ⟨by decide, shown_busy hdocs hinv.shows⟩
  refine ⟨s, viewChanges, hs, by rw [htrack]; exact ha, ?_, fun he => ?_⟩
  · by_contra hb
    have hb := ((hlimbo hcur _).1 (by simpa using hb)).1
    revert hb
    decide
  · rw [(hsync.1 he).2] at ha
    cases ha

end

end Client
