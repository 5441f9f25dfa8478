/-
What the client keeps of a query it listens to (`core/sync_engine.cc`, and the
rest of `core/view.cc`): the view, beside the local store's documents. Each
batch of changed documents, with what the server says of the query's target, is
one step, and so is a change of the connection; a step stops where the source
asserts.
-/
import Sdapk.Limit

namespace Client

open Immutable

variable {q : Query}

/-! ## The rest of the view -/

/-- What the server says of the documents that belong to a query. -/
structure TargetChange where
  resumeToken : List UInt8
  current : Bool
  addedDocuments : DocumentKeySet
  modifiedDocuments : DocumentKeySet
  removedDocuments : DocumentKeySet

def TargetChange.createSynthesizedTargetChange (current : Bool) (resumeToken : List UInt8) : TargetChange :=
  ⟨resumeToken, current, .empty, .empty, .empty⟩

inductive LimboDocumentChange where
  | added (key : DocumentKey)
  | removed (key : DocumentKey)
  deriving DecidableEq

structure ViewChange (q : Query) where
  snapshot : Option (ViewSnapshot q)
  limboChanges : List LimboDocumentChange

/-- `GetDocumentViewChangeTypePosition`. -/
def ChangeType.position : ChangeType → Nat
  | removed => 0
  | added => 1
  | modified => 2
  | metadata => 2

inductive OnlineState where
  | unknown
  | online
  | offline
  deriving DecidableEq

namespace View

def create (q : Query) (remoteDocuments : DocumentKeySet) : View q where
  documentSet := .empty
  syncedDocuments := remoteDocuments
  limboDocuments := .empty
  mutatedKeys := .empty
  current := false
  syncState := .none

/-- The order of the changes of a snapshot: by type, then by the query. -/
def changeBefore (q : Query) (lhs rhs : DocumentViewChange) : Bool :=
  if lhs.type.position ≠ rhs.type.position then lhs.type.position < rhs.type.position
  else q.comparator lhs.document rhs.document = .lt

def applyTargetChange (v : View q) : Option TargetChange → Option (View q)
  | none => some v
  | some targetChange =>
    let added := targetChange.addedDocuments.toList.foldl DocumentKeySet.insert v.syncedDocuments
    if targetChange.modifiedDocuments.toList.all fun key => added.contains key then
      some { v with
        syncedDocuments := targetChange.removedDocuments.toList.foldl (fun keys key => keys.erase key) added
        current := targetChange.current }
    else none

/-- A document of the view that the server does not have, and no local change explains. -/
def shouldBeInLimbo (v : View q) (key : DocumentKey) : Bool :=
  if v.syncedDocuments.contains key then false
  else if !v.documentSet.containsKey key then false
  else if (v.documentSet.getDocument key).any Document.hasLocalMutations then false
  else true

def updateLimboDocuments (v : View q) : View q × List LimboDocumentChange :=
  if !v.current then (v, [])
  else
    let limboDocuments := v.documentSet.toList.foldl
      (fun keys doc => if v.shouldBeInLimbo doc.key then DocumentKeySet.insert keys doc.key else keys) .empty
    let removed := v.limboDocuments.toList.filter fun key => !limboDocuments.contains key
    let added := limboDocuments.toList.filter fun key => !v.limboDocuments.contains key
    ({ v with limboDocuments }, removed.map .removed ++ added.map .added)

/-- What there is to tell of the changes. -/
def snapshot (v : View q) (docChanges : ViewDocumentChanges q) (targetChange : Option TargetChange) (newSyncState : SyncState) :
    ViewSnapshot q where
  documents := docChanges.documentSet
  oldDocuments := v.documentSet
  documentChanges := docChanges.changeSet.getChanges.mergeSort fun lhs rhs => !changeBefore q rhs lhs
  mutatedKeys := docChanges.mutatedKeys
  fromCache := newSyncState = .localOnly
  syncStateChanged := newSyncState ≠ v.syncState
  excludesMetadataChanges := false
  hasCachedResults := targetChange.any fun t => t.resumeToken ≠ []

/-- The rest of `ApplyChanges`, once what the server says is applied: the limbo
documents, the sync state, and the snapshot if there is something to tell. -/
def settle (v : View q) (docChanges : ViewDocumentChanges q) (targetChange : Option TargetChange) (applied : View q) :
    View q × ViewChange q :=
  let (updated, limboChanges) := applied.updateLimboDocuments
  let synced := updated.limboDocuments.size = 0 && updated.current
  let newSyncState := if synced then SyncState.synced else SyncState.localOnly
  let snapshot := v.snapshot docChanges targetChange newSyncState
  ({ updated with syncState := newSyncState },
    ⟨if snapshot.documentChanges.isEmpty && !snapshot.syncStateChanged then none else some snapshot, limboChanges⟩)

def applyChanges (v : View q) (docChanges : ViewDocumentChanges q) (targetChange : Option TargetChange) :
    Option (View q × ViewChange q) :=
  if docChanges.needsRefill then none
  else
    let updated := { v with documentSet := docChanges.documentSet, mutatedKeys := docChanges.mutatedKeys }
    (updated.applyTargetChange targetChange).map (v.settle docChanges targetChange)

def applyOnlineStateChange (v : View q) (onlineState : OnlineState) : Option (View q × ViewChange q) :=
  if v.current ∧ onlineState = .offline then
    { v with current := false }.applyChanges ⟨v.documentSet, .empty, v.mutatedKeys, false⟩ none
  else some (v, ⟨none, []⟩)

end View

/-! ## The engine, for one query -/

structure QueryView (q : Query) where
  view : View q
  docs : Documents

namespace QueryView

/-- `InitializeViewAndComputeSnapshot`. The local store answers the query by a scan of its documents: no field is
indexed, and the target has kept no results of an earlier listen that were free of limbo documents, so that the
query engine goes neither by an index nor by the remote keys. Another query may listen to the same target already. -/
def initializeView (q : Query) (docs : Documents) (remoteKeys : DocumentKeySet) (currentSyncState : SyncState)
    (resumeToken : List UInt8) : Option (QueryView q × ViewChange q) := do
  let view := View.create q remoteKeys
  let synthesizedCurrentChange := TargetChange.createSynthesizedTargetChange (currentSyncState = .synced) resumeToken
  let viewDocChanges ← view.computeDocumentChanges (docs.executeQuery q) none
  let (view, viewChange) ← view.applyChanges viewDocChanges (some synthesizedCurrentChange)
  -- a new view's changes are asserted to have a snapshot
  if viewChange.snapshot.isSome then some (⟨view, docs⟩, viewChange) else none

/-- The changes to the view, with those of a second pass if the first asks for one. -/
def viewDocChanges (s : QueryView q) (changes : Documents) : Option (ViewDocumentChanges q) :=
  (s.view.computeDocumentChanges changes none).bind fun c =>
    if c.needsRefill then s.view.computeDocumentChanges ((s.docs.applied changes).executeQuery q) (some c) else some c

/-- `EmitNewSnapshotsAndNotifyLocalStore`, when the local store has the changes. -/
def emitNewSnapshots (s : QueryView q) (changes : Documents) (targetChange : Option TargetChange) : Option (QueryView q × ViewChange q) := do
  let viewDocChanges ← s.viewDocChanges changes
  let (view, viewChange) ← s.view.applyChanges viewDocChanges targetChange
  some (⟨view, s.docs.applied changes⟩, viewChange)

def handleOnlineStateChange (s : QueryView q) (onlineState : OnlineState) : Option (QueryView q × ViewChange q) := do
  let (view, viewChange) ← s.view.applyOnlineStateChange onlineState
  -- asserted of a change of the connection
  if viewChange.limboChanges.isEmpty then some (⟨view, s.docs⟩, viewChange) else none

end QueryView

/-! ## The documents the server has reported -/

/-- Only documents are reported as modified that have been reported as added. -/
def Reported (synced : DocumentKey → Bool) : Option TargetChange → Bool
  | none => true
  | some t => t.modifiedDocuments.toList.all fun key => synced key || t.addedDocuments.contains key

def syncedAfter (synced : DocumentKey → Bool) : Option TargetChange → DocumentKey → Bool
  | none => synced
  | some t => fun key => (synced key || t.addedDocuments.contains key) && !t.removedDocuments.contains key

/-- Whether the server has said that it has reported all there is. -/
def currentAfter (current : Bool) : Option TargetChange → Bool
  | none => current
  | some t => t.current

theorem contains_foldl_insert {keys : DocumentKeySet} {l : List DocumentKey} {key : DocumentKey} :
    (l.foldl DocumentKeySet.insert keys).contains key = (keys.contains key || decide (key ∈ l)) := by
  induction l generalizing keys with
  | nil => simp
  | cons k l ih =>
    rw [List.foldl_cons, ih, DocumentKeySet.contains_insert]
    by_cases h : key = k <;> simp [h]

theorem contains_foldl_erase {keys : DocumentKeySet} {l : List DocumentKey} {key : DocumentKey} :
    (l.foldl (fun keys key => keys.erase key) keys).contains key = (keys.contains key && !decide (key ∈ l)) := by
  induction l generalizing keys with
  | nil => simp
  | cons k l ih =>
    rw [List.foldl_cons, ih, DocumentKeySet.contains_erase]
    by_cases h : key = k <;> simp [h]

theorem contains_toList {keys : DocumentKeySet} {key : DocumentKey} : decide (key ∈ keys.toList) = keys.contains key := by
  rw [Bool.eq_iff_iff, decide_eq_true_iff, DocumentKeySet.mem_toList]

namespace View

/-- The assertion on modified documents is that they have been reported. -/
theorem applyTargetChange_eq (v : View q) (targetChange : Option TargetChange) :
    if Reported v.syncedDocuments.contains targetChange then
      ∃ syncedDocuments, v.applyTargetChange targetChange =
          some { v with syncedDocuments, current := currentAfter v.current targetChange } ∧
        ∀ key, syncedDocuments.contains key = syncedAfter v.syncedDocuments.contains targetChange key
    else v.applyTargetChange targetChange = none := by
  cases targetChange with
  | none =>
    rw [if_pos (show Reported _ none = true from rfl)]
    exact ⟨v.syncedDocuments, rfl, fun _ => rfl⟩
  | some t =>
    have hadded key : (t.addedDocuments.toList.foldl DocumentKeySet.insert v.syncedDocuments).contains key =
        (v.syncedDocuments.contains key || t.addedDocuments.contains key) := by
      rw [contains_foldl_insert, contains_toList]
    simp only [Reported, applyTargetChange, hadded]
    split
    · refine ⟨_, rfl, fun key => ?_⟩
      rw [contains_foldl_erase, hadded, contains_toList]
      rfl
    · rfl

/-! ## Limbo documents -/

theorem contains_limbo {p : DocumentKey → Bool} {docs : List Document} {keys : DocumentKeySet} {key : DocumentKey} :
    (docs.foldl (fun keys doc => if p doc.key then DocumentKeySet.insert keys doc.key else keys) keys).contains key =
      (keys.contains key || docs.any fun doc => doc.key = key && p key) := by
  induction docs generalizing keys with
  | nil => simp
  | cons d docs ih =>
    rw [List.foldl_cons, ih]
    by_cases hk : d.key = key
    · subst hk
      cases p d.key <;> simp
    · have hk' : ¬ key = d.key := fun h => hk h.symm
      cases p d.key <;> simp [hk, hk']

theorem mem_of_shouldBeInLimbo {v : View q} {key : DocumentKey} (h : v.shouldBeInLimbo key) : ∃ d ∈ v.documentSet.toList, d.key = key := by
  unfold shouldBeInLimbo at h
  split at h
  · cases h
  · split at h
    · cases h
    · next hc =>
      have hc : v.documentSet.containsKey key = true := by simpa using hc
      have hget : (v.documentSet.getDocument key).isSome := by rwa [DocumentSet.getDocument, Option.isSome_map]
      obtain ⟨d, hd⟩ := Option.isSome_iff_exists.1 hget
      exact ⟨d, DocumentSet.getDocument_eq_some.1 hd⟩

/-- While the view is current its limbo documents are those that should be, and
the changes are what makes them so. -/
theorem updateLimboDocuments_eq (v : View q) :
    ∃ limboDocuments limboChanges, v.updateLimboDocuments = ({ v with limboDocuments }, limboChanges) ∧
      (v.current = true → ∀ key, limboDocuments.contains key = v.shouldBeInLimbo key) ∧ (v.current = false → limboChanges = []) ∧
      (∀ key, .added key ∈ limboChanges ↔ limboDocuments.contains key ∧ ¬v.limboDocuments.contains key) ∧
      ∀ key, .removed key ∈ limboChanges ↔ v.limboDocuments.contains key ∧ ¬limboDocuments.contains key := by
  unfold updateLimboDocuments
  by_cases hc : v.current = true
  · rw [if_neg (by simp [hc])]
    refine ⟨_, _, rfl, fun _ key => ?_, fun h => absurd hc (by simp [h]), fun key => ?_, fun key => ?_⟩
    · rw [contains_limbo, DocumentKeySet.contains_empty, Bool.false_or, Bool.eq_iff_iff, List.any_eq_true]
      simp only [Bool.and_eq_true, decide_eq_true_eq]
      exact ⟨fun ⟨_, _, _, h⟩ => h, fun h => (mem_of_shouldBeInLimbo h).imp fun d hd => ⟨hd.1, hd.2, h⟩⟩
    · simp [DocumentKeySet.mem_toList]
    · simp [DocumentKeySet.mem_toList]
  · rw [if_pos (by simpa using hc)]
    exact ⟨v.limboDocuments, [], rfl, fun h => absurd h hc, by simp, by simp, by simp⟩

end View

/-- What happens to a query that is listened to. -/
inductive Event where
  | changed (changes : Documents) (targetChange : Option TargetChange)
  | online (onlineState : OnlineState)

def QueryView.step (s : QueryView q) : Event → Option (QueryView q × ViewChange q)
  | .changed changes targetChange => s.emitNewSnapshots changes targetChange
  | .online onlineState => s.handleOnlineStateChange onlineState

/-! ## Runs -/

/-- The changes of the view that the events make, one after another. -/
def QueryView.run (s : QueryView q) : List Event → Option (QueryView q × List (ViewChange q))
  | [] => some (s, [])
  | e :: es => (s.step e).bind fun (s', viewChange) => (s'.run es).map fun (s', viewChanges) => (s', viewChange :: viewChanges)

/-- A query listened to, and what happens to it after that. -/
def listen (q : Query) (docs : Documents) (remoteKeys : DocumentKeySet) (currentSyncState : SyncState) (resumeToken : List UInt8)
    (events : List Event) : Option (QueryView q × List (ViewChange q)) :=
  (QueryView.initializeView q docs remoteKeys currentSyncState resumeToken).bind fun (s, viewChange) =>
    (s.run events).map fun (s', viewChanges) => (s', viewChange :: viewChanges)

end Client
