/-
A listener of a query (`core/query_listener.cc`): which of the view's snapshots
it raises as events, and what is left of them. The first event tells of all
documents as if they were new, and may have to wait; after it a snapshot is
raised if it has anything to tell to this listener. Whoever makes the changes
of the events to a list has the documents of the view, also between events.
-/
import Sdapk.QuerySnapshot

namespace Client

variable {q : Query}

structure ListenOptions where
  includeQueryMetadataChanges : Bool
  includeDocumentMetadataChanges : Bool
  waitForSyncWhenOnline : Bool

def ViewSnapshot.hasPendingWrites (s : ViewSnapshot q) : Bool := s.mutatedKeys.size ≠ 0

structure QueryListener (q : Query) where
  options : ListenOptions
  raisedInitialEvent : Bool
  onlineState : OnlineState
  snapshot : Option (ViewSnapshot q)

namespace QueryListener

def create (q : Query) (options : ListenOptions) : QueryListener q := ⟨options, false, .unknown, none⟩

/-- The snapshot, without changes of metadata if the listener is not to have them. -/
def seen (options : ListenOptions) (snapshot : ViewSnapshot q) : ViewSnapshot q :=
  if options.includeDocumentMetadataChanges then snapshot
  else
    { snapshot with
      documentChanges := snapshot.documentChanges.filter fun change => change.type ≠ .metadata
      excludesMetadataChanges := true }

/-- Asserted not to be asked once an event was raised. An unknown state counts as online. -/
def shouldRaiseInitialEvent (l : QueryListener q) (snapshot : ViewSnapshot q) (onlineState : OnlineState) : Option Bool :=
  if l.raisedInitialEvent then none
  else if !snapshot.fromCache then some true
  else if l.options.waitForSyncWhenOnline && onlineState ≠ .offline then some false
  else some (snapshot.documents.size ≠ 0 || snapshot.hasCachedResults || onlineState = .offline)

def shouldRaiseEvent (l : QueryListener q) (snapshot : ViewSnapshot q) : Bool :=
  if snapshot.documentChanges ≠ [] then true
  else
    let hasPendingWritesChanged := l.snapshot.any fun old => old.hasPendingWrites ≠ snapshot.hasPendingWrites
    if snapshot.syncStateChanged || hasPendingWritesChanged then l.options.includeQueryMetadataChanges else false

/-- The listener that has raised its first event, and the event. -/
def raiseInitialEvent (l : QueryListener q) (snapshot : ViewSnapshot q) : Option (QueryListener q × ViewSnapshot q) :=
  if l.raisedInitialEvent then none
  else some ({ l with raisedInitialEvent := true }, .fromInitialDocuments snapshot.documents snapshot.mutatedKeys snapshot.fromCache
    snapshot.excludesMetadataChanges snapshot.hasCachedResults)

/-- The first event, if it is time for it. -/
def raiseInitialEventIf (l : QueryListener q) (snapshot : ViewSnapshot q) (onlineState : OnlineState) :
    Option (QueryListener q × Option (ViewSnapshot q)) := do
  if ← l.shouldRaiseInitialEvent snapshot onlineState then
    let (l, event) ← l.raiseInitialEvent snapshot
    return (l, some event)
  else return (l, none)

/-- A snapshot with nothing in it is asserted not to come. -/
def onViewSnapshot (l : QueryListener q) (snapshot : ViewSnapshot q) : Option (QueryListener q × Option (ViewSnapshot q)) :=
  if snapshot.documentChanges.isEmpty && !snapshot.syncStateChanged then none
  else
    let snapshot := seen l.options snapshot
    let raised := if !l.raisedInitialEvent then l.raiseInitialEventIf snapshot l.onlineState
      else if l.shouldRaiseEvent snapshot then some (l, some snapshot)
      else some (l, none)
    raised.map fun (l, event) => ({ l with snapshot := some snapshot }, event)

def onOnlineStateChanged (l : QueryListener q) (onlineState : OnlineState) : Option (QueryListener q × Option (ViewSnapshot q)) :=
  let l := { l with onlineState }
  match l.snapshot with
  | none => some (l, none)
  | some snapshot => if !l.raisedInitialEvent then l.raiseInitialEventIf snapshot onlineState else some (l, none)

end QueryListener

/-! ## What an application keeps -/

/-- The documents that the changes of some events make of a list. -/
def replay (includeMetadataChanges : Bool) : List Document → List (ViewSnapshot q) → Except Failure (List Document)
  | docs, [] => .ok docs
  | docs, event :: events => (event.forEachChange includeMetadataChanges).bind fun documentChanges =>
    replay includeMetadataChanges (documentChanges.foldl DocumentChange.replay docs) events

theorem replay_append (includeMetadataChanges : Bool) (docs : List Document) (events : List (ViewSnapshot q)) (event : ViewSnapshot q) :
    replay includeMetadataChanges docs (events ++ [event]) =
      (replay includeMetadataChanges docs events).bind fun docs =>
        (event.forEachChange includeMetadataChanges).map fun documentChanges => documentChanges.foldl DocumentChange.replay docs := by
  induction events generalizing docs with
  | nil =>
    rw [List.nil_append, replay, replay]
    cases event.forEachChange includeMetadataChanges with
    | error e => rfl
    | ok documentChanges => rfl
  | cons e events ih =>
    rw [List.cons_append, replay, replay]
    cases e.forEachChange includeMetadataChanges with
    | error e => rfl
    | ok documentChanges => exact ih _

/-- The events kept up with: the list they make has the documents. -/
def KeepsUp (includeMetadataChanges : Bool) (events : List (ViewSnapshot q)) (documents : List Document) : Prop :=
  ∃ docs, replay includeMetadataChanges [] events = .ok docs ∧ List.Forall₂ (StandsIn includeMetadataChanges) docs documents

/-! ## Sound snapshots -/

open ViewSnapshot

theorem ViewSnapshot.Sound.seen {s : ViewSnapshot q} (h : s.Sound) (hall : s.excludesMetadataChanges = false) (options : ListenOptions) :
    (QueryListener.seen options s).Sound := by
  unfold QueryListener.seen
  split
  · exact h
  · obtain ⟨changes, htells, hsorted, hchanges⟩ := h
    rw [hall, if_neg Bool.false_ne_true] at hchanges
    have htold : (fun change : DocumentViewChange => decide (change.type ≠ .metadata)) = told false := rfl
    exact ⟨changes, htells, hsorted, by rw [hchanges, htold, if_pos rfl]⟩

/-- All documents told of as new. -/
theorem fromInitialDocuments_sound (documents : DocumentSet q.documentComparator) (mutatedKeys : DocumentKeySet)
    (fromCache excludesMetadataChanges hasCachedResults : Bool) :
    (fromInitialDocuments documents mutatedKeys fromCache excludesMetadataChanges hasCachedResults).Sound := by
  have hkeys : (documents.toList.map fun d => d.key).Nodup :=
    List.pairwise_map.2 (documents.nodup.imp_of_mem fun ha hb hne hk => hne (DocumentSet.eq_of_key ha hb hk))
  have hdistinct : ((documents.toList.map fun doc => (⟨doc, .added⟩ : DocumentViewChange)).map fun c => c.document.key).Nodup := by
    simpa [List.map_map, Function.comp_def] using hkeys
  refine ⟨documents.toList.map fun doc => ⟨doc, .added⟩, ⟨hdistinct, fun key => ?_⟩, ?_, ?_⟩
  · have hnone : (DocumentSet.empty : DocumentSet q.documentComparator).getDocument key = none :=
      DocumentSet.getDocument_eq_none.2 (by simp [DocumentSet.toList_empty])
    change Difference ((DocumentSet.empty : DocumentSet q.documentComparator).getDocument key) (documents.getDocument key) _
    rw [hnone]
    cases hd : documents.getDocument key with
    | none =>
      have habsent : ((documents.toList.map fun doc => (⟨doc, .added⟩ : DocumentViewChange)).find? fun c => c.document.key = key) = none := by
        simpa using DocumentSet.getDocument_eq_none.1 hd
      rw [habsent]
      rfl
    | some d =>
      obtain ⟨hmem, hkey⟩ := DocumentSet.getDocument_eq_some.1 hd
      rw [(find?_key hdistinct).2 ⟨List.mem_map.2 ⟨d, hmem, rfl⟩, hkey⟩]
      exact ⟨rfl, d, rfl, .inl rfl⟩
  · refine List.pairwise_map.2 (documents.sorted.imp fun {a b} hlt => ?_)
    have hlt : q.comparator a b = .lt := hlt
    simp [View.changeBefore, hlt]
  · have hall : (documents.toList.map fun doc => (⟨doc, .added⟩ : DocumentViewChange)).filter (told false) =
        documents.toList.map fun doc => ⟨doc, .added⟩ := List.filter_eq_self.2 (by simp [told])
    rw [hall, ite_self]
    rfl

/-! ## Events -/

/-- A sound event after events that were kept up with. -/
theorem KeepsUp.append (hq : q.Plain) {includeMetadataChanges : Bool} {events : List (ViewSnapshot q)} {event : ViewSnapshot q}
    (h : KeepsUp includeMetadataChanges events event.oldDocuments.toList) (hs : event.Sound)
    (hinclude : includeMetadataChanges = true → event.excludesMetadataChanges = false) :
    KeepsUp includeMetadataChanges (events ++ [event]) event.documents.toList := by
  obtain ⟨docs, hdocs, hpairs⟩ := h
  obtain ⟨documentChanges, hchanges, hnew⟩ := hs.forEachChange hq hinclude
  refine ⟨documentChanges.foldl DocumentChange.replay docs, ?_, ?_⟩
  · rw [replay_append, hdocs, hchanges]
    rfl
  · exact Ranks.forall₂_trans (DocumentChange.forall₂_replay (.refl _) hpairs documentChanges) hnew fun _ _ _ => StandsIn.trans

/-- A snapshot without changes leaves the documents, for what they stand. -/
theorem KeepsUp.unchanged (hq : q.Plain) {includeMetadataChanges : Bool} {events : List (ViewSnapshot q)} {s : ViewSnapshot q}
    (h : KeepsUp includeMetadataChanges events s.oldDocuments.toList) (hs : s.Sound)
    (hinclude : includeMetadataChanges = true → s.excludesMetadataChanges = false) (hnone : s.documentChanges = []) :
    KeepsUp includeMetadataChanges events s.documents.toList := by
  obtain ⟨docs, hdocs, hpairs⟩ := h
  obtain ⟨documentChanges, hchanges, hnew⟩ := hs.forEachChange hq hinclude
  have hnil : documentChanges = [] := by
    unfold forEachChange at hchanges
    rw [hnone] at hchanges
    split at hchanges
    · cases hchanges
    · split at hchanges <;> exact (Except.ok.inj hchanges).symm
  rw [hnil] at hnew
  exact ⟨docs, hdocs, Ranks.forall₂_trans hpairs hnew fun _ _ _ => StandsIn.trans⟩

namespace QueryListener

/-- A first event that has to wait: for the server, or for something to tell. -/
def waits (l : QueryListener q) (s : ViewSnapshot q) (onlineState : OnlineState) : Bool :=
  s.fromCache && onlineState ≠ .offline && (l.options.waitForSyncWhenOnline || s.documents.size = 0 && !s.hasCachedResults)

theorem shouldRaiseInitialEvent_eq {l : QueryListener q} (h : l.raisedInitialEvent = false) (s : ViewSnapshot q)
    (onlineState : OnlineState) : l.shouldRaiseInitialEvent s onlineState = some !l.waits s onlineState := by
  unfold shouldRaiseInitialEvent waits
  rw [h]
  cases s.fromCache <;> cases l.options.waitForSyncWhenOnline <;> cases s.hasCachedResults <;> cases onlineState <;> simp

/-- What a listener has told by its events: nothing before the first one, and
since then the documents, to whoever reads as much of the events as they have. -/
structure Told (l : QueryListener q) (events : List (ViewSnapshot q)) (documents : List Document) : Prop where
  fresh : l.raisedInitialEvent = false ↔ events = []
  keepsUp : l.raisedInitialEvent = true → ∀ includeMetadataChanges,
    (includeMetadataChanges = true → l.options.includeDocumentMetadataChanges = true) → KeepsUp includeMetadataChanges events documents

/-- A first event tells all documents, once there is no reason to wait. -/
structure First (l : QueryListener q) (s : ViewSnapshot q) (onlineState : OnlineState) (event : ViewSnapshot q) : Prop where
  documents : event.documents = s.documents
  mutatedKeys : event.mutatedKeys = s.mutatedKeys
  fromCache : event.fromCache = s.fromCache
  waits : l.waits s onlineState = false

theorem seen_excludes {options : ListenOptions} {s : ViewSnapshot q} (hall : s.excludesMetadataChanges = false)
    {includeMetadataChanges : Bool} (h : includeMetadataChanges = true → options.includeDocumentMetadataChanges = true)
    (hinclude : includeMetadataChanges = true) : (seen options s).excludesMetadataChanges = false := by
  rw [seen, if_pos (h hinclude), hall]

@[simp] theorem seen_documents {options : ListenOptions} {s : ViewSnapshot q} : (seen options s).documents = s.documents := by
  unfold seen
  split <;> rfl

@[simp] theorem seen_oldDocuments {options : ListenOptions} {s : ViewSnapshot q} : (seen options s).oldDocuments = s.oldDocuments := by
  unfold seen
  split <;> rfl

@[simp] theorem seen_mutatedKeys {options : ListenOptions} {s : ViewSnapshot q} : (seen options s).mutatedKeys = s.mutatedKeys := by
  unfold seen
  split <;> rfl

@[simp] theorem seen_fromCache {options : ListenOptions} {s : ViewSnapshot q} : (seen options s).fromCache = s.fromCache := by
  unfold seen
  split <;> rfl

@[simp] theorem waits_seen {l : QueryListener q} {options : ListenOptions} {s : ViewSnapshot q} {onlineState : OnlineState} :
    l.waits (seen options s) onlineState = l.waits s onlineState := by
  unfold seen
  split <;> rfl

/-- A listener before its first event, shown a snapshot. -/
theorem raiseInitialEventIf_spec (hq : q.Plain) {l : QueryListener q} (h : l.raisedInitialEvent = false) {s : ViewSnapshot q}
    (hall : s.excludesMetadataChanges = false) (onlineState : OnlineState) :
    ∃ l' event, l.raiseInitialEventIf (seen l.options s) onlineState = some (l', event) ∧ l'.options = l.options ∧
      l'.onlineState = l.onlineState ∧ l'.snapshot = l.snapshot ∧ l'.Told event.toList s.documents.toList ∧
      (l'.raisedInitialEvent = false → l.waits s onlineState = true) ∧ ∀ e ∈ event, l.First s onlineState e := by
  unfold raiseInitialEventIf
  rw [shouldRaiseInitialEvent_eq h, waits_seen]
  cases hw : l.waits s onlineState with
  | true => exact ⟨l, none, rfl, rfl, rfl, rfl, ⟨iff_of_true h rfl, fun hr => by simp [h] at hr⟩, fun _ => rfl, by simp⟩
  | false =>
    let event : ViewSnapshot q := .fromInitialDocuments s.documents s.mutatedKeys s.fromCache (seen l.options s).excludesMetadataChanges
      (seen l.options s).hasCachedResults
    have hstart (b : Bool) : KeepsUp b ([] : List (ViewSnapshot q)) event.oldDocuments.toList := ⟨[], rfl, .nil⟩
    refine ⟨{ l with raisedInitialEvent := true }, some event, by simp [raiseInitialEvent, h, event], rfl, rfl, rfl,
      ⟨iff_of_false (by simp) (by simp), fun _ b hb => ?_⟩, fun hr => (by cases hr), ?_⟩
    · exact (hstart b).append hq (fromInitialDocuments_sound ..) (seen_excludes hall hb)
    · intro e he
      obtain rfl := Option.some.inj he
      exact ⟨rfl, rfl, rfl, hw⟩

theorem onViewSnapshot_spec (hq : q.Plain) {l : QueryListener q} {events : List (ViewSnapshot q)} {s : ViewSnapshot q} (hs : s.Sound)
    (hall : s.excludesMetadataChanges = false) (hne : s.documentChanges ≠ [] ∨ s.syncStateChanged = true)
    (h : l.Told events s.oldDocuments.toList) :
    ∃ l' event, l.onViewSnapshot s = some (l', event) ∧ l'.options = l.options ∧ l'.onlineState = l.onlineState ∧
      l'.snapshot = some (seen l.options s) ∧ l'.Told (events ++ event.toList) s.documents.toList ∧
      (l'.raisedInitialEvent = false → l.waits s l.onlineState = true) ∧
      (l.raisedInitialEvent = false → ∀ e ∈ event, l.First s l.onlineState e) := by
  unfold onViewSnapshot
  have hgo : ¬(s.documentChanges.isEmpty && !s.syncStateChanged) = true := by
    rcases hne with hne | hne <;> simp [hne]
  rw [if_neg hgo]
  cases hr : l.raisedInitialEvent with
  | false =>
    obtain ⟨l', event, hraise, hoptions, honline, -, htold, hwaits, hfirst⟩ := raiseInitialEventIf_spec hq hr hall l.onlineState
    refine ⟨{ l' with snapshot := some (seen l.options s) }, event, ?_, hoptions, honline, rfl, ?_, hwaits, fun _ => hfirst⟩
    · simp [hraise]
    · rw [h.fresh.1 hr, List.nil_append]
      exact ⟨htold.fresh, htold.keepsUp⟩
  | true =>
    have hmore (event : Option (ViewSnapshot q)) : l.raisedInitialEvent = false ↔ events ++ event.toList = [] := by
      have hevents : events ≠ [] := fun he => by simp [h.fresh.2 he] at hr
      simp [hr, hevents]
    have hold {b : Bool} (hb : b = true → l.options.includeDocumentMetadataChanges = true) :
        KeepsUp b events (seen l.options s).oldDocuments.toList := by
      rw [seen_oldDocuments]
      exact h.keepsUp hr b hb
    by_cases hraise : l.shouldRaiseEvent (seen l.options s) = true
    · refine ⟨{ l with snapshot := some (seen l.options s) }, some (seen l.options s), by simp [hraise], rfl, rfl, rfl,
        ⟨hmore _, fun _ b hb => ?_⟩, fun hf => by simp [hr] at hf, fun hf => by cases hf⟩
      have hnew := (hold hb).append hq (hs.seen hall l.options) (seen_excludes hall hb)
      rwa [seen_documents] at hnew
    · have hnone : (seen l.options s).documentChanges = [] := by
        by_contra hc
        exact hraise (by rw [shouldRaiseEvent, if_pos hc])
      refine ⟨{ l with snapshot := some (seen l.options s) }, none, by simp [hraise], rfl, rfl, rfl,
        ⟨hmore _, fun _ b hb => ?_⟩, fun hf => by simp [hr] at hf, fun hf => by cases hf⟩
      have hnew := (hold hb).unchanged hq (hs.seen hall l.options) (seen_excludes hall hb) hnone
      rwa [seen_documents, ← List.append_nil events] at hnew

theorem onOnlineStateChanged_spec (hq : q.Plain) {l : QueryListener q} {events : List (ViewSnapshot q)} {s : ViewSnapshot q}
    (hall : s.excludesMetadataChanges = false) (hsnapshot : l.snapshot = some (seen l.options s)) (h : l.Told events s.documents.toList)
    (onlineState : OnlineState) :
    ∃ l' event, l.onOnlineStateChanged onlineState = some (l', event) ∧ l'.options = l.options ∧ l'.onlineState = onlineState ∧
      l'.snapshot = some (seen l.options s) ∧ l'.Told (events ++ event.toList) s.documents.toList ∧
      (l'.raisedInitialEvent = false → l.waits s onlineState = true) ∧
      (l.raisedInitialEvent = false → ∀ e ∈ event, l.First s onlineState e) ∧ (l.raisedInitialEvent = true → event = none) := by
  unfold onOnlineStateChanged
  rw [hsnapshot]
  cases hr : l.raisedInitialEvent with
  | false =>
    obtain ⟨l', event, hraise, hoptions, honline, hsn, htold, hwaits, hfirst⟩ :=
      raiseInitialEventIf_spec hq (l := { l with onlineState }) hr hall onlineState
    refine ⟨l', event, by simpa [hr, hsnapshot] using hraise, hoptions, honline, hsn.trans hsnapshot, ?_, hwaits, fun _ e he => ?_, fun hf => by cases hf⟩
    · rw [h.fresh.1 hr, List.nil_append]
      exact htold
    · exact ⟨(hfirst e he).documents, (hfirst e he).mutatedKeys, (hfirst e he).fromCache, (hfirst e he).waits⟩
  | true =>
    exact ⟨{ l with onlineState }, none, by simp [hr, hsnapshot], rfl, rfl, hsnapshot, by simpa using ⟨h.fresh, h.keepsUp⟩,
      fun hf => by simp [hr] at hf, fun hf => (by cases hf), fun _ => rfl⟩

end QueryListener

end Client
