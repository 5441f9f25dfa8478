/-
A client and the listeners of one query (`core/event_manager.cc`, with the sync
engine below it): listeners come and go at any time, the query is listened to
while there is one, and what the view tells goes to all that are there. Whenever
a listener has raised its first event, whoever makes the changes of its events
holds what the query finds; one that has not is waiting for a reason.
-/
import Sdapk.Listening
import Sdapk.QueryListener

namespace Client

variable {q : Query}

/-- A listener that was added, with the events it has raised since. -/
structure Registered (q : Query) where
  id : Nat
  listener : QueryListener q
  events : List (ViewSnapshot q)

namespace Registered

def onViewSnapshot (r : Registered q) (snapshot : ViewSnapshot q) : Option (Registered q) :=
  (r.listener.onViewSnapshot snapshot).map fun (listener, event) => { r with listener, events := r.events ++ event.toList }

def onOnlineStateChanged (r : Registered q) (onlineState : OnlineState) : Option (Registered q) :=
  (r.listener.onOnlineStateChanged onlineState).map fun (listener, event) => { r with listener, events := r.events ++ event.toList }

end Registered

structure QueryListenersInfo (q : Query) where
  listeners : List (Registered q)
  viewSnapshot : Option (ViewSnapshot q)

/-- The local store's documents, the query's view while it is listened to, and
what the event manager has of the query. -/
structure EventManager (q : Query) where
  docs : Documents
  view : Option (View q)
  info : Option (QueryListenersInfo q)
  onlineState : OnlineState
  nextId : Nat

/-- What happens to a client. A listener is added with what the local store and
the engine have for its query, should it be the first. -/
inductive Act where
  | add (options : ListenOptions) (remoteKeys : DocumentKeySet) (currentSyncState : SyncState) (resumeToken : List UInt8)
  | remove (id : Nat)
  | rejected (error : String)
  | changed (changes : Documents) (targetChange : Option TargetChange)
  | online (onlineState : OnlineState)

/-- What the server reports in a step. -/
def Act.targetChange : Act → Option TargetChange
  | .changed _ targetChange => targetChange
  | _ => none

namespace EventManager

def create (q : Query) (docs : Documents) : EventManager q := ⟨docs, none, none, .unknown, 0⟩

def onViewSnapshots (m : EventManager q) : Option (ViewSnapshot q) → Option (EventManager q)
  | none => some m
  | some snapshot =>
    match m.info with
    | none => some m
    | some info => (info.listeners.mapM (Registered.onViewSnapshot · snapshot)).map fun listeners =>
      { m with info := some ⟨listeners, some snapshot⟩ }

/-- `SyncEngine::Listen`, of a query that is not listened to. -/
def listen (m : EventManager q) (remoteKeys : DocumentKeySet) (currentSyncState : SyncState) (resumeToken : List UInt8) :
    Option (EventManager q) := do
  if m.view.isSome then none
  else
    let (s, viewChange) ← QueryView.initializeView q m.docs remoteKeys currentSyncState resumeToken
    { m with view := some s.view }.onViewSnapshots viewChange.snapshot

/-- A brand-new listener is asserted to raise nothing when it is told of the connection. -/
def addQueryListener (m : EventManager q) (options : ListenOptions) (remoteKeys : DocumentKeySet) (currentSyncState : SyncState)
    (resumeToken : List UInt8) : Option (EventManager q) := do
  let firstListen := m.info.isNone
  let info := m.info.getD ⟨[], none⟩
  let (listener, raised) ← (QueryListener.create q options).onOnlineStateChanged m.onlineState
  if raised.isSome then none
  else
    let r : Registered q := ⟨m.nextId, listener, []⟩
    let r ← match info.viewSnapshot with
      | some snapshot => r.onViewSnapshot snapshot
      | none => some r
    let m := { m with info := some { info with listeners := info.listeners ++ [r] }, nextId := m.nextId + 1 }
    if firstListen then m.listen remoteKeys currentSyncState resumeToken else some m

/-- `SyncEngine::StopListening`, of a query that is listened to. -/
def stopListening (m : EventManager q) : Option (EventManager q) :=
  if m.view.isSome then some { m with view := none } else none

def removeQueryListener (m : EventManager q) (id : Nat) : Option (EventManager q) :=
  match m.info with
  | none => some m
  | some info =>
    let listeners := info.listeners.eraseP fun r => r.id = id
    if listeners.isEmpty then { m with info := none }.stopListening
    else some { m with info := some { info with listeners } }

/-- `HandleRejectedListen`: the view goes, and with the error the listeners. -/
def onError (m : EventManager q) : EventManager q := if m.view.isSome then { m with view := none, info := none } else m

/-- A step of the sync engine, and its snapshot for the listeners. -/
def engineStep (m : EventManager q) (e : Event) : Option (EventManager q) :=
  match m.view with
  | none => some { m with docs := e.docs m.docs }
  | some view => (QueryView.step ⟨view, m.docs⟩ e).bind fun (s, viewChange) =>
    { m with docs := s.docs, view := some s.view }.onViewSnapshots viewChange.snapshot

def handleOnlineStateChange (m : EventManager q) (onlineState : OnlineState) : Option (EventManager q) :=
  match m.info with
  | none => some { m with onlineState }
  | some info => (info.listeners.mapM (Registered.onOnlineStateChanged · onlineState)).map fun listeners =>
    { m with onlineState, info := some { info with listeners } }

def step (m : EventManager q) : Act → Option (EventManager q)
  | .add options remoteKeys currentSyncState resumeToken => m.addQueryListener options remoteKeys currentSyncState resumeToken
  | .remove id => m.removeQueryListener id
  | .rejected _ => some m.onError
  | .changed changes targetChange => m.engineStep (.changed changes targetChange)
  | .online onlineState => (m.engineStep (.online onlineState)).bind fun m => m.handleOnlineStateChange onlineState

def run (m : EventManager q) (acts : List Act) : Option (EventManager q) := acts.foldlM step m

end EventManager

/-! ## What can be told of a client from outside -/

/-- What the server has reported of a query that is listened to, and whether that is all. -/
structure Remote where
  synced : DocumentKey → Bool
  current : Bool

def Remote.after (w : Remote) (e : Event) : Remote := ⟨syncedAfter w.synced e.targetChange, e.current w.current⟩

/-- The local store, the connection, the listeners that are there with the id
of the next one, and while there are any, what the server has reported. -/
@[ext]
structure Outline where
  docs : Documents
  onlineState : OnlineState
  roster : List (Nat × ListenOptions)
  nextId : Nat
  remote : Option Remote

namespace Outline

/-- The server reports documents of the query as modified only if it has reported them as the query's. -/
def accepts (o : Outline) (a : Act) : Bool := o.remote.all fun w => Reported w.synced a.targetChange

def after (o : Outline) : Act → Outline
  | .add options remoteKeys currentSyncState _ =>
    { o with
      roster := o.roster ++ [(o.nextId, options)]
      nextId := o.nextId + 1
      remote := some (o.remote.getD ⟨remoteKeys.contains, currentSyncState = .synced⟩) }
  | .remove id =>
    let roster := o.roster.eraseP fun r => r.1 = id
    { o with roster, remote := if roster.isEmpty then none else o.remote }
  | .rejected _ => { o with roster := [], remote := none }
  | .changed changes targetChange =>
    { o with docs := o.docs.applied changes, remote := o.remote.map (·.after (.changed changes targetChange)) }
  | .online onlineState => { o with onlineState, remote := o.remote.map (·.after (.online onlineState)) }

/-- Each step of some is accepted. -/
def acceptsAll (o : Outline) : List Act → Bool
  | [] => true
  | a :: acts => o.accepts a && (o.after a).acceptsAll acts

end Outline

namespace EventManager

def listeners (m : EventManager q) : List (Registered q) := m.info.elim [] (·.listeners)

def roster (listeners : List (Registered q)) : List (Nat × ListenOptions) := listeners.map fun r => (r.id, r.listener.options)

def remote (v : View q) : Remote := ⟨v.syncedDocuments.contains, v.current⟩

def outline (m : EventManager q) : Outline := ⟨m.docs, m.onlineState, roster m.listeners, m.nextId, m.view.map remote⟩

end EventManager

/-! ## Snapshots of the view -/

/-- A snapshot that the view is still as it says. -/
structure Current (v : View q) (s : ViewSnapshot q) : Prop where
  sound : s.Sound
  complete : s.excludesMetadataChanges = false
  news : s.documentChanges ≠ [] ∨ s.syncStateChanged = true
  documents : s.documents.toList = v.documentSet.toList
  fromCache : s.fromCache = decide (v.syncState = .localOnly)

theorem Snapshots.current {v v' : View q} {s : ViewSnapshot q} (h : Snapshots v v' s)
    (hne : s.documentChanges ≠ [] ∨ s.syncStateChanged = true) : Current v' s where
  sound := ⟨s.documentChanges, by rw [h.oldDocuments, h.documents]; exact h.tells, h.sorted, by
    rw [h.excludesMetadataChanges, if_neg Bool.false_ne_true]⟩
  complete := h.excludesMetadataChanges
  news := hne
  documents := by rw [h.documents]
  fromCache := h.fromCache

/-! ## Listeners, one by one -/

/-- A listener that has been shown a snapshot. -/
structure Registered.Good (s : ViewSnapshot q) (onlineState : OnlineState) (r : Registered q) : Prop where
  told : r.listener.Told r.events s.documents.toList
  snapshot : r.listener.snapshot = some (QueryListener.seen r.listener.options s)
  waits : r.listener.raisedInitialEvent = false → r.listener.waits s onlineState = true
  onlineState : r.listener.onlineState = onlineState

/-- A listener, and what showing it a snapshot makes of it: its first event is of the snapshot. -/
structure Registered.Opens (s : ViewSnapshot q) (onlineState : OnlineState) (r r' : Registered q) : Prop where
  id : r'.id = r.id
  options : r'.listener.options = r.listener.options
  first : r.events = [] → r'.events = [] ∨ ∃ event, r'.events = [event] ∧ r.listener.First s onlineState event

theorem Registered.onViewSnapshot_spec (hq : q.Plain) {r : Registered q} {s : ViewSnapshot q} {v : View q} (hs : Current v s)
    (h : r.listener.Told r.events s.oldDocuments.toList) :
    ∃ r', r.onViewSnapshot s = some r' ∧ r'.Good s r.listener.onlineState ∧ r.Opens s r.listener.onlineState r' := by
  obtain ⟨l', event, hl', hoptions, honline, hsnapshot, htold, hwaits, hfirst⟩ :=
    QueryListener.onViewSnapshot_spec hq hs.sound hs.complete hs.news h
  refine ⟨⟨r.id, l', r.events ++ event.toList⟩, by rw [onViewSnapshot, hl']; rfl,
    ⟨htold, by rw [hsnapshot, hoptions], fun hr => ?_, honline⟩, ⟨rfl, hoptions, fun hnone => ?_⟩⟩
  · have hw := hwaits hr
    unfold QueryListener.waits at hw ⊢
    rwa [hoptions]
  · dsimp only
    rw [hnone, List.nil_append]
    cases event with
    | none => exact .inl rfl
    | some event => exact .inr ⟨event, rfl, hfirst (h.fresh.2 hnone) event rfl⟩

theorem Registered.onOnlineStateChanged_spec (hq : q.Plain) {r : Registered q} {s : ViewSnapshot q} {v : View q} (hs : Current v s)
    {onlineState : OnlineState} (h : r.Good s onlineState) (onlineState' : OnlineState) :
    ∃ r', r.onOnlineStateChanged onlineState' = some r' ∧ r'.Good s onlineState' ∧ r.Opens s onlineState' r' ∧
      (r.events ≠ [] → r'.events = r.events) := by
  obtain ⟨l', event, hl', hoptions, honline, hsnapshot, htold, hwaits, hfirst, hlater⟩ :=
    QueryListener.onOnlineStateChanged_spec hq hs.complete h.snapshot h.told onlineState'
  refine ⟨⟨r.id, l', r.events ++ event.toList⟩, by rw [onOnlineStateChanged, hl']; rfl,
    ⟨htold, by rw [hsnapshot, hoptions], fun hr => ?_, honline⟩, ⟨rfl, hoptions, fun hnone => ?_⟩, fun hne => ?_⟩
  · have hw := hwaits hr
    unfold QueryListener.waits at hw ⊢
    rwa [hoptions]
  · dsimp only
    rw [hnone, List.nil_append]
    cases event with
    | none => exact .inl rfl
    | some event => exact .inr ⟨event, rfl, hfirst (h.told.fresh.2 hnone) event rfl⟩
  · have hraised : r.listener.raisedInitialEvent = true := by
      cases hr : r.listener.raisedInitialEvent with
      | true => rfl
      | false => exact absurd (h.told.fresh.1 hr) hne
    simp [hlater hraised]

theorem mapM_forall₂ {α β : Type*} {f : α → Option β} {P : α → β → Prop} {l : List α} (h : ∀ a ∈ l, ∃ b, f a = some b ∧ P a b) :
    ∃ l', l.mapM f = some l' ∧ List.Forall₂ P l l' := by
  induction l with
  | nil => exact ⟨[], rfl, .nil⟩
  | cons a l ih =>
    obtain ⟨b, hb, hab⟩ := h a List.mem_cons_self
    obtain ⟨l', hl', hpairs⟩ := ih fun a ha => h a (List.mem_cons_of_mem _ ha)
    exact ⟨b :: l', by rw [List.mapM_cons, hb, hl']; rfl, .cons hab hpairs⟩

theorem mem_of_forall₂ {α β : Type*} {P : α → β → Prop} {l : List α} {l' : List β} (h : List.Forall₂ P l l') {b : β} (hb : b ∈ l') :
    ∃ a ∈ l, P a b := by
  induction h with
  | nil => cases hb
  | cons hab _ ih =>
    rcases List.mem_cons.1 hb with rfl | hb
    · exact ⟨_, List.mem_cons_self, hab⟩
    · obtain ⟨a, ha, hab⟩ := ih hb
      exact ⟨a, List.mem_cons_of_mem _ ha, hab⟩

/-! ## Steps -/

namespace EventManager

/-- What holds of the listeners of a query that is listened to. -/
structure Listened (m : EventManager q) (info : QueryListenersInfo q) (v : View q) (s : ViewSnapshot q) : Prop where
  listeners : info.listeners ≠ []
  view : m.view = some v
  snapshot : info.viewSnapshot = some s
  inv : QueryView.Inv ⟨v, m.docs⟩
  current : Current v s
  good : ∀ r ∈ info.listeners, r.Good s m.onlineState

/-- What holds of a client between steps. -/
structure Inv (m : EventManager q) : Prop where
  idle : m.info = none → m.view = none
  listened : ∀ info, m.info = some info → ∃ v s, m.Listened info v s

/-- A listener whose first event is of the view as it is after a step, and from
the cache only if the listener does not wait or the client is offline. -/
def FirstOf (m m' : EventManager q) (r' : Registered q) : Prop :=
  ∃ event v, r'.events = [event] ∧ m'.view = some v ∧ event.documents.toList = v.documentSet.toList ∧
    event.fromCache = decide (v.syncState = .localOnly) ∧
    (r'.listener.options.waitForSyncWhenOnline = true → event.fromCache = true → m.onlineState = .offline ∨ m'.onlineState = .offline)

/-- After a step a listener has no events, or had some before, or has its first one. -/
def Firsts (m m' : EventManager q) : Prop :=
  ∀ r' ∈ m'.listeners, r'.events = [] ∨ (∃ r ∈ m.listeners, r.id = r'.id ∧ r.events ≠ []) ∨ FirstOf m m' r'

/-- The manager has the listeners it had, or fewer. -/
theorem Firsts.of_subset {m m' : EventManager q} (h : ∀ r ∈ m'.listeners, r ∈ m.listeners) : Firsts m m' := by
  intro r hr
  by_cases hevents : r.events = []
  · exact .inl hevents
  · exact .inr (.inl ⟨r, h r hr, rfl, hevents⟩)

/-- A listener shown a snapshot of the view, or told of the connection after it. -/
theorem FirstOf.of_opens {m m' : EventManager q} {v : View q} {s : ViewSnapshot q} {onlineState : OnlineState} {r r' : Registered q}
    (hv : m'.view = some v) (hs : Current v s) (honline : onlineState = m.onlineState ∨ onlineState = m'.onlineState)
    (h : r.Opens s onlineState r') (hevents : r.events = []) : r'.events = [] ∨ FirstOf m m' r' := by
  refine (h.first hevents).imp id ?_
  rintro ⟨event, hevent, hfirst⟩
  refine ⟨event, v, hevent, hv, by rw [hfirst.documents, hs.documents], hfirst.fromCache.trans hs.fromCache, fun hwait hcache => ?_⟩
  have hwaits := hfirst.waits
  rw [hfirst.fromCache] at hcache
  rw [h.options] at hwait
  have hoff : onlineState = .offline := by simpa [QueryListener.waits, hcache, hwait] using hwaits
  rcases honline with rfl | rfl
  · exact .inl hoff
  · exact .inr hoff

theorem Firsts.of_opens {m m' : EventManager q} {v : View q} {s : ViewSnapshot q} {onlineState : OnlineState} (hv : m'.view = some v)
    (hs : Current v s) (honline : onlineState = m.onlineState ∨ onlineState = m'.onlineState)
    (h : List.Forall₂ (Registered.Opens s onlineState) m.listeners m'.listeners) : Firsts m m' := by
  intro r' hr'
  obtain ⟨r, hr, hopens⟩ := mem_of_forall₂ h hr'
  by_cases hevents : r.events = []
  · exact (FirstOf.of_opens hv hs honline hopens hevents).imp id .inr
  · exact .inr (.inl ⟨r, hr, hopens.id.symm, hevents⟩)

theorem roster_of_opens {s : ViewSnapshot q} {onlineState : OnlineState} {l l' : List (Registered q)}
    (h : List.Forall₂ (Registered.Opens s onlineState) l l') : roster l' = roster l := by
  induction h with
  | nil => rfl
  | cons h _ ih =>
    unfold roster at ih ⊢
    rw [List.map_cons, List.map_cons, h.id, h.options, ih]

theorem onViewSnapshots_spec (hq : q.Plain) {m : EventManager q} {info : QueryListenersInfo q} {v : View q} {s : ViewSnapshot q}
    (hinfo : m.info = some info) (hne : info.listeners ≠ []) (hv : m.view = some v) (hinv : QueryView.Inv ⟨v, m.docs⟩)
    (hcurrent : Current v s)
    (htold : ∀ r ∈ info.listeners, r.listener.Told r.events s.oldDocuments.toList ∧ r.listener.onlineState = m.onlineState) :
    ∃ listeners, m.onViewSnapshots (some s) = some { m with info := some ⟨listeners, some s⟩ } ∧
      Listened { m with info := some ⟨listeners, some s⟩ } ⟨listeners, some s⟩ v s ∧
      List.Forall₂ (Registered.Opens s m.onlineState) info.listeners listeners := by
  obtain ⟨listeners, hlisteners, hpairs⟩ := mapM_forall₂ (f := (Registered.onViewSnapshot · s))
    (P := fun r r' => r'.Good s m.onlineState ∧ r.Opens s m.onlineState r') fun r hr => by
      obtain ⟨r', hr', hgood, hopens⟩ := Registered.onViewSnapshot_spec hq hcurrent (htold r hr).1
      rw [(htold r hr).2] at hgood hopens
      exact ⟨r', hr', hgood, hopens⟩
  refine ⟨listeners, by simp only [onViewSnapshots, hinfo, hlisteners, Option.map_some], ⟨?_, hv, rfl, hinv, hcurrent, fun r' hr' => ?_⟩,
    hpairs.imp fun _ _ h => h.2⟩
  · rintro rfl
    exact hne (List.forall₂_nil_right_iff.1 hpairs)
  · obtain ⟨r, -, hgood, -⟩ := mem_of_forall₂ hpairs hr'
    exact hgood

theorem Listened.keeps {m : EventManager q} {info : QueryListenersInfo q} {v : View q} {s : ViewSnapshot q} (hinfo : m.info = some info)
    (h : m.Listened info v s) : m.Inv where
  idle hnone := by rw [hinfo] at hnone; cases hnone
  listened i hi := by
    obtain rfl : info = i := Option.some.inj (hinfo.symm.trans hi)
    exact ⟨v, s, h⟩

theorem listeners_eq {m : EventManager q} {info : QueryListenersInfo q} (hinfo : m.info = some info) : m.listeners = info.listeners := by
  rw [listeners, hinfo]
  rfl

theorem listeners_eq_nil {m : EventManager q} (hinfo : m.info = none) : m.listeners = [] := by
  rw [listeners, hinfo]
  rfl

/-- What a step makes of a client. -/
structure Follows (m : EventManager q) (o : Outline) (m' : EventManager q) : Prop where
  inv : m'.Inv
  outline : m'.outline = o
  firsts : Firsts m m'

theorem engineStep_spec (hq : q.Plain) (hlim : q.LimitInRange) {m : EventManager q} (h : m.Inv) (e : Event) :
    if m.outline.remote.all fun w => Reported w.synced e.targetChange then
      ∃ m', m.engineStep e = some m' ∧ m.Follows { m.outline with docs := e.docs m.docs, remote := m.outline.remote.map (·.after e) } m'
    else m.engineStep e = none := by
  cases hinfo : m.info with
  | none =>
    have hview := h.idle hinfo
    have hremote : m.outline.remote = none := by rw [outline, hview]; rfl
    rw [hremote, Option.all_none, if_pos rfl]
    refine ⟨{ m with docs := e.docs m.docs }, by rw [engineStep, hview], ⟨fun _ => hview, fun info hi => ?_⟩, ?_, .of_subset fun _ hr => hr⟩
    · rw [hinfo] at hi
      cases hi
    · exact Outline.ext rfl rfl rfl rfl hremote
  | some info =>
    obtain ⟨v, s, hl⟩ := h.listened info hinfo
    have hremote : m.outline.remote = some (remote v) := by rw [outline, hl.view]; rfl
    have hstep := QueryView.step_spec hq hlim hl.inv e
    rw [hremote, Option.all_some]
    change if Reported v.syncedDocuments.contains e.targetChange = true then _ else _
    split at hstep
    · next hreported =>
      obtain ⟨⟨v', docs⟩, viewChange, hstep, hinv, hdocs, hsynced, hcur, hexplains⟩ := hstep
      obtain rfl : docs = e.docs m.docs := hdocs
      have hremote' : some (remote v') = some ((remote v).after e) := by
        rw [remote, funext hsynced, hcur]
        rfl
      rw [if_pos hreported]
      have hengine : m.engineStep e =
          ({ m with docs := e.docs m.docs, view := some v' } : EventManager q).onViewSnapshots viewChange.snapshot := by
        simp only [engineStep, hl.view, hstep, Option.bind_some]
      rw [hengine]
      cases hsnapshot : viewChange.snapshot with
      | none =>
        obtain ⟨hsame, hstate⟩ := hexplains.none hsnapshot
        have hcurrent : Current v' s := ⟨hl.current.sound, hl.current.complete, hl.current.news, hl.current.documents.trans hsame.symm, by
          rw [hl.current.fromCache, hstate]⟩
        have hlistened : Listened { m with docs := e.docs m.docs, view := some v' } info v' s :=
          ⟨hl.listeners, rfl, hl.snapshot, hinv, hcurrent, hl.good⟩
        exact ⟨_, rfl, hlistened.keeps hinfo, Outline.ext rfl rfl rfl rfl hremote', .of_subset fun _ hr => hr⟩
      | some s' =>
        obtain ⟨hsn, hnews⟩ := hexplains.some s' hsnapshot
        have hcurrent := hsn.current hnews
        have hold : s'.oldDocuments.toList = s.documents.toList := by rw [hsn.oldDocuments, hl.current.documents]
        obtain ⟨listeners, hshow, hlistened, hopens⟩ := onViewSnapshots_spec hq
          (m := { m with docs := e.docs m.docs, view := some v' }) hinfo hl.listeners rfl hinv hcurrent fun r hr =>
            ⟨hold ▸ (hl.good r hr).told, (hl.good r hr).onlineState⟩
        rw [← listeners_eq hinfo] at hopens
        exact ⟨_, hshow, hlistened.keeps rfl, Outline.ext rfl rfl (roster_of_opens hopens) rfl hremote',
          .of_opens rfl hcurrent (.inl rfl) hopens⟩
    · next hreported =>
      rw [if_neg hreported, engineStep, hl.view]
      simp only [hstep, Option.bind_none]

theorem handleOnlineStateChange_spec (hq : q.Plain) {m : EventManager q} (h : m.Inv) (onlineState : OnlineState) :
    ∃ m', m.handleOnlineStateChange onlineState = some m' ∧ m'.Inv ∧ m'.outline = { m.outline with onlineState } ∧ m'.view = m.view ∧
      ∀ r' ∈ m'.listeners, ∃ r ∈ m.listeners, r.id = r'.id ∧ r.listener.options = r'.listener.options ∧
        (r.events ≠ [] → r'.events = r.events) ∧ (r.events = [] → r'.events = [] ∨ FirstOf m m' r') := by
  cases hinfo : m.info with
  | none =>
    refine ⟨{ m with onlineState }, by rw [handleOnlineStateChange, hinfo], ⟨fun _ => h.idle hinfo, fun i hi => ?_⟩, rfl, rfl,
      fun r hr => ?_⟩
    · rw [hinfo] at hi
      cases hi
    · change r ∈ m.listeners at hr
      rw [listeners_eq_nil hinfo] at hr
      cases hr
  | some info =>
    obtain ⟨v, s, hl⟩ := h.listened info hinfo
    obtain ⟨listeners, hlisteners, hpairs⟩ := mapM_forall₂ (f := (Registered.onOnlineStateChanged · onlineState))
      (P := fun r r' => r'.Good s onlineState ∧ r.Opens s onlineState r' ∧ (r.events ≠ [] → r'.events = r.events)) fun r hr =>
        Registered.onOnlineStateChanged_spec hq hl.current (hl.good r hr) onlineState
    let m' : EventManager q := { m with onlineState, info := some { info with listeners } }
    have hlistened : Listened m' { info with listeners } v s :=
      ⟨fun hnil => hl.listeners (by
          dsimp only at hnil
          rw [hnil] at hpairs
          exact List.forall₂_nil_right_iff.1 hpairs), hl.view, hl.snapshot, hl.inv, hl.current, fun r' hr' => by
        obtain ⟨r, -, hgood, -⟩ := mem_of_forall₂ hpairs hr'
        exact hgood⟩
    have hroster : roster m'.listeners = roster m.listeners := by
      rw [listeners_eq hinfo]
      exact roster_of_opens (hpairs.imp fun _ _ h => h.2.1)
    refine ⟨m', by simp only [handleOnlineStateChange, hinfo, hlisteners, Option.map_some, m'], hlistened.keeps rfl,
      Outline.ext rfl rfl hroster rfl rfl, rfl, fun r' hr' => ?_⟩
    obtain ⟨r, hr, -, hopens, hlater⟩ := mem_of_forall₂ hpairs hr'
    rw [listeners_eq hinfo]
    exact ⟨r, hr, hopens.id.symm, hopens.options.symm, hlater, FirstOf.of_opens hl.view hl.current (.inr rfl) hopens⟩

/-- A listener as it is added, which has been told of the connection. -/
def newListener (m : EventManager q) (options : ListenOptions) : Registered q :=
  ⟨m.nextId, { QueryListener.create q options with onlineState := m.onlineState }, []⟩

theorem told_newListener (m : EventManager q) (options : ListenOptions) (documents : List Document) :
    (m.newListener options).listener.Told (m.newListener options).events documents :=
  ⟨iff_of_true rfl rfl, fun hr => by cases hr⟩

/-- The first event of a new listener is of what it is shown, if anything. -/
theorem FirstOf.of_newListener {m m' : EventManager q} {options : ListenOptions} {v : View q} {s : ViewSnapshot q} {r : Registered q}
    (hv : m'.view = some v) (hs : Current v s) (h : (m.newListener options).Opens s m.onlineState r) : r.events = [] ∨ FirstOf m m' r :=
  FirstOf.of_opens hv hs (.inl rfl) h rfl

/-- The first listener, with which the query begins to be listened to. -/
theorem addQueryListener_first (hq : q.Plain) (hlim : q.LimitInRange) {m : EventManager q} (h : m.Inv) (hinfo : m.info = none)
    (options : ListenOptions) (remoteKeys : DocumentKeySet) (currentSyncState : SyncState) (resumeToken : List UInt8) :
    ∃ m', m.addQueryListener options remoteKeys currentSyncState resumeToken = some m' ∧
      m.Follows (m.outline.after (.add options remoteKeys currentSyncState resumeToken)) m' := by
  have hview := h.idle hinfo
  obtain ⟨⟨v, docs⟩, viewChange, hinit, hinv, hdocs, hsynced, hcur, hsome, hexplains⟩ :=
    QueryView.initializeView_spec hq hlim m.docs remoteKeys currentSyncState resumeToken
  obtain rfl : docs = m.docs := hdocs
  obtain ⟨s, hs⟩ := Option.isSome_iff_exists.1 hsome
  obtain ⟨hsn, hnews⟩ := hexplains.some s hs
  let m₁ : EventManager q := { m with view := some v, info := some ⟨[m.newListener options], none⟩, nextId := m.nextId + 1 }
  obtain ⟨listeners, hshow, hlistened, hopens⟩ := onViewSnapshots_spec hq (m := m₁) rfl (List.cons_ne_nil _ _) rfl hinv
    (hsn.current hnews) fun r' hr' => by
      obtain rfl := List.mem_singleton.1 hr'
      exact ⟨told_newListener m options _, rfl⟩
  refine ⟨_, ?_, hlistened.keeps rfl, Outline.ext rfl rfl ?_ rfl ?_, fun r' hr' => ?_⟩
  · rw [← hshow, ← hs]
    simp only [addQueryListener, hinfo, Option.isNone_none, Option.getD_none, List.nil_append, QueryListener.onOnlineStateChanged,
      QueryListener.create, Option.bind_eq_bind, Option.bind_some, Option.isSome_none, listen, hview, hinit]
    rfl
  · change roster listeners = roster m.listeners ++ _
    rw [listeners_eq_nil hinfo, roster_of_opens hopens]
    rfl
  · change some (remote v) = some ((m.view.map _).getD _)
    rw [hview, remote, funext hsynced, hcur]
    rfl
  · obtain ⟨r, hr, hopens⟩ := mem_of_forall₂ hopens hr'
    obtain rfl := List.mem_singleton.1 hr
    exact (FirstOf.of_newListener rfl (hsn.current hnews) hopens).imp id .inr

/-- A later one is shown the last snapshot. -/
theorem addQueryListener_later (hq : q.Plain) {m : EventManager q} {info : QueryListenersInfo q} (h : m.Inv) (hinfo : m.info = some info)
    (options : ListenOptions) (remoteKeys : DocumentKeySet) (currentSyncState : SyncState) (resumeToken : List UInt8) :
    ∃ m', m.addQueryListener options remoteKeys currentSyncState resumeToken = some m' ∧
      m.Follows (m.outline.after (.add options remoteKeys currentSyncState resumeToken)) m' := by
  obtain ⟨v, s, hl⟩ := h.listened info hinfo
  obtain ⟨r, hr, hgood, hopens⟩ := Registered.onViewSnapshot_spec hq hl.current (told_newListener m options _)
  have hlistened : Listened { m with info := some { info with listeners := info.listeners ++ [r] }, nextId := m.nextId + 1 }
      { info with listeners := info.listeners ++ [r] } v s :=
    ⟨by simp, hl.view, hl.snapshot, hl.inv, hl.current, fun r' hr' => by
      rcases List.mem_append.1 hr' with hr' | hr'
      · exact hl.good r' hr'
      · obtain rfl := List.mem_singleton.1 hr'
        exact hgood⟩
  refine ⟨_, ?_, hlistened.keeps rfl, Outline.ext rfl rfl ?_ rfl ?_, fun r' hr' => ?_⟩
  · simp only [addQueryListener, hinfo, Option.isNone_some, Option.getD_some, QueryListener.onOnlineStateChanged,
      QueryListener.create, Option.bind_eq_bind, Option.bind_some, Option.isSome_none, hl.snapshot]
    change ((m.newListener options).onViewSnapshot s).bind _ = _
    rw [hr]
    rfl
  · change roster (info.listeners ++ [r]) = roster m.listeners ++ [(m.nextId, options)]
    rw [listeners_eq hinfo, roster, List.map_append, List.map_singleton, hopens.id, hopens.options]
    rfl
  · change m.view.map _ = some ((m.view.map _).getD _)
    rw [hl.view]
    rfl
  · rcases List.mem_append.1 hr' with hr' | hr'
    · by_cases hevents : r'.events = []
      · exact .inl hevents
      · exact .inr (.inl ⟨r', listeners_eq hinfo ▸ hr', rfl, hevents⟩)
    · obtain rfl := List.mem_singleton.1 hr'
      exact (FirstOf.of_newListener hl.view hl.current hopens).imp id .inr

theorem addQueryListener_spec (hq : q.Plain) (hlim : q.LimitInRange) {m : EventManager q} (h : m.Inv) (options : ListenOptions)
    (remoteKeys : DocumentKeySet) (currentSyncState : SyncState) (resumeToken : List UInt8) :
    ∃ m', m.addQueryListener options remoteKeys currentSyncState resumeToken = some m' ∧
      m.Follows (m.outline.after (.add options remoteKeys currentSyncState resumeToken)) m' := by
  cases hinfo : m.info with
  | none => exact addQueryListener_first hq hlim h hinfo options remoteKeys currentSyncState resumeToken
  | some info => exact addQueryListener_later hq h hinfo options remoteKeys currentSyncState resumeToken

theorem removeQueryListener_spec {m : EventManager q} (h : m.Inv) (id : Nat) :
    ∃ m', m.removeQueryListener id = some m' ∧ m.Follows (m.outline.after (.remove id)) m' := by
  have hroster (l : List (Registered q)) : roster (l.eraseP fun r => r.id = id) = (roster l).eraseP fun r => r.1 = id := by
    rw [roster, roster, List.eraseP_map]
    rfl
  unfold removeQueryListener
  cases hinfo : m.info with
  | none =>
    refine ⟨m, rfl, h, Outline.ext rfl rfl ?_ rfl ?_, .of_subset fun _ hr => hr⟩
    · change roster m.listeners = (roster m.listeners).eraseP _
      rw [listeners_eq_nil hinfo]
      rfl
    · change m.view.map _ = if ((roster m.listeners).eraseP _).isEmpty then none else m.view.map _
      rw [listeners_eq_nil hinfo, h.idle hinfo]
      rfl
  | some info =>
    obtain ⟨v, s, hl⟩ := h.listened info hinfo
    have hafter : ((roster m.listeners).eraseP fun r => r.1 = id) = roster (info.listeners.eraseP fun r => r.id = id) := by
      rw [hroster, listeners_eq hinfo]
    have hempty : (roster (info.listeners.eraseP fun r => r.id = id)).isEmpty = (info.listeners.eraseP fun r => r.id = id).isEmpty :=
      List.isEmpty_map
    dsimp only
    split
    · next hnil =>
      refine ⟨{ m with info := none, view := none }, by simp [stopListening, hl.view], ⟨fun _ => rfl, fun i hi => (by cases hi)⟩,
        Outline.ext rfl rfl ?_ rfl ?_, .of_subset fun r hr => (by cases hr)⟩
      · change [] = (roster m.listeners).eraseP _
        rw [hafter, List.isEmpty_iff.1 hnil]
        rfl
      · change none = if ((roster m.listeners).eraseP _).isEmpty then none else m.view.map _
        rw [hafter, hempty, if_pos hnil]
    · next hne =>
      have hsub : ∀ r ∈ info.listeners.eraseP fun r => r.id = id, r ∈ m.listeners := fun r hr =>
        listeners_eq hinfo ▸ List.mem_of_mem_eraseP hr
      have hlistened : Listened { m with info := some { info with listeners := info.listeners.eraseP fun r => r.id = id } }
          { info with listeners := info.listeners.eraseP fun r => r.id = id } v s :=
        ⟨by simpa using hne, hl.view, hl.snapshot, hl.inv, hl.current, fun r hr => hl.good r (List.mem_of_mem_eraseP hr)⟩
      refine ⟨_, rfl, hlistened.keeps rfl, Outline.ext rfl rfl hafter.symm rfl ?_, .of_subset hsub⟩
      change m.view.map _ = if ((roster m.listeners).eraseP _).isEmpty then none else m.view.map _
      rw [hafter, hempty, if_neg hne]

theorem onError_spec {m : EventManager q} (h : m.Inv) (error : String) : m.Follows (m.outline.after (.rejected error)) m.onError := by
  unfold onError
  cases hinfo : m.info with
  | none =>
    rw [if_neg (by simp [h.idle hinfo])]
    refine ⟨h, Outline.ext rfl rfl ?_ rfl ?_, .of_subset fun _ hr => hr⟩
    · change roster m.listeners = []
      rw [listeners_eq_nil hinfo]
      rfl
    · change m.view.map _ = none
      rw [h.idle hinfo]
      rfl
  | some info =>
    obtain ⟨v, s, hl⟩ := h.listened info hinfo
    rw [if_pos (by simp [hl.view])]
    exact ⟨⟨fun _ => rfl, fun i hi => (by cases hi)⟩, rfl, .of_subset fun r hr => (by cases hr)⟩

/-- **One step**: it stops where the server reports what it must not, and nowhere else. -/
theorem step_spec (hq : q.Plain) (hlim : q.LimitInRange) {m : EventManager q} (h : m.Inv) (a : Act) :
    if m.outline.accepts a then ∃ m', m.step a = some m' ∧ m.Follows (m.outline.after a) m' else m.step a = none := by
  have haccepts (hnone : a.targetChange = none) : m.outline.accepts a = true := by
    rw [Outline.accepts, hnone]
    cases m.outline.remote <;> rfl
  cases a with
  | add options remoteKeys currentSyncState resumeToken =>
    rw [if_pos (haccepts rfl)]
    exact addQueryListener_spec hq hlim h options remoteKeys currentSyncState resumeToken
  | remove id =>
    rw [if_pos (haccepts rfl)]
    exact removeQueryListener_spec h id
  | rejected error =>
    rw [if_pos (haccepts rfl)]
    exact ⟨m.onError, rfl, onError_spec h error⟩
  | changed changes targetChange => exact engineStep_spec hq hlim h (.changed changes targetChange)
  | online onlineState =>
    have hengine := engineStep_spec hq hlim h (.online onlineState)
    change if m.outline.accepts (.online onlineState) = true then _ else _ at hengine
    rw [if_pos (haccepts rfl)] at hengine ⊢
    obtain ⟨m₁, hm₁, hinv₁, houtline₁, hfirsts₁⟩ := hengine
    have honline₁ : m₁.onlineState = m.onlineState := congrArg Outline.onlineState houtline₁
    obtain ⟨m₂, hm₂, hinv₂, houtline₂, hview, hpairs⟩ := handleOnlineStateChange_spec hq hinv₁ onlineState
    refine ⟨m₂, by rw [step, hm₁, Option.bind_some, hm₂], hinv₂, ?_, fun r₂ hr₂ => ?_⟩
    · rw [houtline₂, houtline₁]
      rfl
    obtain ⟨r₁, hr₁, hid, hoptions, hlater, hopens⟩ := hpairs r₂ hr₂
    by_cases hevents : r₁.events = []
    · refine (hopens hevents).imp id fun hfirst => .inr ?_
      unfold FirstOf at hfirst ⊢
      rwa [honline₁] at hfirst
    · -- the engine's snapshot may have been its first event
      rw [hlater hevents]
      rcases hfirsts₁ r₁ hr₁ with hnone | ⟨r, hr, hid', hne⟩ | ⟨event, v, hevent, hv, hdocs, hcache, hwait⟩
      · exact absurd hnone hevents
      · exact .inr (.inl ⟨r, hr, hid'.trans hid, hne⟩)
      · refine .inr (.inr ⟨event, v, (hlater hevents).trans hevent, hview.trans hv, hdocs, hcache, fun hw hc => .inl ?_⟩)
        rw [← hoptions] at hw
        rcases hwait hw hc with hoff | hoff
        · exact hoff
        · rwa [honline₁] at hoff

theorem Inv.follows (hq : q.Plain) (hlim : q.LimitInRange) {m m' : EventManager q} (h : m.Inv) {a : Act} (hstep : m.step a = some m') :
    m.Follows (m.outline.after a) m' := by
  have hspec := step_spec hq hlim h a
  split at hspec
  · obtain ⟨m₁, hm₁, hfollows⟩ := hspec
    obtain rfl := Option.some.inj (hm₁.symm.trans hstep)
    exact hfollows
  · rw [hspec] at hstep
    cases hstep

theorem run_spec (hq : q.Plain) (hlim : q.LimitInRange) {m : EventManager q} (h : m.Inv) (acts : List Act) :
    if m.outline.acceptsAll acts then ∃ m', m.run acts = some m' ∧ m'.Inv ∧ m'.outline = acts.foldl Outline.after m.outline
    else m.run acts = none := by
  induction acts generalizing m with
  | nil => exact ⟨m, rfl, h, rfl⟩
  | cons a acts ih =>
    have hstep := step_spec hq hlim h a
    cases ha : m.outline.accepts a with
    | false =>
      rw [if_neg (by rw [ha]; exact Bool.false_ne_true)] at hstep
      rw [if_neg (by rw [Outline.acceptsAll, ha]; exact Bool.false_ne_true), run, List.foldlM_cons, hstep]
      rfl
    | true =>
      rw [if_pos ha] at hstep
      obtain ⟨m₁, hm₁, hinv, houtline, -⟩ := hstep
      have hrest := ih hinv
      rw [houtline] at hrest
      simp only [Outline.acceptsAll, ha, Bool.true_and, run, List.foldlM_cons, hm₁, Option.bind_eq_bind, Option.bind_some]
      exact hrest

theorem run_inv (hq : q.Plain) (hlim : q.LimitInRange) {m m' : EventManager q} (h : m.Inv) {acts : List Act} (hrun : m.run acts = some m') :
    m'.Inv ∧ m'.outline = acts.foldl Outline.after m.outline := by
  have hspec := run_spec hq hlim h acts
  split at hspec
  · obtain ⟨m₁, hm₁, hinv, houtline⟩ := hspec
    obtain rfl := Option.some.inj (hm₁.symm.trans hrun)
    exact ⟨hinv, houtline⟩
  · rw [hspec] at hrun
    cases hrun

theorem Inv.of_mem {m : EventManager q} (h : m.Inv) {r : Registered q} (hr : r ∈ m.listeners) :
    ∃ info v s, m.Listened info v s ∧ r ∈ info.listeners := by
  cases hinfo : m.info with
  | none =>
    rw [listeners_eq_nil hinfo] at hr
    cases hr
  | some info =>
    obtain ⟨v, s, hl⟩ := h.listened info hinfo
    exact ⟨info, v, s, hl, listeners_eq hinfo ▸ hr⟩

theorem outline_remote {m : EventManager q} {v : View q} (hv : m.view = some v) : m.outline.remote = some (remote v) := by
  rw [outline, hv]
  rfl

theorem Inv.of_view {m : EventManager q} (h : m.Inv) {v : View q} (hv : m.view = some v) : QueryView.Inv ⟨v, m.docs⟩ := by
  cases hinfo : m.info with
  | none =>
    rw [h.idle hinfo] at hv
    cases hv
  | some info =>
    obtain ⟨v', s, hl⟩ := h.listened info hinfo
    obtain rfl : v' = v := Option.some.inj (hl.view.symm.trans hv)
    exact hl.inv

/-- A synced view has all that the server has of the query. -/
theorem Inv.current_of_synced {m : EventManager q} (h : m.Inv) {v : View q} (hv : m.view = some v) (hs : v.syncState = .synced) :
    m.outline.remote.any Remote.current = true := by
  have hstate := (h.of_view hv).settled.syncState
  rw [hs] at hstate
  split at hstate
  · next hcur =>
    rw [outline_remote hv, Option.any_some]
    exact (Bool.and_eq_true _ _ ▸ hcur).2
  · cases hstate

/-- A view that has all that, and shows only what the server has reported, is synced. -/
theorem Inv.synced_of_reported {m : EventManager q} (h : m.Inv) {v : View q} (hv : m.view = some v) {w : Remote}
    (hw : m.outline.remote = some w) (hcur : w.current = true) (hreported : ∀ d ∈ v.documentSet.toList, w.synced d.key = true) :
    v.syncState = .synced := by
  obtain rfl : remote v = w := Option.some.inj ((outline_remote hv).symm.trans hw)
  exact (h.of_view hv).settled.synced hcur hreported

theorem create_inv (q : Query) (docs : Documents) : (create q docs).Inv := ⟨fun _ => rfl, fun _ hi => by cases hi⟩

/-- **Listeners keep up.** Whenever a listener has raised its first event,
whoever has made the changes of its events to a list, reading as much of them
as it asked for, holds the documents of the view, and where no acknowledged
write is yet to be sent once more, what the query finds; a listener that has
raised nothing is waiting, for the server or for something to tell, and the
client is not offline. -/
theorem listeners_keepUp (hq : q.Plain) (hlim : q.LimitInRange) {docs : Documents} {acts : List Act} {m : EventManager q}
    (h : (create q docs).run acts = some m) {r : Registered q} (hr : r ∈ m.listeners) :
    ∃ v, m.view = some v ∧ Shows v.documentSet m.docs ∧
      if r.events = [] then v.syncState = .localOnly ∧ m.onlineState ≠ .offline ∧
        (r.listener.options.waitForSyncWhenOnline = true ∨ v.documentSet.toList = [])
      else ∀ includeMetadataChanges, (includeMetadataChanges = true → r.listener.options.includeDocumentMetadataChanges = true) →
        ∃ kept, replay includeMetadataChanges [] r.events = .ok kept ∧
          List.Forall₂ (StandsIn includeMetadataChanges) kept v.documentSet.toList ∧
          ((∀ d, m.docs.Matching q d → d.hasCommittedMutations = false) → List.Forall₂ Document.Same kept (q.result m.docs)) := by
  obtain ⟨info, v, s, hl, hr⟩ := (run_inv hq hlim (create_inv q docs) h).1.of_mem hr
  have hgood := hl.good r hr
  refine ⟨v, hl.view, hl.inv.shows, ?_⟩
  split
  · next hevents =>
    have hwaits := hgood.waits (hgood.told.fresh.2 hevents)
    simp only [QueryListener.waits, hl.current.fromCache, Bool.and_eq_true, Bool.or_eq_true, decide_eq_true_eq] at hwaits
    obtain ⟨⟨hcache, honline⟩, hwait⟩ := hwaits
    refine ⟨hcache, honline, hwait.imp id fun hempty => ?_⟩
    rw [← hl.current.documents, ← List.length_eq_zero_iff, ← DocumentSet.size_eq]
    exact hempty.1
  · next hevents =>
    have hraised : r.listener.raisedInitialEvent = true := by
      cases hr : r.listener.raisedInitialEvent with
      | true => rfl
      | false => exact absurd (hgood.told.fresh.1 hr) hevents
    intro b hb
    obtain ⟨kept, hkept, hpairs⟩ := hgood.told.keepsUp hraised b hb
    rw [hl.current.documents] at hpairs
    exact ⟨kept, hkept, hpairs, fun hcommitted =>
      Ranks.forall₂_trans (hpairs.imp fun _ _ h => h.same) (hl.inv.shows.result hq hlim hcommitted) fun _ _ _ => Document.Same.trans⟩

/-- Two listeners come while the doctors change, one of them to wait for the server, and that one goes. -/
def busyActs : List Act :=
  [ .add ⟨false, true, false⟩ .empty .none [],
    .changed (.single (doctor "b" .hasLocalMutations 4)) none,
    .add ⟨true, false, true⟩ .empty .none [],
    .changed (.single (doctor "b" .hasCommittedMutations 4)) none,
    .online .online,
    .changed (.single (doctor "b" .synced 4)) (some ⟨[], true, doctorKeys ["b", "c"], .empty, .empty⟩),
    .remove 1,
    .changed (.single (removedDoctor "c")) (some ⟨[], true, .empty, .empty, doctorKeys ["c"]⟩) ]

theorem run_busy : ∃ m, (create (.newest "doctors" "createdAt" 2) threeDoctors).run busyActs = some m ∧ m.Inv ∧
    m.outline = busyActs.foldl Outline.after ⟨threeDoctors, .unknown, [], 0, none⟩ := by
  have hspec := run_spec (Query.newest_plain "doctors" "createdAt" 2) (Query.newest_limitInRange (by decide))
    (create_inv _ threeDoctors) busyActs
  rwa [if_pos (by decide)] at hspec

/-- The listener that is left has kept up with the writes, the limit and its refill. -/
theorem listeners_keepUp_busy :
    ∃ m r kept, (create (.newest "doctors" "createdAt" 2) threeDoctors).run busyActs = some m ∧ r ∈ m.listeners ∧
      replay true [] r.events = .ok kept ∧ List.Forall₂ Document.Same kept [doctor "b" .synced 4, doctor "a" .synced 1] := by
  have hplain := Query.newest_plain "doctors" "createdAt" 2
  have hlim : (Query.newest "doctors" "createdAt" 2).LimitInRange := Query.newest_limitInRange (by decide)
  obtain ⟨m, hm, -, houtline⟩ := run_busy
  have hdocs : m.docs = busyEvents.foldl Event.docs threeDoctors := congrArg Outline.docs houtline
  have hroster : roster m.listeners = [(0, ⟨false, true, false⟩)] := congrArg Outline.roster houtline
  obtain ⟨r, hr, hoptions⟩ : ∃ r ∈ m.listeners, (r.id, r.listener.options) = (0, ⟨false, true, false⟩) :=
    List.mem_map.1 (show _ ∈ roster m.listeners by rw [hroster]; exact List.mem_singleton_self _)
  have hoptions : r.listener.options = ⟨false, true, false⟩ := congrArg Prod.snd hoptions
  obtain ⟨v, -, hshows, htold⟩ := listeners_keepUp hplain hlim hm hr
  have htwo := hshows.result hplain hlim fun _ => not_committed_busy hdocs
  rw [result_busy hdocs] at htwo
  have hevents : r.events ≠ [] := fun hnone => by
    rw [if_pos hnone, hoptions] at htold
    rcases htold.2.2 with hwait | hnil
    · cases hwait
    · rw [hnil] at htwo
      cases htwo
  rw [if_neg hevents] at htold
  obtain ⟨kept, hkept, -, hsame⟩ := htold true fun _ => by rw [hoptions]
  refine ⟨m, r, kept, hm, hr, hkept, ?_⟩
  rw [← result_busy hdocs]
  exact hsame fun _ => not_committed_busy hdocs

/-- **Nothing stops a client** but what the server must not report: a step from
any state that a run ends in stops just then. -/
theorem step_isSome (hq : q.Plain) (hlim : q.LimitInRange) {docs : Documents} {acts : List Act} {m : EventManager q}
    (h : (create q docs).run acts = some m) (a : Act) : (m.step a).isSome = m.outline.accepts a := by
  have hspec := step_spec hq hlim (run_inv hq hlim (create_inv q docs) h).1 a
  split at hspec
  · next haccepted =>
    obtain ⟨m', hm', -⟩ := hspec
    rw [hm', haccepted]
    rfl
  · next haccepted =>
    rw [hspec, Bool.not_eq_true _ |>.mp haccepted]
    rfl

/-- With its listener told of all that, the client stops at a modified document that is not the query's, and not at one that is. -/
theorem step_isSome_busy :
    ∃ m, (create (.newest "doctors" "createdAt" 2) threeDoctors).run busyActs = some m ∧
      (m.step (.changed .empty (some ⟨[], true, .empty, doctorKeys ["a"], .empty⟩))).isSome = false ∧
      (m.step (.changed .empty (some ⟨[], true, .empty, doctorKeys ["b"], .empty⟩))).isSome = true := by
  obtain ⟨m, hm, -, houtline⟩ := run_busy
  have hstep := step_isSome (Query.newest_plain "doctors" "createdAt" 2) (Query.newest_limitInRange (by decide)) hm
  exact ⟨m, hm, (hstep _).trans (by rw [houtline]; decide), (hstep _).trans (by rw [houtline]; decide)⟩

end EventManager

end Client
