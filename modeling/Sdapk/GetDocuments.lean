/-
One-time reads of a query (`Query::GetDocuments` in `api/query_core.cc`): a
listener that waits for the server is added, its first event is the answer, and
it is removed; a read from the cache asks the local store alone. A read is
waiting or has been answered once, with what the query finds at that moment: the
server's documents, unless the client is offline.
-/
import Sdapk.EventManager

namespace Client

variable {q : Query}

inductive Source where
  | default
  | server
  | cache
  deriving DecidableEq

namespace EventManager

/-- What a listener has been called with. -/
def eventsOf (m : EventManager q) (id : Nat) : List (ViewSnapshot q) := (m.listeners.find? fun r => r.id = id).elim [] (·.events)

/-- What a listener is called with in a step: `OnError` tells all there are. -/
def raised (m m' : EventManager q) (id : Nat) : Act → List (Except String (ViewSnapshot q))
  | .rejected error => if m.view.isSome && m.listeners.any fun r => r.id = id then [.error error] else []
  | _ => ((m'.eventsOf id).drop (m.eventsOf id).length).map .ok

end EventManager

/-! ## The ids of listeners -/

/-- Every listener has an id of its own, and the next one is free. -/
structure Outline.Numbered (o : Outline) : Prop where
  nodup : (o.roster.map (·.1)).Nodup
  lt : ∀ e ∈ o.roster, e.1 < o.nextId

namespace Outline

variable {o : Outline} {id : Nat} {options : ListenOptions}

theorem Numbered.after (h : o.Numbered) (a : Act) : (o.after a).Numbered := by
  cases a with
  | add options remoteKeys currentSyncState resumeToken =>
    refine ⟨?_, fun e he => ?_⟩
    · simp only [Outline.after, List.map_append, List.map_singleton, List.nodup_append_comm, List.singleton_append, List.nodup_cons]
      refine ⟨fun hmem => ?_, h.nodup⟩
      obtain ⟨e, he, heq⟩ := List.mem_map.1 hmem
      exact (h.lt e he).ne heq
    · rcases List.mem_append.1 he with he | he
      · exact (h.lt e he).trans (Nat.lt_succ_self _)
      · obtain rfl := List.mem_singleton.1 he
        exact Nat.lt_succ_self _
  | remove id =>
    exact ⟨h.nodup.sublist ((List.eraseP_sublist).map _), fun e he => h.lt e (List.mem_of_mem_eraseP he)⟩
  | rejected error => exact ⟨.nil, fun e he => (by cases he)⟩
  | changed changes targetChange => exact ⟨h.nodup, h.lt⟩
  | online onlineState => exact ⟨h.nodup, h.lt⟩

theorem Numbered.foldl_after (h : o.Numbered) (acts : List Act) : (acts.foldl Outline.after o).Numbered := by
  induction acts generalizing o with
  | nil => exact h
  | cons a acts ih => exact ih (h.after a)

/-- A listener stays until it is removed, or the server rejects the query. -/
theorem mem_roster_after (h : (id, options) ∈ o.roster) {a : Act} (hremove : a ≠ .remove id) (hrejected : ∀ error, a ≠ .rejected error) :
    (id, options) ∈ (o.after a).roster := by
  cases a with
  | add options remoteKeys currentSyncState resumeToken => exact List.mem_append_left _ h
  | remove id' =>
    refine (List.mem_eraseP_of_neg ?_).2 h
    simpa using fun heq : id = id' => hremove (congrArg Act.remove heq.symm)
  | rejected error => exact absurd rfl (hrejected error)
  | changed changes targetChange => exact h
  | online onlineState => exact h

/-- A listener that is gone is gone. -/
theorem notMem_roster_after (hlt : id < o.nextId) (h : ∀ e ∈ o.roster, e.1 ≠ id) (a : Act) :
    id < (o.after a).nextId ∧ ∀ e ∈ (o.after a).roster, e.1 ≠ id := by
  cases a with
  | add options remoteKeys currentSyncState resumeToken =>
    refine ⟨hlt.trans (Nat.lt_succ_self _), fun e he => ?_⟩
    rcases List.mem_append.1 he with he | he
    · exact h e he
    · obtain rfl := List.mem_singleton.1 he
      exact hlt.ne'
  | remove id' => exact ⟨hlt, fun e he => h e (List.mem_of_mem_eraseP he)⟩
  | rejected error => exact ⟨hlt, fun e he => (by cases he)⟩
  | changed changes targetChange => exact ⟨hlt, h⟩
  | online onlineState => exact ⟨hlt, h⟩

end Outline

namespace EventManager

variable {m : EventManager q} {id : Nat} {options : ListenOptions}

theorem find_eq (h : m.outline.Numbered) {r : Registered q} (hr : r ∈ m.listeners) : (m.listeners.find? fun r' => r'.id = r.id) = some r := by
  cases hfind : m.listeners.find? fun r' => r'.id = r.id with
  | none => simpa using List.find?_eq_none.1 hfind r hr
  | some r' =>
    have hinj := List.inj_on_of_nodup_map (l := m.listeners) (f := fun r => r.id) (by
      have hnodup := h.nodup
      rwa [outline, roster, List.map_map] at hnodup)
    rw [hinj (List.mem_of_find?_eq_some hfind) hr (by simpa using List.find?_some hfind)]

theorem eventsOf_id (h : m.outline.Numbered) {r : Registered q} (hr : r ∈ m.listeners) : m.eventsOf r.id = r.events := by
  rw [eventsOf, find_eq h hr]
  rfl

theorem exists_of_mem_roster (hid : (id, options) ∈ m.outline.roster) : ∃ r ∈ m.listeners, r.id = id ∧ r.listener.options = options := by
  obtain ⟨r, hr, heq⟩ := List.mem_map.1 hid
  exact ⟨r, hr, congrArg Prod.fst heq, congrArg Prod.snd heq⟩

theorem eventsOf_eq_nil (h : ∀ e ∈ m.outline.roster, e.1 ≠ id) : m.eventsOf id = [] := by
  have hnone : (m.listeners.find? fun r => r.id = id) = none := by
    refine List.find?_eq_none.2 fun r hr => ?_
    simpa using h _ (List.mem_map_of_mem hr)
  rw [eventsOf, hnone]
  rfl

/-- Nobody calls a listener that is gone. -/
theorem raised_eq_nil {m' : EventManager q} (h : ∀ e ∈ m.outline.roster, e.1 ≠ id) (h' : ∀ e ∈ m'.outline.roster, e.1 ≠ id) (a : Act) :
    m.raised m' id a = [] := by
  have hnone : (m.listeners.any fun r => r.id = id) = false := by
    refine List.any_eq_false.2 fun r hr => ?_
    simpa using h _ (List.mem_map_of_mem hr)
  cases a <;> simp [raised, hnone, eventsOf_eq_nil h']

theorem raised_of_quiet {m' : EventManager q} (h : m.eventsOf id = []) {a : Act} (hrejected : ∀ error, a ≠ .rejected error) :
    m.raised m' id a = (m'.eventsOf id).map .ok := by
  cases a with
  | rejected error => exact absurd rfl (hrejected error)
  | _ => simp [raised, h]

end EventManager

/-! ## Reads -/

namespace GetDocuments

def options : ListenOptions := ⟨true, true, true⟩

/-- An error of code `Unavailable`, or the documents. -/
def answer (source : Source) (snapshot : ViewSnapshot q) : Except String (List DocumentSnapshot) :=
  if snapshot.fromCache && source = .server then
    .error ("Failed to get documents from server. (However, these documents may exist in the local cache. Run again without setting " ++
      "source to FirestoreSourceServer to retrieve the cached documents.)")
  else .ok snapshot.forEachDocument

/-- A client and a read of it: the read's listener until that is removed, and
what it was answered with. -/
structure Read (q : Query) where
  client : EventManager q
  source : Source
  registration : Option Nat
  answers : List (Except String (List DocumentSnapshot))

namespace Read

/-- `ListenOnce::OnEvent`. -/
def onEvent (r : Read q) : Except String (ViewSnapshot q) → Read q
  | .error error => { r with answers := r.answers ++ [.error error] }
  | .ok snapshot => { r with registration := none, answers := r.answers ++ [answer r.source snapshot] }

/-- `AsyncEventListener::OnEvent`: once removed, a listener is muted. -/
def deliver (r : Read q) (event : Except String (ViewSnapshot q)) : Read q := if r.registration.isSome then r.onEvent event else r

/-- The listener is the read's own: no one else removes it. -/
def permits (r : Read q) : Act → Bool
  | .remove id => r.registration ≠ some id
  | _ => true

/-- A step of the client. The removal that a read has asked for is one, whenever it comes. -/
def step (r : Read q) (a : Act) : Option (Read q) :=
  if r.permits a then (r.client.step a).map fun client =>
    (r.registration.elim [] fun id => r.client.raised client id a).foldl deliver { r with client }
  else none

def run (r : Read q) (acts : List Act) : Option (Read q) := acts.foldlM step r

end Read

/-- `FirestoreClient::GetDocumentsFromLocalCache`, which asserts that a view of
the cache alone has no limbo documents, and has a snapshot. -/
def fromLocalCache (q : Query) (docs : Documents) (remoteKeys : DocumentKeySet) : Option (ViewSnapshot q) := do
  let view := View.create q remoteKeys
  let viewDocChanges ← view.computeDocumentChanges (docs.executeQuery q) none
  let (_, viewChange) ← view.applyChanges viewDocChanges none
  if viewChange.limboChanges.isEmpty then viewChange.snapshot else none

/-- `Query::GetDocuments`. -/
def get (m : EventManager q) (source : Source) (remoteKeys : DocumentKeySet) (currentSyncState : SyncState) (resumeToken : List UInt8) :
    Option (Read q) :=
  if source = .cache then
    (fromLocalCache q m.docs remoteKeys).map fun snapshot => ⟨m, source, none, [.ok snapshot.forEachDocument]⟩
  else
    (m.addQueryListener options remoteKeys currentSyncState resumeToken).map fun client =>
      ((client.eventsOf m.nextId).map .ok).foldl Read.deliver ⟨client, source, some m.nextId, []⟩

/-! ## What a read finds -/

/-- A snapshot of all that the query finds, which the server has confirmed
unless the client is offline or was not to ask it. -/
structure Finds (m : EventManager q) (source : Source) (snapshot : ViewSnapshot q) : Prop where
  result : (∀ d, m.docs.Matching q d → d.hasCommittedMutations = false) →
    List.Forall₂ Document.Same (snapshot.forEachDocument.map (·.document)) (q.result m.docs)
  fromCache : snapshot.fromCache = true → source = .cache ∨ m.onlineState = .offline
  synced : snapshot.fromCache = false → ∃ v, m.view = some v ∧ v.syncState = .synced

/-- A read that is not answered waits for the server. -/
structure Read.Waiting (r : Read q) : Prop where
  unanswered : r.answers = []
  view : ∃ v, r.client.view = some v ∧ v.syncState = .localOnly
  onlineState : r.client.onlineState ≠ .offline

/-- A read from the cache finds what the query finds in the local store. -/
theorem fromLocalCache_spec (hq : q.Plain) (hlim : q.LimitInRange) (m : EventManager q) (remoteKeys : DocumentKeySet) :
    ∃ snapshot, fromLocalCache q m.docs remoteKeys = some snapshot ∧ Finds m .cache snapshot := by
  obtain ⟨c, hc, hno, hcoh, hshows⟩ := View.computeDocumentChanges_create hq hlim m.docs remoteKeys
  have happly := View.applyChanges_eq hno hcoh none
  rw [if_pos (show Reported _ none = true from rfl)] at happly
  obtain ⟨v', viewChange, hv', hdocset, -, hcur, hlimbo, hsettled, hexplains⟩ := happly
  obtain ⟨snapshot, hsnapshot⟩ := Option.isSome_iff_exists.1 (hexplains.isSome_snapshot rfl hsettled)
  obtain ⟨hsn, -⟩ := hexplains.some snapshot hsnapshot
  have hempty : viewChange.limboChanges = [] := hlimbo hcur
  have hstate : v'.syncState = .localOnly := by
    rw [hsettled.syncState, hcur, if_neg (by simp [currentAfter, View.create])]
  refine ⟨snapshot, ?_, fun hcommitted => ?_, fun _ => .inl rfl, fun hc => ?_⟩
  · simp only [fromLocalCache, hc, Option.bind_eq_bind, Option.bind_some, hv', hempty, List.isEmpty_nil, if_true, hsnapshot]
  · have hpairs := hshows.result hq hlim hcommitted
    rw [← hdocset, ← hsn.documents] at hpairs
    simpa [ViewSnapshot.forEachDocument, ViewSnapshot.fromDocument, Function.comp_def] using hpairs
  · simp [hsn.fromCache, hstate] at hc

/-- A first event of a listener that waits for the server. -/
theorem Finds.of_firstOf (hq : q.Plain) (hlim : q.LimitInRange) {m m' : EventManager q} (hinv : m'.Inv) {r : Registered q}
    (hr : r ∈ m'.listeners) (hoptions : r.listener.options = options) (h : m.FirstOf m' r) (honline : m.onlineState = .offline →
      m'.onlineState = .offline) (source : Source) : ∃ event, r.events = [event] ∧ Finds m' source event := by
  obtain ⟨event, v, hevent, hv, hdocs, hcache, hwait⟩ := h
  obtain ⟨info, v', s, hl, -⟩ := hinv.of_mem hr
  obtain rfl : v' = v := Option.some.inj (hl.view.symm.trans hv)
  refine ⟨event, hevent, fun hcommitted => ?_, fun hc => .inr ?_, fun hc => ⟨v', hv, ?_⟩⟩
  · have hpairs := hl.inv.shows.result hq hlim hcommitted
    rw [← hdocs] at hpairs
    simpa [ViewSnapshot.forEachDocument, ViewSnapshot.fromDocument, Function.comp_def] using hpairs
  · exact (hwait (by rw [hoptions, options]) hc).elim honline id
  · rw [hcache, hl.inv.settled.syncState] at hc
    rw [hl.inv.settled.syncState]
    revert hc
    split <;> simp

/-! ## A step of a read -/

namespace Read

/-- What holds of a read that is not answered: its listener is there, and has raised nothing. -/
structure Open (r : Read q) (id : Nat) : Prop where
  inv : r.client.Inv
  numbered : r.client.outline.Numbered
  registration : r.registration = some id
  unanswered : r.answers = []
  listens : (id, options) ∈ r.client.outline.roster
  quiet : r.client.eventsOf id = []

/-- What holds of a read that is: its listener is removed, or gone with the others. -/
structure Closed (r : Read q) : Prop where
  inv : r.client.Inv
  gone : ∀ id, r.registration = some id → id < r.client.outline.nextId ∧ ∀ e ∈ r.client.outline.roster, e.1 ≠ id

theorem Open.waiting {r : Read q} {id : Nat} (h : r.Open id) : r.Waiting := by
  obtain ⟨l, hl, rfl, hoptions⟩ := EventManager.exists_of_mem_roster h.listens
  have hnone : l.events = [] := (EventManager.eventsOf_id h.numbered hl).symm.trans h.quiet
  obtain ⟨info, v, s, hlistened, hmem⟩ := h.inv.of_mem hl
  have hgood := hlistened.good l hmem
  have hwaits := hgood.waits (hgood.told.fresh.2 hnone)
  simp only [QueryListener.waits, hlistened.current.fromCache, Bool.and_eq_true, decide_eq_true_eq] at hwaits
  exact ⟨h.unanswered, ⟨v, hlistened.view, hwaits.1.1⟩, hwaits.1.2⟩

@[simp] theorem foldl_deliver_client (r : Read q) (events : List (Except String (ViewSnapshot q))) :
    (events.foldl deliver r).client = r.client := by
  induction events generalizing r with
  | nil => rfl
  | cons event events ih =>
    have hclient : (r.deliver event).client = r.client := by
      unfold deliver
      split
      · cases event <;> rfl
      · rfl
    rw [List.foldl_cons, ih, hclient]

/-- A read goes on where the client does. -/
theorem exists_step (hq : q.Plain) (hlim : q.LimitInRange) {r : Read q} (h : r.client.Inv) {a : Act} (hpermits : r.permits a = true)
    (haccepts : r.client.outline.accepts a = true) :
    ∃ r', r.step a = some r' ∧ r'.client.Inv ∧ r'.client.outline = r.client.outline.after a := by
  have hspec := EventManager.step_spec hq hlim h a
  rw [if_pos haccepts] at hspec
  obtain ⟨client, hclient, hinv, houtline, -⟩ := hspec
  refine ⟨_, by rw [step, if_pos hpermits, hclient, Option.map_some], ?_⟩
  rw [foldl_deliver_client]
  exact ⟨hinv, houtline⟩

theorem step_eq_some {r r' : Read q} {a : Act} (h : r.step a = some r') : r.permits a = true ∧ ∃ client, r.client.step a = some client ∧
    r' = (r.registration.elim [] fun id => r.client.raised client id a).foldl deliver { r with client } := by
  unfold step at h
  split at h
  · next hpermits =>
    obtain ⟨client, hclient, rfl⟩ := Option.map_eq_some_iff.1 h
    exact ⟨hpermits, client, hclient, rfl⟩
  · cases h

/-- **Answered once**: nothing is made of what comes later. -/
theorem Closed.step (hq : q.Plain) (hlim : q.LimitInRange) {r r' : Read q} (h : r.Closed) {a : Act} (hstep : r.step a = some r') :
    r'.Closed ∧ ∃ client, r' = { r with client } := by
  obtain ⟨-, client, hclient, rfl⟩ := step_eq_some hstep
  have hfollows := h.inv.follows hq hlim hclient
  have hgone id (hid : r.registration = some id) : id < client.outline.nextId ∧ ∀ e ∈ client.outline.roster, e.1 ≠ id := by
    rw [hfollows.outline]
    exact Outline.notMem_roster_after (h.gone id hid).1 (h.gone id hid).2 a
  have hraised : (r.registration.elim [] fun id => r.client.raised client id a) = [] := by
    cases hid : r.registration with
    | none => rfl
    | some id => exact EventManager.raised_eq_nil (h.gone id hid).2 (hgone id hid).2 a
  rw [hraised]
  exact ⟨⟨hfollows.inv, hgone⟩, client, rfl⟩

theorem Closed.run (hq : q.Plain) (hlim : q.LimitInRange) {r r' : Read q} (h : r.Closed) {acts : List Act} (hrun : r.run acts = some r') :
    ∃ client, r' = { r with client } := by
  induction acts generalizing r with
  | nil => exact ⟨r.client, (Option.some.inj hrun).symm⟩
  | cons a acts ih =>
    rw [Read.run, List.foldlM_cons] at hrun
    obtain ⟨r₁, hstep, hrun⟩ := Option.bind_eq_some_iff.1 hrun
    obtain ⟨hclosed, client, rfl⟩ := h.step hq hlim hstep
    obtain ⟨client', rfl⟩ := ih hclosed hrun
    exact ⟨client', rfl⟩

/-- A listener that has raised its first event, if any. -/
theorem deliver_events (hq : q.Plain) (hlim : q.LimitInRange) {r : Read q} {id : Nat} (hregistration : r.registration = some id)
    (hunanswered : r.answers = []) {m : EventManager q} (hinv : r.client.Inv) (hnumbered : r.client.outline.Numbered)
    {l : Registered q} (hl : l ∈ r.client.listeners) (hid : l.id = id) (hoptions : l.listener.options = options)
    (hfirst : l.events = [] ∨ m.FirstOf r.client l) (honline : m.onlineState = .offline → r.client.onlineState = .offline) :
    let r' := ((r.client.eventsOf id).map .ok).foldl deliver r
    r'.source = r.source ∧ (r'.Open id ∨ r'.Closed ∧
      ∃ event, r'.answers = [answer r.source event] ∧ r'.registration = none ∧ Finds r'.client r.source event) := by
  subst hid
  rw [EventManager.eventsOf_id hnumbered hl]
  rcases hfirst with hnone | hfirst
  · rw [hnone]
    refine ⟨rfl, .inl ⟨hinv, hnumbered, hregistration, hunanswered, List.mem_map.2 ⟨l, hl, by rw [hoptions]⟩, ?_⟩⟩
    exact (EventManager.eventsOf_id hnumbered hl).trans hnone
  · obtain ⟨event, hevent, hfinds⟩ := Finds.of_firstOf hq hlim hinv hl hoptions hfirst honline r.source
    have hdeliver : r.deliver (.ok event) = { r with registration := none, answers := [answer r.source event] } := by
      simp [deliver, hregistration, onEvent, hunanswered]
    rw [hevent, List.map_singleton, List.foldl_cons, List.foldl_nil, hdeliver]
    exact ⟨rfl, .inr ⟨⟨hinv, fun id hid => (by cases hid)⟩, event, rfl, rfl, hfinds⟩⟩

/-- **One step** of a read that waits. -/
theorem Open.step (hq : q.Plain) (hlim : q.LimitInRange) {r r' : Read q} {id : Nat} (h : r.Open id) {a : Act} (hstep : r.step a = some r') :
    r'.source = r.source ∧ (r'.Open id ∨ r'.Closed ∧ ((∃ error, a = .rejected error ∧ r'.answers = [.error error]) ∨
      ∃ event, r'.answers = [answer r.source event] ∧ r'.registration = none ∧ Finds r'.client r.source event)) := by
  obtain ⟨hpermits, client, hclient, rfl⟩ := step_eq_some hstep
  have hfollows := h.inv.follows hq hlim hclient
  have helim : (r.registration.elim [] fun id => r.client.raised client id a) = r.client.raised client id a := by
    rw [h.registration]
    rfl
  rw [helim]
  by_cases hrejected : ∃ error, a = .rejected error
  · obtain ⟨error, rfl⟩ := hrejected
    obtain ⟨l, hl, hid, -⟩ := EventManager.exists_of_mem_roster h.listens
    obtain ⟨info, v, s, hlistened, -⟩ := h.inv.of_mem hl
    have hraised : r.client.raised client id (.rejected error) = [.error error] :=
      if_pos (by simpa [hlistened.view] using ⟨l, hl, hid⟩)
    have hdeliver : ({ r with client } : Read q).deliver (.error error) = { r with client, answers := [.error error] } := by
      simp [deliver, h.registration, onEvent, h.unanswered]
    rw [hraised, List.foldl_cons, List.foldl_nil, hdeliver]
    refine ⟨rfl, .inr ⟨⟨hfollows.inv, fun id' hid' => ?_⟩, .inl ⟨error, rfl, rfl⟩⟩⟩
    obtain rfl : id = id' := Option.some.inj (h.registration.symm.trans hid')
    dsimp only
    rw [hfollows.outline]
    exact ⟨h.numbered.lt _ h.listens, fun e he => (by cases he)⟩
  · have hrejected error (ha : a = .rejected error) : False := hrejected ⟨error, ha⟩
    have hremove : a ≠ .remove id := by
      rintro rfl
      simp [permits, h.registration] at hpermits
    have hlistens : (id, options) ∈ client.outline.roster := hfollows.outline ▸ Outline.mem_roster_after h.listens hremove hrejected
    obtain ⟨l, hl, hid, hoptions⟩ := EventManager.exists_of_mem_roster hlistens
    have hfirst : l.events = [] ∨ r.client.FirstOf client l := by
      rcases hfollows.firsts l hl with hnone | ⟨l', hl', hid', hne⟩ | hfirst
      · exact .inl hnone
      · rw [← EventManager.eventsOf_id h.numbered hl', hid', hid] at hne
        exact absurd h.quiet hne
      · exact .inr hfirst
    rw [EventManager.raised_of_quiet h.quiet hrejected]
    obtain ⟨hsource, hopen⟩ := deliver_events hq hlim (r := { r with client }) h.registration h.unanswered hfollows.inv
      (hfollows.outline ▸ h.numbered.after a) hl hid hoptions hfirst fun hoff => absurd hoff h.waiting.onlineState
    exact ⟨hsource, hopen.imp (fun h => h) fun ⟨hclosed, hevent⟩ => ⟨hclosed, .inr hevent⟩⟩

end Read

theorem get_client {m : EventManager q} {source : Source} {remoteKeys : DocumentKeySet} {currentSyncState : SyncState}
    {resumeToken : List UInt8} {r : Read q} (hsource : source ≠ .cache)
    (h : get m source remoteKeys currentSyncState resumeToken = some r) :
    m.addQueryListener options remoteKeys currentSyncState resumeToken = some r.client := by
  rw [get, if_neg hsource] at h
  obtain ⟨client, hclient, rfl⟩ := Option.map_eq_some_iff.1 h
  rw [hclient, Read.foldl_deliver_client]

/-- A read as it begins. -/
theorem get_spec (hq : q.Plain) (hlim : q.LimitInRange) {m : EventManager q} (h : m.Inv) (hnumbered : m.outline.Numbered) (source : Source)
    (remoteKeys : DocumentKeySet) (currentSyncState : SyncState) (resumeToken : List UInt8) :
    ∃ r, get m source remoteKeys currentSyncState resumeToken = some r ∧ r.source = source ∧ (r.Open m.nextId ∨ r.Closed ∧
      ∃ event, r.answers = [answer source event] ∧ r.registration = none ∧ Finds r.client source event) := by
  unfold get
  split
  · next hsource =>
    subst hsource
    obtain ⟨snapshot, hsnapshot, hfinds⟩ := fromLocalCache_spec hq hlim m remoteKeys
    refine ⟨_, by rw [hsnapshot, Option.map_some], rfl, .inr ⟨⟨h, fun id hid => (by cases hid)⟩, snapshot, ?_, rfl, hfinds⟩⟩
    simp [answer]
  · obtain ⟨client, hclient, hfollows⟩ := EventManager.addQueryListener_spec hq hlim h options remoteKeys currentSyncState resumeToken
    have hlistens : (m.nextId, options) ∈ client.outline.roster := by
      rw [hfollows.outline]
      exact List.mem_append_right _ (List.mem_singleton_self _)
    obtain ⟨l, hl, hid, hoptions⟩ := EventManager.exists_of_mem_roster hlistens
    have hfirst : l.events = [] ∨ m.FirstOf client l := by
      rcases hfollows.firsts l hl with hnone | ⟨l', hl', hid', -⟩ | hfirst
      · exact .inl hnone
      · exact absurd (hid'.trans hid) (hnumbered.lt _ (List.mem_map_of_mem hl')).ne
      · exact .inr hfirst
    have honline : client.onlineState = m.onlineState := congrArg Outline.onlineState hfollows.outline
    obtain ⟨hsource, hopen⟩ := Read.deliver_events hq hlim (r := ⟨client, source, some m.nextId, []⟩) rfl rfl hfollows.inv
      (hfollows.outline ▸ hnumbered.after _) hl hid hoptions hfirst fun hoff => honline.trans hoff
    exact ⟨_, by rw [hclient, Option.map_some], hsource, hopen⟩

/-! ## Whole runs -/

/-- A run that ends with the answer of a read: before its last step there was none. -/
structure Read.AnsweredBy (r₀ : Read q) (acts : List Act) (r : Read q) : Prop where
  run : r₀.run acts = some r
  first : ∀ before after, acts = before ++ after → after ≠ [] → ∃ r, r₀.run before = some r ∧ r.answers = []

/-- How a read stands that has begun: it waits, or has been answered, once,
where the server rejected the query or with what was found just then, and has
its listener removed. -/
inductive Read.Stands (finds : EventManager q → ViewSnapshot q → Prop) (r₀ : Read q) (acts : List Act) (r : Read q) : Prop where
  | waiting (h : r.Waiting)
  | rejected {acts₁ acts₂ : List Act} {r₁ : Read q} {error : String} (hacts : acts = acts₁ ++ .rejected error :: acts₂)
      (h : r₀.AnsweredBy (acts₁ ++ [.rejected error]) r₁) (hanswers : r.answers = [.error error])
  | answered {acts₁ acts₂ : List Act} {r₁ : Read q} {event : ViewSnapshot q} (hacts : acts = acts₁ ++ acts₂)
      (h : r₀.AnsweredBy acts₁ r₁) (hfinds : finds r₁.client event) (hanswers : r.answers = [answer r₀.source event])
      (hremoved : r.registration = none)

theorem Read.Stands.imp {finds finds' : EventManager q → ViewSnapshot q → Prop} (hfinds : ∀ m event, finds m event → finds' m event)
    {r₀ r : Read q} {acts : List Act} (h : r₀.Stands finds acts r) : r₀.Stands finds' acts r := by
  cases h with
  | waiting h => exact .waiting h
  | rejected hacts h hanswers => exact .rejected hacts h hanswers
  | answered hacts h hevent hanswers hremoved => exact .answered hacts h (hfinds _ _ hevent) hanswers hremoved

theorem Read.AnsweredBy.cons {r r₁ r₂ : Read q} {a : Act} {acts : List Act} (hunanswered : r.answers = []) (hstep : r.step a = some r₁)
    (h : r₁.AnsweredBy acts r₂) : r.AnsweredBy (a :: acts) r₂ := by
  have hrun (acts : List Act) : r.run (a :: acts) = r₁.run acts := by
    rw [Read.run, List.foldlM_cons, hstep]
    rfl
  refine ⟨(hrun acts).trans h.run, fun before after hacts hne => ?_⟩
  cases before with
  | nil => exact ⟨r, rfl, hunanswered⟩
  | cons a' before =>
    rw [List.cons_append, List.cons.injEq] at hacts
    obtain ⟨rfl, hacts⟩ := hacts
    rw [hrun before]
    exact h.first before after hacts hne

/-- A read that has been answered already. -/
theorem Read.AnsweredBy.nil (r : Read q) : r.AnsweredBy [] r :=
  ⟨rfl, fun _ _ hacts hne => absurd (List.append_eq_nil_iff.1 hacts.symm).2 hne⟩

/-- A read that is answered in its next step. -/
theorem Read.AnsweredBy.step {r r₁ : Read q} {a : Act} (hunanswered : r.answers = []) (hstep : r.step a = some r₁) :
    r.AnsweredBy [a] r₁ := .cons hunanswered hstep (.nil r₁)

/-- A read that is answered by some steps of a run is answered by no more of them. -/
theorem Read.AnsweredBy.prefix_of_answered {r₀ r₁ r : Read q} {acts₁ acts₂ before after : List Act} (h : r₀.AnsweredBy acts₁ r₁)
    (hacts : acts₁ ++ acts₂ = before ++ after) (hrun : r₀.run before = some r) (hanswers : r.answers ≠ []) : acts₁ <+: before := by
  rcases List.append_eq_append_iff.1 hacts with ⟨rest, hbefore, -⟩ | ⟨rest, hacts₁, -⟩
  · exact ⟨rest, hbefore.symm⟩
  · cases rest with
    | nil => exact ⟨[], by rw [hacts₁, List.append_nil, List.append_nil]⟩
    | cons a rest =>
      obtain ⟨r', hr', hnone⟩ := h.first before (a :: rest) hacts₁ (List.cons_ne_nil _ _)
      obtain rfl : r = r' := Option.some.inj (hrun.symm.trans hr')
      exact absurd hnone hanswers

/-- **A whole run** of a read that waits. -/
theorem Read.Open.run (hq : q.Plain) (hlim : q.LimitInRange) {r r' : Read q} {id : Nat} (h : r.Open id) {acts : List Act}
    (hrun : r.run acts = some r') : r.Stands (Finds · r.source ·) acts r' := by
  induction acts generalizing r with
  | nil =>
    obtain rfl := Option.some.inj hrun
    exact .waiting h.waiting
  | cons a acts ih =>
    rw [Read.run, List.foldlM_cons] at hrun
    obtain ⟨r₁, hstep, hrest⟩ := Option.bind_eq_some_iff.1 hrun
    obtain ⟨hsource, hopen⟩ := h.step hq hlim hstep
    rcases hopen with hopen | ⟨hclosed, ⟨error, rfl, hanswers⟩ | ⟨event, hanswers, hremoved, hfinds⟩⟩
    · cases ih hopen hrest with
      | waiting h => exact .waiting h
      | rejected hacts hanswered hanswers =>
        have hanswered := hanswered.cons h.unanswered hstep
        rw [← List.cons_append] at hanswered
        exact .rejected (congrArg (a :: ·) hacts) hanswered hanswers
      | answered hacts hanswered hfinds hanswers hremoved =>
        rw [hsource] at hfinds hanswers
        exact .answered (congrArg (a :: ·) hacts) (.cons h.unanswered hstep hanswered) hfinds hanswers hremoved
    · obtain ⟨client, rfl⟩ := hclosed.run hq hlim hrest
      exact .rejected (List.nil_append _).symm (.step h.unanswered hstep) hanswers
    · obtain ⟨client, rfl⟩ := hclosed.run hq hlim hrest
      exact .answered (List.singleton_append).symm (.step h.unanswered hstep) hfinds hanswers hremoved

/-- **A read is answered once**, with what the query finds. -/
theorem get_stands (hq : q.Plain) (hlim : q.LimitInRange) {docs : Documents} {acts₀ : List Act} {m : EventManager q}
    (h : (EventManager.create q docs).run acts₀ = some m) (source : Source) (remoteKeys : DocumentKeySet) (currentSyncState : SyncState)
    (resumeToken : List UInt8) :
    ∃ r₀, get m source remoteKeys currentSyncState resumeToken = some r₀ ∧ r₀.source = source ∧
      ∀ acts r, r₀.run acts = some r → r₀.Stands (Finds · source ·) acts r := by
  obtain ⟨hinv, houtline⟩ := EventManager.run_inv hq hlim (EventManager.create_inv q docs) h
  have hnumbered : m.outline.Numbered := by
    have hcreate : (EventManager.create q docs).outline.Numbered := ⟨.nil, fun e he => (by cases he)⟩
    rw [houtline]
    exact hcreate.foldl_after acts₀
  obtain ⟨r₀, hget, rfl, hopen⟩ := get_spec hq hlim hinv hnumbered source remoteKeys currentSyncState resumeToken
  refine ⟨r₀, hget, rfl, fun acts r hrun => ?_⟩
  rcases hopen with hopen | ⟨hclosed, event, hanswers, hremoved, hfinds⟩
  · exact hopen.run hq hlim hrun
  · obtain ⟨client, rfl⟩ := hclosed.run hq hlim hrun
    exact .answered (List.nil_append _).symm (.nil r₀) hfinds hanswers hremoved

end GetDocuments

end Client
