/-
A load among a client's own operations. The load reads the collection, and
later puts what it read in the place of the list, whatever the list has
become. What an operation has done to the list by then survives where the
load has read what the operation did to the collection, and nowhere else
(`kept_iff`); what is done to the list afterwards always survives.
-/
import Sdapk.System

open Dart Firestore Entity Screen Runs System

namespace Reload

variable {ι R : Type}

/-- A load that has not yet assigned. -/
def Loading : Stage R → Prop
  | .load | .assign _ => True
  | _ => False

variable [Screen R]

/-- The id of the record a call changes, once it is known. -/
def subject : Stage R → Option String
  | .write r | .prepend r | .added r | .update r | .replace r | .updated r | .unlisted r => some (key r)
  | .remove id | .delete id | .removed id => some id
  | _ => none

/-- The list shows what a call has done to it: the added record, no entry of
the updated one but the new one, no entry of the removed one. A record may
be as a load leaves it. -/
def Agrees (l : List R) : Stage R → Prop
  | .added r => r ∈ l ∨ reloaded r ∈ l
  | .updated r | .unlisted r => ∀ x ∈ l, key x = key r → x = r ∨ x = reloaded r
  | .delete id | .removed id => id ∉ l.map key
  | _ => True

/-- The calls but for the load are of different records. -/
def Distinct (load : ι) (s : System ι R) : Prop :=
  ∀ i j, i ≠ load → j ≠ load → (subject (s.calls i).stage).isSome → subject (s.calls i).stage = subject (s.calls j).stage → i = j

/-- Nothing is undone: the list shows what every call has done. -/
def Kept (load : ι) (client : Nat) (s : System ι R) : Prop :=
  ∀ i, i ≠ load → Agrees (s.lists client) (s.calls i).stage

/-- What a load that has read the collection is about to assign. -/
def aboutToAssign : Stage R → Option (List R)
  | .assign docs => (docs.mapM fromMap).toOption
  | _ => none

/-- When the load assigns, what it has read shows what the calls have done to the list. -/
def Reflects (load : ι) (s : System ι R) (m : Move ι) : Prop :=
  m.call = load → ∀ l ∈ aboutToAssign (s.calls load).stage,
    ∀ i, i ≠ load → Listed (s.calls i).stage → Agrees l (s.calls i).stage

/-- Each document is decoded to a record of its name, where it is decoded. -/
def Named (R : Type) [Screen R] (docs : Collection) : Prop := ∀ e ∈ docs, ∀ r : R, fromMap e.2 = .ok r → key r = e.1

/-! ## What a load reads -/

section

variable {docs : Collection} {r : R} {l : List R}

theorem Named.set (h : Named R docs) : Named R (docs.set (key r) (doc r)) := by
  intro e he r' hr'
  rcases SortedMap.mem_set.1 he with rfl | ⟨he, -⟩
  · rw [fromMap_doc] at hr'
    rw [← Except.ok.inj hr', key_reloaded]
  · exact h e he r' hr'

theorem Named.erase {k : String} (h : Named R docs) : Named R (docs.erase k) :=
  fun e he => h e (SortedMap.mem_erase.1 he).1

theorem decoded_keys {es : List (String × Doc)} (h : Named R docs) (he : ∀ e ∈ es, e ∈ docs)
    (hl : (es.map (·.2)).mapM fromMap = .ok l) : l.map key = es.map (·.1) := by
  induction es generalizing l with
  | nil =>
    obtain rfl := Except.ok.inj hl
    rfl
  | cons e es ih =>
    rw [List.map_cons, List.mapM_cons] at hl
    obtain ⟨r, hr, hl⟩ := bind_eq_ok.1 hl
    obtain ⟨l', hl', hl⟩ := bind_eq_ok.1 hl
    obtain rfl := Except.ok.inj hl
    rw [List.map_cons, List.map_cons, h e (he e List.mem_cons_self) r hr,
      ih (fun e' he' => he e' (List.mem_cons_of_mem e he')) hl']

/-- A load reads each id once. -/
theorem Named.nodup (h : Named R docs) (hl : (query docs "createdAt" 25).mapM fromMap = .ok l) : (l.map key).Nodup := by
  have hmem : ∀ e ∈ (orderByDescending docs "createdAt").take 25, e ∈ docs := fun e he =>
    (mem_orderByDescending.1 (List.mem_of_mem_take he)).1
  rw [decoded_keys h hmem hl]
  exact Register.nodup_orderByDescending.sublist ((List.take_sublist _ _).map _)

end

/-! ## What one step does to the list -/

section

variable {l l' : List R} {stage : Stage R} {k : String} {now : DateTime} {ok : Bool} {w : World R} {x : World R × Stage R}

/-- The entries of a key are the same. -/
def Same (k : String) (l l' : List R) : Prop :=
  (∀ x, key x = k → (x ∈ l ↔ x ∈ l')) ∧ (l.map key).count k = (l'.map key).count k

/-- The list shows what a call has done to it, and has its entry once where it is about to be replaced. -/
def Settled (l : List R) : Stage R → Prop
  | .update r | .replace r => (l.map key).count (key r) ≤ 1
  | stage => Agrees l stage

theorem agrees_of_unlisted (h : ¬ Listed stage) : Agrees l stage := by
  cases stage <;> first | trivial | exact absurd trivial h

theorem settled_of_nodup (hn : (l.map key).Nodup) (h : ¬ Listed stage) : Settled l stage := by
  have hc := List.nodup_iff_count_le_one.1 hn
  have ha : Agrees l stage := agrees_of_unlisted h
  cases stage <;> first | exact hc _ | exact ha

theorem Settled.agrees (h : Settled l stage) (hdone : remaining stage = 0) : Agrees l stage := by
  cases stage <;> first | exact h | cases hdone

theorem agrees_congr (hs : ∀ k, subject stage = some k → Same k l l') : Agrees l stage ↔ Agrees l' stage := by
  cases stage with
  | added r => exact or_congr ((hs _ rfl).1 r rfl) ((hs _ rfl).1 _ (key_reloaded r))
  | updated r | unlisted r =>
    exact forall_congr' fun x => ⟨fun h hx hk => h (((hs _ rfl).1 x hk).2 hx) hk, fun h hx hk => h (((hs _ rfl).1 x hk).1 hx) hk⟩
  | delete id | removed id =>
    have hs := (hs _ rfl).1
    simp only [Agrees, List.mem_map, not_exists, not_and]
    exact forall_congr' fun x => ⟨fun h hx hk => h ((hs x hk).2 hx) hk, fun h hx hk => h ((hs x hk).1 hx) hk⟩
  | _ => exact Iff.rfl

theorem settled_congr (hs : ∀ k, subject stage = some k → Same k l l') : Settled l stage ↔ Settled l' stage := by
  cases stage with
  | update r | replace r =>
    rw [Settled, Settled, (hs _ rfl).2]
  | _ => exact agrees_congr hs

theorem same_refl : Same k l l := ⟨fun _ _ => Iff.rfl, rfl⟩

/-- The list step of a record leaves the entries of another id alone. -/
theorem same_cons {r : R} (h : key r ≠ k) : Same k l (r :: l) := by
  refine ⟨fun x hx => ?_, ?_⟩
  · have hne : x ≠ r := fun hxr => h (hxr ▸ hx)
    simp [hne]
  · rw [List.map_cons, List.count_cons_of_ne h]

theorem same_put {r : R} (h : key r ≠ k) : Same k l (Keyed.put key r l) := by
  refine ⟨fun x hx => ?_, by rw [Keyed.map_key_put]⟩
  have hne : key x ≠ key r := fun hxr => h (hxr.symm.trans hx)
  have hxr : x ≠ r := fun hxr => hne (congrArg key hxr)
  simp [hne, hxr]

theorem same_without {id : String} (h : id ≠ k) : Same k l (Keyed.without key id l) := by
  refine ⟨fun x hx => ?_, ?_⟩
  · have hne : key x ≠ id := fun hxid => h (hxid.symm.trans hx)
    simp [hne]
  · rw [Keyed.map_key_without, List.count_filter]
    simpa using h.symm

/-- A call that has changed the list leaves it, and what it has done. -/
theorem advances_listed (h : Advances now ok w stage x) (hl : Listed stage) :
    x.1.state = w.state ∧ Listed x.2 ∧ ∀ l, Agrees l x.2 ↔ Agrees l stage := by
  cases h with
  | deleted | done => exact ⟨rfl, hl, fun _ => Iff.rfl⟩
  | _ => exact hl.elim

/-- What a call does to the list, the list shows. -/
theorem advances_settled (h : Advances now ok w stage x) (hload : ¬ Loading stage) (hs : Settled w.state stage) :
    Settled x.1.state x.2 := by
  cases h with
  | read | assigned => exact absurd trivial hload
  | prepended => exact .inl List.mem_cons_self
  | updated | deleted | done => exact hs
  | @replaced r state h =>
    obtain rfl := Notifier.eq_put_of_replaced hs h
    intro y hy hk
    rcases Keyed.mem_put.1 hy with ⟨hyr, -⟩ | ⟨-, hne⟩
    · exact .inl hyr
    · exact absurd hk hne
  | unlisted h => exact fun y hy hk => absurd (hk ▸ List.mem_map_of_mem hy) h
  | removed =>
    rw [Settled, Agrees, Keyed.map_key_without]
    · simp
    all_goals nofun
  | _ => trivial

/-- What a call does to the list is done to its own record. -/
theorem advances_same (h : Advances now ok w stage x) (hload : ¬ Loading stage) (hs : Settled w.state stage)
    (hk : subject stage ≠ some k) : Same k w.state x.1.state := by
  cases h with
  | assigned => exact absurd trivial hload
  | prepended => exact same_cons fun hr => hk (congrArg some hr)
  | replaced h =>
    obtain rfl := Notifier.eq_put_of_replaced hs h
    exact same_put fun hr => hk (congrArg some hr)
  | removed => exact same_without fun hid => hk (congrArg some hid)
  | _ => exact same_refl

/-- A call keeps its record. -/
theorem advances_subject (h : Advances now ok w stage x) (hs : subject stage = some k) : subject x.2 = some k := by
  cases h with
  | read | assigned | given | skipped | stamped | unread | undecoded | ungiven | unstamped => cases hs
  | _ => exact hs

theorem advances_others (h : Advances now ok w stage x) (hload : ¬ Loading stage) : ¬ Loading x.2 := by
  cases h with
  | read => exact absurd trivial hload
  | done => exact hload
  | _ => exact id

/-- A collection stays named. -/
theorem advances_named (h : Advances now ok w stage x) (hn : Named R w.docs) : Named R x.1.docs := by
  cases h with
  | wrote | updated =>
    simp only [Notifier.upsert]
    split
    · exact hn.set
    · exact hn
  | deleted =>
    simp only [Notifier.delete]
    split
    · exact hn.erase
    · exact hn
  | _ => exact hn

/-- A call that is about to assign has just read the collection. -/
theorem advances_read (h : Advances now ok w stage x) (hl : aboutToAssign x.2 = some l) :
    (query w.docs "createdAt" 25).mapM fromMap = .ok l := by
  cases h with
  | read => exact toOption_eq_some.1 hl
  | done hdone => cases stage <;> first | cases hl | cases hdone
  | _ => cases hl

/-- A call that has just assigned was about to. -/
theorem advances_assigned (h : Advances now ok w stage x) (hx : x.2 = .loaded) (hne : stage ≠ .loaded) :
    (aboutToAssign stage).isSome := by
  cases h with
  | assigned h => simp [aboutToAssign, h, Except.toOption]
  | done => exact absurd hx hne
  | _ => cases hx

theorem advance_of_aboutToAssign (h : aboutToAssign stage = some l) : advance now ok w stage = ({ w with state := l }, .loaded) := by
  cases stage with
  | assign docs => simp only [advance, toOption_eq_some.1 h]
  | _ => cases h

end

/-! ## Once the load has assigned -/

section

variable {load : ι} {client : Nat} {l : List R} {s s₁ : System ι R}

/-- What was done to the list by `s₁`, where the load assigns `l`, is there if
`l` shows it; what has been done since is there. -/
structure After (load : ι) (client : Nat) (l : List R) (s₁ s : System ι R) : Prop where
  client_eq : ∀ i, (s.calls i).client = client
  loaded : (s.calls load).stage = .loaded
  others : ∀ i, i ≠ load → ¬ Loading (s.calls i).stage
  before : ∀ i, i ≠ load → Listed (s₁.calls i).stage →
    Listed (s.calls i).stage ∧ (Agrees (s.lists client) (s.calls i).stage ↔ Agrees l (s₁.calls i).stage)
  since : ∀ i, i ≠ load → ¬ Listed (s₁.calls i).stage → Settled (s.lists client) (s.calls i).stage

/-- Once the calls are done, nothing is undone if `l` shows what was done by `s₁`. -/
theorem After.kept (h : After load client l s₁ s) (hdone : ∀ i, remaining (s.calls i).stage = 0) :
    Kept load client s ↔ ∀ i, i ≠ load → Listed (s₁.calls i).stage → Agrees l (s₁.calls i).stage := by
  constructor
  · intro hk i hi hl
    exact (h.before i hi hl).2.1 (hk i hi)
  · intro hr i hi
    by_cases hl : Listed (s₁.calls i).stage
    · exact (h.before i hi hl).2.2 (hr i hi hl)
    · exact (h.since i hi hl).agrees (hdone i)

variable [DecidableEq ι] {m : Move ι}

theorem lists_step (hc : (s.calls m.call).client = client) : (step s m).lists client =
    (advance m.now m.ok (s.seen client) (s.calls m.call).stage).1.state := by
  simp [step, hc]

theorem After.step (h : After load client l s₁ s) (hd : Distinct load s) : After load client l s₁ (step s m) := by
  have hlists := lists_step (h.client_eq m.call)
  by_cases hm : m.call = load
  · -- The load has nothing left to do.
    have hloaded : (s.calls m.call).stage = .loaded := hm ▸ h.loaded
    have hstate : (System.step s m).lists client = s.lists client := by rw [hlists, hloaded]; rfl
    have hcalls : ∀ i, ((System.step s m).calls i).stage = (s.calls i).stage := by
      intro i
      by_cases hi : i = m.call
      · rw [hi, calls_self, hloaded]
        rfl
      · rw [calls_other hi]
    refine ⟨fun i => by rw [step_client]; exact h.client_eq i, by rw [hcalls]; exact h.loaded, ?_, ?_, ?_⟩
    · simpa only [hcalls] using h.others
    · simpa only [hcalls, hstate] using h.before
    · simpa only [hcalls, hstate] using h.since
  · have hload := h.others m.call hm
    have hsame : ∀ k, subject (s.calls m.call).stage ≠ some k → Same k (s.lists client) ((System.step s m).lists client) := by
      intro k hk
      rw [hlists]
      by_cases hl : Listed (s₁.calls m.call).stage
      · rw [(advances_listed (advances _ _ _ _) (h.before m.call hm hl).1).1]
        exact same_refl
      · have hsettled : Settled (s.seen client).state (s.calls m.call).stage := h.since m.call hm hl
        exact advances_same (advances _ _ _ _) hload hsettled hk
    have hother : ∀ i, i ≠ load → i ≠ m.call → ∀ k, subject (s.calls i).stage = some k →
        Same k (s.lists client) ((System.step s m).lists client) := fun i hi him k hk =>
      hsame k fun hk' => him (hd i m.call hi hm (by rw [hk]; rfl) (hk.trans hk'.symm))
    refine ⟨fun i => by rw [step_client]; exact h.client_eq i, ?_, fun i hi => ?_, fun i hi hl => ?_, fun i hi hl => ?_⟩
    · rw [calls_other (Ne.symm hm)]
      exact h.loaded
    · by_cases him : i = m.call
      · rw [him, calls_self]
        exact advances_others (advances _ _ _ _) hload
      · rw [calls_other him]
        exact h.others i hi
    · obtain ⟨hli, hiff⟩ := h.before i hi hl
      by_cases him : i = m.call
      · subst him
        obtain ⟨hstate, hlisted, hagrees⟩ := advances_listed (advances m.now m.ok (s.seen client) _) hli
        rw [hlists, calls_self, h.client_eq, hstate]
        exact ⟨hlisted, (hagrees _).trans hiff⟩
      · rw [calls_other him]
        exact ⟨hli, (agrees_congr (hother i hi him)).symm.trans hiff⟩
    · have hsi := h.since i hi hl
      by_cases him : i = m.call
      · subst him
        rw [hlists, calls_self, h.client_eq]
        exact advances_settled (advances _ _ _ _) hload hsi
      · rw [calls_other him]
        exact (settled_congr (hother i hi him)).1 hsi

end

/-! ## Until the load assigns -/

section

variable {load : ι} {client : Nat} {l : List R} {s : System ι R}

/-- What the load has read has each id once. -/
structure Before (load : ι) (client : Nat) (s : System ι R) : Prop where
  client_eq : ∀ i, (s.calls i).client = client
  named : Named R s.docs
  others : ∀ i, i ≠ load → ¬ Loading (s.calls i).stage
  read : ∀ l ∈ aboutToAssign (s.calls load).stage, (l.map key).Nodup

variable [DecidableEq ι] {m : Move ι}

theorem Before.step (h : Before load client s) : Before load client (step s m) where
  client_eq i := by rw [step_client]; exact h.client_eq i
  named := advances_named (advances _ _ _ _) h.named
  others i hi := by
    by_cases him : i = m.call
    · rw [him, calls_self]
      exact advances_others (advances _ _ _ _) (h.others m.call (him ▸ hi))
    · rw [calls_other him]
      exact h.others i hi
  read l hl := by
    by_cases hm : load = m.call
    · rw [hm, calls_self] at hl
      exact h.named.nodup (advances_read (advances _ _ _ _) hl)
    · rw [calls_other hm] at hl
      exact h.read l hl

theorem Before.assign (h : Before load client s) (hm : m.call = load) (hl : aboutToAssign (s.calls load).stage = some l) :
    After load client l s (System.step s m) := by
  have ha : advance m.now m.ok (s.seen client) (s.calls m.call).stage = ({ s.seen client with state := l }, .loaded) :=
    advance_of_aboutToAssign (hm ▸ hl)
  have hlists : (System.step s m).lists client = l := by rw [lists_step (h.client_eq m.call), ha]
  have hother : ∀ i, i ≠ load → (System.step s m).calls i = s.calls i := fun i hi => calls_other (hm ▸ hi)
  refine ⟨fun i => by rw [step_client]; exact h.client_eq i, ?_, fun i hi => ?_, fun i hi hli => ?_, fun i hi hli => ?_⟩
  · rw [← hm, calls_self, h.client_eq, ha]
  · rw [hother i hi]
    exact h.others i hi
  · rw [hother i hi, hlists]
    exact ⟨hli, Iff.rfl⟩
  · rw [hother i hi, hlists]
    exact settled_of_nodup (h.read l hl) hli

end

/-! ## Whole runs -/

section

variable {load : ι} {client : Nat} {s : System ι R} [DecidableEq ι] {ms : List (Move ι)}

theorem subject_run {i : ι} {k : String} (h : subject (s.calls i).stage = some k) :
    subject ((run step s ms).calls i).stage = some k := by
  induction ms generalizing s with
  | nil => exact h
  | cons m ms ih =>
    rw [run_cons]
    refine ih ?_
    by_cases hi : i = m.call
    · rw [hi] at h ⊢
      rw [calls_self]
      exact advances_subject (advances _ _ _ _) h
    · rw [calls_other hi]
      exact h

/-- Calls that are of different records in the end always were. -/
theorem distinct_along (h : Distinct load (run step s ms)) : Along step (fun s _ => Distinct load s) s ms := by
  induction ms generalizing s with
  | nil => trivial
  | cons m ms ih =>
    refine ⟨fun i j hi hj hsome hij => ?_, ih h⟩
    obtain ⟨k, hk⟩ := Option.isSome_iff_exists.1 hsome
    have hi' : subject ((run step s (m :: ms)).calls i).stage = some k := subject_run hk
    have hj' : subject ((run step s (m :: ms)).calls j).stage = some k := subject_run (hij ▸ hk)
    exact h i j hi hj (by rw [hi']; rfl) (hi'.trans hj'.symm)

/-- **Nothing is undone exactly where the load has read what it overwrites**:
for one load among any operations of a client on different records, in any
interleaving in which the load assigns and every call is let do all it has
to do, remote calls failing or not. -/
theorem kept_iff (hnamed : Named R s.docs) (hclient : ∀ i, (s.calls i).client = client)
    (hload : (s.calls load).stage = .load) (hothers : ∀ i, i ≠ load → ¬ Loading (s.calls i).stage)
    (hloaded : ((run step s ms).calls load).stage = .loaded) (hdistinct : Distinct load (run step s ms))
    (hms : Complete s ms) : Kept load client (run step s ms) ↔ Along step (Reflects load) s ms := by
  have hstart : Before load client s := by
    refine ⟨hclient, hnamed, hothers, fun l hl => ?_⟩
    rw [hload] at hl
    cases hl
  have hdone := hms.remaining_eq
  -- Wherever the load assigns, what has been done by then decides.
  have hcut : ∀ pre m post l, ms = pre ++ m :: post → m.call = load →
      aboutToAssign ((run step s pre).calls load).stage = some l →
      (Kept load client (run step s ms) ↔ ∀ i, i ≠ load → Listed ((run step s pre).calls i).stage →
        Agrees l ((run step s pre).calls i).stage) := by
    intro pre m post l hes hm hl
    subst hes
    have hbefore : Before load client (run step s pre) := run_invariant (fun _ _ h => h.step) pre hstart
    have hd := (along_append.1 (distinct_along hdistinct)).2.2
    have hafter : After load client l (run step s pre) (run step s (pre ++ m :: post)) := by
      rw [run_append, run_cons]
      exact Along.invariant (fun _ _ h hd => h.step hd) (hbefore.assign hm hl) hd
    exact hafter.kept hdone
  constructor
  · intro hk
    refine along_iff_cut.2 fun pre m post hes hm l hl i hi hli => ?_
    exact (hcut pre m post l hes hm hl).1 hk i hi hli
  · intro hr
    have hne : ¬ (s.calls load).stage = .loaded := by rw [hload]; nofun
    obtain ⟨pre, m, post, hes, hnot, hthen⟩ := exists_first (p := fun s : System ι R => (s.calls load).stage = .loaded) hne hloaded
    have hm : m.call = load := by
      by_contra hm
      rw [calls_other (Ne.symm hm)] at hthen
      exact hnot hthen
    subst hm
    rw [calls_self] at hthen
    obtain ⟨l, hl⟩ := Option.isSome_iff_exists.1 (advances_assigned (advances _ _ _ _) hthen hnot)
    exact (hcut pre m post l hes rfl hl).2 fun i hi hli => along_iff_cut.1 hr pre m post hes rfl l hl i hi hli

end

end Reload
