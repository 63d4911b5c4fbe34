import Blockwise.Proofs.Matching
import Blockwise.Proofs.Stream.Reading
import Blockwise.Proofs.Tier.Names
import Blockwise.Proofs.Tier.Others
import Blockwise.Proofs.Volume.Names
import Blockwise.Volume.Guard
import Blockwise.Volume.Memory

namespace Blockwise

open Act

-- The calls that a close makes to the volume below, with their answers.
inductive VolumeCall where
  | list (answer : Except StorageError (List String))
  | stamp (name : String) (answer : Except StorageError Nat)
  | close (answer : Except StorageError Unit)
  deriving DecidableEq

namespace Volume

variable {σ ι δ κ β α : Type}

-- The calls of a close break no contract, whether they succeed or fail.
structure Answers (v : Volume σ ι δ κ) : Prop where
  list : ∀ s, Ends v.list s (fun _ _ => True) fun e _ => e.Handled
  stamp : ∀ name s, Ends (v.stamp name) s (fun _ _ => True) fun e _ => e.Handled
  close : ∀ s, Ends v.close s (fun _ _ => True) fun e _ => e.Handled

-- Each call of a close is entered in a trace. The calls before the last one make no use of the cache.
structure Traced (v : Volume (Site β) ι δ κ) (trace : β → List VolumeCall) : Prop where
  list : ∀ s, Ends (attempt v.list) s
    (fun answer s' => s'.tier = s.tier ∧ trace s'.store = trace s.store ++ [.list answer])
    (fun _ _ => False)
  stamp : ∀ name s, Ends (attempt (v.stamp name)) s
    (fun answer s' => s'.tier = s.tier ∧ trace s'.store = trace s.store ++ [.stamp name answer])
    (fun _ _ => False)
  close : ∀ s, Ends (attempt v.close) s
    (fun answer s' => trace s'.store = trace s.store ++ [.close answer]) (fun _ _ => False)

-- Enters the answer of a call in the list that is kept where a guard would be.
def noting (note : Except StorageError α → VolumeCall) (x : Act β α) :
    Act (Guarded (List VolumeCall) β) α := do
  let answer ← attempt (Guarded.onInner x)
  modify fun s => { s with guard := s.guard ++ [note answer] }
  Act.lift (answer.mapError .error)

-- A volume that keeps a list of the calls of a close.
def noted (v : Volume β ι δ κ) : Volume (Guarded (List VolumeCall) β) ι δ κ :=
  { v.lift Guarded.onInner id id id with
    list := noting .list v.list
    stamp name := noting (.stamp name) (v.stamp name)
    close := noting .close v.close }

theorem noting_ends {note : Except StorageError α → VolumeCall} {x : Act β α}
    (hx : ∀ t, Ends x t (fun _ _ => True) fun e _ => e.Handled)
    (s : Site (Guarded (List VolumeCall) β)) :
    Ends (attempt (Site.onStore (noting note x))) s
      (fun answer s' => s'.tier = s.tier ∧ s'.store.guard = s.store.guard ++ [note answer])
      (fun _ _ => False) := by
  simp only [ends_attempt, Site.onStore, ends_onPart, noting, ends_bind, Guarded.onInner, ends_modify]
  refine (hx s.store.inner).imp (fun a t _ => ⟨trivial, rfl⟩) fun e t hhandled => ?_
  cases e with
  | error e => exact ⟨trivial, rfl⟩
  | breach b => exact hhandled

-- A plain volume of any kind can be traced in this way.
theorem Answers.traced {v : Volume β ι δ κ} (h : v.Answers) :
    (Directory.plain v.noted).Traced Guarded.guard where
  list := noting_ends h.list
  stamp name := noting_ends (h.stamp name)
  close s := (noting_ends h.close s).imp (fun _ _ => And.right) fun _ _ => id

-- A guard refuses calls as it likes.
theorem Answers.guarded {γ : Type} {v : Volume β ι δ κ} (h : v.Answers) (verdict : Verdict γ) :
    (Guarded.volume verdict v).Answers := by
  have hguarded {α : Type} {x : Act β α} (hx : ∀ t, Ends x t (fun _ _ => True) fun e _ => e.Handled)
      (kind : CallKind) (name : String) (s : Guarded γ β) :
      Ends (do Guarded.ask verdict kind name; Guarded.onInner x) s (fun _ _ => True)
        fun e _ => e.Handled := by
    simp only [ends_bind, Guarded.ask, Guarded.onInner, ends_onPart, ends_mapFailure]
    exact .always (fun _ _ => hx s.inner) fun _ _ => trivial
  exact ⟨hguarded h.list .list "", fun name => hguarded (h.stamp name) .stat name,
    hguarded h.close .close ""⟩

end Volume

theorem MemoryStore.volume_answers (stamped : Bool) : (MemoryStore.volume stamped).Answers := by
  have hopen (t : MemoryStore) : Ends MemoryStore.requireOpen t (fun _ _ => True)
      fun e _ => e.Handled := by
    rw [MemoryStore.requireOpen, ends_bind, ends_get]
    split
    · trivial
    · trivial
  have hfind (name : String) (t : MemoryStore) : Ends (MemoryStore.find name) t (fun _ _ => True)
      fun e _ => e.Handled := by
    rw [MemoryStore.find, ends_bind, ends_get]
    cases t.files[name]? with
    | none => trivial
    | some file => trivial
  refine ⟨fun t => ?_, fun name t => ?_, fun t => trivial⟩
  · exact ends_bind.mpr ((hopen t).imp (fun _ _ _ => trivial) fun _ _ => id)
  · cases stamped with
    | true => exact ends_bind.mpr ((hfind name t).imp (fun _ _ _ => trivial) fun _ _ => id)
    | false => trivial

namespace Directory

variable {β ι ο κ α : Type} {d : Directory} {below : Below β ι ο κ} {trace : β → List VolumeCall}
  {s s' s'' : Site β} {stamps stamps' : List (String × Except StorageError Nat)}

-- The failure of a call, if it says more than that something is not there.
def notable : Except StorageError α → Option StorageError
  | .ok _ => none
  | .error e => if e.isNotFound then none else some e

-- The first of a number of failures is the answer.
def firstOf : List StorageError → Except StorageError Unit
  | [] => .ok ()
  | e :: _ => .error e

theorem firstFailure_firstOf (es es' : List StorageError) :
    firstFailure (firstOf es) (firstOf es') = firstOf (es ++ es') := by
  cases es with
  | nil => rfl
  | cons e es => rfl

-- What is deleted for a file whose stamp was asked for.
def deletion (d : Directory) : String × Except StorageError Nat → Option CacheCall
  | (name, .ok stamp) => some (.delete (d.version name stamp))
  | (_, .error _) => none

-- The files were purged one after the other, each after its stamp was asked for.
structure Purged (d : Directory) (trace : β → List VolumeCall)
    (stamps : List (String × Except StorageError Nat)) (s s' : Site β) : Prop where
  sound : s'.tier.Sound
  calls : trace s'.store =
    trace s.store ++ stamps.map fun (name, answer) => .stamp name answer
  deleted : s'.tier.journal.toList = s.tier.journal.toList ++ stamps.filterMap d.deletion
  stays : ∀ name, s.tier.Unmapped name → s'.tier.Unmapped name
  gone : ∀ name stamp, (name, .ok stamp) ∈ stamps → s'.tier.Unmapped (d.version name stamp)

theorem Purged.trans (h : d.Purged trace stamps s s') (h' : d.Purged trace stamps' s' s'') :
    d.Purged trace (stamps ++ stamps') s s'' := by
  refine ⟨h'.sound, ?_, ?_, fun name hname => h'.stays name (h.stays name hname), ?_⟩
  · rw [h'.calls, h.calls, List.map_append, List.append_assoc]
  · rw [h'.deleted, h.deleted, List.filterMap_append, List.append_assoc]
  · intro name stamp hmem
    rcases List.mem_append.mp hmem with hmem | hmem
    · exact h'.stays _ (h.gone name stamp hmem)
    · exact h'.gone name stamp hmem

theorem purged_nil (hs : s.tier.Sound) : d.Purged trace [] s s :=
  ⟨hs, (List.append_nil _).symm, (List.append_nil _).symm, fun _ => id, nofun⟩

-- A stamp that cannot be read leaves the cache.
theorem purged_unstamped (hs : s.tier.Sound) {name : String} {e : StorageError}
    (h : s'.tier = s.tier ∧ trace s'.store = trace s.store ++ [.stamp name (.error e)]) :
    d.Purged trace [(name, .error e)] s s' := by
  obtain ⟨htier, hcalls⟩ := h
  refine ⟨htier ▸ hs, hcalls, ?_, fun name => htier ▸ id, fun name stamp hmem => ?_⟩
  · rw [htier]
    exact (List.append_nil _).symm
  · cases List.mem_singleton.mp hmem

theorem delete_purged (hs : s.tier.Sound) {name : String} {stamp : Nat}
    (h : s'.tier = s.tier ∧ trace s'.store = trace s.store ++ [.stamp name (.ok stamp)]) :
    Ends (Site.onTier (Tier.delete (d.version name stamp))) s'
      (fun _ => d.Purged trace [(name, .ok stamp)] s) (fun _ _ => False) := by
  obtain ⟨htier, hcalls⟩ := h
  rw [Site.ends_onTier, htier]
  refine (Tier.delete_unmapped hs _).imp ?_ fun _ _ => id
  intro _ t hdone
  obtain ⟨hjournal, hsound, hgone, hstays⟩ := hdone
  refine ⟨hsound, hcalls, ?_, hstays, fun name' stamp' hmem => ?_⟩
  · rw [hjournal, Array.toList_push]
    rfl
  · cases List.mem_singleton.mp hmem
    exact hgone

theorem purge_ends (hbelow : below.Traced trace) (hs : s.tier.Sound) (name : String) :
    Ends (attempt (d.purge below name)) s
      (fun next s' => ∃ answer, d.Purged trace [(name, answer)] s s' ∧
        next = firstOf (notable answer).toList)
      (fun _ _ => False) := by
  have hstamped := hbelow.stamp name s
  simp only [ends_attempt] at hstamped
  simp only [ends_attempt, purge, cacheName, ends_bind, ends_pure]
  refine hstamped.imp ?_ fun e s' h => ?_
  · intro stamp s' h
    exact (delete_purged hs h).imp (fun _ _ hpurged => ⟨_, hpurged, rfl⟩) fun _ _ => False.elim
  · cases e with
    | breach b => exact h
    | error e =>
      have hpurged := purged_unstamped (d := d) hs h
      show Ends (if !e.isNotFound then fail e else pure ()) s' _ _
      cases hmissing : e.isNotFound with
      | true => exact ⟨_, hpurged, by rw [notable, if_pos hmissing]; rfl⟩
      | false => exact ⟨_, hpurged, by rw [notable, if_neg (by simp [hmissing])]; rfl⟩

-- The failures so far, and then those of the files that are left.
theorem purgeEach_ends (hbelow : below.Traced trace) (hs : s.tier.Sound) (es : List StorageError)
    (names : List String) :
    Ends (names.foldlM (fun first name => do
        let next ← attempt (d.purge below name)
        return firstFailure first next) (firstOf es)) s
      (fun first s' => ∃ stamps, stamps.map Prod.fst = names ∧ d.Purged trace stamps s s' ∧
        first = firstOf (es ++ stamps.filterMap fun stamp => notable stamp.2))
      (fun _ _ => False) := by
  induction names generalizing es s with
  | nil => exact ⟨[], rfl, purged_nil hs, congrArg firstOf (List.append_nil es).symm⟩
  | cons name names ih =>
    simp only [List.foldlM_cons, ends_bind, ends_pure]
    refine (purge_ends hbelow hs name).imp ?_ fun _ _ => id
    intro next s₁ hnext
    obtain ⟨answer, hpurged, rfl⟩ := hnext
    rw [firstFailure_firstOf]
    refine (ih hpurged.sound _).imp ?_ fun _ _ => id
    intro first s₂ hrest
    obtain ⟨stamps, rfl, hrest, rfl⟩ := hrest
    refine ⟨(name, answer) :: stamps, rfl, hpurged.trans hrest, ?_⟩
    cases hnotable : notable answer with
    | none => simp only [List.filterMap_cons, hnotable, Option.toList, List.append_nil]
    | some e =>
      simp only [List.filterMap_cons, hnotable, Option.toList, List.append_assoc, List.singleton_append]

-- The listed files, which are none where the listing failed.
def listed (listing : Except StorageError (List String)) : List String := listing.toOption.getD []

theorem purgeListed_ends (hbelow : below.Traced trace) (hs : s.tier.Sound) :
    Ends (d.purgeListed below) s
      (fun first s' => ∃ listing stamps s₁, stamps.map Prod.fst = listed listing ∧
        s₁.tier = s.tier ∧ trace s₁.store = trace s.store ++ [.list listing] ∧
        d.Purged trace stamps s₁ s' ∧
        first = firstOf ((notable listing).toList ++ stamps.filterMap fun stamp => notable stamp.2))
      (fun _ _ => False) := by
  rw [purgeListed, ends_bind]
  refine (hbelow.list s).imp ?_ fun _ _ => id
  intro listing s₁ hlisted
  obtain ⟨htier, hcalls⟩ := hlisted
  cases listing with
  | ok names =>
    refine (purgeEach_ends hbelow (htier ▸ hs) [] names).imp ?_ fun _ _ => id
    intro first s' h
    obtain ⟨stamps, hnames, hpurged, hfirst⟩ := h
    exact ⟨.ok names, stamps, s₁, hnames, htier, hcalls, hpurged, hfirst⟩
  | error e =>
    refine ⟨.error e, [], s₁, rfl, htier, hcalls, purged_nil (htier ▸ hs), ?_⟩
    cases hmissing : e.isNotFound with
    | true => rw [if_pos rfl, notable, if_pos hmissing]; rfl
    | false => rw [if_neg (by simp), notable, if_neg (by simp [hmissing])]; rfl

-- What the calls to the volume below answered in a close.
structure Answered where
  listing : Except StorageError (List String)
  stamps : List (String × Except StorageError Nat)
  closing : Except StorageError Unit

namespace Answered

def calls (a : Answered) : List VolumeCall :=
  .list a.listing :: a.stamps.map (fun (name, answer) => .stamp name answer) ++ [.close a.closing]

def earlier (a : Answered) : List StorageError :=
  (notable a.listing).toList ++ a.stamps.filterMap fun stamp => notable stamp.2

-- The last call counts as failed even if it says that something is not there.
def last (a : Answered) : List StorageError :=
  match a.closing with
  | .ok _ => []
  | .error e => [e]

def failures (a : Answered) : List StorageError := a.earlier ++ a.last

end Answered

-- What the last call answers is reported if it is a failure, and what was seen before if it is none.
theorem report_ok {u : Site β} (a : Answered) (hclosing : attempt below.close u = .ok a.closing s') :
    attempt (do
      below.close
      match firstOf a.earlier with
      | .ok _ => return ()
      | .error e => Act.fail e) u = .ok (firstOf (a.last ++ a.earlier)) s' := by
  have hlast : firstOf (a.last ++ a.earlier) = firstFailure a.closing (firstOf a.earlier) := by
    rw [Answered.last]
    cases a.closing <;> rfl
  rw [hlast]
  unfold attempt at hclosing ⊢
  rcases hclose : below.close u with ⟨_, s₁⟩ | ⟨e | b, s₁⟩
  · rw [hclose] at hclosing
    obtain ⟨hok, rfl⟩ := EStateM.Result.ok.inj hclosing
    rw [bind_ok hclose, ← hok, firstFailure]
    cases firstOf a.earlier <;> rfl
  · rw [hclose] at hclosing
    obtain ⟨herror, rfl⟩ := EStateM.Result.ok.inj hclosing
    rw [bind_error hclose, ← herror, firstFailure]
  · rw [hclose] at hclosing
    cases hclosing

theorem close_ok (henabled : d.policy.enabled = true) (hbelow : below.Traced trace)
    (hs : s.tier.Sound) :
    ∃ (a : Answered) (s₁ u s' : Site β), a.stamps.map Prod.fst = listed a.listing ∧
      s₁.tier = s.tier ∧ trace s₁.store = trace s.store ++ [.list a.listing] ∧
      d.Purged trace a.stamps s₁ u ∧ attempt below.close u = .ok a.closing s' ∧
      trace s'.store = trace u.store ++ [.close a.closing] ∧
      attempt (d.close below) s = .ok (firstOf (a.last ++ a.earlier)) s' := by
  obtain ⟨first, u, hrun, listing, stamps, s₁, hnames, htier, hlisted, hpurged, rfl⟩ :=
    (purgeListed_ends (d := d) hbelow hs).exists_ok
  obtain ⟨closing, s', hclosing, hcalls⟩ := (hbelow.close u).exists_ok
  refine ⟨⟨listing, stamps, closing⟩, s₁, u, s', hnames, htier, hlisted, hpurged, hclosing, hcalls, ?_⟩
  rw [← report_ok ⟨listing, stamps, closing⟩ hclosing]
  unfold attempt
  rw [close, if_pos henabled, bind_ok hrun]
  rfl

theorem firstOf_eq_ok {es : List StorageError} : firstOf es = .ok () ↔ es = [] := by
  cases es with
  | nil => exact iff_of_true rfl rfl
  | cons e es => exact iff_of_false nofun nofun

-- A close of a directory with any caching, whichever calls to the volume below fail. The volume is asked
-- for its files, for the stamp of each of them in turn, and to close, once each. Before the last call every
-- version whose stamp could be read is deleted from the cache, once each and in this order, and nothing of
-- it is left there. The close fails exactly if one of the calls did, where files that are not there (any
-- more) do not count, and its failure is that of the first call unless the last one failed as well.
theorem closed_past_failures (d : Directory) (henabled : d.policy.enabled = true)
    (hbelow : below.Traced trace) (s : Site β) (hfiles : s.tier.Reached) :
    ∃ (a : Answered) (u s' : Site β) (answer : Except StorageError Unit),
      attempt (d.close below) s = .ok answer s' ∧ attempt below.close u = .ok a.closing s' ∧
      trace s'.store = trace s.store ++ a.calls ∧ a.stamps.map Prod.fst = listed a.listing ∧
      u.tier.journal.toList = s.tier.journal.toList ++ a.stamps.filterMap d.deletion ∧
      (∀ name stamp, (name, .ok stamp) ∈ a.stamps → u.tier.Unmapped (d.version name stamp)) ∧
      (answer = .ok () ↔ a.failures = []) ∧
      (a.earlier = [] ∨ a.last = [] → answer = firstOf a.failures) := by
  have hs : s.tier.Sound := fun c hc => (hfiles.tidy c hc).sound
  obtain ⟨a, s₁, u, s', hnames, htier, hlisted, hpurged, hclosing, hclosed, hrun⟩ :=
    close_ok (d := d) henabled hbelow hs
  refine ⟨a, u, s', _, hrun, hclosing, ?_, hnames, ?_, hpurged.gone, ?_, ?_⟩
  · rw [hclosed, hpurged.calls, hlisted, Answered.calls]
    simp only [List.append_assoc, List.cons_append, List.nil_append]
  · rw [hpurged.deleted, htier]
  · rw [firstOf_eq_ok, Answered.failures, List.append_eq_nil_iff, List.append_eq_nil_iff, and_comm]
  · intro hone
    rw [Answered.failures]
    rcases hone with hnone | hnone
    · rw [hnone, List.append_nil, List.nil_append]
    · rw [hnone, List.append_nil, List.nil_append]

-- A store in memory behind a guard, its calls noted.
abbrev notedMemory : Below (Guarded (List VolumeCall) (Guarded Faults MemoryStore)) MemoryInput
    MemoryOutput MemoryLock :=
  plain (Volume.noted (Guarded.volume Faults.verdict (MemoryStore.volume true)))

-- The stamp of one of three files cannot be read, and the other two are purged.
theorem closed_past_failures_stamp :
    ∃ c, FileCache.ofSizing (.ofLayout 1 8 8192) = .ok c ∧
    let d : Directory := ⟨"d", {}, 0⟩
    let store := ((({} : MemoryStore).publish "a" ⟨#[1]⟩).publish "b" ⟨#[2]⟩).publish "c" ⟨#[3]⟩
    let s : Site _ := ⟨{ files := some c }, ⟨[], ⟨[⟨.stat, "b", 0, false⟩], store⟩⟩⟩
    d.policy.enabled = true ∧ ∃ (a : Answered) (u s' : Site _),
      attempt (d.close notedMemory) s = .ok (.error (.io (.other "stat failed"))) s' ∧
      attempt notedMemory.close u = .ok a.closing s' ∧ s'.store.guard = a.calls ∧
      a.calls = [.list (.ok ["a", "b", "c"]), .stamp "a" (.ok 1),
        .stamp "b" (.error (.io (.other "stat failed"))), .stamp "c" (.ok 3), .close (.ok ())] ∧
      u.tier.journal.toList = a.stamps.filterMap d.deletion ∧
      ∀ name stamp, (name, .ok stamp) ∈ a.stamps → u.tier.Unmapped (d.version name stamp) := by
  refine ⟨_, rfl, ?_⟩
  intro d store s
  have hfiles : s.tier.Reached :=
    Tier.reached_of_sizing (show FileCache.ofSizing (.ofLayout 1 8 8192) = _ from rfl) rfl
  have henabled : d.policy.enabled = true := by decide
  obtain ⟨a, u, s', answer, hrun, hclosing, hcalls, _, hdeleted, hgone, _⟩ := closed_past_failures d henabled
    ((MemoryStore.volume_answers true).guarded Faults.verdict).traced s hfiles
  have hanswer : (outcome (attempt (d.close notedMemory)) s).1 =
    .ok (.error (.io (.other "stat failed"))) := by decide +kernel
  have hguard : (outcome (attempt (d.close notedMemory)) s).2.store.guard =
    [.list (.ok ["a", "b", "c"]), .stamp "a" (.ok 1),
      .stamp "b" (.error (.io (.other "stat failed"))), .stamp "c" (.ok 3), .close (.ok ())] := by
    decide +kernel
  rw [outcome, hrun] at hanswer hguard
  obtain rfl := Except.ok.inj hanswer
  exact ⟨henabled, a, u, s', hrun, hclosing, hcalls, hcalls.symm.trans hguard, hdeleted, hgone⟩

-- Where a stamp and then the last call fail, the failure of the last call is reported.
theorem close_reports_last :
    ∃ c, FileCache.ofSizing (.ofLayout 1 8 8192) = .ok c ∧
    let d : Directory := ⟨"d", {}, 0⟩
    let store := ({} : MemoryStore).publish "f" ⟨#[120]⟩
    let s : Site (Guarded (List VolumeCall) (Guarded Faults MemoryStore)) :=
      ⟨{ files := some c }, ⟨[], ⟨[⟨.stat, "f", 0, false⟩, ⟨.close, "", 0, false⟩], store⟩⟩⟩
    let run := outcome (d.close notedMemory) s
    run.2.store.guard = [.list (.ok ["f"]), .stamp "f" (.error (.io (.other "stat failed"))),
        .close (.error (.io (.other "close failed")))] ∧
      run.1 = .error (.error (.io (.other "close failed"))) :=
  ⟨_, rfl, by decide +kernel, by decide +kernel⟩

end Directory

end Blockwise
