import Blockwise.FileCache
import Blockwise.Proofs.Engine.Accounting

namespace Blockwise

namespace FileCache

open Act

variable {m m' : Metered FileCache} {file : Nat} {entered looked : Nat}

-- The engine of a file cache with the counters.
def metered (m : Metered FileCache) : Metered (Engine BlockKey) := ⟨m.part.engine, m.tally⟩

-- The key of a block of a name, which gets the next number if it has none.
def targetKey (c : FileCache) (name : String) (block : Nat) : BlockKey :=
  ⟨c.names[name]?.getD c.nextFile, block⟩

theorem ends_billed {α : Type} {x : Engine.Run BlockKey α}
    (h : Ends x (metered m) (fun _ e => Engine.Billed entered looked (metered m) e)
      (fun _ e => e = metered m)) :
    Ends (onEngine x) m (fun _ m' => Engine.Billed entered looked (metered m) (metered m'))
      (fun _ m' => metered m' = metered m) := by
  unfold onEngine
  rw [ends_onPart]
  exact h.imp (fun _ _ => id) fun _ _ => id

theorem fileOf_metered (name : String) :
    Ends (fileOf name) m
      (fun file m' => file = m.part.names[name]?.getD m.part.nextFile ∧ metered m' = metered m)
      (fun _ _ => False) := by
  cases hname : m.part.names[name]? with
  | some file =>
    simp only [fileOf, ends_bind, ends_get, hname, ends_pure, Option.getD_some]
    exact ⟨trivial, trivial⟩
  | none =>
    simp only [fileOf, modifyFiles, ends_bind, ends_get, hname, ends_modify, ends_pure,
      Option.getD_none]
    exact ⟨trivial, rfl⟩

-- A name that is mapped before a store is refused moves no counter.
theorem update_billed (hs : m.part.engine.Sound) (name : String) (block offset : Nat)
    (data : Bytes) :
    Ends (update name block offset data) m
      (fun _ m' => Engine.Billed (if m.part.targetKey name block ∈ m.part.engine.keys then 0 else 1) 0
        (metered m) (metered m'))
      (fun _ m' => metered m' = metered m) := by
  simp only [update, ends_bind]
  refine (fileOf_metered name).imp ?_ fun _ _ => False.elim
  intro file m₁ hfile
  obtain ⟨rfl, hsame⟩ := hfile
  unfold onEngine
  rw [ends_onPart]
  change Ends _ (metered m₁) _ _
  rw [hsame]
  refine (Engine.store_billed (m := metered m) hs _ offset data).imp ?_ fun _ _ => id
  intro flag e hdone
  obtain ⟨rfl, hbilled⟩ := hdone
  exact hbilled

theorem fetch_billed (hs : m.part.engine.Sound) (name : String) (block offset len : Nat) :
    Ends (fetch name block offset len) m
      (fun _ m' => Engine.Billed 0 1 (metered m) (metered m'))
      (fun _ m' => metered m' = metered m) := by
  cases hname : m.part.names[name]? with
  | some file =>
    simp only [fetch, ends_bind, ends_get, hname]
    exact ends_billed (Engine.fetch_billed hs _ offset len)
  | none =>
    simp only [fetch, ends_bind, ends_get, hname, ends_modify, ends_pure]
    exact .missed (m := metered m) hs

-- Blocks that are dropped together are each counted, and only if they are still there.
theorem dropEach_billed (hs : m.part.engine.Sound) (file : Nat) (blocks : List Nat) :
    Ends (blocks.forM fun block => do let _ ← onEngine (Engine.delete ⟨file, block⟩)) m
      (fun _ m' => Engine.Billed 0 0 (metered m) (metered m')) (fun _ _ => False) := by
  induction blocks generalizing m with
  | nil => exact .refl (m := metered m) hs
  | cons block blocks ih =>
    simp only [List.forM_eq_forM, List.forM_cons, ends_bind, onEngine, ends_onPart, ends_pure]
    refine (Engine.delete_billed (m := metered m) hs _).imp ?_ fun _ _ => id
    intro _ e hfirst
    refine (ih (m := ⟨{ m.part with engine := e.part }, e.tally⟩) hfirst.sound).imp ?_ fun _ _ => id
    intro _ m' hrest
    exact hfirst.trans hrest

theorem dropBlocks_billed (hs : m.part.engine.Sound) (file : Nat) :
    Ends (dropBlocks file) m (fun _ m' => Engine.Billed 0 0 (metered m) (metered m'))
      (fun _ _ => False) := by
  cases htracked : m.part.tracked[file]? with
  | none =>
    simp only [dropBlocks, ends_bind, ends_get, htracked, ends_pure]
    exact .refl (m := metered m) hs
  | some blocks =>
    simp only [dropBlocks, ends_bind, ends_get, htracked]
    exact dropEach_billed (m := ⟨{ m.part with tracked := m.part.tracked.erase file }, m.tally⟩) hs
      file blocks.toList

theorem delete_billed (hs : m.part.engine.Sound) (name : String) :
    Ends (delete name) m (fun _ m' => Engine.Billed 0 0 (metered m) (metered m'))
      (fun _ _ => False) := by
  cases hname : m.part.names[name]? with
  | none =>
    simp only [delete, ends_bind, ends_get, hname, ends_pure]
    exact .refl (m := metered m) hs
  | some file =>
    simp only [delete, ends_bind, ends_get, hname]
    exact dropBlocks_billed (m := ⟨{ m.part with names := m.part.names.erase name }, m.tally⟩) hs
      file

theorem rename_billed (hs : m.part.engine.Sound) (source dest : String) :
    Ends (rename source dest) m (fun _ m' => Engine.Billed 0 0 (metered m) (metered m'))
      (fun _ _ => False) := by
  cases hsource : m.part.names[source]? with
  | none =>
    simp only [rename, ends_bind, ends_get, hsource, ends_pure]
    exact .refl (m := metered m) hs
  | some file =>
    simp only [rename, modifyFiles, ends_bind, ends_get, hsource, ends_modify]
    cases (m.part.names.erase source)[dest]? with
    | none => exact .refl (m := metered m) hs
    | some old =>
      exact dropBlocks_billed (m := ⟨{ m.part with
        names := (m.part.names.erase source).insert dest file }, m.tally⟩) hs old

-- An update under a key that has no block.
def Step.enters (c : FileCache) : Step → Nat
  | .update name block _ _ => if c.engine.contains (c.targetKey name block) then 0 else 1
  | _ => 0

-- A fetch, whether or not its name is known.
def Step.looks : Step → Nat
  | .fetch .. => 1
  | _ => 0

theorem step_billed (hs : m.part.engine.Sound) (s : Step) :
    Ends (step s) m
      (fun _ m' => Engine.Billed (s.enters m.part) s.looks (metered m) (metered m'))
      (fun _ m' => metered m' = metered m) := by
  cases s with
  | update name block offset data =>
    simp only [step, ends_bind, ends_pure, Step.enters, Engine.contains_iff]
    exact update_billed hs name block offset data
  | fetch name block offset len =>
    rw [step, ends_map]
    exact fetch_billed hs name block offset len
  | delete name =>
    simp only [step, ends_bind, ends_pure]
    exact (delete_billed hs name).imp (fun _ _ => id) fun _ _ => False.elim
  | rename source dest =>
    simp only [step, ends_bind, ends_pure]
    exact (rename_billed hs source dest).imp (fun _ _ => id) fun _ _ => False.elim

end FileCache

-- File caches on engines that report to one set of counters. Each is kept with the number of its
-- engine, which may have others on top of it.
structure Suite where
  fleet : Fleet BlockKey
  caches : List (Nat × FileCache)

namespace Suite

open Act

variable {u : Suite} {j i a b entered looked : Nat} {c : FileCache} {m : Metered FileCache}

-- A file cache with the engine as it is now.
def cache (u : Suite) (j : Nat) : Except Breach (Nat × FileCache) := do
  let (i, c) ← Breach.elementAt u.caches j
  let engine ← u.fleet.engine i
  return (i, { c with engine })

inductive Call where
  | engine (i : Nat) (s : Engine.Step BlockKey)
  | cache (j : Nat) (s : FileCache.Step)

def onFleet {α : Type} (x : EStateM Breach (Fleet BlockKey) α) : EStateM Breach Suite α :=
  onPart (·.fleet) (fun u fleet => { u with fleet }) x

-- Runs an action on a file cache and puts its engine and the counters back.
def onCache {α : Type} (j : Nat) (x : FileCache.Run α) : EStateM Breach Suite α := fun u =>
  match u.cache j with
  | .error breach => .error breach u
  | .ok (i, c) =>
    onPart (fun u => ⟨c, u.fleet.tally⟩) (fun u m =>
      ⟨u.fleet.keep i (FileCache.metered m), u.caches.set j (i, m.part)⟩) x u

def call : Call → EStateM Breach Suite Unit
  | .engine i s => do let _ ← onFleet (Fleet.step i s)
  | .cache j s => do let _ ← onCache j (FileCache.step s)

-- A store or an update under a key that its engine has no block for at that moment.
def enters (u : Suite) : Call → Nat
  | .engine i s => u.fleet.enters (i, s)
  | .cache j s =>
    match u.cache j with
    | .ok (_, c) => s.enters c
    | .error _ => 0

-- A fetch on an engine or on a file cache.
def looks (_ : Suite) : Call → Nat
  | .engine _ s => s.looks
  | .cache _ s => s.looks

-- New file caches on fresh engines.
structure Fresh (u : Suite) : Prop where
  fleet : u.fleet.Fresh
  caches : ∀ i c, (i, c) ∈ u.caches →
    ∃ e, u.fleet.engine i = .ok e ∧ FileCache.new e = .ok c

theorem cache_engine (h : u.cache j = .ok (i, c)) : u.fleet.engines[i]? = some c.engine := by
  unfold cache at h
  cases hentry : Breach.elementAt u.caches j with
  | error breach => simp [hentry, bind, Except.bind] at h
  | ok entry =>
    cases hengine : u.fleet.engine entry.1 with
    | error breach => simp [hentry, hengine, bind, Except.bind] at h
    | ok e =>
      simp only [hentry, hengine, bind, Except.bind, pure, Except.pure, Except.ok.injEq,
        Prod.mk.injEq] at h
      obtain ⟨rfl, rfl⟩ := h
      exact Fleet.engine_ok hengine

theorem call_sound (h : u.fleet.Sound a b) (x : Call) :
    Ends (call x) u (fun _ u' => u'.fleet.Sound (a + u.enters x) (b + u.looks x))
      (fun _ u' => u'.fleet.Sound a b) := by
  cases x with
  | engine i s =>
    simp only [call, onFleet, ends_bind, ends_onPart, ends_pure]
    exact Fleet.step_sound h (i, s)
  | cache j s =>
    simp only [call, ends_bind, ends_pure]
    unfold Ends onCache
    cases hcache : u.cache j with
    | error breach => exact h
    | ok entry =>
      obtain ⟨i, c⟩ := entry
      have hengine := cache_engine hcache
      have hs := h.engines c.engine (List.mem_of_getElem? hengine)
      have hbilled := FileCache.step_billed (m := ⟨c, u.fleet.tally⟩) hs s
      simp only [enters, looks, hcache]
      change Ends (onPart _ _ _) u _ _
      rw [ends_onPart]
      refine hbilled.imp ?_ ?_
      · intro _ m hdone
        exact h.keep hengine hdone
      · intro _ m hfailed
        exact hfailed ▸ h.keep hengine (.refl hs)

-- From fresh engines, whatever is called on them or on file caches above them, and whichever of the
-- calls fail: the shared counters agree with what the engines hold and with what went through.
theorem balanced_after_calls :
    (∀ {K : Type} [DecidableEq K] (f : Fleet K) (calls : List (Nat × Engine.Step K)), f.Fresh →
      (afterCalls Fleet.call f calls).Balanced (passed Fleet.call Fleet.enters f calls)
        (passed Fleet.call Fleet.looks f calls)) ∧
    ∀ (u : Suite) (calls : List Call), u.Fresh →
      (afterCalls call u calls).fleet.Balanced (passed call enters u calls)
        (passed call looks u calls) := by
  constructor
  · intro K _ f calls hfresh
    have hsound := balanced_after (fun f : Fleet K => f.Sound)
      (fun _ c _ _ h => Fleet.step_sound h c) hfresh.sound calls
    rw [Nat.zero_add, Nat.zero_add] at hsound
    exact hsound.balanced
  · intro u calls hfresh
    have hsound := balanced_after (fun u : Suite => u.fleet.Sound)
      (fun _ x _ _ h => call_sound h x) hfresh.fleet.sound calls
    rw [Nat.zero_add, Nat.zero_add] at hsound
    exact hsound.balanced

-- Two engines and three file caches, two of which share an engine with room for two blocks. Among
-- the calls are evictions in a store and in an update, a refused update and a refused fetch, a
-- replaced name and a name that is not known.
theorem balanced_after_calls_shared : ∃ e e' : Engine BlockKey,
    Engine.new (.ofLayout 1 3 8192) = .ok e ∧ Engine.new (.ofLayout 2 2 8192) = .ok e' ∧
    let f : Fleet BlockKey := ⟨[e, e'], {}⟩
    let stores : List (Nat × Engine.Step BlockKey) := [(0, .store ⟨4, 0⟩ 0 ⟨#[1]⟩),
      (1, .store ⟨4, 0⟩ 8192 ⟨#[1]⟩), (0, .fetch ⟨4, 0⟩ 0 1), (1, .fetchWhole ⟨4, 0⟩ 8192)]
    let u : Suite := ⟨f, [(0, { engine := e }), (0, { engine := e }), (1, { engine := e' })]⟩
    let calls : List Call := [.cache 0 (.update "a" 0 0 ⟨#[1]⟩), .cache 0 (.update "a" 7 8 ⟨#[2]⟩),
      .cache 1 (.update "b" 0 2 ⟨#[3]⟩), .engine 0 (.store ⟨9, 9⟩ 0 ⟨#[4]⟩),
      .cache 2 (.update "a" 3 8192 ⟨#[5]⟩), .cache 2 (.update "a" 3 0 ⟨#[6]⟩),
      .cache 1 (.fetch "b" 0 0 8), .cache 1 (.fetch "c" 0 0 8), .cache 1 (.fetch "b" 0 8 8192),
      .cache 0 (.update "c" 1 0 ⟨#[7]⟩), .cache 0 (.rename "c" "a"), .engine 1 (.delete ⟨0, 3⟩)]
    f.Fresh ∧ u.Fresh ∧
    (afterCalls Fleet.call f stores).Balanced 1 2 ∧
    (afterCalls call u calls).fleet.tally = ⟨1, 4, 1, 1, 0⟩ ∧
    (afterCalls call u calls).fleet.Balanced 5 2 := by
  refine ⟨_, _, rfl, rfl, ?_⟩
  intro f stores u calls
  have hf : f.Fresh := ⟨by
    intro e he
    simp only [f, List.mem_cons, List.not_mem_nil, or_false] at he
    rcases he with rfl | rfl
    · exact ⟨.ofLayout 1 3 8192, .ample, rfl⟩
    · exact ⟨.ofLayout 2 2 8192, .ample, rfl⟩, rfl⟩
  have hu : u.Fresh := ⟨hf, by
    intro i c hc
    simp only [u, List.mem_cons, List.not_mem_nil, or_false, Prod.mk.injEq] at hc
    rcases hc with ⟨rfl, rfl⟩ | ⟨rfl, rfl⟩ | ⟨rfl, rfl⟩
    all_goals exact ⟨_, rfl, rfl⟩⟩
  have hfleet := balanced_after_calls.1 f stores hf
  have hsuite := balanced_after_calls.2 u calls hu
  have hstores : passed Fleet.call Fleet.enters f stores = 1 ∧
    passed Fleet.call Fleet.looks f stores = 2 := by decide +kernel
  have hcalls : passed call enters u calls = 5 ∧ passed call looks u calls = 2 := by decide +kernel
  rw [hstores.1, hstores.2] at hfleet
  rw [hcalls.1, hcalls.2] at hsuite
  exact ⟨hf, hu, hfleet, by decide +kernel, hsuite⟩

end Suite

end Blockwise
