import Blockwise.Proofs.FileCache.Others
import Blockwise.Proofs.Tier.Safety

namespace Blockwise

open Act

-- A call that asks for more than a block can hold is refused, and the cache is as sound as before.
theorem FileCache.afterStep_kept {m : Metered FileCache} (hs : m.part.Sound) (s : Step) :
    Kept m.part (afterStep m s).part := by
  have hends : Ends (step s) m (fun _ m' => Kept m.part m'.part) (fun _ m' => Kept m.part m'.part) := by
    cases s with
    | update name block offset data =>
      simp only [step, ends_bind, ends_pure]
      refine (update_filed hs name block offset data).imp ?_ ?_
      · intro _ m' hdone
        obtain ⟨_, hfiled⟩ := hdone
        exact hfiled.kept
      · intro _ m' hfailed
        obtain ⟨_, _, hnumbered⟩ := hfailed
        exact ⟨hnumbered.sound, by rw [layout, layout, hnumbered.engine]⟩
    | fetch name block offset len =>
      rw [step, ends_map]
      refine (fetch_found hs name block offset len).imp ?_ ?_
      · intro _ m' hdone
        rcases hdone with ⟨hfound, _⟩ | ⟨_, hsame, _⟩
        · exact hfound.kept hs
        · rw [hsame]
          exact ⟨hs, rfl⟩
      · intro _ m' hfailed
        rw [hfailed.1]
        exact ⟨hs, rfl⟩
    | delete name =>
      simp only [step, ends_bind, ends_pure]
      exact (delete_kept hs name).imp (fun _ _ => id) fun _ _ => False.elim
    | rename source dest =>
      simp only [step, ends_bind, ends_pure]
      exact (rename_kept hs source dest).imp (fun _ _ => id) fun _ _ => False.elim
  exact hends.outcome

-- A call of the cache, or the use of a scratch buffer, whatever is left in it.
inductive Aside where
  | call (s : FileCache.Step)
  | borrow (pool size : Nat)
  | giveBack (pool : Nat) (buffer : Bytes)

namespace Aside

variable {β : Type}

def Avoids (name : String) : Aside → Prop
  | call s => s.Avoids name
  | borrow _ _ | giveBack _ _ => True

def act : Aside → Act Tier Unit
  | call s => do let _ ← Tier.step s
  | borrow pool size => do let _ ← Tier.borrow pool size
  | giveBack pool buffer => Tier.giveBack pool buffer

-- The tier is left as it is, whether or not the call is refused.
def on (a : Aside) (s : Site β) : Site β := { s with tier := (outcome a.act s.tier).2 }

end Aside

namespace Tier

variable {α β : Type} {t t' : Tier} {pool : Nat} {claims : String → Bytes → Prop} {s : Site β}

-- A cache that was made for any sizing and has been used since, or none.
def Reached (t : Tier) : Prop :=
  ∀ c ∈ t.files, ∃ sizing memory fresh steps, FileCache.ofSizing sizing memory = .ok fresh ∧
    c = (FileCache.after ⟨fresh, {}⟩ steps).part

theorem reached_of_sizing {sizing : Sizing} {memory : Memory} {c : FileCache}
    (h : FileCache.ofSizing sizing memory = .ok c) (hfiles : t.files = some c) : t.Reached :=
  fun _ hc => ⟨sizing, memory, c, [], h, Option.some.inj (hc.symm.trans hfiles)⟩

theorem Reached.tidy (h : t.Reached) : ∀ c ∈ t.files, c.Tidy := by
  intro c hc
  obtain ⟨_, _, fresh, steps, hfresh, rfl⟩ := h c hc
  exact (FileCache.ofSizing_tidy hfresh).after (m := ⟨fresh, {}⟩) steps

theorem Reached.intact (h : t.Reached) (hpools : ∀ p ∈ t.pools, p.Sound) :
    t.Intact t.pools.size t.layout :=
  ⟨fun c hc => (h.tidy c hc).sound, rfl, rfl, hpools⟩

-- A cache that is not there refuses nothing, and one that is there breaks off.
theorem onFiles_unhandled (absent : α) (x : FileCache.Run α) (t : Tier) :
    Ends (onFiles absent x) t (fun _ _ => True) (fun e _ => ¬e.Handled) := by
  cases hfiles : t.files with
  | none => simp only [Ends, onFiles, hfiles]
  | some c =>
    simp only [Ends, onFiles, hfiles]
    cases x ⟨c, t.tally⟩ with
    | ok a m => trivial
    | error b m => exact id

theorem update_done {pools : Nat} {shape : Option (Nat × Nat)} (h : t.Intact pools shape)
    (name : String) (block : Nat) {offset : Nat} {data : Bytes} (hfits : Fits shape offset data.size) :
    Ends (update name block offset data) t (fun _ _ => True) (fun _ _ => False) := by
  have hbreaks : Ends (update name block offset data) t (fun _ _ => True) (fun e _ => ¬e.Handled) := by
    simp only [update, ends_bind, ends_note]
    exact onFiles_unhandled () _ _
  exact ((safe_update name block hfits t h).and hbreaks).imp (fun _ _ _ => trivial)
    fun _ _ hfailed => hfailed.2 hfailed.1.2

theorem rename_unhandled (source dest : String) (t : Tier) :
    Ends (rename source dest) t (fun _ _ => True) (fun e _ => ¬e.Handled) := by
  simp only [rename, ends_bind, ends_note]
  exact onFiles_unhandled () _ _

theorem rename_done {pools : Nat} {shape : Option (Nat × Nat)} (h : t.Intact pools shape)
    (source dest : String) :
    Ends (rename source dest) t (fun _ _ => True) (fun _ _ => False) :=
  ((safe_rename source dest t h).and (rename_unhandled source dest t)).imp (fun _ _ _ => trivial)
    fun _ _ hfailed => hfailed.2 hfailed.1.2

-- The cache is changed by the action, if there is one, and the pools are not.
def Through (x : FileCache.Run α) (t t' : Tier) : Prop :=
  t'.files = t.files.map (fun c => (outcome x ⟨c, t.tally⟩).2.part) ∧ t'.pools = t.pools

theorem through_map {γ : Type} (f : α → γ) (x : FileCache.Run α) (t : Tier) :
    Through (f <$> x) t = Through x t := by
  funext t'
  simp only [Through, outcome_map]

theorem onFiles_through (absent : α) (x : FileCache.Run α) (t : Tier) :
    Ends (onFiles absent x) t (fun _ => Through x t) (fun _ => Through x t) := by
  cases hfiles : t.files with
  | none =>
    simp only [Ends, onFiles, hfiles]
    exact ⟨by rw [hfiles, Option.map_none], rfl⟩
  | some c =>
    simp only [Ends, onFiles, hfiles, Through, outcome, Option.map_some]
    cases x ⟨c, t.tally⟩ with
    | ok a m => exact ⟨rfl, rfl⟩
    | error b m => exact ⟨rfl, rfl⟩

theorem onFiles_noted (absent : α) (x : FileCache.Run α) (call : CacheCall) (t : Tier) :
    Ends (onFiles absent x) { t with journal := t.journal.push call }
      (fun _ => Through x t) (fun _ => Through x t) := onFiles_through absent x _

theorem step_through (t : Tier) (s : FileCache.Step) :
    Ends (step s) t (fun _ => Through (FileCache.step s) t)
      (fun _ => Through (FileCache.step s) t) := by
  cases s with
  | update name block offset data =>
    simp only [step, update, FileCache.step, bind_pure_comp, ends_map, through_map, ends_bind,
      ends_note]
    exact onFiles_noted () _ _ t
  | fetch name block offset len =>
    simp only [step, fetch, FileCache.step, ends_map, through_map, ends_bind, ends_note, ends_pure]
    exact onFiles_through none _ t
  | delete name =>
    simp only [step, delete, FileCache.step, bind_pure_comp, ends_map, through_map, ends_bind,
      ends_note]
    exact onFiles_noted () _ _ t
  | rename source dest =>
    simp only [step, rename, FileCache.step, bind_pure_comp, ends_map, through_map, ends_bind,
      ends_note]
    exact onFiles_noted () _ _ t

-- What the cache is after a call of others, and that the call takes no buffer.
theorem files_step (t : Tier) (s : FileCache.Step) :
    (outcome (step s) t).2.files = t.files.map (fun c => (FileCache.afterStep ⟨c, t.tally⟩ s).part) ∧
      (outcome (step s) t).2.pools = t.pools := (step_through t s).outcome

theorem Intact.step {pools : Nat} {shape : Option (Nat × Nat)} (h : t.Intact pools shape)
    (s : FileCache.Step) : (outcome (Tier.step s) t).2.Intact pools shape := by
  obtain ⟨hfiles, hpools⟩ := files_step t s
  have hkept : ∀ c ∈ t.files, FileCache.Kept c (FileCache.afterStep ⟨c, t.tally⟩ s).part := fun c hc =>
    FileCache.afterStep_kept (m := ⟨c, t.tally⟩) (h.sound c hc) s
  refine ⟨fun c' hc' => ?_, ?_, hpools ▸ h.pools⟩
  · obtain ⟨c, hc, rfl⟩ := Option.map_eq_some_iff.mp (hfiles.symm.trans hc')
    exact (hkept c hc).1
  · rw [← h.layout, Tier.layout, Tier.layout, hfiles, Option.map_map]
    cases hc : t.files with
    | none => rfl
    | some c => exact congrArg some (hkept c hc).2

theorem Intact.aside {pools : Nat} {shape : Option (Nat × Nat)} (h : t.Intact pools shape)
    (a : Aside) : (outcome a.act t).2.Intact pools shape := by
  cases a with
  | call s =>
    simp only [Aside.act, bind_pure_comp, outcome_map]
    exact h.step s
  | borrow owner size =>
    simp only [Aside.act, bind_pure_comp, outcome_map]
    by_cases howner : owner < pools
    · exact ((safe_borrow howner size t h).imp (fun _ _ hdone => hdone.1.1)
        fun _ _ hfailed => hfailed.1.1).outcome
    · have hnone : t.pools[owner]? = none :=
        Array.getElem?_eq_none (h.pools.1.symm ▸ Nat.not_lt.mp howner)
      simpa only [outcome, Tier.borrow, hnone] using h
  | giveBack owner buffer =>
    exact ((safe_giveBack owner buffer t h).imp (fun _ _ hdone => hdone.1.1)
      fun _ _ hfailed => hfailed.1.1).outcome

theorem Honest.step (h : t.Honest pool claims) {s : FileCache.Step}
    (havoids : ∀ name data, claims name data → s.Avoids name) :
    (outcome (Tier.step s) t).2.Honest pool claims := by
  obtain ⟨hfiles, hpools⟩ := files_step t s
  refine ⟨fun c' hc' => ?_, h.stocked.of_pools hpools, fun name data hclaim block i hi x y hx => ?_⟩
  · obtain ⟨c, hc, rfl⟩ := Option.map_eq_some_iff.mp (hfiles.symm.trans hc')
    exact (FileCache.afterStep_showsLess (m := ⟨c, t.tally⟩) (h.sound c hc) s).1
  · rw [byteAt, hfiles] at hx
    cases hc : t.files with
    | none =>
      rw [hc] at hx
      cases hx
    | some c =>
      rw [hc] at hx
      have hless := (FileCache.afterStep_showsLess (m := ⟨c, t.tally⟩) (h.sound c hc) s).2 name
        (havoids name data hclaim) block i hi x hx
      refine h.shows name data hclaim block i hi x y ?_
      rwa [byteAt, hc]

-- Others may use every pool; what is claimed has nothing to do with the buffers.
theorem Honest.borrow (h : t.Honest pool claims) (owner size : Nat) :
    (outcome (Tier.borrow owner size) t).2.Honest pool claims := by
  cases hget : t.pools[owner]? with
  | none => simpa only [outcome, Tier.borrow, hget] using h
  | some p =>
    obtain ⟨hlt, rfl⟩ := Array.getElem?_eq_some_iff.mp hget
    have htaken := ((h.stocked.sound _ (Array.getElem_mem hlt)).take size).2
    simp only [outcome, Tier.borrow, hget]
    refine h.of_pools rfl ⟨Array.size_setIfInBounds.symm ▸ h.stocked.pool, fun q hq => ?_⟩
    rcases Array.mem_or_eq_of_mem_setIfInBounds hq with hq | rfl
    · exact h.stocked.sound q hq
    · exact htaken

theorem Honest.aside (h : t.Honest pool claims) {a : Aside}
    (havoids : ∀ name data, claims name data → a.Avoids name) :
    (outcome a.act t).2.Honest pool claims := by
  cases a with
  | call s =>
    simp only [Aside.act, bind_pure_comp, outcome_map]
    exact h.step havoids
  | borrow owner size =>
    simp only [Aside.act, bind_pure_comp, outcome_map]
    exact h.borrow owner size
  | giveBack owner buffer => exact h.giveBack owner buffer

-- The cache stays, and no number of the name goes to another one.
def Reserves (name : String) (t t' : Tier) : Prop :=
  ∀ c ∈ t.files, c.Tidy → ∃ c' ∈ t'.files, c'.Tidy ∧
    ∀ file, c.Reserved name file → c'.Reserved name file

theorem reserves_of_files (name : String) (h : t'.files = t.files) : t.Reserves name t' :=
  fun c hc ht => ⟨c, h ▸ hc, ht, fun _ => id⟩

theorem Reserves.trans {name : String} {t'' : Tier} (h : t.Reserves name t')
    (h' : t'.Reserves name t'') : t.Reserves name t'' := by
  intro c hc ht
  obtain ⟨c', hc', ht', hkept⟩ := h c hc ht
  obtain ⟨c'', hc'', ht'', hkept'⟩ := h' c' hc' ht'
  exact ⟨c'', hc'', ht'', fun file hfile => hkept' file (hkept file hfile)⟩

theorem step_reserves (name : String) {s : FileCache.Step} (hs : ∀ dest, s ≠ .rename name dest)
    (t : Tier) :
    Ends (step s) t (fun _ t' => t.Reserves name t') (fun _ t' => t.Reserves name t') := by
  have hkept : ∀ t', Through (FileCache.step s) t t' → t.Reserves name t' := by
    intro t' hthrough c hc ht
    refine ⟨_, ?_, (ht.step_ends (m := ⟨c, t.tally⟩) s).outcome,
      fun file => FileCache.afterStep_reserved (m := ⟨c, t.tally⟩) ht.sound hs⟩
    rw [hthrough.1, hc, Option.map_some]
    rfl
  exact (step_through t s).imp (fun _ => hkept) fun _ => hkept

theorem update_reserves (name other : String) (block offset : Nat) (data : Bytes) (t : Tier) :
    Ends (update other block offset data) t (fun _ t' => t.Reserves name t')
      (fun _ t' => t.Reserves name t') := by
  have hends := step_reserves name (s := .update other block offset data) (fun _ => nofun) t
  rwa [step, bind_pure_comp, ends_map] at hends

theorem delete_reserves (name other : String) (t : Tier) :
    Ends (delete other) t (fun _ t' => t.Reserves name t') (fun _ t' => t.Reserves name t') := by
  have hends := step_reserves name (s := .delete other) (fun _ => nofun) t
  rwa [step, bind_pure_comp, ends_map] at hends

theorem rename_reserves {name source : String} (hne : source ≠ name) (dest : String) (t : Tier) :
    Ends (rename source dest) t (fun _ t' => t.Reserves name t') (fun _ t' => t.Reserves name t') := by
  have hends := step_reserves name (s := .rename source dest)
    (fun _ heq => hne (FileCache.Step.rename.inj heq).1) t
  rwa [step, bind_pure_comp, ends_map] at hends

-- A delete takes the name out of the cache with its blocks.
theorem delete_withdrawn {c : FileCache} (ht : c.Tidy) (hfiles : t.files = some c) (name : String) :
    Ends (delete name) t
      (fun _ t' => ∃ c', t'.files = some c' ∧ c'.Tidy ∧ FileCache.Withdrawn name c c' ∧
        ∀ file, c.Reserved name file → c'.Reserved name file)
      (fun _ _ => False) := by
  simp only [delete, ends_bind, ends_note]
  rw [ends_onFiles (t := { t with journal := t.journal.push (.delete name) }) hfiles]
  exact (FileCache.Tidy.delete_withdrawn (m := ⟨c, t.tally⟩) ht name).imp
    (fun _ m' hdone => ⟨m'.part, rfl, hdone⟩) fun _ _ => id

theorem update_spared {c : FileCache} (hs : c.Sound) (hfiles : t.files = some c) (name : String)
    (block offset : Nat) (data : Bytes) :
    Ends (update name block offset data) t
      (fun _ t' => ∃ c', t'.files = some c' ∧
        FileCache.Spared name (c.size < c.engine.capacity) c c')
      (fun _ t' => ∃ c', t'.files = some c' ∧
        FileCache.Spared name (c.size < c.engine.capacity) c c') := by
  simp only [update, ends_bind, ends_note]
  rw [ends_onFiles (t := { t with journal := t.journal.push (.update name block offset data) }) hfiles]
  exact (FileCache.update_spared (m := ⟨c, t.tally⟩) hs name block offset data).imp
    (fun _ m' hspared => ⟨m'.part, rfl, hspared⟩) fun _ m' hspared => ⟨m'.part, rfl, hspared⟩

theorem aside_reserves {name : String} {a : Aside} (ha : ∀ dest, a ≠ .call (.rename name dest))
    (t : Tier) : t.Reserves name (outcome a.act t).2 := by
  cases a with
  | call s =>
    simp only [Aside.act, bind_pure_comp, outcome_map]
    exact (step_reserves name (fun dest hs => ha dest (congrArg Aside.call hs)) t).outcome
  | borrow owner size =>
    simp only [Aside.act, bind_pure_comp, outcome_map]
    refine reserves_of_files name ?_
    simp only [outcome, borrow]
    cases t.pools[owner]? with
    | none => rfl
    | some p => rfl
  | giveBack owner buffer => exact reserves_of_files name rfl

end Tier

end Blockwise
