import Blockwise.Proofs.Client.Latch
import Std.Data.TreeSet.Lemmas

namespace Blockwise

open Act

section Stacked

variable {ω β τ ι ο κ : Type} {p : Port ω β τ ι ο κ} {layers : ω → List Directory}
  {latch : Latch τ} {held : κ → Bool} {closed : τ → Bool} {sound : κ → Prop} {ok : String → Prop}
  [DecidablePred ok] {input : ι → Prop} {out : ο → Prop} {pools : Nat} {shape : Option (Nat × Nat)}

-- Each volume of a store through any number of directories, one on top of the other.
def Port.stacked (p : Port ω β τ ι ο κ) (layers : ω → List Directory) :
    Port ω β (Site τ) (Source ι) (Output ο τ) κ where
  volume on :=
    (layers on).foldr (fun d below => d.volume p.feed below) (Directory.plain (p.volume on))
  feed := Source.feed p.feed
  sink := Output.sink p.sink
  keeper := p.keeper.onSite
  outside change s := { s with store := p.outside change s.store }

-- The latch of a store behind an intact tier.
def Latch.onSite (latch : Latch τ) (pools : Nat) (shape : Option (Nat × Nat)) : Latch (Site τ) where
  holds s := s.tier.Intact pools shape ∧ latch.holds s.store
  leads := latch.leads
  shut s := latch.shut s.store

theorem layers_confined {v : Volume τ ι ο κ}
    (h : (v.confined ok).Safe latch.regime input out fun _ => True) (feed : Feed ι τ)
    {dirs : List Directory} (hpools : ∀ d ∈ dirs, d.pool < pools) :
    Directory.Below.Sturdy
      (Volume.confined (dirs.foldr (fun d below => d.volume feed below) (Directory.plain v)) ok)
      pools shape latch.regime input out fun _ => True := by
  induction dirs with
  | nil => exact Directory.plain_confined h
  | cons d dirs ih =>
    obtain ⟨hpool, hpools⟩ := List.forall_mem_cons.mp hpools
    exact Directory.volume_confined (ih hpools) hpool

theorem Port.Safe.stacked (h : p.Safe latch.regime ok input out)
    (hpools : ∀ on, ∀ d ∈ layers on, d.pool < pools) :
    (p.stacked layers).Safe (latch.onSite pools shape).regime ok (Source.Sound pools input)
      (Output.Sound (Site.regime pools shape latch.regime) out) where
  volume on := layers_confined (h.volume on) p.feed (hpools on)
  feed := Source.feed_safe h.feed
  sink := Output.sink_safe h.sink
  outside change s hs :=
    Site.leaves_store (g := latch.regime) hs (h.outside change s.store hs.2)

theorem lock_stacked (p : Port ω β τ ι ο κ) (layers : ω → List Directory) (on : ω) (name : String) :
    ((p.stacked layers).volume on).lock name = id <$> Site.onStore ((p.volume on).lock name) := by
  simp only [Port.stacked]
  induction layers on with
  | nil => rfl
  | cons d dirs ih => exact ih

theorem Latch.Opens.onSite {name : String} {s : Site τ} {store : τ}
    (hs : (latch.onSite pools shape).holds s) (h : latch.Opens name s.store store) :
    (latch.onSite pools shape).Opens name s { s with store } :=
  ⟨⟨hs.1, h.holds⟩, h.here, h.elsewhere⟩

theorem Port.Locks.stacked (h : p.Locks latch held closed sound) :
    (p.stacked layers).Locks (latch.onSite pools shape) held (fun s => closed s.store) sound where
  lock on name s hs := by
    rw [lock_stacked, ends_map, Site.onStore, ends_onPart]
    refine (h.lock on name s.store hs.2).imp ?_ ?_
    · rintro lock store ⟨hheld, hname, hsound, hshuts⟩
      exact ⟨hheld, hname, hsound, ⟨hs.1, hshuts.holds⟩, hshuts.here, hshuts.elsewhere⟩
    · rintro e store ⟨rfl, hshut⟩
      exact ⟨rfl, hshut⟩
  release lock s hs hshut := by
    simp only [Port.stacked, Keeper.onSite, ends_onPart]
    refine (h.release lock s.store hs.2 hshut).imp ?_ ?_
    · exact fun _ r hdone => ⟨hdone.1, hdone.2.1, hdone.2.2.onSite hs⟩
    · exact fun _ r hdone => ⟨hdone.1, hdone.2.1, hdone.2.2.onSite hs⟩
  drop lock s hs hshut hheld := (h.drop lock s.store hs.2 hshut hheld).onSite hs
  spent lock s hheld := by
    simp only [Port.stacked, Keeper.onSite, h.spent lock s.store hheld]

-- Whatever is done with a store and past the directories over it, its locks stay exclusive.
theorem Client.exclusive_stacked {tier : Tier} {store : τ} (hp : p.Safe latch.regime ok input out)
    (hl : p.Locks latch held closed sound) (hlayers : ∀ on, ∀ d ∈ layers on, d.pool < pools)
    (htier : tier.Intact pools shape) (hstore : latch.holds store) {moves : List (Move ω β)}
    (hmoves : ∀ m ∈ moves, m.Spares ok) :
    let x := afterMoves (p.stacked layers) held { world := ⟨tier, store⟩ } moves
    (∀ handle lock, x.locks handle = some lock → sound lock) ∧
      x.Exclusive (p.stacked layers) held (fun s => closed s.store) latch.leads ok
        (latch.shut store) := by
  intro x
  have hsafe : (p.stacked layers).Safe (latch.onSite pools shape).regime ok
      (Source.Sound pools input) (Output.Sound (Site.regime pools shape latch.regime) out) :=
    hp.stacked hlayers
  have hlocks : (p.stacked layers).Locks (latch.onSite pools shape) held (fun s => closed s.store)
      sound := hl.stacked
  have hstart : (latch.onSite pools shape).holds ⟨tier, store⟩ := ⟨htier, hstore⟩
  have horderly := (orderly_fresh hstart).afterMoves hsafe hlocks hmoves
  exact ⟨horderly.locks, horderly.exclusive hsafe hlocks⟩

end Stacked

namespace MemoryStore

variable {name : String} {s s' : MemoryStore}

-- Clones of one store, all with stamps or all without. What happens past them happens to files.
def users (ω : Type) (stamped : Bool) : Port ω (Std.TreeMap String MemoryFile × Nat) MemoryStore
    MemoryInput MemoryOutput MemoryLock where
  volume _ := volume stamped
  feed := feed
  sink := sink
  keeper := keeper
  outside change s :=
    let (files, clock) := change (s.files, s.clock)
    { s with files, clock }

def latch (name : String) : Latch MemoryStore where
  holds _ := True
  leads other := other = name
  shut s := name ∈ s.locks

theorem leaves_locks (h : s'.locks = s.locks) : (latch name).regime.Leaves s s' := by
  refine ⟨trivial, ?_⟩
  show name ∈ s'.locks ↔ name ∈ s.locks
  rw [h]

-- An action that takes no lock and gives none back.
abbrev Lockless (name : String) {α : Type} (x : Act MemoryStore α) : Prop :=
  Safe (latch name).regime x fun _ => True

theorem lockless_requireOpen : Lockless name requireOpen := by
  refine .get fun s hs => ?_
  split
  · exact ⟨.refl hs, trivial⟩
  · exact ⟨.refl hs, trivial⟩

theorem lockless_find (file : String) : Lockless name (find file) := by
  refine .get fun s hs => ?_
  cases s.files[file]? with
  | none => exact ⟨.refl hs, trivial⟩
  | some file => exact ⟨.refl hs, trivial⟩

theorem lockless_modify {f : MemoryStore → MemoryStore} (hf : ∀ s, (f s).locks = s.locks) :
    Lockless name (modify f) := .modify fun s _ => leaves_locks (hf s)

theorem volume_confined (stamped : Bool) :
    ((volume stamped).confined fun _ => True).Safe (latch name).regime (fun _ => True)
      (fun _ => True) fun _ => True where
  openInput file _ :=
    lockless_requireOpen.bind fun _ _ => (lockless_find file).bind fun _ _ => .pure trivial
  create file purpose := by
    rw [Volume.confined_create _ trivial]
    have hpublish : Lockless name (modify (·.publish file ByteArray.empty)) :=
      lockless_modify fun _ => rfl
    exact lockless_requireOpen.bind fun _ _ => hpublish.bind fun _ _ => .pure trivial
  list := lockless_requireOpen.bind fun _ _ => .get fun _ hs => ⟨.refl hs, trivial⟩
  delete file := by
    rw [Volume.confined_delete _ trivial]
    exact lockless_requireOpen.bind fun _ _ =>
      (lockless_find file).bind fun _ _ => lockless_modify fun _ => rfl
  hasFile _ := .get fun _ hs => ⟨.refl hs, trivial⟩
  length file := (lockless_find file).bind fun _ _ => .pure trivial
  stamp file := by
    cases stamped with
    | true => exact (lockless_find file).bind fun _ _ => .pure trivial
    | false => exact .fail _
  sync files := .forM fun file => (lockless_find file).bind fun _ _ => .pure trivial
  lock _ := .fail _
  close := lockless_modify fun _ => rfl

theorem feed_lockless : feed.Safe (latch name).regime fun _ => True where
  seek _ _ _ := .pure trivial
  read input position len s _ _ := by
    refine ⟨leaves_locks ?_, (readAt_within input position len s).1⟩
    simp only [feed, readAt]
    split <;> rfl
  clone _ _ := .pure trivial

theorem sink_lockless : sink.Safe (latch name).regime fun _ => True where
  write data := by
    refine .get fun r hr => ?_
    obtain ⟨⟨file, buffer, dirty, closed⟩, s⟩ := r
    cases closed with
    | true => exact ⟨.refl hr, trivial⟩
    | false => exact ⟨Regime.leaves_withHandle trivial (.refl hr.2), trivial⟩
  flush := .modify fun r hr => by
    obtain ⟨⟨file, buffer, dirty, closed⟩, s⟩ := r
    cases dirty with
    | true => exact Regime.leaves_withHandle trivial (leaves_locks rfl)
    | false => exact .refl hr
  close := by
    refine .get fun r hr => ?_
    obtain ⟨⟨file, buffer, dirty, closed⟩, s⟩ := r
    cases closed with
    | true => exact ⟨.refl hr, trivial⟩
    | false =>
      cases dirty with
      | true => exact ⟨Regime.leaves_withHandle trivial (leaves_locks rfl), trivial⟩
      | false => exact ⟨Regime.leaves_withHandle trivial (.refl hr.2), trivial⟩
  drop _ _ _ hs := .refl hs

theorem users_safe (ω : Type) (stamped : Bool) (name : String) :
    (users ω stamped).Safe (latch name).regime (fun _ => True) (fun _ => True) fun _ => True where
  volume _ := volume_confined stamped
  feed := feed_lockless
  sink := sink_lockless
  outside _ _ _ := leaves_locks rfl

theorem mem_insert_locks {locks : Std.TreeSet String} {other : String} :
    name ∈ locks.insert other ↔ other = name ∨ name ∈ locks := by
  rw [Std.TreeSet.mem_insert, Std.LawfulEqCmp.compare_eq_iff_eq]

theorem mem_erase_locks {locks : Std.TreeSet String} {other : String} :
    name ∈ locks.erase other ↔ other ≠ name ∧ name ∈ locks := by
  rw [Std.TreeSet.mem_erase, ne_eq, ne_eq, Std.LawfulEqCmp.compare_eq_iff_eq]

theorem opens_free (lock : MemoryLock) (s : MemoryStore) :
    (latch name).Opens lock.name s (s.free lock.name) := by
  refine ⟨trivial, ?_, ?_⟩
  · intro hleads hshut
    exact (mem_erase_locks.mp hshut).1 hleads
  · intro hleads
    exact mem_erase_locks.trans (and_iff_right hleads)

theorem users_locks (ω : Type) (stamped : Bool) (name : String) :
    (users ω stamped).Locks (latch name) MemoryLock.held MemoryStore.closed fun _ => True where
  lock _ other s _ := by
    have hmem : s.locks.contains other = true ↔ other ∈ s.locks := Std.TreeSet.contains_iff_mem
    simp only [users, volume, lock, requireOpen, ends_bind, ends_get]
    cases hclosed : s.closed with
    | true => simp
    | false =>
      simp only [Bool.false_eq_true, if_false, ends_pure]
      split
      · next htaken =>
        refine ⟨rfl, fun hleads _ => ⟨rfl, ?_⟩⟩
        obtain rfl : other = name := hleads
        exact hmem.mp htaken
      · next hfree =>
        refine ⟨rfl, rfl, trivial, trivial, ?_, ?_⟩
        · intro hleads
          obtain rfl : other = name := hleads
          exact ⟨fun hshut => hfree (hmem.mpr hshut), mem_insert_locks.mpr (.inl rfl)⟩
        · intro hleads
          exact mem_insert_locks.trans (or_iff_right hleads)
  release lock s _ _ := ⟨rfl, fun _ => trivial, opens_free lock s⟩
  drop lock s _ _ hheld := by
    simp only [users, keeper, hheld, if_true]
    exact opens_free lock s
  spent lock s hheld := by
    simp only [users, keeper, hheld]
    rfl

end MemoryStore

end Blockwise
